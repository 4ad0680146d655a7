import BananaOS.Umem.Blocks

/-!
# Is it the app's

`umem_owns` answers whether the `n` bytes at an address are an app's: it walks `g_dir` from the
frame of the first byte to the frame of the last.  The end is computed in 64 bits.  Where `a + n`
does not reach `2^64` the answer is exact (`umemOwns_exact`).  Where it does, the end comes out below
the beginning: it passes the comparison with `LIMIT`, the walk is over at once or after one frame, and
an app is told that memory is its own which belongs to nobody or does not exist.  `umemOwns_iff`
says for which calls the answer is right.

`g_dir` has `FRAMES` entries.  `frame_get` of a later frame reads past it, and nothing is said of what
it finds there: the walk then has no answer, `none`.
-/

namespace BananaOS.Umem

/-- `LIMIT` -/
def limit : ℕ := frames * block

section
variable (dir : ℕ → Option (ℕ × ℕ))

/-- The loop of `umem_owns`, with `left` frames to go: `frame_get` of each, and whose it is. -/
def ownsFrom (m : ℕ) : (left f : ℕ) → Option Bool
  | 0, _ => some true
  | left + 1, f =>
    if f < frames then
      match dir f with
      | some (id, _) => if id = m then ownsFrom m left (f + 1) else some false
      | none => some false
    else none

/-- `umem_owns`, for the memory `m` or for `NULL`.  `a` and `n` are 64 bits wide, and so are `a + n`
and `a + n - 1`. -/
def umemOwns (m : Option ℕ) (a n : ℕ) : Option Bool :=
  match m with
  | none => some false
  | some m =>
    let n := if n = 0 then 1 else n
    if limit < (a + n) % 2 ^ 64 then some false
    else ownsFrom dir m ((a + n + (2 ^ 64 - 1)) % 2 ^ 64 / block + 1 - a / block) (a / block)

/-- The frame is one of the memory's. -/
def Owned (m f : ℕ) : Prop := f < frames ∧ ∃ k, dir f = some (m, k)

/-- All the bytes of the `n` from `a` on, which may end beyond the address space, are in the memory's
frames. -/
def Owns (m a n : ℕ) : Prop := ∀ x, a ≤ x → x < a + n → Owned dir m (x / block)

/-- **When the answer is right.**  No bytes: the code asks about one.  An end below `2^64`: always.
An end at `2^64`: some frame from there on is not the memory's.  An end beyond: what is left of it is
above the limit, or in the frame of the first byte, which is not the memory's. -/
def OwnsRight (m a n : ℕ) : Prop :=
  if n = 0 then Owned dir m (a / block)
  else if a + n < 2 ^ 64 then True
  else if a + n = 2 ^ 64 then ∃ f, a / block ≤ f ∧ f < frames ∧ ¬ Owned dir m f
  else limit < a + n - 2 ^ 64 ∨
    (a / block = (a + n - 2 ^ 64 - 1) / block ∧ ¬ Owned dir m (a / block))

end

section
variable {dir : ℕ → Option (ℕ × ℕ)}

/-! ## The walk -/

/-- Where the walk stays in `g_dir`, it tells whether all its frames are the memory's. -/
theorem ownsFrom_exact (m : ℕ) : ∀ (left f : ℕ), f + left ≤ frames →
    ∃ b, ownsFrom dir m left f = some b ∧
      (b = true ↔ ∀ g, f ≤ g → g < f + left → Owned dir m g) := by
  intro left
  induction left with
  | zero =>
    intro f _
    exact ⟨true, rfl, by simp only [true_iff]; omega⟩
  | succ left ih =>
    intro f hf
    have hlt : f < frames := by omega
    -- one frame that is another's answers for the whole walk
    have hstop : ¬ Owned dir m f → ¬ ∀ g, f ≤ g → g < f + (left + 1) → Owned dir m g :=
      fun hno hall => hno (hall f (Nat.le_refl f) (by omega))
    unfold ownsFrom
    rw [if_pos hlt]
    cases hd : dir f with
    | none =>
      refine ⟨false, rfl, ?_⟩
      simp only [Bool.false_eq_true, false_iff]
      exact hstop fun ⟨_, k, hk⟩ => by rw [hd] at hk; cases hk
    | some p =>
      obtain ⟨id, k⟩ := p
      dsimp only
      split
      next hid =>
        subst hid
        obtain ⟨b, hb, hiff⟩ := ih (f + 1) (by omega)
        refine ⟨b, hb, hiff.trans ⟨fun h g h1 h2 => ?_, fun h g h1 h2 => h g (by omega) (by omega)⟩⟩
        rcases Nat.eq_or_lt_of_le h1 with rfl | h1
        · exact ⟨hlt, k, hd⟩
        · exact h g h1 (by omega)
      next hid =>
        refine ⟨false, rfl, ?_⟩
        simp only [Bool.false_eq_true, false_iff]
        refine hstop fun ⟨_, k', hk⟩ => ?_
        rw [hd] at hk
        exact hid (Prod.mk.inj (Option.some.inj hk)).1

/-- A walk that leaves `g_dir` has no answer unless it meets a frame that is another's first. -/
theorem ownsFrom_beyond (m : ℕ) : ∀ (left f : ℕ), 0 < left → frames < f + left →
    (ownsFrom dir m left f = some false ↔ ∃ g, f ≤ g ∧ g < frames ∧ ¬ Owned dir m g) := by
  intro left
  induction left with
  | zero =>
    intro f h0 _
    omega
  | succ left ih =>
    intro f _ hf
    unfold ownsFrom
    by_cases hlt : f < frames
    · rw [if_pos hlt]
      -- a frame that is another's ends the walk here
      have hstop : ¬ Owned dir m f →
          (some false = some false ↔ ∃ g, f ≤ g ∧ g < frames ∧ ¬ Owned dir m g) :=
        fun hno => ⟨fun _ => ⟨f, Nat.le_refl f, hlt, hno⟩, fun _ => rfl⟩
      cases hd : dir f with
      | none => exact hstop fun ⟨_, k, hk⟩ => by rw [hd] at hk; cases hk
      | some p =>
        obtain ⟨id, k⟩ := p
        dsimp only
        split
        next hid =>
          subst hid
          refine (ih (f + 1) (by omega) (by omega)).trans
            ⟨fun ⟨g, h1, h2⟩ => ⟨g, by omega, h2⟩, fun ⟨g, h1, h2, hno⟩ => ?_⟩
          have hgf : g ≠ f := fun h => hno (h ▸ ⟨hlt, k, hd⟩)
          exact ⟨g, by omega, h2, hno⟩
        next hid =>
          refine hstop fun ⟨_, k', hk⟩ => ?_
          rw [hd] at hk
          exact hid (Prod.mk.inj (Option.some.inj hk)).1
    · rw [if_neg hlt]
      exact ⟨fun h => (by cases h), fun ⟨g, h1, h2, _⟩ => by omega⟩

/-! ## The bytes and the frames -/

/-- The bytes are the memory's as soon as the frames from the first byte's to the last byte's are. -/
theorem owns_iff_frames (m a : ℕ) {n : ℕ} (hn : 0 < n) :
    Owns dir m a n ↔ ∀ g, a / block ≤ g → g ≤ (a + n - 1) / block → Owned dir m g := by
  constructor
  · intro h g h1 h2
    rcases Nat.eq_or_lt_of_le h1 with rfl | h1
    · exact h a (Nat.le_refl a) (by omega)
    · -- the first byte of a later frame is one of the bytes
      have hg : a < g * block := Nat.lt_mul_of_div_lt h1 (by decide)
      have hl : g * block ≤ a + n - 1 := (Nat.le_div_iff_mul_le (by decide)).mp h2
      have := h (g * block) (by omega) (by omega)
      rwa [Nat.mul_div_cancel g (by decide)] at this
  · intro h x h1 h2
    exact h (x / block) (Nat.div_le_div_right h1) (Nat.div_le_div_right (by omega))

/-- Bytes at or above the limit are nobody's. -/
theorem not_owned_above (m : ℕ) {x : ℕ} (h : limit ≤ x) : ¬ Owned dir m (x / block) := by
  rintro ⟨hlt, -⟩
  have : x < frames * block := (Nat.div_lt_iff_lt_mul (by decide)).mp hlt
  unfold limit at h
  omega

theorem not_owns_above (m : ℕ) {a n : ℕ} (hn : 0 < n) (h : limit < a + n) : ¬ Owns dir m a n :=
  fun ho => not_owned_above m (x := a + n - 1) (by omega) (ho _ (by omega) (by omega))

/-- **An end below `2^64`: the answer is exact.** -/
theorem umemOwns_exact (m : ℕ) {a n : ℕ} (hn : 0 < n) (h : a + n < 2 ^ 64) :
    ∃ b, umemOwns dir (some m) a n = some b ∧ (b = true ↔ Owns dir m a n) := by
  unfold umemOwns
  dsimp only
  rw [if_neg (by omega : ¬ n = 0), Nat.mod_eq_of_lt h]
  split
  next hl =>
    refine ⟨false, rfl, ?_⟩
    simp only [Bool.false_eq_true, false_iff]
    exact not_owns_above m hn hl
  next hl =>
    have hlast : (a + n + (2 ^ 64 - 1)) % 2 ^ 64 = a + n - 1 := by omega
    have hle : a / block ≤ (a + n - 1) / block := Nat.div_le_div_right (by omega)
    have hlt : (a + n - 1) / block < frames := by
      refine (Nat.div_lt_iff_lt_mul (by decide)).mpr ?_
      unfold limit at hl
      omega
    rw [hlast]
    obtain ⟨b, hb, hiff⟩ := ownsFrom_exact m ((a + n - 1) / block + 1 - a / block)
      (a / block) (by omega)
    refine ⟨b, hb, hiff.trans ?_⟩
    rw [owns_iff_frames m a hn]
    exact ⟨fun h g h1 h2 => h g h1 (by omega), fun h g h1 h2 => h g h1 (by omega)⟩

/-! ## The end beyond the address space -/

/-- An end at `2^64` comes out as 0, and the last frame as the last there could be. -/
theorem umemOwns_end (m : ℕ) {a n : ℕ} (ha : a < 2 ^ 64) (h : a + n = 2 ^ 64) :
    umemOwns dir (some m) a n = some false ↔ ∃ f, a / block ≤ f ∧ f < frames ∧ ¬ Owned dir m f := by
  unfold umemOwns
  dsimp only
  rw [if_neg (by omega : ¬ n = 0), h, if_neg (by decide)]
  have hlast : (2 ^ 64 + (2 ^ 64 - 1)) % 2 ^ 64 / block = 2 ^ 43 - 1 := by decide
  have hlt : a / block < 2 ^ 43 := (Nat.div_lt_iff_lt_mul (by decide)).mpr (by unfold block; omega)
  rw [hlast]
  exact ownsFrom_beyond m _ _ (by omega) (by unfold frames; omega)

/-- An end beyond `2^64` comes out below the beginning: no frame is looked at, or the first alone. -/
theorem umemOwns_wrapped (m : ℕ) {a n : ℕ} (ha : a < 2 ^ 64) (hn : n < 2 ^ 64)
    (h : 2 ^ 64 < a + n) :
    umemOwns dir (some m) a n = some false ↔ limit < a + n - 2 ^ 64 ∨
      (a / block = (a + n - 2 ^ 64 - 1) / block ∧ ¬ Owned dir m (a / block)) := by
  have hend : (a + n) % 2 ^ 64 = a + n - 2 ^ 64 := by omega
  have hlast : (a + n + (2 ^ 64 - 1)) % 2 ^ 64 = a + n - 2 ^ 64 - 1 := by omega
  unfold umemOwns
  dsimp only
  rw [if_neg (by omega : ¬ n = 0), hend, hlast]
  split
  next hl => exact ⟨fun _ => Or.inl hl, fun _ => rfl⟩
  next hl =>
    have hle : (a + n - 2 ^ 64 - 1) / block ≤ a / block := Nat.div_le_div_right (by omega)
    have hlt : (a + n - 2 ^ 64 - 1) / block < frames := by
      refine (Nat.div_lt_iff_lt_mul (by decide)).mpr ?_
      unfold limit at hl
      omega
    rcases Nat.eq_or_lt_of_le hle with heq | hlow
    · rw [heq, Nat.add_sub_cancel_left]
      obtain ⟨b, hb, hiff⟩ := ownsFrom_exact m 1 (a / block) (by omega)
      rw [hb]
      have hone : b = true ↔ Owned dir m (a / block) := by
        refine hiff.trans ⟨fun h => h _ (Nat.le_refl _) (by omega), fun h g h1 h2 => ?_⟩
        have hg : g = a / block := by omega
        rwa [hg]
      cases b <;> simp_all
    · have hzero : (a + n - 2 ^ 64 - 1) / block + 1 - a / block = 0 := by omega
      rw [hzero]
      refine ⟨fun h => (by cases h), fun h => ?_⟩
      rcases h with h | ⟨h, -⟩ <;> omega

/-- For no bytes the code answers for the one at the address. -/
theorem umemOwns_zero (m : ℕ) {a : ℕ} (ha : a < 2 ^ 64) :
    umemOwns dir (some m) a 0 = some true ↔ Owned dir m (a / block) := by
  have hone : umemOwns dir (some m) a 0 = umemOwns dir (some m) a 1 := rfl
  rw [hone]
  rcases Nat.lt_or_eq_of_le (Nat.succ_le_of_lt ha) with hlt | heq
  · obtain ⟨b, hb, hiff⟩ := umemOwns_exact m Nat.one_pos hlt
    rw [hb, Option.some.injEq, hiff, owns_iff_frames m a Nat.one_pos, Nat.add_sub_cancel]
    exact ⟨fun h => h _ (Nat.le_refl _) (Nat.le_refl _), fun h g h1 h2 => Nat.le_antisymm h2 h1 ▸ h⟩
  · -- the last byte there is: its frame is none of `g_dir`
    have ha : a = 2 ^ 64 - 1 := by omega
    subst ha
    have hnone : umemOwns dir (some m) (2 ^ 64 - 1) 1 = none := by
      have hlast : (2 ^ 64 - 1 + 1 + (2 ^ 64 - 1)) % 2 ^ 64 / block = 2 ^ 43 - 1 := by decide
      unfold umemOwns
      dsimp only
      rw [if_neg Nat.one_ne_zero, if_neg (by decide), hlast]
      exact if_neg (by decide)
    rw [hnone]
    exact ⟨fun h => (by cases h), fun h => absurd h.1 (by decide)⟩

/-! ## When the answer is right -/

/-- **`umem_owns` tells whether the bytes are the app's, for the calls of `OwnsRight` and no others.** -/
theorem umemOwns_iff (dir : ℕ → Option (ℕ × ℕ)) (m : ℕ) {a n : ℕ} (ha : a < 2 ^ 64)
    (hn : n < 2 ^ 64) :
    (∃ b, umemOwns dir (some m) a n = some b ∧ (b = true ↔ Owns dir m a n)) ↔
      OwnsRight dir m a n := by
  unfold OwnsRight
  split
  next h0 =>
    subst h0
    -- the empty interval is everybody's, and the code answers for one byte
    have hall : Owns dir m a 0 := fun x h1 h2 => by omega
    refine Iff.trans ⟨fun ⟨b, hb, hiff⟩ => ?_, fun h => ⟨true, h, by simp only [true_iff]; exact hall⟩⟩
      (umemOwns_zero m ha)
    rwa [hiff.mpr hall] at hb
  next h0 =>
    -- where the bytes are nobody's, to be right is to say so
    have hno : ¬ Owns dir m a n →
        ((∃ b, umemOwns dir (some m) a n = some b ∧ (b = true ↔ Owns dir m a n)) ↔
          umemOwns dir (some m) a n = some false) := by
      intro hno
      refine ⟨fun ⟨b, hb, hiff⟩ => ?_, fun h => ⟨false, h, by simp [hno]⟩⟩
      cases b with
      | false => exact hb
      | true => exact absurd (hiff.mp rfl) hno
    split
    next h => exact ⟨fun _ => trivial, fun _ => umemOwns_exact m (by omega) h⟩
    next h =>
      have hlim : limit < a + n := by
        have : limit < 2 ^ 64 := by decide
        omega
      refine (hno (not_owns_above m (by omega) hlim)).trans ?_
      split
      next heq => exact umemOwns_end m ha heq
      next hne => exact umemOwns_wrapped m ha hn (by omega)

/-- An app that holds one block is told so of its bytes. -/
theorem umemOwns_iff_block :
    (∃ b, umemOwns (fun f => if f = 2 then some (0, 0) else none) (some 0) 0x400000 4096 = some b ∧
      (b = true ↔ Owns (fun f => if f = 2 then some (0, 0) else none) 0 0x400000 4096)) :=
  (umemOwns_iff _ 0 (by decide) (by decide)).mpr (by
    unfold OwnsRight
    rw [if_neg (by decide), if_pos (by decide)]
    trivial)

/-- **An app that has no memory at all is told that nearly all of the address space is its own**: from
4 MiB on, by a length that ends one byte beyond the address space. -/
theorem umemOwns_wraps :
    umemOwns (Sys.boot.create 0).dir (some 0) 0x400000 (2 ^ 64 - 0x400000 + 1) = some true ∧
      ¬ Owns (Sys.boot.create 0).dir 0 0x400000 (2 ^ 64 - 0x400000 + 1) := by
  refine ⟨by decide, fun h => ?_⟩
  obtain ⟨-, k, hk⟩ := h 0x400000 (Nat.le_refl _) (by decide)
  exact absurd hk (by simp [Sys.create, Sys.boot])

end

end BananaOS.Umem
