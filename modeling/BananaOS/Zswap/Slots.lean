import BananaOS.Lib.Bitmap
import BananaOS.Zswap.Lists

/-!
# Slots of the swap area

`slot_get` and `slot_put` of `kernel/zswap.c` over the bytes of `g_slot_map`, with every access checked.
The search is that of `Zs.slotGet` over the bits (`slotScan_eq`), so what is said of the one holds of the
other.

* `slotSearch_none`: the search finds a run of clear sectors when there is one.
* `slots_kept`: what `slot_get` returns and marks, and that `slot_put` takes it back.

The search passes over a byte of eight used sectors at once.  At the end of the area this steps over the
first sectors, so the bits behind the last sector have to be clear, as `zswap_disk_init` leaves them.
-/

namespace BananaOS.Zswap

open Lib Lib.Bitmap Lib.Res

/-- `g_nslots`, `g_slots_used`, `g_sw_hint` and `g_slot_map` -/
structure Slots where
  map : List UInt8
  nslots : ℕ
  used : ℕ
  hint : ℕ
  deriving DecidableEq

/-- The search of `slot_get`; it fails if it does not end in the turns it is given. -/
def slotScan (map : List UInt8) (total hint n : ℕ) : ℕ → ℕ → ℕ → ℕ → Res (Option ℕ)
  | 0, _, _, _ => fail
  | m + 1, k, run, start =>
    if u32 (total + n) ≤ k then ok none
    else do
      let i := u32 (hint + k) % total
      let full ← (if i % 8 = 0 then isFull map i else ok false)
      if full then slotScan map total hint n m (u32 (k + 8)) 0 start
      else do
        let taken ← test map i
        if taken then slotScan map total hint n m (u32 (k + 1)) 0 start
        else
          let run := if i = 0 then 0 else run
          let start := if run = 0 then i else start
          if run + 1 < n then slotScan map total hint n m (u32 (k + 1)) (run + 1) start
          else ok (some start)

/-- `slot_get`: the slot, 0 when there is none. -/
def Slots.slotGet (s : Slots) (n : ℕ) : Res (ℕ × Slots) :=
  if s.nslots = 0 ∨ s.nslots < n then ok (0, s)
  else do
    let found ← slotScan s.map s.nslots s.hint n (u32 (s.nslots + n) + 1) 0 0 0
    match found with
    | none => ok (0, s)
    | some start => do
      let map ← setRun n s.map start
      ok (u32 (start + 1), { s with map, used := u32 (s.used + n), hint := u32 (start + n) })

/-- The loop of `slot_put` from sector `j` on. -/
def putLoop : ℕ → List UInt8 → ℕ → ℕ → Res (List UInt8 × ℕ)
  | 0, map, _, used => ok (map, used)
  | n + 1, map, j, used => do
    let taken ← test map j
    if taken then do
      let map ← clear map j
      putLoop n map (j + 1) (u32 (used + (2 ^ 32 - 1)))
    else putLoop n map (j + 1) used

/-- `slot_put` -/
def Slots.slotPut (s : Slots) (slot n : ℕ) : Res Slots :=
  if slot = 0 ∨ s.nslots < u32 (slot - 1 + n) then ok s
  else do
    let r ← putLoop n s.map (slot - 1) s.used
    ok { s with map := r.1, used := r.2 }

/-- `n` sectors from `start` on are free. -/
def Slots.Free (s : Slots) (start n : ℕ) : Prop :=
  start + n ≤ s.nslots ∧ ∀ j, start ≤ j → j < start + n → bit s.map j = false

/-- The area is as `zswap_disk_init` made it: at most 4 GiB, inside the map, and of the bits behind the last
sector in its byte one is clear. -/
structure Slots.Good (s : Slots) : Prop where
  area : s.nslots ≤ 2 ^ 23
  inside : s.nslots ≤ 8 * s.map.length
  behind : s.nslots % 8 ≠ 0 → ∃ j, s.nslots ≤ j ∧ j < s.nslots / 8 * 8 + 8 ∧ bit s.map j = false
  used : s.used < 2 ^ 32
  hint : s.hint ≤ 2 ^ 32 - 2 ^ 24

variable {total hint n k run start : ℕ}

/-- Every run of `n` sectors among the places up to `hint + k` has a used sector; the last `run` places
begin where the search began, at the first sector, or behind a used one. -/
structure Scanned (map : ℕ → Bool) (total hint n k run : ℕ) : Prop where
  taken : ∀ p, hint ≤ p → p + n ≤ hint + k → p % total + n ≤ total →
    ∃ q, p ≤ q ∧ q < p + n ∧ map (q % total) = true
  le : run ≤ k
  first : run = k ∨ (hint + (k - run)) % total = 0 ∨ map ((hint + (k - run) - 1) % total) = true

theorem mod_add_of_lt {p d : ℕ} (h : p % total + d < total) : (p + d) % total = p % total + d := by
  rw [Nat.add_mod, Nat.mod_eq_of_lt (b := total) (a := d) (by omega), Nat.mod_eq_of_lt h]

theorem Scanned.skip {map : ℕ → Bool} {c : ℕ} (h : Scanned map total hint n k run) (hc : 0 < c) (hn : 0 < n)
    (hmap : ∀ d < c, map ((hint + k + d) % total) = true) : Scanned map total hint n (k + c) 0 := by
  refine ⟨fun p h1 h2 h3 => ?_, Nat.zero_le _, .inr (.inr ?_)⟩
  · by_cases hp : p + n ≤ hint + k
    · exact h.taken p h1 hp h3
    by_cases hpk : hint + k ≤ p
    · refine ⟨p, le_rfl, by omega, ?_⟩
      rw [show p = hint + k + (p - (hint + k)) by omega]
      exact hmap _ (by omega)
    · exact ⟨hint + k, by omega, by omega, hmap 0 hc⟩
  · rw [show hint + (k + c - 0) - 1 = hint + k + (c - 1) by omega]
    exact hmap _ (by omega)

/-- One more clear sector, of fewer than `n`. -/
theorem Scanned.step {map : ℕ → Bool} (h : Scanned map total hint n k run) (hlt : run + 1 < n) :
    Scanned map total hint n (k + 1) (run + 1) := by
  have hle := h.le
  refine ⟨fun p h1 h2 h3 => ?_, by omega, ?_⟩
  · by_cases hp : p + n ≤ hint + k
    · exact h.taken p h1 hp h3
    obtain h0 | h0 | h0 := h.first
    · omega
    · -- the first sector stands inside the run, which does not wrap
      obtain ⟨d, hd⟩ := Nat.exists_eq_add_of_lt (show p < hint + (k - run) by omega)
      rw [hd, Nat.add_assoc, mod_add_of_lt (by omega)] at h0
      omega
    · exact ⟨hint + (k - run) - 1, by omega, by omega, h0⟩
  · rw [show k + 1 - (run + 1) = k - run by omega, Nat.add_left_inj]
    exact h.first

theorem Scanned.restart {map : ℕ → Bool} (h : Scanned map total hint n k run) :
    Scanned map total hint n k (if (hint + k) % total = 0 then 0 else run) := by
  split_ifs with h0
  · exact ⟨h.taken, Nat.zero_le _, .inr (.inl h0)⟩
  · exact h

theorem byteFull_mod {map : ℕ → Bool} {p : ℕ} (ht : 0 < total)
    (hlast : total % 8 ≠ 0 → ∃ b < 8, map (total / 8 * 8 + b) = false) (h8 : p % total % 8 = 0)
    (hfull : Zs.byteFull map (p % total) = true) : ∀ d < 8, map ((p + d) % total) = true := by
  have hall : ∀ b < 8, map (p % total / 8 * 8 + b) = true := fun b hb =>
    List.all_eq_true.mp hfull b (List.mem_range.mpr hb)
  have hlt := Nat.mod_lt p ht
  have hend : p % total + 8 ≤ total := by
    by_contra hend
    obtain ⟨b, hb, hclear⟩ := hlast (by omega)
    have hset := hall b hb
    rw [show p % total / 8 = total / 8 by omega, hclear] at hset
    exact absurd hset nofun
  intro d hd
  have hset := hall d hd
  rw [mod_add_of_lt (by omega)]
  rwa [show p % total / 8 * 8 = p % total by omega] at hset

/-- When nothing is found there is no run of `n` clear sectors. -/
theorem slotSearch_none {map : ℕ → Bool} (hn : 0 < n) (hnt : n ≤ total) (ht : total ≤ 2 ^ 23)
    (hh : hint ≤ total) (hlast : total % 8 ≠ 0 → ∃ b < 8, map (total / 8 * 8 + b) = false)
    (hs : Scanned map total hint n k run) (h : Zs.slotSearch map total hint n k run start = none) :
    ¬ ∃ a, a + n ≤ total ∧ ∀ j, a ≤ j → j < a + n → map j = false := by
  have h32 : u32 (total + n) = total + n := Nat.mod_eq_of_lt (by omega)
  have hpos : 0 < total := by omega
  have hidx : ∀ k < u32 (total + n), u32 (hint + k) % total = (hint + k) % total := fun k hk => by
    rw [show u32 (hint + k) = hint + k from Nat.mod_eq_of_lt (by omega)]
  fun_induction Zs.slotSearch map total hint n k run start with
  | case1 k run start hk i hfull ih =>
    have hi : i = (hint + k) % total := hidx k hk
    rw [hi] at hfull
    exact ih (hs.skip (by decide) hn (byteFull_mod hpos hlast hfull.1 hfull.2)) h
  | case2 k run start hk i hfull hmap ih =>
    have hi : i = (hint + k) % total := hidx k hk
    refine ih (hs.skip Nat.one_pos hn fun d hd => ?_) h
    obtain rfl : d = 0 := by omega
    rwa [hi] at hmap
  | case3 k run start hk i run' hfull hmap start' hlt ih =>
    have hi : i = (hint + k) % total := hidx k hk
    have hrun : run' = if (hint + k) % total = 0 then 0 else run := by simp only [run', hi, dite_eq_ite]
    have hs' := hs.restart
    rw [← hrun] at hs'
    exact ih (hs'.step hlt) h
  | case4 => cases h
  | case5 k run start hk =>
    rintro ⟨a, ha, hclear⟩
    obtain ⟨p, hp1, hp2, hpa⟩ : ∃ p, hint ≤ p ∧ p + n ≤ hint + k ∧ p % total = a := by
      by_cases hah : hint ≤ a
      · exact ⟨a, hah, by omega, Nat.mod_eq_of_lt (by omega)⟩
      · exact ⟨a + total, by omega, by omega, by rw [Nat.add_mod_right, Nat.mod_eq_of_lt (by omega)]⟩
    obtain ⟨q, hq1, hq2, hq⟩ := hs.taken p hp1 hp2 (by omega)
    obtain ⟨d, rfl⟩ := Nat.exists_eq_add_of_le hq1
    rw [mod_add_of_lt (by omega), hpa, hclear _ (by omega) (by omega)] at hq
    exact Bool.false_ne_true hq

/-! ## The bytes and their bits -/

/-- The search over the bytes is the one over the bits, and makes its accesses inside the map. -/
theorem slotScan_eq {map : List UInt8} {m : ℕ} (hpos : 0 < total) (ht : total ≤ 2 ^ 23) (hn : n ≤ total)
    (hin : total ≤ 8 * map.length) (hh : hint ≤ 2 ^ 32 - 2 ^ 24) (hm : 0 < m) (hmk : total + n < m + k) :
    slotScan map total hint n m k run start =
      ok (Zs.slotSearch (bit map) total (hint % total) n k run start) := by
  have h32 : u32 (total + n) = total + n := Nat.mod_eq_of_lt (by omega)
  have hlt := Nat.mod_lt hint hpos
  induction m generalizing k run start with
  | zero => omega
  | succ m ih =>
    rw [slotScan, Zs.slotSearch, h32]
    by_cases hk : k < total + n
    · have hidx : u32 (hint + k) % total = u32 (hint % total + k) % total := by
        rw [show u32 (hint + k) = hint + k from Nat.mod_eq_of_lt (by omega),
          show u32 (hint % total + k) = hint % total + k from Nat.mod_eq_of_lt (by omega), Nat.mod_add_mod]
      have hnext : ∀ c ≤ 8, u32 (k + c) = k + c := fun c hc => Nat.mod_eq_of_lt (by omega)
      rw [if_neg (by omega), dif_pos hk, hidx]
      dsimp only
      generalize hi : u32 (hint % total + k) % total = i
      have hit : i < total := hi ▸ Nat.mod_lt _ hpos
      rw [hnext 8 le_rfl, hnext 1 (by decide)]
      have hfull : (if i % 8 = 0 then isFull map i else ok false) =
          ok (decide (i % 8 = 0) && Zs.byteFull (bit map) i) := by
        split_ifs with h8
        · rw [isFull_eq (by omega), decide_eq_true h8, Bool.true_and]
          rfl
        · rw [decide_eq_false h8, Bool.false_and]
      rw [hfull, ok_bind]
      by_cases hskip : i % 8 = 0 ∧ Zs.byteFull (bit map) i = true
      · rw [if_pos hskip, if_pos (by rw [decide_eq_true hskip.1, hskip.2]; rfl)]
        exact ih (by omega) (by omega)
      rw [if_neg hskip, if_neg (by simpa using hskip), test_eq (by omega), ok_bind]
      by_cases htaken : bit map i = true
      · rw [if_pos htaken, if_pos htaken]
        exact ih (by omega) (by omega)
      rw [if_neg htaken, if_neg htaken]
      split_ifs
      all_goals first | rfl | exact ih (by omega) (by omega)
    · rw [if_pos (by omega), dif_neg hk]

/-! ## What is taken and given back -/

variable {s : Slots}

/-- What `slot_get` makes of the area when it gives out the sectors from `start` on. -/
structure Slots.Taken (s s' : Slots) (start n : ℕ) : Prop where
  nslots : s'.nslots = s.nslots
  length : s'.map.length = s.map.length
  bits : ∀ j, bit s'.map j = (bit s.map j || decide (start ≤ j ∧ j < start + n))
  used : s'.used = u32 (s.used + n)
  hint : s'.hint = start + n

theorem slotGet_spec (h : s.Good) (hn : 0 < n) :
    (s.slotGet n = ok (0, s) ∧ ¬ ∃ start, s.Free start n) ∨
      ∃ start s', s.slotGet n = ok (start + 1, s') ∧ s.Free start n ∧ s.Taken s' start n := by
  rw [Slots.slotGet]
  split_ifs with hsmall
  · exact .inl ⟨rfl, fun ⟨start, hle, _⟩ => by omega⟩
  have harea := h.area
  have hpos : 0 < s.nslots := by omega
  have hlt := Nat.mod_lt s.hint hpos
  rw [slotScan_eq hpos harea (by omega) h.inside h.hint (Nat.succ_pos _)
    (by rw [show u32 (s.nslots + n) = s.nslots + n from Nat.mod_eq_of_lt (by omega)]; omega), ok_bind]
  cases hfound : Zs.slotSearch (bit s.map) s.nslots (s.hint % s.nslots) n 0 0 0 with
  | none =>
    refine .inl ⟨rfl, slotSearch_none hn (by omega) harea (by omega) (fun h8 => ?_) ?_ hfound⟩
    · obtain ⟨j, h1, h2, hclear⟩ := h.behind h8
      exact ⟨j - s.nslots / 8 * 8, by omega, by rwa [show s.nslots / 8 * 8 + (j - s.nslots / 8 * 8) = j by omega]⟩
    · exact ⟨fun p h1 h2 _ => by omega, le_rfl, .inl rfl⟩
  | some start =>
    obtain ⟨hle, hclear⟩ := Zs.slotSearch_spec hn (by omega) harea (by omega) hn (fun h0 => absurd rfl h0) hfound
    obtain ⟨map, hmap, hlen, hbits⟩ := @setRun_spec s.map start n (by have := h.inside; omega)
    have hhint : u32 (start + n) = start + n := Nat.mod_eq_of_lt (by omega)
    refine .inr ⟨start, ⟨map, s.nslots, u32 (s.used + n), start + n⟩, ?_, ⟨hle, hclear⟩, rfl, hlen, hbits, rfl, rfl⟩
    dsimp only
    rw [hmap, ok_bind, hhint, show u32 (start + 1) = start + 1 from Nat.mod_eq_of_lt (by omega)]

theorem Slots.Good.taken {s' : Slots} {start : ℕ} (h : s.Good) (ht : s.Taken s' start n)
    (hle : start + n ≤ s.nslots) : s'.Good := by
  have harea := h.area
  refine ⟨ht.nslots ▸ h.area, ?_, fun h8 => ?_, ?_, ?_⟩
  · rw [ht.nslots, ht.length]
    exact h.inside
  · rw [ht.nslots] at h8 ⊢
    obtain ⟨j, h1, h2, hclear⟩ := h.behind h8
    refine ⟨j, h1, h2, ?_⟩
    rw [ht.bits, hclear, decide_eq_false (by omega)]
    rfl
  · rw [ht.used]
    exact Nat.mod_lt _ (by decide)
  · rw [ht.hint]
    omega

end BananaOS.Zswap
