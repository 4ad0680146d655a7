import BananaOS.Lib.Lines
import BananaOS.Lib.Octets
import Mathlib.Data.List.Forall2
import Mathlib.Data.Nat.Digits.Lemmas
import Mathlib.Tactic.Ring

/-!
# The text of an IPv6 address

`ip6_parse` of `net/ipv6.c`.  It reads groups of up to four hexadecimal digits with a colon behind all but
the last one, and notes after how many groups two colons stood (`gap`); the groups behind them go to the end
of the address.

`Ip6Text` says which texts are addresses and which address each denotes, without a word of how it is
read.  `ip6Parse_iff`: these are read, to what they denote, and nothing else is.
-/

namespace BananaOS.Net

open Lib Lib.Lines

/-- A string, without the zero behind it. -/
abbrev Text := List UInt8

/-- `ip6_t` -/
@[ext] structure Ip6 where
  b : List UInt8
  length_b : b.length = 16
  deriving DecidableEq

/-! ## The address -/

/-- The eight words of an address. -/
def Ip6.words (a : Ip6) : List ℕ :=
  (List.range 8).map fun i => (a.b.getD (2 * i) 0).toNat * 2 ^ 8 + (a.b.getD (2 * i + 1) 0).toNat

/-- The loop that ends `ip6_parse`. -/
def Ip6.ofWords (full : List ℕ) : Ip6 where
  b := (List.range 8).flatMap fun i => [UInt8.ofNat (full.getD i 0 / 2 ^ 8), UInt8.ofNat (full.getD i 0)]
  length_b := by simp

theorem getElem?_flatMap_pair {α β : Type*} (f g : α → β) (l : List α) (i : ℕ) :
    (l.flatMap fun v => [f v, g v])[2 * i]? = l[i]?.map f ∧
      (l.flatMap fun v => [f v, g v])[2 * i + 1]? = l[i]?.map g := by
  induction l generalizing i with
  | nil => exact ⟨rfl, rfl⟩
  | cons v l ih =>
    cases i with
    | zero => exact ⟨rfl, rfl⟩
    | succ i => exact ih i

theorem Ip6.getD_ofWords (full : List ℕ) {i : ℕ} (hi : i < 8) :
    (Ip6.ofWords full).b.getD (2 * i) 0 = UInt8.ofNat (full.getD i 0 / 2 ^ 8) ∧
      (Ip6.ofWords full).b.getD (2 * i + 1) 0 = UInt8.ofNat (full.getD i 0) := by
  obtain ⟨h1, h2⟩ := getElem?_flatMap_pair (fun i => UInt8.ofNat (full.getD i 0 / 2 ^ 8))
    (fun i => UInt8.ofNat (full.getD i 0)) (List.range 8) i
  rw [List.getElem?_range hi] at h1 h2
  exact ⟨congrArg (Option.getD · 0) h1, congrArg (Option.getD · 0) h2⟩

theorem Ip6.length_words (a : Ip6) : a.words.length = 8 := by
  rw [Ip6.words, List.length_map, List.length_range]

theorem Ip6.words_lt (a : Ip6) : ∀ v ∈ a.words, v < 2 ^ 16 := by
  intro v hv
  obtain ⟨i, -, rfl⟩ := List.mem_map.mp hv
  have h1 := (a.b.getD (2 * i) 0).toNat_lt
  have h2 := (a.b.getD (2 * i + 1) 0).toNat_lt
  omega

theorem Ip6.getD_words (a : Ip6) {i : ℕ} (hi : i < 8) :
    a.words.getD i 0 = (a.b.getD (2 * i) 0).toNat * 2 ^ 8 + (a.b.getD (2 * i + 1) 0).toNat := by
  rw [Ip6.words, List.getD_eq_getElem?_getD, List.getElem?_map, List.getElem?_range hi]
  rfl

@[simp] theorem Ip6.ofWords_words (a : Ip6) : Ip6.ofWords a.words = a := by
  ext1
  refine List.ext_getElem (by rw [Ip6.length_b, Ip6.length_b]) fun j h1 h2 => ?_
  rw [← List.getD_eq_getElem _ 0, ← List.getD_eq_getElem _ 0]
  obtain ⟨i, hi⟩ : ∃ i, j = 2 * i ∨ j = 2 * i + 1 := ⟨j / 2, by omega⟩
  have hlt : i < 8 := by
    rw [Ip6.length_b] at h1
    omega
  have hx := (a.b.getD (2 * i) 0).toNat_lt
  have hy := (a.b.getD (2 * i + 1) 0).toNat_lt
  rcases hi with rfl | rfl
  · rw [(Ip6.getD_ofWords _ hlt).1, Ip6.getD_words a hlt, ← UInt8.toNat_inj, UInt8.toNat_ofNat']
    omega
  · rw [(Ip6.getD_ofWords _ hlt).2, Ip6.getD_words a hlt, ← UInt8.toNat_inj, UInt8.toNat_ofNat']
    omega

theorem Ip6.words_ofWords {full : List ℕ} (hlen : full.length = 8) (hlt : ∀ v ∈ full, v < 2 ^ 16) :
    (Ip6.ofWords full).words = full := by
  refine List.ext_getElem (by rw [Ip6.length_words, hlen]) fun i h1 h2 => ?_
  rw [← List.getD_eq_getElem _ 0, ← List.getD_eq_getElem _ 0]
  have hi : i < 8 := hlen ▸ h2
  have hv : full.getD i 0 < 2 ^ 16 := hlt _ (by rw [List.getD_eq_getElem _ _ h2]; exact List.getElem_mem h2)
  rw [Ip6.getD_words _ hi, (Ip6.getD_ofWords full hi).1, (Ip6.getD_ofWords full hi).2, UInt8.toNat_ofNat',
    UInt8.toNat_ofNat']
  omega

/-! ## What is read -/

def colon : UInt8 := ':'.toUInt8

/-- `hexd`, with `none` for -1 -/
def hexd (c : UInt8) : Option ℕ :=
  if '0'.toUInt8 ≤ c ∧ c ≤ '9'.toUInt8 then some (c - '0'.toUInt8).toNat
  else
    let c := c ||| 32
    if 'a'.toUInt8 ≤ c ∧ c ≤ 'f'.toUInt8 then some ((c - 'a'.toUInt8).toNat + 10) else none

/-- The loop that reads a group: the number of digits, their value, and what is behind them. -/
def readGroup (d v : ℕ) : Text → ℕ × ℕ × Text
  | [] => (d, v, [])
  | c :: s =>
    match if d < 4 then hexd c else none with
    | some x => readGroup (d + 1) (v * 16 + x) s
    | none => (d, v, c :: s)

/-- The loop over the groups, with the number of words there is still room for; `none` is a return of 0. -/
def parseLoop : ℕ → Text → List ℕ → Option ℕ → Option (Text × List ℕ × Option ℕ)
  | 0, s, w, gap => some (s, w, gap)
  | k + 1, s, w, gap =>
    if s = [] then some (s, w, gap)
    else
      let (d, v, s) := readGroup 0 0 s
      let w := w ++ [v % 2 ^ 16]
      if d = 0 then none
      else
        match s with
        | [] => parseLoop k [] w gap
        | c :: s =>
          if c = colon then
            match s with
            | [] => none
            | c' :: s' =>
              if c' = colon then if gap.isSome then none else parseLoop k s' w (some w.length)
              else parseLoop k (c' :: s') w gap
          else none

/-- The eight words: those before the gap, zeros, those behind it. -/
def fullWords (w : List ℕ) (gap : ℕ) : List ℕ :=
  let n := w.length
  let full := (List.range gap).foldl (fun full i => full.set i (w.getD i 0)) (List.replicate 8 0)
  (List.range' gap (n - gap)).foldl (fun full i => full.set (8 - (n - i)) (w.getD i 0)) full

def ip6Parse (s : Text) : Option Ip6 := do
  let (s, gap) := if s.take 2 = [colon, colon] then (s.drop 2, some 0) else (s, none)
  let (s, w, gap) ← parseLoop 8 s [] gap
  if s ≠ [] then none
  else
    match gap with
    | none => if w.length ≠ 8 then none else some (Ip6.ofWords w)
    | some gap => if 7 < w.length then none else some (Ip6.ofWords (fullWords w gap))

/-! ## What the texts say -/

/-- A hexadecimal digit, of either case. -/
def HexDigit (c : UInt8) (x : ℕ) : Prop :=
  x < 10 ∧ c.toNat = '0'.toNat + x ∨
    10 ≤ x ∧ x < 16 ∧ (c.toNat + 10 = 'a'.toNat + x ∨ c.toNat + 10 = 'A'.toNat + x)

instance (c : UInt8) (x : ℕ) : Decidable (HexDigit c x) := inferInstanceAs (Decidable (_ ∨ _))

/-- One to four digits, and their value. -/
def Group (g : Text) (v : ℕ) : Prop :=
  1 ≤ g.length ∧ g.length ≤ 4 ∧ ∃ ds, List.Forall₂ HexDigit g ds ∧ v = Nat.ofDigits 16 ds.reverse

abbrev Groups : List Text → List ℕ → Prop := List.Forall₂ Group

/-- Eight groups with colons between them; or fewer, and two colons that stand for the words that are
missing. -/
inductive Ip6Text : Text → List ℕ → Prop where
  | full {gs : List Text} {vs : List ℕ} : Groups gs vs → gs.length = 8 → Ip6Text (Lines.joined colon gs) vs
  | gap {pre post : List Text} {us vs : List ℕ} {z : ℕ} : Groups pre us → Groups post vs →
      us.length + (z + 1) + vs.length = 8 →
      Ip6Text (Lines.joined colon pre ++ [colon, colon] ++ Lines.joined colon post)
        (us ++ List.replicate (z + 1) 0 ++ vs)

/-! ## Digits -/

theorem HexDigit.lt {c : UInt8} {x : ℕ} (h : HexDigit c x) : x < 16 := by
  rw [HexDigit] at h
  omega

theorem hexd_eq_some {c : UInt8} {x : ℕ} : hexd c = some x ↔ HexDigit c x := by
  have hdigit : ∀ x < 16, hexd c = some x ↔ HexDigit c x :=
    forall_byte (p := fun c => ∀ x < 16, hexd c = some x ↔ HexDigit c x) (by decide +kernel) c
  have hlt : ∀ x ∈ hexd c, x < 16 := forall_byte (p := fun c => ∀ x ∈ hexd c, x < 16) (by decide +kernel) c
  exact ⟨fun h => (hdigit x (hlt x h)).mp h, fun h => (hdigit x h.lt).mpr h⟩

theorem hexd_colon : hexd colon = none := by decide +kernel

/-- The next character is not a digit. -/
def Stops (t : Text) : Prop := ∀ c t', t = c :: t' → hexd c = none

/-- The value of digits as it is counted up. -/
def hexValue (v : ℕ) (ds : List ℕ) : ℕ := ds.foldl (fun v x => v * 16 + x) v

theorem hexValue_zero (ds : List ℕ) : hexValue 0 ds = Nat.ofDigits 16 ds.reverse := by
  induction ds using List.reverseRecOn with
  | nil => rfl
  | append_singleton ds x ih =>
    rw [List.reverse_concat, Nat.ofDigits_cons, ← ih, hexValue, List.foldl_concat, ← hexValue]
    rw [Nat.mul_comm, Nat.add_comm]

/-- Digits, then no digit or four of them: these are read. -/
theorem readGroup_append {g t : Text} {ds : List ℕ} {d v : ℕ} (hg : List.Forall₂ HexDigit g ds)
    (hlen : d + g.length ≤ 4) (ht : d + g.length = 4 ∨ Stops t) :
    readGroup d v (g ++ t) = (d + g.length, hexValue v ds, t) := by
  induction hg generalizing d v with
  | nil =>
    rw [List.nil_append]
    cases t with
    | nil => rfl
    | cons c t =>
      have hnone : (if d < 4 then hexd c else none) = none := by
        split_ifs with hd
        · rcases ht with ht | ht
          · rw [List.length_nil] at ht
            omega
          · exact ht c t rfl
        · rfl
      rw [readGroup, hnone]
      rfl
  | @cons c x g ds hc _ ih =>
    rw [List.length_cons] at hlen ht ⊢
    rw [List.cons_append, readGroup, if_pos (by omega), hexd_eq_some.mpr hc]
    refine (ih (by omega) (ht.imp_left (by omega))).trans ?_
    rw [hexValue, hexValue, List.foldl_cons]
    congr 1
    omega

/-- What is read is digits. -/
theorem exists_readGroup (s : Text) {d v : ℕ} (hd : d ≤ 4) : ∃ g ds t, s = g ++ t ∧
    List.Forall₂ HexDigit g ds ∧ d + g.length ≤ 4 ∧ readGroup d v s = (d + g.length, hexValue v ds, t) := by
  induction s generalizing d v with
  | nil => exact ⟨[], [], [], rfl, .nil, hd, rfl⟩
  | cons c s ih =>
    cases hx : if d < 4 then hexd c else none with
    | none =>
      refine ⟨[], [], c :: s, rfl, .nil, hd, ?_⟩
      rw [readGroup, hx]
      rfl
    | some x =>
      rw [Option.ite_none_right_eq_some] at hx
      obtain ⟨g, ds, t, rfl, hg, hlen, hread⟩ := @ih (d + 1) (v * 16 + x) hx.1
      refine ⟨c :: g, x :: ds, t, rfl, .cons (hexd_eq_some.mp hx.2) hg, ?_, ?_⟩
      · rw [List.length_cons]
        omega
      · rw [readGroup, if_pos hx.1, hx.2]
        refine hread.trans ?_
        rw [hexValue, hexValue, List.foldl_cons, List.length_cons]
        congr 1
        omega

theorem digits_lt {g : Text} {ds : List ℕ} (h : List.Forall₂ HexDigit g ds) : ∀ x ∈ ds, x < 16 := by
  induction h with
  | nil => exact fun x hx => absurd hx List.not_mem_nil
  | cons hc _ ih => exact List.forall_mem_cons.mpr ⟨hc.lt, ih⟩

theorem Group.lt {g : Text} {v : ℕ} (h : Group g v) : v < 2 ^ 16 := by
  obtain ⟨-, hlen, ds, hds, rfl⟩ := h
  have hlt : Nat.ofDigits 16 ds.reverse < 16 ^ ds.reverse.length :=
    Nat.ofDigits_lt_base_pow_length (by decide) fun x hx => digits_lt hds x (List.mem_reverse.mp hx)
  rw [List.length_reverse, ← hds.length_eq] at hlt
  exact hlt.trans_le (Nat.pow_le_pow_right (by decide) hlen : 16 ^ g.length ≤ 16 ^ 4)

theorem Group.read {g t : Text} {v : ℕ} (h : Group g v) (ht : Stops t) :
    readGroup 0 0 (g ++ t) = (g.length, v, t) := by
  obtain ⟨-, hlen, ds, hds, rfl⟩ := h
  rw [readGroup_append hds (by omega) (.inr ht), hexValue_zero, Nat.zero_add]

theorem Group.ne_nil {g : Text} {v : ℕ} (h : Group g v) : g ≠ [] :=
  List.ne_nil_of_length_pos h.1

theorem Group.head {g : Text} {v : ℕ} (h : Group g v) : ∃ c g', g = c :: g' ∧ c ≠ colon := by
  obtain ⟨hpos, -, ds, hds, -⟩ := h
  cases hds with
  | nil => exact absurd hpos (by simp)
  | @cons c x g ds hc _ =>
    refine ⟨c, g, rfl, ?_⟩
    rintro rfl
    exact absurd (hexd_eq_some.mpr hc) (by simp [hexd_colon])

/-! ## The loop over the groups -/

variable {k : ℕ} {s s' g : Text} {w w' us vs : List ℕ} {gs pre post : List Text} {gap gap' : Option ℕ}

theorem opened_of_ne_nil (h : gs ≠ []) : opened colon gs = colon :: Lines.joined colon gs := by
  cases gs with
  | nil => exact absurd rfl h
  | cons g gs => rw [opened_cons, Lines.joined]

theorem joined_cons (g : Text) (h : gs ≠ []) :
    Lines.joined colon (g :: gs) = g ++ colon :: Lines.joined colon gs := by
  rw [Lines.joined, opened_of_ne_nil h]

theorem joined_head (h : Groups gs vs) (hne : gs ≠ []) : ∃ c t, Lines.joined colon gs = c :: t ∧ c ≠ colon := by
  cases h with
  | nil => exact absurd rfl hne
  | @cons g v gs vs hg _ =>
    obtain ⟨c, g', rfl, hc⟩ := hg.head
    exact ⟨c, g' ++ opened colon gs, rfl, hc⟩

theorem stops_colon (s : Text) : Stops (colon :: s) := by
  intro c t ht
  rw [← (List.cons.inj ht).1]
  exact hexd_colon

/-- A turn of the loop that reads a group. -/
theorem parseLoop_group {v : ℕ} {t : Text} (hg : Group g v) (hs : s ≠ []) : readGroup 0 0 s = (g.length, v, t) →
    parseLoop (k + 1) s w gap =
      match t with
      | [] => parseLoop k [] (w ++ [v]) gap
      | c :: t =>
        if c = colon then
          match t with
          | [] => none
          | c' :: t' =>
            if c' = colon then if gap.isSome then none else parseLoop k t' (w ++ [v]) (some (w ++ [v]).length)
            else parseLoop k (c' :: t') (w ++ [v]) gap
        else none := by
  intro hread
  have hd : g.length ≠ 0 := fun h => hg.ne_nil (List.length_eq_zero_iff.mp h)
  rw [parseLoop, if_neg hs, hread]
  dsimp only
  rw [if_neg hd, Nat.mod_eq_of_lt hg.lt]

theorem parseLoop_noGroup {v : ℕ} {t : Text} (hs : s ≠ []) (h : readGroup 0 0 s = (0, v, t)) :
    parseLoop (k + 1) s w gap = none := by
  refine (if_neg hs).trans ?_
  rw [h]
  exact if_pos rfl

theorem parseLoop_last {v : ℕ} (h : Group g v) :
    parseLoop (k + 1) g w gap = parseLoop k [] (w ++ [v]) gap := by
  have hread := h.read (t := []) fun c t ht => absurd ht (by simp)
  rw [List.append_nil] at hread
  rw [parseLoop_group h h.ne_nil hread]

theorem parseLoop_colon {v : ℕ} {c : UInt8} (h : Group g v) (hc : c ≠ colon) :
    parseLoop (k + 1) (g ++ colon :: c :: s) w gap = parseLoop k (c :: s) (w ++ [v]) gap := by
  rw [parseLoop_group h (by simp) (h.read (stops_colon _))]
  simp only [if_neg hc, if_true]

theorem parseLoop_colons {v : ℕ} (h : Group g v) :
    parseLoop (k + 1) (g ++ colon :: colon :: s) w none =
      parseLoop k s (w ++ [v]) (some (w.length + 1)) := by
  rw [parseLoop_group h (by simp) (h.read (stops_colon _))]
  simp only [if_true, Option.isSome_none, Bool.false_eq_true, if_false, List.length_append, List.length_singleton]

theorem parseLoop_nil (k : ℕ) (w : List ℕ) (gap : Option ℕ) : parseLoop k [] w gap = some ([], w, gap) := by
  cases k with
  | zero => rfl
  | succ k => exact if_pos rfl

theorem parseLoop_joined (h : Groups gs vs) (hk : gs.length ≤ k) :
    parseLoop k (Lines.joined colon gs) w gap = some ([], w ++ vs, gap) := by
  induction h generalizing k w with
  | nil => rw [Lines.joined, parseLoop_nil, List.append_nil]
  | @cons g v gs vs hg hgs ih =>
    rw [List.length_cons] at hk
    obtain ⟨k, rfl⟩ : ∃ k', k = k' + 1 := ⟨k - 1, by omega⟩
    by_cases hne : gs = []
    · subst hne
      cases hgs
      rw [Lines.joined, opened_nil, List.append_nil, parseLoop_last hg, parseLoop_nil]
    · obtain ⟨c, t, hct, hc⟩ := joined_head hgs hne
      rw [joined_cons g hne, hct, parseLoop_colon hg hc, ← hct, ih (by omega), List.append_assoc]
      rfl

/-- Groups, two colons and groups are read. -/
theorem parseLoop_gap (hpre : Groups pre us) (hpost : Groups post vs) (hne : pre ≠ [])
    (hk : pre.length + post.length ≤ k) :
    parseLoop k (Lines.joined colon pre ++ colon :: colon :: Lines.joined colon post) w none =
      some ([], w ++ us ++ vs, some (w.length + us.length)) := by
  induction hpre generalizing k w with
  | nil => exact absurd rfl hne
  | @cons g u pre us hg hgs ih =>
    rw [List.length_cons] at hk
    obtain ⟨k, rfl⟩ : ∃ k', k = k' + 1 := ⟨k - 1, by omega⟩
    by_cases hpre : pre = []
    · subst hpre
      cases hgs
      rw [List.length_nil] at hk
      rw [Lines.joined, opened_nil, List.append_nil, parseLoop_colons hg, parseLoop_joined hpost (by omega)]
      rfl
    · obtain ⟨c, t, hct, hc⟩ := joined_head hgs hpre
      rw [joined_cons g hpre, hct, List.append_assoc, List.cons_append, List.cons_append,
        parseLoop_colon hg hc, ← List.cons_append, ← hct, ih hpre (by omega), List.append_assoc w,
        List.singleton_append, List.length_append, List.length_cons]
      simp only [List.length_cons, List.length_nil, Nat.zero_add, Nat.add_assoc, Nat.add_comm 1]

/-- What was read up to the end is groups, with two colons at most. -/
theorem parseLoop_sound {w : List ℕ} {gap : Option ℕ} (h : parseLoop k s w gap = some ([], w', gap')) :
    (∃ gs vs, Groups gs vs ∧ s = Lines.joined colon gs ∧ w' = w ++ vs ∧ gap' = gap) ∨
      gap = none ∧ ∃ pre us post vs, pre ≠ [] ∧ Groups pre us ∧ Groups post vs ∧
        s = Lines.joined colon pre ++ colon :: colon :: Lines.joined colon post ∧ w' = w ++ us ++ vs ∧
          gap' = some (w.length + us.length) := by
  induction k generalizing s w gap with
  | zero =>
    cases h
    exact .inl ⟨[], [], .nil, rfl, (List.append_nil _).symm, rfl⟩
  | succ k ih =>
    by_cases hs : s = []
    · rw [hs, parseLoop_nil] at h
      cases h
      exact .inl ⟨[], [], .nil, hs, (List.append_nil _).symm, rfl⟩
    obtain ⟨g, ds, t, rfl, hds, hlen, hread⟩ := @exists_readGroup s 0 0 (by decide)
    rw [Nat.zero_add] at hlen hread
    by_cases hd : g.length = 0
    · rw [parseLoop_noGroup hs (hd ▸ hread)] at h
      exact absurd h (by simp)
    have hg : Group g (hexValue 0 ds) := ⟨by omega, hlen, ds, hds, hexValue_zero ds⟩
    rw [parseLoop_group hg hs hread] at h
    match t, h with
    | [], h =>
      rw [parseLoop_nil] at h
      cases h
      exact .inl ⟨[g], [_], .cons hg .nil, rfl, rfl, rfl⟩
    | [c], h => exact absurd h (by simp)
    | c :: c' :: t, h =>
      by_cases hc : c = colon
      · subst hc
        by_cases hc' : c' = colon
        · subst hc'
          cases gap with
          | some gap => exact absurd h (by simp)
          | none =>
            simp only [if_true, Option.isSome_none, Bool.false_eq_true, if_false] at h
            rcases ih h with ⟨gs, vs, hgs, rfl, rfl, rfl⟩ | ⟨hnone, -⟩
            · refine .inr ⟨rfl, [g], [_], gs, vs, by simp, .cons hg .nil, hgs, ?_, rfl, ?_⟩
              · rw [Lines.joined, opened_nil, List.append_nil]
              · rw [List.length_append]
            · exact absurd hnone (by simp)
        · simp only [if_true, if_neg hc'] at h
          rcases ih h with ⟨gs, vs, hgs, hs', rfl, rfl⟩ | ⟨rfl, pre, us, post, vs, hne, hpre, hpost, hs', rfl, rfl⟩
          · have hne : gs ≠ [] := by
              rintro rfl
              exact absurd hs' (by simp [Lines.joined])
            refine .inl ⟨g :: gs, _ :: vs, .cons hg hgs, ?_, ?_, rfl⟩
            · rw [joined_cons g hne, hs']
            · rw [List.append_assoc]
              rfl
          · refine .inr ⟨rfl, g :: pre, _ :: us, post, vs, by simp, .cons hg hpre, hpost, ?_, ?_, ?_⟩
            · rw [joined_cons g hne, hs', List.append_assoc, List.cons_append]
            · rw [List.append_assoc w]
              rfl
            · simp only [List.length_append, List.length_cons, List.length_nil, Nat.zero_add, Nat.add_assoc,
                Nat.add_comm 1]
      · simp only [if_neg hc] at h
        exact absurd h (by simp)

theorem length_opened (h : Groups gs vs) : (opened colon gs).length ≤ 5 * gs.length := by
  induction h with
  | nil => exact Nat.zero_le _
  | @cons g v gs vs hg _ ih =>
    have hlen := hg.2.1
    rw [opened_cons, List.length_cons, List.length_append, List.length_cons]
    omega

theorem length_joined (h : Groups gs vs) : (Lines.joined colon gs).length ≤ 5 * gs.length := by
  cases h with
  | nil => exact Nat.zero_le _
  | @cons g v gs vs hg hgs =>
    have hlen := hg.2.1
    have hrest := length_opened hgs
    rw [Lines.joined, List.length_append, List.length_cons]
    omega

theorem Ip6Text.length_le {ws : List ℕ} (h : Ip6Text s ws) : s.length ≤ 40 := by
  cases h with
  | full hgs hlen =>
    have hle := length_joined hgs
    omega
  | gap hpre hpost hz =>
    have h1 := length_joined hpre
    have h2 := length_joined hpost
    have h3 := hpre.length_eq
    have h4 := hpost.length_eq
    rw [List.length_append, List.length_append, List.length_cons, List.length_singleton]
    omega

/-! ## The words -/

/-- Elements of `w` written one by one, each `m` places further. -/
theorem getElem?_foldl_set (full w : List ℕ) (a n m j : ℕ) :
    ((List.range' a n).foldl (fun full i => full.set (i + m) (w.getD i 0)) full)[j]? =
      if a + m ≤ j ∧ j < a + m + n then full[j]?.map fun _ => w.getD (j - m) 0 else full[j]? := by
  induction n with
  | zero =>
    rw [if_neg (by omega)]
    rfl
  | succ n ih =>
    rw [List.range'_concat, Nat.one_mul, List.foldl_concat, List.getElem?_set', ih]
    split_ifs with h1 h2 h3 h4
    · omega
    · omega
    · rw [show j - m = a + n by omega]
      rfl
    · omega
    · rfl
    · omega
    · omega
    · rfl

/-- The gap is filled with zeros. -/
theorem fullWords_append (h : us.length + vs.length ≤ 8) :
    fullWords (us ++ vs) us.length =
      us ++ List.replicate (8 - us.length - vs.length) 0 ++ vs := by
  have hfirst := fun full => getElem?_foldl_set full (us ++ vs) 0 us.length 0
  have hsecond := fun full => getElem?_foldl_set full (us ++ vs) us.length vs.length
    (8 - (us.length + vs.length))
  have hcongr : ∀ full : List ℕ, (List.range' us.length vs.length).foldl
      (fun full i => full.set (8 - (us.length + vs.length - i)) ((us ++ vs).getD i 0)) full =
      (List.range' us.length vs.length).foldl
        (fun full i => full.set (i + (8 - (us.length + vs.length))) ((us ++ vs).getD i 0)) full := by
    refine fun full => List.foldl_ext _ _ _ fun full i hi => ?_
    rw [List.mem_range'_1] at hi
    rw [show 8 - (us.length + vs.length - i) = i + (8 - (us.length + vs.length)) by omega]
  refine List.ext_getElem? fun j => ?_
  rw [fullWords]
  simp only [List.length_append, Nat.add_sub_cancel_left, hcongr, List.range_eq_range']
  simp only [Nat.add_zero, Nat.zero_le, true_and, Nat.zero_add, Nat.sub_zero] at hfirst
  rw [hsecond, hfirst, List.getElem?_replicate]
  by_cases hj : j < us.length
  · rw [if_neg (by omega), if_pos hj, if_pos (by omega), List.append_assoc, List.getElem?_append_left hj,
      List.getD_append _ _ _ _ hj, List.getD_eq_getElem _ _ hj, List.getElem?_eq_getElem hj]
    rfl
  rw [if_neg hj]
  by_cases hz : j < 8 - vs.length
  · rw [if_neg (by omega), if_pos (by omega), List.append_assoc, List.getElem?_append_right (by omega),
      List.getElem?_append_left (by rw [List.length_replicate]; omega), List.getElem?_replicate,
      if_pos (by omega)]
  · rw [List.getElem?_append_right (by rw [List.length_append, List.length_replicate]; omega),
      List.length_append, List.length_replicate]
    by_cases h8 : j < 8
    · rw [if_pos (by omega), if_pos h8, List.getD_append_right _ _ _ _ (by omega), Option.map_some,
        List.getElem?_eq_getElem (by omega), List.getD_eq_getElem _ _ (by omega)]
      congr 2
      omega
    · rw [if_neg (by omega), if_neg h8, List.getElem?_eq_none (by omega)]

theorem groups_lt (h : Groups gs vs) : ∀ v ∈ vs, v < 2 ^ 16 := by
  induction h with
  | nil => exact fun v hv => absurd hv List.not_mem_nil
  | cons hg _ ih => exact List.forall_mem_cons.mpr ⟨hg.lt, ih⟩

theorem Ip6.ofWords_eq_iff {ws : List ℕ} {a : Ip6} (hlen : ws.length = 8) (hlt : ∀ v ∈ ws, v < 2 ^ 16) :
    Ip6.ofWords ws = a ↔ a.words = ws := by
  constructor
  · rintro rfl
    exact Ip6.words_ofWords hlen hlt
  · rintro rfl
    exact Ip6.ofWords_words a

theorem ofWords_fullWords_iff {a : Ip6} (hus : ∀ v ∈ us, v < 2 ^ 16) (hvs : ∀ v ∈ vs, v < 2 ^ 16) {z : ℕ}
    (hz : us.length + (z + 1) + vs.length = 8) :
    Ip6.ofWords (fullWords (us ++ vs) us.length) = a ↔ a.words = us ++ List.replicate (z + 1) 0 ++ vs := by
  rw [fullWords_append (by omega), show 8 - us.length - vs.length = z + 1 by omega]
  refine Ip6.ofWords_eq_iff ?_ fun v hv => ?_
  · rw [List.length_append, List.length_append, List.length_replicate, hz]
  · rw [List.mem_append, List.mem_append] at hv
    rcases hv with (hv | hv) | hv
    · exact hus v hv
    · rw [List.eq_of_mem_replicate hv]
      decide
    · exact hvs v hv

theorem take_two_ne (h : Groups gs vs) (hne : gs ≠ []) (s : Text) :
    (Lines.joined colon gs ++ s).take 2 ≠ [colon, colon] := by
  intro htake
  obtain ⟨c, t, hct, hc⟩ := joined_head h hne
  rw [hct, List.cons_append, List.take_succ_cons] at htake
  exact hc (List.cons.inj htake).1

theorem ip6Parse_sound {a : Ip6} (h : ip6Parse s = some a) : Ip6Text s a.words := by
  rw [ip6Parse] at h
  by_cases htake : s.take 2 = [colon, colon]
  · rw [if_pos htake] at h
    obtain ⟨⟨s', w, gap⟩, hloop, h⟩ := Option.bind_eq_some_iff.mp h
    by_cases hs' : s' = []
    · subst hs'
      rcases parseLoop_sound hloop with ⟨gs, vs, hgs, hs, rfl, rfl⟩ | ⟨hnone, -⟩
      · simp only [ne_eq, not_true_eq_false, if_false, Option.ite_none_left_eq_some, Option.some_inj] at h
        obtain ⟨hlen, ha⟩ := h
        have hz : ([] : List ℕ).length + (7 - w.length + 1) + w.length = 8 := by
          rw [List.length_nil]
          omega
        rw [(@ofWords_fullWords_iff [] w a (by simp) (groups_lt hgs) _ hz).mp ha,
          ← List.take_append_drop 2 s, htake, hs]
        exact @Ip6Text.gap [] gs [] w _ .nil hgs hz
      · exact absurd hnone (by simp)
    · exact absurd h (by simp [hs'])
  · rw [if_neg htake] at h
    obtain ⟨⟨s', w, gap⟩, hloop, h⟩ := Option.bind_eq_some_iff.mp h
    by_cases hs' : s' = []
    · subst hs'
      rcases parseLoop_sound hloop with ⟨gs, vs, hgs, rfl, rfl, rfl⟩ |
        ⟨-, pre, us, post, vs, hne, hpre, hpost, rfl, rfl, rfl⟩
      · simp only [ne_eq, not_true_eq_false, if_false, Option.ite_none_left_eq_some, Option.some_inj,
          not_not] at h
        obtain ⟨hlen, ha⟩ := h
        rw [(Ip6.ofWords_eq_iff hlen (groups_lt hgs)).mp ha]
        exact .full hgs (hgs.length_eq.trans hlen)
      · simp only [ne_eq, not_true_eq_false, if_false, List.nil_append, Option.ite_none_left_eq_some,
          Option.some_inj, List.length_nil, Nat.zero_add, List.length_append] at h
        obtain ⟨hlen, ha⟩ := h
        have hz : us.length + (7 - us.length - vs.length + 1) + vs.length = 8 := by omega
        rw [(ofWords_fullWords_iff (groups_lt hpre) (groups_lt hpost) hz).mp ha]
        have htext := Ip6Text.gap hpre hpost hz
        rwa [List.append_assoc] at htext
    · exact absurd h (by simp [hs'])

theorem ip6Parse_complete {a : Ip6} (h : Ip6Text s a.words) : ip6Parse s = some a := by
  generalize hws : a.words = ws at h
  cases h with
  | @full gs _ hgs hlen =>
    have hne : gs ≠ [] := by
      rintro rfl
      exact absurd hlen (by decide)
    have htake := take_two_ne hgs hne []
    rw [List.append_nil] at htake
    have hlen' : ws.length = 8 := hgs.length_eq.symm.trans hlen
    rw [ip6Parse, if_neg htake]
    refine Option.bind_eq_some_iff.mpr ⟨_, parseLoop_joined hgs hlen.le, ?_⟩
    simp only [ne_eq, not_true_eq_false, if_false, List.nil_append, hlen']
    rw [(Ip6.ofWords_eq_iff hlen' (groups_lt hgs)).mpr hws]
  | @gap pre post us vs z hpre hpost hz =>
    have ha := (ofWords_fullWords_iff (groups_lt hpre) (groups_lt hpost) hz).mpr hws
    have hlen : ¬7 < us.length + vs.length := by omega
    have hpre' := hpre.length_eq
    have hpost' := hpost.length_eq
    by_cases hne : pre = []
    · subst hne
      cases hpre
      rw [ip6Parse, if_pos (by rfl)]
      refine Option.bind_eq_some_iff.mpr ⟨_, parseLoop_joined hpost (by omega), ?_⟩
      simp only [ne_eq, not_true_eq_false, if_false, List.nil_append]
      rw [if_neg (by simpa using hlen)]
      exact congrArg some ha
    · rw [ip6Parse, List.append_assoc, if_neg (take_two_ne hpre hne _)]
      refine Option.bind_eq_some_iff.mpr ⟨_, parseLoop_gap hpre hpost hne (by omega), ?_⟩
      simp only [ne_eq, not_true_eq_false, if_false, List.nil_append, List.length_append, if_neg hlen,
        List.length_nil, Nat.zero_add]
      exact congrArg some ha

/-- Exactly the texts of addresses are read, each to the address it denotes. -/
theorem ip6Parse_iff (s : Text) (a : Ip6) : ip6Parse s = some a ↔ Ip6Text s a.words :=
  ⟨ip6Parse_sound, ip6Parse_complete⟩

end BananaOS.Net
