import Mathlib.Algebra.BigOperators.Group.Finset.Basic
import Mathlib.Algebra.BigOperators.Ring.Finset
import Mathlib.Algebra.Order.BigOperators.Group.Finset
import Mathlib.Data.Nat.Bitwise
import Mathlib.Logic.Function.Basic
import Mathlib.Tactic.Common
import Mathlib.Tactic.Linarith
import Mathlib.Tactic.Ring

/-!
# Lengths of a Huffman code

`huff_lengths` of `kernel/deflate.c`.  The tree is built by merging the two lightest nodes until one is
left, and the length of a symbol is its depth.  If one is too long, the frequencies are halved (none becomes
zero) and the tree is built again.

A function stands for an array.  The program may go round for ever or use an index of -1; then the result is
`none`.

* `Built.balance`: whatever is merged, a weight that is shared out between the children of every node comes
  to the same over the symbols and over the nodes left; with `2 ^ -depth` this is the Kraft sum.
* `Even.depth_le`: when all frequencies are 1, a node weighs half as much again as each child, so no symbol
  is too deep.
* `lengthsLoop_spec`: the loop ends, and the lengths are those of a complete code.
-/

namespace BananaOS.Deflate

open Finset Function

def u32 (n : ℕ) : ℕ := n % 2 ^ 32

/-- The nodes of the tree that is being built: `w`, `alive` and `parent`, `none` for -1. -/
structure Forest where
  nodes : ℕ
  w : ℕ → ℕ
  alive : ℕ → Bool
  parent : ℕ → Option ℕ

/-- How many symbols are used, and the last of them. -/
def usedLast (freq : ℕ → ℕ) (n : ℕ) : ℕ × ℕ :=
  (List.range n).foldl (fun p i => if freq i ≠ 0 then (p.1 + 1, i) else p) (0, 0)

/-- A node for each symbol. -/
def Forest.start (freq : ℕ → ℕ) (n : ℕ) : Forest := ⟨n, freq, fun i => freq i != 0, fun _ => none⟩

/-- One turn of the search for the two lightest nodes, `none` for -1. -/
def Forest.pickStep (f : Forest) (p : Option ℕ × Option ℕ) (i : ℕ) : Option ℕ × Option ℕ :=
  if f.alive i = false then p
  else
    match p with
    | (none, _) => (some i, none)
    | (some a, none) => if f.w i < f.w a then (some i, some a) else (some a, some i)
    | (some a, some b) =>
      if f.w i < f.w a then (some i, some a)
      else if f.w i < f.w b then (some a, some i)
      else (some a, some b)

def Forest.pickTwo (f : Forest) : Option ℕ × Option ℕ :=
  (List.range f.nodes).foldl f.pickStep (none, none)

/-- The nodes `a` and `b` become the children of a new one. -/
def Forest.merge (f : Forest) (a b : ℕ) : Forest where
  nodes := f.nodes + 1
  w := update f.w f.nodes (u32 (f.w a + f.w b))
  alive := update (update (update f.alive f.nodes true) a false) b false
  parent := update (update (update f.parent f.nodes none) a (some f.nodes)) b (some f.nodes)

/-- So many merges. -/
def Forest.build : ℕ → Forest → Option Forest
  | 0, f => some f
  | k + 1, f =>
    match f.pickTwo with
    | (some a, some b) => (f.merge a b).build k
    | _ => none

/-- The loop up the tree, in at most so many turns. -/
def depthFrom (parent : ℕ → Option ℕ) : ℕ → ℕ → Option ℕ
  | 0, _ => none
  | k + 1, p =>
    match parent p with
    | none => some 0
    | some q => (depthFrom parent k q).map (· + 1)

/-- One turn of the loop that sets the lengths: is one too long, and the lengths. -/
def lenStep (freq : ℕ → ℕ) (f : Forest) (maxbits : ℕ) (r : Bool × (ℕ → ℕ)) (i : ℕ) :
    Option (Bool × (ℕ → ℕ)) :=
  if freq i = 0 then some r
  else (depthFrom f.parent (f.nodes + 1) i).map fun d => (r.1 || decide (maxbits < d), update r.2 i (d % 256))

/-- `freq[i] = (freq[i] >> 1) | 1` for the symbols used. -/
def flatten (freq : ℕ → ℕ) : ℕ → ℕ := fun i => if freq i ≠ 0 then (freq i >>> 1) ||| 1 else 0

/-- The outer loop of `huff_lengths`, in at most so many turns. -/
def lengthsLoop (n maxbits : ℕ) : ℕ → (ℕ → ℕ) → (ℕ → ℕ) → Option (ℕ → ℕ)
  | 0, _, _ => none
  | k + 1, freq, len =>
    let len := fun i => if i < n then 0 else len i
    let (used, last) := usedLast freq n
    if used = 0 then some len
    else if used = 1 then some (update (update len last 1) (if last = 0 then 1 else 0) 1)
    else
      match ((Forest.start freq n).build (used - 1)).bind fun f =>
        (List.range n).foldlM (lenStep freq f maxbits) (false, len) with
      | none => none
      | some (tooLong, len) => if tooLong then lengthsLoop n maxbits k (flatten freq) len else some len

/-- `huff_lengths`; the outer loop turns at most 33 times. -/
def huffLengths (freq : ℕ → ℕ) (n maxbits : ℕ) (len : ℕ → ℕ) : Option (ℕ → ℕ) :=
  lengthsLoop n maxbits 33 freq len

variable {f : Forest} {freq : ℕ → ℕ} {n m a b : ℕ}

namespace Forest

/-! ## The two lightest nodes -/

/-- The nodes left to merge. -/
def up (f : Forest) : Finset ℕ := {i ∈ range f.nodes | f.alive i = true}

theorem mem_up {i : ℕ} : i ∈ f.up ↔ i < f.nodes ∧ f.alive i = true := by
  rw [up, mem_filter, mem_range]

/-- What the search has found among the first `m` nodes. -/
def Picked (f : Forest) (m : ℕ) : Option ℕ × Option ℕ → Prop
  | (none, _) => ∀ i < m, f.alive i = false
  | (some a, none) => a < m ∧ f.alive a = true ∧ ∀ i < m, f.alive i = true → i = a
  | (some a, some b) => a < m ∧ b < m ∧ a ≠ b ∧ f.alive a = true ∧ f.alive b = true ∧ f.w a ≤ f.w b ∧
      ∀ i < m, f.alive i = true → i ≠ a → f.w b ≤ f.w i

theorem Picked.step {p : Option ℕ × Option ℕ} (h : f.Picked m p) : f.Picked (m + 1) (f.pickStep p m) := by
  rw [pickStep.eq_def]
  split_ifs with hm
  · obtain ⟨_ | a, _ | b⟩ := p
    · exact fun i hi => (Nat.lt_succ_iff_lt_or_eq.mp hi).elim (h i) fun hi => hi ▸ hm
    · exact fun i hi => (Nat.lt_succ_iff_lt_or_eq.mp hi).elim (h i) fun hi => hi ▸ hm
    · obtain ⟨h1, h2, h3⟩ := h
      refine ⟨by omega, h2, fun i hi hup => h3 i ?_ hup⟩
      refine (Nat.lt_succ_iff_lt_or_eq.mp hi).resolve_right ?_
      rintro rfl
      exact absurd (hm.symm.trans hup) nofun
    · obtain ⟨h1, h2, h3, h4, h5, h6, h7⟩ := h
      refine ⟨by omega, by omega, h3, h4, h5, h6, fun i hi hup hia => h7 i ?_ hup hia⟩
      refine (Nat.lt_succ_iff_lt_or_eq.mp hi).resolve_right ?_
      rintro rfl
      exact absurd (hm.symm.trans hup) nofun
  · have hup : f.alive m = true := by simpa using hm
    obtain ⟨_ | a, b⟩ := p
    · refine ⟨m.lt_succ_self, hup, fun i hi hi' => ?_⟩
      refine (Nat.lt_succ_iff_lt_or_eq.mp hi).resolve_left fun hlt => ?_
      exact absurd ((h i hlt).symm.trans hi') nofun
    obtain _ | b := b
    · obtain ⟨h1, h2, h3⟩ := h
      dsimp only
      split_ifs with hlt
      · refine ⟨m.lt_succ_self, by omega, by omega, hup, h2, hlt.le, fun i hi hi' him => ?_⟩
        rw [h3 i (by omega) hi']
      · refine ⟨by omega, m.lt_succ_self, by omega, h2, hup, not_lt.mp hlt, fun i hi hi' hia => ?_⟩
        obtain hi | rfl := Nat.lt_succ_iff_lt_or_eq.mp hi
        · exact absurd (h3 i hi hi') hia
        · exact le_rfl
    · obtain ⟨h1, h2, h3, h4, h5, h6, h7⟩ := h
      dsimp only
      split_ifs with hlt hlt'
      · refine ⟨m.lt_succ_self, by omega, by omega, hup, h4, hlt.le, fun i hi hi' him => ?_⟩
        by_cases hia : i = a
        · rw [hia]
        · exact h6.trans (h7 i (by omega) hi' hia)
      · refine ⟨by omega, m.lt_succ_self, by omega, h4, hup, not_lt.mp hlt, fun i hi hi' hia => ?_⟩
        obtain hi | rfl := Nat.lt_succ_iff_lt_or_eq.mp hi
        · exact hlt'.le.trans (h7 i hi hi' hia)
        · exact le_rfl
      · refine ⟨by omega, by omega, h3, h4, h5, h6, fun i hi hi' hia => ?_⟩
        obtain hi | rfl := Nat.lt_succ_iff_lt_or_eq.mp hi
        · exact h7 i hi hi' hia
        · exact not_lt.mp hlt'

theorem picked_range (f : Forest) (m : ℕ) : f.Picked m ((List.range m).foldl f.pickStep (none, none)) := by
  induction m with
  | zero => exact fun i hi => absurd hi i.not_lt_zero
  | succ m ih =>
    rw [List.range_succ, List.foldl_append]
    exact ih.step

/-- Two nodes that are left, and of the others none is lighter. -/
structure Lightest (f : Forest) (a b : ℕ) : Prop where
  left : a ∈ f.up
  right : b ∈ f.up
  ne : a ≠ b
  le : f.w a ≤ f.w b
  least : ∀ i ∈ f.up, i ≠ a → f.w b ≤ f.w i

theorem pickTwo_spec (h : 2 ≤ #f.up) : ∃ a b, f.pickTwo = (some a, some b) ∧ f.Lightest a b := by
  have hp := f.picked_range f.nodes
  rw [← pickTwo] at hp
  obtain ⟨p, hq⟩ : ∃ p, f.pickTwo = p := ⟨_, rfl⟩
  rw [hq] at hp ⊢
  have hnone : ¬ ∀ i < f.nodes, f.alive i = false := fun hall => by
    have hempty : f.up = ∅ := filter_eq_empty_iff.mpr fun i hi => by simp [hall i (mem_range.mp hi)]
    rw [hempty, card_empty] at h
    omega
  obtain ⟨_ | a, _ | b⟩ := p
  · exact absurd hp hnone
  · exact absurd hp hnone
  · obtain ⟨x, hx, y, hy, hxy⟩ := one_lt_card.mp h
    rw [mem_up] at hx hy
    exact absurd ((hp.2.2 x hx.1 hx.2).trans (hp.2.2 y hy.1 hy.2).symm) hxy
  · obtain ⟨h1, h2, h3, h4, h5, h6, h7⟩ := hp
    refine ⟨a, b, rfl, mem_up.mpr ⟨h1, h4⟩, mem_up.mpr ⟨h2, h5⟩, h3, h6, fun i hi hia => ?_⟩
    rw [mem_up] at hi
    exact h7 i hi.1 hi.2 hia

/-! ## Merging -/

theorem up_merge (ha : a ∈ f.up) (hb : b ∈ f.up) : (f.merge a b).up = insert f.nodes ((f.up.erase a).erase b) := by
  rw [mem_up] at ha hb
  ext i
  rw [mem_up, mem_insert, mem_erase, mem_erase, mem_up, merge]
  dsimp only
  by_cases hib : i = b
  · rw [hib, update_self]
    simp only [ne_eq, not_true_eq_false, false_and, or_false, Bool.false_eq_true, and_false, false_iff]
    omega
  rw [update_of_ne hib]
  by_cases hia : i = a
  · rw [hia, update_self]
    simp only [ne_eq, not_true_eq_false, false_and, and_false, or_false, Bool.false_eq_true, false_iff]
    omega
  rw [update_of_ne hia]
  by_cases hin : i = f.nodes
  · rw [hin, update_self]
    simp
  rw [update_of_ne hin]
  constructor
  · rintro ⟨h1, h2⟩
    exact .inr ⟨hib, hia, by omega, h2⟩
  · rintro (h | ⟨-, -, h1, h2⟩)
    · exact absurd h hin
    · exact ⟨by omega, h2⟩

theorem parent_merge_left (hab : a ≠ b) : (f.merge a b).parent a = some f.nodes := by
  rw [merge]
  dsimp only
  rw [update_of_ne hab, update_self]

theorem parent_merge_right : (f.merge a b).parent b = some f.nodes := update_self ..

theorem parent_merge_new (ha : a ≠ f.nodes) (hb : b ≠ f.nodes) : (f.merge a b).parent f.nodes = none := by
  rw [merge]
  dsimp only
  rw [update_of_ne hb.symm, update_of_ne ha.symm, update_self]

theorem parent_merge_of_ne {i : ℕ} (ha : i ≠ a) (hb : i ≠ b) (hn : i ≠ f.nodes) :
    (f.merge a b).parent i = f.parent i := by
  rw [merge]
  dsimp only
  rw [update_of_ne hb, update_of_ne ha, update_of_ne hn]

/-- A tree is being built over the symbols that are used. -/
structure Built (f : Forest) (freq : ℕ → ℕ) (n : ℕ) : Prop where
  symbols : n ≤ f.nodes
  root : ∀ i ∈ f.up, f.parent i = none
  child : ∀ i < f.nodes, f.parent i = none → i ∈ f.up ∨ i < n ∧ freq i = 0
  parent : ∀ i < f.nodes, ∀ c, f.parent i = some c → i < c ∧ n ≤ c ∧ c < f.nodes
  balance : ∀ μ : ℕ → ℕ, (∀ a b c, a < f.nodes → b < f.nodes → a ≠ b → f.parent a = some c →
    f.parent b = some c → μ a + μ b = μ c) → ∑ i ∈ range n with freq i ≠ 0, μ i = ∑ i ∈ f.up, μ i

theorem up_start : (start freq n).up = {i ∈ range n | freq i ≠ 0} :=
  filter_congr fun _ _ => bne_iff_ne

theorem built_start (freq : ℕ → ℕ) (n : ℕ) : (start freq n).Built freq n := by
  refine ⟨le_rfl, fun _ _ => rfl, fun i hi _ => ?_, nofun, fun _ _ => by rw [up_start]⟩
  by_cases h : freq i = 0
  · exact .inr ⟨hi, h⟩
  · exact .inl (mem_up.mpr ⟨hi, bne_iff_ne.mpr h⟩)

theorem sum_up_merge (h : f.Lightest a b) {μ : ℕ → ℕ} (hμ : μ a + μ b = μ f.nodes) :
    ∑ i ∈ (f.merge a b).up, μ i = ∑ i ∈ f.up, μ i := by
  have hn : f.nodes ∉ (f.up.erase a).erase b := fun hin =>
    (mem_up.mp (mem_of_mem_erase (mem_of_mem_erase hin))).1.false
  have hb : b ∈ f.up.erase a := mem_erase.mpr ⟨h.ne.symm, h.right⟩
  rw [up_merge h.left h.right, sum_insert hn, ← hμ, add_assoc, add_sum_erase _ _ hb, add_sum_erase _ _ h.left]

theorem Built.merge (h : f.Built freq n) (hab : f.Lightest a b) : (f.merge a b).Built freq n := by
  have ha := (mem_up.mp hab.left).1
  have hb := (mem_up.mp hab.right).1
  have hnodes : (f.merge a b).nodes = f.nodes + 1 := rfl
  have hup : ∀ i, i ∈ (f.merge a b).up ↔ i = f.nodes ∨ i ≠ b ∧ i ≠ a ∧ i ∈ f.up := fun i => by
    rw [up_merge hab.left hab.right, mem_insert, mem_erase, mem_erase]
  have hcases : ∀ i < f.nodes + 1, i = f.nodes ∨ i = a ∨ i = b ∨
      i < f.nodes ∧ (f.merge a b).parent i = f.parent i := fun i hi => by
    by_cases hin : i = f.nodes
    · exact .inl hin
    by_cases hia : i = a
    · exact .inr (.inl hia)
    by_cases hib : i = b
    · exact .inr (.inr (.inl hib))
    · exact .inr (.inr (.inr ⟨by omega, parent_merge_of_ne hia hib hin⟩))
  refine ⟨h.symbols.trans f.nodes.le_succ, fun i hi => ?_, fun i hi hnone => ?_, fun i hi c hc => ?_, fun μ hμ => ?_⟩
  · obtain rfl | ⟨hib, hia, hi⟩ := (hup i).mp hi
    · exact parent_merge_new ha.ne hb.ne
    · rw [parent_merge_of_ne hia hib (mem_up.mp hi).1.ne]
      exact h.root i hi
  · obtain rfl | rfl | rfl | ⟨hlt, heq⟩ := hcases i hi
    · exact .inl ((hup _).mpr (.inl rfl))
    · rw [parent_merge_left hab.ne] at hnone
      exact absurd hnone nofun
    · rw [parent_merge_right] at hnone
      exact absurd hnone nofun
    · obtain hi' | hi' := h.child i hlt (heq ▸ hnone)
      · by_cases hia : i = a
        · rw [hia, parent_merge_left hab.ne] at hnone
          exact absurd hnone nofun
        by_cases hib : i = b
        · rw [hib, parent_merge_right] at hnone
          exact absurd hnone nofun
        · exact .inl ((hup i).mpr (.inr ⟨hib, hia, hi'⟩))
      · exact .inr hi'
  · obtain rfl | rfl | rfl | ⟨hlt, heq⟩ := hcases i hi
    · rw [parent_merge_new ha.ne hb.ne] at hc
      exact absurd hc nofun
    · rw [parent_merge_left hab.ne] at hc
      obtain rfl := Option.some.inj hc
      exact ⟨ha, h.symbols, by omega⟩
    · rw [parent_merge_right] at hc
      obtain rfl := Option.some.inj hc
      exact ⟨hb, h.symbols, by omega⟩
    · have hold := h.parent i hlt c (heq ▸ hc)
      exact ⟨hold.1, hold.2.1, by omega⟩
  · have hnew : μ a + μ b = μ f.nodes :=
      hμ a b f.nodes (by omega) (by omega) hab.ne (parent_merge_left hab.ne) parent_merge_right
    rw [sum_up_merge hab hnew]
    refine h.balance μ fun x y c hx hy hxy hxc hyc => ?_
    -- what has a parent is not merged again
    have hkeep : ∀ z, z < f.nodes → f.parent z = some c → (f.merge a b).parent z = some c := fun z hz hzc => by
      rw [parent_merge_of_ne _ _ hz.ne, hzc]
      · rintro rfl
        exact absurd ((h.root _ hab.left).symm.trans hzc) nofun
      · rintro rfl
        exact absurd ((h.root _ hab.right).symm.trans hzc) nofun
    exact hμ x y c (by omega) (by omega) hxy (hkeep x hx hxc) (hkeep y hy hyc)

theorem card_up_merge (h : f.Lightest a b) : #(f.merge a b).up + 1 = #f.up := by
  have hn : f.nodes ∉ (f.up.erase a).erase b := fun hin =>
    (mem_up.mp (mem_of_mem_erase (mem_of_mem_erase hin))).1.false
  have hb : b ∈ f.up.erase a := mem_erase.mpr ⟨h.ne.symm, h.right⟩
  have h1 := card_pos.mpr ⟨a, h.left⟩
  have h2 := card_pos.mpr ⟨b, hb⟩
  rw [up_merge h.left h.right, card_insert_of_notMem hn, card_erase_of_mem hb, card_erase_of_mem h.left]
  rw [card_erase_of_mem h.left] at h2
  omega

/-- A property of the forest that every merge keeps holds of the tree. -/
theorem build_spec {P : Forest → Prop} (hstep : ∀ f a b, P f → f.Lightest a b → P (f.merge a b)) (k : ℕ)
    (hcard : #f.up = k + 1) (h : P f) : ∃ g, f.build k = some g ∧ P g ∧ #g.up = 1 ∧ g.nodes = f.nodes + k := by
  induction k generalizing f with
  | zero => exact ⟨f, rfl, h, hcard, rfl⟩
  | succ k ih =>
    obtain ⟨a, b, hpick, hab⟩ := pickTwo_spec (f := f) (by omega)
    have hone := card_up_merge hab
    obtain ⟨g, hg, hP, hcard', hnodes⟩ := ih (f := f.merge a b) (by omega) (hstep f a b h hab)
    refine ⟨g, by rw [build, hpick]; exact hg, hP, hcard', ?_⟩
    rw [hnodes]
    change f.nodes + 1 + k = f.nodes + (k + 1)
    omega

/-! ## Depth -/

/-- How far a node is from the root. -/
def depth (f : Forest) (p : ℕ) : ℕ := (depthFrom f.parent (f.nodes + 1) p).getD 0

/-- The loop up the tree ends, as every parent is a later node. -/
theorem Built.exists_depth (h : f.Built freq n) {p : ℕ} (hp : p < f.nodes) :
    ∃ d ≤ f.nodes - p, ∀ k, f.nodes ≤ p + k → depthFrom f.parent k p = some d := by
  induction hm : f.nodes - p using Nat.strong_induction_on generalizing p with
  | _ m ih =>
    cases hc : f.parent p with
    | none =>
      refine ⟨0, Nat.zero_le _, fun k hk => ?_⟩
      obtain ⟨k, rfl⟩ : ∃ j, k = j + 1 := ⟨k - 1, by omega⟩
      rw [depthFrom, hc]
    | some c =>
      obtain ⟨hpc, -, hcn⟩ := h.parent p hp c hc
      obtain ⟨d, hd, hdk⟩ := ih (f.nodes - c) (by omega) hcn rfl
      refine ⟨d + 1, by omega, fun k hk => ?_⟩
      obtain ⟨k, rfl⟩ : ∃ j, k = j + 1 := ⟨k - 1, by omega⟩
      rw [depthFrom, hc]
      dsimp only
      rw [hdk k (by omega)]
      rfl

theorem Built.depthFrom_eq (h : f.Built freq n) {p k : ℕ} (hp : p < f.nodes) (hk : f.nodes ≤ p + k) :
    depthFrom f.parent k p = some (f.depth p) := by
  obtain ⟨d, -, hdk⟩ := h.exists_depth hp
  rw [hdk k hk, depth, hdk (f.nodes + 1) (by omega)]
  rfl

theorem Built.depth_le (h : f.Built freq n) {p : ℕ} (hp : p < f.nodes) : f.depth p ≤ f.nodes := by
  obtain ⟨d, hd, hdk⟩ := h.exists_depth hp
  rw [depth, hdk _ (by omega)]
  exact hd.trans (Nat.sub_le _ _)

theorem depth_root {p : ℕ} (hc : f.parent p = none) : f.depth p = 0 := by
  rw [depth, depthFrom, hc]
  rfl

theorem Built.depth_child (h : f.Built freq n) {p c : ℕ} (hp : p < f.nodes) (hc : f.parent p = some c) :
    f.depth p = f.depth c + 1 := by
  obtain ⟨hpc, -, hcn⟩ := h.parent p hp c hc
  have hd := h.depthFrom_eq hcn (k := f.nodes) (by omega)
  rw [depth, depthFrom, hc]
  dsimp only
  rw [hd]
  rfl

theorem Built.kraft (h : f.Built freq n) (hone : #f.up = 1)
    (hm : ∀ i < n, freq i ≠ 0 → f.depth i ≤ m) : ∑ i ∈ range n with freq i ≠ 0, 2 ^ (m - f.depth i) = 2 ^ m := by
  obtain ⟨r, hr⟩ := card_eq_one.mp hone
  have hroot : f.depth r = 0 := depth_root (h.root r (hr ▸ mem_singleton_self r))
  have hsum := h.balance (fun p => 2 ^ (f.nodes + m - f.depth p)) fun a b c ha hb _ hac hbc => by
    have hc := h.depth_le (h.parent a ha c hac).2.2
    have hle := h.depth_le ha
    rw [h.depth_child ha hac] at hle
    rw [h.depth_child ha hac, h.depth_child hb hbc, ← two_mul, ← pow_succ']
    exact congrArg _ (by omega)
  have hsplit : ∀ i ∈ {i ∈ range n | freq i ≠ 0},
      2 ^ (f.nodes + m - f.depth i) = 2 ^ f.nodes * 2 ^ (m - f.depth i) := fun i hi => by
    have hle := hm i (mem_range.mp (mem_filter.mp hi).1) (mem_filter.mp hi).2
    rw [← pow_add, Nat.add_sub_assoc hle]
  rw [hr, sum_singleton, hroot, Nat.sub_zero, pow_add, sum_congr rfl hsplit, ← mul_sum] at hsum
  exact Nat.eq_of_mul_eq_mul_left (Nat.two_pow_pos _) hsum

/-! ## Even frequencies -/

/-- The weights when all frequencies are 1: no two nodes left are far apart. -/
structure Even (f : Forest) (freq : ℕ → ℕ) (n : ℕ) : Prop where
  leaf : ∀ i < n, f.w i = freq i
  weight : ∀ a b c, a < f.nodes → b < f.nodes → a ≠ b → f.parent a = some c → f.parent b = some c →
    f.w a + f.w b = f.w c
  ratio : ∀ x ∈ f.up, ∀ y ∈ f.up, f.w x ≤ 2 * f.w y
  edge : ∀ p < f.nodes, ∀ c, f.parent p = some c → 3 * f.w p ≤ 2 * f.w c

theorem even_start (h : ∀ i < n, freq i ≤ 1) : (start freq n).Even freq n := by
  refine ⟨fun _ _ => rfl, nofun, fun x hx y hy => ?_, nofun⟩
  rw [mem_up] at hx hy
  have h1 : freq x ≤ 1 := h x hx.1
  have h2 : freq y ≠ 0 := bne_iff_ne.mp hy.2
  change freq x ≤ 2 * freq y
  omega

theorem Even.total (h : f.Even freq n) (hb : f.Built freq n) :
    ∑ i ∈ f.up, f.w i = ∑ i ∈ range n with freq i ≠ 0, freq i := by
  rw [← hb.balance f.w h.weight]
  exact sum_congr rfl fun i hi => h.leaf i (mem_range.mp (mem_filter.mp hi).1)

theorem Even.merge (h : f.Even freq n) (hb : f.Built freq n) (hab : f.Lightest a b)
    (hsum : ∑ i ∈ range n with freq i ≠ 0, freq i < 2 ^ 32) : (f.merge a b).Even freq n := by
  have hlta := (mem_up.mp hab.left).1
  have hltb := (mem_up.mp hab.right).1
  have hsym := hb.symbols
  have hwnew : (f.merge a b).w f.nodes = f.w a + f.w b := by
    have hle : f.w a + f.w b ≤ ∑ i ∈ f.up, f.w i := by
      rw [← sum_pair hab.ne]
      exact sum_le_sum_of_subset (insert_subset hab.left (singleton_subset_iff.mpr hab.right))
    rw [h.total hb] at hle
    exact (update_self ..).trans (Nat.mod_eq_of_lt (hle.trans_lt hsum))
  have hwold : ∀ i < f.nodes, (f.merge a b).w i = f.w i := fun i hi => update_of_ne hi.ne ..
  have hratio := h.ratio a hab.left b hab.right
  have hratio' := h.ratio b hab.right a hab.left
  have hnone : ∀ z ∈ f.up, ∀ c, f.parent z ≠ some c := fun z hz c hc =>
    absurd ((hb.root z hz).symm.trans hc) nofun
  have hcases : ∀ p < f.nodes + 1, ∀ c, (f.merge a b).parent p = some c →
      (p = a ∨ p = b) ∧ c = f.nodes ∨ p < f.nodes ∧ c < f.nodes ∧ f.parent p = some c := fun p hp c hc => by
    by_cases hpa : p = a
    · rw [hpa, parent_merge_left hab.ne] at hc
      exact .inl ⟨.inl hpa, (Option.some.inj hc).symm⟩
    by_cases hpb : p = b
    · rw [hpb, parent_merge_right] at hc
      exact .inl ⟨.inr hpb, (Option.some.inj hc).symm⟩
    by_cases hpn : p = f.nodes
    · rw [hpn, parent_merge_new hlta.ne hltb.ne] at hc
      exact absurd hc nofun
    · rw [parent_merge_of_ne hpa hpb hpn] at hc
      have hlt : p < f.nodes := by omega
      exact .inr ⟨hlt, (hb.parent p hlt c hc).2.2, hc⟩
  refine ⟨fun i hi => ?_, fun x y c hx hy hxy hxc hyc => ?_, fun x hx y hy => ?_, fun p hp c hc => ?_⟩
  · rw [hwold i (by omega)]
    exact h.leaf i hi
  · obtain ⟨hx', rfl⟩ | ⟨hx', hc, hxc'⟩ := hcases x hx c hxc
    · obtain ⟨hy', -⟩ | ⟨-, hc, -⟩ := hcases y hy _ hyc
      · rw [hwnew]
        obtain rfl | rfl := hx'
        · obtain rfl | rfl := hy'
          · exact absurd rfl hxy
          · rw [hwold _ hlta, hwold _ hltb]
        · obtain rfl | rfl := hy'
          · rw [hwold _ hlta, hwold _ hltb, add_comm]
          · exact absurd rfl hxy
      · exact absurd hc (lt_irrefl _)
    · obtain ⟨-, rfl⟩ | ⟨hy', -, hyc'⟩ := hcases y hy c hyc
      · exact absurd hc (lt_irrefl _)
      · rw [hwold x hx', hwold y hy', hwold c hc]
        exact h.weight x y c hx' hy' hxy hxc' hyc'
  · rw [up_merge hab.left hab.right, mem_insert, mem_erase, mem_erase] at hx hy
    obtain rfl | ⟨hxb, hxa, hx⟩ := hx
    · obtain rfl | ⟨hyb, hya, hy⟩ := hy
      · omega
      · have hle := hab.least y hy hya
        have hle' := hab.le
        rw [hwnew, hwold y (mem_up.mp hy).1]
        omega
    · have hxa' := h.ratio x hx a hab.left
      have hxlt := (mem_up.mp hx).1
      obtain rfl | ⟨hyb, hya, hy⟩ := hy
      · rw [hwnew, hwold x hxlt]
        omega
      · rw [hwold x hxlt, hwold y (mem_up.mp hy).1]
        exact h.ratio x hx y hy
  · obtain ⟨hp', rfl⟩ | ⟨hp', hc', hpc⟩ := hcases p hp c hc
    · rw [hwnew]
      obtain rfl | rfl := hp'
      · rw [hwold _ hlta]
        have := hab.le
        omega
      · rw [hwold _ hltb]
        omega
    · rw [hwold p hp', hwold c hc']
      exact h.edge p hp' c hpc

/-- Every step up the tree adds half of the weight. -/
theorem Even.depth_le (h : f.Even freq n) (hb : f.Built freq n) {r p : ℕ} (hr : f.up = {r}) (hp : p < f.nodes) :
    3 ^ f.depth p * f.w p ≤ 2 ^ f.depth p * f.w r := by
  induction hm : f.nodes - p using Nat.strong_induction_on generalizing p with
  | _ m ih =>
    cases hc : f.parent p with
    | none =>
      rw [depth_root hc, pow_zero, pow_zero, one_mul, one_mul]
      obtain hup | ⟨hpn, h0⟩ := hb.child p hp hc
      · rw [hr, mem_singleton] at hup
        rw [hup]
      · rw [h.leaf p hpn, h0]
        exact Nat.zero_le _
    | some c =>
      obtain ⟨hpc, -, hcn⟩ := hb.parent p hp c hc
      have hstep := ih (f.nodes - c) (by omega) hcn rfl
      have hedge := h.edge p hp c hc
      rw [hb.depth_child hp hc]
      calc 3 ^ (f.depth c + 1) * f.w p = 3 ^ f.depth c * (3 * f.w p) := by ring
        _ ≤ 3 ^ f.depth c * (2 * f.w c) := Nat.mul_le_mul_left _ hedge
        _ = 2 * (3 ^ f.depth c * f.w c) := by ring
        _ ≤ 2 * (2 ^ f.depth c * f.w r) := Nat.mul_le_mul_left _ hstep
        _ = 2 ^ (f.depth c + 1) * f.w r := by ring

/-! ## The whole tree -/

/-- The tree over at least two symbols. -/
structure Tree (f : Forest) (freq : ℕ → ℕ) (n : ℕ) : Prop where
  built : f.Built freq n
  one : #f.up = 1
  inner : ∀ i < n, i ∉ f.up

theorem build_tree (hused : 2 ≤ #{i ∈ range n | freq i ≠ 0}) :
    ∃ f, (start freq n).build (#{i ∈ range n | freq i ≠ 0} - 1) = some f ∧ f.Tree freq n ∧
      ((∀ i < n, freq i ≤ 1) → n < 2 ^ 32 → f.Even freq n) := by
  obtain ⟨f, hf, ⟨hb, hlast, he⟩, hone, hnodes⟩ := build_spec
    (P := fun f => f.Built freq n ∧ (n < f.nodes → f.nodes - 1 ∈ f.up) ∧
      ((∀ i < n, freq i ≤ 1) → n < 2 ^ 32 → f.Even freq n))
    (fun f a b h hab => ⟨h.1.merge hab, fun _ => by rw [up_merge hab.left hab.right]; exact mem_insert_self _ _,
      fun h1 hn => (h.2.2 h1 hn).merge h.1 hab (by
        have hle : ∑ i ∈ range n with freq i ≠ 0, freq i ≤ #{i ∈ range n | freq i ≠ 0} * 1 :=
          sum_le_card_nsmul _ _ 1 fun i hi => h1 i (mem_range.mp (mem_filter.mp hi).1)
        have hcard : #{i ∈ range n | freq i ≠ 0} ≤ n := (card_filter_le _ _).trans (card_range n).le
        omega)⟩)
    (#{i ∈ range n | freq i ≠ 0} - 1) (f := start freq n) (by rw [up_start]; omega)
    ⟨built_start freq n, fun h => absurd h (lt_irrefl _), fun h1 _ => even_start h1⟩
  have hn : (start freq n).nodes = n := rfl
  refine ⟨f, hf, ⟨hb, hone, fun i hi hup => ?_⟩, he⟩
  obtain ⟨r, hr⟩ := card_eq_one.mp hone
  have hroot := hlast (by omega)
  rw [hr, mem_singleton] at hroot hup
  omega

theorem Tree.depth_pos (h : f.Tree freq n) {i : ℕ} (hi : i < n) (hu : freq i ≠ 0) : 0 < f.depth i := by
  have hlt : i < f.nodes := hi.trans_le h.built.symbols
  cases hc : f.parent i with
  | none => exact ((h.built.child i hlt hc).elim (h.inner i hi) fun h0 => hu h0.2).elim
  | some c =>
    rw [h.built.depth_child hlt hc]
    exact Nat.succ_pos _

/-- With frequencies of 1 no symbol is deep. -/
theorem Even.depth_le_of (h : f.Even freq n) (ht : f.Tree freq n) (hone : ∀ i < n, freq i ≤ 1)
    (hm : 2 ^ (m + 1) * n < 3 ^ (m + 1)) {i : ℕ} (hi : i < n) (hu : freq i ≠ 0) : f.depth i ≤ m := by
  obtain ⟨r, hr⟩ := card_eq_one.mp ht.one
  have hlt : i < f.nodes := hi.trans_le ht.built.symbols
  have hup := h.depth_le ht.built hr hlt
  have hw : f.w i = 1 := by
    rw [h.leaf i hi]
    have := hone i hi
    omega
  have hroot : f.w r ≤ n := by
    have htotal := h.total ht.built
    rw [hr, sum_singleton] at htotal
    have hle : ∑ i ∈ range n with freq i ≠ 0, freq i ≤ #{i ∈ range n | freq i ≠ 0} * 1 :=
      sum_le_card_nsmul _ _ 1 fun i hi => hone i (mem_range.mp (mem_filter.mp hi).1)
    have hcard : #{i ∈ range n | freq i ≠ 0} ≤ n := (card_filter_le _ _).trans (card_range n).le
    omega
  by_contra hdeep
  obtain ⟨d, hd⟩ := Nat.exists_eq_add_of_le (show m + 1 ≤ f.depth i by omega)
  have hpow : 2 ^ d ≤ 3 ^ d := Nat.pow_le_pow_left (by decide) d
  rw [hw, mul_one, hd] at hup
  have hcontra : 2 ^ (m + 1 + d) * f.w r < 3 ^ (m + 1 + d) := by
    calc 2 ^ (m + 1 + d) * f.w r ≤ 2 ^ (m + 1 + d) * n := Nat.mul_le_mul_left _ hroot
      _ = 2 ^ (m + 1) * n * 2 ^ d := by ring
      _ ≤ 2 ^ (m + 1) * n * 3 ^ d := Nat.mul_le_mul_left _ hpow
      _ < 3 ^ (m + 1) * 3 ^ d := Nat.mul_lt_mul_of_pos_right hm (Nat.pow_pos (by decide))
      _ = 3 ^ (m + 1 + d) := (pow_add ..).symm
  omega

end Forest

/-! ## The lengths -/

theorem usedLast_fst (freq : ℕ → ℕ) (n : ℕ) : (usedLast freq n).1 = #{i ∈ range n | freq i ≠ 0} := by
  induction n with
  | zero => rfl
  | succ n ih =>
    have hstep : usedLast freq (n + 1) =
        if freq n ≠ 0 then ((usedLast freq n).1 + 1, n) else usedLast freq n := by
      rw [usedLast, List.range_succ, List.foldl_append]
      rfl
    rw [hstep, range_add_one, filter_insert]
    split_ifs with h
    · rw [card_insert_of_notMem fun hn => (mem_range.mp (mem_filter.mp hn).1).false, ih]
    · exact ih

theorem usedLast_snd (h : (usedLast freq n).1 ≠ 0) : (usedLast freq n).2 < n ∧ freq (usedLast freq n).2 ≠ 0 := by
  induction n with
  | zero => exact absurd rfl h
  | succ n ih =>
    have hstep : usedLast freq (n + 1) =
        if freq n ≠ 0 then ((usedLast freq n).1 + 1, n) else usedLast freq n := by
      rw [usedLast, List.range_succ, List.foldl_append]
      rfl
    rw [hstep] at h ⊢
    split_ifs at h ⊢ with hn
    · exact ⟨n.lt_succ_self, hn⟩
    · exact ⟨(ih h).1.trans n.lt_succ_self, (ih h).2⟩

/-- The loop that sets the lengths. -/
theorem foldlM_lenStep (ht : f.Built freq n) (hm : m ≤ n) (maxbits : ℕ) (len : ℕ → ℕ) :
    ∃ tooLong len', (List.range m).foldlM (lenStep freq f maxbits) (false, len) = some (tooLong, len') ∧
      (tooLong = true ↔ ∃ i < m, freq i ≠ 0 ∧ maxbits < f.depth i) ∧
      ∀ i, len' i = if i < m ∧ freq i ≠ 0 then f.depth i % 256 else len i := by
  induction m with
  | zero =>
    refine ⟨false, len, rfl, ⟨nofun, fun ⟨i, hi, _⟩ => absurd hi i.not_lt_zero⟩, fun i => ?_⟩
    rw [if_neg fun h => absurd h.1 i.not_lt_zero]
  | succ m ih =>
    obtain ⟨tooLong, len', hfold, hlong, hlen⟩ := ih (by omega)
    rw [List.range_succ, List.foldlM_append, hfold]
    have hstep : lenStep freq f maxbits (tooLong, len') m = if freq m = 0 then some (tooLong, len')
        else some (tooLong || decide (maxbits < f.depth m), update len' m (f.depth m % 256)) := by
      rw [lenStep]
      split_ifs with h0
      · rfl
      · rw [ht.depthFrom_eq (by have := ht.symbols; omega) (by omega)]
        rfl
    simp only [Option.bind_eq_bind, Option.bind_some, List.foldlM_cons, List.foldlM_nil, hstep]
    split_ifs with h0
    · refine ⟨tooLong, len', rfl, ?_, fun i => ?_⟩
      · rw [hlong]
        constructor
        · rintro ⟨i, hi, hu⟩
          exact ⟨i, by omega, hu⟩
        · rintro ⟨i, hi, hu⟩
          obtain hi | rfl := Nat.lt_succ_iff_lt_or_eq.mp hi
          · exact ⟨i, hi, hu⟩
          · exact absurd h0 hu.1
      · rw [hlen]
        by_cases him : i = m
        · rw [him, if_neg fun h => h.2 h0, if_neg fun h => h.2 h0]
        · exact if_congr ⟨fun h => ⟨by omega, h.2⟩, fun h => ⟨by omega, h.2⟩⟩ rfl rfl
    · refine ⟨_, _, rfl, ?_, fun i => ?_⟩
      · rw [Bool.or_eq_true, hlong, decide_eq_true_eq]
        constructor
        · rintro (⟨i, hi, hu⟩ | hd)
          · exact ⟨i, by omega, hu⟩
          · exact ⟨m, by omega, h0, hd⟩
        · rintro ⟨i, hi, hu⟩
          obtain hi | rfl := Nat.lt_succ_iff_lt_or_eq.mp hi
          · exact .inl ⟨i, hi, hu⟩
          · exact .inr hu.2
      · by_cases him : i = m
        · rw [him, update_self, if_pos ⟨m.lt_succ_self, h0⟩]
        · rw [update_of_ne him, hlen]
          exact if_congr ⟨fun h => ⟨by omega, h.2⟩, fun h => ⟨by omega, h.2⟩⟩ rfl rfl

theorem flatten_eq_zero {i : ℕ} : flatten freq i = 0 ↔ freq i = 0 := by
  rw [flatten]
  split_ifs with h
  · refine ⟨fun h0 => ?_, fun h0 => absurd h0 h⟩
    have hodd : ((freq i >>> 1) ||| 1).testBit 0 = true := by simp
    rw [h0] at hodd
    exact absurd hodd nofun
  · exact ⟨fun _ => not_not.mp h, fun _ => rfl⟩

theorem flatten_lt {i k : ℕ} (h : freq i < 2 ^ (k + 2)) : flatten freq i < 2 ^ (k + 1) := by
  rw [flatten]
  split_ifs
  · refine Nat.or_lt_two_pow ?_ (Nat.one_lt_two_pow (by omega))
    rw [Nat.shiftRight_eq_div_pow, pow_one]
    rw [pow_succ] at h
    omega
  · exact Nat.two_pow_pos _

/-- Lengths of a complete code for the symbols that are used. -/
structure IsLengths (freq : ℕ → ℕ) (n maxbits : ℕ) (len : ℕ → ℕ) : Prop where
  used : ∀ i < n, freq i ≠ 0 → 1 ≤ len i ∧ len i ≤ maxbits
  unused : ∀ i < n, freq i = 0 → len i = 0
  kraft : ∑ i ∈ range n with freq i ≠ 0, 2 ^ (maxbits - len i) = 2 ^ maxbits

theorem filter_flatten : {i ∈ range n | flatten freq i ≠ 0} = {i ∈ range n | freq i ≠ 0} :=
  filter_congr fun _ _ => not_congr flatten_eq_zero

theorem IsLengths.of_flatten {maxbits : ℕ} {len : ℕ → ℕ} (h : IsLengths (flatten freq) n maxbits len) :
    IsLengths freq n maxbits len := by
  refine ⟨fun i hi hu => h.used i hi fun h0 => hu (flatten_eq_zero.mp h0), fun i hi h0 => ?_, ?_⟩
  · exact h.unused i hi (flatten_eq_zero.mpr h0)
  · rw [← filter_flatten]
    exact h.kraft

/-- One turn of the outer loop: it is the last one, or a symbol is too deep. -/
theorem lengthsLoop_turn {maxbits : ℕ} (hused : 2 ≤ #{i ∈ range n | freq i ≠ 0}) (hm : maxbits < 256)
    (len : ℕ → ℕ) : ∃ f : Forest, f.Tree freq n ∧ ((∀ i < n, freq i ≤ 1) → n < 2 ^ 32 → f.Even freq n) ∧
      ((∀ i < n, freq i ≠ 0 → f.depth i ≤ maxbits) →
        ∃ len', (∀ k, lengthsLoop n maxbits (k + 1) freq len = some len') ∧ IsLengths freq n maxbits len') ∧
      ((∃ i < n, freq i ≠ 0 ∧ maxbits < f.depth i) →
        ∃ len', ∀ k, lengthsLoop n maxbits (k + 1) freq len = lengthsLoop n maxbits k (flatten freq) len') := by
  obtain ⟨f, hf, ht, he⟩ := Forest.build_tree hused
  obtain ⟨tooLong, len', hfold, hlong, hlen⟩ :=
    foldlM_lenStep ht.built le_rfl maxbits fun i => if i < n then 0 else len i
  have hturn : ∀ k, lengthsLoop n maxbits (k + 1) freq len =
      if tooLong then lengthsLoop n maxbits k (flatten freq) len' else some len' := fun k => by
    rw [lengthsLoop]
    dsimp only
    rw [usedLast_fst, if_neg (by omega), if_neg (by omega), hf, Option.bind_some, hfold]
  refine ⟨f, ht, he, fun hall => ?_, fun hdeep => ?_⟩
  · have hshort : tooLong = false := by
      refine Bool.eq_false_iff.mpr fun htrue => ?_
      obtain ⟨i, hi, hu, hd⟩ := hlong.mp htrue
      exact absurd (hall i hi hu) (by omega)
    have hused' : ∀ i < n, freq i ≠ 0 → len' i = f.depth i := fun i hi hu => by
      have hd := hall i hi hu
      rw [hlen, if_pos ⟨hi, hu⟩, Nat.mod_eq_of_lt (by omega)]
    refine ⟨len', fun k => ?_, fun i hi hu => ?_, fun i hi h0 => ?_, ?_⟩
    · rw [hturn, hshort]
      rfl
    · rw [hused' i hi hu]
      exact ⟨ht.depth_pos hi hu, hall i hi hu⟩
    · rw [hlen, if_neg fun h => h.2 h0, if_pos hi]
    · rw [← ht.built.kraft ht.one hall]
      refine sum_congr rfl fun i hi => ?_
      rw [mem_filter, mem_range] at hi
      rw [hused' i hi.1 hi.2]
  · refine ⟨len', fun k => ?_⟩
    rw [hturn, if_pos (hlong.mpr hdeep)]

/-- With frequencies below `2 ^ (k + 1)` the outer loop turns at most `k + 1` times. -/
theorem lengthsLoop_spec {maxbits k : ℕ} (hused : 2 ≤ #{i ∈ range n | freq i ≠ 0})
    (hfreq : ∀ i < n, freq i < 2 ^ (k + 1)) (hn : n < 2 ^ 32) (hm : maxbits < 256)
    (hroom : 2 ^ (maxbits + 1) * n < 3 ^ (maxbits + 1)) (len : ℕ → ℕ) (j : ℕ) :
    ∃ len', lengthsLoop n maxbits (k + 1 + j) freq len = some len' ∧ IsLengths freq n maxbits len' := by
  induction k generalizing freq len with
  | zero =>
    obtain ⟨f, ht, he, hdone, -⟩ := lengthsLoop_turn hused hm len
    have hone : ∀ i < n, freq i ≤ 1 := fun i hi => Nat.le_of_lt_succ (hfreq i hi)
    obtain ⟨len', hloop, hlen⟩ := hdone fun i hi hu => (he hone hn).depth_le_of ht hone hroom hi hu
    refine ⟨len', ?_, hlen⟩
    rw [zero_add, add_comm]
    exact hloop j
  | succ k ih =>
    obtain ⟨f, ht, -, hdone, hagain⟩ := lengthsLoop_turn hused hm len
    have hfuel : k + 1 + 1 + j = k + 1 + j + 1 := by omega
    rw [hfuel]
    by_cases hall : ∀ i < n, freq i ≠ 0 → f.depth i ≤ maxbits
    · obtain ⟨len', hloop, hlen⟩ := hdone hall
      exact ⟨len', hloop _, hlen⟩
    · push Not at hall
      obtain ⟨len', hloop⟩ := hagain hall
      obtain ⟨len'', hloop', hlen⟩ := @ih (flatten freq) (by rwa [filter_flatten])
        (fun i hi => flatten_lt (hfreq i hi)) len'
      exact ⟨len'', (hloop _).trans hloop', hlen.of_flatten⟩

/-- With a single symbol in use, it and the first of the others get length 1. -/
theorem huffLengths_one {maxbits : ℕ} {len : ℕ → ℕ} (hone : {i ∈ range n | freq i ≠ 0} = {a}) :
    huffLengths freq n maxbits len = some fun i =>
      if i = a ∨ i = (if a = 0 then 1 else 0) then 1 else if i < n then 0 else len i := by
  have hfst : (usedLast freq n).1 = 1 := by rw [usedLast_fst, hone, card_singleton]
  have hlast : (usedLast freq n).2 = a := by
    obtain ⟨hlt, hu⟩ := usedLast_snd (hfst.trans_ne one_ne_zero)
    have hmem : (usedLast freq n).2 ∈ {i ∈ range n | freq i ≠ 0} := mem_filter.mpr ⟨mem_range.mpr hlt, hu⟩
    rw [hone, mem_singleton] at hmem
    exact hmem
  rw [huffLengths, lengthsLoop]
  dsimp only
  rw [if_neg (by omega), if_pos hfst, hlast]
  refine congrArg some (funext fun i => ?_)
  by_cases hi : i = if a = 0 then 1 else 0
  · rw [hi, update_self, if_pos (.inr rfl)]
  · rw [update_of_ne hi]
    by_cases hia : i = a
    · rw [hia, update_self, if_pos (.inl rfl)]
    · rw [update_of_ne hia, if_neg (not_or.mpr ⟨hia, hi⟩)]

theorem huffLengths_zero {maxbits : ℕ} {len : ℕ → ℕ} (h : ∀ i < n, freq i = 0) :
    huffLengths freq n maxbits len = some fun i => if i < n then 0 else len i := by
  have hfst : (usedLast freq n).1 = 0 := by
    rw [usedLast_fst, card_eq_zero]
    exact filter_eq_empty_iff.mpr fun i hi => not_not.mpr (h i (mem_range.mp hi))
  rw [huffLengths, lengthsLoop]
  dsimp only
  rw [if_pos hfst]

end BananaOS.Deflate
