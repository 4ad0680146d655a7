import BananaOS.Regex.Match

/-!
# What a pattern matches

The language of a tree of nodes, stated without the matcher: a sequence matches piece by piece, an
alternative by one of its options, and a repeat by any number of iterations within its bounds,
empty ones among them (`Matches`, `SeqMatches`, `Iterates`).

The matcher does not try all of them.  Once it has done `min` iterations, one that took nothing is
the last (`Guarded`).  No match is lost by that: an empty iteration beyond the least number can be
left out, and what follows stands at the same place (`guarded_of_iterates`).
-/

namespace BananaOS.Regex

section

variable (re : Rx) (s : List UInt8)

mutual

/-- A node matches from `i` to `j`. -/
inductive Matches : Node → ℕ → ℕ → Prop
  | takes {node : Node} {i : ℕ} (h : i < s.length) (ht : takes re (s.getD i 0) node = true) :
      Matches node i (i + 1)
  | holds {node : Node} {i : ℕ} (h : holds re s i node = true) : Matches node i i
  | group {g : ℕ} {child : List Node} {i j : ℕ} (h : SeqMatches child i j) :
      Matches (.group g child) i j
  | alt {options : List (List Node)} {o : List Node} {i j : ℕ} (ho : o ∈ options)
      (h : SeqMatches o i j) : Matches (.alt options) i j
  | rep {min : ℕ} {max : Option ℕ} {lazy : Bool} {child : List Node} {n i j : ℕ} (hmin : min ≤ n)
      (hmax : ∀ m, max = some m → n ≤ m) (h : Iterates child n i j) :
      Matches (.rep min max lazy child) i j

/-- A sequence of nodes matches from `i` to `j`. -/
inductive SeqMatches : List Node → ℕ → ℕ → Prop
  | nil (i : ℕ) : SeqMatches [] i i
  | cons {node : Node} {next : List Node} {i j k : ℕ} (h : Matches node i j)
      (hn : SeqMatches next j k) : SeqMatches (node :: next) i k

/-- `n` iterations of a sequence match from `i` to `j`. -/
inductive Iterates : List Node → ℕ → ℕ → ℕ → Prop
  | zero (child : List Node) (i : ℕ) : Iterates child 0 i i
  | succ {child : List Node} {n i j k : ℕ} (h : SeqMatches child i j) (hn : Iterates child n j k) :
      Iterates child (n + 1) i k

end

/-- The iterations that the matcher tries after `count` of them, of which the last began at
`startPos`. -/
inductive Guarded (min : ℕ) (max : Option ℕ) (child : List Node) : ℕ → ℤ → ℕ → ℕ → Prop
  | stop {count : ℕ} {startPos : ℤ} {i : ℕ} (h : min ≤ count) : Guarded min max child count startPos i i
  | more {count : ℕ} {startPos : ℤ} {i j k : ℕ} (hmax : ∀ m, max = some m → count < m)
      (hg : ¬ (count > min ∧ (i : ℤ) = startPos)) (h : SeqMatches re s child i j)
      (hn : Guarded min max child (count + 1) i j k) : Guarded min max child count startPos i k

end

variable {re : Rx} {s : List UInt8}

/-! ## One node at a time -/

theorem seqMatches_nil {i j : ℕ} : SeqMatches re s [] i j ↔ i = j := by
  constructor
  · rintro ⟨⟩
    rfl
  · rintro rfl
    exact .nil i

theorem seqMatches_cons {node : Node} {next : List Node} {i k : ℕ} :
    SeqMatches re s (node :: next) i k ↔ ∃ j, Matches re s node i j ∧ SeqMatches re s next j k := by
  constructor
  · rintro (_ | ⟨h, hn⟩)
    exact ⟨_, h, hn⟩
  · rintro ⟨j, h, hn⟩
    exact .cons h hn

/-- The nodes that take one character. -/
def Node.Taking : Node → Prop
  | .char _ => True
  | .any => True
  | .cls _ _ => True
  | _ => False

/-- The nodes that take nothing. -/
def Node.Asserting : Node → Prop
  | .bol => True
  | .eol => True
  | .wordb => True
  | .nwordb => True
  | _ => False

theorem seqMatches_taking {node : Node} (hk : node.Taking) {next : List Node} {i j : ℕ} :
    SeqMatches re s (node :: next) i j ↔
      i < s.length ∧ takes re (s.getD i 0) node = true ∧ SeqMatches re s next (i + 1) j := by
  rw [seqMatches_cons]
  constructor
  · rintro ⟨m, h, hn⟩
    cases h with
    | takes h ht => exact ⟨h, ht, hn⟩
    | holds h => cases node <;> simp [Node.Taking, holds] at hk h
    | group _ => exact absurd hk id
    | alt _ _ => exact absurd hk id
    | rep _ _ _ => exact absurd hk id
  · rintro ⟨h, ht, hn⟩
    exact ⟨_, .takes h ht, hn⟩

theorem seqMatches_asserting {node : Node} (hk : node.Asserting) {next : List Node} {i j : ℕ} :
    SeqMatches re s (node :: next) i j ↔ holds re s i node = true ∧ SeqMatches re s next i j := by
  rw [seqMatches_cons]
  constructor
  · rintro ⟨m, h, hn⟩
    cases h with
    | takes h ht => cases node <;> simp [Node.Asserting, takes] at hk ht
    | holds h => exact ⟨h, hn⟩
    | group _ => exact absurd hk id
    | alt _ _ => exact absurd hk id
    | rep _ _ _ => exact absurd hk id
  · rintro ⟨h, hn⟩
    exact ⟨_, .holds h, hn⟩

theorem matches_group {g : ℕ} {child : List Node} {i j : ℕ} :
    Matches re s (.group g child) i j ↔ SeqMatches re s child i j := by
  constructor
  · intro h
    cases h with
    | takes h ht => exact absurd ht (by simp [takes])
    | holds h => exact absurd h (by simp [holds])
    | group h => exact h
  · exact .group

theorem matches_alt {options : List (List Node)} {i j : ℕ} :
    Matches re s (.alt options) i j ↔ ∃ o ∈ options, SeqMatches re s o i j := by
  constructor
  · intro h
    cases h with
    | takes h ht => exact absurd ht (by simp [takes])
    | holds h => exact absurd h (by simp [holds])
    | alt ho h => exact ⟨_, ho, h⟩
  · rintro ⟨o, ho, h⟩
    exact .alt ho h

/-! ## Repeats -/

variable {min : ℕ} {max : Option ℕ} {child : List Node}

theorem iterates_of_guarded {count i j : ℕ} {startPos : ℤ}
    (h : Guarded re s min max child count startPos i j) (hc : ∀ m, max = some m → count ≤ m) :
    ∃ n, min ≤ count + n ∧ (∀ m, max = some m → count + n ≤ m) ∧ Iterates re s child n i j := by
  induction h with
  | stop h => exact ⟨0, h, hc, .zero _ _⟩
  | more hmax hg h hn ih =>
    obtain ⟨n, h1, h2, h3⟩ := ih fun m hm => hmax m hm
    exact ⟨n + 1, by omega, fun m hm => by have := h2 m hm; omega, .succ h h3⟩

/-- Iterations that take nothing, beyond the least number, are left out. -/
theorem guarded_of_iterates {n : ℕ} : ∀ {count i j : ℕ} {startPos : ℤ}, Iterates re s child n i j →
    min ≤ count + n → (∀ m, max = some m → count + n ≤ m) →
    ¬ (count > min ∧ (i : ℤ) = startPos) → Guarded re s min max child count startPos i j := by
  induction n with
  | zero =>
    rintro count i j startPos ⟨⟩ hmin - -
    exact .stop hmin
  | succ n ih =>
    rintro count i j startPos (_ | ⟨h, hn⟩) hmin hmax hg
    rename_i m
    by_cases hempty : m = i ∧ count + 1 > min
    · obtain ⟨rfl, hc⟩ := hempty
      exact ih hn (by omega) (fun m hm => by have := hmax m hm; omega) hg
    · refine .more (fun m hm => by have := hmax m hm; omega) hg h (ih hn (by omega)
        (fun m hm => by have := hmax m hm; omega) fun hc => hempty ⟨?_, hc.1⟩)
      exact_mod_cast hc.2

/-- What the matcher tries of a repeat is what the repeat matches. -/
theorem matches_rep {lazy : Bool} {i j : ℕ} :
    Matches re s (.rep min max lazy child) i j ↔ Guarded re s min max child 0 (-1) i j := by
  constructor
  · intro h
    cases h with
    | takes h ht => exact absurd ht (by simp [takes])
    | holds h => exact absurd h (by simp [holds])
    | rep hmin hmax h =>
      exact guarded_of_iterates h (by omega) (fun m hm => by have := hmax m hm; omega) (by omega)
  · intro h
    obtain ⟨n, h1, h2, h3⟩ := iterates_of_guarded h fun m _ => Nat.zero_le m
    exact .rep (by omega) (fun m hm => by have := h2 m hm; omega) h3

end BananaOS.Regex
