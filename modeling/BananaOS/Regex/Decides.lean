import BananaOS.Regex.Language

/-!
# The matcher decides the language of the pattern

A call of `match_here` with continuations asks whether what the pointer leads to matches from a
position on, and the continuations from there (`Goes`).  A marker continuation stands for the
iterations that its repeat may still do; the continuation after it is never a marker itself
(`Chain`), which is why `match_cont` may take it for a plain one.

* `Decides`: what both functions answer, by induction on the fuel.  An answer is a position where
  a match ends, or that there is none; at a limit it says nothing.
* `rxExec_decides`: the search over the positions, with its shortcut for patterns that begin with
  `^`.
-/

namespace BananaOS.Regex

variable {re : Rx} {s : List UInt8}

/-- A pointer matches from `i` to `j`: what it points at and what follows there. -/
def PtrMatches (re : Rx) (s : List UInt8) : Ptr → ℕ → ℕ → Prop
  | .seq nodes, i, j => SeqMatches re s nodes i j
  | .endmark _, i, j => i = j

/-- The continuations take a match at `i` to its end at `j`.  A marker goes on with its repeat. -/
def Goes (re : Rx) (s : List UInt8) : List Frame → ℕ → ℕ → Prop
  | [], i, j => i = j
  | f :: k, i, j =>
    match f.node with
    | .seq (.rep min max lazy child :: next) =>
      if f.repCount > 0 then
        ∃ m, Guarded re s min max child f.repCount f.repPos i m ∧ Goes re s k m j
      else ∃ m, SeqMatches re s (.rep min max lazy child :: next) i m ∧ Goes re s k m j
    | p => ∃ m, PtrMatches re s p i m ∧ Goes re s k m j

/-- The first continuation is not a marker. -/
def Plain : List Frame → Prop
  | [] => True
  | f :: _ => f.repCount = 0

/-- After a marker comes what follows its repeat, which is no marker. -/
def Chain : List Frame → Prop
  | [] => True
  | f :: k => (f.repCount > 0 → Plain k) ∧ Chain k

/-- A result tells whether there is a `j` with `Q`, unless a limit was hit. -/
def Answers (r : Res) (Q : ℕ → Prop) : Prop :=
  match r with
  | .pos j => Q j
  | .fail => ∀ j, ¬ Q j
  | .limit => True

theorem Answers.congr {r : Res} {Q Q' : ℕ → Prop} (h : ∀ j, Q j ↔ Q' j) (ha : Answers r Q) :
    Answers r Q' := by
  cases r with
  | pos j => exact (h j).mp ha
  | fail => exact fun j hq => ha j ((h j).mpr hq)
  | limit => trivial

theorem goes_of_plain {f : Frame} {k : List Frame} (h : f.repCount = 0) {i j : ℕ} :
    Goes re s (f :: k) i j ↔ ∃ m, PtrMatches re s f.node i m ∧ Goes re s k m j := by
  rw [Goes]
  split
  · next hn =>
    rw [if_neg (by omega), hn]
    rfl
  · rfl

theorem goes_seq {next : List Node} {k : List Frame} {i j : ℕ} :
    Goes re s (⟨.seq next, 0, 0⟩ :: k) i j ↔ ∃ m, SeqMatches re s next i m ∧ Goes re s k m j :=
  goes_of_plain rfl

theorem goes_endmark {g : ℕ} {k : List Frame} {i j : ℕ} :
    Goes re s (⟨.endmark g, 0, 0⟩ :: k) i j ↔ Goes re s k i j := by
  rw [goes_of_plain rfl]
  exact ⟨fun ⟨m, hm, h⟩ => hm ▸ h, fun h => ⟨i, rfl, h⟩⟩

theorem chain_seq {next : List Node} {k : List Frame} (h : Chain k) : Chain (⟨.seq next, 0, 0⟩ :: k) :=
  ⟨fun hc => absurd hc (by simp), h⟩

theorem chain_endmark {g : ℕ} {k : List Frame} (h : Chain k) : Chain (⟨.endmark g, 0, 0⟩ :: k) :=
  ⟨fun hc => absurd hc (by simp), h⟩

/-- Two ways to go on, the second where the first leads nowhere. -/
theorem answers_orElse {x : Res × Mstate} {f : Mstate → Res × Mstate} {Q Q' : ℕ → Prop}
    (hf : ∀ M, Answers (f M).1 Q') : Answers x.1 Q →
    Answers (match x with
      | (.fail, M) => f M
      | r => r).1 fun j => Q j ∨ Q' j := by
  intro hx
  obtain ⟨r, M⟩ := x
  cases r with
  | pos j => exact Or.inl hx
  | fail =>
    have := hf M
    refine this.congr fun j => ⟨Or.inr, fun h => h.resolve_left (hx j)⟩
  | limit => trivial

theorem answers_ite {c : Bool} {x : Res × Mstate} {M : Mstate} {Q : ℕ → Prop} (hx : Answers x.1 Q) :
    Answers (if c then x else (.fail, M)).1 fun j => c = true ∧ Q j := by
  cases c with
  | true => exact hx.congr fun j => ⟨fun h => ⟨rfl, h⟩, fun h => h.2⟩
  | false => exact fun j h => absurd h.1 (by simp)

theorem altLoop_answers {go : Ptr → Mstate → Res × Mstate} {Q : List Node → ℕ → Prop}
    (hgo : ∀ o M, Answers (go (.seq o) M).1 (Q o)) (options : List (List Node)) (M : Mstate) :
    Answers (altLoop go options M).1 fun j => ∃ o ∈ options, Q o j := by
  induction options generalizing M with
  | nil => exact fun j ⟨o, ho, _⟩ => absurd ho (by simp)
  | cons o options ih =>
    rw [altLoop]
    exact (answers_orElse ih (hgo o M)).congr fun j => by simp

theorem answers_restore {x : Res × Mstate} {f : Mstate → Mstate} {Q : ℕ → Prop} :
    Answers x.1 Q → Answers (match x with
      | (.pos i, M) => (Res.pos i, M)
      | (r, M) => (r, f M)).1 Q := by
  intro hx
  obtain ⟨r, M⟩ := x
  cases r <;> exact hx

/-- What `match_here` and `repeat_iter` answer, with `fuel` left. -/
structure Decides (re : Rx) (s : List UInt8) (fuel : ℕ) : Prop where
  here : ∀ M node pos k, Chain k → Answers (matchHere re s fuel M node pos k).1
    fun j => ∃ m, PtrMatches re s node pos m ∧ Goes re s k m j
  iter : ∀ M min max lazy child next count pos startPos k, Chain k → Plain k →
    Answers (repeatIter re s fuel M min max lazy child next count pos startPos k).1
      fun j => ∃ m, Guarded re s min max child count startPos pos m ∧ Goes re s k m j

theorem answers_taking {node : Node} (hk : node.Taking) {next : List Node} {pos : ℕ} {k : List Frame}
    {x : Res × Mstate} {M : Mstate}
    (hx : Answers x.1 fun j => ∃ m, SeqMatches re s next (pos + 1) m ∧ Goes re s k m j) :
    Answers (if pos ≥ s.length then (.fail, M)
      else if takes re (s.getD pos 0) node then x else (.fail, M)).1
      fun j => ∃ m, SeqMatches re s (node :: next) pos m ∧ Goes re s k m j := by
  simp only [seqMatches_taking hk]
  split_ifs with h1 h2
  · exact fun j ⟨m, hm, _⟩ => absurd hm.1 (by omega)
  · exact hx.congr fun j => ⟨fun ⟨m, hm, hg⟩ => ⟨m, ⟨by omega, h2, hm⟩, hg⟩,
      fun ⟨m, hm, hg⟩ => ⟨m, hm.2.2, hg⟩⟩
  · exact fun j ⟨m, hm, _⟩ => h2 hm.2.1

theorem answers_asserting {node : Node} (hk : node.Asserting) {next : List Node} {pos : ℕ}
    {k : List Frame} {x : Res × Mstate} {M : Mstate}
    (hx : Answers x.1 fun j => ∃ m, SeqMatches re s next pos m ∧ Goes re s k m j) :
    Answers (if holds re s pos node then x else (.fail, M)).1
      fun j => ∃ m, SeqMatches re s (node :: next) pos m ∧ Goes re s k m j := by
  simp only [seqMatches_asserting hk]
  split_ifs with h
  · exact hx.congr fun j => ⟨fun ⟨m, hm, hg⟩ => ⟨m, ⟨h, hm⟩, hg⟩, fun ⟨m, hm, hg⟩ => ⟨m, hm.2, hg⟩⟩
  · exact fun j ⟨m, hm, _⟩ => h hm.1

theorem seq_then {node : Node} {next : List Node} {pos j : ℕ} {k : List Frame} :
    (∃ m, SeqMatches re s (node :: next) pos m ∧ Goes re s k m j) ↔
      ∃ m, Matches re s node pos m ∧ Goes re s (⟨.seq next, 0, 0⟩ :: k) m j := by
  simp only [seqMatches_cons, goes_seq]
  constructor
  · rintro ⟨m, ⟨m', h, hn⟩, hg⟩
    exact ⟨m', h, m, hn, hg⟩
  · rintro ⟨m', h, m, hn, hg⟩
    exact ⟨m, ⟨m', h, hn⟩, hg⟩

/-- At the end of a sequence the first continuation goes on, a marker with its repeat. -/
theorem resume_answers {fuel : ℕ} (ih : Decides re s fuel) (M : Mstate) (pos : ℕ) (f : Frame)
    (k : List Frame) (hk : Chain (f :: k)) :
    Answers (match f.node with
      | .seq (.rep min max lazy child :: next) =>
        if f.repCount > 0 then
          repeatIter re s fuel M min max lazy child next f.repCount pos f.repPos k
        else matchHere re s fuel M f.node pos k
      | _ => matchHere re s fuel M f.node pos k).1 fun j => Goes re s (f :: k) pos j := by
  obtain ⟨hplain, hk⟩ := hk
  split
  · next min max lazy child next hn =>
    split_ifs with hc
    · refine (ih.iter M min max lazy child next _ pos _ k hk (hplain hc)).congr fun j => ?_
      simp only [Goes, hn, hc, if_true]
    · exact (ih.here M f.node pos k hk).congr fun j => (goes_of_plain (by omega)).symm
  · next hn =>
    refine (ih.here M f.node pos k hk).congr fun j => ?_
    rw [Goes]
    split
    · next hn' => exact absurd hn' (hn _ _ _ _ _)
    · rfl

theorem matchHere_decides {fuel : ℕ} (ih : Decides re s fuel) (M : Mstate) (node : Ptr) (pos : ℕ)
    (k : List Frame) (hk : Chain k) : Answers (matchHere re s (fuel + 1) M node pos k).1
      fun j => ∃ m, PtrMatches re s node pos m ∧ Goes re s k m j := by
  rw [matchHere.eq_def]
  simp only []
  by_cases hsteps : M.steps + 1 > stepLimit
  · rw [if_pos hsteps]
    trivial
  rw [if_neg hsteps]
  split
  · -- the end of a sequence
    simp only [PtrMatches, seqMatches_nil, exists_eq_left']
    cases k with
    | nil => exact rfl
    | cons f k => exact resume_answers ih _ pos f k hk
  · exact answers_taking (by trivial) (ih.here _ _ _ _ hk)
  · exact answers_taking (by trivial) (ih.here _ _ _ _ hk)
  · exact answers_taking (by trivial) (ih.here _ _ _ _ hk)
  · exact answers_asserting (by trivial) (ih.here _ _ _ _ hk)
  · exact answers_asserting (by trivial) (ih.here _ _ _ _ hk)
  · exact answers_asserting (by trivial) (ih.here _ _ _ _ hk)
  · exact answers_asserting (by trivial) (ih.here _ _ _ _ hk)
  · next g child next =>
    refine Answers.congr (fun j => seq_then.symm) ?_
    simp only [matches_group]
    split_ifs
    · exact ih.here _ _ _ _ (chain_seq hk)
    · refine answers_restore ((ih.here _ (.seq child) pos _
        (chain_endmark (chain_seq hk))).congr fun j => ?_)
      simp only [goes_endmark]
      rfl
  · refine answers_restore ((ih.here _ (.seq []) pos k hk).congr fun j => ?_)
    simp only [PtrMatches, seqMatches_nil]
  · next options next =>
    refine Answers.congr (fun j => seq_then.symm) ?_
    simp only [matches_alt]
    refine (altLoop_answers (fun o M => ih.here M (.seq o) pos _ (chain_seq hk)) options _).congr
      fun j => ?_
    constructor
    · rintro ⟨o, ho, m, hm, hg⟩
      exact ⟨m, ⟨o, ho, hm⟩, hg⟩
    · rintro ⟨m, ⟨o, ho, hm⟩, hg⟩
      exact ⟨o, ho, m, hm, hg⟩
  · next min max lazy child next =>
    refine Answers.congr (fun j => seq_then.symm) ?_
    simp only [matches_rep]
    exact ih.iter _ _ _ _ _ _ _ _ _ _ (chain_seq hk) rfl

theorem matchCont_answers {fuel : ℕ} (ih : Decides re s fuel) (M : Mstate) (pos : ℕ) (k : List Frame)
    (hk : Chain k) (hp : Plain k) :
    Answers (matchCont (matchHere re s fuel) M pos k).1 fun j => Goes re s k pos j := by
  cases k with
  | nil => exact rfl
  | cons f k => exact (ih.here M f.node pos k hk.2).congr fun j => (goes_of_plain hp).symm

theorem guarded_iff {min : ℕ} {max : Option ℕ} {child : List Node} {count pos j : ℕ} {startPos : ℤ} :
    Guarded re s min max child count startPos pos j ↔
      (min ≤ count ∧ pos = j) ∨ ((max = none ∨ count < max.getD 0) ∧
        ¬ (count > min ∧ (pos : ℤ) = startPos) ∧
        ∃ m, SeqMatches re s child pos m ∧ Guarded re s min max child (count + 1) pos m j) := by
  have hmax : (∀ m, max = some m → count < m) ↔ max = none ∨ count < max.getD 0 := by
    cases max <;> simp
  constructor
  · intro h
    cases h with
    | stop h => exact Or.inl ⟨h, rfl⟩
    | more h1 h2 h3 h4 => exact Or.inr ⟨hmax.mp h1, h2, _, h3, h4⟩
  · rintro (⟨h, rfl⟩ | ⟨h1, h2, m, h3, h4⟩)
    · exact .stop h
    · exact .more (hmax.mpr h1) h2 h3 h4

theorem repeatIter_decides {fuel : ℕ} (ih : Decides re s fuel) (M : Mstate) (min : ℕ)
    (max : Option ℕ) (lazy : Bool) (child next : List Node) (count pos : ℕ) (startPos : ℤ)
    (k : List Frame) (hk : Chain k) (hp : Plain k) :
    Answers (repeatIter re s (fuel + 1) M min max lazy child next count pos startPos k).1
      fun j => ∃ m, Guarded re s min max child count startPos pos m ∧ Goes re s k m j := by
  rw [repeatIter]
  simp only []
  by_cases hsteps : M.steps + 1 > stepLimit
  · rw [if_pos hsteps]
    trivial
  by_cases hdepth : M.depth + 1 > depthLimit
  · rw [if_neg hsteps, if_pos hdepth]
    trivial
  rw [if_neg hsteps, if_neg hdepth]
  -- one more iteration
  obtain ⟨c, hc⟩ : ∃ c : Bool, c = if count > min ∧ (pos : ℤ) = startPos ∧ count > 0 then false
      else decide (max = none ∨ count < max.getD 0) := ⟨_, rfl⟩
  have hc' : c = true ↔ (max = none ∨ count < max.getD 0) ∧ ¬ (count > min ∧ (pos : ℤ) = startPos) := by
    rw [hc]
    split_ifs with h
    · simp [h.1, h.2.1]
    · simp only [decide_eq_true_eq]
      exact ⟨fun hm => ⟨hm, fun hg => h ⟨hg.1, hg.2, by omega⟩⟩, fun hm => hm.1⟩
  have hmark : Chain (⟨.seq (.rep min max lazy child :: next), count + 1, pos⟩ :: k) := ⟨fun _ => hp, hk⟩
  have hmore : ∀ M', Answers (matchHere re s fuel M' (.seq child) pos
      (⟨.seq (.rep min max lazy child :: next), count + 1, pos⟩ :: k)).1
      fun j => ∃ m, SeqMatches re s child pos m ∧
        ∃ m', Guarded re s min max child (count + 1) pos m m' ∧ Goes re s k m' j := by
    intro M'
    refine (ih.here M' (.seq child) pos _ hmark).congr fun j => ?_
    simp only [Goes, PtrMatches, Nat.zero_lt_succ, if_true]
  have hstop := fun M' => matchCont_answers ih M' pos k hk hp
  have hgoal : ∀ j, (∃ m, Guarded re s min max child count startPos pos m ∧ Goes re s k m j) ↔
      (c = true ∧ ∃ m, SeqMatches re s child pos m ∧
        ∃ m', Guarded re s min max child (count + 1) pos m m' ∧ Goes re s k m' j) ∨
      (decide (count ≥ min) = true ∧ Goes re s k pos j) := by
    intro j
    rw [hc', decide_eq_true_eq]
    constructor
    · rintro ⟨m, hm, hg⟩
      rcases guarded_iff.mp hm with ⟨h, rfl⟩ | ⟨h1, h2, m', h3, h4⟩
      · exact Or.inr ⟨h, hg⟩
      · exact Or.inl ⟨⟨h1, h2⟩, m', h3, m, h4, hg⟩
    · rintro (⟨⟨h1, h2⟩, m, h3, m', h4, hg⟩ | ⟨h, hg⟩)
      · exact ⟨m', guarded_iff.mpr (Or.inr ⟨h1, h2, m, h3, h4⟩), hg⟩
      · exact ⟨pos, guarded_iff.mpr (Or.inl ⟨h, rfl⟩), hg⟩
  simp only [← hc]
  cases lazy with
  | false =>
    simp only [if_true]
    exact (answers_orElse (fun M' => answers_ite (hstop M')) (answers_ite (hmore _))).congr
      fun j => (hgoal j).symm
  | true =>
    simp only [Bool.true_eq_false, if_false]
    refine (answers_orElse (fun M' => answers_ite (hmore M')) (answers_ite (hstop _))).congr fun j => ?_
    rw [hgoal, or_comm]

theorem decides (fuel : ℕ) : Decides re s fuel := by
  induction fuel with
  | zero => exact ⟨fun _ _ _ _ _ => trivial, fun _ _ _ _ _ _ _ _ _ _ _ _ => trivial⟩
  | succ fuel ih => exact ⟨matchHere_decides ih, repeatIter_decides ih⟩

/-! ## The fuel -/

/-- What a call leaves: no fewer steps counted, and as many captures. -/
def Kept (M : Mstate) (x : Res × Mstate) : Prop :=
  M.steps ≤ x.2.steps ∧ x.2.caps.length = M.caps.length

theorem Kept.refl (M : Mstate) (r : Res) : Kept M (r, M) := ⟨Nat.le_refl _, rfl⟩

theorem Kept.after {M M' : Mstate} {x : Res × Mstate} (h : Kept M' x) (hs : M.steps ≤ M'.steps)
    (hc : M'.caps.length = M.caps.length) : Kept M x :=
  ⟨Nat.le_trans hs h.1, h.2.trans hc⟩

theorem kept_orElse {M : Mstate} {x : Res × Mstate} {f : Mstate → Res × Mstate}
    (hf : ∀ M', Kept M' (f M')) : Kept M x →
    Kept M (match x with
      | (.fail, M) => f M
      | r => r) := by
  intro hx
  obtain ⟨r, M'⟩ := x
  cases r with
  | fail => exact (hf M').after hx.1 hx.2
  | pos j => exact hx
  | limit => exact hx

theorem kept_ite {M : Mstate} {c : Bool} {x : Res × Mstate} (hx : Kept M x) :
    Kept M (if c then x else (.fail, M)) := by
  cases c with
  | true => exact hx
  | false => exact .refl M _

theorem kept_altLoop {go : Ptr → Mstate → Res × Mstate} (hgo : ∀ o M, Kept M (go o M))
    (options : List (List Node)) (M : Mstate) : Kept M (altLoop go options M) := by
  induction options generalizing M with
  | nil => exact .refl M _
  | cons o options ih =>
    rw [altLoop]
    exact kept_orElse ih (hgo _ M)

theorem kept_restore {M : Mstate} {x : Res × Mstate} {f : Mstate → Mstate}
    (hf : ∀ M, (f M).steps = M.steps ∧ (f M).caps.length = M.caps.length) : Kept M x →
    Kept M (match x with
      | (.pos i, M) => (Res.pos i, M)
      | (r, M) => (r, f M)) := by
  intro hx
  obtain ⟨r, M'⟩ := x
  have h1 := (hf M').1
  have h2 := (hf M').2
  have h3 := hx.1
  have h4 := hx.2
  cases r with
  | pos j => exact hx
  | fail => exact ⟨by simp only at h3 ⊢; omega, h2.trans h4⟩
  | limit => exact ⟨by simp only at h3 ⊢; omega, h2.trans h4⟩

theorem kept_matchCont {here : Mstate → Ptr → ℕ → List Frame → Res × Mstate}
    (hhere : ∀ M node pos k, Kept M (here M node pos k)) (M : Mstate) (pos : ℕ) (k : List Frame) :
    Kept M (matchCont here M pos k) := by
  cases k with
  | nil => exact .refl _ _
  | cons f k => exact hhere _ _ _ _

theorem kept (fuel : ℕ) : (∀ M node pos k, Kept M (matchHere re s fuel M node pos k)) ∧
    ∀ M min max lazy child next count pos startPos k,
      Kept M (repeatIter re s fuel M min max lazy child next count pos startPos k) := by
  induction fuel with
  | zero =>
    refine ⟨fun M node pos k => ?_, fun M min max lazy child next count pos startPos k => ?_⟩
    · exact ⟨Nat.le_succ _, rfl⟩
    · exact ⟨Nat.le_succ _, rfl⟩
  | succ fuel ih =>
    obtain ⟨hhere, hiter⟩ := ih
    have hone : ∀ M : Mstate, ∀ r : Res, Kept M (r, { M with steps := M.steps + 1 }) :=
      fun M r => ⟨Nat.le_succ _, rfl⟩
    have hnext : ∀ (M : Mstate) (x : Res × Mstate), Kept { M with steps := M.steps + 1 } x → Kept M x :=
      fun M x h => h.after (Nat.le_succ _) rfl
    refine ⟨fun M node pos k => ?_, fun M min max lazy child next count pos startPos k => ?_⟩
    · rw [matchHere.eq_def]
      simp only []
      by_cases hsteps : M.steps + 1 > stepLimit
      · rw [if_pos hsteps]
        exact hone M _
      rw [if_neg hsteps]
      refine hnext M _ ?_
      split
      · cases k with
        | nil => exact .refl _ _
        | cons f k =>
          simp only []
          split
          · split_ifs
            · exact hiter _ _ _ _ _ _ _ _ _ _
            · exact hhere _ _ _ _
          · exact hhere _ _ _ _
      · split_ifs
        · exact .refl _ _
        · exact hhere _ _ _ _
        · exact .refl _ _
      · split_ifs
        · exact .refl _ _
        · exact hhere _ _ _ _
        · exact .refl _ _
      · split_ifs
        · exact .refl _ _
        · exact hhere _ _ _ _
        · exact .refl _ _
      · exact kept_ite (hhere _ _ _ _)
      · exact kept_ite (hhere _ _ _ _)
      · exact kept_ite (hhere _ _ _ _)
      · exact kept_ite (hhere _ _ _ _)
      · split_ifs
        · exact hhere _ _ _ _
        · exact kept_restore (fun M => ⟨rfl, by simp⟩) ((hhere _ _ _ _).after (Nat.le_refl _) (by simp))
      · exact kept_restore (fun M => ⟨rfl, by simp⟩) ((hhere _ _ _ _).after (Nat.le_refl _) (by simp))
      · exact kept_altLoop (fun o M => hhere M o pos _) _ _
      · exact hiter _ _ _ _ _ _ _ _ _ _
    · rw [repeatIter]
      simp only []
      by_cases hsteps : M.steps + 1 > stepLimit
      · rw [if_pos hsteps]
        exact ⟨Nat.le_succ _, rfl⟩
      by_cases hdepth : M.depth + 1 > depthLimit
      · rw [if_neg hsteps, if_pos hdepth]
        exact ⟨Nat.le_succ _, rfl⟩
      rw [if_neg hsteps, if_neg hdepth]
      have hstop : ∀ M', Kept M' (matchCont (matchHere re s fuel) M' pos k) :=
        fun M' => kept_matchCont hhere M' pos k
      have hmore := fun M' => hhere M' (.seq child) pos
        (⟨.seq (.rep min max lazy child :: next), count + 1, pos⟩ :: k)
      have hlift : ∀ x : Res × Mstate, Kept ⟨M.steps + 1, M.depth + 1, M.caps⟩ x →
          Kept M (x.1, { x.2 with depth := x.2.depth - 1 }) :=
        fun x h => ⟨Nat.le_trans (Nat.le_succ _) h.1, h.2⟩
      refine hlift _ ?_
      cases lazy with
      | false =>
        simp only [if_true]
        exact kept_orElse (fun M' => kept_ite (hstop M')) (kept_ite (hmore _))
      | true =>
        simp only [Bool.true_eq_false, if_false]
        exact kept_orElse (fun M' => kept_ite (hmore M')) (kept_ite (hstop _))

/-! ## The search -/

/-- The match that a search for the first of several positions shall report. -/
structure Reported (re : Rx) (s : List UInt8) (start : ℕ) (sticky : Bool) (p i : ℕ) : Prop where
  start_le : start ≤ p
  le_length : p ≤ s.length
  sticky : sticky = true → p = start
  isMatch : SeqMatches re s re.root p i
  least : ∀ p' i', start ≤ p' → p' < p → ¬ SeqMatches re s re.root p' i'

/-- Nothing to report. -/
def Unmatched (re : Rx) (s : List UInt8) (start : ℕ) (sticky : Bool) : Prop :=
  ∀ p i, start ≤ p → p ≤ s.length → (sticky = true → p = start) → ¬ SeqMatches re s re.root p i

theorem not_seqMatches_bol {next : List Node} (hm : re.multiline = false) {p i : ℕ} (hp : 0 < p) :
    ¬ SeqMatches re s (.bol :: next) p i := by
  rw [seqMatches_asserting (by trivial)]
  rintro ⟨h, -⟩
  have : ¬ p = 0 := by omega
  simp [holds, hm, this] at h

/-- What a search that goes on to the next position may report. -/
theorem Reported.later {start p i : ℕ} (h : Reported re s (start + 1) false p i)
    (hno : ∀ i, ¬ SeqMatches re s re.root start i) : Reported re s start false p i := by
  have := h.start_le
  refine ⟨by omega, h.le_length, fun hs => absurd hs (by simp), h.isMatch, fun p' i' h1 h2 => ?_⟩
  rcases Nat.lt_or_ge start p' with hlt | hge
  · exact h.least p' i' hlt h2
  · obtain rfl : p' = start := by omega
    exact hno i'

theorem Unmatched.later {start : ℕ} (h : Unmatched re s (start + 1) false)
    (hno : ∀ i, ¬ SeqMatches re s re.root start i) : Unmatched re s start false := by
  intro p i h1 h2 _
  rcases Nat.lt_or_ge start p with hlt | hge
  · exact h p i hlt h2 fun hs => absurd hs (by simp)
  · obtain rfl : p = start := by omega
    exact hno i

/-- How a search from `p` on may end. -/
def Ends (re : Rx) (s : List UInt8) (p : ℕ) (sticky : Bool) (x : Res × Mstate) : Prop :=
  match x.1 with
  | .limit => True
  | .fail => Unmatched re s p sticky
  | .pos i => ∃ p', Reported re s p sticky p' i ∧ x.2.caps.getD 0 0 = p' ∧ x.2.caps.getD 1 0 = i

theorem Ends.later {p : ℕ} {x : Res × Mstate} (h : Ends re s (p + 1) false x)
    (hno : ∀ i, ¬ SeqMatches re s re.root p i) : Ends re s p false x := by
  obtain ⟨r, M⟩ := x
  cases r with
  | limit => trivial
  | fail => exact Unmatched.later h hno
  | pos i =>
    obtain ⟨p', h1, h2⟩ := h
    exact ⟨p', h1.later hno, h2⟩

theorem rxExecLoop_spec (sticky : Bool) (left : ℕ) : ∀ (M : Mstate) (p : ℕ),
    p + left = s.length + 1 → Ends re s p sticky (rxExecLoop re s sticky left M p) := by
  induction left with
  | zero => exact fun M p hp p' i h1 h2 => absurd h2 (by omega)
  | succ left ih =>
    intro M p hp
    rw [rxExecLoop]
    obtain ⟨M1, hM1⟩ : ∃ M1 : Mstate,
      M1 = { M with caps := List.replicate (2 * (rxMaxGroups + 1)) (-1) } := ⟨_, rfl⟩
    rw [← hM1]
    have hans : Answers (matchHere re s (stepLimit + 1) M1 (.seq re.root) p []).1 _ :=
      (decides (stepLimit + 1)).here M1 (.seq re.root) p [] trivial
    have hkept : Kept M1 (matchHere re s (stepLimit + 1) M1 (.seq re.root) p []) :=
      (kept (stepLimit + 1)).1 M1 (.seq re.root) p []
    have hlen : M1.caps.length = 2 * (rxMaxGroups + 1) := by rw [hM1, List.length_replicate]
    generalize matchHere re s (stepLimit + 1) M1 (.seq re.root) p [] = x at hans hkept
    obtain ⟨r, M2⟩ := x
    cases r with
    | limit => trivial
    | pos i =>
      obtain ⟨m, hm, rfl⟩ := hans
      have hlen2 : M2.caps.length = 2 * (rxMaxGroups + 1) := hkept.2.trans hlen
      refine ⟨p, ⟨Nat.le_refl _, by omega, fun _ => rfl, hm, fun p' _ h1 h2 => absurd h1 (by omega)⟩,
        ?_, ?_⟩
      · rw [rxMaxGroups] at hlen2
        simp [List.getD_eq_getElem?_getD, hlen2]
      · rw [rxMaxGroups] at hlen2
        simp [List.getD_eq_getElem?_getD, hlen2]
    | fail =>
      have hno : ∀ i, ¬ SeqMatches re s re.root p i := fun i hm => hans i ⟨i, hm, rfl⟩
      simp only []
      cases sticky with
      | true =>
        intro p' i h1 h2 h3
        obtain rfl := h3 rfl
        exact hno i
      | false =>
        rw [if_neg (by simp)]
        split
        · next next hroot =>
          cases hm : re.multiline with
          | true => exact (ih M2 (p + 1) (by omega)).later hno
          | false =>
            intro p' i h1 h2 _
            rcases Nat.lt_or_ge p p' with hlt | hge
            · rw [hroot]
              exact not_seqMatches_bol hm (by omega)
            · obtain rfl : p' = p := by omega
              exact hno i
        · exact (ih M2 (p + 1) (by omega)).later hno

/-- **The matcher decides the pattern's language.**  Unless a limit ends the search, `rx_exec`
returns 1 exactly when the pattern matches from a position on, at or after `start`; it then reports
the first such position and the end of a match from there.  With `sticky` only `start` counts. -/
theorem rxExec_decides (re : Rx) (s : List UInt8) (start : ℕ) (sticky : Bool)
    (hl : (rxSearch re s start sticky).1 ≠ .limit) :
    ((rxExec re s start sticky).1 = 1 ↔ ∃ p i, start ≤ p ∧ p ≤ s.length ∧
      (sticky = true → p = start) ∧ SeqMatches re s re.root p i) ∧
    ((rxExec re s start sticky).1 = 1 → ∃ p i, Reported re s start sticky p i ∧
      (rxExec re s start sticky).2.getD 0 0 = p ∧ (rxExec re s start sticky).2.getD 1 0 = i) := by
  have hends : Ends re s start sticky (rxExecLoop re s sticky (s.length + 1 - start) ⟨0, 0, []⟩ start) := by
    rcases Nat.lt_or_ge s.length start with hlt | hge
    · rw [show s.length + 1 - start = 0 by omega]
      exact fun p' i h1 h2 => absurd h2 (by omega)
    · exact rxExecLoop_spec sticky _ _ start (by omega)
  simp only [rxExec]
  rw [rxSearch] at hl ⊢
  generalize rxExecLoop re s sticky (s.length + 1 - start) ⟨0, 0, []⟩ start = x at hends hl
  obtain ⟨r, M⟩ := x
  cases r with
  | limit => exact absurd rfl hl
  | fail =>
    refine ⟨⟨fun h => absurd h (by simp), ?_⟩, fun h => absurd h (by simp)⟩
    rintro ⟨p, i, h1, h2, h3, h4⟩
    exact absurd h4 (hends p i h1 h2 h3)
  | pos i =>
    obtain ⟨p, hp, h0, h1⟩ := hends
    exact ⟨⟨fun _ => ⟨p, i, hp.start_le, hp.le_length, hp.sticky, hp.isMatch⟩, fun _ => rfl⟩,
      fun _ => ⟨p, i, hp, h0, h1⟩⟩

/-- `/(a?)*b/` in `"xaab"`: the search ends, at position 1. -/
theorem rxExec_decides_nested :
    let re : Rx := ⟨[.rep 0 none false [.group 1 [.rep 0 (some 1) false [.char 97]]], .char 98],
      false, false, false⟩
    let s : List UInt8 := [120, 97, 97, 98]
    (rxSearch re s 0 false).1 ≠ .limit ∧ (rxExec re s 0 false).1 = 1 ∧
      ∃ p i, Reported re s 0 false p i ∧ (rxExec re s 0 false).2.getD 0 0 = p ∧
        (rxExec re s 0 false).2.getD 1 0 = i := by
  intro re s
  have hl : (rxSearch re s 0 false).1 ≠ .limit := by decide +kernel
  have h1 : (rxExec re s 0 false).1 = 1 := by decide +kernel
  exact ⟨hl, h1, (rxExec_decides re s 0 false hl).2 h1⟩

end BananaOS.Regex
