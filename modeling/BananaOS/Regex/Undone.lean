import BananaOS.Regex.Exec

/-!
# What a failure leaves behind

A capture group puts back what it overwrote when what follows fails, and so does a negative lookahead; a
lookahead that matched does not.  So a failed pass leaves captures behind exactly where a lookahead
captured something and what follows it failed (`matchHere_undoes`).  Where that does not happen, the
captures of a match are those made on the path that matched, which is stated without the matcher
(`Path`).
-/

namespace BananaOS.Regex.Whole

/-- A failed pass left the captures as it found them. -/
def Event.Undone : Event → Prop
  | .failed found left => left = found
  | _ => True

/-- A lookahead that was followed by a failure had not changed the captures. -/
def Event.Unlost : Event → Prop
  | .lost before after => after = before
  | _ => True

section

variable (re : Rx) (s : ℤ → UInt8) (n : ℕ)

mutual

/-- A path on which a match can go from a node, a position and captures to an end, with the captures
that are made on it.  An alternative is taken from the captures before the alternatives, as if no other
had been tried. -/
inductive Path : Caps → Ptr → ℤ → List Frame → Caps → ℤ → Prop
  | bare {c c' : Caps} {node : Node} {next : List Node} {pos p e : ℤ} {k : List Frame} (hb : node.Bare)
      (hl : (leaf re s n c pos node).2 = some p) (h : Path c (.seq next) p k c' e) :
      Path c (.seq (node :: next)) pos k c' e
  | pop {c c' : Caps} {pos e : ℤ} {k : List Frame} (h : Resume c pos k c' e) :
      Path c (.seq []) pos k c' e
  | again {c c' : Caps} {f : Frame} {min : ℕ} {max : Option ℕ} {lazy : Bool} {child next : List Node}
      {pos e : ℤ} {k : List Frame} (hf : f.node = .seq (.rep min max lazy child :: next))
      (h : Repeats c min max lazy child next f.repCount pos k c' e) : Path c (.seq []) pos (f :: k) c' e
  | plain {c c' : Caps} {child next : List Node} {pos e : ℤ} {k : List Frame}
      (h : Path c (.seq child) pos (⟨.seq next, 0, 0⟩ :: k) c' e) :
      Path c (.seq (.group 0 child :: next)) pos k c' e
  | group {c c' : Caps} {g : ℕ} {child next : List Node} {pos e : ℤ} {k : List Frame} (hg : g ≠ 0)
      (h : Path (Function.update c (2 * g) pos) (.seq child) pos
        (⟨.endmark g, 0, 0⟩ :: ⟨.seq next, 0, 0⟩ :: k) c' e) :
      Path c (.seq (.group g child :: next)) pos k c' e
  | endmark {c c' : Caps} {g : ℕ} {pos e : ℤ} {k : List Frame}
      (h : Path (Function.update c (2 * g + 1) pos) (.seq []) pos k c' e) :
      Path c (.endmark g) pos k c' e
  | alt {c c' : Caps} {options : List (List Node)} {o next : List Node} {pos e : ℤ} {k : List Frame}
      (ho : o ∈ options) (h : Path c (.seq o) pos (⟨.seq next, 0, 0⟩ :: k) c' e) :
      Path c (.seq (.alt options :: next)) pos k c' e
  | rep {c c' : Caps} {min : ℕ} {max : Option ℕ} {lazy : Bool} {child next : List Node} {pos e : ℤ}
      {k : List Frame} (h : Repeats c min max lazy child next 0 pos (⟨.seq next, 0, 0⟩ :: k) c' e) :
      Path c (.seq (.rep min max lazy child :: next)) pos k c' e
  | ahead {c c₁ c' : Caps} {child next : List Node} {pos e₁ e : ℤ} {k : List Frame}
      (hsub : Path c (.seq child) pos [] c₁ e₁) (h : Path c₁ (.seq next) pos k c' e) :
      Path c (.seq (.look .ahead child :: next)) pos k c' e
  | notAhead {c c' : Caps} {child next : List Node} {pos e : ℤ} {k : List Frame}
      (h : Path c (.seq next) pos k c' e) : Path c (.seq (.look .notAhead child :: next)) pos k c' e
  | behind {c c' : Caps} {child next : List Node} {pos e : ℤ} {k : List Frame}
      (h : Path c (.seq next) pos k c' e) : Path c (.seq (.look .behind child :: next)) pos k c' e

/-- The path goes on with the continuation. -/
inductive Resume : Caps → ℤ → List Frame → Caps → ℤ → Prop
  | done {c : Caps} {pos : ℤ} : Resume c pos [] c pos
  | next {c c' : Caps} {pos e : ℤ} {f : Frame} {k : List Frame} (h : Path c f.node pos k c' e) :
      Resume c pos (f :: k) c' e

/-- The path goes through one more iteration, or leaves the repeat. -/
inductive Repeats : Caps → ℕ → Option ℕ → Bool → List Node → List Node → ℕ → ℤ → List Frame → Caps →
    ℤ → Prop
  | more {c c' : Caps} {min : ℕ} {max : Option ℕ} {lazy : Bool} {child next : List Node} {count : ℕ}
      {pos e : ℤ} {k : List Frame} (hmax : ∀ m, max = some m → count < m)
      (h : Path c (.seq child) pos (⟨.seq (.rep min max lazy child :: next), count + 1, pos⟩ :: k) c' e) :
      Repeats c min max lazy child next count pos k c' e
  | stop {c c' : Caps} {min : ℕ} {max : Option ℕ} {lazy : Bool} {child next : List Node} {count : ℕ}
      {pos e : ℤ} {k : List Frame} (hmin : min ≤ count) (h : Resume c pos k c' e) :
      Repeats c min max lazy child next count pos k c' e

end

end

/-! ## Nodes that hold no others -/

/-- Reads, and back references. -/
def Event.Reads : Event → Prop
  | .read _ => True
  | .back _ _ => True
  | _ => False

theorem Event.Reads.undone {e : Event} (h : e.Reads) : e.Undone := by
  cases e with
  | failed _ _ => exact absurd h id
  | _ => trivial

theorem Event.Reads.unlost {e : Event} (h : e.Reads) : e.Unlost := by
  cases e with
  | lost _ _ => exact absurd h id
  | _ => trivial

theorem backLoop_reads (re : Rx) (s : ℤ → UInt8) (pos s0 : ℤ) (k : ℕ) (i : ℤ) :
    ∀ e ∈ (backLoop re s pos s0 k i).1, e.Reads := by
  induction k generalizing i with
  | zero => exact fun e he => absurd he List.not_mem_nil
  | succ k ih =>
    have htwo : ∀ e ∈ [Event.read (s0 + i), Event.read (pos + i)], e.Reads := by
      simp [Event.Reads]
    rw [backLoop]
    split_ifs
    · intro e he
      rcases List.mem_append.mp he with he | he
      · exact ih (i + 1) e he
      · exact htwo e he
    · exact htwo

/-- They only read. -/
theorem leaf_reads (re : Rx) (s : ℤ → UInt8) (n : ℕ) (c : Caps) (pos : ℤ) (node : Node) :
    ∀ e ∈ (leaf re s n c pos node).1, e.Reads := by
  have hword : ∀ i, ∀ e ∈ (wordAt s n i).1, e.Reads := by
    intro i
    rw [wordAt]
    split_ifs <;> simp [Event.Reads]
  have hwords : ∀ e ∈ (wordAt s n pos).1 ++ (wordAt s n (pos - 1)).1, e.Reads :=
    fun e he => (List.mem_append.mp he).elim (hword _ e) (hword _ e)
  cases node with
  | wordb => exact hwords
  | nwordb => exact hwords
  | backref g =>
    rw [leaf]
    dsimp only
    by_cases hset : 0 < g ∧ g ≤ rxMaxGroups ∧ 0 ≤ c (2 * g)
    · rw [if_pos hset]
      split_ifs
      · simp [Event.Reads]
      all_goals
        intro e he
        rcases List.mem_append.mp he with he | he
        · exact backLoop_reads re s _ _ _ _ e he
        · rw [List.mem_singleton.mp he]
          trivial
    · rw [if_neg hset]
      exact fun e he => absurd he List.not_mem_nil
  | _ =>
    rw [leaf]
    try split_ifs
    all_goals simp [Event.Reads]

/-! ## Where nothing is lost, all is undone -/

section

variable {re : Rx} {s : ℤ → UInt8} {n : ℕ}

/-- What came of a call that began with the captures `c` and with the state `M`: its failed passes left
the captures as they found them, it did so itself, and if it matched it was on a path. -/
structure Clean (M : Mstate) (c : Caps) (Q : Caps → ℤ → Prop) (x : ℤ × Mstate) : Prop where
  undone : (∀ e ∈ M.log, e.Undone) → ∀ e ∈ x.2.log, e.Undone
  caps : ¬ settled x.1 → x.2.caps = c
  path : 0 ≤ x.1 → Q x.2.caps x.1

namespace Clean

variable {M M' : Mstate} {c : Caps} {Q Q' : Caps → ℤ → Prop} {x : ℤ × Mstate}

theorem imp (h : Clean M c Q x) (hQ : ∀ c' e, Q c' e → Q' c' e) : Clean M c Q' x :=
  ⟨h.undone, h.caps, fun hx => hQ _ _ (h.path hx)⟩

theorem after (h : Clean M' c Q x) (hM : (∀ e ∈ M.log, e.Undone) → ∀ e ∈ M'.log, e.Undone) :
    Clean M c Q x :=
  ⟨fun hu => h.undone (hM hu), h.caps, h.path⟩

theorem fails (hlog : (∀ e ∈ M.log, e.Undone) → ∀ e ∈ M'.log, e.Undone) (hcaps : M'.caps = c) {r : ℤ}
    (hr : ¬ 0 ≤ r) : Clean M c Q (r, M') :=
  ⟨hlog, fun _ => hcaps, fun h => absurd h hr⟩

theorem limit (hlog : (∀ e ∈ M.log, e.Undone) → ∀ e ∈ x.2.log, e.Undone) (hx : x.1 = -2) :
    Clean M c Q x :=
  ⟨hlog, fun h => absurd (Or.inr hx) h, fun h => by omega⟩

end Clean

/-- What is called undoes what it does if nothing is lost. -/
def HereClean (re : Rx) (s : ℤ → UInt8) (n : ℕ) (here : Here) : Prop :=
  ∀ M node pos k, (∀ e ∈ (here M node pos k).2.log, e.Unlost) →
    Clean M M.caps (Path re s n M.caps node pos k) (here M node pos k)

/-- The same of a repeat. -/
def IterClean (re : Rx) (s : ℤ → UInt8) (n : ℕ) (iter : Iter) : Prop :=
  ∀ M min max lazy child next count pos startPos k,
    (∀ e ∈ (iter M min max lazy child next count pos startPos k).2.log, e.Unlost) →
      Clean M M.caps (Repeats re s n M.caps min max lazy child next count pos k)
        (iter M min max lazy child next count pos startPos k)

variable {here : Here} {iter : Iter} {M : Mstate} {pos : ℤ} {k : List Frame} {x : ℤ × Mstate}

theorem Kept.unlost (h : Kept M x) (hx : ∀ e ∈ x.2.log, e.Unlost) : ∀ e ∈ M.log, e.Unlost :=
  fun e he => hx e (h.2.subset he)

theorem Kept.undone (h : Kept M x) (hx : ∀ e ∈ x.2.log, e.Undone) : ∀ e ∈ M.log, e.Undone :=
  fun e he => hx e (h.2.subset he)

theorem log_undo (f : Caps → Caps) (x : ℤ × Mstate) : (undo f x).2.log = x.2.log := by
  rw [undo]
  split_ifs <;> rfl

theorem clean_undo {c c' : Caps} {f : Caps → Caps} {Q : Caps → ℤ → Prop} (h : Clean M c' Q x)
    (hf : f c' = c) : Clean M c Q (undo f x) := by
  rw [undo]
  split_ifs with hneg
  · exact ⟨h.undone, fun hx => by rw [← hf, ← h.caps hx]; rfl, fun hx => absurd hneg (Int.not_lt.mpr hx)⟩
  · exact ⟨h.undone, fun hx => absurd (Or.inl (Int.not_lt.mp hneg)) hx, h.path⟩

theorem capture_clean (hhere : HereClean re s n here) {g : ℕ} {child next : List Node}
    (hl : ∀ e ∈ (capture here M g child next pos k).2.log, e.Unlost) (hg : g ≠ 0) :
    Clean M M.caps (Path re s n M.caps (.seq (.group g child :: next)) pos k)
      (capture here M g child next pos k) := by
  rw [capture] at hl ⊢
  rw [log_undo] at hl
  have hcall := hhere _ _ _ _ hl
  refine clean_undo ((hcall.after (M := M) fun h => h).imp fun c' e h => Path.group hg h) ?_
  ext i
  by_cases h1 : i = 2 * g + 1
  · rw [h1, Function.update_self]
  · rw [Function.update_of_ne h1]
    by_cases h0 : i = 2 * g
    · rw [h0, Function.update_self]
    · rw [Function.update_of_ne h0]
      exact Function.update_of_ne h0 _ _

theorem captureEnd_clean (hhere : HereClean re s n here) {g : ℕ}
    (hl : ∀ e ∈ (captureEnd here M g pos k).2.log, e.Unlost) :
    Clean M M.caps (Path re s n M.caps (.endmark g) pos k) (captureEnd here M g pos k) := by
  rw [captureEnd] at hl ⊢
  rw [log_undo] at hl
  have hcall := hhere _ _ _ _ hl
  refine clean_undo ((hcall.after (M := M) fun h => h).imp fun c' e h => Path.endmark h) ?_
  ext i
  by_cases h1 : i = 2 * g + 1
  · rw [h1, Function.update_self]
  · rw [Function.update_of_ne h1]
    exact Function.update_of_ne h1 _ _

theorem altLoop_clean (hkept : ∀ M node pos k, Kept M (here M node pos k))
    (hhere : HereClean re s n here) {next : List Node} (options : List (List Node))
    (hl : ∀ e ∈ (altLoop (fun o M => here M o pos (⟨.seq next, 0, 0⟩ :: k)) options M).2.log, e.Unlost) :
    Clean M M.caps (Path re s n M.caps (.seq (.alt options :: next)) pos k)
      (altLoop (fun o M => here M o pos (⟨.seq next, 0, 0⟩ :: k)) options M) := by
  induction options generalizing M with
  | nil => exact Clean.fails (fun h => h) rfl (by decide)
  | cons o options ih =>
    rw [altLoop] at hl ⊢
    split_ifs at hl ⊢ with hset
    · exact (hhere _ _ _ _ hl).imp fun c' e h => Path.alt List.mem_cons_self h
    · have hfirst := hhere _ _ _ _ (Kept.unlost (Kept.altLoop (fun o M => hkept M o pos _) options _) hl)
      have hrest := ih hl
      rw [hfirst.caps hset] at hrest
      refine (hrest.after hfirst.undone).imp fun c' e h => ?_
      cases h with
      | bare hb _ _ => exact absurd hb id
      | alt ho h => exact Path.alt (List.mem_cons_of_mem _ ho) h

theorem eitherWay_clean {Q : Caps → ℤ → Prop} {can1 can2 : Bool} {way1 way2 : Mstate → ℤ × Mstate}
    (hkept : ∀ M, Kept M (way2 M))
    (h1 : can1 = true → ∀ M', M'.caps = M.caps → (∀ e ∈ (way1 M').2.log, e.Unlost) →
      Clean M' M.caps Q (way1 M'))
    (h2 : can2 = true → ∀ M', M'.caps = M.caps → (∀ e ∈ (way2 M').2.log, e.Unlost) →
      Clean M' M.caps Q (way2 M'))
    (hl : ∀ e ∈ (eitherWay can1 way1 can2 way2 M).2.log, e.Unlost) :
    Clean M M.caps Q (eitherWay can1 way1 can2 way2 M) := by
  have hfirst : (∀ e ∈ (if can1 then way1 M else (-1, M)).2.log, e.Unlost) →
      Clean M M.caps Q (if can1 then way1 M else (-1, M)) := by
    split_ifs with hcan
    · exact h1 hcan M rfl
    · exact fun _ => Clean.fails (fun h => h) rfl (by decide)
  rw [eitherWay] at hl ⊢
  generalize (if can1 then way1 M else (-1, M)) = y at hfirst hl ⊢
  split_ifs at hl ⊢ with hset hcan
  · exact hfirst hl
  · have hout := hfirst (Kept.unlost (hkept y.2) hl)
    exact (h2 hcan y.2 (hout.caps hset) hl).after hout.undone
  · exact hfirst hl

theorem lookAhead_clean (hkept : ∀ M node pos k, Kept M (here M node pos k))
    (hhere : HereClean re s n here) {child next : List Node}
    (hl : ∀ e ∈ (lookAhead here M child next pos k).2.log, e.Unlost) :
    Clean M M.caps (Path re s n M.caps (.seq (.look .ahead child :: next)) pos k)
      (lookAhead here M child next pos k) := by
  have hsub := hhere M (.seq child) pos []
  rw [lookAhead] at hl ⊢
  generalize here M (.seq child) pos [] = y at hsub hl ⊢
  split_ifs at hl ⊢ with h2 hmatch
  · exact Clean.limit (hsub hl).undone h2
  · have hrest := hhere y.2 (.seq next) pos k
    have hkeptRest := hkept y.2 (.seq next) pos k
    rw [follows] at hl ⊢
    split_ifs at hl ⊢ with hset
    · have hfirst := hsub (Kept.unlost hkeptRest hl)
      refine ⟨fun hu => (hrest hl).undone (hfirst.undone hu), fun hx => absurd hset hx, fun hx => ?_⟩
      exact Path.ahead (hfirst.path hmatch) ((hrest hl).path hx)
    · have hl' : ∀ e ∈ (here y.2 (.seq next) pos k).2.log, e.Unlost :=
        fun e he => hl e (List.mem_append_right _ he)
      have hsame : y.2.caps = M.caps := hl _ (List.mem_append_left _ (List.mem_singleton.mpr rfl))
      have hfirst := hsub (Kept.unlost hkeptRest hl')
      refine ⟨fun hu e he => ?_, fun _ => ((hrest hl').caps hset).trans hsame,
        fun hx => absurd (Or.inl hx) hset⟩
      rcases List.mem_append.mp he with he | he
      · rw [List.mem_singleton.mp he]
        trivial
      · exact (hrest hl').undone (hfirst.undone hu) e he
  · have hfirst := hsub hl
    refine Clean.fails hfirst.undone (hfirst.caps fun hset => ?_) (by decide)
    exact hset.elim hmatch h2

theorem lookNotAhead_clean (hkept : ∀ M node pos k, Kept M (here M node pos k))
    (hhere : HereClean re s n here) {child next : List Node}
    (hl : ∀ e ∈ (lookNotAhead here M child next pos k).2.log, e.Unlost) :
    Clean M M.caps (Path re s n M.caps (.seq (.look .notAhead child :: next)) pos k)
      (lookNotAhead here M child next pos k) := by
  have hsub := hhere M (.seq child) pos []
  rw [lookNotAhead] at hl ⊢
  generalize here M (.seq child) pos [] = y at hsub hl ⊢
  split_ifs at hl ⊢ with h2 hmatch
  · exact Clean.limit (hsub hl).undone h2
  · have hfirst := hsub hl
    exact ⟨hfirst.undone, fun _ => rfl, fun h => absurd h (by decide : ¬ (0 : ℤ) ≤ -1)⟩
  · have hfirst := hsub (Kept.unlost (hkept (y.2.setCaps M.caps) _ pos k) hl)
    have hrest := hhere (y.2.setCaps M.caps) (.seq next) pos k hl
    exact (hrest.after hfirst.undone).imp fun c' e h => Path.notAhead h

theorem bare_clean (hhere : HereClean re s n here) {node : Node} (hb : node.Bare) {next : List Node}
    (hl : ∀ e ∈ (bare re s n here M node next pos k).2.log, e.Unlost) :
    Clean M M.caps (Path re s n M.caps (.seq (node :: next)) pos k)
      (bare re s n here M node next pos k) := by
  have hnote : (∀ e ∈ M.log, e.Undone) → ∀ e ∈ (M.note (leaf re s n M.caps pos node).1).log, e.Undone :=
    fun hu e he => (List.mem_append.mp he).elim (fun he => (leaf_reads _ _ _ _ _ _ e he).undone) (hu e)
  rw [bare] at hl ⊢
  cases hleaf : (leaf re s n M.caps pos node).2 with
  | none => exact Clean.fails hnote rfl (by decide)
  | some p =>
    rw [hleaf] at hl
    exact ((hhere _ _ _ _ hl).after hnote).imp fun c' e h => Path.bare hb hleaf h

theorem resume_clean (hhere : HereClean re s n here) {M' : Mstate} {c : Caps} (hc : M'.caps = c)
    (hl : ∀ e ∈ (matchCont here M' pos k).2.log, e.Unlost) :
    Clean M' c (Resume re s n c pos k) (matchCont here M' pos k) := by
  subst hc
  cases k with
  | nil => exact ⟨fun h => h, fun _ => rfl, fun _ => Resume.done⟩
  | cons f k => exact (hhere _ _ _ _ hl).imp fun c' e h => Resume.next h

theorem popCont_clean (hhere : HereClean re s n here) (hiter : IterClean re s n iter)
    (hl : ∀ e ∈ (popCont here iter M pos k).2.log, e.Unlost) :
    Clean M M.caps (Path re s n M.caps (.seq []) pos k) (popCont here iter M pos k) := by
  cases k with
  | nil => exact ⟨fun h => h, fun _ => rfl, fun _ => Path.pop Resume.done⟩
  | cons f k =>
    rcases popCont_cons f with hf | ⟨min, max, lazy, child, next, hnode, -, hf⟩
    · rw [hf] at hl ⊢
      exact (hhere _ _ _ _ hl).imp fun c' e h => Path.pop (Resume.next h)
    · rw [hf] at hl ⊢
      exact (hiter _ _ _ _ _ _ _ _ _ _ hl).imp fun c' e h => Path.again hnode h

theorem pass_clean (hkept : ∀ M node pos k, Kept M (here M node pos k)) (hhere : HereClean re s n here)
    (hiter : IterClean re s n iter) {node : Ptr}
    (hl : ∀ e ∈ (pass re s n here iter M node pos k).2.log, e.Unlost) :
    Clean M M.caps (Path re s n M.caps node pos k) (pass re s n here iter M node pos k) := by
  rcases node with nodes | g
  · rcases nodes with _ | ⟨node, next⟩
    · exact popCont_clean hhere hiter hl
    · by_cases hb : node.Bare
      · rw [pass_bare hb] at hl ⊢
        exact bare_clean hhere hb hl
      · cases node with
        | group g child =>
          change ∀ e ∈ (if g = 0 then _ else _ : ℤ × Mstate).2.log, e.Unlost at hl
          change Clean M M.caps _ (if g = 0 then _ else _)
          split_ifs at hl ⊢ with hg
          · subst hg
            exact (hhere _ _ _ _ hl).imp fun c' e h => Path.plain h
          · exact capture_clean hhere hl hg
        | alt options => exact altLoop_clean hkept hhere options hl
        | rep min max lazy child =>
          exact (hiter _ _ _ _ _ _ _ _ _ _ hl).imp fun c' e h => Path.rep h
        | look neg child =>
          cases neg with
          | behind => exact (hhere _ _ _ _ hl).imp fun c' e h => Path.behind h
          | ahead => exact lookAhead_clean hkept hhere hl
          | notAhead => exact lookNotAhead_clean hkept hhere hl
        | _ => exact absurd trivial hb
  · exact captureEnd_clean hhere hl

theorem iterate_clean (hkept : ∀ M node pos k, Kept M (here M node pos k))
    (hhere : HereClean re s n here) {min : ℕ} {max : Option ℕ} {lazy : Bool} {child next : List Node}
    {count : ℕ} {startPos : ℤ}
    (hl : ∀ e ∈ (iterate here M min max lazy child next count pos startPos k).2.log, e.Unlost) :
    Clean M M.caps (Repeats re s n M.caps min max lazy child next count pos k)
      (iterate here M min max lazy child next count pos startPos k) := by
  have hmore : (if count > min ∧ pos = startPos ∧ count > 0 then false
      else decide (max = none ∨ count < max.getD 0)) = true →
      ∀ M', M'.caps = M.caps → (∀ e ∈ (here M' (.seq child) pos
        (⟨.seq (.rep min max lazy child :: next), count + 1, pos⟩ :: k)).2.log, e.Unlost) →
      Clean M' M.caps (Repeats re s n M.caps min max lazy child next count pos k) (here M' (.seq child) pos
        (⟨.seq (.rep min max lazy child :: next), count + 1, pos⟩ :: k)) := by
    intro hcan M' hM' hlog
    have hmax : ∀ m, max = some m → count < m := by
      rintro m rfl
      split_ifs at hcan
      simpa using of_decide_eq_true hcan
    rw [← hM']
    exact (hhere _ _ _ _ hlog).imp fun c' e h => Repeats.more hmax h
  have hstop : decide (count ≥ min) = true → ∀ M', M'.caps = M.caps →
      (∀ e ∈ (matchCont here M' pos k).2.log, e.Unlost) →
      Clean M' M.caps (Repeats re s n M.caps min max lazy child next count pos k)
        (matchCont here M' pos k) := by
    intro hcan M' hM' hlog
    exact (resume_clean hhere hM' hlog).imp fun c' e h => Repeats.stop (of_decide_eq_true hcan) h
  rw [iterate] at hl ⊢
  cases lazy
  · exact eitherWay_clean (fun M => Kept.matchCont hkept M pos k) hmore hstop hl
  · exact eitherWay_clean (fun M => hkept M _ pos _) hstop hmore hl

/-! ## Where all is undone, nothing is lost -/

/-- What is called tells of its failures, and loses nothing if all is undone. -/
structure HereTells (here : Here) : Prop where
  kept : ∀ M node pos k, Kept M (here M node pos k)
  tells : ∀ M node pos k, ¬ settled (here M node pos k).1 →
    .failed M.caps (here M node pos k).2.caps ∈ (here M node pos k).2.log
  unlost : ∀ M node pos k, (∀ e ∈ (here M node pos k).2.log, e.Undone) → (∀ e ∈ M.log, e.Unlost) →
    ∀ e ∈ (here M node pos k).2.log, e.Unlost

/-- The same of a repeat. -/
def IterUnlost (iter : Iter) : Prop :=
  ∀ M min max lazy child next count pos startPos k,
    (∀ e ∈ (iter M min max lazy child next count pos startPos k).2.log, e.Undone) →
      (∀ e ∈ M.log, e.Unlost) →
        ∀ e ∈ (iter M min max lazy child next count pos startPos k).2.log, e.Unlost

theorem altLoop_unlost (hhere : HereTells here) {next : List Node} (options : List (List Node))
    (hu : ∀ e ∈ (altLoop (fun o M => here M o pos (⟨.seq next, 0, 0⟩ :: k)) options M).2.log, e.Undone)
    (hM : ∀ e ∈ M.log, e.Unlost) :
    ∀ e ∈ (altLoop (fun o M => here M o pos (⟨.seq next, 0, 0⟩ :: k)) options M).2.log, e.Unlost := by
  induction options generalizing M with
  | nil => exact hM
  | cons o options ih =>
    rw [altLoop] at hu ⊢
    split_ifs at hu ⊢
    · exact hhere.unlost _ _ _ _ hu hM
    · refine ih hu (hhere.unlost _ _ _ _ ?_ hM)
      exact Kept.undone (Kept.altLoop (fun o M => hhere.kept M o pos _) options _) hu

theorem eitherWay_unlost {can1 can2 : Bool} {way1 way2 : Mstate → ℤ × Mstate}
    (hkept : ∀ M, Kept M (way2 M))
    (h1 : ∀ M, (∀ e ∈ (way1 M).2.log, e.Undone) → (∀ e ∈ M.log, e.Unlost) →
      ∀ e ∈ (way1 M).2.log, e.Unlost)
    (h2 : ∀ M, (∀ e ∈ (way2 M).2.log, e.Undone) → (∀ e ∈ M.log, e.Unlost) →
      ∀ e ∈ (way2 M).2.log, e.Unlost)
    (hu : ∀ e ∈ (eitherWay can1 way1 can2 way2 M).2.log, e.Undone) (hM : ∀ e ∈ M.log, e.Unlost) :
    ∀ e ∈ (eitherWay can1 way1 can2 way2 M).2.log, e.Unlost := by
  have hfirst : (∀ e ∈ (if can1 then way1 M else (-1, M)).2.log, e.Undone) →
      ∀ e ∈ (if can1 then way1 M else (-1, M)).2.log, e.Unlost := by
    split_ifs
    · exact fun hu => h1 M hu hM
    · exact fun _ => hM
  rw [eitherWay] at hu ⊢
  generalize (if can1 then way1 M else (-1, M)) = y at hfirst hu ⊢
  split_ifs at hu ⊢
  · exact hfirst hu
  · exact h2 y.2 hu (hfirst (Kept.undone (hkept y.2) hu))
  · exact hfirst hu

/-- A lookahead that matched and a failure after it, both undone, changed nothing. -/
theorem lookAhead_unlost (hhere : HereTells here) {child next : List Node}
    (hu : ∀ e ∈ (lookAhead here M child next pos k).2.log, e.Undone) (hM : ∀ e ∈ M.log, e.Unlost)
    (hcaps : ¬ settled (lookAhead here M child next pos k).1 →
      (lookAhead here M child next pos k).2.caps = M.caps) :
    ∀ e ∈ (lookAhead here M child next pos k).2.log, e.Unlost := by
  have hsub := hhere.unlost M (.seq child) pos []
  rw [lookAhead] at hu hcaps ⊢
  generalize here M (.seq child) pos [] = y at hsub hu hcaps ⊢
  split_ifs at hu hcaps ⊢ with h2 hmatch
  · exact hsub hu hM
  · rw [follows] at hu hcaps ⊢
    split_ifs at hu hcaps ⊢ with hset
    · exact hhere.unlost _ _ _ _ hu (hsub (Kept.undone (hhere.kept y.2 _ pos k) hu) hM)
    · have hu' : ∀ e ∈ (here y.2 (.seq next) pos k).2.log, e.Undone :=
        fun e he => hu e (List.mem_append_right _ he)
      have hrest := hhere.unlost _ _ _ _ hu' (hsub (Kept.undone (hhere.kept y.2 _ pos k) hu') hM)
      have hback : (here y.2 (.seq next) pos k).2.caps = y.2.caps := hu' _ (hhere.tells _ _ _ _ hset)
      intro e he
      rcases List.mem_append.mp he with he | he
      · rw [List.mem_singleton.mp he]
        exact hback.symm.trans (hcaps hset)
      · exact hrest e he
  · exact hsub hu hM

theorem pass_unlost (hhere : HereTells here) (hiter : IterUnlost iter) {node : Ptr}
    (hu : ∀ e ∈ (pass re s n here iter M node pos k).2.log, e.Undone) (hM : ∀ e ∈ M.log, e.Unlost)
    (hcaps : ¬ settled (pass re s n here iter M node pos k).1 →
      (pass re s n here iter M node pos k).2.caps = M.caps) :
    ∀ e ∈ (pass re s n here iter M node pos k).2.log, e.Unlost := by
  rcases node with nodes | g
  · rcases nodes with _ | ⟨node, next⟩
    · change ∀ e ∈ (popCont here iter M pos k).2.log, e.Undone at hu
      change ∀ e ∈ (popCont here iter M pos k).2.log, e.Unlost
      cases k with
      | nil => exact hM
      | cons f k =>
        rcases popCont_cons f with hf | ⟨min, max, lazy, child, next, -, -, hf⟩
        · rw [hf] at hu ⊢
          exact hhere.unlost _ _ _ _ hu hM
        · rw [hf] at hu ⊢
          exact hiter _ _ _ _ _ _ _ _ _ _ hu hM
    · by_cases hb : node.Bare
      · rw [pass_bare hb] at hu ⊢
        have hnote : ∀ e ∈ (M.note (leaf re s n M.caps pos node).1).log, e.Unlost := fun e he =>
          (List.mem_append.mp he).elim (fun he => (leaf_reads _ _ _ _ _ _ e he).unlost) (hM e)
        rw [bare] at hu ⊢
        cases hleaf : (leaf re s n M.caps pos node).2 with
        | none => exact hnote
        | some p =>
          rw [hleaf] at hu
          exact hhere.unlost _ _ _ _ hu hnote
      · cases node with
        | group g child =>
          change ∀ e ∈ (if g = 0 then _ else _ : ℤ × Mstate).2.log, e.Undone at hu
          change ∀ e ∈ (if g = 0 then _ else _ : ℤ × Mstate).2.log, e.Unlost
          split_ifs at hu ⊢
          · exact hhere.unlost _ _ _ _ hu hM
          · rw [capture, log_undo] at hu ⊢
            exact hhere.unlost _ _ _ _ hu hM
        | alt options => exact altLoop_unlost hhere options hu hM
        | rep min max lazy child => exact hiter _ _ _ _ _ _ _ _ _ _ hu hM
        | look neg child =>
          cases neg with
          | behind => exact hhere.unlost _ _ _ _ hu hM
          | ahead => exact lookAhead_unlost hhere hu hM hcaps
          | notAhead =>
            have hsub := hhere.unlost M (.seq child) pos []
            change ∀ e ∈ (lookNotAhead here M child next pos k).2.log, e.Undone at hu
            change ∀ e ∈ (lookNotAhead here M child next pos k).2.log, e.Unlost
            rw [lookNotAhead] at hu ⊢
            generalize here M (.seq child) pos [] = y at hsub hu ⊢
            split_ifs at hu ⊢
            · exact hsub hu hM
            · exact hsub hu hM
            · refine hhere.unlost _ _ _ _ hu (hsub ?_ hM)
              exact Kept.undone (hhere.kept (y.2.setCaps M.caps) _ pos k) hu
        | _ => exact absurd trivial hb
  · change ∀ e ∈ (captureEnd here M g pos k).2.log, e.Undone at hu
    change ∀ e ∈ (captureEnd here M g pos k).2.log, e.Unlost
    rw [captureEnd, log_undo] at hu ⊢
    exact hhere.unlost _ _ _ _ hu hM

theorem iterate_unlost (hhere : HereTells here) {min : ℕ} {max : Option ℕ} {lazy : Bool}
    {child next : List Node} {count : ℕ} {startPos : ℤ}
    (hu : ∀ e ∈ (iterate here M min max lazy child next count pos startPos k).2.log, e.Undone)
    (hM : ∀ e ∈ M.log, e.Unlost) :
    ∀ e ∈ (iterate here M min max lazy child next count pos startPos k).2.log, e.Unlost := by
  have hstop : ∀ M, (∀ e ∈ (matchCont here M pos k).2.log, e.Undone) → (∀ e ∈ M.log, e.Unlost) →
      ∀ e ∈ (matchCont here M pos k).2.log, e.Unlost := by
    intro M hu hM
    cases k with
    | nil => exact hM
    | cons f k => exact hhere.unlost _ _ _ _ hu hM
  have hmore := fun M => hhere.unlost M (.seq child) pos
    (⟨.seq (.rep min max lazy child :: next), count + 1, pos⟩ :: k)
  rw [iterate] at hu ⊢
  cases lazy
  · exact eitherWay_unlost (fun M => Kept.matchCont hhere.kept M pos k) hmore hstop hu hM
  · exact eitherWay_unlost (fun M => hhere.kept M _ pos _) hstop hmore hu hM

end

/-! ## Runs -/

section

variable (re : Rx) (s : ℤ → UInt8) (n : ℕ)

theorem unlost_tick {M : Mstate} {pos : ℤ} (hM : ∀ e ∈ M.log, e.Unlost) :
    ∀ e ∈ (M.tick.note [.pass pos]).log, e.Unlost := by
  intro e he
  rcases List.mem_append.mp he with he | he
  · rw [List.mem_singleton.mp he]
    trivial
  · exact hM e he

theorem undone_tick {M : Mstate} {pos : ℤ} (hM : ∀ e ∈ M.log, e.Undone) :
    ∀ e ∈ (M.tick.note [.pass pos]).log, e.Undone := by
  intro e he
  rcases List.mem_append.mp he with he | he
  · rw [List.mem_singleton.mp he]
    trivial
  · exact hM e he

theorem matchHere_clean (fuel : ℕ) :
    HereClean re s n (matchHere re s n fuel) ∧ IterClean re s n (repeatIter re s n fuel) := by
  induction fuel with
  | zero =>
    exact ⟨fun M node pos k _ => Clean.limit undone_tick rfl,
      fun M min max lazy child next count pos startPos k _ => Clean.limit (fun h => h) rfl⟩
  | succ fuel ih =>
    refine ⟨fun M node pos k hl => ?_, fun M min max lazy child next count pos startPos k hl => ?_⟩
    · rw [matchHere] at hl ⊢
      split_ifs at hl ⊢
      · exact Clean.limit undone_tick rfl
      · rw [ends] at hl ⊢
        split_ifs at hl ⊢ with hset
        · exact (pass_clean (kept re s n fuel).1 ih.1 ih.2 hl).after undone_tick
        · have hclean := pass_clean (kept re s n fuel).1 ih.1 ih.2 fun e he =>
            hl e (List.mem_append_right _ he)
          refine ⟨fun hu e he => ?_, fun _ => hclean.caps hset, fun h => absurd (Or.inl h) hset⟩
          rcases List.mem_append.mp he with he | he
          · rw [List.mem_singleton.mp he]
            exact hclean.caps hset
          · exact hclean.undone (undone_tick hu) e he
    · rw [repeatIter] at hl ⊢
      dsimp only at hl ⊢
      split_ifs at hl ⊢
      · exact Clean.limit (fun h => h) rfl
      · exact Clean.limit (fun h => h) rfl
      · have hiter := iterate_clean (kept re s n fuel).1 ih.1 hl
        exact ⟨hiter.undone, hiter.caps, hiter.path⟩

theorem matchHere_tells (fuel : ℕ) :
    HereTells (matchHere re s n fuel) ∧ IterUnlost (repeatIter re s n fuel) := by
  induction fuel with
  | zero =>
    refine ⟨⟨(kept re s n 0).1, fun M node pos k h => absurd (Or.inr rfl) h,
      fun M node pos k _ hM => unlost_tick hM⟩, fun M min max lazy child next count pos startPos k _ hM => hM⟩
  | succ fuel ih =>
    refine ⟨⟨(kept re s n (fuel + 1)).1, fun M node pos k hset => ?_, fun M node pos k hu hM => ?_⟩,
      fun M min max lazy child next count pos startPos k hu hM => ?_⟩
    · rw [matchHere] at hset ⊢
      split_ifs at hset ⊢
      · exact absurd (Or.inr rfl) hset
      · rw [ends] at hset ⊢
        split_ifs at hset ⊢ with hset'
        · exact absurd hset' hset
        · exact List.mem_append_left _ (List.mem_singleton.mpr rfl)
    · rw [matchHere] at hu ⊢
      split_ifs at hu ⊢
      · exact unlost_tick hM
      · rw [ends] at hu ⊢
        split_ifs at hu ⊢ with hset
        · exact pass_unlost ih.1 ih.2 hu (unlost_tick hM) fun h => absurd hset h
        · have hrest := pass_unlost ih.1 ih.2 (fun e he => hu e (List.mem_append_right _ he))
            (unlost_tick hM) fun _ => hu _ (List.mem_append_left _ (List.mem_singleton.mpr rfl))
          intro e he
          rcases List.mem_append.mp he with he | he
          · rw [List.mem_singleton.mp he]
            trivial
          · exact hrest e he
    · rw [repeatIter] at hu ⊢
      dsimp only at hu ⊢
      split_ifs at hu ⊢
      · exact hM
      · exact hM
      · exact iterate_unlost ih.1 hu hM

/-- What came of a search: its failed passes undid what they did, and the captures it reports are those
of a path, with the match itself as group 0. -/
def SearchClean (x : ℕ × Mstate) : Prop :=
  (∀ e ∈ x.2.log, e.Undone) ∧
    (x.1 = 1 → ∃ (p e : ℤ) (c : Caps), Path re s n (fun _ => -1) (.seq re.root) p [] c e ∧
      x.2.caps = Function.update (Function.update c 0 p) 1 e)

theorem rxExecLoop_clean (sticky : Bool) {left : ℕ} {M : Mstate} {p : ℤ} (hM : ∀ e ∈ M.log, e.Undone)
    (hl : ∀ e ∈ (rxExecLoop re s n sticky left M p).2.log, e.Unlost) :
    SearchClean re s n (rxExecLoop re s n sticky left M p) := by
  induction left generalizing M p with
  | zero => exact ⟨hM, fun h => absurd h (by simp [rxExecLoop])⟩
  | succ left ih =>
    have hcall := (matchHere_clean re s n (stepLimit + 1)).1 (M.setCaps fun _ => -1) (.seq re.root) p []
    rw [rxExecLoop] at hl ⊢
    generalize matchHere re s n (stepLimit + 1) (M.setCaps fun _ => -1) (.seq re.root) p [] = y at *
    split_ifs at hl ⊢ with h2 hmatch
    · exact ⟨(hcall hl).undone hM, fun h => absurd h (by simp)⟩
    · exact ⟨(hcall hl).undone hM, fun _ => ⟨p, y.1, y.2.caps, (hcall hl).path hmatch, rfl⟩⟩
    · exact ⟨(hcall hl).undone hM, fun h => absurd h (by simp)⟩
    · exact ⟨(hcall hl).undone hM, fun h => absurd h (by simp)⟩
    · refine ih ((hcall fun e he => hl e ?_).undone hM) hl
      exact (kept_rxExecLoop re s n sticky left y.2 (p + 1)).subset he

theorem rxExecLoop_unlost (sticky : Bool) {left : ℕ} {M : Mstate} {p : ℤ} (hM : ∀ e ∈ M.log, e.Unlost)
    (hu : ∀ e ∈ (rxExecLoop re s n sticky left M p).2.log, e.Undone) :
    ∀ e ∈ (rxExecLoop re s n sticky left M p).2.log, e.Unlost := by
  induction left generalizing M p with
  | zero => exact hM
  | succ left ih =>
    have hcall := (matchHere_tells re s n (stepLimit + 1)).1.unlost (M.setCaps fun _ => -1)
      (.seq re.root) p []
    rw [rxExecLoop] at hu ⊢
    generalize matchHere re s n (stepLimit + 1) (M.setCaps fun _ => -1) (.seq re.root) p [] = y at *
    split_ifs at hu ⊢
    · exact hcall hu hM
    · exact hcall hu hM
    · exact hcall hu hM
    · exact hcall hu hM
    · refine ih (hcall (fun e he => hu e ?_) hM) hu
      exact (kept_rxExecLoop re s n sticky left y.2 (p + 1)).subset he

/-- **Backtracking undoes what it did, but for lookaheads.**  In a call of `match_here`, from any node,
position, continuation and captures, all failed passes leave the captures as they found them, the call
itself does, and a match is on a path, exactly if no lookahead captured something where what followed it
failed.  And in a search exactly then all failed passes do, and the captures it reports are those made on
the path that matched. -/
theorem matchHere_undoes :
    (∀ (fuel steps : ℕ) (depth : ℤ) (c : Caps) (node : Ptr) (pos : ℤ) (k : List Frame),
      (((∀ e ∈ (matchHere re s n fuel ⟨steps, depth, c, []⟩ node pos k).2.log, e.Undone) ∧
          ((matchHere re s n fuel ⟨steps, depth, c, []⟩ node pos k).1 = -1 →
            (matchHere re s n fuel ⟨steps, depth, c, []⟩ node pos k).2.caps = c) ∧
          (0 ≤ (matchHere re s n fuel ⟨steps, depth, c, []⟩ node pos k).1 →
            Path re s n c node pos k (matchHere re s n fuel ⟨steps, depth, c, []⟩ node pos k).2.caps
              (matchHere re s n fuel ⟨steps, depth, c, []⟩ node pos k).1)) ↔
        ∀ e ∈ (matchHere re s n fuel ⟨steps, depth, c, []⟩ node pos k).2.log, e.Unlost)) ∧
      ∀ (c : Caps) (start : ℕ) (sticky : Bool),
        SearchClean re s n (rxExec re s n c start sticky) ↔
          ∀ e ∈ (rxExec re s n c start sticky).2.log, e.Unlost := by
  refine ⟨fun fuel steps depth c node pos k => ⟨fun h => ?_, fun hl => ?_⟩, fun c start sticky =>
    ⟨fun h => ?_, fun hl => ?_⟩⟩
  · exact (matchHere_tells re s n fuel).1.unlost _ node pos k h.1 fun e he => absurd he List.not_mem_nil
  · have hclean := (matchHere_clean re s n fuel).1 ⟨steps, depth, c, []⟩ node pos k hl
    refine ⟨hclean.undone fun e he => absurd he List.not_mem_nil, fun h => hclean.caps ?_, hclean.path⟩
    rw [h]
    decide
  · exact rxExecLoop_unlost re s n sticky (fun e he => absurd he List.not_mem_nil) h.1
  · exact rxExecLoop_clean re s n sticky (fun e he => absurd he List.not_mem_nil) hl

end

/-- `(?:(?=(a))b|a)` -/
def rxLook : Rx :=
  ⟨[.group 0 [.alt [[.look .ahead [.group 1 [.char 97]], .char 98], [.char 97]]]], 1, false, false, false,
    []⟩

/-- In `"a"` the first alternative fails after its lookahead, whose capture stays. -/
theorem left_behind : ¬ ∀ (re : Rx) (s : ℤ → UInt8) (n : ℕ) (M : Mstate) (node : Ptr) (pos : ℤ)
    (k : List Frame), (matchHere re s n (stepLimit + 1) M node pos k).1 = -1 →
      (matchHere re s n (stepLimit + 1) M node pos k).2.caps = M.caps := by
  intro h
  have hfail := h rxLook (fun _ => 97) 1 ⟨0, 0, fun _ => -1, []⟩
    (.seq [.look .ahead [.group 1 [.char 97]], .char 98]) 0 [] (by decide +kernel)
  have hcap : (matchHere rxLook (fun _ => 97) 1 (stepLimit + 1) ⟨0, 0, fun _ => -1, []⟩
      (.seq [.look .ahead [.group 1 [.char 97]], .char 98]) 0 []).2.caps 2 = 0 := by decide +kernel
  rw [hfail] at hcap
  exact absurd hcap (by decide)

end BananaOS.Regex.Whole
