import Mathlib.Logic.Function.Basic
import BananaOS.Regex.Match

/-!
# The whole matcher

`web/regex.c` again, from `match_cont` on, with back references and lookaheads.  With them the captures
matter: a back reference moves on by what its group holds, whatever that is, so that a position can
leave the subject.  Positions are integers here, the subject is memory that goes on before and after its
`n` bytes, and what is returned is a number as in the source: a position, -1 or -2, and a position below
0 is taken for a failure.

`match_here` and `repeat_iter` count their steps, and the step limit ends them: that is the recursion, on
`fuel`, which gives the answer of the limit when there is none left.

The state has a log, which nothing reads: where each pass of `match_here` stands, which bytes of the
subject are read, what back references find, which passes failed, and where a lookahead had matched and
what follows it failed.
-/

namespace BananaOS.Regex.Whole

/-- `neg` of an `R_LOOK` -/
inductive Look where
  | ahead
  | notAhead
  | behind
  deriving DecidableEq, Repr

/-- `rnode_t` -/
inductive Node where
  | char (c : UInt8)
  | any
  | cls (set : List UInt8) (neg : Bool)
  | bol
  | eol
  | wordb
  | nwordb
  | group (group : ℕ) (child : List Node)
  | alt (options : List (List Node))
  | rep (min : ℕ) (max : Option ℕ) (lazy : Bool) (child : List Node)
  | look (neg : Look) (child : List Node)
  | backref (group : ℕ)

/-- A pointer to a node, of the tree or to the node of kind `0xFF` that ends a capture. -/
inductive Ptr where
  | seq (nodes : List Node)
  | endmark (group : ℕ)

/-- `regex_t` -/
structure Rx where
  root : List Node
  ngroups : ℕ
  icase : Bool
  multiline : Bool
  dotall : Bool
  names : List (ℕ × List UInt8)

/-- `cont_t`; the continuations that follow it through `next` come after it in a list. -/
structure Frame where
  node : Ptr
  repCount : ℕ
  repPos : ℤ

/-- The captures: entry `2 * g` is where group `g` begins and `2 * g + 1` where it ends, -1 for not at
all. -/
abbrev Caps := ℕ → ℤ

/-- What happens in a run. -/
inductive Event where
  /-- A pass of `match_here`. -/
  | pass (pos : ℤ)
  /-- A byte of the subject is read. -/
  | read (i : ℤ)
  /-- A back reference to a group that is set. -/
  | back (start stop : ℤ)
  /-- A pass failed: the captures it found, and those it left. -/
  | failed (found left : Caps)
  /-- What follows a lookahead that had matched failed: the captures before and after the lookahead. -/
  | lost (before after : Caps)

/-- `mstate_t`, as far as it changes, and the log, the newest first -/
structure Mstate where
  steps : ℕ
  depth : ℤ
  caps : Caps
  log : List Event

namespace Mstate

/-- One more step. -/
def tick (M : Mstate) : Mstate := { M with steps := M.steps + 1 }

def setDepth (M : Mstate) (depth : ℤ) : Mstate := { M with depth := depth }

def setCaps (M : Mstate) (caps : Caps) : Mstate := { M with caps := caps }

def note (M : Mstate) (e : List Event) : Mstate := { M with log := e ++ M.log }

end Mstate

/-- `r >= 0 || r == -2` -/
abbrev settled (r : ℤ) : Prop := 0 ≤ r ∨ r = -2

section

variable (re : Rx) (s : ℤ → UInt8) (n : ℕ)

/-! ## Nodes without a child -/

/-- Two bytes that are taken for the same. -/
def same (a b : UInt8) : Bool := a = b ∨ (re.icase ∧ lower a = lower b)

/-- The loop of a back reference, with `k` bytes to go from `i` on. -/
def backLoop (pos s0 : ℤ) : ℕ → ℤ → List Event × Bool
  | 0, _ => ([], true)
  | k + 1, i =>
    if same re (s (pos + i)) (s (s0 + i)) then
      let (e, b) := backLoop pos s0 k (i + 1)
      (e ++ [.read (s0 + i), .read (pos + i)], b)
    else ([.read (s0 + i), .read (pos + i)], false)

/-- `word_at` -/
def wordAt (i : ℤ) : List Event × Bool :=
  if 0 ≤ i ∧ i < n then ([.read i], isWordc (s i)) else ([], false)

/-- What a node without a child does: where the match goes on, `none` for nowhere. -/
def leaf (caps : Caps) (pos : ℤ) : Node → List Event × Option ℤ
  | .char c =>
    if pos ≥ n then ([], none)
    else ([.read pos], if same re (s pos) c then some (pos + 1) else none)
  | .any =>
    if pos ≥ n then ([], none)
    else if re.dotall then ([], some (pos + 1))
    else ([.read pos], if s pos = 10 ∨ s pos = 13 then none else some (pos + 1))
  | .cls set neg =>
    if pos ≥ n then ([], none)
    else ([.read pos], if setHas set (s pos) = neg then none else some (pos + 1))
  | .bol =>
    if pos = 0 then ([], some pos)
    else if re.multiline then ([.read (pos - 1)], if s (pos - 1) = 10 then some pos else none)
    else ([], none)
  | .eol =>
    if pos = n then ([], some pos)
    else if re.multiline then ([.read pos], if s pos = 10 then some pos else none)
    else ([], none)
  | .wordb =>
    let a := wordAt s n (pos - 1)
    let b := wordAt s n pos
    (b.1 ++ a.1, if a.2 ≠ b.2 then some pos else none)
  | .nwordb =>
    let a := wordAt s n (pos - 1)
    let b := wordAt s n pos
    (b.1 ++ a.1, if a.2 = b.2 then some pos else none)
  | .backref g =>
    if 0 < g ∧ g ≤ rxMaxGroups ∧ 0 ≤ caps (2 * g) then
      let s0 := caps (2 * g)
      let len := caps (2 * g + 1) - s0
      if pos + len > n then ([.back s0 (s0 + len)], none)
      else
        let x := backLoop re s pos s0 len.toNat 0
        (x.1 ++ [.back s0 (s0 + len)], if x.2 then some (pos + len) else none)
    else ([], some pos)
  | _ => ([], none)

/-! ## The matcher -/

/-- A pass ends. -/
def ends (found : Caps) (x : ℤ × Mstate) : ℤ × Mstate :=
  if settled x.1 then x else (x.1, x.2.note [.failed found x.2.caps])

/-- What follows a lookahead ends. -/
def follows (before after : Caps) (x : ℤ × Mstate) : ℤ × Mstate :=
  if settled x.1 then x else (x.1, x.2.note [.lost before after])

/-- `if (r < 0)`, captures are put back. -/
def undo (f : Caps → Caps) (x : ℤ × Mstate) : ℤ × Mstate :=
  if x.1 < 0 then (x.1, x.2.setCaps (f x.2.caps)) else x

/-- The loop over the alternatives of an `R_ALT`. -/
def altLoop (go : Ptr → Mstate → ℤ × Mstate) : List (List Node) → Mstate → ℤ × Mstate
  | [], M => (-1, M)
  | o :: options, M =>
    let x := go (.seq o) M
    if settled x.1 then x else altLoop go options x.2

/-- One way to go on after an iteration, and if it fails the other. -/
def eitherWay (can1 : Bool) (way1 : Mstate → ℤ × Mstate) (can2 : Bool) (way2 : Mstate → ℤ × Mstate)
    (M : Mstate) : ℤ × Mstate :=
  let x := if can1 then way1 M else (-1, M)
  if settled x.1 then x else if can2 then way2 x.2 else x

/-- `match_cont`, with the `match_here` it calls -/
def matchCont (here : Mstate → Ptr → ℤ → List Frame → ℤ × Mstate) (M : Mstate) (pos : ℤ) :
    List Frame → ℤ × Mstate
  | [] => (pos, M)
  | f :: k => here M f.node pos k

/-- The `match_here` of a pass. -/
abbrev Here := Mstate → Ptr → ℤ → List Frame → ℤ × Mstate

/-- The `repeat_iter` of a pass, of the repeat node with the fields `min`, `max`, `lazy`, `child` and
`next`. -/
abbrev Iter := Mstate → ℕ → Option ℕ → Bool → List Node → List Node → ℕ → ℤ → ℤ → List Frame →
  ℤ × Mstate

/-- The end of a sequence: a repeat marker continuation goes back to its repeat. -/
def popCont (here : Here) (iter : Iter) (M : Mstate) (pos : ℤ) : List Frame → ℤ × Mstate
  | [] => (pos, M)
  | ⟨.seq (.rep min max lazy child :: next), repCount, repPos⟩ :: k =>
    if repCount > 0 then iter M min max lazy child next repCount pos repPos k
    else here M (.seq (.rep min max lazy child :: next)) pos k
  | f :: k => here M f.node pos k

/-- A capture group: the old values are remembered and put back on failure. -/
def capture (here : Here) (M : Mstate) (g : ℕ) (child next : List Node) (pos : ℤ) (k : List Frame) :
    ℤ × Mstate :=
  let o0 := M.caps (2 * g)
  let o1 := M.caps (2 * g + 1)
  undo (fun caps => Function.update (Function.update caps (2 * g) o0) (2 * g + 1) o1)
    (here (M.setCaps (Function.update M.caps (2 * g) pos)) (.seq child) pos
      (⟨.endmark g, 0, 0⟩ :: ⟨.seq next, 0, 0⟩ :: k))

/-- The end of a capture group. -/
def captureEnd (here : Here) (M : Mstate) (g : ℕ) (pos : ℤ) (k : List Frame) : ℤ × Mstate :=
  let old := M.caps (2 * g + 1)
  undo (fun caps => Function.update caps (2 * g + 1) old)
    (here (M.setCaps (Function.update M.caps (2 * g + 1) pos)) (.seq []) pos k)

/-- `(?=...)` -/
def lookAhead (here : Here) (M : Mstate) (child next : List Node) (pos : ℤ) (k : List Frame) :
    ℤ × Mstate :=
  let x := here M (.seq child) pos []
  if x.1 = -2 then x
  else if x.1 ≥ 0 then follows M.caps x.2.caps (here x.2 (.seq next) pos k)
  else (-1, x.2)

/-- `(?!...)` -/
def lookNotAhead (here : Here) (M : Mstate) (child next : List Node) (pos : ℤ) (k : List Frame) :
    ℤ × Mstate :=
  let x := here M (.seq child) pos []
  if x.1 = -2 then x
  else if x.1 ≥ 0 then (-1, x.2.setCaps M.caps)
  else here (x.2.setCaps M.caps) (.seq next) pos k

/-- A node that holds no others. -/
def bare (here : Here) (M : Mstate) (node : Node) (next : List Node) (pos : ℤ) (k : List Frame) :
    ℤ × Mstate :=
  let x := leaf re s n M.caps pos node
  match x.2 with
  | none => (-1, M.note x.1)
  | some pos => here (M.note x.1) (.seq next) pos k

/-- A pass of the loop of `match_here`, after the step is counted. -/
def pass (here : Here) (iter : Iter) (M : Mstate) (node : Ptr) (pos : ℤ) (k : List Frame) :
    ℤ × Mstate :=
  match node with
  | .endmark g => captureEnd here M g pos k
  | .seq [] => popCont here iter M pos k
  | .seq (.group g child :: next) =>
    if g = 0 then here M (.seq child) pos (⟨.seq next, 0, 0⟩ :: k)
    else capture here M g child next pos k
  | .seq (.alt options :: next) =>
    altLoop (fun o M => here M o pos (⟨.seq next, 0, 0⟩ :: k)) options M
  | .seq (.rep min max lazy child :: next) =>
    iter M min max lazy child next 0 pos (-1) (⟨.seq next, 0, 0⟩ :: k)
  | .seq (.look .ahead child :: next) => lookAhead here M child next pos k
  | .seq (.look .notAhead child :: next) => lookNotAhead here M child next pos k
  | .seq (.look .behind _ :: next) => here M (.seq next) pos k       -- lookbehind: ignored
  | .seq (node :: next) => bare re s n here M node next pos k

/-- `repeat_iter`, after the step and the depth are counted. -/
def iterate (here : Here) (M : Mstate) (min : ℕ) (max : Option ℕ) (lazy : Bool) (child next : List Node)
    (count : ℕ) (pos startPos : ℤ) (k : List Frame) : ℤ × Mstate :=
  let canMore : Bool := max = none ∨ count < max.getD 0
  let canStop : Bool := count ≥ min
  -- an iteration that matched nothing would loop forever: stop there
  let canMore := if count > min ∧ pos = startPos ∧ count > 0 then false else canMore
  let more := fun M : Mstate =>
    here M (.seq child) pos (⟨.seq (.rep min max lazy child :: next), count + 1, pos⟩ :: k)
  let stop := fun M : Mstate => matchCont here M pos k
  if lazy then eitherWay canStop stop canMore more M else eitherWay canMore more canStop stop M

mutual

/-- `match_here` -/
def matchHere : ℕ → Here
  | 0, M, _, pos, _ => (-2, M.tick.note [.pass pos])
  | fuel + 1, M, node, pos, k =>
    let M := M.tick.note [.pass pos]
    if M.steps > stepLimit then (-2, M)
    else ends M.caps (pass re s n (matchHere fuel) (repeatIter fuel) M node pos k)

/-- `repeat_iter` -/
def repeatIter : ℕ → Iter
  | 0, M, _, _, _, _, _, _, _, _, _ => (-2, M.tick.setDepth (M.depth - 1))
  | fuel + 1, M, min, max, lazy, child, next, count, pos, startPos, k =>
    let M := M.tick
    if M.steps > stepLimit then (-2, M.setDepth (M.depth - 1))
    else
      let M := M.setDepth (M.depth + 1)
      if M.depth > depthLimit then (-2, M.setDepth (M.depth - 1))
      else
        let x := iterate (matchHere fuel) M min max lazy child next count pos startPos k
        (x.1, x.2.setDepth (x.2.depth - 1))

end

/-- A pattern anchored with `^`, and not multiline. -/
def Rx.anchored (re : Rx) : Bool :=
  match re.root with
  | .bol :: _ => !re.multiline
  | _ => false

/-- The loop of `rx_exec`, from `p` on, with `left` positions to go: what it returns, and the state. -/
def rxExecLoop (sticky : Bool) : ℕ → Mstate → ℤ → ℕ × Mstate
  | 0, M, _ => (0, M)
  | left + 1, M, p =>
    let x := matchHere re s n (stepLimit + 1) (M.setCaps fun _ => -1) (.seq re.root) p []
    if x.1 = -2 then (0, x.2)            -- too much backtracking: no match
    else if x.1 ≥ 0 then (1, x.2.setCaps (Function.update (Function.update x.2.caps 0 p) 1 x.1))
    else if sticky then (0, x.2)
    else if re.anchored then (0, x.2)    -- can only match at 0
    else rxExecLoop sticky left x.2 (p + 1)

/-- `rx_exec`: what it returns, and the captures and the log -/
def rxExec (caps : Caps) (start : ℕ) (sticky : Bool) : ℕ × Mstate :=
  rxExecLoop re s n sticky (n + 1 - start) ⟨0, 0, caps, []⟩ start

end

/-! ## One pass at a time -/

/-- The nodes that hold no others. -/
def Node.Bare : Node → Prop
  | .group _ _ => False
  | .alt _ => False
  | .rep _ _ _ _ => False
  | .look _ _ => False
  | _ => True

section

variable {re : Rx} {s : ℤ → UInt8} {n : ℕ} {here : Here} {iter : Iter} {M : Mstate} {pos : ℤ}
  {k : List Frame}

theorem pass_bare {node : Node} (h : node.Bare) (next : List Node) :
    pass re s n here iter M (.seq (node :: next)) pos k = bare re s n here M node next pos k := by
  cases node <;> first | rfl | exact absurd h id

/-- A continuation is gone on with, or goes back to its repeat. -/
theorem popCont_cons (f : Frame) :
    popCont here iter M pos (f :: k) = here M f.node pos k ∨
      ∃ min max lazy child next, f.node = .seq (.rep min max lazy child :: next) ∧ 0 < f.repCount ∧
        popCont here iter M pos (f :: k) =
          iter M min max lazy child next f.repCount pos f.repPos k := by
  obtain ⟨node, repCount, repPos⟩ := f
  rcases node with nodes | g
  · rcases nodes with _ | ⟨node, next⟩
    · exact Or.inl rfl
    · cases node with
      | rep min max lazy child =>
        by_cases hc : repCount > 0
        · exact Or.inr ⟨min, max, lazy, child, next, rfl, hc, if_pos hc⟩
        · exact Or.inl (if_neg hc)
      | _ => exact Or.inl rfl
  · exact Or.inl rfl

end

/-! ## What a call leaves -/

/-- No fewer steps counted, and nothing gone from the log. -/
def Kept (M : Mstate) (x : ℤ × Mstate) : Prop := M.steps ≤ x.2.steps ∧ M.log <:+ x.2.log

namespace Kept

variable {re : Rx} {s : ℤ → UInt8} {n : ℕ} {M M' : Mstate} {x : ℤ × Mstate}

theorem refl (M : Mstate) (r : ℤ) : Kept M (r, M) := ⟨Nat.le_refl _, List.suffix_refl _⟩

theorem trans (h : Kept M (0, M')) (h' : Kept M' x) : Kept M x := ⟨h.1.trans h'.1, h.2.trans h'.2⟩

theorem congr {r : ℤ} (h : Kept M x) (hs : x.2.steps = M'.steps) (hl : x.2.log = M'.log) :
    Kept M (r, M') := by
  rw [Kept, hs, hl] at h
  exact h

theorem note (h : Kept M x) (e : List Event) (r : ℤ) : Kept M (r, x.2.note e) :=
  ⟨h.1, h.2.trans (List.suffix_append _ _)⟩

theorem ends {found : Caps} (h : Kept M x) : Kept M (ends found x) := by
  rw [Whole.ends]
  split_ifs
  · exact h
  · exact h.note _ _

theorem follows {before after : Caps} (h : Kept M x) : Kept M (follows before after x) := by
  rw [Whole.follows]
  split_ifs
  · exact h
  · exact h.note _ _

theorem undo {f : Caps → Caps} (h : Kept M x) : Kept M (undo f x) := by
  rw [Whole.undo]
  split_ifs
  · exact h.congr rfl rfl
  · exact h

theorem altLoop {go : Ptr → Mstate → ℤ × Mstate} (hgo : ∀ o M, Kept M (go o M))
    (options : List (List Node)) (M : Mstate) : Kept M (altLoop go options M) := by
  induction options generalizing M with
  | nil => exact refl M _
  | cons o options ih =>
    rw [Whole.altLoop]
    split_ifs
    · exact hgo _ M
    · exact ((hgo (.seq o) M).congr rfl rfl).trans (ih _)

theorem eitherWay {can1 can2 : Bool} {way1 way2 : Mstate → ℤ × Mstate} (h1 : ∀ M, Kept M (way1 M))
    (h2 : ∀ M, Kept M (way2 M)) (M : Mstate) : Kept M (eitherWay can1 way1 can2 way2 M) := by
  have hfirst : Kept M (if can1 then way1 M else (-1, M)) := by
    split_ifs
    · exact h1 M
    · exact refl M _
  rw [Whole.eitherWay]
  generalize (if can1 then way1 M else (-1, M)) = x at hfirst ⊢
  split_ifs
  · exact hfirst
  · exact (hfirst.congr rfl rfl).trans (h2 x.2)
  · exact hfirst

theorem matchCont {here : Here} (hhere : ∀ M node pos k, Kept M (here M node pos k)) (M : Mstate)
    (pos : ℤ) (k : List Frame) : Kept M (matchCont here M pos k) := by
  cases k with
  | nil => exact refl _ _
  | cons f k => exact hhere _ _ _ _

theorem pass {here : Here} {iter : Iter} (hhere : ∀ M node pos k, Kept M (here M node pos k))
    (hiter : ∀ M min max lazy child next count pos startPos k,
      Kept M (iter M min max lazy child next count pos startPos k)) (M : Mstate) (node : Ptr) (pos : ℤ)
    (k : List Frame) : Kept M (pass re s n here iter M node pos k) := by
  have hset : ∀ (M : Mstate) (caps : Caps) {x : ℤ × Mstate}, Kept (M.setCaps caps) x → Kept M x :=
    fun M caps x h => h
  rcases node with nodes | g
  · rcases nodes with _ | ⟨node, next⟩
    · change Kept M (popCont here iter M pos k)
      cases k with
      | nil => exact refl _ _
      | cons f k =>
        rcases popCont_cons f with h | ⟨min, max, lazy, child, next, -, -, h⟩
        · rw [h]
          exact hhere _ _ _ _
        · rw [h]
          exact hiter _ _ _ _ _ _ _ _ _ _
    · by_cases hb : node.Bare
      · rw [pass_bare hb, bare]
        have hnote := (refl M 0).note (leaf re s n M.caps pos node).1 0
        cases (leaf re s n M.caps pos node).2 with
        | none => exact hnote.congr rfl rfl
        | some p => exact hnote.trans (hhere _ _ _ _)
      · cases node with
        | group g child =>
          change Kept M (if g = 0 then _ else _)
          split_ifs
          · exact hhere _ _ _ _
          · exact Kept.undo (hset M _ (hhere _ _ _ _))
        | alt options => exact Kept.altLoop (fun o M => hhere M o pos _) options M
        | rep min max lazy child => exact hiter _ _ _ _ _ _ _ _ _ _
        | look neg child =>
          have hsub := hhere M (.seq child) pos []
          cases neg with
          | behind => exact hhere _ _ _ _
          | ahead =>
            change Kept M (lookAhead here M child next pos k)
            rw [lookAhead]
            split_ifs
            · exact hsub
            · exact Kept.follows ((hsub.congr rfl rfl).trans (hhere _ _ _ _))
            · exact hsub.congr rfl rfl
          | notAhead =>
            change Kept M (lookNotAhead here M child next pos k)
            rw [lookNotAhead]
            split_ifs
            · exact hsub
            · exact hsub.congr rfl rfl
            · exact (hsub.congr rfl rfl).trans (hset _ _ (hhere _ _ _ _))
        | _ => exact absurd trivial hb
  · exact Kept.undo (hset M _ (hhere _ _ _ _))

theorem iterate {here : Here} (hhere : ∀ M node pos k, Kept M (here M node pos k)) (M : Mstate)
    (min : ℕ) (max : Option ℕ) (lazy : Bool) (child next : List Node) (count : ℕ) (pos startPos : ℤ)
    (k : List Frame) : Kept M (iterate here M min max lazy child next count pos startPos k) := by
  rw [Whole.iterate]
  cases lazy
  · exact Kept.eitherWay (fun M => hhere _ _ _ _) (fun M => Kept.matchCont hhere M pos k) M
  · exact Kept.eitherWay (fun M => Kept.matchCont hhere M pos k) (fun M => hhere _ _ _ _) M

end Kept

theorem kept (re : Rx) (s : ℤ → UInt8) (n fuel : ℕ) :
    (∀ M node pos k, Kept M (matchHere re s n fuel M node pos k)) ∧
      ∀ M min max lazy child next count pos startPos k,
        Kept M (repeatIter re s n fuel M min max lazy child next count pos startPos k) := by
  have htick : ∀ (M : Mstate) {x : ℤ × Mstate}, Kept M.tick x → Kept M x :=
    fun M x h => ⟨(Nat.le_succ _).trans h.1, h.2⟩
  have hnote : ∀ (M : Mstate) (e : Event) {x : ℤ × Mstate}, Kept (M.note [e]) x → Kept M x :=
    fun M e x h => ⟨h.1, (List.suffix_append _ _).trans h.2⟩
  have hdepth : ∀ (M : Mstate) (d : ℤ) {x : ℤ × Mstate}, Kept (M.setDepth d) x → Kept M x :=
    fun M d x h => h
  induction fuel with
  | zero =>
    refine ⟨fun M node pos k => ?_, fun M min max lazy child next count pos startPos k => ?_⟩
    · exact htick M (hnote _ _ (Kept.refl _ _))
    · exact htick M (hdepth _ _ (Kept.refl _ _))
  | succ fuel ih =>
    refine ⟨fun M node pos k => ?_, fun M min max lazy child next count pos startPos k => ?_⟩
    · rw [matchHere]
      refine htick M (hnote _ (.pass pos) ?_)
      split_ifs
      · exact Kept.refl _ _
      · exact Kept.ends (Kept.pass ih.1 ih.2 _ _ _ _)
    · rw [repeatIter]
      refine htick M ?_
      split_ifs
      · exact hdepth _ _ (Kept.refl _ _)
      · have hiter := Kept.iterate ih.1 (M.tick.setDepth (M.depth + 1)) min max lazy child next count pos
          startPos k
        dsimp only
        split_ifs
        · exact hdepth _ _ (Kept.refl _ _)
        · exact hiter.congr rfl rfl

theorem kept_rxExecLoop (re : Rx) (s : ℤ → UInt8) (n : ℕ) (sticky : Bool) (left : ℕ) (M : Mstate)
    (p : ℤ) : M.log <:+ (rxExecLoop re s n sticky left M p).2.log := by
  induction left generalizing M p with
  | zero => exact List.suffix_refl _
  | succ left ih =>
    have hcall := ((kept re s n (stepLimit + 1)).1 (M.setCaps fun _ => -1) (.seq re.root) p []).2
    rw [rxExecLoop]
    split_ifs
    · exact hcall
    · exact hcall
    · exact hcall
    · exact hcall
    · exact hcall.trans (ih _ _)

end BananaOS.Regex.Whole
