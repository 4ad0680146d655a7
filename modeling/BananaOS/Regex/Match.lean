import Mathlib.Algebra.Order.Ring.Nat
import Mathlib.Data.Nat.Basic
import Mathlib.Tactic.Common

/-!
# The matcher of the regular expressions

`web/regex.c`, from `match_cont` on.  A pattern is compiled to a tree of nodes; a pointer to a node
stands for the node and what follows it through `next`, so here it is a list of nodes, and the null
pointer the empty list.  The alternatives of an `R_ALT` are the lists that its `child`, and the
`alt` of each, lead to.  Back references and lookaround are left out; without them nothing that the
matcher does depends on the capture positions, which it writes all the same.

`match_here` and `repeat_iter` call each other.  Every pass of the loop of the one and every call
of the other counts one step, and the step limit ends them: that is the recursion here, on `fuel`,
with the answer of the step limit when there is none left.  A search has as much of it as the limit
allows steps.

A subject is in the memory of a web worker, at most 512 MiB, so that its length and positions are
C ints.
-/

namespace BananaOS.Regex

/-- `rnode_t` of a tree -/
inductive Node where
  | char (c : UInt8)
  | any
  | cls (set : List UInt8) (neg : Bool)
  | bol
  | eol
  | wordb
  | nwordb
  | group (group : ℕ) (child : List Node)
  | alt (options : List (List Node))
  | rep (min : ℕ) (max : Option ℕ) (lazy : Bool) (child : List Node)

/-- A pointer to a node, of the tree or to the node of kind `0xFF` that ends a capture. -/
inductive Ptr where
  | seq (nodes : List Node)
  | endmark (group : ℕ)

/-- `regex_t` -/
structure Rx where
  root : List Node
  icase : Bool
  multiline : Bool
  dotall : Bool

/-- `RX_MAX_GROUPS` -/
def rxMaxGroups : ℕ := 20

/-- `STEP_LIMIT` -/
def stepLimit : ℕ := 2000000

/-- `DEPTH_LIMIT` -/
def depthLimit : ℤ := 4000

/-- `cont_t`; the continuations that follow it through `next` come after it in a list. -/
structure Frame where
  node : Ptr
  repCount : ℕ
  repPos : ℤ

/-- What of `mstate_t` changes. -/
structure Mstate where
  steps : ℕ
  depth : ℤ
  caps : List ℤ

/-- What a match returns: a position, -1 or -2. -/
inductive Res where
  | pos (i : ℕ)
  | fail
  | limit
  deriving DecidableEq, Repr

/-- `set_has` -/
def setHas (set : List UInt8) (c : UInt8) : Bool :=
  set.getD (c.toNat >>> 3) 0 &&& ((1 : UInt8) <<< (c &&& 7)) ≠ 0

/-- `is_dig` -/
def isDig (c : UInt8) : Bool := 0x30 ≤ c ∧ c ≤ 0x39

/-- `is_wordc` -/
def isWordc (c : UInt8) : Bool :=
  (0x61 ≤ c ∧ c ≤ 0x7A) ∨ (0x41 ≤ c ∧ c ≤ 0x5A) ∨ isDig c ∨ c = 0x5F

/-- `lower` -/
def lower (c : UInt8) : UInt8 := if 0x41 ≤ c ∧ c ≤ 0x5A then c + 32 else c

section

variable (re : Rx) (s : List UInt8)

/-- `word_at`, of the position before `pos` -/
def wordBefore (pos : ℕ) : Bool := 0 < pos ∧ pos - 1 < s.length ∧ isWordc (s.getD (pos - 1) 0)

/-- `word_at` -/
def wordAt (pos : ℕ) : Bool := pos < s.length ∧ isWordc (s.getD pos 0)

/-- The nodes that take one character: whether they take `a`. -/
def takes (a : UInt8) : Node → Bool
  | .char c => a = c ∨ (re.icase ∧ lower a = lower c)
  | .any => re.dotall ∨ ¬ (a = 10 ∨ a = 13)
  | .cls set neg => setHas set a ≠ neg
  | _ => false

/-- The nodes that take nothing: whether they hold at `pos`. -/
def holds (pos : ℕ) : Node → Bool
  | .bol => pos = 0 ∨ (re.multiline ∧ s.getD (pos - 1) 0 = 10)
  | .eol => pos = s.length ∨ (re.multiline ∧ s.getD pos 0 = 10)
  | .wordb => wordBefore s pos ≠ wordAt s pos
  | .nwordb => wordBefore s pos = wordAt s pos
  | _ => false

/-- The loop over the alternatives of an `R_ALT`. -/
def altLoop (go : Ptr → Mstate → Res × Mstate) : List (List Node) → Mstate → Res × Mstate
  | [], M => (.fail, M)
  | o :: options, M =>
    match go (.seq o) M with
    | (.fail, M) => altLoop go options M
    | r => r

/-- `match_cont`, with the `match_here` it calls: the rest after a node sequence ended -/
def matchCont (here : Mstate → Ptr → ℕ → List Frame → Res × Mstate) (M : Mstate) (pos : ℕ) :
    List Frame → Res × Mstate
  | [] => (.pos pos, M)
  | f :: k => here M f.node pos k

mutual

/-- `match_here` -/
def matchHere : ℕ → Mstate → Ptr → ℕ → List Frame → Res × Mstate
  | 0, M, _, _, _ => (.limit, { M with steps := M.steps + 1 })
  | fuel + 1, M, node, pos, k =>
    let M := { M with steps := M.steps + 1 }
    if M.steps > stepLimit then (.limit, M)
    else
      match node with
      | .seq [] =>
        -- the end of a sequence: a repeat marker continuation goes back to its repeat
        match k with
        | [] => (.pos pos, M)
        | f :: k =>
          match f.node with
          | .seq (.rep min max lazy child :: next) =>
            if f.repCount > 0 then repeatIter fuel M min max lazy child next f.repCount pos f.repPos k
            else matchHere fuel M f.node pos k
          | _ => matchHere fuel M f.node pos k
      | .seq (.char c :: next) =>
        if pos ≥ s.length then (.fail, M)
        else if takes re (s.getD pos 0) (.char c) then matchHere fuel M (.seq next) (pos + 1) k
        else (.fail, M)
      | .seq (.any :: next) =>
        if pos ≥ s.length then (.fail, M)
        else if takes re (s.getD pos 0) .any then matchHere fuel M (.seq next) (pos + 1) k
        else (.fail, M)
      | .seq (.cls set neg :: next) =>
        if pos ≥ s.length then (.fail, M)
        else if takes re (s.getD pos 0) (.cls set neg) then matchHere fuel M (.seq next) (pos + 1) k
        else (.fail, M)
      | .seq (.bol :: next) =>
        if holds re s pos .bol then matchHere fuel M (.seq next) pos k else (.fail, M)
      | .seq (.eol :: next) =>
        if holds re s pos .eol then matchHere fuel M (.seq next) pos k else (.fail, M)
      | .seq (.wordb :: next) =>
        if holds re s pos .wordb then matchHere fuel M (.seq next) pos k else (.fail, M)
      | .seq (.nwordb :: next) =>
        if holds re s pos .nwordb then matchHere fuel M (.seq next) pos k else (.fail, M)
      | .seq (.group g child :: next) =>
        if g = 0 then matchHere fuel M (.seq child) pos (⟨.seq next, 0, 0⟩ :: k)
        else
          -- capture: remember the old values to restore on failure
          let o0 := M.caps.getD (2 * g) 0
          let o1 := M.caps.getD (2 * g + 1) 0
          let M := { M with caps := M.caps.set (2 * g) pos }
          match matchHere fuel M (.seq child) pos (⟨.endmark g, 0, 0⟩ :: ⟨.seq next, 0, 0⟩ :: k) with
          | (.pos i, M) => (.pos i, M)
          | (r, M) => (r, { M with caps := (M.caps.set (2 * g) o0).set (2 * g + 1) o1 })
      | .endmark g =>
        let old := M.caps.getD (2 * g + 1) 0
        let M := { M with caps := M.caps.set (2 * g + 1) pos }
        match matchHere fuel M (.seq []) pos k with
        | (.pos i, M) => (.pos i, M)
        | (r, M) => (r, { M with caps := M.caps.set (2 * g + 1) old })
      | .seq (.alt options :: next) =>
        altLoop (fun o M => matchHere fuel M o pos (⟨.seq next, 0, 0⟩ :: k)) options M
      | .seq (.rep min max lazy child :: next) =>
        repeatIter fuel M min max lazy child next 0 pos (-1) (⟨.seq next, 0, 0⟩ :: k)

/-- `repeat_iter`, of the repeat node with the fields `min`, `max`, `lazy`, `child` and `next` -/
def repeatIter : ℕ → Mstate → ℕ → Option ℕ → Bool → List Node → List Node → ℕ → ℕ → ℤ →
    List Frame → Res × Mstate
  | 0, M, _, _, _, _, _, _, _, _, _ => (.limit, { M with steps := M.steps + 1, depth := M.depth - 1 })
  | fuel + 1, M, min, max, lazy, child, next, count, pos, startPos, k =>
    let M := { M with steps := M.steps + 1 }
    if M.steps > stepLimit then (.limit, { M with depth := M.depth - 1 })
    else
      let M := { M with depth := M.depth + 1 }
      if M.depth > depthLimit then (.limit, { M with depth := M.depth - 1 })
      else
        let canMore : Bool := max = none ∨ count < max.getD 0
        let canStop : Bool := count ≥ min
        -- an iteration that matched nothing would loop forever: stop there
        let canMore := if count > min ∧ pos = startPos ∧ count > 0 then false else canMore
        let more := fun M : Mstate =>
          matchHere fuel M (.seq child) pos
            (⟨.seq (.rep min max lazy child :: next), count + 1, pos⟩ :: k)
        let stop := fun M : Mstate => matchCont (matchHere fuel) M pos k
        let (r, M) :=
          if lazy = false then
            match (if canMore then more M else (.fail, M)) with
            | (.fail, M) => if canStop then stop M else (.fail, M)
            | r => r
          else
            match (if canStop then stop M else (.fail, M)) with
            | (.fail, M) => if canMore then more M else (.fail, M)
            | r => r
        (r, { M with depth := M.depth - 1 })

end

/-- The loop of `rx_exec`, from `p` on, with `left` positions to go. -/
def rxExecLoop (sticky : Bool) : ℕ → Mstate → ℕ → Res × Mstate
  | 0, M, _ => (.fail, M)
  | left + 1, M, p =>
    let M := { M with caps := List.replicate (2 * (rxMaxGroups + 1)) (-1) }
    match matchHere re s (stepLimit + 1) M (.seq re.root) p [] with
    | (.limit, M) => (.limit, M)          -- too much backtracking: no match
    | (.pos i, M) => (.pos i, { M with caps := (M.caps.set 0 p).set 1 i })
    | (.fail, M) =>
      if sticky then (.fail, M)
      else
        -- a pattern anchored with ^ (and not multiline) can only match at 0
        match re.root with
        | .bol :: _ => if re.multiline then rxExecLoop sticky left M (p + 1) else (.fail, M)
        | _ => rxExecLoop sticky left M (p + 1)

/-- `rx_exec` as far as its answer goes: how the search ended, and the captures. -/
def rxSearch (start : ℕ) (sticky : Bool) : Res × List ℤ :=
  let (r, M) := rxExecLoop re s sticky (s.length + 1 - start) ⟨0, 0, []⟩ start
  (r, M.caps)

/-- `rx_exec`: what it returns, and the captures. -/
def rxExec (start : ℕ) (sticky : Bool) : ℕ × List ℤ :=
  match rxSearch re s start sticky with
  | (.pos _, caps) => (1, caps)
  | (_, caps) => (0, caps)

end

end BananaOS.Regex
