import BananaOS.Lib.RingBuf
import Mathlib.Data.Fintype.Card
import Mathlib.Logic.Relation

/-!
# Tasks on several cores

The boot core's scheduler and the loops of the other cores in `kernel/task.c`, as far as a task
changes hands in them: `q_push`, `q_pop`, `finish_switch`, `switch_to`, `task_yield`, `task_offload`
and `task_ap_loop`, with `task_create_stack`, the end of a task, its sleep, and `task_ap_go_home`,
`task_ipi` and `task_ap_fault`, by which a task on another core stops.

A step is what one core does up to the next thing that another core may see or change, and steps of
all cores interleave as they like; a section under the queue's lock is one step.  `Boot` and `Ap` say
where a core is between two steps, with what it has in its registers.  What depends on the clock, and
what is read without a lock to choose between two ways that are both safe (whether a core is idle,
which task has the least virtual run time, whose turn is over), is left open: the steps for both ways
are there.

The idle task is not one of `g_tasks`; where a task is meant that may be it, it is `none`.
-/

namespace BananaOS.Sched

open Lib Function

/-- `TASK_MAX` -/
def taskMax : ℕ := 256

/-- A task of `g_tasks`. -/
abbrev Tid := Fin taskMax

/-- `task_state_t` -/
inductive TaskState
  | unused | running | ready | sleeping | away
  deriving DecidableEq, Repr

/-- `task_t`: `cpu` is `0` on the boot core, `n` on another core, `-1` while it waits for one. -/
structure Task where
  state : TaskState
  apVr : ℕ
  cpu : ℤ
  cameHome : Bool
  pinned : Bool

/-- Where the boot core is: in the code of `g_current`; in the loop of `task_yield`; there with a
task it has just popped; in `task_offload`, before `pick_next`; in `finish_switch`, or there in
`q_push`, before the lock. -/
inductive Boot
  | runs
  | yields
  | popped (t : Tid)
  | offloads
  | switched
  | pushes (t : Tid)
  deriving DecidableEq

/-- `a->reason` -/
inductive Reason
  | requeue | home
  deriving DecidableEq

/-- Where another core is: in its loop, without a task; with a task it has just popped; in the code
of a task; in its loop again, off the task's stack; in `q_push`, before the lock; or about to set
`state`, which lets the boot core have the task. -/
inductive Ap
  | loop
  | popped (t : Tid)
  | runs (t : Tid)
  | stopped (t : Tid) (r : Reason)
  | pushes (t : Tid)
  | homes (t : Tid)
  deriving DecidableEq

/-- The tasks, `g_current`, `g_prev`, the queue, `g_ap_min_vr`, and where each core is: the boot
core, and any number of others, core `c + 1` being `ap c`. -/
structure St where
  task : Tid → Task
  current : Option Tid
  prev : Option Tid
  q : RingBuf Tid
  minVr : ℕ
  boot : Boot
  ap : ℕ → Ap

/-- `a - b` in 32 bits. -/
def diff (a b : ℕ) : ℕ := (a + (2 ^ 32 - b % 2 ^ 32)) % 2 ^ 32

/-- `(int32_t)(a - b) < 0` -/
def Before (a b : ℕ) : Prop := 2 ^ 31 ≤ diff a b

/-- `(int32_t)(a - b) > 0` -/
def After (a b : ℕ) : Prop := 0 < diff a b ∧ diff a b < 2 ^ 31

instance (a b : ℕ) : Decidable (Before a b) := inferInstanceAs (Decidable (_ ≤ _))

instance (a b : ℕ) : Decidable (After a b) := inferInstanceAs (Decidable (_ ∧ _))

namespace St

variable (s : St)

/-- A field of a task set. -/
def setTask (t : Tid) (f : Task → Task) : St := { s with task := update s.task t (f (s.task t)) }

/-- The start of `q_push`: one that was away a long time starts just behind the others. -/
def clamp (t : Tid) : St :=
  if After (diff s.minVr 40000) (s.task t).apVr then
    s.setTask t fun u => { u with apVr := diff s.minVr 40000 }
  else s

/-- `q_push` under the lock. -/
def push (t : Tid) : St := { s with q := s.q.put taskMax t }

/-- The loop of `q_pop`: the first of the waiting tasks with the least time, `n` of them still to be
looked at, from the `k`-th on. -/
def leastLoop (vr : ℕ → ℕ) : ℕ → ℕ → ℕ → ℕ
  | 0, _, best => best
  | n + 1, k, best => leastLoop vr n (k + 1) (if Before (vr k) (vr best) then k else best)

/-- How far from the front the task is that `q_pop` takes. -/
def best : ℕ := leastLoop (fun k => (s.task (s.q.nth taskMax k)).apVr) (s.q.len - 1) 1 0

/-- `q_pop` under the lock. -/
def pop : Option (Tid × St) :=
  if s.q.len = 0 then none
  else
    let t := s.q.nth taskMax s.best
    let q := (s.q.closeGap taskMax s.best).skip taskMax 1
    let minVr := if After (s.task t).apVr s.minVr then (s.task t).apVr else s.minVr
    some (t, { s with q := q, minVr := minVr })

/-- The current task, if it is running, is so no more, and the boot core looks for another one. -/
def giveUp (st : TaskState) : St :=
  let s' : St := match s.current with
    | some t =>
      if (s.task t).state = .running then s.setTask t fun u => { u with state := st } else s
    | none => s
  { s' with boot := .yields }

/-- The scan of `pick_next`: a task back from another core has its virtual run time caught up. -/
def scan : St :=
  { s with task := fun t =>
    if (s.task t).state = .ready ∨ (s.task t).state = .running then
      { s.task t with cameHome := false }
    else s.task t }

/-- `switch_to` another task, with `task_switch`: the boot core is on its stack. -/
def switchTo (t : Option Tid) : St :=
  let s' : St := match t with
    | some t => s.setTask t fun u => { u with state := .running, cpu := 0 }
    | none => s
  { s' with current := t, prev := s.current, boot := .switched }

/-- The test of `finish_switch`: `g_prev` is on its way to another core. -/
def leaving : Option Tid := s.prev.filter fun t => (s.task t).state = .away ∧ (s.task t).cpu < 0

end St

/-- A step of a core. -/
inductive Step : St → St → Prop
  -- `task_create_stack`, in the current task: an unused slot
  | create {s : St} (t : Tid) (hb : s.boot = .runs) (hu : (s.task t).state = .unused)
    (hc : s.current ≠ some t) :
    Step s (s.setTask t fun u =>
      { u with state := .ready, apVr := 0, cpu := 0, cameHome := false, pinned := false })
  -- `task_pin`
  | pin {s : St} (t : Tid) (hb : s.boot = .runs) (hc : s.current = some t) :
    Step s (s.setTask t fun u => { u with pinned := true })
  -- the time a task has had is added up, `account`
  | account {s : St} (t : Tid) (d : ℕ) (hb : s.boot = .runs) (hc : s.current = some t) :
    Step s (s.setTask t fun u => { u with apVr := (u.apVr + d) % 2 ^ 32 })
  -- `task_yield` of a task that is running, that goes to sleep, or that has come to its end
  | yield {s : St} (st : TaskState) (hst : st = .ready ∨ st = .sleeping ∨ st = .unused)
    (hb : s.boot = .runs) :
    Step s (s.giveUp st)
  -- `wake_expired`: a sleeper's time has come
  | wake {s : St} (t : Tid) (hb : s.boot = .yields ∨ s.boot = .offloads)
    (hs : (s.task t).state = .sleeping) :
    Step s (s.setTask t fun u => { u with state := .ready })
  -- `pick_next` finds another task
  | pick {s : St} (t : Tid) (hb : s.boot = .yields ∨ s.boot = .offloads)
    (hr : (s.task t).state = .ready) (hc : s.current ≠ some t) : Step s (s.scan.switchTo (some t))
  -- ... or only the task that yields
  | again {s : St} (t : Tid) (hb : s.boot = .yields) (hr : (s.task t).state = .ready)
    (hc : s.current = some t) :
    Step s { s.scan.setTask t fun u => { u with state := .running, cpu := 0 } with boot := .runs }
  -- ... or none, and `task_offload` takes the idle task
  | idle {s : St} (hb : s.boot = .offloads) : Step s (s.scan.switchTo none)
  -- `task_yield` takes a waiting task back
  | popHere {s s' : St} {t : Tid} (hb : s.boot = .yields) (hp : s.pop = some (t, s')) :
    Step s { s' with boot := .popped t }
  | back {s : St} {t : Tid} (hb : s.boot = .popped t) :
    Step s { s.setTask t fun u => { u with cpu := 0, cameHome := true, state := .ready } with
      boot := .yields }
  -- `task_offload`
  | offload {s : St} (t : Tid) (hb : s.boot = .runs) (hc : s.current = some t)
    (hp : (s.task t).pinned = false) (hr : (s.task t).state = .running) :
    Step s { s.setTask t fun u => { u with state := .away, cpu := -1 } with boot := .offloads }
  -- `finish_switch` in the task switched to
  | finish {s : St} (hb : s.boot = .switched) :
    Step s (match s.leaving with
      | some t => { s.clamp t with prev := none, boot := .pushes t }
      | none => { s with prev := none, boot := .runs })
  | push {s : St} {t : Tid} (hb : s.boot = .pushes t) : Step s { s.push t with boot := .runs }
  -- `task_ap_loop`
  | apPop {s s' : St} {t : Tid} (c : ℕ) (ha : s.ap c = .loop) (hp : s.pop = some (t, s')) :
    Step s { s' with ap := update s.ap c (.popped t) }
  | apRun {s : St} {t : Tid} (c : ℕ) (ha : s.ap c = .popped t) :
    Step s { s.setTask t fun u => { u with cpu := c + 1 } with ap := update s.ap c (.runs t) }
  -- a system call, an interrupt or a fault: `ap_switch_out`
  | apStop {s : St} {t : Tid} (c : ℕ) (r : Reason) (ha : s.ap c = .runs t) :
    Step s { s with ap := update s.ap c (.stopped t r) }
  | apRequeue {s : St} {t : Tid} (c d : ℕ) (ha : s.ap c = .stopped t .requeue) :
    Step s { (s.setTask t fun u => { u with apVr := (u.apVr + d) % 2 ^ 32, cpu := -1 }).clamp t with
      ap := update s.ap c (.pushes t) }
  | apPush {s : St} {t : Tid} (c : ℕ) (ha : s.ap c = .pushes t) :
    Step s { s.push t with ap := update s.ap c .loop }
  | apHome {s : St} {t : Tid} (c d : ℕ) (ha : s.ap c = .stopped t .home) :
    Step s { s.setTask t fun u => { u with apVr := (u.apVr + d) % 2 ^ 32, cpu := 0, cameHome := true }
      with ap := update s.ap c (.homes t) }
  | apBack {s : St} {t : Tid} (c : ℕ) (ha : s.ap c = .homes t) :
    Step s { s.setTask t fun u => { u with state := .ready } with ap := update s.ap c .loop }

/-- `task_init`: the boot core runs task 0, and the other cores their loops. -/
def init : St where
  task := fun t => ⟨if t.val = 0 then .running else .unused, 0, 0, false, t.val = 0⟩
  current := some ⟨0, by decide⟩
  prev := none
  q := ⟨fun _ => ⟨0, by decide⟩, 0, 0⟩
  minVr := 0
  boot := .runs
  ap := fun _ => .loop

/-- A state that some interleaving comes to. -/
def Reachable (s : St) : Prop := Relation.ReflTransGen Step init s

end BananaOS.Sched
