import BananaOS.Sched.Cores
import Mathlib.Data.List.Perm.Basic
import Mathlib.Data.Fintype.Card
import Mathlib.Tactic.Common

/-!
# Where a task is that is away

A task whose state is `TASK_AWAY` changes hands in several steps: the boot core leaves its stack and
queues it, another core pops it, runs it, stops and queues it again or sends it home, and the boot core
may pop it back.  `At s t p` says that `t` is in the place `p`: in the queue, with another core, or
with the boot core.  The invariant is that a task is away exactly when it is in a place, and then in
one only (`Inv`).

No step moves more than one task, so a step keeps this if it does so for that task (`Places.change`).
What makes it true of each step is the order of the code: `finish_switch` queues a task after the
switch from its stack, and a core sets `TASK_READY` as its last access.
-/

namespace BananaOS.Sched

open Lib Function

/-! ## The queue -/

section Queue

variable {vr : ℕ → ℕ} {w : ℕ → ℤ} {n k b : ℕ}

theorem leastLoop_lt (hb : b < k) : St.leastLoop vr n k b < k + n := by
  induction n generalizing k b with
  | zero => exact hb
  | succ n ih =>
    rw [St.leastLoop]
    have := ih (k := k + 1) (b := if Before (vr k) (vr b) then k else b) (by split_ifs <;> omega)
    omega

/-- The loop of `q_pop` ends at the first of the least. -/
theorem leastLoop_least (hw : ∀ i j, i < k + n → j < k + n → (Before (vr i) (vr j) ↔ w i < w j))
    (hb : b < k) (hle : ∀ i < k, w b ≤ w i) (hlt : ∀ i < b, w b < w i) :
    (∀ i < k + n, w (St.leastLoop vr n k b) ≤ w i) ∧
      ∀ i < St.leastLoop vr n k b, w (St.leastLoop vr n k b) < w i := by
  induction n generalizing k b with
  | zero => exact ⟨hle, hlt⟩
  | succ n ih =>
    rw [St.leastLoop]
    have hkb := hw k b (by omega) (by omega)
    rw [show k + (n + 1) = k + 1 + n by omega] at hw ⊢
    by_cases hbef : Before (vr k) (vr b)
    · rw [if_pos hbef]
      have hlt' := hkb.mp hbef
      refine ih hw (by omega) (fun i hi => ?_) fun i hi => ?_
      · rcases Nat.lt_succ_iff_lt_or_eq.mp hi with hi | rfl
        · exact (hlt'.trans_le (hle i hi)).le
        · exact le_rfl
      · exact hlt'.trans_le (hle i hi)
    · rw [if_neg hbef]
      refine ih hw (by omega) (fun i hi => ?_) hlt
      rcases Nat.lt_succ_iff_lt_or_eq.mp hi with hi | rfl
      · exact hle i hi
      · exact not_lt.mp fun h => hbef (hkb.mpr h)

/-- Two times less than `2 ^ 31` apart compare as they should, however far they have gone round. -/
theorem before_iff {a b : ℕ} {x y : ℤ} (hx : (x - a) % 2 ^ 32 = 0) (hy : (y - b) % 2 ^ 32 = 0)
    (hxy : |x - y| < 2 ^ 31) : Before a b ↔ x < y := by
  rw [abs_lt] at hxy
  unfold Before diff
  omega

end Queue

variable {s s' : St} {t u : Tid}

/-- What `q_pop` takes is out of the queue; nothing else changes that a task's place depends on. -/
structure Popped (s : St) (t : Tid) (s' : St) : Prop where
  queue : ∃ l₁ l₂, s.q.list taskMax = l₁ ++ t :: l₂ ∧ s'.q.list taskMax = l₁ ++ l₂
  task : s'.task = s.task
  current : s'.current = s.current
  prev : s'.prev = s.prev
  boot : s'.boot = s.boot
  ap : s'.ap = s.ap

theorem pop_popped (hlen : s.q.len ≤ taskMax) (h : s.pop = some (t, s')) : Popped s t s' := by
  unfold St.pop at h
  split_ifs at h with h0
  cases h
  have hbest : s.best < s.q.len := by
    have := @leastLoop_lt (fun k => (s.task (s.q.nth taskMax k)).apVr) (s.q.len - 1) 1 0
      (by decide)
    unfold St.best
    omega
  refine ⟨⟨(s.q.list taskMax).take s.best, (s.q.list taskMax).drop (s.best + 1), ?_, ?_⟩, rfl, rfl, rfl,
    rfl, rfl⟩
  · have hlt : s.best < (s.q.list taskMax).length := by rwa [RingBuf.length_list]
    have hget : s.q.nth taskMax s.best = (s.q.list taskMax)[s.best] := by
      simp [RingBuf.list]
    rw [hget, List.getElem_cons_drop, List.take_append_drop]
  · rw [RingBuf.list_closeGap_skip _ hbest hlen, List.eraseIdx_eq_take_drop_succ]

/-- The task `q_pop` takes has the least time of all that wait, the first of those that have it. -/
theorem pop_least (h : s.pop = some (t, s')) (hlen : s.q.len ≤ taskMax) {w : Tid → ℤ}
    (hw : ∀ u ∈ s.q.list taskMax, (w u - (s.task u).apVr) % 2 ^ 32 = 0)
    (hnear : ∀ u ∈ s.q.list taskMax, ∀ v ∈ s.q.list taskMax, |w u - w v| < 2 ^ 31) :
    (∀ u ∈ s.q.list taskMax, w t ≤ w u) ∧
      ∃ l₁ l₂, s.q.list taskMax = l₁ ++ t :: l₂ ∧ s'.q.list taskMax = l₁ ++ l₂ ∧
        ∀ u ∈ l₁, w t < w u := by
  unfold St.pop at h
  split_ifs at h with h0
  cases h
  have hmem : ∀ i < s.q.len, s.q.nth taskMax i ∈ s.q.list taskMax := fun i hi => by
    rw [RingBuf.list]
    exact List.mem_map_of_mem (List.mem_range.mpr hi)
  have hbest : s.best < s.q.len := by
    have := @leastLoop_lt (fun k => (s.task (s.q.nth taskMax k)).apVr) (s.q.len - 1) 1 0
      (by decide)
    unfold St.best
    omega
  obtain ⟨h1, h2⟩ := leastLoop_least
    (w := fun k => w (s.q.nth taskMax k)) (n := s.q.len - 1) (k := 1) (b := 0)
    (fun i j hi hj => before_iff (hw _ (hmem i (by omega))) (hw _ (hmem j (by omega)))
      (hnear _ (hmem i (by omega)) _ (hmem j (by omega))))
    (by decide) (fun i hi => by rw [Nat.lt_one_iff.mp hi]) (fun i hi => absurd hi (Nat.not_lt_zero _))
  refine ⟨fun u hu => ?_, (s.q.list taskMax).take s.best, (s.q.list taskMax).drop (s.best + 1), ?_, ?_,
    fun u hu => ?_⟩
  · rw [RingBuf.list, List.mem_map] at hu
    obtain ⟨i, hi, rfl⟩ := hu
    rw [List.mem_range] at hi
    exact h1 i (by omega)
  · have hlt : s.best < (s.q.list taskMax).length := by rwa [RingBuf.length_list]
    have hget : s.q.nth taskMax s.best = (s.q.list taskMax)[s.best] := by
      simp [RingBuf.list]
    rw [hget, List.getElem_cons_drop, List.take_append_drop]
  · rw [RingBuf.list_closeGap_skip _ hbest hlen, List.eraseIdx_eq_take_drop_succ]
  · rw [RingBuf.list, ← List.map_take, List.mem_map] at hu
    obtain ⟨i, hi, rfl⟩ := hu
    rw [List.take_range, List.mem_range] at hi
    exact h2 i (by unfold St.best at hi; omega)

/-! ## Places -/

/-- The task another core has, in its hands or running. -/
def Ap.has : Ap → Option Tid
  | .loop => none
  | .popped t | .runs t | .stopped t _ | .pushes t | .homes t => some t

/-- The task the boot core has that is away: the one it is leaving or has left, or one it has just
popped. -/
def St.bootHas (s : St) : Option Tid :=
  match s.boot with
  | .runs | .yields => none
  | .popped t | .pushes t => some t
  | .offloads => s.current
  | .switched => s.leaving

/-- The places of a task that is away. -/
inductive Place
  | queue
  | core (c : ℕ)
  | boot
  deriving DecidableEq

/-- The task is in the place. -/
def At (s : St) (t : Tid) : Place → Prop
  | .queue => t ∈ s.q.list taskMax
  | .core c => (s.ap c).has = some t
  | .boot => s.bootHas = some t

/-- A task is away exactly when it is in a place, and then in one only. -/
structure PlaceOk (s : St) (t : Tid) : Prop where
  away : (s.task t).state = .away ↔ ∃ p, At s t p
  one : ∀ p p', At s t p → At s t p' → p = p'

/-- The invariant of the queue and the cores. -/
structure Inv (s : St) : Prop where
  places : ∀ t, PlaceOk s t
  nodup : (s.q.list taskMax).Nodup
  /-- the task that `task_offload` sends away waits for a core -/
  offloads : s.boot = .offloads → ∃ t, s.current = some t ∧ (s.task t).state = .away ∧ (s.task t).cpu < 0
  /-- the boot core is on the stack of no other task that is away -/
  current : s.boot ≠ .offloads → ∀ t, s.current = some t → (s.task t).state ≠ .away
  /-- a task that was left while away waits for a core -/
  prev : s.boot = .switched → ∀ t, s.prev = some t → (s.task t).state = .away → (s.task t).cpu < 0

theorem Inv.len (h : Inv s) : s.q.len ≤ taskMax := by
  have := h.nodup.length_le_card
  rwa [RingBuf.length_list, Fintype.card_fin] at this

theorem Inv.nowhere (h : Inv s) (ht : (s.task t).state ≠ .away) (p : Place) : ¬ At s t p :=
  fun hp => ht ((h.places t).away.mpr ⟨p, hp⟩)

theorem PlaceOk.congr (h : PlaceOk s t) (ha : (s'.task t).state = .away ↔ (s.task t).state = .away)
    (hp : ∀ p, At s' t p ↔ At s t p) : PlaceOk s' t :=
  ⟨by rw [ha, h.away, exists_congr hp], fun p p' h1 h2 => h.one p p' ((hp p).mp h1) ((hp p').mp h2)⟩

theorem PlaceOk.of_only {p : Place} (ha : (s.task t).state = .away) (hp : ∀ p', At s t p' ↔ p' = p) :
    PlaceOk s t :=
  ⟨iff_of_true ha ⟨p, (hp p).mpr rfl⟩, fun p₁ p₂ h1 h2 => ((hp p₁).mp h1).trans ((hp p₂).mp h2).symm⟩

theorem PlaceOk.of_none (ha : (s.task t).state ≠ .away) (hp : ∀ p, ¬ At s t p) : PlaceOk s t :=
  ⟨iff_of_false ha (not_exists.mpr hp), fun p _ h => absurd h (hp p)⟩

theorem PlaceOk.at_iff {p p' : Place} (h : PlaceOk s t) (hp : At s t p) : At s t p' ↔ p' = p :=
  ⟨fun h' => h.one p' p h' hp, fun h' => h' ▸ hp⟩

/-! ## What a task's fields matter for -/

variable {f : Task → Task} {c : ℕ} {a : Ap} {b : Boot}

@[simp] theorem setTask_self : (s.setTask t f).task t = f (s.task t) := update_self ..

theorem setTask_of_ne (h : u ≠ t) : (s.setTask t f).task u = s.task u := update_of_ne h ..

theorem setTask_state (hf : (f (s.task t)).state = (s.task t).state) (u : Tid) :
    ((s.setTask t f).task u).state = (s.task u).state := by
  by_cases hu : u = t
  · rw [hu, setTask_self, hf]
  · rw [setTask_of_ne hu]

/-- `q_push` may change the time of the task, and no more. -/
theorem clamp_eq : ∃ f : Task → Task, s.clamp t = s.setTask t f ∧
    ∀ u, (f u).state = u.state ∧ (f u).cpu = u.cpu := by
  unfold St.clamp
  split_ifs with h
  · exact ⟨_, rfl, fun _ => ⟨rfl, rfl⟩⟩
  · refine ⟨id, ?_, fun _ => ⟨rfl, rfl⟩⟩
    unfold St.setTask
    rw [id, update_eq_self]

theorem leaving_eq_some : s.leaving = some t ↔
    s.prev = some t ∧ (s.task t).state = .away ∧ (s.task t).cpu < 0 := by
  unfold St.leaving
  simp

/-- What the boot core has depends on where it is, and on the task it has left. -/
theorem bootHas_congr (hb : s'.boot = s.boot) (hc : s'.current = s.current) (hp : s'.prev = s.prev)
    (ht : s.boot = .switched → ∀ t, s.prev = some t →
      ((s'.task t).state = .away ↔ (s.task t).state = .away) ∧
      ((s.task t).state = .away → ((s'.task t).cpu < 0 ↔ (s.task t).cpu < 0))) :
    s'.bootHas = some t ↔ s.bootHas = some t := by
  unfold St.bootHas
  rw [hb, hc]
  cases hbs : s.boot with
  | switched =>
    simp only [leaving_eq_some, hp]
    constructor
    · rintro ⟨h1, h2, h3⟩
      obtain ⟨h4, h5⟩ := ht hbs t h1
      exact ⟨h1, h4.mp h2, (h5 (h4.mp h2)).mp h3⟩
    · rintro ⟨h1, h2, h3⟩
      obtain ⟨h4, h5⟩ := ht hbs t h1
      exact ⟨h1, h4.mpr h2, (h5 h2).mpr h3⟩
  | _ => exact Iff.rfl

/-- A task that is left while away is with the boot core, so it is nowhere else. -/
theorem Inv.prev_ne (h : Inv s) (hb : s.boot = .switched) {p : Place} (hp : p ≠ .boot) (ht : At s t p) :
    s.prev ≠ some t := by
  intro heq
  have haway := (h.places t).away.mpr ⟨p, ht⟩
  have hboot : At s t .boot := by
    show s.bootHas = some t
    unfold St.bootHas
    rw [hb]
    exact leaving_eq_some.mpr ⟨heq, haway, h.prev hb t heq haway⟩
  exact hp ((h.places t).one _ _ ht hboot)

/-- The task that the boot core is leaving is nowhere else. -/
theorem Inv.current_ne (h : Inv s) {p : Place} (hp : p ≠ .boot) (ht : At s t p) : s.current ≠ some t := by
  intro heq
  have haway := (h.places t).away.mpr ⟨p, ht⟩
  by_cases hb : s.boot = .offloads
  · have hboot : At s t .boot := by
      show s.bootHas = some t
      unfold St.bootHas
      rw [hb]
      exact heq
    exact hp ((h.places t).one _ _ ht hboot)
  · exact h.current hb t heq haway

/-! ## Steps that leave every task where it is -/

/-- The fields of a task that is not away. -/
theorem Inv.touch (h : Inv s) (ht : (s.task t).state ≠ .away) (hf : (f (s.task t)).state ≠ .away) :
    Inv (s.setTask t f) := by
  have haway : ∀ u, ((s.setTask t f).task u).state = .away ↔ (s.task u).state = .away := fun u => by
    by_cases hu : u = t
    · rw [hu, setTask_self]
      exact iff_of_false hf ht
    · rw [setTask_of_ne hu]
  have hne : ∀ u, (s.task u).state = .away → (s.setTask t f).task u = s.task u := fun u hu =>
    setTask_of_ne fun h => ht (h ▸ hu)
  have hat : ∀ u p, At (s.setTask t f) u p ↔ At s u p := fun u p => by
    cases p with
    | boot => exact bootHas_congr rfl rfl rfl fun _ v _ => ⟨haway v, fun hv => by rw [hne v hv]⟩
    | _ => exact Iff.rfl
  refine ⟨fun u => (h.places u).congr (haway u) (hat u), h.nodup, fun hb => ?_, fun hb u hu => ?_,
    fun hb u hu hua => ?_⟩
  · obtain ⟨u, h1, h2, h3⟩ := h.offloads hb
    exact ⟨u, h1, by rw [hne u h2]; exact h2, by rw [hne u h2]; exact h3⟩
  · rw [Ne, haway]
    exact h.current hb u hu
  · rw [haway] at hua
    rw [hne u hua]
    exact h.prev hb u hu hua

/-- The boot core goes on while it has no task that is away. -/
theorem Inv.setBoot (h : Inv s) (hs : s.boot = .runs ∨ s.boot = .yields)
    (hb : b = .runs ∨ b = .yields) : Inv { s with boot := b } := by
  have hat : ∀ u p, At { s with boot := b } u p ↔ At s u p := fun u p => by
    cases p with
    | boot =>
      show St.bootHas { s with boot := b } = some u ↔ s.bootHas = some u
      unfold St.bootHas
      rcases hs with hs | hs <;> rcases hb with rfl | rfl <;> rw [hs]
    | _ => exact Iff.rfl
  refine ⟨fun u => (h.places u).congr Iff.rfl (hat u), h.nodup, fun hbo => ?_, fun _ => ?_, fun hbo => ?_⟩
  · rcases hb with rfl | rfl <;> cases hbo
  · exact h.current (by rcases hs with hs | hs <;> rw [hs] <;> nofun)
  · rcases hb with rfl | rfl <;> cases hbo

theorem scan_task (u : Tid) : (s.scan.task u).state = (s.task u).state ∧
    (s.scan.task u).cpu = (s.task u).cpu := by
  unfold St.scan
  simp only
  split_ifs <;> exact ⟨rfl, rfl⟩

theorem Inv.scan (h : Inv s) : Inv s.scan := by
  have hat : ∀ u p, At s.scan u p ↔ At s u p := fun u p => by
    cases p with
    | boot =>
      exact bootHas_congr rfl rfl rfl fun _ v _ => ⟨by rw [(scan_task v).1], fun _ => by
        rw [(scan_task v).2]⟩
    | _ => exact Iff.rfl
  refine ⟨fun u => (h.places u).congr (by rw [(scan_task u).1]) (hat u), h.nodup, fun hb => ?_,
    fun hb u hu => ?_, fun hb u hu hua => ?_⟩
  · obtain ⟨u, h1, h2, h3⟩ := h.offloads hb
    exact ⟨u, h1, by rw [(scan_task u).1]; exact h2, by rw [(scan_task u).2]; exact h3⟩
  · rw [(scan_task u).1]
    exact h.current hb u hu
  · rw [(scan_task u).1] at hua
    rw [(scan_task u).2]
    exact h.prev hb u hu hua

/-- The fields of a task that another core has, while it goes on having it. -/
theorem Inv.core (h : Inv s) (ht : (s.ap c).has = some t) (ha : a.has = some t)
    (hf : (f (s.task t)).state = (s.task t).state) :
    Inv { s.setTask t f with ap := update s.ap c a } := by
  have hatc : At s t (.core c) := ht
  have hne : ∀ u, u ≠ t → (s.setTask t f).task u = s.task u := fun u => setTask_of_ne
  have hat : ∀ u p, At { s.setTask t f with ap := update s.ap c a } u p ↔ At s u p := fun u p => by
    cases p with
    | queue => exact Iff.rfl
    | core c' =>
      show (update s.ap c a c').has = some u ↔ (s.ap c').has = some u
      by_cases hc : c' = c
      · rw [hc, update_self, ha, ht]
      · rw [update_of_ne hc]
    | boot =>
      refine bootHas_congr rfl rfl rfl fun hb v hv => ?_
      have hvt : v ≠ t := fun hvt => h.prev_ne hb (p := .core c) nofun hatc (hvt ▸ hv)
      simp only [hne v hvt, implies_true, and_self]
  have hstate := fun u => setTask_state (s := s) hf u
  refine ⟨fun u => (h.places u).congr (by rw [← hstate u]) (hat u), h.nodup, fun hb => ?_,
    fun hb u hu => ?_, fun hb u hu hua => ?_⟩
  · obtain ⟨u, h1, h2, h3⟩ := h.offloads hb
    have hut : u ≠ t := fun hut => h.current_ne (p := .core c) nofun hatc (hut ▸ h1)
    exact ⟨u, h1, (hstate u).trans h2, by rw [show (s.setTask t f).task u = s.task u from hne u hut]; exact h3⟩
  · exact fun hua => h.current hb u hu ((hstate u).symm.trans hua)
  · have hut : u ≠ t := fun hut => h.prev_ne hb (p := .core c) nofun hatc (hut ▸ hu)
    have := h.prev hb u hu ((hstate u).symm.trans hua)
    rwa [show (s.setTask t f).task u = s.task u from hne u hut]

/-! ## Switching -/

theorem switchTo_of_ne (h : u ≠ t) : (s.switchTo (some t)).task u = s.task u :=
  setTask_of_ne (f := fun u => { u with state := .running, cpu := 0 }) h

/-- The boot core switches to a task that is ready, or to the idle task; the one it leaves, if away,
stays with it until `finish_switch`. -/
theorem Inv.switchTo (h : Inv s) (hb : s.boot = .yields ∨ s.boot = .offloads) {o : Option Tid}
    (ho : ∀ t, o = some t → (s.task t).state = .ready ∧ s.current ≠ some t) : Inv (s.switchTo o) := by
  -- the task switched to is not away, before or after
  have hstate : ∀ u, ((s.switchTo o).task u).state = .away ↔ (s.task u).state = .away := fun u => by
    cases o with
    | none => exact Iff.rfl
    | some t =>
      by_cases hu : u = t
      · rw [hu, (ho t rfl).1]
        exact iff_of_false (by simp [St.switchTo, St.setTask]) nofun
      · rw [switchTo_of_ne hu]
  have hcur : ∀ u, s.current = some u → (s.switchTo o).task u = s.task u := fun u hu => by
    cases o with
    | none => rfl
    | some t => exact switchTo_of_ne fun hut => (ho t rfl).2 (hut.symm ▸ hu)
  have hprev : (s.switchTo o).prev = s.current := by cases o <;> rfl
  have hcurrent : (s.switchTo o).current = o := by cases o <;> rfl
  have hq : (s.switchTo o).q = s.q := by cases o <;> rfl
  have hap : (s.switchTo o).ap = s.ap := by cases o <;> rfl
  have hboot : (s.switchTo o).boot = .switched := by cases o <;> rfl
  -- what was with the boot core is what it has just left
  have hcpu : ∀ u, s.current = some u → (s.task u).state = .away →
      s.boot = .offloads ∧ (s.task u).cpu < 0 := fun u hu hua => by
    rcases hb with hb | hb
    · exact absurd hua (h.current (by rw [hb]; nofun) u hu)
    · obtain ⟨v, h1, h2, h3⟩ := h.offloads hb
      rw [hu, Option.some.injEq] at h1
      exact ⟨hb, h1 ▸ h3⟩
  have hat : ∀ u p, At (s.switchTo o) u p ↔ At s u p := fun u p => by
    cases p with
    | queue =>
      show u ∈ (s.switchTo o).q.list taskMax ↔ _
      rw [hq]
      exact Iff.rfl
    | core c =>
      show ((s.switchTo o).ap c).has = some u ↔ _
      rw [hap]
      exact Iff.rfl
    | boot =>
      show (s.switchTo o).bootHas = some u ↔ s.bootHas = some u
      rw [St.bootHas, hboot]
      simp only
      rw [leaving_eq_some, hprev]
      constructor
      · rintro ⟨h1, h2, -⟩
        rw [hcur u h1] at h2
        rw [St.bootHas, (hcpu u h1 h2).1]
        exact h1
      · intro hu
        have hoff : s.boot = .offloads := by
          rcases hb with hb | hb
          · rw [St.bootHas, hb] at hu
            cases hu
          · exact hb
        rw [St.bootHas, hoff] at hu
        obtain ⟨v, h1, h2, h3⟩ := h.offloads hoff
        have hu : s.current = some u := hu
        rw [hu, Option.some.injEq] at h1
        rw [hcur u hu, h1]
        exact ⟨h1 ▸ hu, h2, h3⟩
  refine ⟨fun u => (h.places u).congr (hstate u) (hat u), by rw [hq]; exact h.nodup, fun hbo => ?_,
    fun _ u hu => ?_, fun _ u hu hua => ?_⟩
  · rw [hboot] at hbo
    cases hbo
  · rw [hcurrent] at hu
    rw [Ne, hstate, (ho u hu).1]
    nofun
  · rw [hprev] at hu
    rw [hcur u hu] at hua ⊢
    exact (hcpu u hu hua).2

/-! ## A task moves -/

theorem Inv.change (h : Inv s) (t : Tid)
    (hstate : ∀ u, u ≠ t → ((s'.task u).state = .away ↔ (s.task u).state = .away))
    (hat : ∀ u, u ≠ t → ∀ p, At s' u p ↔ At s u p) (hok : PlaceOk s' t) (u : Tid) : PlaceOk s' u := by
  by_cases hu : u = t
  · rw [hu]
    exact hok
  · exact (h.places u).congr (hstate u hu) (hat u hu)

theorem Popped.mem (hp : Popped s t s') (hn : (s.q.list taskMax).Nodup) :
    t ∈ s.q.list taskMax ∧ (s'.q.list taskMax).Nodup ∧
      ∀ u, u ∈ s'.q.list taskMax ↔ u ∈ s.q.list taskMax ∧ u ≠ t := by
  obtain ⟨l₁, l₂, h1, h2⟩ := hp.queue
  rw [h1] at hn ⊢
  rw [h2]
  obtain ⟨hnot, hnd⟩ := List.nodup_cons.mp (List.nodup_middle.mp hn)
  refine ⟨by simp, hnd, fun u => ?_⟩
  constructor
  · intro hu
    refine ⟨?_, fun hut => hnot (hut ▸ hu)⟩
    rcases List.mem_append.mp hu with hu | hu
    · exact List.mem_append_left _ hu
    · exact List.mem_append_right _ (List.mem_cons_of_mem _ hu)
  · rintro ⟨hu, hut⟩
    rcases List.mem_append.mp hu with hu | hu
    · exact List.mem_append_left _ hu
    · exact List.mem_append_right _ ((List.mem_cons.mp hu).resolve_left hut)

/-- A core takes a task out of the queue: into the hands of the boot core, or of another. -/
theorem Inv.popHere (h : Inv s) (hb : s.boot = .yields) (hp : s.pop = some (t, s')) :
    Inv { s' with boot := .popped t } := by
  have hpop := pop_popped h.len hp
  obtain ⟨hmem, hnd, hq⟩ := hpop.mem h.nodup
  have hat : At s t .queue := hmem
  have hcur : s'.current = s.current := hpop.current
  refine ⟨h.change t (fun u _ => by rw [show s'.task = s.task from hpop.task]) (fun u hu p => ?_)
    (PlaceOk.of_only (p := .boot) ?_ fun p => ?_), hnd, nofun, fun _ u hu => ?_, nofun⟩
  · cases p with
    | queue => exact (hq u).trans (and_iff_left hu)
    | core c =>
      show (s'.ap c).has = some u ↔ (s.ap c).has = some u
      rw [hpop.ap]
    | boot =>
      refine iff_of_false (fun hh => hu (Option.some.inj hh).symm) fun hh => ?_
      have hh : s.bootHas = some u := hh
      rw [St.bootHas, hb] at hh
      cases hh
  · show (s'.task t).state = _
    rw [hpop.task]
    exact (h.places t).away.mpr ⟨_, hat⟩
  · cases p with
    | queue => exact iff_of_false (fun hh => ((hq t).mp hh).2 rfl) nofun
    | core c =>
      refine iff_of_false (fun hh => ?_) nofun
      have hh : (s'.ap c).has = some t := hh
      rw [hpop.ap] at hh
      cases (@PlaceOk.at_iff _ t _ (.core c) (h.places t) hat).mp hh
    | boot => exact iff_of_true rfl rfl
  · show (s'.task u).state ≠ _
    rw [hpop.task]
    exact h.current (by rw [hb]; nofun) u (hcur ▸ hu)

theorem Inv.apPop (h : Inv s) (ha : s.ap c = .loop) (hp : s.pop = some (t, s')) :
    Inv { s' with ap := update s.ap c (.popped t) } := by
  have hpop := pop_popped h.len hp
  obtain ⟨hmem, hnd, hq⟩ := hpop.mem h.nodup
  have hat : At s t .queue := hmem
  have hboot : ∀ u, St.bootHas { s' with ap := update s.ap c (.popped t) } = some u ↔ s.bootHas = some u :=
    fun u => bootHas_congr hpop.boot hpop.current hpop.prev fun _ v _ => by
      rw [show s'.task = s.task from hpop.task]
      exact ⟨Iff.rfl, fun _ => Iff.rfl⟩
  refine ⟨h.change t (fun u _ => by rw [show s'.task = s.task from hpop.task]) (fun u hu p => ?_)
    (PlaceOk.of_only (p := .core c) ?_ fun p => ?_), hnd, fun hb => ?_, fun hb u hu => ?_,
    fun hb u hu hua => ?_⟩
  · cases p with
    | queue => exact (hq u).trans (and_iff_left hu)
    | core c' =>
      show (update s.ap c (.popped t) c').has = some u ↔ (s.ap c').has = some u
      by_cases hc : c' = c
      · rw [hc, update_self, ha]
        exact iff_of_false (fun hh => hu (Option.some.inj hh).symm) nofun
      · rw [update_of_ne hc]
    | boot => exact hboot u
  · show (s'.task t).state = _
    rw [hpop.task]
    exact (h.places t).away.mpr ⟨_, hat⟩
  · cases p with
    | queue => exact iff_of_false (fun hh => ((hq t).mp hh).2 rfl) nofun
    | core c' =>
      show (update s.ap c (.popped t) c').has = some t ↔ _
      by_cases hc : c' = c
      · rw [hc, update_self]
        exact iff_of_true rfl rfl
      · rw [update_of_ne hc]
        refine iff_of_false (fun hh => ?_) fun hh => hc (Place.core.inj hh)
        cases (@PlaceOk.at_iff _ t _ (.core c') (h.places t) hat).mp hh
    | boot =>
      refine iff_of_false (fun hh => ?_) nofun
      cases (@PlaceOk.at_iff _ t _ .boot (h.places t) hat).mp ((hboot t).mp hh)
  · obtain ⟨u, h1, h2, h3⟩ := h.offloads (hpop.boot ▸ hb)
    refine ⟨u, hpop.current.trans h1, ?_, ?_⟩
    · show (s'.task u).state = _
      rw [hpop.task, h2]
    · show (s'.task u).cpu < 0
      rw [hpop.task]
      exact h3
  · show (s'.task u).state ≠ _
    rw [hpop.task]
    exact h.current (hpop.boot ▸ hb) u (hpop.current ▸ hu)
  · have hua : (s'.task u).state = .away := hua
    show (s'.task u).cpu < 0
    rw [hpop.task] at hua ⊢
    exact h.prev (hpop.boot ▸ hb) u (hpop.prev ▸ hu) hua

theorem Inv.room (h : Inv s) (ht : t ∉ s.q.list taskMax) : s.q.len < taskMax := by
  have := (List.nodup_cons.mpr ⟨ht, h.nodup⟩).length_le_card
  rw [List.length_cons, RingBuf.length_list, Fintype.card_fin] at this
  omega

theorem Inv.push_list (h : Inv s) (ht : t ∉ s.q.list taskMax) :
    (s.push t).q.list taskMax = s.q.list taskMax ++ [t] ∧ ((s.push t).q.list taskMax).Nodup := by
  have heq : (s.push t).q.list taskMax = s.q.list taskMax ++ [t] := RingBuf.list_put _ _ (h.room ht)
  rw [heq]
  refine ⟨rfl, List.nodup_append.mpr ⟨h.nodup, List.nodup_singleton t, fun a ha b hb hab => ?_⟩⟩
  rw [List.mem_singleton] at hb
  exact ht (hb ▸ hab ▸ ha)

theorem Inv.push (h : Inv s) (hb : s.boot = .pushes t) : Inv { s.push t with boot := .runs } := by
  have hat : At s t .boot := by
    show s.bootHas = some t
    rw [St.bootHas, hb]
  have hnot : t ∉ s.q.list taskMax := fun hq => by
    cases (@PlaceOk.at_iff _ t _ .queue (h.places t) hat).mp hq
  obtain ⟨hlist, hnd⟩ := h.push_list hnot
  refine ⟨h.change t (fun u _ => Iff.rfl) (fun u hu p => ?_) (PlaceOk.of_only (p := .queue)
    ((h.places t).away.mpr ⟨_, hat⟩) fun p => ?_), hnd, nofun, fun _ => h.current (by rw [hb]; nofun),
    nofun⟩
  · cases p with
    | queue =>
      show u ∈ (s.push t).q.list taskMax ↔ _
      rw [hlist, List.mem_append, List.mem_singleton, or_iff_left hu]
      exact Iff.rfl
    | core c => exact Iff.rfl
    | boot =>
      refine iff_of_false nofun fun hh => ?_
      have hh : s.bootHas = some u := hh
      rw [St.bootHas, hb] at hh
      exact hu (Option.some.inj hh).symm
  · cases p with
    | queue =>
      refine iff_of_true ?_ rfl
      show t ∈ (s.push t).q.list taskMax
      rw [hlist]
      simp
    | core c =>
      refine iff_of_false (fun hh => ?_) nofun
      cases (@PlaceOk.at_iff _ t _ (.core c) (h.places t) hat).mp hh
    | boot => exact iff_of_false nofun nofun

theorem Inv.apPush (h : Inv s) (ha : s.ap c = .pushes t) :
    Inv { s.push t with ap := update s.ap c .loop } := by
  have hat : At s t (.core c) := by
    show (s.ap c).has = some t
    rw [ha]
    rfl
  have hnot : t ∉ s.q.list taskMax := fun hq => by
    cases (@PlaceOk.at_iff _ t _ .queue (h.places t) hat).mp hq
  obtain ⟨hlist, hnd⟩ := h.push_list hnot
  refine ⟨h.change t (fun u _ => Iff.rfl) (fun u hu p => ?_) (PlaceOk.of_only (p := .queue)
    ((h.places t).away.mpr ⟨_, hat⟩) fun p => ?_), hnd, h.offloads, h.current, h.prev⟩
  · cases p with
    | queue =>
      show u ∈ (s.push t).q.list taskMax ↔ _
      rw [hlist, List.mem_append, List.mem_singleton, or_iff_left hu]
      exact Iff.rfl
    | core c' =>
      show (update s.ap c .loop c').has = some u ↔ (s.ap c').has = some u
      by_cases hc : c' = c
      · rw [hc, update_self, ha]
        exact iff_of_false nofun fun hh => hu (Option.some.inj hh).symm
      · rw [update_of_ne hc]
    | boot => exact bootHas_congr rfl rfl rfl fun _ _ _ => ⟨Iff.rfl, fun _ => Iff.rfl⟩
  · cases p with
    | queue =>
      refine iff_of_true ?_ rfl
      show t ∈ (s.push t).q.list taskMax
      rw [hlist]
      simp
    | core c' =>
      show (update s.ap c .loop c').has = some t ↔ _
      by_cases hc : c' = c
      · rw [hc, update_self]
        exact iff_of_false nofun nofun
      · rw [update_of_ne hc]
        refine iff_of_false (fun hh => ?_) nofun
        exact hc (Place.core.inj (((h.places t).at_iff hat).mp hh))
    | boot =>
      refine iff_of_false (fun hh => ?_) nofun
      have hh : s.bootHas = some t :=
        (bootHas_congr rfl rfl rfl fun _ _ _ => ⟨Iff.rfl, fun _ => Iff.rfl⟩).mp hh
      cases (@PlaceOk.at_iff _ t _ .boot (h.places t) hat).mp hh

/-- The boot core takes the task it has popped back among its own. -/
theorem Inv.back (h : Inv s) (hb : s.boot = .popped t) (hf : (f (s.task t)).state ≠ .away) :
    Inv { s.setTask t f with boot := .yields } := by
  have hat : At s t .boot := by
    show s.bootHas = some t
    rw [St.bootHas, hb]
  have hne : ∀ u, u ≠ t → (s.setTask t f).task u = s.task u := fun u => setTask_of_ne
  refine ⟨h.change t (fun u hu => by rw [show (s.setTask t f).task u = s.task u from hne u hu])
    (fun u hu p => ?_) (PlaceOk.of_none ?_ fun p hp => ?_), h.nodup, nofun, fun _ u hu hua => ?_, nofun⟩
  · cases p with
    | boot =>
      refine iff_of_false nofun fun hh => ?_
      have hh : s.bootHas = some u := hh
      rw [St.bootHas, hb] at hh
      exact hu (Option.some.inj hh).symm
    | _ => exact Iff.rfl
  · rw [show ({ s.setTask t f with boot := Boot.yields } : St).task t = (s.setTask t f).task t from rfl,
      setTask_self]
    exact hf
  · cases p with
    | queue => cases (@PlaceOk.at_iff _ t _ .queue (h.places t) hat).mp hp
    | core c => cases (@PlaceOk.at_iff _ t _ (.core c) (h.places t) hat).mp hp
    | boot => cases hp
  · have hua : ((s.setTask t f).task u).state = .away := hua
    by_cases hut : u = t
    · rw [hut, setTask_self] at hua
      exact hf hua
    · rw [hne u hut] at hua
      exact h.current (by rw [hb]; nofun) u hu hua

/-- Another core lets the boot core have its task. -/
theorem Inv.apBack (h : Inv s) (ht : (s.ap c).has = some t) (hf : (f (s.task t)).state ≠ .away) :
    Inv { s.setTask t f with ap := update s.ap c .loop } := by
  have hat : At s t (.core c) := ht
  have hne : ∀ u, u ≠ t → (s.setTask t f).task u = s.task u := fun u => setTask_of_ne
  have hboot : ∀ u, St.bootHas { s.setTask t f with ap := update s.ap c .loop } = some u ↔
      s.bootHas = some u := fun u =>
    bootHas_congr rfl rfl rfl fun hb v hv => by
      have hvt : v ≠ t := fun hvt => h.prev_ne hb (p := .core c) nofun hat (hvt ▸ hv)
      simp only [hne v hvt, implies_true, and_self]
  refine ⟨h.change t (fun u hu => by rw [show (s.setTask t f).task u = s.task u from hne u hu])
    (fun u hu p => ?_) (PlaceOk.of_none ?_ fun p hp => ?_), h.nodup, fun hb => ?_, fun hb u hu => ?_,
    fun hb u hu hua => ?_⟩
  · cases p with
    | queue => exact Iff.rfl
    | core c' =>
      show (update s.ap c .loop c').has = some u ↔ (s.ap c').has = some u
      by_cases hc : c' = c
      · rw [hc, update_self, ht]
        exact iff_of_false nofun fun hh => hu (Option.some.inj hh).symm
      · rw [update_of_ne hc]
    | boot => exact hboot u
  · rw [show ({ s.setTask t f with ap := update s.ap c .loop } : St).task t = (s.setTask t f).task t
      from rfl, setTask_self]
    exact hf
  · cases p with
    | queue => cases (@PlaceOk.at_iff _ t _ .queue (h.places t) hat).mp hp
    | core c' =>
      have hp : (update s.ap c .loop c').has = some t := hp
      by_cases hc : c' = c
      · rw [hc, update_self] at hp
        cases hp
      · rw [update_of_ne hc] at hp
        exact hc (Place.core.inj (((h.places t).at_iff hat).mp hp))
    | boot => cases (@PlaceOk.at_iff _ t _ .boot (h.places t) hat).mp ((hboot t).mp hp)
  · obtain ⟨u, h1, h2, h3⟩ := h.offloads hb
    have hut : u ≠ t := fun hut => h.current_ne (p := .core c) nofun hat (hut ▸ h1)
    refine ⟨u, h1, ?_, ?_⟩
    · rw [show (s.setTask t f).task u = s.task u from hne u hut]
      exact h2
    · rw [show (s.setTask t f).task u = s.task u from hne u hut]
      exact h3
  · have hut : u ≠ t := fun hut => h.current_ne (p := .core c) nofun hat (hut ▸ hu)
    rw [show (s.setTask t f).task u = s.task u from hne u hut]
    exact h.current hb u hu
  · have hut : u ≠ t := fun hut => h.prev_ne hb (p := .core c) nofun hat (hut ▸ hu)
    rw [show (s.setTask t f).task u = s.task u from hne u hut] at hua ⊢
    exact h.prev hb u hu hua

/-- `task_offload`: the current task is away, and still on the boot core's stack. -/
theorem Inv.offload (h : Inv s) (hb : s.boot = .runs) (hc : s.current = some t)
    (hf : (f (s.task t)).state = .away) (hcpu : (f (s.task t)).cpu < 0) :
    Inv { s.setTask t f with boot := .offloads } := by
  have hne : ∀ u, u ≠ t → (s.setTask t f).task u = s.task u := fun u => setTask_of_ne
  have hself : ({ s.setTask t f with boot := Boot.offloads } : St).task t = f (s.task t) := setTask_self
  have hnot := h.nowhere (h.current (by rw [hb]; nofun) t hc)
  refine ⟨h.change t (fun u hu => by rw [show (s.setTask t f).task u = s.task u from hne u hu])
    (fun u hu p => ?_) (PlaceOk.of_only (p := .boot) (by rw [hself]; exact hf) fun p => ?_), h.nodup,
    fun _ => ⟨t, hc, by rw [hself]; exact hf, by rw [hself]; exact hcpu⟩, fun hb => absurd rfl hb, nofun⟩
  · cases p with
    | boot =>
      refine iff_of_false (fun hh => ?_) fun hh => ?_
      · have hh : s.current = some u := hh
        rw [hc] at hh
        exact hu (Option.some.inj hh).symm
      · have hh : s.bootHas = some u := hh
        rw [St.bootHas, hb] at hh
        cases hh
    | _ => exact Iff.rfl
  · cases p with
    | queue => exact iff_of_false (hnot .queue) nofun
    | core c => exact iff_of_false (hnot (.core c)) nofun
    | boot => exact iff_of_true hc rfl

/-- `finish_switch`: the task left is queued next, if it is on its way to another core. -/
theorem Inv.finish (h : Inv s) (hb : s.boot = .switched) :
    Inv (match s.leaving with
      | some t => { s.clamp t with prev := none, boot := .pushes t }
      | none => { s with prev := none, boot := .runs }) := by
  cases hl : s.leaving with
  | none =>
    simp only
    refine ⟨fun u => (h.places u).congr Iff.rfl fun p => ?_, h.nodup, nofun,
      fun _ => h.current (by rw [hb]; nofun), nofun⟩
    cases p with
    | boot =>
      refine iff_of_false nofun fun hh => ?_
      have hh : s.bootHas = some u := hh
      rw [St.bootHas, hb] at hh
      rw [show s.leaving = some u from hh] at hl
      cases hl
    | _ => exact Iff.rfl
  | some t =>
    simp only
    obtain ⟨f, hclamp, hf⟩ := clamp_eq (s := s) (t := t)
    have hstate := fun u => setTask_state (s := s) (t := t) (hf _).1 u
    rw [hclamp]
    refine ⟨fun u => (h.places u).congr (by rw [show ((s.setTask t f).task u).state = _ from hstate u])
      fun p => ?_, h.nodup, nofun, fun _ u hu => ?_, nofun⟩
    · cases p with
      | boot =>
        show some t = some u ↔ s.bootHas = some u
        rw [St.bootHas, hb]
        show _ ↔ s.leaving = some u
        rw [hl]
      | _ => exact Iff.rfl
    · rw [show ((s.setTask t f).task u).state = _ from hstate u]
      exact h.current (by rw [hb]; nofun) u hu

/-! ## Every interleaving -/

theorem init_inv : Inv init := by
  have hlist : init.q.list taskMax = [] := rfl
  have hnone : ∀ t p, ¬ At init t p := fun t p => by
    cases p with
    | queue =>
      show t ∉ init.q.list taskMax
      rw [hlist]
      simp
    | core c => nofun
    | boot => nofun
  have hstate : ∀ t, (init.task t).state ≠ .away := fun t => by
    unfold init
    simp only
    split_ifs <;> nofun
  exact ⟨fun t => PlaceOk.of_none (hstate t) (hnone t), by rw [hlist]; exact List.nodup_nil, nofun,
    fun _ t _ => hstate t, nofun⟩

/-- **Every step keeps each task that is away in one place.** -/
theorem step_inv (hs : Step s s') (h : Inv s) : Inv s' := by
  cases hs with
  | create t hb hu hc => exact h.touch (by rw [hu]; nofun) nofun
  | pin t hb hc =>
    have ht := h.current (by rw [hb]; nofun) t hc
    exact h.touch ht ht
  | account t d hb hc =>
    have ht := h.current (by rw [hb]; nofun) t hc
    exact h.touch ht ht
  | yield st hst hb =>
    unfold St.giveUp
    cases hc : s.current with
    | none => exact h.setBoot (.inl hb) (.inr rfl)
    | some t =>
      simp only
      split_ifs with hr
      · refine (h.touch (t := t) (by rw [hr]; nofun) ?_).setBoot (.inl hb) (.inr rfl)
        rcases hst with rfl | rfl | rfl <;> nofun
      · exact h.setBoot (.inl hb) (.inr rfl)
  | wake t hb hs => exact h.touch (by rw [hs]; nofun) nofun
  | pick t hb hr hc =>
    refine h.scan.switchTo hb fun u hu => ?_
    cases hu
    exact ⟨(scan_task t).1.trans hr, hc⟩
  | again t hb hr hc =>
    have ht : (s.scan.task t).state ≠ .away := by
      rw [(scan_task t).1, hr]
      nofun
    exact (h.scan.touch (f := fun u => { u with state := .running, cpu := 0 }) ht nofun).setBoot
      (.inr hb) (.inl rfl)
  | idle hb => exact h.scan.switchTo (.inr hb) fun _ ht => by cases ht
  | popHere hb hp => exact h.popHere hb hp
  | back hb => exact h.back hb nofun
  | offload t hb hc hp hr => exact h.offload hb hc rfl (by simp)
  | finish hb => exact h.finish hb
  | push hb => exact h.push hb
  | apPop c ha hp => exact h.apPop ha hp
  | apRun c ha => exact h.core (by rw [ha]; rfl) rfl rfl
  | @apStop t c r ha =>
    have := h.core (c := c) (a := .stopped t r) (f := id) (t := t) (by rw [ha]; rfl) rfl rfl
    unfold St.setTask at this
    rwa [id, update_eq_self] at this
  | @apRequeue t c d ha =>
    obtain ⟨f, hclamp, hf⟩ := clamp_eq (t := t)
      (s := s.setTask t fun u => { u with apVr := (u.apVr + d) % 2 ^ 32, cpu := -1 })
    rw [hclamp]
    have := h.core (c := c) (a := .pushes t) (t := t)
      (f := fun u => f { u with apVr := (u.apVr + d) % 2 ^ 32, cpu := -1 }) (by rw [ha]; rfl) rfl (hf _).1
    unfold St.setTask at this ⊢
    simp only [update_self, update_idem]
    exact this
  | apPush c ha => exact h.apPush ha
  | apHome c d ha => exact h.core (by rw [ha]; rfl) rfl rfl
  | apBack c ha => exact h.apBack (by rw [ha]; rfl) nofun

theorem reachable_inv (h : Reachable s) : Inv s := by
  induction h with
  | refl => exact init_inv
  | tail _ hs ih => exact step_inv hs ih

/-! ## What it comes to -/

/-- The core's stack pointer is on the stack of the task: core `0` is the boot core. -/
def OnStack (s : St) (t : Tid) : ℕ → Prop
  | 0 => s.current = some t
  | c + 1 => s.ap c = .runs t

theorem at_of_onStack {c : ℕ} (h : OnStack s t (c + 1)) : At s t (.core c) := by
  show (s.ap c).has = some t
  rw [show s.ap c = .runs t from h]
  rfl

/-- **Tasks on several cores.**  In every state that an interleaving comes to: a task that is away is
in exactly one place, and in the queue once at most; no task is on the stacks of two cores, and none
that is queued is on any; the queue has at most `TASK_MAX` entries.  And `q_pop` takes the first of
the tasks with the least `ap_vr`, where these are within `2 ^ 31` of each other, and leaves the rest in
their order. -/
theorem away_one_place (h : Reachable s) :
    (∀ t, (s.task t).state = .away ↔ ∃! p, At s t p) ∧ (s.q.list taskMax).Nodup ∧
    (∀ t c c', OnStack s t c → OnStack s t c' → c = c') ∧
    (∀ t c, t ∈ s.q.list taskMax → ¬ OnStack s t c) ∧ s.q.len ≤ taskMax ∧
    ∀ t s', s.pop = some (t, s') →
      (∃ l₁ l₂, s.q.list taskMax = l₁ ++ t :: l₂ ∧ s'.q.list taskMax = l₁ ++ l₂) ∧
      ∀ w : Tid → ℤ, (∀ u ∈ s.q.list taskMax, (w u - (s.task u).apVr) % 2 ^ 32 = 0) →
        (∀ u ∈ s.q.list taskMax, ∀ v ∈ s.q.list taskMax, |w u - w v| < 2 ^ 31) →
        (∀ u ∈ s.q.list taskMax, w t ≤ w u) ∧
          ∃ l₁ l₂, s.q.list taskMax = l₁ ++ t :: l₂ ∧ s'.q.list taskMax = l₁ ++ l₂ ∧
            ∀ u ∈ l₁, w t < w u := by
  have hinv := reachable_inv h
  have hcur : ∀ t c, OnStack s t 0 → ¬ At s t (.core c) := fun t c h0 hc =>
    hinv.current_ne (p := .core c) nofun hc h0
  refine ⟨fun t => ?_, hinv.nodup, fun t c c' hc hc' => ?_, fun t c hq hc => ?_, hinv.len,
    fun t s' hp => ⟨(pop_popped hinv.len hp).queue, fun w hw hnear => pop_least hp hinv.len hw hnear⟩⟩
  · rw [(hinv.places t).away]
    exact ⟨fun ⟨p, hp⟩ => ⟨p, hp, fun p' hp' => (hinv.places t).one _ _ hp' hp⟩,
      fun ⟨p, hp, _⟩ => ⟨p, hp⟩⟩
  · cases c with
    | zero =>
      cases c' with
      | zero => rfl
      | succ c' => exact absurd (at_of_onStack hc') (hcur t c' hc)
    | succ c =>
      cases c' with
      | zero => exact absurd (at_of_onStack hc) (hcur t c hc')
      | succ c' =>
        have := (hinv.places t).one _ _ (at_of_onStack hc) (at_of_onStack hc')
        rw [Place.core.inj this]
  · have hat : At s t .queue := hq
    cases c with
    | zero => exact hinv.current_ne (p := .queue) nofun hat hc
    | succ c => cases (hinv.places t).one _ _ hat (at_of_onStack hc)

/-- A task that is made, runs, and goes to another core is queued once the boot core has left it. -/
theorem queued_reachable : ∃ s, Reachable s ∧ (s.task ⟨1, by decide⟩).state = .away ∧
    s.q.list taskMax = [⟨1, by decide⟩] := by
  have h1 : Reachable _ := .tail .refl (.create ⟨1, by decide⟩ rfl rfl (by decide))
  have h2 : Reachable _ := h1.tail (.yield .ready (.inl rfl) rfl)
  have h3 : Reachable _ := h2.tail (.pick ⟨1, by decide⟩ (.inl rfl) rfl (by decide))
  have h4 : Reachable _ := h3.tail (.finish rfl)
  have h5 : Reachable _ := h4.tail (.offload ⟨1, by decide⟩ rfl rfl rfl rfl)
  have h6 : Reachable _ := h5.tail (.pick ⟨0, by decide⟩ (.inr rfl) rfl (by decide))
  have h7 : Reachable _ := h6.tail (.finish rfl)
  have h8 : Reachable _ := h7.tail (.push (t := ⟨1, by decide⟩) rfl)
  exact ⟨_, h8, rfl, rfl⟩

/-- ... and it is nowhere else. -/
theorem away_one_place_queued : ∃ s, (s.task ⟨1, by decide⟩).state = .away ∧
    s.q.list taskMax = [⟨1, by decide⟩] ∧ ∃! p, At s ⟨1, by decide⟩ p := by
  obtain ⟨s, h, ha, hq⟩ := queued_reachable
  exact ⟨s, ha, hq, ((away_one_place h).1 _).mp ha⟩

end BananaOS.Sched
