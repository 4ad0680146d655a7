import Mathlib.Algebra.Order.Ring.Nat
import Mathlib.Data.List.Sublists
import Mathlib.Logic.Function.Basic
import Mathlib.Tactic.Common

/-!
# A device with a write cache

A device stores a value at each address.  Writes take effect at once for who reads them back, but
they are on the disk only when a later flush has completed; when power is lost, any of the writes
since the last completed flush may be on the disk or not.

* `overlay d ws`: the contents `d` after the writes `ws`.
* `Crash log ws`: power is lost somewhere along `log`, and `ws` are the writes that reached the
  disk; `CrashAfter` has earlier writes besides that were not flushed.  `crash_window` and
  `crashAfter_window` read a log window by window.
* `overlay_sublist`: after some of the writes an address has its old value or one of those
  written there.
-/

namespace BananaOS.Lib

open Function

variable {α β : Type*}

/-- What the device is told. -/
inductive Ev (α β : Type*) where
  | write (a : α) (x : β)
  | flush

/-- The contents `d` after the writes `ws`. -/
def overlay [DecidableEq α] (d : α → β) (ws : List (α × β)) : α → β :=
  ws.foldl (fun d w => update d w.1 w.2) d

/-- The writes of a log. -/
def writes (log : List (Ev α β)) : List (α × β) :=
  log.filterMap fun
    | .write a x => some (a, x)
    | .flush => none

/-- The events of some writes. -/
def events (ws : List (α × β)) : List (Ev α β) := ws.map fun w => .write w.1 w.2

/-- Power is lost along `log`: the writes up to a completed flush (or none) are on the disk, and
some of those after it. -/
def Crash (log : List (Ev α β)) (ws : List (α × β)) : Prop :=
  ∃ done todo rest, log = done ++ todo ++ rest ∧ (done = [] ∨ ∃ p, done = p ++ [.flush]) ∧
    .flush ∉ todo ∧ ∃ l, l.Sublist (writes todo) ∧ ws = writes done ++ l

/-- Power is lost along `log`, before which the writes `pend` had not been flushed: `l` of these
reached the disk (all, when a flush has completed since), and `ws` of the log's. -/
def CrashAfter (pend : List (α × β)) (log : List (Ev α β)) (l ws : List (α × β)) : Prop :=
  (∃ todo rest, log = todo ++ rest ∧ .flush ∉ todo ∧ l.Sublist pend ∧ ws.Sublist (writes todo)) ∨
    l = pend ∧ Crash log ws

/-! ## Contents -/

section Contents

variable [DecidableEq α]

@[simp] theorem overlay_nil (d : α → β) : overlay d [] = d := rfl

@[simp] theorem overlay_cons (d : α → β) (w : α × β) (ws : List (α × β)) :
    overlay d (w :: ws) = overlay (update d w.1 w.2) ws := rfl

theorem overlay_append (d : α → β) (ws ws' : List (α × β)) :
    overlay d (ws ++ ws') = overlay (overlay d ws) ws' :=
  List.foldl_append ..

theorem overlay_of_notMem {d : α → β} {ws : List (α × β)} {a : α} (h : a ∉ ws.map Prod.fst) :
    overlay d ws a = d a := by
  induction ws generalizing d with
  | nil => rfl
  | cons w ws ih =>
    rw [List.map_cons, List.mem_cons, not_or] at h
    rw [overlay_cons, ih h.2, update_of_ne h.1]

/-- What is at an address after some writes depends on what was there before. -/
theorem overlay_congr {d d' : α → β} {a : α} (h : d a = d' a) (ws : List (α × β)) :
    overlay d ws a = overlay d' ws a := by
  induction ws generalizing d d' with
  | nil => exact h
  | cons w ws ih =>
    rw [overlay_cons, overlay_cons]
    refine ih ?_
    rcases eq_or_ne a w.1 with rfl | hne
    · rw [update_self, update_self]
    · rw [update_of_ne hne, update_of_ne hne, h]

/-- An address has its old value, or one of those written to it. -/
theorem overlay_mem (d : α → β) (ws : List (α × β)) (a : α) :
    overlay d ws a = d a ∧ a ∉ ws.map Prod.fst ∨ (a, overlay d ws a) ∈ ws := by
  induction ws generalizing d with
  | nil => exact Or.inl ⟨rfl, List.not_mem_nil⟩
  | cons w ws ih =>
    rw [overlay_cons]
    rcases ih (update d w.1 w.2) with ⟨h, hn⟩ | h
    · rcases eq_or_ne a w.1 with rfl | hne
      · rw [update_self] at h
        rw [h]
        exact Or.inr List.mem_cons_self
      · rw [update_of_ne hne] at h
        refine Or.inl ⟨h, ?_⟩
        rw [List.map_cons, List.mem_cons, not_or]
        exact ⟨hne, hn⟩
    · exact Or.inr (List.mem_cons_of_mem w h)

theorem overlay_of_mem {d : α → β} {ws : List (α × β)} {a : α} {x : β} (h : (a, x) ∈ ws)
    (hone : ∀ y, (a, y) ∈ ws → y = x) : overlay d ws a = x := by
  rcases overlay_mem d ws a with ⟨-, hn⟩ | hm
  · exact absurd (List.mem_map_of_mem h) hn
  · exact hone _ hm

theorem overlay_sublist {ws l : List (α × β)} (h : l.Sublist ws) (d : α → β) (a : α) :
    overlay d l a = d a ∨ (a, overlay d l a) ∈ ws := by
  rcases overlay_mem d l a with ⟨hd, -⟩ | hm
  · exact Or.inl hd
  · exact Or.inr (h.subset hm)

end Contents

/-! ## Logs -/

@[simp] theorem writes_append (l l' : List (Ev α β)) : writes (l ++ l') = writes l ++ writes l' :=
  List.filterMap_append ..

@[simp] theorem writes_flush (l : List (Ev α β)) : writes (.flush :: l) = writes l := rfl

@[simp] theorem writes_events (ws : List (α × β)) : writes (events ws) = ws := by
  induction ws with
  | nil => rfl
  | cons w ws ih => exact congrArg (w :: ·) ih

theorem flush_notMem_events (ws : List (α × β)) : Ev.flush ∉ events ws := by
  intro h
  obtain ⟨w, -, hw⟩ := List.mem_map.mp h
  cases hw

theorem events_append (ws ws' : List (α × β)) : events (ws ++ ws') = events ws ++ events ws' :=
  List.map_append ..

theorem crash_of_sublist {ws l : List (α × β)} (h : l.Sublist ws) (rest : List (Ev α β)) :
    Crash (events ws ++ rest) l :=
  ⟨[], events ws, rest, rfl, Or.inl rfl, flush_notMem_events ws, l, by rwa [writes_events], rfl⟩

/-- What is told before the first flush is in the first window. -/
theorem writes_sublist_window {ws : List (α × β)} {rest todo tail : List (Ev α β)}
    (hlog : events ws ++ .flush :: rest = todo ++ tail) (htodo : .flush ∉ todo) :
    (writes todo).Sublist ws := by
  rcases List.append_eq_append_iff.mp hlog with ⟨a, rfl, ha⟩ | ⟨c, hc, -⟩
  · cases a with
    | nil =>
      rw [List.append_nil, writes_events]
    | cons x a =>
      rw [List.cons_append, List.cons.injEq] at ha
      exact absurd (by simp [← ha.1]) htodo
  · have := congrArg writes hc
    rw [writes_events, writes_append] at this
    rw [this]
    exact List.sublist_append_left ..

/-- What is told up to a flush has the first window. -/
theorem eq_of_window {ws : List (α × β)} {rest p tail : List (Ev α β)}
    (hlog : events ws ++ .flush :: rest = p ++ [.flush] ++ tail) :
    ∃ done, p ++ [.flush] = events ws ++ .flush :: done ∧ rest = done ++ tail ∧
      (done = [] ∨ ∃ p', done = p' ++ [.flush]) := by
  rcases List.append_eq_append_iff.mp hlog with ⟨a, ha, ha'⟩ | ⟨c, hc, -⟩
  · cases a with
    | nil =>
      rw [List.append_nil] at ha
      exact absurd (by simp [← ha]) (flush_notMem_events ws)
    | cons x a =>
      rw [List.cons_append, List.cons.injEq] at ha'
      obtain ⟨rfl, rfl⟩ := ha'
      refine ⟨a, ha, rfl, ?_⟩
      rcases List.eq_nil_or_concat a with rfl | ⟨p', y, rfl⟩
      · exact Or.inl rfl
      · rw [List.concat_eq_append, ← List.cons_append, ← List.append_assoc] at ha
        have hy := List.append_inj_right' ha rfl
        exact Or.inr ⟨p', by rw [List.concat_eq_append, ← hy]⟩
  · exact absurd (by simp [hc]) (flush_notMem_events ws)

/-- Power is lost in the first window, or later. -/
theorem crash_window {ws l : List (α × β)} {rest : List (Ev α β)} :
    Crash (events ws ++ .flush :: rest) l ↔
      l.Sublist ws ∨ ∃ l', Crash rest l' ∧ l = ws ++ l' := by
  constructor
  · rintro ⟨done, todo, tail, hlog, hdone, htodo, k, hk, rfl⟩
    rcases hdone with rfl | ⟨p, rfl⟩
    · exact Or.inl (hk.trans (writes_sublist_window hlog htodo))
    · rw [List.append_assoc] at hlog
      obtain ⟨done, hdone, rfl, hend⟩ := eq_of_window hlog
      refine Or.inr ⟨writes done ++ k, ⟨done, todo, tail, (List.append_assoc ..).symm, hend, htodo, k,
        hk, rfl⟩, ?_⟩
      rw [hdone, writes_append, writes_events, writes_flush, List.append_assoc]
  · rintro (h | ⟨l', ⟨done, todo, tail, rfl, hdone, htodo, k, hk, rfl⟩, rfl⟩)
    · exact crash_of_sublist h _
    · refine ⟨events ws ++ .flush :: done, todo, tail, by simp, Or.inr ?_, htodo, k, hk, by simp⟩
      rcases hdone with rfl | ⟨p, rfl⟩
      · exact ⟨events ws, rfl⟩
      · exact ⟨events ws ++ .flush :: p, by simp⟩

theorem crashAfter_window {pend ws l k : List (α × β)} {rest : List (Ev α β)} :
    CrashAfter pend (events ws ++ .flush :: rest) l k ↔
      l.Sublist pend ∧ k.Sublist ws ∨ l = pend ∧ ∃ k', Crash rest k' ∧ k = ws ++ k' := by
  unfold CrashAfter
  rw [crash_window]
  constructor
  · rintro (⟨todo, tail, hlog, htodo, hl, hk⟩ | ⟨rfl, hk | hk⟩)
    · exact Or.inl ⟨hl, hk.trans (writes_sublist_window hlog htodo)⟩
    · exact Or.inl ⟨.refl _, hk⟩
    · exact Or.inr ⟨rfl, hk⟩
  · rintro (⟨hl, hk⟩ | ⟨rfl, hk⟩)
    · exact Or.inl ⟨events ws, .flush :: rest, rfl, flush_notMem_events ws, hl, by rwa [writes_events]⟩
    · exact Or.inr ⟨rfl, Or.inr hk⟩

/-- The log ends after the first window. -/
theorem crash_nil {l : List (α × β)} : Crash ([] : List (Ev α β)) l ↔ l = [] := by
  constructor
  · rintro ⟨done, todo, tail, hlog, -, -, k, hk, rfl⟩
    obtain ⟨h, -⟩ := List.append_eq_nil_iff.mp hlog.symm
    obtain ⟨rfl, rfl⟩ := List.append_eq_nil_iff.mp h
    exact List.sublist_nil.mp hk
  · rintro rfl
    exact ⟨[], [], [], rfl, Or.inl rfl, List.not_mem_nil, [], .slnil, rfl⟩

end BananaOS.Lib
