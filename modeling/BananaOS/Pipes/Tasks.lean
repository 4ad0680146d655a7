import BananaOS.Pipes.Streams
import Mathlib.Data.Finset.Card

/-!
# Pipes under any interleaving

The sections of the tasks keep `Kst.Inv`, and beside it the counting of the references: a call in
the middle holds one, so its description is there when it comes back, and the task that gave up
the last one is alone with it.

The log of every direction is then `Faithful` in every run, and `Refused` in every run in which no
write comes back from allocating the ring after the last reader has gone (`Sys.Late`):
`pipes_are_queues`.  `write_without_reader` is a run with such a write, which is accepted.
-/

namespace BananaOS.Pipes

/-! ## The tasks -/

namespace Sys

variable {T : Type*} [Fintype T]

theorem busy_pos {pc : T → Pc} {t : T} {f : ℕ} (h : (pc t).holds = some f) : 0 < busy pc f :=
  Finset.card_pos.mpr ⟨t, by simpa using h⟩

/-- The invariant of the whole system. -/
structure Inv (strict : Prop) (s : Sys T) : Prop where
  st : s.st.Inv strict
  gap : ∀ t f, (s.pc t).holds = some f → ∃ k, s.st.file f = some k
  put : ∀ t f, s.pc t = .putDrop f → (∃ k, s.st.file f = some k ∧ k.refs = 0) ∧
    ∀ t', s.pc t' = .putDrop f → t' = t
  refs : ∀ f k, s.st.file f = some k → (busy s.pc f : ℤ) ≤ k.refs

namespace Inv

variable {strict : Prop} {s : Sys T}

/-- The memory changed, and no description came, went or changed its references. -/
theorem ofRefs (h : s.Inv strict) {st : Kst} (hst : st.Inv strict)
    (hrefs : ∀ f, (st.file f).map Kfile.refs = (s.st.file f).map Kfile.refs) :
    Inv strict { s with st := st } := by
  have hback : ∀ f k, s.st.file f = some k → ∃ k', st.file f = some k' ∧ k'.refs = k.refs := by
    intro f k hf
    have := hrefs f
    rw [hf] at this
    simpa using this
  refine ⟨hst, ?_, ?_, ?_⟩
  · intro t f ht
    obtain ⟨k, hf⟩ := h.gap t f ht
    obtain ⟨k', hf', -⟩ := hback f k hf
    exact ⟨k', hf'⟩
  · intro t f ht
    obtain ⟨⟨k, hf, hk⟩, hone⟩ := h.put t f ht
    obtain ⟨k', hf', hk'⟩ := hback f k hf
    exact ⟨⟨k', hf', hk'.trans hk⟩, hone⟩
  · intro f k' hf'
    have := hrefs f
    rw [hf'] at this
    obtain ⟨k, hf, hk⟩ : ∃ k, s.st.file f = some k ∧ k.refs = k'.refs := by simpa using this.symm
    rw [← hk]
    exact h.refs f k hf

/-- The same for a change of one description that keeps its references. -/
theorem ofLets (h : s.Inv strict) {st : Kst} (hst : st.Inv strict) {f : ℕ} {k k' : Kfile}
    (hf : s.st.file f = some k) (hfile : st.file = Function.update s.st.file f (some k'))
    (hk : k.Lets k') : Inv strict { s with st := st } := by
  refine h.ofRefs hst fun f' => ?_
  rw [hfile]
  rcases eq_or_ne f' f with rfl | hne
  · simp [hf, hk.refs]
  · rw [Function.update_of_ne hne]

/-- A description that nobody had, with one reference. -/
theorem created (h : s.Inv strict) {st : Kst} (hst : st.Inv strict)
    (hfile : ∀ f, st.file f = s.st.file f ∨
      s.st.file f = none ∧ ∃ k, st.file f = some k ∧ k.refs = 1) :
    Inv strict { s with st := st } := by
  have hback : ∀ f k, s.st.file f = some k → st.file f = some k := by
    intro f k hf
    rcases hfile f with hx | ⟨hx, -⟩
    · rw [hx, hf]
    · rw [hf] at hx
      exact absurd hx (by simp)
  refine ⟨hst, ?_, ?_, ?_⟩
  · intro t f ht
    obtain ⟨k, hf⟩ := h.gap t f ht
    exact ⟨k, hback f k hf⟩
  · intro t f ht
    obtain ⟨⟨k, hf, hk⟩, hone⟩ := h.put t f ht
    exact ⟨⟨k, hback f k hf, hk⟩, hone⟩
  · intro f k hf
    rcases hfile f with hx | ⟨hx, k', hk', hr⟩
    · exact h.refs f k (hx ▸ hf)
    · have hzero : busy s.pc f = 0 := by
        by_contra hne
        obtain ⟨t, ht⟩ := Finset.card_pos.mp (Nat.pos_of_ne_zero hne)
        obtain ⟨k₁, hk₁⟩ := h.gap t f (Finset.mem_filter.mp ht).2
        rw [hx] at hk₁
        exact absurd hk₁ (by simp)
      rw [hk'] at hf
      rw [hzero, ← Option.some.inj hf, hr]
      decide

/-- Nobody is closing a description that somebody holds a reference to. -/
theorem not_put (h : s.Inv strict) {f : ℕ} (hh : s.Held f) (t : T) : s.pc t ≠ .putDrop f := by
  intro ht
  obtain ⟨k, hf, hlt⟩ := hh
  obtain ⟨⟨k', hf', hk'⟩, -⟩ := h.put t f ht
  rw [hf] at hf'
  rw [Option.some.inj hf', hk'] at hlt
  omega

/-- One reference more, or one that no call in the middle holds less. -/
theorem addRefs (h : s.Inv strict) {f : ℕ} {k : Kfile} (hf : s.st.file f = some k)
    (hno : ∀ t, s.pc t ≠ .putDrop f) (d : ℤ) (hd : (busy s.pc f : ℤ) ≤ k.refs + d) :
    Inv strict { s with st := s.st.addRefs f d } := by
  have hst : s.st.addRefs f d = s.st.setFile f (some { k with refs := k.refs + d }) := by
    unfold Kst.addRefs
    rw [hf]
  have hback : ∀ f' k', s.st.file f' = some k' → f' ≠ f →
      (s.st.setFile f (some { k with refs := k.refs + d })).file f' = some k' := by
    intro f' k' hf' hne
    simpa only [Kst.setFile, Function.update_of_ne hne] using hf'
  rw [hst]
  refine ⟨h.st.unhold _ ?_, ?_, ?_, ?_⟩
  · intro k₁ hk₁ side p hdir
    rw [← Option.some.inj hk₁] at hdir
    exact ⟨k, hf, hdir⟩
  · intro t f' ht
    rcases eq_or_ne f' f with rfl | hne
    · exact ⟨_, Function.update_self ..⟩
    · obtain ⟨k', hf'⟩ := h.gap t f' ht
      exact ⟨k', hback f' k' hf' hne⟩
  · intro t f' ht
    have hne : f' ≠ f := by
      rintro rfl
      exact hno t ht
    obtain ⟨⟨k', hf', hk'⟩, hone⟩ := h.put t f' ht
    exact ⟨⟨k', hback f' k' hf' hne, hk'⟩, hone⟩
  · intro f' k' hf'
    rcases eq_or_ne f' f with rfl | hne
    · simp only [Kst.setFile, Function.update_self, Option.some.injEq] at hf'
      rw [← hf']
      exact hd
    · simp only [Kst.setFile, Function.update_of_ne hne] at hf'
      exact h.refs f' k' hf'

/-- A description that no call in the middle holds goes, whoever was closing it being done. -/
theorem ended (h : s.Inv strict) {f : ℕ} {st : Kst} (hst : st.Inv strict)
    (hfile : st.file = Function.update s.st.file f none) (hbusy : busy s.pc f = 0)
    (hno : ∀ t, s.pc t ≠ .putDrop f) : Inv strict { s with st := st } := by
  have hback : ∀ f', f' ≠ f → st.file f' = s.st.file f' := by
    intro f' hne
    rw [hfile, Function.update_of_ne hne]
  refine ⟨hst, ?_, ?_, ?_⟩
  · intro t f' ht
    have hne : f' ≠ f := by
      rintro rfl
      have : 0 < busy s.pc f' := busy_pos ht
      omega
    simpa only [hback f' hne] using h.gap t f' ht
  · intro t f' ht
    have hne : f' ≠ f := by
      rintro rfl
      exact hno t ht
    simpa only [hback f' hne] using h.put t f' ht
  · intro f' k' hf'
    rcases eq_or_ne f' f with rfl | hne
    · rw [hfile, Function.update_self] at hf'
      exact absurd hf' (by simp)
    · exact h.refs f' k' (hback f' hne ▸ hf')

theorem boot : (Sys.boot : Sys T).Inv strict := by
  refine ⟨⟨rfl, ?_, ?_, by simp [Sys.boot], by simp [Sys.boot], by simp [Sys.boot]⟩, ?_, ?_, ?_⟩
  · intro p
    exact ⟨⟨List.prefix_rfl, by simp [Sys.boot], by simp [Sys.boot], by simp [Sys.boot]⟩,
      by simp [Sys.boot]⟩
  · intro _ p
    simp [Refused, Sys.boot]
  · simp [Sys.boot, Pc.holds]
  · simp [Sys.boot]
  · simp [Sys.boot]

variable [DecidableEq T]

theorem busy_update_le (pc : T → Pc) (t : T) (p : Pc) (f : ℕ) :
    busy (Function.update pc t p) f ≤ busy pc f + if p.holds = some f then 1 else 0 := by
  unfold busy
  have hsub : (Finset.univ.filter fun t' => (Function.update pc t p t').holds = some f) ⊆
      (Finset.univ.filter fun t' => (pc t').holds = some f) ∪
        if p.holds = some f then {t} else ∅ := by
    intro t' ht'
    rcases eq_or_ne t' t with rfl | hne
    · simp only [Finset.mem_filter, Finset.mem_univ, Function.update_self, true_and] at ht'
      simp [ht']
    · simp only [Finset.mem_filter, Finset.mem_univ, Function.update_of_ne hne, true_and] at ht'
      simp [ht']
  refine (Finset.card_le_card hsub).trans ((Finset.card_union_le _ _).trans ?_)
  split_ifs <;> simp

/-- A task comes to the end of its call. -/
theorem gotoIdle (h : s.Inv strict) (t : T) : (s.goto t .idle).Inv strict := by
  have hpc : ∀ t' p, p ≠ .idle → (s.goto t .idle).pc t' = p → s.pc t' = p := by
    intro t' p hp ht'
    rcases eq_or_ne t' t with rfl | hne
    · simp only [goto, Function.update_self] at ht'
      exact absurd ht'.symm hp
    · simpa only [goto, Function.update_of_ne hne] using ht'
  refine ⟨h.st, ?_, ?_, ?_⟩
  · intro t' f ht'
    refine h.gap t' f ?_
    rcases eq_or_ne t' t with rfl | hne
    · simp [goto, Pc.holds] at ht'
    · simpa only [goto, Function.update_of_ne hne] using ht'
  · intro t' f ht'
    obtain ⟨hk, hone⟩ := h.put t' f (hpc t' _ (by simp) ht')
    exact ⟨hk, fun t'' ht'' => hone t'' (hpc t'' _ (by simp) ht'')⟩
  · intro f k hf
    have hle := busy_update_le s.pc t .idle f
    simp only [Pc.holds, reduceCtorEq, if_false, Nat.add_zero] at hle
    exact (Int.ofNat_le.mpr hle).trans (h.refs f k hf)

theorem startPut (h : s.Inv strict) {t : T} {f : ℕ} (hh : s.Held f) :
    (s.startPut t f).Inv strict := by
  have hno := h.not_put hh
  obtain ⟨k, hf, hlt⟩ := hh
  have hadd := h.addRefs hf hno (-1) (by omega)
  have hfile : (s.st.addRefs f (-1)).file f = some { k with refs := k.refs + -1 } := by
    simp [Kst.addRefs, hf, Kst.setFile]
  unfold Sys.startPut
  simp only [hfile]
  split_ifs with hpos htype
  · exact hadd
  · -- the last reference to an end: this task is alone with it
    have hbusy : busy s.pc f = 0 := by omega
    refine ⟨hadd.st, ?_, ?_, ?_⟩
    · intro t' f' ht'
      refine hadd.gap t' f' ?_
      rcases eq_or_ne t' t with rfl | hne
      · simp [goto, Pc.holds] at ht'
      · simpa only [goto, Function.update_of_ne hne] using ht'
    · intro t' f' ht'
      rcases eq_or_ne t' t with rfl | hne
      · simp only [goto, Function.update_self, Pc.putDrop.injEq] at ht'
        subst ht'
        refine ⟨⟨_, hfile, by simp only; omega⟩, fun t'' ht'' => ?_⟩
        by_contra hne
        simp only [goto, Function.update_of_ne hne] at ht''
        exact hno t'' ht''
      · simp only [goto, Function.update_of_ne hne] at ht'
        have hff : f' ≠ f := by
          rintro rfl
          exact hno t' ht'
        obtain ⟨hk, hone⟩ := hadd.put t' f' ht'
        refine ⟨hk, fun t'' ht'' => hone t'' ?_⟩
        rcases eq_or_ne t'' t with rfl | hne'
        · simp only [goto, Function.update_self, Pc.putDrop.injEq] at ht''
          exact absurd ht''.symm hff
        · simpa only [goto, Function.update_of_ne hne'] using ht''
    · intro f' k' hf'
      have hle := busy_update_le s.pc t (.putDrop f) f'
      simp only [Pc.holds, reduceCtorEq, if_false, Nat.add_zero] at hle
      exact (Int.ofNat_le.mpr hle).trans (hadd.refs f' k' hf')
  · refine hadd.ended (f := f) ?_ ?_ (by simp only; omega) hno
    · unfold Kst.kfreeFile
      rw [hfile]
      exact hadd.st.unhold none (by simp)
    · unfold Kst.kfreeFile
      rw [hfile]
      rfl

theorem kpipeWrite (h : s.Inv strict) {t : T} (ht : s.pc t = .idle) {f : ℕ} (hh : s.Held f)
    (data : List UInt8) : (s.start t (.kpipeWrite f data)).Inv strict := by
  obtain ⟨k, hf, hlt⟩ := hh
  have hfile := s.st.kpipeWrite_file f data
  have hst := h.ofRefs (h.st.kpipeWrite hf data) fun f' => by rw [hfile]
  simp only [Sys.start]
  cases hw : s.st.kpipeWrite f data with
  | mk rc st =>
    rw [hw] at hst hfile
    simp only at hst hfile
    cases rc with
    | ret r => exact hst
    | alloc p =>
      have hpc : ∀ t' f', Function.update s.pc t (.writeAlloc f p data) t' = .putDrop f' →
          s.pc t' = .putDrop f' := by
        intro t' f' ht'
        rcases eq_or_ne t' t with rfl | hne
        · simp at ht'
        · simpa only [Function.update_of_ne hne] using ht'
      refine ⟨hst.st, ?_, ?_, ?_⟩
      · intro t' f' ht'
        rcases eq_or_ne t' t with rfl | hne
        · simp only [goto, Function.update_self, Pc.holds, Option.some.injEq] at ht'
          subst ht'
          exact ⟨k, by simpa only [goto, hfile] using hf⟩
        · simp only [goto, Function.update_of_ne hne] at ht'
          exact hst.gap t' f' ht'
      · intro t' f' ht'
        obtain ⟨hk, hone⟩ := hst.put t' f' (hpc t' f' ht')
        exact ⟨hk, fun t'' ht'' => hone t'' (hpc t'' f' ht'')⟩
      · intro f' k' hf'
        have hle := busy_update_le s.pc t (.writeAlloc f p data) f'
        have hold := hst.refs f' k' hf'
        simp only [Pc.holds, Option.some.injEq] at hle
        simp only [goto] at hf' hold ⊢
        split_ifs at hle with hff
        · subst hff
          rw [hfile, hf] at hf'
          rw [← Option.some.inj hf']
          omega
        · omega

/-- A call of an idle task. -/
theorem start (h : s.Inv strict) {t : T} (ht : s.pc t = .idle) {call : Call}
    (hc : s.Allowed call) : (s.start t call).Inv strict := by
  cases call with
  | kfileNew type f =>
    cases f with
    | none => exact h
    | some f =>
      have hf := hc f rfl
      refine h.created (h.st.newFile hf (by simp)) fun f' => ?_
      rcases eq_or_ne f' f with rfl | hne
      · exact Or.inr ⟨hf, _, Function.update_self .., rfl⟩
      · exact Or.inl (Function.update_of_ne hne ..)
  | kfilePipe mem =>
    rcases mem with - | ⟨x, y, p⟩
    · exact h
    · obtain ⟨hx, hy, hxy, hp⟩ := hc x y p rfl
      refine h.created (h.st.makePipe hx hy hxy hp 0) fun f' => ?_
      simp only [Kst.makePair, Kst.setPipe, Kst.setFile, Bool.false_eq_true, if_false]
      rcases eq_or_ne f' y with rfl | hne
      · exact Or.inr ⟨hy, _, Function.update_self .., rfl⟩
      rcases eq_or_ne f' x with rfl | hne'
      · exact Or.inr ⟨hx, _, by rw [Function.update_of_ne hne, Function.update_self], rfl⟩
      · exact Or.inl (by rw [Function.update_of_ne hne, Function.update_of_ne hne'])
  | kfileSocketpair mem =>
    rcases mem with - | ⟨x, y, p, q⟩
    · exact h
    · obtain ⟨hx, hy, hxy, hp, hq, hpq⟩ := hc x y p q rfl
      refine h.created (h.st.makeSocketpair hx hy hxy hp hq hpq) fun f' => ?_
      simp only [Kst.makePair, Kst.setPipe, Kst.setFile, if_true]
      rcases eq_or_ne f' y with rfl | hne
      · exact Or.inr ⟨hy, _, Function.update_self .., rfl⟩
      rcases eq_or_ne f' x with rfl | hne'
      · exact Or.inr ⟨hx, _, by rw [Function.update_of_ne hne, Function.update_self], rfl⟩
      · exact Or.inl (by rw [Function.update_of_ne hne, Function.update_of_ne hne'])
  | kfileRef f =>
    have hno := h.not_put hc
    obtain ⟨k, hf, hlt⟩ := hc
    exact h.addRefs hf hno 1 (by omega)
  | kfilePut f => exact h.startPut hc
  | kpipeRead f n =>
    obtain ⟨k, hf, -⟩ := hc
    exact h.ofRefs (h.st.kpipeRead hf n) fun f' => by rw [s.st.kpipeRead_file]
  | kpipeWrite f data => exact h.kpipeWrite ht hc data
  | kpipeShutdown f how =>
    obtain ⟨k, hf, -⟩ := hc
    obtain ⟨hst, k', hfile, hk⟩ := h.st.kpipeShutdown hf how
    exact h.ofLets hst hf hfile hk

/-- One section of one task. -/
theorem step (h : s.Inv strict) (t : T) {call : Call} (ok : Bool) (hc : s.Allowed call)
    (hlate : strict → ¬ s.Late t) : (s.step t call ok).Inv strict := by
  unfold Sys.step
  cases hpc : s.pc t with
  | idle => exact h.start hpc hc
  | writeAlloc f p data =>
    obtain ⟨k, hf⟩ := h.gap t f (by rw [hpc]; rfl)
    have hst := h.st.writeGoOn hf data ok fun hs q hd hq hr =>
      hlate hs ⟨f, p, data, k, q, hpc, hf, hd, hq, hr⟩
    exact (h.ofRefs hst fun f' => by rw [s.st.writeGoOn_file]).gotoIdle t
  | putDrop f =>
    obtain ⟨⟨k, hf, hk⟩, hone⟩ := h.put t f hpc
    obtain ⟨hst, hfile⟩ := h.st.putLast hf
    have hbusy := h.refs f k hf
    -- the task leaves the description before that goes
    have hidle := h.gotoIdle t
    refine hidle.ended hst hfile ?_ ?_
    · have hle := hidle.refs f k hf
      omega
    · intro t' ht'
      rcases eq_or_ne t' t with rfl | hne
      · simp [goto] at ht'
      · simp only [goto, Function.update_of_ne hne] at ht'
        exact hne (hone t' ht')

end Inv

variable [DecidableEq T]

/-- Every state of every run. -/
theorem Reach.inv {P : Sys T → T → Prop} {strict : Prop} {s : Sys T} (h : Reach P s)
    (hP : strict → ∀ s t, P s t → ¬ s.Late t) : s.Inv strict := by
  induction h with
  | boot => exact Inv.boot
  | step h t call ok hc hp ih => exact ih.step t ok hc fun hs => hP hs _ _ hp

/-- **Pipes are queues.**  In every run in which no write comes back from allocating the ring after
the last reader has gone, nothing is touched that is not allocated, and each direction passes on
what it was given: in order, small writes whole, the end exactly when nothing waits and the writers
are gone, `EPIPE` once the readers are, and its memory freed once, when both counts are zero. -/
theorem Reach.pipes_are_queues {s : Sys T} (h : Reach (fun s t => ¬ s.Late t) s) :
    s.st.fault = false ∧ ∀ p, Faithful (s.st.log p) ∧ Refused (s.st.log p) ∧
      ∀ q, s.st.pipe p = some q → .freed ∉ s.st.log p ∧
        ∀ side, q.count side ≤ 0 ↔ .left side ∈ s.st.log p := by
  have hinv : s.Inv True := h.inv fun _ _ _ hp => hp
  refine ⟨hinv.st.fault, fun p => ⟨hinv.st.log p, hinv.st.refused trivial p, fun q hq => ?_⟩⟩
  have hok := hinv.st.pipe p q hq
  refine ⟨?_, hok.count_le⟩
  rw [← List.count_eq_zero, (hinv.st.log p).once, if_neg hok.held]

omit [Fintype T] [DecidableEq T] in
theorem not_late_of_idle {s : Sys T} {t : T} (h : s.pc t = .idle) : ¬ s.Late t := by
  rintro ⟨f, p, data, k, q, hpc, -⟩
  rw [h] at hpc
  exact absurd hpc (by simp)

omit [Fintype T] [DecidableEq T] in
theorem not_late_of_reader {s : Sys T} {t : T} {f p : ℕ} {data : List UInt8} {q : Kpipe}
    (h : s.pc t = .writeAlloc f p data) (hq : s.st.pipe p = some q)
    (hr : 0 < q.count .reading) : ¬ s.Late t := by
  rintro ⟨f', p', data', k, q', hpc, -, -, hq', hr'⟩
  rw [h] at hpc
  injection hpc with _ hp _
  rw [← hp, hq] at hq'
  rw [← Option.some.inj hq'] at hr'
  omega

/-- A pipe at 7 between the descriptions 1 and 2, and a first write of two bytes that has left the
lock to allocate the ring. -/
def firstWrite : Sys (Fin 2) :=
  ((boot : Sys (Fin 2)).step 0 (.kfilePipe (some (1, 2, 7))) true).step 0
    (.kpipeWrite 2 [104, 105]) true

theorem firstWrite_reach (P : Sys (Fin 2) → Fin 2 → Prop)
    (hP : ∀ s t, s.pc t = .idle → P s t) : Reach P firstWrite := by
  refine Reach.step (Reach.step Reach.boot 0 _ true ?_ (hP _ _ rfl)) 0 _ true ?_ (hP _ _ rfl)
  · intro x y p h
    simp only [Option.some.injEq, Prod.mk.injEq] at h
    exact ⟨rfl, rfl, by omega, rfl⟩
  · exact ⟨_, rfl, by decide⟩

/-- A call of nothing. -/
def noCall : Call := .kfileNew .file none

omit [DecidableEq T] in
theorem allowed_noCall (s : Sys T) : s.Allowed noCall := by
  intro x hx
  exact absurd hx (by simp)

theorem pipes_are_queues_firstWrite :
    let s := (firstWrite.step 0 noCall true).step 1 (.kpipeRead 1 1) true
    s.st.log 7 = [.write [104, 105] 2, .read 1 [104] 1] ∧ s.st.fault = false ∧
      Faithful (s.st.log 7) ∧ Refused (s.st.log 7) := by
  have hreach := firstWrite_reach (fun s t => ¬ s.Late t) fun s t => not_late_of_idle
  have hw := hreach.step 0 noCall true (allowed_noCall _)
    (not_late_of_reader (q := ⟨none, 0, 0, fun _ => 1⟩) rfl rfl (by decide))
  have hr := hw.step 1 (.kpipeRead 1 1) true ⟨_, rfl, by decide⟩ (not_late_of_idle rfl)
  have h := hr.pipes_are_queues
  exact ⟨by decide +kernel, h.1, (h.2 7).1, (h.2 7).2.1⟩

/-- The reader closes its end while the first write allocates the ring: the write is accepted. -/
theorem write_without_reader :
    ∃ s : Sys (Fin 2), Reach (fun _ _ => True) s ∧
      s.st.log 7 = [.left .reading, .write [104, 105] 2] ∧ ¬ Refused (s.st.log 7) := by
  have hreach := firstWrite_reach (fun _ _ => True) fun _ _ _ => trivial
  have hput := hreach.step 1 (.kfilePut 1) true ⟨_, rfl, by decide⟩ trivial
  have hdrop := hput.step 1 noCall true (allowed_noCall _) trivial
  have hw := hdrop.step 0 noCall true (allowed_noCall _) trivial
  have hlog : ((((firstWrite.step 1 (.kfilePut 1) true).step 1 noCall true).step 0
      noCall true).st.log 7) = [.left .reading, .write [104, 105] 2] := by decide +kernel
  refine ⟨_, hw, hlog, ?_⟩
  rw [hlog]
  intro h
  have := h [.left .reading] [104, 105] 2 [] rfl (by simp)
  exact absurd this (by decide)

end Sys

end BananaOS.Pipes
