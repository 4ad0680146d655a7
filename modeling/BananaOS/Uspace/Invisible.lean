import BananaOS.Uspace.Homes
import BananaOS.Uspace.Paging
import BananaOS.Uspace.RangeMap

/-!
# Paging out is invisible

The pages of the apps under any interleaving of faults, unmappings, `page_out`, write-back and
read-in.  `St.Inv` joins what the swap keeps (`Sys.Sound`), where the pages are (`Pages`) and
what `page_out` knows of the pages in its batch (`Po.Fits`): each of them still has its pending
entry, or the entry was cancelled because the page was touched or unmapped.

A step of anyone but `page_out` leaves this alone (`Undisturbed`).  The main result is
`Reach.pageOut_invisible`.
-/

set_option linter.unusedSectionVars false

namespace BananaOS.Uspace

open Lib Lib.Range Zswap Function

/-! ## Page-table entries -/

namespace Pte

/-- Where an entry says the page is. -/
def slot (e : Pte) : Slot :=
  if e.present ∨ e.kept then .frame e.addr else if e.zsw then .entry e.addr else .none

/-- No device page, no shared one and no inaccessible one; and a page in the swap has no other
flag. -/
structure Plain (e : Pte) : Prop where
  dev : e.dev = false
  cow : e.cow = false
  kept : e.kept = false
  zero : e.slot = .none → e = .zero
  out : ∀ i, e.slot = .entry i → e = .out i

@[simp] theorem slot_zero : zero.slot = .none := rfl

@[simp] theorem slot_out (i : ℕ) : (out i).slot = .entry i := rfl

@[simp] theorem slot_page (f prot : ℕ) : (page f prot).slot = .frame f := by
  unfold page
  split_ifs <;> rfl

theorem plain_zero : zero.Plain := ⟨rfl, rfl, rfl, fun _ => rfl, fun i hi => by cases hi⟩

theorem plain_out (i : ℕ) : (out i).Plain := by
  refine ⟨rfl, rfl, rfl, (fun hi => by cases hi), fun j hj => ?_⟩
  cases hj
  rfl

theorem page_eq (f : ℕ) {prot : ℕ} (h : prot &&& uvmRWX ≠ 0) :
    page f prot = ⟨f, true, decide (prot &&& uvmWrite ≠ 0), true, false, false, false, false, false⟩ :=
  if_neg h

theorem plain_page (f : ℕ) {prot : ℕ} (h : prot &&& uvmRWX ≠ 0) : (page f prot).Plain := by
  rw [page_eq f h]
  exact ⟨rfl, rfl, rfl, (fun hi => by cases hi), fun i hi => by cases hi⟩

theorem slot_accessed (e : Pte) (b : Bool) : ({ e with accessed := b } : Pte).slot = e.slot := rfl

theorem slot_of_present {e : Pte} (h : e.present = true) : e.slot = .frame e.addr :=
  if_pos (Or.inl h)

theorem Plain.accessed {e : Pte} (h : e.Plain) (hp : e.present = true) (b : Bool) :
    ({ e with accessed := b } : Pte).Plain := by
  refine ⟨h.dev, h.cow, h.kept, fun hi => ?_, fun i hi => ?_⟩ <;>
  · rw [slot_accessed, slot_of_present hp] at hi
    cases hi

end Pte

/-! ## `page_out` -/

variable {A T : Type*}

/-- A page of the batch still has its pending entry, or the entry was cancelled. -/
def OutPg.Waits (z : Zs) (pte : A × ℕ → Pte) (a : A) (k : OutPg) : Prop :=
  (z.ent k.idx).state = .cancelled ∨
    (z.ent k.idx).state = .pending ∧ (z.ent k.idx).frame = k.frame ∧ pte (a, k.va) = .out k.idx

theorem OutPg.Waits.ne_free {z : Zs} {pte : A × ℕ → Pte} {a : A} {k : OutPg}
    (h : k.Waits z pte a) : (z.ent k.idx).state ≠ .free := by
  rcases h with h | h
  · rw [h]
    decide
  · rw [h.1]
    decide

theorem OutPg.Waits.pending_of_keeps {z z' : Zs} {pte : A × ℕ → Pte} {a : A} {k : OutPg}
    (h : k.Waits z pte a) (hk : z.Keeps k.idx z') (hp : (z'.ent k.idx).state = .pending) :
    (z.ent k.idx).state = .pending := by
  rcases h with hc | hw
  · cases (hk.cancelled hc).symm.trans hp
  · exact hw.1

/-- The pages of the batch wait, each with an entry of its own. -/
structure Batch (z : Zs) (pte : A × ℕ → Pte) (a : A) (b : List OutPg) : Prop where
  waits : ∀ k ∈ b, k.Waits z pte a
  nodup : (b.map OutPg.idx).Nodup

theorem Batch.keeps {z z' : Zs} {pte : A × ℕ → Pte} {a : A} {b : List OutPg} (h : Batch z pte a b)
    (hk : ∀ k ∈ b, z.Keeps k.idx z') : Batch z' pte a b := by
  refine ⟨fun k hkb => ?_, h.nodup⟩
  have hkeep := hk k hkb
  rcases h.waits k hkb with hc | ⟨hp, hf, hpte⟩
  · exact Or.inl (hkeep.cancelled hc)
  · obtain ⟨hp', hf'⟩ := hkeep.pending hp
    exact Or.inr ⟨hp', hf'.trans hf, hpte⟩

/-- The pages of the batch behind `k` wait, when only the entry of `k` changes. -/
theorem Batch.tail {z z' : Zs} {pte : A × ℕ → Pte} {a : A} {k : OutPg} {b : List OutPg}
    (h : Batch z pte a (k :: b)) (honly : Zs.Only k.idx z z') : Batch z' pte a b := by
  obtain ⟨hnot, hnd⟩ := List.nodup_cons.mp h.nodup
  have htail : Batch z pte a b := ⟨fun k' hk' => h.waits k' (List.mem_cons_of_mem k hk'), hnd⟩
  refine htail.keeps fun k' hk' => honly.keeps fun heq => hnot ?_
  rw [← heq]
  exact List.mem_map_of_mem hk'

/-- The pages of the batch wait, when the entry of another page changes. -/
theorem Batch.setPte [DecidableEq A] {z : Zs} {pte : A × ℕ → Pte} {a : A} {b : List OutPg}
    {q : A × ℕ} {e : Pte} (h : Batch z pte a b)
    (hne : ∀ k ∈ b, (a, k.va) = q → pte (a, k.va) ≠ .out k.idx) :
    Batch z (update pte q e) a b := by
  refine ⟨fun k hk => ?_, h.nodup⟩
  rcases h.waits k hk with hc | ⟨hp, hf, hpte⟩
  · exact Or.inl hc
  · exact Or.inr ⟨hp, hf, (update_of_ne (fun hq => hne k hk hq hpte) _ pte).trans hpte⟩

/-- The thread is in `zswap_disk_put`, or it is done. -/
def InPut : Pc → Prop
  | .idle | .putIo .. | .putEnd .. | .putDone .. => True
  | _ => False

namespace Po

/-- What `page_out` knows where it is. -/
def Fits (z : Zs) (mem : ℕ → List UInt8) (pte : A × ℕ → Pte) (pc : T → Pc) : Po A T → Prop
  | .idle => True
  | .scan t a _ b => pc t = .idle ∧ Batch z pte a b
  | .new t a _ b va frame => (pc t = .newTop frame ∨ pc t = .newGrow frame) ∧ Batch z pte a b ∧
      (pte (a, va)).slot = .frame frame
  | .pack t a b => pc t = .idle ∧ Batch z pte a b
  | .full t a k b => pc t = .idle ∧ Batch z pte a (k :: b)
  | .store t a k b keep data len => Batch z pte a (k :: b) ∧
      (keep = true → pc t = .idle ∧ len ≤ 4096 ∧ (∀ d, data = some d → d.length = len) ∧
        ((z.ent k.idx).state = .pending →
          Decodes (data.getD []) (if data.isSome then len else 0) (mem k.frame))) ∧
      (keep = false → InPut (pc t) ∧
        ((z.ent k.idx).state = .pending → (pc t).Puts z (mem k.frame)))
  | .give t a b _ => (pc t = .idle ∨ ∃ slot len, pc t = .putDone slot len) ∧ Batch z pte a b

/-- The frame that `page_out` is about to free. -/
def given : Po A T → Option ℕ
  | .give _ _ _ f => f
  | _ => none

end Po

/-! ## The invariant -/

theorem AppRanges.has_page {l : List Uvma} (h : AppRanges l) {v : Uvma} (hv : v ∈ l) {addr : ℕ}
    (ha : v.Has addr) : v.Has (addr / 4096 * 4096) := by
  obtain ⟨h1, h2⟩ := h.aligned v hv
  obtain ⟨h3, h4⟩ := ha
  unfold Range.Has
  omega

theorem AppRanges.tag_eq {l : List Uvma} (h : AppRanges l) {v w : Uvma} (hv : v ∈ l) (hw : w ∈ l) {addr : ℕ}
    (ha : v.Has addr) (ha' : w.Has addr) : v.tag = w.tag := by
  have h1 := (h.sorted.lookup_eq_some_iff (a := addr) (b := v.tag)).mpr ⟨v, hv, ha, rfl⟩
  have h2 := (h.sorted.lookup_eq_some_iff (a := addr) (b := w.tag)).mpr ⟨w, hw, ha', rfl⟩
  exact Option.some_inj.mp (h1.symm.trans h2)

namespace St

/-- The page is in a range of its app. -/
def Cov (s : St A T) (q : A × ℕ) : Prop := ∃ v ∈ (s.us q.1).vma, v.Has (q.2 * 4096)

/-- Where each page is. -/
def slots (s : St A T) (q : A × ℕ) : Slot := (s.pte q).slot

/-- The frames that each unmapping is about to free. -/
def pgs (s : St A T) (t : T) : List ℕ := (s.unmaps t).elim [] Unmap.pg

variable [Fintype T] [DecidableEq T]

/-- The swap, the pages and `page_out` fit together; what is being unmapped is out of the ranges. -/
structure Inv (s : St A T) (last : A × ℕ → List UInt8) : Prop where
  sound : s.sys.Sound
  ranges : ∀ a, AppRanges (s.us a).vma
  used : ∀ q, s.slots q ≠ .none → ∀ v ∈ (s.us q.1).vma, v.Has (q.2 * 4096) → v.tag ≠ 0
  pages : Pages s.sys.z s.mem s.refs s.slots s.pgs s.po.given last s.Cov
  plain : ∀ q, (s.pte q).Plain
  gone : ∀ t u, s.unmaps t = some u → ∀ p, u.cur ≤ p → p < u.stop → ¬ s.Cov (u.app, p)
  po : s.po.Fits s.sys.z s.mem s.pte s.sys.pc

variable {s s' : St A T} {last last' : A × ℕ → List UInt8}

/-! ## Steps of others -/

variable [DecidableEq A]

/-- What a step of anyone but `page_out` does to what `page_out` is about. -/
structure Undisturbed (s s' : St A T) : Prop where
  po : s'.po = s.po
  pc : ∀ t, s.po.thread = some t → s'.sys.pc t = s.sys.pc t
  ent : ∀ j, (s.sys.z.ent j).state = .pending ∨ (s.sys.z.ent j).state = .cancelled →
    s.sys.z.Keeps j s'.sys.z ∨ (s'.sys.z.ent j).state = .cancelled
  pte : ∀ q j, s.pte q = .out j → (s.sys.z.ent j).state = .pending →
    s'.pte q = .out j ∨ (s'.sys.z.ent j).state = .cancelled
  mem : ∀ q j, s.pte q = .out j → (s.sys.z.ent j).state = .pending →
    s'.mem (s.sys.z.ent j).frame = s.mem (s.sys.z.ent j).frame
  puts : ∀ t b, s.po.thread = some t → (s.sys.pc t).Puts s.sys.z b →
    (s.sys.pc t).Puts s'.sys.z b
  new : ∀ a va f, s.locked a = true → (s.pte (a, va)).slot = .frame f →
    (s'.pte (a, va)).slot = .frame f

namespace Undisturbed

variable {a : A} {k : OutPg} {b : List OutPg}

theorem waits (h : Undisturbed s s') (hk : k.Waits s.sys.z s.pte a) :
    k.Waits s'.sys.z s'.pte a := by
  rcases hk with hc | ⟨hp, hf, hpte⟩
  · rcases h.ent k.idx (Or.inr hc) with hkeep | hc'
    · exact Or.inl (hkeep.cancelled hc)
    · exact Or.inl hc'
  · rcases h.ent k.idx (Or.inl hp) with hkeep | hc'
    · rcases h.pte _ _ hpte hp with hpte' | hc'
      · obtain ⟨hp', hf'⟩ := hkeep.pending hp
        exact Or.inr ⟨hp', hf'.trans hf, hpte'⟩
      · exact Or.inl hc'
    · exact Or.inl hc'

theorem batch (h : Undisturbed s s') (hb : Batch s.sys.z s.pte a b) :
    Batch s'.sys.z s'.pte a b :=
  ⟨fun k hk => h.waits (hb.waits k hk), hb.nodup⟩

/-- A page of the batch that is pending was so before, and its frame has the same bytes. -/
theorem pending (h : Undisturbed s s') (hk : k.Waits s.sys.z s.pte a)
    (hp : (s'.sys.z.ent k.idx).state = .pending) :
    (s.sys.z.ent k.idx).state = .pending ∧ s'.mem k.frame = s.mem k.frame := by
  rcases hk with hc | ⟨hp', hf, hpte⟩
  · exfalso
    rcases h.ent k.idx (Or.inr hc) with hkeep | hc'
    · cases (hkeep.cancelled hc).symm.trans hp
    · cases hc'.symm.trans hp
  · have := h.mem _ _ hpte hp'
    rw [hf] at this
    exact ⟨hp', this⟩

theorem fits (h : Undisturbed s s') (hf : s.po.Fits s.sys.z s.mem s.pte s.sys.pc) :
    s'.po.Fits s'.sys.z s'.mem s'.pte s'.sys.pc := by
  have hpc := h.pc
  have hputs := h.puts
  have hnew := h.new
  rw [h.po]
  revert hf hpc hputs hnew
  unfold locked
  cases s.po with
  | idle => exact fun _ _ _ _ => trivial
  | scan t a force b =>
    intro hf hpc _ _
    exact ⟨(hpc t rfl).trans hf.1, h.batch hf.2⟩
  | new t a force b va frame =>
    intro hf hpc _ hnew
    refine ⟨?_, h.batch hf.2.1, hnew a va frame (decide_eq_true rfl) hf.2.2⟩
    rw [hpc t rfl]
    exact hf.1
  | pack t a b =>
    intro hf hpc _ _
    exact ⟨(hpc t rfl).trans hf.1, h.batch hf.2⟩
  | full t a k b =>
    intro hf hpc _ _
    exact ⟨(hpc t rfl).trans hf.1, h.batch hf.2⟩
  | store t a k b keep data len =>
    rintro ⟨hb, h1, h2⟩ hpc hputs _
    have hk := hb.waits k List.mem_cons_self
    refine ⟨h.batch hb, fun hkeep => ?_, fun hkeep => ?_⟩
    · obtain ⟨h3, h4, h5, h6⟩ := h1 hkeep
      refine ⟨(hpc t rfl).trans h3, h4, h5, fun hp => ?_⟩
      obtain ⟨hp', hm⟩ := h.pending hk hp
      rw [hm]
      exact h6 hp'
    · obtain ⟨h3, h4⟩ := h2 hkeep
      rw [hpc t rfl]
      refine ⟨h3, fun hp => ?_⟩
      obtain ⟨hp', hm⟩ := h.pending hk hp
      rw [hm]
      exact hputs t _ rfl (h4 hp')
  | give t a b frame =>
    intro hf hpc _ _
    refine ⟨?_, h.batch hf.2⟩
    rw [hpc t rfl]
    exact hf.1

/-- Nothing that `page_out` looks at changes. -/
theorem of_same (hpo : s'.po = s.po) (hsys : s'.sys = s.sys) (hpte : s'.pte = s.pte)
    (hmem : s'.mem = s.mem) : Undisturbed s s' := by
  refine ⟨hpo, fun _ _ => by rw [hsys], fun j _ => Or.inl ?_, fun _ _ h _ => Or.inl ?_,
    fun _ _ _ _ => by rw [hmem], fun _ _ _ h => by rwa [hsys], fun _ _ _ _ h => by rwa [hpte]⟩
  · rw [hsys]
    exact .of_body (fun _ => rfl) fun _ => rfl
  · rwa [hpte]

end Undisturbed

namespace Inv

variable {q : A × ℕ} {i : ℕ} {z' : Zs} {e : Pte}

theorem entry_state (h : s.Inv last) (hq : s.slots q = .entry i) :
    (s.sys.z.ent i).state = .pending ∨
      ∃ b, s.sys.z.Holds i b ∧ b.length = 4096 ∧ (s.Cov q → b = last q) := by
  obtain ⟨b, hb, hl⟩ := h.pages.home q
  rw [hq] at hb
  rcases hb with hb | hb
  · exact Or.inl hb.1
  · exact Or.inr ⟨b, hb, hl⟩

theorem entry_ne_free (h : s.Inv last) (hq : s.slots q = .entry i) :
    (s.sys.z.ent i).state ≠ .free := by
  rcases h.entry_state hq with hp | ⟨b, hb, -⟩
  · rw [hp]
    decide
  · exact hb.ne_free

theorem has_entry (h : s.Inv last) (hq : s.slots q = .entry i) : s.sys.z.Has i :=
  h.sound.inv.tables.has_of_ne_free (h.entry_ne_free hq)

theorem slot_of_out (h : s.Inv last) (hq : s.slots q = .entry i) : s.pte q = .out i :=
  (h.plain q).out i hq

theorem others (h : s.Inv last) (hent : ∀ j, s.slots q ≠ .entry j → s.sys.z.Keeps j z') (q' : A × ℕ)
    (hne : q' ≠ q) (j : ℕ) (hj : s.slots q' = .entry j) : s.sys.z.Keeps j z' :=
  hent j fun hj' => hne (h.pages.alone q' q j hj hj')

/-- One page moves, by a step that holds `vm_lock`: a page of the batch that it was is cancelled,
and only frames that were free are written. -/
theorem undisturbed (h : s.Inv last) (hpo : s'.po = s.po) (hpc : s'.sys.pc = s.sys.pc)
    (hpte : s'.pte = update s.pte q e) (hlock : s.locked q.1 = false)
    (hent : ∀ j, s.slots q ≠ .entry j → s.sys.z.Keeps j s'.sys.z)
    (hq : ∀ j, s.slots q = .entry j → (s.sys.z.ent j).state = .pending →
      (s'.sys.z.ent j).state = .cancelled)
    (hdisk : s'.sys.z.disk = s.sys.z.disk) (hmem : ∀ f, s.refs f ≠ 0 → s'.mem f = s.mem f) :
    Undisturbed s s' := by
  refine ⟨hpo, fun _ _ => by rw [hpc], fun j hj => ?_, fun q' j hj hp => ?_, fun q' j hj hp => ?_,
    fun t b _ hb => hb.congr fun _ _ _ => Zs.diskRead_congr hdisk .., fun a va f hl hf => ?_⟩
  · by_cases hslot : s.slots q = .entry j
    · rcases hj with hp | hc
      · exact Or.inr (hq j hslot hp)
      · exfalso
        rcases h.entry_state hslot with hp | ⟨b, hb, -⟩
        · cases hp.symm.trans hc
        · rcases hb with hb | hb <;> rw [hc] at hb <;> exact Bool.noConfusion hb.1
    · exact Or.inl (hent j hslot)
  · rw [hpte]
    rcases eq_or_ne q' q with rfl | hne
    · refine Or.inr (hq j ?_ hp)
      rw [slots, hj, Pte.slot_out]
    · rw [update_of_ne hne]
      exact Or.inl hj
  · refine hmem _ (h.pages.refs_ne (q := q') ?_)
    rw [slots, hj, Pte.slot_out, Slot.frames_pending hp]
    exact Finset.mem_singleton_self _
  · rw [hpte, update_of_ne]
    · exact hf
    · rintro rfl
      rw [hl] at hlock
      exact Bool.noConfusion hlock

/-- The invariant after a step that leaves the ranges and `page_out` alone. -/
theorem other (h : s.Inv last) (hsound : s'.sys.Sound) (hus : s'.us = s.us)
    (hpages : Pages s'.sys.z s'.mem s'.refs s'.slots s'.pgs s.po.given last' s.Cov)
    (hplain : ∀ q, (s'.pte q).Plain)
    (hused : ∀ q, s'.slots q ≠ .none → s.slots q ≠ .none ∨
      ∀ v ∈ (s.us q.1).vma, v.Has (q.2 * 4096) → v.tag ≠ 0)
    (hgone : ∀ t u, s'.unmaps t = some u → ∀ p, u.cur ≤ p → p < u.stop → ¬ s.Cov (u.app, p))
    (hu : Undisturbed s s') : s'.Inv last' := by
  have hcov : s'.Cov = s.Cov := by
    unfold Cov
    rw [hus]
  refine ⟨hsound, fun a => by rw [hus]; exact h.ranges a, fun q hq => ?_, ?_, hplain, ?_,
    hu.fits h.po⟩
  · rw [hus]
    rcases hused q hq with hq' | hq'
    · exact h.used q hq'
    · exact hq'
  · rw [hu.po, hcov]
    exact hpages
  · rw [hcov]
    exact hgone

theorem slots_update (s : St A T) (q : A × ℕ) (e : Pte) :
    (fun q' => (update s.pte q e q').slot) = update s.slots q e.slot := by
  ext1 q'
  rcases eq_or_ne q' q with rfl | hne
  · rw [update_self, update_self]
  · rw [update_of_ne hne, update_of_ne hne]
    rfl

theorem plain_update (h : s.Inv last) (he : e.Plain) (q' : A × ℕ) :
    (update s.pte q e q').Plain := by
  rcases eq_or_ne q' q with rfl | hne
  · rwa [update_self]
  · rw [update_of_ne hne]
    exact h.plain q'

/-- A page that moves is in no range without protection, if it was in none. -/
theorem used_update (hcov : ∀ v ∈ (s.us q.1).vma, v.Has (q.2 * 4096) → v.tag ≠ 0)
    (q' : A × ℕ) (hq' : (update s.pte q e q').slot ≠ .none) :
    s.slots q' ≠ .none ∨ ∀ v ∈ (s.us q'.1).vma, v.Has (q'.2 * 4096) → v.tag ≠ 0 := by
  rcases eq_or_ne q' q with rfl | hne
  · exact Or.inr hcov
  · rw [update_of_ne hne] at hq'
    exact Or.inl hq'

theorem ne_of_out {q' : A × ℕ} (hp : (s.pte q).present = true) (hj : s.pte q' = .out i) :
    q' ≠ q := by
  rintro rfl
  rw [hj] at hp
  exact Bool.noConfusion hp

theorem access (h : s.Inv last) (hp : (s.pte q).present = true) (acc : Bool) :
    (s.setPte q { s.pte q with accessed := acc }).Inv last := by
  have hslots : (s.setPte q { s.pte q with accessed := acc }).slots = s.slots :=
    (slots_update s q _).trans (update_eq_self q s.slots)
  refine h.other h.sound rfl ?_ (h.plain_update ((h.plain q).accessed hp acc))
    (fun q' hq' => Or.inl ?_) h.gone ?_
  · rw [hslots]
    exact h.pages
  · rwa [hslots] at hq'
  · refine ⟨rfl, fun _ _ => rfl, fun j _ => Or.inl ?_, fun q' j hj _ => Or.inl ?_, fun _ _ _ _ => rfl,
      fun _ _ _ hb => hb, fun a va f _ hf => ?_⟩
    · exact .of_body (fun _ => rfl) fun _ => rfl
    · exact (update_of_ne (ne_of_out hp hj) _ s.pte).trans hj
    · exact (congrFun hslots (a, va)).trans hf

/-- An app stores a byte. -/
theorem store (h : s.Inv last) (hp : (s.pte q).present = true) (off : ℕ) (x : UInt8) :
    ((s.setMem (s.pte q).addr ((s.mem (s.pte q).addr).set off x)).setPte q
      { s.pte q with accessed := true }).Inv (update last q ((last q).set off x)) := by
  have hslots : (fun q' => (update s.pte q { s.pte q with accessed := true } q').slot) = s.slots :=
    (slots_update s q _).trans (update_eq_self q s.slots)
  have hq : s.slots q = .frame (s.pte q).addr := Pte.slot_of_present hp
  refine h.other h.sound rfl ?_ (h.plain_update ((h.plain q).accessed hp true))
    (fun q' hq' => Or.inl ((congrFun hslots q').symm.trans_ne hq')) h.gone ?_
  · have := h.pages.write hq (b := (s.mem (s.pte q).addr).set off x)
      (by rw [List.length_set, h.pages.memLen]) (c := (last q).set off x) fun hc => ?_
    · rw [← hslots] at this
      exact this
    · obtain ⟨b, hb, hl⟩ := h.pages.home q
      rw [hq] at hb
      have hb : s.mem (s.pte q).addr = b := hb
      rw [hb, hl.2 hc]
  · refine ⟨rfl, fun _ _ => rfl, fun j _ => Or.inl ?_, fun q' j hj _ => Or.inl ?_,
      fun q' j hj hpend => ?_, fun _ _ _ hb => hb, fun a va f _ hf => ?_⟩
    · exact .of_body (fun _ => rfl) fun _ => rfl
    · exact (update_of_ne (ne_of_out hp hj) _ s.pte).trans hj
    · -- the frame of a pending page is not the one written: that one is `q`'s
      refine update_of_ne (fun heq => ?_) ..
      refine ne_of_out hp hj (h.pages.page_eq (f := (s.pte q).addr) ?_ ?_)
      · rw [slots, hj, Pte.slot_out, Slot.frames_pending hpend, ← heq]
        exact Finset.mem_singleton_self _
      · rw [hq]
        exact Finset.mem_singleton_self _
    · exact (congrFun hslots (a, va)).trans hf

/-! ## Faults -/

/-- A page that is in no frame gets one, with its bytes. -/
theorem bring (h : s.Inv last) {f : ℕ} {b : List UInt8} {prot : ℕ} (hprot : prot &&& uvmRWX ≠ 0)
    (hcov : ∀ v ∈ (s.us q.1).vma, v.Has (q.2 * 4096) → v.tag ≠ 0)
    (hsound : ({ s.sys with z := z' } : Sys T).Sound) (hlock : s.locked q.1 = false)
    (hent : ∀ j, s.slots q ≠ .entry j → s.sys.z.Keeps j z') (hdisk : z'.disk = s.sys.z.disk)
    (hfr : (s.slots q).frames s.sys.z = ∅) (hf : s.refs f = 0) (hb : b.length = 4096)
    (hlast : s.Cov q → b = last q) :
    ((((s.setZ z').take f).setMem f b).setPte q (.page f prot)).Inv last := by
  refine h.other hsound rfl ?_ (h.plain_update (Pte.plain_page f hprot)) (used_update hcov) h.gone
    (h.undisturbed rfl rfl rfl hlock hent (fun j hj hp => ?_) hdisk fun f' hf' => ?_)
  · have := h.pages.bring (h.others hent) hfr hf hb hlast
    rw [← Pte.slot_page f prot, ← slots_update] at this
    exact this
  · rw [hj, Slot.frames_pending hp] at hfr
    exact absurd hfr (Finset.singleton_ne_empty _)
  · refine update_of_ne ?_ ..
    rintro rfl
    exact hf' hf

/-- `uvm_fault` on a page that is compressed, or being compressed: the page is put back, or
brought back, or it is on the disk, or there is no memory. -/
theorem faultOut (h : s.Inv last) {t : T} (hpc : s.sys.pc t = .idle) (hlock : s.locked q.1 = false)
    (hq : s.slots q = .entry i) {prot : ℕ} (hprot : prot &&& uvmRWX ≠ 0) (od : Bool)
    (pg : Option ℕ) :
    (s.faultOut q prot od pg).2.Inv last ∧
      ((s.faultOut q prot od pg).1 = .ok ∧
          (∃ f, (s.faultOut q prot od pg).2.pte q = .page f prot) ∨
        s.faultOut q prot od pg = (if od then .onDisk i else .no, s) ∧
          (s.sys.z.ent i).state.onDisk = true ∨
        s.faultOut q prot od pg = (noMem od, s) ∧ s.upageAlloc pg = none) := by
  have hout := h.slot_of_out hq
  have haddr : (s.pte q).addr = i := by rw [hout]; rfl
  have hhas := h.has_entry hq
  have hcov := h.used q (by rw [hq]; exact Slot.noConfusion)
  have hent : ∀ {z' : Zs}, Zs.Only i s.sys.z z' → ∀ j, s.slots q ≠ .entry j →
      s.sys.z.Keeps j z' := by
    intro z' honly j hj
    refine honly.keeps ?_
    rintro rfl
    exact hj hq
  unfold St.faultOut
  simp only [haddr]
  rcases h.entry_state hq with hp | ⟨b, hb, hlen, hl⟩
  · rw [if_pos ⟨hhas, hp⟩]
    refine ⟨?_, Or.inl ⟨rfl, _, update_self ..⟩⟩
    have honly : Zs.Only i s.sys.z (s.sys.z.cancel i) := .cancel _
    have hcanc : ((s.sys.z.cancel i).ent i).state = .cancelled := by simp [Zs.cancel, Zs.modify]
    refine h.other (h.sound.call (t := t) hpc (c := .cancel i) ⟨hhas, hp⟩) rfl ?_
      (h.plain_update (Pte.plain_page _ hprot)) (used_update hcov) h.gone
      (h.undisturbed rfl rfl rfl hlock (hent honly) (fun j hj _ => ?_) honly.disk fun _ _ => rfl)
    · have := h.pages.putBack (h.others (hent honly)) hq hp
      rw [← Pte.slot_page _ prot, ← slots_update] at this
      exact this
    · obtain rfl : i = j := by
        rw [hq] at hj
        cases hj
        rfl
      exact hcanc
  · have hnp := Slot.not_pending_of_holds hb
    have hnc : (s.sys.z.ent i).state ≠ .cancelled := by
      intro hc
      rcases hb with hb | hb <;> rw [hc] at hb <;> exact Bool.noConfusion hb.1
    rw [if_neg fun hc => hnp hc.2, if_pos ⟨hhas, hb.ne_free, hnc⟩]
    cases hpg : s.upageAlloc pg with
    | none => exact ⟨h, Or.inr (Or.inr ⟨rfl, rfl⟩)⟩
    | some f =>
      have hf : s.refs f = 0 := of_decide_eq_true (Option.filter_eq_some_iff.mp hpg).2
      have honly : Zs.Only i s.sys.z (s.sys.z.zswapTake i (s.mem f)).2 := .zswapTake ..
      have hsound := h.sound.call (t := t) hpc (c := .zswapTake i (s.mem f)) trivial
      rcases Zs.zswapTake_spec hb hhas (h.pages.memLen f) with ⟨htake, -⟩ | ⟨htake, hd⟩
      · obtain ⟨z', hz'⟩ : ∃ z', s.sys.z.zswapTake i (s.mem f) = (.page b, z') :=
          ⟨_, Prod.ext htake rfl⟩
        rw [Sys.start, hz'] at hsound
        rw [hz'] at honly
        dsimp only
        rw [hz']
        refine ⟨h.bring hprot hcov hsound hlock (hent honly) honly.disk ?_ hf hlen hl,
          Or.inl ⟨rfl, f, update_self ..⟩⟩
        rw [hq, Slot.frames_holds hb]
      · dsimp only
        rw [htake]
        exact ⟨h, Or.inr (Or.inl ⟨rfl, hd⟩)⟩

/-- The protection that `uvm_fault` finds is that of the page. -/
theorem protAt_spec (h : s.Inv last) {a : A} {addr : ℕ} (hprot : s.protAt a addr 0 ≠ 0) :
    s.protAt a addr 0 &&& uvmRWX = s.protAt a addr 0 ∧
      ∀ v ∈ (s.us a).vma, v.Has (addr / 4096 * 4096) → v.tag ≠ 0 := by
  unfold protAt at hprot ⊢
  cases hr : rangeAt (s.us a) addr with
  | none =>
    rw [hr] at hprot
    exact absurd rfl hprot
  | some w =>
    rw [hr] at hprot
    obtain ⟨hw, ha⟩ := rangeAt_has hr
    refine ⟨?_, fun v hv hva => ?_⟩
    · exact (h.ranges a).tag w hw
    · rw [(h.ranges a).tag_eq hv hw hva ((h.ranges a).has_page hw ha)]
      exact hprot

/-- The protection that `page_out` puts a page back with. -/
theorem protAt_used (h : s.Inv last) {a : A} {va : ℕ} (hq : s.slots (a, va) ≠ .none) :
    s.protAt a (va * 4096) uvmRW &&& uvmRWX ≠ 0 := by
  unfold protAt
  cases hr : rangeAt (s.us a) (va * 4096) with
  | none => decide
  | some w =>
    obtain ⟨hw, ha⟩ := rangeAt_has hr
    change w.tag &&& uvmRWX ≠ 0
    rw [(h.ranges a).tag w hw]
    exact h.used (a, va) hq w hw ha

theorem slot_none (h : s.Inv last) (hp : (s.pte q).present = false) (hz : (s.pte q).zsw = false) :
    s.slots q = .none := by
  unfold slots Pte.slot
  rw [if_neg (by simp [hp, (h.plain q).kept]), if_neg (by simp [hz])]

theorem slot_entry (h : s.Inv last) (hp : (s.pte q).present = false) (hz : (s.pte q).zsw = true) :
    s.slots q = .entry (s.pte q).addr := by
  unfold slots Pte.slot
  rw [if_neg (by simp [hp, (h.plain q).kept]), if_pos hz]

/-- What `uvm_fault` may answer when the ranges allow the access and there is memory for the page
table: the page is in the tables; or it is on the disk; or there is no frame for it; or the
charge is refused. -/
def Answers (s : St A T) (a : A) (addr : ℕ) (od charged : Bool) (pg : Option ℕ)
    (r : FaultRc × St A T) : Prop :=
  r.1 = .ok ∧ (r.2.pte (a, addr / 4096)).present = true ∨
    (∃ i, r = (if od then .onDisk i else .no, s) ∧ s.pte (a, addr / 4096) = .out i ∧
      (s.sys.z.ent i).state.onDisk = true) ∨
    (r = (noMem od, s) ∧ s.upageAlloc pg = none) ∨ r = (.quota, s) ∧ charged = false

/-- `uvm_fault` keeps the invariant and answers as it should. -/
theorem uvmFault (h : s.Inv last) {t : T} (hpc : s.sys.pc t = .idle) {a : A}
    (hlock : s.locked a = false) (addr : ℕ) (write od tbl charged : Bool) (pg : Option ℕ) :
    (s.uvmFault a addr write od tbl charged pg).2.Inv last ∧
      (inRegion addr 1 = true → s.protAt a addr 0 ≠ 0 →
        (write = true → s.protAt a addr 0 &&& uvmWrite ≠ 0) → tbl = true →
        Answers s a addr od charged pg (s.uvmFault a addr write od tbl charged pg)) := by
  unfold St.uvmFault
  dsimp only
  by_cases hreg : inRegion addr 1 = true
  swap
  · rw [if_pos hreg]
    exact ⟨h, fun hr => absurd hr hreg⟩
  rw [if_neg (not_not.mpr hreg)]
  by_cases hprot : s.protAt a addr 0 = 0 ∨ write = true ∧ s.protAt a addr 0 &&& uvmWrite = 0
  · rw [if_pos hprot]
    refine ⟨h, fun _ h1 h2 => ?_⟩
    rcases hprot with h3 | ⟨h3, h4⟩
    · exact absurd h3 h1
    · exact absurd h4 (h2 h3)
  rw [if_neg hprot]
  push Not at hprot
  obtain ⟨htag, hcov⟩ := h.protAt_spec hprot.1
  have hrwx : s.protAt a addr 0 &&& uvmRWX ≠ 0 := by
    rw [htag]
    exact hprot.1
  by_cases htbl : tbl = true
  swap
  · rw [if_pos htbl]
    exact ⟨h, fun _ _ _ ht => absurd ht htbl⟩
  rw [if_neg (not_not.mpr htbl)]
  have hplain := h.plain (a, addr / 4096)
  rw [if_neg (by simp [hplain.cow])]
  by_cases hpres : (s.pte (a, addr / 4096)).present = true
  · rw [if_pos hpres]
    exact ⟨h, fun _ _ _ _ => Or.inl ⟨rfl, hpres⟩⟩
  rw [if_neg hpres]
  rw [Bool.not_eq_true] at hpres
  by_cases hz : (s.pte (a, addr / 4096)).zsw = true
  · rw [if_pos hz]
    have hq := h.slot_entry hpres hz
    obtain ⟨hinv, hcase⟩ := h.faultOut hpc (q := (a, addr / 4096)) hlock hq hrwx od pg
    refine ⟨hinv, fun _ _ _ _ => ?_⟩
    rcases hcase with ⟨hok, f, hf⟩ | ⟨heq, hd⟩ | hno
    · refine Or.inl ⟨hok, ?_⟩
      rw [hf, Pte.page_eq f hrwx]
    · exact Or.inr (Or.inl ⟨_, heq, h.slot_of_out hq, hd⟩)
    · exact Or.inr (Or.inr (Or.inl hno))
  rw [if_neg hz]
  rw [Bool.not_eq_true] at hz
  have hdev : s.protAt a addr 0 &&& uvmDev = 0 := by
    rw [← htag, Nat.and_assoc, show uvmRWX &&& uvmDev = 0 from rfl, Nat.and_zero]
  rw [if_pos ⟨by simp [hplain.kept], hdev⟩]
  by_cases hch : charged = true
  swap
  · rw [if_pos hch]
    exact ⟨h, fun _ _ _ _ => Or.inr (Or.inr (Or.inr ⟨rfl, by simpa using hch⟩))⟩
  rw [if_neg (not_not.mpr hch)]
  cases hpg : s.upageAlloc pg with
  | none => exact ⟨h, fun _ _ _ _ => Or.inr (Or.inr (Or.inl ⟨rfl, hpg⟩))⟩
  | some f =>
    have hf : s.refs f = 0 := of_decide_eq_true (Option.filter_eq_some_iff.mp hpg).2
    have hq := h.slot_none hpres hz
    have hsound : ({ s.sys with z := s.sys.z } : Sys T).Sound := h.sound
    have hbring := h.bring (q := (a, addr / 4096)) (f := f) hrwx hcov hsound hlock
      (fun j _ => .of_body (fun _ => rfl) fun _ => rfl) rfl (by rw [hq]; rfl) hf
      List.length_replicate fun hc => by
        obtain ⟨b, hb, -, hl⟩ := h.pages.home (a, addr / 4096)
        rw [hq] at hb
        rw [← hl hc]
        exact hb.symm
    refine ⟨hbring, fun _ _ _ _ => Or.inl ⟨rfl, ?_⟩⟩
    exact (congrArg Pte.present (update_self ..)).trans (by rw [Pte.page_eq f hrwx])

/-! ## Unmappings -/

omit [Fintype T] [DecidableEq T] [DecidableEq A] in
/-- What `uvm_unmap` does to the ranges: each is part of one that was there, and the pages of the
interval are in none. -/
theorem uvmUnmap_ranges {us : Us} (h : AppRanges us.vma) (addr len : ℕ) (mem : Bool) :
    AppRanges (uvmUnmap us addr len mem).2.vma ∧
      (∀ w ∈ (uvmUnmap us addr len mem).2.vma, ∃ v ∈ us.vma, v.start ≤ w.start ∧
        w.stop ≤ v.stop ∧ w.tag = v.tag) ∧
      ((uvmUnmap us addr len mem).1 = true → ∀ p, addr / 4096 ≤ p →
        p < u64 (addr + roundPages len) / 4096 →
        ∀ w ∈ (uvmUnmap us addr len mem).2.vma, ¬ w.Has (p * 4096)) := by
  have hself : ∀ w ∈ us.vma, ∃ v ∈ us.vma, v.start ≤ w.start ∧ w.stop ≤ v.stop ∧ w.tag = v.tag :=
    fun w hw => ⟨w, hw, le_rfl, le_rfl, rfl⟩
  unfold uvmUnmap
  dsimp only
  split_ifs with h1 h2
  · exact ⟨h, hself, False.elim⟩
  · push Not at h1
    cases hcut : vmaCut us addr (u64 (addr + roundPages len)) mem with
    | none => exact ⟨h, hself, fun hf => Bool.noConfusion hf⟩
    | some us' =>
      have hvma := vmaCut_vma hcut
      have he : u64 (addr + roundPages len) = addr + roundPages len := u64_of_inRegion h2
      have hmod : roundPages len % 4096 = 0 := Nat.mul_mod_left ..
      have hmod' : u64 (addr + roundPages len) % 4096 = 0 := by
        rw [he]
        omega
      have hle : addr ≤ u64 (addr + roundPages len) := by
        rw [he]
        exact Nat.le_add_right ..
      dsimp only
      rw [hvma]
      refine ⟨⟨sorted_cutList hle h.sorted, fun w hw => ?_, fun w hw => ?_⟩, fun w hw => ?_,
        fun _ p hp hp' w hw hwp => ?_⟩
      · obtain ⟨v, hv, -, -, -, h3, h4, -⟩ := mem_cutList hw
        obtain ⟨h5, h6⟩ := h.aligned v hv
        constructor
        · rcases h3 with h3 | h3 <;> rw [h3]
          · exact h5
          · exact hmod'
        · rcases h4 with h4 | h4 <;> rw [h4]
          · exact h6
          · exact h1.1
      · obtain ⟨v, hv, -, -, htag, -⟩ := mem_cutList hw
        rw [htag]
        exact h.tag v hv
      · obtain ⟨v, hv, h3, h4, htag, -⟩ := mem_cutList hw
        exact ⟨v, hv, h3, h4, htag⟩
      · have := cutList_clear h.sorted w hw
        obtain ⟨h3, h4⟩ := hwp
        omega
  · exact ⟨h, hself, False.elim⟩

/-- `uvm_unmap` takes the pages out of the ranges. -/
theorem unmap (h : s.Inv last) (t : T) (a : A) (addr len : ℕ) (mem : Bool)
    (hidle : (s.unmaps t).isSome = false) :
    St.Inv { s with
      us := update s.us a (uvmUnmap (s.us a) addr len mem).2
      unmaps := if (uvmUnmap (s.us a) addr len mem).1 then update s.unmaps t
        (some ⟨a, addr / 4096, u64 (addr + roundPages len) / 4096, []⟩) else s.unmaps } last := by
  obtain ⟨hr, hsub, hclear⟩ := uvmUnmap_ranges (h.ranges a) addr len mem
  generalize uvmUnmap (s.us a) addr len mem = r at hr hsub hclear ⊢
  have hpart : ∀ a', ∀ w ∈ (update s.us a r.2 a').vma, ∃ v ∈ (s.us a').vma,
      v.start ≤ w.start ∧ w.stop ≤ v.stop ∧ w.tag = v.tag := by
    intro a' w hw
    rcases eq_or_ne a' a with rfl | hne
    · rw [update_self] at hw
      exact hsub w hw
    · rw [update_of_ne hne] at hw
      exact ⟨w, hw, le_rfl, le_rfl, rfl⟩
  have hhas : ∀ a' p, ∀ w ∈ (update s.us a r.2 a').vma, w.Has p → ∃ v ∈ (s.us a').vma, v.Has p ∧
      w.tag = v.tag := by
    intro a' p w hw hp
    obtain ⟨v, hv, h1, h2, htag⟩ := hpart a' w hw
    exact ⟨v, hv, ⟨h1.trans hp.1, hp.2.trans_le h2⟩, htag⟩
  have hcov : ∀ q : A × ℕ, (∃ v ∈ (update s.us a r.2 q.1).vma, v.Has (q.2 * 4096)) → s.Cov q := by
    rintro q ⟨w, hw, hp⟩
    obtain ⟨v, hv, hp', -⟩ := hhas q.1 _ w hw hp
    exact ⟨v, hv, hp'⟩
  have hnone : s.unmaps t = none := by simpa using hidle
  have hpgs : (fun t' => (((if r.1 then update s.unmaps t
      (some ⟨a, addr / 4096, u64 (addr + roundPages len) / 4096, []⟩) else s.unmaps) :
        T → Option (Unmap A)) t').elim [] Unmap.pg) = s.pgs := by
    ext1 t'
    split_ifs
    · rcases eq_or_ne t' t with rfl | hne
      · rw [update_self, pgs, hnone]
        rfl
      · rw [update_of_ne hne]
        rfl
    · rfl
  refine ⟨h.sound, fun a' => ?_, fun q hq v hv hp => ?_, ?_, h.plain, fun t' u hu p hp hp' hc => ?_,
    h.po⟩
  · rcases eq_or_ne a' a with rfl | hne
    · simpa using hr
    · simpa [hne] using h.ranges a'
  · obtain ⟨w, hw, hp', htag⟩ := hhas q.1 _ v hv hp
    rw [htag]
    exact h.used q hq w hw hp'
  · have := h.pages.uncover hcov
    rw [← hpgs] at this
    exact this
  · have hold : s.unmaps t' = some u → False := fun hu' => h.gone t' u hu' p hp hp' (hcov _ hc)
    cases hr1 : r.1 with
    | false =>
      simp only [hr1] at hu
      exact hold hu
    | true =>
      simp only [hr1, if_true] at hu
      rcases eq_or_ne t' t with rfl | hne
      · rw [update_self, Option.some.injEq] at hu
        subst hu
        obtain ⟨w, hw, hwp⟩ := hc
        simp only [update_self] at hw
        exact hclear hr1 p hp hp' w hw hwp
      · rw [update_of_ne hne] at hu
        exact hold hu

theorem pgs_update (s : St A T) (t : T) (u : Unmap A) :
    (fun t' => (update s.unmaps t (some u) t').elim [] Unmap.pg) = update s.pgs t u.pg := by
  ext1 t'
  rcases eq_or_ne t' t with rfl | hne
  · rw [update_self, update_self]
    rfl
  · rw [update_of_ne hne, update_of_ne hne]
    rfl

theorem gone_update (h : s.Inv last) {t : T} {u u' : Unmap A} (hu : s.unmaps t = some u)
    (happ : u'.app = u.app) (hcur : u.cur ≤ u'.cur) (hstop : u'.stop = u.stop) (t' : T)
    (w : Unmap A) (hw : update s.unmaps t (some u') t' = some w) (p : ℕ) (hp : w.cur ≤ p)
    (hp' : p < w.stop) : ¬ s.Cov (w.app, p) := by
  rcases eq_or_ne t' t with rfl | hne
  · rw [update_self, Option.some.injEq] at hw
    subst hw
    rw [happ]
    exact h.gone t' u hu p (hcur.trans hp) (hstop ▸ hp')
  · rw [update_of_ne hne] at hw
    exact h.gone t' w hw p hp hp'

/-- `vm_release`, one page. -/
theorem releasePage (h : s.Inv last) {t : T} (hpc : s.sys.pc t = .idle) :
    ∃ fs z', s.releasePage q = (fs, (s.setPte q .zero).setZ z') ∧
      ({ s.sys with z := z' } : Sys T).Sound ∧
      (∀ j, s.slots q ≠ .entry j → s.sys.z.Keeps j z') ∧
      (∀ j, s.slots q = .entry j → (s.sys.z.ent j).state = .pending →
        (z'.ent j).state = .cancelled) ∧
      z'.disk = s.sys.z.disk ∧ fs.toFinset = (s.slots q).frames s.sys.z ∧ fs.Nodup := by
  have hplain := h.plain q
  have hkeep : ∀ j, s.slots q ≠ .entry j → s.sys.z.Keeps j s.sys.z :=
    fun j _ => .of_body (fun _ => rfl) fun _ => rfl
  unfold St.releasePage
  dsimp only
  rw [if_neg (by simp [hplain.dev])]
  by_cases hpres : (s.pte q).present = true
  · rw [if_pos (Or.inl hpres)]
    have hq : s.slots q = .frame (s.pte q).addr := Pte.slot_of_present hpres
    refine ⟨_, s.sys.z, rfl, h.sound, hkeep, fun j hj => ?_, rfl, ?_, List.nodup_singleton _⟩
    · rw [hq] at hj
      cases hj
    · rw [hq]
      rfl
  rw [if_neg (by simp [hpres, hplain.kept])]
  rw [Bool.not_eq_true] at hpres
  by_cases hz : (s.pte q).zsw = true
  · rw [if_pos hz]
    have hq := h.slot_entry hpres hz
    generalize (s.pte q).addr = i at hq
    have hhas := h.has_entry hq
    have hone : ∀ j, s.slots q = .entry j → i = j := by
      intro j hj
      rw [hq] at hj
      cases hj
      rfl
    have hent : ∀ {z' : Zs}, Zs.Only i s.sys.z z' → ∀ j, s.slots q ≠ .entry j →
        s.sys.z.Keeps j z' := by
      intro z' honly j hj
      refine honly.keeps ?_
      rintro rfl
      exact hj hq
    rcases h.entry_state hq with hp | ⟨b, hb, -⟩
    · rw [if_pos ⟨hhas, hp⟩]
      have honly : Zs.Only i s.sys.z (s.sys.z.cancel i) := .cancel _
      refine ⟨_, _, rfl, h.sound.call (t := t) hpc (c := .cancel i) ⟨hhas, hp⟩, hent honly,
        fun j hj _ => ?_, honly.disk, ?_, List.nodup_singleton _⟩
      · rw [← hone j hj]
        simp [Zs.cancel, Zs.modify]
      · rw [hq, Slot.frames_pending hp]
        rfl
    · have hnp := Slot.not_pending_of_holds hb
      have hnc : (s.sys.z.ent i).state ≠ .cancelled := by
        intro hc
        rcases hb with hb | hb <;> rw [hc] at hb <;> exact Bool.noConfusion hb.1
      rw [if_neg fun hc => hnp hc.2, if_pos ⟨hhas, hb.ne_free, hnc⟩]
      have honly : Zs.Only i s.sys.z (s.sys.z.zswapRelease i) := .zswapRelease _
      refine ⟨_, _, rfl, h.sound.call (t := t) hpc (c := .zswapRelease i) trivial, hent honly,
        fun j hj hp => ?_, honly.disk, ?_, List.nodup_nil⟩
      · rw [← hone j hj] at hp
        exact absurd hp hnp
      · rw [hq, Slot.frames_holds hb]
        rfl
  · rw [if_neg hz]
    rw [Bool.not_eq_true] at hz
    have hq := h.slot_none hpres hz
    have hset : s.setPte q .zero = s := by
      rw [setPte, ← hplain.zero hq, update_eq_self]
    refine ⟨[], s.sys.z, ?_, h.sound, hkeep, fun j hj => ?_, rfl, ?_, List.nodup_nil⟩
    · rw [hset]
      rfl
    · rw [hq] at hj
      cases hj
    · rw [hq]
      rfl

/-- `vm_release` goes on. -/
theorem releaseStep (h : s.Inv last) {t : T} (hpc : s.sys.pc t = .idle) {u : Unmap A}
    (hu : s.unmaps t = some u) : (s.releaseStep t u).Inv last := by
  unfold St.releaseStep
  split_ifs with hc
  · obtain ⟨hlock, hcur, -⟩ := hc
    have hcov := h.gone t u hu u.cur le_rfl hcur
    obtain ⟨fs, z', heq, hsound, hent, hq, hdisk, hfs, hnd⟩ :=
      h.releasePage (q := (u.app, u.cur)) hpc
    dsimp only
    rw [heq]
    refine h.other hsound rfl ?_ (h.plain_update Pte.plain_zero) (fun q' hq' => Or.inl ?_)
      (h.gone_update hu rfl (Nat.le_succ _) rfl)
      (h.undisturbed rfl rfl rfl hlock hent hq hdisk fun _ _ => rfl)
    · have := h.pages.drop (t := t) (h.others hent) hcov hfs hnd
      rw [← Pte.slot_zero, ← slots_update] at this
      have hpg : s.pgs t ++ fs = u.pg ++ fs := by rw [pgs, hu]; rfl
      rw [hpg] at this
      have hpgs := pgs_update s t { u with cur := u.cur + 1, pg := u.pg ++ fs }
      rw [← hpgs] at this
      exact this
    · have hq' : (update s.pte (u.app, u.cur) .zero q').slot ≠ .none := hq'
      rcases eq_or_ne q' (u.app, u.cur) with rfl | hne
      · rw [update_self] at hq'
        exact absurd rfl hq'
      · rwa [update_of_ne hne] at hq'
  · exact h

/-- `vm_release` frees a frame, or ends. -/
theorem freeStep (h : s.Inv last) {t : T} {u : Unmap A} (hu : s.unmaps t = some u) :
    (s.freeStep t u).Inv last := by
  unfold St.freeStep
  split
  next f pg hpg =>
    have hpgs : s.pgs t = f :: pg := by rw [pgs, hu]; exact hpg
    refine h.other h.sound rfl ?_ h.plain (fun _ hq => Or.inl hq)
      (h.gone_update hu rfl le_rfl rfl) (.of_same rfl rfl rfl rfl)
    have := h.pages.freePg hpgs
    have hup := pgs_update s t { u with pg := pg }
    rw [← hup] at this
    exact this
  next hpg =>
    split_ifs with hc
    · exact h
    · have hpgs : (fun t' => (update s.unmaps t none t').elim [] Unmap.pg) = s.pgs := by
        ext1 t'
        rcases eq_or_ne t' t with rfl | hne
        · rw [update_self, pgs, hu]
          exact hpg.symm
        · rw [update_of_ne hne]
          rfl
      refine h.other h.sound rfl ?_ h.plain (fun _ hq => Or.inl hq) (fun t' w hw => ?_)
        (.of_same rfl rfl rfl rfl)
      · have := h.pages
        rw [← hpgs] at this
        exact this
      · have hw : update s.unmaps t none t' = some w := hw
        rcases eq_or_ne t' t with rfl | hne
        · rw [update_self] at hw
          cases hw
        · rw [update_of_ne hne] at hw
          exact h.gone t' w hw

/-- Another thread goes on in the swap. -/
theorem swap (h : s.Inv last) {t : T} {call : Zswap.Call} (ok : Bool) (junk : List UInt8)
    (ht : s.po.thread ≠ some t) (hc : swapCall call = true) :
    St.Inv { s with sys := s.sys.step t call ok junk } last := by
  have hallow : s.sys.Allowed call := by
    cases call with
    | zswapDiskInit n => exact of_decide_eq_true (p := n ≤ 2 ^ 23) hc
    | _ => trivial
  have hmoved := h.sound.keeps t call ok junk hallow
  have hx : Sys.touched (s.sys.pc t) call = none := by
    cases call <;> first | exact Bool.noConfusion hc | (cases s.sys.pc t <;> rfl)
  have hkeeps : ∀ j, s.sys.z.Keeps j (s.sys.step t call ok junk).z :=
    fun j => hmoved.keeps j (by simp [hx])
  have hne : ∀ t', s.po.thread = some t' → t' ≠ t := by
    rintro t' ht' rfl
    exact ht ht'
  refine h.other (h.sound.step t call ok junk hallow) rfl ?_ h.plain (fun _ hq => Or.inl hq) h.gone
    ⟨rfl, fun t' ht' => Sys.step_pc _ _ _ _ (hne t' ht'), fun j _ => Or.inl (hkeeps j),
      fun _ _ hq _ => Or.inl hq, fun _ _ _ _ => rfl, fun t' b ht' hb => ?_, fun _ _ _ _ hf => hf⟩
  · exact h.pages.swap fun _ j _ => hkeeps j
  · have := hmoved.puts t' b (Or.inl (hne t' ht')) hb
    rwa [Sys.step_pc _ _ _ _ (hne t' ht')] at this

/-! ## Steps of `page_out` -/

theorem setPo (h : s.Inv last) {po : Po A T} (hg : po.given = s.po.given)
    (hf : po.Fits s.sys.z s.mem s.pte s.sys.pc) : St.Inv { s with po := po } last := by
  refine ⟨h.sound, h.ranges, h.used, ?_, h.plain, h.gone, hf⟩
  rw [hg]
  exact h.pages

theorem setSys (h : s.Inv last) {sys : Sys T} {p : Po A T} (hsound : sys.Sound)
    (hk : ∀ j, s.sys.z.Keeps j sys.z) (hg : p.given = s.po.given)
    (hf : p.Fits sys.z s.mem s.pte sys.pc) : St.Inv { s with sys := sys, po := p } last := by
  refine ⟨hsound, h.ranges, h.used, ?_, h.plain, h.gone, hf⟩
  rw [hg]
  exact h.pages.swap fun _ j _ => hk j

/-- `page_out` comes to a page: the accessed bit is cleared, or an entry is wanted for it. -/
theorem scanPage (h : s.Inv last) {t : T} {a : A} {force : Bool} {b : List OutPg}
    (hpo : s.po = .scan t a force b) (va : ℕ) : (s.scanPage t a force b va).Inv last := by
  have hfits := h.po
  rw [hpo] at hfits
  unfold St.scanPage
  dsimp only
  split_ifs with h1 h2
  · exact h.access h1.1 false
  · have hsys : s.sys.step t (.zswapNew (s.pte (a, va)).addr) true [] =
        s.sys.goto t (.newTop (s.pte (a, va)).addr) := by
      rw [Sys.step, hfits.1]
      rfl
    have hsound := h.sound.step t (.zswapNew (s.pte (a, va)).addr) true [] trivial
    rw [hsys] at hsound ⊢
    refine h.setSys hsound (fun j => .of_body (fun _ => rfl) fun _ => rfl) (by rw [hpo]; rfl)
      ⟨Or.inl (update_self ..), hfits.2, Pte.slot_of_present h1.1⟩
  · exact h

theorem ne_freeHead (h : s.Inv last) (hne : s.sys.z.freeHead ≠ 0) {j : ℕ}
    (hj : (s.sys.z.ent j).state ≠ .free) : j ≠ s.sys.z.freeHead := by
  rintro rfl
  exact hj (h.sound.inv.tables.zswapNew hne 0).2.1

/-- `zswap_new` has an entry: the page is out of the tables. -/
theorem newEntry (h : s.Inv last) {t : T} {a : A} {force : Bool} {b : List OutPg} {va frame : ℕ}
    (hpo : s.po = .new t a force b va frame) (hpc : s.sys.pc t = .newTop frame)
    (hne : s.sys.z.freeHead ≠ 0) (ok : Bool) :
    St.Inv { s.setPte (a, va) (.out s.sys.z.freeHead) with
      sys := s.sys.resume t ok [] (.newTop frame)
      po := .scan t a force (b ++ [⟨va, s.sys.z.freeHead, frame⟩]) } last := by
  have hfits := h.po
  rw [hpo] at hfits
  obtain ⟨-, hb, hslot⟩ := hfits
  have hsound := h.sound.goesOn (t := t) ok []
  rw [hpc, Sys.resume, if_neg hne] at hsound
  rw [Sys.resume, if_neg hne]
  have honly : Zs.Only s.sys.z.freeHead s.sys.z (s.sys.z.zswapNew frame).2 := .zswapNew ..
  have hstate : ((s.sys.z.zswapNew frame).2.ent s.sys.z.freeHead).state = .pending :=
    congrArg Zent.state (update_self s.sys.z.freeHead _ s.sys.z.ent)
  have hframe : ((s.sys.z.zswapNew frame).2.ent s.sys.z.freeHead).frame = frame :=
    congrArg Zent.frame (update_self s.sys.z.freeHead _ s.sys.z.ent)
  have hused : ∀ q j, s.slots q = .entry j → j ≠ s.sys.z.freeHead := fun q j hj =>
    h.ne_freeHead hne (h.entry_ne_free hj)
  refine ⟨hsound, h.ranges, fun q hq => ?_, ?_, h.plain_update (Pte.plain_out _), h.gone,
    update_self .., ⟨fun k hk => ?_, ?_⟩⟩
  · rcases used_update (e := .out s.sys.z.freeHead) (h.used (a, va) (by
      rw [slots, hslot]
      exact Slot.noConfusion)) q hq with hq' | hq'
    · exact h.used q hq'
    · exact hq'
  · have hpages := h.pages
    rw [hpo] at hpages
    have := hpages.takeOut (q := (a, va)) (i := s.sys.z.freeHead)
      (fun q' _ j hj => honly.keeps (hused q' j hj)) hslot hstate hframe
      fun q' hq' => hused q' _ hq' rfl
    rw [← Pte.slot_out, ← slots_update] at this
    exact this
  · rcases List.mem_append.mp hk with hk | hk
    · have hw := hb.waits k hk
      have hkeep := honly.keeps (h.ne_freeHead hne hw.ne_free)
      rcases hw with hc | ⟨hp, hf, hpte⟩
      · exact Or.inl (hkeep.cancelled hc)
      · obtain ⟨hp', hf'⟩ := hkeep.pending hp
        refine Or.inr ⟨hp', hf'.trans hf, (update_of_ne ?_ _ s.pte).trans hpte⟩
        -- the page of a pending entry is not in the tables
        intro heq
        rw [← heq, hpte, Pte.slot_out] at hslot
        cases hslot
    · rw [List.mem_singleton] at hk
      subst hk
      exact Or.inr ⟨hstate, hframe, update_self ..⟩
  · rw [List.map_append, List.nodup_append]
    refine ⟨hb.nodup, List.nodup_singleton _, fun j hj j' hj' => ?_⟩
    obtain ⟨k, hk, rfl⟩ := List.mem_map.mp hj
    rw [List.map_singleton, List.mem_singleton] at hj'
    rw [hj']
    exact h.ne_freeHead hne (hb.waits k hk).ne_free

/-- `zswap_new` goes on. -/
theorem newStep (h : s.Inv last) {t : T} {a : A} {force : Bool} {b : List OutPg} {va frame : ℕ}
    (hpo : s.po = .new t a force b va frame) (ok : Bool) :
    (s.newStep t a force b va frame ok).Inv last := by
  have hfits := h.po
  rw [hpo] at hfits
  obtain ⟨hpc, hb, hslot⟩ := hfits
  unfold St.newStep
  rcases hpc with hpc | hpc
  · rw [hpc]
    dsimp only
    split_ifs with h0
    · have hsound := h.sound.goesOn (t := t) ok []
      rw [hpc, Sys.resume, if_pos h0] at hsound
      rw [Sys.resume, if_pos h0]
      have := h.setSys (p := .new t a force b va frame) hsound
        (fun j => .of_body (fun _ => rfl) fun _ => rfl) (by rw [hpo])
        ⟨Or.inr (update_self ..), hb, hslot⟩
      rwa [← hpo] at this
    · exact h.newEntry hpo hpc h0 ok
  · have hsound := h.sound.goesOn (t := t) ok []
    have hmoved := h.sound.resume (t := t) ok []
    have hk : ∀ j, s.sys.z.Keeps j (s.sys.resume t ok [] (s.sys.pc t)).z :=
      fun j => hmoved.keeps j (by simp)
    have hpc' : (s.sys.resume t ok [] (s.sys.pc t)).pc t = .newTop frame ∨
        (s.sys.resume t ok [] (s.sys.pc t)).pc t = .idle := by
      rw [hpc, Sys.resume]
      split_ifs
      · exact Or.inl (update_self ..)
      · exact Or.inr (update_self ..)
    generalize s.sys.resume t ok [] (s.sys.pc t) = sys at hsound hk hpc'
    rw [hpc]
    dsimp only
    have hb' : Batch sys.z s.pte a b := hb.keeps fun k _ => hk k.idx
    rcases hpc' with hpc' | hpc'
    · rw [hpc']
      have := h.setSys (p := .new t a force b va frame) hsound hk (by rw [hpo])
        ⟨Or.inl hpc', hb', hslot⟩
      rwa [← hpo] at this
    · rw [hpc']
      exact h.setSys hsound hk (by rw [hpo]; rfl) ⟨hpc', hb'⟩

theorem readFrame_pending {k : OutPg} (hp : (s.sys.z.ent k.idx).state = .pending)
    (src : List UInt8) : s.readFrame k src = s.mem k.frame := if_pos hp

theorem length_readFrame (h : s.Inv last) (k : OutPg) {src : List UInt8} (hs : src.length = 4096) :
    (s.readFrame k src).length = 4096 := by
  unfold readFrame
  split_ifs
  · exact h.pages.memLen _
  · exact hs

theorem zeros_of_pack {page buf : List UInt8} {cap : ℕ} (hp : page.length = 4096)
    (h : zswapPack page buf cap = .ok .zero) : page = List.replicate 4096 0 := by
  unfold zswapPack at h
  split_ifs at h with hall
  · refine List.eq_replicate_iff.mpr ⟨hp, fun x hx => ?_⟩
    exact of_decide_eq_true (List.all_eq_true.mp hall x hx)
  · split at h <;> cases h

/-- `page_out` has data for a page: it stands for the page, if the entry is pending. -/
theorem packed (h : s.Inv last) {t : T} {a : A} {k : OutPg} {b : List OutPg}
    (hpo : s.po = .pack t a (k :: b)) (src : List UInt8) {data : Option (List UInt8)} {len : ℕ}
    (hlen : len ≤ 4096) (hd : ∀ d, data = some d → d.length = len)
    (hdec : Decodes (data.getD []) (if data.isSome then len else 0) (s.readFrame k src)) :
    St.Inv { s with po := .store t a k b true data len } last := by
  have hfits := h.po
  rw [hpo] at hfits
  refine h.setPo (by rw [hpo]; rfl) ⟨hfits.2, fun _ => ⟨hfits.1, hlen, hd, fun hp => ?_⟩,
    fun hf => Bool.noConfusion hf⟩
  rwa [readFrame_pending hp] at hdec

/-- `page_out` compresses a page. -/
theorem packPage (h : s.Inv last) {t : T} {a : A} {k : OutPg} {b : List OutPg}
    (hpo : s.po = .pack t a (k :: b)) {src buf : List UInt8} (hs : src.length = 4096)
    (hbuf : buf.length = outMax) (mem : Bool) : (s.packPage t a k b src buf mem).Inv last := by
  have hfits := h.po
  rw [hpo] at hfits
  have hpage := h.length_readFrame k hs
  have hfull : St.Inv { s with po := .full t a k b } last := h.setPo (by rw [hpo]; rfl) hfits
  have hraw : St.Inv { s with po := .store t a k b true (some (s.readFrame k src)) 4096 } last :=
    h.packed hpo src le_rfl (fun d hd => by cases hd; exact hpage) (decodes_raw hpage)
  unfold St.packPage
  cases hpack : zswapPack (s.readFrame k src) buf outMax with
  | ok r =>
    cases r with
    | zero =>
      refine h.packed hpo src (Nat.zero_le _) (fun d hd => by cases hd) ?_
      rw [zeros_of_pack hpage hpack]
      exact decodes_zero _
    | unfit =>
      dsimp only
      split_ifs
      · exact hraw
      · exact hfull
    | packed n out =>
      dsimp only
      split_ifs with hn hm hm
      · obtain ⟨hle, hdec⟩ := decodes_pack hpage (by decide) hbuf hpack hn
        have hlen : (out.take n).length = n := List.length_take_of_le hdec.1
        refine h.packed hpo src (hle.trans (by decide)) (fun d hd => ?_) ?_
        · cases hd
          exact hlen
        · exact hdec.congr hlen.ge (by simp)
      · exact hfull
      · exact hraw
      · exact hfull
  | fail => exact h
  | fault => exact h

/-- `page_out` without memory for the copy tries the swap area. -/
theorem diskPut (h : s.Inv last) {t : T} {a : A} {k : OutPg} {b : List OutPg}
    (hpo : s.po = .full t a k b) (src : List UInt8) (may : Bool) :
    St.Inv { s with
      sys := if may then s.sys.step t (.zswapDiskPut (s.readFrame k src) 4096) true [] else s.sys
      po := .store t a k b false none 0 } last := by
  have hfits := h.po
  rw [hpo] at hfits
  obtain ⟨hpc, hb⟩ := hfits
  cases may with
  | false =>
    refine h.setPo (by rw [hpo]; rfl) ⟨hb, fun hf => Bool.noConfusion hf, fun _ => ?_⟩
    rw [hpc]
    exact ⟨trivial, fun _ => trivial⟩
  | true =>
    have hstep : ∀ call, s.sys.step t call true [] = s.sys.start t call := by
      intro call
      rw [Sys.step, hpc]
    rw [if_pos rfl, hstep]
    have hmoved := h.sound.start hpc (c := .zswapDiskPut (s.readFrame k src) 4096) trivial
    have hk : ∀ j, s.sys.z.Keeps j (s.sys.start t (.zswapDiskPut (s.readFrame k src) 4096)).z :=
      fun j => hmoved.keeps j (by simp [Sys.touched])
    refine h.setSys (h.sound.call hpc trivial) hk (by rw [hpo]; rfl)
      ⟨hb.keeps fun k' _ => hk k'.idx, fun hf => Bool.noConfusion hf, fun _ => ?_⟩
    have hdec : (s.sys.z.ent k.idx).state = .pending →
        Decodes (Zs.padded (s.readFrame k src) 4096) 4096 (s.mem k.frame) := by
      intro hp
      rw [readFrame_pending hp]
      exact (decodes_raw (h.pages.memLen _)).padded
    have hpend := (hb.waits k List.mem_cons_self).pending_of_keeps (hk k.idx)
    rcases Sys.pc_zswapDiskPut hpc (s.readFrame k src) 4096 with hpc' | ⟨slot, hpc'⟩
    · rw [hpc']
      exact ⟨trivial, fun _ => trivial⟩
    · rw [hpc']
      exact ⟨trivial, fun hp => hdec (hpend hp)⟩

/-- `zswap_disk_put` goes on. -/
theorem put (h : s.Inv last) {t : T} {a : A} {k : OutPg} {b : List OutPg} {keep : Bool}
    {data : Option (List UInt8)} {len : ℕ} (hpo : s.po = .store t a k b keep data len)
    (hne : s.sys.pc t ≠ .idle) (ok : Bool) (junk : List UInt8) :
    St.Inv { s with sys := s.sys.resume t ok junk (s.sys.pc t) } last := by
  have hfits := h.po
  rw [hpo] at hfits
  obtain ⟨hb, hkeep, hput⟩ := hfits
  have hmoved := h.sound.resume (t := t) ok junk
  have hk : ∀ j, s.sys.z.Keeps j (s.sys.resume t ok junk (s.sys.pc t)).z :=
    fun j => hmoved.keeps j (by simp)
  have := h.setSys (p := .store t a k b keep data len) (h.sound.goesOn ok junk) hk (by rw [hpo])
    ⟨hb.keeps fun k' _ => hk k'.idx, fun hk' => absurd (hkeep hk').1 hne, fun hk' => ?_⟩
  · rwa [← hpo] at this
  · obtain ⟨hin, hputs⟩ := hput hk'
    refine ⟨?_, fun hp => ?_⟩
    · cases hpc : s.sys.pc t with
      | putIo slot len buf => simp [Sys.resume, Sys.goto, InPut]
      | putEnd slot len ok' => cases ok' <;> simp [Sys.resume, Sys.goto, InPut]
      | idle => exact absurd hpc hne
      | putDone => rw [Sys.resume, hpc]; trivial
      | _ => rw [hpc] at hin; exact hin.elim
    · exact hmoved.puts t _ (Or.inr hne)
        (hputs ((hb.waits k List.mem_cons_self).pending_of_keeps (hk k.idx) hp))

/-- The entry of a page in `page_out`'s hands gets the page: `page_out` has the frame. -/
theorem stored (h : s.Inv last) {t : T} {a : A} {k : OutPg} {b : List OutPg} {sys : Sys T}
    (hb : Batch s.sys.z s.pte a (k :: b)) (hg : s.po.given = none)
    (hp : (s.sys.z.ent k.idx).state = .pending) (hpte : s.pte (a, k.va) = .out k.idx)
    (hsound : sys.Sound) (honly : Zs.Only k.idx s.sys.z sys.z)
    (hh : sys.z.Holds k.idx (s.mem k.frame)) (hpc : sys.pc t = .idle) :
    St.Inv { s with sys := sys, po := .give t a b (some k.frame) } last := by
  have hframe : (s.sys.z.ent k.idx).frame = k.frame := by
    rcases hb.waits k List.mem_cons_self with hc | hw
    · cases hc.symm.trans hp
    · exact hw.2.1
  have hslot : s.slots (a, k.va) = .entry k.idx := by rw [slots, hpte, Pte.slot_out]
  have hk : ∀ j, s.slots (a, k.va) ≠ .entry j → s.sys.z.Keeps j sys.z := by
    refine fun j hj => honly.keeps ?_
    rintro rfl
    exact hj hslot
  refine ⟨hsound, h.ranges, h.used, ?_, h.plain, h.gone, Or.inl hpc, hb.tail honly⟩
  have hpages := h.pages
  rw [hg] at hpages
  rw [← hframe] at hh ⊢
  exact hpages.letGo (h.others hk) hslot hp hh

/-- `page_out`, the second section for a page. -/
theorem storePage (h : s.Inv last) {t : T} {a : A} {k : OutPg} {b : List OutPg} {keep : Bool}
    {data : Option (List UInt8)} {len : ℕ} (hpo : s.po = .store t a k b keep data len)
    {slot : Bool} (hslot : slot = true ∧ (∃ sl ln, s.sys.pc t = .putDone sl ln) ∨
      slot = false ∧ s.sys.pc t = .idle) :
    (s.storePage t a k b keep data len slot).Inv last := by
  have hfits := h.po
  rw [hpo] at hfits
  obtain ⟨hb, hkeep, hput⟩ := hfits
  have hg : s.po.given = none := by rw [hpo]; rfl
  have hw := hb.waits k List.mem_cons_self
  have hhas : s.sys.z.Has k.idx := h.sound.inv.tables.has_of_ne_free hw.ne_free
  unfold St.storePage
  dsimp only
  split_ifs with h1 hk hs
  · -- the copy in memory
    obtain ⟨-, hp, hpte⟩ := h1
    obtain ⟨hpc, hlen, hd, hdec⟩ := hkeep hk
    have hallow : s.sys.Allowed (.zswapStore k.idx data len) := ⟨hhas, hp, hlen, hd⟩
    have hstep : s.sys.step t (.zswapStore k.idx data len) true [] =
        { s.sys with z := s.sys.z.zswapStore k.idx data len } := by
      rw [Sys.step, hpc]
      rfl
    have hsound := h.sound.step t (.zswapStore k.idx data len) true [] hallow
    rw [hstep] at hsound ⊢
    exact h.stored hb hg hp hpte hsound (.zswapStore ..) (Zs.holds_zswapStore hhas hlen (hdec hp))
      hpc
  · -- the copy in the swap area
    obtain ⟨-, hp, hpte⟩ := h1
    obtain ⟨sl, ln, hpc⟩ := (hslot.resolve_right fun hf => by simp [hf.1] at hs).2
    obtain ⟨-, hputs⟩ := hput (by simpa using hk)
    have hdec := hputs hp
    have hgood := h.sound.inv.books.pcGood t
    rw [hpc] at hdec hgood
    have hstep : s.sys.step t (.zswapStoreDisk k.idx) true [] =
        { s.sys with z := s.sys.z.zswapStoreDisk k.idx sl ln }.goto t .idle := by
      rw [Sys.step, hpc]
      rfl
    have hsound := h.sound.step t (.zswapStoreDisk k.idx) true [] ⟨hhas, hp⟩
    rw [hstep] at hsound ⊢
    exact h.stored hb hg hp hpte hsound (.zswapStoreDisk ..)
      (Zs.holds_zswapStoreDisk hhas hgood.2.1 hdec) (update_self ..)
  · -- no room for it anywhere: it stays
    obtain ⟨-, hp, hpte⟩ := h1
    have hpc : s.sys.pc t = .idle := (hslot.resolve_left fun hf => hs hf.1).2
    have hframe : (s.sys.z.ent k.idx).frame = k.frame := by
      rcases hw with hc | hw
      · cases hc.symm.trans hp
      · exact hw.2.1
    have hq : s.slots (a, k.va) = .entry k.idx := by rw [slots, hpte, Pte.slot_out]
    have hqn : s.slots (a, k.va) ≠ .none := by
      rw [hq]
      exact Slot.noConfusion
    have hrwx := h.protAt_used hqn
    have hstep : s.sys.step t (.zswapFree k.idx) true [] =
        { s.sys with z := s.sys.z.zswapFree k.idx } := by
      rw [Sys.step, hpc]
      rfl
    have hsound := h.sound.step t (.zswapFree k.idx) true [] ⟨hhas, Or.inl hp⟩
    rw [hstep] at hsound ⊢
    have honly : Zs.Only k.idx s.sys.z (s.sys.z.zswapFree k.idx) := .zswapFree _
    have hkeeps : ∀ j, s.slots (a, k.va) ≠ .entry j →
        s.sys.z.Keeps j (s.sys.z.zswapFree k.idx) := by
      refine fun j hj => honly.keeps ?_
      rintro rfl
      exact hj hq
    refine ⟨hsound, h.ranges, fun q hq' => ?_, ?_, h.plain_update (Pte.plain_page _ hrwx), h.gone,
      Or.inl hpc, (hb.tail honly).setPte fun k' hk' hva => ?_⟩
    · rcases used_update (h.used (a, k.va) hqn) q hq' with hq' | hq'
      · exact h.used q hq'
      · exact hq'
    · have hpages := h.pages
      rw [hg] at hpages
      have := hpages.putBack (h.others hkeeps) hq hp
      rw [hframe, ← Pte.slot_page _ (s.protAt a (k.va * 4096) uvmRW), ← slots_update] at this
      exact this
    · -- two pages of the batch have two entries
      intro hpte'
      rw [hva, hpte] at hpte'
      refine (List.nodup_cons.mp hb.nodup).1 ?_
      have hidx : k.idx = k'.idx := congrArg Pte.addr hpte'
      rw [hidx]
      exact List.mem_map_of_mem hk'
  · -- touched, or unmapped
    have hc : (s.sys.z.ent k.idx).state = .cancelled := by
      rcases hw with hc | ⟨hp, hf, hpte⟩
      · exact hc
      · exact absurd ⟨hhas, hp, hpte⟩ h1
    have hstep : s.sys.step t (.zswapFree k.idx) true [] =
        { s.sys with z := s.sys.z.zswapFree k.idx } := by
      rcases hslot with ⟨-, sl, ln, hpc⟩ | ⟨-, hpc⟩ <;>
      · rw [Sys.step, hpc]
        rfl
    have hsound := h.sound.step t (.zswapFree k.idx) true [] ⟨hhas, Or.inr hc⟩
    rw [hstep] at hsound ⊢
    have honly : Zs.Only k.idx s.sys.z (s.sys.z.zswapFree k.idx) := .zswapFree _
    refine ⟨hsound, h.ranges, h.used, ?_, h.plain, h.gone, ?_, hb.tail honly⟩
    · have hpages := h.pages
      rw [hg] at hpages
      refine hpages.swap fun q j hj => honly.keeps ?_
      rintro rfl
      -- no page has a cancelled entry
      rcases h.entry_state hj with hp | ⟨b', hb', -⟩
      · cases hp.symm.trans hc
      · rcases hb' with hb' | hb' <;> rw [hc] at hb' <;> exact Bool.noConfusion hb'.1
    · rcases hslot with ⟨-, hpc⟩ | ⟨-, hpc⟩
      · exact Or.inr hpc
      · exact Or.inl hpc

/-- `page_out` gives back a slot or a frame, and goes on. -/
theorem give (h : s.Inv last) {t : T} {a : A} {b : List OutPg} {frame : Option ℕ}
    (hpo : s.po = .give t a b frame) : (s.poStep .give).Inv last := by
  have hfits := h.po
  rw [hpo] at hfits
  obtain ⟨hpc, hb⟩ := hfits
  have hg : s.po.given = frame := by rw [hpo]; rfl
  unfold poStep
  rw [hpo]
  dsimp only
  rcases hpc with hpc | ⟨slot, len, hpc⟩
  · rw [hpc]
    cases frame with
    | none => exact h.setPo (by rw [hg]; rfl) ⟨hpc, hb⟩
    | some f =>
      refine ⟨h.sound, h.ranges, h.used, ?_, h.plain, h.gone, hpc, hb⟩
      have hpages := h.pages
      rw [hg] at hpages
      exact hpages.freeGiven
  · rw [hpc]
    have hmoved := h.sound.keeps t .zswapSlotFree true [] trivial
    have hx : Sys.touched (s.sys.pc t) .zswapSlotFree = none := by rw [hpc]; rfl
    have hk : ∀ j, s.sys.z.Keeps j (s.sys.step t .zswapSlotFree true []).z :=
      fun j => hmoved.keeps j (by simp [hx])
    have hpc' : (s.sys.step t .zswapSlotFree true []).pc t = .idle := by
      rw [Sys.step, hpc]
      exact update_self ..
    exact h.setSys (p := .give t a b frame) (h.sound.step t .zswapSlotFree true [] trivial) hk
      (by rw [hpo]) ⟨Or.inl hpc', hb.keeps fun k _ => hk k.idx⟩

/-! ## Every step -/

/-- A step of `page_out` keeps the invariant. -/
theorem poStep (h : s.Inv last) (act : Act A T) : (s.poStep act).Inv last := by
  cases act with
  | scan va =>
    unfold St.poStep
    cases hpo : s.po with
    | scan t a force b =>
      dsimp only
      split_ifs
      · exact h.scanPage hpo va
      · exact h
    | _ => exact h
  | scanned =>
    unfold St.poStep
    have hfits := h.po
    cases hpo : s.po with
    | scan t a force b =>
      rw [hpo] at hfits
      exact h.setPo (by rw [hpo]; rfl) hfits
    | _ => exact h
  | new ok =>
    unfold St.poStep
    cases hpo : s.po with
    | new t a force b va frame => exact h.newStep hpo ok
    | _ => exact h
  | pack src buf mem =>
    unfold St.poStep
    cases hpo : s.po with
    | pack t a b =>
      cases b with
      | nil => exact h.setPo (by rw [hpo]; rfl) trivial
      | cons k b =>
        dsimp only
        split_ifs with hc
        · exact h.packPage hpo hc.1 hc.2 mem
        · exact h
    | _ => exact h
  | diskPut src may =>
    unfold St.poStep
    cases hpo : s.po with
    | full t a k b => exact h.diskPut hpo src may
    | _ => exact h
  | put ok junk =>
    unfold St.poStep
    cases hpo : s.po with
    | store t a k b keep data len =>
      dsimp only
      split
      next hpc =>
        rw [← hpo]
        exact h.put hpo (by rw [hpc]; exact Pc.noConfusion) ok junk
      next hpc =>
        rw [← hpo]
        exact h.put hpo (by rw [hpc]; exact Pc.noConfusion) ok junk
      next => exact h
    | _ => exact h
  | second =>
    unfold St.poStep
    cases hpo : s.po with
    | store t a k b keep data len =>
      dsimp only
      split
      next hpc => exact h.storePage hpo (Or.inr ⟨rfl, hpc⟩)
      next hpc => exact h.storePage hpo (Or.inl ⟨rfl, _, _, hpc⟩)
      next => exact h
    | _ => exact h
  | give =>
    cases hpo : s.po with
    | give t a b frame => exact h.give hpo
    | _ =>
      unfold St.poStep
      rw [hpo]
      exact h
  | _ => exact h

/-- **A step keeps the invariant**, whoever takes it. -/
theorem step (h : s.Inv last) (act : Act A T) : (s.step act).Inv (s.stored last act) := by
  cases act with
  | load a addr =>
    unfold St.step
    dsimp only
    split_ifs with hc
    · exact h.access hc.1 true
    · exact h
  | store a addr x =>
    unfold St.step St.stored
    dsimp only
    split_ifs with hc
    · exact h.store hc.1 (addr % 4096) x
    · exact h
  | fault t a addr write od tbl charged pg =>
    unfold St.step
    dsimp only
    split
    next hpc =>
      split_ifs with hl
      · exact h
      · exact (h.uvmFault hpc (Bool.eq_false_iff.mpr hl) addr write od tbl charged pg).1
    next => exact h
  | unmap t a addr len mem =>
    unfold St.step
    dsimp only
    split_ifs with hc hr
    · exact h
    · have := h.unmap t a addr len mem (Bool.eq_false_iff.mpr fun hu => hc (Or.inr hu))
      rwa [if_pos hr] at this
    · have := h.unmap t a addr len mem (Bool.eq_false_iff.mpr fun hu => hc (Or.inr hu))
      rwa [if_neg hr] at this
  | release t =>
    unfold St.step
    dsimp only
    split
    next u hu =>
      split_ifs with hpc
      · exact h.releaseStep hpc hu
      · exact h
    next => exact h
  | free t =>
    unfold St.step
    dsimp only
    split
    next u hu => exact h.freeStep hu
    next => exact h
  | pageOut t a force =>
    unfold St.step
    dsimp only
    split
    next hpo hpc =>
      exact h.setPo (by rw [hpo]; rfl) ⟨hpc, fun k hk => (List.not_mem_nil hk).elim, List.nodup_nil⟩
    next => exact h
  | swap t call ok junk =>
    unfold St.step
    dsimp only
    split_ifs with hc
    · exact h
    · push Not at hc
      exact h.swap ok junk hc.1 (Bool.not_eq_false _ ▸ hc.2)
  | scan va => exact h.poStep (.scan va)
  | scanned => exact h.poStep .scanned
  | new ok => exact h.poStep (.new ok)
  | pack src buf mem => exact h.poStep (.pack src buf mem)
  | diskPut src may => exact h.poStep (.diskPut src may)
  | put ok junk => exact h.poStep (.put ok junk)
  | second => exact h.poStep .second
  | give => exact h.poStep .give

theorem boot (disk : ℕ → UInt8) (us : A → Us) (mem : ℕ → List UInt8)
    (hus : ∀ a, AppRanges (us a).vma) (hmem : ∀ f, (mem f).length = 4096) :
    (St.boot disk us mem : St A T).Inv fun _ => List.replicate 4096 0 := by
  have hnone : ∀ o, holders (St.boot disk us mem : St A T).sys.z (St.boot disk us mem : St A T).slots
      (St.boot disk us mem : St A T).pgs (St.boot disk us mem : St A T).po.given o = ∅ := by
    rintro (q | t | x) <;> rfl
  refine ⟨.boot disk, hus, fun q hq => absurd rfl hq, ?_, fun _ => Pte.plain_zero,
    (fun _ _ hu => by cases hu), trivial⟩
  refine ⟨⟨fun f => ?_, fun i j _ => ?_⟩, fun _ => Nat.zero_le 1, fun _ => List.nodup_nil, hmem,
    fun q => ⟨_, rfl, List.length_replicate, fun _ => rfl⟩, fun q q' i hq => by cases hq⟩
  · refine ⟨(fun hf => by cases hf), ?_⟩
    rintro ⟨o, ho⟩
    rw [hnone o] at ho
    exact absurd ho (Finset.notMem_empty f)
  · rw [hnone i]
    exact Finset.disjoint_empty_left _

end Inv

/-- The invariant holds on every run. -/
theorem Reach.inv (h : Reach s last) : s.Inv last := by
  induction h with
  | boot disk us mem hus hmem => exact .boot disk us mem hus hmem
  | step _ act ih => exact ih.step act

/-! ## What the apps see -/

/-- The page is in frame `f`: it is in the tables, or its pending entry has the frame. -/
def InFrame (s : St A T) (q : A × ℕ) (f : ℕ) : Prop :=
  (s.pte q).present = true ∧ (s.pte q).addr = f ∨
    ∃ i, s.pte q = .out i ∧ (s.sys.z.ent i).state = .pending ∧ (s.sys.z.ent i).frame = f

/-- What paging out must not change: a page in the tables has the bytes last stored in it, and so
has one after a fault; a frame with a page is in use, by that page alone, and a frame in use has a
page, or is with the unmapping or the `page_out` that is about to free it. -/
structure Invisible (s : St A T) (last : A × ℕ → List UInt8) : Prop where
  reads : ∀ q, s.Cov q → (s.pte q).present = true → s.mem (s.pte q).addr = last q
  faults : ∀ t a addr write od charged pg, s.sys.pc t = .idle → s.locked a = false →
    inRegion addr 1 = true → s.protAt a addr 0 ≠ 0 →
    (write = true → s.protAt a addr 0 &&& uvmWrite ≠ 0) →
    let r := s.uvmFault a addr write od true charged pg
    Inv.Answers s a addr od charged pg r ∧
      (r.1 = .ok → r.2.mem (r.2.pte (a, addr / 4096)).addr = last (a, addr / 4096))
  mapped : ∀ q f, s.InFrame q f → s.refs f = 1 ∧ ∀ q', s.InFrame q' f → q' = q
  kept : ∀ f, s.refs f ≠ 0 → (∃ q, s.InFrame q f) ∨
    (∃ t u, s.unmaps t = some u ∧ f ∈ u.pg) ∨ s.po.given = some f

namespace Inv

theorem reads (h : s.Inv last) (q : A × ℕ) (hc : s.Cov q) (hp : (s.pte q).present = true) :
    s.mem (s.pte q).addr = last q := by
  obtain ⟨b, hb, -, hl⟩ := h.pages.home q
  rw [slots, Pte.slot_of_present hp] at hb
  exact hb.trans (hl hc)

theorem inFrame_iff (h : s.Inv last) (q : A × ℕ) (f : ℕ) :
    s.InFrame q f ↔ f ∈ (s.slots q).frames s.sys.z := by
  constructor
  · rintro (⟨hp, rfl⟩ | ⟨i, hi, hp, rfl⟩)
    · rw [slots, Pte.slot_of_present hp]
      exact Finset.mem_singleton_self _
    · rw [slots, hi, Pte.slot_out, Slot.frames_pending hp]
      exact Finset.mem_singleton_self _
  · intro hf
    by_cases hp : (s.pte q).present = true
    · rw [slots, Pte.slot_of_present hp] at hf
      exact Or.inl ⟨hp, (Finset.mem_singleton.mp hf).symm⟩
    rw [Bool.not_eq_true] at hp
    by_cases hz : (s.pte q).zsw = true
    · have hq := h.slot_entry hp hz
      rw [hq, Slot.frames] at hf
      split_ifs at hf with hpend
      · exact Or.inr ⟨_, h.slot_of_out hq, hpend, (Finset.mem_singleton.mp hf).symm⟩
      · exact absurd hf (Finset.notMem_empty f)
    · rw [h.slot_none hp (Bool.eq_false_iff.mpr hz)] at hf
      exact absurd hf (Finset.notMem_empty f)

theorem cov_of_protAt (h : s.Inv last) {a : A} {addr : ℕ} (hprot : s.protAt a addr 0 ≠ 0) :
    s.Cov (a, addr / 4096) := by
  unfold protAt at hprot
  cases hr : rangeAt (s.us a) addr with
  | none =>
    rw [hr] at hprot
    exact absurd rfl hprot
  | some w =>
    obtain ⟨hw, ha⟩ := rangeAt_has hr
    exact ⟨w, hw, (h.ranges a).has_page hw ha⟩

theorem us_faultOut (prot : ℕ) (od : Bool) (pg : Option ℕ) :
    (s.faultOut q prot od pg).2.us = s.us := by
  unfold St.faultOut
  dsimp only
  repeat' first | rfl | split

theorem us_uvmFault (a : A) (addr : ℕ) (write od tbl charged : Bool) (pg : Option ℕ) :
    (s.uvmFault a addr write od tbl charged pg).2.us = s.us := by
  unfold St.uvmFault
  dsimp only
  repeat' first | rfl | exact us_faultOut .. | split

/-- After a fault that is answered with `ok` the page is in the tables. -/
theorem Answers.present {a : A} {addr : ℕ} {od charged : Bool} {pg : Option ℕ}
    {r : FaultRc × St A T} (h : Answers s a addr od charged pg r) (hok : r.1 = .ok) :
    (r.2.pte (a, addr / 4096)).present = true := by
  rcases h with h | ⟨i, rfl, -⟩ | ⟨rfl, -⟩ | ⟨rfl, -⟩
  · exact h.2
  · cases od <;> cases hok
  · cases od <;> cases hok
  · cases hok

theorem invisible (h : s.Inv last) : s.Invisible last where
  reads := h.reads
  faults t a addr write od charged pg hpc hlock hreg hprot hw := by
    obtain ⟨hinv, hans⟩ := h.uvmFault hpc hlock addr write od true charged pg
    have hans := hans hreg hprot hw rfl
    refine ⟨hans, fun hok => hinv.reads _ ?_ (hans.present hok)⟩
    unfold Cov
    rw [us_uvmFault]
    exact h.cov_of_protAt hprot
  mapped q f hf := by
    rw [h.inFrame_iff] at hf
    refine ⟨?_, fun q' hq' => ?_⟩
    · have h1 := h.pages.refs_ne hf
      have h2 := h.pages.refs_le f
      omega
    · rw [h.inFrame_iff] at hq'
      exact h.pages.page_eq hq' hf
  kept f hf := by
    obtain ⟨o, ho⟩ := (h.pages.shares.mem f).mp (decide_eq_true hf)
    rcases o with q | t | x
    · exact Or.inl ⟨q, (h.inFrame_iff q f).mpr ho⟩
    · refine Or.inr (Or.inl ⟨t, ?_⟩)
      have ho : f ∈ (s.pgs t).toFinset := ho
      rw [List.mem_toFinset, pgs] at ho
      cases hu : s.unmaps t with
      | none =>
        rw [hu] at ho
        exact absurd ho List.not_mem_nil
      | some u =>
        rw [hu] at ho
        exact ⟨u, rfl, ho⟩
    · exact Or.inr (Or.inr (Option.mem_toFinset.mp ho))

end Inv

/-- **Paging out is invisible**: after any interleaving of loads, stores, faults, unmappings,
`page_out`, `zswap_writeback` and `zswap_disk_in`, each page has the bytes last stored in it, and a
frame is in use exactly as long as a page is in it. -/
theorem Reach.pageOut_invisible (h : Reach s last) : s.Invisible last :=
  h.inv.invisible

/-- The state, and the bytes last stored, after some steps. -/
def run (s : St A T) (last : A × ℕ → List UInt8) (acts : List (Act A T)) :
    St A T × (A × ℕ → List UInt8) :=
  acts.foldl (fun r act => (r.1.step act, r.1.stored r.2 act)) (s, last)

theorem Reach.run (h : Reach s last) (acts : List (Act A T)) :
    Reach (s.run last acts).1 (s.run last acts).2 := by
  induction acts generalizing s last with
  | nil => exact h
  | cons act acts ih => exact ih (h.step act)

/-- A byte is stored in a page, which is taken out of the tables, and faulted back in before
`page_out` has compressed it. -/
theorem Reach.pageOut_invisible_run :
    let s := (St.boot (fun _ => 0) (fun _ => ⟨[⟨uvmBase, uvmBase + 4096, 3⟩], 1, 1, 1⟩)
        (fun _ => List.replicate 4096 0) : St Unit Bool).run (fun _ => List.replicate 4096 0)
      [.fault true () uvmBase true true true true (some 7), .store () uvmBase 5,
        .pageOut false () true, .scan (uvmBase / 4096), .new true, .new true, .new true, .scanned,
        .fault true () uvmBase false true true true none]
    s.1.pte ((), uvmBase / 4096) = .page 7 3 ∧ s.1.Invisible s.2 := by
  refine ⟨by decide +kernel, Reach.pageOut_invisible (Reach.run (.boot _ _ _ (fun _ => ?_) fun _ => ?_) _)⟩
  · exact ⟨⟨by decide, by decide⟩, by decide, by decide⟩
  · exact List.length_replicate

end St

end BananaOS.Uspace
