import BananaOS.Lib.Owners
import BananaOS.Zswap.Content

/-!
# Where the pages are

A page is nowhere yet, in a frame, or in an entry of the swap; while its entry is pending it is
in both.  `Pages` says that each page is where its slot says it is, that each frame in use has
exactly one holder (a page, an unmapping that is about to free it, or `page_out` that is), and
that no two pages have one entry.  Its lemmas are the ways a page can move:

* `Pages.swap`: the swap moves data about;
* `Pages.bring`: into a new frame;
* `Pages.takeOut`, `Pages.putBack`: out of its frame into a pending entry, and back;
* `Pages.letGo`: the entry has the page, the frame goes to `page_out`;
* `Pages.drop`: unmapped, its frame goes to the unmapping;
* `Pages.freeGiven`, `Pages.freePg`: a frame that no page is in is freed;
* `Pages.write`: bytes are stored in a page.

The pages `Q` and the threads `T` are any types.
-/

namespace BananaOS.Uspace

open Lib Zswap Function

/-- Where a page is. -/
inductive Slot where
  | none
  | frame (f : ℕ)
  | entry (i : ℕ)
  deriving DecidableEq, Repr

namespace Slot

/-- The frames that the page holds. -/
def frames (z : Zs) : Slot → Finset ℕ
  | none => ∅
  | frame f => {f}
  | entry i => if (z.ent i).state = .pending then {(z.ent i).frame} else ∅

/-- The page's bytes are `b`. -/
def Home (z : Zs) (mem : ℕ → List UInt8) (b : List UInt8) : Slot → Prop
  | none => b = List.replicate 4096 0
  | frame f => mem f = b
  | entry i => (z.ent i).state = .pending ∧ mem (z.ent i).frame = b ∨ z.Holds i b

variable {z z' : Zs} {mem mem' : ℕ → List UInt8} {b : List UInt8} {sl : Slot}

theorem not_pending_of_holds {i : ℕ} (h : z.Holds i b) : (z.ent i).state ≠ .pending := by
  intro hp
  rcases h with h | h <;> rw [hp] at h <;> exact Bool.noConfusion h.1

theorem frames_pending {i : ℕ} (h : (z.ent i).state = .pending) :
    (entry i).frames z = {(z.ent i).frame} := if_pos h

theorem frames_holds {i : ℕ} (h : z.Holds i b) : (entry i).frames z = ∅ :=
  if_neg (not_pending_of_holds h)

/-- An entry that is where it was holds the frame it held. -/
theorem frames_keeps (h : sl.Home z mem b) (hk : ∀ i, sl = entry i → z.Keeps i z') :
    sl.frames z' = sl.frames z := by
  cases sl with
  | none => rfl
  | frame f => rfl
  | entry i =>
    have hk := hk i rfl
    rcases h with ⟨hp, -⟩ | hh
    · obtain ⟨hp', hf⟩ := hk.pending hp
      rw [frames_pending hp, frames_pending hp', hf]
    · rw [frames_holds hh, frames_holds (hk.holds b hh)]

/-- A page stays home when its entry is where it was and its frame is not written. -/
theorem Home.keeps (h : sl.Home z mem b) (hk : ∀ i, sl = entry i → z.Keeps i z')
    (hm : ∀ f ∈ sl.frames z, mem' f = mem f) : sl.Home z' mem' b := by
  cases sl with
  | none => exact h
  | frame f => exact (hm f (Finset.mem_singleton_self f)).trans h
  | entry i =>
    have hk := hk i rfl
    rcases h with ⟨hp, hb⟩ | hh
    · obtain ⟨hp', hf⟩ := hk.pending hp
      refine Or.inl ⟨hp', ?_⟩
      rw [hf, hm, hb]
      rw [frames_pending hp]
      exact Finset.mem_singleton_self _
    · exact Or.inr (hk.holds b hh)

end Slot

variable {Q T : Type*}

/-- Who has which frames: the pages, the unmappings, `page_out`. -/
def holders (z : Zs) (slot : Q → Slot) (pgs : T → List ℕ) (given : Option ℕ) :
    Q ⊕ (T ⊕ Unit) → Finset ℕ :=
  Sum.elim (fun q => (slot q).frames z) (Sum.elim (fun t => (pgs t).toFinset) fun _ =>
    given.toFinset)

/-- Each page is where its slot says it is, and each frame in use has one holder. -/
structure Pages (z : Zs) (mem : ℕ → List UInt8) (refs : ℕ → ℕ) (slot : Q → Slot)
    (pgs : T → List ℕ) (given : Option ℕ) (last : Q → List UInt8) (cov : Q → Prop) : Prop where
  shares : Shares (fun f => decide (refs f ≠ 0)) (holders z slot pgs given)
  refs_le : ∀ f, refs f ≤ 1
  nodup : ∀ t, (pgs t).Nodup
  memLen : ∀ f, (mem f).length = 4096
  home : ∀ q, ∃ b, (slot q).Home z mem b ∧ b.length = 4096 ∧ (cov q → b = last q)
  alone : ∀ q q' i, slot q = .entry i → slot q' = .entry i → q = q'

namespace Pages

variable {z z' : Zs} {mem : ℕ → List UInt8} {refs : ℕ → ℕ} {slot : Q → Slot} {pgs : T → List ℕ}
  {given : Option ℕ} {last : Q → List UInt8} {cov : Q → Prop} {q : Q} {t : T} {f i : ℕ}
  {b : List UInt8}

theorem refs_ne (h : Pages z mem refs slot pgs given last cov) (hf : f ∈ (slot q).frames z) :
    refs f ≠ 0 :=
  of_decide_eq_true ((h.shares.mem f).mpr ⟨Sum.inl q, hf⟩)

theorem page_eq (h : Pages z mem refs slot pgs given last cov) {q' : Q}
    (hf : f ∈ (slot q).frames z) (hf' : f ∈ (slot q').frames z) : q = q' := by
  by_contra hne
  exact Finset.disjoint_left.mp
    (h.shares.disjoint (Sum.inl q) (Sum.inl q') (by simpa using hne)) hf hf'

variable [DecidableEq Q]

/-- What the pages hold after one of them moved, and entries of other pages stayed. -/
theorem frames_update (h : Pages z mem refs slot pgs given last cov)
    (hk : ∀ q', q' ≠ q → ∀ i, slot q' = .entry i → z.Keeps i z') (sl : Slot) :
    (fun q' => (update slot q sl q').frames z') =
      update (fun q' => (slot q').frames z) q (sl.frames z') := by
  ext1 q'
  rcases eq_or_ne q' q with rfl | hne
  · rw [update_self, update_self]
  · rw [update_of_ne hne, update_of_ne hne]
    obtain ⟨b, hb, -⟩ := h.home q'
    exact Slot.frames_keeps hb (hk q' hne)

/-- The pages that did not move are home, if only `W` was written. -/
theorem home_update (h : Pages z mem refs slot pgs given last cov) (mem' : ℕ → List UInt8)
    (hk : ∀ q', q' ≠ q → ∀ i, slot q' = .entry i → z.Keeps i z') (sl : Slot)
    (hm : ∀ q', q' ≠ q → ∀ f ∈ (slot q').frames z, mem' f = mem f)
    (hq : ∃ b, sl.Home z' mem' b ∧ b.length = 4096 ∧ (cov q → b = last q)) (q' : Q) :
    ∃ b, (update slot q sl q').Home z' mem' b ∧ b.length = 4096 ∧ (cov q' → b = last q') := by
  rcases eq_or_ne q' q with rfl | hne
  · rwa [update_self]
  · rw [update_of_ne hne]
    obtain ⟨b, hb, hl⟩ := h.home q'
    exact ⟨b, hb.keeps (hk q' hne) (hm q' hne), hl⟩

/-- No two pages have one entry, after a page left its entry or got one that no page has. -/
theorem alone_update (h : Pages z mem refs slot pgs given last cov) {sl : Slot}
    (hnew : ∀ i, sl = .entry i → ∀ q', q' ≠ q → slot q' ≠ .entry i) (q₁ q₂ : Q) (i : ℕ)
    (h1 : update slot q sl q₁ = .entry i) (h2 : update slot q sl q₂ = .entry i) : q₁ = q₂ := by
  rcases eq_or_ne q₁ q with rfl | hne1
  · rcases eq_or_ne q₂ q₁ with rfl | hne2
    · rfl
    · rw [update_self] at h1
      rw [update_of_ne hne2] at h2
      exact absurd h2 (hnew i h1 q₂ hne2)
  · rw [update_of_ne hne1] at h1
    rcases eq_or_ne q₂ q with rfl | hne2
    · rw [update_self] at h2
      exact absurd h1 (hnew i h2 q₁ hne1)
    · rw [update_of_ne hne2] at h2
      exact h.alone q₁ q₂ i h1 h2

variable [DecidableEq T]

theorem holders_page (h : Pages z mem refs slot pgs given last cov)
    (hk : ∀ q', q' ≠ q → ∀ i, slot q' = .entry i → z.Keeps i z') (sl : Slot) :
    holders z' (update slot q sl) pgs given =
      update (holders z slot pgs given) (Sum.inl q) (sl.frames z') := by
  rw [holders, h.frames_update hk, holders, Sum.update_elim_inl]

theorem move (h : Pages z mem refs slot pgs given last cov)
    (hk : ∀ q', q' ≠ q → ∀ i, slot q' = .entry i → z.Keeps i z') {sl : Slot}
    (hfr : sl.frames z' = (slot q).frames z)
    (hhome : ∀ b, (slot q).Home z mem b → sl.Home z' mem b)
    (hnew : ∀ i, sl = .entry i → ∀ q', q' ≠ q → slot q' ≠ .entry i) :
    Pages z' mem refs (update slot q sl) pgs given last cov := by
  refine ⟨?_, h.refs_le, h.nodup, h.memLen, h.home_update _ hk _ (fun _ _ _ _ => rfl) ?_,
    h.alone_update hnew⟩
  · rw [h.holders_page hk, hfr]
    have := h.shares
    rwa [← update_eq_self (Sum.inl q) (holders z slot pgs given)] at this
  · obtain ⟨b, hb, hl⟩ := h.home q
    exact ⟨b, hhome b hb, hl⟩

omit [DecidableEq Q] [DecidableEq T] in
/-- The swap moves data about. -/
theorem swap (h : Pages z mem refs slot pgs given last cov)
    (hk : ∀ q i, slot q = .entry i → z.Keeps i z') :
    Pages z' mem refs slot pgs given last cov := by
  have hfr : (fun q => (slot q).frames z') = fun q => (slot q).frames z := by
    ext1 q
    obtain ⟨b, hb, -⟩ := h.home q
    exact Slot.frames_keeps hb (hk q)
  refine ⟨?_, h.refs_le, h.nodup, h.memLen, fun q => ?_, h.alone⟩
  · rw [holders, hfr]
    exact h.shares
  · obtain ⟨b, hb, hl⟩ := h.home q
    exact ⟨b, hb.keeps (hk q) fun _ _ => rfl, hl⟩

/-- A page that is not in a frame gets one, with its bytes. -/
theorem bring (h : Pages z mem refs slot pgs given last cov)
    (hk : ∀ q', q' ≠ q → ∀ i, slot q' = .entry i → z.Keeps i z')
    (hq : (slot q).frames z = ∅) (hf : refs f = 0) (hb : b.length = 4096)
    (hlast : cov q → b = last q) :
    Pages z' (update mem f b) (update refs f 1) (update slot q (.frame f)) pgs given last cov := by
  have hother : ∀ q' : Q, ∀ f' ∈ (slot q').frames z, update mem f b f' = mem f' := by
    intro q' f' hf'
    refine update_of_ne ?_ ..
    rintro rfl
    exact h.refs_ne hf' hf
  refine ⟨?_, fun f' => ?_, h.nodup, fun f' => ?_, h.home_update _ hk _ (fun q' _ => hother q') ?_,
    h.alone_update fun i hi => by cases hi⟩
  · rw [h.holders_page hk]
    refine h.shares.grant (o := Sum.inl q) hq (fun a ha => ?_) fun a => ?_
    · rw [Slot.frames, Finset.mem_singleton] at ha
      simp [ha, hf]
    · rcases eq_or_ne a f with rfl | hne
      · simp [Slot.frames]
      · simp [Slot.frames, hne]
  · rcases eq_or_ne f' f with rfl | hne
    · rw [update_self]
    · rw [update_of_ne hne]
      exact h.refs_le f'
  · rcases eq_or_ne f' f with rfl | hne
    · rwa [update_self]
    · rw [update_of_ne hne]
      exact h.memLen f'
  · exact ⟨b, update_self .., hb, hlast⟩

/-- A page is taken out of the tables, into a new entry that is pending with its frame. -/
theorem takeOut (h : Pages z mem refs slot pgs given last cov)
    (hk : ∀ q', q' ≠ q → ∀ i, slot q' = .entry i → z.Keeps i z') (hq : slot q = .frame f)
    (hp : (z'.ent i).state = .pending) (hf : (z'.ent i).frame = f)
    (hnew : ∀ q', slot q' ≠ .entry i) :
    Pages z' mem refs (update slot q (.entry i)) pgs given last cov := by
  refine h.move hk ?_ (fun b hb => ?_) fun j hj q' _ => ?_
  · rw [hq, Slot.frames_pending hp, hf]
    rfl
  · rw [hq] at hb
    exact Or.inl ⟨hp, by rw [hf]; exact hb⟩
  · cases hj
    exact hnew q'

theorem putBack (h : Pages z mem refs slot pgs given last cov)
    (hk : ∀ q', q' ≠ q → ∀ i, slot q' = .entry i → z.Keeps i z') (hq : slot q = .entry i)
    (hp : (z.ent i).state = .pending) :
    Pages z' mem refs (update slot q (.frame (z.ent i).frame)) pgs given last cov := by
  refine h.move hk ?_ (fun b hb => ?_) fun j hj => ?_
  · rw [hq, Slot.frames_pending hp]
    rfl
  · rw [hq] at hb
    rcases hb with hb | hb
    · exact hb.2
    · exact absurd hp (Slot.not_pending_of_holds hb)
  · cases hj

/-- A pending entry gets the page: the frame goes to `page_out`. -/
theorem letGo (h : Pages z mem refs slot pgs none last cov)
    (hk : ∀ q', q' ≠ q → ∀ i, slot q' = .entry i → z.Keeps i z') (hq : slot q = .entry i)
    (hp : (z.ent i).state = .pending) (hh : z'.Holds i (mem (z.ent i).frame)) :
    Pages z' mem refs slot pgs (some (z.ent i).frame) last cov := by
  have hfr : (slot q).frames z = {(z.ent i).frame} := by rw [hq, Slot.frames_pending hp]
  have hfr' : (slot q).frames z' = ∅ := by rw [hq, Slot.frames_holds hh]
  have hslot : update slot q (slot q) = slot := update_eq_self ..
  have hpage := h.holders_page hk (slot q)
  rw [hslot, hfr'] at hpage
  refine ⟨?_, h.refs_le, h.nodup, h.memLen, fun q' => ?_, h.alone⟩
  · have hs := h.shares.hand (show Sum.inl q ≠ Sum.inr (Sum.inr ()) by simp)
      (Finset.Subset.refl _)
    have heq : holders z' slot pgs (some (z.ent i).frame) =
        update (holders z' slot pgs none) (Sum.inr (Sum.inr ())) {(z.ent i).frame} := by
      ext1 o
      rcases o with q' | t' | u <;> simp [holders]
    rw [heq, hpage]
    have h1 : holders z slot pgs none (Sum.inl q) = {(z.ent i).frame} := hfr
    have h2 : holders z slot pgs none (Sum.inr (Sum.inr ())) = ∅ := rfl
    rwa [h1, h2, Finset.sdiff_self, Finset.empty_union] at hs
  · have := h.home_update mem hk (slot q) (fun _ _ _ _ => rfl) ?_ q'
    · rwa [hslot] at this
    · obtain ⟨b, hb, hl⟩ := h.home q
      refine ⟨b, ?_, hl⟩
      rw [hq] at hb ⊢
      rcases hb with hb | hb
      · rw [hb.2] at hh
        exact Or.inr hh
      · exact absurd hp (Slot.not_pending_of_holds hb)

/-- A page is unmapped: its frame goes to the unmapping. -/
theorem drop (h : Pages z mem refs slot pgs given last cov)
    (hk : ∀ q', q' ≠ q → ∀ i, slot q' = .entry i → z.Keeps i z') (hcov : ¬ cov q) {fs : List ℕ}
    (hfs : fs.toFinset = (slot q).frames z) (hnd : fs.Nodup) :
    Pages z' mem refs (update slot q .none) (update pgs t (pgs t ++ fs)) given last cov := by
  refine ⟨?_, h.refs_le, fun t' => ?_, h.memLen, h.home_update _ hk _ (fun _ _ _ _ => rfl)
    ⟨_, rfl, List.length_replicate, fun hc => absurd hc hcov⟩, h.alone_update fun i hi => by cases hi⟩
  · have hs := h.shares.hand (show Sum.inl q ≠ Sum.inr (Sum.inl t) by simp)
      (Finset.Subset.refl _)
    have heq : holders z' (update slot q .none) (update pgs t (pgs t ++ fs)) given =
        update (holders z' (update slot q .none) pgs given) (Sum.inr (Sum.inl t))
          ((pgs t).toFinset ∪ fs.toFinset) := by
      ext1 o
      rcases o with q' | t' | u
      · simp [holders]
      · rcases eq_or_ne t' t with rfl | hne
        · simp [holders]
        · simp [holders, hne]
      · simp [holders]
    rw [heq, h.holders_page hk, hfs]
    have h1 : holders z slot pgs given (Sum.inl q) = (slot q).frames z := rfl
    have h2 : holders z slot pgs given (Sum.inr (Sum.inl t)) = (pgs t).toFinset := rfl
    rwa [h1, h2, Finset.sdiff_self] at hs
  · rcases eq_or_ne t' t with rfl | hne
    · rw [update_self, List.nodup_append]
      refine ⟨h.nodup t', hnd, fun a ha b hb hab => ?_⟩
      subst hab
      refine Finset.disjoint_left.mp (h.shares.disjoint (Sum.inr (Sum.inl t')) (Sum.inl q) (by simp))
        (List.mem_toFinset.mpr ha) ?_
      change a ∈ (slot q).frames z
      rw [← hfs]
      exact List.mem_toFinset.mpr hb
    · rw [update_of_ne hne]
      exact h.nodup t'

omit [DecidableEq Q] [DecidableEq T] in
theorem refs_update_le (h : Pages z mem refs slot pgs given last cov) (f f' : ℕ) :
    update refs f (refs f - 1) f' ≤ 1 := by
  rcases eq_or_ne f' f with rfl | hne
  · rw [update_self]
    exact (Nat.sub_le ..).trans (h.refs_le f')
  · rw [update_of_ne hne]
    exact h.refs_le f'

/-- `page_out` frees the frame it was given. -/
theorem freeGiven (h : Pages z mem refs slot pgs (some f) last cov) :
    Pages z mem (update refs f (refs f - 1)) slot pgs none last cov := by
  have hle := h.refs_le f
  refine ⟨?_, h.refs_update_le f, h.nodup, h.memLen, h.home, h.alone⟩
  have heq : holders z slot pgs none =
      update (holders z slot pgs (some f)) (Sum.inr (Sum.inr ())) ∅ := by
    ext1 o
    rcases o with q' | t' | u <;> simp [holders]
  rw [heq]
  refine h.shares.revoke fun a => ?_
  have hown : holders z slot pgs (some f) (Sum.inr (Sum.inr ())) = {f} := by simp [holders]
  rw [hown, Finset.mem_singleton]
  rcases eq_or_ne a f with rfl | hne
  · simp
    omega
  · simp [hne]

/-- An unmapping frees one of its frames. -/
theorem freePg (h : Pages z mem refs slot pgs given last cov) {pg : List ℕ}
    (hpg : pgs t = f :: pg) :
    Pages z mem (update refs f (refs f - 1)) slot (update pgs t pg) given last cov := by
  have hle := h.refs_le f
  have hnd := h.nodup t
  rw [hpg, List.nodup_cons] at hnd
  refine ⟨?_, h.refs_update_le f, fun t' => ?_, h.memLen, h.home, h.alone⟩
  · have heq : holders z slot (update pgs t pg) given =
        update (holders z slot pgs given) (Sum.inr (Sum.inl t)) pg.toFinset := by
      ext1 o
      rcases o with q' | t' | u
      · simp [holders]
      · rcases eq_or_ne t' t with rfl | hne
        · simp [holders]
        · simp [holders, hne]
      · simp [holders]
    have hown : holders z slot pgs given (Sum.inr (Sum.inl t)) = insert f pg.toFinset := by
      simp [holders, hpg]
    rw [heq]
    refine h.shares.set (fun a ha => ?_) fun a => ?_
    · rw [hown]
      exact Or.inl (Finset.mem_insert_of_mem ha)
    · rw [hown]
      rcases eq_or_ne a f with rfl | hne
      · simp [hnd.1]
        omega
      · have hmem : a ∈ pg → refs a ≠ 0 := fun ha => of_decide_eq_true
          ((h.shares.mem a).mpr ⟨Sum.inr (Sum.inl t), by rw [hown]; simp [ha]⟩)
        simp only [update_of_ne hne, decide_eq_true_eq, Finset.mem_insert, List.mem_toFinset]
        tauto
  · rcases eq_or_ne t' t with rfl | hne
    · rw [update_self]
      exact hnd.2
    · rw [update_of_ne hne]
      exact h.nodup t'

omit [DecidableEq T] in
/-- Bytes are stored in a page. -/
theorem write (h : Pages z mem refs slot pgs given last cov) (hq : slot q = .frame f)
    (hb : b.length = 4096) {c : List UInt8} (hlast : cov q → b = c) :
    Pages z (update mem f b) refs slot pgs given (update last q c) cov := by
  refine ⟨h.shares, h.refs_le, h.nodup, fun f' => ?_, fun q' => ?_, h.alone⟩
  · rcases eq_or_ne f' f with rfl | hne
    · rwa [update_self]
    · rw [update_of_ne hne]
      exact h.memLen f'
  · have hfq : f ∈ (slot q).frames z := by
      rw [hq]
      exact Finset.mem_singleton_self f
    rcases eq_or_ne q' q with rfl | hne
    · refine ⟨b, ?_, hb, fun hc => ?_⟩
      · rw [hq]
        exact update_self ..
      · rw [update_self]
        exact hlast hc
    · obtain ⟨b', hb', hl⟩ := h.home q'
      refine ⟨b', hb'.keeps (fun i hi => ?_) fun f' hf' => update_of_ne ?_ .., hl.1, fun hc => ?_⟩
      · exact .of_body (fun _ => rfl) fun _ => rfl
      · rintro rfl
        exact hne (h.page_eq hf' hfq)
      · rw [update_of_ne hne]
        exact hl.2 hc

omit [DecidableEq Q] [DecidableEq T] in
/-- Less is covered. -/
theorem uncover (h : Pages z mem refs slot pgs given last cov) {cov' : Q → Prop}
    (hc : ∀ q, cov' q → cov q) : Pages z mem refs slot pgs given last cov' := by
  refine ⟨h.shares, h.refs_le, h.nodup, h.memLen, fun q => ?_, h.alone⟩
  obtain ⟨b, hb, hl⟩ := h.home q
  exact ⟨b, hb, hl.1, fun hq => hl.2 (hc q hq)⟩

end Pages

end BananaOS.Uspace
