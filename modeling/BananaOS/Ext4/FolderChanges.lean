import BananaOS.Ext4.Folders
import BananaOS.Ext4.Maps
import Mathlib.Data.Finset.Range
import Mathlib.Data.Finset.Card

/-!
# What the operations do to a folder

`Folder fs ino r e t L` says that inode `ino` is a folder with the blocks `L`, each a list of entries
that tile it.  `dir_find` finds the first live entry of a name; `dir_add` and `dir_remove` change the
entries of one block, or add a block at the end.  `Beside` is what they leave alone: the other inodes,
and every block that was in use and is not the folder's.
-/

namespace BananaOS.Ext4

open Lib Function

/-- A folder on the volume, and the entries of its blocks. -/
structure Folder (fs : Fsys) (ino : ℕ) (r : Blk) (e : List Ext) (t : List ℕ) (L : List (List Ent)) :
    Prop where
  vol : fs.vol.Ok
  inode : fs.iread ino = some r
  dir : isDirI r = true
  filed : Filed fs.vol r e t
  size : iSize r = L.length * bs
  entries : ∀ k l, L[k]? = some l → ∃ b u, emapAt e k = some (b, u) ∧ Entries (fs.vol.data b) l
  past : ∀ k, L.length ≤ k → emapAt e k = none
  named : ∀ l ∈ L, ∀ s ∈ l, s.ino ≠ 0 → s.name ≠ []
  distinct : ((L.flatMap items).map Prod.fst).Nodup

/-- What an operation on file `ino`, whose blocks are `own`, leaves alone. -/
structure Beside (fs fs' : Fsys) (ino : ℕ) (own : ℕ → Prop) : Prop where
  nblocks : fs'.vol.nblocks = fs.vol.nblocks
  ipg : fs'.ipg = fs.ipg
  node : ∀ j ≠ ino, fs'.node j = fs.node j
  used : ∀ b, fs.vol.used b = true → ¬ own b → fs'.vol.used b = true
  data : ∀ b, fs.vol.used b = true → ¬ own b → fs'.vol.data b = fs.vol.data b

variable {fs fs' : Fsys} {ino dino p off now type k : ℕ} {r r' b' : Blk} {e : List Ext} {t : List ℕ}
  {L L₁ L₂ : List (List Ent)} {l l' l₁ l₂ : List Ent} {s : Ent} {name : List UInt8} {d : Dir}

theorem Beside.refl {own : ℕ → Prop} : Beside fs fs ino own :=
  ⟨rfl, rfl, fun _ _ => rfl, fun _ h _ => h, fun _ _ _ => rfl⟩

theorem Beside.iread {own : ℕ → Prop} (h : Beside fs fs' ino own) {j : ℕ} (hj : j ≠ ino) :
    fs'.iread j = fs.iread j := by
  unfold Fsys.iread Vol.groups
  rw [h.nblocks, h.ipg, h.node j hj]

theorem Folder.beside {own : ℕ → Prop} {j : ℕ} (h : Folder fs j r e t L)
    (hb : Beside fs fs' ino own) (hj : j ≠ ino) (hz : ¬ own 0) (hown : ∀ b, Owns e t b → ¬ own b) :
    Folder fs' j r e t L := by
  have hused : ∀ b, Owns e t b → fs.vol.used b = true → fs'.vol.used b = true := fun b hb' hu =>
    hb.used b hu (hown b hb')
  have hdata : ∀ b, Owns e t b → fs'.vol.data b = fs.vol.data b := fun b hb' =>
    hb.data b (h.filed.owns_used hb') (hown b hb')
  refine { h with vol := ?_, inode := ?_, filed := ?_, entries := fun k l hl => ?_ }
  · exact ⟨hb.nblocks ▸ h.vol.pos, hb.nblocks ▸ h.vol.small, hb.used 0 h.vol.zero hz⟩
  · rw [hb.iread hj]
    exact h.inode
  · exact h.filed.congr hb.nblocks hused (fun b hb' => hdata b (.inl hb')) fun _ _ _ => rfl
  · obtain ⟨b, u, h1, h2⟩ := h.entries k l hl
    exact ⟨b, u, h1, by rwa [hdata b (.inr ⟨k, u, h1⟩)]⟩

/-! ## Opening and finding -/

theorem Folder.length_lt (h : Folder fs ino r e t L) : L.length < 2 ^ 32 := by
  rcases Nat.eq_zero_or_pos L.length with h0 | hpos
  · omega
  · obtain ⟨b, u, h1, -⟩ := h.entries (L.length - 1) _ (List.getElem?_eq_getElem (by omega))
    obtain ⟨x, hx, hhas, -⟩ := exists_of_emapAt h1
    have := (h.filed.sorted.ok x hx).lend
    have := hhas.2
    omega

theorem Folder.open (h : Folder fs ino r e t L) :
    ∃ d, dirOpen fs ino = some d ∧ d.r = r ∧ d.m.e = e ∧ d.m.tree = t ∧ d.nblk = L.length := by
  obtain ⟨m, hm, he, ht⟩ := h.filed.load h.vol
  refine ⟨⟨r, m, L.length⟩, ?_, rfl, he, ht, rfl⟩
  unfold dirOpen
  rw [h.inode]
  simp only
  rw [if_neg (by simp [h.dir]), hm, Option.map_some, h.size, Nat.mul_div_cancel _ (by decide),
    u32_of_lt h.length_lt]

/-- Where a list that is sorted maps a block, `emap_find` finds it. -/
theorem emapFind_at {b : ℕ} {u : Bool} (he : Sorted e) (h : emapAt e k = some (b, u)) :
    (emapFind e k).1 = b ∧ (emapFind e k).2.1 = u := by
  obtain ⟨y, hy, hhas, -⟩ := exists_of_emapAt h
  have hlt : k < 2 ^ 32 := by
    have := (he.ok y hy).lend
    have := hhas.2
    omega
  rcases emapFind_faithful he hlt with ⟨x, -, -, h1, h2⟩ | ⟨run, -, h1, h2, -⟩ | ⟨-, h1⟩
  · rw [h] at h1
    cases h1
    rw [h2]
    exact ⟨rfl, rfl⟩
  · have := h1 0 h2
    rw [Nat.add_zero, h] at this
    cases this
  · rw [h1 k le_rfl] at h
    cases h

theorem Folder.block (h : Folder fs ino r e t L) (he : d.m.e = e) (hl : L[k]? = some l) :
    ∃ b u, emapAt e k = some (b, u) ∧ dirBlock d k = some b ∧ Entries (fs.vol.data b) l := by
  obtain ⟨b, u, h1, h2⟩ := h.entries k l hl
  refine ⟨b, u, h1, ?_, h2⟩
  unfold dirBlock
  rw [he, (emapFind_at h.filed.sorted h1).1]
  exact if_neg (h.filed.used k b u h1).1

/-- What a search over the blocks of a folder finds: in the first block in which something is found. -/
theorem Folder.findSome {α : Type} {f : ℕ → ℕ → Option α} (h : Folder fs ino r e t L)
    (he : d.m.e = e) (hn : d.nblk = L.length) :
    (∃ L₁ l L₂ b u a, L = L₁ ++ l :: L₂ ∧ emapAt e L₁.length = some (b, u) ∧
        dirBlock d L₁.length = some b ∧ Entries (fs.vol.data b) l ∧ f L₁.length b = some a ∧
        ((List.range d.nblk).findSome? fun k => (dirBlock d k).bind (f k)) = some a ∧
        ∀ k < L₁.length, ∀ b u, emapAt e k = some (b, u) → f k b = none) ∨
      ((List.range d.nblk).findSome? fun k => (dirBlock d k).bind (f k)) = none ∧
        ∀ k < L.length, ∀ b u, emapAt e k = some (b, u) → f k b = none := by
  have hget : ∀ k < L.length, ∀ b u, emapAt e k = some (b, u) → dirBlock d k = some b :=
    fun k hk b u hb => by
      obtain ⟨b', u', h1, h2, -⟩ := h.block (d := d) he (List.getElem?_eq_getElem hk)
      rw [hb] at h1
      cases h1
      exact h2
  rw [hn]
  cases hf : (List.range L.length).findSome? fun k => (dirBlock d k).bind (f k) with
  | none =>
    refine .inr ⟨rfl, fun k hk b u hb => ?_⟩
    have := List.findSome?_eq_none_iff.mp hf k (List.mem_range.mpr hk)
    rwa [hget k hk b u hb] at this
  | some a =>
    obtain ⟨K₁, k, K₂, h1, h2, h3⟩ := List.findSome?_eq_some_iff.mp hf
    have hk : k < L.length := List.mem_range.mp (h1 ▸ by simp)
    -- the numbers before `k` are those below it
    have hK : K₁ = List.range k := by
      rw [List.range_eq_range'] at h1 ⊢
      obtain ⟨j, -, h4, h5⟩ := List.range'_eq_append_iff.mp h1
      obtain ⟨h6, -⟩ := List.range'_eq_cons_iff.mp h5.symm
      rw [h4, ← h6, Nat.zero_add, Nat.mul_one]
    have hL : L = L.take k ++ L[k] :: L.drop (k + 1) := by
      rw [← List.drop_eq_getElem_cons, List.take_append_drop]
    have hlen : (L.take k).length = k := by
      rw [List.length_take]
      omega
    obtain ⟨b, u, h4, h5, h6⟩ := h.block (d := d) he (List.getElem?_eq_getElem hk)
    rw [h5, Option.bind_some] at h2
    refine .inl ⟨L.take k, L[k], L.drop (k + 1), b, u, a, hL, ?_⟩
    rw [hlen]
    refine ⟨h4, h5, h6, h2, rfl, fun k' hk' b' u' hb' => ?_⟩
    have := h3 k' (hK ▸ List.mem_range.mpr hk')
    rwa [hget k' (by omega) b' u' hb'] at this

/-- What `dir_find` finds: the live entry of the name. -/
theorem Folder.find (h : Folder fs ino r e t L) (he : d.m.e = e) (hn : d.nblk = L.length) :
    (∃ L₁ l₁ s l₂ L₂ b u, L = L₁ ++ (l₁ ++ s :: l₂) :: L₂ ∧ emapAt e L₁.length = some (b, u) ∧
        dirBlock d L₁.length = some b ∧ s.Is name ∧ Entries (fs.vol.data b) (l₁ ++ s :: l₂) ∧
        dirFind fs.vol d name =
          some ⟨s.ino, s.type, L₁.length, span Ent.rl l₁, prevOf none 0 l₁⟩) ∨
      dirFind fs.vol d name = none ∧ ∀ l ∈ L, ∀ s ∈ l, ¬ s.Is name := by
  rcases h.findSome (f := fun k p => findIn (fs.vol.data p) k name) he hn with
    ⟨L₁, l, L₂, b, u, a, hL, h1, h2, h3, h4, h5, -⟩ | ⟨h1, h2⟩
  · left
    have hspec := @findIn_spec _ L₁.length name _ h3
    rw [h4] at hspec
    cases hspec with
    | some l₁ s l₂ hl _ his =>
      subst hl
      exact ⟨L₁, l₁, s, l₂, L₂, b, u, hL, h1, h2, his, h3, h5⟩
  · refine .inr ⟨h1, fun l hl s hs his => ?_⟩
    obtain ⟨k, hk, rfl⟩ := List.getElem_of_mem hl
    obtain ⟨b, u, h3, h4⟩ := h.entries k _ (List.getElem?_eq_getElem hk)
    have hspec := @findIn_spec _ k name _ h4
    rw [h2 k hk b u h3] at hspec
    cases hspec with
    | none hnone => exact hnone s hs his

/-! ## One block changed -/

theorem Vol.set_data_self {v : Vol} : (v.set p b').data p = b' := if_pos rfl

theorem Vol.set_data_ne {v : Vol} {b : ℕ} (h : b ≠ p) : (v.set p b').data b = v.data b := if_neg h

/-- An inode is read as it was written. -/
theorem Fsys.iread_iwrite (h : fs.iread ino = some r) : (fs.iwrite ino r').iread ino = some r' := by
  unfold iread at h
  unfold iread iwrite
  simp only [update_self]
  split_ifs at h with h0
  exact if_neg h0

/-- The entries of one block are others, and the times of the inode. -/
theorem Folder.setBlock {u : Bool} (h : Folder fs ino r e t (L₁ ++ l :: L₂))
    (hp : emapAt e L₁.length = some (p, u)) (hl : Entries b' l')
    (hnamed : ∀ s ∈ l', s.ino ≠ 0 → s.name ≠ [])
    (hdist : (((L₁ ++ l' :: L₂).flatMap items).map Prod.fst).Nodup) :
    Folder ({ fs with vol := fs.vol.set p b' }.iwrite ino (setTimes r now false true true)) ino
        (setTimes r now false true true) e t (L₁ ++ l' :: L₂) ∧
      Beside fs ({ fs with vol := fs.vol.set p b' }.iwrite ino (setTimes r now false true true)) ino
        (Owns e t) := by
  have hlen : (L₁ ++ l' :: L₂).length = (L₁ ++ l :: L₂).length := by simp
  refine ⟨⟨⟨h.vol.pos, h.vol.small, h.vol.zero⟩, ?_, ?_, ?_, ?_, fun k l₀ hk => ?_, fun k hk => ?_,
    fun l₀ hl₀ => ?_, hdist⟩, ⟨rfl, rfl, fun j hj => update_of_ne hj .., fun _ hb _ => hb,
    fun b hb hown => ?_⟩⟩
  · exact Fsys.iread_iwrite h.inode
  · exact (isDirI_congr fun i hi => setTimes_apart (by omega)).trans h.dir
  · refine h.filed.congr rfl (fun _ _ hb => hb) (fun b hb => ?_) fun i h1 _ => setTimes_apart (by omega)
    exact Vol.set_data_ne fun hbp => (h.filed.used _ _ _ hp).2.2 (hbp ▸ hb)
  · rw [hlen, ← h.size]
    exact iSize_congr fun i h1 h2 h3 => setTimes_apart (by omega)
  · by_cases hk' : k = L₁.length
    · subst hk'
      rw [List.getElem?_append_right le_rfl, Nat.sub_self, List.getElem?_cons_zero] at hk
      cases hk
      refine ⟨p, u, hp, ?_⟩
      change Entries ((fs.vol.set p b').data p) l'
      rwa [Vol.set_data_self]
    · have hk₀ : (L₁ ++ l :: L₂)[k]? = some l₀ := by
        rw [← hk]
        rcases Nat.lt_or_ge k L₁.length with hlt | hge
        · rw [List.getElem?_append_left hlt, List.getElem?_append_left hlt]
        · obtain ⟨j, hj⟩ : ∃ j, k - L₁.length = j + 1 := ⟨k - L₁.length - 1, by omega⟩
          rw [List.getElem?_append_right hge, List.getElem?_append_right hge, hj,
            List.getElem?_cons_succ, List.getElem?_cons_succ]
      obtain ⟨b, u', h1, h2⟩ := h.entries k l₀ hk₀
      refine ⟨b, u', h1, ?_⟩
      change Entries ((fs.vol.set p b').data b) l₀
      rwa [Vol.set_data_ne fun hbp => hk' (h.filed.inj _ _ _ _ _ h1 (hbp ▸ hp))]
  · exact h.past k (hlen ▸ hk)
  · rcases List.mem_append.mp hl₀ with hm | hm
    · exact h.named l₀ (List.mem_append_left _ hm)
    · rcases List.mem_cons.mp hm with rfl | hm
      · exact hnamed
      · exact h.named l₀ (List.mem_append_right _ (List.mem_cons_of_mem _ hm))
  · exact Vol.set_data_ne fun hbp => hown (.inr ⟨_, _, hbp ▸ hp⟩)

/-! ## One block more -/

/-- The entries of a block that `dir_add` makes for a name. -/
theorem entries_fresh (hino : ino < 2 ^ 32) (hname : name.length ≤ 255) (htype : type < 256) :
    Entries (blit zeros 0 (putDe zeros 0 ino bs name type) 0 bs) [⟨ino, bs, type, name⟩] := by
  have hlen := deLen_le hname
  have hde := @deAt_putDe zeros _ bs _ 0 _ hino hname htype (by decide) (by decide)
    (by decide) (by unfold bs; omega)
  refine ⟨hde.congr fun i h1 h2 => ?_, Nat.zero_add _⟩
  rw [blit, if_pos ⟨h1, by simpa using h2⟩, Nat.zero_add, Nat.sub_zero]

theorem emapFind_past {n : ℕ} (hs : Sorted e) (hn : n < 2 ^ 32)
    (hpast : ∀ k, n ≤ k → emapAt e k = none) : emapFind e n = (0, false, 2 ^ 32 - 1) := by
  rcases emapFind_faithful hs hn with ⟨x, -, -, h1, -⟩ | ⟨run, -, -, -, h1⟩ | ⟨h1, -⟩
  · rw [hpast n le_rfl] at h1
    cases h1
  · rw [hpast _ (by omega)] at h1
    cases h1
  · exact h1

theorem writeRound_first {ipg n size : ℕ} {m : EMap} {buf : Blk} {v : Vol} (hn : n + 1 < 2 ^ 32) :
    writeRound ipg ino (n * bs) buf bs size ⟨0, m, false, v⟩ =
      match writeBlock ipg ino n 1 ⟨0, m, false, v⟩ with
      | (none, s) => (false, s)
      | (some (pblk, run, fresh), s) =>
        (true, writeData buf bs size (n * bs) pblk run fresh s) := by
  have hpos : u64 (n * bs + 0) = n * bs := by
    unfold u64 bs
    omega
  have hlblk : u32 (n * bs / bs) = n := by
    rw [Nat.mul_div_cancel _ (by decide), u32_of_lt (by omega)]
  have hboff : n * bs % bs = 0 := Nat.mul_mod_left n bs
  unfold writeRound
  simp only [hpos, hlblk, hboff]
  rfl

/-- A write of one whole block at the end of a folder: there is no free block, or it gets one. -/
theorem doWrite_block {v : Vol} {m : EMap} {ipg n : ℕ} {buf : Blk} (hv : v.Ok) (hs : Sorted m.e)
    (hn : n + 1 < 2 ^ 32) (hsize : iSize r = n * bs) (hpast : ∀ k, n ≤ k → emapAt m.e k = none) :
    ((v.give (writeGoal m.e ipg ino n) 1).1.2 = 0 ∧
        doWrite ipg r m ino (n * bs) buf bs v = (false, r, m, false, v)) ∨
      ∃ b, b < v.nblocks ∧ v.used b = false ∧ doWrite ipg r m ino (n * bs) buf bs v =
        (true, setSize r ((n + 1) * bs), addMap m n b 1 false, true,
          (v.take (b / bpg) b 1).set b (blit zeros 0 buf 0 bs)) := by
  have hboff : n * bs % bs = 0 := Nat.mul_mod_left n bs
  have hblock : writeBlock ipg ino n 1 ⟨0, m, false, v⟩ =
      if (v.give (writeGoal m.e ipg ino n) 1).1.2 = 0 then
        (none, ⟨0, m, false, (v.give (writeGoal m.e ipg ino n) 1).2⟩)
      else (some ((v.give (writeGoal m.e ipg ino n) 1).1.1,
          (v.give (writeGoal m.e ipg ino n) 1).1.2, true),
        ⟨0, addMap m n (v.give (writeGoal m.e ipg ino n) 1).1.1
          (v.give (writeGoal m.e ipg ino n) 1).1.2 false, true,
          (v.give (writeGoal m.e ipg ino n) 1).2⟩) := by
    unfold writeBlock
    simp only [emapFind_past hs (by omega) hpast]
    rfl
  have hround := @writeRound_first ino ipg n (iSize r) m buf v hn
  rcases Decidable.em ((v.give (writeGoal m.e ipg ino n) 1).1.2 = 0) with hgot | hgot
  · left
    refine ⟨hgot, ?_⟩
    rw [if_pos hgot, (Vol.give_none hv.pos (by decide) hgot).1] at hblock
    have hloop : writeLoop ipg ino (n * bs) buf bs (iSize r) bs ⟨0, m, false, v⟩ =
        (false, ⟨0, m, false, v⟩) := by
      rw [show bs = 4095 + 1 from rfl, writeLoop, if_pos (Nat.succ_pos _),
        show 4095 + 1 = bs from rfl, hround, hblock]
    unfold doWrite
    simp only [hloop]
    rfl
  · right
    obtain ⟨b, k, hgive, h1, h2, h3, -, h5⟩ := Vol.give_some hv.pos (by decide) hgot
    obtain rfl : k = 1 := by omega
    rw [if_neg hgot, hgive] at hblock
    refine ⟨b, by omega, h5 b le_rfl (by omega), ?_⟩
    have hdata : writeData buf bs (iSize r) (n * bs) b 1 true
        ⟨0, addMap m n b 1 false, true, v.take (b / bpg) b 1⟩ =
          ⟨bs, addMap m n b 1 false, true,
            (v.take (b / bpg) b 1).set b (blit zeros 0 buf 0 bs)⟩ := by
      unfold writeData
      simp only [hboff]
      rfl
    have hloop : writeLoop ipg ino (n * bs) buf bs (iSize r) bs ⟨0, m, false, v⟩ =
        (true, ⟨bs, addMap m n b 1 false, true,
            (v.take (b / bpg) b 1).set b (blit zeros 0 buf 0 bs)⟩) := by
      rw [show bs = 4095 + 1 from rfl, writeLoop, if_pos (Nat.succ_pos _),
        show 4095 + 1 = bs from rfl, hround, hblock]
      simp only
      rw [hdata, show 4095 = 4094 + 1 from rfl, writeLoop, if_neg (lt_irrefl _)]
    have hsum : u64 (n * bs + bs) = (n + 1) * bs := by
      unfold u64 bs
      omega
    have hmore : (n + 1) * bs > n * bs := by
      unfold bs
      omega
    unfold doWrite
    simp only [hloop, hsum, if_true]
    rw [hsize, if_pos hmore]

/-- What the end of `dir_add` does: nothing, for want of a block; a block is taken and its place is not
stored; or the folder has one block more. -/
inductive Grown (fs : Fsys) (dino : ℕ) (e : List Ext) (t : List ℕ) (L : List (List Ent)) :
    Bool × Fsys → Prop
  | full : Grown fs dino e t L (false, fs)
  | lost {fs' : Fsys} {b : ℕ} : Beside fs fs' dino (Owns e t) → fs.vol.used b = false →
      fs'.vol.used b = true → Grown fs dino e t L (false, fs')
  | more {fs' : Fsys} {r' : Blk} {e' : List Ext} {t' : List ℕ} : Folder fs' dino r' e' t' L →
      Beside fs fs' dino (Owns e t) → Grown fs dino e t L (true, fs')

/-- A folder's blocks are fewer than the volume's. -/
theorem Folder.length_lt_nblocks (h : Folder fs ino r e t L) : L.length < fs.vol.nblocks := by
  have hcard : (Finset.range L.length).card ≤ ((Finset.range fs.vol.nblocks).erase 0).card := by
    refine Finset.card_le_card_of_injOn (fun k => (emapFind e k).1) (fun k hk => ?_)
      fun k hk k' hk' heq => ?_
    · obtain ⟨b, u, h1, -⟩ := h.entries k _ (List.getElem?_eq_getElem (Finset.mem_range.mp hk))
      simp only [(emapFind_at h.filed.sorted h1).1]
      exact Finset.mem_coe.mpr (Finset.mem_erase.mpr ⟨(h.filed.used k b u h1).1,
        Finset.mem_range.mpr (h.filed.owns_lt (.inr ⟨k, u, h1⟩))⟩)
    · obtain ⟨b, u, h1, -⟩ := h.entries k _ (List.getElem?_eq_getElem (Finset.mem_range.mp hk))
      obtain ⟨b', u', h1', -⟩ := h.entries k' _ (List.getElem?_eq_getElem (Finset.mem_range.mp hk'))
      simp only [(emapFind_at h.filed.sorted h1).1, (emapFind_at h.filed.sorted h1').1] at heq
      subst heq
      exact h.filed.inj _ _ _ _ _ h1 h1'
  rw [Finset.card_range, Finset.card_erase_of_mem (Finset.mem_range.mpr h.vol.pos),
    Finset.card_range] at hcard
  have := h.vol.pos
  omega

theorem Folder.grow (h : Folder fs dino r e t L) (hr : d.r = r) (he : d.m.e = e) (ht : d.m.tree = t)
    (hn : d.nblk = L.length) (hino : ino ≠ 0) (hino' : ino < 2 ^ 32) (hname : name ≠ [])
    (hname' : name.length ≤ 255) (htype : type < 256)
    (hnew : ∀ l ∈ L, ∀ s ∈ l, ¬ s.Is name) :
    Grown fs dino e t (L ++ [[⟨ino, bs, type, name⟩]]) (dirGrow fs d dino name ino type now) := by
  subst hr he ht
  have hv := h.vol
  have hlt := h.length_lt_nblocks
  have hsmall := hv.small
  unfold dirGrow
  rw [hn]
  rcases @doWrite_block dino _ _ _ fs.ipg _ (putDe zeros 0 ino bs name type) hv
    h.filed.sorted (by omega) h.size h.past with ⟨-, hw⟩ | ⟨b, hb, hfree, hw⟩
  · simp only [hw]
    exact .full
  simp only [hw]
  -- the volume and the list before the store
  generalize hvol : (fs.vol.take (b / bpg) b 1).set b
    (blit zeros 0 (putDe zeros 0 ino bs name type) 0 bs) = vol
  have htree : ∀ c ∈ d.m.tree, fs.vol.used c = true := fun c hc => (h.filed.tree c hc).2.2
  have hfree' : ∀ c, b ≤ c → c < b + 1 → fs.vol.used c = false := fun c h1 h2 => by
    rwa [show c = b by omega]
  have hhole : ∀ l, L.length ≤ l → l < L.length + 1 → emapAt d.m.e l = none := fun l h1 _ => h.past l h1
  have hadd := @addMap_spec _ fs.vol.nblocks _ b _ false h.filed.neat h.filed.sorted
    hsmall ⟨Nat.one_pos, by simp only; omega, show 1 ≤ extMaxLen by decide, by simp only; omega⟩
    (by omega) hhole
  obtain ⟨-, -, hmtree, hat⟩ := hadd
  have hused : ∀ c, vol.used c = true ↔ fs.vol.used c = true ∨ c = b := fun c => by
    rw [← hvol, show c = b ↔ b ≤ c ∧ c < b + 1 by omega]
    exact Vol.take_used (g := b / bpg) c
  have hnb : vol.nblocks = fs.vol.nblocks := by
    subst hvol
    rfl
  have hok : vol.Ok := ⟨hnb ▸ hv.pos, hnb ▸ hsmall, (hused 0).mpr (.inl hv.zero)⟩
  have hmapped : Mapped vol (addMap d.m L.length b 1 false).e d.m.tree := by
    have := h.filed.add (g := b / bpg) hv htree (by decide)
      (by decide) (by omega) hfree' (by omega) hhole
    refine this.congr hnb fun c _ hc => ?_
    subst hvol
    exact hc
  have hdata : ∀ c, c ≠ b → vol.data c = fs.vol.data c := fun c hc => by
    subst hvol
    exact Vol.set_data_ne hc
  have hold : ∀ c ∈ (addMap d.m L.length b 1 false).tree, c < vol.nblocks ∧ vol.used c = true := by
    rw [hmtree]
    exact fun c hc => ⟨hnb ▸ (h.filed.tree c hc).2.1, (hused c).mpr (.inl (htree c hc))⟩
  have hb0 : ∀ {c}, fs.vol.used c = true → c ≠ b := fun hc hcb => by
    rw [hcb, hfree] at hc
    cases hc
  have hkeep : ∀ i, (i < 0x04 ∨ 0x08 ≤ i) → (i < 0x6C ∨ 0x70 ≤ i) →
      setSize d.r ((L.length + 1) * bs) i = d.r i := fun i h1 h2 => setSize_apart ⟨h1, h2⟩
  have hflag : g32 (setSize d.r ((L.length + 1) * bs)) 0x20 &&& extentsFl ≠ 0 := by
    rw [g32_congr fun i h1 h2 => hkeep i (by omega) (by omega)]
    exact h.filed.flag
  cases hst : storeMap (setSize d.r ((L.length + 1) * bs)) (addMap d.m L.length b 1 false) vol with
  | mk rc rest =>
  obtain ⟨r₁, m₁, w⟩ := rest
  cases rc with
  | false =>
    -- the place of the new block is not stored
    obtain ⟨-, h1, h2, h3, -⟩ := storeMap_fails hst hok hold
    rw [hmtree] at h2 h3
    refine .lost (b := b) ⟨h1.trans hnb, rfl, fun _ _ => rfl, fun c hc hown => ?_,
      fun c hc hown => ?_⟩ hfree ?_
    · exact (h2 c).mpr ⟨(hused c).mpr (.inl hc), fun hct => hown (.inl hct)⟩
    · exact (h3 c ((hused c).mpr (.inl hc)) fun hct => hown (.inl hct)).trans (hdata c (hb0 hc))
    · refine (h2 b).mpr ⟨(hused b).mpr (.inr rfl), fun hbt => hb0 (htree b hbt) rfl⟩
  | true =>
    obtain ⟨t', h1, h2, h3, h4, h5, h6⟩ := storeMap_filed hst hok
      (by rw [hmtree]; exact hmapped) hold hflag
    rw [hmtree] at h4 h5
    -- the new tree is in blocks that were free
    have hnew' : ∀ {c}, c ∈ t' → ¬ (fs.vol.used c = true ∨ c = b) := fun hct hc => by
      have := (h3 _ hct).2
      rw [(hused _).mpr hc] at this
      cases this
    refine @Grown.more _ _ _ _ _ _ (setTimes r₁ now false true true)
      (addMap d.m L.length b 1 false).e t' ?_
      ⟨h2.trans hnb, rfl, fun j hj => update_of_ne hj .., fun c hc hown => ?_, fun c hc hown => ?_⟩
    · have hlen : (L ++ [[(⟨ino, bs, type, name⟩ : Ent)]]).length = L.length + 1 := by simp
      have hsame : ∀ i, (i < 0x28 ∨ 0x64 ≤ i) → (i < 0x1C ∨ 0x20 ≤ i) → (i < 0x74 ∨ 0x76 ≤ i) →
          (i < 0x08 ∨ 0x14 ≤ i) →
          setTimes r₁ now false true true i = setSize d.r ((L.length + 1) * bs) i :=
        fun i g1 g2 g3 g4 => (setTimes_apart g4).trans (h6 i g1 g2 g3)
      have h64 : (L.length + 1) * bs < 2 ^ 64 := by
        unfold bs
        omega
      refine ⟨⟨h2 ▸ hok.pos, h2 ▸ hok.small, (h4 0).mpr (.inl ⟨hok.zero, fun h0 => ?_⟩)⟩, ?_, ?_, ?_, ?_,
        fun k l hk => ?_, fun k hk => ?_, fun l hl => ?_, ?_⟩
      · exact (h.filed.tree 0 h0).1 rfl
      · refine Fsys.iread_iwrite ?_ (r := d.r)
        rw [← h.inode]
        unfold Fsys.iread Vol.groups
        rw [h2, hnb]
      · refine (isDirI_congr fun i hi => ?_).trans h.dir
        exact (hsame i (by omega) (by omega) (by omega) (by omega)).trans
          (hkeep i (by omega) (by omega))
      · exact h1.congr rfl (fun _ _ hc => hc) (fun _ _ => rfl) fun i g1 _ => setTimes_apart (by omega)
      · rw [hlen, iSize_congr fun i g1 g2 g3 => hsame i (by omega) (by omega) (by omega) (by omega),
          iSize_setSize h64]
      · rcases Nat.lt_or_ge k L.length with hlt' | hge
        · rw [List.getElem?_append_left hlt'] at hk
          obtain ⟨c, u, g1, g2⟩ := h.entries k l hk
          obtain ⟨-, g3, g4⟩ := h.filed.used k c u g1
          refine ⟨c, u, by rw [hat, if_neg (by omega), g1], ?_⟩
          change Entries (w.data c) l
          rwa [h5 c (fun hct => (hnew' hct (.inl g3)).elim) g4, hdata c (hb0 g3)]
        · rw [List.getElem?_append_right hge] at hk
          have hk0 : k = L.length := by
            have := (List.getElem?_eq_some_iff.mp hk).1
            simp only [List.length_singleton] at this
            omega
          subst hk0
          rw [Nat.sub_self, List.getElem?_cons_zero] at hk
          cases hk
          refine ⟨b, false, by rw [hat, if_pos (by omega), Nat.sub_self, Nat.add_zero], ?_⟩
          change Entries (w.data b) _
          rw [h5 b (fun hbt => (hnew' hbt (.inr rfl)).elim) fun hbt => hb0 (htree b hbt) rfl, ← hvol,
            Vol.set_data_self]
          exact entries_fresh hino' hname' htype
      · rw [hlen] at hk
        rw [hat, if_neg (by omega)]
        exact h.past k (by omega)
      · rcases List.mem_append.mp hl with hl | hl
        · exact h.named l hl
        · rw [List.mem_singleton.mp hl]
          exact fun s hs _ => by rw [List.mem_singleton.mp hs]; exact hname
      · rw [List.flatMap_append, List.map_append]
        refine List.nodup_append.mpr ⟨h.distinct, by simp [items, hino], fun x hx y hy hxy => ?_⟩
        obtain ⟨z, hz, rfl⟩ := List.mem_map.mp hx
        obtain ⟨l, hl, hzl⟩ := List.mem_flatMap.mp hz
        obtain ⟨s, hs, hs0, rfl⟩ := mem_items.mp hzl
        simp [items, hino] at hy
        exact hnew l hl s hs ⟨hs0, hxy.trans hy⟩
    · exact (h4 c).mpr (.inl ⟨(hused c).mpr (.inl hc), fun hct => hown (.inl hct)⟩)
    · exact (h5 c (fun hct => (hnew' hct (.inl hc)).elim) fun hct => hown (.inl hct)).trans
        (hdata c (hb0 hc))

end BananaOS.Ext4
