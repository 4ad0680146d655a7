import BananaOS.Zswap.Bookkeeping
import BananaOS.Zswap.RoundTrip

/-!
# What an entry holds

Where the bytes of a page are while its entry goes from memory to the swap area and back, and
that no section of another entry, and no transfer of another thread, changes them.

* `Decodes data len b`: the `len` bytes of `data` stand for the page `b`.
* `Zs.Holds z i b`: the page of entry `i` is `b`.  The data of a stored entry is in memory, also
  while it is being written; that of one on the disk is in its sectors, also while it is being
  read.
* `Pc.Carries`: what a thread in the middle of a transfer has in its buffer, as long as its entry
  still wants it.
* `Sys.Sound.keeps`: a section changes no page but that of the entry it is called for.
-/

namespace BananaOS.Zswap

open Lib Function

/-- The bytes stand for the page: they are all there, and `unpack_into` of an entry with these
bytes gives the page, whatever the frame held. -/
def Decodes (data : List UInt8) (len : ℕ) (b : List UInt8) : Prop :=
  len ≤ data.length ∧ ∀ e : Zent, e.len = len → (Zs.bytesOf e).take len = data.take len →
    ∀ page : List UInt8, page.length = 4096 → Zs.unpackInto e page = some b

variable {data data' b page : List UInt8} {len : ℕ}

theorem Decodes.congr (h : Decodes data len b) (hlen : len ≤ data'.length)
    (heq : data'.take len = data.take len) : Decodes data' len b :=
  ⟨hlen, fun e he hd => h.2 e he (hd.trans heq)⟩

/-- No bytes stand for the page of zeros. -/
theorem decodes_zero (data : List UInt8) : Decodes data 0 (List.replicate 4096 0) := by
  refine ⟨Nat.zero_le _, fun e he _ page _ => ?_⟩
  rw [Zs.unpackInto, if_pos he]

theorem decodes_raw (hb : b.length = 4096) : Decodes b 4096 b := by
  refine ⟨hb.ge, fun e he hd page _ => ?_⟩
  rw [Zs.unpackInto, if_neg (by rw [he]; decide), if_pos he, hd, List.take_of_length_le hb.le]

/-- What `zswap_pack` made of a page stands for it. -/
theorem decodes_pack {cap n : ℕ} {out out' : List UInt8} (hb : b.length = 4096) (hcap : cap < 4096)
    (ho : out.length = cap) (h : zswapPack b out cap = .ok (.packed n out')) (hn : n ≠ 0) :
    n ≤ cap ∧ Decodes out' n b := by
  obtain ⟨hle, hlen, hdec⟩ := (pack_unpack b hb cap out ho).1.2 n out' h
  refine ⟨hle, hle.trans hlen.ge, fun e he hd page hp => ?_⟩
  rw [Zs.unpackInto, if_neg (by rw [he]; exact hn), if_neg (by omega), he, hd, hdec page hp]

/-- The page of entry `i` is `b`. -/
def Zs.Holds (z : Zs) (i : ℕ) (b : List UInt8) : Prop :=
  ((z.ent i).state.inRam = true ∧ Decodes (bytesOf (z.ent i)) (z.ent i).len b) ∨
    ((z.ent i).state.onDisk = true ∧
      Decodes (z.diskRead (z.ent i).slot (sectors (z.ent i).len)) (z.ent i).len b)

/-! ## What a section changes -/

/-- An entry without its links. -/
structure Body where
  data : Option (List UInt8)
  frame : ℕ
  len : ℕ
  state : ZState
  slot : ℕ

/-- An entry without its links. -/
def Zent.body (e : Zent) : Body := ⟨e.data, e.frame, e.len, e.state, e.slot⟩

namespace Zs

/-- At most entry `idx` changes (and entries that were free), and no byte of the swap area. -/
structure Only (idx : ℕ) (z z' : Zs) : Prop where
  disk : z'.disk = z.disk
  body : ∀ i, i ≠ idx → (z.ent i).state ≠ .free → (z'.ent i).body = (z.ent i).body

namespace Only

variable {z z' z'' : Zs} {idx i : ℕ}

theorem trans (h : Only idx z z') (h' : Only idx z' z'') : Only idx z z'' := by
  refine ⟨h'.disk.trans h.disk, fun i hi hf => ?_⟩
  have heq := h.body i hi hf
  have hst : (z'.ent i).state = (z.ent i).state := congrArg Body.state heq
  exact (h'.body i hi (by rwa [hst])).trans heq

theorem of_ent (hent : z'.ent = z.ent) (hdisk : z'.disk = z.disk) : Only idx z z' :=
  ⟨hdisk, fun i _ _ => by rw [hent]⟩

theorem refl (z : Zs) : Only idx z z := of_ent rfl rfl

theorem of_setAt {f : Zent → Zent} (hent : z'.ent = setAt z.ent idx f)
    (hdisk : z'.disk = z.disk) : Only idx z z' :=
  ⟨hdisk, fun _ hi _ => by rw [hent, setAt_of_ne hi]⟩

theorem modify (z : Zs) (f : Zent → Zent) : Only idx z (z.modify idx f) := of_setAt rfl rfl

theorem slotGet (z : Zs) (n : ℕ) : Only idx z (z.slotGet n).2 := by
  unfold Zs.slotGet
  split_ifs
  · exact refl z
  · split
    · exact refl z
    · exact of_ent rfl rfl

theorem slotPut (z : Zs) (slot n : ℕ) : Only idx z (z.slotPut slot n) := by
  unfold Zs.slotPut
  split_ifs
  · exact refl z
  · exact of_ent rfl rfl

theorem lruAdd (z : Zs) (j : ℕ) : Only idx z (z.lruAdd j) :=
  ⟨rfl, fun i _ _ => lruAdd_same Zent.body (by intros; rfl) i⟩

theorem lruDel (z : Zs) (j : ℕ) : Only idx z (z.lruDel j) := by
  refine ⟨?_, fun i _ _ => lruDel_same Zent.body (by intros; rfl) i⟩
  unfold Zs.lruDel
  dsimp only
  split_ifs <;> rfl

theorem putEntry (z : Zs) : Only idx z (z.putEntry idx) := by
  have hdel : Only idx z (z.lruDel idx) := lruDel z idx
  exact ⟨hdel.disk, fun i hi hf =>
    (congrArg Zent.body (setAt_of_ne hi)).trans (hdel.body i hi hf)⟩

theorem zswapFree (z : Zs) : Only idx z (z.zswapFree idx) := by
  unfold Zs.zswapFree
  split_ifs
  · exact refl z
  · refine trans ?_ (putEntry _)
    split
    · exact of_ent rfl rfl
    · exact (of_ent rfl rfl : Only idx z z.uncountDisk).trans (slotPut ..)
    · exact refl z

theorem zswapRelease (z : Zs) : Only idx z (z.zswapRelease idx) := by
  unfold Zs.zswapRelease
  split_ifs
  · dsimp only
    split
    · exact (of_ent rfl rfl : Only idx z (z.uncountWriting _)).trans (modify ..)
    · exact (of_ent rfl rfl : Only idx z z.uncountDisk).trans (modify ..)
    · exact (of_ent rfl rfl : Only idx z (z.uncount _)).trans (putEntry _)
    · exact ((of_ent rfl rfl : Only idx z z.uncountDisk).trans (slotPut ..)).trans (putEntry _)
    · exact refl z
  · exact refl z

theorem zswapStore (z : Zs) (data : Option (List UInt8)) (len : ℕ) :
    Only idx z (z.zswapStore idx data len) := by
  have hcount : Only idx z ((z.modify idx fun e =>
      { e with data := data, len := storedLen data len, state := .stored, frame := 0 }).count
        (storedLen data len)) := of_setAt (f := fun e =>
      { e with data := data, len := storedLen data len, state := .stored, frame := 0 }) rfl rfl
  unfold Zs.zswapStore
  split_ifs
  · exact hcount.trans (lruAdd _ idx)
  · exact hcount
  · exact refl z

theorem zswapStoreDisk (z : Zs) (slot len : ℕ) : Only idx z (z.zswapStoreDisk idx slot len) := by
  unfold Zs.zswapStoreDisk
  split_ifs
  · exact of_setAt (f := fun e => { e with
      state := .disk, slot := slot, len := len % 2 ^ 16, data := none, frame := 0 }) rfl rfl
  · exact refl z

theorem zswapTake (z : Zs) (page : List UInt8) : Only idx z (z.zswapTake idx page).2 := by
  unfold Zs.zswapTake
  split_ifs
  · dsimp only
    split
    · have hcount : Only idx z ({ z with st := { z.st with
          pagesIn := z.st.pagesIn + 1 } }.uncount (z.ent idx).len) := of_ent rfl rfl
      exact hcount.trans (putEntry _)
    · exact of_setAt (f := fun e => { e with state := .taken }) rfl rfl
    all_goals exact refl z
  · exact refl z

theorem cancel (z : Zs) : Only idx z (z.cancel idx) := modify z _

theorem zswapDiskInit (z : Zs) (n : ℕ) : Only idx z (z.zswapDiskInit n) := by
  unfold Zs.zswapDiskInit
  split_ifs
  · exact of_ent rfl rfl
  · exact of_ent rfl rfl

theorem zswapNew (z : Zs) (frame : ℕ) : Only z.freeHead z (z.zswapNew frame).2 :=
  ⟨rfl, fun _ hi _ => congrArg Zent.body (update_of_ne hi ..)⟩

theorem addEntries (z : Zs) (b n : ℕ) (hfree : ∀ i, b * eblk ≤ i → (z.ent i).state = .free) :
    Only idx z (z.addEntries b n) := by
  induction n generalizing z with
  | zero => exact refl z
  | succ n ih =>
    rw [Zs.addEntries]
    split_ifs with h0
    · exact ih z hfree
    · have hnew : Only idx z { z with
          ent := update z.ent (b * eblk + n) { Zent.zeroed with frame := z.freeHead }
          freeHead := b * eblk + n } := by
        refine ⟨rfl, fun i _ hf => congrArg Zent.body (update_of_ne ?_ ..)⟩
        rintro rfl
        exact hf (hfree _ (Nat.le_add_right ..))
      refine hnew.trans (ih _ fun i hi => ?_)
      rcases eq_or_ne i (b * eblk + n) with rfl | hne
      · exact (congrArg Zent.state (update_self (b * eblk + n) _ z.ent)).trans rfl
      · exact (congrArg Zent.state (update_of_ne hne _ z.ent)).trans (hfree i hi)

theorem addBlock {z : Zs} (h : z.Tables) : Only idx z z.addBlock.2 := by
  unfold Zs.addBlock
  split_ifs
  · exact refl z
  · have hblk : Only idx z { z with nblk := z.nblk + 1 } := of_ent rfl rfl
    dsimp only
    generalize eblk = n
    refine hblk.trans (addEntries _ _ _ fun i hi => ?_)
    by_contra hf
    have hhas : z.Has i := h.has_of_ne_free hf
    have hlt := hhas.2
    have := Nat.div_mul_le_self i eblk
    have := Nat.div_le_div_right (c := eblk) hi
    rw [Nat.mul_div_cancel _ (by decide)] at this
    exact absurd hlt (not_lt.mpr this)

theorem writebackTake (z : Zs) : Only z.lruHead z z.writebackTake.2 := by
  unfold Zs.writebackTake
  dsimp only
  have hget : Only z.lruHead z (if z.lruHead ≠ 0 then z.slotGet (nsect (z.ent z.lruHead).len)
      else (0, z)).2 := by
    split_ifs
    · exact slotGet ..
    · exact refl z
  generalize (if z.lruHead ≠ 0 then z.slotGet (nsect (z.ent z.lruHead).len) else (0, z)) = r
    at hget
  split_ifs
  · exact hget
  · exact (hget.trans (lruDel _ _)).trans (modify ..)

theorem writebackDone (z : Zs) (slot len : ℕ) (ok : Bool) :
    Only idx z (z.writebackDone idx slot len ok).2 := by
  unfold Zs.writebackDone
  split_ifs
  · exact of_setAt (f := fun e => { e with data := none, state := .disk }) rfl rfl
  · exact ((slotPut z ..).trans (modify ..)).trans (lruAdd _ idx)
  · exact (slotPut z ..).trans (putEntry _)

theorem diskInTake (z : Zs) : Only idx z (z.diskInTake idx) := modify z _

theorem diskInNoMem (z : Zs) (slot len : ℕ) : Only idx z (z.diskInNoMem idx slot len) := by
  unfold Zs.diskInNoMem
  split_ifs
  · exact modify z _
  · exact (slotPut z ..).trans (putEntry _)

theorem diskInDone (z : Zs) (slot len : ℕ) (data : Option (List UInt8)) :
    Only idx z (z.diskInDone idx slot len data) := by
  have hcount : ∀ z : Zs, Only idx z (z.countIn len) := fun _ => of_ent rfl rfl
  unfold Zs.diskInDone
  split_ifs
  · exact ((((modify z _).trans (slotPut ..)).trans (modify ..)).trans (hcount _)).trans
      (lruAdd _ idx)
  · exact modify z _
  · exact (slotPut z ..).trans (putEntry _)

end Only

theorem slotGet_ent (z : Zs) (n : ℕ) : (z.slotGet n).2.ent = z.ent := by
  unfold slotGet
  split_ifs
  · rfl
  · split <;> rfl

theorem slotPut_ent (z : Zs) (slot n : ℕ) : (z.slotPut slot n).ent = z.ent := by
  unfold slotPut
  split_ifs <;> rfl

/-- What `zswap_writeback` takes: the entry is marked, and the thread has a copy of its data. -/
theorem writebackTake_data {z z' : Zs} {idx slot len : ℕ} {buf : List UInt8}
    (heq : z.writebackTake = (some (idx, slot, len, buf), z')) :
    idx = z.lruHead ∧ z.lruHead ≠ 0 ∧ len = (z.ent idx).len ∧
      buf = padded (bytesOf (z.ent idx)) len ∧
      (z'.ent idx).body =
        ⟨(z.ent idx).data, (z.ent idx).frame, (z.ent idx).len, .writing, slot⟩ := by
  unfold writebackTake at heq
  dsimp only at heq
  have hent : (if z.lruHead ≠ 0 then z.slotGet (nsect (z.ent z.lruHead).len) else (0, z)).2.ent =
      z.ent := by
    split_ifs
    · exact slotGet_ent ..
    · rfl
  generalize (if z.lruHead ≠ 0 then z.slotGet (nsect (z.ent z.lruHead).len) else (0, z)) = r
    at heq hent
  split_ifs at heq with h0
  · cases heq
  have hbody : ((r.2.lruDel z.lruHead).ent z.lruHead).body = (r.2.ent z.lruHead).body :=
    lruDel_same Zent.body (by intros; rfl) z.lruHead
  rw [hent] at hbody
  have hlen := congrArg Body.len hbody
  have hdata := congrArg (fun e : Body => e.data.getD []) hbody
  simp only [modify, setAt_self, Prod.mk.injEq, Option.some.injEq] at heq
  obtain ⟨⟨rfl, rfl, rfl, rfl⟩, rfl⟩ := heq
  push Not at h0
  refine ⟨rfl, h0.1, hlen, ?_, ?_⟩
  · exact congrArg (padded · _) hdata
  · exact (congrArg Zent.body (setAt_self ..)).trans (congrArg (fun e : Body =>
      (⟨e.data, e.frame, e.len, .writing, r.1⟩ : Body)) hbody)

/-- Entry `i` is where it was: pending or cancelled with its frame, or with the page it held. -/
structure Keeps (i : ℕ) (z z' : Zs) : Prop where
  pending : (z.ent i).state = .pending → (z'.ent i).state = .pending ∧
    (z'.ent i).frame = (z.ent i).frame
  cancelled : (z.ent i).state = .cancelled → (z'.ent i).state = .cancelled
  holds : ∀ b, z.Holds i b → z'.Holds i b

theorem Holds.ne_free {z : Zs} {i : ℕ} (h : z.Holds i b) : (z.ent i).state ≠ .free := by
  intro hf
  rcases h with h | h <;> rw [hf] at h <;> exact Bool.noConfusion h.1

/-- The page of an entry depends on its own fields and on its own sectors. -/
theorem Holds.congr {z z' : Zs} {i : ℕ} (h : z.Holds i b)
    (hbody : (z'.ent i).body = (z.ent i).body)
    (hdisk : (z.ent i).state.onDisk = true →
      z'.diskRead (z.ent i).slot (sectors (z.ent i).len) =
        z.diskRead (z.ent i).slot (sectors (z.ent i).len)) : z'.Holds i b := by
  have hdata : bytesOf (z'.ent i) = bytesOf (z.ent i) :=
    congrArg (fun e : Body => e.data.getD []) hbody
  have hlen : (z'.ent i).len = (z.ent i).len := congrArg Body.len hbody
  have hstate : (z'.ent i).state = (z.ent i).state := congrArg Body.state hbody
  have hslot : (z'.ent i).slot = (z.ent i).slot := congrArg Body.slot hbody
  unfold Holds
  rw [hdata, hlen, hstate, hslot]
  rcases h with h | h
  · exact Or.inl h
  · rw [hdisk h.1]
    exact Or.inr h

/-- An entry whose fields stay and whose sectors stay is where it was. -/
theorem Keeps.of_body {z z' : Zs} {i : ℕ}
    (hbody : (z.ent i).state ≠ .free → (z'.ent i).body = (z.ent i).body)
    (hdisk : (z.ent i).state.onDisk = true →
      z'.diskRead (z.ent i).slot (sectors (z.ent i).len) =
        z.diskRead (z.ent i).slot (sectors (z.ent i).len)) : Keeps i z z' := by
  refine ⟨fun hp => ?_, fun hc => ?_, fun b hb => hb.congr (hbody hb.ne_free) hdisk⟩
  · have heq := hbody (by rw [hp]; decide)
    exact ⟨(congrArg Body.state heq).trans hp, congrArg Body.frame heq⟩
  · have heq := hbody (by rw [hc]; decide)
    exact (congrArg Body.state heq).trans hc

theorem diskRead_congr {z z' : Zs} (h : z'.disk = z.disk) (slot n : ℕ) :
    z'.diskRead slot n = z.diskRead slot n := by
  rw [diskRead, diskRead, h]

theorem Only.keeps {z z' : Zs} {idx i : ℕ} (h : Only idx z z') (hi : i ≠ idx) : Keeps i z z' :=
  .of_body (h.body i hi) fun _ => diskRead_congr h.disk ..

/-- An entry that is only marked, with its data and sectors as they were. -/
theorem Keeps.mark {z z' : Zs} {i : ℕ} (hdisk : z'.disk = z.disk)
    (hdata : (z'.ent i).data = (z.ent i).data) (hlen : (z'.ent i).len = (z.ent i).len)
    (hram : (z.ent i).state.inRam = true → (z'.ent i).state.inRam = true)
    (hslot : (z.ent i).state.onDisk = true →
      (z'.ent i).state.onDisk = true ∧ (z'.ent i).slot = (z.ent i).slot)
    (hbusy : (z.ent i).state ≠ .pending ∧ (z.ent i).state ≠ .cancelled) : Keeps i z z' := by
  refine ⟨fun hp => absurd hp hbusy.1, fun hc => absurd hc hbusy.2, fun b hb => ?_⟩
  unfold Holds bytesOf at hb ⊢
  rw [hdata, hlen]
  rcases hb with ⟨h1, h2⟩ | ⟨h1, h2⟩
  · exact Or.inl ⟨hram h1, h2⟩
  · obtain ⟨h3, h4⟩ := hslot h1
    rw [h4, diskRead_congr hdisk]
    exact Or.inr ⟨h3, h2⟩

theorem Keeps.of_none {z z' : Zs} {i : ℕ} (hp : (z.ent i).state ≠ .pending)
    (hc : (z.ent i).state ≠ .cancelled) (hr : (z.ent i).state.inRam = false)
    (hd : (z.ent i).state.onDisk = false) : Keeps i z z' := by
  refine ⟨fun h => absurd h hp, fun h => absurd h hc, fun b hb => ?_⟩
  rcases hb with hb | hb
  · exact absurd hb.1 (by simp [hr])
  · exact absurd hb.1 (by simp [hd])

/-- An entry whose read did not happen is on the disk as before. -/
theorem Keeps.backToDisk {z : Zs} {i : ℕ} (h : (z.ent i).state = .reading) :
    Keeps i z (z.modify i fun e => { e with state := .disk }) := by
  refine .mark rfl ?_ ?_ (fun hr => ?_) (fun _ => ?_) ?_
  · simp [modify]
  · simp [modify]
  · rw [h] at hr
    exact Bool.noConfusion hr
  · simp [modify, ZState.onDisk]
  · rw [h]
    decide

theorem body_storeBack (z : Zs) (idx slot n : ℕ) (f : Zent → Zent) :
    ((((z.slotPut slot n).modify idx f).lruAdd idx).ent idx).body = (f (z.ent idx)).body := by
  rw [lruAdd_same Zent.body (by intros; rfl)]
  simp only [modify, setAt_self, slotPut_ent]

theorem body_diskInDone {z : Zs} {idx : ℕ} (slot len : ℕ) {d : List UInt8}
    (h : (z.ent idx).state = .reading) :
    ((z.diskInDone idx slot len (some d)).ent idx).body =
      ⟨some d, (z.ent idx).frame, (z.ent idx).len, .stored, 0⟩ := by
  rw [diskInDone, if_pos h, if_pos (show (some d).isSome = true from rfl)]
  dsimp only
  rw [lruAdd_same Zent.body (by intros; rfl)]
  simp only [countIn, modify, setAt_self, slotPut_ent]
  rfl

/-! ## Transfers -/

theorem nsect_eq_sectors (h : len ≠ 0) : nsect len = sectors len := if_pos h

theorem le_sectors (len : ℕ) : len ≤ sectors len * 512 := by
  unfold sectors
  omega

/-- A write changes no byte of a run of other sectors. -/
theorem diskRead_diskWrite_of_disjoint (z : Zs) {slot slot' len len' : ℕ} (buf : List UInt8)
    (hl : len ≠ 0) (hl' : len' ≠ 0) (hd : Disjoint (runOf slot len) (runOf slot' len')) :
    (z.diskWrite slot (sectors len) buf).diskRead slot' (sectors len') =
      z.diskRead slot' (sectors len') := by
  refine List.map_congr_left fun j hj => if_neg fun hin => ?_
  have hj := List.mem_range.mp hj
  have hmem : ((slot' - 1) * 512 + j) / 512 ∈ runOf slot len ∧
      ((slot' - 1) * 512 + j) / 512 ∈ runOf slot' len' := by
    simp only [runOf, Finset.mem_Ico, nsect_eq_sectors hl, nsect_eq_sectors hl']
    omega
  exact Finset.disjoint_left.mp hd hmem.1 hmem.2

theorem diskRead_diskWrite_self (z : Zs) {slot n : ℕ} {buf : List UInt8} (hbuf : len ≤ buf.length)
    (hn : len ≤ n * 512) :
    ((z.diskWrite slot n buf).diskRead slot n).take len = buf.take len := by
  refine List.ext_getElem (by simp [diskRead]; omega) fun j h1 h2 => ?_
  have hj : j < len := by
    rw [List.length_take] at h1
    omega
  have hjb : j < buf.length := by omega
  have haddr : (slot - 1) * 512 ≤ (slot - 1) * 512 + j ∧
      (slot - 1) * 512 + j < (slot - 1 + n) * 512 := by
    rw [Nat.add_mul]
    omega
  simp only [diskRead, diskWrite, List.getElem_take, List.getElem_map, List.getElem_range]
  rw [if_pos haddr, Nat.add_sub_cancel_left]
  exact (List.getElem_eq_getD (h := hjb) 0).symm

theorem length_diskRead (z : Zs) (slot n : ℕ) : (z.diskRead slot n).length = n * 512 := by
  simp [diskRead]

/-! ## The entry of a call -/

/-- `zswap_take` of a page in memory gives the page; one on the disk stays there. -/
theorem zswapTake_spec {z : Zs} {i : ℕ} (hb : z.Holds i b) (hhas : z.Has i)
    (hp : page.length = 4096) :
    (z.zswapTake i page).1 = .page b ∧ (z.ent i).state.inRam = true ∨
      z.zswapTake i page = (.onDisk, z) ∧ (z.ent i).state.onDisk = true := by
  rw [zswapTake, if_neg (not_not.mpr hhas)]
  rcases hb with ⟨hr, hd⟩ | ⟨hd, -⟩
  · have hun : TakeRc.ofUnpack (unpackInto (z.ent i) page) = .page b := by
      rw [hd.2 (z.ent i) rfl rfl page hp, TakeRc.ofUnpack]
    refine Or.inl ⟨?_, hr⟩
    rcases inRam_iff.mp hr with hst | hst <;> simp only [hst, hun]
  · refine Or.inr ⟨?_, hd⟩
    rcases onDisk_iff.mp hd with hst | hst <;> simp only [hst]

/-- `zswap_store` of bytes that stand for a page. -/
theorem holds_zswapStore {z : Zs} {i : ℕ} (hhas : z.Has i) {d : Option (List UInt8)}
    (hlen : len ≤ 4096) (hd : Decodes (d.getD []) (if d.isSome then len else 0) b) :
    (z.zswapStore i d len).Holds i b := by
  have hslen : storedLen d len = if d.isSome then len else 0 := by
    rw [storedLen, Nat.mod_eq_of_lt (by omega)]
  have hbody : ((z.zswapStore i d len).ent i).body =
      ⟨d, 0, storedLen d len, .stored, (z.ent i).slot⟩ := by
    rw [zswapStore, if_neg (not_not.mpr hhas)]
    dsimp only
    split_ifs
    · rw [lruAdd_same Zent.body (by intros; rfl)]
      simp only [count, modify, setAt_self]
      rfl
    · simp only [count, modify, setAt_self]
      rfl
  have hdata : bytesOf ((z.zswapStore i d len).ent i) = d.getD [] :=
    congrArg (fun e : Body => e.data.getD []) hbody
  have hl : ((z.zswapStore i d len).ent i).len = storedLen d len := congrArg Body.len hbody
  refine Or.inl ⟨congrArg (fun e : Body => e.state.inRam) hbody, ?_⟩
  rwa [hdata, hl, hslen]

/-- `zswap_store_disk` of sectors that hold a page. -/
theorem holds_zswapStoreDisk {z : Zs} {i slot : ℕ} (hhas : z.Has i) (hlen : len ≤ 4096)
    (hd : Decodes (z.diskRead slot (sectors len)) len b) :
    (z.zswapStoreDisk i slot len).Holds i b := by
  rw [zswapStoreDisk, if_neg (not_not.mpr hhas), Nat.mod_eq_of_lt (by omega)]
  refine Or.inr ⟨?_, ?_⟩
  · simp [modify, ZState.onDisk]
  · simp only [modify, setAt_self]
    exact hd

end Zs

theorem Decodes.padded (h : Decodes data len b) : Decodes (Zs.padded data len) len b := by
  have htake : (data.take len).length = len := List.length_take_of_le h.1
  refine h.congr ?_ ?_
  · rw [Zs.padded, List.length_append, htake]
    exact Nat.le_add_right ..
  · rw [Zs.padded, List.take_append_of_le_length htake.ge, List.take_take, min_self]

theorem Decodes.written (z : Zs) {slot : ℕ} (h : Decodes data len b) :
    Decodes ((z.diskWrite slot (Zs.sectors len) data).diskRead slot (Zs.sectors len)) len b := by
  refine h.congr ?_ (Zs.diskRead_diskWrite_self z h.1 (Zs.le_sectors len))
  rw [Zs.length_diskRead]
  exact Zs.le_sectors len

/-! ## Threads in the middle of a transfer -/

/-- What a thread in the middle of a transfer has: the page of its entry, as long as the entry
is still the one it started with. -/
def Pc.Carries (z : Zs) : Pc → Prop
  | .wbIo _ _ idx _ len buf => (z.ent idx).state = .writing →
      ∀ b, Decodes (Zs.bytesOf (z.ent idx)) len b → Decodes buf len b
  | .wbEnd _ _ idx slot len true => (z.ent idx).state = .writing →
      ∀ b, Decodes (Zs.bytesOf (z.ent idx)) len b → Decodes (z.diskRead slot (Zs.sectors len)) len b
  | .diEnd idx slot len (some d) => (z.ent idx).state = .reading →
      ∀ b, Decodes (z.diskRead slot (Zs.sectors len)) len b → Decodes d len b
  | _ => True

/-- What a `zswap_disk_put` of the page `b` has. -/
def Pc.Puts (z : Zs) (b : List UInt8) : Pc → Prop
  | .putIo _ len buf => Decodes buf len b
  | .putEnd slot len true => Decodes (z.diskRead slot (Zs.sectors len)) len b
  | .putDone slot len => Decodes (z.diskRead slot (Zs.sectors len)) len b
  | _ => True

namespace Pc

variable {z z' : Zs} {p : Pc}

theorem carries_of_none (hp : p.entry = none) : p.Carries z := by
  cases p <;> trivial

/-- A thread whose entry was taken or unmapped has nothing any more. -/
theorem carries_of_state {idx : ℕ} (hp : p.entry = some idx) (hw : (z.ent idx).state ≠ .writing)
    (hr : (z.ent idx).state ≠ .reading) : p.Carries z := by
  cases p with
  | wbIo _ _ i _ _ _ =>
    cases hp
    exact fun h => absurd h hw
  | wbEnd _ _ i _ _ ok =>
    cases hp
    cases ok
    · trivial
    · exact fun h => absurd h hw
  | diEnd i _ _ d =>
    cases hp
    cases d
    · trivial
    · exact fun h => absurd h hr
  | _ => trivial

/-- The run of sectors the thread's transfer is about. -/
def run : Pc → Option (ℕ × ℕ)
  | .wbIo _ _ _ slot len _ => some (slot, len)
  | .wbEnd _ _ _ slot len _ => some (slot, len)
  | .diEnd _ slot len _ => some (slot, len)
  | .putIo slot len _ => some (slot, len)
  | .putEnd slot len _ => some (slot, len)
  | .putDone slot len => some (slot, len)
  | _ => none

/-- What a thread has depends on its entry's fields and on its sectors. -/
theorem Carries.congr (h : p.Carries z)
    (hent : ∀ idx, p.entry = some idx → (z'.ent idx).body = (z.ent idx).body)
    (hdisk : ∀ slot len, p.run = some (slot, len) →
      z'.diskRead slot (Zs.sectors len) = z.diskRead slot (Zs.sectors len)) : p.Carries z' := by
  have hstate : ∀ idx, p.entry = some idx → (z'.ent idx).state = (z.ent idx).state :=
    fun idx hi => congrArg Body.state (hent idx hi)
  have hdata : ∀ idx, p.entry = some idx → Zs.bytesOf (z'.ent idx) = Zs.bytesOf (z.ent idx) :=
    fun idx hi => congrArg (fun e : Body => e.data.getD []) (hent idx hi)
  cases p with
  | wbIo _ _ i _ _ _ =>
    simp only [Carries] at h ⊢
    rwa [hstate i rfl, hdata i rfl]
  | wbEnd _ _ i slot len ok =>
    cases ok
    · trivial
    · simp only [Carries] at h ⊢
      rwa [hstate i rfl, hdata i rfl, hdisk slot len rfl]
  | diEnd i slot len d =>
    cases d
    · trivial
    · simp only [Carries] at h ⊢
      rwa [hstate i rfl, hdisk slot len rfl]
  | _ => trivial

theorem Puts.congr (h : p.Puts z b)
    (hdisk : ∀ slot len, p.run = some (slot, len) →
      z'.diskRead slot (Zs.sectors len) = z.diskRead slot (Zs.sectors len)) : p.Puts z' b := by
  cases p with
  | putIo => exact h
  | putEnd slot len ok =>
    cases ok
    · trivial
    · simp only [Puts] at h ⊢
      rwa [hdisk slot len rfl]
  | putDone slot len =>
    simp only [Puts] at h ⊢
    rwa [hdisk slot len rfl]
  | _ => trivial

end Pc

namespace Sys

variable {T : Type*} [DecidableEq T] [Fintype T]

/-- The books are right, and each thread in the middle of a transfer has the page of its entry. -/
structure Sound (s : Sys T) : Prop where
  inv : s.Inv
  carries : ∀ t, (s.pc t).Carries s.z

variable {s : Sys T} {t t' : T} {p : Pc} {z' : Zs} {idx : ℕ}

omit [DecidableEq T] in
/-- The sectors of a thread's transfer are its own, or its entry's. -/
theorem Inv.run_owned (h : s.Inv) {slot len : ℕ} (hr : (s.pc t).run = some (slot, len)) :
    len ≠ 0 ∧ ∃ o, owned s.z.core s.pc o = runOf slot len ∧
      (o = Sum.inr t ∧ (s.pc t).entry = none ∨ ∃ i, o = Sum.inl i ∧ (s.pc t).entry = some i) := by
  have hfits := h.books.fits t
  have hgood := h.books.pcGood t
  have entry : ∀ i, (s.pc t).entry = some i → (s.z.core i).slot = slot → (s.z.core i).len = len →
      len ≠ 0 ∧ ∃ o, owned s.z.core s.pc o = runOf slot len ∧
        (o = Sum.inr t ∧ (s.pc t).entry = none ∨ ∃ i, o = Sum.inl i ∧ (s.pc t).entry = some i) := by
    rintro i hi rfl rfl
    have howns : (s.z.core i).state.owns = true := by
      have := hfits.busy hi
      revert this
      cases (s.z.core i).state <;> simp [ZState.busy, ZState.owns]
    exact ⟨((h.books.good i).1 howns).1, Sum.inl i, if_pos howns, Or.inr ⟨i, rfl, hi⟩⟩
  cases hpc : s.pc t with
  | wbIo _ _ i _ _ _ =>
    rw [hpc] at hfits hr
    cases hr
    rw [← hpc]
    exact entry i (by rw [hpc]; rfl) hfits.1 hfits.2.1
  | wbEnd _ _ i _ _ _ =>
    rw [hpc] at hfits hr
    cases hr
    rw [← hpc]
    exact entry i (by rw [hpc]; rfl) hfits.1 hfits.2.1
  | diEnd i _ _ _ =>
    rw [hpc] at hfits hr
    cases hr
    rw [← hpc]
    exact entry i (by rw [hpc]; rfl) hfits.1 hfits.2.1
  | putIo | putEnd | putDone =>
    rw [hpc] at hgood hr
    cases hr
    exact ⟨hgood.1, Sum.inr t, by simp [owned, hpc, Pc.sects], Or.inl ⟨rfl, rfl⟩⟩
  | _ =>
    rw [hpc] at hr
    cases hr

omit [DecidableEq T] in
/-- A thread's write changes nothing of another thread's sectors. -/
theorem Inv.diskWrite_others (h : s.Inv) {slot len slot' len' : ℕ} (buf : List UInt8)
    (hr : (s.pc t).run = some (slot, len)) (hne : t' ≠ t)
    (hr' : (s.pc t').run = some (slot', len')) :
    (s.z.diskWrite slot (Zs.sectors len) buf).diskRead slot' (Zs.sectors len') =
      s.z.diskRead slot' (Zs.sectors len') := by
  obtain ⟨hl, o, ho, hcase⟩ := h.run_owned hr
  obtain ⟨hl', o', ho', hcase'⟩ := h.run_owned hr'
  refine Zs.diskRead_diskWrite_of_disjoint s.z buf hl hl' ?_
  rw [← ho, ← ho']
  refine h.books.shares.disjoint o o' ?_
  rintro rfl
  rcases hcase with ⟨rfl, -⟩ | ⟨i, rfl, hi⟩ <;> rcases hcase' with ⟨heq, -⟩ | ⟨j, heq, hj⟩
  · exact hne (Sum.inr_injective heq).symm
  · cases heq
  · cases heq
  · cases heq
    exact hne (h.books.alone t' t i hj hi)

omit [DecidableEq T] in
/-- A thread's write changes nothing of the sectors of an entry it does not have in hand. -/
theorem Inv.diskWrite_entry (h : s.Inv) {slot len i : ℕ} (buf : List UInt8)
    (hr : (s.pc t).run = some (slot, len)) (hne : (s.pc t).entry ≠ some i)
    (howns : (s.z.core i).state.owns = true) :
    (s.z.diskWrite slot (Zs.sectors len) buf).diskRead (s.z.ent i).slot
      (Zs.sectors (s.z.ent i).len) = s.z.diskRead (s.z.ent i).slot (Zs.sectors (s.z.ent i).len) := by
  obtain ⟨hl, o, ho, hcase⟩ := h.run_owned hr
  refine Zs.diskRead_diskWrite_of_disjoint s.z buf hl ((h.books.good i).1 howns).1 ?_
  have hi : owned s.z.core s.pc (Sum.inl i) = runOf (s.z.core i).slot (s.z.core i).len :=
    if_pos howns
  change Disjoint _ (runOf (s.z.core i).slot (s.z.core i).len)
  rw [← ho, ← hi]
  refine h.books.shares.disjoint o _ ?_
  rintro rfl
  rcases hcase with ⟨heq, -⟩ | ⟨j, heq, hj⟩
  · cases heq
  · cases heq
    exact hne hj

/-! ## One section -/

/-- What one section or transfer of thread `t` does, except to the entry `x` it was called for:
each thread has its page, the other entries are where they were, and a page on its way to the
disk is still that page. -/
structure Moved (s s' : Sys T) (t : T) (x : Option ℕ) : Prop where
  carries : ∀ t', (s'.pc t').Carries s'.z
  keeps : ∀ i, x ≠ some i → s.z.Keeps i s'.z
  puts : ∀ t' b, (t' ≠ t ∨ s.pc t' ≠ .idle) → (s.pc t').Puts s.z b → (s'.pc t').Puts s'.z b

namespace Sound

variable {s' : Sys T} {x : Option ℕ}

/-- A section that changes one entry, which no other thread has in hand. -/
theorem moved (h : s.Sound) (honly : Zs.Only idx s.z s'.z) (hpc : s'.pc = update s.pc t p)
    (hidx : (s.z.core idx).state.busy = false ∨ (s.pc t).entry = some idx)
    (hp : p.Carries s'.z) (hputs : ∀ b, s.pc t ≠ .idle → (s.pc t).Puts s.z b → p.Puts s'.z b)
    (hkeep : x = some idx ∨ s.z.Keeps idx s'.z) : Moved s s' t x := by
  refine ⟨fun t' => ?_, fun i hi => ?_, fun t' b ht' hb => ?_⟩
  · rw [hpc]
    rcases eq_or_ne t' t with rfl | hne
    · rwa [update_self]
    rw [update_of_ne hne]
    refine (h.carries t').congr (fun i hi => honly.body i ?_ ?_)
      fun _ _ _ => Zs.diskRead_congr honly.disk ..
    · rintro rfl
      rcases hidx with hb | he
      · exact h.inv.books.entry_ne hb t' hi
      · exact h.inv.books.others_ne he t' hne hi
    · intro hf
      have hb : (s.z.ent i).state.busy = true := (h.inv.books.fits t').busy hi
      rw [hf] at hb
      exact Bool.noConfusion hb
  · rcases eq_or_ne i idx with rfl | hne
    · exact hkeep.resolve_left hi
    · exact honly.keeps hne
  · rw [hpc]
    rcases eq_or_ne t' t with rfl | hne
    · rw [update_self]
      exact hputs b (ht'.resolve_left (not_not.mpr rfl)) hb
    · rw [update_of_ne hne]
      exact hb.congr fun _ _ _ => Zs.diskRead_congr honly.disk ..

theorem movedOn (h : s.Sound) (hent : ∀ idx, Zs.Only idx s.z s'.z)
    (hpc : s'.pc = update s.pc t p) (hp : p.Carries s'.z)
    (hputs : ∀ b, s.pc t ≠ .idle → (s.pc t).Puts s.z b → p.Puts s'.z b) : Moved s s' t x := by
  have h0 : (s.z.core 0).state = .free := by
    by_contra hf
    exact (h.inv.tables.has_of_ne_free hf).1 rfl
  refine h.moved (hent 0) hpc (Or.inl (by rw [h0]; rfl)) hp hputs (Or.inr ?_)
  have h0' : (s.z.ent 0).state = .free := h0
  exact .of_none (by rw [h0']; decide) (by rw [h0']; decide) (by rw [h0']; rfl) (by rw [h0']; rfl)

/-- A write into a thread's sectors. -/
theorem movedWrite (h : s.Sound) {slot len : ℕ} {buf : List UInt8}
    (hr : (s.pc t).run = some (slot, len))
    (hown : ∀ i, (s.pc t).entry = some i → (s.z.core i).state.onDisk = false)
    (hz : s'.z = s.z.diskWrite slot (Zs.sectors len) buf) (hpc : s'.pc = update s.pc t p)
    (hp : p.Carries s'.z) (hputs : ∀ b, (s.pc t).Puts s.z b → p.Puts s'.z b) :
    Moved s s' t x := by
  have hent : s'.z.ent = s.z.ent := by rw [hz]; rfl
  refine ⟨fun t' => ?_, fun i _ => ?_, fun t' b _ hb => ?_⟩
  · rw [hpc]
    rcases eq_or_ne t' t with rfl | hne
    · rwa [update_self]
    rw [update_of_ne hne]
    refine (h.carries t').congr (fun i _ => by rw [hent]) fun slot' len' hr' => ?_
    rw [hz]
    exact h.inv.diskWrite_others buf hr hne hr'
  · refine .of_body (fun _ => by rw [hent]) fun hd => ?_
    rw [hz]
    refine h.inv.diskWrite_entry buf hr (fun he => ?_) ?_
    · have hno : (s.z.ent i).state.onDisk = false := hown i he
      rw [hno] at hd
      exact Bool.noConfusion hd
    · change (s.z.ent i).state.owns = true
      revert hd
      cases (s.z.ent i).state <;> simp [ZState.onDisk, ZState.owns]
  · rw [hpc]
    rcases eq_or_ne t' t with rfl | hne
    · rw [update_self]
      exact hputs b hb
    · rw [update_of_ne hne]
      refine hb.congr fun slot' len' hr' => ?_
      rw [hz]
      exact h.inv.diskWrite_others buf hr hne hr'

omit [DecidableEq T] in
/-- The entry of another thread was taken or unmapped: the thread has nothing any more. -/
theorem movedMark (h : s.Sound) (honly : Zs.Only idx s.z s'.z) (hpc : s'.pc = s.pc)
    (hw : (s'.z.ent idx).state ≠ .writing) (hr : (s'.z.ent idx).state ≠ .reading) :
    Moved s s' t (some idx) := by
  refine ⟨fun t' => ?_, fun i hi => honly.keeps fun heq => hi (by rw [heq]), fun t' b _ hb => ?_⟩
  · rw [hpc]
    by_cases he : (s.pc t').entry = some idx
    · exact Pc.carries_of_state he hw hr
    refine (h.carries t').congr (fun i hi => honly.body i ?_ ?_)
      fun _ _ _ => Zs.diskRead_congr honly.disk ..
    · rintro rfl
      exact he hi
    · intro hf
      have hb : (s.z.ent i).state.busy = true := (h.inv.books.fits t').busy hi
      rw [hf] at hb
      exact Bool.noConfusion hb
  · rw [hpc]
    exact hb.congr fun _ _ _ => Zs.diskRead_congr honly.disk ..

theorem movedNot (h : s.Sound) : Moved s s t x :=
  h.movedOn (fun _ => .refl _) (update_eq_self t s.pc).symm (h.carries t) fun _ _ hb => hb

theorem movedStay (h : s.Sound) (hpc : s.pc t = .idle) (honly : Zs.Only idx s.z z')
    (hidx : (s.z.core idx).state.busy = false) : Moved s { s with z := z' } t (some idx) :=
  h.moved (p := .idle) honly (by rw [← hpc, update_eq_self]) (Or.inl hidx) trivial
    (fun _ hne => absurd hpc hne) (Or.inl rfl)

theorem movedIdle (h : s.Sound) (hpc : s.pc t = .idle) (honly : ∀ idx, Zs.Only idx s.z s'.z)
    (hpc' : s'.pc = update s.pc t p) (hp : p.entry = none) : Moved s s' t x :=
  h.movedOn honly hpc' (Pc.carries_of_none hp) fun _ hne => absurd hpc hne

omit [DecidableEq T] in
theorem state_zswapRelease (h : s.Sound) :
    ((s.z.zswapRelease idx).ent idx).state ≠ .writing ∧
      ((s.z.zswapRelease idx).ent idx).state ≠ .reading := by
  have hput : ∀ z : Zs, ((z.putEntry idx).ent idx).state = .free :=
    fun z => congrArg Core.state ((congrFun (Zs.core_putEntry z idx) idx).trans (update_self ..))
  unfold Zs.zswapRelease
  split_ifs with hhas
  · dsimp only
    split
    · simp [Zs.modify]
    · simp [Zs.modify]
    · rw [hput]
      decide
    · rw [hput]
      decide
    · constructor <;> assumption
  · have hf : (s.z.ent idx).state = .free := by
      by_contra hf
      exact hhas (h.inv.tables.has_of_ne_free hf)
    rw [hf]
    decide

theorem zswapTake (h : s.Sound) (hpc : s.pc t = .idle) (page : List UInt8) :
    Moved s { s with z := (s.z.zswapTake idx page).2 } t (some idx) := by
  have honly : Zs.Only idx s.z (s.z.zswapTake idx page).2 := .zswapTake ..
  by_cases hw : (s.z.core idx).state = .writing
  · have hst : ((s.z.zswapTake idx page).2.ent idx).state = .taken := by
      have hhas : s.z.Has idx := h.inv.tables.has_of_ne_free (by rw [hw]; decide)
      have hw' : (s.z.ent idx).state = .writing := hw
      rw [Zs.zswapTake, if_neg (not_not.mpr hhas)]
      simp [hw', Zs.modify]
    exact h.movedMark honly rfl (hst.trans_ne (by decide)) (hst.trans_ne (by decide))
  · by_cases hb : (s.z.core idx).state.busy = true
    · -- what is being read, taken or dead stays
      have heq : (s.z.zswapTake idx page).2 = s.z := by
        have hw' : (s.z.ent idx).state ≠ .writing := hw
        have hb' : (s.z.ent idx).state.busy = true := hb
        unfold Zs.zswapTake
        split_ifs
        · dsimp only
          split
          next hs => exact absurd hb' (by rw [hs]; decide)
          next hs => exact absurd hs hw'
          all_goals rfl
        · rfl
      rw [heq]
      exact h.movedNot
    · exact h.movedStay hpc honly (Bool.not_eq_true _ ▸ hb)

end Sound

omit [Fintype T] in
/-- A section leaves the other threads where they are. -/
theorem step_pc (s : Sys T) (call : Call) (ok : Bool) (junk : List UInt8) (hne : t' ≠ t) :
    (s.step t call ok junk).pc t' = s.pc t' := by
  have hgoto : ∀ (s : Sys T) (p : Pc), (s.goto t p).pc t' = s.pc t' :=
    fun s p => update_of_ne hne ..
  unfold Sys.step
  split
  · cases call <;> simp only [Sys.start] <;> repeat' split
    all_goals first | rfl | exact hgoto ..
  · cases call <;> first | rfl | exact hgoto ..
  · generalize s.pc t = p
    cases p <;> simp only [Sys.resume] <;> repeat' split
    all_goals first | rfl | exact hgoto ..

omit [Fintype T] in
/-- `zswap_disk_put` finds no slot, or goes on to write. -/
theorem pc_zswapDiskPut (hpc : s.pc t = .idle) (src : List UInt8) (len : ℕ) :
    (s.start t (.zswapDiskPut src len)).pc t = .idle ∨
      ∃ slot, (s.start t (.zswapDiskPut src len)).pc t = .putIo slot len (Zs.padded src len) := by
  rw [Sys.start]
  dsimp only
  split_ifs
  · exact Or.inl hpc
  · exact Or.inl hpc
  · exact Or.inr ⟨_, update_self ..⟩

/-- The entry that a thread at `p` changes with a call, apart from its transfers. -/
def touched : Pc → Call → Option ℕ
  | .idle, .zswapFree idx | .idle, .zswapRelease idx | .idle, .zswapStore idx _ _
  | .idle, .zswapTake idx _ | .idle, .cancel idx => some idx
  | .putDone _ _, .zswapStoreDisk idx | .putDone _ _, .zswapFree idx => some idx
  | _, _ => none

namespace Sound

theorem start (h : s.Sound) (hpc : s.pc t = .idle) {c : Call} (hc : s.Allowed c) :
    Moved s (s.start t c) t (touched .idle c) := by
  have quiet : ∀ {idx : ℕ}, (s.z.ent idx).state = .pending ∨ (s.z.ent idx).state = .cancelled →
      (s.z.core idx).state.busy = false := by
    rintro idx (hst | hst) <;> (change (s.z.ent idx).state.busy = false; rw [hst]; rfl)
  cases c with
  | zswapNew frame => exact h.movedIdle hpc (fun _ => .refl _) rfl rfl
  | zswapFree idx => exact h.movedStay hpc (.zswapFree _) (quiet hc.2)
  | zswapRelease idx =>
    exact h.movedMark (.zswapRelease _) rfl h.state_zswapRelease.1 h.state_zswapRelease.2
  | zswapStore idx data len => exact h.movedStay hpc (.zswapStore ..) (quiet (Or.inl hc.2.1))
  | zswapTake idx page => exact h.zswapTake hpc page
  | zswapWriteback max =>
    rw [Sys.start]
    split_ifs
    · exact h.movedNot
    · exact h.movedIdle hpc (fun _ => .refl _) rfl rfl
  | zswapDiskIn idx =>
    rw [Sys.start]
    split_ifs
    · exact h.movedIdle hpc (fun _ => .refl _) rfl rfl
    · exact h.movedNot
  | zswapDiskPut src len =>
    have hsame : ∀ z' : Zs, (∀ idx, Zs.Only idx s.z z') → Moved s { s with z := z' } t none :=
      fun z' honly => h.movedIdle hpc honly (p := .idle) (by rw [← hpc, update_eq_self]) rfl
    rw [Sys.start]
    dsimp only
    split_ifs
    · exact h.movedNot
    · exact hsame _ fun _ => .slotGet ..
    · exact h.movedIdle hpc (fun _ => .slotGet ..) rfl rfl
  | zswapStoreDisk idx => exact h.movedNot
  | zswapSlotFree => exact h.movedNot
  | addBlock =>
    exact h.movedIdle hpc (fun _ => .addBlock h.inv.tables) (p := .idle)
      (by rw [← hpc, update_eq_self]; rfl) rfl
  | cancel idx => exact h.movedStay hpc (.cancel _) (quiet (Or.inl hc.2))
  | zswapDiskInit n =>
    exact h.movedIdle hpc (fun _ => .zswapDiskInit ..) (p := .idle)
      (by rw [← hpc, update_eq_self]; rfl) rfl

theorem holding (h : s.Sound) {slot len : ℕ} (hpc : s.pc t = .putDone slot len) {call : Call}
    (hc : s.Allowed call) :
    Moved s (s.holding t slot len call) t (touched (.putDone slot len) call) := by
  have quiet : ∀ {idx : ℕ}, (s.z.ent idx).state = .pending ∨ (s.z.ent idx).state = .cancelled →
      (s.z.core idx).state.busy = false := by
    rintro idx (hst | hst) <;> (change (s.z.ent idx).state.busy = false; rw [hst]; rfl)
  cases call with
  | zswapStoreDisk idx =>
    exact h.moved (.zswapStoreDisk ..) rfl (Or.inl (quiet (Or.inl hc.2))) trivial
      (fun _ _ _ => trivial) (Or.inl rfl)
  | zswapSlotFree => exact h.movedOn (fun _ => .slotPut ..) rfl trivial fun _ _ _ => trivial
  | zswapFree idx =>
    have honly : Zs.Only idx s.z (s.z.zswapFree idx) := .zswapFree _
    refine h.moved honly (update_eq_self t s.pc).symm (Or.inl (quiet hc.2)) ?_ (fun b _ hb => ?_)
      (Or.inl rfl)
    · rw [hpc]
      trivial
    · exact hb.congr fun _ _ _ => Zs.diskRead_congr honly.disk ..
  | _ => exact h.movedNot

/-- The first section of `zswap_writeback`: the page stays in memory, with a copy in the
thread's buffer. -/
theorem writebackTake (h : s.Sound) {done max slot len : ℕ} {buf : List UInt8}
    (heq : s.z.writebackTake = (some (idx, slot, len, buf), z')) :
    Moved s ({ s with z := z' }.goto t (.wbIo done max idx slot len buf)) t none := by
  obtain ⟨rfl, hne, rfl, hbuf, hbody⟩ := Zs.writebackTake_data heq
  have hst : (s.z.ent s.z.lruHead).state = .stored := (h.inv.tables.lru.head_mem hne).1
  have honly : Zs.Only s.z.lruHead s.z z' := by
    have := Zs.Only.writebackTake s.z
    rwa [heq] at this
  have hdata : (z'.ent s.z.lruHead).data = (s.z.ent s.z.lruHead).data := congrArg Body.data hbody
  have hstate : (z'.ent s.z.lruHead).state = .writing := congrArg Body.state hbody
  refine h.moved honly rfl (Or.inl ?_) ?_ (fun _ _ _ => trivial) (Or.inr ?_)
  · change (s.z.ent s.z.lruHead).state.busy = false
    rw [hst]
    rfl
  · intro _ b hb
    rw [hbuf]
    refine Decodes.padded ?_
    change Decodes ((z'.ent s.z.lruHead).data.getD []) _ b at hb
    rwa [hdata] at hb
  · refine .mark honly.disk hdata (congrArg Body.len hbody) (fun _ => ?_) (fun hd => ?_) ?_
    · change (z'.ent s.z.lruHead).state.inRam = true
      rw [hstate]
      rfl
    · rw [hst] at hd
      exact Bool.noConfusion hd
    · rw [hst]
      decide

omit [DecidableEq T] in
/-- The second section of `zswap_writeback`: the page is in its sectors, or in memory still. -/
theorem writebackDone (h : s.Sound) {done max slot len : ℕ} {ok : Bool}
    (hpc : s.pc t = .wbEnd done max idx slot len ok) :
    s.z.Keeps idx (s.z.writebackDone idx slot len ok).2 := by
  have hfits := h.inv.books.fits t
  have hcar := h.carries t
  rw [hpc] at hfits hcar
  obtain ⟨rfl, rfl, hstate⟩ := hfits
  have hstate : (s.z.ent idx).state = .writing ∨ (s.z.ent idx).state = .taken ∨
    (s.z.ent idx).state = .dead := hstate
  unfold Zs.writebackDone
  split_ifs with h1 h2
  · obtain ⟨hw, rfl⟩ := h1
    refine ⟨fun hp => ?_, fun hc => ?_, fun b hb => Or.inr ?_⟩
    · rw [hw] at hp
      cases hp
    · rw [hw] at hc
      cases hc
    rcases hb with ⟨-, hb⟩ | ⟨hd, -⟩
    · simp only [Zs.modify, Zs.countOut, setAt_self]
      exact ⟨rfl, hcar hw b hb⟩
    · rw [hw] at hd
      exact Bool.noConfusion hd
  · have honly : Zs.Only idx s.z
        (s.z.writebackDone idx (s.z.core idx).slot (s.z.core idx).len ok).2 := .writebackDone ..
    rw [Zs.writebackDone, if_neg h1, if_pos h2] at honly
    have hbody := Zs.body_storeBack s.z idx (s.z.core idx).slot (nsect (s.z.core idx).len)
      fun e => { e with slot := 0, state := .stored }
    refine .mark honly.disk (congrArg Body.data hbody) (congrArg Body.len hbody) (fun _ => ?_)
      (fun hd => ?_) ?_
    · exact congrArg (fun e : Body => e.state.inRam) hbody
    · rw [h2] at hd
      exact Bool.noConfusion hd
    · rw [h2]
      decide
  · rcases hstate.resolve_left h2 with hs | hs <;>
      refine .of_none ?_ ?_ ?_ ?_ <;> rw [hs] <;> first | rfl | decide

omit [DecidableEq T] in
/-- `zswap_disk_in` without memory. -/
theorem diskInNoMem (h : s.Sound) {slot len : ℕ} (hpc : s.pc t = .diAlloc idx slot len) :
    s.z.Keeps idx (s.z.diskInNoMem idx slot len) := by
  have hfits := h.inv.books.fits t
  rw [hpc] at hfits
  have hstate : (s.z.ent idx).state = .reading ∨ (s.z.ent idx).state = .dead := hfits.2.2
  unfold Zs.diskInNoMem
  split_ifs with h1
  · exact .backToDisk h1
  · have hs := hstate.resolve_left h1
    refine .of_none ?_ ?_ ?_ ?_ <;> rw [hs] <;> first | rfl | decide

omit [DecidableEq T] in
/-- The last section of `zswap_disk_in`: the page is in memory, or in its sectors still. -/
theorem diskInDone (h : s.Sound) {slot len : ℕ} {data : Option (List UInt8)}
    (hpc : s.pc t = .diEnd idx slot len data) :
    s.z.Keeps idx (s.z.diskInDone idx slot len data) := by
  have hfits := h.inv.books.fits t
  have hcar := h.carries t
  rw [hpc] at hfits hcar
  obtain ⟨rfl, rfl, hstate⟩ := hfits
  have hstate : (s.z.ent idx).state = .reading ∨ (s.z.ent idx).state = .dead := hstate
  by_cases h1 : (s.z.ent idx).state = .reading ∧ data.isSome = true
  · obtain ⟨h1, h2⟩ := h1
    obtain ⟨d, rfl⟩ := Option.isSome_iff_exists.mp h2
    refine ⟨fun hp => ?_, fun hc => ?_, fun b hb => Or.inl ?_⟩
    · rw [h1] at hp
      cases hp
    · rw [h1] at hc
      cases hc
    have hbody := Zs.body_diskInDone (s.z.core idx).slot (s.z.core idx).len (d := d) h1
    have hdata : Zs.bytesOf ((s.z.diskInDone idx (s.z.core idx).slot (s.z.core idx).len
        (some d)).ent idx) = d := congrArg (fun e : Body => e.data.getD []) hbody
    have hlen : ((s.z.diskInDone idx (s.z.core idx).slot (s.z.core idx).len
        (some d)).ent idx).len = (s.z.core idx).len := congrArg Body.len hbody
    have hdec : Decodes d (s.z.core idx).len b := by
      rcases hb with ⟨hr, -⟩ | ⟨-, hd⟩
      · rw [h1] at hr
        exact Bool.noConfusion hr
      · exact hcar h1 b hd
    refine ⟨congrArg (fun e : Body => e.state.inRam) hbody, ?_⟩
    rwa [hdata, hlen]
  unfold Zs.diskInDone
  split_ifs with h2 h3
  · exact absurd ⟨h2, h3⟩ h1
  · exact .backToDisk h2
  · have hs := hstate.resolve_left h2
    refine .of_none ?_ ?_ ?_ ?_ <;> rw [hs] <;> first | rfl | decide

theorem resume (h : s.Sound) (ok : Bool) (junk : List UInt8) :
    Moved s (s.resume t ok junk (s.pc t)) t none := by
  have hfits := h.inv.books.fits t
  have hcar := h.carries t
  cases hpc : s.pc t with
  | newTop frame =>
    rw [Sys.resume]
    split_ifs with h0
    · exact h.movedOn (fun _ => .refl _) rfl trivial fun _ _ _ => trivial
    · obtain ⟨-, hc, -⟩ := h.inv.tables.zswapNew h0 frame
      have hf : (s.z.ent s.z.freeHead).state = .free := hc
      refine h.moved (.zswapNew ..) rfl (Or.inl (by rw [hc]; rfl)) trivial (fun _ _ _ => trivial)
        (Or.inr (.of_none ?_ ?_ ?_ ?_)) <;> rw [hf] <;> first | rfl | decide
  | newGrow frame =>
    rw [Sys.resume]
    split_ifs
    · exact h.movedOn (fun _ => .addBlock h.inv.tables) rfl trivial fun _ _ _ => trivial
    · exact h.movedOn (fun _ => .refl _) rfl trivial fun _ _ _ => trivial
  | wbTop done max =>
    rw [Sys.resume]
    split_ifs
    · rcases h.inv.writebackTake (t := t) (by rw [hpc]; rfl) (by rw [hpc]; rfl) with
        heq | ⟨idx, slot, len, buf, z', heq, -⟩
      · rw [heq]
        exact h.movedOn (fun _ => .refl _) rfl trivial fun _ _ _ => trivial
      · rw [heq]
        exact h.writebackTake heq
    · exact h.movedOn (fun _ => .refl _) rfl trivial fun _ _ _ => trivial
  | wbIo done max idx slot len buf =>
    rw [hpc] at hfits hcar
    refine h.movedWrite (show (s.pc t).run = some (slot, len) by rw [hpc]; rfl) (fun i hi => ?_) rfl rfl ?_
      fun _ _ => trivial
    · rw [hpc] at hi
      cases hi
      rcases hfits.2.2 with hs | hs | hs <;> rw [hs] <;> rfl
    · cases ok
      · trivial
      · exact fun hw b hb => Decodes.written s.z (hcar hw b hb)
  | wbEnd done max idx slot len ok' =>
    have hkeep := h.writebackDone hpc
    have he : (s.pc t).entry = some idx := by rw [hpc]; rfl
    rw [Sys.resume]
    split_ifs
    all_goals
      exact h.moved (.writebackDone ..) rfl (Or.inr he) trivial (fun _ _ _ => trivial)
        (Or.inr hkeep)
  | diTop idx =>
    rw [Sys.resume]
    split_ifs with h1 h2
    · exact h.movedNot
    · refine h.moved (.diskInTake _) rfl (Or.inl ?_) trivial (fun _ _ _ => trivial)
        (Or.inr (.mark rfl ?_ ?_ (fun hr => ?_) (fun _ => ?_) ?_))
      · change (s.z.ent idx).state.busy = false
        rw [h2]
        rfl
      · simp [Sys.goto, Zs.diskInTake, Zs.modify]
      · simp [Sys.goto, Zs.diskInTake, Zs.modify]
      · rw [h2] at hr
        exact Bool.noConfusion hr
      · simp [Sys.goto, Zs.diskInTake, Zs.modify, ZState.onDisk]
      · rw [h2]
        decide
    · exact h.movedOn (fun _ => .refl _) rfl trivial fun _ _ _ => trivial
  | diAlloc idx slot len =>
    have hkeep := h.diskInNoMem hpc
    have he : (s.pc t).entry = some idx := by rw [hpc]; rfl
    rw [Sys.resume]
    split_ifs
    · exact h.movedOn (fun _ => .refl _) rfl trivial fun _ _ _ => trivial
    · exact h.moved (.diskInNoMem ..) rfl (Or.inr he) trivial (fun _ _ _ => trivial) (Or.inr hkeep)
  | diIo idx slot len =>
    refine h.movedOn (fun _ => .refl _) rfl ?_ fun _ _ _ => trivial
    cases ok
    · trivial
    · exact fun _ _ hb => hb
  | diEnd idx slot len data =>
    have he : (s.pc t).entry = some idx := by rw [hpc]; rfl
    exact h.moved (.diskInDone ..) rfl (Or.inr he) trivial (fun _ _ _ => trivial)
      (Or.inr (h.diskInDone hpc))
  | putIo slot len buf =>
    refine h.movedWrite (show (s.pc t).run = some (slot, len) by rw [hpc]; rfl) (fun i hi => ?_) rfl rfl
      trivial fun b hb => ?_
    · rw [hpc] at hi
      cases hi
    · rw [hpc] at hb
      cases ok
      · trivial
      · exact Decodes.written s.z hb
  | putEnd slot len ok' =>
    rw [Sys.resume]
    cases ok'
    · exact h.movedOn (fun _ => .slotPut ..) rfl trivial fun _ _ _ => trivial
    · refine h.movedOn (fun _ => .refl _) rfl trivial fun b _ hb => ?_
      rwa [hpc] at hb
  | idle => exact h.movedNot
  | putDone slot len => exact h.movedNot

/-- **A section changes no page but that of the entry it is called for.** -/
theorem keeps (h : s.Sound) (t : T) (call : Call) (ok : Bool) (junk : List UInt8)
    (hc : s.Allowed call) :
    Moved s (s.step t call ok junk) t (touched (s.pc t) call) := by
  unfold Sys.step
  split
  next hpc =>
    rw [hpc]
    exact h.start hpc hc
  next hpc =>
    rw [hpc]
    exact h.holding hpc hc
  next h1 h2 =>
    have hx : touched (s.pc t) call = none := by
      cases hpc : s.pc t <;> first | rfl | exact absurd hpc h1 | exact absurd hpc (h2 _ _)
    rw [hx]
    exact h.resume ok junk

theorem step (h : s.Sound) (t : T) (call : Call) (ok : Bool) (junk : List UInt8)
    (hc : s.Allowed call) : (s.step t call ok junk).Sound :=
  ⟨h.inv.step t call ok junk hc, (h.keeps t call ok junk hc).carries⟩

theorem call (h : s.Sound) (hpc : s.pc t = .idle) {c : Call} (hc : s.Allowed c) :
    (s.start t c).Sound := ⟨h.inv.start hpc hc, (h.start hpc hc).carries⟩

theorem goesOn (h : s.Sound) (ok : Bool) (junk : List UInt8) :
    (s.resume t ok junk (s.pc t)).Sound := ⟨h.inv.resume ok junk, (h.resume ok junk).carries⟩

omit [DecidableEq T] in
theorem boot (disk : ℕ → UInt8) : (Sys.boot disk : Sys T).Sound := ⟨.boot disk, fun _ => trivial⟩

end Sound

end Sys

end BananaOS.Zswap
