import BananaOS.Kheap.Tiles

/-!
# What the heap's functions do

One lemma for each function, from the bins up: the invariant, the block that comes out, and that what
the other blocks' users hold stays theirs (`Spares`).  Of the memory the heap writes to nothing but the
headers and the payloads of free blocks.
-/

namespace BananaOS.Kheap

variable {h : Heap} {l pre post : List Block} {b c d n : Block}

/-! ## What is written to -/

theorem agree_relink {as : List ℕ}
    (has : ∀ a ∈ as, ∃ c : Block, c.addr = a ∧ 16 ≤ c.size ∧ c.Apart d) : Agree h (h.relink as) d := by
  intro x hx hx'
  show (if _ then _ else _) = _
  rw [if_neg]
  rintro ⟨a, ha, h1, h2⟩
  obtain ⟨c, rfl, hsize, hapart⟩ := has a ha
  unfold Block.Apart Block.stop Block.payload at *
  omega

theorem agree_clobber {a k : ℕ} (hbd : b.Apart d) (h1 : b.addr ≤ a) (h2 : a + k ≤ b.stop) :
    Agree h (h.clobber a k) d := by
  intro x hx hx'
  show (if _ then _ else _) = _
  rw [if_neg]
  rintro ⟨h3, h4⟩
  unfold Block.Apart Block.stop Block.payload at *
  omega

theorem mem_bin (hf : Filed h.bins (FreeIn l)) (hl : Laid l)
    (hd : ∀ c ∈ l, c.used = false → c.Apart d) {fl sl a : ℕ} (ha : a ∈ h.bins.bin fl sl) :
    ∃ c : Block, c.addr = a ∧ 16 ≤ c.size ∧ c.Apart d := by
  obtain ⟨size, ⟨c, hc, hfree, haddr, -⟩, -⟩ := (hf.mem _ _ _).mp ha
  have hfits := hl.fits c hc
  exact ⟨c, haddr, hfits.sixteen (hfits.links hfree), hd c hc hfree⟩

theorem neighbours_subset (a : ℕ) : ∀ l : List ℕ, ∀ x ∈ neighbours a l, x ∈ l
  | [], _, hx => by simp [neighbours] at hx
  | [_], _, hx => by simp [neighbours] at hx
  | p :: q :: rest, x, hx => by
    unfold neighbours at hx
    split at hx
    · simp only [List.mem_singleton] at hx
      simp [hx]
    · split at hx
      · rcases List.mem_cons.mp hx with rfl | hx
        · exact List.mem_cons_self
        · exact List.mem_cons_of_mem _ (List.mem_cons_of_mem _ (List.mem_of_mem_head? (by simpa using hx)))
      · exact List.mem_cons_of_mem _ (neighbours_subset a (q :: rest) x hx)

theorem Laid.apart_used (hl : Laid l) (hd : d ∈ l) (hu : d.used = true) :
    ∀ c ∈ l, c.used = false → c.Apart d := by
  intro c hc hfree
  refine hl.apart_of_ne hc hd ?_
  rintro rfl
  rw [hu] at hfree
  cases hfree

/-! ## In and out of the bins -/

theorem agree_binInsert (hf : Filed h.bins (FreeIn l)) (hl : Laid l)
    (hd : ∀ c ∈ l, c.used = false → c.Apart d) (hb : b.Fits) (hsize : b.size ≠ 0) (hbd : b.Apart d) :
    Agree h (h.binInsert b) d := by
  refine agree_relink (h := { h with bins := _ }) fun a ha => ?_
  rcases List.mem_cons.mp ha with rfl | ha
  · exact ⟨b, rfl, hb.sixteen hsize, hbd⟩
  · exact mem_bin hf hl hd (List.mem_of_mem_head? (by simpa using ha))

theorem agree_binRemove (hf : Filed h.bins (FreeIn l)) (hl : Laid l)
    (hd : ∀ c ∈ l, c.used = false → c.Apart d) : Agree h (h.binRemove b) d :=
  agree_relink (h := { h with bins := _ }) fun a ha => mem_bin hf hl hd (neighbours_subset _ _ a ha)

theorem Loose.binInsert (hl : Loose h pre b post) (hb : b.used = false) :
    Filed (h.binInsert b).bins (FreeIn (pre ++ b :: post)) ∧
      Spares h (pre ++ post) (h.binInsert b) (pre ++ b :: post) := by
  have hfits := hl.tiles.fits b (by simp)
  have hlaid := hl.tiles.toLaid.without
  refine ⟨?_, fun c hc => ?_, fun c hc hu => ?_⟩
  · refine (hl.filed.insert hfits.lt.1 ?_).congr fun x n => (freeIn_free hb x n).symm
    rintro n ⟨c, hc, -, haddr, -⟩
    exact (hl.tiles.apart_mid hc).ne haddr.symm
  · have hne : c ≠ b := by
      rintro rfl
      rw [hc] at hb
      cases hb
    simp [hne]
  · exact agree_binInsert hl.filed hlaid (hlaid.apart_used hc hu) hfits hl.size (hl.tiles.apart_mid hc)

/-- A free block leaves its bin. -/
theorem filed_binRemove (hf : Filed h.bins (FreeIn (pre ++ b :: post))) (hl : Laid (pre ++ b :: post))
    (hb : b.used = false) : Filed (h.binRemove b).bins (FreeIn (pre ++ post)) ∧
      Spares h (pre ++ b :: post) (h.binRemove b) (pre ++ post) := by
  refine ⟨?_, fun c hc => ?_, fun c hc hu => agree_binRemove hf hl (hl.apart_used hc hu)⟩
  · refine (hf.remove hl.sized ?_).congr fun x n => ?_
    · exact ⟨b, by simp, hb, rfl, rfl⟩
    · rw [freeIn_free hb]
      constructor
      · rintro ⟨hx | ⟨rfl, -⟩, hne⟩
        · exact hx
        · exact absurd rfl hne
      · rintro ⟨c, hc, hu, rfl, rfl⟩
        exact ⟨Or.inl ⟨c, hc, hu, rfl, rfl⟩, (hl.apart_mid hc).ne.symm⟩
  · have hne : c ≠ b := by
      rintro rfl
      rw [hc] at hb
      cases hb
    simp [hne]

/-! ## Merging -/

theorem u32_lt {m : ℕ} (hm : m ≤ heapMax) : u32 m = m := by
  unfold heapMax at hm
  exact u32_eq (by omega)

/-- What becomes of a block and those after it. -/
structure Became (h : Heap) (pre : List Block) (b : Block) (post : List Block)
    (m : Heap × Block × List Block) : Prop where
  loose : Loose m.1 pre m.2.1 m.2.2
  addr : m.2.1.addr = b.addr
  used : m.2.1.used = b.used
  spares : Spares h (pre ++ post) m.1 (pre ++ m.2.2)

/-- `merge_next` -/
theorem Loose.mergeNext (hl : Loose h pre b post) :
    Became h pre b post (h.mergeNext b post) ∧ b.size ≤ (h.mergeNext b post).2.1.size ∧
      Agree h (h.mergeNext b post).1 b := by
  have hsame : Became h pre b post (h, b, post) :=
    ⟨hl, rfl, rfl, fun _ _ => Iff.rfl, fun _ _ _ => Agree.rfl⟩
  cases post with
  | nil => exact ⟨hsame, le_rfl, Agree.rfl⟩
  | cons n rest =>
    by_cases hn : n.used = true
    · have hm : h.mergeNext b (n :: rest) = (h, b, n :: rest) := if_pos hn
      rw [hm]
      exact ⟨hsame, le_rfl, Agree.rfl⟩
    · have hm : h.mergeNext b (n :: rest) =
          (h.binRemove n, { b with size := u32 (b.size + (hdr + n.size)) }, rest) := if_neg hn
      rw [Bool.not_eq_true] at hn
      have hb := hl.tiles.fits b (by simp)
      have hnf := hl.tiles.fits n (by simp)
      have hlaid := hl.tiles.toLaid.without
      have hbn : b.stop = n.addr := by
        have hnext := hl.tiles.next
        rw [List.isChain_append_cons_cons] at hnext
        exact hnext.2.1.resolve_right fun hz => hnf.links hn hz.2
      have hstop := hnf.stop
      have hsum : u32 (b.size + (hdr + n.size)) = b.size + (hdr + n.size) := by
        refine u32_lt (le_trans ?_ hstop)
        unfold Block.stop at *
        omega
      rw [hm, hsum]
      obtain ⟨hfiled, hspares⟩ := filed_binRemove hl.filed hlaid hn
      refine ⟨⟨⟨?_, ?_, hfiled⟩, rfl, rfl, hspares⟩, ?_, ?_⟩
      · refine hl.tiles.join hl.size (hnf.links hn) ?_ rfl ?_
        · refine ⟨hb.addr, ?_, ?_, fun _ => ?_⟩
          · have h1 := hb.size
            have h2 := hnf.size
            unfold hdr
            dsimp only
            omega
          · unfold Block.stop at *
            dsimp only
            omega
          · have := hl.size
            dsimp only
            omega
        · unfold Block.stop at *
          dsimp only
          omega
      · have := hl.size
        dsimp only
        omega
      · dsimp only
        omega
      · exact agree_binRemove hl.filed hlaid fun c hc _ => (hl.tiles.apart_mid hc).symm

/-! ## Splitting -/

theorem sub32_eq {m k : ℕ} (hk : k ≤ m) (hm : m < 2 ^ 32) : sub32 m k = m - k := by
  unfold sub32
  rw [u32_eq (hk.trans_lt hm)]
  unfold u32
  omega

theorem Spares.drop {h' : Heap} {pre' post' : List Block}
    (hs : Spares h (pre ++ b :: post) h' (pre' ++ b :: post')) (hl : Laid (pre ++ b :: post))
    (hl' : Laid (pre' ++ b :: post')) : Spares h (pre ++ post) h' (pre' ++ post') := by
  have hin : ∀ {p q : List Block} {c : Block}, c ∈ p ++ q → c ∈ p ++ b :: q := fun hc => by
    simp only [List.mem_append, List.mem_cons] at hc ⊢
    tauto
  have hout : ∀ {p q : List Block} {c : Block}, c ∈ p ++ b :: q → c ≠ b → c ∈ p ++ q := fun hc hne => by
    simp only [List.mem_append, List.mem_cons] at hc ⊢
    tauto
  refine ⟨fun c hu => ⟨fun hc => ?_, fun hc => ?_⟩, fun c hc hu => hs.mem c (hin hc) hu⟩
  · refine hout ((hs.used c hu).mp (hin hc)) ?_
    rintro rfl
    exact (hl'.apart_mid hc).ne rfl
  · refine hout ((hs.used c hu).mpr (hin hc)) ?_
    rintro rfl
    exact (hl.apart_mid hc).ne rfl

/-- `split` of a used block -/
theorem Loose.split {size : ℕ} (hl : Loose h pre b post) (hb : b.used = true) (h16 : 16 ∣ size)
    (h0 : size ≠ 0) (hle : size ≤ b.size) :
    Became h pre b post (h.split b post size) ∧ size ≤ (h.split b post size).2.1.size ∧
      (h.split b post size).2.1.size ≤ b.size ∧
      Agree h (h.split b post size).1 (h.split b post size).2.1 := by
  have hfits := hl.tiles.fits b (by simp)
  have hlt := hfits.lt.1
  have hstop := hfits.stop
  by_cases hsmall : b.size < u32 (size + hdr + minSplit)
  · have hr : h.split b post size = (h, b, post) := if_pos hsmall
    rw [hr]
    exact ⟨⟨hl, rfl, rfl, fun _ _ => Iff.rfl, fun _ _ _ => Agree.rfl⟩, hle, le_rfl, Agree.rfl⟩
  · have hroom : size + hdr + minSplit ≤ b.size := by
      rw [u32_eq] at hsmall
      · exact Nat.not_lt.mp hsmall
      · unfold Block.stop heapMax hdr at *
        unfold minSplit
        omega
    have hrest : sub32 (sub32 b.size size) hdr = b.size - size - hdr := by
      unfold hdr minSplit at hroom
      rw [sub32_eq hle hlt, sub32_eq (by unfold hdr; omega) (by omega)]
    let b1 : Block := { b with size := size }
    let n : Block := ⟨b.addr + hdr + size, b.size - size - hdr, false⟩
    let k := h.clobber n.addr hdr
    have hr : h.split b post size =
        ((k.mergeNext n post).1.binInsert (k.mergeNext n post).2.1, b1,
          (k.mergeNext n post).2.1 :: (k.mergeNext n post).2.2) := by
      unfold Heap.split
      rw [if_neg hsmall, hrest]
    -- the block is cut in two, and the part behind is at hand
    have htiles : Tiles (pre ++ b1 :: n :: post) := by
      have haddr := hfits.addr
      have hsize := hfits.size
      unfold minSplit hdr at hroom
      refine hl.tiles.part hl.size ?_ ?_ rfl rfl ?_
      · refine ⟨haddr, h16, ?_, fun _ => h0⟩
        unfold Block.stop hdr at *
        dsimp only [b1]
        omega
      · refine ⟨?_, ?_, ?_, fun _ => ?_⟩
        · dsimp only [n]
          unfold hdr
          omega
        · dsimp only [n]
          unfold hdr
          omega
        · unfold Block.stop at *
          dsimp only [n]
          unfold hdr at *
          omega
        · dsimp only [n]
          unfold hdr
          omega
      · unfold Block.stop at *
        dsimp only [n]
        unfold hdr at *
        omega
    have hcut : Loose k (pre ++ [b1]) n post := by
      refine ⟨by rwa [List.append_assoc], ?_, ?_⟩
      · dsimp only [n]
        unfold hdr minSplit at *
        omega
      · rw [List.append_assoc]
        exact hl.filed.congr fun x m => (freeIn_used (b := b1) hb x m).symm
    have hclob : ∀ c ∈ (pre ++ [b1]) ++ post, Agree h k c := fun c hc =>
      agree_clobber (hcut.tiles.apart_mid hc) le_rfl (Nat.le_add_right _ _)
    obtain ⟨hm, -, -⟩ := hcut.mergeNext
    generalize k.mergeNext n post = m at *
    obtain ⟨hfiled, hspares⟩ := hm.loose.binInsert hm.used
    have hall := hm.spares.trans hspares
    have htiles' := hm.loose.tiles
    rw [List.append_assoc, List.append_assoc] at hall
    rw [List.append_assoc] at hfiled htiles'
    rw [hr]
    refine ⟨⟨Loose.of_used htiles' h0 hb hfiled, rfl, rfl, ?_⟩, le_rfl, hle, ?_⟩
    · have hlaid : Laid (pre ++ b1 :: post) := by
        have hw := hcut.tiles.toLaid.without
        rwa [List.append_assoc] at hw
      have hdrop := hall.drop hlaid htiles'.toLaid
      refine ⟨hdrop.used, fun c hc hu => (hclob c ?_).trans (hdrop.mem c hc hu)⟩
      rw [List.mem_append] at hc ⊢
      exact hc.imp_left (List.mem_append_left _)
    · exact (hclob b1 (by simp)).trans (hall.mem b1 (by simp) hb)

theorem split_relabel (u : Bool) (size : ℕ) : h.split { b with used := u } post size =
    ((h.split b post size).1, { (h.split b post size).2.1 with used := u }, (h.split b post size).2.2) := by
  unfold Heap.split
  split
  · rfl
  · rfl

/-! ## Handing out -/

/-- `h'` is the heap with a block of `size` bytes at `p` given away; the other users are those of `l`. -/
structure Gave (h : Heap) (l : List Block) (h' : Heap) (p size : ℕ) : Prop where
  whole : Whole h'
  block : ∃ pre c post, h'.blocks = pre ++ c :: post ∧ c.used = true ∧ c.payload = p ∧ size ≤ c.size ∧
    Spares h l h' (pre ++ post)

theorem Gave.of_spares {h0 h' : Heap} {l' : List Block} {p size : ℕ} (hg : Gave h l h' p size)
    (hs : Spares h0 l' h l) : Gave h0 l' h' p size := by
  obtain ⟨hw, pre, c, post, hblocks, hu, hp, hle, hs'⟩ := hg
  exact ⟨hw, pre, c, post, hblocks, hu, hp, hle, hs.trans hs'⟩

theorem Gave.mono {h' : Heap} {p size need : ℕ} (hg : Gave h l h' p need) (hle : size ≤ need) :
    Gave h l h' p size := by
  obtain ⟨hw, pre, c, post, hblocks, hu, hp, hneed, hs⟩ := hg
  exact ⟨hw, pre, c, post, hblocks, hu, hp, hle.trans hneed, hs⟩

theorem handOut_relabel (u : Bool) (need : ℕ) :
    h.handOut pre { b with used := u } post need = h.handOut pre b post need := by
  unfold Heap.handOut
  rw [split_relabel]
  rfl

theorem Loose.handOut {need : ℕ} (hl : Loose h pre b post) (h16 : 16 ∣ need) (h0 : need ≠ 0)
    (hle : need ≤ b.size) : Gave h (pre ++ post) (h.handOut pre b post need).1 b.payload need ∧
      (h.handOut pre b post need).2 = some b.payload := by
  rw [← handOut_relabel true]
  obtain ⟨hb, hneed, -, -⟩ := (hl.relabel true).split rfl h16 h0 hle
  unfold Heap.handOut
  generalize h.split { b with used := true } post need = r at *
  have hu : { r.2.1 with used := true } = r.2.1 := congrArg (Block.mk _ _) hb.used.symm
  have hp : r.2.1.payload = b.payload := by
    unfold Block.payload
    rw [hb.addr]
  dsimp only
  rw [hu]
  refine ⟨⟨⟨hb.loose.tiles, hb.loose.filed_used hb.used⟩, ?_⟩, congrArg some hp⟩
  exact ⟨pre, r.2.1, r.2.2, rfl, hb.used, hp, hneed, hb.spares.used, hb.spares.mem⟩

/-! ## Out of the bins -/

theorem locate_some {a : ℕ} : ∀ {l pre post : List Block} {b : Block},
    locate a l = some (pre, b, post) → l = pre ++ b :: post ∧ b.addr = a
  | [], _, _, _, hl => by cases hl
  | c :: rest, pre, post, b, hl => by
    unfold locate at hl
    split at hl
    · rename_i haddr
      cases hl
      exact ⟨rfl, haddr⟩
    · obtain ⟨⟨pre', b', post'⟩, hrest, heq⟩ := Option.map_eq_some_iff.mp hl
      cases heq
      obtain ⟨rfl, haddr⟩ := locate_some hrest
      exact ⟨rfl, haddr⟩

theorem locate_mem : ∀ {l : List Block} {b : Block}, b ∈ l → ∃ p, locate b.addr l = some p
  | c :: rest, b, hb => by
    unfold locate
    split
    · exact ⟨_, rfl⟩
    · rename_i haddr
      have hb : b ∈ rest := (List.mem_cons.mp hb).resolve_left fun heq => haddr (by rw [heq])
      obtain ⟨p, hp⟩ := locate_mem hb
      exact ⟨_, by rw [hp]; rfl⟩

/-- **What `bin_take` takes is free and big enough, and where it takes nothing all is smaller.** -/
theorem Whole.binTake {need : ℕ} (hw : Whole h) (hn : need < 2 ^ 32) (h16 : 16 ∣ need) :
    match h.binTake need with
    | some (h1, pre, b, post) => h.blocks = pre ++ b :: post ∧ b.used = false ∧
        roundUp need ≤ b.size ∧ h1 = h.binRemove b
    | none => ∀ b ∈ h.blocks, b.used = false → b.size < roundUp need := by
  have hspec := hw.filed.find_spec hw.tiles.sized hn h16
  unfold Heap.binTake
  cases hp : h.bins.find need with
  | none =>
    rw [hp] at hspec
    exact fun b hb hfree => hspec b.addr b.size ⟨b, hb, hfree, rfl, rfl⟩
  | some p =>
    rw [hp] at hspec
    obtain ⟨hne, hsize⟩ := hspec
    obtain ⟨fl, sl⟩ := p
    dsimp only at hne ⊢
    rw [List.head?_eq_some_head hne, Option.bind_some]
    have ha := List.head_mem hne
    generalize (h.bins.bin fl sl).head hne = a at *
    obtain ⟨n, ⟨b, hb, hfree, rfl, rfl⟩, hbin⟩ := (hw.filed.mem _ _ _).mp ha
    obtain ⟨⟨pre, c, post⟩, hloc⟩ := locate_mem hb
    obtain ⟨hblocks, haddr⟩ := locate_some hloc
    obtain rfl : c = b := hw.tiles.eq_of_addr (by rw [hblocks]; simp) hb haddr
    rw [hloc]
    exact ⟨hblocks, hfree, hsize _ _ ⟨c, hb, hfree, rfl, rfl⟩ hbin, rfl⟩

theorem Whole.binRemove (hw : Whole h) (hb : h.blocks = pre ++ b :: post) (hfree : b.used = false) :
    Loose (h.binRemove b) pre b post ∧ Spares h h.blocks (h.binRemove b) (pre ++ post) := by
  have ht := hw.tiles
  have hf := hw.filed
  rw [hb] at ht hf ⊢
  obtain ⟨h1, h2⟩ := filed_binRemove hf ht.toLaid hfree
  exact ⟨⟨ht, (ht.fits b (by simp)).links hfree, h1⟩, h2⟩

/-! ## At an address -/

theorem sub64_eq {x y : ℕ} (hyx : y ≤ x) (hx : x < 2 ^ 64) : sub64 x y = x - y := by
  unfold sub64 u64
  omega

/-- `take_aligned` -/
theorem Loose.takeAligned {a need : ℕ} (hl : Loose h pre b post) (hb : b.used = false) (h16 : 16 ∣ need)
    (h0 : need ≠ 0) (ha : 16 ∣ a) (hspot : a = b.payload ∨ b.payload + (hdr + minSplit) ≤ a)
    (hend : a + need ≤ b.stop) : Gave h (pre ++ post) (h.takeAligned pre b post a need).1 a need ∧
      (h.takeAligned pre b post a need).2 = some a := by
  have hfits := hl.tiles.fits b (by simp)
  have hstop := hfits.stop
  have hlt := hfits.lt.2
  by_cases hpay : a = b.payload
  · have hr : h.takeAligned pre b post a need = h.handOut pre b post need := if_neg (not_not.mpr hpay)
    rw [hr, hpay]
    refine hl.handOut h16 h0 ?_
    unfold Block.stop at hend
    unfold Block.payload at hpay
    omega
  · have hfar := hspot.resolve_left hpay
    unfold Block.payload hdr minSplit at hfar
    have haddr := hfits.addr
    let front : Block := { b with size := a - hdr - b.payload }
    let n : Block := ⟨a - hdr, b.stop - a, true⟩
    let k := h.clobber n.addr hdr
    have hr : h.takeAligned pre b post a need =
        (k.binInsert front).handOut (pre ++ [front]) n post need := by
      have h1 : sub64 a hdr = a - hdr := sub64_eq (by unfold hdr; omega) (by omega)
      have h2 : sub64 b.stop a = b.stop - a := sub64_eq (by omega) (by omega)
      have h3 : sub64 (a - hdr) b.payload = a - hdr - b.payload :=
        sub64_eq (by unfold Block.payload hdr; omega) (by omega)
      rw [← handOut_relabel false]
      unfold Heap.takeAligned
      rw [if_pos hpay]
      dsimp only
      rw [h1, h2, h3, u32_lt (by omega), u32_lt (by omega)]
    have htiles : Tiles (pre ++ front :: n :: post) := by
      have hsize := hfits.size
      refine hl.tiles.part hl.size ⟨haddr, ?_, ?_, fun _ => ?_⟩ ⟨?_, ?_, ?_, ?_⟩ rfl ?_ ?_
      · dsimp only [front]
        unfold Block.payload hdr
        omega
      · unfold Block.stop at *
        dsimp only [front]
        unfold Block.payload hdr at *
        omega
      · dsimp only [front]
        unfold Block.payload hdr
        omega
      · dsimp only [n]
        unfold hdr
        omega
      · dsimp only [n]
        unfold Block.stop hdr
        omega
      · show a - hdr + hdr + (b.stop - a) ≤ heapMax
        unfold hdr
        omega
      · intro hu
        cases hu
      · unfold Block.stop
        dsimp only [front, n]
        unfold Block.payload hdr
        omega
      · show a - hdr + hdr + (b.stop - a) = b.stop
        unfold hdr
        omega
    have hfront : Loose k pre front (n :: post) := by
      refine ⟨htiles, ?_, hl.filed.congr fun x m => (freeIn_used (b := n) rfl x m).symm⟩
      dsimp only [front]
      unfold Block.payload hdr
      omega
    obtain ⟨hfiled, hspares⟩ := hfront.binInsert hb
    rw [List.append_cons] at htiles hfiled
    have hn : Loose (k.binInsert front) (pre ++ [front]) n post := by
      refine Loose.of_used htiles ?_ rfl hfiled
      dsimp only [n]
      omega
    have hclob : ∀ c ∈ pre ++ post, Agree h k c := fun c hc => by
      refine agree_clobber (htiles.apart_mid (c := c) ?_) le_rfl (Nat.le_add_right _ _)
      simp only [List.mem_append] at hc ⊢
      tauto
    have hdrop : Spares k (pre ++ post) (k.binInsert front) ((pre ++ [front]) ++ post) := by
      refine Spares.drop (b := n) ?_ hfront.tiles.toLaid.without htiles.toLaid
      rwa [← List.append_cons]
    obtain ⟨hgave, hsome⟩ := hn.handOut h16 h0 (by dsimp only [n]; omega)
    have hp : n.payload = a := by
      unfold Block.payload
      dsimp only [n]
      unfold hdr
      omega
    rw [hp] at hgave hsome
    rw [hr]
    refine ⟨hgave.of_spares ⟨hdrop.used, fun c hc hu => (hclob c hc).trans (hdrop.mem c hc hu)⟩, hsome⟩

/-! ## Given back -/

/-- `kfree` of a used block -/
theorem Whole.release (hw : Whole h) (hblocks : h.blocks = pre ++ b :: post) (hu : b.used = true)
    (hsize : b.size ≠ 0) : Whole (h.release pre b post) ∧
      Spares h (pre ++ post) (h.release pre b post) (h.release pre b post).blocks := by
  have ht := hw.tiles
  have hf := hw.filed
  rw [hblocks] at ht hf
  let k : Heap := { h with usedBytes := sub32 h.usedBytes b.size }
  have hl : Loose k pre { b with used := false } post := (Loose.of_used (h := k) ht hsize hu hf).relabel false
  obtain ⟨hm, -, -⟩ := hl.mergeNext
  have hfree := hm.used
  have hspares := hm.spares
  unfold Heap.release
  dsimp only
  generalize k.mergeNext { b with used := false } post = m at *
  rcases List.eq_nil_or_concat pre with rfl | ⟨pre0, p, rfl⟩
  · obtain ⟨h1, h2⟩ := hm.loose.binInsert hfree
    exact ⟨⟨hm.loose.tiles, h1⟩, (hspares.trans h2).congr rfl rfl⟩
  · rw [List.concat_eq_append] at hm hspares ⊢
    rw [List.getLast?_concat]
    dsimp only
    by_cases hp : p.used = true
    · rw [if_pos hp]
      obtain ⟨h1, h2⟩ := hm.loose.binInsert hfree
      exact ⟨⟨hm.loose.tiles, h1⟩, (hspares.trans h2).congr rfl rfl⟩
    · rw [if_neg hp, List.dropLast_concat]
      rw [Bool.not_eq_true] at hp
      have htiles := hm.loose.tiles
      have hfiled := hm.loose.filed
      rw [← List.append_cons] at htiles hfiled
      have hpf := htiles.fits p (by simp)
      have hmf := htiles.fits m.2.1 (by simp)
      have hpm : p.stop = m.2.1.addr := by
        have hnext := htiles.next
        rw [List.isChain_append_cons_cons] at hnext
        exact hnext.2.1.resolve_right fun hz => hm.loose.size hz.2
      have hlaid : Laid (pre0 ++ p :: m.2.2) := by
        have hw := hm.loose.tiles.toLaid.without
        rwa [← List.append_cons] at hw
      obtain ⟨h1, h2⟩ := filed_binRemove hfiled hlaid hp
      rw [List.append_cons] at h2
      have hmstop := hmf.stop
      have hsum : u32 (p.size + (hdr + m.2.1.size)) = p.size + (hdr + m.2.1.size) := by
        refine u32_lt ?_
        unfold Block.stop at *
        omega
      rw [hsum]
      have hjoin : Loose (m.1.binRemove p) pre0 { p with size := p.size + (hdr + m.2.1.size) } m.2.2 := by
        have hpsize := hpf.links hp
        refine ⟨htiles.join hpsize hm.loose.size ⟨hpf.addr, ?_, ?_, fun _ => ?_⟩ rfl ?_, ?_, h1⟩
        · have h3 := hpf.size
          have h4 := hmf.size
          unfold hdr
          dsimp only
          omega
        · unfold Block.stop at *
          dsimp only
          omega
        · dsimp only
          omega
        · unfold Block.stop at *
          dsimp only
          omega
        · dsimp only
          omega
      obtain ⟨h3, h4⟩ := hjoin.binInsert hp
      exact ⟨⟨hjoin.tiles, h3⟩, ((hspares.trans h2).trans h4).congr rfl rfl⟩

/-! ## Grown -/

theorem le_of_canGrow {need : ℕ} (hl : Loose h pre b post) (hg : Heap.canGrow b post need = true) :
    need ≤ (h.mergeNext b post).2.1.size := by
  cases post with
  | nil => cases hg
  | cons n rest =>
    unfold Heap.canGrow at hg
    rw [Bool.and_eq_true, decide_eq_true_iff, Bool.not_eq_true'] at hg
    obtain ⟨hn, hneed⟩ := hg
    have hm : h.mergeNext b (n :: rest) =
        (h.binRemove n, { b with size := u32 (b.size + (hdr + n.size)) }, rest) :=
      if_neg (by rw [hn]; exact Bool.false_ne_true)
    rw [hm, ← Nat.add_assoc]
    exact hneed

/-- `krealloc` in place -/
theorem Whole.grow {need : ℕ} (hw : Whole h) (hblocks : h.blocks = pre ++ b :: post) (hu : b.used = true)
    (hsize : b.size ≠ 0) (h16 : 16 ∣ need) (hneed : b.size < need)
    (hg : Heap.canGrow b post need = true) :
    Gave h (pre ++ post) (h.grow pre b post need) b.payload need ∧ Agree h (h.grow pre b post need) b := by
  have ht := hw.tiles
  have hf := hw.filed
  rw [hblocks] at ht hf
  let k : Heap := { h with usedBytes := sub32 h.usedBytes b.size }
  have hl : Loose k pre b post := Loose.of_used ht hsize hu hf
  obtain ⟨hm, -, hagree⟩ := hl.mergeNext
  have hle := le_of_canGrow hl hg
  unfold Heap.grow
  dsimp only
  generalize k.mergeNext b post = m at *
  obtain ⟨hr, hge, -, hagree'⟩ := hm.loose.split (hm.used.trans hu) h16 (by omega) hle
  generalize m.1.split m.2.1 m.2.2 need = r at *
  have haddr : r.2.1.addr = b.addr := hr.addr.trans hm.addr
  have hused : r.2.1.used = true := hr.used.trans (hm.used.trans hu)
  have hspares := hm.spares.trans hr.spares
  refine ⟨⟨⟨hr.loose.tiles, hr.loose.filed_used hused⟩, ?_⟩, fun x hx hx' => ?_⟩
  · refine ⟨pre, r.2.1, r.2.2, rfl, hused, ?_, hge, hspares.used, hspares.mem⟩
    unfold Block.payload
    rw [haddr]
  · refine (hagree' x ?_ ?_).trans (hagree x hx hx')
    · unfold Block.payload at *
      rwa [haddr]
    · unfold Block.stop at *
      rw [haddr]
      omega

end BananaOS.Kheap
