import BananaOS.Kheap.Blocks
import Mathlib.Data.List.Chain

/-!
# The blocks tile the heap

`Tiles` says how the blocks of a heap lie: each on a multiple of 16 and as long as a multiple of 16, no
two over each other, and each where the one before it stops, unless it is the first of a region of its
own.  Splitting a block and merging two replace a part of the list by another part that covers the same
memory; `Tiles.splice` is what both have in common.

`Whole` is the invariant of the heap: the blocks tile it, and the bins hold what is free.  While a block
is being worked on it is in no bin; that is `Loose`, in which the block stands apart from those before
and after it.
-/

namespace BananaOS.Kheap

/-! ## A part of a list for another -/

section Splice

variable {α : Type*} {R N : α → α → Prop} {pre mid mid' post : List α}

theorem pairwise_splice (hsymm : ∀ {a b}, R a b → R b a) (h : (pre ++ (mid ++ post)).Pairwise R)
    (hmid : mid'.Pairwise R) (hout : ∀ c, (∀ m ∈ mid, R m c) → ∀ m ∈ mid', R m c) :
    (pre ++ (mid' ++ post)).Pairwise R := by
  simp only [List.pairwise_append, List.mem_append] at h ⊢
  obtain ⟨hpre, ⟨-, hpost, hmp⟩, hcross⟩ := h
  refine ⟨hpre, ⟨hmid, hpost, fun m hm c hc => hout c (fun n hn => hmp n hn c hc) m hm⟩, ?_⟩
  rintro a ha m (hm | hm)
  · exact hsymm (hout a (fun n hn => hsymm (hcross a ha n (Or.inl hn))) m hm)
  · exact hcross a ha m (Or.inr hm)

theorem isChain_splice (h : (pre ++ (mid ++ post)).IsChain N) (hne : mid ≠ []) (hne' : mid' ≠ [])
    (hmid : mid'.IsChain N)
    (hfirst : ∀ x, ∀ m ∈ mid.head?, N x m → ∀ m' ∈ mid'.head?, N x m')
    (hlast : ∀ y, ∀ m ∈ mid.getLast?, N m y → ∀ m' ∈ mid'.getLast?, N m' y) :
    (pre ++ (mid' ++ post)).IsChain N := by
  have hm := List.head?_eq_some_head hne
  have hn := List.getLast?_eq_some_getLast hne
  have hm' := List.head?_eq_some_head hne'
  simp only [List.isChain_append, List.head?_append, hm, hm', Option.some_or] at h ⊢
  obtain ⟨hpre, ⟨-, hpost, hmp⟩, hpm⟩ := h
  refine ⟨hpre, ⟨hmid, hpost, fun x hx y hy => ?_⟩, fun x hx m' hmem => ?_⟩
  · exact hlast y _ hn (hmp _ hn y hy) x hx
  · exact hfirst x _ hm (hpm x hx _ rfl) m' (hm'.trans hmem)

end Splice

/-! ## Blocks -/

/-- Two blocks are not over each other. -/
def Block.Apart (b c : Block) : Prop := b.stop ≤ c.addr ∨ c.stop ≤ b.addr

/-- What every block is like.  A free one has room for its links. -/
structure Block.Fits (b : Block) : Prop where
  addr : 16 ∣ b.addr
  size : 16 ∣ b.size
  stop : b.stop ≤ heapMax
  links : b.used = false → b.size ≠ 0

/-- A block is where the one before it stops, or it leads a region. -/
def Block.Next (a b : Block) : Prop := a.stop = b.addr ∨ (b.used = true ∧ b.size = 0)

/-- The blocks fit, and no two are over each other. -/
structure Laid (l : List Block) : Prop where
  fits : ∀ b ∈ l, b.Fits
  apart : l.Pairwise Block.Apart

/-- How the blocks lie. -/
structure Tiles (l : List Block) : Prop extends Laid l where
  next : l.IsChain Block.Next

namespace Block

variable {a b c : Block}

theorem Apart.symm (h : a.Apart b) : b.Apart a := Or.symm h

theorem Fits.lt (h : b.Fits) : b.size < 2 ^ 32 ∧ b.stop < 2 ^ 32 := by
  have hstop := h.stop
  unfold heapMax at hstop
  refine ⟨?_, by omega⟩
  unfold Block.stop at hstop
  omega

theorem Fits.sixteen (h : b.Fits) (hne : b.size ≠ 0) : 16 ≤ b.size := by
  obtain ⟨k, hk⟩ := h.size
  omega

theorem Next.of_addr (h : a.Next b) (hb : b.size ≠ 0) (haddr : c.addr = b.addr) : a.Next c :=
  Or.inl ((h.resolve_right fun hz => hb hz.2).trans haddr.symm)

theorem Next.of_stop (h : a.Next b) (hstop : c.stop = a.stop) : c.Next b := by
  unfold Next at h ⊢
  rwa [hstop]

theorem Apart.ne (h : a.Apart b) : a.addr ≠ b.addr := by
  unfold Apart stop hdr at h
  omega

end Block

section Lists

variable {l pre mid mid' post : List Block} {a b c n : Block}

namespace Laid

theorem apart_mid (h : Laid (pre ++ b :: post)) (hc : c ∈ pre ++ post) : b.Apart c := by
  have hperm := (@List.perm_middle _ b pre post).pairwise_iff
    (R := Block.Apart) Block.Apart.symm
  exact (List.pairwise_cons.mp (hperm.mp h.apart)).1 c hc

theorem apart_of_ne (h : Laid l) (hb : b ∈ l) (hc : c ∈ l) (hne : b ≠ c) : b.Apart c := by
  obtain ⟨pre, post, rfl⟩ := List.append_of_mem hb
  refine h.apart_mid ?_
  simpa [Ne.symm hne] using hc

theorem eq_of_addr (h : Laid l) (hb : b ∈ l) (hc : c ∈ l) (haddr : b.addr = c.addr) : b = c := by
  by_contra hne
  exact (h.apart_of_ne hb hc hne).ne haddr

theorem sublist {l' : List Block} (h : Laid l) (hl : List.Sublist l' l) : Laid l' :=
  ⟨fun b hb => h.fits b (hl.subset hb), h.apart.sublist hl⟩

theorem without (h : Laid (pre ++ b :: post)) : Laid (pre ++ post) :=
  h.sublist ((List.sublist_cons_self b post).append_left pre)

end Laid

namespace Tiles

theorem splice (h : Tiles (pre ++ (mid ++ post))) (hne : mid ≠ []) (hne' : mid' ≠ [])
    (hfits : ∀ b ∈ mid', b.Fits) (hapart : mid'.Pairwise Block.Apart) (hnext : mid'.IsChain Block.Next)
    (hout : ∀ c, (∀ m ∈ mid, Block.Apart m c) → ∀ m ∈ mid', Block.Apart m c)
    (hfirst : ∀ x, ∀ m ∈ mid.head?, Block.Next x m → ∀ m' ∈ mid'.head?, Block.Next x m')
    (hlast : ∀ y, ∀ m ∈ mid.getLast?, Block.Next m y → ∀ m' ∈ mid'.getLast?, Block.Next m' y) :
    Tiles (pre ++ (mid' ++ post)) where
  fits b hb := by
    rcases List.mem_append.mp hb with hb | hb
    · exact h.fits b (List.mem_append_left _ hb)
    · rcases List.mem_append.mp hb with hb | hb
      · exact hfits b hb
      · exact h.fits b (List.mem_append_right _ (List.mem_append_right _ hb))
  apart := pairwise_splice Block.Apart.symm h.apart hapart hout
  next := isChain_splice h.next hne hne' hnext hfirst hlast

/-- A block, with those before and after it, is another one of the same extent. -/
theorem change (h : Tiles (pre ++ b :: post)) (hb : b.size ≠ 0) (hc : c.Fits) (haddr : c.addr = b.addr)
    (hstop : c.stop = b.stop) : Tiles (pre ++ c :: post) := by
  refine @splice _ [b] [c] _ h (by simp) (by simp) (by simpa using hc) (by simp) (by simp)
    ?_ ?_ ?_
  · intro d hd
    simp only [List.forall_mem_singleton] at hd ⊢
    unfold Block.Apart at hd ⊢
    rwa [haddr, hstop]
  · rintro x _ ⟨⟩ hx _ ⟨⟩
    exact hx.of_addr hb haddr
  · rintro y _ ⟨⟩ hy _ ⟨⟩
    exact hy.of_stop hstop

/-- Two blocks become one. -/
theorem join (h : Tiles (pre ++ b :: n :: post)) (hb : b.size ≠ 0) (hn : n.size ≠ 0) (hc : c.Fits)
    (haddr : c.addr = b.addr) (hstop : c.stop = n.stop) : Tiles (pre ++ c :: post) := by
  have hbn : b.stop = n.addr := by
    have hnext := h.next
    rw [List.isChain_append_cons_cons] at hnext
    exact hnext.2.1.resolve_right fun hz => hn hz.2
  refine @splice _ [b, n] [c] _ h (by simp) (by simp) (by simpa using hc) (by simp)
    (by simp) ?_ ?_ ?_
  · intro d hd
    simp only [List.forall_mem_cons, List.not_mem_nil, false_implies,
      implies_true, and_true] at hd ⊢
    obtain ⟨h1, h2⟩ := hd
    unfold Block.Apart at h1 h2 ⊢
    rw [haddr, hstop]
    unfold Block.stop hdr at *
    omega
  · rintro x _ ⟨⟩ hx _ ⟨⟩
    exact hx.of_addr hb haddr
  · rintro y _ ⟨⟩ hy _ ⟨⟩
    exact hy.of_stop hstop

/-- One block becomes two. -/
theorem part (h : Tiles (pre ++ b :: post)) (hb : b.size ≠ 0) (hc : c.Fits) (hn : n.Fits)
    (haddr : c.addr = b.addr) (hmid : c.stop = n.addr) (hstop : n.stop = b.stop) :
    Tiles (pre ++ c :: n :: post) := by
  refine @splice _ [b] [c, n] _ h (by simp) (by simp) ?_ ?_ ?_ ?_ ?_ ?_
  · simp [hc, hn]
  · exact List.pairwise_pair.mpr (Or.inl hmid.le)
  · exact List.isChain_pair.mpr (Or.inl hmid)
  · intro d hd
    simp only [List.forall_mem_cons, List.not_mem_nil, false_implies,
      implies_true, and_true] at hd ⊢
    unfold Block.Apart at hd ⊢
    rw [haddr, hmid, hstop]
    unfold Block.stop hdr at *
    omega
  · rintro x _ ⟨⟩ hx _ ⟨⟩
    exact hx.of_addr hb haddr
  · rintro y _ ⟨⟩ hy _ ⟨⟩
    exact hy.of_stop hstop

end Tiles

/-! ## The invariant -/

/-- The free blocks of a list, by address and size. -/
def FreeIn (l : List Block) (a n : ℕ) : Prop := ∃ b ∈ l, b.used = false ∧ b.addr = a ∧ b.size = n

/-- The invariant of the heap. -/
structure Whole (h : Heap) : Prop where
  tiles : Tiles h.blocks
  filed : Filed h.bins (FreeIn h.blocks)

/-- One block is at hand, and in no bin whatever it is. -/
structure Loose (h : Heap) (pre : List Block) (b : Block) (post : List Block) : Prop where
  tiles : Tiles (pre ++ b :: post)
  size : b.size ≠ 0
  filed : Filed h.bins (FreeIn (pre ++ post))

/-- The payload holds what it held. -/
def Agree (h h' : Heap) (b : Block) : Prop := ∀ x, b.payload ≤ x → x < b.stop → h'.mem x = h.mem x

/-- The used blocks of `l` are those of `l'`, and hold what they held. -/
structure Spares (h : Heap) (l : List Block) (h' : Heap) (l' : List Block) : Prop where
  used : ∀ b : Block, b.used = true → (b ∈ l' ↔ b ∈ l)
  mem : ∀ b ∈ l, b.used = true → Agree h h' b

theorem Agree.rfl {h : Heap} : Agree h h b := fun _ _ _ => Eq.refl _

theorem Agree.trans {h h' h'' : Heap} (h1 : Agree h h' b) (h2 : Agree h' h'' b) : Agree h h'' b :=
  fun x hx hx' => (h2 x hx hx').trans (h1 x hx hx')

theorem Spares.trans {h h' h'' : Heap} {l l' l'' : List Block} (h1 : Spares h l h' l')
    (h2 : Spares h' l' h'' l'') : Spares h l h'' l'' :=
  ⟨fun b hb => (h2.used b hb).trans (h1.used b hb),
    fun b hb hu => (h1.mem b hb hu).trans (h2.mem b ((h1.used b hu).mpr hb) hu)⟩

theorem Spares.congr {h h' k k' : Heap} {l l' : List Block} (hs : Spares h l h' l') (hk : k.mem = h.mem)
    (hk' : k'.mem = h'.mem) : Spares k l k' l' :=
  ⟨hs.used, fun b hb hu x hx hx' => by rw [hk, hk']; exact hs.mem b hb hu x hx hx'⟩

theorem Laid.sized (h : Laid l) : Sized (FreeIn l) where
  lt := by
    rintro a n ⟨b, hb, -, -, rfl⟩
    exact (h.fits b hb).lt.1
  unique := by
    rintro a m n ⟨b, hb, -, rfl, rfl⟩ ⟨c, hc, -, haddr, rfl⟩
    rw [h.eq_of_addr hb hc haddr.symm]

theorem freeIn_used (hb : b.used = true) (x n : ℕ) :
    FreeIn (pre ++ b :: post) x n ↔ FreeIn (pre ++ post) x n := by
  unfold FreeIn
  simp [or_and_right, exists_or, hb]

theorem freeIn_free (hb : b.used = false) (x n : ℕ) :
    FreeIn (pre ++ b :: post) x n ↔ FreeIn (pre ++ post) x n ∨ (x = b.addr ∧ n = b.size) := by
  unfold FreeIn
  simp only [List.mem_append, List.mem_cons, or_and_right, exists_or, exists_eq_left, hb, true_and]
  rw [eq_comm (a := x), eq_comm (a := n), or_assoc]
  exact or_congr_right or_comm

namespace Loose

variable {h : Heap}

theorem relabel (hl : Loose h pre b post) (u : Bool) : Loose h pre { b with used := u } post := by
  have hf := hl.tiles.fits b (by simp)
  exact ⟨hl.tiles.change hl.size ⟨hf.addr, hf.size, hf.stop, fun _ => hl.size⟩ rfl rfl, hl.size, hl.filed⟩

theorem of_used (ht : Tiles (pre ++ b :: post)) (hsize : b.size ≠ 0) (hb : b.used = true)
    (hf : Filed h.bins (FreeIn (pre ++ b :: post))) : Loose h pre b post :=
  ⟨ht, hsize, hf.congr (freeIn_used hb)⟩

theorem filed_used (hl : Loose h pre b post) (hb : b.used = true) :
    Filed h.bins (FreeIn (pre ++ b :: post)) :=
  hl.filed.congr fun x n => (freeIn_used hb x n).symm

end Loose

end Lists

end BananaOS.Kheap
