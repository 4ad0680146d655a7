import BananaOS.Tcp.Board
import BananaOS.Tcp.Held

/-!
# The SACK blocks we send

`sack_blocks` walks the out-of-order list once and makes ranges of the segments that touch.  Measured
from `rcv_nxt` this is merging sorted ranges (`offsets_rangesFrom`), so that the blocks are maximal runs
of what is held; comparing the ends is safe because no range is longer than what 256 segments can hold.
The order of the blocks is a matter of `last_ooo`, the number of the newest segment, stored or not
(`placed_first`).  A segment that brings a FIN and no data is held like any other, and its range is
empty: `Reports` says of the blocks what it can whether they are empty or not.
-/

namespace BananaOS.Tcp

open Lib Lib.Serial

/-- What the segments hold, measured from `b`. -/
def spans (b : Serial) (l : List OooSeg) : List (ℕ × ℕ) :=
  l.map fun o => (dist b o.seq, dist b o.seq + o.data.length)

namespace Conn

/-- The byte with this number is held out of order. -/
def Holds (c : Conn) (x : Serial) : Prop := ∃ o ∈ c.ooo, dist o.seq x < o.data.length

/-- What blocks that are reported are to be. -/
structure Reports (c : Conn) (max : ℕ) (blocks : List (Serial × Serial)) : Prop where
  few : blocks.length ≤ max
  held : ∀ b ∈ blocks, ∀ x, Within b x → c.Holds x
  maximal : ∀ b ∈ blocks, ¬ c.Holds (b.1 - 1) ∧ ¬ c.Holds b.2
  nonempty : (∀ o ∈ c.ooo, o.data ≠ []) → ∀ b ∈ blocks, b.1 ≠ b.2
  ahead : ∀ b ∈ blocks, dist c.rcvNxt b.1 ≤ dist c.rcvNxt b.2 ∧
    (gt b.1 c.rcvNxt ∨ (c.finRcvd ∧ ∃ o ∈ c.ooo, o.seq = c.rcvNxt))
  apart : blocks.Pairwise fun a b =>
    Apart (dist c.rcvNxt a.1, dist c.rcvNxt a.2) (dist c.rcvNxt b.1, dist c.rcvNxt b.2)
  newest : c.Holds c.lastOoo → ∃ b ∈ blocks.head?, Within b c.lastOoo

variable {c : Conn}

/-! ## Ranges, measured from `rcv_nxt` -/

theorem dist_stop {b : Serial} {o : OooSeg} (hs : o.data.length < 2 ^ 16)
    (ha : dist b o.seq < 2 ^ 31) : dist b o.stop = dist b o.seq + o.data.length :=
  dist_fwd b (by omega)

theorem offsets_rangesFrom {b rs re : Serial} {l : List OooSeg}
    (hs : ∀ o ∈ l, o.data.length < 2 ^ 16) (ha : ∀ o ∈ l, dist b o.seq < 2 ^ 31)
    (hsorted : l.Pairwise fun a a' => dist b a.seq ≤ dist b a'.seq)
    (hre : dist b re < 2 ^ 31 + 2 ^ 16) (hnear : ∀ o ∈ l, dist b re ≤ dist b o.seq + 2 ^ 16) :
    offsets b (rangesFrom rs re l) = mergeFrom (dist b rs) (dist b re) (spans b l) := by
  induction l generalizing rs re with
  | nil => rfl
  | cons o rest ih =>
    obtain ⟨hs1, hs2⟩ := List.forall_mem_cons.mp hs
    obtain ⟨ha1, ha2⟩ := List.forall_mem_cons.mp ha
    obtain ⟨hbehind, hrest⟩ := List.pairwise_cons.mp hsorted
    obtain ⟨hn1, hn2⟩ := List.forall_mem_cons.mp hnear
    have hstop := dist_stop hs1 ha1
    have hle : le o.seq re ↔ dist b o.seq ≤ dist b re := by
      rw [le_iff_not_gt, gt_iff b]
      omega
    show _ = mergeFrom _ _ ((dist b o.seq, dist b o.seq + o.data.length) :: spans b rest)
    unfold rangesFrom mergeFrom
    by_cases hcase : le o.seq re
    · have hcase' := hle.mp hcase
      have hgt : gt o.stop re ↔ dist b re < dist b o.seq + o.data.length := by
        rw [gt_iff b, hstop]
        omega
      have hre' : dist b (if gt o.stop re then o.stop else re) =
          if dist b re < dist b o.seq + o.data.length then dist b o.seq + o.data.length
          else dist b re := by
        simp only [hgt, apply_ite (dist b), hstop]
      rw [if_pos hcase, if_pos hcase', ← hre']
      refine ih hs2 ha2 hrest ?_ fun q hq => ?_
      · rw [hre']
        split <;> omega
      · have := hbehind q hq
        rw [hre']
        split <;> omega
    · rw [if_neg hcase, if_neg (fun h => hcase (hle.mpr h)), ← hstop]
      have hih := @ih o.seq o.stop hs2 ha2 hrest (by omega) fun q hq => by
        have := hbehind q hq
        omega
      rw [← hih]
      rfl

theorem covers_spans {b : Serial} {l : List OooSeg} (hs : ∀ o ∈ l, o.data.length < 2 ^ 16)
    (ha : ∀ o ∈ l, dist b o.seq < 2 ^ 31) {x : Serial} :
    Covers (spans b l) (dist b x) ↔ ∃ o ∈ l, dist o.seq x < o.data.length := by
  have hone : ∀ o ∈ l, (dist b o.seq ≤ dist b x ∧ dist b x < dist b o.seq + o.data.length) ↔
      dist o.seq x < o.data.length := by
    intro o ho
    have h1 := hs o ho
    have h2 := ha o ho
    have h3 := dist_add_dist b o.seq x
    have h4 := dist_lt o.seq x
    have h5 := dist_lt b x
    omega
  constructor
  · rintro ⟨q, hq, hx⟩
    obtain ⟨o, ho, rfl⟩ := List.mem_map.mp hq
    exact ⟨o, ho, (hone o ho).mp hx⟩
  · rintro ⟨o, ho, hx⟩
    exact ⟨_, List.mem_map.mpr ⟨o, ho, rfl⟩, (hone o ho).mpr hx⟩

/-- A range is no longer than the segments it is made of. -/
theorem mergeFrom_length {k s e : ℕ} {l : List (ℕ × ℕ)} (hse : s ≤ e)
    (hl : ∀ q ∈ l, q.1 ≤ q.2 ∧ q.2 ≤ q.1 + k) :
    ∀ r ∈ mergeFrom s e l, r.2 ≤ r.1 + (e - s) + k * l.length := by
  induction l generalizing s e with
  | nil =>
    intro r hr
    rw [List.mem_singleton.mp hr]
    dsimp only
    omega
  | cons q rest ih =>
    obtain ⟨hq, hrest⟩ := List.forall_mem_cons.mp hl
    have hlen : k * (q :: rest).length = k * rest.length + k := by
      rw [List.length_cons, Nat.mul_add_one]
    unfold mergeFrom
    split
    · intro r hr
      have h1 := ih (by split <;> omega) hrest r hr
      split at h1 <;> omega
    · refine List.forall_mem_cons.mpr ⟨?_, fun r hr => ?_⟩
      · dsimp only
        omega
      · have h1 := ih hq.1 hrest r hr
        omega

/-- The ranges of the list, measured from `rcv_nxt`. -/
structure Ranged (c : Conn) (m : List (ℕ × ℕ)) : Prop where
  ordered : ∀ r ∈ m, r.1 ≤ r.2
  apart : m.Pairwise Apart
  covers : ∀ x, Covers m x ↔ Covers (spans c.rcvNxt c.ooo) x
  stop : ∀ r ∈ m, ¬ Covers m r.2
  below : ∀ r ∈ m, ∀ x, x + 1 = r.1 → ¬ Covers m x
  long : ∀ r ∈ m, r.2 ≤ r.1 + 2 ^ 25
  start : ∀ r ∈ m, ∃ o ∈ c.ooo, r.1 = dist c.rcvNxt o.seq
  proper : (∀ o ∈ c.ooo, o.data ≠ []) → ∀ r ∈ m, r.1 < r.2

theorem Kept.ranged (h : c.Kept) : c.Ranged (offsets c.rcvNxt (oooRanges c.ooo)) := by
  have hno : ∀ {P : ℕ × ℕ → Prop}, ∀ r ∈ ([] : List (ℕ × ℕ)), P r :=
    fun _ hr => absurd hr List.not_mem_nil
  have hfew := h.few
  have hmax : oooMax = 256 := rfl
  cases hl : c.ooo with
  | nil => exact ⟨hno, .nil, fun x => by rw [hl]; rfl, hno, hno, hno, hno, fun _ => hno⟩
  | cons o rest =>
    have hs := h.short
    have ha := h.ahead
    have hsorted := h.sorted
    rw [hl] at hs ha hsorted hfew
    obtain ⟨hs1, hs2⟩ := List.forall_mem_cons.mp hs
    obtain ⟨ha1, ha2⟩ := List.forall_mem_cons.mp ha
    obtain ⟨hbehind, hrest⟩ := List.pairwise_cons.mp hsorted
    have hstop := dist_stop hs1 ha1
    have hoff := @offsets_rangesFrom _ o.seq o.stop _ hs2 ha2 hrest (by omega)
      fun q hq => by
        have := hbehind q hq
        omega
    rw [hstop] at hoff
    have hspan : ∀ q ∈ spans c.rcvNxt rest, ∃ p ∈ rest, q = (dist c.rcvNxt p.seq,
        dist c.rcvNxt p.seq + p.data.length) := by
      intro q hq
      obtain ⟨p, hp, rfl⟩ := List.mem_map.mp hq
      exact ⟨p, hp, rfl⟩
    have hm := mergeFrom_merged (s := dist c.rcvNxt o.seq)
      (e := dist c.rcvNxt o.seq + o.data.length) (l := spans c.rcvNxt rest) (Nat.le_add_right _ _)
      (fun q hq => by
        obtain ⟨p, hp, rfl⟩ := hspan q hq
        exact ⟨hbehind p hp, Nat.le_add_right _ _⟩)
      (List.pairwise_map.mpr hrest)
    have hlong := mergeFrom_length (k := 2 ^ 16) (s := dist c.rcvNxt o.seq)
      (e := dist c.rcvNxt o.seq + o.data.length) (l := spans c.rcvNxt rest) (Nat.le_add_right _ _)
      fun q hq => by
        obtain ⟨p, hp, rfl⟩ := hspan q hq
        have := hs2 p hp
        exact ⟨Nat.le_add_right _ _, by dsimp only; omega⟩
    have hlen : (spans c.rcvNxt rest).length = rest.length := List.length_map ..
    show c.Ranged (offsets c.rcvNxt (rangesFrom o.seq o.stop rest))
    rw [hoff]
    refine ⟨fun r hr => (hm.ordered r hr).2, hm.apart.imp Or.inl, fun x => ?_,
      fun r hr => hm.not_covers_stop hr, fun r hr x hx hc => ?_, fun r hr => ?_, fun r hr => ?_,
      fun hne => ?_⟩
    · rw [hm.covers, hl]
      exact (covers_cons (dist c.rcvNxt o.seq, dist c.rcvNxt o.seq + o.data.length) _ x).symm
    · obtain ⟨y, h1, h2, -⟩ := hm.below hr (by omega) hc
      omega
    · have h1 := hlong r hr
      rw [hlen] at h1
      rw [List.length_cons] at hfew
      omega
    · rw [hl]
      rcases mergeFrom_starts _ _ _ r hr with h1 | ⟨q, hq, h1⟩
      · exact ⟨o, List.mem_cons_self, h1⟩
      · obtain ⟨p, hp, rfl⟩ := hspan q hq
        exact ⟨p, List.mem_cons_of_mem _ hp, h1⟩
    · rw [hl] at hne
      have hpos : ∀ p ∈ o :: rest, 0 < p.data.length := fun p hp => List.length_pos_iff.mpr (hne p hp)
      refine mergeFrom_proper (Nat.lt_add_of_pos_right (hpos o List.mem_cons_self)) fun q hq => ?_
      obtain ⟨p, hp, rfl⟩ := hspan q hq
      exact Nat.lt_add_of_pos_right (hpos p (List.mem_cons_of_mem _ hp))

/-! ## The order of the blocks -/

section

variable (last : Serial) {max : ℕ}

/-- The blocks are ranges, each of them once. -/
theorem placed_subperm (first : Option (Serial × Serial)) (others l : List (Serial × Serial)) :
    (placeRanges last max first others l).Subperm (first.toList ++ others ++ l) := by
  induction l generalizing first others with
  | nil =>
    rw [List.append_nil]
    exact List.Subperm.refl _
  | cons r rest ih =>
    unfold placeRanges
    split
    · rename_i hfirst
      have hnone : first = none := Option.isNone_iff_eq_none.mp hfirst.1
      refine (ih (some r) others).trans ?_
      rw [hnone]
      exact (List.perm_middle (a := r)).symm.subperm
    · refine (ih first _).trans ?_
      split
      · rw [List.append_assoc, List.append_assoc, List.append_assoc]
        exact List.Subperm.refl _
      · exact ((List.Sublist.refl _).append (List.sublist_cons_self _ _)).subperm

theorem placed_length (first : Option (Serial × Serial))
    {others : List (Serial × Serial)} (ho : others.length < max) (l : List (Serial × Serial)) :
    (placeRanges last max first others l).length ≤ max := by
  induction l generalizing first others with
  | nil =>
    unfold placeRanges
    rw [List.length_append]
    have : first.toList.length ≤ 1 := by cases first <;> simp
    omega
  | cons r rest ih =>
    unfold placeRanges
    split
    · exact ih (some r) ho
    · refine ih first ?_
      split
      · rw [List.length_append]
        simpa using by assumption
      · exact ho

theorem placed_some (f : Serial × Serial) (others l : List (Serial × Serial)) :
    (placeRanges last max (some f) others l).head? = some f := by
  induction l generalizing others with
  | nil => rfl
  | cons r rest ih =>
    unfold placeRanges
    rw [if_neg (by simp)]
    exact ih _

/-- The range that holds `last`, if there is one, is the first. -/
theorem placed_first (others : List (Serial × Serial)) {l : List (Serial × Serial)}
    (h : ∃ r ∈ l, ge last r.1 ∧ lt last r.2) : ∃ r ∈ l, ge last r.1 ∧ lt last r.2 ∧
      (placeRanges last max none others l).head? = some r := by
  induction l generalizing others with
  | nil => exact absurd h.choose_spec.1 List.not_mem_nil
  | cons q rest ih =>
    unfold placeRanges
    by_cases hq : ge last q.1 ∧ lt last q.2
    · rw [if_pos ⟨rfl, hq⟩, placed_some]
      exact ⟨q, List.mem_cons_self, hq.1, hq.2, rfl⟩
    · rw [if_neg (fun hc => hq hc.2)]
      obtain ⟨r, hr, hlast⟩ := h
      rcases List.mem_cons.mp hr with rfl | hr
      · exact absurd hlast hq
      · obtain ⟨r', hr', h'⟩ := ih _ ⟨r, hr, hlast⟩
        exact ⟨r', List.mem_cons_of_mem _ hr', h'⟩

end

/-! ## The reports -/

theorem last_within {r : Serial × Serial} {x : Serial} (h : dist r.1 r.2 < 2 ^ 31) :
    (ge x r.1 ∧ lt x r.2) ↔ Within r x := by
  have h1 := dist_lt r.1 x
  have h2 := dist_lt r.2 x
  have h3 := dist_add_dist r.1 r.2 x
  unfold Within
  rw [ge_iff_not_lt, lt_iff_dist, lt_iff_dist]
  omega

theorem Kept.reports (h : c.Kept) {max : ℕ} (hmax : 0 < max) :
    c.Reports max (c.sackBlocks max) := by
  have hr := h.ranged
  have hsub : (c.sackBlocks max).Subperm (oooRanges c.ooo) := placed_subperm c.lastOoo none [] _
  have hmem : ∀ b ∈ c.sackBlocks max, (dist c.rcvNxt b.1, dist c.rcvNxt b.2) ∈
      offsets c.rcvNxt (oooRanges c.ooo) :=
    fun b hb => List.mem_map.mpr ⟨b, hsub.subset hb, rfl⟩
  have hholds : ∀ x, Covers (offsets c.rcvNxt (oooRanges c.ooo)) (dist c.rcvNxt x) ↔ c.Holds x :=
    fun x => (hr.covers _).trans (covers_spans h.short h.ahead)
  have hordered : ∀ b ∈ oooRanges c.ooo, dist c.rcvNxt b.1 ≤ dist c.rcvNxt b.2 :=
    fun b hb => hr.ordered _ (List.mem_map.mpr ⟨b, hb, rfl⟩)
  refine ⟨?_, ?_, ?_, ?_, ?_, ?_, ?_⟩
  · exact placed_length c.lastOoo none hmax _
  · intro b hb x hx
    exact (hholds x).mp ((covers_offsets hordered).mpr ⟨b, hsub.subset hb, hx⟩)
  · intro b hb
    refine ⟨fun hc => ?_, fun hc => hr.stop _ (hmem b hb) ((hholds b.2).mpr hc)⟩
    have hc := (hholds _).mpr hc
    rcases dist_pred c.rcvNxt b.1 with hpred | ⟨-, hpred⟩
    · exact hr.below _ (hmem b hb) _ hpred hc
    · -- `rcv_nxt - 1` is farther ahead than anything that is held
      rw [hr.covers, hpred] at hc
      obtain ⟨q, hq, -, hlt⟩ := hc
      obtain ⟨o, ho, rfl⟩ := List.mem_map.mp hq
      have h1 := h.short o ho
      have h2 := h.ahead o ho
      dsimp only at hlt
      omega
  · intro hne b hb heq
    have := hr.proper hne _ (hmem b hb)
    rw [heq] at this
    exact lt_irrefl _ this
  · intro b hb
    refine ⟨hr.ordered _ (hmem b hb), ?_⟩
    obtain ⟨o, ho, hstart⟩ := hr.start _ (hmem b hb)
    have hstart : dist c.rcvNxt b.1 = dist c.rcvNxt o.seq := hstart
    by_cases hz : o.seq = c.rcvNxt
    · refine Or.inr ⟨?_, o, ho, hz⟩
      by_contra hfin
      exact h.later (Bool.not_eq_true _ ▸ hfin) o ho hz
    · have hpos : dist c.rcvNxt o.seq ≠ 0 := fun h0 => hz (dist_eq_zero.mp h0)
      have := h.ahead o ho
      exact Or.inl (gt_iff_dist.mpr ⟨by omega, by omega⟩)
  · obtain ⟨l, hperm, hl⟩ := hsub
    exact ((List.pairwise_map.mp hr.apart).sublist hl).perm hperm Or.symm
  · intro hlast
    obtain ⟨r, hmr, hw⟩ := (covers_offsets hordered).mp ((hholds _).mpr hlast)
    have hshort : ∀ q ∈ oooRanges c.ooo, dist q.1 q.2 < 2 ^ 31 := by
      intro q hq
      have hlong := hr.long _ (List.mem_map.mpr ⟨q, hq, rfl⟩)
      rw [dist_ahead (hordered q hq)]
      dsimp only at hlong
      omega
    obtain ⟨r', hmr', h1, h2, hhead⟩ := placed_first c.lastOoo []
      ⟨r, hmr, (last_within (hshort r hmr)).mpr hw⟩
    exact ⟨r', hhead, (last_within (hshort r' hmr')).mp ⟨h1, h2⟩⟩

/-- **What is reported is held, and all of it around.**  In every run the blocks that `sack_blocks`
makes are at most as many as there is room for, maximal runs of held bytes, apart from each other and
after `rcv_nxt`, and no block is empty if no held segment is.  If the byte numbered `last_ooo` is held,
its block is the first; and `last_ooo` is the number of whatever segment was stored last. -/
theorem sackBlocks_reports {ok : Conn → Event → Prop} (h : Reach ok c) {max : ℕ} (hmax : 0 < max) :
    c.Reports max (c.sackBlocks max) ∧
      ∀ e, ∀ o ∈ (c.step e).ooo, o ∉ c.ooo → (c.step e).lastOoo = o.seq := by
  obtain ⟨hk, hs⟩ := reach_kept h
  exact ⟨hk.reports hmax, fun e => (hk.step hs e).stored⟩

/-! ## Blocks that are not what they seem -/

/-- A segment with data, with or without a FIN. -/
def dataSeg (seq : Serial) (fin : Bool) (data : List UInt8) (h : data.length < 2 ^ 16) : Event :=
  .segment ⟨seq, 8, { ack := true, fin := fin }, 8192, [], data, Seg.usual_wnd, by simpa using h⟩ 0 true

/-- The peer's next byte is 101.  Then come the bytes 103 and 106, and 103 again. -/
def readyConn : Conn := (passiveOpen sackSyn 7 true true false 0).step (.segment sackAck 0 true)
def oneHeld : Conn := readyConn.step (dataSeg 103 false [1] (by decide))
def twoHeld : Conn := oneHeld.step (dataSeg 106 false [2] (by decide))
def againHeld : Conn := twoHeld.step (dataSeg 103 false [1] (by decide))

/-- A FIN that is out of order and brings no data. -/
def finHeld : Conn := readyConn.step (dataSeg 110 true [] (by decide))

/-- The bytes 101 and 103, and then 101 again with a FIN after it. -/
def passedHeld : Conn := ((readyConn.step (dataSeg 101 false [0] (by decide))).step
  (dataSeg 103 false [1] (by decide))).step (dataSeg 101 true [0] (by decide))

theorem readyConn_reach : Reach (fun _ _ => True) readyConn :=
  .step _ (.passive sackSyn 7 true true false 0) trivial

theorem sackBlocks_reports_twoHeld : twoHeld.Reports 4 (twoHeld.sackBlocks 4) ∧
    ∀ e, ∀ o ∈ (twoHeld.step e).ooo, o ∉ twoHeld.ooo → (twoHeld.step e).lastOoo = o.seq :=
  sackBlocks_reports (.step _ (.step _ readyConn_reach trivial) trivial) (by decide)

/-- **The segment stored last need not come first**: 106 is held, but 103 came again.  And two blocks
that no peer expects: an empty one, and one that begins at `rcv_nxt`. -/
theorem newest_not_first :
    (Reach (fun _ _ => True) againHeld ∧ oneHeld.ooo = [⟨103, [1], false⟩] ∧
      twoHeld.ooo = [⟨103, [1], false⟩, ⟨106, [2], false⟩] ∧ againHeld.ooo = twoHeld.ooo ∧
      againHeld.sackBlocks 4 = [(103, 104), (106, 107)]) ∧
    (Reach (fun _ _ => True) finHeld ∧ finHeld.sackBlocks 4 = [(110, 110)]) ∧
    (Reach (fun _ _ => True) passedHeld ∧ passedHeld.rcvNxt = 103 ∧
      passedHeld.sackBlocks 4 = [(103, 104)]) := by
  refine ⟨⟨.step _ (.step _ (.step _ readyConn_reach trivial) trivial) trivial, ?_, ?_, ?_, ?_⟩,
    ⟨.step _ readyConn_reach trivial, ?_⟩,
    ⟨.step _ (.step _ (.step _ readyConn_reach trivial) trivial) trivial, ?_, ?_⟩⟩
  all_goals decide +kernel

end Conn

end BananaOS.Tcp
