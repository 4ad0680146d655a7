import BananaOS.Tcp.Window
import Mathlib.Data.List.TakeWhile

/-!
# What is held out of order

The out-of-order list is sorted by sequence number, and all of it lies after `rcv_nxt` (`Kept`).  Only
the function that takes data in or the one that stores it touch the list; the first also moves
`rcv_nxt`, and drops from the list what begins before it, so that it is looked at from where `rcv_nxt`
was (`drained`).  One arrival moves `rcv_nxt` and leaves the list alone: a FIN whose data is old.  After
it a segment may be left that begins at `rcv_nxt`, but it is the last that is taken in.
-/

namespace BananaOS.Tcp

open Lib Lib.Serial

namespace Conn

/-- The list is short, sorted and ahead of `rcv_nxt`. -/
structure Kept (c : Conn) : Prop where
  few : c.ooo.length ≤ oooMax
  short : ∀ o ∈ c.ooo, o.data.length < 2 ^ 16
  ahead : ∀ o ∈ c.ooo, dist c.rcvNxt o.seq < 2 ^ 31
  sorted : c.ooo.Pairwise fun a b => dist c.rcvNxt a.seq ≤ dist c.rcvNxt b.seq
  /-- nothing is held that could be taken in -/
  later : c.finRcvd = false → ∀ o ∈ c.ooo, o.seq ≠ c.rcvNxt

/-- What the list is about is the same. -/
structure SameList (c c' : Conn) : Prop where
  rcvNxt : c'.rcvNxt = c.rcvNxt
  ooo : c'.ooo = c.ooo
  lastOoo : c'.lastOoo = c.lastOoo
  finRcvd : c'.finRcvd = c.finRcvd

/-- What a step does to the list: segments leave it, and at most the one that is the newest gets in. -/
structure Moved (c c' : Conn) : Prop where
  kept : c'.Kept
  stored : ∀ o ∈ c'.ooo, o ∉ c.ooo → c'.lastOoo = o.seq

variable {c : Conn}

theorem SameIn.same_list {c' : Conn} (h : SameIn c c') : SameList c c' :=
  ⟨h.rcvNxt, h.ooo, h.lastOoo, h.finRcvd⟩

theorem SameList.trans {a b c : Conn} (h : SameList a b) (h' : SameList b c) : SameList a c :=
  ⟨h'.rcvNxt.trans h.rcvNxt, h'.ooo.trans h.ooo, h'.lastOoo.trans h.lastOoo,
    h'.finRcvd.trans h.finRcvd⟩

namespace Kept

theorem empty (h : c.ooo = []) : c.Kept := by
  have hno : ∀ {P : OooSeg → Prop}, ∀ o ∈ c.ooo, P o := fun o ho => by
    rw [h] at ho
    exact absurd ho List.not_mem_nil
  exact ⟨by rw [h]; exact Nat.zero_le _, hno, hno, by rw [h]; exact .nil, fun _ => hno⟩

theorem same (h : c.Kept) {c' : Conn} (hs : SameList c c') : c'.Kept := by
  obtain ⟨h1, h2, -, h4⟩ := hs
  refine ⟨?_, ?_, ?_, ?_, ?_⟩
  · rw [h2]
    exact h.few
  · rw [h2]
    exact h.short
  · rw [h1, h2]
    exact h.ahead
  · rw [h1, h2]
    exact h.sorted
  · rw [h1, h2, h4]
    exact h.later

theorem moved (h : c.Kept) {c' : Conn} (hs : SameList c c') : Moved c c' :=
  ⟨h.same hs, fun _ ho hno => absurd (hs.ooo ▸ ho) hno⟩

end Kept

theorem Moved.same {c' d : Conn} (h : Moved c c') (hs : SameList c' d) : Moved c d :=
  ⟨h.kept.same hs, fun o ho hno => by
    rw [hs.lastOoo]
    exact h.stored o (hs.ooo ▸ ho) hno⟩

theorem SameList.moved {c' d : Conn} (hs : SameList c c') (h : Moved c' d) : Moved c d :=
  ⟨h.kept, fun o ho hno => h.stored o ho (by rw [hs.ooo]; exact hno)⟩

/-! ## Taking data in -/

/-- `rcv_nxt` is `n` after `b`, and the rest of what is held is looked at from `b`. -/
structure From (b : Serial) (n : ℕ) (l : List OooSeg) (c : Conn) : Prop where
  rcvNxt : c.rcvNxt = fwd b n
  /-- there is room for all of the list to be taken in -/
  room : n + 2 ^ 17 * l.length ≤ 2 ^ 27
  short : ∀ o ∈ l, o.data.length < 2 ^ 16
  ahead : ∀ o ∈ l, dist b o.seq < 2 ^ 31
  sorted : l.Pairwise fun a b' => dist b a.seq ≤ dist b b'.seq

theorem deliver_passes (c : Conn) (data : List UInt8) : ∃ m ≤ data.length,
    (c.deliver data).1.rcvNxt = fwd c.rcvNxt m ∧ (c.deliver data).1.lastOoo = c.lastOoo := by
  unfold deliver
  split
  · exact ⟨data.length, le_rfl, rfl, rfl⟩
  · exact ⟨min data.length (c.rbSize - c.rbuf.length), min_le_left _ _, rfl, rfl⟩

/-- One segment of the list is taken in, with the FIN after it. -/
theorem drained_one (c : Conn) (s : OooSeg) (now : Serial) : ∃ m ≤ s.data.length + 1,
    ((c.drainData s).drainFin s now).rcvNxt = fwd c.rcvNxt m ∧
      ((c.drainData s).drainFin s now).lastOoo = c.lastOoo := by
  obtain ⟨m, hm, hnxt, hlast⟩ : ∃ m ≤ s.data.length, (c.drainData s).rcvNxt = fwd c.rcvNxt m ∧
      (c.drainData s).lastOoo = c.lastOoo := by
    unfold drainData
    split
    · obtain ⟨m, hm, h⟩ := deliver_passes c (s.data.drop (dist s.seq c.rcvNxt))
      rw [List.length_drop] at hm
      exact ⟨m, hm.trans (Nat.sub_le _ _), h⟩
    · exact ⟨0, Nat.zero_le _, by simp [fwd], rfl⟩
  unfold drainFin
  split
  · refine ⟨m + 1, by omega, ?_, hlast⟩
    show fwd (c.drainData s).rcvNxt 1 = _
    rw [hnxt, fwd_fwd]
  · exact ⟨m, by omega, hnxt, hlast⟩

/-- What `ooo_drain` leaves: the end of the list, all of it after `rcv_nxt`. -/
theorem From.drained {b : Serial} {n : ℕ} {l : List OooSeg} (h : From b n l c) (now : Serial) :
    (drainLoop now l c).ooo <:+ l ∧ (drainLoop now l c).lastOoo = c.lastOoo ∧
      ∃ n', n' ≤ 2 ^ 27 ∧ (drainLoop now l c).rcvNxt = fwd b n' ∧
        ∀ o ∈ (drainLoop now l c).ooo, n' < dist b o.seq := by
  induction l generalizing c n with
  | nil =>
    have hroom := h.room
    exact ⟨List.suffix_refl _, rfl, n, by omega, h.rcvNxt, fun _ ho => absurd ho List.not_mem_nil⟩
  | cons s rest ih =>
    have hroom := h.room
    rw [List.length_cons] at hroom
    obtain ⟨hshort, hshorts⟩ := List.forall_mem_cons.mp h.short
    obtain ⟨hahead, haheads⟩ := List.forall_mem_cons.mp h.ahead
    obtain ⟨hbehind, hsorted⟩ := List.pairwise_cons.mp h.sorted
    unfold drainLoop
    split
    · obtain ⟨m, hm, hnxt, hlast⟩ := drained_one c s now
      have hfrom : From b (n + m) rest ((c.drainData s).drainFin s now) :=
        ⟨by rw [hnxt, h.rcvNxt, fwd_fwd], by omega, hshorts, haheads, hsorted⟩
      obtain ⟨h1, h2, h3⟩ := ih hfrom
      exact ⟨h1.trans (List.suffix_cons _ _), h2.trans hlast, h3⟩
    · rename_i hle
      have hn : dist b c.rcvNxt = n := by
        rw [h.rcvNxt, dist_fwd b (by rw [dist_self]; omega), dist_self, Nat.zero_add]
      have hle : ¬ dist b s.seq ≤ n := by
        rw [← hn, ← le_near hahead (by omega)]
        exact hle
      refine ⟨List.suffix_refl _, rfl, n, by omega, h.rcvNxt, fun o ho => ?_⟩
      rcases List.mem_cons.mp ho with rfl | ho
      · omega
      · have := hbehind o ho
        omega

theorem Kept.takeData (h : c.Kept) {data : List UInt8} (hdata : data.length < 2 ^ 16) (fin : Bool)
    (now : Serial) : Moved c (c.takeData data fin now) := by
  have hfew := h.few
  have hmax : oooMax = 256 := rfl
  obtain ⟨m, hm, hnxt, hlast⟩ := deliver_passes c data
  have hfrom : ∃ n ≤ data.length + 1, From c.rcvNxt n c.ooo (c.takeFin data fin now) := by
    unfold takeFin
    dsimp only
    split
    · refine ⟨m + 1, by omega, ?_, by omega, h.short, h.ahead, h.sorted⟩
      show fwd (c.deliver data).1.rcvNxt 1 = _
      rw [hnxt, fwd_fwd]
    · exact ⟨m, by omega, hnxt, by omega, h.short, h.ahead, h.sorted⟩
  have hsame : (c.takeFin data fin now).ooo = c.ooo ∧ (c.takeFin data fin now).lastOoo = c.lastOoo := by
    have hooo : (c.deliver data).1.ooo = c.ooo := by
      unfold Conn.deliver
      split <;> rfl
    unfold takeFin
    dsimp only
    split <;> exact ⟨hooo, hlast⟩
  obtain ⟨n, hn, hfrom⟩ := hfrom
  obtain ⟨hsuf, hlast', n', hn', hnxt', hafter⟩ := hfrom.drained now
  show Moved c (drainLoop now (c.takeFin data fin now).ooo (c.takeFin data fin now))
  rw [hsame.1]
  generalize drainLoop now c.ooo (c.takeFin data fin now) = d at *
  have hto : dist c.rcvNxt d.rcvNxt = n' := by
    rw [hnxt', dist_fwd _ (by rw [dist_self]; omega), dist_self, Nat.zero_add]
  have hdist : ∀ o ∈ d.ooo, dist d.rcvNxt o.seq = dist c.rcvNxt o.seq - n' := by
    intro o ho
    rw [← hto]
    exact dist_ahead (hto ▸ (hafter o ho).le)
  refine ⟨⟨hsuf.length_le.trans hfew, fun o ho => h.short o (hsuf.subset ho), fun o ho => ?_, ?_,
    fun _ o ho heq => ?_⟩, fun o ho hno => absurd (hsuf.subset ho) hno⟩
  · have := h.ahead o (hsuf.subset ho)
    rw [hdist o ho]
    omega
  · refine List.Pairwise.imp_of_mem (fun ha hb hab => ?_) (h.sorted.sublist hsuf.sublist)
    rw [hdist _ ha, hdist _ hb]
    omega
  · have h1 := hdist o ho
    have h2 := hafter o ho
    rw [heq, dist_self, ← heq] at h1
    omega

/-- A FIN whose data is old: `rcv_nxt` passes it. -/
theorem Kept.finReceived (h : c.Kept) (hfin : c.finRcvd = false) (now : Serial) :
    Moved c (c.finReceived now) := by
  have hone : dist c.rcvNxt (fwd c.rcvNxt 1) = 1 := by
    rw [dist_fwd _ (by rw [dist_self]; omega), dist_self]
  have hdist : ∀ o ∈ c.ooo, dist (fwd c.rcvNxt 1) o.seq = dist c.rcvNxt o.seq - 1 ∧
      0 < dist c.rcvNxt o.seq := by
    intro o ho
    have hpos : 0 < dist c.rcvNxt o.seq :=
      Nat.pos_of_ne_zero fun hz => h.later hfin o ho (dist_eq_zero.mp hz)
    rw [dist_ahead (hone.trans_le hpos), hone]
    exact ⟨rfl, hpos⟩
  refine ⟨⟨h.few, h.short, fun o ho => ?_, ?_, fun hf => by cases hf⟩,
    fun o ho hno => absurd ho hno⟩
  · have h1 := h.ahead o ho
    show dist (fwd c.rcvNxt 1) o.seq < 2 ^ 31
    rw [(hdist o ho).1]
    omega
  · refine List.Pairwise.imp_of_mem (fun ha hb hab => ?_) h.sorted
    show dist (fwd c.rcvNxt 1) _ ≤ dist (fwd c.rcvNxt 1) _
    rw [(hdist _ ha).1, (hdist _ hb).1]
    omega

/-! ## Storing -/

/-- The list is cut where a segment with this number belongs. -/
theorem Kept.cut (h : c.Kept) {seq : Serial} (hseq : dist c.rcvNxt seq < 2 ^ 31) :
    (∀ o ∈ c.ooo.takeWhile (fun o => lt o.seq seq), dist c.rcvNxt o.seq ≤ dist c.rcvNxt seq) ∧
      ∀ o ∈ c.ooo.dropWhile (fun o => lt o.seq seq), dist c.rcvNxt seq ≤ dist c.rcvNxt o.seq := by
  have hlt : ∀ o ∈ c.ooo, lt o.seq seq ↔ dist c.rcvNxt o.seq < dist c.rcvNxt seq :=
    fun o ho => lt_near (h.ahead o ho) hseq.le
  refine ⟨fun o ho => ?_, ?_⟩
  · have hlow := List.mem_takeWhile_imp ho
    rw [decide_eq_true_iff, hlt o ((List.takeWhile_sublist _).subset ho)] at hlow
    exact hlow.le
  · have hsorted := h.sorted
    generalize c.ooo = l at hlt hsorted ⊢
    induction l with
    | nil => exact fun o ho => absurd ho List.not_mem_nil
    | cons s rest ih =>
      obtain ⟨hbehind, hrest⟩ := List.pairwise_cons.mp hsorted
      intro o ho
      rw [List.dropWhile_cons] at ho
      split at ho
      · exact ih (fun o ho => hlt o (List.mem_cons_of_mem _ ho)) hrest o ho
      · rename_i hs
        rw [decide_eq_true_iff, hlt s List.mem_cons_self, not_lt] at hs
        rcases List.mem_cons.mp ho with rfl | ho
        · exact hs
        · exact hs.trans (hbehind o ho)

theorem Kept.oooStore (h : c.Kept) {seq : Serial} (hne : seq ≠ c.rcvNxt) (hseq : ¬ lt seq c.rcvNxt)
    {data : List UInt8} (hdata : data.length < 2 ^ 16) (fin mem : Bool) :
    Moved c (c.oooStore seq data fin mem) := by
  have hlast : Moved c { c with lastOoo := seq } :=
    ⟨⟨h.few, h.short, h.ahead, h.sorted, h.later⟩, fun o ho hno => absurd ho hno⟩
  rw [lt_iff_dist, not_le] at hseq
  unfold Conn.oooStore
  split
  · exact h.moved ⟨rfl, rfl, rfl, rfl⟩
  · rename_i hfew
    extract_lets c1 before after
    have hall : before ++ after = c.ooo := List.takeWhile_append_dropWhile
    split
    · exact hlast
    · split
      · exact hlast
      · split
        · have hmem : ∀ o ∈ before ++ ⟨seq, data, fin⟩ :: after,
              o = ⟨seq, data, fin⟩ ∨ o ∈ c.ooo := by
            intro o ho
            rw [← hall]
            simpa [or_left_comm] using ho
          refine ⟨⟨?_, fun o ho => ?_, fun o ho => ?_, ?_, fun hf o ho => ?_⟩, fun o ho hno => ?_⟩
          · have hlen := congrArg List.length hall
            simp only [List.length_append, List.length_cons] at hlen ⊢
            omega
          · rcases hmem o ho with rfl | ho
            · exact hdata
            · exact h.short o ho
          · rcases hmem o ho with rfl | ho
            · exact hseq
            · exact h.ahead o ho
          · obtain ⟨hbefore, hafter⟩ := h.cut hseq
            have hsorted := h.sorted
            rw [← hall] at hsorted
            obtain ⟨h1, h2, h3⟩ := List.pairwise_append.mp hsorted
            refine List.pairwise_append.mpr ⟨h1, List.pairwise_cons.mpr ⟨hafter, h2⟩,
              fun a ha b hb => ?_⟩
            rcases List.mem_cons.mp hb with rfl | hb
            · exact hbefore a ha
            · exact h3 a ha b hb
          · rcases hmem o ho with rfl | ho
            · exact hne
            · exact h.later hf o ho
          · rcases hmem o ho with rfl | ho
            · rfl
            · exact absurd ho hno
        · exact hlast

/-! ## Steps -/

theorem Kept.arrive (h : c.Kept) (g : Seg) (now : Serial) (mem : Bool) :
    Moved c (c.arrive g now mem) := by
  have hdata : g.data.length < 2 ^ 16 := by
    have := g.short
    omega
  have hold : Moved c (c.takeOld g now) := by
    unfold takeOld
    extract_lets skip
    split
    · exact h.takeData (by rw [List.length_drop]; omega) _ now
    · split
      · rename_i hfin
        exact h.finReceived (Bool.not_eq_true _ ▸ hfin.2.2) now
      · exact h.moved ⟨rfl, rfl, rfl, rfl⟩
  unfold Conn.arrive
  split
  · exact (h.takeData hdata _ now).same ⟨rfl, rfl, rfl, rfl⟩
  · rename_i hne
    split
    · exact hold.same ⟨rfl, rfl, rfl, rfl⟩
    · rename_i hlt
      exact (h.oooStore hne hlt hdata _ mem).same ⟨rfl, rfl, rfl, rfl⟩

theorem Kept.inputRest (h : c.Kept) (g : Seg) (now : Serial) (mem : Bool) :
    Moved c (c.inputRest g now mem) := by
  have hrefl : Moved c c := h.moved ⟨rfl, rfl, rfl, rfl⟩
  unfold Conn.inputRest
  split
  · exact hrefl
  · split
    · split
      · exact h.moved ⟨rfl, rfl, rfl, rfl⟩
      · exact hrefl
    · have htake : Moved c (c.takeIn g now mem) := by
        unfold Conn.takeIn
        split
        · refine (h.arrive g now mem).same ?_
          unfold ackSecond
          split
          · exact (in_sendAck _).same_list
          · exact ⟨rfl, rfl, rfl, rfl⟩
        · exact hrefl
      exact htake.same (in_tcpOutput _ now).same_list

theorem Kept.inputOpen (h : c.Kept) (g : Seg) (wnd : ℕ) (now : Serial) (mem : Bool) :
    Moved c (c.inputOpen g wnd now mem) := by
  have hrefl : Moved c c := h.moved ⟨rfl, rfl, rfl, rfl⟩
  unfold Conn.inputOpen
  split
  · split
    · exact h.moved ⟨rfl, rfl, rfl, rfl⟩
    · exact hrefl
  · split
    · exact h.moved (in_sendAck c).same_list
    · split
      · have hack := (in_ackProcessing c g.seq g.ack wnd g.data.length g.flags g.opt now).same_list
        exact hack.moved ((h.same hack).inputRest g now mem)
      · exact h.inputRest g now mem

theorem moved_empty {c' : Conn} (h : c'.ooo = []) : Moved c c' :=
  ⟨Kept.empty h, fun _ ho => by rw [h] at ho; exact absurd ho List.not_mem_nil⟩

theorem inputSynSent_ooo (g : Seg) (wnd : ℕ) (now : Serial) :
    (c.inputSynSent g wnd now).ooo = c.ooo := by
  unfold Conn.inputSynSent
  split
  · rfl
  · split
    · split <;> rfl
    · split
      · extract_lets c1 c2
        have h2 : c2.ooo = c1.ooo := by
          refine (in_rttEnd _ now).ooo.trans ?_
          show (c1.parseSynOpts g.opt).ooo = c1.ooo
          rw [parseSynOpts_eq]
        refine (in_tcpOutput _ now).ooo.trans ((in_sendAck _).ooo.trans h2)
      · rfl

theorem Kept.input (h : c.Kept) (hs : c.state = .synSent → c.ooo = []) (g : Seg) (now : Serial)
    (mem : Bool) : Moved c (c.input g now mem) := by
  have hrefl : Moved c c := h.moved ⟨rfl, rfl, rfl, rfl⟩
  unfold Conn.input
  extract_lets wnd
  split
  · exact hrefl
  · split
    · split
      · exact h.moved ⟨rfl, rfl, rfl, rfl⟩
      · split
        · exact h.moved (in_sendSeg c _ _ _).same_list
        · split
          · exact hrefl
          · have hdone := (in_handshakeDone c g.seq g.ack wnd now).same_list
            exact hdone.moved ((h.same hdone).inputOpen g wnd now mem)
    · split
      · rename_i hsent
        exact moved_empty ((inputSynSent_ooo g wnd now).trans (hs hsent))
      · exact h.inputOpen g wnd now mem

/-- A tick leaves the list alone, or frees the connection. -/
theorem tcpTimer_same (c : Conn) (now : Serial) :
    SameList c (c.tcpTimer now) ∨ (c.tcpTimer now).ooo = [] := by
  have h1 : SameList c (c.endTimeWait now) := by
    unfold endTimeWait
    split <;> exact ⟨rfl, rfl, rfl, rfl⟩
  have h2 : SameList c ((c.endTimeWait now).runTimer now) := by
    unfold runTimer
    split
    · exact h1.trans (in_onTimeout _ now).same_list
    · exact h1
  unfold Conn.tcpTimer
  split
  · unfold reap
    split
    · exact Or.inr rfl
    · exact Or.inl h2
  · exact Or.inl ⟨rfl, rfl, rfl, rfl⟩

theorem tcpClose_same (c : Conn) (now : Serial) :
    SameList c (c.tcpClose now) ∨ (c.tcpClose now).ooo = [] := by
  have h1 : SameList c ({ c with userClosed := true }.closing now) := by
    unfold closing
    split
    · have h0 : SameList c { c with userClosed := true, finPending := true } :=
        ⟨rfl, rfl, rfl, rfl⟩
      exact h0.trans (in_tcpOutput _ now).same_list
    · split <;> exact ⟨rfl, rfl, rfl, rfl⟩
  unfold Conn.tcpClose
  extract_lets c1
  split
  · exact Or.inr rfl
  · exact Or.inl h1

/-- What happens without a segment leaves the list alone, or frees the connection. -/
theorem step_same (c : Conn) {e : Event} (he : ∀ g now mem, e ≠ .segment g now mem) :
    SameList c (c.step e) ∨ (c.step e).ooo = [] := by
  have hrefl : SameList c c := ⟨rfl, rfl, rfl, rfl⟩
  have hkeep : ∀ c', SameList c c' ∨ c'.ooo = [] →
      SameList c (if c.used then c' else c) ∨ (if c.used then c' else c).ooo = [] := by
    intro c' hc'
    split
    · exact hc'
    · exact Or.inl hrefl
  cases e with
  | segment g now mem => exact absurd rfl (he g now mem)
  | tick now => exact tcpTimer_same c now
  | flush =>
    refine Or.inl ?_
    show SameList c c.tcpFlush
    unfold Conn.tcpFlush
    split
    · exact (in_sendAck c).same_list
    · exact hrefl
  | send data now =>
    refine hkeep _ (Or.inl ?_)
    unfold Conn.tcpSend
    split
    · extract_lets n
      split
      · exact hrefl
      · have h0 : SameList c { c with sbuf := c.sbuf ++ data.take n } := ⟨rfl, rfl, rfl, rfl⟩
        exact h0.trans (in_tcpOutput _ now).same_list
    · exact hrefl
  | recv max =>
    refine hkeep _ (Or.inl ?_)
    unfold Conn.tcpRecv
    split
    · exact hrefl
    · dsimp only
      split <;> exact ⟨rfl, rfl, rfl, rfl⟩
  | close now => exact hkeep _ (tcpClose_same c now)
  | abort => exact hkeep _ (Or.inr rfl)
  | connected =>
    refine hkeep _ (Or.inl ?_)
    unfold Conn.connected
    split <;> exact ⟨rfl, rfl, rfl, rfl⟩
  | accept =>
    refine hkeep _ (Or.inl ?_)
    unfold Conn.accept
    split <;> exact ⟨rfl, rfl, rfl, rfl⟩

theorem Kept.step (h : c.Kept) (hs : c.state = .synSent → c.ooo = []) (e : Event) :
    Moved c (c.step e) := by
  by_cases he : ∃ g now mem, e = .segment g now mem
  · obtain ⟨g, now, mem, rfl⟩ := he
    exact h.input hs g now mem
  · have hother : ∀ g now mem, e ≠ .segment g now mem := fun g now mem heq => he ⟨g, now, mem, heq⟩
    rcases step_same c hother with hsame | hempty
    · exact h.moved hsame
    · exact moved_empty hempty

/-- As long as our SYN is not answered, nothing is held. -/
theorem step_young (hs : c.state = .synSent) (ho : c.ooo = []) (e : Event) : (c.step e).ooo = [] := by
  by_cases he : ∃ g now mem, e = .segment g now mem
  · obtain ⟨g, now, mem, rfl⟩ := he
    show (c.input g now mem).ooo = []
    unfold Conn.input
    extract_lets wnd
    split
    · exact ho
    · rw [if_neg (by rw [hs]; decide)]
      exact (inputSynSent_ooo g wnd now).trans ho
  · have hother : ∀ g now mem, e ≠ .segment g now mem := fun g now mem heq => he ⟨g, now, mem, heq⟩
    rcases step_same c hother with hsame | hempty
    · exact hsame.ooo.trans ho
    · exact hempty

/-- Every connection there can be keeps its list in order. -/
theorem reach_kept {ok : Conn → Event → Prop} (h : Reach ok c) :
    c.Kept ∧ (c.state = .synSent → c.ooo = []) := by
  induction h with
  | connect iss bigS bigR v6 now => exact ⟨Kept.empty rfl, fun _ => rfl⟩
  | passive g iss bigS bigR v6 now =>
    have hooo : (passiveOpen g iss bigS bigR v6 now).ooo = [] := by
      show ((passiveConn g iss bigS bigR v6).parseSynOpts g.opt).ooo = []
      rw [parseSynOpts_eq]
      rfl
    exact ⟨Kept.empty hooo, fun _ => hooo⟩
  | @step c e hr hok ih =>
    refine ⟨(ih.1.step ih.2 e).kept, fun hs => ?_⟩
    have hs' : c.state = .synSent := by
      by_contra hne
      exact begun_step hne e hs
    exact step_young hs' (ih.2 hs') e

end Conn

end BananaOS.Tcp
