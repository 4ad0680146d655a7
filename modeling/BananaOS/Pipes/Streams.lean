import BananaOS.Lib.RingBuf
import BananaOS.Pipes.Sections
import Mathlib.Tactic.Common

/-!
# The streams of the pipes

A direction is a queue of bytes between the writes and the reads.  `Faithful` says so of its log:
what the reads returned is a prefix of what the writes accepted, a write of at most
`KPIPE_ATOMIC` bytes went in whole or not at all, a read returned 0 exactly when nothing waited
and the writers were gone, and the direction was freed once, when both sides had left it.
`Refused` is the part of the contract that looks back at the readers: after the last one left,
every write is answered with `EPIPE`.

`Kst.Inv` ties the logs to the memory and is kept by every section.  The one place where
`Refused` can break is a write that comes back from allocating the ring: the section looks again
whether its own end is still open, and no longer whether anybody reads.
-/

namespace BananaOS.Pipes

open Lib

/-! ## The ring as a queue -/

namespace Kpipe

variable (q : Kpipe)

/-- The ring of a direction. -/
def ring : RingBuf UInt8 := ⟨q.cells, q.head, q.len⟩

/-- The bytes that wait in a direction. -/
def list : List UInt8 := q.ring.list kpipeSize

@[simp] theorem length_list : q.list.length = q.len := by
  simp [list, ring]

variable {q}

theorem getElem_list {i : ℕ} (h : i < q.list.length) :
    q.list[i] = q.cells ((q.head + i) % kpipeSize) := by
  simp [list, ring, RingBuf.list, RingBuf.nth]

theorem ring_wrap {a : ℕ} (h : a < 2 * kpipeSize) :
    a % kpipeSize = if a < kpipeSize then a else a - kpipeSize := by
  unfold kpipeSize at *
  split_ifs <;> omega

/-- The bytes that a read takes are the first ones. -/
theorem take_bytes (hhead : q.head < kpipeSize) (hlen : q.len ≤ kpipeSize) (n : ℕ) :
    (q.take n).1 = q.list.take n := by
  have hs : kpipeSize = 65536 := rfl
  obtain ⟨m, hm⟩ : ∃ m, m = if q.len < n then q.len else n := ⟨_, rfl⟩
  have hmn : m = min n q.len := by
    rw [hm]
    split_ifs <;> omega
  obtain ⟨first, hf⟩ : ∃ k, k = if kpipeSize - q.head > m then m else kpipeSize - q.head := ⟨_, rfl⟩
  have htake : (q.take n).1 =
      copyOut q.cells q.head first ++ if m > first then copyOut q.cells 0 (m - first) else [] := by
    simp only [take, ← hm, ← hf]
  have hfm : first ≤ m ∧ first ≤ kpipeSize - q.head ∧ (first = m ∨ first = kpipeSize - q.head) := by
    rw [hf]
    split_ifs <;> omega
  have hrest : (if m > first then copyOut q.cells 0 (m - first) else []) =
      copyOut q.cells 0 (m - first) := by
    split_ifs with h
    · rfl
    · rw [show m - first = 0 by omega]
      rfl
  rw [htake, hrest]
  apply List.ext_getElem
  · simp only [copyOut, List.length_append, List.length_map, List.length_range, List.length_take,
      length_list]
    omega
  · intro i h1 h2
    simp only [List.length_take, length_list] at h2
    rw [List.getElem_take, getElem_list, List.getElem_append, ring_wrap (by omega)]
    simp only [copyOut, List.length_map, List.length_range, List.getElem_map, List.getElem_range]
    split_ifs
    · rfl
    · omega
    · omega
    · rw [Nat.zero_add]
      exact congrArg q.cells (by omega)

theorem take_list (n : ℕ) : (q.take n).2.list = q.list.drop n := by
  have h : (q.take n).2.list = q.list.drop (if q.len < n then q.len else n) :=
    q.ring.list_skip (N := kpipeSize) _
  rw [h]
  split_ifs with hn
  · rw [List.drop_eq_nil_of_le (by simp), List.drop_eq_nil_of_le (by simp; omega)]
  · rfl

theorem copyIn_take (c : ℕ → UInt8) (o : ℕ) {l : List UInt8} {n : ℕ} (h : n ≤ l.length) (i : ℕ) :
    copyIn c o (l.take n) i = if o ≤ i ∧ i < o + n then l.getD (i - o) 0 else c i := by
  unfold copyIn
  rw [List.length_take, min_eq_left h]
  split_ifs with hi
  · rw [List.getD_eq_getElem?_getD, List.getElem?_take, if_pos (by omega),
      List.getD_eq_getElem?_getD]
  · rfl

/-- The bytes that a write puts are the last ones, and a small write puts all of them or none. -/
theorem put_spec (hhead : q.head < kpipeSize) (hlen : q.len ≤ kpipeSize) (data : List UInt8) :
    q.put data = (eagain, q) ∨
      ∃ m : ℕ, (q.put data).1 = m ∧ (q.put data).2.list = q.list ++ data.take m ∧
        m ≤ data.length ∧ (data.length ≤ kpipeAtomic → m = data.length) ∧
        (q.put data).2.head = q.head ∧ (q.put data).2.len ≤ kpipeSize ∧
        (q.put data).2.buf.isSome ∧ (q.put data).2.count = q.count := by
  have hs : kpipeSize = 65536 := rfl
  by_cases hroom : kpipeSize - q.len = 0 ∨
      (data.length ≤ kpipeAtomic ∧ kpipeSize - q.len < data.length)
  · left
    simp only [put, if_pos hroom]
  right
  obtain ⟨m, hm⟩ : ∃ m, m = if kpipeSize - q.len < data.length then kpipeSize - q.len
      else data.length := ⟨_, rfl⟩
  have hmn : m ≤ data.length ∧ m ≤ kpipeSize - q.len ∧
      (data.length ≤ kpipeAtomic → m = data.length) := by
    rw [hm]
    split_ifs <;> omega
  obtain ⟨pos, hpos⟩ : ∃ k, k = (q.head + q.len) % kpipeSize := ⟨_, rfl⟩
  obtain ⟨first, hf⟩ : ∃ k, k = if kpipeSize - pos > m then m else kpipeSize - pos := ⟨_, rfl⟩
  have hfm : first ≤ m ∧ first ≤ kpipeSize - pos ∧ (first = m ∨ first = kpipeSize - pos) := by
    rw [hf]
    split_ifs <;> omega
  obtain ⟨c, hc⟩ : ∃ c, c = if m > first then
      copyIn (copyIn q.cells pos (data.take first)) 0 ((data.drop first).take (m - first))
      else copyIn q.cells pos (data.take first) := ⟨_, rfl⟩
  have hput : q.put data = (↑m, { q with buf := some c, len := q.len + m }) := by
    simp only [put, if_neg hroom, ← hm, ← hpos, ← hf, ← hc]
  refine ⟨m, ?_⟩
  rw [hput]
  refine ⟨rfl, ?_, hmn.1, hmn.2.2, rfl, ?_, rfl, rfl⟩
  swap
  · simp only
    omega
  have hcell : ∀ i, c i = if pos ≤ i ∧ i < pos + first then data.getD (i - pos) 0
      else if i < m - first then data.getD (first + i) 0 else q.cells i := by
    intro i
    have h1 := copyIn_take q.cells pos (hfm.1.trans hmn.1) i
    rw [hc]
    split_ifs with h2 h3 h4 h5 h6
    · rw [copyIn_take _ _ (by simp; omega), if_neg (by omega), h1, if_pos h3]
    · rw [copyIn_take _ _ (by simp; omega), if_pos (by omega)]
      simp [List.getD_eq_getElem?_getD]
    · rw [copyIn_take _ _ (by simp; omega), if_neg (by omega), h1, if_neg h3]
    · rw [h1, if_pos h5]
    · omega
    · rw [h1, if_neg h5]
  apply List.ext_getElem
  · simp only [List.length_append, length_list, List.length_take]
    omega
  · intro i h1 h2
    simp only [length_list] at h1
    rw [getElem_list]
    have hw := ring_wrap (a := q.head + i) (by omega)
    rw [ring_wrap (by omega)] at hpos
    simp only [cells, Option.getD_some]
    by_cases hi : i < q.len
    · rw [List.getElem_append_left (by simpa using hi), getElem_list, hcell, if_neg, if_neg]
      · split_ifs at hw hpos <;> omega
      · split_ifs at hw hpos <;> omega
    · rw [List.getElem_append_right (by simpa using hi), List.getElem_take, hcell]
      simp only [length_list]
      rw [List.getElem_eq_getD 0]
      split_ifs at hw hpos ⊢ <;> first | omega | exact congrArg (data.getD · 0) (by omega)

end Kpipe

/-! ## What a log says -/

/-- The bytes that a write accepted. -/
def Ev.accepted : Ev → List UInt8
  | .write data ret => data.take ret.toNat
  | _ => []

/-- The bytes that a read returned. -/
def Ev.returned : Ev → List UInt8
  | .read _ bytes _ => bytes
  | _ => []

/-- What the writes of a log accepted, one after the other. -/
def accepted (l : List Ev) : List UInt8 := l.flatMap Ev.accepted

/-- What the reads of a log returned, one after the other. -/
def returned (l : List Ev) : List UInt8 := l.flatMap Ev.returned

@[simp] theorem accepted_snoc (l : List Ev) (e : Ev) : accepted (l ++ [e]) = accepted l ++ e.accepted := by
  simp [accepted]

@[simp] theorem returned_snoc (l : List Ev) (e : Ev) : returned (l ++ [e]) = returned l ++ e.returned := by
  simp [returned]

/-- A direction as a queue of bytes. -/
structure Queue (l : List Ev) : Prop where
  stream : returned l <+: accepted l
  count : ∀ n bytes ret, .read n bytes ret ∈ l → ret = bytes.length ∨ (ret < 0 ∧ bytes = [])
  whole : ∀ data ret, .write data ret ∈ l → data.length ≤ kpipeAtomic →
    ret = data.length ∨ ret < 0
  atEnd : ∀ a n bytes ret b, l = a ++ .read n bytes ret :: b → 0 < n →
    (ret = 0 ↔ returned a = accepted a ∧ .left .writing ∈ a)

/-- A queue of bytes, in memory that is freed once, when both sides have left it. -/
structure Faithful (l : List Ev) : Prop extends Queue l where
  once : l.count .freed = if .left .reading ∈ l ∧ .left .writing ∈ l then 1 else 0

/-- Once the last reader has left, every write is answered with `EPIPE`. -/
def Refused (l : List Ev) : Prop :=
  ∀ a data ret b, l = a ++ .write data ret :: b → .left .reading ∈ a → ret = epipe

/-- An event of a log with one more event is the new one or one of before. -/
theorem snoc_eq_split {α : Type*} {l a b : List α} {e x : α} (h : l ++ [e] = a ++ x :: b) :
    (a = l ∧ x = e) ∨ ∃ c, l = a ++ x :: c := by
  rcases List.eq_nil_or_concat b with rfl | ⟨c, y, rfl⟩
  · left
    obtain ⟨h1, h2⟩ := List.append_inj' h rfl
    simp only [List.cons.injEq, and_true] at h2
    exact ⟨h1.symm, h2.symm⟩
  · right
    refine ⟨c, ?_⟩
    rw [List.concat_eq_append, ← List.cons_append, ← List.append_assoc] at h
    exact (List.append_inj' h rfl).1

theorem Refused.snoc {l : List Ev} (h : Refused l) {e : Ev}
    (he : ∀ data ret, e = .write data ret → .left .reading ∈ l → ret = epipe) :
    Refused (l ++ [e]) := by
  intro a data ret b hsplit hleft
  rcases snoc_eq_split hsplit with ⟨rfl, rfl⟩ | ⟨c, rfl⟩
  · exact he data ret rfl hleft
  · exact h a data ret c rfl hleft

theorem Queue.snoc {l : List Ev} (h : Queue l) {e : Ev}
    (hstream : returned (l ++ [e]) <+: accepted (l ++ [e]))
    (hread : ∀ n bytes ret, e = .read n bytes ret →
      (ret = bytes.length ∨ (ret < 0 ∧ bytes = [])) ∧
        (0 < n → (ret = 0 ↔ returned l = accepted l ∧ .left .writing ∈ l)))
    (hwrite : ∀ data ret, e = .write data ret → data.length ≤ kpipeAtomic →
      ret = data.length ∨ ret < 0) : Queue (l ++ [e]) := by
  refine ⟨hstream, ?_, ?_, ?_⟩
  · intro n bytes ret hmem
    rcases List.mem_append.mp hmem with hm | hm
    · exact h.count n bytes ret hm
    · exact (hread n bytes ret (List.mem_singleton.mp hm).symm).1
  · intro data ret hmem
    rcases List.mem_append.mp hmem with hm | hm
    · exact h.whole data ret hm
    · exact hwrite data ret (List.mem_singleton.mp hm).symm
  · intro a n bytes ret b hsplit hn
    rcases snoc_eq_split hsplit with ⟨rfl, hx⟩ | ⟨c, rfl⟩
    · exact (hread n bytes ret hx.symm).2 hn
    · exact h.atEnd a n bytes ret c rfl hn

theorem Queue.snoc_other {l : List Ev} (h : Queue l) {e : Ev}
    (hread : ∀ n bytes ret, e ≠ .read n bytes ret) (hwrite : ∀ data ret, e ≠ .write data ret) :
    Queue (l ++ [e]) := by
  refine h.snoc ?_ (fun n bytes ret he => absurd he (hread n bytes ret))
    fun data ret he => absurd he (hwrite data ret)
  cases e with
  | read n bytes ret => exact absurd rfl (hread n bytes ret)
  | write data ret => exact absurd rfl (hwrite data ret)
  | left side => simpa [Ev.accepted, Ev.returned] using h.stream
  | freed => simpa [Ev.accepted, Ev.returned] using h.stream

/-! ## The memory and the logs -/

namespace Kst

theorem kpipeRead_file (s : Kst) (f n : ℕ) : (s.kpipeRead f n).2.2.file = s.file := by
  unfold kpipeRead
  repeat' split
  all_goals rfl

theorem kpipeWrite_file (s : Kst) (f : ℕ) (data : List UInt8) :
    (s.kpipeWrite f data).2.file = s.file := by
  unfold kpipeWrite
  simp only
  repeat' split
  all_goals rfl

theorem writeGoOn_file (s : Kst) (f p : ℕ) (data : List UInt8) (ok : Bool) :
    (s.writeGoOn f p data ok).2.file = s.file := by
  unfold writeGoOn
  repeat' split
  all_goals rfl

end Kst

/-- A direction in memory, and its log. -/
structure Kpipe.Ok (q : Kpipe) (l : List Ev) : Prop where
  head : q.head < kpipeSize
  len : q.len ≤ kpipeSize
  stream : accepted l = returned l ++ q.list
  count : ∀ side, q.count side = if .left side ∈ l then 0 else 1
  held : ¬ (.left .reading ∈ l ∧ .left .writing ∈ l)

theorem Kpipe.Ok.count_le {q : Kpipe} {l : List Ev} (h : q.Ok l) (side : Side) :
    q.count side ≤ 0 ↔ .left side ∈ l := by
  rw [h.count]
  split_ifs with hl <;> simp [hl]

/-- An event that is a read or a write leaves the counts as they were. -/
theorem Kpipe.Ok.snoc {q q' : Kpipe} {l : List Ev} (h : q.Ok l) {e : Ev}
    (hleft : ∀ side, e ≠ .left side) (hhead : q'.head < kpipeSize) (hlen : q'.len ≤ kpipeSize)
    (hcount : q'.count = q.count)
    (hstream : accepted (l ++ [e]) = returned (l ++ [e]) ++ q'.list) : q'.Ok (l ++ [e]) := by
  have hmem : ∀ side, (.left side ∈ l ++ [e]) ↔ .left side ∈ l := by
    intro side
    simp [(hleft side).symm]
  refine ⟨hhead, hlen, hstream, ?_, ?_⟩
  · intro side
    simp only [hcount, h.count, hmem]
  · simp only [hmem]
    exact h.held

/-- Every description's directions are in memory and have not been left by it, each side of a
direction is one description's, and the logs say what the memory says.  With `strict`, no write
was accepted without a reader. -/
structure Kst.Inv (strict : Prop) (s : Kst) : Prop where
  fault : s.fault = false
  log : ∀ p, Faithful (s.log p)
  refused : strict → ∀ p, Refused (s.log p)
  pipe : ∀ p q, s.pipe p = some q → q.Ok (s.log p)
  ends : ∀ f k side p, s.file f = some k → k.dir side = some p →
    (∃ q, s.pipe p = some q) ∧ .left side ∉ s.log p
  own : ∀ f k f' k' side p, s.file f = some k → s.file f' = some k' → k.dir side = some p →
    k'.dir side = some p → f = f'

namespace Kst.Inv

variable {strict : Prop} {s : Kst}

/-- A read or a write: the direction has other bytes, and one more event in its log. -/
theorem moved (h : s.Inv strict) {p : ℕ} {q : Kpipe} {e : Ev} (hq : q.Ok (s.log p ++ [e]))
    (hlog : Faithful (s.log p ++ [e])) (href : strict → Refused (s.log p ++ [e]))
    (hleft : ∀ side, e ≠ .left side) : ((s.setPipe p (some q)).emit p e).Inv strict := by
  refine ⟨h.fault, ?_, ?_, ?_, ?_, h.own⟩
  · intro p'
    rcases eq_or_ne p' p with rfl | hp
    · simpa [emit, setPipe] using hlog
    · simpa [emit, setPipe, hp] using h.log p'
  · intro hs p'
    rcases eq_or_ne p' p with rfl | hp
    · simpa [emit, setPipe] using href hs
    · simpa [emit, setPipe, hp] using h.refused hs p'
  · intro p' q' hq'
    rcases eq_or_ne p' p with rfl | hp
    · simp only [emit, setPipe, Function.update_self, Option.some.injEq] at hq' ⊢
      rwa [← hq']
    · simp only [emit, setPipe, Function.update_of_ne hp] at hq' ⊢
      exact h.pipe p' q' hq'
  · intro f k side p' hf hk
    obtain ⟨⟨q', hq'⟩, hl⟩ := h.ends f k side p' hf hk
    rcases eq_or_ne p' p with rfl | hp
    · refine ⟨⟨q, by simp [emit, setPipe]⟩, ?_⟩
      simpa [emit, setPipe, hl] using (hleft side).symm
    · exact ⟨⟨q', by simpa [emit, setPipe, hp] using hq'⟩, by simpa [emit, setPipe, hp] using hl⟩

theorem noted (h : s.Inv strict) {p : ℕ} {q : Kpipe} (hp : s.pipe p = some q) {e : Ev}
    (hq : q.Ok (s.log p ++ [e])) (hlog : Faithful (s.log p ++ [e]))
    (href : strict → Refused (s.log p ++ [e])) (hleft : ∀ side, e ≠ .left side) :
    (s.emit p e).Inv strict := by
  have hsame : s.setPipe p (some q) = s := by
    unfold setPipe
    rw [← hp, Function.update_eq_self]
  have := h.moved hq hlog href hleft
  rwa [hsame] at this

theorem log_snoc (h : s.Inv strict) {p : ℕ} {e : Ev} (hleft : ∀ side, e ≠ .left side)
    (hfree : e ≠ .freed) : (s.log p ++ [e]).count .freed =
      if .left .reading ∈ s.log p ++ [e] ∧ .left .writing ∈ s.log p ++ [e] then 1 else 0 := by
  have hmem : ∀ side, (.left side ∈ s.log p ++ [e]) ↔ .left side ∈ s.log p := by
    intro side
    simp [(hleft side).symm]
  rw [List.count_append, (h.log p).once]
  simp only [hmem, List.count_singleton, beq_iff_eq, hfree, if_false, Nat.add_zero]

theorem kpipeRead (h : s.Inv strict) {f : ℕ} {k : Kfile} (hf : s.file f = some k) (n : ℕ) :
    (s.kpipeRead f n).2.2.Inv strict := by
  unfold Kst.kpipeRead
  rw [hf]
  simp only
  by_cases htype : k.type ≠ .pipe
  · rw [if_pos htype]
    exact h
  rw [if_neg htype]
  cases hd : k.dir .reading with
  | none => exact h
  | some p =>
    obtain ⟨⟨q, hq⟩, -⟩ := h.ends f k .reading p hf hd
    have hok := h.pipe p q hq
    simp only [hq]
    by_cases hlen : q.len = 0
    · rw [if_pos hlen]
      have hnil : q.list = [] := List.eq_nil_of_length_eq_zero (by simpa using hlen)
      have hends : returned (s.log p) = accepted (s.log p) := by rw [hok.stream, hnil, List.append_nil]
      have hleft : ∀ side, Ev.read n [] (if q.count .writing ≠ 0 then (if n ≠ 0 then eagain else 0)
          else 0) ≠ .left side := by simp
      refine h.noted hq (hok.snoc hleft hok.head hok.len rfl ?_) ?_ ?_ hleft
      · simp [Ev.accepted, Ev.returned, hok.stream]
      · refine ⟨(h.log p).toQueue.snoc ?_ ?_ (by simp), h.log_snoc hleft (by simp)⟩
        · simp [Ev.accepted, Ev.returned, hends]
        · intro n' bytes ret he
          simp only [Ev.read.injEq] at he
          obtain ⟨rfl, rfl, rfl⟩ := he
          have hcount := hok.count .writing
          by_cases hw : Ev.left .writing ∈ s.log p
          · simp [hcount, hw, hends]
          · by_cases hn : n = 0
            · simp [hcount, hw, hn]
            · simp [hcount, hw, hn, eagain]
      · exact fun hs => (h.refused hs p).snoc (by simp)
    · rw [if_neg hlen]
      have hbytes := Kpipe.take_bytes hok.head hok.len n
      have hrest := Kpipe.take_list (q := q) n
      have hleft : ∀ side, Ev.read n (q.take n).1 (q.take n).1.length ≠ .left side := by simp
      have hsplit : accepted (s.log p) =
          (returned (s.log p) ++ (q.take n).1) ++ (q.take n).2.list := by
        rw [hok.stream, hbytes, hrest, List.append_assoc, List.take_append_drop]
      refine h.moved (hok.snoc hleft (Nat.mod_lt _ (by decide)) ?_ rfl ?_) ?_ ?_ hleft
      · exact (Nat.sub_le _ _).trans hok.len
      · simp [Ev.accepted, Ev.returned, hsplit]
      · refine ⟨(h.log p).toQueue.snoc ?_ ?_ (by simp), h.log_snoc hleft (by simp)⟩
        · simp only [accepted_snoc, returned_snoc, Ev.accepted, Ev.returned, List.append_nil]
          exact ⟨_, hsplit.symm⟩
        · intro n' bytes ret he
          simp only [Ev.read.injEq] at he
          obtain ⟨rfl, rfl, rfl⟩ := he
          refine ⟨Or.inl rfl, fun hn => ?_⟩
          have hpos : 0 < (q.take n).1.length := by
            rw [hbytes]
            simp
            omega
          have hne : returned (s.log p) ≠ accepted (s.log p) := by
            intro he
            have := congrArg List.length hsplit
            rw [← he] at this
            simp only [List.length_append] at this
            omega
          simp only [hne, false_and, iff_false]
          omega
      · exact fun hs => (h.refused hs p).snoc (by simp)

/-- The bytes go into the ring of a direction that somebody reads. -/
theorem writeRing (h : s.Inv strict) {p : ℕ} {q : Kpipe} (hq : q.Ok (s.log p)) (data : List UInt8)
    (href : strict → .left .reading ∉ s.log p) : (s.writeRing p q data).2.Inv strict := by
  unfold Kst.writeRing
  simp only
  have hleft : ∀ side, Ev.write data (q.put data).1 ≠ .left side := by simp
  have hlog : strict → Refused (s.log p ++ [.write data (q.put data).1]) := fun hs =>
    (h.refused hs p).snoc fun _ _ _ hl => absurd hl (href hs)
  rcases Kpipe.put_spec hq.head hq.len data with hput | ⟨m, hm, hlist, hle, hsmall, hhead, hlen, -, hcount⟩
  · rw [hput] at hleft hlog ⊢
    refine h.moved (hq.snoc hleft hq.head hq.len rfl ?_) ?_ hlog hleft
    · simp [Ev.accepted, Ev.returned, hq.stream, eagain]
    · refine ⟨(h.log p).toQueue.snoc ?_ (by simp) ?_, h.log_snoc hleft (by simp)⟩
      · simpa [Ev.accepted, Ev.returned, eagain] using (h.log p).stream
      · intro data' ret he _
        simp only [Ev.write.injEq] at he
        rw [← he.2]
        exact Or.inr (by decide)
  · refine h.moved (hq.snoc hleft (hhead ▸ hq.head) hlen hcount ?_) ?_ hlog hleft
    · simp [Ev.accepted, Ev.returned, hq.stream, hlist, hm]
    · refine ⟨(h.log p).toQueue.snoc ?_ (by simp) ?_, h.log_snoc hleft (by simp)⟩
      · simp only [accepted_snoc, returned_snoc, Ev.accepted, Ev.returned, List.append_nil]
        exact (h.log p).stream.trans (List.prefix_append _ _)
      · intro data' ret he hsm
        simp only [Ev.write.injEq] at he
        obtain ⟨rfl, rfl⟩ := he
        rw [hm, hsmall hsm]
        exact Or.inl rfl

theorem kpipeWrite (h : s.Inv strict) {f : ℕ} {k : Kfile} (hf : s.file f = some k)
    (data : List UInt8) : (s.kpipeWrite f data).2.Inv strict := by
  unfold Kst.kpipeWrite
  rw [hf]
  simp only
  by_cases htype : k.type ≠ .pipe
  · rw [if_pos htype]
    exact h
  rw [if_neg htype]
  by_cases hdata : data = []
  · rw [if_pos hdata]
    exact h
  rw [if_neg hdata]
  cases hd : k.dir .writing with
  | none => exact h
  | some p =>
    obtain ⟨⟨q, hq⟩, -⟩ := h.ends f k .writing p hf hd
    have hok := h.pipe p q hq
    simp only [hq]
    by_cases hr : q.count .reading ≤ 0
    · rw [if_pos hr]
      have hleft : ∀ side, Ev.write data epipe ≠ .left side := by simp
      refine h.noted hq (hok.snoc hleft hok.head hok.len rfl ?_) ?_ ?_ hleft
      · simp [Ev.accepted, Ev.returned, hok.stream, epipe]
      · refine ⟨(h.log p).toQueue.snoc ?_ (by simp) ?_, h.log_snoc hleft (by simp)⟩
        · simpa [Ev.accepted, Ev.returned, epipe] using (h.log p).stream
        · intro data' ret he _
          simp only [Ev.write.injEq] at he
          rw [← he.2]
          exact Or.inr (by decide)
      · refine fun hs => (h.refused hs p).snoc fun data' ret he _ => ?_
        simp only [Ev.write.injEq] at he
        exact he.2.symm
    · rw [if_neg hr]
      by_cases hb : q.buf.isNone = true
      · rw [if_pos hb]
        exact h
      · rw [if_neg hb]
        exact h.writeRing hok data fun _ => (hok.count_le .reading).not.mp hr

theorem writeGoOn (h : s.Inv strict) {f p : ℕ} {k : Kfile} (hf : s.file f = some k)
    (data : List UInt8) (ok : Bool)
    (hlate : strict → ∀ q, k.dir .writing = some p → s.pipe p = some q → ¬ q.count .reading ≤ 0) :
    (s.writeGoOn f p data ok).2.Inv strict := by
  unfold Kst.writeGoOn
  by_cases hok : ok = false
  · rw [if_pos hok]
    exact h
  rw [if_neg hok, hf]
  simp only
  by_cases hd : k.dir .writing ≠ some p
  · rw [if_pos hd]
    exact h
  rw [if_neg hd]
  rw [not_not] at hd
  obtain ⟨⟨q, hq⟩, -⟩ := h.ends f k .writing p hf hd
  have hqok := h.pipe p q hq
  simp only [hq]
  have hring : { q with buf := some q.cells }.Ok (s.log p) :=
    ⟨hqok.head, hqok.len, hqok.stream, hqok.count, hqok.held⟩
  exact h.writeRing hring data fun hs => (hqok.count_le .reading).not.mp (hlate hs q hd hq)

/-- A description that holds fewer directions than before, or is gone. -/
theorem unhold (h : s.Inv strict) {f : ℕ} (k' : Option Kfile)
    (hk : ∀ k₁, k' = some k₁ → ∀ side p, k₁.dir side = some p →
      ∃ k, s.file f = some k ∧ k.dir side = some p) : (s.setFile f k').Inv strict := by
  have hdir : ∀ f₁ k₁ side p, (s.setFile f k').file f₁ = some k₁ → k₁.dir side = some p →
      ∃ k, s.file f₁ = some k ∧ k.dir side = some p := by
    intro f₁ k₁ side p hf₁ hd
    rcases eq_or_ne f₁ f with rfl | hne
    · simp only [setFile, Function.update_self] at hf₁
      exact hk k₁ hf₁ side p hd
    · simp only [setFile, Function.update_of_ne hne] at hf₁
      exact ⟨k₁, hf₁, hd⟩
  refine ⟨h.fault, h.log, h.refused, h.pipe, ?_, ?_⟩
  · intro f₁ k₁ side p hf₁ hd
    obtain ⟨k, hf, hk⟩ := hdir f₁ k₁ side p hf₁ hd
    exact h.ends f₁ k side p hf hk
  · intro f₁ k₁ f₂ k₂ side p hf₁ hf₂ hd₁ hd₂
    obtain ⟨k, hf, hk⟩ := hdir f₁ k₁ side p hf₁ hd₁
    obtain ⟨k', hf', hk'⟩ := hdir f₂ k₂ side p hf₂ hd₂
    exact h.own f₁ k f₂ k' side p hf hf' hk hk'

/-- Nobody holds one side of the direction any more: it is counted down, and freed if the other
side is gone too. -/
theorem lost (h : s.Inv strict) {p : ℕ} {q : Kpipe} (hq : s.pipe p = some q) {side : Side}
    (hin : .left side ∉ s.log p)
    (hno : ∀ f k, s.file f = some k → k.dir side ≠ some p) {q' : Kpipe}
    (hq' : q' = { q with count := Function.update q.count side (q.count side - 1) }) :
    (if q'.count .reading ≤ 0 ∧ q'.count .writing ≤ 0
      then ((s.setPipe p (some q')).emit p (.left side)).kfreePipe p
      else (s.setPipe p (some q')).emit p (.left side)).Inv strict := by
  have hok := h.pipe p q hq
  have hfree : (s.log p).count .freed = 0 := by
    rw [(h.log p).once, if_neg hok.held]
  have hqueue : Queue (s.log p ++ [.left side]) := (h.log p).toQueue.snoc_other (by simp) (by simp)
  have hcount : ∀ side', q'.count side' = if .left side' ∈ s.log p ++ [.left side] then 0 else 1 := by
    intro side'
    rw [hq']
    rcases eq_or_ne side' side with rfl | hne
    · simp [hok.count, hin]
    · simp [hok.count, hne]
  have hle : ∀ side', q'.count side' ≤ 0 ↔ .left side' ∈ s.log p ++ [.left side] := by
    intro side'
    rw [hcount]
    split_ifs with hl <;> simp [hl]
  have href : strict → Refused (s.log p ++ [.left side]) := fun hs =>
    (h.refused hs p).snoc (by simp)
  simp only [hle]
  split_ifs with hboth
  · -- the last of both sides
    have hst : ((s.setPipe p (some q')).emit p (.left side)).kfreePipe p =
        { s with
          pipe := Function.update s.pipe p none
          log := Function.update s.log p (s.log p ++ [.left side] ++ [.freed]) } := by
      simp [kfreePipe, emit, setPipe]
    rw [hst]
    refine ⟨h.fault, ?_, ?_, ?_, ?_, h.own⟩
    · intro p'
      rcases eq_or_ne p' p with rfl | hp
      · simp only [Function.update_self]
        refine ⟨hqueue.snoc_other (by simp) (by simp), ?_⟩
        rw [if_pos ⟨List.mem_append_left _ hboth.1, List.mem_append_left _ hboth.2⟩]
        simp [List.count_append, hfree]
      · simpa [hp] using h.log p'
    · intro hs p'
      rcases eq_or_ne p' p with rfl | hp
      · simpa using (href hs).snoc (by simp)
      · simpa [hp] using h.refused hs p'
    · intro p' r hr
      rcases eq_or_ne p' p with rfl | hp
      · simp at hr
      · simpa [hp] using h.pipe p' r (by simpa [hp] using hr)
    · intro f k side' p' hf hd
      obtain ⟨⟨r, hr⟩, hl⟩ := h.ends f k side' p' hf hd
      rcases eq_or_ne p' p with rfl | hp
      · exfalso
        rcases eq_or_ne side' side with rfl | hne
        · exact hno f k hf hd
        · have hmem : .left side' ∈ s.log p' ++ [.left side] := by
            cases side' <;> simp_all
          simp [hl, hne] at hmem
      · exact ⟨⟨r, by simpa [hp] using hr⟩, by simpa [hp] using hl⟩
  · refine ⟨h.fault, ?_, ?_, ?_, ?_, h.own⟩
    · intro p'
      rcases eq_or_ne p' p with rfl | hp
      · simp only [emit, setPipe, Function.update_self]
        refine ⟨hqueue, ?_⟩
        rw [if_neg hboth]
        simp [List.count_append, hfree]
      · simpa [emit, setPipe, hp] using h.log p'
    · intro hs p'
      rcases eq_or_ne p' p with rfl | hp
      · simpa [emit, setPipe] using href hs
      · simpa [emit, setPipe, hp] using h.refused hs p'
    · intro p' r hr
      rcases eq_or_ne p' p with rfl | hp
      · simp only [emit, setPipe, Function.update_self, Option.some.injEq] at hr ⊢
        rw [← hr]
        refine ⟨?_, ?_, ?_, hcount, hboth⟩
        · rw [hq']
          exact hok.head
        · rw [hq']
          exact hok.len
        · rw [hq', accepted_snoc, returned_snoc]
          simp only [Ev.accepted, Ev.returned, List.append_nil]
          exact hok.stream
      · simp only [emit, setPipe, Function.update_of_ne hp] at hr ⊢
        exact h.pipe p' r hr
    · intro f k side' p' hf hd
      obtain ⟨⟨r, hr⟩, hl⟩ := h.ends f k side' p' hf hd
      rcases eq_or_ne p' p with rfl | hp
      · refine ⟨⟨q', by simp [emit, setPipe]⟩, ?_⟩
        have hne : side' ≠ side := by
          rintro rfl
          exact hno f k hf hd
        simpa [emit, setPipe, hl] using hne
      · exact ⟨⟨r, by simpa [emit, setPipe, hp] using hr⟩, by simpa [emit, setPipe, hp] using hl⟩

end Kst.Inv

/-- A description that let go of some of its directions. -/
structure Kfile.Lets (k k' : Kfile) : Prop where
  type : k'.type = k.type
  refs : k'.refs = k.refs
  dir : ∀ side, k'.dir side = k.dir side ∨ k'.dir side = none

theorem Kfile.Lets.refl (k : Kfile) : k.Lets k := ⟨rfl, rfl, fun _ => Or.inl rfl⟩

theorem Kfile.Lets.trans {k₁ k₂ k₃ : Kfile} (h : k₁.Lets k₂) (h' : k₂.Lets k₃) : k₁.Lets k₃ := by
  refine ⟨h'.type.trans h.type, h'.refs.trans h.refs, fun side => ?_⟩
  rcases h'.dir side with hd | hd
  · rw [hd]
    exact h.dir side
  · exact Or.inr hd

namespace Kst.Inv

variable {strict : Prop} {s : Kst}

theorem dropSide (h : s.Inv strict) {f : ℕ} {k : Kfile} (hf : s.file f = some k) (side : Side) :
    (s.dropSide f side).Inv strict ∧
      ∃ k', (s.dropSide f side).file = Function.update s.file f (some k') ∧ k.Lets k' := by
  unfold Kst.dropSide
  rw [hf]
  simp only
  cases hd : k.dir side with
  | none => exact ⟨h, k, by rw [← hf, Function.update_eq_self], Kfile.Lets.refl k⟩
  | some p =>
    obtain ⟨⟨q, hq⟩, hin⟩ := h.ends f k side p hf hd
    simp only [hq]
    have hk' : k.Lets { k with dir := Function.update k.dir side none } := by
      refine ⟨rfl, rfl, fun side' => ?_⟩
      rcases eq_or_ne side' side with rfl | hne
      · exact Or.inr (Function.update_self ..)
      · exact Or.inl (Function.update_of_ne hne ..)
    have hun : (s.setFile f (some { k with dir := Function.update k.dir side none })).Inv strict := by
      refine h.unhold _ fun k₁ hk₁ side' p' hd' => ⟨k, hf, ?_⟩
      rw [← Option.some.inj hk₁] at hd'
      rcases hk'.dir side' with hx | hx
      · rwa [← hx]
      · rw [hx] at hd'
        exact absurd hd' (by simp)
    refine ⟨hun.lost hq hin ?_ rfl, _, ?_, hk'⟩
    · -- the side was this description's alone
      intro f' k' hf' hd'
      rcases eq_or_ne f' f with rfl | hne
      · simp only [setFile, Function.update_self, Option.some.injEq] at hf'
        rw [← hf'] at hd'
        simp at hd'
      · simp only [setFile, Function.update_of_ne hne] at hf'
        exact hne (h.own f' k' f k side p hf' hf hd' hd)
    · split_ifs with hfree
      · simp [kfreePipe, emit, setPipe, setFile]
      · rfl

theorem putLast (h : s.Inv strict) {f : ℕ} {k : Kfile} (hf : s.file f = some k) :
    (s.putLast f).Inv strict ∧ (s.putLast f).file = Function.update s.file f none := by
  obtain ⟨h₁, k₁, hf₁, -⟩ := h.dropSide hf .reading
  obtain ⟨h₂, k₂, hf₂, -⟩ := h₁.dropSide (k := k₁) (by rw [hf₁, Function.update_self]) .writing
  unfold Kst.putLast kfreeFile Kst.dropIn Kst.dropOut
  rw [hf₂, Function.update_self]
  simp only [Option.isNone_some, Bool.false_eq_true, if_false]
  refine ⟨h₂.unhold none (by simp), ?_⟩
  simp [setFile, hf₂, hf₁]

theorem kpipeShutdown (h : s.Inv strict) {f : ℕ} {k : Kfile} (hf : s.file f = some k) (how : ℤ) :
    (s.kpipeShutdown f how).2.Inv strict ∧
      ∃ k', (s.kpipeShutdown f how).2.file = Function.update s.file f (some k') ∧ k.Lets k' := by
  have hsame : ∃ k', s.file = Function.update s.file f (some k') ∧ k.Lets k' :=
    ⟨k, by rw [← hf, Function.update_eq_self], Kfile.Lets.refl k⟩
  unfold Kst.kpipeShutdown
  rw [hf]
  simp only
  split_ifs with htype hsock hrange hin hout hout
  · exact ⟨h, hsame⟩
  · exact ⟨h, hsame⟩
  · exact ⟨h, hsame⟩
  · obtain ⟨h₁, k₁, hf₁, hk₁⟩ := h.dropSide hf .reading
    obtain ⟨h₂, k₂, hf₂, hk₂⟩ := h₁.dropSide (k := k₁) (by rw [hf₁, Function.update_self]) .writing
    refine ⟨h₂, k₂, ?_, hk₁.trans hk₂⟩
    unfold Kst.dropIn Kst.dropOut
    rw [hf₂, hf₁, Function.update_idem]
  · exact h.dropSide hf .writing
  · exact h.dropSide hf .reading
  · exact ⟨h, hsame⟩

/-- Memory for a new direction: both sides open, nothing in its log. -/
theorem newDir (h : s.Inv strict) {p : ℕ} (hp : s.pipe p = none) :
    Kst.Inv strict { s with
      pipe := Function.update s.pipe p (some ⟨none, 0, 0, fun _ => 1⟩)
      log := Function.update s.log p [] } := by
  refine ⟨h.fault, ?_, ?_, ?_, ?_, h.own⟩
  · intro p'
    rcases eq_or_ne p' p with rfl | hne
    · simp only [Function.update_self]
      exact ⟨⟨List.prefix_rfl, by simp, by simp, by simp⟩, by simp⟩
    · simpa [hne] using h.log p'
  · intro hs p'
    rcases eq_or_ne p' p with rfl | hne
    · simp [Refused]
    · simpa [hne] using h.refused hs p'
  · intro p' q hq
    rcases eq_or_ne p' p with rfl | hne
    · simp only [Function.update_self, Option.some.injEq] at hq ⊢
      rw [← hq]
      exact ⟨by decide, by decide, rfl, by simp, by simp⟩
    · simp only [Function.update_of_ne hne] at hq ⊢
      exact h.pipe p' q hq
  · intro f k side p' hf hd
    obtain ⟨⟨q, hq⟩, hl⟩ := h.ends f k side p' hf hd
    have hne : p' ≠ p := by
      rintro rfl
      rw [hp] at hq
      exact absurd hq (by simp)
    exact ⟨⟨q, by simpa [hne] using hq⟩, by simpa [hne] using hl⟩

/-- A new description, on sides of directions that are nobody else's. -/
theorem newFile (h : s.Inv strict) {x : ℕ} (hx : s.file x = none) {k : Kfile}
    (hk : ∀ side p, k.dir side = some p → (∃ q, s.pipe p = some q) ∧ .left side ∉ s.log p ∧
      ∀ f' k', s.file f' = some k' → k'.dir side ≠ some p) : (s.setFile x (some k)).Inv strict := by
  refine ⟨h.fault, h.log, h.refused, h.pipe, ?_, ?_⟩
  · intro f k' side p hf hd
    rcases eq_or_ne f x with rfl | hne
    · simp only [setFile, Function.update_self, Option.some.injEq] at hf
      rw [← hf] at hd
      exact ⟨(hk side p hd).1, (hk side p hd).2.1⟩
    · simp only [setFile, Function.update_of_ne hne] at hf
      exact h.ends f k' side p hf hd
  · intro f k₁ f' k₂ side p hf hf' hd hd'
    by_cases hne : f = x
    · by_cases hne' : f' = x
      · rw [hne, hne']
      · simp only [hne, setFile, Function.update_self, Option.some.injEq] at hf
        simp only [setFile, Function.update_of_ne hne'] at hf'
        rw [← hf] at hd
        exact absurd hd' ((hk side p hd).2.2 f' k₂ hf')
    · simp only [setFile, Function.update_of_ne hne] at hf
      by_cases hne' : f' = x
      · simp only [hne', setFile, Function.update_self, Option.some.injEq] at hf'
        rw [← hf'] at hd'
        exact absurd hd ((hk side p hd').2.2 f k₁ hf)
      · simp only [setFile, Function.update_of_ne hne'] at hf'
        exact h.own f k₁ f' k₂ side p hf hf' hd hd'

theorem dir_ne (h : s.Inv strict) {p : ℕ} (hp : s.pipe p = none) {f : ℕ} {k : Kfile}
    (hf : s.file f = some k) (side : Side) : k.dir side ≠ some p := by
  intro hd
  obtain ⟨⟨q, hq⟩, -⟩ := h.ends f k side p hf hd
  rw [hp] at hq
  exact absurd hq (by simp)

theorem makePipe (h : s.Inv strict) {x y p : ℕ} (hx : s.file x = none) (hy : s.file y = none)
    (hxy : x ≠ y) (hp : s.pipe p = none) (q : ℕ) : (s.makePair false x y p q).Inv strict := by
  refine ((h.newDir hp).newFile hx ?_).newFile (by simp [setFile, hxy.symm, hy]) ?_
  · rintro (_ | _) p' hd
    · obtain rfl := Option.some.inj hd
      exact ⟨⟨_, Function.update_self ..⟩, by simp, fun f' k' hf' => h.dir_ne hp hf' _⟩
    · exact absurd hd (by simp)
  · rintro (_ | _) p' hd
    · exact absurd hd (by simp)
    · obtain rfl := Option.some.inj hd
      refine ⟨⟨_, Function.update_self ..⟩, by simp [setFile], fun f' k' hf' => ?_⟩
      rcases eq_or_ne f' x with rfl | hne
      · simp only [setFile, Function.update_self, Option.some.injEq] at hf'
        simp [← hf']
      · simp only [setFile, Function.update_of_ne hne] at hf'
        exact h.dir_ne hp hf' _

theorem makeSocketpair (h : s.Inv strict) {x y p q : ℕ} (hx : s.file x = none)
    (hy : s.file y = none) (hxy : x ≠ y) (hp : s.pipe p = none) (hq : s.pipe q = none)
    (hpq : p ≠ q) : (s.makePair true x y p q).Inv strict := by
  have hboth := (h.newDir hp).newDir (p := q) (by simp [hpq.symm, hq])
  refine (hboth.newFile hx ?_).newFile (by simp [setFile, hxy.symm, hy]) ?_
  · rintro (_ | _) p' hd
    all_goals
      obtain rfl := Option.some.inj hd
      exact ⟨by simp [hpq], by simp [hpq], fun f' k' hf' => h.dir_ne (by assumption) hf' _⟩
  · rintro (_ | _) p' hd
    all_goals
      obtain rfl := Option.some.inj hd
      refine ⟨?_, ?_, fun f' k' hf' => ?_⟩
      · simp [setFile, hpq]
      · simp [setFile, hpq]
      · rcases eq_or_ne f' x with rfl | hne
        · simp only [setFile, Function.update_self, Option.some.injEq] at hf'
          simp [← hf', hpq, hpq.symm]
        · simp only [setFile, Function.update_of_ne hne] at hf'
          exact h.dir_ne (by assumption) hf' _

end Kst.Inv

end BananaOS.Pipes
