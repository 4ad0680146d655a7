import BananaOS.Terminal.Tty

/-!
# The line discipline

`Pty` does what `Tty` does: the ring of typed bytes is the waiting lines one after the other (in raw
mode the waiting bytes), and the table of records is the lengths of these lines (`Pty.Sim`).  Each
call keeps the two together, and a read returns the same bytes.
-/

namespace BananaOS.Terminal

open Lib

/-! ## Erasing -/

theorem eraseAt_false (line : List UInt8) (i : ℕ) : eraseAt false line i = i := by
  cases i <;> simp [eraseAt]

/-- Going back from the byte `i` to where its character begins. -/
theorem take_eraseAt_true (l : List UInt8) {i : ℕ} (hi : i < l.length) :
    l.take (eraseAt true l i) = ((l.take (i + 1)).reverse.dropWhile cont).tail.reverse := by
  induction i with
  | zero =>
    obtain ⟨a, rest, rfl⟩ := List.exists_cons_of_length_pos hi
    by_cases ha : cont a <;> simp [eraseAt, ha]
  | succ i ih =>
    have hget : l.getD (i + 1) 0 = l[i + 1] := by simp [hi]
    rw [List.take_succ_eq_append_getElem hi, List.reverse_append, List.reverse_singleton,
      List.singleton_append, eraseAt, hget]
    by_cases hc : cont l[i + 1]
    · rw [List.dropWhile_cons_of_pos hc, ← ih (by omega)]
      simp [hc]
    · rw [List.dropWhile_cons_of_neg hc, List.tail_cons, List.reverse_reverse]
      simp [hc]

theorem take_eraseAt (utf8 : Bool) {line : List UInt8} (h : line ≠ []) :
    line.take (eraseAt utf8 line (line.length - 1)) = eraseLast utf8 line := by
  have hpos := List.length_pos_of_ne_nil h
  cases utf8 with
  | false => rw [eraseAt_false, eraseLast, if_neg (by simp), List.dropLast_eq_take]
  | true =>
    rw [take_eraseAt_true line (by omega), eraseLast, if_pos rfl]
    rw [show line.length - 1 + 1 = line.length by omega, List.take_length]

theorem Pty.eraseOne_eq (t : Pty) :
    ∃ o, t.eraseOne = { t with line := eraseLast t.tio.iutf8 t.line, out := o } := by
  unfold Pty.eraseOne
  by_cases h : t.line = []
  · refine ⟨t.out, ?_⟩
    rw [if_pos h]
    have he : eraseLast t.tio.iutf8 t.line = t.line := by
      rw [h]
      cases t.tio.iutf8 <;> rfl
    rw [he]
  · rw [if_neg h]
    simp only [take_eraseAt t.tio.iutf8 h]
    exact ⟨_, rfl⟩

theorem Pty.eraseWhile_eq (p : UInt8 → Bool) (t : Pty) :
    ∃ o, t.eraseWhile p =
      { t with line := Terminal.eraseWhile t.tio.iutf8 p t.line, out := o } := by
  fun_induction Pty.eraseWhile p t with
  | case1 t h ih =>
    obtain ⟨o, ho⟩ := t.eraseOne_eq
    obtain ⟨o', ho'⟩ := ih
    refine ⟨o', ?_⟩
    rw [ho', ho]
    rw [Terminal.eraseWhile.eq_def t.tio.iutf8 p t.line, dif_pos h]
  | case2 t h =>
    refine ⟨t.out, ?_⟩
    rw [Terminal.eraseWhile, dif_neg h]

theorem eraseLast_length_le (utf8 : Bool) (l : List UInt8) :
    (eraseLast utf8 l).length ≤ l.length := by
  by_cases h : l = []
  · rw [h]
    cases utf8 <;> simp [eraseLast]
  · exact (eraseLast_length_lt utf8 h).le

theorem eraseWhile_length_le (utf8 : Bool) (p : UInt8 → Bool) (l : List UInt8) :
    (eraseWhile utf8 p l).length ≤ l.length := by
  fun_induction eraseWhile utf8 p l with
  | case1 l h ih => exact ih.trans (eraseLast_length_le utf8 l)
  | case2 l h => exact le_rfl

theorem eraseWhile_true (utf8 : Bool) (l : List UInt8) : eraseWhile utf8 (fun _ => true) l = [] := by
  fun_induction eraseWhile utf8 (fun _ => true) l with
  | case1 l h ih => exact ih
  | case2 l h => simpa using h

/-! ## The two terminals -/

namespace Pty

/-- The terminal of the source and the one without rings, side by side, but for the line being
edited. -/
structure Queued (t : Pty) (T : Tty) : Prop where
  tio : T.tio = t.tio
  quoted : T.quoted = t.lnext
  inp : t.inp.list inQ = T.lines.flatten ++ T.bytes
  rcd : t.rcd.list recs = T.lines.map List.length
  inLen : t.inp.len ≤ inQ
  inHead : t.inp.head < inQ
  rcdLen : t.rcd.len ≤ recs
  rcdHead : t.rcd.head < recs
  ok : T.Ok

/-- The terminal of the source and the one without rings, side by side. -/
structure Sim (t : Pty) (T : Tty) : Prop extends Queued t T where
  line : T.line = t.line
  llen : t.line.length ≤ lineMax - 1

section
variable {t : Pty} {T : Tty}

theorem Sim.new : Sim ptyNew Tty.new :=
  ⟨⟨rfl, rfl, rfl, rfl, by decide, by decide, by decide, by decide, Tty.Ok.new⟩, rfl, by decide⟩

theorem Queued.frame (h : Queued t T) {t' : Pty} (h1 : t'.tio = t.tio)
    (h3 : t'.lnext = t.lnext) (h4 : t'.inp = t.inp) (h5 : t'.rcd = t.rcd) : Queued t' T := by
  refine ⟨?_, ?_, ?_, ?_, ?_, ?_, ?_, ?_, h.ok⟩
  · rw [h1, h.tio]
  · rw [h3, h.quoted]
  · rw [h4, h.inp]
  · rw [h5, h.rcd]
  · rw [h4]
    exact h.inLen
  · rw [h4]
    exact h.inHead
  · rw [h5]
    exact h.rcdLen
  · rw [h5]
    exact h.rcdHead

theorem Sim.frame (h : Sim t T) {t' : Pty} (h1 : t'.tio = t.tio) (h2 : t'.line = t.line)
    (h3 : t'.lnext = t.lnext) (h4 : t'.inp = t.inp) (h5 : t'.rcd = t.rcd) : Sim t' T :=
  ⟨h.toQueued.frame h1 h3 h4 h5, by rw [h2, h.line], by rw [h2]; exact h.llen⟩

theorem Queued.count (h : Queued t T) : T.count = t.inp.len := by
  have := congrArg List.length h.inp
  rw [RingBuf.length_list, List.length_append] at this
  exact this.symm

theorem Queued.nrec (h : Queued t T) : T.lines.length = t.rcd.len := by
  have := congrArg List.length h.rcd
  rw [RingBuf.length_list, List.length_map] at this
  exact this.symm

theorem Sim.echo (h : Sim t T) (c : UInt8) : Sim (t.echo c) T := by
  unfold Pty.echo
  split_ifs
  · exact h.frame rfl rfl rfl rfl rfl
  · exact h

theorem Sim.edit (h : Sim t T) (hc : T.tio.icanon = true) {l : List UInt8}
    (hl : l.length ≤ lineMax - 1) {o : Out} :
    Sim { t with line := l, out := o } { T with line := l } :=
  ⟨⟨h.tio, h.quoted, h.inp, h.rcd, h.inLen, h.inHead, h.rcdLen, h.rcdHead, h.ok.edit hc l⟩, rfl, hl⟩

theorem Queued.flushInput (h : Queued t T) : Sim t.flushInput T.discard :=
  ⟨⟨h.tio, h.quoted, by simp [Pty.flushInput, Tty.discard],
    by simp [Pty.flushInput, Tty.discard], Nat.zero_le _, Nat.zero_lt_succ _, Nat.zero_le _,
    Nat.zero_lt_succ _, h.ok.discard⟩, rfl, Nat.zero_le _⟩

theorem Queued.lineDone (h : Queued t T) (hc : T.tio.icanon = true) :
    Sim t.lineDone (T.complete t.line) := by
  have hok := h.ok.complete hc t.line
  have hb := h.ok.canon hc
  unfold Tty.complete at hok ⊢
  rw [h.count, h.nrec] at hok ⊢
  unfold Pty.lineDone inRoom
  by_cases hfull : t.rcd.len = recs ∨ inQ - t.inp.len < t.line.length
  · rw [if_pos hfull] at hok ⊢
    rw [if_pos hfull]
    exact ⟨⟨h.tio, h.quoted, h.inp, h.rcd, h.inLen, h.inHead, h.rcdLen, h.rcdHead, hok⟩, rfl,
      Nat.zero_le _⟩
  · rw [if_neg hfull] at hok ⊢
    rw [if_neg hfull]
    rw [not_or, not_lt] at hfull
    have hlen := h.rcdLen
    refine ⟨⟨h.tio, h.quoted, ?_, ?_, ?_, ?_, ?_, h.rcdHead, hok⟩, rfl, Nat.zero_le _⟩
    · show (t.inp.putAll inQ t.line).list inQ = _
      rw [RingBuf.list_putAll, List.take_of_length_le hfull.2, h.inp, hb]
      simp
    · show (t.rcd.put recs t.line.length).list recs = _
      rw [RingBuf.list_put _ _ (by omega), h.rcd]
      simp
    · show (t.inp.putAll inQ t.line).len ≤ inQ
      rw [RingBuf.putAll_len]
      have := h.inLen
      omega
    · show (t.inp.putAll inQ t.line).head < inQ
      rw [RingBuf.putAll_head]
      exact h.inHead
    · show t.rcd.len + 1 ≤ recs
      omega

theorem Sim.signal (h : Sim t T) (c : UInt8) {t' : Pty} (h' : Sim t' T) :
    Sim (t.signal c t') (if T.tio.noflsh then T else T.discard) := by
  unfold Pty.signal
  simp only [h.tio]
  apply Sim.echo
  split_ifs
  · exact h'
  · exact h'.flushInput.frame rfl rfl rfl rfl rfl

/-- A character of raw mode. -/
theorem Sim.typeRaw (h : Sim t T) (hc : T.tio.icanon = false) (c : UInt8) :
    Sim (t.typeRaw c).1 (T.insert c).1 ∧ (t.typeRaw c).2 = (T.insert c).2 := by
  have hok := h.ok.insert c
  obtain ⟨hl, hline⟩ := h.ok.raw hc
  unfold Tty.insert at hok ⊢
  rw [if_neg (by simp [hc]), h.count] at hok ⊢
  unfold Pty.typeRaw inRoom
  by_cases hroom : inQ - t.inp.len = 0
  · rw [if_pos hroom] at hok ⊢
    rw [if_pos hroom]
    exact ⟨⟨⟨h.tio, h.quoted, h.inp, h.rcd, h.inLen, h.inHead, h.rcdLen, h.rcdHead, hok⟩, h.line,
      h.llen⟩, rfl⟩
  · rw [if_neg hroom] at hok ⊢
    rw [if_neg hroom]
    refine ⟨?_, rfl⟩
    apply Sim.echo
    refine ⟨⟨h.tio, h.quoted, ?_, h.rcd, ?_, ?_, h.rcdLen, h.rcdHead, hok⟩, h.line, h.llen⟩
    · show (t.inp.putAll inQ [c]).list inQ = _
      rw [RingBuf.list_putAll, List.take_of_length_le (by simp only [List.length_singleton]; omega),
        h.inp, hl]
      simp
    · show (t.inp.putAll inQ [c]).len ≤ inQ
      rw [RingBuf.putAll_len]
      have := h.inLen
      omega
    · show (t.inp.putAll inQ [c]).head < inQ
      rw [RingBuf.putAll_head]
      exact h.inHead

/-- A character that goes into the line: with room for it, or lost. -/
theorem Sim.insertLine (h : Sim t T) (hc : T.tio.icanon = true) (c : UInt8) :
    Sim (if t.line.length < lineMax - 1 then { t with line := t.line ++ [c] } else t)
      (T.insert c).1 ∧ (T.insert c).2 = true := by
  have hok := h.ok.insert c
  unfold Tty.insert at hok ⊢
  rw [if_pos hc, h.line] at hok ⊢
  by_cases hl : t.line.length < lineMax - 1
  · rw [if_pos hl] at hok ⊢
    rw [if_pos hl]
    refine ⟨⟨⟨h.tio, h.quoted, h.inp, h.rcd, h.inLen, h.inHead, h.rcdLen, h.rcdHead, hok⟩, rfl, ?_⟩,
      rfl⟩
    simp only [List.length_append, List.length_singleton]
    omega
  · rw [if_neg hl] at hok ⊢
    rw [if_neg hl]
    exact ⟨⟨⟨h.tio, h.quoted, h.inp, h.rcd, h.inLen, h.inHead, h.rcdLen, h.rcdHead, hok⟩, rfl,
      h.llen⟩, rfl⟩

/-- A byte of canonical mode. -/
theorem Sim.typeCanon (h : Sim t T) (hc : T.tio.icanon = true) (hq : t.lnext = false) (c : UInt8) :
    Sim (t.typeCanon c) (T.act (canonKey T.tio c)).1 ∧ (T.act (canonKey T.tio c)).2 = true := by
  have hlen := h.llen
  rw [show canonKey T.tio c = canonKey t.tio c by rw [h.tio]]
  unfold Pty.typeCanon canonKey
  by_cases h1 : (t.tio.iexten && hits c t.tio.vlnext) = true
  · rw [if_pos h1, if_pos h1]
    exact ⟨⟨⟨h.tio, rfl, h.inp, h.rcd, h.inLen, h.inHead, h.rcdLen, h.rcdHead,
      ⟨h.ok.canon, h.ok.raw, h.ok.conserved⟩⟩, h.line, h.llen⟩, rfl⟩
  rw [if_neg h1, if_neg h1]
  by_cases h2 : hits c t.tio.verase = true
  · rw [if_pos h2, if_pos h2]
    obtain ⟨o, ho⟩ := t.eraseOne_eq
    have he : eraseLast T.tio.iutf8 T.line = eraseLast t.tio.iutf8 t.line := by rw [h.tio, h.line]
    refine ⟨?_, rfl⟩
    show Sim t.eraseOne { T with line := eraseLast T.tio.iutf8 T.line }
    rw [ho, he]
    exact h.edit hc ((eraseLast_length_le _ _).trans hlen)
  rw [if_neg h2, if_neg h2]
  by_cases h3 : (t.tio.iexten && hits c t.tio.vwerase) = true
  · rw [if_pos h3, if_pos h3]
    obtain ⟨o, ho⟩ := t.eraseWhile_eq isSpace
    obtain ⟨o', ho'⟩ := (t.eraseWhile isSpace).eraseWhile_eq fun c => !isSpace c
    refine ⟨?_, rfl⟩
    obtain ⟨l, hl⟩ : ∃ l, l = Terminal.eraseWhile t.tio.iutf8 (fun c => !isSpace c)
      (Terminal.eraseWhile t.tio.iutf8 isSpace t.line) := ⟨_, rfl⟩
    have he : (T.act .werase).1 = { T with line := l } := by
      simp only [Tty.act, hl, h.tio, h.line]
    rw [ho', ho, he]
    rw [← hl]
    refine h.edit hc ?_
    rw [hl]
    exact (eraseWhile_length_le _ _ _).trans ((eraseWhile_length_le _ _ _).trans hlen)
  rw [if_neg h3, if_neg h3]
  by_cases h4 : hits c t.tio.vkill = true
  · rw [if_pos h4, if_pos h4]
    refine ⟨?_, rfl⟩
    show Sim _ { T with line := [] }
    by_cases h5 : (t.tio.echo && t.tio.echoke) = true
    · obtain ⟨o, ho⟩ := t.eraseWhile_eq fun _ => true
      rw [if_pos h5, ho, eraseWhile_true]
      exact h.edit hc (Nat.zero_le _)
    · rw [if_neg h5]
      exact h.edit hc (Nat.zero_le _)
  rw [if_neg h4, if_neg h4]
  by_cases h5 : (t.tio.iexten && hits c t.tio.vreprint) = true
  · rw [if_pos h5, if_pos h5]
    refine ⟨?_, rfl⟩
    show Sim _ T
    split_ifs
    · exact h.frame rfl rfl rfl rfl rfl
    · exact h
  rw [if_neg h5, if_neg h5]
  by_cases h6 : hits c t.tio.veof = true
  · rw [if_pos h6, if_pos h6]
    refine ⟨?_, rfl⟩
    show Sim _ (T.complete T.line)
    rw [h.line]
    exact h.toQueued.lineDone hc
  rw [if_neg h6, if_neg h6]
  cases h7 : (c == 10 || hits c t.tio.veol || hits c t.tio.veol2)
  · have hi := Sim.insertLine (T := { T with quoted := false })
      ⟨⟨h.tio, hq.symm, h.inp, h.rcd, h.inLen, h.inHead, h.rcdLen, h.rcdHead,
        ⟨h.ok.canon, h.ok.raw, h.ok.conserved⟩⟩, h.line, h.llen⟩ hc c
    simp only [Bool.false_eq_true, false_and, or_false, if_false]
    refine ⟨?_, hi.2⟩
    show Sim _ (Tty.insert { T with quoted := false } c).1
    split_ifs at hi ⊢
    all_goals exact hi.1.frame rfl rfl rfl rfl rfl
  · -- the end of a line always fits: the line is never longer than `LINE - 1`
    have hl : t.line.length < lineMax := by
      unfold lineMax at *
      omega
    simp only [hl, and_true, or_true, if_true]
    refine ⟨?_, rfl⟩
    show Sim _ (T.complete (T.line ++ [c]))
    rw [h.line]
    have hd : ∀ o : Out, Sim ({ t with line := t.line ++ [c], out := o } : Pty).lineDone
        (T.complete (t.line ++ [c])) := fun o =>
      Queued.lineDone (t := { t with line := t.line ++ [c], out := o })
        (h.toQueued.frame rfl rfl rfl rfl) hc
    split_ifs
    · exact hd _
    · exact hd t.out

/-- A byte that neither stops nor starts the output. -/
theorem Sim.typeSig (h : Sim t T) (hq : t.lnext = false) (c : UInt8) :
    let k := if T.tio.isig && (hits c T.tio.vintr || hits c T.tio.vquit || hits c T.tio.vsusp) then
        Key.signal
      else if T.tio.icanon then canonKey T.tio c
      else .char c
    Sim (t.typeSig c).1 (T.act k).1 ∧ (t.typeSig c).2 = (T.act k).2 := by
  have hi : T.tio = t.tio := h.tio
  dsimp only
  unfold Pty.typeSig
  by_cases h1 : (t.tio.isig && hits c t.tio.vintr) = true
  · rw [if_pos h1, if_pos (by rw [hi]; simp only [Bool.and_eq_true] at h1; simp [h1.1, h1.2])]
    exact ⟨h.signal c (h.frame rfl rfl rfl rfl rfl), rfl⟩
  rw [if_neg h1]
  by_cases h2 : (t.tio.isig && hits c t.tio.vquit) = true
  · rw [if_pos h2, if_pos (by rw [hi]; simp only [Bool.and_eq_true] at h2; simp [h2.1, h2.2])]
    exact ⟨h.signal c (h.frame rfl rfl rfl rfl rfl), rfl⟩
  rw [if_neg h2]
  by_cases h3 : (t.tio.isig && hits c t.tio.vsusp) = true
  · rw [if_pos h3, if_pos (by rw [hi]; simp only [Bool.and_eq_true] at h3; simp [h3.1, h3.2])]
    exact ⟨h.signal c (h.frame rfl rfl rfl rfl rfl), rfl⟩
  rw [if_neg h3]
  have hno : ¬(T.tio.isig && (hits c T.tio.vintr || hits c T.tio.vquit || hits c T.tio.vsusp)) =
      true := by
    rw [hi]
    intro hx
    simp only [Bool.and_eq_true, Bool.or_eq_true] at hx h1 h2 h3
    rcases hx with ⟨hs, (ha | ha) | ha⟩
    · exact h1 ⟨hs, ha⟩
    · exact h2 ⟨hs, ha⟩
    · exact h3 ⟨hs, ha⟩
  rw [if_neg hno]
  by_cases hc : T.tio.icanon = true
  · rw [if_pos hc, if_pos (by rw [← hi, hc])]
    have hx := h.typeCanon hc hq c
    exact ⟨hx.1, hx.2.symm⟩
  · rw [if_neg hc, if_neg (by rw [← hi]; exact hc)]
    have h' : Sim t { T with quoted := false } :=
      ⟨⟨h.tio, hq.symm, h.inp, h.rcd, h.inLen, h.inHead, h.rcdLen, h.rcdHead,
        ⟨h.ok.canon, h.ok.raw, h.ok.conserved⟩⟩, h.line, h.llen⟩
    exact h'.typeRaw (by simpa using hc) c

/-- A byte that is neither quoted nor ignored. -/
theorem Sim.typeFlow (h : Sim t T) (hq : t.lnext = false) (c : UInt8) :
    let k := if T.tio.ixon && (hits c T.tio.vstop || hits c T.tio.vstart) then Key.ignore
      else if T.tio.isig && (hits c T.tio.vintr || hits c T.tio.vquit || hits c T.tio.vsusp) then
        .signal
      else if T.tio.icanon then canonKey T.tio c
      else .char c
    Sim (t.typeFlow c).1 (T.act k).1 ∧ (t.typeFlow c).2 = (T.act k).2 := by
  have hi : T.tio = t.tio := h.tio
  dsimp only
  unfold Pty.typeFlow
  by_cases h1 : (T.tio.ixon && (hits c T.tio.vstop || hits c T.tio.vstart)) = true
  · rw [if_pos h1]
    rw [hi] at h1
    simp only [Bool.and_eq_true, Bool.or_eq_true] at h1
    rcases h1 with ⟨hx, hs | hs⟩
    · rw [if_pos (by simp [hx, hs])]
      exact ⟨h.frame rfl rfl rfl rfl rfl, rfl⟩
    · by_cases hs' : (t.tio.ixon && hits c t.tio.vstop) = true
      · rw [if_pos hs']
        exact ⟨h.frame rfl rfl rfl rfl rfl, rfl⟩
      · rw [if_neg hs', if_pos (by simp [hx, hs])]
        exact ⟨h.frame rfl rfl rfl rfl rfl, rfl⟩
  · rw [if_neg h1]
    rw [hi] at h1
    have h2 : (t.tio.ixon && hits c t.tio.vstop) ≠ true := by
      intro hx
      simp only [Bool.and_eq_true] at hx
      exact h1 (by simp [hx.1, hx.2])
    have h3 : (t.tio.ixon && hits c t.tio.vstart) ≠ true := by
      intro hx
      simp only [Bool.and_eq_true] at hx
      exact h1 (by simp [hx.1, hx.2])
    rw [if_neg h2, if_neg h3]
    -- `IXANY` starts the output again, and changes nothing else
    obtain ⟨t', ht', h', hq'⟩ : ∃ t' : Pty,
        t' = (if (t.tio.ixon && t.tio.ixany) = true then { t with stopped := false } else t) ∧
          Sim t' T ∧ t'.lnext = false := by
      refine ⟨_, rfl, ?_, ?_⟩
      · split_ifs
        · exact h.frame rfl rfl rfl rfl rfl
        · exact h
      · split_ifs <;> exact hq
    rw [← ht']
    exact h'.typeSig hq' c

/-- One typed byte. -/
theorem Sim.typeChar (h : Sim t T) (c : UInt8) :
    Sim (t.typeChar c).1 (T.type c).1 ∧ (t.typeChar c).2 = (T.type c).2 := by
  unfold Pty.typeChar Tty.type key
  rw [show T.quoted = t.lnext from h.quoted]
  have hi : T.tio = t.tio := h.tio
  cases hq : t.lnext with
  | true =>
    have h' : Sim { t with lnext := false } { T with quoted := false } :=
      ⟨⟨h.tio, rfl, h.inp, h.rcd, h.inLen, h.inHead, h.rcdLen, h.rcdHead,
        ⟨h.ok.canon, h.ok.raw, h.ok.conserved⟩⟩, h.line, h.llen⟩
    simp only [if_true]
    unfold Pty.typeQuoted
    obtain ⟨t', ht'⟩ : ∃ t' : Pty, t' = { t with lnext := false } := ⟨_, rfl⟩
    rw [← ht'] at h' ⊢
    have hi' : T.tio = t'.tio := h'.tio
    dsimp only
    by_cases hc : t'.tio.icanon = true
    · have hins := h'.insertLine (by simp [hi', hc]) c
      rw [if_pos hc]
      exact ⟨hins.1.echo c, hins.2.symm⟩
    · rw [if_neg hc]
      exact h'.typeRaw (by simpa [hi'] using hc) c
  | false =>
    simp only [Bool.false_eq_true, if_false]
    rw [show translate T.tio c = translate t.tio c by rw [hi]]
    cases translate t.tio c with
    | none => exact ⟨h, rfl⟩
    | some c => exact h.typeFlow hq c

theorem Sim.masterWrite (h : Sim t T) (l : List UInt8) : Sim (t.masterWrite l).1 (T.write l) := by
  show Sim (t.typeChars l).1 (T.write l)
  induction l generalizing t T with
  | nil => exact h
  | cons c l ih =>
    obtain ⟨h1, h2⟩ := h.typeChar c
    unfold Pty.typeChars Tty.write
    cases htc : t.typeChar c with
    | mk t' b =>
      cases hTc : T.type c with
      | mk T' b' =>
        rw [htc, hTc] at h1 h2
        obtain rfl : b = b' := h2
        cases b with
        | false => exact h1
        | true => exact ih h1

/-! ## Reads -/

/-- A read of a line, or of part of one. -/
theorem Sim.readLine (h : Sim t T) (hc : T.tio.icanon = true) {l : List UInt8}
    {ls : List (List UInt8)} (hne : l ≠ []) (hl : T.lines = l :: ls) (n : ℕ) :
    Sim (t.slaveRead n).1 (T.read n).1 ∧ (t.slaveRead n).2.list = l.take n := by
  have hok := h.ok.read n
  have hnrec := h.nrec
  have hb := h.ok.canon hc
  have hinp := h.inp
  have hrcd := h.rcd
  have hrl := h.rcdLen
  rw [hl, List.length_cons] at hnrec
  rw [hl, hb, List.append_nil, List.flatten_cons] at hinp
  rw [hl, List.map_cons, RingBuf.list_cons t.rcd (by omega) h.rcdHead] at hrcd
  obtain ⟨hfirst, htail⟩ := List.cons.inj hrcd
  have hlen : l.length ≤ t.inp.len := by
    have := congrArg List.length hinp
    rw [RingBuf.length_list, List.length_append] at this
    omega
  have hpos : l.length ≠ 0 := by simpa using hne
  have hmin : min l.length n ≤ t.inp.len := (min_le_left _ _).trans hlen
  have hbytes : (List.range (min l.length n)).map (t.inp.nth inQ) = l.take n := by
    rw [RingBuf.list_take _ hmin, hinp, List.take_append_of_le_length (min_le_left _ _),
      min_comm, ← List.take_take, List.take_length]
  rw [Tty.read_line hc hne hl] at hok ⊢
  unfold Pty.slaveRead
  rw [if_pos (by rw [← h.tio, hc]), if_neg (by omega)]
  simp only [hfirst, if_neg hpos, hbytes]
  refine ⟨⟨⟨h.tio, h.quoted, ?_, ?_, ?_, ?_, ?_, ?_, hok⟩, h.line, h.llen⟩, rfl⟩
  · show (t.inp.skip inQ (min l.length n)).list inQ = _
    rw [RingBuf.list_skip, hinp, hb, List.append_nil,
      List.drop_append_of_le_length (min_le_left _ _)]
    by_cases hd : l.drop n = []
    · rw [if_pos hd]
      rw [List.drop_eq_nil_iff] at hd
      rw [min_eq_left hd, List.drop_length, List.nil_append]
    · rw [if_neg hd, List.flatten_cons]
      rw [List.drop_eq_nil_iff, not_le] at hd
      rw [min_eq_right hd.le]
  · have hset := RingBuf.list_setFirst t.rcd (l.length - min l.length n) (by omega) hrl h.rcdHead
    rw [htail] at hset
    by_cases hd : l.drop n = []
    · have hd' := List.drop_eq_nil_iff.mp hd
      simp only [if_pos hd, if_pos (show l.length - min l.length n = 0 by omega)]
      rw [RingBuf.list_skip, hset, List.drop_one, List.tail_cons]
    · have hd' := hd
      rw [List.drop_eq_nil_iff, not_le] at hd'
      simp only [if_neg hd, if_neg (show ¬l.length - min l.length n = 0 by omega)]
      rw [hset, List.map_cons, List.length_drop, min_eq_right hd'.le]
  · show t.inp.len - min l.length n ≤ inQ
    have := h.inLen
    omega
  · exact Nat.mod_lt _ (by decide)
  · show RingBuf.len (if _ then _ else _) ≤ recs
    split_ifs
    · exact (Nat.sub_le _ _).trans hrl
    · exact hrl
  · show RingBuf.head (if _ then _ else _) < recs
    split_ifs
    · exact Nat.mod_lt _ (by decide)
    · exact h.rcdHead

/-- A read of raw mode. -/
theorem Sim.readRaw (h : Sim t T) (hc : T.tio.icanon = false) (n : ℕ) :
    Sim (t.slaveRead n).1 (T.read n).1 ∧ (t.slaveRead n).2.list = T.bytes.take n := by
  have hok := h.ok.read n
  have hraw := h.ok.raw hc
  have hinp := h.inp
  rw [hraw.1, List.flatten_nil, List.nil_append] at hinp
  have hlen : T.bytes.length = t.inp.len := by rw [← hinp, RingBuf.length_list]
  rw [Tty.read_raw hc] at hok ⊢
  unfold Pty.slaveRead
  rw [if_neg (by rw [← h.tio, hc]; simp)]
  by_cases h0 : t.inp.len = 0
  · have hb : T.bytes = [] := List.length_eq_zero_iff.mp (hlen.trans h0)
    rw [if_pos h0, hb]
    rw [hb] at hok
    simp only [List.drop_nil, List.take_nil, List.map_nil, List.append_nil] at hok ⊢
    refine ⟨⟨⟨h.tio, h.quoted, ?_, h.rcd, h.inLen, h.inHead, h.rcdLen, h.rcdHead, hok⟩, h.line,
      h.llen⟩, ?_⟩
    · rw [hinp, hb, hraw.1]
      rfl
    · split_ifs <;> rfl
  · rw [if_neg h0]
    have hbytes : (List.range (min t.inp.len n)).map (t.inp.nth inQ) = T.bytes.take n := by
      rw [RingBuf.list_take _ (min_le_left _ _), hinp, ← hlen, min_comm, ← List.take_take, List.take_length]
    simp only [hbytes]
    refine ⟨⟨⟨h.tio, h.quoted, ?_, h.rcd, ?_, Nat.mod_lt _ (by decide), h.rcdLen, h.rcdHead, hok⟩,
      h.line, h.llen⟩, rfl⟩
    · show (t.inp.skip inQ (min t.inp.len n)).list inQ = T.lines.flatten ++ T.bytes.drop n
      rw [RingBuf.list_skip, hinp, hraw.1, List.flatten_nil, List.nil_append]
      rcases le_total t.inp.len n with hle | hle
      · rw [min_eq_left hle, List.drop_of_length_le (by omega), List.drop_of_length_le (by omega)]
      · rw [min_eq_right hle]
    · show t.inp.len - min t.inp.len n ≤ inQ
      have := h.inLen
      omega

/-- A read: the two stay together, and the bytes are the items. -/
theorem Sim.slaveRead (h : Sim t T) (n : ℕ) :
    Sim (t.slaveRead n).1 (T.read n).1 ∧
      (t.slaveRead n).2.list = (T.read n).2.filterMap id := by
  have hsome : ∀ l : List UInt8, (l.map some).filterMap id = l := by
    intro l
    simp [List.filterMap_map]
  cases hc : T.tio.icanon with
  | false =>
    obtain ⟨h1, h2⟩ := h.readRaw hc n
    refine ⟨h1, ?_⟩
    rw [h2, Tty.read_raw hc, hsome]
  | true =>
    have hc' : t.tio.icanon = true := by rw [← h.tio, hc]
    cases hl : T.lines with
    | nil =>
      have h0 : t.rcd.len = 0 := by rw [← h.nrec, hl]; rfl
      rw [Tty.read_empty hc hl]
      unfold Pty.slaveRead
      rw [if_pos hc', if_pos h0]
      refine ⟨h, ?_⟩
      split_ifs <;> rfl
    | cons l ls =>
      by_cases hne : l = []
      · subst hne
        have hok := h.ok.read n
        have hrcd := h.rcd
        have hnrec := h.nrec
        have hrl := h.rcdLen
        rw [hl, List.length_cons] at hnrec
        rw [hl, List.map_cons, RingBuf.list_cons t.rcd (by omega) h.rcdHead] at hrcd
        obtain ⟨hfirst, htail⟩ := List.cons.inj hrcd
        rw [Tty.read_eof hc hl] at hok ⊢
        unfold Pty.slaveRead
        rw [if_pos hc', if_neg (by omega)]
        simp only [hfirst, List.length_nil, if_true]
        refine ⟨⟨⟨h.tio, h.quoted, ?_, ?_, h.inLen, h.inHead, ?_, Nat.mod_lt _ (by decide), hok⟩,
          h.line, h.llen⟩, rfl⟩
        · have := h.inp
          rw [hl] at this
          exact this
        · show (t.rcd.skip recs 1).list recs = _
          rw [RingBuf.list_skip, List.drop_one, htail]
        · exact (Nat.sub_le _ _).trans hrl
      · obtain ⟨h1, h2⟩ := h.readLine hc hne hl n
        refine ⟨h1, ?_⟩
        rw [h2, Tty.read_line hc hne hl, hsome]

/-! ## Settings -/

/-- The lines, read from the ring one after the other. -/
theorem unline_eq (inp : RingBuf UInt8) (eof : UInt8) (ls : List (List UInt8)) {start : ℕ}
    (hs : start < inQ)
    (h : ∀ i (hi : i < ls.flatten.length), inp.cell ((start + i) % inQ) = ls.flatten[i]) :
    unline inp eof start (ls.map List.length) =
      ls.flatMap fun l => if l = [] then [eof] else l := by
  induction ls generalizing start with
  | nil => rfl
  | cons l ls ih =>
    have hlen : (l :: ls).flatten.length = l.length + ls.flatten.length := by simp
    rw [List.map_cons, List.flatMap_cons]
    cases l with
    | nil =>
      rw [List.length_nil, unline, ih hs]
      · simp
      · intro i hi
        rw [h i (by rw [hlen]; simpa using hi)]
        simp
    | cons a l =>
      rw [List.length_cons, unline, if_neg (by simp), ih (Nat.mod_lt _ (by decide))]
      · congr 1
        apply List.ext_getElem
        · simp
        · intro i h1 h2
          rw [List.getElem_map, List.getElem_range,
            h i (by rw [hlen]; omega)]
          simp only [List.flatten_cons]
          rw [List.getElem_append_left h2]
      · intro i hi
        rw [Nat.mod_add_mod, Nat.add_assoc, h (l.length + 1 + i)
          (by rw [hlen, List.length_cons]; omega)]
        simp only [List.flatten_cons]
        rw [List.getElem_append_right (by simp)]
        congr 1
        simp

theorem eofs_eq (ls : List (List UInt8)) :
    ((ls.map List.length).filter (· = 0)).length = (ls.filter (· = [])).length := by
  rw [List.filter_map, List.length_map]
  congr 2
  funext l
  simp

theorem flatMap_no_eof (eof : UInt8) {ls : List (List UInt8)} (h : (ls.filter (· = [])).length = 0) :
    (ls.flatMap fun l => if l = [] then [eof] else l) = ls.flatten := by
  rw [List.length_eq_zero_iff, List.filter_eq_nil_iff] at h
  rw [List.flatMap_def]
  congr 1
  conv_rhs => rw [← List.map_id ls]
  apply List.map_congr_left
  intro l hl
  rw [if_neg (by simpa using h l hl)]
  rfl

theorem length_flatMap_eof (eof : UInt8) (ls : List (List UInt8)) :
    (ls.flatMap fun l => if l = [] then [eof] else l).length =
      ls.flatten.length + (ls.filter (· = [])).length := by
  induction ls with
  | nil => rfl
  | cons l ls ih =>
    rw [List.flatMap_cons, List.length_append, ih, List.flatten_cons, List.length_append]
    by_cases hl : l = []
    · subst hl
      simp
      omega
    · simp [hl]
      omega

/-- The ring after canonical mode was left, before the line being typed is added. -/
theorem Queued.unlined (h : Queued t T) (hb : T.bytes = []) (eof : UInt8) {r : RingBuf UInt8}
    (hr : r = if ((t.rcd.list recs).filter (· = 0)).length ≠ 0 ∧
        t.inp.len + ((t.rcd.list recs).filter (· = 0)).length ≤ inQ
      then t.inp.clear.putAll inQ (unline t.inp eof t.inp.head (t.rcd.list recs)) else t.inp) :
    r.list inQ = (if T.count + (T.lines.filter (· = [])).length ≤ inQ
      then T.lines.flatMap (fun l => if l = [] then [eof] else l) else T.lines.flatten) ∧
      r.len ≤ inQ ∧ r.head < inQ := by
  have hinp := h.inp
  rw [hb, List.append_nil] at hinp
  have hlen : T.lines.flatten.length = t.inp.len := by rw [← hinp, RingBuf.length_list]
  have hle := h.inLen
  rw [h.rcd, eofs_eq] at hr
  rw [h.count]
  by_cases h0 : (T.lines.filter (· = [])).length = 0
  · rw [if_neg (fun hx => hx.1 h0)] at hr
    rw [hr, flatMap_no_eof eof h0, if_pos (by omega)]
    exact ⟨hinp, hle, h.inHead⟩
  · by_cases hfits : t.inp.len + (T.lines.filter (· = [])).length ≤ inQ
    · rw [if_pos ⟨h0, hfits⟩] at hr
      have hun := unline_eq t.inp eof T.lines h.inHead (fun i hi => by
        have hi' : i < (t.inp.list inQ).length := by rw [hinp]; exact hi
        have := List.getElem_of_eq hinp hi'
        rw [← this]
        simp [RingBuf.list, RingBuf.nth])
      rw [hun] at hr
      have hfl := length_flatMap_eof eof T.lines
      have hclear : (t.inp.clear).len = 0 := rfl
      rw [if_pos hfits, hr]
      refine ⟨?_, ?_, ?_⟩
      · rw [RingBuf.list_putAll, RingBuf.list_clear, List.nil_append, hclear, Nat.sub_zero,
          List.take_of_length_le (by omega)]
      · rw [RingBuf.putAll_len, hclear]
        omega
      · rw [RingBuf.putAll_head]
        exact Nat.zero_lt_succ _
    · rw [if_neg (fun hx => hfits hx.2)] at hr
      rw [if_neg hfits, hr]
      exact ⟨hinp, hle, h.inHead⟩

/-- Canonical mode is left. -/
theorem Sim.leaveCanon (h : Sim t T) (hb : T.bytes = []) (tio : Termios)
    (hraw : tio.icanon = false) :
    Sim { t with tio := tio }.leaveCanon { T with tio := tio }.leaveCanon := by
  have hok := Tty.Ok.leaveCanon (t := { T with tio := tio }) hb h.ok.conserved hraw
  obtain ⟨eof, heof⟩ : ∃ eof, eof = if tio.veof ≠ 0 then tio.veof else 4 := ⟨_, rfl⟩
  obtain ⟨r, hr⟩ : ∃ r : RingBuf UInt8, r = if ((t.rcd.list recs).filter (· = 0)).length ≠ 0 ∧
        t.inp.len + ((t.rcd.list recs).filter (· = 0)).length ≤ inQ
      then t.inp.clear.putAll inQ (unline t.inp eof t.inp.head (t.rcd.list recs)) else t.inp := ⟨_, rfl⟩
  obtain ⟨h1, h2, h3⟩ := h.toQueued.unlined hb eof hr
  have ht : { t with tio := tio }.leaveCanon =
      { t with tio := tio, inp := r.putAll inQ t.line, line := [], rcd := t.rcd.clear } := by
    rw [hr, heof]
    unfold Pty.leaveCanon Pty.inPut
    dsimp only
    by_cases hx : ((t.rcd.list recs).filter (· = 0)).length ≠ 0 ∧
        t.inp.len + ((t.rcd.list recs).filter (· = 0)).length ≤ inQ
    · simp only [if_pos hx]
    · simp only [if_neg hx]
  have hT : Tty.leaveCanon { T with tio := tio } =
      { T with
        tio := tio, line := [], lines := []
        bytes := r.list inQ ++ t.line.take (inQ - r.len)
        log := (Tty.leaveCanon { T with tio := tio }).log } := by
    rw [← RingBuf.length_list inQ r, h1, ← h.line, heof]
    rfl
  rw [hT] at hok ⊢
  rw [ht]
  refine ⟨⟨rfl, h.quoted, ?_, ?_, ?_, ?_, Nat.zero_le _, Nat.zero_lt_succ _, hok⟩, rfl,
    Nat.zero_le _⟩
  · show (r.putAll inQ t.line).list inQ = _
    rw [RingBuf.list_putAll]
    rfl
  · rw [RingBuf.list_clear]
    rfl
  · show (r.putAll inQ t.line).len ≤ inQ
    rw [RingBuf.putAll_len]
    omega
  · show (r.putAll inQ t.line).head < inQ
    rw [RingBuf.putAll_head]
    exact h3

theorem Sim.setTermios (h : Sim t T) (tio : Termios) (flush : Bool) :
    Sim (t.setTermios tio flush) (T.setTermios tio flush) := by
  have hok := h.ok.setTermios tio flush
  -- after the flush, with the old settings
  obtain ⟨t', T', h', ht, htio, hti, hTi⟩ : ∃ (t' : Pty) (T' : Tty), Sim t' T' ∧ t'.tio = t.tio ∧
      T'.tio = T.tio ∧
      (if flush then ({ t with tio := tio } : Pty).flushInput else { t with tio := tio }) =
        { t' with tio := tio } ∧
      (if flush then ({ T with tio := tio } : Tty).discard else { T with tio := tio }) =
        { T' with tio := tio } := by
    cases flush with
    | true => exact ⟨t.flushInput, T.discard, h.toQueued.flushInput, rfl, rfl, rfl, rfl⟩
    | false => exact ⟨t, T, h, rfl, rfl, rfl, rfl⟩
  have hx : T.tio.icanon = t.tio.icanon := by rw [h.tio]
  have hstop : ∀ p : Pty, Sim p (T.setTermios tio flush) →
      Sim (if tio.ixon = true then p else { p with stopped := false })
        (T.setTermios tio flush) := by
    intro p hp
    split_ifs
    · exact hp
    · exact hp.frame rfl rfl rfl rfl rfl
  unfold Pty.setTermios
  simp only [hti]
  apply hstop
  unfold Tty.setTermios at hok ⊢
  simp only [hTi, hx] at hok ⊢
  have hlen : T'.bytes.length = t'.inp.len - T'.lines.flatten.length := by
    have := congrArg List.length h'.inp
    rw [RingBuf.length_list, List.length_append] at this
    omega
  by_cases hleave : (t.tio.icanon && !tio.icanon) = true
  · rw [if_pos hleave, if_pos hleave]
    simp only [Bool.and_eq_true, Bool.not_eq_true'] at hleave
    exact h'.leaveCanon (h'.ok.canon (by rw [htio, hx, hleave.1])) tio hleave.2
  rw [if_neg hleave] at hok ⊢
  rw [if_neg hleave]
  by_cases henter : (!t.tio.icanon && tio.icanon) = true
  · simp only [henter, Bool.true_and] at hok ⊢
    simp only [Bool.and_eq_true, Bool.not_eq_true'] at henter
    obtain ⟨hl, hline⟩ := h'.ok.raw (by rw [htio, hx, henter.1])
    rw [hl, List.flatten_nil, List.length_nil, Nat.sub_zero] at hlen
    rw [hlen] at hok ⊢
    have hinp := h'.inp
    rw [hl, List.flatten_nil, List.nil_append] at hinp
    by_cases h0 : t'.inp.len = 0
    · simp only [h0, bne_self_eq_false, Bool.false_eq_true, if_false] at hok ⊢
      exact ⟨⟨rfl, h'.quoted, h'.inp, h'.rcd, h'.inLen, h'.inHead, h'.rcdLen, h'.rcdHead, hok⟩,
        h'.line, h'.llen⟩
    · have hne : (t'.inp.len != 0) = true := by simpa using h0
      simp only [hne, if_true] at hok ⊢
      refine ⟨⟨rfl, h'.quoted, ?_, ?_, h'.inLen, h'.inHead, ?_, ?_, hok⟩, h'.line, h'.llen⟩
      · show t'.inp.list inQ = _
        rw [hinp]
        simp
      · simp [RingBuf.list, RingBuf.nth, recs, hlen]
      · show 1 ≤ recs
        decide
      · show 0 < recs
        decide
  · have hz : (!t.tio.icanon && tio.icanon) = false := by simpa using henter
    simp only [hz, Bool.false_and, Bool.false_eq_true, if_false] at hok ⊢
    exact ⟨⟨rfl, h'.quoted, h'.inp, h'.rcd, h'.inLen, h'.inHead, h'.rcdLen, h'.rcdHead, hok⟩,
      h'.line, h'.llen⟩

/-! ## Runs -/

/-- A call on either end keeps the two together. -/
theorem Sim.step (h : Sim t T) (op : Op) : Sim (t.step op) (T.step op) := by
  cases op with
  | masterWrite l => exact h.masterWrite l
  | slaveRead n => exact (h.slaveRead n).1
  | setTermios tio flush => exact h.setTermios tio flush
  | masterRead n =>
    show Sim (t.masterRead n).1 T
    unfold Pty.masterRead
    split_ifs
    · exact h
    · exact h
    · exact h.frame rfl rfl rfl rfl rfl
  | slaveWrite l =>
    show Sim (t.slaveWrite l).1 T
    unfold Pty.slaveWrite
    split_ifs
    · exact h
    · exact h
    · exact h.frame rfl rfl rfl rfl rfl
  | flush queue =>
    show Sim (t.flush queue) (if queue = 0 ∨ queue = 2 then T.discard else T)
    unfold Pty.flush
    split_ifs
    · exact h.toQueued.flushInput.frame rfl rfl rfl rfl rfl
    · exact h.toQueued.flushInput
    · exact h.frame rfl rfl rfl rfl rfl
    · exact h
  | masterRef delta =>
    show Sim (t.masterRef delta) T
    unfold Pty.masterRef
    dsimp only
    split_ifs <;> exact h.frame rfl rfl rfl rfl rfl
  | slaveRef delta => exact h.frame rfl rfl rfl rfl rfl
  | takeEvents => exact h.frame rfl rfl rfl rfl rfl

theorem Sim.run (h : Sim t T) (ops : List Op) : Sim (t.run ops) (T.run ops) := by
  induction ops generalizing t T with
  | nil => exact h
  | cons op ops ih => exact ih (h.step op)

/-- The bytes that the slave's reads return in a run. -/
def reads : Pty → List Op → List UInt8
  | _, [] => []
  | t, .slaveRead n :: ops => (t.slaveRead n).2.list ++ reads (t.slaveRead n).1 ops
  | t, op :: ops => reads (t.step op) ops

/-- A step that is no read gives nothing. -/
theorem given_step (T : Tty) {op : Op} (h : ∀ n, op ≠ .slaveRead n) :
    (T.step op).given = T.given := by
  have hd : ∀ T : Tty, T.discard.given = T.given := fun _ => rfl
  have htype : ∀ (T : Tty) (c : UInt8), (T.type c).1.given = T.given := by
    intro T c
    unfold Tty.type
    cases key T.tio T.quoted c with
    | signal =>
      simp only [Tty.act]
      split_ifs
      · rfl
      · exact hd T
    | eof =>
      simp only [Tty.act, Tty.complete]
      split_ifs <;> rfl
    | eol c =>
      simp only [Tty.act, Tty.complete]
      split_ifs <;> rfl
    | char c =>
      simp only [Tty.act, Tty.insert]
      split_ifs <;> rfl
    | ignore => rfl
    | quote => rfl
    | erase => rfl
    | werase => rfl
    | kill => rfl
  cases op with
  | masterWrite l =>
    show (T.write l).given = T.given
    induction l generalizing T with
    | nil => rfl
    | cons c l ih =>
      have hc := htype T c
      unfold Tty.write
      cases htc : T.type c with
      | mk T' b =>
        rw [htc] at hc
        cases b with
        | false => exact hc
        | true => exact (ih T' (by simp)).trans hc
  | slaveRead n => exact absurd rfl (h n)
  | setTermios tio flush =>
    show (T.setTermios tio flush).given = T.given
    unfold Tty.setTermios
    dsimp only
    split_ifs <;> rfl
  | flush queue =>
    show Tty.given (if queue = 0 ∨ queue = 2 then T.discard else T) = _
    split_ifs <;> rfl
  | masterRead n => rfl
  | slaveWrite l => rfl
  | masterRef delta => rfl
  | slaveRef delta => rfl
  | takeEvents => rfl

/-- What the reads of a run return is what the terminal without rings gave. -/
theorem Sim.reads (h : Sim t T) (ops : List Op) :
    T.given.filterMap id ++ t.reads ops = (T.run ops).given.filterMap id := by
  induction ops generalizing t T with
  | nil => exact List.append_nil _
  | cons op ops ih =>
    have hrun : T.run (op :: ops) = (T.step op).run ops := rfl
    rw [hrun]
    by_cases hop : ∃ n, op = .slaveRead n
    · obtain ⟨n, rfl⟩ := hop
      have hr := h.slaveRead n
      have hg : (T.step (.slaveRead n)).given = T.given ++ (T.read n).2 := by
        show (T.read n).1.given = _
        unfold Tty.read
        split_ifs
        · split
          · exact (List.append_nil _).symm
          · rfl
          · rfl
        · rfl
      rw [← ih (h.step (.slaveRead n)), hg, List.filterMap_append, List.append_assoc, ← hr.2]
      rfl
    · have hno : ∀ n, op ≠ .slaveRead n := fun n hx => hop ⟨n, hx⟩
      have hreads : t.reads (op :: ops) = (t.step op).reads ops := by
        cases op with
        | slaveRead n => exact absurd rfl (hno n)
        | _ => rfl
      rw [hreads, ← ih (h.step op), given_step T hno]

theorem Queued.waiting (h : Queued t T) : t.inp.list inQ = T.unread.filterMap id := by
  have hitems : ∀ l : List UInt8, (items l).filterMap id = l := by
    intro l
    by_cases hl : l = []
    · rw [hl]
      rfl
    · simp [items, hl, List.filterMap_map]
  rw [h.inp, Tty.unread, List.filterMap_append, List.filterMap_flatMap]
  congr 1
  · rw [List.flatMap_def, List.map_congr_left (fun l _ => hitems l), List.map_id']
  · simp [List.filterMap_map]

/-- **The line discipline.**  Beside every run of calls goes a run of the terminal without rings.
In canonical mode the lengths of the records add up to the waiting bytes and there are no more than
the table has; in raw mode there are none.  A read of canonical mode returns bytes of the first
line only.  And what the reads returned, followed by what waits, is, in order, what was typed as the
editing left it, without what found no room and what was flushed. -/
theorem line_discipline (ops : List Op) :
    ((ptyNew.run ops).tio.icanon = true →
      ((ptyNew.run ops).rcd.list recs).sum = (ptyNew.run ops).inp.len ∧
        (ptyNew.run ops).rcd.len ≤ recs ∧
        ∀ n, ((ptyNew.run ops).slaveRead n).2.list = ((Tty.new.run ops).lines.headD []).take n) ∧
    ((ptyNew.run ops).tio.icanon = false → (ptyNew.run ops).rcd.len = 0) ∧
    ptyNew.reads ops ++ (ptyNew.run ops).inp.list inQ =
      (kept (Tty.new.run ops).log).filterMap id := by
  have h := Sim.new.run ops
  have hr := Sim.new.reads ops
  have hnil : Tty.new.given.filterMap id = [] := rfl
  rw [hnil, List.nil_append] at hr
  generalize ptyNew.run ops = t at *
  generalize Tty.new.run ops = T at *
  refine ⟨fun hc => ⟨?_, h.rcdLen, fun n => ?_⟩, fun hc => ?_, ?_⟩
  · have hb := h.ok.canon (by rw [h.tio, hc])
    rw [h.rcd, ← h.count, Tty.count, hb, List.length_nil, Nat.add_zero, List.length_flatten]
  · have hc' : T.tio.icanon = true := by rw [h.tio, hc]
    cases hl : T.lines with
    | nil =>
      rw [(h.slaveRead n).2, Tty.read_empty hc' hl]
      simp
    | cons l ls =>
      by_cases hne : l = []
      · subst hne
        rw [(h.slaveRead n).2, Tty.read_eof hc' hl]
        simp
      · exact (h.readLine hc' hne hl n).2
  · have hraw := h.ok.raw (by rw [h.tio, hc])
    rw [← h.nrec, hraw.1]
    rfl
  · rw [hr, h.toQueued.waiting, ← List.filterMap_append, h.ok.conserved]

/-- The settings of a program that edits its lines itself. -/
def rawTermios : Termios := { Termios.defaults with icanon := false, echo := false }

/-- Two lines typed in canonical mode, that raw mode was turned on and off over, come back in one
read. -/
theorem slaveRead_two_lines :
    (ptyNew.run [.masterWrite [97, 10, 98, 10]]).rcd.list recs = [2, 2] ∧
      ((ptyNew.run [.masterWrite [97, 10, 98, 10], .setTermios rawTermios false,
        .setTermios Termios.defaults false]).slaveRead 100).2 = .bytes [97, 10, 98, 10] := by
  decide

end

end Pty

end BananaOS.Terminal
