import BananaOS.Terminal.Line

/-!
# What the output is for

The bytes a program writes, and the echo, go through `out_char` into one queue.  Here is what that is
to be: the form of each byte (`processed`), which depends on the column only where a tab is expanded
or a carriage return at the start of a line is dropped, and where a screen's cursor is after what went
out (`cursor`).  The queue takes a byte's form whole or not at all (`outChar_room`, `outChar_full`): a
form has eight bytes at most, and the room for eight is asked for before.

**The column is the cursor's, as far as `OPOST` was on.**  Bytes that go out with `OPOST` off are not
followed, so after settings that turned it off and on again the column is that of the processed bytes
alone (`Pty.run_column`).
-/

namespace BananaOS.Terminal

open Lib

/-! ## The form of a byte -/

/-- Where the cursor is after a byte went out.  With `ONLRET` a line feed also returns. -/
def cursor (tio : Termios) (col : UInt32) (c : UInt8) : UInt32 :=
  if c = 10 then if tio.onlret then 0 else col
  else if c = 13 then 0
  else if c = 9 then (col ||| 7) + 1
  else if c = 8 then if col = 0 then 0 else col - 1
  else if 32 ≤ c ∧ c &&& 0xC0 ≠ 0x80 ∧ c ≠ 127 then col + 1
  else col

/-- What goes out for a byte. -/
def processed (tio : Termios) (col : UInt32) (c : UInt8) : List UInt8 :=
  if tio.opost = false then [c]
  else if c = 10 then if tio.onlcr then [13, 10] else [10]
  else if c = 13 then if tio.onocr ∧ col = 0 then [] else if tio.ocrnl then [10] else [13]
  else if c = 9 ∧ tio.xtabs then List.replicate (8 - (col % 8).toNat) 32
  else [c]

/-- The cursor after all that goes out for a byte. -/
def after (tio : Termios) (col : UInt32) (c : UInt8) : UInt32 :=
  (processed tio col c).foldl (cursor tio) col

/-- The column after a byte: with `OPOST` off it stays. -/
def column (tio : Termios) (col : UInt32) (c : UInt8) : UInt32 :=
  if tio.opost then after tio col c else col

/-- What goes out for bytes one after the other. -/
def form (tio : Termios) : UInt32 → List UInt8 → List UInt8
  | _, [] => []
  | col, c :: l => processed tio col c ++ form tio (column tio col c) l

variable {tio : Termios} {o : Out} {c : UInt8} {l : List UInt8} {col : UInt32}

theorem processed_of_opost (h : tio.opost = true) : processed tio col c =
    if c = 10 then if tio.onlcr then [13, 10] else [10]
    else if c = 13 then if tio.onocr ∧ col = 0 then [] else if tio.ocrnl then [10] else [13]
    else if c = 9 ∧ tio.xtabs then List.replicate (8 - (col % 8).toNat) 32
    else [c] := if_neg (by simp [h])

theorem length_processed_le : (processed tio col c).length ≤ 8 := by
  unfold processed
  split_ifs <;> simp

theorem cursor_spaces (n : ℕ) (col : UInt32) :
    (List.replicate n (32 : UInt8)).foldl (cursor tio) col = col + n.toUInt32 := by
  induction n generalizing col with
  | zero => simp
  | succ n ih =>
    rw [List.replicate_succ, List.foldl_cons, ih]
    have hspace : cursor tio col 32 = col + 1 := rfl
    have hsucc : (n + 1).toUInt32 = 1 + n.toUInt32 := by
      rw [Nat.add_comm]
      exact UInt32.ofNat_add 1 n
    rw [hspace, hsucc, UInt32.add_assoc]

/-! ## One byte into the queue -/

namespace Out

theorem outPut_room (h : o.queue.length < outQ) (c : UInt8) :
    o.outPut c = { o with queue := o.queue ++ [c] } := if_neg (by omega)

theorem outPut_iterate {n : ℕ} (h : o.queue.length + n ≤ outQ) (c : UInt8) :
    Nat.iterate (fun o => outPut o c) n o = ⟨o.queue ++ List.replicate n c, o.column⟩ := by
  induction n generalizing o with
  | zero => simp
  | succ n ih =>
    rw [Function.iterate_succ_apply, outPut_room (by omega), ih (by simp; omega), List.append_assoc,
      List.replicate_succ, List.singleton_append]

theorem outChar_full (h : outQ - o.queue.length < 8) : o.outChar tio c = (o, 0) := if_pos h

/-- Where there is, the byte's form goes out whole. -/
theorem outChar_room (h : ¬ outQ - o.queue.length < 8) :
    (o.outChar tio c).1 =
        ⟨o.queue ++ processed tio o.column c, Terminal.column tio o.column c⟩ ∧
      (o.outChar tio c).2 ≠ 0 := by
  have hroom : o.queue.length < outQ := by omega
  have hput : ∀ b, o.outPut b = ⟨o.queue ++ [b], o.column⟩ := outPut_room hroom
  have hput2 : ∀ a b, (⟨o.queue ++ [a], o.column⟩ : Out).outPut b =
      ⟨o.queue ++ [a, b], o.column⟩ := by
    intro a b
    rw [outPut_room (by simp; omega), List.append_assoc]
    rfl
  unfold outChar Terminal.column after
  rw [if_neg h]
  by_cases hpost : tio.opost = true
  · rw [if_neg (not_not.mpr hpost), if_pos hpost]
    simp only [processed_of_opost hpost, hput, hput2]
    by_cases h10 : c = 10
    · subst h10
      by_cases hnl : tio.onlcr = true
      · simp [hnl, cursor]
      · by_cases hret : tio.onlret = true
        · simp [hnl, hret, cursor, outPut_room (o := ⟨o.queue, 0⟩) hroom]
        · simp [hnl, hret, cursor, hput]
    by_cases h13 : c = 13
    · subst h13
      by_cases hcr : tio.onocr = true ∧ o.column = 0
      · simp only [if_pos hcr]
        simp
      · by_cases hnl : tio.ocrnl = true
        · simp [hcr, hnl, cursor]
        · simp [hcr, hnl, cursor]
    by_cases h9 : c = 9
    · subst h9
      by_cases htab : tio.xtabs = true
      · rw [outPut_iterate (by omega)]
        have hpos : 8 - (o.column % 8).toNat ≠ 0 := by
          rw [UInt32.toNat_mod]
          have := Nat.mod_lt o.column.toNat (show 0 < (8 : UInt32).toNat by decide)
          simp only [UInt32.reduceToNat] at this ⊢
          omega
        simpa [htab, cursor_spaces] using hpos
      · simp [htab, cursor]
    simp only [h10, h13, h9, false_and, if_false, List.foldl_cons, List.foldl_nil]
    by_cases h8 : c = 8
    · by_cases h0 : o.column = 0 <;> simp [h8, h0, cursor]
    · simp [h8, h10, h13, h9, cursor]
  · rw [if_pos hpost, if_neg hpost, hput]
    refine ⟨?_, Nat.one_ne_zero⟩
    rw [processed, if_pos (by simpa using hpost)]

/-! ## Bytes one after the other -/

/-- The bytes that found room. -/
def taken (tio : Termios) : Out → List UInt8 → List UInt8
  | _, [] => []
  | o, c :: l =>
    if (o.outChar tio c).2 = 0 then taken tio o l else c :: taken tio (o.outChar tio c).1 l

/-- The column is that after the bytes that found room. -/
theorem outChars_column (o : Out) (l : List UInt8) :
    (o.outChars tio l).column = (o.taken tio l).foldl (Terminal.column tio) o.column := by
  induction l generalizing o with
  | nil => rfl
  | cons c l ih =>
    rw [outChars, taken, ih]
    by_cases h : outQ - o.queue.length < 8
    · rw [outChar_full h, if_pos rfl]
    · obtain ⟨hout, hroom⟩ := outChar_room (c := c) h
      rw [if_neg hroom, List.foldl_cons, hout]

end Out

/-- What a write puts into the queue: the form of the bytes it takes, each whole, and it takes all up
to one that finds no room. -/
theorem Pty.writeChars_eq (o : Out) (l : List UInt8) :
    (writeChars tio o l).2 ≤ l.length ∧
      (writeChars tio o l).1.queue = o.queue ++ form tio o.column (l.take (writeChars tio o l).2) ∧
      (writeChars tio o l).1.column =
        (l.take (writeChars tio o l).2).foldl (column tio) o.column ∧
      ((writeChars tio o l).2 < l.length → outQ - (writeChars tio o l).1.queue.length < 8) := by
  induction l generalizing o with
  | nil => simp [writeChars, form]
  | cons c l ih =>
    by_cases h : outQ - o.queue.length < 8
    · have hfull : writeChars tio o (c :: l) = (o, 0) := by
        rw [writeChars, Out.outChar_full h]
        rfl
      rw [hfull]
      simp [form, h]
    · obtain ⟨hout, hroom⟩ := Out.outChar_room (c := c) h
      have hrest : writeChars tio o (c :: l) =
          ((writeChars tio (o.outChar tio c).1 l).1, (writeChars tio (o.outChar tio c).1 l).2 + 1) := by
        rw [writeChars, if_neg hroom]
      obtain ⟨hle, hqueue, hcolumn, hstop⟩ := ih (o.outChar tio c).1
      rw [hrest]
      refine ⟨Nat.succ_le_succ hle, ?_, ?_, fun hlt => hstop (Nat.lt_of_succ_lt_succ hlt)⟩
      · rw [hqueue, hout, List.take_succ_cons, form, List.append_assoc]
      · rw [hcolumn, hout, List.take_succ_cons, List.foldl_cons]

/-! ## The echo -/

/-- The bytes that `echo_char` sends. -/
def echoBytes (tio : Termios) (c : UInt8) : List UInt8 :=
  if tio.echoctl ∧ ((c < 32 ∧ c ≠ 9 ∧ c ≠ 10) ∨ c = 127) then
    [94, if c = 127 then 63 else c + 64]
  else [c]

theorem Out.echoChar_eq (o : Out) (c : UInt8) : o.echoChar tio c = o.outChars tio (echoBytes tio c) := by
  unfold echoChar echoBytes
  split_ifs <;> rfl

theorem Out.outChars_append (o : Out) (l l' : List UInt8) :
    o.outChars tio (l ++ l') = (o.outChars tio l).outChars tio l' := by
  induction l generalizing o with
  | nil => rfl
  | cons c l ih => exact ih _

/-- What a call sends to the queue before and after a flush of it. -/
structure Sent where
  flushed : Bool
  bytes : List UInt8

namespace Pty

variable (t : Pty)

/-- What `erase_one` sends. -/
def eraseOneSends : List UInt8 :=
  if t.line = [] then []
  else if t.tio.echo && t.tio.echoe then
    (List.replicate (Out.lastWidth t.tio
      (t.line.getD (eraseAt t.tio.iutf8 t.line (t.line.length - 1)) 0)) [8, 32, 8]).flatten
  else []

def eraseWhileSends (p : UInt8 → Bool) (t : Pty) : List UInt8 :=
  if _h : t.line ≠ [] ∧ p (t.line.getLastD 0) then
    t.eraseOneSends ++ eraseWhileSends p t.eraseOne
  else []
termination_by t.line.length
decreasing_by exact t.eraseOne_line_lt _h.1

/-- What `if (lf & ECHO) echo_char` sends. -/
def echoSends (c : UInt8) : List UInt8 := if t.tio.echo then echoBytes t.tio c else []

/-- What a byte of canonical mode sends. -/
def typeCanonSends (c : UInt8) : List UInt8 :=
  if t.tio.iexten && hits c t.tio.vlnext then
    if t.tio.echo && t.tio.echoctl then [94, 8] else []
  else if hits c t.tio.verase then t.eraseOneSends
  else if t.tio.iexten && hits c t.tio.vwerase then
    t.eraseWhileSends isSpace ++ (t.eraseWhile isSpace).eraseWhileSends fun c => !isSpace c
  else if hits c t.tio.vkill then
    if t.tio.echo && t.tio.echoke then t.eraseWhileSends fun _ => true
    else if t.tio.echo && t.tio.echok then [10] else []
  else if t.tio.iexten && hits c t.tio.vreprint then
    if t.tio.echo then echoBytes t.tio c ++ [10] ++ t.line.flatMap (echoBytes t.tio) else []
  else if hits c t.tio.veof then []
  else if t.tio.echo ∨ (c = 10 ∧ t.tio.echonl) then echoBytes t.tio c else []

/-- What a byte sends that does not stop or start the output. -/
def typeSigSends (c : UInt8) : Sent :=
  if t.tio.isig && (hits c t.tio.vintr || hits c t.tio.vquit || hits c t.tio.vsusp) then
    ⟨!t.tio.noflsh, t.echoSends c⟩
  else if t.tio.icanon then ⟨false, t.typeCanonSends c⟩
  else ⟨false, if t.inRoom ≠ 0 then t.echoSends c else []⟩

/-- What a typed byte sends. -/
def typeSends (c : UInt8) : Sent :=
  if t.lnext then
    ⟨false, if t.tio.icanon = true ∨ t.inRoom ≠ 0 then t.echoSends c else []⟩
  else
    match translate t.tio c with
    | none => ⟨false, []⟩
    | some c =>
      if t.tio.ixon && (hits c t.tio.vstop || hits c t.tio.vstart) then ⟨false, []⟩
      else typeSigSends (if t.tio.ixon && t.tio.ixany then { t with stopped := false } else t) c

/-- The queue after a flush, or as it is. -/
def flushOut (flushed : Bool) (o : Out) : Out := if flushed then { o with queue := [] } else o

/-- From `t` to `t'` these bytes were sent, and nothing else happened to the queue. -/
def Sends (t : Pty) (s : Sent) (t' : Pty) : Prop :=
  t'.tio = t.tio ∧ t'.out = (flushOut s.flushed t.out).outChars t.tio s.bytes

variable {t}

theorem Sends.same {t' : Pty} (htio : t'.tio = t.tio) (hout : t'.out = t.out) :
    Sends t ⟨false, []⟩ t' := ⟨htio, hout⟩

theorem Sends.of_same {t₁ t' : Pty} {s : Sent} (htio : t₁.tio = t.tio) (hout : t₁.out = t.out)
    (h : Sends t₁ s t') : Sends t s t' := by
  unfold Sends at h ⊢
  rwa [htio, hout] at h

theorem Sends.trans {t' t'' : Pty} {a b : List UInt8} {f : Bool} (h : Sends t ⟨f, a⟩ t')
    (h' : Sends t' ⟨false, b⟩ t'') : Sends t ⟨f, a ++ b⟩ t'' := by
  refine ⟨h'.1.trans h.1, ?_⟩
  rw [h'.2, h.1, Out.outChars_append, ← h.2]
  rfl

theorem sends_eraseOne : Sends t ⟨false, t.eraseOneSends⟩ t.eraseOne := by
  unfold eraseOneSends eraseOne
  split_ifs <;> exact ⟨rfl, rfl⟩

theorem sends_eraseWhile (p : UInt8 → Bool) (t : Pty) :
    Sends t ⟨false, t.eraseWhileSends p⟩ (t.eraseWhile p) := by
  fun_induction Pty.eraseWhile p t with
  | case1 t h ih =>
    rw [eraseWhileSends, dif_pos h]
    exact sends_eraseOne.trans ih
  | case2 t h =>
    rw [eraseWhileSends, dif_neg h]
    exact .same rfl rfl

theorem sends_lineDone : Sends t ⟨false, []⟩ t.lineDone := by
  unfold lineDone
  split_ifs
  · exact .same rfl rfl
  · exact .same rfl rfl

theorem sends_echo (c : UInt8) : Sends t ⟨false, t.echoSends c⟩ (t.echo c) := by
  unfold echoSends echo
  split_ifs
  · exact ⟨rfl, Out.echoChar_eq _ _⟩
  · exact .same rfl rfl

theorem foldl_echoChar (o : Out) (l : List UInt8) :
    l.foldl (fun o c => o.echoChar tio c) o = o.outChars tio (l.flatMap (echoBytes tio)) := by
  induction l generalizing o with
  | nil => rfl
  | cons c l ih =>
    rw [List.foldl_cons, ih, List.flatMap_cons, Out.outChars_append, Out.echoChar_eq]

theorem sends_typeCanon (c : UInt8) : Sends t ⟨false, t.typeCanonSends c⟩ (t.typeCanon c) := by
  unfold typeCanonSends typeCanon
  by_cases hlnext : (t.tio.iexten && hits c t.tio.vlnext) = true
  · rw [if_pos hlnext, if_pos hlnext]
    split_ifs <;> exact ⟨rfl, rfl⟩
  rw [if_neg hlnext, if_neg hlnext]
  by_cases herase : hits c t.tio.verase = true
  · rw [if_pos herase, if_pos herase]
    exact sends_eraseOne
  rw [if_neg herase, if_neg herase]
  by_cases hwerase : (t.tio.iexten && hits c t.tio.vwerase) = true
  · rw [if_pos hwerase, if_pos hwerase]
    exact (sends_eraseWhile _ _).trans (sends_eraseWhile _ _)
  rw [if_neg hwerase, if_neg hwerase]
  by_cases hkill : hits c t.tio.vkill = true
  · rw [if_pos hkill, if_pos hkill]
    split_ifs
    · exact sends_eraseWhile _ _
    · exact ⟨rfl, rfl⟩
    · exact ⟨rfl, rfl⟩
  rw [if_neg hkill, if_neg hkill]
  by_cases hreprint : (t.tio.iexten && hits c t.tio.vreprint) = true
  · rw [if_pos hreprint, if_pos hreprint]
    split_ifs
    · refine ⟨rfl, ?_⟩
      rw [Out.outChars_append, Out.outChars_append, ← foldl_echoChar, ← Out.echoChar_eq]
      rfl
    · exact .same rfl rfl
  rw [if_neg hreprint, if_neg hreprint]
  by_cases heof : hits c t.tio.veof = true
  · rw [if_pos heof, if_pos heof]
    exact sends_lineDone
  rw [if_neg heof, if_neg heof]
  -- the line takes the byte, the byte is echoed, and the line may be complete
  dsimp only
  generalize hline : (if t.line.length < lineMax - 1 ∨
      (c == 10 || hits c t.tio.veol || hits c t.tio.veol2) = true ∧ t.line.length < lineMax
    then { t with line := t.line ++ [c] } else t) = t₁
  have h₁ : t₁.tio = t.tio ∧ t₁.out = t.out := by
    subst hline
    split_ifs <;> exact ⟨rfl, rfl⟩
  generalize hecho : (if t₁.tio.echo = true ∨ c = 10 ∧ t₁.tio.echonl = true
    then { t₁ with out := t₁.out.echoChar t₁.tio c } else t₁) = t₂
  have h₂ : Sends t ⟨false, if t.tio.echo = true ∨ c = 10 ∧ t.tio.echonl = true
      then echoBytes t.tio c else []⟩ t₂ := by
    subst hecho
    rw [h₁.1]
    split_ifs
    · exact ⟨rfl, by rw [Out.echoChar_eq, h₁.2]; rfl⟩
    · exact .same h₁.1 h₁.2
  split_ifs at h₂ ⊢
  · simpa using h₂.trans sends_lineDone
  · exact h₂
  · simpa using h₂.trans sends_lineDone
  · exact h₂

theorem sends_typeRaw (c : UInt8) :
    Sends t ⟨false, if t.inRoom ≠ 0 then t.echoSends c else []⟩ (t.typeRaw c).1 := by
  unfold typeRaw
  by_cases h : t.inRoom = 0
  · rw [if_pos h, if_neg (not_not.mpr h)]
    exact .same rfl rfl
  · rw [if_neg h, if_pos h]
    exact sends_echo (t := t.inPut [c]) c

theorem sends_signal (c : UInt8) {t' : Pty} (htio : t'.tio = t.tio) (hout : t'.out = t.out) :
    Sends t ⟨!t.tio.noflsh, t.echoSends c⟩ (t.signal c t') := by
  unfold signal
  by_cases hn : t.tio.noflsh = true
  · rw [if_pos hn, hn]
    have h := sends_echo (t := t') c
    unfold Sends echoSends at h ⊢
    rwa [htio, hout] at h
  · have hn' : t.tio.noflsh = false := by simpa using hn
    rw [if_neg hn, hn']
    have h := sends_echo (t := { t'.flushInput with out := { t'.out with queue := [] } }) c
    unfold Sends echoSends at h ⊢
    simp only [flushInput, htio, hout] at h ⊢
    exact h

theorem sends_typeSig (c : UInt8) : Sends t (t.typeSigSends c) (t.typeSig c).1 := by
  unfold typeSigSends typeSig
  by_cases hint : (t.tio.isig && hits c t.tio.vintr) = true
  · rw [if_pos hint, if_pos (by simp_all)]
    exact sends_signal c rfl rfl
  rw [if_neg hint]
  by_cases hquit : (t.tio.isig && hits c t.tio.vquit) = true
  · rw [if_pos hquit, if_pos (by simp_all)]
    exact sends_signal c rfl rfl
  rw [if_neg hquit]
  by_cases hsusp : (t.tio.isig && hits c t.tio.vsusp) = true
  · rw [if_pos hsusp, if_pos (by simp_all)]
    exact sends_signal c rfl rfl
  rw [if_neg hsusp, if_neg (by simp_all)]
  by_cases hcanon : t.tio.icanon = true
  · rw [if_pos hcanon, if_pos hcanon]
    exact sends_typeCanon c
  · rw [if_neg hcanon, if_neg hcanon]
    exact sends_typeRaw c

/-- A typed byte changes the queue by what it sends. -/
theorem sends_typeChar (c : UInt8) : Sends t (t.typeSends c) (t.typeChar c).1 := by
  unfold typeSends typeChar
  by_cases hlnext : t.lnext = true
  · rw [if_pos hlnext, if_pos hlnext]
    unfold typeQuoted
    by_cases hcanon : t.tio.icanon = true
    · rw [if_pos hcanon, if_pos (.inl hcanon)]
      split_ifs
      · exact sends_echo (t := { t with lnext := false, line := t.line ++ [c] }) c
      · exact sends_echo (t := { t with lnext := false }) c
    · rw [if_neg hcanon]
      have hraw : Sends t ⟨false, if t.inRoom ≠ 0 then t.echoSends c else []⟩
          (typeRaw { t with lnext := false } c).1 :=
        (sends_typeRaw (t := { t with lnext := false }) c).of_same rfl rfl
      by_cases hroom : t.inRoom = 0
      · rw [if_neg (by simp [hcanon, hroom])]
        rwa [if_neg (not_not.mpr hroom)] at hraw
      · rw [if_pos (.inr hroom)]
        rwa [if_pos hroom] at hraw
  rw [if_neg hlnext, if_neg hlnext]
  cases translate t.tio c with
  | none => exact .same rfl rfl
  | some c =>
    dsimp only
    unfold typeFlow
    by_cases hstop : (t.tio.ixon && hits c t.tio.vstop) = true
    · rw [if_pos hstop, if_pos (by simp_all)]
      exact .same rfl rfl
    rw [if_neg hstop]
    by_cases hstart : (t.tio.ixon && hits c t.tio.vstart) = true
    · rw [if_pos hstart, if_pos (by simp_all)]
      exact .same rfl rfl
    rw [if_neg hstart, if_neg (by simp_all)]
    refine Sends.of_same ?_ ?_ (sends_typeSig c)
    · split_ifs <;> rfl
    · split_ifs <;> rfl

/-! ## What went out since the start -/

/-- The bytes of the echo that found room. -/
def typedTaken : Pty → List UInt8 → List UInt8
  | _, [] => []
  | t, c :: l =>
    let s := t.typeSends c
    (flushOut s.flushed t.out).taken t.tio s.bytes ++
      match t.typeChar c with
      | (_, false) => []
      | (t', true) => typedTaken t' l

/-- How many of the bytes a program writes are taken. -/
def writeTakes (t : Pty) (l : List UInt8) : ℕ :=
  if t.hung ∨ t.stopped then 0 else (writeChars t.tio t.out l).2

/-- The bytes that a call put into the queue, each with the settings of that moment. -/
def opTaken (t : Pty) : Op → List (Termios × UInt8)
  | .masterWrite l => (t.typedTaken l).map (t.tio, ·)
  | .slaveWrite l => (l.take (t.writeTakes l)).map (t.tio, ·)
  | _ => []

/-- The whole stream since the start. -/
def stream : Pty → List Op → List (Termios × UInt8)
  | _, [] => []
  | t, op :: ops => opTaken t op ++ stream (t.step op) ops

end Pty

/-- The column after a stream: the cursor's, as far as `OPOST` was on. -/
def columnOf (col : UInt32) (h : List (Termios × UInt8)) : UInt32 :=
  h.foldl (fun col p => column p.1 col p.2) col

/-- Where the cursor is after a stream, all of it. -/
def cursorOf (col : UInt32) (h : List (Termios × UInt8)) : UInt32 :=
  h.foldl (fun col p => after p.1 col p.2) col

theorem columnOf_append (h h' : List (Termios × UInt8)) :
    columnOf col (h ++ h') = columnOf (columnOf col h) h' := List.foldl_append

theorem columnOf_map (l : List UInt8) : columnOf col (l.map (tio, ·)) = l.foldl (column tio) col :=
  List.foldl_map

namespace Pty

variable {t : Pty}

theorem typeChars_column (t : Pty) (l : List UInt8) :
    (t.typeChars l).1.out.column = columnOf t.out.column ((t.typedTaken l).map (t.tio, ·)) := by
  induction l generalizing t with
  | nil => rfl
  | cons c l ih =>
    obtain ⟨htio, hout⟩ := sends_typeChar (t := t) c
    have hcol : (t.typeChar c).1.out.column = columnOf t.out.column
        (((flushOut (t.typeSends c).flushed t.out).taken t.tio (t.typeSends c).bytes).map (t.tio, ·)) := by
      rw [hout, Out.outChars_column, columnOf_map]
      unfold flushOut
      split_ifs <;> rfl
    rw [typeChars, typedTaken, List.map_append, columnOf_append, ← hcol]
    rcases hc : t.typeChar c with ⟨t', _ | _⟩
    · rfl
    · rw [hc] at htio
      rw [ih, htio]

theorem leaveCanon_out : t.leaveCanon.out = t.out := by
  unfold leaveCanon
  dsimp only
  split_ifs <;> rfl

theorem setTermios_out (tio : Termios) (flush : Bool) : (t.setTermios tio flush).out = t.out := by
  unfold setTermios
  dsimp only
  generalize hf : (if flush = true then ({ t with tio := tio } : Pty).flushInput
    else { t with tio := tio }) = t₁
  have h₁ : t₁.out = t.out := by
    subst hf
    split_ifs <;> rfl
  split_ifs <;> simp [leaveCanon_out, h₁]

/-- Every call leaves the column of what was put into the queue. -/
theorem step_column (t : Pty) (op : Op) :
    (t.step op).out.column = columnOf t.out.column (t.opTaken op) := by
  cases op with
  | masterWrite l => exact typeChars_column t l
  | slaveWrite l =>
    change (t.slaveWrite l).1.out.column = columnOf _ ((l.take (t.writeTakes l)).map _)
    unfold slaveWrite writeTakes
    rw [columnOf_map]
    by_cases hhung : t.hung = true
    · rw [if_pos hhung, if_pos (.inl hhung)]
      rfl
    by_cases hstop : t.stopped = true
    · rw [if_neg hhung, if_pos hstop, if_pos (.inr hstop)]
      rfl
    · rw [if_neg hhung, if_neg hstop, if_neg (by simp [hhung, hstop])]
      exact (writeChars_eq t.out l).2.2.1
  | masterRead n =>
    change (t.masterRead n).1.out.column = t.out.column
    unfold masterRead
    split_ifs <;> rfl
  | slaveRead n =>
    change (t.slaveRead n).1.out.column = t.out.column
    unfold slaveRead
    dsimp only
    split_ifs <;> rfl
  | setTermios tio flush => exact congrArg Out.column (setTermios_out tio flush)
  | flush queue =>
    change (t.flush queue).out.column = t.out.column
    unfold flush
    dsimp only
    split_ifs <;> rfl
  | masterRef delta =>
    change (t.masterRef delta).out.column = t.out.column
    unfold masterRef
    dsimp only
    split_ifs <;> rfl
  | slaveRef delta => rfl
  | takeEvents => rfl

theorem run_column (t : Pty) (ops : List Op) :
    (t.run ops).out.column = columnOf t.out.column (t.stream ops) := by
  induction ops generalizing t with
  | nil => rfl
  | cons op ops ih => exact (ih (t.step op)).trans (by rw [step_column, stream, columnOf_append])

/-- A write that returns `n` took `n` bytes. -/
theorem slaveWrite_eq {l : List UInt8} {n : ℕ} (h : (t.slaveWrite l).2 = n) :
    (t.slaveWrite l).1.out = (writeChars t.tio t.out l).1 ∧ (writeChars t.tio t.out l).2 = n := by
  unfold slaveWrite at h ⊢
  by_cases hhung : t.hung = true
  · rw [if_pos hhung] at h
    exact absurd h (by unfold eIo; dsimp only; omega)
  by_cases hstop : t.stopped = true
  · rw [if_neg hhung, if_pos hstop] at h
    exact absurd h (by unfold eAgain; dsimp only; omega)
  rw [if_neg hhung, if_neg hstop] at h ⊢
  refine ⟨rfl, ?_⟩
  obtain ⟨hle, -⟩ := @writeChars_eq t.tio t.out l
  dsimp only at h
  unfold written eAgain at h
  split_ifs at h <;> omega

end Pty

/-! ## The ring -/

/-- `out_put` into the ring of the source. -/
def ringPut (r : RingBuf UInt8) (c : UInt8) : RingBuf UInt8 :=
  if outQ ≤ r.len then r else r.put outQ c

/-- Bytes put one after the other, where there is room for them all. -/
theorem list_foldl_ringPut {r : RingBuf UInt8} {l : List UInt8} (h : r.len + l.length ≤ outQ) :
    (l.foldl ringPut r).list outQ = r.list outQ ++ l := by
  induction l generalizing r with
  | nil => simp
  | cons c l ih =>
    rw [List.length_cons] at h
    have hput : ringPut r c = r.put outQ c := if_neg (by omega)
    rw [List.foldl_cons, hput, ih (by rw [RingBuf.put_len]; omega), RingBuf.list_put r c (by omega),
      List.append_assoc, List.singleton_append]

theorem Pty.writeChars_length (o : Out) (l : List UInt8) :
    (writeChars tio o l).1.queue.length ≤ max o.queue.length outQ := by
  induction l generalizing o with
  | nil => exact le_max_left _ _
  | cons c l ih =>
    by_cases h : outQ - o.queue.length < 8
    · rw [writeChars, Out.outChar_full h]
      exact le_max_left _ _
    · obtain ⟨hout, hroom⟩ := Out.outChar_room (c := c) h
      have hform := @length_processed_le tio c o.column
      rw [writeChars, if_neg hroom]
      refine (ih _).trans ?_
      rw [hout, List.length_append]
      omega

/-- The ring after the form of the bytes that were taken was put into it. -/
theorem Pty.writeChars_ring {r : RingBuf UInt8} (hr : r.list outQ = o.queue) (l : List UInt8) :
    ((form tio o.column (l.take (writeChars tio o l).2)).foldl ringPut r).list outQ =
      (writeChars tio o l).1.queue := by
  obtain ⟨-, hqueue, -, -⟩ := writeChars_eq o l
  have hbound := @writeChars_length tio o l
  have hlen : r.len = o.queue.length := by rw [← hr, RingBuf.length_list]
  rcases Nat.lt_or_ge outQ o.queue.length with hover | hfits
  · have hnil : (writeChars tio o l).1.queue.length = o.queue.length := by
      rw [hqueue, List.length_append] at hbound ⊢
      omega
    have hform : form tio o.column (l.take (writeChars tio o l).2) = [] := by
      rw [hqueue, List.length_append] at hnil
      exact List.length_eq_zero_iff.mp (by omega)
    rw [hqueue, hform, List.append_nil]
    exact hr
  · rw [hqueue, List.length_append] at hbound
    rw [list_foldl_ringPut (by omega), hr, hqueue]

/-! ## The result -/

/-- **What a write that returns `n` puts into the ring is the form of its first `n` bytes**, in every
state, whatever the settings and the column; only a byte that finds no room for eight stops it.  And
in every run the column that the tabs are computed from is the one that the whole stream since the
start gives, the echo with it, as far as it went through `OPOST`. -/
theorem Pty.slaveWrite_processed :
    (∀ (t : Pty) (r : RingBuf UInt8) (l : List UInt8) (n : ℕ), r.list outQ = t.out.queue →
      (t.slaveWrite l).2 = n →
      n ≤ l.length ∧
        (t.slaveWrite l).1.out.queue = t.out.queue ++ form t.tio t.out.column (l.take n) ∧
        ((form t.tio t.out.column (l.take n)).foldl ringPut r).list outQ =
          (t.slaveWrite l).1.out.queue ∧
        (n < l.length → outQ - (t.slaveWrite l).1.out.queue.length < 8)) ∧
      ∀ ops : List Op, (ptyNew.run ops).out.column = columnOf 0 (ptyNew.stream ops) := by
  refine ⟨fun t r l n hr h => ?_, fun ops => run_column ptyNew ops⟩
  obtain ⟨hout, hn⟩ := slaveWrite_eq h
  obtain ⟨hle, hqueue, -, hfull⟩ := writeChars_eq t.out l
  have hring := @writeChars_ring t.tio _ _ hr l
  rw [hout, ← hn]
  exact ⟨hle, hqueue, hring, hfull⟩

/-- Three bytes go out with `OPOST` off and leave the cursor in column 3.  With `OPOST` on again a tab
is expanded as in column 0, to eight blanks. -/
theorem Pty.column_not_followed :
    ¬ ∀ (ops : List Op) (l : List UInt8) (n : ℕ), ((ptyNew.run ops).slaveWrite l).2 = n →
      ((ptyNew.run ops).slaveWrite l).1.out.queue = (ptyNew.run ops).out.queue ++
        form (ptyNew.run ops).tio (cursorOf 0 (ptyNew.stream ops)) (l.take n) := by
  intro h
  have htab := h [.setTermios { Termios.defaults with opost := false } false, .slaveWrite [97, 98, 99],
    .setTermios { Termios.defaults with xtabs := true } false] [9] 1 (by decide)
  exact absurd htab (by decide)

end BananaOS.Terminal
