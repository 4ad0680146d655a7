import BananaOS.Terminal.Line

/-!
# What a line discipline is for

The terminal without its rings: a list of complete lines in canonical mode, a list of bytes in raw
mode, and the line being edited.  A typed byte is first told apart (`key`), and then does what its
key says; the output and the echo are not here.

What the terminal makes of the typed bytes is written down as it goes (`Tty.log`): every byte that
comes out of the editing, in order, with what became of it.  It is kept, or it is lost because there
was no room, or it is flushed.  An end of file is an item of its own (`none`).  `Tty.given` is what
the reads returned.  That nothing else is lost, doubled or out of order is `Tty.Ok.conserved`: what
was given, followed by what is unread, is what was kept.
-/

namespace BananaOS.Terminal

/-! ## Keys -/

/-- What a typed byte is. -/
inductive Key where
  | ignore
  | quote
  | signal
  | erase
  | werase
  | kill
  | eof
  | eol (c : UInt8)
  | char (c : UInt8)
  deriving DecidableEq, Repr

/-- A byte of canonical mode that stops, starts or signals nothing. -/
def canonKey (tio : Termios) (c : UInt8) : Key :=
  if tio.iexten && hits c tio.vlnext then .quote
  else if hits c tio.verase then .erase
  else if tio.iexten && hits c tio.vwerase then .werase
  else if hits c tio.vkill then .kill
  else if tio.iexten && hits c tio.vreprint then .ignore
  else if hits c tio.veof then .eof
  else if c == 10 || hits c tio.veol || hits c tio.veol2 then .eol c
  else .char c

/-- A byte as it was typed. -/
def key (tio : Termios) (quoted : Bool) (c : UInt8) : Key :=
  if quoted then .char c
  else match translate tio c with
    | none => .ignore
    | some c =>
      if tio.ixon && (hits c tio.vstop || hits c tio.vstart) then .ignore
      else if tio.isig && (hits c tio.vintr || hits c tio.vquit || hits c tio.vsusp) then .signal
      else if tio.icanon then canonKey tio c
      else .char c

/-- The line without its last character: with `utf8`, the bytes back to one that begins it. -/
def eraseLast (utf8 : Bool) (l : List UInt8) : List UInt8 :=
  if utf8 then (l.reverse.dropWhile cont).tail.reverse else l.dropLast

theorem eraseLast_length_lt (utf8 : Bool) {l : List UInt8} (h : l ≠ []) :
    (eraseLast utf8 l).length < l.length := by
  have hpos := List.length_pos_of_ne_nil h
  unfold eraseLast
  split_ifs
  · have := (List.dropWhile_sublist cont (l := l.reverse)).length_le
    simp only [List.length_reverse, List.length_tail] at this ⊢
    omega
  · rw [List.length_dropLast]
    omega

/-- Characters go as long as the last byte is one of `p`. -/
def eraseWhile (utf8 : Bool) (p : UInt8 → Bool) (l : List UInt8) : List UInt8 :=
  if _h : l ≠ [] ∧ p (l.getLastD 0) then eraseWhile utf8 p (eraseLast utf8 l) else l
termination_by l.length
decreasing_by exact eraseLast_length_lt utf8 _h.1

/-! ## The log -/

/-- What became of an item. -/
inductive Fate where
  | kept
  | full
  | flushed
  deriving DecidableEq, Repr

/-- A byte that came out of the editing, or an end of file, and what became of it. -/
structure Item where
  what : Option UInt8
  fate : Fate
  deriving DecidableEq, Repr

/-- The items that were kept. -/
def kept (log : List Item) : List (Option UInt8) :=
  (log.filter (·.fate = .kept)).map Item.what

/-- The items of a line. -/
def items (l : List UInt8) : List (Option UInt8) :=
  if l = [] then [none] else l.map some

/-- Items with one fate. -/
def fated (fate : Fate) (l : List (Option UInt8)) : List Item := l.map (⟨·, fate⟩)

/-- The kept items after the first `n` of them become something else. -/
def remark (f : Option UInt8 → Item) : ℕ → List Item → List Item
  | _, [] => []
  | n, i :: log =>
    if i.fate = .kept then
      match n with
      | 0 => f i.what :: remark f 0 log
      | n + 1 => i :: remark f n log
    else i :: remark f n log

@[simp] theorem kept_append (a b : List Item) : kept (a ++ b) = kept a ++ kept b := by
  simp [kept]

@[simp] theorem kept_kept (l : List (Option UInt8)) : kept (fated .kept l) = l := by
  induction l with
  | nil => rfl
  | cons a l ih => simpa [kept, fated] using ih

theorem kept_lost {fate : Fate} (h : fate ≠ .kept) (l : List (Option UInt8)) :
    kept (fated fate l) = [] := by
  simp [kept, fated, List.filter_eq_nil_iff, h]

@[simp] theorem kept_full (l : List (Option UInt8)) : kept (fated .full l) = [] :=
  kept_lost (by simp) l

@[simp] theorem kept_flushed (l : List (Option UInt8)) : kept (fated .flushed l) = [] :=
  kept_lost (by simp) l

/-- What is kept after a change of the unread items. -/
theorem kept_remark (f : Option UInt8 → Item) (n : ℕ) (log : List Item) :
    kept (remark f n log) =
      (kept log).take n ++ kept (((kept log).drop n).map f) := by
  induction log generalizing n with
  | nil => simp [remark, kept]
  | cons i log ih =>
    by_cases hi : i.fate = .kept
    · have hk : kept (i :: log) = i.what :: kept log := by simp [kept, hi]
      cases n with
      | zero =>
        have h0 := ih 0
        simp only [List.take_zero, List.nil_append, List.drop_zero] at h0 ⊢
        have hr : remark f 0 (i :: log) = [f i.what] ++ remark f 0 log := by simp [remark, hi]
        rw [hr, kept_append, h0, hk, List.map_cons]
        exact (kept_append [f i.what] _).symm
      | succ n =>
        have hr : remark f (n + 1) (i :: log) = i :: remark f n log := by simp [remark, hi]
        have hk' : kept (i :: remark f n log) = i.what :: kept (remark f n log) := by
          simp [kept, hi]
        rw [hr, hk', hk, ih n, List.take_succ_cons, List.drop_succ_cons, List.cons_append]
    · have hr : remark f n (i :: log) = i :: remark f n log := by simp [remark, hi]
      have hk : kept (i :: log) = kept log := by simp [kept, hi]
      have hk' : kept (i :: remark f n log) = kept (remark f n log) := by simp [kept, hi]
      rw [hr, hk', hk, ih n]

/-! ## The terminal -/

/-- The terminal, without its rings. -/
structure Tty where
  tio : Termios
  line : List UInt8
  quoted : Bool
  lines : List (List UInt8)
  bytes : List UInt8
  given : List (Option UInt8)
  log : List Item

namespace Tty

variable (t : Tty)

/-- A new terminal. -/
def new : Tty := ⟨Termios.defaults, [], false, [], [], [], []⟩

/-- What can still be read. -/
def unread : List (Option UInt8) := t.lines.flatMap items ++ t.bytes.map some

/-- How many bytes wait. -/
def count : ℕ := t.lines.flatten.length + t.bytes.length

/-- The input is flushed, the line being edited with it. -/
def discard : Tty :=
  { t with
    line := [], lines := [], bytes := []
    log := remark (⟨·, .flushed⟩) t.given.length t.log ++ fated .flushed (t.line.map some) }

/-- A line is complete: if there is no room for it, it is lost. -/
def complete (l : List UInt8) : Tty :=
  if t.lines.length = recs ∨ inQ - t.count < l.length then
    { t with line := [], log := t.log ++ fated .full (items l) }
  else { t with line := [], lines := t.lines ++ [l], log := t.log ++ fated .kept (items l) }

/-- A character: into the line, or at once to be read. -/
def insert (c : UInt8) : Tty × Bool :=
  if t.tio.icanon then
    if t.line.length < lineMax - 1 then ({ t with line := t.line ++ [c] }, true)
    else ({ t with log := t.log ++ fated .full [some c] }, true)
  else if inQ - t.count = 0 then ({ t with log := t.log ++ fated .full [some c] }, false)
  else ({ t with bytes := t.bytes ++ [c], log := t.log ++ fated .kept [some c] }, true)

/-- What a key does, and whether it was taken. -/
def act : Key → Tty × Bool
  | .ignore => (t, true)
  | .quote => ({ t with quoted := true }, true)
  | .signal => (if t.tio.noflsh then t else t.discard, true)
  | .erase => ({ t with line := eraseLast t.tio.iutf8 t.line }, true)
  | .werase =>
    let l := eraseWhile t.tio.iutf8 isSpace t.line
    ({ t with line := eraseWhile t.tio.iutf8 (fun c => !isSpace c) l }, true)
  | .kill => ({ t with line := [] }, true)
  | .eof => (t.complete t.line, true)
  | .eol c => (t.complete (t.line ++ [c]), true)
  | .char c => { t with quoted := false }.insert c

/-- One typed byte. -/
def type (c : UInt8) : Tty × Bool := t.act (key t.tio t.quoted c)

/-- Bytes are typed, until one is not taken. -/
def write : Tty → List UInt8 → Tty
  | t, [] => t
  | t, c :: l =>
    match t.type c with
    | (t, false) => t
    | (t, true) => write t l

/-- A read: the items it returns.  In canonical mode they are of the first line only. -/
def read (n : ℕ) : Tty × List (Option UInt8) :=
  if t.tio.icanon then
    match t.lines with
    | [] => (t, [])
    | [] :: ls => ({ t with lines := ls, given := t.given ++ [none] }, [none])
    | l :: ls =>
      ({ t with
          lines := if l.drop n = [] then ls else l.drop n :: ls
          given := t.given ++ (l.take n).map some }, (l.take n).map some)
  else
    ({ t with bytes := t.bytes.drop n, given := t.given ++ (t.bytes.take n).map some },
      (t.bytes.take n).map some)

section
variable {t}

theorem read_empty (hc : t.tio.icanon = true) (hl : t.lines = []) (n : ℕ) : t.read n = (t, []) := by
  unfold read
  rw [if_pos hc, hl]

theorem read_eof (hc : t.tio.icanon = true) {ls : List (List UInt8)} (hl : t.lines = [] :: ls)
    (n : ℕ) : t.read n = ({ t with lines := ls, given := t.given ++ [none] }, [none]) := by
  unfold read
  rw [if_pos hc, hl]

theorem read_line (hc : t.tio.icanon = true) {l : List UInt8} {ls : List (List UInt8)}
    (hne : l ≠ []) (hl : t.lines = l :: ls) (n : ℕ) :
    t.read n = ({ t with
      lines := if l.drop n = [] then ls else l.drop n :: ls
      given := t.given ++ (l.take n).map some }, (l.take n).map some) := by
  unfold read
  rw [if_pos hc, hl]
  cases l with
  | nil => exact absurd rfl hne
  | cons a l => rfl

theorem read_raw (hc : t.tio.icanon = false) (n : ℕ) :
    t.read n = ({ t with bytes := t.bytes.drop n, given := t.given ++ (t.bytes.take n).map some },
      (t.bytes.take n).map some) := by
  unfold read
  rw [if_neg (by simp [hc])]

end

/-- Canonical mode is left.  The lines become bytes, an end of file among them the character for
it, if there is room for all of these; then the line being edited, as far as there is room. -/
def leaveCanon : Tty :=
  let eof := if t.tio.veof ≠ 0 then t.tio.veof else 4
  let fits := t.count + (t.lines.filter (· = [])).length ≤ inQ
  let bytes := if fits then t.lines.flatMap (fun l => if l = [] then [eof] else l)
    else t.lines.flatten
  let mark : Option UInt8 → Item := fun x =>
    if x = none then (if fits then ⟨some eof, .kept⟩ else ⟨none, .full⟩) else ⟨x, .kept⟩
  let room := inQ - bytes.length
  { t with
    line := [], lines := [], bytes := bytes ++ t.line.take room
    log := remark mark t.given.length t.log ++ fated .kept ((t.line.take room).map some) ++
      fated .full ((t.line.drop room).map some) }

/-- The settings change.  When canonical mode begins, what was typed is one line. -/
def setTermios (tio : Termios) (flush : Bool) : Tty :=
  let was := t.tio.icanon
  let t := { t with tio := tio }
  let t := if flush then t.discard else t
  if was && !tio.icanon then t.leaveCanon
  else if !was && tio.icanon && t.bytes.length != 0 then { t with lines := [t.bytes], bytes := [] }
  else t

/-- The input side of a call. -/
def step : Pty.Op → Tty
  | .masterWrite l => t.write l
  | .slaveRead n => (t.read n).1
  | .setTermios tio flush => t.setTermios tio flush
  | .flush queue => if queue = 0 ∨ queue = 2 then t.discard else t
  | _ => t

/-- The terminal after calls. -/
def run (t : Tty) (ops : List Pty.Op) : Tty := ops.foldl step t

/-! ## Nothing is lost, doubled or out of order -/

/-- What is true of the terminal. -/
structure Ok : Prop where
  canon : t.tio.icanon = true → t.bytes = []
  raw : t.tio.icanon = false → t.lines = [] ∧ t.line = []
  conserved : t.given ++ t.unread = kept t.log

variable {t}

theorem Ok.new : new.Ok := ⟨fun _ => rfl, by simp [Tty.new, Termios.defaults], rfl⟩

theorem Ok.discard (h : t.Ok) : t.discard.Ok := by
  refine ⟨fun _ => rfl, fun _ => ⟨rfl, rfl⟩, ?_⟩
  have hf : ∀ l : List (Option UInt8), kept (l.map (⟨·, Fate.flushed⟩)) = [] := kept_flushed
  simp only [Tty.discard, unread, List.flatMap_nil, List.map_nil, List.append_nil, kept_append,
    kept_flushed, kept_remark, ← h.conserved, List.take_left', hf]

theorem Ok.complete (h : t.Ok) (hc : t.tio.icanon = true) (l : List UInt8) : (t.complete l).Ok := by
  have hb := h.canon hc
  unfold Tty.complete
  split_ifs
  · refine ⟨h.canon, fun hr => absurd hr (by simp [hc]), ?_⟩
    rw [kept_append, kept_full, List.append_nil]
    exact h.conserved
  · refine ⟨h.canon, fun hr => absurd hr (by simp [hc]), ?_⟩
    rw [kept_append, kept_kept, ← h.conserved]
    simp [unread, hb]

theorem Ok.insert (h : t.Ok) (c : UInt8) : (t.insert c).1.Ok := by
  unfold Tty.insert
  split_ifs with hc hl hr
  · exact ⟨h.canon, fun hr => absurd hr (by simp [hc]), h.conserved⟩
  · refine ⟨h.canon, h.raw, ?_⟩
    rw [kept_append, kept_full, List.append_nil]
    exact h.conserved
  · refine ⟨h.canon, h.raw, ?_⟩
    rw [kept_append, kept_full, List.append_nil]
    exact h.conserved
  · refine ⟨fun hx => absurd hx hc, h.raw, ?_⟩
    rw [kept_append, kept_kept, ← h.conserved]
    simp [unread]

theorem Ok.edit (h : t.Ok) (hc : t.tio.icanon = true) (l : List UInt8) : { t with line := l }.Ok :=
  ⟨h.canon, fun hr => absurd hr (by simp [hc]), h.conserved⟩

theorem Ok.read (h : t.Ok) (n : ℕ) : (t.read n).1.Ok := by
  unfold Tty.read
  split_ifs with hc
  · have hb := h.canon hc
    have hcons := h.conserved
    split
    · exact h
    · rename_i ls heq
      refine ⟨h.canon, fun hr => absurd hr (by simp [hc]), ?_⟩
      rw [← hcons]
      simp [unread, heq, items]
    · rename_i l ls hne heq
      refine ⟨h.canon, fun hr => absurd hr (by simp [hc]), ?_⟩
      have hl : l ≠ [] := by
        rintro rfl
        exact hne rfl
      rw [← hcons]
      simp only [unread, heq, hb, List.map_nil, List.append_nil, List.append_assoc,
        List.flatMap_cons]
      congr 1
      rw [items, if_neg hl]
      split_ifs with hd
      · rw [List.drop_eq_nil_iff] at hd
        rw [List.take_of_length_le hd]
      · rw [List.flatMap_cons, items, if_neg hd, ← List.append_assoc, ← List.map_append,
          List.take_append_drop]
  · have hr := h.raw (by simpa using hc)
    refine ⟨fun hx => absurd hx hc, h.raw, ?_⟩
    rw [← h.conserved]
    simp only [unread, hr.1, List.flatMap_nil, List.nil_append, List.append_assoc]
    rw [← List.map_append, List.take_append_drop]

/-- The unread items of lines, with the end-of-file mark turned into what `f` says. -/
theorem kept_marked (f : Option UInt8 → Item) (hf : ∀ c, f (some c) = ⟨some c, .kept⟩)
    (ls : List (List UInt8)) :
    kept ((ls.flatMap items).map f) =
      ls.flatMap fun l => if l = [] then kept [f none] else l.map some := by
  induction ls with
  | nil => rfl
  | cons l ls ih =>
    rw [List.flatMap_cons, List.map_append, kept_append, ih, List.flatMap_cons]
    congr 1
    by_cases hl : l = []
    · simp [items, hl]
    · rw [items, if_neg hl, if_neg hl, List.map_map]
      have hm : l.map (f ∘ some) = fated .kept (l.map some) := by
        simp [fated, hf]
      rw [hm, kept_kept]

theorem Ok.leaveCanon (hb : t.bytes = []) (hcons : t.given ++ t.unread = kept t.log)
    (hraw : t.tio.icanon = false) : t.leaveCanon.Ok := by
  refine ⟨fun hc => absurd hc (by simp [Tty.leaveCanon, hraw]), fun _ => ⟨rfl, rfl⟩, ?_⟩
  simp only [Tty.leaveCanon, unread, List.flatMap_nil, List.nil_append, List.map_append,
    kept_append, kept_kept, kept_full, List.append_nil, kept_remark, ← hcons, List.take_left',
    List.drop_left', hb, List.map_nil, ← List.append_assoc]
  congr 2
  rw [kept_marked _ (by simp)]
  generalize (if t.tio.veof ≠ 0 then t.tio.veof else 4) = eof
  by_cases hfits : t.count + (t.lines.filter (· = [])).length ≤ inQ
  · simp only [hfits, if_true, List.map_flatMap]
    congr 1
    funext l
    by_cases hl : l = [] <;> simp [kept, hl]
  · simp only [hfits, if_false, if_true, List.map_flatten, List.flatMap_def]
    congr 2
    funext l
    by_cases hl : l = [] <;> simp [kept, hl]

theorem Ok.setTermios (h : t.Ok) (tio : Termios) (flush : Bool) : (t.setTermios tio flush).Ok := by
  -- after the flush, in the old mode
  have hd : ∃ t' : Tty, t'.Ok ∧ t'.tio = t.tio ∧
      (if flush then ({ t with tio := tio } : Tty).discard else { t with tio := tio }) =
        { t' with tio := tio } := by
    cases flush with
    | true => exact ⟨t.discard, h.discard, rfl, rfl⟩
    | false => exact ⟨t, h, rfl, rfl⟩
  obtain ⟨t', h', htio, he⟩ := hd
  have hcanon : t.tio.icanon = true → t'.bytes = [] := fun hc => h'.canon (by rw [htio, hc])
  have hraw : t.tio.icanon = false → t'.lines = [] ∧ t'.line = [] :=
    fun hc => h'.raw (by rw [htio, hc])
  unfold Tty.setTermios
  simp only [he]
  split_ifs with hleave henter
  · simp only [Bool.and_eq_true, Bool.not_eq_true'] at hleave
    exact Ok.leaveCanon (hcanon hleave.1) h'.conserved hleave.2
  · simp only [Bool.and_eq_true, Bool.not_eq_true', bne_iff_ne] at henter
    refine ⟨fun _ => rfl, fun hr => absurd hr (by simp [henter.1.2]), ?_⟩
    have hne : t'.bytes ≠ [] := fun hx => henter.2 (by simp [hx])
    rw [show kept _ = kept t'.log from rfl, ← h'.conserved]
    simp [unread, (hraw henter.1.1).1, items, hne]
  · refine ⟨fun hc => ?_, fun hc => ?_, h'.conserved⟩
    · cases hw : t.tio.icanon
      · have hc' : tio.icanon = true := hc
        rw [hw, hc'] at henter
        simpa using henter
      · exact hcanon hw
    · cases hw : t.tio.icanon
      · exact hraw hw
      · have hc' : tio.icanon = false := hc
        rw [hw, hc'] at hleave
        exact absurd rfl hleave

end Tty

end BananaOS.Terminal
