import BananaOS.Lib.Bytes
import BananaOS.Tcp.Input

/-!
# Handing bytes to a connection

`tcp_send` puts the caller's bytes into the send buffer as room comes up, and waits in between.  What
goes on while it waits (segments, timers, a reset, the user's `^C`) is not its own doing: a turn of its
loop finds a connection, a clock and a keyboard, and every list of turns is allowed.  That includes the
turns there are when nothing but `Conn.step` touches the connection, and those of a connection that is
freed and taken again in the meantime.

What the caller has to know is how many bytes went out.  `sendLoop_ends_with` says it for every list of
turns in one number, `found`: the room that the turns before the first one that fails find.  The call
queues as much of the data as fits there, whatever it answers.  So an answer of an error is the truth
only if no room was found at all, and that is the condition of `tcpSend_exact_iff`, with the bound below
which the length is a positive `int`.
-/

namespace BananaOS.Tcp

open Lib Lib.Serial

/-! ## The codes -/

def netErrTimeout : ℤ := -1
def netErrReset : ℤ := -2
def netErrRefused : ℤ := -3
def netErrNoroute : ℤ := -4
def netErrNomem : ℤ := -5
def netErrClosed : ℤ := -6
def netErrNotready : ℤ := -8
def netErrNodev : ℤ := -9
def netErrProto : ℤ := -10
def netErrIntr : ℤ := -11

/-- What `c->err` holds. -/
def Err.code : Err → ℤ
  | timeout => netErrTimeout
  | reset => netErrReset
  | refused => netErrRefused
  | notReady => netErrNotready

theorem Err.code_neg (e : Err) : e.code < 0 := by
  cases e <;> decide

/-- A `uint32_t` read as an `int`. -/
def toInt (n : ℕ) : ℤ := (BitVec.ofNat 32 n).toInt

theorem toInt_of_lt {n : ℕ} (h : n < 2 ^ 31) : toInt n = n := by
  unfold toInt
  rw [BitVec.toInt_eq_toNat_of_lt (by rw [BitVec.toNat_ofNat]; omega), BitVec.toNat_ofNat,
    Nat.mod_eq_of_lt (by omega)]

theorem toInt_lt (n : ℕ) : toInt n < 2 ^ 31 := by
  have h := BitVec.toInt_lt (x := BitVec.ofNat 32 n)
  unfold toInt
  omega

/-! ## The loop -/

/-- What a turn of the loop finds. -/
structure Turn where
  conn : Conn
  /-- `timer_ms()` -/
  now : Serial
  /-- `net_interrupted()` -/
  interrupted : Bool

/-- `c->state` is one in which there may be more to send. -/
def Conn.takes (c : Conn) : Prop := c.state = .established ∨ c.state = .closeWait

instance (c : Conn) : Decidable c.takes := inferInstanceAs (Decidable (_ ∨ _))

/-- `sb_size - sb_len` -/
def Conn.space (c : Conn) : ℕ := c.sbSize - c.sbuf.length

/-- The loop of `tcp_send`: the code it leaves with, none if all went in, and the bytes it appended on
the way.  There is no result while the turns are not yet enough. -/
def sendLoop (timeout : ℕ) (start : Serial) :
    List Turn → List UInt8 → Option (Option ℤ × List UInt8)
  | _, [] => some (none, [])
  | [], _ :: _ => none
  | t :: turns, b :: bs =>
    match t.conn.err with
    | some e => some (some e.code, [])
    | none =>
      if ¬ t.conn.takes then some (some netErrClosed, [])
      else if t.conn.space ≠ 0 then
        let n := min t.conn.space (b :: bs).length
        (sendLoop timeout start turns ((b :: bs).drop n)).map fun r =>
          (r.1, (b :: bs).take n ++ r.2)
      else if timeout ≤ dist start t.now then some (some netErrTimeout, [])
      else if t.interrupted then some (some netErrIntr, [])
      else sendLoop timeout start turns (b :: bs)

/-- `tcp_send`: the answer, and the bytes it appended to the outgoing stream. -/
def tcpSend (timeout : ℕ) (start : Serial) (turns : List Turn) (data : List UInt8) :
    Option (ℤ × List UInt8) :=
  (sendLoop timeout start turns data).map fun r => (r.1.getD (toInt data.length), r.2)

/-- What a turn with room appends is what `Conn.tcpSend` makes of the connection it finds. -/
theorem Conn.tcpSend_of_space {c : Conn} (he : c.err = none) (ht : c.takes) (hs : c.space ≠ 0)
    {data : List UInt8} (hd : data ≠ []) (now : Serial) :
    c.tcpSend data now =
      { c with sbuf := c.sbuf ++ data.take (min c.space data.length) }.tcpOutput now := by
  have hn : min c.space data.length ≠ 0 := by
    have := List.length_pos_iff.2 hd
    omega
  unfold Conn.tcpSend
  rw [if_pos ⟨he, ht⟩]
  exact if_neg hn

/-! ## What a call leaves behind -/

/-- The turn makes the call give up. -/
def Turn.fails (timeout : ℕ) (start : Serial) (t : Turn) : Prop :=
  t.conn.err ≠ none ∨ ¬ t.conn.takes ∨
    t.conn.space = 0 ∧ (timeout ≤ dist start t.now ∨ t.interrupted)

instance (timeout : ℕ) (start : Serial) (t : Turn) : Decidable (t.fails timeout start) :=
  inferInstanceAs (Decidable (_ ∨ _ ∨ _))

/-- The room that the turns before the first one that fails find. -/
def found (timeout : ℕ) (start : Serial) (turns : List Turn) : ℕ :=
  ((turns.takeWhile fun t => ¬ t.fails timeout start).map fun t => t.conn.space).sum

variable {timeout : ℕ} {start : Serial}

theorem found_of_fails {t : Turn} {turns : List Turn} (h : t.fails timeout start) :
    found timeout start (t :: turns) = 0 := by
  simp [found, h]

theorem found_of_not_fails {t : Turn} {turns : List Turn} (h : ¬ t.fails timeout start) :
    found timeout start (t :: turns) = t.conn.space + found timeout start turns := by
  simp [found, h]

/-- A turn that fails ends the call at once, with an error. -/
theorem sendLoop_of_fails {t : Turn} (h : t.fails timeout start) (turns : List Turn) (b : UInt8)
    (bs : List UInt8) :
    ∃ e < 0, sendLoop timeout start (t :: turns) (b :: bs) = some (some e, []) := by
  unfold sendLoop
  rcases hc : t.conn.err with _ | e
  · by_cases ht : t.conn.takes
    · obtain ⟨hs, h⟩ : t.conn.space = 0 ∧ (timeout ≤ dist start t.now ∨ t.interrupted) := by
        rcases h with h | h | h
        · exact absurd hc h
        · exact absurd ht h
        · exact h
      rw [if_neg (not_not.2 ht), if_neg (not_not.2 hs)]
      by_cases hto : timeout ≤ dist start t.now
      · exact ⟨_, by decide, if_pos hto⟩
      · rw [if_neg hto]
        exact ⟨_, by decide, if_pos (h.resolve_left hto)⟩
    · exact ⟨_, by decide, if_pos ht⟩
  · exact ⟨_, e.code_neg, rfl⟩

theorem sendLoop_of_late {t : Turn} (hc : t.conn.err = none) (ht : t.conn.takes)
    (hs : t.conn.space = 0) (hl : timeout ≤ dist start t.now) (turns : List Turn) (b : UInt8)
    (bs : List UInt8) :
    sendLoop timeout start (t :: turns) (b :: bs) = some (some netErrTimeout, []) := by
  unfold sendLoop
  rw [hc]
  change (if ¬ t.conn.takes then _ else _) = _
  rw [if_neg (not_not.2 ht), if_neg (not_not.2 hs), if_pos hl]

/-- A turn that does not fail takes what there is room for, which may be nothing. -/
theorem sendLoop_of_not_fails {t : Turn} (h : ¬ t.fails timeout start) (turns : List Turn) (b : UInt8)
    (bs : List UInt8) :
    sendLoop timeout start (t :: turns) (b :: bs) =
      (sendLoop timeout start turns ((b :: bs).drop t.conn.space)).map fun r =>
        (r.1, (b :: bs).take t.conn.space ++ r.2) := by
  unfold Turn.fails at h
  push Not at h
  obtain ⟨hc, ht, hs⟩ := h
  conv_lhs => unfold sendLoop
  rw [hc]
  change (if ¬ t.conn.takes then _ else _) = _
  rw [if_neg (not_not.2 ht)]
  by_cases hz : t.conn.space = 0
  · obtain ⟨hto, hi⟩ := hs hz
    rw [if_neg (not_not.2 hz), if_neg (by omega), if_neg hi, hz, List.drop_zero]
    simp
  · rw [if_pos hz]
    change ((sendLoop timeout start turns ((b :: bs).drop (min t.conn.space (b :: bs).length))).map
      fun r => (r.1, (b :: bs).take (min t.conn.space (b :: bs).length) ++ r.2)) = _
    rcases Nat.le_total t.conn.space (b :: bs).length with hl | hl
    · rw [min_eq_left hl]
    · rw [min_eq_right hl, List.drop_length, List.take_length, List.drop_eq_nil_of_le hl,
        List.take_of_length_le hl]

/-- **What the call has queued when it is over** is as much of the data as there was room for before
the first turn that fails, and it answers with an error exactly when that was not all. -/
theorem sendLoop_ends_with {turns : List Turn} {data : List UInt8} {r : Option ℤ} {q : List UInt8}
    (h : sendLoop timeout start turns data = some (r, q)) :
    q = data.take (found timeout start turns) ∧
      (data.length ≤ found timeout start turns ∧ r = none ∨
        found timeout start turns < data.length ∧ ∃ e < 0, r = some e) := by
  induction turns generalizing data r q with
  | nil =>
    rcases data with _ | ⟨b, bs⟩
    · obtain ⟨rfl, rfl⟩ : none = r ∧ [] = q := by simpa [sendLoop] using h
      exact ⟨List.take_nil.symm, .inl ⟨Nat.zero_le _, rfl⟩⟩
    · simp [sendLoop] at h
  | cons t turns ih =>
    rcases data with _ | ⟨b, bs⟩
    · obtain ⟨rfl, rfl⟩ : none = r ∧ [] = q := by simpa [sendLoop] using h
      exact ⟨List.take_nil.symm, .inl ⟨Nat.zero_le _, rfl⟩⟩
    · by_cases hf : t.fails timeout start
      · obtain ⟨e, he, hl⟩ := sendLoop_of_fails hf turns b bs
        rw [hl] at h
        obtain ⟨rfl, rfl⟩ : some e = r ∧ [] = q := by simpa using h
        rw [found_of_fails hf]
        exact ⟨rfl, .inr ⟨Nat.succ_pos _, e, he, rfl⟩⟩
      · rw [sendLoop_of_not_fails hf, Option.map_eq_some_iff] at h
        obtain ⟨⟨r', q'⟩, hrest, hr⟩ := h
        obtain ⟨rfl, rfl⟩ : r' = r ∧ (b :: bs).take t.conn.space ++ q' = q := by simpa using hr
        obtain ⟨rfl, hcases⟩ := ih hrest
        rw [found_of_not_fails hf, List.take_add]
        refine ⟨rfl, ?_⟩
        rw [List.length_drop] at hcases
        rcases hcases with ⟨hle, rfl⟩ | ⟨hlt, he⟩
        · exact .inl ⟨by omega, rfl⟩
        · exact .inr ⟨by omega, he⟩

/-! ## Whether the answer is the truth -/

/-- The answer says how many bytes were queued. -/
def Exact (p : ℤ × List UInt8) : Prop :=
  (0 ≤ p.1 → (p.2.length : ℤ) = p.1) ∧ (p.1 < 0 → p.2 = [])

instance (p : ℤ × List UInt8) : Decidable (Exact p) := inferInstanceAs (Decidable (_ ∧ _))

/-- No turn fails between the first byte that finds room and the last one, and the number of bytes is
an `int`. -/
def Spared (timeout : ℕ) (start : Serial) (turns : List Turn) (len : ℕ) : Prop :=
  found timeout start turns = 0 ∨ len ≤ found timeout start turns ∧ len < 2 ^ 31

instance (timeout : ℕ) (start : Serial) (turns : List Turn) (len : ℕ) :
    Decidable (Spared timeout start turns len) := inferInstanceAs (Decidable (_ ∨ _))

/-- An answer that is the length of all that was queued. -/
theorem exact_toInt_iff {q : List UInt8} : Exact (toInt q.length, q) ↔ q.length < 2 ^ 31 := by
  constructor
  · rintro ⟨hpos, hneg⟩
    have hlt := toInt_lt q.length
    rcases lt_or_ge (toInt q.length) 0 with h | h
    · obtain rfl := hneg h
      norm_num
    · have := hpos h
      change (q.length : ℤ) = toInt q.length at this
      omega
  · intro h
    rw [toInt_of_lt h]
    exact ⟨fun _ => rfl, fun h => by change (q.length : ℤ) < 0 at h; omega⟩

/-- **`tcp_send` answers the truth exactly when it is spared.** -/
theorem exact_iff_spared {turns : List Turn} {data : List UInt8} {p : ℤ × List UInt8}
    (h : tcpSend timeout start turns data = some p) :
    Exact p ↔ Spared timeout start turns data.length := by
  unfold tcpSend at h
  obtain ⟨⟨r, q⟩, hloop, rfl⟩ := Option.map_eq_some_iff.1 h
  obtain ⟨rfl, ⟨hle, rfl⟩ | ⟨hlt, e, he, rfl⟩⟩ := sendLoop_ends_with hloop
  · change Exact (toInt data.length, data.take _) ↔ _
    rw [List.take_of_length_le hle, exact_toInt_iff]
    unfold Spared
    omega
  · change Exact (e, data.take _) ↔ _
    constructor
    · rintro ⟨-, hnil⟩
      have hlen := congrArg List.length (hnil he)
      rw [List.length_take, List.length_nil] at hlen
      exact .inl (by omega)
    · rintro (hz | ⟨hle, -⟩)
      · rw [hz, List.take_zero]
        exact ⟨fun hp => absurd he (not_lt.2 hp), fun _ => rfl⟩
      · omega

end BananaOS.Tcp
