import BananaOS.Net.HttpStream
import Mathlib.Tactic.Linarith

/-!
# Chunked bodies

`read_chunked` of `net/http.c`.  A chunk is a line with its size in hexadecimal digits, its data and a line
end; the last chunk has the size 0, and trailers and an empty line follow.

A line is taken to end at a line feed, with or without a carriage return before it.  The program also takes a
stream that ends in a line for the end of the line, and does not put a NUL there; and after the last chunk it
does not look whether the empty line comes.  `readChunked_spec` is about the streams where neither happens.
-/

namespace BananaOS.Http

open Lib

def u32 (n : ℕ) : ℕ := n % 2 ^ 32

def hexVal (c : UInt8) : Option ℕ :=
  if 48 ≤ c ∧ c ≤ 57 then some (c.toNat - 48)
  else if 97 ≤ c ∧ c ≤ 102 then some (c.toNat - 97 + 10)
  else if 65 ≤ c ∧ c ≤ 70 then some (c.toNat - 65 + 10)
  else none

/-- The loop over the digits of the size: `fail` for `NET_ERR_PROTO`, `fault` for a read behind `line`. -/
def sizeFrom : List UInt8 → ℕ → ℕ → Res (ℕ × ℕ)
  | [], _, _ => .fault
  | c :: cs, size, digits =>
    if c = 0 then .ok (size, digits)
    else
      match hexVal c with
      | none => .ok (size, digits)
      | some v => if 0x07FFFFFF < size then .fail else sizeFrom cs (u32 (size * 16 + v)) (digits + 1)

def chunkSize (line : List UInt8) : Res ℕ := do
  let (size, digits) ← sizeFrom line 0 0
  if digits = 0 then .fail else .ok size

/-- The loop over the trailers, in at most so many turns. -/
def trailersLoop : ℕ → Stream → List UInt8 → Option Stream
  | 0, _, _ => none
  | k + 1, s, line =>
    let (r, line, s) := sReadline s line 128
    if 0 < r then trailersLoop k s line else some s

/-- The loop of `read_chunked`, in at most so many turns; `none` also for a read behind `line`. -/
def chunkedLoop (stops : List UInt8 → Bool) :
    ℕ → Stream → List UInt8 → List UInt8 → Option (ℤ × List UInt8 × Stream)
  | 0, _, _, _ => none
  | k + 1, s, line, body =>
    let (r, line, s) := sReadline s line 128
    if r < 0 then some (r, body, s)
    else
      match chunkSize line with
      | .fault => none
      | .fail => some (netErrProto, body, s)
      | .ok size =>
        if size = 0 then (trailersLoop (s.bytes.length + 1) s line).map fun s => (0, body, s)
        else
          let (r, body, s) := readBodyBytes stops s size body
          if r ≠ 0 then some (r, body, s)
          else
            let (r, line, s) := sReadline s line 128
            if r < 0 then some (r, body, s) else chunkedLoop stops k s line body

/-- `read_chunked` with what is in `line` at first: the result, what is delivered and the stream behind it. -/
def readChunked (stops : List UInt8 → Bool) (s : Stream) (line body : List UInt8) :
    Option (ℤ × List UInt8 × Stream) :=
  chunkedLoop stops (s.bytes.length + 1) s line body

/-! ## Well-formed bodies -/

/-- A line of `bs`, without its end, and what is behind it. -/
def IsLine (bs text rest : List UInt8) : Prop :=
  10 ∉ text ∧ 13 ∉ text ∧ (bs = text ++ 10 :: rest ∨ bs = text ++ 13 :: 10 :: rest)

def digits (text : List UInt8) : List UInt8 := text.takeWhile fun c => (hexVal c).isSome

/-- The number that the digits stand for. -/
def number (ds : List UInt8) : ℕ := ds.foldl (fun n c => n * 16 + (hexVal c).getD 0) 0

/-- The line before a chunk: the size below `2 ^ 31`, in at most 127 digits, and perhaps an extension. -/
def SizeLine (bs : List UInt8) (n : ℕ) (rest : List UInt8) : Prop :=
  ∃ text, IsLine bs text rest ∧ digits text ≠ [] ∧ (digits text).length ≤ 127 ∧ number (digits text) = n ∧ n < 2 ^ 31 ∧
    ∀ c ∈ (text.drop (digits text).length).head?, c = 59 ∨ c = 32 ∨ c = 9

/-- `bs` is chunks with the data `d`, and then `rest`. -/
inductive Chunks : List UInt8 → List UInt8 → List UInt8 → Prop
  | nil (bs : List UInt8) : Chunks bs [] bs
  | cons {bs n rest rest' d out} : SizeLine bs n rest → 0 < n → n ≤ rest.length → IsLine (rest.drop n) [] rest' →
      Chunks rest' d out → Chunks bs (rest.take n ++ d) out

/-- Lines up to an empty one. -/
inductive Trailers : List UInt8 → Prop
  | nil {bs rest} : IsLine bs [] rest → Trailers bs
  | cons {bs text rest} : IsLine bs text rest → text ≠ [] → Trailers rest → Trailers bs

/-- `bs` begins with a whole body. -/
def Complete (bs : List UInt8) : Prop := ∃ d rest rest', Chunks bs d rest ∧ SizeLine rest 0 rest' ∧ Trailers rest'

variable {s : Stream} {text bs rest rest' line d data body : List UInt8} {n : ℕ} {stops : List UInt8 → Bool}

/-! ## Sizes -/

theorem IsLine.length_lt (h : IsLine bs text rest) : rest.length < bs.length := by
  obtain ⟨-, -, rfl | rfl⟩ := h
  · rw [List.length_append, List.length_cons]
    omega
  · rw [List.length_append, List.length_cons, List.length_cons]
    omega

/-- What the loop does: `on_body` broke it off, or `data` was delivered to the end. -/
def Ends (stops : List UInt8 → Bool) (data body : List UInt8) (done : Bool) (o : Option (ℤ × List UInt8 × Stream)) :
    Prop :=
  ∃ r body' s', o = some (r, body', s') ∧
    (r = netErrIntr ∧ stops body' = true ∧ body' <+: body ++ data ∨ body' = body ++ data ∧ (r = 0 ↔ done = true))

end BananaOS.Http
