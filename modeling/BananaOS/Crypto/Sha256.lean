import BananaOS.Lib.Sha2

/-!
# SHA-256, taken in piece by piece

The hash of `sha256.c`: `sha256Update` takes in a piece of the message, `sha256Final` pads it and gives
the digest.  What a context stands for is the hash of the blocks it has taken in and the bytes of the
next one (`Sha256Ctx.view`); an update feeds it the piece (`view_sha256Update`), so the digest is that
of the whole message however it was cut (`sha256Final_eq`).
-/

namespace BananaOS.Crypto

open Lib

/-! ## The code -/

def SHA256_BLOCK : ℕ := 64

def SHA256_LEN : ℕ := 32

namespace Sha256

def K : List (BitVec 32) :=
  [
    0x428a2f98, 0x71374491, 0xb5c0fbcf, 0xe9b5dba5, 0x3956c25b, 0x59f111f1, 0x923f82a4, 0xab1c5ed5,
    0xd807aa98, 0x12835b01, 0x243185be, 0x550c7dc3, 0x72be5d74, 0x80deb1fe, 0x9bdc06a7, 0xc19bf174,
    0xe49b69c1, 0xefbe4786, 0x0fc19dc6, 0x240ca1cc, 0x2de92c6f, 0x4a7484aa, 0x5cb0a9dc, 0x76f988da,
    0x983e5152, 0xa831c66d, 0xb00327c8, 0xbf597fc7, 0xc6e00bf3, 0xd5a79147, 0x06ca6351, 0x14292967,
    0x27b70a85, 0x2e1b2138, 0x4d2c6dfc, 0x53380d13, 0x650a7354, 0x766a0abb, 0x81c2c92e, 0x92722c85,
    0xa2bfe8a1, 0xa81a664b, 0xc24b8b70, 0xc76c51a3, 0xd192e819, 0xd6990624, 0xf40e3585, 0x106aa070,
    0x19a4c116, 0x1e376c08, 0x2748774c, 0x34b0bcb5, 0x391c0cb3, 0x4ed8aa4a, 0x5b9cca4f, 0x682e6ff3,
    0x748f82ee, 0x78a5636f, 0x84c87814, 0x8cc70208, 0x90befffa, 0xa4506ceb, 0xbef9a3f7, 0xc67178f2
  ]

def iv : Eight 32 :=
  ⟨0x6a09e667, 0xbb67ae85, 0x3c6ef372, 0xa54ff53a, 0x510e527f, 0x9b05688c, 0x1f83d9ab, 0x5be0cd19⟩

/-- `ROR` -/
def ror (x : BitVec 32) (n : ℕ) : BitVec 32 := x >>> n ||| x <<< (32 - n)

/-- The byte `i` that `p` points to, as a word. -/
def byteAt (p : List UInt8) (i : ℕ) : BitVec 32 := (p.getD i 0).toBitVec.setWidth 32

/-- `w[i]` for the first sixteen. -/
def loadWord (p : List UInt8) (i : ℕ) : BitVec 32 :=
  byteAt p (i * 4) <<< 24 ||| byteAt p (i * 4 + 1) <<< 16 |||
    byteAt p (i * 4 + 2) <<< 8 ||| byteAt p (i * 4 + 3)

/-- `w[i]` for the others. -/
def nextWord (w : List (BitVec 32)) (i : ℕ) : BitVec 32 :=
  let w15 := w.getD (i - 15) 0
  let w2 := w.getD (i - 2) 0
  let s0 := ror w15 7 ^^^ ror w15 18 ^^^ w15 >>> 3
  let s1 := ror w2 17 ^^^ ror w2 19 ^^^ w2 >>> 10
  w.getD (i - 16) 0 + s0 + w.getD (i - 7) 0 + s1

/-- The array `w`. -/
def words (p : List UInt8) : List (BitVec 32) :=
  (List.range' 16 48).foldl (fun w i => w ++ [nextWord w i]) ((List.range 16).map (loadWord p))

/-- A turn of the loop over the rounds. -/
def turn (w : List (BitVec 32)) (v : Eight 32) (i : ℕ) : Eight 32 :=
  let t1 := v.h + (ror v.e 6 ^^^ ror v.e 11 ^^^ ror v.e 25) + ((v.e &&& v.f) ^^^ (~~~v.e &&& v.g)) +
    K.getD i 0 + w.getD i 0
  let t2 := (ror v.a 2 ^^^ ror v.a 13 ^^^ ror v.a 22) +
    ((v.a &&& v.b) ^^^ (v.a &&& v.c) ^^^ (v.b &&& v.c))
  ⟨t1 + t2, v.a, v.b, v.c, v.d + t1, v.e, v.f, v.g⟩

/-- `compress`, of the block that `p` points to. -/
def compress (h : Eight 32) (p : List UInt8) : Eight 32 :=
  h.add ((List.range 64).foldl (turn (words p)) h)

end Sha256

structure Sha256Ctx where
  h : Eight 32
  total : BitVec 64
  buf : Vector UInt8 SHA256_BLOCK
  buf_len : ℕ

/-- `sha256_init`; what the buffer holds stays. -/
def sha256Init (c : Sha256Ctx) : Sha256Ctx :=
  { c with h := Sha256.iv, total := 0, buf_len := 0 }

/-- The loop over the blocks of `p`: the hash after them, and what is left. -/
def blockLoop (h : Eight 32) (p : List UInt8) : Eight 32 × List UInt8 :=
  if SHA256_BLOCK ≤ p.length then blockLoop (Sha256.compress h p) (p.drop SHA256_BLOCK)
  else (h, p)
termination_by p.length
decreasing_by
  rw [List.length_drop]
  simp only [SHA256_BLOCK] at *
  omega

/-- `sha256_update` from where the buffer is empty. -/
def Sha256Ctx.takeBlocks (c : Sha256Ctx) (p : List UInt8) : Sha256Ctx :=
  let (h, p) := blockLoop c.h p
  if p.length ≠ 0 then { c with h := h, buf := overwrite c.buf 0 p, buf_len := p.length }
  else { c with h := h }

/-- `sha256_update` -/
def sha256Update (c : Sha256Ctx) (p : List UInt8) : Sha256Ctx :=
  let c := { c with total := c.total + BitVec.ofNat 64 p.length }
  if c.buf_len ≠ 0 then
    let take := min (SHA256_BLOCK - c.buf_len) p.length
    let c := { c with
      buf := overwrite c.buf c.buf_len (p.take take)
      buf_len := c.buf_len + take }
    if c.buf_len < SHA256_BLOCK then c
    else { c with h := Sha256.compress c.h c.buf.toList, buf_len := 0 }.takeBlocks (p.drop take)
  else c.takeBlocks p

/-- `sha256_final`; `none` if the loop over the zeros does not end. -/
def sha256Final (c : Sha256Ctx) : Option (List UInt8) :=
  let bits := c.total * 8
  let c := sha256Update c [0x80]
  (repeatUntil (fun c => c.buf_len == 56) (fun c => sha256Update c [0]) SHA256_BLOCK c).map fun c =>
    let len_be := (List.range 8).map fun i => lowByte (bits >>> (56 - i * 8))
    (sha256Update c len_be).h.toList.flatMap fun (x : BitVec 32) =>
      [lowByte (x >>> 24), lowByte (x >>> 16), lowByte (x >>> 8), lowByte x]

/-- `sha256`, with its context where `c` is. -/
def sha256 (c : Sha256Ctx) (data : List UInt8) : Option (List UInt8) :=
  sha256Final (sha256Update (sha256Init c) data)

/-! ## A block -/

namespace Sha256

variable {p : List UInt8} {i n : ℕ}

theorem ror_eq (x : BitVec 32) (h : n < 32) : ror x n = x.rotateRight n := by
  rw [ror, BitVec.rotateRight_def, Nat.mod_eq_of_lt h]

/-- The constants are those of the standard. -/
theorem K_eq : K = (List.range 64).map Sha2.K := by
  rw [Sha2.map_K (by decide), firstPrimes_eq]
  decide +kernel

theorem iv_eq : iv = Sha2.initial := by decide +kernel

theorem small0_eq (x : BitVec 32) :
    Sha2.smallSigma SHA256.small0 x = ror x 7 ^^^ ror x 18 ^^^ x >>> 3 := by
  rw [ror_eq x (by decide), ror_eq x (by decide)]
  rfl

theorem small1_eq (x : BitVec 32) :
    Sha2.smallSigma SHA256.small1 x = ror x 17 ^^^ ror x 19 ^^^ x >>> 10 := by
  rw [ror_eq x (by decide), ror_eq x (by decide)]
  rfl

theorem big0_eq (x : BitVec 32) :
    Sha2.bigSigma SHA256.big0 x = ror x 2 ^^^ ror x 13 ^^^ ror x 22 := by
  rw [ror_eq x (by decide), ror_eq x (by decide), ror_eq x (by decide)]
  rfl

theorem big1_eq (x : BitVec 32) :
    Sha2.bigSigma SHA256.big1 x = ror x 6 ^^^ ror x 11 ^^^ ror x 25 := by
  rw [ror_eq x (by decide), ror_eq x (by decide), ror_eq x (by decide)]
  rfl

theorem loadWord_eq (h : i * 4 + 3 < p.length) : loadWord p i = SHA256.word p i := by
  have hbytes : (p.drop (4 * i)).take 4 =
      [p.getD (i * 4) 0, p.getD (i * 4 + 1) 0, p.getD (i * 4 + 2) 0, p.getD (i * 4 + 3) 0] := by
    rw [Nat.mul_comm 4, ← map_getD_range (x := (0 : UInt8)) (by omega)]
    rfl
  rw [Sha2.word, show SHA256.wordBytes = 4 from rfl, hbytes, ← foldl_shift_or]
  simp only [List.foldl_cons, List.foldl_nil, loadWord, byteAt]
  simp [BitVec.shiftLeft_or_distrib, ← BitVec.shiftLeft_add]

theorem words_eq (h : 64 ≤ p.length) : words p = (List.range 64).map (SHA256.W p) := by
  have hfirst : (List.range 16).map (loadWord p) = (List.range 16).map (SHA256.W p) := by
    refine List.map_congr_left fun i hi => ?_
    have hi' : i < 16 := List.mem_range.mp hi
    rw [SHA256.W_first hi', loadWord_eq (by omega)]
  rw [words, hfirst]
  refine foldl_range'_concat (SHA256.W p) nextWord 16 48 fun i hi _ => ?_
  have hw : ∀ j < i, ((List.range i).map (SHA256.W p)).getD j 0 = SHA256.W p j :=
    fun j hj => getD_map_range _ hj
  rw [nextWord, hw _ (by omega), hw _ (by omega), hw _ (by omega), hw _ (by omega),
    SHA256.W_step hi]
  rw [small0_eq, small1_eq]
  ac_rfl

/-- One block taken in is the hash computation of the standard. -/
theorem compress_eq (H : Eight 32) (h : 64 ≤ p.length) :
    compress H p = SHA256.next H (p.take 64) := by
  have hturn : ∀ v, ∀ i ∈ List.range 64, turn (words p) v i = SHA256.round p v i := by
    intro v i hi
    have hi' : i < 64 := List.mem_range.mp hi
    have hK : K.getD i 0 = Sha2.K i := by
      rw [K_eq, List.getD_eq_getElem _ _ (by simpa using hi'), List.getElem_map, List.getElem_range]
    have hw : (words p).getD i 0 = SHA256.W p i := by
      rw [words_eq h, List.getD_eq_getElem _ _ (by simpa using hi'), List.getElem_map,
        List.getElem_range]
    rw [turn, hK, hw, Sha2.round, big0_eq, big1_eq, Sha2.ch, Sha2.maj]
  rw [compress, List.foldl_ext _ _ _ hturn, Eight.add_comm]
  exact (SHA256.next_take H).symm

end Sha256

/-! ## The stream -/

variable {c : Sha256Ctx} {p m : List UInt8}

namespace Sha256Ctx

/-- The hash of the blocks taken in, and what is there of the next. -/
def view (c : Sha256Ctx) : Eight 32 × List UInt8 := (c.h, c.buf.toList.take c.buf_len)

theorem length_view (hc : c.buf_len < 64) : c.view.2.length = c.buf_len := by
  rw [view, List.length_take, Vector.length_toList]
  exact min_eq_left hc.le

end Sha256Ctx

theorem blockLoop_eq (H : Eight 32) (p : List UInt8) :
    feed 64 SHA256.next (H, []) p = blockLoop H p ∧ (blockLoop H p).2.length < 64 := by
  induction H, p using blockLoop.induct with
  | case1 H p hp ih =>
    have hfirst : feed 64 SHA256.next (H, []) (p.take 64) = (Sha256.compress H p, []) := by
      have hlen : (p.take 64).length = 64 := by
        rw [List.length_take]
        exact min_eq_left hp
      have hne : p.take 64 ≠ [] := List.ne_nil_of_length_pos (by omega)
      rw [feed_fill hne (by simpa using hlen), Sha256.compress_eq H hp, List.nil_append]
    have hall : feed 64 SHA256.next (H, []) p =
        feed 64 SHA256.next (Sha256.compress H p, []) (p.drop 64) := by
      rw [← hfirst, ← feed_append, List.take_append_drop]
    rw [blockLoop, if_pos hp, hall]
    exact ih
  | case2 H p hp =>
    have hp' : p.length < 64 := Nat.lt_of_not_ge hp
    rw [blockLoop, if_neg hp, feed_short (by simpa using hp'), List.nil_append]
    exact ⟨rfl, hp'⟩

theorem view_takeBlocks (hc : c.buf_len = 0) :
    (c.takeBlocks p).view = feed 64 SHA256.next (c.h, []) p ∧ (c.takeBlocks p).buf_len < 64 := by
  obtain ⟨heq, hlt⟩ := blockLoop_eq c.h p
  rw [heq, Sha256Ctx.takeBlocks]
  dsimp only
  split_ifs with h
  · have hbuf := take_overwrite (o := 0) c.buf (blockLoop c.h p).2 (by rw [Nat.zero_add]; exact hlt.le)
    rw [Nat.zero_add, List.take_zero, List.nil_append] at hbuf
    exact ⟨Prod.ext rfl hbuf, hlt⟩
  · have hnil : (blockLoop c.h p).2 = [] := List.length_eq_zero_iff.mp (not_not.mp h)
    refine ⟨Prod.ext rfl ?_, by rw [hc]; decide⟩
    rw [Sha256Ctx.view, hc, List.take_zero, hnil]

/-- The buffer after as much of the piece as fits in it. -/
theorem take_fill (hc : c.buf_len ≤ 64) {n : ℕ}
    (hn : n = min (SHA256_BLOCK - c.buf_len) p.length) :
    (overwrite c.buf c.buf_len (p.take n)).toList.take (c.buf_len + n) =
      c.view.2 ++ p.take n := by
  have hlen : (p.take n).length = n := by
    rw [List.length_take]
    omega
  have hB : SHA256_BLOCK = 64 := rfl
  have h := take_overwrite c.buf (p.take n) (o := c.buf_len) (by omega)
  rwa [hlen] at h

/-- An update feeds the context the piece. -/
theorem view_sha256Update (hc : c.buf_len < 64) :
    (sha256Update c p).view = feed 64 SHA256.next c.view p ∧ (sha256Update c p).buf_len < 64 := by
  rw [sha256Update]
  dsimp only
  have hview : c.view = (c.h, c.view.2) := rfl
  have hr := c.length_view hc
  have hB : SHA256_BLOCK = 64 := rfl
  obtain ⟨n, hn⟩ : ∃ n, n = min (SHA256_BLOCK - c.buf_len) p.length := ⟨_, rfl⟩
  have hfill := take_fill hc.le hn
  rw [← hn]
  split_ifs with h0 hfull
  · -- the piece does not fill the buffer
    have hp : p.take n = p := List.take_of_length_le (by omega)
    rw [hview, feed_short (by omega)]
    rw [hp] at hfill ⊢
    exact ⟨Prod.ext rfl hfill, hfull⟩
  · have hpart : p.take n ≠ [] := List.ne_nil_of_length_pos (by rw [List.length_take]; omega)
    have hlen : (p.take n).length = n := by
      rw [List.length_take]
      omega
    have hwhole : (overwrite c.buf c.buf_len (p.take n)).toList = c.view.2 ++ p.take n := by
      rw [← hfill, show c.buf_len + n = 64 by omega]
      exact (List.take_of_length_le (Vector.length_toList.le)).symm
    have hfirst : feed 64 SHA256.next c.view p =
        feed 64 SHA256.next (SHA256.next c.h (c.view.2 ++ p.take n), []) (p.drop n) := by
      conv_lhs => rw [← List.take_append_drop n p, feed_append, hview, feed_fill hpart (by omega)]
    have hblock : (c.view.2 ++ p.take n).length = 64 := by
      rw [List.length_append]
      omega
    have hcomp := Sha256.compress_eq c.h hblock.ge
    rw [List.take_of_length_le hblock.le] at hcomp
    rw [hfirst, hwhole, hcomp]
    exact view_takeBlocks rfl
  · have h0' : c.buf_len = 0 := not_not.mp h0
    rw [Sha256Ctx.view.eq_def c, h0', List.take_zero]
    exact view_takeBlocks rfl

theorem total_takeBlocks : (c.takeBlocks p).total = c.total := by
  rw [Sha256Ctx.takeBlocks]
  dsimp only
  split_ifs <;> rfl

theorem total_sha256Update : (sha256Update c p).total = c.total + BitVec.ofNat 64 p.length := by
  rw [sha256Update]
  dsimp only
  split_ifs
  · rfl
  · exact total_takeBlocks
  · exact total_takeBlocks

/-! ## The digest -/

/-- The context has taken in the message `m`. -/
structure Sha256Ctx.Holds (c : Sha256Ctx) (m : List UInt8) : Prop where
  view : c.view = feed 64 SHA256.next (Sha2.initial, []) m
  lt : c.buf_len < 64
  total : c.total = BitVec.ofNat 64 m.length

theorem holds_sha256Init (c : Sha256Ctx) : (sha256Init c).Holds [] where
  view := by
    rw [Sha256Ctx.view, sha256Init, List.take_zero, Sha256.iv_eq]
    rfl
  lt := Nat.zero_lt_succ _
  total := rfl

theorem Sha256Ctx.Holds.update (h : c.Holds m) (p : List UInt8) :
    (sha256Update c p).Holds (m ++ p) where
  view := by
    rw [(view_sha256Update h.lt).1, h.view, feed_append]
  lt := (view_sha256Update h.lt).2
  total := by
    rw [total_sha256Update, h.total, List.length_append, BitVec.ofNat_add]

/-- However a message is cut, the context has taken in the whole. -/
theorem Sha256Ctx.Holds.updates (h : c.Holds m) (ps : List (List UInt8)) :
    (ps.foldl sha256Update c).Holds (m ++ ps.flatten) := by
  induction ps generalizing c m with
  | nil => simpa using h
  | cons p ps ih =>
    rw [List.foldl_cons, List.flatten_cons, ← List.append_assoc]
    exact ih (h.update p)

/-- The number of bits, as it is written behind the padding. -/
theorem Sha256Ctx.Holds.bits (h : c.Holds m) :
    ((List.range 8).map fun i => lowByte ((c.total * 8) >>> (56 - i * 8))) =
      bytesBE 8 (8 * m.length) := by
  have hshift : ∀ i ∈ List.range 8, lowByte ((c.total * 8) >>> (56 - i * 8)) =
      lowByte ((c.total * 8) >>> (8 * (8 - 1 - i))) := fun i hi => by
    rw [show 56 - i * 8 = 8 * (8 - 1 - i) by have := List.mem_range.mp hi; omega]
  rw [List.map_congr_left hshift, map_lowByte, ← bytesBE_mod 8 (8 * m.length)]
  congr 1
  rw [h.total]
  simp
  omega

theorem output256_eq (H : Eight 32) : (H.toList.flatMap fun (x : BitVec 32) =>
    [lowByte (x >>> 24), lowByte (x >>> 16), lowByte (x >>> 8), lowByte x]) = SHA256.output H := by
  rw [Sha2.output]
  congr 1
  ext1 x
  rw [show SHA256.wordBytes = 4 from rfl, ← map_lowByte]
  rfl

theorem sha256Final_eq (h : c.Holds m) : sha256Final c = some (SHA256.digest m) := by
  have hmark := h.update [0x80]
  obtain ⟨c', hloop, hok, hview⟩ := SHA256.repeatUntil_zeros Sha256Ctx.view
    (fun c => c.buf_len < 64) (fun c => c.buf_len == 56) (fun c => sha256Update c [0]) (by decide)
    (fun c hc => ⟨(view_sha256Update hc).2, (view_sha256Update hc).1⟩)
    (fun c hc => by rw [Sha256Ctx.length_view hc]; exact beq_iff_eq) hmark.lt hmark.view
  rw [sha256Final]
  dsimp only
  rw [h.bits, show SHA256_BLOCK = SHA256.block from rfl, hloop, Option.map_some, output256_eq]
  have hlast : (sha256Update c' (bytesBE 8 (8 * m.length))).view =
      feed SHA256.block SHA256.next (Sha2.initial, []) (SHA256.padded m) := by
    rw [Sha2.padded, feed_append, ← hview]
    exact (view_sha256Update hok).1
  rw [SHA256.digest_eq (by decide), ← hlast]
  rfl

end BananaOS.Crypto
