import BananaOS.Lib.Sha2

/-!
# SHA-512, taken in piece by piece

The hash of `sha512.c`.  Every byte goes through the buffer here, and the length behind the padding is
written in its lower eight bytes only; so the digest is that of the standard for a message of less than
`2 ^ 61` bytes (`sha512Final_eq`).
-/

namespace BananaOS.Crypto

open Lib

/-! ## The code -/

def SHA512_BLOCK : ℕ := 128

namespace Sha512

def K : List (BitVec 64) :=
  [
    0x428a2f98d728ae22, 0x7137449123ef65cd, 0xb5c0fbcfec4d3b2f, 0xe9b5dba58189dbbc,
    0x3956c25bf348b538, 0x59f111f1b605d019, 0x923f82a4af194f9b, 0xab1c5ed5da6d8118,
    0xd807aa98a3030242, 0x12835b0145706fbe, 0x243185be4ee4b28c, 0x550c7dc3d5ffb4e2,
    0x72be5d74f27b896f, 0x80deb1fe3b1696b1, 0x9bdc06a725c71235, 0xc19bf174cf692694,
    0xe49b69c19ef14ad2, 0xefbe4786384f25e3, 0x0fc19dc68b8cd5b5, 0x240ca1cc77ac9c65,
    0x2de92c6f592b0275, 0x4a7484aa6ea6e483, 0x5cb0a9dcbd41fbd4, 0x76f988da831153b5,
    0x983e5152ee66dfab, 0xa831c66d2db43210, 0xb00327c898fb213f, 0xbf597fc7beef0ee4,
    0xc6e00bf33da88fc2, 0xd5a79147930aa725, 0x06ca6351e003826f, 0x142929670a0e6e70,
    0x27b70a8546d22ffc, 0x2e1b21385c26c926, 0x4d2c6dfc5ac42aed, 0x53380d139d95b3df,
    0x650a73548baf63de, 0x766a0abb3c77b2a8, 0x81c2c92e47edaee6, 0x92722c851482353b,
    0xa2bfe8a14cf10364, 0xa81a664bbc423001, 0xc24b8b70d0f89791, 0xc76c51a30654be30,
    0xd192e819d6ef5218, 0xd69906245565a910, 0xf40e35855771202a, 0x106aa07032bbd1b8,
    0x19a4c116b8d2d0c8, 0x1e376c085141ab53, 0x2748774cdf8eeb99, 0x34b0bcb5e19b48a8,
    0x391c0cb3c5c95a63, 0x4ed8aa4ae3418acb, 0x5b9cca4f7763e373, 0x682e6ff3d6b2b8a3,
    0x748f82ee5defb2fc, 0x78a5636f43172f60, 0x84c87814a1f0ab72, 0x8cc702081a6439ec,
    0x90befffa23631e28, 0xa4506cebde82bde9, 0xbef9a3f7b2c67915, 0xc67178f2e372532b,
    0xca273eceea26619c, 0xd186b8c721c0c207, 0xeada7dd6cde0eb1e, 0xf57d4f7fee6ed178,
    0x06f067aa72176fba, 0x0a637dc5a2c898a6, 0x113f9804bef90dae, 0x1b710b35131c471b,
    0x28db77f523047d84, 0x32caab7b40c72493, 0x3c9ebe0a15c9bebc, 0x431d67c49c100d4c,
    0x4cc5d4becb3e42b6, 0x597f299cfc657e2a, 0x5fcb6fab3ad6faec, 0x6c44198c4a475817
  ]

def iv : Eight 64 :=
  ⟨0x6a09e667f3bcc908, 0xbb67ae8584caa73b, 0x3c6ef372fe94f82b, 0xa54ff53a5f1d36f1,
    0x510e527fade682d1, 0x9b05688c2b3e6c1f, 0x1f83d9abfb41bd6b, 0x5be0cd19137e2179⟩

def rotr (x : BitVec 64) (n : ℕ) : BitVec 64 := x >>> n ||| x <<< (64 - n)

/-- `w[i]` for the first sixteen. -/
def loadWord (p : List UInt8) (i : ℕ) : BitVec 64 :=
  (List.range 8).foldl (fun v j => v <<< 8 ||| (p.getD (i * 8 + j) 0).toBitVec.setWidth 64) 0

/-- `w[i]` for the others. -/
def nextWord (w : List (BitVec 64)) (i : ℕ) : BitVec 64 :=
  let w15 := w.getD (i - 15) 0
  let w2 := w.getD (i - 2) 0
  let s0 := rotr w15 1 ^^^ rotr w15 8 ^^^ w15 >>> 7
  let s1 := rotr w2 19 ^^^ rotr w2 61 ^^^ w2 >>> 6
  w.getD (i - 16) 0 + s0 + w.getD (i - 7) 0 + s1

/-- The array `w`. -/
def words (p : List UInt8) : List (BitVec 64) :=
  (List.range' 16 64).foldl (fun w i => w ++ [nextWord w i]) ((List.range 16).map (loadWord p))

/-- A turn of the loop over the rounds. -/
def turn (w : List (BitVec 64)) (v : Eight 64) (i : ℕ) : Eight 64 :=
  let S1 := rotr v.e 14 ^^^ rotr v.e 18 ^^^ rotr v.e 41
  let ch := (v.e &&& v.f) ^^^ (~~~v.e &&& v.g)
  let t1 := v.h + S1 + ch + K.getD i 0 + w.getD i 0
  let S0 := rotr v.a 28 ^^^ rotr v.a 34 ^^^ rotr v.a 39
  let maj := (v.a &&& v.b) ^^^ (v.a &&& v.c) ^^^ (v.b &&& v.c)
  let t2 := S0 + maj
  ⟨t1 + t2, v.a, v.b, v.c, v.d + t1, v.e, v.f, v.g⟩

/-- `compress`, of the block that `p` points to. -/
def compress (h : Eight 64) (p : List UInt8) : Eight 64 :=
  h.add ((List.range 80).foldl (turn (words p)) h)

end Sha512

structure Sha512Ctx where
  h : Eight 64
  total : BitVec 64
  buf : Vector UInt8 SHA512_BLOCK
  buf_len : ℕ

/-- `sha512_init`; what the buffer holds stays. -/
def sha512Init (c : Sha512Ctx) : Sha512Ctx :=
  { c with h := Sha512.iv, total := 0, buf_len := 0 }

/-- As much of `p` as the buffer has room for, and the block if it is full then. -/
def Sha512Ctx.fill (c : Sha512Ctx) (p : List UInt8) (n : ℕ) : Sha512Ctx :=
  let c := { c with buf := overwrite c.buf c.buf_len (p.take n), buf_len := c.buf_len + n }
  if c.buf_len = SHA512_BLOCK then
    { c with h := Sha512.compress c.h c.buf.toList, buf_len := 0 }
  else c

/-- The loop `while (len)`, with at most `fuel` turns. -/
def fillLoop : ℕ → Sha512Ctx → List UInt8 → Sha512Ctx
  | 0, c, _ => c
  | fuel + 1, c, p =>
    if p.length ≠ 0 then
      let n := min (SHA512_BLOCK - c.buf_len) p.length
      fillLoop fuel (c.fill p n) (p.drop n)
    else c

/-- `sha512_update` -/
def sha512Update (c : Sha512Ctx) (p : List UInt8) : Sha512Ctx :=
  fillLoop p.length { c with total := c.total + BitVec.ofNat 64 p.length } p

/-- `sha512_final`; `none` if the loop over the zeros does not end. -/
def sha512Final (c : Sha512Ctx) : Option (List UInt8) :=
  let bits := c.total * 8
  let c := sha512Update c [0x80]
  (repeatUntil (fun c => c.buf_len == SHA512_BLOCK - 16) (fun c => sha512Update c [0])
      SHA512_BLOCK c).map fun c =>
    let len := List.replicate 8 (0 : UInt8) ++
      (List.range 8).map fun i => lowByte (bits >>> (8 * (7 - i)))
    (sha512Update c len).h.toList.flatMap fun (x : BitVec 64) =>
      (List.range 8).map fun j => lowByte (x >>> (56 - 8 * j))

/-- `sha512`, with its context where `c` is. -/
def sha512 (c : Sha512Ctx) (data : List UInt8) : Option (List UInt8) :=
  sha512Final (sha512Update (sha512Init c) data)

/-! ## A block -/

namespace Sha512

variable {p : List UInt8} {i n : ℕ}

theorem rotr_eq (x : BitVec 64) (h : n < 64) : rotr x n = x.rotateRight n := by
  rw [rotr, BitVec.rotateRight_def, Nat.mod_eq_of_lt h]

/-- The constants are those of the standard. -/
theorem K_eq : K = (List.range 80).map Sha2.K := by
  rw [Sha2.map_K (by decide), firstPrimes_eq]
  decide +kernel

theorem iv_eq : iv = Sha2.initial := by decide +kernel

theorem small0_eq (x : BitVec 64) :
    Sha2.smallSigma SHA512.small0 x = rotr x 1 ^^^ rotr x 8 ^^^ x >>> 7 := by
  rw [rotr_eq x (by decide), rotr_eq x (by decide)]
  rfl

theorem small1_eq (x : BitVec 64) :
    Sha2.smallSigma SHA512.small1 x = rotr x 19 ^^^ rotr x 61 ^^^ x >>> 6 := by
  rw [rotr_eq x (by decide), rotr_eq x (by decide)]
  rfl

theorem big0_eq (x : BitVec 64) :
    Sha2.bigSigma SHA512.big0 x = rotr x 28 ^^^ rotr x 34 ^^^ rotr x 39 := by
  rw [rotr_eq x (by decide), rotr_eq x (by decide), rotr_eq x (by decide)]
  rfl

theorem big1_eq (x : BitVec 64) :
    Sha2.bigSigma SHA512.big1 x = rotr x 14 ^^^ rotr x 18 ^^^ rotr x 41 := by
  rw [rotr_eq x (by decide), rotr_eq x (by decide), rotr_eq x (by decide)]
  rfl

theorem loadWord_eq (h : i * 8 + 8 ≤ p.length) : loadWord p i = SHA512.word p i := by
  have hbytes := map_getD_range h (x := (0 : UInt8))
  rw [Sha2.word, show SHA512.wordBytes = 8 from rfl, Nat.mul_comm 8, ← hbytes, ← foldl_shift_or,
    List.foldl_map, loadWord]

theorem words_eq (h : 128 ≤ p.length) : words p = (List.range 80).map (SHA512.W p) := by
  have hfirst : (List.range 16).map (loadWord p) = (List.range 16).map (SHA512.W p) := by
    refine List.map_congr_left fun i hi => ?_
    have hi' : i < 16 := List.mem_range.mp hi
    rw [SHA512.W_first hi', loadWord_eq (by omega)]
  rw [words, hfirst]
  refine foldl_range'_concat (SHA512.W p) nextWord 16 64 fun i hi _ => ?_
  have hw : ∀ j < i, ((List.range i).map (SHA512.W p)).getD j 0 = SHA512.W p j :=
    fun j hj => getD_map_range _ hj
  rw [nextWord, hw _ (by omega), hw _ (by omega), hw _ (by omega), hw _ (by omega),
    SHA512.W_step hi, small0_eq, small1_eq]
  ac_rfl

/-- One block taken in is the hash computation of the standard. -/
theorem compress_eq (H : Eight 64) (h : p.length = 128) : compress H p = SHA512.next H p := by
  have hturn : ∀ v, ∀ i ∈ List.range 80, turn (words p) v i = SHA512.round p v i := by
    intro v i hi
    have hi' : i < 80 := List.mem_range.mp hi
    have hK : K.getD i 0 = Sha2.K i := by
      rw [K_eq, List.getD_eq_getElem _ _ (by simpa using hi'), List.getElem_map, List.getElem_range]
    have hw : (words p).getD i 0 = SHA512.W p i := by
      rw [words_eq h.ge, List.getD_eq_getElem _ _ (by simpa using hi'), List.getElem_map,
        List.getElem_range]
    rw [turn, hK, hw, Sha2.round, big0_eq, big1_eq, Sha2.ch, Sha2.maj]
  rw [compress, List.foldl_ext _ _ _ hturn, Eight.add_comm]
  rfl

end Sha512

/-! ## The stream -/

variable {c : Sha512Ctx} {p m : List UInt8}

namespace Sha512Ctx

/-- The hash of the blocks taken in, and what is there of the next. -/
def view (c : Sha512Ctx) : Eight 64 × List UInt8 := (c.h, c.buf.toList.take c.buf_len)

theorem length_view (hc : c.buf_len < 128) : c.view.2.length = c.buf_len := by
  rw [view, List.length_take, Vector.length_toList]
  exact min_eq_left hc.le

/-- What fits in the buffer is taken in. -/
theorem view_fill (hc : c.buf_len < 128) (hp : p ≠ []) {n : ℕ}
    (hn : n = min (SHA512_BLOCK - c.buf_len) p.length) :
    (c.fill p n).view = feed 128 SHA512.next c.view (p.take n) ∧ (c.fill p n).buf_len < 128 := by
  have hB : SHA512_BLOCK = 128 := rfl
  have hpos := List.length_pos_of_ne_nil hp
  have hlen : (p.take n).length = n := by
    rw [List.length_take]
    omega
  have hne : p.take n ≠ [] := List.ne_nil_of_length_pos (by omega)
  have hview : c.view = (c.h, c.view.2) := rfl
  have hr := length_view hc
  have hfill := take_overwrite c.buf (p.take n) (o := c.buf_len) (by omega)
  rw [hlen] at hfill
  change _ = c.view.2 ++ p.take n at hfill
  rw [fill]
  dsimp only
  split_ifs with hfull
  · have hwhole : (overwrite c.buf c.buf_len (p.take n)).toList = c.view.2 ++ p.take n := by
      rw [← hfill, hfull]
      exact (List.take_of_length_le (Vector.length_toList.le)).symm
    have hblock : (c.view.2 ++ p.take n).length = 128 := by
      rw [List.length_append]
      omega
    rw [hview, feed_fill hne (by omega), hwhole, Sha512.compress_eq _ hblock]
    exact ⟨Prod.ext rfl rfl, Nat.zero_lt_succ _⟩
  · have hlt : c.buf_len + n < 128 := by
      have hne : c.buf_len + n ≠ SHA512_BLOCK := hfull
      omega
    rw [hview, feed_short (by omega)]
    exact ⟨Prod.ext rfl hfill, hlt⟩

end Sha512Ctx

theorem view_fillLoop {fuel : ℕ} (hf : p.length ≤ fuel) (hc : c.buf_len < 128) :
    (fillLoop fuel c p).view = feed 128 SHA512.next c.view p ∧ (fillLoop fuel c p).buf_len < 128 := by
  induction fuel generalizing c p with
  | zero =>
    obtain rfl := List.length_eq_zero_iff.mp (Nat.le_zero.mp hf)
    exact ⟨rfl, hc⟩
  | succ fuel ih =>
    rw [fillLoop]
    split_ifs with hp
    · have hp' : p ≠ [] := fun h => hp (by rw [h, List.length_nil])
      obtain ⟨hview, hlt⟩ := c.view_fill hc hp' rfl
      have hrest : (p.drop (min (SHA512_BLOCK - c.buf_len) p.length)).length ≤ fuel := by
        have hB : SHA512_BLOCK = 128 := rfl
        rw [List.length_drop]
        omega
      have hstep := ih hrest hlt
      rw [hview, ← feed_append, List.take_append_drop] at hstep
      exact hstep
    · obtain rfl := List.length_eq_zero_iff.mp (not_not.mp hp)
      exact ⟨rfl, hc⟩

theorem view_sha512Update (hc : c.buf_len < 128) :
    (sha512Update c p).view = feed 128 SHA512.next c.view p ∧ (sha512Update c p).buf_len < 128 :=
  view_fillLoop le_rfl hc

theorem total_fillLoop (fuel : ℕ) : (fillLoop fuel c p).total = c.total := by
  induction fuel generalizing c p with
  | zero => rfl
  | succ fuel ih =>
    rw [fillLoop]
    split_ifs
    · rw [ih, Sha512Ctx.fill]
      dsimp only
      split_ifs <;> rfl
    · rfl

/-! ## The digest -/

/-- The context has taken in the message `m`. -/
structure Sha512Ctx.Holds (c : Sha512Ctx) (m : List UInt8) : Prop where
  view : c.view = feed 128 SHA512.next (Sha2.initial, []) m
  lt : c.buf_len < 128
  total : c.total = BitVec.ofNat 64 m.length

theorem holds_sha512Init (c : Sha512Ctx) : (sha512Init c).Holds [] where
  view := by
    rw [Sha512Ctx.view, sha512Init, List.take_zero, Sha512.iv_eq]
    rfl
  lt := Nat.zero_lt_succ _
  total := rfl

theorem Sha512Ctx.Holds.update (h : c.Holds m) (p : List UInt8) :
    (sha512Update c p).Holds (m ++ p) where
  view := by
    rw [(view_sha512Update h.lt).1, h.view, feed_append]
  lt := (view_sha512Update h.lt).2
  total := by
    rw [sha512Update, total_fillLoop, h.total, List.length_append, BitVec.ofNat_add]

/-- However a message is cut, the context has taken in the whole. -/
theorem Sha512Ctx.Holds.updates (h : c.Holds m) (ps : List (List UInt8)) :
    (ps.foldl sha512Update c).Holds (m ++ ps.flatten) := by
  induction ps generalizing c m with
  | nil => simpa using h
  | cons p ps ih =>
    rw [List.foldl_cons, List.flatten_cons, ← List.append_assoc]
    exact ih (h.update p)

/-- The number of bits, as it is written behind the padding. -/
theorem Sha512Ctx.Holds.bits (h : c.Holds m) (hm : m.length < 2 ^ 61) :
    List.replicate 8 (0 : UInt8) ++ ((List.range 8).map fun i =>
      lowByte ((c.total * 8) >>> (8 * (7 - i)))) = bytesBE 16 (8 * m.length) := by
  have hbits : (c.total * 8).toNat = 8 * m.length := by
    rw [h.total]
    simp
    omega
  rw [show 16 = 8 + 8 from rfl, bytesBE_add 8 (by omega), ← hbits, ← map_lowByte]

theorem output512_eq (H : Eight 64) : (H.toList.flatMap fun (x : BitVec 64) =>
    (List.range 8).map fun j => lowByte (x >>> (56 - 8 * j))) = SHA512.output H := by
  rw [Sha2.output]
  congr 1
  ext1 x
  rw [show SHA512.wordBytes = 8 from rfl, ← map_lowByte]
  rfl

/-- The final digest is that of the standard. -/
theorem sha512Final_eq (h : c.Holds m) (hm : m.length < 2 ^ 61) :
    sha512Final c = some (SHA512.digest m) := by
  have hmark := h.update [0x80]
  obtain ⟨c', hloop, hok, hview⟩ := SHA512.repeatUntil_zeros Sha512Ctx.view
    (fun c => c.buf_len < 128) (fun c => c.buf_len == SHA512_BLOCK - 16)
    (fun c => sha512Update c [0]) (by decide)
    (fun c hc => ⟨(view_sha512Update hc).2, (view_sha512Update hc).1⟩)
    (fun c hc => by rw [Sha512Ctx.length_view hc]; exact beq_iff_eq) hmark.lt hmark.view
  change repeatUntil _ _ SHA512_BLOCK _ = _ at hloop
  have hlast : (sha512Update c' (bytesBE 16 (8 * m.length))).view =
      feed SHA512.block SHA512.next (Sha2.initial, []) (SHA512.padded m) := by
    rw [Sha2.padded, feed_append, ← hview]
    exact (view_sha512Update hok).1
  rw [sha512Final]
  dsimp only
  rw [h.bits hm, hloop, Option.map_some, output512_eq, SHA512.digest_eq (by decide), ← hlast]
  rfl

end BananaOS.Crypto
