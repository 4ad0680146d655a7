import BananaOS.Lib.Aes

/-!
# AES-128 with tables

`aes128Encrypt` does a round with four look-ups for each word: a table has the substitution, the shift of
the rows puts its bytes in their columns, and the four tables together are the product with the matrix.

* `rk_aes128Init`: the round keys are the words of the schedule.
* `aes128Encrypt_eq`: the cipher is that of FIPS 197.
-/

namespace BananaOS.Crypto

open Lib

/-! ## The code -/

def SBOX : List UInt8 :=
  [0x63, 0x7c, 0x77, 0x7b, 0xf2, 0x6b, 0x6f, 0xc5, 0x30, 0x01, 0x67, 0x2b, 0xfe, 0xd7, 0xab, 0x76,
    0xca, 0x82, 0xc9, 0x7d, 0xfa, 0x59, 0x47, 0xf0, 0xad, 0xd4, 0xa2, 0xaf, 0x9c, 0xa4, 0x72, 0xc0,
    0xb7, 0xfd, 0x93, 0x26, 0x36, 0x3f, 0xf7, 0xcc, 0x34, 0xa5, 0xe5, 0xf1, 0x71, 0xd8, 0x31, 0x15,
    0x04, 0xc7, 0x23, 0xc3, 0x18, 0x96, 0x05, 0x9a, 0x07, 0x12, 0x80, 0xe2, 0xeb, 0x27, 0xb2, 0x75,
    0x09, 0x83, 0x2c, 0x1a, 0x1b, 0x6e, 0x5a, 0xa0, 0x52, 0x3b, 0xd6, 0xb3, 0x29, 0xe3, 0x2f, 0x84,
    0x53, 0xd1, 0x00, 0xed, 0x20, 0xfc, 0xb1, 0x5b, 0x6a, 0xcb, 0xbe, 0x39, 0x4a, 0x4c, 0x58, 0xcf,
    0xd0, 0xef, 0xaa, 0xfb, 0x43, 0x4d, 0x33, 0x85, 0x45, 0xf9, 0x02, 0x7f, 0x50, 0x3c, 0x9f, 0xa8,
    0x51, 0xa3, 0x40, 0x8f, 0x92, 0x9d, 0x38, 0xf5, 0xbc, 0xb6, 0xda, 0x21, 0x10, 0xff, 0xf3, 0xd2,
    0xcd, 0x0c, 0x13, 0xec, 0x5f, 0x97, 0x44, 0x17, 0xc4, 0xa7, 0x7e, 0x3d, 0x64, 0x5d, 0x19, 0x73,
    0x60, 0x81, 0x4f, 0xdc, 0x22, 0x2a, 0x90, 0x88, 0x46, 0xee, 0xb8, 0x14, 0xde, 0x5e, 0x0b, 0xdb,
    0xe0, 0x32, 0x3a, 0x0a, 0x49, 0x06, 0x24, 0x5c, 0xc2, 0xd3, 0xac, 0x62, 0x91, 0x95, 0xe4, 0x79,
    0xe7, 0xc8, 0x37, 0x6d, 0x8d, 0xd5, 0x4e, 0xa9, 0x6c, 0x56, 0xf4, 0xea, 0x65, 0x7a, 0xae, 0x08,
    0xba, 0x78, 0x25, 0x2e, 0x1c, 0xa6, 0xb4, 0xc6, 0xe8, 0xdd, 0x74, 0x1f, 0x4b, 0xbd, 0x8b, 0x8a,
    0x70, 0x3e, 0xb5, 0x66, 0x48, 0x03, 0xf6, 0x0e, 0x61, 0x35, 0x57, 0xb9, 0x86, 0xc1, 0x1d, 0x9e,
    0xe1, 0xf8, 0x98, 0x11, 0x69, 0xd9, 0x8e, 0x94, 0x9b, 0x1e, 0x87, 0xe9, 0xce, 0x55, 0x28, 0xdf,
    0x8c, 0xa1, 0x89, 0x0d, 0xbf, 0xe6, 0x42, 0x68, 0x41, 0x99, 0x2d, 0x0f, 0xb0, 0x54, 0xbb, 0x16]

def be32 (p : List UInt8) (o : ℕ) : BitVec 32 :=
  word32 (p.getD o 0) (p.getD (o + 1) 0) (p.getD (o + 2) 0) (p.getD (o + 3) 0)

/-- `put_be32`, the four bytes. -/
def putBe32 (v : BitVec 32) : List UInt8 :=
  [lowByte (v >>> 24), lowByte (v >>> 16), lowByte (v >>> 8), lowByte v]

def xtime (x : UInt8) : UInt8 := x <<< 1 ^^^ (if x &&& 0x80 ≠ 0 then 0x1b else 0)

def ror8 (v : BitVec 32) : BitVec 32 := v >>> 8 ||| v <<< 24

/-- The entry `i` of `Te0`, from `build_tables`. -/
def teEntry (i : ℕ) : BitVec 32 :=
  let s := SBOX.getD i 0
  let s2 := xtime s
  let s3 := s2 ^^^ s
  word32 s2 s s s3

def Te0 : List (BitVec 32) := (List.range 256).map teEntry

def Te1 : List (BitVec 32) := (List.range 256).map fun i => ror8 (teEntry i)

def Te2 : List (BitVec 32) := (List.range 256).map fun i => ror8 (ror8 (teEntry i))

def Te3 : List (BitVec 32) := (List.range 256).map fun i => ror8 (ror8 (ror8 (teEntry i)))

/-- `aes128_t` -/
structure Aes128 where
  rk : List (BitVec 32)

def rconTable : List UInt8 := [0x01, 0x02, 0x04, 0x08, 0x10, 0x20, 0x40, 0x80, 0x1b, 0x36]

/-- The next round key. -/
def nextKey (rk : List (BitVec 32)) (i : ℕ) : BitVec 32 :=
  let t := rk.getD (i - 1) 0
  let t :=
    if i % 4 = 0 then
      let t := t <<< 8 ||| t >>> 24
      let t := word32 (SBOX.getD (t >>> 24).toNat 0) (SBOX.getD ((t >>> 16) &&& 0xff).toNat 0)
        (SBOX.getD ((t >>> 8) &&& 0xff).toNat 0) (SBOX.getD (t &&& 0xff).toNat 0)
      t ^^^ (rconTable.getD (i / 4 - 1) 0).toBitVec.setWidth 32 <<< 24
    else t
  rk.getD (i - 4) 0 ^^^ t

/-- `aes128_init` -/
def aes128Init (key : Block) : Aes128 where
  rk := (List.range' 4 40).foldl (fun rk i => rk ++ [nextKey rk i])
    ((List.range 4).map fun i => be32 key.toList (4 * i))

/-- The variables `s0` to `s3`. -/
@[ext] structure Quad where
  s0 : BitVec 32
  s1 : BitVec 32
  s2 : BitVec 32
  s3 : BitVec 32
  deriving DecidableEq

/-- The look-ups for a word of the next state. -/
def look (a b c d : BitVec 32) : BitVec 32 :=
  Te0.getD (a >>> 24).toNat 0 ^^^ Te1.getD ((b >>> 16) &&& 0xff).toNat 0 ^^^
    Te2.getD ((c >>> 8) &&& 0xff).toNat 0 ^^^ Te3.getD (d &&& 0xff).toNat 0

/-- Round `r` of `aes128_encrypt`. -/
def tableRound (a : Aes128) (s : Quad) (r : ℕ) : Quad where
  s0 := look s.s0 s.s1 s.s2 s.s3 ^^^ a.rk.getD (4 * r) 0
  s1 := look s.s1 s.s2 s.s3 s.s0 ^^^ a.rk.getD (4 * r + 1) 0
  s2 := look s.s2 s.s3 s.s0 s.s1 ^^^ a.rk.getD (4 * r + 2) 0
  s3 := look s.s3 s.s0 s.s1 s.s2 ^^^ a.rk.getD (4 * r + 3) 0

/-- `FIN` -/
def fin (a b c d : BitVec 32) : BitVec 32 :=
  word32 (SBOX.getD (a >>> 24).toNat 0) (SBOX.getD ((b >>> 16) &&& 0xff).toNat 0)
    (SBOX.getD ((c >>> 8) &&& 0xff).toNat 0) (SBOX.getD (d &&& 0xff).toNat 0)

/-- The final round: no product with the matrix. -/
def finalRound (a : Aes128) (s : Quad) : Block :=
  let v0 := fin s.s0 s.s1 s.s2 s.s3 ^^^ a.rk.getD 40 0
  let v1 := fin s.s1 s.s2 s.s3 s.s0 ^^^ a.rk.getD 41 0
  let v2 := fin s.s2 s.s3 s.s0 s.s1 ^^^ a.rk.getD 42 0
  let v3 := fin s.s3 s.s0 s.s1 s.s2 ^^^ a.rk.getD 43 0
  #v[lowByte (v0 >>> 24), lowByte (v0 >>> 16), lowByte (v0 >>> 8), lowByte v0,
    lowByte (v1 >>> 24), lowByte (v1 >>> 16), lowByte (v1 >>> 8), lowByte v1,
    lowByte (v2 >>> 24), lowByte (v2 >>> 16), lowByte (v2 >>> 8), lowByte v2,
    lowByte (v3 >>> 24), lowByte (v3 >>> 16), lowByte (v3 >>> 8), lowByte v3]

/-- `aes128_encrypt` -/
def aes128Encrypt (a : Aes128) (input : Block) : Block :=
  finalRound a ((List.range' 1 9).foldl (tableRound a)
    ⟨be32 input.toList 0 ^^^ a.rk.getD 0 0, be32 input.toList 4 ^^^ a.rk.getD 1 0,
      be32 input.toList 8 ^^^ a.rk.getD 2 0, be32 input.toList 12 ^^^ a.rk.getD 3 0⟩)

/-! ## The tables -/

variable {a b c d x y z w : Aes.Col} {key : Block}

theorem SBOX_getD (b : UInt8) : SBOX.getD b.toNat 0 = Aes.sbox b :=
  forall_byte (p := fun b => SBOX.getD b.toNat 0 = Aes.sbox b) (by decide +kernel) b

/-- A column as a word. -/
def wordOf (x : Aes.Col) : BitVec 32 := word32 x.a x.b x.c x.d

theorem index_wordOf (x : Aes.Col) : (wordOf x >>> 24).toNat = x.a.toNat ∧
    ((wordOf x >>> 16) &&& 0xff).toNat = x.b.toNat ∧ ((wordOf x >>> 8) &&& 0xff).toNat = x.c.toNat ∧
    (wordOf x &&& 0xff).toNat = x.d.toNat := by
  obtain ⟨h1, h2, h3, h4⟩ := lowByte_word32 (a := x.a) (b := x.b) (c := x.c) (d := x.d)
  rw [toNat_shift_24, toNat_and_255, toNat_and_255, toNat_and_255, wordOf, h1, h2, h3, h4]
  exact ⟨rfl, rfl, rfl, rfl⟩

theorem wordOf_xor (x y : Aes.Col) : wordOf x ^^^ wordOf y = wordOf (x.xor y) := word32_xor

theorem teEntry_eq (b : UInt8) : teEntry b.toNat = word32 (Aes.xtime (Aes.sbox b)) (Aes.sbox b)
    (Aes.sbox b) (Aes.xtime (Aes.sbox b) ^^^ Aes.sbox b) := by
  rw [teEntry, SBOX_getD]
  rfl

theorem ror8_word32 (a b c d : UInt8) : ror8 (word32 a b c d) = word32 d a b c := word32_rotateRight

/-- The four look-ups are a column of the product with the matrix. -/
theorem look_eq (x y z w : Aes.Col) : look (wordOf x) (wordOf y) (wordOf z) (wordOf w) =
    wordOf (Aes.mixColumn (Aes.Col.map Aes.sbox ⟨x.a, y.b, z.c, w.d⟩)) := by
  rw [look, (index_wordOf x).1, (index_wordOf y).2.1, (index_wordOf z).2.2.1, (index_wordOf w).2.2.2,
    Te0, Te1, Te2, Te3, getD_map_range _ x.a.toNat_lt,
    getD_map_range _ y.b.toNat_lt, getD_map_range _ z.c.toNat_lt, getD_map_range _ w.d.toNat_lt, teEntry_eq, teEntry_eq, teEntry_eq,
    teEntry_eq]
  simp only [ror8_word32, word32_xor]
  change wordOf ⟨_, _, _, _⟩ = _
  refine congrArg wordOf (Aes.Col.ext ?_ ?_ ?_ ?_) <;>
    simp only [Aes.Col.map, Aes.mixColumn, Aes.Col.dot, Aes.mul_one, Aes.mul_two, Aes.mul_three] <;> ac_rfl

theorem fin_eq (x y z w : Aes.Col) : fin (wordOf x) (wordOf y) (wordOf z) (wordOf w) =
    wordOf (Aes.Col.map Aes.sbox ⟨x.a, y.b, z.c, w.d⟩) := by
  rw [fin, (index_wordOf x).1, (index_wordOf y).2.1, (index_wordOf z).2.2.1, (index_wordOf w).2.2.2,
    SBOX_getD, SBOX_getD, SBOX_getD, SBOX_getD]
  rfl

/-! ## The round keys -/

theorem getD_toList (b : Block) (i : ℕ) (hi : i < 16) : b.toList.getD i 0 = b[i] := by
  rw [List.getD_eq_getElem _ _ (by simpa using hi), Vector.getElem_toList]

theorem be32_block (b : Block) : be32 b.toList 0 = wordOf (Aes.ofBlock b).w0 ∧
    be32 b.toList 4 = wordOf (Aes.ofBlock b).w1 ∧ be32 b.toList 8 = wordOf (Aes.ofBlock b).w2 ∧
    be32 b.toList 12 = wordOf (Aes.ofBlock b).w3 := by
  have hget := getD_toList b
  refine ⟨?_, ?_, ?_, ?_⟩ <;>
    rw [be32, hget _ (by decide), hget _ (by decide), hget _ (by decide), hget _ (by decide)] <;> rfl

theorem rconTable_getD : ∀ j < 11, 0 < j →
    (rconTable.getD (j - 1) 0).toBitVec.setWidth 32 <<< 24 = wordOf (Aes.rcon j) := by
  decide +kernel

/-- The round key after those of the schedule. -/
theorem nextKey_eq {i : ℕ} (hi : 4 ≤ i) (hlt : i < 44) :
    nextKey ((List.range i).map fun i => wordOf (Aes.keyWord (Aes.ofBlock key) i)) i =
      wordOf (Aes.keyWord (Aes.ofBlock key) i) := by
  rw [nextKey, getD_map_range _ (by omega), getD_map_range _ (by omega), Aes.keyWord_step hi,
    ← wordOf_xor]
  dsimp only
  split_ifs with hmod
  · obtain ⟨x, hx⟩ : ∃ x, x = Aes.keyWord (Aes.ofBlock key) (i - 1) := ⟨_, rfl⟩
    have hrot : wordOf x <<< 8 ||| wordOf x >>> 24 = wordOf x.rot := word32_rotateLeft
    rw [← hx, hrot, (index_wordOf x.rot).1, (index_wordOf x.rot).2.1, (index_wordOf x.rot).2.2.1,
      (index_wordOf x.rot).2.2.2, SBOX_getD, SBOX_getD, SBOX_getD, SBOX_getD,
      rconTable_getD (i / 4) (by omega) (by omega), ← wordOf_xor]
    rfl
  · rfl

/-- The round keys are the words of the schedule. -/
theorem rk_aes128Init (key : Block) :
    (aes128Init key).rk = (List.range 44).map fun i => wordOf (Aes.keyWord (Aes.ofBlock key) i) := by
  have hkey := be32_block key
  have hfirst : (List.range 4).map (fun i => be32 key.toList (4 * i)) =
      (List.range 4).map fun i => wordOf (Aes.keyWord (Aes.ofBlock key) i) := by
    have hw : ∀ i < 4, be32 key.toList (4 * i) = wordOf (Aes.keyWord (Aes.ofBlock key) i) := by
      intro i hi
      interval_cases i
      · rw [Aes.keyWord.eq_def]
        exact hkey.1
      · rw [Aes.keyWord.eq_def]
        exact hkey.2.1
      · rw [Aes.keyWord.eq_def]
        exact hkey.2.2.1
      · rw [Aes.keyWord.eq_def]
        exact hkey.2.2.2
    exact List.map_congr_left fun i hi => hw i (List.mem_range.mp hi)
  rw [aes128Init, hfirst]
  exact foldl_range'_concat _ nextKey 4 40 fun i hi hlt => nextKey_eq hi (by omega)

theorem rk_getD (key : Block) {i : ℕ} (hi : i < 44) :
    (aes128Init key).rk.getD i 0 = wordOf (Aes.keyWord (Aes.ofBlock key) i) := by
  rw [rk_aes128Init, getD_map_range _ hi]

/-! ## The cipher -/

/-- A state as four words. -/
def quadOf (s : Aes.State) : Quad := ⟨wordOf s.w0, wordOf s.w1, wordOf s.w2, wordOf s.w3⟩

theorem tableRound_eq (s : Aes.State) {r : ℕ} (hr : 4 * r + 3 < 44) :
    tableRound (aes128Init key) (quadOf s) r =
      quadOf (Aes.addRoundKey (Aes.mixColumns (Aes.shiftRows (Aes.subBytes s)))
        (Aes.roundKey (Aes.ofBlock key) r)) := by
  rw [tableRound, rk_getD key (by omega), rk_getD key (by omega), rk_getD key (by omega), rk_getD key hr]
  ext1
  · exact (congrArg (· ^^^ _) (look_eq ..)).trans (wordOf_xor ..)
  · exact (congrArg (· ^^^ _) (look_eq ..)).trans (wordOf_xor ..)
  · exact (congrArg (· ^^^ _) (look_eq ..)).trans (wordOf_xor ..)
  · exact (congrArg (· ^^^ _) (look_eq ..)).trans (wordOf_xor ..)

theorem foldl_tableRound {rs : List ℕ} (hrs : ∀ r ∈ rs, 4 * r + 3 < 44) (s : Aes.State) :
    rs.foldl (tableRound (aes128Init key)) (quadOf s) =
      quadOf (rs.foldl (fun s r => Aes.addRoundKey (Aes.mixColumns (Aes.shiftRows (Aes.subBytes s)))
        (Aes.roundKey (Aes.ofBlock key) r)) s) := by
  induction rs generalizing s with
  | nil => rfl
  | cons r rs ih =>
    rw [List.foldl_cons, tableRound_eq s (hrs r (.head _)), ih fun r hr => hrs r (.tail _ hr),
      List.foldl_cons]

theorem lowByte_wordOf (x : Aes.Col) : lowByte (wordOf x >>> 24) = x.a ∧
    lowByte (wordOf x >>> 16) = x.b ∧ lowByte (wordOf x >>> 8) = x.c ∧ lowByte (wordOf x) = x.d :=
  lowByte_word32

theorem finalRound_eq (s : Aes.State) : finalRound (aes128Init key) (quadOf s) =
    Aes.toBlock (Aes.addRoundKey (Aes.shiftRows (Aes.subBytes s)) (Aes.roundKey (Aes.ofBlock key) 10)) := by
  have hword : ∀ (x y z w : Aes.Col) (i : ℕ), i < 44 →
      fin (wordOf x) (wordOf y) (wordOf z) (wordOf w) ^^^ (aes128Init key).rk.getD i 0 =
        wordOf ((Aes.Col.map Aes.sbox ⟨x.a, y.b, z.c, w.d⟩).xor (Aes.keyWord (Aes.ofBlock key) i)) :=
    fun x y z w i hi => by rw [fin_eq, rk_getD key hi, wordOf_xor]
  rw [finalRound, quadOf]
  simp only [hword _ _ _ _ 40 (by decide), hword _ _ _ _ 41 (by decide), hword _ _ _ _ 42 (by decide),
    hword _ _ _ _ 43 (by decide), lowByte_wordOf]
  rfl

theorem aes128Encrypt_eq (key input : Block) :
    aes128Encrypt (aes128Init key) input = Aes.encrypt key input := by
  obtain ⟨h0, h1, h2, h3⟩ := be32_block input
  have hstart : (⟨be32 input.toList 0 ^^^ (aes128Init key).rk.getD 0 0,
      be32 input.toList 4 ^^^ (aes128Init key).rk.getD 1 0,
      be32 input.toList 8 ^^^ (aes128Init key).rk.getD 2 0,
      be32 input.toList 12 ^^^ (aes128Init key).rk.getD 3 0⟩ : Quad) =
        quadOf (Aes.addRoundKey (Aes.ofBlock input) (Aes.roundKey (Aes.ofBlock key) 0)) := by
    rw [h0, h1, h2, h3, rk_getD key (by decide), rk_getD key (by decide), rk_getD key (by decide),
      rk_getD key (by decide), wordOf_xor, wordOf_xor, wordOf_xor, wordOf_xor]
    rfl
  have hrounds : ∀ r ∈ List.range' 1 9, 4 * r + 3 < 44 := fun r hr => by
    have := List.mem_range'_1.mp hr
    omega
  rw [aes128Encrypt, hstart, foldl_tableRound hrounds, finalRound_eq, Aes.encrypt, Aes.cipher]

end BananaOS.Crypto
