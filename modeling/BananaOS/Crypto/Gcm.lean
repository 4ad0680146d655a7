import BananaOS.Crypto.ChaChaPoly
import BananaOS.Lib.Gcm

/-!
# AES-GCM

The mode of `aead.c`.  The product with the key's factor `h` is taken four bits at a time: a table holds
the products of `h` with the sixteen numbers of four bits (`val_gcmTable`), a second one what four shifts
bring back into the field (`mulX_four`), and 32 look-ups make a product (`gfMultH_eq`).

* `gfMultH_eq`: the look-ups are the multiplication of the field, of any two elements.
* `aes_gcm_sound`: what is sealed is the mode of SP 800-38D, and only texts with the right tag are opened.
-/

namespace BananaOS.Crypto

open Lib

/-! ## The code -/

def LAST4 : List (BitVec 64) :=
  [0x0000, 0x1c20, 0x3840, 0x2460, 0x7080, 0x6ca0, 0x48c0, 0x54e0,
    0xe100, 0xfd20, 0xd940, 0xc560, 0x9180, 0x8da0, 0xa9c0, 0xb5e0]

/-- Two words of 64 bits: an element of `htab_hi` and of `htab_lo`. -/
@[ext] structure Pair where
  h : BitVec 64
  l : BitVec 64

def Pair.xor (a b : Pair) : Pair := ⟨a.h ^^^ b.h, a.l ^^^ b.l⟩

/-- `aes_gcm_t`; the two tables are one of pairs. -/
structure AesGcm where
  aes : Aes128
  htab : List Pair

def AesGcm.entry (g : AesGcm) (i : ℕ) : Pair := g.htab.getD i ⟨0, 0⟩

/-- A turn of the first loop over the table. -/
def halve (v : Pair) : Pair where
  h := v.h >>> 1 ^^^ ((v.l &&& 1) * 0xe1000000) <<< 32
  l := v.h <<< 63 ||| v.l >>> 1

/-- A turn of the second loop over the table. -/
def fillTable (t : List Pair) (i : ℕ) : List Pair :=
  let b := t.getD i ⟨0, 0⟩
  (List.range' 1 (i - 1)).foldl (fun t j => t.set (i + j) (b.xor (t.getD j ⟨0, 0⟩))) t

/-- The table of `aes_gcm_init`. -/
def gcmTable (v : Pair) : List Pair :=
  let t := ((List.replicate 16 ⟨0, 0⟩).set 8 v).set 0 ⟨0, 0⟩
  let t := ([4, 2, 1].foldl (fun (s : Pair × List Pair) i => (halve s.1, s.2.set i (halve s.1))) (v, t)).2
  [2, 4, 8].foldl fillTable t

/-- `vh` and `vl` of a block. -/
def pairOf (h : Block) : Pair :=
  ⟨be32 h.toList 0 ++ be32 h.toList 4, be32 h.toList 8 ++ be32 h.toList 12⟩

/-- `aes_gcm_init` -/
def aesGcmInit (key : Block) : AesGcm where
  aes := aes128Init key
  htab := gcmTable (pairOf (aes128Encrypt (aes128Init key) (blockOf [])))

/-- The look-up for the next four bits. -/
def tableStep (g : AesGcm) (z : Pair) (n : UInt8) : Pair :=
  let rem := (z.l &&& 0xf).toNat
  let zl := z.h <<< 60 ||| z.l >>> 4
  let zh := z.h >>> 4 ^^^ LAST4.getD rem 0 <<< 48
  Pair.xor ⟨zh, zl⟩ (g.entry n.toNat)

/-- A turn of the loop of `gf_mult_h`; the first four bits were looked up before it. -/
def multTurn (g : AesGcm) (x : Block) (z : Pair) (i : ℕ) : Pair :=
  let lo := x.toList.getD i 0 &&& 0xf
  let hi := x.toList.getD i 0 >>> 4
  let z := if i ≠ 15 then tableStep g z lo else z
  tableStep g z hi

/-- `gf_mult_h`, with `i` from 15 down. -/
def gfMultH (g : AesGcm) (x : Block) : Block :=
  let lo := x.toList.getD 15 0 &&& 0xf
  let z := (List.range 16).reverse.foldl (multTurn g x) (g.entry lo.toNat)
  Vector.ofFn fun i : Fin 16 =>
    if i.val < 8 then lowByte (z.h >>> (56 - 8 * i.val)) else lowByte (z.l >>> (120 - 8 * i.val))

def ghashUpdate (g : AesGcm) (y : Block) (data : List UInt8) : Block :=
  blockLoop 16 (fun y l => gfMultH g (Vector.zipWith (· ^^^ ·) y (blockOf l))) y data

/-- Block `c` of the stream of `gcm_ctr`. -/
def gcmStream (g : AesGcm) (nonce : List UInt8) (c : ℕ) : Block :=
  aes128Encrypt g.aes (blockOf (nonce ++ putBe32 (BitVec.ofNat 32 c)))

def gcmCtr (g : AesGcm) (nonce buf : List UInt8) : List UInt8 :=
  xorLoop 16 (fun c => (gcmStream g nonce c).toList) 2 buf

def gcmTag (g : AesGcm) (nonce aad ct : List UInt8) : Block :=
  let y := ghashUpdate g (blockOf []) aad
  let y := ghashUpdate g y ct
  let lens := List.replicate 4 0 ++ putBe32 (BitVec.ofNat 32 aad.length * 8) ++ List.replicate 4 0 ++
    putBe32 (BitVec.ofNat 32 ct.length * 8)
  let y := ghashUpdate g y lens
  Vector.zipWith (· ^^^ ·) y (gcmStream g nonce 1)

def aesGcmSeal (g : AesGcm) (nonce aad buf : List UInt8) : List UInt8 × Block :=
  let buf := gcmCtr g nonce buf
  (buf, gcmTag g nonce aad buf)

def aesGcmOpen (g : AesGcm) (nonce aad buf tag : List UInt8) : ℤ × List UInt8 :=
  let expect := gcmTag g nonce aad buf
  if ctMemcmp expect.toList tag ≠ 0 then (-1, buf) else (0, gcmCtr g nonce buf)

/-! ## Four bits at a time -/

variable {g : AesGcm} {z : Pair} {v : BitVec 128}

/-- The element of the field in two words. -/
def Pair.val (z : Pair) : BitVec 128 := z.h ++ z.l

theorem val_xor (a b : Pair) : (a.xor b).val = a.val ^^^ b.val := by
  rw [Pair.val, Pair.xor, Pair.val, Pair.val, BitVec.xor_append]

/-- Two words shifted to the right as one. -/
theorem append_shift (z : Pair) {n : ℕ} (hn : n ≤ 64) :
    (z.h >>> n) ++ (z.h <<< (64 - n) ||| z.l >>> n) = z.val >>> n := by
  refine BitVec.eq_of_getLsbD_eq fun i hi => ?_
  simp only [Pair.val, BitVec.getLsbD_append, BitVec.getLsbD_or, BitVec.getLsbD_shiftLeft,
    BitVec.getLsbD_ushiftRight]
  grind

theorem append_top (c : BitVec 64) : (c <<< 48) ++ 0#64 = c.setWidth 128 <<< 112 := by
  refine BitVec.eq_of_getLsbD_eq fun i hi => ?_
  simp only [BitVec.getLsbD_append, BitVec.getLsbD_shiftLeft, BitVec.getLsbD_setWidth, BitVec.getLsbD_zero]
  grind

theorem val_halve (z : Pair) : (halve z).val = Gcm.mulX z.val := by
  have hbit : z.val.getLsbD 0 = z.l.getLsbD 0 := by
    rw [Pair.val, BitVec.getLsbD_append]
    rfl
  have htop : (((z.l &&& 1) * 0xe1000000) <<< 32) ++ 0#64 =
      (if z.l.getLsbD 0 then 0xe1#128 <<< 120 else 0#128) := by
    have hand : z.l &&& 1 = if z.l.getLsbD 0 then 1 else 0 := by
      have h := BitVec.and_one_eq_setWidth_ofBool_getLsbD (x := z.l)
      rw [show (1 : BitVec 64) = 1#64 from rfl, h]
      cases z.l.getLsbD 0 <;> rfl
    rw [hand]
    cases z.l.getLsbD 0 <;> decide
  rw [Gcm.mulX, ← append_shift z (by decide), hbit, ← htop, BitVec.xor_append, BitVec.xor_zero]
  rfl

/-- A bit that does not fall out is shifted only. -/
theorem mulX_shiftLeft (w : BitVec 128) {n : ℕ} (hn : n < 4) :
    Gcm.mulX (w >>> 4 <<< (n + 1)) = w >>> 4 <<< n := by
  have h0 : (w >>> 4 <<< (n + 1)).getLsbD 0 = false := by simp
  refine BitVec.eq_of_getLsbD_eq fun i hi => ?_
  rw [Gcm.mulX, h0, if_neg Bool.false_ne_true, BitVec.xor_zero]
  simp only [BitVec.getLsbD_ushiftRight, BitVec.getLsbD_shiftLeft]
  grind

/-- The bits that fall out, four at a time. -/
theorem mulX_four (v : BitVec 128) : Gcm.mulX^[4] v =
    v >>> 4 ^^^ (LAST4.getD (v.toNat % 16) 0).setWidth 128 <<< 112 := by
  have hlow : ∀ k < 16, Gcm.mulX^[4] (BitVec.ofNat 128 k) = (LAST4.getD k 0).setWidth 128 <<< 112 := by
    decide
  have hv : v = v >>> 4 <<< 4 ^^^ BitVec.ofNat 128 (v.toNat % 16) := by
    refine BitVec.eq_of_getLsbD_eq fun i hi => ?_
    rw [BitVec.getLsbD_xor, BitVec.getLsbD_ofNat, show 16 = 2 ^ 4 from rfl, Nat.testBit_mod_two_pow,
      BitVec.testBit_toNat, BitVec.getLsbD_shiftLeft, BitVec.getLsbD_ushiftRight]
    grind
  have hxor : ∀ x y, Gcm.mulX^[4] (x ^^^ y) = Gcm.mulX^[4] x ^^^ Gcm.mulX^[4] y := fun x y => by
    simp only [Function.iterate_succ_apply, Function.iterate_zero_apply, Gcm.mulX_xor]
  conv_lhs => rw [hv, hxor, hlow _ (Nat.mod_lt _ (by decide))]
  refine congrArg (· ^^^ _) ?_
  simp only [Function.iterate_succ_apply, Function.iterate_zero_apply]
  rw [mulX_shiftLeft v (n := 3) (by decide), mulX_shiftLeft v (n := 2) (by decide),
    mulX_shiftLeft v (n := 1) (by decide), mulX_shiftLeft v (n := 0) (by decide), BitVec.shiftLeft_zero]

theorem val_tableStep (g : AesGcm) (z : Pair) (n : UInt8) :
    (tableStep g z n).val = (g.entry n.toNat).val ^^^ Gcm.mulX^[4] z.val := by
  have hrem : (z.l &&& 0xf).toNat = z.val.toNat % 16 := by
    rw [Pair.val, BitVec.toNat_append, BitVec.toNat_and, show 16 = 2 ^ 4 from rfl, Nat.or_mod_two_pow,
      Nat.shiftLeft_eq, show 2 ^ 64 = 2 ^ 60 * 2 ^ 4 from rfl, ← Nat.mul_assoc, Nat.mul_mod_left,
      Nat.zero_or]
    exact Nat.and_two_pow_sub_one_eq_mod _ 4
  rw [mulX_four, ← append_shift z (by decide), ← append_top, BitVec.xor_append, BitVec.xor_zero, ← hrem, tableStep,
    val_xor]
  exact BitVec.xor_comm _ _

/-! ## The table -/

/-- Four bits, the highest first. -/
def nibble (n : ℕ) : List Bool := [n.testBit 3, n.testBit 2, n.testBit 1, n.testBit 0]

theorem gcmTable_eq (v : Pair) : gcmTable v =
    let w := halve v
    let x := halve w
    let y := halve x
    [⟨0, 0⟩, y, x, x.xor y, w, w.xor y, w.xor x, w.xor (x.xor y), v, v.xor y, v.xor x, v.xor (x.xor y),
      v.xor w, v.xor (w.xor y), v.xor (w.xor x), v.xor (w.xor (x.xor y))] := by
  simp [gcmTable, fillTable, List.range'_succ, List.replicate_succ]

theorem val_zero : Pair.val ⟨0#64, 0#64⟩ = 0#128 := by decide

/-- An entry of the table is the sum of its bits' factors. -/
theorem val_gcmTable (v : Pair) {i : ℕ} (hi : i < 16) :
    ((gcmTable v).getD i ⟨0, 0⟩).val = Gcm.mul (nibble i) v.val := by
  rw [gcmTable_eq]
  interval_cases i <;>
    simp [nibble, Gcm.mul, val_halve, val_xor, Nat.testBit, val_zero]

theorem bits_byte (b : UInt8) : (List.range 8).map b.toBitVec.getMsbD =
    nibble (b >>> 4).toNat ++ nibble (b &&& 0xf).toNat :=
  forall_byte (p := fun b => (List.range 8).map b.toBitVec.getMsbD =
    nibble (b >>> 4).toNat ++ nibble (b &&& 0xf).toNat) (by decide +kernel) b

/-! ## The product -/

/-- Both halves of a byte, the lower one first. -/
def byteStep (g : AesGcm) (b : UInt8) (z : Pair) : Pair := tableStep g (tableStep g z (b &&& 0xf)) (b >>> 4)

/-- The table is that of the factor `h`. -/
def AesGcm.Multiplies (g : AesGcm) (h : BitVec 128) : Prop :=
  ∀ i < 16, (g.entry i).val = Gcm.mul (nibble i) h

variable {h : BitVec 128}

theorem val_byteStep (hg : g.Multiplies h) (b : UInt8) {bs : List Bool} (hz : z.val = Gcm.mul bs h) :
    (byteStep g b z).val = Gcm.mul ((List.range 8).map b.toBitVec.getMsbD ++ bs) h := by
  have hlo : (b &&& 0xf).toNat < 16 :=
    forall_byte (p := fun b => (b &&& 0xf).toNat < 16) (by decide +kernel) b
  have hhi : (b >>> 4).toNat < 16 := forall_byte (p := fun b => (b >>> 4).toNat < 16) (by decide +kernel) b
  rw [byteStep, val_tableStep, val_tableStep, hg _ hlo, hg _ hhi, hz, bits_byte, List.append_assoc,
    Gcm.mul_append, Gcm.mul_append]
  rfl

theorem val_byteSteps (hg : g.Multiplies h) (l : List UInt8) {bs : List Bool} (hz : z.val = Gcm.mul bs h) :
    (l.foldr (byteStep g) z).val = Gcm.mul (Gcm.bits l ++ bs) h := by
  induction l with
  | nil => exact hz
  | cons b l ih =>
    rw [List.foldr_cons, val_byteStep hg b ih, ← List.append_assoc]
    rfl

theorem toBlock_val (z : Pair) : (Vector.ofFn fun i : Fin 16 =>
    if i.val < 8 then lowByte (z.h >>> (56 - 8 * i.val)) else lowByte (z.l >>> (120 - 8 * i.val))) =
      Gcm.toBlock z.val := by
  ext1 i hi
  rw [Gcm.toBlock, Vector.getElem_ofFn, Vector.getElem_ofFn]
  have hbits : ∀ (x : BitVec 64) n m, (∀ j < 8, x.getLsbD (n + j) = z.val.getLsbD (m + j)) →
      lowByte (x >>> n) = lowByte (z.val >>> m) := fun x n m hx => by
    refine congrArg UInt8.ofBitVec (BitVec.eq_of_getLsbD_eq fun j hj => ?_)
    simp only [BitVec.getLsbD_setWidth, BitVec.getLsbD_ushiftRight, hx j hj]
  split_ifs with h8
  · refine hbits _ _ _ fun j hj => ?_
    rw [Pair.val, BitVec.getLsbD_append, if_neg (by omega)]
    exact congrArg _ (by omega)
  · refine hbits _ _ _ fun j hj => ?_
    rw [Pair.val, BitVec.getLsbD_append, if_pos (by omega)]
    exact congrArg _ (by omega)

/-- The look-ups together are the product. -/
theorem gfMultH_eq (hg : g.Multiplies h) (x : Block) :
    gfMultH g x = Gcm.toBlock (Gcm.mul (Gcm.bits x.toList) h) := by
  obtain ⟨b, hb⟩ : ∃ b, b = x.toList.getD 15 0 := ⟨_, rfl⟩
  have hfirst : tableStep g ⟨0, 0⟩ (b &&& 0xf) = g.entry (b &&& 0xf).toNat := by
    rw [tableStep, Pair.xor]
    ext1 <;> simp [LAST4]
  have hlist : x.toList = (List.range 16).map fun i => x.toList.getD i 0 := by
    refine List.ext_getElem (by simp) fun i h1 h2 => ?_
    rw [List.getElem_map, List.getElem_range, List.getD_eq_getElem]
  have hloop : (List.range 16).reverse.foldl (multTurn g x) (g.entry (b &&& 0xf).toNat) =
      x.toList.foldr (byteStep g) ⟨0, 0⟩ := by
    conv_rhs => rw [hlist, List.foldr_map]
    rw [List.foldl_reverse, List.range_succ, List.foldr_append, List.foldr_append]
    simp only [List.foldr_cons, List.foldr_nil, ← hb, byteStep, hfirst, multTurn]
    refine List.foldr_ext _ _ _ fun i hi z => ?_
    rw [if_pos (List.mem_range.mp hi).ne]
  have hval : (x.toList.foldr (byteStep g) ⟨0, 0⟩).val = Gcm.mul (Gcm.bits x.toList ++ []) h :=
    val_byteSteps hg x.toList val_zero
  rw [List.append_nil] at hval
  rw [gfMultH, ← hval, ← toBlock_val, ← hloop, hb]

/-! ## The mode -/

variable {key : Block} {nonce aad text : List UInt8}

theorem putBe32_eq (v : BitVec 32) : putBe32 v = bytesBE 4 v.toNat := by
  rw [← map_lowByte]
  rfl

theorem val_pairOf (b : Block) : (pairOf b).val = Gcm.ofBlock b := by
  obtain ⟨h0, h1, h2, h3⟩ := be32_block b
  rw [Pair.val, pairOf, h0, h1, h2, h3]
  rfl

theorem multiplies_aesGcmInit (key : Block) :
    (aesGcmInit key).Multiplies (Gcm.ofBlock (Aes.encrypt key (blockOf []))) := by
  intro i hi
  rw [AesGcm.entry, aesGcmInit]
  dsimp only
  rw [val_gcmTable _ hi, val_pairOf, aes128Encrypt_eq]

theorem padded_eq_blockOf (l : List UInt8) : Gcm.padded l = blockOf l := rfl

theorem ghashUpdate_eq (key y : Block) (l : List UInt8) : ghashUpdate (aesGcmInit key) y l =
    Lib.blockLoop 16 (Gcm.ghashStep (Aes.encrypt key (Gcm.padded []))) y l := by
  have hstep : (fun y l => gfMultH (aesGcmInit key) (Vector.zipWith (· ^^^ ·) y (blockOf l))) =
      Gcm.ghashStep (Aes.encrypt key (Gcm.padded [])) := by
    ext1 y
    ext1 l
    rw [gfMultH_eq (multiplies_aesGcmInit key), Gcm.ghashStep, padded_eq_blockOf, padded_eq_blockOf]
  rw [ghashUpdate, hstep]

theorem gcmStream_eq (key : Block) (nonce : List UInt8) (c : ℕ) :
    gcmStream (aesGcmInit key) nonce c = Aes.encrypt key (Gcm.counterBlock nonce c) := by
  have hmod : bytesBE 4 (BitVec.ofNat 32 c).toNat = bytesBE 4 c := by
    rw [BitVec.toNat_ofNat]
    exact bytesBE_mod 4 c
  rw [gcmStream, putBe32_eq, hmod]
  exact aes128Encrypt_eq key _

theorem gcmCtr_eq (key : Block) (nonce text : List UInt8) : gcmCtr (aesGcmInit key) nonce text =
    Gcm.encrypt (Aes.encrypt key) nonce text := by
  refine List.ext_getElem? fun i => ?_
  rw [gcmCtr, getElem?_xorLoop (by decide) fun c => Vector.length_toList, Gcm.encrypt,
    List.getElem?_mapIdx]
  simp only [gcmStream_eq]

theorem padded_zeros (l : List UInt8) (n : ℕ) : Gcm.padded (l ++ List.replicate n 0) = Gcm.padded l := by
  ext1 i hi
  rw [Gcm.padded, Gcm.padded, Vector.getElem_ofFn, Vector.getElem_ofFn]
  rcases Nat.lt_or_ge i l.length with h | h
  · rw [List.getD_append _ _ _ _ h]
  · rw [List.getD_append_right _ _ _ _ h, List.getD_eq_default _ _ h, List.getD_eq_getElem?_getD,
      List.getElem?_replicate]
    split_ifs <;> rfl

/-- A length in bits below `2^32` in eight bytes. -/
theorem bytesBE_bits {n : ℕ} (h : n < 2 ^ 29) :
    List.replicate 4 0 ++ putBe32 (BitVec.ofNat 32 n * 8) = bytesBE 8 (8 * n) := by
  have hval : (BitVec.ofNat 32 n * 8).toNat = 8 * n := by
    rw [BitVec.toNat_mul, BitVec.toNat_ofNat]
    change n % 2 ^ 32 * 8 % 2 ^ 32 = 8 * n
    omega
  rw [putBe32_eq, hval, bytesBE_add 4 (b := 4) (by omega)]

theorem gcmTag_eq (key : Block) (haad : aad.length < 2 ^ 29) (htext : text.length < 2 ^ 29) :
    gcmTag (aesGcmInit key) nonce aad text = Gcm.tag (Aes.encrypt key) nonce aad text := by
  have hstep : ∀ s l n, l.length + n = 16 →
      Gcm.ghashStep (Aes.encrypt key (Gcm.padded [])) s (l ++ List.replicate n 0) =
        Gcm.ghashStep (Aes.encrypt key (Gcm.padded [])) s l := fun s l n _ => by
    rw [Gcm.ghashStep, padded_zeros, ← Gcm.ghashStep]
  have hdata : aad ++ padding aad ++ text ++ padding text ++ bytesBE 8 (8 * aad.length) ++
      bytesBE 8 (8 * text.length) = aad ++ padding aad ++ (text ++ padding text ++
        (List.replicate 4 0 ++ putBe32 (BitVec.ofNat 32 aad.length * 8) ++ List.replicate 4 0 ++
          putBe32 (BitVec.ofNat 32 text.length * 8))) := by
    rw [← bytesBE_bits haad, ← bytesBE_bits htext]
    simp only [List.append_assoc]
  rw [gcmTag, ghashUpdate_eq, ghashUpdate_eq, ghashUpdate_eq, gcmStream_eq, Gcm.tag, Gcm.ghash, hdata,
    Gcm.blockLoop_padded hstep, Gcm.blockLoop_padded hstep]
  rfl

/-- The look-ups multiply by the key's factor, whatever the other one is.  What is sealed is the mode of
SP 800-38D with AES, for lengths whose bits are counted in a word; a text is taken with the tag that
belongs to it and with no other, and then decrypted, else it stays as it was; and what was sealed is
opened. -/
theorem aes_gcm_sound (key : Block) (nonce : List UInt8) (haad : aad.length < 2 ^ 29)
    (htext : text.length < 2 ^ 29) :
    (∀ x, gfMultH (aesGcmInit key) x =
      Gcm.toBlock (Gcm.mul (Gcm.bits x.toList) (Gcm.ofBlock (Aes.encrypt key (Gcm.padded []))))) ∧
      aesGcmSeal (aesGcmInit key) nonce aad text = Gcm.sealed (Aes.encrypt key) nonce aad text ∧
      (∀ tag, tag.length = 16 → aesGcmOpen (aesGcmInit key) nonce aad text tag =
        if tag = (Gcm.tag (Aes.encrypt key) nonce aad text).toList then
          (0, Gcm.encrypt (Aes.encrypt key) nonce text)
        else (-1, text)) ∧
      aesGcmOpen (aesGcmInit key) nonce aad (aesGcmSeal (aesGcmInit key) nonce aad text).1
        (aesGcmSeal (aesGcmInit key) nonce aad text).2.toList = (0, text) := by
  have hks : ∀ c, (gcmStream (aesGcmInit key) nonce c).toList.length = 16 := fun c => Vector.length_toList
  have hlen : (gcmCtr (aesGcmInit key) nonce text).length < 2 ^ 29 :=
    (length_xorLoop (by decide) hks 2 text).trans_lt htext
  refine ⟨gfMultH_eq (multiplies_aesGcmInit key), ?_, fun tag htag => ?_, ?_⟩
  · rw [aesGcmSeal, gcmTag_eq key haad hlen, gcmCtr_eq, Gcm.sealed]
  · rw [aesGcmOpen, ite_not, if_congr (ctMemcmp_eq_zero (by rw [Vector.length_toList, htag])) rfl rfl,
      gcmTag_eq key haad htext, gcmCtr_eq]
    exact if_congr eq_comm rfl rfl
  · rw [aesGcmOpen, aesGcmSeal, ctMemcmp_self, if_neg (not_not.mpr rfl), gcmCtr, gcmCtr,
      xorLoop_xorLoop (by decide) hks]

/-- A text of one byte. -/
theorem aes_gcm_sound_byte :
    aesGcmOpen (aesGcmInit (blockOf [1])) [] [2] (aesGcmSeal (aesGcmInit (blockOf [1])) [] [2] [3]).1
      (aesGcmSeal (aesGcmInit (blockOf [1])) [] [2] [3]).2.toList = (0, [3]) :=
  (@aes_gcm_sound [2] [3] (blockOf [1]) [] (by decide) (by decide)).2.2.2

end BananaOS.Crypto
