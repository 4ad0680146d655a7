import BananaOS.Crypto.Aes
import BananaOS.Lib.KeyWrap

/-!
# The cipher backwards, the key unwrapping and the frames of the Wi-Fi code

`decrypt` goes back through the rounds byte by byte with the schedule of `aes128Init`; `wifiKeyUnwrap`
unwraps the key data of RFC 3394 with it, and `wifiCcmpSeal` and `wifiCcmpOpen` are CCMP.

* `decrypt_eq`: the cipher backwards is that of FIPS 197.
* `wifiKeyUnwrap_eq`: the unwrapping is that of RFC 3394, refused where the integrity value is wrong.
* `wifiCcmpOpen_seal`: what was sealed is opened.
-/

namespace BananaOS.Crypto

open Lib

/-! ## The code -/

/-- The loop of `mul`, with `n` turns left. -/
def mulLoop : ℕ → UInt8 → UInt8 → UInt8 → UInt8
  | 0, r, _, _ => r
  | n + 1, r, a, b =>
    mulLoop n (if b &&& 1 ≠ 0 then r ^^^ a else r) (a <<< 1 ^^^ (if a &&& 0x80 ≠ 0 then 0x1b else 0))
      (b >>> 1)

def mul (a b : UInt8) : UInt8 := mulLoop 8 0 a b

def INV_SBOX : List UInt8 :=
  [0x52, 0x09, 0x6a, 0xd5, 0x30, 0x36, 0xa5, 0x38, 0xbf, 0x40, 0xa3, 0x9e, 0x81, 0xf3, 0xd7, 0xfb,
    0x7c, 0xe3, 0x39, 0x82, 0x9b, 0x2f, 0xff, 0x87, 0x34, 0x8e, 0x43, 0x44, 0xc4, 0xde, 0xe9, 0xcb,
    0x54, 0x7b, 0x94, 0x32, 0xa6, 0xc2, 0x23, 0x3d, 0xee, 0x4c, 0x95, 0x0b, 0x42, 0xfa, 0xc3, 0x4e,
    0x08, 0x2e, 0xa1, 0x66, 0x28, 0xd9, 0x24, 0xb2, 0x76, 0x5b, 0xa2, 0x49, 0x6d, 0x8b, 0xd1, 0x25,
    0x72, 0xf8, 0xf6, 0x64, 0x86, 0x68, 0x98, 0x16, 0xd4, 0xa4, 0x5c, 0xcc, 0x5d, 0x65, 0xb6, 0x92,
    0x6c, 0x70, 0x48, 0x50, 0xfd, 0xed, 0xb9, 0xda, 0x5e, 0x15, 0x46, 0x57, 0xa7, 0x8d, 0x9d, 0x84,
    0x90, 0xd8, 0xab, 0x00, 0x8c, 0xbc, 0xd3, 0x0a, 0xf7, 0xe4, 0x58, 0x05, 0xb8, 0xb3, 0x45, 0x06,
    0xd0, 0x2c, 0x1e, 0x8f, 0xca, 0x3f, 0x0f, 0x02, 0xc1, 0xaf, 0xbd, 0x03, 0x01, 0x13, 0x8a, 0x6b,
    0x3a, 0x91, 0x11, 0x41, 0x4f, 0x67, 0xdc, 0xea, 0x97, 0xf2, 0xcf, 0xce, 0xf0, 0xb4, 0xe6, 0x73,
    0x96, 0xac, 0x74, 0x22, 0xe7, 0xad, 0x35, 0x85, 0xe2, 0xf9, 0x37, 0xe8, 0x1c, 0x75, 0xdf, 0x6e,
    0x47, 0xf1, 0x1a, 0x71, 0x1d, 0x29, 0xc5, 0x89, 0x6f, 0xb7, 0x62, 0x0e, 0xaa, 0x18, 0xbe, 0x1b,
    0xfc, 0x56, 0x3e, 0x4b, 0xc6, 0xd2, 0x79, 0x20, 0x9a, 0xdb, 0xc0, 0xfe, 0x78, 0xcd, 0x5a, 0xf4,
    0x1f, 0xdd, 0xa8, 0x33, 0x88, 0x07, 0xc7, 0x31, 0xb1, 0x12, 0x10, 0x59, 0x27, 0x80, 0xec, 0x5f,
    0x60, 0x51, 0x7f, 0xa9, 0x19, 0xb5, 0x4a, 0x0d, 0x2d, 0xe5, 0x7a, 0x9f, 0x93, 0xc9, 0x9c, 0xef,
    0xa0, 0xe0, 0x3b, 0x4d, 0xae, 0x2a, 0xf5, 0xb0, 0xc8, 0xeb, 0xbb, 0x3c, 0x83, 0x53, 0x99, 0x61,
    0x17, 0x2b, 0x04, 0x7e, 0xba, 0x77, 0xd6, 0x26, 0xe1, 0x69, 0x14, 0x63, 0x55, 0x21, 0x0c, 0x7d]

def addkey (s : Block) (a : Aes128) (round : ℕ) : Block := Vector.ofFn fun i : Fin 16 =>
  s[i] ^^^ lowByte (a.rk.getD (round * 4 + i.val / 4) 0 >>> (24 - i.val % 4 * 8))

/-- The rows shifted back, and the bytes substituted. -/
def invRows (s : Block) : Block := Vector.ofFn fun i : Fin 16 =>
  INV_SBOX.getD (byteOf s (i.val % 4 + 4 * ((i.val / 4 + 4 - i.val % 4) % 4))).toNat 0

/-- The product with the inverse matrix, column by column. -/
def invColumns (s : Block) : Block := Vector.ofFn fun i : Fin 16 =>
  let v := fun k => byteOf s (4 * (i.val / 4) + k)
  match i.val % 4 with
  | 0 => mul (v 0) 14 ^^^ mul (v 1) 11 ^^^ mul (v 2) 13 ^^^ mul (v 3) 9
  | 1 => mul (v 0) 9 ^^^ mul (v 1) 14 ^^^ mul (v 2) 11 ^^^ mul (v 3) 13
  | 2 => mul (v 0) 13 ^^^ mul (v 1) 9 ^^^ mul (v 2) 14 ^^^ mul (v 3) 11
  | _ => mul (v 0) 11 ^^^ mul (v 1) 13 ^^^ mul (v 2) 9 ^^^ mul (v 3) 14

def decryptTurn (a : Aes128) (s : Block) (round : ℕ) : Block :=
  let s := addkey (invRows s) a round
  if round ≠ 0 then invColumns s else s

def decrypt (a : Aes128) (b : Block) : Block :=
  (List.range 10).reverse.foldl (decryptTurn a) (addkey b a 10)

/-- A turn of the loops of `wifi_key_unwrap`, for `j` and `i`: the buffers `a` and `out`. -/
def unwrapTurn {m : ℕ} (aes : Aes128) (n : ℕ) (x : KeyWrap.Registers m) (s : ℕ × ℕ) :
    KeyWrap.Registers m :=
  let t := n * s.1 + s.2
  let b : Block := Vector.ofFn fun k : Fin 16 =>
    if k.val < 8 then byteOf x.a k ^^^ UInt8.ofNat (t / 2 ^ (8 * (7 - k.val)))
    else byteOf x.r (8 * (s.2 - 1) + (k.val - 8))
  let b := decrypt aes b
  ⟨Vector.ofFn fun k : Fin 8 => byteOf b k, overwrite x.r (8 * (s.2 - 1)) (b.toList.drop 8)⟩

/-- The turns, `j` from 5 down to 0 and `i` from `n` down to 1. -/
def unwrapTurns (n : ℕ) : List (ℕ × ℕ) :=
  (List.range 6).reverse.flatMap fun j => (List.range' 1 n).reverse.map fun i => (j, i)

/-- `wifi_key_unwrap` behind its check, with `m` bytes of output. -/
def keyUnwrap (kek : Block) (input : List UInt8) (m : ℕ) : Option (List UInt8) :=
  let x : KeyWrap.Registers m :=
    ⟨Vector.ofFn fun k : Fin 8 => input.getD k 0, Vector.ofFn fun k : Fin m => input.getD (8 + k) 0⟩
  let x := (unwrapTurns (m / 8)).foldl (unwrapTurn (aes128Init kek) (m / 8)) x
  let bad := x.a.toList.foldl (fun bad b => bad ||| (b ^^^ 0xa6)) 0
  if bad ≠ 0 then none else some x.r.toList

/-- `wifi_key_unwrap`; the result is the output, if it is not refused. -/
def wifiKeyUnwrap (kek : Block) (input : List UInt8) : Option (List UInt8) :=
  if input.length < 24 ∨ 512 < input.length ∨ input.length &&& 7 ≠ 0 then none
  else keyUnwrap kek input (input.length - 8)

/-- `ccmp_nonce`: the nonce and the additional data. -/
def ccmpNonce (h : List UInt8) (hlen pn : ℕ) : Option (List UInt8 × List UInt8) :=
  let h0 := h.getD 0 0
  let h1 := h.getD 1 0
  if (hlen ≠ 24 ∧ hlen ≠ 26) ∨ pn = 0 ∨ 2 ^ 48 ≤ pn ∨ h0 &&& 0x0c ≠ 8 ∨ h1 &&& 3 = 3 ∨ h1 &&& 0x40 = 0 ∨
      decide (hlen = 26) ≠ decide (h0 &&& 0x80 ≠ 0) then none
  else
    let tid := if hlen = 26 then h.getD 24 0 &&& 15 else 0
    some (tid :: (List.range 6).map (fun i => h.getD (10 + i) 0) ++
        (List.range 6).map (fun i => UInt8.ofNat (pn / 2 ^ (40 - 8 * i))),
      (List.range 32).map fun i =>
        if i = 1 then (if hlen = 26 then 24 else 22)
        else if i = 2 then h0 &&& 0x8f
        else if i = 3 then h1 &&& (if hlen = 26 then 0x47 else 0xc7)
        else if 4 ≤ i ∧ i < 22 then h.getD i 0
        else if i = 22 then h.getD 22 0 &&& 15
        else if i = 24 then tid
        else 0)

/-- A block of these bytes, with zeros behind them. -/
def blockOf (l : List UInt8) : Block := Vector.ofFn fun i : Fin 16 => l.getD i 0

def cbc (aes : Aes128) (mac : Block) (b : List UInt8) : Block :=
  aes128Encrypt aes (Vector.zipWith (· ^^^ ·) mac (blockOf b))

/-- `ccmp_mac` -/
def ccmpMac (aes : Aes128) (nonce aad p : List UInt8) : Block :=
  let mac := cbc aes (blockOf []) (0x59 :: nonce ++ [UInt8.ofNat (p.length / 256), UInt8.ofNat p.length])
  let mac := cbc aes mac (aad.take 16)
  let mac := cbc aes mac (aad.drop 16)
  blockLoop 16 (cbc aes) mac p

/-- Block `count` of the stream of `ccmp_ctr`. -/
def ccmpStream (aes : Aes128) (nonce : List UInt8) (count : ℕ) : Block :=
  aes128Encrypt aes (blockOf (1 :: nonce ++ [UInt8.ofNat (count / 256), UInt8.ofNat count]))

/-- `ccmp_ctr`: the data, and `s0`. -/
def ccmpCtr (aes : Aes128) (nonce p : List UInt8) : List UInt8 × Block :=
  (xorLoop 16 (fun count => (ccmpStream aes nonce count).toList) 1 p,
    aes128Encrypt aes (blockOf (1 :: nonce)))

/-- The first eight bytes of the checksum, encrypted. -/
def ccmpTag (mac s0 : Block) : List UInt8 := (Vector.zipWith (· ^^^ ·) mac s0).toList.take 8

/-- `ct_memcmp` -/
def ctMemcmp (a b : List UInt8) : UInt8 :=
  (List.zipWith (· ^^^ ·) a b).foldl (· ||| ·) 0

/-- `wifi_ccmp_seal`: the encrypted data and the checksum. -/
def wifiCcmpSeal (tk : Block) (h : List UInt8) (hlen pn : ℕ) (data : List UInt8) :
    Option (List UInt8 × List UInt8) :=
  if 2304 < data.length then none
  else (ccmpNonce h hlen pn).map fun (nonce, aad) =>
    let aes := aes128Init tk
    let mac := ccmpMac aes nonce aad data
    let (data, s0) := ccmpCtr aes nonce data
    (data, ccmpTag mac s0)

/-- `wifi_ccmp_open`: the data, if it is not refused. -/
def wifiCcmpOpen (tk : Block) (h : List UInt8) (hlen pn : ℕ) (data mic : List UInt8) :
    Option (List UInt8) :=
  if 2304 < data.length then none
  else (ccmpNonce h hlen pn).bind fun (nonce, aad) =>
    let aes := aes128Init tk
    let (data, s0) := ccmpCtr aes nonce data
    let mac := ccmpMac aes nonce aad data
    if ctMemcmp (ccmpTag mac s0) mic ≠ 0 then none else some data

/-! ## The cipher backwards -/

theorem mulLoop_eq (n : ℕ) (r a b : UInt8) : mulLoop n r a b = r ^^^ Aes.mulBits n a b.toNat := by
  induction n generalizing r a b with
  | zero => rw [mulLoop, Aes.mulBits, UInt8.xor_zero]
  | succ n ih =>
    have hodd : b &&& 1 ≠ 0 ↔ b.toNat % 2 = 1 :=
      forall_byte (p := fun b => b &&& 1 ≠ 0 ↔ b.toNat % 2 = 1) (by decide +kernel) b
    have hhalf : (b >>> 1).toNat = b.toNat / 2 := by
      simp [UInt8.toNat_shiftRight, Nat.shiftRight_eq_div_pow]
    rw [mulLoop, ih, Aes.mulBits, hhalf, ← UInt8.xor_assoc]
    refine congrArg₂ (· ^^^ ·) ?_ rfl
    by_cases hb : b &&& 1 ≠ 0
    · rw [if_pos hb, if_pos (hodd.mp hb)]
    · rw [if_neg hb, if_neg fun h => hb (hodd.mpr h), UInt8.xor_zero]

theorem mul_eq (a b : UInt8) : mul a b = Aes.mul a b := by
  rw [mul, mulLoop_eq, UInt8.zero_xor, Aes.mul]

theorem INV_SBOX_getD (b : UInt8) : INV_SBOX.getD b.toNat 0 = Aes.invSbox b :=
  forall_byte (p := fun b => INV_SBOX.getD b.toNat 0 = Aes.invSbox b) (by decide +kernel) b

variable {key : Block}

theorem ofBlock_addkey (s : Block) {round : ℕ} (hround : round ≤ 10) :
    Aes.ofBlock (addkey s (aes128Init key) round) =
      Aes.addRoundKey (Aes.ofBlock s) (Aes.roundKey (Aes.ofBlock key) round) := by
  have hkey : ∀ i < 4, (aes128Init key).rk.getD (round * 4 + i) 0 =
      wordOf (Aes.keyWord (Aes.ofBlock key) (4 * round + i)) := fun i hi => by
    rw [rk_getD key (by omega), Nat.mul_comm]
  rw [Aes.ofBlock, addkey]
  simp only [Vector.getElem_ofFn, Nat.reduceDiv, Nat.reduceMod, Nat.reduceMul, Nat.reduceSub,
    hkey 0 (by decide), hkey 1 (by decide), hkey 2 (by decide), hkey 3 (by decide),
    BitVec.ushiftRight_zero, lowByte_wordOf]
  rfl

theorem ofBlock_invRows (s : Block) :
    Aes.ofBlock (invRows s) = Aes.invSubBytes (Aes.invShiftRows (Aes.ofBlock s)) := by
  rw [Aes.ofBlock_eq_byteOf s, Aes.ofBlock, invRows]
  simp only [INV_SBOX_getD, Vector.getElem_ofFn]
  rfl

theorem ofBlock_invColumns (s : Block) :
    Aes.ofBlock (invColumns s) = Aes.invMixColumns (Aes.ofBlock s) := by
  rw [Aes.ofBlock_eq_byteOf s, Aes.ofBlock, invColumns]
  simp only [mul_eq, Vector.getElem_ofFn]
  rfl

/-- The cipher backwards is that of FIPS 197. -/
theorem decrypt_eq (key b : Block) : decrypt (aes128Init key) b = Aes.decrypt key b := by
  have hround : ∀ (rs : List ℕ) (s : Block), (∀ r ∈ rs, 0 < r ∧ r ≤ 10) →
      Aes.ofBlock (rs.foldl (decryptTurn (aes128Init key)) s) = rs.foldl (fun s r => Aes.invMixColumns
        (Aes.addRoundKey (Aes.invSubBytes (Aes.invShiftRows s)) (Aes.roundKey (Aes.ofBlock key) r)))
          (Aes.ofBlock s) := by
    intro rs
    induction rs with
    | nil => exact fun _ _ => rfl
    | cons r rs ih =>
      intro s hrs
      obtain ⟨hpos, hle⟩ := hrs r (.head _)
      rw [List.foldl_cons, ih _ fun r hr => hrs r (.tail _ hr), List.foldl_cons,
        decryptTurn, if_pos (by omega), ofBlock_invColumns, ofBlock_addkey _ hle, ofBlock_invRows]
  have hlist : (List.range 10).reverse = (List.range' 1 9).reverse ++ [0] := by decide
  have hmem : ∀ r ∈ (List.range' 1 9).reverse, 0 < r ∧ r ≤ 10 := by decide
  rw [decrypt, hlist, List.foldl_append, List.foldl_cons, List.foldl_nil, decryptTurn,
    if_neg (by decide), ← Aes.toBlock_ofBlock (addkey _ _ 0), ofBlock_addkey _ (by decide),
    ofBlock_invRows, hround _ _ hmem, ofBlock_addkey _ le_rfl, Aes.decrypt, Aes.invCipher]

theorem decrypt_aes128Encrypt (key b : Block) :
    decrypt (aes128Init key) (aes128Encrypt (aes128Init key) b) = b := by
  rw [decrypt_eq, aes128Encrypt_eq, Aes.decrypt_encrypt]

/-! ## The key unwrapping -/

variable {m : ℕ}

theorem unwrapTurns_eq (n : ℕ) :
    (KeyWrap.steps n).reverse = (unwrapTurns n).map fun s => (n * s.1 + s.2, s.2 - 1) := by
  rw [KeyWrap.steps, List.reverse_flatMap, unwrapTurns, List.map_flatMap]
  refine congrArg (List.flatMap · _) (funext fun j => ?_)
  rw [Function.comp_apply, ← List.map_reverse, List.map_map, List.range'_eq_map_range,
    ← List.map_reverse, List.map_map]
  refine List.map_congr_left fun i _ => ?_
  simp only [Function.comp_apply, Nat.add_sub_cancel_left]
  rw [Nat.add_comm i 1]

theorem unwrapTurn_eq (key : Block) (n : ℕ) (x : KeyWrap.Registers m) (s : ℕ × ℕ) :
    unwrapTurn (aes128Init key) n x s =
      KeyWrap.unwrapStep (Aes.decrypt key) x (n * s.1 + s.2, s.2 - 1) := by
  have hb : (Vector.ofFn fun k : Fin 16 =>
      if k.val < 8 then byteOf x.a k ^^^ UInt8.ofNat ((n * s.1 + s.2) / 2 ^ (8 * (7 - k.val)))
      else byteOf x.r (8 * (s.2 - 1) + (k.val - 8))) =
        KeyWrap.join (KeyWrap.xorCount x.a (n * s.1 + s.2)) (KeyWrap.half x.r (s.2 - 1)) := by
    ext k hk
    simp only [KeyWrap.join, Vector.getElem_ofFn]
    split_ifs with h8
    · rw [byteOf_of_lt (KeyWrap.xorCount _ _) h8, KeyWrap.xorCount, Vector.getElem_ofFn, bytesBE,
        getD_map_range _ h8, Nat.pow_mul]
    · rw [byteOf_of_lt (KeyWrap.half _ _) (by omega), KeyWrap.half, Vector.getElem_ofFn]
  have hlsb : ∀ b : Block, b.toList.drop 8 = (KeyWrap.lsb b).toList := fun b => by
    refine List.ext_getElem (by simp) fun k h1 h2 => ?_
    have hk : k < 8 := by simpa using h2
    simp [KeyWrap.lsb, byteOf_of_lt b (show 8 + k < 16 by omega)]
  rw [unwrapTurn, KeyWrap.unwrapStep]
  dsimp only
  rw [hb, decrypt_eq, hlsb]
  rfl

/-- The registers as they are sent: the integrity value, then the data. -/
def registerBytes (x : KeyWrap.Registers m) : List UInt8 := x.a.toList ++ x.r.toList

theorem foldl_or_eq_zero {l : List UInt8} {c z : UInt8} :
    l.foldl (fun bad b => bad ||| (b ^^^ c)) z = 0 ↔ z = 0 ∧ ∀ b ∈ l, b = c := by
  induction l generalizing z with
  | nil => simp
  | cons b l ih =>
    rw [List.foldl_cons, ih, List.forall_mem_cons, UInt8.or_eq_zero_iff, and_assoc,
      UInt8.xor_eq_zero_iff]

theorem keyUnwrap_eq (kek : Block) (x : KeyWrap.Registers m) : keyUnwrap kek (registerBytes x) m =
    if (KeyWrap.unwrap (Aes.decrypt kek) x).a = KeyWrap.initialValue then
      some (KeyWrap.unwrap (Aes.decrypt kek) x).r.toList
    else none := by
  have hx : (⟨Vector.ofFn fun k : Fin 8 => (registerBytes x).getD k 0,
      Vector.ofFn fun k : Fin m => (registerBytes x).getD (8 + k) 0⟩ : KeyWrap.Registers m) = x := by
    ext k hk
    · rw [Vector.getElem_ofFn, registerBytes, List.getD_append _ _ _ _ (by simpa using hk),
        List.getD_eq_getElem _ _ (by simpa using hk), Vector.getElem_toList]
    · rw [Vector.getElem_ofFn, registerBytes, List.getD_append_right _ _ _ _ (by simp),
        Vector.length_toList, Nat.add_sub_cancel_left, List.getD_eq_getElem _ _ (by simpa using hk),
        Vector.getElem_toList]
  have hrun : (unwrapTurns (m / 8)).foldl (unwrapTurn (aes128Init kek) (m / 8)) x =
      KeyWrap.unwrap (Aes.decrypt kek) x := by
    rw [KeyWrap.unwrap, unwrapTurns_eq, List.foldl_map]
    exact congrArg (fun f => List.foldl f x _) (funext₂ fun x s => unwrapTurn_eq kek _ x s)
  have hbad : ∀ a : KeyWrap.Half, a.toList.foldl (fun bad b => bad ||| (b ^^^ 0xa6)) 0 = 0 ↔
      a = KeyWrap.initialValue := fun a => by
    rw [foldl_or_eq_zero, KeyWrap.initialValue, Vector.eq_replicate_iff]
    simp
  rw [keyUnwrap, hx, hrun]
  split_ifs with h1 h2 h2
  · exact absurd ((hbad _).mpr h2) h1
  · rfl
  · rfl
  · exact absurd ((hbad _).mp (not_not.mp h1)) h2

/-- The unwrapping is that of RFC 3394. -/
theorem wifiKeyUnwrap_eq (kek : Block) (x : KeyWrap.Registers m) :
    wifiKeyUnwrap kek (registerBytes x) = if 16 ≤ m ∧ m ≤ 504 ∧ m % 8 = 0 ∧
        (KeyWrap.unwrap (Aes.decrypt kek) x).a = KeyWrap.initialValue then
      some (KeyWrap.unwrap (Aes.decrypt kek) x).r.toList
    else none := by
  have hlen : (registerBytes x).length = 8 + m := by simp [registerBytes]
  have hand : (8 + m) &&& 7 = (8 + m) % 8 := Nat.and_two_pow_sub_one_eq_mod (8 + m) 3
  rw [wifiKeyUnwrap, hlen, hand, Nat.add_sub_cancel_left, keyUnwrap_eq]
  by_cases hok : 16 ≤ m ∧ m ≤ 504 ∧ m % 8 = 0
  · rw [if_neg (by omega)]
    exact if_congr (by simp only [hok, true_and]) rfl rfl
  · rw [if_pos (by omega), if_neg fun h => hok ⟨h.1, h.2.1, h.2.2.1⟩]

/-! ## The frames -/

theorem ctMemcmp_self (a : List UInt8) : ctMemcmp a a = 0 := by
  have hzip : List.zipWith (· ^^^ ·) a a = List.replicate a.length 0 := by
    induction a with
    | nil => rfl
    | cons b a ih => rw [List.zipWith_cons_cons, UInt8.xor_self, ih, List.length_cons, List.replicate_succ]
  rw [ctMemcmp, hzip]
  induction a.length with
  | zero => rfl
  | succ n ih => rwa [List.replicate_succ, List.foldl_cons, UInt8.or_self]

theorem wifiCcmpOpen_seal (tk : Block) (h : List UInt8) (hlen pn : ℕ) (data : List UInt8) :
    ((wifiCcmpSeal tk h hlen pn data).bind fun (c, mic) => wifiCcmpOpen tk h hlen pn c mic) =
      (wifiCcmpSeal tk h hlen pn data).map fun _ => data := by
  rw [wifiCcmpSeal]
  split_ifs with hlong
  · rfl
  · cases hnonce : ccmpNonce h hlen pn with
    | none => rfl
    | some na =>
      obtain ⟨nonce, aad⟩ := na
      have hks : ∀ c, (ccmpStream (aes128Init tk) nonce c).toList.length = 16 := fun c => by simp
      rw [Option.map_some, Option.bind_some, Option.map_some]
      dsimp only
      rw [wifiCcmpOpen, ccmpCtr, if_neg (by rwa [length_xorLoop (by decide) hks]), hnonce, Option.bind_some]
      dsimp only
      rw [ccmpCtr, xorLoop_xorLoop (by decide) hks, ctMemcmp_self, if_neg (not_not.mpr rfl)]

/-! ## The ciphers of the Wi-Fi code -/

/-- The cipher with tables is that of FIPS 197, and the Wi-Fi code's undoes it; key data that RFC 3394
wrapped comes back, of every length that is taken, nothing else is taken, and a wrong integrity value is
refused; a frame that was sealed is opened. -/
theorem wifi_ciphers (key : Block) :
    (∀ b, aes128Encrypt (aes128Init key) b = Aes.encrypt key b) ∧
    (∀ b, decrypt (aes128Init key) (aes128Encrypt (aes128Init key) b) = b) ∧
    (∀ (m : ℕ) (r : Vector UInt8 m), 16 ≤ m → m ≤ 504 → m % 8 = 0 →
      wifiKeyUnwrap key (registerBytes (KeyWrap.wrap (Aes.encrypt key) r)) = some r.toList) ∧
    (∀ (m : ℕ) (x : KeyWrap.Registers m), wifiKeyUnwrap key (registerBytes x) ≠ none →
      x = KeyWrap.wrap (Aes.encrypt key) (KeyWrap.unwrap (Aes.decrypt key) x).r) ∧
    (∀ (m : ℕ) (x : KeyWrap.Registers m), wifiKeyUnwrap key (registerBytes x) =
      if 16 ≤ m ∧ m ≤ 504 ∧ m % 8 = 0 ∧
          (KeyWrap.unwrap (Aes.decrypt key) x).a = KeyWrap.initialValue then
        some (KeyWrap.unwrap (Aes.decrypt key) x).r.toList
      else none) ∧
    ∀ h hlen pn data,
      ((wifiCcmpSeal key h hlen pn data).bind fun (c, mic) => wifiCcmpOpen key h hlen pn c mic) =
        (wifiCcmpSeal key h hlen pn data).map fun _ => data := by
  refine ⟨aes128Encrypt_eq key, decrypt_aes128Encrypt key, fun m r h1 h2 h3 => ?_, fun m x hx => ?_,
    fun m x => wifiKeyUnwrap_eq key x, wifiCcmpOpen_seal key⟩
  · rw [wifiKeyUnwrap_eq, KeyWrap.unwrap_wrap (Aes.decrypt_encrypt key), if_pos ⟨h1, h2, h3, rfl⟩]
  · rw [wifiKeyUnwrap_eq] at hx
    split_ifs at hx with hok
    · exact (KeyWrap.wrap_unwrap (Aes.encrypt_decrypt key) hok.2.2.2).symm
    · exact absurd rfl hx

/-- Two halves of zeros, wrapped under a key of zeros: they come back, and the wrap is what was sent. -/
theorem wifi_ciphers_zeros :
    wifiKeyUnwrap (Vector.replicate 16 0) (registerBytes (KeyWrap.wrap
      (Aes.encrypt (Vector.replicate 16 0)) (Vector.replicate 16 0))) =
        some (Vector.replicate 16 0).toList ∧
    KeyWrap.wrap (Aes.encrypt (Vector.replicate 16 0)) (Vector.replicate 16 0) =
      KeyWrap.wrap (Aes.encrypt (Vector.replicate 16 0)) (KeyWrap.unwrap
        (Aes.decrypt (Vector.replicate 16 0)) (KeyWrap.wrap (Aes.encrypt (Vector.replicate 16 0))
          (Vector.replicate 16 0))).r := by
  obtain ⟨-, -, hback, honly, -, -⟩ := wifi_ciphers (Vector.replicate 16 0)
  have hsome := hback 16 (Vector.replicate 16 0) (by decide) (by decide) (by decide)
  exact ⟨hsome, honly 16 _ fun h => by
    rw [hsome] at h
    exact absurd h (Option.some_ne_none _)⟩

end BananaOS.Crypto
