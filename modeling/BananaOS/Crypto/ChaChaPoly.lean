import BananaOS.Crypto.Poly1305
import BananaOS.Crypto.WifiCrypto

/-!
# ChaCha20-Poly1305

The stream of `chacha20.c` and the authenticated encryption of `aead.c`: `ccTag` feeds the authenticator
in six pieces what RFC 8439 takes the tag of (`ccTag_eq`), so `chacha20poly1305Seal` is its construction
and `chacha20poly1305Open` takes the texts with the right tag and no others
(`chacha20poly1305_sound`).
-/

namespace BananaOS.Crypto

open Lib

/-! ## The code -/

/-- `ROTL` -/
def rotl (x : BitVec 32) (n : ℕ) : BitVec 32 := x <<< n ||| x >>> (32 - n)

/-- `QR`, on the elements `a`, `b`, `c` and `d` of the array. -/
def QR (a b c d : ℕ) (x : List (BitVec 32)) : List (BitVec 32) :=
  let x := x.set a (x.getD a 0 + x.getD b 0)
  let x := x.set d (x.getD d 0 ^^^ x.getD a 0)
  let x := x.set d (rotl (x.getD d 0) 16)
  let x := x.set c (x.getD c 0 + x.getD d 0)
  let x := x.set b (x.getD b 0 ^^^ x.getD c 0)
  let x := x.set b (rotl (x.getD b 0) 12)
  let x := x.set a (x.getD a 0 + x.getD b 0)
  let x := x.set d (x.getD d 0 ^^^ x.getD a 0)
  let x := x.set d (rotl (x.getD d 0) 8)
  let x := x.set c (x.getD c 0 + x.getD d 0)
  let x := x.set b (x.getD b 0 ^^^ x.getD c 0)
  x.set b (rotl (x.getD b 0) 7)

/-- A turn of the loop over the rounds. -/
def doubleRound (x : List (BitVec 32)) : List (BitVec 32) :=
  let x := QR 0 4 8 12 x
  let x := QR 1 5 9 13 x
  let x := QR 2 6 10 14 x
  let x := QR 3 7 11 15 x
  let x := QR 0 5 10 15 x
  let x := QR 1 6 11 12 x
  let x := QR 2 7 8 13 x
  QR 3 4 9 14 x

/-- `chacha20_block`; the counter is a word of 32 bits. -/
def chacha20Block (key : List UInt8) (counter : ℕ) (nonce : List UInt8) : List UInt8 :=
  let s : List (BitVec 32) := [0x61707865, 0x3320646e, 0x79622d32, 0x6b206574] ++
    (List.range 8).map (fun i => BitVec.ofNat 32 (le32 key (i * 4))) ++
    [BitVec.ofNat 32 counter, BitVec.ofNat 32 (le32 nonce 0), BitVec.ofNat 32 (le32 nonce 4),
      BitVec.ofNat 32 (le32 nonce 8)]
  let x := doubleRound^[10] s
  (List.range 16).flatMap fun i => bytesLE 4 (x.getD i 0 + s.getD i 0).toNat

/-- `chacha20_xor` -/
def chacha20Xor (key : List UInt8) (counter : ℕ) (nonce buf : List UInt8) : List UInt8 :=
  xorLoop 64 (fun counter => chacha20Block key counter nonce) counter buf

/-- The zeros that `cc_tag` puts behind a piece. -/
def fillBlock (p : PolyCtx) (len : ℕ) : PolyCtx :=
  if len % 16 ≠ 0 then polyUpdate p (List.replicate (16 - len % 16) 0) else p

/-- `cc_tag`, with its context where `p` is. -/
def ccTag (p : PolyCtx) (key nonce aad ct : List UInt8) : List UInt8 :=
  let p := polyInit p (chacha20Block key 0 nonce)
  let p := polyUpdate p aad
  let p := fillBlock p aad.length
  let p := polyUpdate p ct
  let p := fillBlock p ct.length
  let lens := bytesLE 4 aad.length ++ List.replicate 4 0 ++ bytesLE 4 ct.length ++ List.replicate 4 0
  polyFinish (polyUpdate p lens)

/-- `chacha20poly1305_seal`: the buffer and the tag. -/
def chacha20poly1305Seal (p : PolyCtx) (key nonce aad buf : List UInt8) : List UInt8 × List UInt8 :=
  let buf := chacha20Xor key 1 nonce buf
  (buf, ccTag p key nonce aad buf)

/-- `chacha20poly1305_open`: its result and the buffer. -/
def chacha20poly1305Open (p : PolyCtx) (key nonce aad buf tag : List UInt8) : ℤ × List UInt8 :=
  let expect := ccTag p key nonce aad buf
  if ctMemcmp expect tag ≠ 0 then (-1, buf) else (0, chacha20Xor key 1 nonce buf)

/-! ## The construction -/

variable {p : PolyCtx} {key nonce aad ct m : List UInt8}

theorem length_chacha20Block (key nonce : List UInt8) (counter : ℕ) :
    (chacha20Block key counter nonce).length = 64 := by
  simp [chacha20Block, List.length_flatMap]

theorem chacha20Xor_eq (key nonce text : List UInt8) : chacha20Xor key 1 nonce text =
    ChaChaPoly.encrypt (fun c => chacha20Block key c nonce) text := by
  refine List.ext_getElem? fun i => ?_
  rw [chacha20Xor, getElem?_xorLoop (by decide) fun c => length_chacha20Block key nonce c,
    ChaChaPoly.encrypt, List.getElem?_mapIdx]

/-- The authenticator's key is half of what it is given. -/
theorem tag_take (key m : List UInt8) : Poly1305.tag (key.take 32) m = Poly1305.tag key m := by
  rw [Poly1305.tag, Poly1305.tag, List.take_take, List.drop_take, List.take_take]
  rfl

theorem PolyCtx.Holds.fill (h : p.Holds key m) (l : List UInt8) :
    (fillBlock p l.length).Holds key (m ++ padding l) := by
  have hlt : l.length % 16 < 16 := Nat.mod_lt _ (by decide)
  rw [fillBlock, padding]
  split_ifs with h0
  · rw [Nat.mod_eq_of_lt (show 16 - l.length % 16 < 16 by omega)]
    exact h.update _
  · rw [not_not.mp h0, Nat.sub_zero, Nat.mod_self, List.replicate_zero, List.append_nil]
    exact h

/-- A length below `2^32` in eight bytes. -/
theorem bytesLE_length {n : ℕ} (h : n < 2 ^ 32) : bytesLE 8 n = bytesLE 4 n ++ List.replicate 4 0 := by
  rw [bytesLE_add 4 4, show 256 ^ 4 = 2 ^ 32 from rfl, Nat.div_eq_of_lt h]
  rfl

theorem ccTag_eq (p : PolyCtx) (haad : aad.length < 2 ^ 32) (hct : ct.length < 2 ^ 32) :
    ccTag p key nonce aad ct = ChaChaPoly.tag (fun c => chacha20Block key c nonce) aad ct := by
  have h := ((((PolyCtx.holds_polyInit p (chacha20Block key 0 nonce)).update aad).fill aad).update
    ct).fill ct
  rw [ccTag, polyFinish_eq (h.update _), ChaChaPoly.tag, ChaChaPoly.macData, tag_take,
    bytesLE_length haad, bytesLE_length hct, List.nil_append]
  simp only [List.append_assoc]

theorem ctMemcmp_eq_zero {a b : List UInt8} (h : a.length = b.length) : ctMemcmp a b = 0 ↔ a = b := by
  have hfold : ∀ (l : List UInt8) (z : UInt8), l.foldl (· ||| ·) z = 0 ↔ z = 0 ∧ ∀ x ∈ l, x = 0 := by
    intro l
    induction l with
    | nil => simp
    | cons x l ih =>
      intro z
      rw [List.foldl_cons, ih, List.forall_mem_cons, UInt8.or_eq_zero_iff, and_assoc]
  refine ⟨fun hz => ?_, fun hab => hab ▸ ctMemcmp_self a⟩
  obtain ⟨-, hall⟩ := (hfold _ _).mp hz
  refine List.ext_getElem h fun i h1 h2 => UInt8.xor_eq_zero_iff.mp (hall _ ?_)
  exact List.mem_iff_getElem.mpr ⟨i, by simp; omega, by rw [List.getElem_zipWith]⟩

/-- What is sealed is the construction of RFC 8439 over the blocks of the stream; a text is taken with the
tag that belongs to it and with no other, and then decrypted, else it stays as it was; and what was sealed
is opened. -/
theorem chacha20poly1305_sound (p : PolyCtx) (key nonce : List UInt8) (haad : aad.length < 2 ^ 32)
    (hct : ct.length < 2 ^ 32) :
    chacha20poly1305Seal p key nonce aad ct =
        ChaChaPoly.sealed (fun c => chacha20Block key c nonce) aad ct ∧
      (∀ tag, tag.length = 16 → chacha20poly1305Open p key nonce aad ct tag =
        if tag = ChaChaPoly.tag (fun c => chacha20Block key c nonce) aad ct then
          (0, ChaChaPoly.encrypt (fun c => chacha20Block key c nonce) ct)
        else (-1, ct)) ∧
      chacha20poly1305Open p key nonce aad (chacha20poly1305Seal p key nonce aad ct).1
        (chacha20poly1305Seal p key nonce aad ct).2 = (0, ct) := by
  have hks : ∀ c, (chacha20Block key c nonce).length = 64 := length_chacha20Block key nonce
  have hlen : (chacha20Xor key 1 nonce ct).length < 2 ^ 32 :=
    (length_xorLoop (by decide) hks 1 ct).trans_lt hct
  refine ⟨?_, fun tag htag => ?_, ?_⟩
  · rw [chacha20poly1305Seal, ccTag_eq p haad hlen, chacha20Xor_eq, ChaChaPoly.sealed]
  · have hexpect : (ccTag p key nonce aad ct).length = tag.length := by
      rw [ccTag_eq p haad hct, htag, ChaChaPoly.tag, Poly1305.tag, length_bytesLE]
    rw [chacha20poly1305Open, ite_not, if_congr (ctMemcmp_eq_zero hexpect) rfl rfl, ccTag_eq p haad hct,
      chacha20Xor_eq]
    exact if_congr eq_comm rfl rfl
  · rw [chacha20poly1305Open, chacha20poly1305Seal, ctMemcmp_self, if_neg (not_not.mpr rfl),
      chacha20Xor, chacha20Xor, xorLoop_xorLoop (by decide) hks]

/-- A text of one byte. -/
theorem chacha20poly1305_sound_byte :
    chacha20poly1305Open ⟨⟨0, 0, 0, 0, 0⟩, [], ⟨0, 0, 0, 0, 0⟩, blockOf [], 0⟩ [1] [] [2]
      (chacha20poly1305Seal ⟨⟨0, 0, 0, 0, 0⟩, [], ⟨0, 0, 0, 0, 0⟩, blockOf [], 0⟩ [1] [] [2] [3]).1
      (chacha20poly1305Seal ⟨⟨0, 0, 0, 0, 0⟩, [], ⟨0, 0, 0, 0, 0⟩, blockOf [], 0⟩ [1] [] [2] [3]).2 =
        (0, [3]) :=
  (@chacha20poly1305_sound [2] [3] _ [1] [] (by decide) (by decide)).2.2

end BananaOS.Crypto
