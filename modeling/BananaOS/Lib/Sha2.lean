import BananaOS.Lib.Feed
import BananaOS.Lib.Octets
import Mathlib.Data.Nat.ModEq
import Mathlib.Data.Nat.Init
import Mathlib.Data.Nat.NthRoot.Defs
import Mathlib.Data.Nat.Prime.Basic

/-!
# The hashes of FIPS 180-4

The SHA-2 family over words of `w` bits.  Its members differ in the size of a word, in the number of
rounds and in the amounts of the rotations (`Sha2`); `Sha2.digest` is the hash of a message of bytes.

* `fracRoot`: the constants are the first bits of the fractional parts of the roots of primes.
* `zeros_spec`, `zeros_least`: the padding has the fewest zeros that complete a block.
* `digest_eq`: the digest as a run over the message, the padding and the length.
-/

namespace BananaOS.Lib

/-- The first `w` bits of the fractional part of the root of degree `k` of `n`. -/
def fracRoot (w k n : ℕ) : BitVec w := BitVec.ofNat w (Nat.nthRoot k (n * 2 ^ (k * w)))

/-- The first eighty primes. -/
def firstPrimes : List ℕ := (List.range 410).filter (Nat.Prime ·)

/-- Division by the numbers below 21. -/
def noSmallFactor (p : ℕ) : Bool := 2 ≤ p && (List.range' 2 19).all fun m => p ≤ m || p % m != 0

theorem prime_iff_noSmallFactor {p : ℕ} (hp : p < 21 ^ 2) : p.Prime ↔ noSmallFactor p = true := by
  rw [noSmallFactor, Bool.and_eq_true, List.all_eq_true, decide_eq_true_iff]
  constructor
  · intro h
    rw [Nat.prime_def_lt'] at h
    refine ⟨h.1, fun m hm => ?_⟩
    rw [Bool.or_eq_true, decide_eq_true_iff, bne_iff_ne, or_iff_not_imp_left, not_le]
    rw [List.mem_range'_1] at hm
    exact fun hlt h0 => h.2 m hm.1 hlt (Nat.dvd_of_mod_eq_zero h0)
  · rintro ⟨h2, hall⟩
    refine Nat.prime_def_le_sqrt.mpr ⟨h2, fun m hm hle hdvd => ?_⟩
    have hsq : m * m ≤ p := Nat.le_sqrt.mp hle
    have hlt : m < p := lt_of_lt_of_le (Nat.lt_mul_self_iff.mpr hm) hsq
    have h21 : m < 21 := hle.trans_lt (Nat.sqrt_lt'.mpr hp)
    have hm' := hall m (List.mem_range'_1.mpr ⟨hm, h21⟩)
    rw [Bool.or_eq_true, decide_eq_true_iff, bne_iff_ne] at hm'
    exact hm'.elim (by omega) fun h0 => h0 (Nat.mod_eq_zero_of_dvd hdvd)

theorem firstPrimes_eq : firstPrimes =
    [2, 3, 5, 7, 11, 13, 17, 19, 23, 29, 31, 37, 41, 43, 47, 53, 59, 61, 67, 71, 73, 79, 83, 89,
      97, 101, 103, 107, 109, 113, 127, 131, 137, 139, 149, 151, 157, 163, 167, 173, 179, 181, 191,
      193, 197, 199, 211, 223, 227, 229, 233, 239, 241, 251, 257, 263, 269, 271, 277, 281, 283,
      293, 307, 311, 313, 317, 331, 337, 347, 349, 353, 359, 367, 373, 379, 383, 389, 397, 401, 409] := by
  have hprime : ∀ p ∈ List.range 410, decide p.Prime = noSmallFactor p := fun p hp => by
    rw [Bool.eq_iff_iff, decide_eq_true_iff, prime_iff_noSmallFactor (by rw [List.mem_range] at hp; omega)]
  rw [firstPrimes, List.filter_congr hprime]
  decide +kernel

/-- The eight words of a hash, or of the working variables of a round. -/
@[ext] structure Eight (w : ℕ) where
  a : BitVec w
  b : BitVec w
  c : BitVec w
  d : BitVec w
  e : BitVec w
  f : BitVec w
  g : BitVec w
  h : BitVec w
  deriving DecidableEq

namespace Eight

variable {w : ℕ} (x y : Eight w)

def toList : List (BitVec w) := [x.a, x.b, x.c, x.d, x.e, x.f, x.g, x.h]

/-- The sum, word by word. -/
def add : Eight w :=
  ⟨x.a + y.a, x.b + y.b, x.c + y.c, x.d + y.d, x.e + y.e, x.f + y.f, x.g + y.g, x.h + y.h⟩

theorem add_comm : x.add y = y.add x := by
  ext1 <;> exact BitVec.add_comm ..

end Eight

/-- A member of the family over words of `w` bits: the number of its rounds, and the amounts of its
functions, the last of `small0` and `small1` that of a shift. -/
structure Sha2 (w : ℕ) where
  rounds : ℕ
  big0 : ℕ × ℕ × ℕ
  big1 : ℕ × ℕ × ℕ
  small0 : ℕ × ℕ × ℕ
  small1 : ℕ × ℕ × ℕ

namespace Sha2

variable {w : ℕ} (S : Sha2 w)

def ch (x y z : BitVec w) : BitVec w := (x &&& y) ^^^ (~~~x &&& z)

def maj (x y z : BitVec w) : BitVec w := (x &&& y) ^^^ (x &&& z) ^^^ (y &&& z)

/-- `Σ₀` and `Σ₁`. -/
def bigSigma (r : ℕ × ℕ × ℕ) (x : BitVec w) : BitVec w :=
  x.rotateRight r.1 ^^^ x.rotateRight r.2.1 ^^^ x.rotateRight r.2.2

/-- `σ₀` and `σ₁`. -/
def smallSigma (r : ℕ × ℕ × ℕ) (x : BitVec w) : BitVec w :=
  x.rotateRight r.1 ^^^ x.rotateRight r.2.1 ^^^ x >>> r.2.2

/-- The constant of round `t`, from the cube root of a prime. -/
def K (t : ℕ) : BitVec w := fracRoot w 3 (firstPrimes.getD t 0)

/-- The hash that a message begins with, from the square roots of the first eight primes. -/
def initial : Eight w :=
  ⟨fracRoot w 2 2, fracRoot w 2 3, fracRoot w 2 5, fracRoot w 2 7,
    fracRoot w 2 11, fracRoot w 2 13, fracRoot w 2 17, fracRoot w 2 19⟩

/-- The bytes of a word. -/
def wordBytes (_ : Sha2 w) : ℕ := w / 8

/-- The bytes of a block: sixteen words. -/
def block : ℕ := 16 * S.wordBytes

/-- The word `i` of a block. -/
def word (m : List UInt8) (i : ℕ) : BitVec w :=
  BitVec.ofNat w (ofBytesBE ((m.drop (S.wordBytes * i)).take S.wordBytes))

/-- The message schedule. -/
def W (m : List UInt8) (t : ℕ) : BitVec w :=
  if t < 16 then S.word m t
  else smallSigma S.small1 (W m (t - 2)) + W m (t - 7) +
    smallSigma S.small0 (W m (t - 15)) + W m (t - 16)
termination_by t

/-- Round `t` on the working variables. -/
def round (m : List UInt8) (v : Eight w) (t : ℕ) : Eight w :=
  let T1 := v.h + bigSigma S.big1 v.e + ch v.e v.f v.g + K t + S.W m t
  let T2 := bigSigma S.big0 v.a + maj v.a v.b v.c
  ⟨T1 + T2, v.a, v.b, v.c, v.d + T1, v.e, v.f, v.g⟩

/-- The next hash value, from a block. -/
def next (H : Eight w) (m : List UInt8) : Eight w :=
  ((List.range S.rounds).foldl (S.round m) H).add H

/-- How many bytes of zeros stand between the byte `0x80` and the length, for a message of `n` bytes. -/
def zeros (n : ℕ) : ℕ := (2 * S.block - 2 * S.wordBytes - (n % S.block + 1)) % S.block

/-- The padded message: the end of the message is marked by a bit, and the last two words of the
last block are the number of its bits. -/
def padded (m : List UInt8) : List UInt8 :=
  m ++ 0x80 :: List.replicate (S.zeros m.length) 0 ++ bytesBE (2 * S.wordBytes) (8 * m.length)

/-- The bytes of a hash value. -/
def output (H : Eight w) : List UInt8 := H.toList.flatMap fun x => bytesBE S.wordBytes x.toNat

/-- The digest of a message. -/
def digest (m : List UInt8) : List UInt8 :=
  S.output (blocks S.block S.next initial (S.padded m) ((S.padded m).length / S.block))

end Sha2

/-- SHA-256. -/
def SHA256 : Sha2 32 := ⟨64, (2, 13, 22), (6, 11, 25), (7, 18, 3), (17, 19, 10)⟩

/-- SHA-512. -/
def SHA512 : Sha2 64 := ⟨80, (28, 34, 39), (14, 18, 41), (1, 8, 7), (19, 61, 6)⟩

/-! ## The schedule -/

namespace Sha2

variable {w : ℕ} (S : Sha2 w) {m : List UInt8} {t : ℕ}

/-- The constants of the first `n` rounds. -/
theorem map_K {n : ℕ} (hn : n ≤ 80) :
    (List.range n).map (K : ℕ → BitVec w) = (firstPrimes.take n).map (fracRoot w 3) := by
  have hlen : 0 + n ≤ firstPrimes.length := by
    rw [firstPrimes_eq]
    simpa using hn
  rw [← List.drop_zero (l := firstPrimes), ← map_getD_range hlen (x := 0), List.map_map]
  exact List.map_congr_left fun t _ => by rw [Function.comp_apply, Nat.zero_add, K]

theorem W_first (ht : t < 16) : S.W m t = S.word m t := by
  rw [W, if_pos ht]

theorem W_step (ht : 16 ≤ t) : S.W m t = smallSigma S.small1 (S.W m (t - 2)) + S.W m (t - 7) +
    smallSigma S.small0 (S.W m (t - 15)) + S.W m (t - 16) := by
  rw [W, if_neg (Nat.not_lt.mpr ht)]

theorem word_take (ht : t < 16) : S.word (m.take S.block) t = S.word m t := by
  have hle : S.wordBytes ≤ S.block - S.wordBytes * t := by
    have hmul := Nat.mul_le_mul_left S.wordBytes (show t + 1 ≤ 16 from ht)
    rw [block]
    rw [Nat.mul_succ] at hmul
    omega
  rw [word, List.drop_take, List.take_take, min_eq_left hle, word]

theorem W_take (t : ℕ) : S.W (m.take S.block) t = S.W m t := by
  induction t using Nat.strong_induction_on with
  | _ t ih =>
    rcases Nat.lt_or_ge t 16 with ht | ht
    · rw [S.W_first ht, S.W_first ht, S.word_take ht]
    · rw [S.W_step ht, S.W_step ht, ih (t - 2) (by omega), ih (t - 7) (by omega),
        ih (t - 15) (by omega), ih (t - 16) (by omega)]

theorem next_take (H : Eight w) : S.next H (m.take S.block) = S.next H m := by
  have hround : S.round (m.take S.block) = S.round m := by
    ext v t : 2
    rw [round, S.W_take, round]
  rw [next, hround, next]

end Sha2

/-! ## The padding -/

namespace Sha2

variable {w : ℕ} (S : Sha2 w) {n : ℕ}

theorem block_pos (hw : 8 ≤ w) : 0 < S.block := by
  rw [block, wordBytes]
  omega

theorem two_words_le_block : 2 * S.wordBytes ≤ S.block := by
  rw [block]
  omega

/-- The zeros fill this block or, where the length finds no room there, the next one. -/
theorem zeros_eq (hw : 8 ≤ w) : S.zeros n < S.block ∧
    (n % S.block + 1 + S.zeros n = S.block - 2 * S.wordBytes ∨
      n % S.block + 1 + S.zeros n = S.block + (S.block - 2 * S.wordBytes)) := by
  have hpos := S.block_pos hw
  have hwords : 1 ≤ S.wordBytes := by rw [wordBytes]; omega
  have hle := S.two_words_le_block
  have hn : n % S.block < S.block := Nat.mod_lt _ hpos
  rw [zeros]
  refine ⟨Nat.mod_lt _ hpos, ?_⟩
  rcases Nat.lt_or_ge (S.block - 2 * S.wordBytes) (n % S.block + 1) with h | h
  · have hmod : (2 * S.block - 2 * S.wordBytes - (n % S.block + 1)) % S.block =
        2 * S.block - 2 * S.wordBytes - (n % S.block + 1) := Nat.mod_eq_of_lt (by omega)
    rw [hmod]
    omega
  · have hmod : (2 * S.block - 2 * S.wordBytes - (n % S.block + 1)) % S.block =
        S.block - 2 * S.wordBytes - (n % S.block + 1) := by
      rw [show 2 * S.block - 2 * S.wordBytes - (n % S.block + 1) =
        S.block - 2 * S.wordBytes - (n % S.block + 1) + S.block by omega, Nat.add_mod_right]
      exact Nat.mod_eq_of_lt (by omega)
    rw [hmod]
    omega

/-- With these zeros only the length is missing of the last block. -/
theorem zeros_spec (hw : 8 ≤ w) :
    (n + 1 + S.zeros n) % S.block = S.block - 2 * S.wordBytes := by
  have hwords : 1 ≤ S.wordBytes := by rw [wordBytes]; omega
  have hle := S.two_words_le_block
  have hlt : S.block - 2 * S.wordBytes < S.block := by omega
  rw [Nat.add_assoc, ← Nat.mod_add_mod, ← Nat.add_assoc]
  rcases (S.zeros_eq hw (n := n)).2 with h | h
  · rw [h, Nat.mod_eq_of_lt hlt]
  · rw [h, Nat.add_mod_left, Nat.mod_eq_of_lt hlt]

/-- No smaller number of zeros does. -/
theorem zeros_least (hw : 8 ≤ w) {j : ℕ} (hj : j < S.zeros n) :
    (n + 1 + j) % S.block ≠ S.block - 2 * S.wordBytes := by
  intro hmod
  have hlt := (S.zeros_eq hw (n := n)).1
  have hsame : n + 1 + j ≡ n + 1 + S.zeros n [MOD S.block] := hmod.trans (S.zeros_spec hw).symm
  have hj' : j ≡ S.zeros n [MOD S.block] := Nat.ModEq.add_left_cancel' _ hsame
  exact hj.ne (hj'.eq_of_lt_of_lt (hj.trans hlt) hlt)

theorem length_padded (hw : 8 ≤ w) (m : List UInt8) : (S.padded m).length % S.block = 0 := by
  have hspec := S.zeros_spec hw (n := m.length)
  have hle := S.two_words_le_block
  have hlen : (S.padded m).length = m.length + 1 + S.zeros m.length + 2 * S.wordBytes := by
    simp only [padded, List.length_append, List.length_cons, List.length_replicate, length_bytesBE]
    omega
  rw [hlen, ← Nat.mod_add_mod, hspec, Nat.sub_add_cancel hle, Nat.mod_self]

/-- The digest as one run over all that is hashed. -/
theorem digest_eq (hw : 8 ≤ w) (m : List UInt8) :
    S.digest m = S.output (feed S.block S.next (initial, []) (S.padded m)).1 := by
  have hlen := Nat.mul_div_cancel' (Nat.dvd_of_mod_eq_zero (S.length_padded hw m))
  have hrun := feed_blocks (f := S.next) (s := initial) (S.block_pos hw) hlen.le
  rw [hlen, List.take_length] at hrun
  rw [digest, hrun]

/-- A loop that takes in zeros until only the length is missing takes in those of the padding. -/
theorem repeatUntil_zeros {γ : Type*} (view : γ → Eight w × List UInt8) (ok : γ → Prop)
    (done : γ → Bool) (step : γ → γ) {c : γ} {m : List UInt8} (hw : 8 ≤ w)
    (hstep : ∀ c, ok c → ok (step c) ∧ view (step c) = feed S.block S.next (view c) [0])
    (hdone : ∀ c, ok c → (done c = true ↔ (view c).2.length = S.block - 2 * S.wordBytes))
    (hc : ok c) (hview : view c = feed S.block S.next (initial, []) (m ++ [0x80])) :
    ∃ c', repeatUntil done step S.block c = some c' ∧ ok c' ∧
      view c' = feed S.block S.next (initial, [])
        (m ++ 0x80 :: List.replicate (S.zeros m.length) 0) := by
  have hrun : ∀ j, ok (step^[j] c) ∧ view (step^[j] c) =
      feed S.block S.next (initial, []) (m ++ [0x80] ++ List.replicate j 0) := by
    intro j
    induction j with
    | zero => exact ⟨hc, by simpa using hview⟩
    | succ j ih =>
      obtain ⟨hok, heq⟩ := hstep _ ih.1
      rw [Function.iterate_succ_apply', List.replicate_succ', ← List.append_assoc, feed_append,
        ← ih.2]
      exact ⟨hok, heq⟩
  have hlen : ∀ j, (view (step^[j] c)).2.length = (m.length + 1 + j) % S.block := by
    intro j
    rw [(hrun j).2, length_feed (by simpa using S.block_pos hw)]
    simp [Nat.add_assoc, Nat.add_comm 1]
  refine ⟨step^[S.zeros m.length] c, repeatUntil_eq (S.zeros_eq hw).1.le (fun j hj => ?_) ?_,
    (hrun _).1, ?_⟩
  · rw [Bool.eq_false_iff, Ne, hdone _ (hrun j).1, hlen]
    exact S.zeros_least hw hj
  · rw [hdone _ (hrun _).1, hlen]
    exact S.zeros_spec hw
  · rw [(hrun _).2, List.append_assoc, List.singleton_append]

end Sha2

/-! ## Keyed hashes -/

/-- HMAC of RFC 2104 over a hash `H` with blocks of `B` bytes. -/
def hmac (H : List UInt8 → List UInt8) (B : ℕ) (key text : List UInt8) : List UInt8 :=
  let short := if B < key.length then H key else key
  let K := short ++ List.replicate (B - short.length) 0
  H (K.map (· ^^^ 0x5c) ++ H (K.map (· ^^^ 0x36) ++ text))

end BananaOS.Lib
