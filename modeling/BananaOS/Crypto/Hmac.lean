import BananaOS.Crypto.Sha256
import BananaOS.Crypto.Sha512

/-!
# HMAC over SHA-256, and the streams of both hashes

`hmacSha256Init` takes a key of any length, `hmacSha256Update` a piece of the message.  The two contexts
have taken in the padded keys and the message (`HmacSha256Ctx.Holds`), so the result is the keyed hash
of RFC 2104 (`hmacSha256Final_eq`).  `streamed` puts the results on the three streams together.
-/

namespace BananaOS.Crypto

open Lib

/-! ## The code -/

structure HmacSha256Ctx where
  inner : Sha256Ctx
  outer : Sha256Ctx

/-- The key, hashed first if it is longer than a block, with zeros behind it; `s` is what is in memory
where `sha256` has its context. -/
def blockKey (s : Sha256Ctx) (key : List UInt8) : Option (Vector UInt8 SHA256_BLOCK) :=
  let k := Vector.replicate SHA256_BLOCK 0
  if SHA256_BLOCK < key.length then (sha256 s key).map (overwrite k 0) else some (overwrite k 0 key)

/-- `hmac_sha256_init` -/
def hmacSha256Init (s : Sha256Ctx) (c : HmacSha256Ctx) (key : List UInt8) : Option HmacSha256Ctx :=
  (blockKey s key).map fun k =>
    { inner := sha256Update (sha256Init c.inner) (k.map (· ^^^ 0x36)).toList
      outer := sha256Update (sha256Init c.outer) (k.map (· ^^^ 0x5c)).toList }

/-- `hmac_sha256_update` -/
def hmacSha256Update (c : HmacSha256Ctx) (data : List UInt8) : HmacSha256Ctx :=
  { c with inner := sha256Update c.inner data }

/-- `hmac_sha256_final` -/
def hmacSha256Final (c : HmacSha256Ctx) : Option (List UInt8) :=
  (sha256Final c.inner).bind fun ih => sha256Final (sha256Update c.outer ih)

/-- `hmac_sha256` -/
def hmacSha256 (s : Sha256Ctx) (c : HmacSha256Ctx) (key data : List UInt8) : Option (List UInt8) :=
  (hmacSha256Init s c key).bind fun c => hmacSha256Final (hmacSha256Update c data)

/-! ## The keyed hash -/

variable {s : Sha256Ctx} {c : HmacSha256Ctx} {key m : List UInt8} {ps : List (List UInt8)}

/-- The key of RFC 2104, as long as a block. -/
def paddedKey (key : List UInt8) : List UInt8 :=
  let short := if 64 < key.length then SHA256.digest key else key
  short ++ List.replicate (64 - short.length) 0

theorem length_digest (m : List UInt8) : (SHA256.digest m).length = 32 := by
  simp [Sha2.digest, Sha2.output, Eight.toList, SHA256, Sha2.wordBytes]

theorem blockKey_eq (s : Sha256Ctx) (key : List UInt8) :
    ∃ k, blockKey s key = some k ∧ k.toList = paddedKey key := by
  have hover : ∀ l : List UInt8, l.length ≤ 64 →
      (overwrite (Vector.replicate SHA256_BLOCK 0) 0 l).toList =
        l ++ List.replicate (64 - l.length) 0 := fun l hl => by
    rw [toList_overwrite _ _ (by rw [Nat.zero_add]; exact hl), List.take_zero, List.nil_append,
      Nat.zero_add, Vector.toList_replicate, List.drop_replicate]
    rfl
  rw [blockKey]
  split_ifs with h
  · have hlong : 64 < key.length := h
    have hkey : sha256 s key = some (SHA256.digest key) :=
      sha256Final_eq ((holds_sha256Init s).update key)
    refine ⟨_, by rw [hkey, Option.map_some], ?_⟩
    rw [paddedKey, if_pos hlong, hover _ (by rw [length_digest]; decide)]
  · have hshort : ¬64 < key.length := h
    refine ⟨_, rfl, ?_⟩
    rw [paddedKey, if_neg hshort, hover _ (Nat.le_of_not_lt hshort)]

/-- The contexts have taken in the padded keys, and the message `m` after the inner one. -/
structure HmacSha256Ctx.Holds (c : HmacSha256Ctx) (key m : List UInt8) : Prop where
  inner : c.inner.Holds ((paddedKey key).map (· ^^^ 0x36) ++ m)
  outer : c.outer.Holds ((paddedKey key).map (· ^^^ 0x5c))

theorem holds_hmacSha256Init (s : Sha256Ctx) (c : HmacSha256Ctx) (key : List UInt8) :
    ∃ c', hmacSha256Init s c key = some c' ∧ c'.Holds key [] := by
  obtain ⟨k, hk, hlist⟩ := blockKey_eq s key
  refine ⟨_, by rw [hmacSha256Init, hk, Option.map_some], ?_, ?_⟩
  · rw [List.append_nil, ← hlist, ← Vector.toList_map]
    exact (holds_sha256Init c.inner).update _
  · rw [← hlist, ← Vector.toList_map]
    exact (holds_sha256Init c.outer).update _

theorem HmacSha256Ctx.Holds.updates (h : c.Holds key m) (ps : List (List UInt8)) :
    (ps.foldl hmacSha256Update c).Holds key (m ++ ps.flatten) := by
  induction ps generalizing c m with
  | nil => simpa using h
  | cons p ps ih =>
    rw [List.foldl_cons, List.flatten_cons, ← List.append_assoc]
    refine ih ⟨?_, h.outer⟩
    rw [← List.append_assoc]
    exact h.inner.update p

theorem hmacSha256Final_eq (h : c.Holds key m) :
    hmacSha256Final c = some (hmac SHA256.digest 64 key m) := by
  rw [hmacSha256Final, sha256Final_eq h.inner, Option.bind_some, sha256Final_eq (h.outer.update _)]
  rfl

/-! ## The streams -/

/-- A message of less than `2 ^ 61` bytes, in any pieces: the digests are those of the standards,
whatever was in memory where the contexts are. -/
theorem streamed (hlen : ps.flatten.length < 2 ^ 61) (c256 : Sha256Ctx) (c512 : Sha512Ctx) :
    sha256Final (ps.foldl sha256Update (sha256Init c256)) = some (SHA256.digest ps.flatten) ∧
    sha512Final (ps.foldl sha512Update (sha512Init c512)) = some (SHA512.digest ps.flatten) ∧
    ∀ s c key, ((hmacSha256Init s c key).bind fun c => hmacSha256Final (ps.foldl hmacSha256Update c)) =
      some (hmac SHA256.digest 64 key ps.flatten) := by
  refine ⟨sha256Final_eq ((holds_sha256Init c256).updates ps),
    sha512Final_eq ((holds_sha512Init c512).updates ps) hlen, fun s c key => ?_⟩
  obtain ⟨c', hinit, hholds⟩ := holds_hmacSha256Init s c key
  rw [hinit, Option.bind_some]
  exact hmacSha256Final_eq (hholds.updates ps)

/-- A message in three pieces, one of them empty, taken in by a context with something else in memory. -/
theorem streamed_abc :
    [[0x61], [], [0x62, 0x63]].flatten.length < 2 ^ 61 ∧
    sha256Final ([[0x61], [], [0x62, 0x63]].foldl sha256Update
      (sha256Init ⟨Sha2.initial, 5, Vector.replicate 64 7, 9⟩)) =
      some (SHA256.digest [[0x61], [], [0x62, 0x63]].flatten) :=
  ⟨by decide, (streamed (by decide) _ ⟨Sha2.initial, 5, Vector.replicate 128 7, 9⟩).1⟩

end BananaOS.Crypto
