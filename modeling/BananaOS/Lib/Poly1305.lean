import BananaOS.Lib.Feed
import BananaOS.Lib.Little

/-!
# The authenticator of RFC 8439

The blocks of a message are the coefficients of a polynomial over the numbers modulo `2^130 - 5`, taken
at a number whose bits are clamped (`Poly1305.tag`); `ChaChaPoly.sealed` is the construction for
authenticated encryption around it, over any stream of blocks.
-/

namespace BananaOS.Lib

namespace Poly1305

def prime : ℕ := 2 ^ 130 - 5

/-- The bits of the factor that are kept. -/
def mask : ℕ := 0x0ffffffc0ffffffc0ffffffc0fffffff

/-- One more block: one bit is set behind its last byte. -/
def absorb (r acc : ℕ) (block : List UInt8) : ℕ := (acc + ofBytesLE (block ++ [1])) * r % prime

def tag (key msg : List UInt8) : List UInt8 :=
  let r := ofBytesLE (key.take 16) &&& mask
  let s := ofBytesLE ((key.drop 16).take 16)
  bytesLE 16 (blockLoop 16 (absorb r) 0 msg + s)

end Poly1305

namespace ChaChaPoly

/-- What the tag is taken of. -/
def macData (aad text : List UInt8) : List UInt8 :=
  aad ++ padding aad ++ text ++ padding text ++ bytesLE 8 aad.length ++ bytesLE 8 text.length

/-- The tag of an encrypted text; half of block 0 of the stream is the key of the authenticator. -/
def tag (stream : ℕ → List UInt8) (aad text : List UInt8) : List UInt8 :=
  Poly1305.tag ((stream 0).take 32) (macData aad text)

/-- The text with the stream added from block 1 on. -/
def encrypt (stream : ℕ → List UInt8) (text : List UInt8) : List UInt8 :=
  text.mapIdx fun i b => b ^^^ (stream (1 + i / 64)).getD (i % 64) 0

/-- The encrypted text and its tag. -/
def sealed (stream : ℕ → List UInt8) (aad text : List UInt8) : List UInt8 × List UInt8 :=
  (encrypt stream text, tag stream aad (encrypt stream text))

end ChaChaPoly

end BananaOS.Lib
