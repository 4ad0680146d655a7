import Mathlib.Algebra.Order.Ring.Nat
import Mathlib.Data.List.DropRight
import Mathlib.Data.Int.Bitwise
import Mathlib.Data.Rat.Floor

/-!
# BigInt arithmetic

`web/script_bigint.c`.  A `big_t` is a sign and a magnitude, the limbs of 32 bits with the lowest
first; `n` is the number of limbs.  Every loop over limbs is a recursion over the list: one that
goes up carries its carry or borrow along, one that goes down hands the remainder back.  Limbs are
`UInt32`; a 64-bit intermediate is a natural number reduced modulo `2 ^ 64` where it comes near
that, and a signed one an integer.

A web worker has at most 512 MiB (`app_spawn_web_worker`), so a `big_t` in memory has fewer than
`2 ^ 27` limbs, and the 32-bit counts of limbs and bits do not wrap (`Big.Short`).

Throwing is an error; what is thrown is kept apart.  Of `bi_binary` the operands are BigInts: with
another kind of operand it compares as numbers or throws before it comes here.
-/

namespace BananaOS.Bigint

/-- `big_t` -/
structure Big where
  neg : Bool
  d : List UInt32
  deriving DecidableEq, Repr

/-- What the operations throw. -/
inductive Thrown where
  /-- "RangeError: Maximum BigInt size exceeded" -/
  | tooBig
  /-- "RangeError: Division by zero" -/
  | divisionByZero
  /-- "RangeError: Exponent must be non-negative" -/
  | negativeExponent
  /-- "TypeError: BigInts have no unsigned right shift, use >> instead" -/
  | unsignedShift
  /-- "TypeError: Cannot convert a BigInt value to a number" -/
  | toNumber
  /-- "RangeError: Invalid value: not (convertible to) a safe integer" -/
  | notSafeInteger
  deriving DecidableEq, Repr

/-- `BIG_MAX_LIMBS` -/
def bigMaxLimbs : ℕ := 32768

/-- A limb's carry: `c >> 32` -/
def carry (t : ℕ) : ℕ := t / 2 ^ 32

/-- `big_norm` -/
def bigNorm (b : Big) : Big :=
  let d := b.d.rdropWhile (· = 0)
  ⟨if d = [] then false else b.neg, d⟩

/-- `big_u64` -/
def bigU64 (v : ℕ) (neg : Bool) : Big :=
  bigNorm ⟨neg, [UInt32.ofNat v, UInt32.ofNat (carry v)]⟩

/-- `too_big` -/
def tooBig (limbs : ℕ) : Except Thrown Unit :=
  if limbs ≤ bigMaxLimbs then .ok () else .error .tooBig

/-! ## Magnitudes -/

/-- The limbs from the highest down, up to the first that differs. -/
def cmpDown : List UInt32 → List UInt32 → ℤ
  | x :: xs, y :: ys => if x ≠ y then (if x < y then -1 else 1) else cmpDown xs ys
  | _, _ => 0

/-- `mag_cmp` -/
def magCmp (a b : List UInt32) : ℤ :=
  if a.length ≠ b.length then (if a.length < b.length then -1 else 1)
  else cmpDown a.reverse b.reverse

/-- The loop of `mag_add`, `b` no longer than `a`; the last limb is the carry. -/
def addLoop : List UInt32 → List UInt32 → ℕ → List UInt32
  | [], _, c => [UInt32.ofNat c]
  | x :: xs, b, c =>
    let c := c + (x.toNat + (b.headD 0).toNat)
    UInt32.ofNat c :: addLoop xs b.tail (carry c)

/-- `mag_add` -/
def magAdd (a b : List UInt32) : Big :=
  bigNorm ⟨false, if a.length < b.length then addLoop b a 0 else addLoop a b 0⟩

/-- The loop of `mag_sub`, `b` no longer than `a`. -/
def subLoop : List UInt32 → List UInt32 → ℤ → List UInt32
  | [], _, _ => []
  | x :: xs, b, br =>
    let t : ℤ := x.toNat - (b.headD 0).toNat - br
    let br : ℤ := if t < 0 then 1 else 0
    UInt32.ofInt (t + if br ≠ 0 then 2 ^ 32 else 0) :: subLoop xs b.tail br

/-- `mag_sub`: `|a| - |b|`, `|a| >= |b|` -/
def magSub (a b : List UInt32) : Big := bigNorm ⟨false, subLoop a b 0⟩

/-- One limb of `a` times `b`, added to the limbs of `r` from there on. -/
def mulRow (x : UInt32) : List UInt32 → List UInt32 → ℕ → List UInt32
  | [], r, c => r.set 0 (UInt32.ofNat c)
  | y :: ys, r, c =>
    let t := (x.toNat * y.toNat + (r.headD 0).toNat + c) % 2 ^ 64
    UInt32.ofNat t :: mulRow x ys r.tail (carry t)

/-- The loop of `mag_mul`, with the limbs of `r` from the current one on. -/
def mulLoop : List UInt32 → List UInt32 → List UInt32 → List UInt32
  | [], _, r => r
  | x :: xs, b, r =>
    let r := mulRow x b r 0
    r.headD 0 :: mulLoop xs b r.tail

/-- `mag_mul` -/
def magMul (a b : List UInt32) : Except Thrown Big :=
  if a = [] ∨ b = [] then .ok ⟨false, []⟩
  else do
    tooBig (a.length + b.length)
    return bigNorm ⟨false, mulLoop a b (List.replicate (a.length + b.length) 0)⟩

/-- The loop of `mag_divsmall`, from the highest limb down: quotient and remainder. -/
def divsmallLoop (m : ℕ) : List UInt32 → List UInt32 × ℕ
  | [] => ([], 0)
  | x :: xs =>
    let r := divsmallLoop m xs
    let cur := r.2 <<< 32 ||| x.toNat
    (UInt32.ofNat (cur / m) :: r.1, cur % m)

/-- `mag_divsmall` -/
def magDivsmall (a : List UInt32) (m : UInt32) : Big × ℕ :=
  let r := divsmallLoop m.toNat a
  (bigNorm ⟨false, r.1⟩, r.2)

/-- `mag_bit` -/
def magBit (a : List UInt32) (bit : ℕ) : UInt32 := (a.getD (bit >>> 5) 0) >>> UInt32.ofNat (bit &&& 31) &&& 1

/-- `while (top) { b++; top >>= 1; }` -/
def bitCount (top : ℕ) : ℕ := if _h : top = 0 then 0 else bitCount (top / 2) + 1

/-- `mag_bits` -/
def magBits (a : List UInt32) : ℕ :=
  match a.getLast? with
  | none => 0
  | some top => ((a.length - 1) * 32 + bitCount top.toNat) % 2 ^ 32

/-- The loop of `mag_shl`: `prev` is what the limb below left in this one. -/
def shlLoop (bs : ℕ) : List UInt32 → UInt32 → List UInt32
  | [], prev => [prev]
  | x :: xs, prev =>
    let v := x.toNat <<< bs
    (prev ||| UInt32.ofNat v) :: shlLoop bs xs (0 ||| UInt32.ofNat (carry v))

/-- `mag_shl` -/
def magShl (a : Big) (k : ℕ) : Except Thrown Big :=
  if a.d = [] then .ok ⟨false, []⟩
  else do
    let ls := k >>> 5
    let bs := k &&& 31
    tooBig (a.d.length + ls + 1)
    return bigNorm ⟨a.neg, List.replicate ls 0 ++ shlLoop bs a.d 0⟩

/-- The loop of `mag_shr` -/
def shrLoop (bs : ℕ) : List UInt32 → List UInt32
  | [] => []
  | lo :: rest => UInt32.ofNat (((rest.headD 0).toNat <<< 32 ||| lo.toNat) >>> bs) :: shrLoop bs rest

/-- `mag_shr` -/
def magShr (a : List UInt32) (k : ℕ) : Big :=
  let ls := k >>> 5
  let bs := k &&& 31
  if ls ≥ a.length then ⟨false, []⟩ else bigNorm ⟨false, shrLoop bs (a.drop ls)⟩

/-- `rr = rr * 2 + bit`, as `mag_divmod` does it -/
def doubleLoop : List UInt32 → UInt32 → List UInt32
  | [], c => if c ≠ 0 then [c] else []
  | x :: xs, c => (x <<< 1 ||| c) :: doubleLoop xs (x >>> 31)

/-- The long division of `mag_divmod`, a bit at a time: quotient and remainder. -/
def divLoop (a b : List UInt32) : ℕ → List UInt32 → List UInt32 → List UInt32 × List UInt32
  | 0, qq, rr => (qq, rr)
  | bit + 1, qq, rr =>
    let rr := doubleLoop rr (magBit a bit)
    if magCmp rr b ≥ 0 then
      divLoop a b bit (qq.modify (bit >>> 5) (· ||| 1 <<< UInt32.ofNat (bit &&& 31)))
        ((subLoop rr b 0).rdropWhile (· = 0))
    else divLoop a b bit qq rr

/-- `mag_divmod`, a power of two: the limbs below the bit `k`. -/
def maskLow (a : List UInt32) (k : ℕ) : List UInt32 :=
  let rr := (List.range ((k >>> 5) + 1)).map fun i => a.getD i 0
  rr.modify (k >>> 5) (· &&& if k &&& 31 ≠ 0 then (1 <<< UInt32.ofNat (k &&& 31)) - 1 else 0)

/-- Each limb is 0. -/
def AllZero (a : List UInt32) : Prop :=
  ∀ x ∈ a, x = 0

instance (a : List UInt32) : Decidable (AllZero a) :=
  List.decidableBAll (fun x => x = 0) a

/-- `mag_divmod`: `|a| / |b|` and `|a| % |b|` (`b` not 0) -/
def magDivmod (a b : List UInt32) : Big × Big :=
  if magCmp a b < 0 then (⟨false, []⟩, ⟨false, a⟩)
  else if b.length = 1 then
    let r := magDivsmall a (b.headD 0)
    (r.1, bigU64 r.2 false)
  else
    let top := b.getLastD 0
    if top &&& (top - 1) = 0 ∧ AllZero b.dropLast then
      let k := magBits b - 1
      (magShr a k, bigNorm ⟨false, maskLow a k⟩)
    else
      let r := divLoop a b (magBits a) (List.replicate a.length 0) []
      (bigNorm ⟨false, r.1⟩, ⟨false, r.2⟩)

/-! ## Signed arithmetic -/

/-- `big_neg` -/
def bigNeg (a : Big) : Big := ⟨if a.d ≠ [] then !a.neg else a.neg, a.d⟩

/-- `r->neg = r->n && neg` -/
def withSign (r : Big) (neg : Bool) : Big := ⟨decide (r.d ≠ []) && neg, r.d⟩

/-- `big_add` -/
def bigAdd (a b : Big) : Big :=
  if a.neg = b.neg then withSign (magAdd a.d b.d) a.neg
  else
    let c := magCmp a.d b.d
    if c = 0 then ⟨false, []⟩
    else if c > 0 then bigNorm { magSub a.d b.d with neg := a.neg }
    else bigNorm { magSub b.d a.d with neg := b.neg }

/-- `big_sub` -/
def bigSub (a b : Big) : Big := bigAdd a (bigNeg b)

/-- `big_cmp` -/
def bigCmp (a b : Big) : ℤ :=
  if a.neg ≠ b.neg then (if a.neg then -1 else 1)
  else if a.neg then -magCmp a.d b.d else magCmp a.d b.d

/-- `if (out[i]--) break` -/
def decLoop : List UInt32 → List UInt32
  | [] => []
  | x :: xs => (x - 1) :: if x ≠ 0 then xs else decLoop xs

/-- `if (++r->d[i]) break` -/
def incLoop : List UInt32 → List UInt32
  | [] => []
  | x :: xs => (x + 1) :: if x + 1 ≠ 0 then xs else incLoop xs

/-- `to_tc`: two's complement, `w` limbs -/
def toTc (a : Big) (w : ℕ) : List UInt32 :=
  let out := (List.range w).map fun i => a.d.getD i 0
  if a.neg then (decLoop out).map (~~~ ·) else out

/-- `from_tc` -/
def fromTc (v : List UInt32) : Big :=
  let neg := decide ((v.getLastD 0) >>> 31 &&& 1 ≠ 0)
  if neg then bigNorm ⟨true, incLoop (v.map (~~~ ·))⟩ else bigNorm ⟨false, v⟩

/-- The operators of `bi_binary` that make a number. -/
inductive ArithOp where
  | add
  | sub
  | mul
  | div
  | mod
  | pow
  | band
  | bor
  | bxor
  | shl
  | shr
  | ushr
  deriving DecidableEq, Repr

/-- The comparisons of `bi_binary`. -/
inductive RelOp where
  | seq
  | sne
  | eq
  | ne
  | lt
  | gt
  | le
  | ge
  deriving DecidableEq, Repr

/-- One limb of `big_bitop`. -/
def bitop (op : ArithOp) (x y : UInt32) : UInt32 :=
  match op with
  | .band => x &&& y
  | .bor => x ||| y
  | _ => x ^^^ y

/-- `big_bitop` -/
def bigBitop (op : ArithOp) (a b : Big) : Big :=
  let w := max a.d.length b.d.length + 1
  fromTc (List.zipWith (bitop op) (toTc a w) (toTc b w))

/-- `big_shr`: `a >> k`, rounding toward `-infinity` -/
def bigShr (a : Big) (k : ℕ) : Big :=
  if a.neg = false then magShr a.d k
  else
    let one := bigU64 1 false
    let t := magSub a.d one.d
    let t := magShr t.d k
    let t := magAdd t.d one.d
    ⟨decide (t.d ≠ []), t.d⟩

/-- `big_toi64`: far more than any real shift stands for all that is larger -/
def bigToi64 (a : Big) : ℤ :=
  let v : ℕ := (a.d.getD 0 0).toNat ||| (a.d.getD 1 0).toNat <<< 32
  let v : ℕ := if a.d.length > 2 ∨ v > 2 ^ 40 then 2 ^ 40 else v
  if a.neg then -(v : ℤ) else v

/-- `big_as_uint`: `x mod 2^bits` -/
def bigAsUint (a : Big) (bits : ℕ) : Except Thrown Big := do
  let w := bits / 32 + 2
  let w := if a.d.length + 1 > w then a.d.length + 1 else w
  tooBig w
  let r := (toTc a w).take (bits / 32 + 1)
  let r := if bits &&& 31 ≠ 0 then
      r.modify (bits >>> 5) (· &&& (1 <<< UInt32.ofNat (bits &&& 31)) - 1)
    else r.set (bits >>> 5) 0
  return bigNorm ⟨false, r⟩

/-! ## The value side -/

/-- `OP_POW`: the loop over the bits of the exponent -/
def powLoop (e : ℕ) (r base : Big) : Except Thrown Big :=
  if _h : e = 0 then .ok r
  else do
    let r ← if e % 2 = 1 then magMul r.d base.d else .ok r
    if e / 2 = 0 then .ok r
    else do
      let base ← magMul base.d base.d
      powLoop (e / 2) r base

/-- What `bi_binary` gives. -/
inductive Val where
  | big (b : Big)
  | bool (b : Bool)
  deriving DecidableEq, Repr

/-- `bi_binary`, an operator that makes a number -/
def biArith (op : ArithOp) (x y : Big) : Except Thrown Big :=
  match op with
  | .add => .ok (bigAdd x y)
  | .sub => .ok (bigSub x y)
  | .mul => do
    let r ← magMul x.d y.d
    return withSign r (x.neg != y.neg)
  | .div =>
    if y.d = [] then .error .divisionByZero
    else .ok (withSign (magDivmod x.d y.d).1 (x.neg != y.neg))
  | .mod =>
    if y.d = [] then .error .divisionByZero
    else .ok (withSign (magDivmod x.d y.d).2 x.neg)
  | .pow =>
    if y.neg then .error .negativeExponent
    else
      let e := (bigToi64 y).toNat
      if e * magBits x.d % 2 ^ 64 > bigMaxLimbs * 32 ∧ magBits x.d > 1 then .error .tooBig
      else do
        let r ← powLoop e (bigU64 1 false) x
        return withSign r (x.neg && decide (e % 2 = 1))
  | .band => .ok (bigBitop .band x y)
  | .bor => .ok (bigBitop .bor x y)
  | .bxor => .ok (bigBitop .bxor x y)
  | .shl => shift x (bigToi64 y) true
  | .shr => shift x (bigToi64 y) false
  | .ushr => .error .unsignedShift
where
  /-- `OP_SHL` and `OP_SHR`: a negative count goes the other way -/
  shift (x : Big) (k : ℤ) (shl : Bool) : Except Thrown Big :=
    let left := shl == decide (k ≥ 0)
    let m := k.natAbs
    if left then
      if m > bigMaxLimbs * 32 then .error .tooBig else magShl x (m % 2 ^ 32)
    else .ok (bigShr x (if m > 0xFFFFFFFF then 0xFFFFFFFF else m))

/-- `bi_binary`, a comparison -/
def biCompare (op : RelOp) (x y : Big) : Bool :=
  match op with
  | .seq => decide (bigCmp x y = 0)
  | .sne => !decide (bigCmp x y = 0)
  | .eq => decide (bigCmp x y = 0)
  | .ne => !decide (bigCmp x y = 0)
  | .lt => decide (bigCmp x y < 0)
  | .gt => decide (bigCmp x y > 0)
  | .le => decide (bigCmp x y ≤ 0)
  | .ge => decide (bigCmp x y ≥ 0)

/-- `bi_binary`, on two BigInts -/
def biBinary (op : RelOp ⊕ ArithOp) (x y : Big) : Except Thrown Val :=
  match op with
  | .inl op => .ok (.bool (biCompare op x y))
  | .inr op => (biArith op x y).map .big

/-- The operators of `bi_unary`. -/
inductive UnaryOp where
  | neg
  | bitnot
  | plus
  deriving DecidableEq, Repr

/-- `bi_unary` -/
def biUnary (op : UnaryOp) (x : Big) : Except Thrown Big :=
  match op with
  | .neg => .ok (bigNeg x)
  | .bitnot => .ok (bigSub (bigNeg x) (bigU64 1 false))
  | .plus => .error .toNumber

/-- `bi_add_int` -/
def biAddInt (x : Big) (k : ℤ) : Big := bigAdd x (bigU64 k.natAbs (decide (k < 0)))

/-- `big_asN`, on a finite number of bits (one that is not throws as one out of range does) -/
def bigAsN (bits : ℚ) (x : Big) (isSigned : Bool) : Except Thrown Big :=
  if bits < 0 ∨ bits > 1048576 then .error .notSafeInteger
  else do
    let n := ⌊bits⌋.toNat
    let u ← bigAsUint x n
    if isSigned = true ∧ n ≠ 0 ∧ u.d ≠ [] ∧ magBits u.d = n then do
      let p ← magShl (bigU64 1 false) n
      return bigSub u p
    else return u

end BananaOS.Bigint
