import BananaOS.Bigint.Exact
import Mathlib.Data.Nat.Digits.Lemmas

/-!
# BigInts and their text

`big_str`, `big_parse` and the part of `to_big` for strings.  The printer divides by the radix until
nothing is left; its bytes are the digits of Mathlib (`strLoop_eq`), and there are no more than the
number has bits.  The parser goes the other way, `r = r * radix + d` on the limbs (`val_mulAdd`), so it
gives back the number (`parseLoop_digits`).

It refuses a text by the room it sets aside, `len / 2 + 2` limbs, and not by what the text says: decimal
numbers from `10^65533` on are refused, though they need 6804 limbs and 32768 are allowed.
-/

namespace BananaOS.Bigint

open Lib Big

/-! ## Printing -/

/-- "0123456789abcdefghijklmnopqrstuvwxyz"[rem] -/
def digitByte (rem : ℕ) : UInt8 := UInt8.ofNat (if rem < 10 then 48 + rem else 87 + rem)

theorem length_divsmallLoop (m : ℕ) : ∀ a : List UInt32, (divsmallLoop m a).1.length = a.length
  | [] => rfl
  | _ :: xs => congrArg (· + 1) (length_divsmallLoop m xs)

theorem magDivsmall_spec {m : UInt32} (hm : 0 < m.toNat) (a : List UInt32) :
    IsMag (magDivsmall a m).1 (val a / m.toNat) ∧ (magDivsmall a m).2 = val a % m.toNat := by
  obtain ⟨hdm, hr⟩ := divsmallLoop_spec hm m.toNat_lt a
  have hq : val (divsmallLoop m.toNat a).1 = val a / m.toNat := by
    rw [← hdm, Nat.add_comm, Nat.add_mul_div_right _ _ hm, Nat.div_eq_of_lt hr, Nat.zero_add]
  refine ⟨?_, ?_⟩
  · rw [← hq]
    exact isMag_norm _
  · change (divsmallLoop m.toNat a).2 = _
    rw [← hdm, Nat.add_comm, Nat.add_mul_mod_self_right, Nat.mod_eq_of_lt hr]

/-- A number that is divided gets smaller, or loses a limb. -/
theorem magDivsmall_lt {m : UInt32} (hm : 2 ≤ m.toNat) {t : List UInt32} (ht : t ≠ []) :
    val (magDivsmall t m).1.d + (magDivsmall t m).1.d.length < val t + t.length := by
  obtain ⟨hspec, -⟩ := magDivsmall_spec (m := m) (by omega) t
  have hlen : (magDivsmall t m).1.d.length ≤ t.length := by
    rw [← length_divsmallLoop m.toNat t]
    exact (List.rdropWhile_prefix ..).length_le
  rcases Nat.eq_zero_or_pos (val t) with h0 | hpos
  · have hnil : (magDivsmall t m).1.d = [] := by
      rw [← hspec.trimmed.val_eq_zero, hspec.val, h0, Nat.zero_div]
    rw [hnil, val_nil]
    have := List.length_pos_of_ne_nil ht
    simp only [List.length_nil]
    omega
  · rw [hspec.val]
    have := Nat.div_lt_self hpos (show 1 < m.toNat by omega)
    omega

/-- The digits of `t`, the lowest first; the radix is at least 2. -/
def strLoop (radix : UInt32) (t : List UInt32) : List UInt8 :=
  if _h : t = [] ∨ radix.toNat < 2 then []
  else
    let r := magDivsmall t radix
    digitByte r.2 :: strLoop radix r.1.d
termination_by val t + t.length
decreasing_by
  rw [not_or, not_lt] at _h
  exact magDivsmall_lt _h.2 _h.1

/-- `big_str` -/
def bigStr (a : Big) (radix : UInt32) : List UInt8 :=
  if a.d = [] then [48]
  else (strLoop radix a.d ++ if a.neg then [45] else []).reverse

/-- The bytes of its buffer: `cap + 1`. -/
def strBuf (a : Big) : ℕ := magBits a.d + 2 + 1

/-! ## Parsing -/

/-- What is left out at both ends. -/
def isBlank (c : UInt8) : Bool := c = 32 || c = 9 || c = 10 || c = 13

/-- The value of a digit, 99 for what is none. -/
def digitVal (c : UInt8) : ℕ :=
  if 48 ≤ c ∧ c ≤ 57 then c.toNat - 48
  else if 97 ≤ c ||| 32 ∧ c ||| 32 ≤ 122 then (c ||| 32).toNat - 97 + 10
  else 99

/-- A sign in front. -/
def parseSign (allowSign : Bool) (s : List UInt8) : Bool × List UInt8 :=
  if allowSign ∧ (s.head? = some 45 ∨ s.head? = some 43) then (s.head? = some 45, s.tail) else (false, s)

/-- "0x", "0o" and "0b" with a digit behind them. -/
def parseRadix (s : List UInt8) : ℕ × List UInt8 :=
  let l := s.getD 1 0 ||| 32
  if 2 < s.length ∧ s.getD 0 0 = 48 ∧ (l = 120 ∨ l = 111 ∨ l = 98) then
    (if l = 120 then 16 else if l = 111 then 8 else 2, s.drop 2)
  else (10, s)

/-- `r = r * radix + carry` -/
def mulAdd (radix : ℕ) : List UInt32 → ℕ → List UInt32
  | [], c => if c = 0 then [] else [UInt32.ofNat c]
  | x :: xs, c =>
    let t := (x.toNat * radix + c) % 2 ^ 64
    UInt32.ofNat t :: mulAdd radix xs (carry t)

/-- The loop over the digits; `none` where one is none. -/
def parseLoop (radix : ℕ) : List UInt8 → List UInt32 → Option (List UInt32)
  | [], r => some r
  | c :: cs, r => if digitVal c ≥ radix then none else parseLoop radix cs (mulAdd radix r (digitVal c))

/-- `cap`: the limbs that are set aside for a text of that length -/
def parseCap (len : ℕ) : ℕ := len % 2 ^ 32 / 2 + 2

/-- `big_parse`: `none` for what is not an integer -/
def bigParse (s : List UInt8) (allowSign : Bool) : Except Thrown (Option Big) :=
  let s := (s.dropWhile isBlank).rdropWhile isBlank
  let sign := parseSign allowSign s
  let digits := parseRadix sign.2
  if parseCap digits.2.length ≤ bigMaxLimbs then
    .ok ((parseLoop digits.1 digits.2 []).map fun r => bigNorm ⟨sign.1, r⟩)
  else .error .tooBig

/-- What `to_big` throws for a string. -/
inductive ToBigError where
  | thrown (t : Thrown)
  /-- "SyntaxError: Cannot convert %.60s to a BigInt" -/
  | syntaxError (s : List UInt8)
  deriving DecidableEq

/-- `to_big`, of a string -/
def toBig (s : List UInt8) : Except ToBigError Big :=
  match bigParse s true with
  | .error t => .error (.thrown t)
  | .ok none => .error (.syntaxError (s.take 60))
  | .ok (some b) => .ok b

/-! ## What is printed -/

variable {radix : UInt32} {x : Big}

theorem strLoop_nil : strLoop radix [] = [] := by
  rw [strLoop, dif_pos (.inl rfl)]

theorem strLoop_cons (hr : 2 ≤ radix.toNat) {t : List UInt32} (ht : t ≠ []) :
    strLoop radix t =
      digitByte (magDivsmall t radix).2 :: strLoop radix (magDivsmall t radix).1.d := by
  rw [strLoop, dif_neg (by rw [not_or, not_lt]; exact ⟨ht, hr⟩)]

theorem strLoop_eq (hr : 2 ≤ radix.toNat) {t : List UInt32} (ht : Trimmed t) :
    strLoop radix t = (Nat.digits radix.toNat (val t)).map digitByte := by
  obtain ⟨n, hn⟩ : ∃ n, n = val t := ⟨_, rfl⟩
  induction n using Nat.strong_induction_on generalizing t with
  | _ n ih =>
    by_cases hnil : t = []
    · rw [hnil, strLoop_nil, val_nil, Nat.digits_zero, List.map_nil]
    · have hpos := ht.val_pos hnil
      obtain ⟨hq, hm⟩ := magDivsmall_spec (m := radix) (by omega) t
      have hlt := Nat.div_lt_self hpos (show 1 < radix.toNat by omega)
      rw [strLoop_cons hr hnil, hm, ih (val (magDivsmall t radix).1.d)
        (by rw [hq.val, hn]; exact hlt) hq.trimmed rfl, hq.val,
        Nat.digits_def' (by omega) hpos, List.map_cons]

theorem bigStr_eq (hr : 2 ≤ radix.toNat) (hx : x.Norm) (h0 : x.d ≠ []) : bigStr x radix =
    (if x.neg then [45] else []) ++ (Nat.digits radix.toNat (val x.d)).reverse.map digitByte := by
  rw [bigStr, if_neg h0, strLoop_eq hr hx.trimmed, List.reverse_append, List.map_reverse]
  congr 1
  split_ifs <;> rfl

theorem length_digits_le (hr : 2 ≤ radix.toNat) (hx : x.Norm) (hxs : x.Short) :
    (Nat.digits radix.toNat (val x.d)).length ≤ magBits x.d := by
  rw [Nat.digits_length_le_iff hr]
  by_cases hnil : x.d = []
  · rw [hnil, val_nil]
    exact Nat.pow_pos (by omega)
  · exact (magBits_spec hx.trimmed hnil hxs).2.1.trans_le (Nat.pow_le_pow_left hr _)

theorem bigStr_fits (hr : 2 ≤ radix.toNat) (hx : x.Norm) (hxs : x.Short) :
    (bigStr x radix).length ≤ strBuf x := by
  unfold strBuf
  by_cases h0 : x.d = []
  · rw [bigStr, if_pos h0, List.length_singleton]
    omega
  · have hle := length_digits_le hr hx hxs
    rw [bigStr_eq hr hx h0, List.length_append, List.length_map, List.length_reverse]
    split_ifs <;> simp only [List.length_nil, List.length_singleton] <;> omega

/-- No zero in front: a zero alone, or another digit first. -/
def NoLeadingZero (ds : List UInt8) : Prop := ds = [48] ∨ ∃ c cs, ds = c :: cs ∧ c ≠ 48

theorem digitByte_eq_zero {d : ℕ} (hd : d < 36) : digitByte d = 48 ↔ d = 0 := by
  have h : ∀ d : Fin 36, digitByte d = 48 ↔ (d : ℕ) = 0 := by decide
  exact h ⟨d, hd⟩

theorem digits_noLeadingZero {b n : ℕ} (hb : 2 ≤ b) (hb' : b ≤ 36) (hn : n ≠ 0) :
    NoLeadingZero ((Nat.digits b n).reverse.map digitByte) := by
  have hne : Nat.digits b n ≠ [] := Nat.digits_ne_nil_iff_ne_zero.mpr hn
  have hlast := Nat.getLast_digit_ne_zero b hn
  have hlt := Nat.digits_lt_base hb (List.getLast_mem hne)
  rw [← List.dropLast_append_getLast hne, List.reverse_append, List.reverse_singleton,
    List.singleton_append, List.map_cons]
  exact .inr ⟨_, _, rfl, fun h => hlast ((digitByte_eq_zero (hlt.trans_le hb')).mp h)⟩

/-! ## What is read -/

variable {cs : List UInt8} {r : List UInt32}

theorem mulAdd_step {b c : ℕ} (hb : 0 < b) (hb' : b ≤ 2 ^ 31) (x : UInt32) (hc : c < b) :
    x.toNat * b + c < 2 ^ 64 ∧ carry (x.toNat * b + c) < b := by
  have hx := x.toNat_lt
  have hxb : x.toNat * b ≤ (2 ^ 32 - 1) * b := Nat.mul_le_mul_right _ (by omega)
  have hsum : x.toNat * b + c < 2 ^ 32 * b := by omega
  exact ⟨by omega, Nat.div_lt_of_lt_mul hsum⟩

theorem val_mulAdd {b : ℕ} (hb : 0 < b) (hb' : b ≤ 2 ^ 31) : ∀ {r : List UInt32} {c : ℕ}, c < b →
    val (mulAdd b r c) = val r * b + c
  | [], c, hc => by
    unfold mulAdd
    split_ifs with h
    · simp [h]
    · simp only [val_cons, val_nil, UInt32.toNat_ofNat']
      omega
  | x :: xs, c, hc => by
    obtain ⟨h64, hcarry⟩ := mulAdd_step hb hb' x hc
    simp only [mulAdd, Nat.mod_eq_of_lt h64, val_cons, val_mulAdd hb hb' hcarry,
      UInt32.toNat_ofNat']
    have hdm := Nat.div_add_mod (x.toNat * b + c) (2 ^ 32)
    unfold carry
    calc (x.toNat * b + c) % 2 ^ 32 + 2 ^ 32 * (val xs * b + (x.toNat * b + c) / 2 ^ 32)
        = 2 ^ 32 * ((x.toNat * b + c) / 2 ^ 32) + (x.toNat * b + c) % 2 ^ 32 +
            2 ^ 32 * (val xs * b) := by ring
      _ = (x.toNat + 2 ^ 32 * val xs) * b + c := by
          rw [hdm]
          ring

/-- The limbs, up to one more: it is there if the carry is not 0. -/
theorem trimmed_mulAdd {b : ℕ} (hb : 0 < b) (hb' : b ≤ 2 ^ 31) : ∀ {r : List UInt32} {c : ℕ}, c < b →
    Trimmed r → Trimmed (mulAdd b r c)
  | [], c, hc, _ => by
    unfold mulAdd
    split_ifs with h
    · exact trimmed_nil
    · refine trimmed_cons.mpr ⟨fun _ h0 => h ?_, trimmed_nil⟩
      have h0 := congrArg UInt32.toNat h0
      rw [UInt32.toNat_ofNat', Nat.mod_eq_of_lt (by omega)] at h0
      exact h0
  | x :: xs, c, hc, ht => by
    obtain ⟨hx0, hxs⟩ := trimmed_cons.mp ht
    obtain ⟨h64, hcarry⟩ := mulAdd_step hb hb' x hc
    simp only [mulAdd, Nat.mod_eq_of_lt h64]
    refine trimmed_cons.mpr ⟨fun hnil h0 => ?_, trimmed_mulAdd hb hb' hcarry hxs⟩
    -- nothing was carried on and there is no further limb: this one is the exact product
    have hval := val_mulAdd hb hb' hcarry (r := xs)
    rw [hnil, val_nil] at hval
    have hxs0 : val xs = 0 := by
      rcases Nat.eq_zero_or_pos (val xs) with h | h
      · exact h
      · have := Nat.mul_pos h hb
        omega
    have hx1 : 1 ≤ x.toNat := by
      have := hx0 (hxs.val_eq_zero.mp hxs0)
      have : x.toNat ≠ 0 := fun h => this (UInt32.toNat_inj.mp h)
      omega
    have hprod : b ≤ x.toNat * b := Nat.le_mul_of_pos_left _ hx1
    have h0 := congrArg UInt32.toNat h0
    rw [UInt32.toNat_ofNat'] at h0
    unfold carry at hval
    have hz : (0 : UInt32).toNat = 0 := rfl
    omega

theorem parseLoop_spec {b : ℕ} (hb : 0 < b) (hb' : b ≤ 2 ^ 31) (ht : Trimmed r)
    (hcs : ∀ c ∈ cs, digitVal c < b) : ∃ r', parseLoop b cs r = some r' ∧ Trimmed r' ∧
      val r' = cs.foldl (fun v c => v * b + digitVal c) (val r) := by
  induction cs generalizing r with
  | nil => exact ⟨r, rfl, ht, rfl⟩
  | cons c cs ih =>
    obtain ⟨hc, hcs⟩ := List.forall_mem_cons.mp hcs
    obtain ⟨r', h1, h2, h3⟩ := ih (trimmed_mulAdd hb hb' hc ht) hcs
    refine ⟨r', ?_, h2, ?_⟩
    · rw [parseLoop, if_neg (Nat.not_le_of_lt hc), h1]
    · rw [h3, val_mulAdd hb hb' hc, List.foldl_cons]

/-! ## There and back -/

theorem digitVal_digitByte {d : ℕ} (hd : d < 36) : digitVal (digitByte d) = d := by
  have h : ∀ d : Fin 36, digitVal (digitByte d) = d := by decide
  exact h ⟨d, hd⟩

theorem foldl_digits {b : ℕ} {ds : List ℕ} (hds : ∀ d ∈ ds, d < 36) :
    (ds.reverse.map digitByte).foldl (fun v c => v * b + digitVal c) 0 = Nat.ofDigits b ds := by
  rw [List.foldl_map, List.foldl_reverse]
  induction ds with
  | nil => rfl
  | cons d ds ih =>
    obtain ⟨hd, hds⟩ := List.forall_mem_cons.mp hds
    rw [List.foldr_cons, ih hds, digitVal_digitByte hd, Nat.ofDigits_cons]
    ring

theorem decimal_byte {d : ℕ} (hd : d < 10) : isBlank (digitByte d) = false ∧
    digitByte d ≠ 45 ∧ digitByte d ≠ 43 ∧ digitByte d ||| 32 ≠ 120 ∧ digitByte d ||| 32 ≠ 111 ∧
      digitByte d ||| 32 ≠ 98 := by
  have h : ∀ d : Fin 10, isBlank (digitByte d) = false ∧ digitByte d ≠ 45 ∧ digitByte d ≠ 43 ∧
      digitByte d ||| 32 ≠ 120 ∧ digitByte d ||| 32 ≠ 111 ∧ digitByte d ||| 32 ≠ 98 := by decide
  exact h ⟨d, hd⟩

theorem strip_eq_self {t : List UInt8} (h : ∀ c ∈ t, isBlank c = false) :
    (t.dropWhile isBlank).rdropWhile isBlank = t := by
  have hdrop : ∀ {l : List UInt8}, (∀ c ∈ l, isBlank c = false) → l.dropWhile isBlank = l := by
    rintro (_ | ⟨c, l⟩) hl
    · rfl
    · exact List.dropWhile_cons_of_neg (by rw [hl c List.mem_cons_self]; decide)
  rw [hdrop h, List.rdropWhile, hdrop fun c hc => h c (List.mem_reverse.mp hc), List.reverse_reverse]

variable {neg : Bool} {ds : List ℕ}

theorem parseSign_digits (hds : ∀ d ∈ ds, d < 10) (hne : ds ≠ []) :
    parseSign true ((if neg then [45] else []) ++ ds.map digitByte) = (neg, ds.map digitByte) := by
  obtain ⟨d, ds, rfl⟩ := List.exists_cons_of_ne_nil hne
  obtain ⟨-, h1, h2, -⟩ := decimal_byte (hds d List.mem_cons_self)
  cases neg <;> simp [parseSign, h1, h2]

theorem parseRadix_digits (hds : ∀ d ∈ ds, d < 10) :
    parseRadix (ds.map digitByte) = (10, ds.map digitByte) := by
  unfold parseRadix
  refine if_neg ?_
  rintro ⟨hlen, -, hl⟩
  obtain ⟨c, d, e, rest, rfl⟩ : ∃ c d e rest, ds = c :: d :: e :: rest := by
    rcases ds with - | ⟨c, - | ⟨d, - | ⟨e, rest⟩⟩⟩ <;> simp at hlen ⊢
  obtain ⟨-, -, -, h1, h2, h3⟩ := decimal_byte (hds d (by simp))
  simp [h1, h2, h3] at hl

/-- A sign and decimal digits: they are read, or there are too many. -/
theorem bigParse_digits (hds : ∀ d ∈ ds, d < 10) (hne : ds ≠ []) :
    bigParse ((if neg then [45] else []) ++ ds.reverse.map digitByte) true =
      if parseCap ds.length ≤ bigMaxLimbs then
        .ok ((parseLoop 10 (ds.reverse.map digitByte) []).map fun r => bigNorm ⟨neg, r⟩)
      else .error .tooBig := by
  have hrev : ∀ d ∈ ds.reverse, d < 10 := fun d hd => hds d (List.mem_reverse.mp hd)
  have hblank : ∀ c ∈ (if neg then [45] else []) ++ ds.reverse.map digitByte, isBlank c = false := by
    intro c hc
    rcases List.mem_append.mp hc with hc | hc
    · cases neg with
      | false => exact absurd hc List.not_mem_nil
      | true =>
        rw [List.mem_singleton.mp hc]
        decide
    · obtain ⟨d, hd, rfl⟩ := List.mem_map.mp hc
      exact (decimal_byte (hrev d hd)).1
  unfold bigParse
  simp only [strip_eq_self hblank, parseSign_digits hrev (by simpa using hne), parseRadix_digits hrev,
    List.length_map, List.length_reverse]

theorem bigNorm_eq_self (hx : x.Norm) : bigNorm x = x := by
  have hd : x.d.rdropWhile (· = 0) = x.d :=
    (trimmed_rdropWhile x.d).eq_of_val hx.trimmed (val_rdropWhile x.d)
  unfold bigNorm
  dsimp only
  rw [hd]
  split_ifs with hnil
  · rw [← hx.zero hnil]
  · rfl

/-- What `to_big` makes of a number's digits. -/
theorem toBig_bigStr (hx : x.Norm) : toBig (bigStr x 10) =
    if parseCap (Nat.digits 10 (val x.d)).length ≤ bigMaxLimbs then .ok x
    else .error (.thrown .tooBig) := by
  by_cases h0 : x.d = []
  · obtain ⟨neg, d⟩ := x
    obtain rfl : d = [] := h0
    obtain rfl : neg = false := hx.zero rfl
    decide
  · have hds : ∀ d ∈ Nat.digits 10 (val x.d), d < 10 := fun d hd =>
      Nat.digits_lt_base (by decide) hd
    have hne : Nat.digits 10 (val x.d) ≠ [] :=
      Nat.digits_ne_nil_iff_ne_zero.mpr (hx.trimmed.val_pos h0).ne'
    have hbytes : ∀ c ∈ (Nat.digits 10 (val x.d)).reverse.map digitByte, digitVal c < 10 := by
      intro c hc
      obtain ⟨d, hd, rfl⟩ := List.mem_map.mp hc
      have hd10 := hds d (List.mem_reverse.mp hd)
      rw [digitVal_digitByte (hd10.trans (by decide))]
      exact hd10
    obtain ⟨r, hr, ht, hval⟩ := parseLoop_spec (by decide) (by decide) trimmed_nil hbytes
    rw [val_nil, foldl_digits fun d hd => (hds d hd).trans (by decide), Nat.ofDigits_digits] at hval
    have hback : bigNorm ⟨x.neg, r⟩ = x := by
      rw [ht.eq_of_val hx.trimmed hval]
      exact bigNorm_eq_self hx
    rw [toBig, bigStr_eq (by decide) hx h0, show (10 : UInt32).toNat = 10 from rfl,
      bigParse_digits hds hne, hr, Option.map_some, hback]
    split_ifs <;> rfl

/-- What holds of the text of a number that is printed and read again. -/
structure RoundTrips (x : Big) : Prop where
  inside : (bigStr x 10).length ≤ strBuf x
  plain : ∃ ds, bigStr x 10 = (if x.neg then [45] else []) ++ ds ∧ NoLeadingZero ds
  back : toBig (bigStr x 10) = .ok x

/-- The room for the digits: `10^65533` has one too many. -/
theorem parseCap_digits {n : ℕ} (hlen : (Nat.digits 10 n).length < 2 ^ 32) :
    parseCap (Nat.digits 10 n).length ≤ bigMaxLimbs ↔ n < 10 ^ 65533 := by
  rw [← Nat.digits_length_le_iff (by decide)]
  unfold parseCap bigMaxLimbs
  rw [Nat.mod_eq_of_lt hlen]
  omega

/-- There are not so many digits that their count wraps. -/
theorem digits_short (hx : x.Norm) (hlen : x.d.length ≤ bigMaxLimbs) :
    (Nat.digits 10 (val x.d)).length < 2 ^ 32 := by
  have hxs : x.Short := hlen.trans_lt (by decide)
  have hle : (Nat.digits 10 (val x.d)).length ≤ magBits x.d :=
    length_digits_le (by decide : 2 ≤ (10 : UInt32).toNat) hx hxs
  by_cases h0 : x.d = []
  · simp [h0]
  · have := (magBits_spec hx.trimmed h0 hxs).2.2
    unfold bigMaxLimbs at hlen
    omega

/-- **A number makes the way to its text and back exactly if it is below `10^65533`.** -/
theorem bigStr_round_trip_iff (hx : x.Norm) (hlen : x.d.length ≤ bigMaxLimbs) :
    RoundTrips x ↔ x.toInt.natAbs < 10 ^ 65533 := by
  have hxs : x.Short := hlen.trans_lt (by decide)
  rw [natAbs_toInt, ← parseCap_digits (digits_short hx hlen)]
  constructor
  · intro h
    have hback := h.back
    rw [toBig_bigStr hx] at hback
    by_contra hcap
    rw [if_neg hcap] at hback
    cases hback
  · intro hcap
    refine ⟨bigStr_fits (by decide) hx hxs, ?_, by rw [toBig_bigStr hx, if_pos hcap]⟩
    by_cases h0 : x.d = []
    · refine ⟨[48], ?_, .inl rfl⟩
      rw [bigStr, if_pos h0, hx.zero h0]
      rfl
    · exact ⟨_, bigStr_eq (by decide) hx h0,
        digits_noLeadingZero (by decide) (by decide) (hx.trimmed.val_pos h0).ne'⟩

theorem lt_ten_pow {n k : ℕ} (h : n < 10 ^ 3) (hk : 3 ≤ k) : n < 10 ^ k :=
  h.trans_le (Nat.pow_le_pow_right (by decide) hk)

/-- `BigInt("-123")` -/
theorem round_trip_small : bigStr ⟨true, [123]⟩ 10 = [45, 49, 50, 51] ∧
    toBig [45, 49, 50, 51] = .ok ⟨true, [123]⟩ := by
  have hstr : bigStr ⟨true, [123]⟩ 10 = [45, 49, 50, 51] := by decide +kernel
  have hx : (⟨true, [123]⟩ : Big).Norm := ⟨by simp [Trimmed], by simp⟩
  have h := ((bigStr_round_trip_iff hx (by decide)).mpr ?_).back
  · exact ⟨hstr, hstr ▸ h⟩
  · exact lt_ten_pow (by decide) (by decide)

theorem ten_pow_le {k m : ℕ} (h : 10 * k + 4 ≤ m) : 10 ^ (3 * k + 1) ≤ 2 ^ m := by
  calc 10 ^ (3 * k + 1) = (10 ^ 3) ^ k * 10 := by rw [pow_succ, pow_mul]
    _ ≤ (2 ^ 10) ^ k * 2 ^ 4 := Nat.mul_le_mul (Nat.pow_le_pow_left (by decide) k) (by decide)
    _ = 2 ^ (10 * k + 4) := by rw [pow_add, pow_mul]
    _ ≤ 2 ^ m := Nat.pow_le_pow_right (by decide) h

/-- A number with `k` limbs of zero below a one. -/
def limbPow (k : ℕ) : Big := ⟨false, List.replicate k 0 ++ [1]⟩

theorem limbPow_norm (k : ℕ) : (limbPow k).Norm :=
  ⟨trimmed_concat.mpr (by decide), fun h => absurd h (by simp [limbPow])⟩

theorem val_limbPow (k : ℕ) : val (limbPow k).d = 2 ^ (32 * k) := by
  rw [limbPow, val_append, val_replicate_zero, List.length_replicate]
  simp

theorem length_limbPow (k : ℕ) : (limbPow k).d.length = k + 1 := by
  rw [limbPow, List.length_append, List.length_replicate, List.length_singleton]

/-- `2^218464`, of 6828 limbs, is printed and not read again. -/
theorem round_trip_refused : ∃ x : Big, x.Norm ∧ x.d.length ≤ bigMaxLimbs ∧
    toBig (bigStr x 10) = .error (.thrown .tooBig) ∧ ¬ RoundTrips x := by
  have hlen : (limbPow 6827).d.length ≤ bigMaxLimbs := by
    rw [length_limbPow]
    decide
  have hrefused : toBig (bigStr (limbPow 6827) 10) = .error (.thrown .tooBig) := by
    rw [toBig_bigStr (limbPow_norm _)]
    refine if_neg fun hcap => ?_
    rw [parseCap_digits (digits_short (limbPow_norm _) hlen), val_limbPow] at hcap
    rw [show 65533 = 3 * 21844 + 1 from rfl] at hcap
    exact absurd (ten_pow_le (by decide)) (Nat.not_le_of_lt hcap)
  refine ⟨limbPow 6827, limbPow_norm _, hlen, hrefused, fun h => ?_⟩
  have := h.back
  rw [hrefused] at this
  cases this

end BananaOS.Bigint
