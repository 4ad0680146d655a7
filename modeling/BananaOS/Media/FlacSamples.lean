import BananaOS.Media.Flac

/-!
# Which samples a subframe fills

The loops of a subframe, run twice over the same bytes and two buffers.  A residual whose block is not a
multiple of its number of partitions leaves the samples behind the last partition as the buffer held
them, and the predictors add to those.

* `Reads`: a reader only moves on, and stays in the stream.
* `filled`: how many samples a subframe takes from the stream.
* `subframe_both`: up to there both runs give the same, and the sample behind still differs by what it
  differed by before, shifted by the wasted bits.
-/

namespace BananaOS.Media

open Lib Lib.Cells

/-! ## The reader -/

/-- `b'` is `b` after something was read. -/
structure Reads (b b' : Br) : Prop where
  d : b'.d = b.d
  pos : b.pos ≤ b'.pos
  inside : b.pos ≤ b.d.length → b'.pos ≤ b.d.length

variable {b b' b'' : Br} {n k v q : ℕ}

theorem Reads.refl (b : Br) : Reads b b := ⟨rfl, le_rfl, id⟩

theorem Reads.trans (h : Reads b b') (h' : Reads b' b'') : Reads b b'' := by
  refine ⟨h'.d.trans h.d, h.pos.trans h'.pos, fun hb => ?_⟩
  rw [← h.d]
  exact h'.inside (by rw [h.d]; exact h.inside hb)

theorem reads_take {x : UInt8} (h : b.d[b.pos]? = some x) (hn : b.bit + n < 16) : Reads b (b.take n) := by
  obtain ⟨hlt, -⟩ := List.getElem?_eq_some_iff.mp h
  refine ⟨rfl, Nat.le_add_right _ _, fun _ => ?_⟩
  change b.pos + (b.bit + n) / 8 ≤ b.d.length
  omega

theorem reads_bitsLoop (k : ℕ) (b : Br) (n v : ℕ) : Reads b (bitsLoop k b n v).2 := by
  induction k generalizing b n v with
  | zero => exact .refl b
  | succ k ih =>
    rw [bitsLoop]
    split_ifs
    · exact .refl b
    · split
      · exact ⟨rfl, le_rfl, id⟩
      next x hx =>
        refine (reads_take hx ?_).trans (ih _ _ _)
        split_ifs <;> omega

theorem reads_bits (b : Br) (n : ℕ) : Reads b (bits b n).2 := reads_bitsLoop n b n 0

/-- `n` bits are a number below `2 ^ n`. -/
theorem bitsLoop_lt (k : ℕ) (b : Br) (n : ℕ) {v m : ℕ} (hv : v < 2 ^ m) :
    (bitsLoop k b n v).1 < 2 ^ (m + n) := by
  induction k generalizing b n v m with
  | zero => exact hv.trans_le (Nat.pow_le_pow_right two_pos (Nat.le_add_right m n))
  | succ k ih =>
    rw [bitsLoop]
    split_ifs with hn
    · exact hv.trans_le (Nat.pow_le_pow_right two_pos (Nat.le_add_right m n))
    · split
      · dsimp only
        rw [Nat.shiftLeft_eq, pow_add]
        exact Nat.mul_lt_mul_of_pos_right hv (by positivity)
      next x hx =>
        dsimp only
        obtain ⟨take, ht⟩ : ∃ take, take = if n < 8 - b.bit.val then n else 8 - b.bit.val := ⟨_, rfl⟩
        rw [← ht]
        have hle : take ≤ n := by rw [ht]; split_ifs <;> omega
        have hchunk : (x.toNat >>> (8 - b.bit.val - take)) &&& (2 ^ take - 1) < 2 ^ take := by
          rw [Nat.and_two_pow_sub_one_eq_mod]
          exact Nat.mod_lt _ (by positivity)
        have hv' : v <<< take < 2 ^ (m + take) := by
          rw [Nat.shiftLeft_eq, pow_add]
          exact Nat.mul_lt_mul_of_pos_right hv (by positivity)
        have := ih (b.take take) (n - take)
          (Nat.or_lt_two_pow hv' (hchunk.trans_le (Nat.pow_le_pow_right two_pos (Nat.le_add_left _ _))))
        rwa [show m + take + (n - take) = m + n by omega] at this

theorem bits_lt (b : Br) (n : ℕ) : (bits b n).1 < 2 ^ n := by
  have := bitsLoop_lt n b n (v := 0) (m := 0) (by decide)
  rwa [Nat.zero_add] at this

theorem reads_sbits (b : Br) (n : ℕ) : Reads b (sbits b n).2 := by
  rw [sbits]
  split_ifs
  · exact .refl b
  · exact (reads_bits b _).trans (reads_bits _ _)
  · exact reads_bits b n

theorem zerosLoop_le (k byte : ℕ) : zerosLoop k byte ≤ k := by
  induction k generalizing byte with
  | zero => exact le_rfl
  | succ k ih =>
    rw [zerosLoop]
    have := ih (byte <<< 1 % 256)
    split_ifs <;> omega

theorem reads_unaryLoop (k : ℕ) (b : Br) (q : ℕ) : Reads b (unaryLoop k b q).2 := by
  induction k generalizing b q with
  | zero => exact ⟨rfl, le_rfl, id⟩
  | succ k ih =>
    rw [unaryLoop]
    split
    · exact ⟨rfl, le_rfl, id⟩
    next x hx =>
      obtain ⟨hlt, -⟩ := List.getElem?_eq_some_iff.mp hx
      dsimp only
      split_ifs
      · have := zerosLoop_le 7 (x.toNat <<< b.bit.val % 256)
        exact reads_take hx (by omega)
      · have hnext : Reads b { b with bit := 0, pos := b.pos + 1 } := ⟨rfl, Nat.le_succ _, fun _ => hlt⟩
        exact hnext.trans (ih _ _)

theorem reads_unary (b : Br) : Reads b (unary b).2 := reads_unaryLoop _ b 0

theorem reads_rice (k : ℕ) (b : Br) : Reads b (rice k b).2 := by
  rw [rice]
  refine (reads_unary b).trans ?_
  by_cases hk : k ≠ 0
  · simp only [if_pos hk]
    exact reads_bits _ k
  · simp only [if_neg hk]
    exact .refl _

theorem reads_coefs (prec n : ℕ) (b : Br) : Reads b (coefs prec n b).2 := by
  induction n generalizing b with
  | zero => exact .refl b
  | succ n ih => exact (reads_sbits b prec).trans (ih _)

theorem reads_wastedBits (b : Br) : Reads b (wastedBits b).2 := by
  rw [wastedBits]
  dsimp only
  split_ifs
  · exact (reads_bits b 1).trans (reads_unary _)
  · exact reads_bits b 1

/-! ## The loops over samples -/

variable {s t s' t' : Samples} {i j block order : ℕ}

/-- The reader behind `n` things of a kind. -/
def skip (read : Br → BitVec 32 × Br) (n : ℕ) (b : Br) : Br := (fun b => (read b).2)^[n] b

theorem reads_skip {read : Br → BitVec 32 × Br} (h : ∀ b, Reads b (read b).2) (n : ℕ) (b : Br) :
    Reads b (skip read n b) := by
  induction n generalizing b with
  | zero => exact .refl b
  | succ n ih => exact (h b).trans (ih _)

theorem reads_skip_sbits (m n : ℕ) (b : Br) : Reads b (skip (fun b => sbits b m) n b) :=
  reads_skip (fun b => reads_sbits b m) n b

theorem readSamples_both (read : Br → BitVec 32 × Br) (b : Br) (hg : Grown s t i s' t')
    (hn : i + n ≤ maxBlock) :
    Both (readSamples read n (b, s', i)) (readSamples read n (b, t', i)) fun x y =>
      (x.1 = skip read n b ∧ y.1 = x.1) ∧ (x.2.2 = i + n ∧ y.2.2 = i + n) ∧
        Grown s t (i + n) x.2.1 y.2.1 := by
  have h := Both.times (k := 0) (f := readSample read) (g := readSample read) (s := (b, s', i)) (t := (b, t', i))
    (R := fun k x y => (x.1 = skip read k b ∧ y.1 = x.1) ∧ (x.2.2 = i + k ∧ y.2.2 = i + k) ∧
      Grown s t (i + k) x.2.1 y.2.1) n ⟨⟨rfl, rfl⟩, ⟨rfl, rfl⟩, hg⟩ ?_
  · rw [Nat.zero_add] at h
    exact h
  · rintro k ⟨b1, s1, i1⟩ ⟨b2, t1, i2⟩ hk ⟨⟨h1, h2⟩, ⟨h3, h4⟩, h5⟩
    rw [Nat.zero_add] at h1 h3 h4 h5 ⊢
    subst h1 h2 h3 h4
    refine Both.bind (h5.set _ (by omega)) fun s2 t2 h6 => Both.pure ⟨⟨?_, rfl⟩, ⟨rfl, rfl⟩, h6⟩
    exact (Function.iterate_succ_apply' (fun b => (read b).2) k b).symm

/-- What the two runs of a subframe's part end with: the same outcome and reader, and if it went well,
buffers that are filled alike up to `j`. -/
structure Twin (b : Br) (s t : Samples) (j : ℕ) (x y : Bool × Br × Samples) : Prop where
  ok : y.1 = x.1
  br : y.2.1 = x.2.1
  reads : Reads b x.2.1
  grown : x.1 = true → Grown s t j x.2.2 y.2.2

theorem Twin.fail (h : Reads b b') : Twin b s t j (false, b', s') (false, b', t') :=
  ⟨rfl, rfl, h, nofun⟩

theorem partition_both (pbits esc : ℕ) (b : Br) (hg : Grown s t i s' t') (hn : i + n ≤ maxBlock) :
    Both (partition pbits esc n (b, s', i)) (partition pbits esc n (b, t', i)) fun x y =>
      (Reads b x.1 ∧ y.1 = x.1) ∧ (x.2.2 = i + n ∧ y.2.2 = i + n) ∧ Grown s t (i + n) x.2.1 y.2.1 := by
  have h1 : Reads b (bits b pbits).2 := reads_bits b pbits
  have h2 : Reads b (bits (bits b pbits).2 5).2 := h1.trans (reads_bits _ 5)
  rw [partition, partition]
  apply Both.ite
  · intro _
    refine (readSamples_both _ _ hg hn).mono fun x y h => ⟨⟨?_, h.1.2⟩, h.2⟩
    rw [h.1.1]
    exact h2.trans (reads_skip_sbits (bits (bits b pbits).2 5).1 n (bits (bits b pbits).2 5).2)
  · intro _
    refine (readSamples_both _ _ hg hn).mono fun x y h => ⟨⟨?_, h.1.2⟩, h.2⟩
    rw [h.1.1]
    exact h1.trans (reads_skip (reads_rice (bits b pbits).1) n (bits b pbits).2)

theorem partitions_both {pbits esc : ℕ} (left : ℕ) (hn : order ≤ n) (hleft : left = 0 → order = 0)
    (hj : i + left * n = j + order) (hm : j ≤ maxBlock) (b : Br) (hg : Grown s t i s' t') :
    Both (partitions pbits esc n left order (b, s', i)) (partitions pbits esc n left order (b, t', i))
      (Twin b s t j) := by
  induction left generalizing order b s' t' i with
  | zero =>
    obtain rfl : i = j := by
      rw [hleft rfl, Nat.zero_mul] at hj
      exact hj
    exact Both.pure ⟨rfl, rfl, .refl b, fun _ => hg⟩
  | succ left ih =>
    rw [Nat.succ_mul] at hj
    rw [partitions, partitions]
    refine (partition_both pbits esc b hg (by omega)).bind ?_
    rintro ⟨b1, s1, i1⟩ ⟨b2, t1, i2⟩ ⟨⟨h1, rfl⟩, ⟨rfl, rfl⟩, h3⟩
    apply Both.ite
    · intro _
      exact Both.pure (.fail h1)
    · intro _
      refine (ih n.zero_le (fun _ => rfl) (by omega) _ h3).mono fun x y h => ?_
      exact ⟨h.ok, h.br, h1.trans h.reads, h.grown⟩

/-- The partition order of the residual that is read here. -/
def porderAt (b : Br) : ℕ := (bits (bits b 2).2 4).1

/-- How many samples of a block the residual read here is for, the warm-up with it. -/
def residualFilled (b : Br) (block : ℕ) : ℕ := (block >>> porderAt b) * 2 ^ porderAt b

theorem residualFilled_le (b : Br) (block : ℕ) : residualFilled b block ≤ block := by
  rw [residualFilled, Nat.shiftRight_eq_div_pow]
  exact Nat.div_mul_le_self _ _

theorem residual_both (b : Br) (hb : block ≤ maxBlock) (hg : Grown s t order s' t') :
    Both (residual b s' block order) (residual b t' block order) fun x y =>
      Twin b s t (residualFilled b block) x y ∧ (x.1 = true → order ≤ residualFilled b block) := by
  have h1 : Reads b (bits b 2).2 := reads_bits b 2
  have h2 : Reads b (bits (bits b 2).2 4).2 := h1.trans (reads_bits _ 4)
  have hfill := residualFilled_le b block
  rw [residual, residual]
  apply Both.ite
  · intro _
    exact Both.pure ⟨.fail h1, nofun⟩
  · intro _
    apply Both.ite
    · intro _
      exact Both.pure ⟨.fail h2, nofun⟩
    · intro hlt
      have hle : order ≤ block >>> porderAt b := Nat.le_of_not_lt hlt
      have hone : 1 <<< porderAt b = 2 ^ porderAt b := Nat.one_shiftLeft _
      have hpos : 0 < 2 ^ porderAt b := by positivity
      refine (partitions_both _ hle (fun h => ?_) ?_ (hfill.trans hb) _ hg).mono fun x y h => ⟨?_, fun _ => ?_⟩
      · exact absurd (hone.symm.trans h) hpos.ne'
      · change order + 1 <<< porderAt b * (block >>> porderAt b) = _
        rw [hone, residualFilled, Nat.mul_comm, Nat.add_comm]
      · exact ⟨h.ok, h.br, h2.trans h.reads, h.grown⟩
      · exact hle.trans (Nat.le_mul_of_pos_right _ hpos)

/-! ## The predictors -/

/-- Up to `j` the buffers are the same, and there they differ by `d`. -/
structure Moved (j : ℕ) (d : BitVec 32) (s t : Samples) : Prop where
  agree : Agree j s t
  diff : s j - t j = d

/-- What a predictor of an order adds to `s[i]` depends on the samples before `i` only. -/
def Looks (order : ℕ) (sum : Samples → ℤ → Option (BitVec 32)) : Prop :=
  ∀ (s t : Samples) (i : ℕ), order ≤ i → i < maxBlock →
    Both (sum s i) (sum t i) fun p q => Agree i s t → p = q

variable {d : BitVec 32}

theorem moved_of_grown (h : Grown s t j s' t') : Moved j (s j - t j) s' t' :=
  ⟨h.agree, by rw [h.left j le_rfl, h.right j le_rfl]⟩

theorem peek_eq (s : Samples) (h : i < maxBlock) : peek s i = some (s i) := get_eq h

theorem poke_eq (s : Samples) (v : BitVec 32) (h : i < maxBlock) :
    poke s i v = some fun k => if k = i then v else s k := set_eq v h

theorem peek_back (s : Samples) {k : ℤ} (h0 : 0 < k) (hk : k ≤ i) (h : i ≤ maxBlock) :
    peek s (i - k) = some (s (i - k.toNat)) := by
  rw [show (i : ℤ) - k = (i - k.toNat : ℕ) by omega]
  exact peek_eq s (by omega)

theorem looks_fixedSum (order : ℕ) : Looks order (fixedSum order) := by
  intro s t i ho hi
  have hs : ∀ k : ℤ, 0 < k → k ≤ order → peek s (i - k) = some (s (i - k.toNat)) := fun k h0 hk =>
    peek_back s h0 (by omega) hi.le
  have ht : ∀ k : ℤ, 0 < k → k ≤ order → peek t (i - k) = some (t (i - k.toNat)) := fun k h0 hk =>
    peek_back t h0 (by omega) hi.le
  match order with
  | 0 => exact Both.pure fun _ => rfl
  | 1 =>
    rw [fixedSum, fixedSum, hs 1 (by omega) (by omega), ht 1 (by omega) (by omega)]
    exact Both.pure fun h => h _ (by omega)
  | 2 =>
    rw [fixedSum, fixedSum, hs 1 (by omega) (by omega), ht 1 (by omega) (by omega),
      hs 2 (by omega) (by omega), ht 2 (by omega) (by omega)]
    refine Both.pure fun h => ?_
    rw [h _ (by omega), h _ (by omega)]
  | 3 =>
    rw [fixedSum, fixedSum, hs 1 (by omega) (by omega), ht 1 (by omega) (by omega),
      hs 2 (by omega) (by omega), ht 2 (by omega) (by omega), hs 3 (by omega) (by omega),
      ht 3 (by omega) (by omega)]
    refine Both.pure fun h => ?_
    rw [h _ (by omega), h _ (by omega), h _ (by omega)]
  | 4 =>
    rw [fixedSum, fixedSum, hs 1 (by omega) (by omega), ht 1 (by omega) (by omega),
      hs 2 (by omega) (by omega), ht 2 (by omega) (by omega), hs 3 (by omega) (by omega),
      ht 3 (by omega) (by omega), hs 4 (by omega) (by omega), ht 4 (by omega) (by omega)]
    refine Both.pure fun h => ?_
    rw [h _ (by omega), h _ (by omega), h _ (by omega), h _ (by omega)]
  | n + 5 => exact Both.pure fun _ => rfl

theorem lpcLoop_both (coef : List (BitVec 32)) (s t : Samples) (x y : BitVec 64)
    (hi : coef.length ≤ i) (hn : i ≤ n) (hm : n ≤ maxBlock) :
    Both (lpcLoop s coef i x) (lpcLoop t coef i y) fun p q => Agree n s t → x = y → p = q := by
  induction coef generalizing i x y with
  | nil => exact Both.pure fun _ h => h
  | cons c coef ih =>
    rw [List.length_cons] at hi
    rw [lpcLoop, lpcLoop, peek_back s one_pos (by omega) (by omega),
      peek_back t one_pos (by omega) (by omega), show (i : ℤ) - 1 = (i - 1 : ℕ) by omega]
    refine (ih _ _ (by omega) (by omega)).mono fun p q h hst hxy => h hst ?_
    rw [hst _ (by omega), hxy]

theorem looks_lpcSum {coef : List (BitVec 32)} (shift : ℕ) (h : coef.length = order) :
    Looks order (lpcSum coef shift) := by
  intro s t i ho hi
  refine (lpcLoop_both coef s t 0 0 (by omega) le_rfl hi.le).bind fun p q hpq => Both.pure fun hst => ?_
  rw [hpq hst rfl]

theorem length_coefs (prec n : ℕ) (b : Br) : (coefs prec n b).1.length = n := by
  induction n generalizing b with
  | zero => rfl
  | succ n ih => exact congrArg Nat.succ (ih _)

theorem predict_both {sum : Samples → ℤ → Option (BitVec 32)} (hsum : Looks order sum)
    (hb : block ≤ maxBlock) (h : Moved j d s t) :
    Both (predict sum order block s) (predict sum order block t) (Moved j d) := by
  refine Both.upto (R := fun _ => Moved j d) (block - order) h fun k s1 t1 hk hst => ?_
  have hi : order + k < maxBlock := by omega
  refine (hsum s1 t1 _ (Nat.le_add_right _ _) hi).bind fun p q hpq => ?_
  rw [peek_eq s1 hi, peek_eq t1 hi, Option.bind_eq_bind, Option.bind_some,
    Option.bind_some, poke_eq s1 _ hi, poke_eq t1 _ hi]
  refine Both.pure ⟨fun l hl => ?_, ?_⟩
  · split_ifs with hlk
    · rw [hpq (hst.agree.mono (by omega)), hst.agree _ (by omega)]
    · exact hst.agree l hl
  · split_ifs with hjk
    · rw [hpq (hst.agree.mono (by omega)), ← hst.diff, hjk]
      exact add_sub_add_right_eq_sub _ _ _
    · exact hst.diff

/-- The cells before `n` and the cell `n` make the cells before `n + 1`. -/
theorem extend_one (n : ℕ) (a : ℕ → BitVec 32) (s : Samples) :
    (fun k => if k = n then a k else if k < n then a k else s k) = fun k => if k < n + 1 then a k else s k := by
  ext k : 1
  by_cases hk : k = n
  · rw [if_pos hk, if_pos (by omega)]
  · rw [if_neg hk]
    by_cases hlt : k < n
    · rw [if_pos hlt, if_pos (by omega)]
    · rw [if_neg hlt, if_neg (by omega)]

/-- A loop over a whole block, one sample at a time. -/
theorem eachSample_eq (g : BitVec 32 → BitVec 32) (hb : block ≤ maxBlock) (s : Samples) :
    eachSample g block s = some fun k => if k < block then g (s k) else s k := by
  have h : ∀ n ≤ block, eachSample g n s = some fun k => if k < n then g (s k) else s k := by
    intro n hn
    induction n with
    | zero => rfl
    | succ n ih =>
      have hm : n < maxBlock := by omega
      rw [eachSample, upto, ← eachSample, ih (by omega), Option.bind_eq_bind, Option.bind_some,
        peek_eq _ hm, Option.bind_eq_bind, Option.bind_some, poke_eq _ _ hm, if_neg (lt_irrefl n),
        ← extend_one n (fun k => g (s k)) s]
      congr 1
      ext k : 1
      split_ifs with hk
      · rw [hk]
      · rfl
      · rfl
  exact h block le_rfl

/-! ## Subframes -/

/-- The reader at the residual of a subframe of a type, if it has one. -/
def residualOf (type : ℕ) (b : Br) (bps : ℕ) : Option Br :=
  if 8 ≤ type ∧ type ≤ 12 then some (skip (fun b => sbits b bps) (type - 8) b)
  else if 32 ≤ type then
    let b := skip (fun b => sbits b bps) (type - 31) b
    let (prec, b) := bits b 4
    let (_, b) := sbits b 5
    some (coefs (prec + 1) (type - 31) b).2
  else none

/-- The reader at the residual of a subframe, if it has one. -/
def residualAt (b : Br) (bps : ℤ) : Option Br :=
  let (_, b) := bits b 1
  let (type, b) := bits b 6
  let (wasted, b) := wastedBits b
  residualOf type b (bps - wasted).toNat

/-- How many samples are taken from the stream, by where the residual is. -/
def filledBy (block : ℕ) : Option Br → ℕ
  | none => block
  | some b => residualFilled b block

/-- What the samples of a subframe are shifted by. -/
def wastedShift (b : Br) : ℕ := ((wastedBits (bits (bits b 1).2 6).2).1 % 32).toNat

/-- How many samples of its block a subframe takes from the stream. -/
def filled (b : Br) (block : ℕ) (bps : ℤ) : ℕ := filledBy block (residualAt b bps)

/-- Both runs of a subframe's part end alike; up to `j` with the same samples, and with the sample there
as different as it was. -/
structure Ends (b : Br) (s t : Samples) (j : ℕ) (x y : Bool × Br × Samples) : Prop where
  ok : y.1 = x.1
  br : y.2.1 = x.2.1
  reads : Reads b x.2.1
  moved : x.1 = true → Moved j (s j - t j) x.2.2 y.2.2

theorem Ends.fail (h : Reads b b') : Ends b s t j (false, b', s') (false, b', t') := ⟨rfl, rfl, h, nofun⟩

/-- The residual and the predictor behind a warm-up. -/
theorem predicted_both {sum : Samples → ℤ → Option (BitVec 32)} (hsum : Looks order sum)
    (hb : block ≤ maxBlock) (h : Reads b b') (hg : Grown s t order s' t') :
    Both (do
        let (ok, b, s) ← residual b' s' block order
        if !ok then return (false, b, s)
        let s ← predict sum order block s
        return (true, b, s))
      (do
        let (ok, b, s) ← residual b' t' block order
        if !ok then return (false, b, s)
        let s ← predict sum order block s
        return (true, b, s)) (Ends b s t (residualFilled b' block)) := by
  refine (residual_both b' hb hg).bind ?_
  rintro ⟨_, _, s2⟩ ⟨ok, b2, t2⟩ ⟨⟨rfl, rfl, h4, h5⟩, -⟩
  cases ok with
  | false => exact Both.pure (.fail (h.trans h4))
  | true =>
    exact (predict_both hsum hb (moved_of_grown (h5 rfl))).bind fun s3 t3 h7 =>
      Both.pure ⟨rfl, rfl, h.trans h4, fun _ => h7⟩

theorem fixedFrame_both (b : Br) (s t : Samples) (bps : ℕ) (hb : block ≤ maxBlock) (ho : order ≤ maxBlock) :
    Both (fixedFrame b s block bps order) (fixedFrame b t block bps order)
      (Ends b s t (residualFilled (skip (fun b => sbits b bps) order b) block)) := by
  refine (readSamples_both _ b (Grown.nil s t) (by omega)).bind ?_
  rintro ⟨b1, s1, i1⟩ ⟨b2, t1, i2⟩ ⟨⟨rfl, rfl⟩, -, h3⟩
  rw [Nat.zero_add] at h3
  exact predicted_both (looks_fixedSum order) hb (reads_skip_sbits bps order b) h3

theorem lpcFrame_both (b : Br) (s t : Samples) (bps : ℕ) (hb : block ≤ maxBlock) (ho : order ≤ maxBlock) :
    Both (lpcFrame b s block bps order) (lpcFrame b t block bps order) fun x y =>
      ∀ b', b' = (coefs ((bits (skip (fun b => sbits b bps) order b) 4).1 + 1) order
        (sbits (bits (skip (fun b => sbits b bps) order b) 4).2 5).2).2 →
          Ends b s t (residualFilled b' block) x y := by
  refine (readSamples_both _ b (Grown.nil s t) (by omega)).bind ?_
  rintro ⟨_, s1, i1⟩ ⟨b1, t1, i2⟩ ⟨⟨h1, rfl⟩, -, h3⟩
  obtain rfl : b1 = skip (fun b => sbits b bps) order b := h1
  rw [Nat.zero_add] at h3
  have h1 := reads_skip_sbits bps order b
  have h2 := h1.trans (reads_bits _ 4)
  have h4 := h2.trans (reads_sbits _ 5)
  apply Both.ite
  · intro _
    exact Both.pure fun b' _ => .fail h2
  · intro _
    apply Both.ite
    · intro _
      exact Both.pure fun b' _ => .fail h4
    · intro _
      refine (predicted_both (looks_lpcSum _ (length_coefs _ _ _)) hb (h4.trans (reads_coefs _ _ _)) h3).mono ?_
      rintro x y h b' rfl
      exact h

theorem subframeBody_both {type : ℕ} (ht : type < 64) (b : Br) (s t : Samples) (bps : ℕ)
    (hb : block ≤ maxBlock) :
    Both (subframeBody type b s block bps) (subframeBody type b t block bps)
      (Ends b s t (filledBy block (residualOf type b bps))) := by
  have h64 : 64 ≤ maxBlock := by decide
  by_cases h0 : type = 0
  · subst h0
    rw [subframeBody, subframeBody, if_pos rfl, if_pos rfl]
    dsimp only
    rw [eachSample_eq _ hb, eachSample_eq _ hb]
    have hj : filledBy block (residualOf 0 b bps) = block := rfl
    rw [hj]
    refine Both.pure ⟨rfl, rfl, reads_sbits b bps, fun _ => ⟨fun k hk => ?_, ?_⟩⟩
    · exact (if_pos hk).trans (if_pos hk).symm
    · exact congrArg₂ _ (if_neg (lt_irrefl block)) (if_neg (lt_irrefl block))
  by_cases h1 : type = 1
  · subst h1
    rw [subframeBody, subframeBody, if_neg h0, if_neg h0, if_pos rfl, if_pos rfl]
    refine (readSamples_both _ b (Grown.nil s t) (by omega)).bind ?_
    rintro ⟨_, s1, i1⟩ ⟨b1, t1, i2⟩ ⟨⟨rfl, rfl⟩, -, h3⟩
    rw [Nat.zero_add] at h3
    exact Both.pure ⟨rfl, rfl, reads_skip_sbits bps block b, fun _ => moved_of_grown h3⟩
  by_cases h8 : 8 ≤ type ∧ type ≤ 12
  · rw [subframeBody, subframeBody, if_neg h0, if_neg h0, if_neg h1, if_neg h1, if_pos h8, if_pos h8,
      residualOf, if_pos h8]
    exact fixedFrame_both b s t bps hb (by omega)
  by_cases h32 : 32 ≤ type
  · rw [subframeBody, subframeBody, if_neg h0, if_neg h0, if_neg h1, if_neg h1, if_neg h8, if_neg h8,
      if_pos h32, if_pos h32, residualOf, if_neg h8, if_pos h32]
    exact (lpcFrame_both b s t bps hb (by omega)).mono fun x y h => h _ rfl
  · rw [subframeBody, subframeBody, if_neg h0, if_neg h0, if_neg h1, if_neg h1, if_neg h8, if_neg h8,
      if_neg h32, if_neg h32]
    exact Both.pure (.fail (.refl b))

/-- What both runs of a subframe end with. -/
structure Same (b : Br) (block : ℕ) (bps : ℤ) (s t : Samples) (x y : Bool × Br × Samples) : Prop where
  ok : y.1 = x.1
  br : y.2.1 = x.2.1
  reads : Reads b x.2.1
  agree : x.1 = true → Agree (filled b block bps) x.2.2 y.2.2
  diff : x.1 = true → filled b block bps < block → x.2.2 (filled b block bps) - y.2.2 (filled b block bps) =
    (s (filled b block bps) - t (filled b block bps)) <<< wastedShift b

theorem unwaste_eq (wasted : ℤ) (hb : block ≤ maxBlock) (s : Samples) :
    unwaste wasted block s = some fun k => if k < block then s k <<< (wasted % 32).toNat else s k := by
  rw [unwaste]
  split_ifs with hw
  · exact eachSample_eq _ hb s
  · rw [not_not.mp hw]
    congr 1
    ext k : 1
    split_ifs
    · exact (BitVec.shiftLeft_zero _).symm
    · rfl

theorem shiftLeft_sub (x y : BitVec 32) (n : ℕ) : (x - y) <<< n = x <<< n - y <<< n := by
  rw [BitVec.shiftLeft_eq_mul_twoPow, BitVec.shiftLeft_eq_mul_twoPow, BitVec.shiftLeft_eq_mul_twoPow,
    sub_mul]

theorem subframe_both (b : Br) (s t : Samples) (bps : ℤ) (hb : block ≤ maxBlock) :
    Both (subframe b s block bps) (subframe b t block bps) (Same b block bps s t) := by
  have h1 := reads_bits b 1
  have h2 := h1.trans (reads_bits _ 6)
  have h3 := h2.trans (reads_wastedBits _)
  rw [subframe, subframe]
  dsimp only
  apply Both.ite
  · intro _
    exact Both.pure ⟨rfl, rfl, h1, nofun, nofun⟩
  intro _
  apply Both.ite
  · intro _
    exact Both.pure ⟨rfl, rfl, h3, nofun, nofun⟩
  intro _
  refine (subframeBody_both (bits_lt _ 6) _ s t _ hb).bind ?_
  rintro ⟨_, _, s1⟩ ⟨ok, b1, t1⟩ ⟨rfl, rfl, h4, h5⟩
  cases ok with
  | false => exact Both.pure ⟨rfl, rfl, h3.trans h4, nofun, nofun⟩
  | true =>
    have hm : Moved (filled b block bps) _ s1 t1 := h5 rfl
    dsimp only
    rw [unwaste_eq _ hb, unwaste_eq _ hb]
    refine Both.pure ⟨rfl, rfl, h3.trans h4, fun _ k hk => ?_, fun _ hlt => ?_⟩
    · dsimp only
      rw [hm.agree k hk]
    · dsimp only
      have hd : s1 (filled b block bps) - t1 (filled b block bps) =
        s (filled b block bps) - t (filled b block bps) := hm.diff
      rw [if_pos hlt, if_pos hlt, ← hd, shiftLeft_sub]
      rfl

/-! ## Blocks that are filled -/

/-- A subframe with a residual has a block that is a multiple of its number of partitions. -/
def Whole (b : Br) (block : ℕ) (bps : ℤ) : Prop := ∀ b', residualAt b bps = some b' → 2 ^ porderAt b' ∣ block

theorem residualFilled_eq_iff (b : Br) (block : ℕ) : residualFilled b block = block ↔ 2 ^ porderAt b ∣ block := by
  rw [residualFilled, Nat.shiftRight_eq_div_pow]
  exact ⟨fun h => ⟨_, by rw [Nat.mul_comm]; exact h.symm⟩, Nat.div_mul_cancel⟩

theorem filled_eq_iff (b : Br) (block : ℕ) (bps : ℤ) : filled b block bps = block ↔ Whole b block bps := by
  rw [filled, Whole]
  cases residualAt b bps with
  | none => exact ⟨fun _ => nofun, fun _ => rfl⟩
  | some b' =>
    rw [filledBy, residualFilled_eq_iff]
    refine ⟨fun h b'' hb => ?_, fun h => h b' rfl⟩
    rwa [← Option.some.inj hb]

theorem filled_le (b : Br) (block : ℕ) (bps : ℤ) : filled b block bps ≤ block := by
  rw [filled]
  cases residualAt b bps with
  | none => exact le_rfl
  | some b' => exact residualFilled_le b' block

theorem shiftLeft_one_ne (n : ℕ) : (1 : BitVec 32) <<< (n % 32) ≠ 0 := by
  have h : ∀ k < 32, (1 : BitVec 32) <<< k ≠ 0 := by decide
  exact h _ (Nat.mod_lt n (by decide))

theorem wastedShift_lt (b : Br) : wastedShift b < 32 := by
  rw [wastedShift]
  omega

/-- The samples of a subframe do not depend on what the buffer held if and only if its block is a multiple
of its number of partitions (or it is broken). -/
theorem subframe_samples_iff (b : Br) (bps : ℤ) (hb : block ≤ maxBlock) :
    (∀ s t b1 b2 s' t', subframe b s block bps = some (true, b1, s') →
      subframe b t block bps = some (true, b2, t') → Agree block s' t') ↔
      ((∃ s b1 s', subframe b s block bps = some (true, b1, s')) → Whole b block bps) := by
  constructor
  · rintro h ⟨s, b1, s', hs⟩
    rw [← filled_eq_iff]
    by_contra hne
    have hlt : filled b block bps < block := lt_of_le_of_ne (filled_le b block bps) hne
    -- the same buffer with another first sample that is not filled
    obtain ⟨x, y, hx, hy, hxy⟩ := subframe_both b s (fun k => if k = filled b block bps then s k - 1 else s k) bps hb
    obtain rfl : x = (true, b1, s') := Option.some.inj (hx.symm.trans hs)
    obtain ⟨ok, b2, t'⟩ := y
    obtain rfl : ok = true := hxy.ok
    have hagree := h _ _ _ _ _ _ hs hy _ hlt
    have hdiff := hxy.diff rfl hlt
    dsimp only at hdiff
    rw [hagree, sub_self, if_pos rfl, sub_sub_cancel] at hdiff
    have hshift := shiftLeft_one_ne (wastedShift b)
    rw [Nat.mod_eq_of_lt (wastedShift_lt b)] at hshift
    exact hshift hdiff.symm
  · intro h s t b1 b2 s' t' hs ht
    have hxy := (subframe_both b s t bps hb).of_eq hs ht
    have hagree := hxy.agree rfl
    rwa [(filled_eq_iff b block bps).mpr (h ⟨s, b1, s', hs⟩)] at hagree

end BananaOS.Media
