import BananaOS.Hid.Parse

/-!
# The fields of a report

`hid_value` and `hid_set_value` of `hidparse.c`, over the fields that `hid_parse` records.  A value that is written to a field is read back from it and disturbs no field apart from it;
and the fields of a descriptor lie apart, in its order, exactly if the offsets do not wrap and no value
takes more than it moves the offset by (`Fits`, `hidParse_sound_iff`).
-/

namespace BananaOS.Hid

open Lib

/-! ## Reading and writing -/

/-- The loop of `hid_value`, with `k` bits to go from bit `i` of the field. -/
def readBits (r : List UInt8) (start : ℕ) : ℕ → ℕ → UInt32 → UInt32
  | 0, _, v => v
  | k + 1, i, v =>
    let bit := start + i
    if r.length ≤ bit / 8 then v
    else
      readBits r start k (i + 1)
        (if r.getD (bit / 8) 0 &&& 1 <<< UInt8.ofNat (bit % 8) ≠ 0 then v ||| 1 <<< UInt32.ofNat i else v)

/-- The loop of `hid_set_value`. -/
def writeBits (v : UInt32) (start : ℕ) : ℕ → ℕ → List UInt8 → List UInt8
  | 0, _, r => r
  | k + 1, i, r =>
    let bit := start + i
    if r.length ≤ bit / 8 then r
    else
      writeBits v start k (i + 1)
        (r.modify (bit / 8) fun b =>
          if v &&& 1 <<< UInt32.ofNat i ≠ 0 then b ||| 1 <<< UInt8.ofNat (bit % 8)
          else b &&& ~~~(1 <<< UInt8.ofNat (bit % 8)))

/-- A field's size, of which at most 32 bits are read. -/
def Field.width (f : Field) : ℕ := if 32 < f.size then 32 else f.size.toNat

/-- `hid_value` -/
def hidValue (r : List UInt8) (f : Field) : Int32 :=
  let size := f.width
  let v := readBits r f.bit.toNat size 0 0
  if f.lmin < 0 ∧ 0 < size ∧ size < 32 ∧ v &&& 1 <<< UInt32.ofNat (size - 1) ≠ 0 then
    (v ||| ~~~(1 <<< UInt32.ofNat size - 1)).toInt32
  else v.toInt32

/-- `hid_set_value` -/
def hidSetValue (r : List UInt8) (f : Field) (v : UInt32) : List UInt8 :=
  writeBits v f.bit.toNat f.width 0 r

/-! ## Bits -/

/-- A bit of a report; past its end there are none. -/
def bitAt (r : List UInt8) (bit : ℕ) : Bool := (r.getD (bit / 8) 0).toBitVec.getLsbD (bit % 8)

theorem bitAt_of_length_le {r : List UInt8} {bit : ℕ} (h : r.length ≤ bit / 8) : bitAt r bit = false := by
  rw [bitAt, List.getD_eq_default _ _ h]
  exact BitVec.getLsbD_zero

theorem byte_mask {n : ℕ} (hn : n < 8) :
    ((1 : UInt8) <<< UInt8.ofNat n).toBitVec = BitVec.twoPow 8 n := by
  have hmod : n % 256 % 8 = n := by omega
  rw [BitVec.twoPow_eq]
  simp [UInt8.toBitVec_shiftLeft, hmod]

theorem word_mask {n : ℕ} (hn : n < 32) :
    ((1 : UInt32) <<< UInt32.ofNat n).toBitVec = BitVec.twoPow 32 n := by
  have hmod : n % 4294967296 % 32 = n := by omega
  rw [BitVec.twoPow_eq]
  simp [UInt32.toBitVec_shiftLeft, hmod]

theorem and_twoPow_ne_zero {w n : ℕ} (hn : n < w) (x : BitVec w) :
    x &&& BitVec.twoPow w n ≠ 0 ↔ x.getLsbD n = true := by
  rw [BitVec.and_twoPow]
  constructor
  · intro h
    by_contra hoff
    exact h (if_neg hoff)
  · intro hon h
    have hbit := congrArg (BitVec.getLsbD · n) h
    simp [hon, hn] at hbit

theorem byte_test {n : ℕ} (hn : n < 8) (b : UInt8) :
    b &&& 1 <<< UInt8.ofNat n ≠ 0 ↔ b.toBitVec.getLsbD n = true := by
  rw [← and_twoPow_ne_zero hn, ← byte_mask hn, ← UInt8.toBitVec_and, Ne, ← UInt8.toBitVec_inj]
  rfl

theorem word_test {n : ℕ} (hn : n < 32) (v : UInt32) :
    v &&& 1 <<< UInt32.ofNat n ≠ 0 ↔ v.toBitVec.getLsbD n = true := by
  rw [← and_twoPow_ne_zero hn, ← word_mask hn, ← UInt32.toBitVec_and, Ne, ← UInt32.toBitVec_inj]
  rfl

/-- The loop of `hid_value` puts the report's bits at their places in the value. -/
theorem getLsbD_readBits {r : List UInt8} {start k i : ℕ} (v : UInt32) (hik : i + k ≤ 32) (j : ℕ) :
    (readBits r start k i v).toBitVec.getLsbD j =
      (v.toBitVec.getLsbD j || (decide (i ≤ j ∧ j < i + k) && bitAt r (start + j))) := by
  induction k generalizing i v with
  | zero =>
    have hout : ¬ (i ≤ j ∧ j < i + 0) := by omega
    rw [decide_eq_false hout, Bool.false_and, Bool.or_false, readBits]
  | succ k ih =>
    rw [readBits]
    split_ifs with hend hbit
    · -- the report ends here, and has no bit from here on
      by_cases hj : i ≤ j
      · rw [bitAt_of_length_le (hend.trans (Nat.div_le_div_right (by omega))), Bool.and_false,
          Bool.or_false]
      · rw [decide_eq_false fun h => hj h.1, Bool.false_and, Bool.or_false]
    · rw [byte_test (Nat.mod_lt _ (by decide))] at hbit
      rw [ih _ (by omega), UInt32.toBitVec_or, BitVec.getLsbD_or, word_mask (by omega),
        BitVec.getLsbD_twoPow]
      by_cases hj : j = i
      · subst hj
        have hat : bitAt r (start + j) = true := hbit
        simp [hat]
        omega
      · have hiff : decide (i + 1 ≤ j ∧ j < i + 1 + k) = decide (i ≤ j ∧ j < i + (k + 1)) :=
          decide_eq_decide.mpr (by omega)
        rw [hiff]
        simp [Ne.symm hj]
    · rw [byte_test (Nat.mod_lt _ (by decide)), Bool.not_eq_true] at hbit
      rw [ih _ (by omega)]
      by_cases hj : j = i
      · subst hj
        have hat : bitAt r (start + j) = false := hbit
        simp [hat]
      · have hiff : decide (i + 1 ≤ j ∧ j < i + 1 + k) = decide (i ≤ j ∧ j < i + (k + 1)) :=
          decide_eq_decide.mpr (by omega)
        rw [hiff]

/-- A bit that is set or cleared in a byte. -/
theorem getLsbD_put {n : ℕ} (hn : n < 8) (b : UInt8) (on : Prop) [Decidable on] (j : ℕ) :
    (if on then b ||| 1 <<< UInt8.ofNat n else b &&& ~~~(1 <<< UInt8.ofNat n)).toBitVec.getLsbD j =
      if j = n then decide on else b.toBitVec.getLsbD j := by
  by_cases hj : j = n
  · subst hj
    by_cases h : on <;>
      simp [h, hn, UInt8.toBitVec_or, UInt8.toBitVec_and, UInt8.toBitVec_not, byte_mask hn]
  · by_cases h : on
    · simp [h, hj, Ne.symm hj, UInt8.toBitVec_or, byte_mask hn, BitVec.getLsbD_twoPow]
    · rw [if_neg h, if_neg hj, UInt8.toBitVec_and, UInt8.toBitVec_not, byte_mask hn, BitVec.getLsbD_and,
        BitVec.getLsbD_not, BitVec.getLsbD_twoPow]
      by_cases hlt : j < 8
      · simp [hlt, Ne.symm hj]
      · rw [BitVec.getLsbD_of_ge _ _ (Nat.le_of_not_lt hlt), Bool.false_and]

/-- One bit of a report is put. -/
theorem bitAt_modify {r : List UInt8} {bit : ℕ} (h : bit / 8 < r.length) (on : Prop) [Decidable on]
    (j : ℕ) :
    bitAt (r.modify (bit / 8) fun b =>
        if on then b ||| 1 <<< UInt8.ofNat (bit % 8) else b &&& ~~~(1 <<< UInt8.ofNat (bit % 8))) j =
      if j = bit then decide on else bitAt r j := by
  have hn : bit % 8 < 8 := Nat.mod_lt _ (by decide)
  by_cases hbyte : j / 8 = bit / 8
  · have hiff : j = bit ↔ j % 8 = bit % 8 := by omega
    rw [if_congr hiff rfl rfl]
    simp only [bitAt, hbyte, List.getD_eq_getElem?_getD, List.getElem?_modify_eq,
      List.getElem?_eq_getElem h, Option.getD_some]
    exact getLsbD_put hn _ on _
  · have hne : j ≠ bit := fun hj => hbyte (by rw [hj])
    rw [if_neg hne, bitAt, bitAt]
    simp [List.getD_eq_getElem?_getD, Ne.symm hbyte]

/-- The loop of `hid_set_value` puts the value's bits at their places in the report, and no others. -/
theorem bitAt_writeBits {v : UInt32} {start k i : ℕ} {r : List UInt8} (hik : i + k ≤ 32) (j : ℕ) :
    bitAt (writeBits v start k i r) j =
      if start + i ≤ j ∧ j < start + i + k ∧ j / 8 < r.length then v.toBitVec.getLsbD (j - start)
      else bitAt r j := by
  induction k generalizing i r with
  | zero => rw [if_neg (by omega), writeBits]
  | succ k ih =>
    rw [writeBits]
    by_cases hend : r.length ≤ (start + i) / 8
    · -- past the end of the report nothing is written
      rw [if_pos hend, if_neg]
      rintro ⟨hij, -, hj⟩
      have := Nat.div_le_div_right (c := 8) hij
      omega
    · rw [if_neg hend, ih (by omega), List.length_modify, bitAt_modify (Nat.lt_of_not_le hend)]
      by_cases hj : j = start + i
      · subst hj
        rw [if_neg (by omega), if_pos rfl, if_pos ⟨Nat.le_refl _, by omega, Nat.lt_of_not_le hend⟩,
          Nat.add_sub_cancel_left, Bool.eq_iff_iff, decide_eq_true_eq]
        exact word_test (by omega) v
      · rw [if_neg hj]
        refine if_congr ?_ rfl rfl
        omega

/-! ## Fields -/

theorem Field.width_le (f : Field) : f.width ≤ 32 := by
  rw [Field.width]
  split_ifs with h
  · exact Nat.le_refl _
  · exact Nat.le_of_not_lt fun h' => h (UInt16.lt_iff_toNat_lt.mpr h')

theorem Field.width_le_size (f : Field) : f.width ≤ f.size.toNat := by
  rw [Field.width]
  split_ifs with h
  · exact Nat.le_of_lt (UInt16.lt_iff_toNat_lt.mp h)
  · exact Nat.le_refl _

/-- The field lies in the report. -/
def Inside (r : List UInt8) (f : Field) : Prop := f.bit.toNat + f.size.toNat ≤ 8 * r.length

/-- A value as it is read back from a field: what of it the field can hold, with the sign if the field
has one. -/
def readBack (f : Field) (v : UInt32) : Int32 :=
  let held := v.toBitVec.setWidth f.width
  if f.lmin < 0 then Int32.ofBitVec (held.signExtend 32) else Int32.ofBitVec (held.setWidth 32)

/-- The bits above a field's. -/
theorem getLsbD_above {n : ℕ} (hn : n < 32) {j : ℕ} (hj : j < 32) :
    (~~~((1 : UInt32) <<< UInt32.ofNat n - 1)).toBitVec.getLsbD j = decide (n ≤ j) := by
  have hnat : (BitVec.twoPow 32 n - 1#32).toNat = 2 ^ n - 1 := by
    have hlt : 2 ^ n < 2 ^ 32 := Nat.pow_lt_pow_right (by decide) hn
    have hpos : 0 < 2 ^ n := Nat.two_pow_pos n
    rw [BitVec.toNat_sub, BitVec.toNat_twoPow, Nat.mod_eq_of_lt hlt, BitVec.toNat_ofNat]
    omega
  rw [UInt32.toBitVec_not, UInt32.toBitVec_sub, word_mask hn, BitVec.getLsbD_not, decide_eq_true hj,
    Bool.true_and]
  change (!(BitVec.twoPow 32 n - 1#32).toNat.testBit j) = _
  rw [hnat, Nat.testBit_two_pow_sub_one, ← decide_not]
  exact decide_eq_decide.mpr Nat.not_lt

/-- What `hid_value` makes of the bits it has read. -/
theorem signed_eq (f : Field) (held : BitVec f.width) (v : UInt32) (hv : v.toBitVec = held.setWidth 32) :
    (if f.lmin < 0 ∧ 0 < f.width ∧ f.width < 32 ∧ v &&& 1 <<< UInt32.ofNat (f.width - 1) ≠ 0 then
        (v ||| ~~~(1 <<< UInt32.ofNat f.width - 1)).toInt32 else v.toInt32) =
      if f.lmin < 0 then Int32.ofBitVec (held.signExtend 32) else Int32.ofBitVec (held.setWidth 32) := by
  have hplain : v.toInt32 = Int32.ofBitVec (held.setWidth 32) := by
    rw [← hv]
    rfl
  by_cases hmin : f.lmin < 0
  · rw [if_pos hmin]
    by_cases hpos : 0 < f.width
    · by_cases hlt : f.width < 32
      · have htest := word_test (n := f.width - 1) (by omega) v
        rw [hv, BitVec.getLsbD_setWidth, decide_eq_true (by omega), Bool.true_and,
          ← BitVec.msb_eq_getLsbD_last] at htest
        by_cases hneg : held.msb = true
        · rw [if_pos ⟨hmin, hpos, hlt, htest.mpr hneg⟩]
          refine congrArg Int32.ofBitVec (BitVec.eq_of_getLsbD_eq fun j hj => ?_ :
            (v ||| ~~~(1 <<< UInt32.ofNat f.width - 1)).toBitVec = held.signExtend 32)
          rw [UInt32.toBitVec_or, BitVec.getLsbD_or, getLsbD_above hlt hj, hv, BitVec.getLsbD_setWidth,
            BitVec.getLsbD_signExtend, hneg]
          by_cases hin : j < f.width
          · simp [hin, hj]
          · simp [hin, hj, Nat.le_of_not_lt hin]
        · rw [if_neg fun h => hneg (htest.mp h.2.2.2), hplain,
            BitVec.signExtend_eq_setWidth_of_msb_false (Bool.eq_false_iff.mpr hneg)]
      · have hfull : f.width = 32 := Nat.le_antisymm f.width_le (Nat.le_of_not_lt hlt)
        rw [if_neg fun h => hlt h.2.2.1, hplain, BitVec.signExtend_eq_setWidth_of_le held (by omega)]
    · have hmsb : held.msb = false := by
        rw [BitVec.msb_eq_getLsbD_last, BitVec.getLsbD_of_ge _ _ (by omega)]
      rw [if_neg fun h => hpos h.2.1, hplain, BitVec.signExtend_eq_setWidth_of_msb_false hmsb]
  · rw [if_neg fun h => hmin h.1, if_neg hmin, hplain]

/-- A value is what the bits of its field say. -/
theorem hidValue_congr {r r' : List UInt8} {f : Field}
    (h : ∀ j < f.width, bitAt r (f.bit.toNat + j) = bitAt r' (f.bit.toNat + j)) :
    hidValue r f = hidValue r' f := by
  have hbits : readBits r f.bit.toNat f.width 0 0 = readBits r' f.bit.toNat f.width 0 0 := by
    rw [← UInt32.toBitVec_inj]
    refine BitVec.eq_of_getLsbD_eq fun j _ => ?_
    rw [getLsbD_readBits 0 (by have := f.width_le; omega), getLsbD_readBits 0 (by have := f.width_le; omega)]
    by_cases hj : j < f.width
    · rw [h j hj]
    · rw [decide_eq_false (by omega), Bool.false_and, Bool.false_and]
  rw [hidValue, hidValue, hbits]

/-- Writing a field changes no field apart from it. -/
theorem hidValue_hidSetValue_of_apart {f g : Field} (h : f.bit.toNat + f.size.toNat ≤ g.bit.toNat ∨
    g.bit.toNat + g.size.toNat ≤ f.bit.toNat) (r : List UInt8) (v : UInt32) :
    hidValue (hidSetValue r f v) g = hidValue r g := by
  refine hidValue_congr fun j hj => ?_
  have hf := f.width_le_size
  have hg := g.width_le_size
  rw [hidSetValue, bitAt_writeBits (by have := f.width_le; omega), if_neg (by omega)]

/-- A value that is written to a field is read back. -/
theorem hidValue_hidSetValue {f : Field} {r : List UInt8} (h : Inside r f) (v : UInt32) :
    hidValue (hidSetValue r f v) f = readBack f v := by
  refine signed_eq f (v.toBitVec.setWidth f.width) _ (BitVec.eq_of_getLsbD_eq fun j hj => ?_)
  have hw := f.width_le
  rw [getLsbD_readBits 0 (by omega), hidSetValue, bitAt_writeBits (by omega), BitVec.getLsbD_setWidth,
    BitVec.getLsbD_setWidth, decide_eq_true hj, Bool.true_and]
  by_cases hin : j < f.width
  · have hsize := f.width_le_size
    have hbyte : (f.bit.toNat + j) / 8 < r.length := by
      rw [Inside] at h
      omega
    rw [if_pos ⟨by omega, by omega, hbyte⟩, Nat.add_sub_cancel_left, decide_eq_true hin,
      decide_eq_true ⟨Nat.zero_le j, by omega⟩]
    simp
  · rw [decide_eq_false (by omega), decide_eq_false hin]
    simp

/-! ## The fields of a descriptor -/

/-- What the fields that are recorded should be: in a report they lie apart and in their order, a value
that is written is read back, and the other values of the report stay. -/
structure Sound (out : List Field) : Prop where
  apart : out.Pairwise fun f g => f.report = g.report → f.bit.toNat + f.size.toNat ≤ g.bit.toNat
  readsBack : ∀ f ∈ out, ∀ (r : List UInt8) (v : UInt32), Inside r f →
    hidValue (hidSetValue r f v) f = readBack f v
  others : out.Pairwise fun f g => f.report = g.report → ∀ (r : List UInt8) (v : UInt32),
    hidValue (hidSetValue r f v) g = hidValue r g ∧ hidValue (hidSetValue r g v) f = hidValue r f

/-- Lying apart is all there is to it. -/
theorem sound_iff_apart {out : List Field} :
    Sound out ↔
      out.Pairwise fun f g => f.report = g.report → f.bit.toNat + f.size.toNat ≤ g.bit.toNat := by
  refine ⟨Sound.apart, fun h => ⟨h, fun f _ r v hin => hidValue_hidSetValue hin v, ?_⟩⟩
  refine h.imp fun hfg hrep r v => ?_
  exact ⟨hidValue_hidSetValue_of_apart (Or.inl (hfg hrep)) r v,
    hidValue_hidSetValue_of_apart (Or.inr (hfg hrep)) r v⟩

/-- Of the values that are recorded, in each report: each but the last takes no more than it moves the
offset by, and the offset does not wrap before the last. -/
def Fits (max : ℕ) (d : List UInt8) : Prop :=
  ∀ r : Report, FitsFrom (2 ^ 16) 0
    ((((declared d).take max).filter fun a => a.1 = r).map fun a => (a.2.size.toNat, a.2.step.toNat))

/-- The fields that the parser records are as they should be exactly if the values fit. -/
theorem hidParse_sound_iff {d : List UInt8} {max : ℕ} {out : List Field} (h : hidParse d max = some out) :
    Sound out ↔ Fits max d := by
  rw [sound_iff_apart, hidParse_eq h, placedFields, ← List.map_take, take_placeAll, List.pairwise_map,
    Fits, ← ordered_placeAll_iff (fun _ => by decide) fun a _ => a.2.step.toNat_lt]
  refine List.Pairwise.iff_of_mem fun {a b} ha hb => ?_
  have hwhere : ∀ x ∈ placeAll Prod.fst advance (2 ^ 16) (fun _ => 0) ((declared d).take max),
      (toField x).bit.toNat = x.2 := fun x hx =>
    UInt16.toNat_ofNat_of_lt (lt_of_mem_placeAll (fun _ => by decide) hx)
  rw [hwhere a ha, hwhere b hb]
  rfl

/-- A mouse: three buttons, five bits of padding, and its motion. -/
def mouse : List UInt8 :=
  [0x05, 0x09, 0x19, 0x01, 0x29, 0x03, 0x15, 0x00, 0x25, 0x01, 0x75, 0x01, 0x95, 0x03, 0x81, 0x02,
    0x75, 0x05, 0x95, 0x01, 0x81, 0x03,
    0x05, 0x01, 0x09, 0x30, 0x09, 0x31, 0x15, 0x81, 0x25, 0x7F, 0x75, 0x08, 0x95, 0x02, 0x81, 0x06]

/-- Its six fields, of which the last two are the bytes of its motion. -/
theorem sound_mouse :
    (∃ out, hidParse mouse 64 = some out ∧ (Sound out ↔ Fits 64 mouse)) ∧
      (hidParse mouse 64).map (List.map fun f => (f.bit, f.size)) =
        some [(0, 1), (1, 1), (2, 1), (3, 5), (8, 8), (16, 8)] := by
  have hsome : (hidParse mouse 64).map (List.map fun f => (f.bit, f.size)) =
      some [(0, 1), (1, 1), (2, 1), (3, 5), (8, 8), (16, 8)] := by
    simp [hidParse, mouse, items, itemValue]
    rfl
  obtain ⟨out, hout, -⟩ := Option.map_eq_some_iff.mp hsome
  exact ⟨⟨out, hout, hidParse_sound_iff hout⟩, hsome⟩

/-- Two arrays without a Report Count. -/
def countless : List UInt8 := [0x75, 0x08, 0x09, 0x30, 0x81, 0x00, 0x09, 0x31, 0x81, 0x00]

/-- They are recorded at one place. -/
theorem unsound_countless : ¬ ∀ (d : List UInt8) (max : ℕ) (out : List Field),
    hidParse d max = some out → Sound out := by
  intro h
  have hsome : (hidParse countless 64).map (List.map fun f => (f.report, f.bit, f.size)) =
      some [(⟨0, .input⟩, 0, 8), (⟨0, .input⟩, 0, 8)] := by
    simp [hidParse, countless, items, itemValue]
    rfl
  obtain ⟨out, hout, hfields⟩ := Option.map_eq_some_iff.mp hsome
  have hapart := (h countless 64 out hout).apart
  have hall : (out.map fun f => (f.report, f.bit, f.size)).Pairwise
      fun f g => f.1 = g.1 → f.2.1.toNat + f.2.2.toNat ≤ g.2.1.toNat := List.pairwise_map.mpr hapart
  rw [hfields] at hall
  exact absurd hall (by decide)

end BananaOS.Hid
