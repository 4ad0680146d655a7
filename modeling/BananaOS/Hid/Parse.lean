import Mathlib.Data.List.GetD
import BananaOS.Lib.Placing

/-!
# HID report descriptors

`hid_parse` of `hidparse.c`.  A descriptor is a list of items; global and local items and collections
change what later ones mean (`Ctx`), and each Input, Output and Feature item declares values
(`Ctx.data`).  The values of a report lie one behind the other: there is an offset of 16 bits for each
report ID and type, which each value moves on.

What is declared does not depend on the offsets, so it is told apart from them here (`declared`), and
what the parser records is what is declared, placed by counters that wrap (`hidParse_eq`).
-/

namespace BananaOS.Hid

open Lib

/-- `HID_INPUT`, `HID_OUTPUT` and `HID_FEATURE` -/
inductive ReportType where
  | input
  | output
  | feature
  deriving DecidableEq, Repr

/-- A report: its ID and its type. -/
structure Report where
  rid : UInt8
  type : ReportType
  deriving DecidableEq, Repr

/-- `hid_field_t` -/
structure Field where
  report : Report
  flags : UInt8
  finger : Int8
  app : UInt32
  usage : UInt32
  bit : UInt16
  size : UInt16
  lmin : Int32
  lmax : Int32
  mm10 : Int32
  deriving DecidableEq, Repr

/-- `glob_t` -/
structure Glob where
  page : UInt32
  lmin : Int32
  lmax : Int32
  pmin : Int32
  pmax : Int32
  exp : ℤ
  unit : UInt32
  size : UInt32
  count : UInt32
  rid : UInt8
  deriving DecidableEq, Repr

/-- `MAX_USAGES` -/
def maxUsages : ℕ := 32

/-- `MAX_REPORTS` -/
def maxReports : ℕ := 32

/-- `HID_U(0x0D, 0x22)`: a Finger -/
def fingerUsage : UInt32 := (0x0D : UInt32) <<< 16 ||| 0x22

/-- `sext` -/
def sext (v : UInt32) (bytes : ℕ) : Int32 :=
  if bytes = 1 then v.toUInt8.toInt8.toInt32
  else if bytes = 2 then v.toUInt16.toInt16.toInt32
  else v.toInt32

/-- `while (e > 0 && v < 200000000) { v *= 10; e--; }` -/
def scaleUp : ℕ → Int32 → Int32
  | 0, v => v
  | e + 1, v => if v < 200000000 then scaleUp e (v * 10) else v

/-- `while (e < 0) { v /= 10; e++; }` -/
def scaleDown : ℕ → Int32 → Int32
  | 0, v => v
  | e + 1, v => scaleDown e (v / 10)

/-- `length_mm10` -/
def lengthMm10 (g : Glob) : Int32 :=
  let span := g.pmax - g.pmin
  if span ≤ 0 ∨ span > 1000000 then 0
  else
    let sys := g.unit &&& 0xF
    let len := (g.unit >>> 4) &&& 0xF
    if len ≠ 1 then 0
    else if sys = 1 then scaleDown (-g.exp).toNat (scaleUp g.exp.toNat (span * 100))
    else if sys = 3 then scaleDown (-g.exp).toNat (scaleUp g.exp.toNat (span * 254))
    else 0

/-! ## Items -/

/-- A short item. -/
structure Item where
  type : ℕ
  tag : ℕ
  sz : ℕ
  v : UInt32
  deriving DecidableEq, Repr

/-- The bytes of an item's data, the lowest first. -/
def itemValue : List UInt8 → UInt32
  | [] => 0
  | c :: l => c.toUInt32 ||| itemValue l <<< 8

/-- The items of a descriptor, without the long ones; `none` where one is not all there. -/
def items : List UInt8 → Option (List Item)
  | [] => some []
  | b :: d =>
    if b = 0xFE then
      -- a long item is skipped, also past the end
      if d.length < 2 then none else items (d.drop (2 + (d.headD 0).toNat))
    else
      let sz := if b.toNat % 4 = 3 then 4 else b.toNat % 4
      if d.length < sz then none
      else (items (d.drop sz)).map (⟨b.toNat / 4 % 4, b.toNat / 16, sz, itemValue (d.take sz)⟩ :: ·)
termination_by d => d.length
decreasing_by
  all_goals
    simp only [List.length_drop, List.length_cons]
    omega

/-! ## What items mean -/

/-- What the items before change: the global state and its stack, the local state, and where among the
collections we are. -/
structure Ctx where
  g : Glob
  stack : List Glob
  usages : List UInt32
  umin : UInt32
  umax : UInt32
  haveMin : Bool
  haveMax : Bool
  app : UInt32
  depth : ℤ
  fingerDepth : ℤ
  finger : ℤ
  nfingers : ℤ

/-- At the beginning. -/
def Ctx.start : Ctx where
  g := ⟨0, 0, 0, 0, 0, 0, 0, 0, 0, 0⟩
  stack := []
  usages := []
  umin := 0
  umax := 0
  haveMin := false
  haveMax := false
  app := 0
  depth := 0
  fingerDepth := -1
  finger := -1
  nfingers := 0

/-- A value that a main item declares: what is recorded of it, and how far it moves the offset. -/
structure Value where
  flags : UInt8
  finger : Int8
  app : UInt32
  usage : UInt32
  size : UInt16
  step : UInt16
  lmin : Int32
  lmax : Int32
  mm10 : Int32
  deriving DecidableEq, Repr

namespace Ctx

variable (c : Ctx)

/-- A global item. -/
def globalItem (tag sz : ℕ) (v : UInt32) : Ctx :=
  match tag with
  | 0 => { c with g := { c.g with page := v } }
  | 1 => { c with g := { c.g with lmin := sext v sz } }
  | 2 => { c with g := { c.g with lmax := if sz ≠ 0 then sext v sz else 0 } }
  | 3 => { c with g := { c.g with pmin := sext v sz } }
  | 4 => { c with g := { c.g with pmax := if sz ≠ 0 then sext v sz else 0 } }
  | 5 =>
    let e : ℤ := (v &&& 0xF).toNat
    { c with g := { c.g with exp := if v &&& 8 ≠ 0 then e - 16 else e } }
  | 6 => { c with g := { c.g with unit := v } }
  | 7 => { c with g := { c.g with size := v } }
  | 8 => { c with g := { c.g with rid := v.toUInt8 } }
  | 9 => { c with g := { c.g with count := v } }
  | 10 => if c.stack.length < 4 then { c with stack := c.g :: c.stack } else c
  | 11 =>
    match c.stack with
    | [] => c
    | g :: stack => { c with g := g, stack := stack }
  | _ => c

/-- A local item. -/
def localItem (tag sz : ℕ) (v : UInt32) : Ctx :=
  let u := if sz = 4 then v else c.g.page <<< 16 ||| v
  match tag with
  | 0 => if c.usages.length < maxUsages then { c with usages := c.usages ++ [u] } else c
  | 1 => { c with umin := u, haveMin := true }
  | 2 => { c with umax := u, haveMax := true }
  | _ => c

/-- `cur_usage` -/
def curUsage : UInt32 :=
  match c.usages with
  | [] => if c.haveMin then c.umin else 0
  | u :: _ => u

/-- The local state ends with each main item. -/
def forget : Ctx :=
  { c with usages := [], umin := 0, umax := 0, haveMin := false, haveMax := false }

/-- What a main item changes. -/
def mainItem (tag : ℕ) (v : UInt32) : Ctx :=
  if tag = 0xA then
    let c := { c with depth := c.depth + 1 }
    if v = 1 then { c with app := c.curUsage, nfingers := 0 }.forget
    else if c.curUsage = fingerUsage ∧ c.fingerDepth < 0 then
      { c with fingerDepth := c.depth, finger := c.nfingers, nfingers := c.nfingers + 1 }.forget
    else c.forget
  else if tag = 0xC then
    let c := if c.depth = c.fingerDepth then { c with fingerDepth := -1, finger := -1 } else c
    { c with depth := if c.depth > 0 then c.depth - 1 else c.depth }.forget
  else c.forget

/-- What an item changes. -/
def next (it : Item) : Ctx :=
  match it.type with
  | 0 => c.mainItem it.tag it.v
  | 1 => c.globalItem it.tag it.sz it.v
  | 2 => c.localItem it.tag it.sz it.v
  | _ => c

/-- `lmax` -/
def logicalMax : Int32 :=
  if c.g.lmin ≥ 0 ∧ c.g.lmax < c.g.lmin ∧ c.g.size < 32 then
    (c.g.lmax.toUInt32 &&& ((1 <<< c.g.size) - 1)).toInt32
  else c.g.lmax

/-- `u`: the usage of the value `k` of an item -/
def usageOf (k : ℕ) : UInt32 :=
  if k < c.usages.length then c.usages.getD k 0
  else
    let u := c.umin + UInt32.ofNat k - UInt32.ofNat c.usages.length
    if (c.haveMin && c.haveMax) = true ∧ u ≤ c.umax then u
    else if c.usages ≠ [] then c.usages.getLastD 0 else c.umax

/-- The values of an Input, Output or Feature item. -/
def values (v : UInt32) : List Value :=
  let constant : Bool := decide (v &&& 1 ≠ 0) || (c.usages.isEmpty && !c.haveMin && !c.haveMax)
  let variable_ : Bool := decide (v &&& 2 ≠ 0)
  if constant || !variable_ || decide (c.g.count > 16) then
    -- padding, an array or a long blob: one field
    [{ flags := v.toUInt8, finger := Int8.ofInt c.finger, app := c.app
       usage := if constant then 0 else c.curUsage
       size := (c.g.size * if constant || variable_ then c.g.count else 1).toUInt16
       step := (c.g.size * c.g.count).toUInt16
       lmin := c.g.lmin, lmax := c.logicalMax, mm10 := 0 }]
  else
    (List.range c.g.count.toNat).map fun k =>
      { flags := v.toUInt8, finger := Int8.ofInt c.finger, app := c.app, usage := c.usageOf k
        size := c.g.size.toUInt16, step := c.g.size.toUInt16
        lmin := c.g.lmin, lmax := c.logicalMax, mm10 := lengthMm10 c.g }

/-- `rtype`, of an Input, Output or Feature item -/
def reportType (tag : ℕ) : Option ReportType :=
  match tag with
  | 8 => some .input
  | 9 => some .output
  | 0xB => some .feature
  | _ => none

/-- What an item declares, and in which report; `none` for all but Input, Output and Feature. -/
def data (it : Item) : Option (Report × List Value) :=
  if it.type = 0 then (reportType it.tag).map fun t => (⟨c.g.rid, t⟩, c.values it.v) else none

end Ctx

/-! ## The parser -/

/-- A declared value at a place. -/
def Value.put (x : Value) (r : Report) (bit : UInt16) : Field :=
  ⟨r, x.flags, x.finger, x.app, x.usage, bit, x.size, x.lmin, x.lmax, x.mm10⟩

/-- `off`: the offset of each report -/
abbrev Offsets := List (Report × UInt16)

/-- The report's place in `off`, which is a new one if it is not there; `none` if there is no room. -/
def findOff (off : Offsets) (r : Report) : Option (Offsets × ℕ) :=
  let o := off.findIdx fun e => e.1 = r
  if o = off.length then
    if off.length = maxReports then none else some (off ++ [(r, 0)], o)
  else some (off, o)

/-- A value is recorded, if there is room, and its report's offset moved on. -/
def record (max : ℕ) (r : Report) (o : ℕ) (s : Offsets × List Field) (x : Value) :
    Offsets × List Field :=
  (s.1.modify o fun e => (e.1, e.2 + x.step),
    if s.2.length < max then s.2 ++ [x.put r (s.1.getD o (r, 0)).2] else s.2)

/-- The state of `hid_parse`. -/
structure St where
  ctx : Ctx
  off : Offsets
  out : List Field

/-- An item. -/
def St.step (max : ℕ) (s : St) (it : Item) : Option St :=
  match s.ctx.data it with
  | none => some { s with ctx := s.ctx.next it }
  | some (r, xs) =>
    (findOff s.off r).map fun found =>
      let t := xs.foldl (record max r found.2) (found.1, s.out)
      ⟨s.ctx.next it, t.1, t.2⟩

/-- `hid_parse`: the fields, `none` for -1 -/
def hidParse (d : List UInt8) (max : ℕ) : Option (List Field) :=
  (items d).bind fun l => (l.foldlM (St.step max) ⟨Ctx.start, [], []⟩).map St.out

/-! ## What a descriptor declares -/

/-- What the items declare, in their order. -/
def Ctx.declares (c : Ctx) : List Item → List (Report × Value)
  | [] => []
  | it :: l =>
    (match c.data it with
      | none => []
      | some (r, xs) => xs.map fun x => (r, x)) ++ (c.next it).declares l

/-- What a descriptor declares. -/
def declared (d : List UInt8) : List (Report × Value) :=
  match items d with
  | none => []
  | some l => Ctx.start.declares l

/-- How far the values move the offsets. -/
abbrev advance (a : Report × Value) : ℕ := a.2.step.toNat

/-- What is recorded of a declared value that is placed. -/
def toField (a : (Report × Value) × ℕ) : Field := a.1.2.put a.1.1 (UInt16.ofNat a.2)

/-- The values of a descriptor placed, as far as there is room for them. -/
def placedFields (max : ℕ) (things : List (Report × Value)) : List Field :=
  ((placeAll Prod.fst advance (2 ^ 16) (fun _ => 0) things).map toField).take max

/-! ## What is recorded -/

/-- The offset of a report: 0 before it is first met. -/
def bitsOf (off : Offsets) (r : Report) : UInt16 :=
  (off.getD (off.findIdx fun e => e.1 = r) (r, 0)).2

/-- The offsets stand where the counters do. -/
def Agrees (off : Offsets) (at_ : Report → ℕ) : Prop := ∀ r, (bitsOf off r).toNat = at_ r

theorem agrees_nil : Agrees [] fun _ => 0 := fun _ => rfl

theorem bitsOf_append (off : Offsets) (r i : Report) : bitsOf (off ++ [(r, 0)]) i = bitsOf off i := by
  unfold bitsOf
  by_cases h : (off.findIdx fun e => e.1 = i) < off.length
  · rw [List.findIdx_append, if_pos h, List.getD_append _ _ _ _ h]
  · have hall : (off.findIdx fun e => e.1 = i) = off.length :=
      Nat.le_antisymm List.findIdx_le_length (Nat.le_of_not_lt h)
    rw [List.findIdx_append, if_neg h, hall, List.getD_append_right _ _ _ _ (Nat.le_add_left _ _),
      List.getD_eq_default off _ (Nat.le_refl _)]
    by_cases hr : r = i
    · simp [hr]
    · simp [List.findIdx_cons, hr]

theorem findOff_spec {off found : Offsets} {r : Report} {o : ℕ} (h : findOff off r = some (found, o)) :
    (∀ i, bitsOf found i = bitsOf off i) ∧ o < found.length ∧
      (found.findIdx fun e => e.1 = r) = o := by
  rw [findOff] at h
  split_ifs at h with hnew hroom
  · obtain ⟨rfl, rfl⟩ := Prod.mk.inj (Option.some.inj h)
    refine ⟨bitsOf_append off r, by rw [hnew, List.length_append]; exact Nat.lt_succ_self _, ?_⟩
    rw [List.findIdx_append, if_neg (by rw [hnew]; exact Nat.lt_irrefl _)]
    simp [hnew]
  · obtain ⟨rfl, rfl⟩ := Prod.mk.inj (Option.some.inj h)
    exact ⟨fun _ => rfl, Nat.lt_of_le_of_ne List.findIdx_le_length hnew, rfl⟩

theorem findIdx_move (off : Offsets) (o : ℕ) (x : Value) (i : Report) :
    ((off.modify o fun e => (e.1, e.2 + x.step)).findIdx fun e => e.1 = i) =
      off.findIdx fun e => e.1 = i := by
  induction off generalizing o with
  | nil => cases o <;> rfl
  | cons e l ih =>
    cases o with
    | zero => simp [List.findIdx_cons]
    | succ o => simp [List.findIdx_cons, ih]

/-- Only the report's own offset is moved. -/
theorem bitsOf_move {off : Offsets} {r : Report} {o : ℕ} (ho : o < off.length)
    (hr : (off.findIdx fun e => e.1 = r) = o) (x : Value) (i : Report) :
    bitsOf (off.modify o fun e => (e.1, e.2 + x.step)) i =
      if i = r then bitsOf off r + x.step else bitsOf off i := by
  unfold bitsOf
  rw [findIdx_move]
  by_cases hi : i = r
  · subst hi
    simp [hr, ho, List.getD_eq_getElem?_getD]
  · have hne : (off.findIdx fun e => e.1 = i) ≠ o := by
      rintro rfl
      have hkey := List.findIdx_getElem (w := ho)
      have hkey' := List.findIdx_getElem (w := hr.trans_lt ho)
      simp only [hr, decide_eq_true_eq] at hkey hkey'
      exact hi (hkey.symm.trans hkey')
    rw [if_neg hi]
    simp [List.getD_eq_getElem?_getD, Ne.symm hne]

/-! ## Runs of the parser -/

section Runs

variable {max : ℕ} {off : Offsets} {at_ : Report → ℕ}

theorem agrees_record (max : ℕ) (out : List Field) {r : Report} {o : ℕ} (ho : o < off.length)
    (hr : (off.findIdx fun e => e.1 = r) = o) (hat : Agrees off at_) (x : Value) :
    Agrees (record max r o (off, out) x).1
      (Function.update at_ r ((at_ r + x.step.toNat) % 2 ^ 16)) := by
  intro i
  have hmove := bitsOf_move ho hr x i
  rw [record, hmove]
  by_cases hi : i = r
  · rw [if_pos hi, hi, Function.update_self, UInt16.toNat_add, hat r]
  · rw [if_neg hi, Function.update_of_ne hi, hat i]

theorem record_out (max : ℕ) (out : List Field) {r : Report} {o : ℕ}
    (hr : (off.findIdx fun e => e.1 = r) = o) (hat : Agrees off at_) (x : Value) :
    (record max r o (off, out) x).2 = out ++ [toField ((r, x), at_ r)].take (max - out.length) := by
  have hbit : (off.getD o (r, 0)).2 = UInt16.ofNat (at_ r) := by
    rw [← hat r, UInt16.ofNat_toNat, bitsOf, hr]
  rw [record, hbit]
  dsimp only
  split_ifs with hroom
  · rw [List.take_of_length_le (by simp only [List.length_singleton]; omega)]
    rfl
  · rw [Nat.sub_eq_zero_of_le (Nat.le_of_not_lt hroom), List.take_zero, List.append_nil]

theorem append_take_append (out l more : List Field) (max : ℕ) :
    (out ++ l.take (max - out.length)) ++ more.take (max - (out ++ l.take (max - out.length)).length) =
      out ++ (l ++ more).take (max - out.length) := by
  rw [List.append_assoc, List.take_append, List.length_append, List.length_take]
  congr 2
  rcases Nat.le_total (max - out.length) l.length with h | h
  · rw [Nat.min_eq_left h]
    congr 1
    omega
  · rw [Nat.min_eq_right h]
    congr 1
    omega

/-- The values of one item. -/
theorem foldl_record (max : ℕ) (out : List Field) {r : Report} {o : ℕ} (xs : List Value) (ho : o < off.length)
    (hr : (off.findIdx fun e => e.1 = r) = o) (hat : Agrees off at_) :
    Agrees (xs.foldl (record max r o) (off, out)).1
        (counters Prod.fst advance (2 ^ 16) at_ (xs.map fun x => (r, x))) ∧
      (xs.foldl (record max r o) (off, out)).2 =
        out ++ ((placeAll Prod.fst advance (2 ^ 16) at_ (xs.map fun x => (r, x))).map toField).take
          (max - out.length) := by
  induction xs generalizing off out at_ with
  | nil => exact ⟨hat, by simp [placeAll]⟩
  | cons x xs ih =>
    have hlen : o < (record max r o (off, out) x).1.length := by
      rw [record, List.length_modify]
      exact ho
    have hidx : ((record max r o (off, out) x).1.findIdx fun e => e.1 = r) = o := by
      rw [record, findIdx_move]
      exact hr
    obtain ⟨hthen, hout⟩ := ih (record max r o (off, out) x).2 hlen hidx (agrees_record max out ho hr hat x)
    refine ⟨hthen, ?_⟩
    rw [List.foldl_cons, hout, record_out max out hr hat x, append_take_append]
    rfl

/-- An item moves the counters by what it declares, and what it declares is recorded. -/
theorem St.step_spec {s t : St} {it : Item} (h : s.step max it = some t) (hat : Agrees s.off at_) :
    t.ctx = s.ctx.next it ∧
      Agrees t.off (counters Prod.fst advance (2 ^ 16) at_ (s.ctx.declares [it])) ∧
      t.out = s.out ++ ((placeAll Prod.fst advance (2 ^ 16) at_ (s.ctx.declares [it])).map
        toField).take (max - s.out.length) := by
  rw [St.step] at h
  rw [Ctx.declares, Ctx.declares, List.append_nil]
  cases hdata : s.ctx.data it with
  | none =>
    rw [hdata] at h
    obtain rfl := Option.some.inj h
    exact ⟨rfl, hat, by simp [placeAll]⟩
  | some a =>
    obtain ⟨r, xs⟩ := a
    rw [hdata] at h
    obtain ⟨⟨found, o⟩, hfound, rfl⟩ := Option.map_eq_some_iff.mp h
    obtain ⟨hsame, ho, hr⟩ := findOff_spec hfound
    have hat' : Agrees found at_ := fun i => (congrArg UInt16.toNat (hsame i)).trans (hat i)
    exact ⟨rfl, foldl_record max s.out xs ho hr hat'⟩

theorem Ctx.declares_cons (c : Ctx) (it : Item) (l : List Item) :
    c.declares (it :: l) = c.declares [it] ++ (c.next it).declares l := by
  simp only [Ctx.declares, List.append_nil]

/-- A run over items records what they declare, placed by the counters, as far as there is room. -/
theorem foldlM_step {l : List Item} {s t : St} (h : l.foldlM (St.step max) s = some t)
    (hat : Agrees s.off at_) :
    t.out = s.out ++ ((placeAll Prod.fst advance (2 ^ 16) at_ (s.ctx.declares l)).map toField).take
      (max - s.out.length) := by
  induction l generalizing s at_ with
  | nil =>
    obtain rfl := Option.some.inj h
    simp [Ctx.declares, placeAll]
  | cons it l ih =>
    rw [List.foldlM_cons] at h
    obtain ⟨u, hu, ht⟩ := Option.bind_eq_some_iff.mp h
    obtain ⟨hctx, hoff, hout⟩ := St.step_spec hu hat
    rw [ih ht hoff, hctx, hout, append_take_append, ← List.map_append, ← placeAll_append,
      ← Ctx.declares_cons]

end Runs

/-- What the parser records is what is declared, placed by counters that wrap, as far as there is
room. -/
theorem hidParse_eq {d : List UInt8} {max : ℕ} {out : List Field} (h : hidParse d max = some out) :
    out = placedFields max (declared d) := by
  obtain ⟨l, hl, hrun⟩ := Option.bind_eq_some_iff.mp h
  obtain ⟨t, ht, rfl⟩ := Option.map_eq_some_iff.mp hrun
  rw [foldlM_step ht agrees_nil, declared, hl]
  rfl

end BananaOS.Hid
