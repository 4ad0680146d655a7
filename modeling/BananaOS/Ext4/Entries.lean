import BananaOS.Ext4.Nodes
import BananaOS.Lib.Tiles

/-!
# The entries of a folder's block

The blocks of a folder in `kernel/ext4.c`: entries with a record length, the last one up to the
block's end.  An entry without an inode is empty; its name is still there.  The loops of `dir_find`,
`dir_add`, `dir_empty` and `ext4_readdir` over a block are one `walk` with four bodies, which stop at
an entry that is not good.

`Entries b l` says that the entries `l` tile the block `b`.  A new entry takes the slack of a live
one or the place of an empty one; an entry that goes leaves its room to the one before it, or stays
as an empty one where there is none.  `items l` is what the entries say: names, with inode and type.
-/

namespace BananaOS.Ext4

open Lib

/-- `DE_LEN` -/
def deLen (nl : ℕ) : ℕ := (8 + nl + 3) / 4 * 4

/-- `rec_len` -/
def recLen (b : Blk) (off : ℕ) : ℕ := g16 b (off + 4)

/-- `de_ok` -/
def deOk (b : Blk) (off : ℕ) : Bool :=
  let rl := recLen b off
  let nl := (b (off + 6)).toNat
  decide (12 ≤ rl ∧ rl % 4 = 0 ∧ off + rl ≤ bs ∧ deLen nl ≤ rl)

/-- The `nl` bytes from `o` on. -/
def nameAt (b : Blk) (o nl : ℕ) : List UInt8 := (List.range nl).map fun i => b (o + i)

/-- One byte set. -/
def p8 (p : Blk) (o v : ℕ) : Blk := fun i => if i = o then UInt8.ofNat v else p i

/-- `put_de`, for the entry at `o` -/
def putDe (b : Blk) (o ino rl : ℕ) (name : List UInt8) (type : ℕ) : Blk :=
  let nl := name.length
  let b := p8 (p8 (p16 (p32 b o ino) (o + 4) rl) (o + 6) nl) (o + 7) type
  let b := blit b (o + 8) (fun i => name.getD i 0) 0 nl
  blit b (o + (8 + nl)) zeros 0 (min (deLen nl) rl - (8 + nl))

/-- The loop over the entries of a block: `while (off < BS)`, an entry that is not good ends it. -/
def deLoop {σ : Type} (b : Blk) (f : σ → ℕ → σ × Bool) (a : σ) : σ × Bool :=
  walk (deOk b) (recLen b) bs f bs 0 a

/-! ## The four loops -/

/-- What `dir_find` finds: inode, type, block, offset, and the entry before it in the block. -/
structure Found where
  ino : ℕ
  type : ℕ
  bk : ℕ
  boff : ℕ
  bprev : Option ℕ
  deriving DecidableEq

/-- The body of the loop of `dir_find` in block `k`, with `prev`. -/
def findBody (b : Blk) (k : ℕ) (name : List UInt8) (a : Option ℕ × Option Found) (off : ℕ) :
    (Option ℕ × Option Found) × Bool :=
  let nl := name.length
  if g32 b off ≠ 0 ∧ (b (off + 6)).toNat = nl ∧ nameAt b (off + 8) nl = name then
    ((a.1, some ⟨g32 b off, (b (off + 7)).toNat, k, off, a.1⟩), true)
  else ((some off, a.2), false)

/-- `dir_find` in block `k` of the folder. -/
def findIn (b : Blk) (k : ℕ) (name : List UInt8) : Option Found :=
  (deLoop b (findBody b k name) (none, none)).1.2

/-- `used` of `dir_add` -/
def usedAt (b : Blk) (off : ℕ) : ℕ := if g32 b off ≠ 0 then deLen (b (off + 6)).toNat else 0

/-- The body of the loop of `dir_add`: where there is room. -/
def roomBody (b : Blk) (need : ℕ) (a : Option ℕ) (off : ℕ) : Option ℕ × Bool :=
  if recLen b off - usedAt b off ≥ need then (some off, true) else (a, false)

/-- Where `dir_add` finds room in a block. -/
def roomIn (b : Blk) (need : ℕ) : Option ℕ := (deLoop b (roomBody b need) none).1

/-- The new entry of `dir_add`, in the room at `off`. -/
def putIn (b : Blk) (off ino : ℕ) (name : List UInt8) (type : ℕ) : Blk :=
  let rl := recLen b off
  let used := usedAt b off
  if used ≠ 0 then putDe (p16 b (off + 4) used) (off + used) ino (rl - used) name type
  else putDe b off ino rl name type

/-- The entry at `off` taken out by `dir_remove`. -/
def takeOut (b : Blk) (off : ℕ) (prev : Option ℕ) : Blk :=
  match prev with
  | some prev => p16 b (prev + 4) (recLen b prev + recLen b off)
  | none => p32 b off 0

/-- The name of the entry at `off` is `.` or `..`. -/
def dotAt (b : Blk) (off : ℕ) : Bool :=
  decide ((b (off + 6)).toNat = 1 ∧ b (off + 8) = 46) ||
    decide ((b (off + 6)).toNat = 2 ∧ b (off + 8) = 46 ∧ b (off + 9) = 46)

/-- The body of the loop of `dir_empty`. -/
def emptyBody (b : Blk) (empty : Bool) (off : ℕ) : Bool × Bool :=
  if g32 b off ≠ 0 ∧ dotAt b off = false then (false, true) else (empty, false)

/-- `dir_empty` in a block. -/
def emptyIn (b : Blk) : Bool := (deLoop b (emptyBody b) true).1

/-- The body of the loop of `ext4_readdir`; `fn` is given what it returned last, a name, an inode and
a type, and says whether to stop. -/
def readBody {σ : Type} (fn : σ → List UInt8 → ℕ → ℕ → σ × Bool) (b : Blk) (a : σ) (off : ℕ) :
    σ × Bool :=
  if g32 b off ≠ 0 ∧ dotAt b off = false then
    fn a (nameAt b (off + 8) (b (off + 6)).toNat) (g32 b off) (b (off + 7)).toNat
  else (a, false)

/-- `ext4_readdir` in a block. -/
def readIn {σ : Type} (fn : σ → List UInt8 → ℕ → ℕ → σ × Bool) (b : Blk) (a : σ) : σ × Bool :=
  deLoop b (readBody fn b) a

/-! ## Entries -/

/-- An entry as it is read. -/
structure Ent where
  ino : ℕ
  rl : ℕ
  type : ℕ
  name : List UInt8
  deriving DecidableEq

/-- The entry at `off`. -/
def entAt (b : Blk) (off : ℕ) : Ent :=
  ⟨g32 b off, recLen b off, (b (off + 7)).toNat, nameAt b (off + 8) (b (off + 6)).toNat⟩

/-- A good entry at `off`, and it is `s`. -/
def DeAt (b : Blk) (off : ℕ) (s : Ent) : Prop := deOk b off = true ∧ entAt b off = s

/-- The entries `l` tile the block. -/
def Entries (b : Blk) (l : List Ent) : Prop := Tiled (DeAt b) Ent.rl 0 l bs

/-- What the entry needs of its record. -/
def Ent.used (s : Ent) : ℕ := if s.ino ≠ 0 then deLen s.name.length else 0

/-- The live entry of a name. -/
def Ent.Is (s : Ent) (name : List UInt8) : Prop := s.ino ≠ 0 ∧ s.name = name

instance (s : Ent) (name : List UInt8) : Decidable (s.Is name) := inferInstanceAs (Decidable (_ ∧ _))

/-- `.` -/
def dot : List UInt8 := [46]

/-- `..` -/
def dotdot : List UInt8 := [46, 46]

/-- A live entry that is neither `.` nor `..`. -/
def Ent.Counts (s : Ent) : Prop := s.ino ≠ 0 ∧ s.name ≠ dot ∧ s.name ≠ dotdot

instance (s : Ent) : Decidable s.Counts := inferInstanceAs (Decidable (_ ∧ _))

/-- What the entries say: each live one's name, inode and type. -/
def items (l : List Ent) : List (List UInt8 × ℕ × ℕ) :=
  (l.filter fun s => s.ino ≠ 0).map fun s => (s.name, s.ino, s.type)

variable {b b' : Blk} {off k ino rl type need i o n : ℕ} {name : List UInt8} {s t : Ent}
  {l l₁ l₂ : List Ent} {σ : Type}

theorem length_nameAt : (nameAt b o n).length = n := by simp [nameAt]

theorem nameAt_congr (h : ∀ i, o ≤ i → i < o + n → b i = b' i) : nameAt b o n = nameAt b' o n := by
  refine List.map_congr_left fun i hi => h _ (by omega) ?_
  have := List.mem_range.mp hi
  omega

theorem deLen_spec (nl : ℕ) : 8 + nl ≤ deLen nl ∧ deLen nl % 4 = 0 := by
  unfold deLen
  omega

theorem le_deLen {nl : ℕ} (h : 0 < nl) : 12 ≤ deLen nl := by
  unfold deLen
  omega

theorem deLen_le {nl : ℕ} (h : nl ≤ 255) : deLen nl ≤ 264 := by
  unfold deLen
  omega

/-! ## What a good entry is -/

theorem deOk_iff : deOk b off = true ↔ 12 ≤ recLen b off ∧ recLen b off % 4 = 0 ∧
    off + recLen b off ≤ bs ∧ deLen (b (off + 6)).toNat ≤ recLen b off := by
  simp [deOk]

/-- A good entry, in its own terms. -/
structure DeAt.Good (b : Blk) (off : ℕ) (s : Ent) : Prop where
  rl : recLen b off = s.rl
  ino : g32 b off = s.ino
  type : (b (off + 7)).toNat = s.type
  len : (b (off + 6)).toNat = s.name.length
  name : nameAt b (off + 8) s.name.length = s.name
  min : 12 ≤ s.rl
  aligned : s.rl % 4 = 0
  within : off + s.rl ≤ bs
  fits : deLen s.name.length ≤ s.rl

theorem deAt_iff : DeAt b off s ↔ DeAt.Good b off s := by
  constructor
  · rintro ⟨h, rfl⟩
    obtain ⟨h1, h2, h3, h4⟩ := deOk_iff.mp h
    have hlen : (entAt b off).name.length = (b (off + 6)).toNat := length_nameAt
    exact ⟨rfl, rfl, rfl, hlen.symm, by rw [hlen]; rfl, h1, h2, h3, by rwa [hlen]⟩
  · rintro ⟨h1, h2, h3, h4, h5, h6, h7, h8, h9⟩
    refine ⟨deOk_iff.mpr ?_, ?_⟩
    · rw [h1, h4]
      exact ⟨h6, h7, h8, h9⟩
    · obtain ⟨ino, rl, type, name⟩ := s
      unfold entAt
      rw [h1, h2, h3, h4, h5]

theorem DeAt.congr (h : DeAt b off s) (hb : ∀ i, off ≤ i → i < off + s.rl → b i = b' i) :
    DeAt b' off s := by
  obtain ⟨h1, h2, h3, h4, h5, h6, h7, h8, h9⟩ := deAt_iff.mp h
  have hlen := (deLen_spec s.name.length).1
  have hrl : recLen b' off = recLen b off :=
    g16_congr fun i hi1 hi2 => (hb i (by omega) (by omega)).symm
  refine deAt_iff.mpr ⟨hrl.trans h1, ?_, ?_, ?_, ?_, h6, h7, h8, h9⟩
  · rw [← h2]
    exact g32_congr fun i hi1 hi2 => (hb i (by omega) (by omega)).symm
  · rw [← h3, hb (off + 7) (by omega) (by omega)]
  · rw [← h4, hb (off + 6) (by omega) (by omega)]
  · rw [nameAt_congr fun i hi1 hi2 => (hb i (by omega) (by omega)).symm, h5]

/-! ## Writing an entry -/

theorem p8_self {v : ℕ} : p8 b o v o = UInt8.ofNat v := if_pos rfl

theorem p8_ne {v : ℕ} (h : i ≠ o) : p8 b o v i = b i := if_neg h

theorem p32_apart {v : ℕ} (h : i < o ∨ o + 4 ≤ i) : p32 b o v i = b i := putLE_of_notMem h

theorem p16_apart {v : ℕ} (h : i < o ∨ o + 2 ≤ i) : p16 b o v i = b i := putLE_of_notMem h

theorem putDe_apart (hl : deLen name.length ≤ rl) (h : i < o ∨ o + rl ≤ i) :
    putDe b o ino rl name type i = b i := by
  have hlen := (deLen_spec name.length).1
  unfold putDe
  rw [blit_of_notMem (by omega), blit_of_notMem (by omega), p8_ne (by omega), p8_ne (by omega),
    p16_apart (by omega), p32_apart (by omega)]

/-- The entry that `put_de` writes. -/
theorem deAt_putDe (hino : ino < 2 ^ 32) (hname : name.length ≤ 255) (htype : type < 256)
    (hmin : 12 ≤ rl) (ha : rl % 4 = 0) (hw : o + rl ≤ bs) (hl : deLen name.length ≤ rl) :
    DeAt (putDe b o ino rl name type) o ⟨ino, rl, type, name⟩ := by
  have hlen := (deLen_spec name.length).1
  -- what is left of the name and of the padding when a field in front of them is read
  have hhead : ∀ i, i < o + 8 → putDe b o ino rl name type i =
      p8 (p8 (p16 (p32 b o ino) (o + 4) rl) (o + 6) name.length) (o + 7) type i := fun i hi => by
    unfold putDe
    rw [blit_of_notMem (by omega), blit_of_notMem (by omega)]
  refine deAt_iff.mpr ⟨?_, ?_, ?_, ?_, ?_, hmin, ha, hw, hl⟩
  · have hrl : rl < 2 ^ 16 := by
      unfold bs at hw
      omega
    calc recLen (putDe b o ino rl name type) o
        = g16 (p16 (p32 b o ino) (o + 4) rl) (o + 4) := g16_congr fun i h1 h2 => by
          rw [hhead i (by omega), p8_ne (by omega), p8_ne (by omega)]
      _ = rl := by rw [g16_p16, Nat.mod_eq_of_lt hrl]
  · calc g32 (putDe b o ino rl name type) o
        = g32 (p32 b o ino) o := g32_congr fun i h1 h2 => by
          rw [hhead i (by omega), p8_ne (by omega), p8_ne (by omega), p16_apart (by omega)]
      _ = ino := by rw [g32_p32, u32_of_lt hino]
  · rw [hhead _ (by omega), p8_self, UInt8.toNat_ofNat_of_lt' (by simpa using htype)]
  · rw [hhead _ (by omega), p8_ne (by omega), p8_self,
      UInt8.toNat_ofNat_of_lt' (by simp only [UInt8.size]; omega)]
  · refine List.ext_getElem length_nameAt fun i h1 h2 => ?_
    simp only [nameAt, List.getElem_map, List.getElem_range]
    unfold putDe
    rw [blit_of_notMem (by simp only at h2; omega), blit, if_pos (by simp only at h2; omega)]
    simp only [Nat.zero_add, Nat.add_sub_cancel_left]
    rw [List.getD_eq_getElem?_getD, List.getElem?_eq_getElem h2, Option.getD_some]

theorem DeAt.setRl (h : DeAt b off s) (hmin : 12 ≤ rl) (ha : rl % 4 = 0) (hw : off + rl ≤ bs)
    (hl : deLen s.name.length ≤ rl) : DeAt (p16 b (off + 4) rl) off { s with rl := rl } := by
  obtain ⟨-, h2, h3, h4, h5, -, -, -, -⟩ := deAt_iff.mp h
  have hrl : rl < 2 ^ 16 := by
    unfold bs at hw
    omega
  refine deAt_iff.mpr ⟨?_, ?_, ?_, ?_, ?_, hmin, ha, hw, hl⟩
  · unfold recLen
    rw [g16_p16, Nat.mod_eq_of_lt hrl]
  · rw [g32_p16_ne (by omega), h2]
  · rw [p16_apart (by omega), h3]
  · rw [p16_apart (by omega), h4]
  · rw [nameAt_congr fun i _ _ => p16_apart (by omega), h5]

theorem DeAt.clear (h : DeAt b off s) : DeAt (p32 b off 0) off { s with ino := 0 } := by
  obtain ⟨h1, -, h3, h4, h5, h6, h7, h8, h9⟩ := deAt_iff.mp h
  refine deAt_iff.mpr ⟨?_, ?_, ?_, ?_, ?_, h6, h7, h8, h9⟩
  · unfold recLen at *
    rw [g16_p32_ne (by omega), h1]
  · rw [g32_p32]
    rfl
  · rw [p32_apart (by omega), h3]
  · rw [p32_apart (by omega), h4]
  · rw [nameAt_congr fun i _ _ => p32_apart (by omega), h5]

/-! ## The loops over the entries of a block -/

theorem deLoop_eq {f : σ → ℕ → σ × Bool} {a : σ} (h : Entries b l) :
    deLoop b f a = along Ent.rl f 0 l a := by
  refine walk_tiled (fun o s hs => ?_) h (by omega)
  have := deAt_iff.mp hs
  have hmin := this.min
  exact ⟨hs.1, this.rl, by omega⟩

/-- Where the entry before the one after `l` is. -/
def prevOf (prev : Option ℕ) (o : ℕ) (l : List Ent) : Option ℕ :=
  if l = [] then prev else some (o + span Ent.rl l.dropLast)

theorem prevOf_cons (prev : Option ℕ) (o : ℕ) (s : Ent) (l : List Ent) :
    prevOf prev o (s :: l) = prevOf (some o) (o + s.rl) l := by
  unfold prevOf
  cases l with
  | nil => simp
  | cons t l => simp [Nat.add_assoc]

/-- The test of `dir_find`. -/
theorem DeAt.is_iff (h : DeAt b off s) :
    (g32 b off ≠ 0 ∧ (b (off + 6)).toNat = name.length ∧ nameAt b (off + 8) name.length = name) ↔
      s.Is name := by
  obtain ⟨-, h2, -, h4, h5, -, -, -, -⟩ := deAt_iff.mp h
  rw [h2, h4]
  refine and_congr_right fun _ => ⟨fun ⟨h6, h7⟩ => ?_, fun h6 => ?_⟩
  · rw [← h5, h6, h7]
  · subst h6
    exact ⟨rfl, h5⟩

/-- What the search of `dir_find` along a block gives. -/
inductive FindIn (k : ℕ) (name : List UInt8) (l : List Ent) : Option Found → Prop
  | none : (∀ s ∈ l, ¬ s.Is name) → FindIn k name l none
  | some (l₁ : List Ent) (s : Ent) (l₂ : List Ent) : l = l₁ ++ s :: l₂ → (∀ t ∈ l₁, ¬ t.Is name) →
      s.Is name → FindIn k name l (some ⟨s.ino, s.type, k, span Ent.rl l₁, prevOf none 0 l₁⟩)

theorem findBody_along {prev : Option ℕ} (h : Tiled (DeAt b) Ent.rl o l bs) :
    ((∀ s ∈ l, ¬ s.Is name) ∧ (along Ent.rl (findBody b k name) o l (prev, none)).1.2 = none) ∨
      ∃ l₁ s l₂, l = l₁ ++ s :: l₂ ∧ (∀ t ∈ l₁, ¬ t.Is name) ∧ s.Is name ∧
        (along Ent.rl (findBody b k name) o l (prev, none)).1.2 =
          some ⟨s.ino, s.type, k, o + span Ent.rl l₁, prevOf prev o l₁⟩ := by
  induction l generalizing o prev with
  | nil => exact .inl ⟨nofun, rfl⟩
  | cons s l ih =>
    obtain ⟨hs, hl⟩ := h
    by_cases his : s.Is name
    · refine .inr ⟨[], s, l, rfl, nofun, his, ?_⟩
      have hgood := deAt_iff.mp hs
      rw [along, findBody, if_pos (hs.is_iff.mpr his), hgood.ino, hgood.type]
      rfl
    · have hbody : findBody b k name (prev, none) o = ((some o, none), false) :=
        if_neg fun hh => his (hs.is_iff.mp hh)
      rw [along, hbody, if_neg (by simp)]
      rcases ih hl with ⟨h1, h2⟩ | ⟨l₁, t, l₂, rfl, h1, h2, h3⟩
      · exact .inl ⟨List.forall_mem_cons.mpr ⟨his, h1⟩, h2⟩
      · refine .inr ⟨s :: l₁, t, l₂, rfl, List.forall_mem_cons.mpr ⟨his, h1⟩, h2, ?_⟩
        rw [h3, prevOf_cons, span_cons, Nat.add_assoc]

theorem findIn_spec (h : Entries b l) : FindIn k name l (findIn b k name) := by
  unfold findIn
  rw [deLoop_eq h]
  rcases findBody_along (k := k) h with
    ⟨h1, h2⟩ | ⟨l₁, s, l₂, h1, h2, h3, h4⟩
  · rw [h2]
    exact .none h1
  · rw [h4, Nat.zero_add]
    exact .some l₁ s l₂ h1 h2 h3

theorem DeAt.used_eq (h : DeAt b off s) : usedAt b off = s.used := by
  obtain ⟨-, h2, -, h4, -⟩ := deAt_iff.mp h
  unfold usedAt Ent.used
  rw [h2, h4]

/-- What the search of `dir_add` along a block gives. -/
inductive RoomIn (need : ℕ) (l : List Ent) : Option ℕ → Prop
  | none : (∀ s ∈ l, s.rl - s.used < need) → RoomIn need l none
  | some (l₁ : List Ent) (s : Ent) (l₂ : List Ent) : l = l₁ ++ s :: l₂ → need ≤ s.rl - s.used →
      RoomIn need l (some (span Ent.rl l₁))

theorem roomBody_along (h : Tiled (DeAt b) Ent.rl o l bs) :
    ((∀ s ∈ l, s.rl - s.used < need) ∧ (along Ent.rl (roomBody b need) o l none).1 = none) ∨
      ∃ l₁ s l₂, l = l₁ ++ s :: l₂ ∧ need ≤ s.rl - s.used ∧
        (along Ent.rl (roomBody b need) o l none).1 = some (o + span Ent.rl l₁) := by
  induction l generalizing o with
  | nil => exact .inl ⟨nofun, rfl⟩
  | cons s l ih =>
    obtain ⟨hs, hl⟩ := h
    have hrl := (deAt_iff.mp hs).rl
    by_cases hroom : need ≤ s.rl - s.used
    · refine .inr ⟨[], s, l, rfl, hroom, ?_⟩
      rw [along, roomBody, hrl, hs.used_eq, if_pos hroom]
      rfl
    · have hbody : roomBody b need none o = (none, false) := by
        rw [roomBody, hrl, hs.used_eq, if_neg hroom]
      rw [along, hbody, if_neg (by simp)]
      rcases ih hl with ⟨h1, h2⟩ | ⟨l₁, t, l₂, rfl, h1, h2⟩
      · exact .inl ⟨List.forall_mem_cons.mpr ⟨by omega, h1⟩, h2⟩
      · refine .inr ⟨s :: l₁, t, l₂, rfl, h1, ?_⟩
        rw [h2, span_cons, Nat.add_assoc]

theorem roomIn_spec (h : Entries b l) : RoomIn need l (roomIn b need) := by
  unfold roomIn
  rw [deLoop_eq h]
  rcases roomBody_along h with ⟨h1, h2⟩ | ⟨l₁, s, l₂, h1, h2, h3⟩
  · rw [h2]
    exact .none h1
  · rw [h3, Nat.zero_add]
    exact .some l₁ s l₂ h1 h2

/-- The test of `dir_empty` and `ext4_readdir`. -/
theorem DeAt.counts_iff (h : DeAt b off s) : (g32 b off ≠ 0 ∧ dotAt b off = false) ↔ s.Counts := by
  obtain ⟨-, h2, -, h4, h5, -⟩ := deAt_iff.mp h
  rw [h2]
  refine and_congr_right fun _ => ?_
  obtain ⟨ino, rl, type, name⟩ := s
  simp only at h4 h5
  unfold dotAt dot dotdot
  rw [h4]
  match name, h5 with
  | [], _ => simp
  | [a], h5 =>
    simp [nameAt] at h5
    simp [h5]
  | [a, c], h5 =>
    simp [nameAt, List.range_succ] at h5
    simp [h5]
  | _ :: _ :: _ :: _, _ => simp

theorem emptyIn_iff (h : Entries b l) : emptyIn b = true ↔ ∀ s ∈ l, ¬ s.Counts := by
  unfold emptyIn
  rw [deLoop_eq h]
  unfold Entries at h
  generalize 0 = o at h ⊢
  induction l generalizing o with
  | nil => exact iff_of_true rfl nofun
  | cons s l ih =>
    obtain ⟨hs, hl⟩ := h
    rw [along, emptyBody]
    by_cases hc : s.Counts
    · rw [if_pos (hs.counts_iff.mpr hc)]
      exact iff_of_false (by simp) fun hall => hall s (List.mem_cons_self ..) hc
    · rw [if_neg fun hh => hc (hs.counts_iff.mp hh), if_neg (by simp), List.forall_mem_cons,
        and_iff_right hc]
      exact ih _ hl

/-- `fn` given one item after the other, until it says stop. -/
def report (fn : σ → List UInt8 → ℕ → ℕ → σ × Bool) : List (List UInt8 × ℕ × ℕ) → σ → σ × Bool
  | [], a => (a, false)
  | x :: l, a =>
    if (fn a x.1 x.2.1 x.2.2).2 then ((fn a x.1 x.2.1 x.2.2).1, true)
    else report fn l (fn a x.1 x.2.1 x.2.2).1

/-- What `ext4_readdir` has to report of some entries. -/
def shown (l : List Ent) : List (List UInt8 × ℕ × ℕ) :=
  (l.filter fun s => s.Counts).map fun s => (s.name, s.ino, s.type)

theorem readIn_eq {fn : σ → List UInt8 → ℕ → ℕ → σ × Bool} {a : σ} (h : Entries b l) :
    readIn fn b a = report fn (shown l) a := by
  unfold readIn
  rw [deLoop_eq h]
  unfold Entries at h
  generalize 0 = o at h ⊢
  induction l generalizing o a with
  | nil => rfl
  | cons s l ih =>
    obtain ⟨hs, hl⟩ := h
    obtain ⟨-, h2, h3, h4, h5, -⟩ := deAt_iff.mp hs
    unfold shown at ih ⊢
    rw [along, readBody]
    by_cases hc : s.Counts
    · rw [if_pos (hs.counts_iff.mpr hc), List.filter_cons_of_pos (by simpa using hc), List.map_cons,
        report, h2, h3, h4, h5, ih _ hl]
    · rw [if_neg fun hh => hc (hs.counts_iff.mp hh), List.filter_cons_of_neg (by simpa using hc),
        if_neg (by simp), ih _ hl]

/-! ## What a change does to the entries -/

/-- The new entry in the room of `s`. -/
def Ent.putBeside (s : Ent) (ino : ℕ) (name : List UInt8) (type : ℕ) : List Ent :=
  if s.ino ≠ 0 then [{ s with rl := s.used }, ⟨ino, s.rl - s.used, type, name⟩]
  else [⟨ino, s.rl, type, name⟩]

/-- The entries after `dir_remove` took out the one between `l₁` and `l₂`. -/
def takenOut (l₁ : List Ent) (s : Ent) (l₂ : List Ent) : List Ent :=
  match l₁.getLast? with
  | some t => l₁.dropLast ++ { t with rl := t.rl + s.rl } :: l₂
  | none => { s with ino := 0 } :: l₂

theorem Entries.at (h : Entries b (l₁ ++ s :: l₂)) : DeAt b (span Ent.rl l₁) s := by
  have := (tiled_cons_append.mp h).2.1
  rwa [Nat.zero_add] at this

/-- `dir_add` puts the new entry where there is room. -/
theorem entries_putIn (h : Entries b (l₁ ++ s :: l₂)) (hroom : deLen name.length ≤ s.rl - s.used)
    (hold : s.ino ≠ 0 → s.name ≠ []) (hpos : name ≠ []) (hino : ino < 2 ^ 32)
    (hname : name.length ≤ 255) (htype : type < 256) :
    Entries (putIn b (span Ent.rl l₁) ino name type) (l₁ ++ s.putBeside ino name type ++ l₂) := by
  have hs := h.at
  obtain ⟨h1, h2, h3, h4, h5, h6, h7, h8, h9⟩ := deAt_iff.mp hs
  have hneed := deLen_spec name.length
  have hlen := le_deLen (List.length_pos_iff.mpr hpos)
  have hmod := deLen_spec s.name.length
  have h' : Tiled (DeAt b) Ent.rl 0 (l₁ ++ [s] ++ l₂) bs := by
    rw [List.append_assoc]
    exact h
  refine h'.splice ?_ fun o' t hout hle ht => ?_
  · unfold putIn
    rw [Nat.zero_add, hs.used_eq, h1, span_cons, span_nil, Nat.add_zero]
    unfold Ent.putBeside
    generalize span Ent.rl l₁ = off at *
    by_cases hlive : s.ino ≠ 0
    · -- the slack of a live entry
      have hused : s.used = deLen s.name.length := if_pos hlive
      have hmin := le_deLen (List.length_pos_iff.mpr (hold hlive))
      simp only [if_pos hlive]
      rw [if_pos (by omega)]
      refine ⟨?_, ?_, ?_⟩
      · have hcut := hs.setRl (by omega) (by omega) (by omega) hused.ge
        refine hcut.congr fun i hi1 hi2 => ?_
        exact (putDe_apart (by omega) (.inl hi2)).symm
      · exact deAt_putDe hino hname htype (by omega) (by omega) (by omega) (by omega)
      · simp only [Tiled]
        omega
    · -- the place of an empty one
      have hused : s.used = 0 := if_neg hlive
      simp only [if_neg hlive]
      rw [if_neg (by omega)]
      exact ⟨deAt_putDe hino hname htype h6 h7 h8 (by omega), rfl⟩
  · refine ht.congr fun i hi1 hi2 => ?_
    rw [Nat.zero_add, span_cons, span_nil, Nat.add_zero] at hout
    unfold putIn
    rw [hs.used_eq, h1]
    split_ifs with hused
    · rw [putDe_apart (by omega) (by omega), p16_apart (by omega)]
    · rw [putDe_apart (by omega) (by omega)]

/-- `dir_remove` takes out an entry that `dir_find` found. -/
theorem entries_takeOut (h : Entries b (l₁ ++ s :: l₂)) :
    Entries (takeOut b (span Ent.rl l₁) (prevOf none 0 l₁)) (takenOut l₁ s l₂) := by
  have hs := h.at
  have hrl := (deAt_iff.mp hs).rl
  rcases List.eq_nil_or_concat l₁ with rfl | ⟨l₀, t, rfl⟩
  · -- the block's first entry
    have h' : Tiled (DeAt b) Ent.rl 0 ([] ++ [s] ++ l₂) bs := h
    change Tiled _ Ent.rl 0 ([] ++ [{ s with ino := 0 }] ++ l₂) bs
    refine h'.splice ?_ fun o' u hout _ hu => ?_
    · simp only [span_nil, span_cons, Nat.zero_add, Nat.add_zero]
      exact ⟨hs.clear, Nat.zero_add _⟩
    simp only [span_nil, span_cons, Nat.zero_add, Nat.add_zero] at hout
    have hmin := (deAt_iff.mp hs).min
    refine hu.congr fun i hi1 hi2 => (p32_apart ?_).symm
    simp only [span_nil]
    omega
  · -- the one before it takes its room
    rw [List.concat_eq_append] at *
    have hprev : prevOf none 0 (l₀ ++ [t]) = some (span Ent.rl l₀) := by simp [prevOf]
    have h₀ : Entries b (l₀ ++ t :: s :: l₂) := by simpa using h
    have ht := h₀.at
    obtain ⟨h1, -, -, -, -, h6, h7, h8, h9⟩ := deAt_iff.mp ht
    obtain ⟨-, -, -, -, -, h6', h7', h8', -⟩ := deAt_iff.mp hs
    simp only [span_append, span_cons, span_nil, Nat.add_zero] at hrl h8'
    have h' : Tiled (DeAt b) Ent.rl 0 (l₀ ++ [t, s] ++ l₂) bs := by
      rw [List.append_assoc]
      exact h₀
    have hgoal : takenOut (l₀ ++ [t]) s l₂ = l₀ ++ [{ t with rl := t.rl + s.rl }] ++ l₂ := by
      simp [takenOut]
    rw [hprev, hgoal]
    unfold takeOut
    simp only [span_append, span_cons, span_nil, Nat.add_zero]
    rw [h1, hrl]
    refine h'.splice ?_ fun o' u hout _ hu => ?_
    · simp only [span_cons, span_nil, Nat.zero_add, Nat.add_zero]
      exact ⟨ht.setRl (by omega) (by omega) (by omega) (by omega), rfl⟩
    · simp only [span_cons, span_nil, Nat.zero_add, Nat.add_zero] at hout
      exact hu.congr fun i hi1 hi2 => (p16_apart (by omega)).symm

/-! ## What the entries say -/

@[simp] theorem items_append : items (l₁ ++ l₂) = items l₁ ++ items l₂ := by simp [items]

theorem items_cons : items (s :: l) = if s.ino ≠ 0 then (s.name, s.ino, s.type) :: items l else items l := by
  unfold items
  by_cases h : s.ino ≠ 0
  · rw [List.filter_cons_of_pos (by simpa using h), if_pos h, List.map_cons]
  · rw [List.filter_cons_of_neg (by simpa using h), if_neg h]

theorem mem_items {x : List UInt8 × ℕ × ℕ} :
    x ∈ items l ↔ ∃ s ∈ l, s.ino ≠ 0 ∧ (s.name, s.ino, s.type) = x := by
  simp [items, and_assoc]

theorem items_putBeside (hino : ino ≠ 0) :
    (items (l₁ ++ s.putBeside ino name type ++ l₂)).Perm
      ((name, ino, type) :: items (l₁ ++ s :: l₂)) := by
  have hput : items (s.putBeside ino name type) = items [s] ++ [(name, ino, type)] := by
    unfold Ent.putBeside
    by_cases h : s.ino ≠ 0
    · rw [if_pos h]
      simp [items, h, hino]
    · rw [if_neg h]
      simp [items, h, hino]
  calc items (l₁ ++ s.putBeside ino name type ++ l₂)
      = (items l₁ ++ items [s]) ++ (name, ino, type) :: items l₂ := by simp [hput]
    List.Perm _ ((name, ino, type) :: ((items l₁ ++ items [s]) ++ items l₂)) := List.perm_middle
    _ = (name, ino, type) :: items (l₁ ++ s :: l₂) := by
      rw [← items_append, ← items_append, List.append_assoc, List.singleton_append]

theorem items_takenOut (h : s.ino ≠ 0) :
    (items (l₁ ++ s :: l₂)).Perm ((s.name, s.ino, s.type) :: items (takenOut l₁ s l₂)) := by
  rcases List.eq_nil_or_concat l₁ with rfl | ⟨l₀, t, rfl⟩
  · simp [takenOut, items_cons, h]
  · rw [List.concat_eq_append]
    have hput : items (takenOut (l₀ ++ [t]) s l₂) = items (l₀ ++ [t]) ++ items l₂ := by
      simp only [takenOut, List.getLast?_concat, List.dropLast_concat, items_append, items_cons]
      split_ifs <;> simp [items]
    rw [hput, items_append, items_cons, if_pos h]
    exact List.perm_middle

end BananaOS.Ext4
