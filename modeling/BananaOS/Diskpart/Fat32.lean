import BananaOS.Diskpart.Exfat
import BananaOS.Lib.Words
import Mathlib.Tactic.Ring

/-!
# Making a FAT32 volume

`mkfs_fat32` of `diskpart.c`: the length of a FAT from the number of sectors, by a rounding division,
and where the two FATs and the clusters then lie.  The arithmetic is on words of 32 bits which remember
whether they wrapped (`Lib.Word`), so a layout says of itself whether a step of it did.

With a FAT of `(s - 32) / (128 m + 1)` sectors, rounded up, for clusters of `m` sectors there is an
entry for each cluster and two more (`room`).  The rounding wraps for the largest sizes, and the FATs are then empty.
-/

namespace BananaOS.Diskpart.Fat32

open BananaOS.Lib

/-- `rsvd` -/
def rsvd : Word 32 := 32

/-- `nfats` -/
def nfats : Word 32 := 2

/-- `spc` -/
def spc (sectors : ℕ) : ℕ :=
  if sectors * sec ≤ 260 * 2 ^ 20 then 1
  else if sectors * sec ≤ 8 * 2 ^ 30 then 8
  else if sectors * sec ≤ 16 * 2 ^ 30 then 16
  else if sectors * sec ≤ 32 * 2 ^ 30 then 32
  else 64

/-- A number of sectors, as it comes in. -/
def count (n : UInt32) : Word 32 := ⟨n.toNat, true, n.toNat_lt⟩

/-- `spc`, `fatsz` and `clusters` -/
structure Layout where
  spc : Word 32
  fatsz : Word 32
  clusters : Word 32
  deriving DecidableEq

def layout (sectors : UInt32) : Layout :=
  let spc := Word.ofNat 32 (spc sectors.toNat)
  let t1 := count sectors - rsvd
  let t2 := (256 * spc + nfats) / 2
  let fatsz := (t1 + t2 - 1) / t2
  ⟨spc, fatsz, (count sectors - rsvd - nfats * fatsz) / spc⟩

namespace Layout

variable (l : Layout) (base : UInt32)

/-- `at`: where the FAT `f` begins -/
def fatAt (f : Word 32) : Word 32 := count base + rsvd + f * l.fatsz

/-- `root`: where the clusters begin -/
def rootAt : Word 32 := count base + rsvd + nfats * l.fatsz

/-- What the code computes on the way. -/
def words : List (Word 32) :=
  [l.fatsz, l.clusters, l.clusters - 1, count base + 6, count base + 1, count base + 7,
    l.fatAt base 0, l.fatAt base 1, l.rootAt base]

end Layout

/-- "BANANAOS" -/
def oemName : ℕ := 0x534F414E414E4142

/-- "FAT32   " -/
def fatName : ℕ := 0x2020203233544146

/-- "NO NAME" -/
def noName : List UInt8 := [78, 79, 32, 78, 65, 77, 69]

/-- `vl`: eleven capital letters, with blanks after them -/
def volLabel (label : List UInt8) : List UInt8 :=
  let l := if label = [] then noName else label
  ((l.take 11).map fun c => if 97 ≤ c ∧ c ≤ 122 then c - 32 else c) ++ List.replicate (11 - l.length) 32

/-- The letters of the volume's name, from the byte `o` on. -/
def letters (label : List UInt8) (o : ℕ) : List (ℕ × ℕ × ℕ) :=
  (volLabel label).zipIdx.map fun c => (o + c.2, 1, c.1.toNat)

/-- The fields of the boot sector but its names. -/
def bootNumbers (base sectors : UInt32) (serial : ℕ) (l : Layout) : List (ℕ × ℕ × ℕ) :=
  [(0, 1, 0xEB), (1, 1, 0x58), (2, 1, 0x90), (3, 8, oemName), (11, 2, sec), (13, 1, l.spc.val),
    (14, 2, rsvd.val), (16, 1, nfats.val), (21, 1, 0xF8), (24, 2, 63), (26, 2, 255),
    (28, 4, base.toNat), (32, 4, sectors.toNat), (36, 4, l.fatsz.val), (44, 4, 2), (48, 2, 1),
    (50, 2, 6), (64, 1, 0x80), (66, 1, 0x29), (67, 4, serial)]

/-- The fields of the boot sector. -/
def bootFields (base sectors : UInt32) (serial : ℕ) (label : List UInt8) (l : Layout) :
    List (ℕ × ℕ × ℕ) :=
  bootNumbers base sectors serial l ++ letters label 71 ++
    [(82, 8, fatName), (510, 1, 0x55), (511, 1, 0xAA)]

/-- The fields of the FSInfo sector. -/
def infoFields (l : Layout) : List (ℕ × ℕ × ℕ) :=
  [(0, 4, 0x41615252), (484, 4, 0x61417272), (488, 4, (l.clusters - 1).val), (492, 4, 3),
    (508, 4, 0xAA550000)]

/-- The entries of clusters 0, 1 and the root's. -/
def fatFields : List (ℕ × ℕ × ℕ) := [(0, 4, 0x0FFFFFF8), (4, 4, 0x0FFFFFFF), (8, 4, 0x0FFFFFFF)]

/-- Sectors that are written. -/
structure Write where
  lba : Word 32
  n : ℕ
  data : ℕ → UInt8

/-- Sectors of the fields `fs`, and of zeros. -/
def Write.fields (lba : Word 32) (fs : List (ℕ × ℕ × ℕ)) : Write := ⟨lba, 1, putFields (fun _ => 0) fs⟩
def Write.zero (lba : Word 32) (n : ℕ) : Write := ⟨lba, n, fun _ => 0⟩

/-- What is written, in the order of the code. -/
def writes (base sectors : UInt32) (serial : ℕ) (label : List UInt8) (l : Layout) : List Write :=
  [.zero (count base) rsvd.val, .fields (count base) (bootFields base sectors serial label l),
    .fields (count base + 6) (bootFields base sectors serial label l),
    .fields (count base + 1) (infoFields l), .fields (count base + 7) (infoFields l),
    .zero (l.fatAt base 0) l.fatsz.val, .fields (l.fatAt base 0) fatFields,
    .zero (l.fatAt base 1) l.fatsz.val, .fields (l.fatAt base 1) fatFields,
    .zero (l.rootAt base) l.spc.val] ++
  if label = [] then [] else [.fields (l.rootAt base) (letters label 0 ++ [(11, 1, 0x08)])]

/-- `mkfs_fat32`.  `mem` says whether there is memory for a sector, and `drive` which writes the drive
makes; after the first it refuses there are no more. -/
def mkfsFat32 (mem : Bool) (drive : Write → Bool) (base sectors : UInt32) (serial : ℕ)
    (label : List UInt8) : Except String (Layout × List Write) :=
  if sectors.toNat * sec < 33 * 2 ^ 20 then .error "FAT32 needs 33 MB at least: use exFAT"
  else
    let l := layout sectors
    if l.clusters.val < 65525 then .error "too small for FAT32 clusters: use exFAT"
    else if !mem then .error "out of memory"
    else
      let ws := writes base sectors serial label l
      if ws.all drive then .ok (l, ws) else .error "the disk refused the write"

/-! ## What is asked of a layout -/

/-- Each FAT has an entry for each cluster and two more; the reserved sectors, the FATs and the clusters
follow one another and end inside the volume; nothing wrapped. -/
structure Sound (base sectors : UInt32) (l : Layout) : Prop where
  room : l.clusters.val + 2 ≤ l.fatsz.val * sec / 4
  first : (l.fatAt base 0).val = base.toNat + rsvd.val
  second : (l.fatAt base 1).val = (l.fatAt base 0).val + l.fatsz.val
  after : (l.rootAt base).val = (l.fatAt base 1).val + l.fatsz.val
  inside : (l.rootAt base).val + l.clusters.val * l.spc.val ≤ base.toNat + sectors.toNat
  kept : ∀ x ∈ l.words base, x.kept = true

/-! ## The arithmetic -/

variable {s m : ℕ}

/-- The sizes of clusters, with what the number of sectors is there. -/
theorem spc_cases (s : ℕ) : spc s = 1 ∨ spc s = 8 ∧ 532480 < s ∨ spc s = 16 ∧ 16777216 < s ∨
    spc s = 32 ∧ 33554432 < s ∨ spc s = 64 ∧ 67108864 < s := by
  unfold spc sec
  split_ifs
  · exact .inl rfl
  · exact .inr (.inl ⟨rfl, by omega⟩)
  · exact .inr (.inr (.inl ⟨rfl, by omega⟩))
  · exact .inr (.inr (.inr (.inl ⟨rfl, by omega⟩)))
  · exact .inr (.inr (.inr (.inr ⟨rfl, by omega⟩)))

theorem spc_pos (s : ℕ) : 0 < spc s := by
  have := spc_cases s
  omega

theorem spc_le (s : ℕ) : spc s ≤ 64 := by
  have := spc_cases s
  omega

theorem spc_top (hs : 67108864 < s) : spc s = 64 := by
  unfold spc sec
  split_ifs <;> first | rfl | omega

theorem spc_small (hs : 67584 ≤ s) : 2 * spc s * (128 * spc s + 1) ≤ s - 32 := by
  obtain h | ⟨h, hlt⟩ | ⟨h, hlt⟩ | ⟨h, hlt⟩ | ⟨h, hlt⟩ := spc_cases s <;> rw [h] <;> omega

/-- The length of a FAT of a volume with `t` sectors behind the reserved ones. -/
def fatFor (m t : ℕ) : ℕ := (t + (128 * m + 1) - 1) / (128 * m + 1)

theorem le_fatFor (m t : ℕ) : t ≤ (128 * m + 1) * fatFor m t := by
  have hdiv := Nat.div_add_mod (t + (128 * m + 1) - 1) (128 * m + 1)
  have hmod := Nat.mod_lt (t + (128 * m + 1) - 1) (show 0 < 128 * m + 1 by omega)
  unfold fatFor
  omega

theorem fatFor_le (m t : ℕ) : (128 * m + 1) * fatFor m t ≤ t + 128 * m :=
  Nat.mul_div_le ..

/-- A FAT of that length has an entry for each cluster that then fits, and two more. -/
theorem room {t : ℕ} (hm : 0 < m) (hbig : 2 * m * (128 * m + 1) ≤ t) :
    (t - 2 * fatFor m t) / m + 2 ≤ 128 * fatFor m t := by
  have hle := le_fatFor m t
  have hf : 2 * m ≤ fatFor m t := by
    refine Nat.le_of_mul_le_mul_left ?_ (Nat.succ_pos (128 * m))
    calc (128 * m + 1) * (2 * m) = 2 * m * (128 * m + 1) := Nat.mul_comm ..
      _ ≤ t := hbig
      _ ≤ (128 * m + 1) * fatFor m t := hle
  have hdiv : (t - 2 * fatFor m t) / m ≤ m * (128 * fatFor m t - 2) / m := by
    refine Nat.div_le_div_right ?_
    have hsplit : (128 * m + 1) * fatFor m t = m * (128 * fatFor m t) + fatFor m t := by ring
    rw [Nat.mul_sub]
    omega
  rw [Nat.mul_div_cancel_left _ hm] at hdiv
  omega

theorem fatFor_fits {t : ℕ} (hm : 0 < m) (hbig : 2 * m * (128 * m + 1) ≤ t) :
    2 * fatFor m t ≤ t := by
  have hle := fatFor_le m t
  have hone : 128 * m + 1 ≤ t := (Nat.le_mul_of_pos_left _ (by omega)).trans hbig
  have h129 : 129 * fatFor m t ≤ (128 * m + 1) * fatFor m t := Nat.mul_le_mul_right _ (by omega)
  omega

/-! ## The layout -/

variable {sectors base : UInt32}

@[simp] theorem val_count : (count base).val = base.toNat := rfl

theorem layout_spc : (layout sectors).spc.val = spc sectors.toNat ∧ (layout sectors).spc.kept = true :=
  have hlt : spc sectors.toNat < 2 ^ 32 := (spc_le _).trans_lt (by decide)
  ⟨Word.val_ofNat hlt, Word.kept_ofNat.mpr hlt⟩

theorem behind (sectors : UInt32) (hs : 32 ≤ sectors.toNat) :
    (count sectors - rsvd).val = sectors.toNat - 32 ∧ (count sectors - rsvd).kept = true :=
  ⟨Word.val_sub (b := rsvd) hs, Word.kept_sub.mpr ⟨⟨rfl, rfl⟩, hs⟩⟩

/-- `t2` -/
theorem perFat (sectors : UInt32) :
    ((256 * (layout sectors).spc + nfats) / 2).val = 128 * spc sectors.toNat + 1 ∧
      ((256 * (layout sectors).spc + nfats) / 2).kept = true := by
  obtain ⟨hval, hkept⟩ := @layout_spc sectors
  have hle := spc_le sectors.toNat
  have hmul : (256 : Word 32).val * (layout sectors).spc.val < 2 ^ 32 := by
    rw [hval, show (256 : Word 32).val = 256 from rfl]
    omega
  have hprod : (256 * (layout sectors).spc).val = 256 * spc sectors.toNat := by
    rw [Word.val_mul hmul, hval]
    rfl
  have hadd : (256 * (layout sectors).spc).val + nfats.val < 2 ^ 32 := by
    rw [hprod, show nfats.val = 2 from rfl]
    omega
  refine ⟨?_, ?_⟩
  · rw [Word.val_div, Word.val_add hadd, hprod, show nfats.val = 2 from rfl,
      show (2 : Word 32).val = 2 from rfl]
    omega
  · exact Word.kept_div.mpr ⟨Word.kept_add.mpr ⟨⟨Word.kept_mul.mpr ⟨⟨rfl, hkept⟩, hmul⟩, rfl⟩, hadd⟩, rfl⟩

/-- `fatsz`, where the rounding does not wrap. -/
theorem layout_fatsz (sectors : UInt32) (hs : 32 ≤ sectors.toNat)
    (hlt : sectors.toNat - 32 + (128 * spc sectors.toNat + 1) < 2 ^ 32) :
    (layout sectors).fatsz.val = fatFor (spc sectors.toNat) (sectors.toNat - 32) ∧
      (layout sectors).fatsz.kept = true := by
  obtain ⟨h1, k1⟩ := behind sectors hs
  obtain ⟨h2, k2⟩ := perFat sectors
  have hadd : (count sectors - rsvd).val + ((256 * (layout sectors).spc + nfats) / 2).val < 2 ^ 32 := by
    rw [h1, h2]
    exact hlt
  have hone : (1 : Word 32).val ≤
      (count sectors - rsvd + (256 * (layout sectors).spc + nfats) / 2).val := by
    rw [Word.val_add hadd, h1, h2, show (1 : Word 32).val = 1 from rfl]
    omega
  refine ⟨?_, ?_⟩
  · change (((count sectors - rsvd) + (256 * (layout sectors).spc + nfats) / 2 - 1) /
      ((256 * (layout sectors).spc + nfats) / 2)).val = _
    rw [Word.val_div, Word.val_sub hone, Word.val_add hadd, h1, h2]
    rfl
  · exact Word.kept_div.mpr ⟨Word.kept_sub.mpr ⟨⟨Word.kept_add.mpr ⟨⟨k1, k2⟩, hadd⟩, rfl⟩, hone⟩, k2⟩

theorem layout_wraps (h : 2 ^ 32 ≤ sectors.toNat + 8161) : (layout sectors).fatsz.kept = false := by
  obtain ⟨h1, -⟩ := behind sectors (by omega)
  obtain ⟨h2, -⟩ := perFat sectors
  rw [spc_top (by omega)] at h2
  rw [Bool.eq_false_iff]
  intro hk
  have hsub : (count sectors - rsvd + (256 * (layout sectors).spc + nfats) / 2 - 1).kept = true :=
    (Word.kept_div.mp hk).1
  have hadd := (Word.kept_add.mp (Word.kept_sub.mp hsub).1.1).2
  rw [h1, h2] at hadd
  omega

/-- Two FATs, and the clusters behind them. -/
theorem layout_clusters (hs : 67584 ≤ sectors.toNat) (hlt : sectors.toNat + 8161 < 2 ^ 32) :
    (nfats * (layout sectors).fatsz).val = 2 * fatFor (spc sectors.toNat) (sectors.toNat - 32) ∧
      (nfats * (layout sectors).fatsz).kept = true ∧
      (layout sectors).clusters.val =
        (sectors.toNat - 32 - 2 * fatFor (spc sectors.toNat) (sectors.toNat - 32)) /
          spc sectors.toNat ∧
      (layout sectors).clusters.kept = true := by
  have hle := spc_le sectors.toNat
  obtain ⟨hf, kf⟩ := layout_fatsz sectors (by omega) (by omega)
  obtain ⟨h1, k1⟩ := behind sectors (by omega)
  obtain ⟨hm, km⟩ := @layout_spc sectors
  have hfit := fatFor_fits (spc_pos sectors.toNat) (spc_small hs)
  have hmul : nfats.val * (layout sectors).fatsz.val < 2 ^ 32 := by
    rw [hf, show nfats.val = 2 from rfl]
    omega
  have h2 : (nfats * (layout sectors).fatsz).val =
      2 * fatFor (spc sectors.toNat) (sectors.toNat - 32) := by
    rw [Word.val_mul hmul, hf]
    rfl
  have hk2 : (nfats * (layout sectors).fatsz).kept = true := Word.kept_mul.mpr ⟨⟨rfl, kf⟩, hmul⟩
  have hsub : (nfats * (layout sectors).fatsz).val ≤ (count sectors - rsvd).val := by
    rw [h1, h2]
    exact hfit
  refine ⟨h2, hk2, ?_, Word.kept_div.mpr ⟨Word.kept_sub.mpr ⟨⟨k1, hk2⟩, hsub⟩, km⟩⟩
  change ((count sectors - rsvd - nfats * (layout sectors).fatsz) / (layout sectors).spc).val = _
  rw [Word.val_div, Word.val_sub hsub, h1, h2, hm]

/-! ## Places -/

variable {l : Layout} {f : Word 32}

/-- Where the FAT `f` begins; the clusters begin where a third one would. -/
theorem fatAt_exact (hf : f.kept = true) (hl : l.fatsz.kept = true)
    (h : base.toNat + 32 + f.val * l.fatsz.val < 2 ^ 32) :
    (l.fatAt base f).val = base.toNat + 32 + f.val * l.fatsz.val ∧ (l.fatAt base f).kept = true := by
  have h32 : (count base).val + rsvd.val < 2 ^ 32 := by
    rw [val_count, show rsvd.val = 32 from rfl]
    omega
  have hmul : f.val * l.fatsz.val < 2 ^ 32 := by omega
  have hbase : (count base + rsvd).val = base.toNat + 32 := Word.val_add h32
  have hadd : (count base + rsvd).val + (f * l.fatsz).val < 2 ^ 32 := by
    rw [hbase, Word.val_mul hmul]
    exact h
  refine ⟨?_, ?_⟩
  · unfold Layout.fatAt
    rw [Word.val_add hadd, hbase, Word.val_mul hmul]
  · exact Word.kept_add.mpr
      ⟨⟨Word.kept_add.mpr ⟨⟨rfl, rfl⟩, h32⟩, Word.kept_mul.mpr ⟨⟨hf, hl⟩, hmul⟩⟩, hadd⟩

theorem rootAt_eq (l : Layout) (base : UInt32) : l.rootAt base = l.fatAt base nfats := rfl

theorem lt_of_rootAt_kept (h : (l.rootAt base).kept = true) :
    base.toNat + 32 + 2 * l.fatsz.val < 2 ^ 32 := by
  obtain ⟨⟨hbase, hmul⟩, hadd⟩ := Word.kept_add.mp h
  rw [Word.val_add (Word.kept_add.mp hbase).2, Word.val_mul (Word.kept_mul.mp hmul).2] at hadd
  exact hadd

theorem kept_reserved {n : Word 32} (hn : n.kept = true) (hlt : n.val < 32)
    (h : base.toNat + 32 < 2 ^ 32) : (count base + n).kept = true := by
  refine Word.kept_add.mpr ⟨⟨rfl, hn⟩, ?_⟩
  rw [val_count]
  omega

/-! ## Which sizes there is a layout for -/

/-- The condition: the rounding does not wrap, and the clusters begin at a sector that has a number. -/
def Fits (base sectors : UInt32) : Prop :=
  sectors.toNat + 8161 < 2 ^ 32 ∧
    base.toNat + 32 + 2 * fatFor (spc sectors.toNat) (sectors.toNat - 32) < 2 ^ 32

theorem layout_sound (hs : 67584 ≤ sectors.toNat) (hc : 65525 ≤ (layout sectors).clusters.val)
    (h : Fits base sectors) : Sound base sectors (layout sectors) := by
  obtain ⟨hlt, hbase⟩ := h
  have hle := spc_le sectors.toNat
  have hpos := spc_pos sectors.toNat
  have hfit := fatFor_fits hpos (spc_small hs)
  obtain ⟨hf, kf⟩ := layout_fatsz sectors (by omega) (by omega)
  obtain ⟨-, -, hclus, kclus⟩ := layout_clusters hs hlt
  obtain ⟨hm, -⟩ := @layout_spc sectors
  have hat : ∀ f : Word 32, f.kept = true → f.val ≤ 2 →
      ((layout sectors).fatAt base f).val = base.toNat + 32 + f.val * (layout sectors).fatsz.val ∧
        ((layout sectors).fatAt base f).kept = true := fun f kf' hle2 => by
    refine fatAt_exact kf' kf ?_
    have := Nat.mul_le_mul_right (layout sectors).fatsz.val hle2
    rw [hf] at this ⊢
    omega
  obtain ⟨h0, k0⟩ := hat 0 rfl (by decide)
  obtain ⟨h1, k1⟩ := hat 1 rfl (by decide)
  obtain ⟨h2, k2⟩ := hat nfats rfl le_rfl
  rw [show (0 : Word 32).val = 0 from rfl] at h0
  rw [show (1 : Word 32).val = 1 from rfl] at h1
  rw [show nfats.val = 2 from rfl] at h2
  refine ⟨?_, ?_, ?_, ?_, ?_, ?_⟩
  · have hroom := room hpos (spc_small hs)
    rw [hclus, hf]
    unfold sec
    omega
  · rw [h0, show rsvd.val = 32 from rfl]
    omega
  · rw [h1, h0]
    omega
  · rw [rootAt_eq, h2, h1]
    omega
  · have hmul := Nat.div_mul_le_self
      (sectors.toNat - 32 - 2 * fatFor (spc sectors.toNat) (sectors.toNat - 32)) (spc sectors.toNat)
    rw [rootAt_eq, h2, hclus, hm, hf]
    omega
  · have hone : ((layout sectors).clusters - 1).kept = true :=
      Word.kept_sub.mpr ⟨⟨kclus, rfl⟩, Nat.le_trans (by decide) hc⟩
    have h32 : base.toNat + 32 < 2 ^ 32 := by omega
    simp only [Layout.words, List.forall_mem_cons]
    exact ⟨kf, kclus, hone, kept_reserved rfl (by decide) h32, kept_reserved rfl (by decide) h32,
      kept_reserved rfl (by decide) h32, k0, k1, k2, fun x hx => absurd hx List.not_mem_nil⟩

/-- What was accepted. -/
theorem mkfsFat32_ok {mem : Bool} {drive : Write → Bool} {serial : ℕ} {label : List UInt8}
    {ws : List Write} (h : mkfsFat32 mem drive base sectors serial label = .ok (l, ws)) :
    67584 ≤ sectors.toNat ∧ l = layout sectors ∧ 65525 ≤ l.clusters.val ∧
      ws = writes base sectors serial label l := by
  unfold mkfsFat32 at h
  split at h
  · cases h
  · rename_i hbig
    dsimp only at h
    split at h
    · cases h
    · rename_i hc
      split at h
      · cases h
      · split at h
        · cases h
          refine ⟨?_, rfl, Nat.le_of_not_lt hc, rfl⟩
          unfold sec at hbig
          omega
        · cases h

theorem mkfsFat32_accepts (base sectors : UInt32) (serial : ℕ) (label : List UInt8)
    (hs : ¬ sectors.toNat * sec < 33 * 2 ^ 20) (hc : ¬ (layout sectors).clusters.val < 65525) :
    mkfsFat32 true (fun _ => true) base sectors serial label =
      .ok (layout sectors, writes base sectors serial label (layout sectors)) := by
  unfold mkfsFat32
  rw [if_neg hs]
  dsimp only
  rw [if_neg hc, if_neg (by decide), if_pos (by simp)]

/-- **The layout of a volume that is accepted is sound exactly if the size and the place fit.** -/
theorem mkfsFat32_sound {mem : Bool} {drive : Write → Bool} {serial : ℕ} {label : List UInt8}
    {ws : List Write} (h : mkfsFat32 mem drive base sectors serial label = .ok (l, ws)) :
    Sound base sectors l ↔ Fits base sectors := by
  obtain ⟨hs, rfl, hc, -⟩ := mkfsFat32_ok h
  refine ⟨fun hsound => ?_, layout_sound hs hc⟩
  have hkept : ∀ x ∈ (layout sectors).words base, x.kept = true := hsound.kept
  have kf : (layout sectors).fatsz.kept = true := hkept _ (by simp [Layout.words])
  have hlt : sectors.toNat + 8161 < 2 ^ 32 := by
    by_contra hge
    rw [layout_wraps (Nat.le_of_not_lt hge)] at kf
    cases kf
  have hroot := lt_of_rootAt_kept (hkept ((layout sectors).rootAt base) (by simp [Layout.words]))
  have hle := spc_le sectors.toNat
  rw [(layout_fatsz sectors (by omega) (by omega)).1] at hroot
  exact ⟨hlt, hroot⟩

/-! ## What is written -/

/-- A volume of 64 MiB at 1 MiB. -/
theorem sound_sixtyFour : ∃ l ws, mkfsFat32 true (fun _ => true) 2048 131072 1 [] = .ok (l, ws) ∧
    Sound 2048 131072 l := by
  have h := mkfsFat32_accepts 2048 131072 1 [] (by decide) (by decide)
  exact ⟨_, _, h, (mkfsFat32_sound h).mpr ⟨by decide, by decide⟩⟩

/-- A disk of `2 ^ 32 - 1` sectors without a table, formatted as a whole. -/
theorem empty_fats : ∃ l ws,
    mkfsFat32 true (fun _ => true) 0 0xFFFFFFFF 1 [] = .ok (l, ws) ∧ l.fatsz.val = 0 ∧
      ¬ Sound 0 0xFFFFFFFF l := by
  refine ⟨_, _, mkfsFat32_accepts 0 0xFFFFFFFF 1 [] (by decide) (by decide), by decide, fun h => ?_⟩
  have hfat : (layout 0xFFFFFFFF).fatsz.kept = true := h.kept _ (by simp [Layout.words])
  revert hfat
  decide

end BananaOS.Diskpart.Fat32
