import BananaOS.Lib.Alternate
import BananaOS.Lib.Bytes

/-!
# Making an exFAT volume

`mkfs_exfat` of `diskpart.c`, and what `mount_at` of `exfat.c` asks of a volume.  The length of the FAT,
where the clusters begin and how many there are depend on one another; the code goes round four times.

More clusters make a longer FAT and so fewer clusters: a round is antitone (`fit_antitone`), and the
second round is off by one cluster at most (`fit_near`).  So after the third round it is at a fixed point
or swings between two numbers (`Lib.settle_or_swing`).  Where it swings it ends at the larger one with
the FAT of the smaller one, which lacks an entry.  For which sizes this is so is `Torn`.
-/

namespace BananaOS.Diskpart

open BananaOS.Lib

/-- A number of 32 bits. -/
def u32 (n : ℕ) : ℕ := n % 2 ^ 32

/-- A difference of 32 bits. -/
def sub32 (a b : ℕ) : ℕ := u32 (a + 2 ^ 32 - u32 b)

/-- `SEC` -/
def sec : ℕ := 512

/-- `fat_off` -/
def fatOff : ℕ := 128

/-- `spc_shift` -/
def spcShift (sectors : ℕ) : ℕ :=
  if sectors * sec ≤ 256 * 2 ^ 20 then 3 else if sectors * sec ≤ 32 * 2 ^ 30 then 6 else 8

/-- `spc` -/
def spc (sectors : ℕ) : ℕ := 2 ^ spcShift sectors

/-- `fat_len`, `heap` and `clusters` -/
structure Layout where
  fatLen : ℕ
  heap : ℕ
  clusters : ℕ
  deriving DecidableEq

/-- One round of the loop. -/
def Layout.round (sectors : ℕ) (l : Layout) : Layout :=
  let fatLen := u32 ((l.clusters + 2) * 4 + sec - 1) / sec
  let heap := u32 (fatOff + fatLen + spc sectors - 1) / spc sectors * spc sectors
  ⟨fatLen, heap, sub32 sectors heap / spc sectors⟩

/-- The loop. -/
def layout (sectors : ℕ) : Layout :=
  (Layout.round sectors)^[4] ⟨0, 0, sub32 sectors fatOff / spc sectors⟩

namespace Layout

variable (l : Layout)

/-- `bmp_bytes` -/
def bmpBytes : ℕ := u32 (l.clusters + 7) / 8

/-- `bmp_cl`, with clusters of `cbytes` bytes -/
def bmpCl (cbytes : ℕ) : ℕ := u32 (l.bmpBytes + cbytes - 1) / cbytes

/-- `c_up` -/
def cUp (cbytes : ℕ) : ℕ := 2 + l.bmpCl cbytes

/-- `c_root` -/
def cRoot (cbytes : ℕ) : ℕ := l.cUp cbytes + 1

/-- `used` -/
def used (cbytes : ℕ) : ℕ := l.bmpCl cbytes + 1 + 1

end Layout

/-- "EXFAT   " -/
def exfatName : ℕ := 0x2020205441465845

/-- The end of a chain. -/
def eoc : ℕ := 0xFFFFFFFF

/-- The fields of the boot sector. -/
def bootFields (base sectors serial : ℕ) (l : Layout) : List (ℕ × ℕ × ℕ) :=
  [(0, 1, 0xEB), (1, 1, 0x76), (2, 1, 0x90), (3, 8, exfatName), (64, 8, base), (72, 8, sectors),
    (80, 4, fatOff), (84, 4, l.fatLen), (88, 4, l.heap), (92, 4, l.clusters),
    (96, 4, l.cRoot (spc sectors * sec)), (100, 4, serial), (104, 2, 0x0100), (108, 1, 9),
    (109, 1, spcShift sectors), (110, 1, 1), (111, 1, 0x80), (112, 1, 0), (510, 1, 0x55), (511, 1, 0xAA)]

/-- Entry `c` of the FAT; what is not written was zeroed. -/
def fatEntry (l : Layout) (cbytes c : ℕ) : ℕ :=
  if 2 + l.used cbytes ≤ c then 0
  else if c = 0 then 0xFFFFFFF8
  else if c = 1 then 0xFFFFFFFF
  else if c < l.cUp cbytes then (if c + 1 < l.cUp cbytes then c + 1 else 0xFFFFFFFF)
  else 0xFFFFFFFF

/-- The fields of the root folder but the letters of the volume's name: its length, the bitmap and the
up-case table.  `upSum` and `upBytes` are of the up-case table. -/
def rootEntries (label : List UInt8) (upSum upBytes : ℕ) (l : Layout) (cbytes : ℕ) : List (ℕ × ℕ × ℕ) :=
  [(0, 1, 0x83), (1, 1, (label.take 11).length), (32, 1, 0x81), (52, 4, 2), (56, 8, l.bmpBytes),
    (64, 1, 0x82), (68, 4, upSum), (84, 4, l.cUp cbytes), (88, 8, upBytes)]

/-- The fields of the root folder. -/
def rootFields (label : List UInt8) (upSum upBytes : ℕ) (l : Layout) (cbytes : ℕ) : List (ℕ × ℕ × ℕ) :=
  ((label.take 11).zipIdx.map fun c => (2 + c.2 * 2, 2, c.1.toNat)) ++
    rootEntries label upSum upBytes l cbytes

/-- What is on the disk afterwards: the boot sector, the entries of the FAT and the root folder. -/
structure Volume where
  boot : ℕ → UInt8
  fat : ℕ → ℕ
  root : ℕ → UInt8

/-- `mkfs_exfat`: the layout and what it writes, if it accepts the size. -/
def mkfsExfat (base sectors serial : ℕ) (label : List UInt8) (upSum upBytes : ℕ) : Option (Layout × Volume) :=
  if sectors * sec < 2 * 2 ^ 20 then none
  else
    let l := layout sectors
    if l.clusters < 16 then none
    else some (l,
      { boot := putFields (fun _ => 0) (bootFields base sectors serial l)
        fat := fatEntry l (spc sectors * sec)
        root := putFields (fun _ => 0) (rootFields label upSum upBytes l (spc sectors * sec)) })

/-! ## Mounting -/

/-- `valid_clus` -/
def validClus (n c : ℕ) : Prop := 2 ≤ c ∧ c ≤ n + 1

instance (n c : ℕ) : Decidable (validClus n c) := inferInstanceAs (Decidable (_ ∧ _))

/-- `next_clus` along the FAT -/
def nextClus (n : ℕ) (fat : ℕ → ℕ) (c : ℕ) : ℕ := if validClus n (fat c) then fat c else eoc

/-- The clusters of the root folder are counted, 65536 at most. -/
def chainLen (n : ℕ) (fat : ℕ → ℕ) : ℕ → ℕ → ℕ
  | 0, _ => 0
  | fuel + 1, c => if validClus n c then chainLen n fat fuel (nextClus n fat c) + 1 else 0

/-- The first bitmap in the root folder: its first cluster and its size. -/
def findBitmap (d : ℕ → UInt8) : ℕ → ℕ → Option (ℕ × ℕ)
  | 0, _ => none
  | fuel + 1, p =>
    if d p = 0 then none
    else if d p = 0x81 ∧ (d (p + 1)).toNat % 2 = 0 then some (getLE d (p + 20) 4, getLE d (p + 24) 8)
    else findBitmap d fuel (p + 32)

/-- What `load_bitmap` asks. -/
structure BitmapLoads (n clusBytes : ℕ) (fat : ℕ → ℕ) (first size : ℕ) : Prop where
  start : validClus n first
  covers : (n + 7) / 8 ≤ size
  small : size ≤ 64 * 2 ^ 20
  chain : ∀ k < (size + clusBytes - 1) / clusBytes, validClus n ((nextClus n fat)^[k] first)

/-- What `mount_at` asks of a volume at `base` of a drive with `disk` sectors. -/
structure Mounts (disk base : ℕ) (v : Volume) : Prop where
  name : getLE v.boot 3 8 = exfatName
  signature : v.boot 510 = 0x55 ∧ v.boot 511 = 0xAA
  bps : 9 ≤ getLE v.boot 108 1 ∧ getLE v.boot 108 1 ≤ 12
  spc : getLE v.boot 109 1 ≤ 25 - getLE v.boot 108 1
  clusters : getLE v.boot 92 4 ≠ 0
  root : validClus (getLE v.boot 92 4) (getLE v.boot 96 4)
  fats : getLE v.boot 110 1 = 1 ∨ getLE v.boot 110 1 = 2
  fat : u32 (getLE v.boot 92 4 + 2) ≤ getLE v.boot 84 4 * 2 ^ getLE v.boot 108 1 / 4
  drive : base + getLE v.boot 72 8 * (2 ^ getLE v.boot 108 1 / 512) ≤ disk + 1
  folder : 0 < chainLen (getLE v.boot 92 4) v.fat 65536 (getLE v.boot 96 4) ∧
    chainLen (getLE v.boot 92 4) v.fat 65536 (getLE v.boot 96 4) *
      2 ^ (getLE v.boot 108 1 + getLE v.boot 109 1) ≤ 64 * 2 ^ 20
  bitmap : ∃ first size,
    findBitmap v.root (chainLen (getLE v.boot 92 4) v.fat 65536 (getLE v.boot 96 4) *
      2 ^ (getLE v.boot 108 1 + getLE v.boot 109 1) / 32) 0 = some (first, size) ∧
    BitmapLoads (getLE v.boot 92 4) (2 ^ (getLE v.boot 108 1 + getLE v.boot 109 1)) v.fat first size

/-! ## Rounds -/

/-- The sectors that the FAT of so many clusters takes. -/
def fatFor (c : ℕ) : ℕ := ((c + 2) * 4 + sec - 1) / sec

/-- Where the clusters begin. -/
def heapFor (m c : ℕ) : ℕ := (fatOff + fatFor c + m - 1) / m * m

/-- The clusters that there is room for. -/
def fit (s m c : ℕ) : ℕ := (s - heapFor m c) / m

theorem fatFor_mono : Monotone fatFor := fun a b h => by
  unfold fatFor
  exact Nat.div_le_div_right (by omega)

theorem le_heapFor {m : ℕ} (hm : 0 < m) (c : ℕ) : fatOff + fatFor c ≤ heapFor m c := by
  have hdiv := Nat.div_add_mod (fatOff + fatFor c + m - 1) m
  have hmod := Nat.mod_lt (fatOff + fatFor c + m - 1) hm
  unfold heapFor
  rw [Nat.mul_comm]
  omega

theorem heapFor_mono (m : ℕ) : Monotone (heapFor m) := fun a b h => by
  have := fatFor_mono h
  unfold heapFor
  exact Nat.mul_le_mul_right _ (Nat.div_le_div_right (by omega))

theorem fit_antitone (s m : ℕ) : Antitone (fit s m) := fun _ _ h =>
  Nat.div_le_div_right (Nat.sub_le_sub_left (heapFor_mono m h) s)

theorem fit_le (s : ℕ) {m : ℕ} (hm : 0 < m) (c : ℕ) : fit s m c ≤ (s - fatOff) / m := by
  have := le_heapFor hm c
  exact Nat.div_le_div_right (by omega)

/-- The sizes of clusters there are, each with the volumes it is for. -/
theorem spc_cases {s : ℕ} (hs : s < 2 ^ 32) : (spc s = 8 ∧ s ≤ 524288) ∨
    (spc s = 64 ∧ 524288 < s ∧ s ≤ 67108864) ∨ (spc s = 256 ∧ 67108864 < s) := by
  unfold spc spcShift sec
  split
  · left
    omega
  · split
    · right
      left
      omega
    · right
      right
      omega

theorem fit_near {s : ℕ} (hs : s < 2 ^ 32) (hbig : 4096 ≤ s) :
    fit s (spc s) (fit s (spc s) ((s - fatOff) / spc s)) ≤ fit s (spc s) ((s - fatOff) / spc s) + 1 := by
  rcases spc_cases hs with ⟨hm, h1⟩ | ⟨hm, h1, h2⟩ | ⟨hm, h1⟩
  · rw [hm]
    unfold fit heapFor fatFor fatOff sec
    omega
  · rw [hm]
    unfold fit heapFor fatFor fatOff sec
    omega
  · rw [hm]
    unfold fit heapFor fatFor fatOff sec
    omega

theorem u32_eq {n : ℕ} (h : n < 2 ^ 32) : u32 n = n := Nat.mod_eq_of_lt h

theorem sub32_eq {a b : ℕ} (h : b ≤ a) (ha : a < 2 ^ 32) : sub32 a b = a - b := by
  unfold sub32
  rw [u32_eq (h.trans_lt ha)]
  unfold u32
  omega

/-- No sum of a round wraps. -/
theorem round_eq {s : ℕ} (hs : s < 2 ^ 32) (hbig : 4096 ≤ s) {l : Layout}
    (hl : l.clusters ≤ (s - fatOff) / spc s) :
    l.round s = ⟨fatFor l.clusters, heapFor (spc s) l.clusters, fit s (spc s) l.clusters⟩ ∧
      heapFor (spc s) l.clusters ≤ s := by
  have hheap : heapFor (spc s) l.clusters ≤ s := by
    rcases spc_cases hs with ⟨hm, h1⟩ | ⟨hm, h1, h2⟩ | ⟨hm, h1⟩ <;>
    · rw [hm] at hl ⊢
      unfold heapFor fatFor fatOff sec at *
      omega
  have hm : spc s ≤ 256 ∧ 8 ≤ spc s := by
    rcases spc_cases hs with ⟨hm, h1⟩ | ⟨hm, h1, h2⟩ | ⟨hm, h1⟩ <;> omega
  have hc : l.clusters ≤ s / 8 := hl.trans
    ((Nat.div_le_div_left hm.2 (by decide)).trans (Nat.div_le_div_right (Nat.sub_le _ _)))
  have hf : u32 ((l.clusters + 2) * 4 + sec - 1) / sec = fatFor l.clusters := by
    rw [u32_eq (by unfold sec; omega)]
    rfl
  have hfat : fatFor l.clusters ≤ 2 ^ 25 := by
    unfold fatFor sec
    omega
  have hh : u32 (fatOff + fatFor l.clusters + spc s - 1) / spc s * spc s = heapFor (spc s) l.clusters := by
    rw [u32_eq (by unfold fatOff; omega)]
    rfl
  refine ⟨?_, hheap⟩
  unfold Layout.round
  dsimp only
  rw [hf, hh, sub32_eq hheap hs]
  rfl

theorem layout_eq {s : ℕ} (hs : s < 2 ^ 32) (hbig : 4096 ≤ s) :
    ∃ c, c = fit s (spc s) (fit s (spc s) (fit s (spc s) ((s - fatOff) / spc s))) ∧
      layout s = ⟨fatFor c, heapFor (spc s) c, fit s (spc s) c⟩ ∧ heapFor (spc s) c ≤ s := by
  have hpos : 0 < spc s := Nat.two_pow_pos _
  have hx : sub32 s fatOff / spc s = (s - fatOff) / spc s := by
    rw [sub32_eq (by unfold fatOff; omega) hs]
  have hround : ∀ {l : Layout}, l.clusters ≤ (s - fatOff) / spc s → _ := fun {l} => round_eq hs hbig (l := l)
  have hle := fit_le s hpos
  refine ⟨_, rfl, ?_, (hround (l := ⟨0, 0, _⟩) (hle _)).2⟩
  unfold layout
  rw [hx]
  simp only [Function.iterate_succ, Function.iterate_zero, Function.comp_apply, id]
  rw [(hround (l := ⟨0, 0, _⟩) le_rfl).1, (hround (l := ⟨_, _, fit _ _ _⟩) (hle _)).1,
    (hround (l := ⟨_, _, fit _ _ _⟩) (hle _)).1, (hround (l := ⟨_, _, fit _ _ _⟩) (hle _)).1]

/-! ## Where the rounds swing -/

/-- The volume is of a size for which there is no layout with the clusters right after the FAT: with a
FAT of `k` sectors, all full, the clusters begin right after it and are one too many. -/
def Torn (s : ℕ) : Prop := ∃ k, spc s ∣ fatOff + k ∧ fatOff + k + spc s * (128 * k - 1) ≤ s ∧
  s < fatOff + k + spc s * (128 * k)

/-- Where the rounds swing the FAT of the smaller number is full, and the clusters begin right after. -/
theorem torn_of_swing {s c : ℕ} (hs : s < 2 ^ 32) (hup : fit s (spc s) c = c + 1)
    (hdown : fit s (spc s) (c + 1) = c) : c + 2 = fatFor c * 128 ∧ Torn s := by
  have hfull : c + 2 = fatFor c * 128 := by
    by_contra hne
    have hfat : fatFor (c + 1) = fatFor c := by
      unfold fatFor sec at *
      omega
    have hsame : fit s (spc s) (c + 1) = fit s (spc s) c := by
      unfold fit heapFor
      rw [hfat]
    omega
  have hnext : fatFor (c + 1) = fatFor c + 1 := by
    unfold fatFor sec at *
    omega
  refine ⟨hfull, fatFor c, ?_⟩
  unfold fit heapFor at hup hdown
  rw [hnext] at hdown
  rcases spc_cases hs with ⟨hm, h1⟩ | ⟨hm, h1, h2⟩ | ⟨hm, h1⟩ <;>
  · rw [hm] at hup hdown ⊢
    unfold fatOff at *
    generalize fatFor c = k at *
    omega

theorem swing_of_torn {s : ℕ} (hs : s < 2 ^ 32) (ht : Torn s) :
    ∃ c, fit s (spc s) c = c + 1 ∧ fit s (spc s) (c + 1) = c := by
  obtain ⟨k, hdvd, hlow, hhigh⟩ := ht
  have hk : 0 < k := by
    by_contra hz
    obtain rfl : k = 0 := by omega
    simp at hlow hhigh
    omega
  refine ⟨128 * k - 2, ?_⟩
  unfold fit heapFor fatFor sec
  rcases spc_cases hs with ⟨hm, h1⟩ | ⟨hm, h1, h2⟩ | ⟨hm, h1⟩ <;>
  · rw [hm] at hdvd hlow hhigh ⊢
    unfold fatOff at *
    omega

/-! ## What is written -/

/-- No two fields of the boot sector are over each other. -/
theorem bootFields_apart (base s serial : ℕ) (l : Layout) : (bootFields base s serial l).Pairwise
    fun f g => f.1 + f.2.1 ≤ g.1 ∨ g.1 + g.2.1 ≤ f.1 := by
  have h : ((bootFields base s serial l).map fun f => (f.1, f.2.1)).Pairwise
      fun f g => f.1 + f.2 ≤ g.1 ∨ g.1 + g.2 ≤ f.1 := by
    show List.Pairwise _ [(0, 1), (1, 1), (2, 1), (3, 8), (64, 8), (72, 8), (80, 4), (84, 4), (88, 4),
      (92, 4), (96, 4), (100, 4), (104, 2), (108, 1), (109, 1), (110, 1), (111, 1), (112, 1), (510, 1),
      (511, 1)]
    decide
  exact List.pairwise_map.mp h

theorem getLE_boot {base s serial o n v : ℕ} {l : Layout} (h : (o, n, v) ∈ bootFields base s serial l)
    (hv : v < 256 ^ n) : getLE (putFields (fun _ => 0) (bootFields base s serial l)) o n = v := by
  rw [getLE_putFields (bootFields_apart base s serial l) h]
  exact Nat.mod_eq_of_lt hv

theorem getLE_one (p : ℕ → UInt8) (o : ℕ) : getLE p o 1 = (p o).toNat := by
  simp [getLE]

/-- What is consistent about a volume of `s` sectors at `base`. -/
structure Consistent (disk base s : ℕ) (l : Layout) (v : Volume) : Prop where
  fat : l.clusters + 2 ≤ l.fatLen * sec / 4
  after : fatOff + l.fatLen ≤ l.heap
  inside : l.heap + l.clusters * spc s ≤ s
  bitmap : l.clusters ≤ 8 * l.bmpBytes ∧ l.bmpBytes ≤ l.bmpCl (spc s * sec) * (spc s * sec)
  distinct : 2 + l.bmpCl (spc s * sec) ≤ l.cUp (spc s * sec) ∧
    l.cUp (spc s * sec) < l.cRoot (spc s * sec) ∧ l.cRoot (spc s * sec) ≤ l.clusters + 1
  mounts : Mounts disk base v

/-- The clusters at the beginning: the bitmap's, the up-case table's and the root's. -/
theorem bmp_bounds {s : ℕ} (hs : s < 2 ^ 32) {l : Layout} (h16 : 16 ≤ l.clusters)
    (hin : l.heap + l.clusters * spc s ≤ s) : l.bmpBytes = (l.clusters + 7) / 8 ∧
      l.bmpCl (spc s * sec) = (l.bmpBytes + spc s * sec - 1) / (spc s * sec) ∧
      0 < l.bmpCl (spc s * sec) ∧ l.bmpCl (spc s * sec) + 3 ≤ l.clusters + 1 ∧
      l.bmpBytes ≤ l.bmpCl (spc s * sec) * (spc s * sec) ∧ l.bmpBytes ≤ 64 * 2 ^ 20 ∧
      l.clusters < 2 ^ 30 := by
  have hbytes : l.bmpBytes = (l.clusters + 7) / 8 := by
    unfold Layout.bmpBytes
    rw [u32_eq]
    rcases spc_cases hs with ⟨hm, h1⟩ | ⟨hm, h1, h2⟩ | ⟨hm, h1⟩ <;> rw [hm] at hin <;> omega
  have hcl : l.bmpCl (spc s * sec) = (l.bmpBytes + spc s * sec - 1) / (spc s * sec) := by
    unfold Layout.bmpCl
    rw [u32_eq]
    unfold sec
    rcases spc_cases hs with ⟨hm, h1⟩ | ⟨hm, h1, h2⟩ | ⟨hm, h1⟩ <;> rw [hm] at hin ⊢ <;> omega
  refine ⟨hbytes, hcl, ?_⟩
  rw [hcl, hbytes]
  unfold sec
  rcases spc_cases hs with ⟨hm, h1⟩ | ⟨hm, h1, h2⟩ | ⟨hm, h1⟩ <;> rw [hm] at hin ⊢ <;> omega

/-- The entries of the bitmap's clusters lead from one to the next. -/
theorem next_bitmap {l : Layout} {cbytes k : ℕ} (hk : k + 1 < l.bmpCl cbytes)
    (hroot : l.bmpCl cbytes + 3 ≤ l.clusters + 1) :
    nextClus l.clusters (fatEntry l cbytes) (2 + k) = 2 + (k + 1) := by
  have he : fatEntry l cbytes (2 + k) = 2 + (k + 1) := by
    unfold fatEntry Layout.used Layout.cUp
    rw [if_neg (by omega), if_neg (by omega), if_neg (by omega), if_pos (by omega), if_pos (by omega)]
    omega
  unfold nextClus
  rw [he, if_pos ⟨by omega, by omega⟩]

theorem iterate_bitmap {l : Layout} {cbytes : ℕ} (hroot : l.bmpCl cbytes + 3 ≤ l.clusters + 1) :
    ∀ k, k < l.bmpCl cbytes → (nextClus l.clusters (fatEntry l cbytes))^[k] 2 = 2 + k
  | 0, _ => rfl
  | k + 1, hk => by
    rw [Function.iterate_succ_apply', iterate_bitmap hroot k (by omega), next_bitmap hk hroot]

/-- The root folder has one cluster. -/
theorem chainLen_root {l : Layout} {cbytes : ℕ} (hroot : l.bmpCl cbytes + 3 ≤ l.clusters + 1)
    (hlt : l.clusters < 2 ^ 30) (fuel : ℕ) :
    chainLen l.clusters (fatEntry l cbytes) (fuel + 2) (l.cRoot cbytes) = 1 := by
  have hvalid : validClus l.clusters (l.cRoot cbytes) := by
    unfold validClus Layout.cRoot Layout.cUp
    omega
  have he : fatEntry l cbytes (l.cRoot cbytes) = eoc := by
    unfold fatEntry Layout.used Layout.cRoot Layout.cUp
    rw [if_neg (by omega), if_neg (by omega), if_neg (by omega), if_neg (by omega)]
    rfl
  have hno : ¬ validClus l.clusters eoc := by
    unfold validClus eoc
    omega
  have hend : nextClus l.clusters (fatEntry l cbytes) (l.cRoot cbytes) = eoc := by
    unfold nextClus
    rw [he, if_neg hno]
  rw [chainLen, if_pos hvalid, hend, chainLen, if_neg hno]

/-- The bitmap is found in the root folder. -/
theorem findBitmap_root (label : List UInt8) (upSum upBytes : ℕ) (l : Layout) (cbytes : ℕ)
    (hsize : l.bmpBytes < 2 ^ 64) (fuel : ℕ) :
    findBitmap (putFields (fun _ => 0) (rootFields label upSum upBytes l cbytes)) (fuel + 2) 0 =
      some (2, l.bmpBytes) := by
  have hroot : putFields (fun _ => 0) (rootFields label upSum upBytes l cbytes) =
      putFields (putFields (fun _ => 0)
        ((label.take 11).zipIdx.map fun c => (2 + c.2 * 2, 2, c.1.toNat)))
        (rootEntries label upSum upBytes l cbytes) := List.foldl_append
  have hapart : (rootEntries label upSum upBytes l cbytes).Pairwise
      fun f g => f.1 + f.2.1 ≤ g.1 ∨ g.1 + g.2.1 ≤ f.1 := by
    have h : ((rootEntries label upSum upBytes l cbytes).map fun f => (f.1, f.2.1)).Pairwise
        fun f g => f.1 + f.2 ≤ g.1 ∨ g.1 + g.2 ≤ f.1 := by
      show List.Pairwise _ [(0, 1), (1, 1), (32, 1), (52, 4), (56, 8), (64, 1), (68, 4), (84, 4), (88, 8)]
      decide
    exact List.pairwise_map.mp h
  rw [hroot]
  generalize hq : putFields (fun _ => 0)
    ((label.take 11).zipIdx.map fun c => (2 + c.2 * 2, 2, c.1.toNat)) = q
  have hread : ∀ {o n v : ℕ}, (o, n, v) ∈ rootEntries label upSum upBytes l cbytes → v < 256 ^ n →
      getLE (putFields q (rootEntries label upSum upBytes l cbytes)) o n = v := fun hmem hv => by
    rw [getLE_putFields hapart hmem]
    exact Nat.mod_eq_of_lt hv
  have h0 : (putFields q (rootEntries label upSum upBytes l cbytes) 0).toNat = 0x83 := by
    rw [← getLE_one]
    exact hread (by simp [rootEntries]) (by decide)
  have h32 : (putFields q (rootEntries label upSum upBytes l cbytes) 32).toNat = 0x81 := by
    rw [← getLE_one]
    exact hread (by simp [rootEntries]) (by decide)
  have h33 : putFields q (rootEntries label upSum upBytes l cbytes) 33 = 0 := by
    rw [putFields_of_notMem (by simp [rootEntries]), ← hq, putFields_of_notMem]
    intro f hf
    obtain ⟨⟨c, i⟩, hc, rfl⟩ := List.mem_map.mp hf
    have hi := List.snd_lt_of_mem_zipIdx hc
    have hlen := List.length_take_le 11 label
    dsimp only at hi ⊢
    omega
  have h52 : getLE (putFields q (rootEntries label upSum upBytes l cbytes)) 52 4 = 2 :=
    hread (by simp [rootEntries]) (by decide)
  have h56 : getLE (putFields q (rootEntries label upSum upBytes l cbytes)) 56 8 = l.bmpBytes :=
    hread (by simp [rootEntries]) (by omega)
  generalize putFields q (rootEntries label upSum upBytes l cbytes) = d at *
  have hd0 : d 0 = 0x83 := UInt8.toNat_inj.mp h0
  have hd32 : d 32 = 0x81 := UInt8.toNat_inj.mp h32
  rw [findBitmap, hd0, if_neg (by decide), if_neg (by simp), findBitmap, Nat.zero_add, hd32,
    if_neg (by decide), if_pos ⟨rfl, by rw [h33]; rfl⟩, h52, h56]

/-- **A volume whose FAT has enough entries is mounted.** -/
theorem mounts_written {disk base s serial upSum upBytes : ℕ} {label : List UInt8} {l : Layout}
    (hs : s < 2 ^ 32) (hd : base + s ≤ disk) (h16 : 16 ≤ l.clusters)
    (hin : l.heap + l.clusters * spc s ≤ s) (hlen : fatOff + l.fatLen ≤ l.heap)
    (hfat : l.clusters + 2 ≤ l.fatLen * sec / 4) :
    Mounts disk base
      { boot := putFields (fun _ => 0) (bootFields base s serial l)
        fat := fatEntry l (spc s * sec)
        root := putFields (fun _ => 0) (rootFields label upSum upBytes l (spc s * sec)) } := by
  obtain ⟨hbytes, hcl, hpos, hroot, hcover, hsmall, hlt⟩ := bmp_bounds hs h16 hin
  have hshift : spcShift s ≤ 8 := by
    unfold spcShift
    split
    · decide
    · split <;> decide
  have hread : ∀ {o n v : ℕ}, (o, n, v) ∈ bootFields base s serial l → v < 256 ^ n →
      getLE (putFields (fun _ => 0) (bootFields base s serial l)) o n = v := getLE_boot
  have hheap : l.heap < 2 ^ 32 := by
    have : 0 ≤ l.clusters * spc s := Nat.zero_le _
    omega
  have hname := hread (o := 3) (n := 8) (v := exfatName) (by simp [bootFields]) (by decide)
  have hclus := hread (o := 92) (n := 4) (v := l.clusters) (by simp [bootFields]) (by omega)
  have hrt := hread (o := 96) (n := 4) (v := l.cRoot (spc s * sec)) (by simp [bootFields]) (by
    unfold Layout.cRoot Layout.cUp
    omega)
  have hfl := hread (o := 84) (n := 4) (v := l.fatLen) (by simp [bootFields]) (by omega)
  have hvol := hread (o := 72) (n := 8) (v := s) (by simp [bootFields]) (by omega)
  have hbps := hread (o := 108) (n := 1) (v := 9) (by simp [bootFields]) (by decide)
  have hspc := hread (o := 109) (n := 1) (v := spcShift s) (by simp [bootFields]) (by omega)
  have hnf := hread (o := 110) (n := 1) (v := 1) (by simp [bootFields]) (by decide)
  have h510 := hread (o := 510) (n := 1) (v := 0x55) (by simp [bootFields]) (by decide)
  have h511 := hread (o := 511) (n := 1) (v := 0xAA) (by simp [bootFields]) (by decide)
  have hcb : 2 ^ (9 + spcShift s) = spc s * sec := by
    rw [Nat.pow_add, Nat.mul_comm]
    rfl
  have hcb64 : spc s * sec ≤ 64 * 2 ^ 20 := by
    rw [← hcb]
    calc 2 ^ (9 + spcShift s) ≤ 2 ^ 17 := Nat.pow_le_pow_right (by decide) (by omega)
      _ ≤ 64 * 2 ^ 20 := by decide
  have hcb512 : 512 ≤ spc s * sec := Nat.le_mul_of_pos_left 512 (Nat.two_pow_pos _)
  have hchain : chainLen l.clusters (fatEntry l (spc s * sec)) 65536 (l.cRoot (spc s * sec)) = 1 :=
    chainLen_root hroot hlt 65534
  have hfind := findBitmap_root label upSum upBytes l (spc s * sec) (by omega) (spc s * sec / 32 - 2)
  rw [show spc s * sec / 32 - 2 + 2 = spc s * sec / 32 by omega] at hfind
  constructor
  · exact hname
  · rw [getLE_one] at h510 h511
    exact ⟨UInt8.toNat_inj.mp h510, UInt8.toNat_inj.mp h511⟩
  · rw [hbps]
    decide
  · rw [hspc, hbps]
    omega
  · rw [hclus]
    omega
  · rw [hclus, hrt]
    unfold validClus Layout.cRoot Layout.cUp
    omega
  · exact Or.inl hnf
  · rw [hclus, hfl, hbps, u32_eq (by omega)]
    exact hfat
  · rw [hvol, hbps]
    omega
  · dsimp only
    rw [hclus, hrt, hbps, hspc, hchain, hcb]
    omega
  · dsimp only
    rw [hclus, hrt, hbps, hspc, hchain, hcb, Nat.one_mul]
    refine ⟨2, l.bmpBytes, hfind, ⟨le_rfl, by omega⟩, by omega, hsmall, fun k hk => ?_⟩
    rw [← hcl] at hk
    rw [iterate_bitmap hroot k hk]
    exact ⟨by omega, by omega⟩

/-! ## Which sizes there is a layout for -/

/-- **The layout that is written is consistent exactly if the size is not torn.** -/
theorem mkfsExfat_consistent {disk base s serial upSum upBytes : ℕ} {label : List UInt8} {l : Layout}
    {v : Volume} (hs : s < 2 ^ 32) (hd : base + s ≤ disk)
    (h : mkfsExfat base s serial label upSum upBytes = some (l, v)) :
    Consistent disk base s l v ↔ ¬ Torn s := by
  unfold mkfsExfat at h
  split at h
  · cases h
  · rename_i hsmall
    have hbig : 4096 ≤ s := by
      unfold sec at hsmall
      omega
    dsimp only at h
    split at h
    · cases h
    · rename_i h16
      have hpos : 0 < spc s := Nat.two_pow_pos _
      obtain ⟨c, hc, hlayout, hheap⟩ := layout_eq hs hbig
      obtain ⟨rfl, rfl⟩ := Prod.mk.inj (Option.some.inj h)
      rw [hlayout] at h16 ⊢
      dsimp only at h16
      have hswing := settle_or_swing (fit_antitone s (spc s)) (fit_le s hpos) (fit_near hs hbig)
      rw [← hc] at hswing
      have hafter := le_heapFor hpos c
      have hin : heapFor (spc s) c + fit s (spc s) c * spc s ≤ s := by
        have hle : fit s (spc s) c * spc s ≤ s - heapFor (spc s) c := Nat.div_mul_le_self _ _
        omega
      constructor
      · rintro ⟨hfat, -, -, -, -, -⟩ htorn
        -- a torn size swings, and at the larger number the FAT lacks an entry
        obtain ⟨x, hup, hdown⟩ := swing_of_torn hs htorn
        obtain ⟨hup', hdown'⟩ := hswing.resolve_left (ne_of_swing (fit_antitone s (spc s)) hup hdown c)
        have hfull := (torn_of_swing hs hup' hdown').1
        dsimp only at hfat
        unfold sec at hfat
        omega
      · intro hno
        have hfix : fit s (spc s) c = c := hswing.resolve_right fun hsw => hno (torn_of_swing hs hsw.1 hsw.2).2
        have hfat : fit s (spc s) c + 2 ≤ fatFor c * sec / 4 := by
          rw [hfix]
          unfold fatFor sec
          omega
        obtain ⟨hbytes, -, -, hroot, hcover, -, -⟩ := bmp_bounds
          (l := ⟨fatFor c, heapFor (spc s) c, fit s (spc s) c⟩) hs (by dsimp only; omega) hin
        refine ⟨hfat, hafter, hin, ⟨?_, hcover⟩, ⟨le_rfl, Nat.lt_succ_self _, ?_⟩, ?_⟩
        · rw [hbytes]
          dsimp only
          omega
        · unfold Layout.cRoot Layout.cUp
          dsimp only at hroot ⊢
          omega
        · exact mounts_written hs hd (by dsimp only; omega) hin hafter hfat

/-- A volume of 8 MiB at 1 MiB. -/
theorem consistent_eight : ∃ l v, mkfsExfat 2048 16384 1 [] 0 60 = some (l, v) ∧
    Consistent 20480 2048 16384 l v := by
  obtain ⟨⟨l, v⟩, h⟩ := Option.isSome_iff_exists.mp
    (show (mkfsExfat 2048 16384 1 [] 0 60).isSome = true by decide +kernel)
  refine ⟨l, v, h, (mkfsExfat_consistent (by decide) (by decide) h).mpr ?_⟩
  rintro ⟨k, hdvd, hlow, hhigh⟩
  have hm : spc 16384 = 8 := by decide +kernel
  rw [hm] at hdvd hlow hhigh
  unfold fatOff at *
  omega

/-- With 8320 sectors there are 1023 clusters and a FAT of 1024 entries. -/
theorem torn_layout : ∃ l v, mkfsExfat 2048 8320 1 [] 0 60 = some (l, v) ∧
    ¬ Consistent 20480 2048 8320 l v := by
  obtain ⟨⟨l, v⟩, h⟩ := Option.isSome_iff_exists.mp
    (show (mkfsExfat 2048 8320 1 [] 0 60).isSome = true by decide +kernel)
  have hl : (mkfsExfat 2048 8320 1 [] 0 60).map (fun w => (w.1.clusters, w.1.fatLen)) = some (1023, 8) := by
    decide +kernel
  rw [h, Option.map_some] at hl
  obtain ⟨hc, hf⟩ := Prod.mk.inj (Option.some.inj hl)
  dsimp only at hc hf
  refine ⟨l, v, h, fun hcons => ?_⟩
  have hfat := hcons.fat
  rw [hc, hf] at hfat
  exact absurd hfat (by decide)

end BananaOS.Diskpart
