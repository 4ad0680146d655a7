import BananaOS.Diskpart.Exfat
import BananaOS.Lib.Gaps
import Mathlib.Data.List.DropRight

/-!
# Partition tables

`volume_partitions`, which lists the partitions of a drive, and what `diskpart.c` makes of the list: the
free space between them and a new partition in it.  A drive is read one sector at a time; a sector that
cannot be read is `none`.  Sector numbers are numbers of 32 bits, and where the code adds them without a
check the sum is `u32`.

`dpCreate` ends with what it sets out to do, `Created`: the slot of the table, and the sectors that are
written there and handed to `mkfs`.  The 512 bytes `kmalloc` is asked for are there.
-/

namespace BananaOS.Diskpart

open BananaOS.Lib

/-! ## Drives -/

/-- Bytes of a drive. -/
abbrev Bytes := List UInt8

/-- `blockdev_t`, as far as partitions are concerned. -/
structure Blockdev where
  present : Bool
  sectors : ℕ
  /-- one sector -/
  read : ℕ → Option Bytes

def byteAt (b : Bytes) (o : ℕ) : ℕ := (b.getD o 0).toNat

/-- `rd16`, `rd32` and the eight bytes of a name. -/
def rd (n : ℕ) (b : Bytes) (o : ℕ) : ℕ := getLE (fun i => b.getD i 0) o n

def rd16 (b : Bytes) (o : ℕ) : ℕ := rd 2 b o
def rd32 (b : Bytes) (o : ℕ) : ℕ := rd 4 b o
def rd64 (b : Bytes) (o : ℕ) : ℕ := rd 8 b o

/-- A sector ends with 55 AA. -/
def signed (b : Bytes) : Bool := byteAt b 510 = 0x55 ∧ byteAt b 511 = 0xAA

/-- "NTFS    " -/
def ntfsName : ℕ := 0x202020205346544E

/-- "FAT32   " -/
def fat32Name : ℕ := 0x2020203233544146

/-- "FAT16   " -/
def fat16Name : ℕ := 0x2020203631544146

/-- "FAT12   " -/
def fat12Name : ℕ := 0x2020203231544146

/-- "EFI PART" -/
def efiPart : ℕ := 0x5452415020494645

/-- The sixteen bytes at `o` are zero. -/
def empty16 (b : Bytes) (o : ℕ) : Bool := (List.range 16).all fun k => byteAt b (o + k) = 0

/-! ## `volume_partitions` -/

/-- `VOL_MAX_PARTS` -/
def volMaxParts : ℕ := 32

/-- `vol_part_t` -/
structure VolPart where
  number : ℕ
  extent : Extent
  deriving DecidableEq

/-- `add_part` -/
def addPart (out : List VolPart) (max number : ℕ) (e : Extent) : List VolPart :=
  if max ≤ out.length then out else out ++ [⟨number, e⟩]

/-- The extended types. -/
def isExtended (type : ℕ) : Bool := type = 0x05 ∨ type = 0x0F ∨ type = 0x85

/-- The loop over the entries of a GPT, from the `i`-th on. -/
def gptEntries (bd : Blockdev) (max entLba esz : ℕ) : (left i : ℕ) → List VolPart → List VolPart
  | 0, _, out => out
  | left + 1, i, out =>
    if max ≤ out.length then out
    else match bd.read (u32 (entLba + i * esz / 512)) with
      | none => out
      | some b =>
        let o := i * esz % 512
        let first := rd32 b (o + 32)
        let last := rd32 b (o + 40)
        if empty16 b o ∨ first = 0 ∨ bd.sectors ≤ first ∨ last < first then
          gptEntries bd max entLba esz left (i + 1) out
        else gptEntries bd max entLba esz left (i + 1)
          (addPart out max (i + 1) ⟨first, last - first + 1⟩)

/-- The partitions of a GPT, by its header. -/
def gptParts (bd : Blockdev) (max : ℕ) (h : Bytes) : List VolPart :=
  let esz := rd32 h 84
  let nent := if esz < 128 ∨ 512 < esz ∨ 128 < rd32 h 80 then 0 else rd32 h 80
  gptEntries bd max (rd32 h 72) esz nent 0 []

/-- One of the four entries of an MBR: where the extended partition begins (zero for none so far) and
the list. -/
def mbrEntry (bd : Blockdev) (max : ℕ) (b : Bytes) (s : ℕ × List VolPart) (i : ℕ) :
    ℕ × List VolPart :=
  let type := byteAt b (446 + i * 16 + 4)
  let lba := rd32 b (446 + i * 16 + 8)
  let cnt := rd32 b (446 + i * 16 + 12)
  if type = 0 ∨ lba = 0 ∨ bd.sectors ≤ lba then s
  else if isExtended type then (if s.1 = 0 then lba else s.1, s.2)
  else (s.1, addPart s.2 max (i + 1) ⟨lba, cnt⟩)

/-- The chain of boot records in the extended partition. -/
def chainLoop (bd : Blockdev) (max extBase : ℕ) :
    (guard ebr number : ℕ) → List VolPart → List VolPart
  | 0, _, _, out => out
  | guard + 1, ebr, number, out =>
    if ebr = 0 ∨ max ≤ out.length ∨ bd.sectors ≤ ebr then out
    else match bd.read ebr with
      | none => out
      | some b =>
        if ¬ signed b then out
        else
          let lba := u32 (ebr + rd32 b 454)
          let next := if byteAt b 466 ≠ 0 ∧ rd32 b 470 ≠ 0 then u32 (extBase + rd32 b 470) else 0
          if byteAt b 450 ≠ 0 ∧ rd32 b 454 ≠ 0 ∧ lba < bd.sectors then
            chainLoop bd max extBase guard next (number + 1) (addPart out max number ⟨lba, rd32 b 458⟩)
          else chainLoop bd max extBase guard next number out

/-- The partitions of an MBR. -/
def mbrParts (bd : Blockdev) (max : ℕ) (b : Bytes) : List VolPart :=
  let s := (List.range 4).foldl (mbrEntry bd max b) (0, [])
  chainLoop bd max s.1 64 s.1 5 s.2

/-- An entry of the MBR says that there is a GPT. -/
def protective (b : Bytes) : Bool := (List.range 4).any fun i => byteAt b (446 + i * 16 + 4) = 0xEE

/-- The header of the GPT, if there is one. -/
def gptHeader (bd : Blockdev) (b : Bytes) : Option Bytes :=
  if protective b then (bd.read 1).filter fun h => rd64 h 0 = efiPart else none

/-- `volume_partitions`, with `is_gpt`. -/
def volumePartitions (bd : Blockdev) (max : ℕ) : List VolPart × Bool :=
  match if bd.present then bd.read 0 else none with
  | none => ([], false)
  | some b =>
    if ¬ signed b then ([], false)
    else match gptHeader bd b with
      | some h => (gptParts bd max h, true)
      | none => (mbrParts bd max b, false)

/-! ## What a volume holds -/

/-- `dp_part_t.fs`, when it is not empty. -/
inductive Holds where
  | exfat | ntfs | fat32 | fat | ext | swap
  deriving DecidableEq

/-- `sniff` -/
def sniff (bd : Blockdev) (e : Extent) : Option Holds :=
  match bd.read e.base with
  | none => none
  | some b =>
    if rd64 b 3 = exfatName then some .exfat
    else if rd64 b 3 = ntfsName then some .ntfs
    else if signed b ∧ rd64 b 82 = fat32Name then some .fat32
    else if signed b ∧ (rd64 b 54 = fat16Name ∨ rd64 b 54 = fat12Name) then some .fat
    else if 4 < e.len ∧ (bd.read (u32 (e.base + 2))).any fun c => rd16 c 56 = 0xEF53 then some .ext
    else if 8 < e.len ∧ (bd.read (u32 (e.base + 7))).any fun c =>
        rd64 c 502 = 0x4341505350415753 ∧ rd16 c 510 = 0x3245 then some .swap
    else none

/-! ## Free space -/

/-- `ALIGN` -/
def align : ℕ := 2048

/-- `GPT_SECS` -/
def gptSecs : ℕ := 32

/-- `DP_MAX_PARTS` -/
def dpMaxParts : ℕ := 16

/-- `DP_MAX_GAPS` -/
def dpMaxGaps : ℕ := 8

/-- `DP_NONE`, `DP_MBR`, `DP_GPT` -/
inductive Scheme where
  | none | mbr | gpt
  deriving DecidableEq

/-- One round of the sort: behind the last one that does not begin later. -/
def insertPart (l : List Extent) (p : Extent) : List Extent :=
  l.rdropWhile (fun q => p.base < q.base) ++ p :: l.rtakeWhile fun q => p.base < q.base

/-- The partitions in order of where they start. -/
def order (parts : List Extent) : List Extent := parts.foldl insertPart []

/-- The gap from `a` to `stop`, if it is one. -/
def gapAt (a stop : ℕ) : List Extent :=
  let start := u32 (a + align - 1) / align * align
  if start < stop ∧ align ≤ stop - start then [⟨start, stop - start⟩] else []

/-- The loop over the partitions in order; the last round is the one to the end of the disk. -/
def gapLoop (hi : ℕ) : (a : ℕ) → (gaps l : List Extent) → List Extent
  | a, gaps, [] => if gaps.length < dpMaxGaps then gaps ++ gapAt a hi else gaps
  | a, gaps, p :: l =>
    if gaps.length < dpMaxGaps then
      let pe := u32 (p.base + p.len)
      gapLoop hi (if a < pe then pe else a) (gaps ++ gapAt a p.base) l
    else gaps

/-- `hi` -/
def usableEnd (scheme : Scheme) (sectors : ℕ) : ℕ :=
  if scheme = .gpt then sectors - 1 - gptSecs else sectors

/-- `find_gaps` -/
def findGaps (scheme : Scheme) (sectors : ℕ) (parts : List Extent) : List Extent :=
  if scheme = .none ∧ parts ≠ [] then []
  else if sectors < 2 * align then []
  else gapLoop (usableEnd scheme sectors) align [] (order parts)

/-! ## A disk -/

/-- `dp_part_t` -/
structure DpPart where
  number : ℕ
  extent : Extent
  deriving DecidableEq

/-- What `dp_scan` knows of a drive before it reads its table. -/
structure Drive where
  system : Bool
  cdrom : Bool
  writable : Bool

/-- `dp_disk_t`, as far as changes read it. -/
structure DpDisk extends Drive where
  sectors : ℕ
  scheme : Scheme
  parts : List DpPart
  gaps : List Extent

/-- Which table `fill` sees. -/
def schemeOf (bd : Blockdev) (vp : List VolPart × Bool) : Scheme :=
  if vp.1 ≠ [] ∨ vp.2 then if vp.2 then .gpt else .mbr
  else match bd.read 0 with
    | none => .none
    | some b =>
      if signed b ∧ rd64 b 82 ≠ fat32Name ∧ rd64 b 3 ≠ exfatName ∧ rd64 b 3 ≠ ntfsName then .mbr
      else .none

/-- `fill` -/
def fill (f : Drive) (bd : Blockdev) : DpDisk :=
  if f.cdrom then { f with sectors := bd.sectors, scheme := .none, parts := [], gaps := [] }
  else
    let vp := volumePartitions bd volMaxParts
    let scheme := schemeOf bd vp
    let listed := (vp.1.take dpMaxParts).map fun p => ⟨p.number, p.extent⟩
    let parts := if scheme = .none ∧ (sniff bd ⟨0, bd.sectors⟩).isSome then [⟨0, ⟨0, bd.sectors⟩⟩]
      else listed
    { f with
      sectors := bd.sectors
      scheme := scheme
      parts := parts
      gaps := findGaps scheme bd.sectors (parts.map DpPart.extent) }

/-! ## `dp_create` -/

/-- `check_writable` -/
def checkWritable (d : DpDisk) (bd : Blockdev) : Except String Unit :=
  if d.cdrom then .error "a CD cannot be changed"
  else if d.system then .error "that is the disk Banana OS runs from"
  else if ¬ d.writable ∨ ¬ bd.present then .error "this disk cannot be changed here"
  else .ok ()

/-- `sectors` of a new partition. -/
def sizeFor (room sectors : ℕ) : ℕ :=
  let s := if sectors = 0 ∨ room < sectors then room else sectors
  if align ≤ s then s / align * align else s

/-- Sectors one after the other. -/
def readMany (bd : Blockdev) (lba : ℕ) : ℕ → Option Bytes
  | 0 => some []
  | n + 1 => do
    let b ← bd.read lba
    let c ← readMany bd (lba + 1) n
    return b ++ c

/-- `gpt_load`: the entries. -/
def gptLoad (bd : Blockdev) : Option Bytes :=
  match bd.read 1 with
  | none => none
  | some h =>
    if rd64 h 0 ≠ efiPart ∨ rd32 h 84 ≠ 128 ∨ 128 < rd32 h 80 then none
    else readMany bd (rd32 h 72) gptSecs

/-- A free slot of the table. -/
def freeSlot (scheme : Scheme) (bd : Blockdev) : Except String ℕ :=
  if scheme = .mbr then
    match (bd.read 0).bind fun b => (List.range 4).find? fun i => byteAt b (446 + i * 16 + 4) = 0 with
    | none => .error "the MBR has 4 partitions already"
    | some i => .ok i
  else match gptLoad bd with
    | none => .error "the GPT could not be read"
    | some ents =>
      match (List.range 128).find? fun i => empty16 ents (i * 128) with
      | none => .error "the GPT is full"
      | some i => .ok i

/-- What is written into the table and formatted. -/
structure Created where
  number : ℕ
  extent : Extent
  deriving DecidableEq

/-- `dp_create` on a disk that has a table. -/
def createIn (d : DpDisk) (bd : Blockdev) (gap : ℤ) (sectors : ℕ) : Except String Created :=
  match if 0 ≤ gap then d.gaps[gap.toNat]? else none with
  | none => .error "there is no free space there"
  | some g =>
    match freeSlot d.scheme bd with
    | .error e => .error e
    | .ok slot => .ok ⟨slot + 1, g.base, sizeFor g.len sectors⟩

/-- `dp_create`.  What `dp_init` makes of a disk without a table is `init`. -/
def dpCreate (init : Except String (DpDisk × Blockdev)) (d : DpDisk) (bd : Blockdev) (gap : ℤ)
    (sectors : ℕ) : Except String Created :=
  match checkWritable d bd with
  | .error e => .error e
  | .ok () =>
    if d.scheme = .none then
      if d.parts ≠ [] then
        .error "the whole disk is one volume: delete it or make a new table first"
      else match init with
        | .error e => .error e
        | .ok (d', bd') => createIn d' bd' 0 sectors
    else createIn d bd gap sectors

end BananaOS.Diskpart
