import BananaOS.Fs.Paths
import BananaOS.Lib.Bytes
import Mathlib.Data.List.TakeWhile

/-!
# Reading an archive

`zip.c` as far as it reads: the end record, the central directory, one entry's data.  What it calls
outside of itself (the file tree, the heap, the clock's calendar aside, and stb's inflater) is a
`World`, whose state may change with every call.

A file is shorter than 2 GiB, so positions inside a central directory do not wrap; the places that
records name can, and do so modulo `2 ^ 32`.
-/

namespace BananaOS.Zip

open BananaOS.Lib

/-- Bytes that are no string. -/
abbrev Bytes := List UInt8

/-- A C string, without its terminating zero. -/
abbrev Name := Fs.Name

/-- What `zip.c` calls. -/
structure World (σ : Type) where
  /-- `fs_find_file`, `fs_find_dir`, `fs_mkdir_p`: an index, or less than zero. -/
  findFile : Name → StateM σ ℤ
  findDir : Name → StateM σ ℤ
  mkdirP : Name → StateM σ ℤ
  /-- `fs_write_path` -/
  writePath : Name → Bytes → StateM σ ℤ
  /-- `fs_set_times`: a folder (`true`) or a file. -/
  setTimes : Bool → ℤ → ℕ → StateM σ Unit
  /-- `fs_file_info(idx)->size` -/
  size : ℤ → StateM σ ℕ
  /-- `fs_read`: the bytes read; none for an error too. -/
  read : ℤ → ℕ → ℕ → StateM σ Bytes
  /-- Whether `kmalloc` finds room. -/
  kmalloc : ℕ → StateM σ Bool
  /-- `stbi_zlib_decode_noheader_buffer`: raw deflate, into a buffer of that length. -/
  inflate : ℕ → Bytes → Option Bytes

/-! ## Fields -/

def sigLocal : ℕ := 0x04034b50
def sigCentral : ℕ := 0x02014b50
def sigEnd : ℕ := 0x06054b50
def flagEncrypted : ℕ := 1

/-- A buffer's byte. -/
def byteAt (p : Bytes) (i : ℕ) : UInt8 := p.getD i 0

def get16 (p : Bytes) (o : ℕ) : ℕ := getLE (byteAt p) o 2

def get32 (p : Bytes) (o : ℕ) : ℕ := getLE (byteAt p) o 4

/-! ## Dates -/

/-- `days_from_civil` -/
def daysFromCivil (y m d : ℤ) : ℤ :=
  let y := if m ≤ 2 then y - 1 else y
  let era := (if 0 ≤ y then y else y - 399).tdiv 400
  let yoe := y - era * 400
  let doy := (153 * (m + if m > 2 then -3 else 9) + 2).tdiv 5 + d - 1
  let doe := yoe * 365 + yoe.tdiv 4 - yoe.tdiv 100 + doy
  era * 146097 + doe - 719468

/-- `rtc_make_time` -/
def rtcMakeTime (year month day hour minute second : ℤ) : ℕ :=
  if year < 1970 ∨ month < 1 ∨ month > 12 ∨ day < 1 ∨ day > 31 then 0
  else ((daysFromCivil year month day * 86400 + hour * 3600 + minute * 60 + second) % 2 ^ 32).toNat

/-- `from_dos` -/
def fromDos (time date : ℕ) : ℕ :=
  let y : ℕ := 1980 + date / 2 ^ 9
  let mo : ℕ := date / 2 ^ 5 % 16
  let d : ℕ := date % 32
  if mo < 1 ∨ mo > 12 ∨ d < 1 then 0
  else
    let hour : ℕ := time / 2 ^ 11
    let minute : ℕ := time / 2 ^ 5 % 64
    let second : ℕ := time % 32 * 2
    rtcMakeTime y mo d hour minute second

/-! ## CRC-32 -/

/-- One of the eight rounds that make an entry of `g_crc_table`. -/
def crcRound (c : UInt32) : UInt32 :=
  if c &&& 1 ≠ 0 then (0xEDB88320 : UInt32) ^^^ (c >>> 1) else c >>> 1

/-- `g_crc_table` -/
def crcTable (i : UInt32) : UInt32 := crcRound^[8] i

/-- `crc32_update` -/
def crc32Update (crc : UInt32) (data : Bytes) : UInt32 :=
  ~~~ data.foldl (fun c b => crcTable ((c ^^^ UInt32.ofNat b.toNat) &&& 0xFF) ^^^ (c >>> 8)) (~~~ crc)

/-! ## The central directory -/

/-- `zip_entry_t`; `mtime` in seconds since 1970. -/
structure Entry where
  name : Name
  size : ℕ
  csize : ℕ
  mtime : ℕ
  crc : ℕ
  isDir : Bool
  method : ℕ
  encrypted : Bool
  deriving DecidableEq

/-- `zr_t` -/
structure Zr where
  idx : ℤ
  cd : Bytes
  count : ℕ
  deriving DecidableEq

/-- `read_at`: `len` bytes at `off`, all of them.  Every round reads a byte at least, so that the
number of rounds, `len`, is enough. -/
def readLoop {σ : Type} (w : World σ) (idx : ℤ) : ℕ → ℕ → ℕ → StateM σ (Option Bytes)
  | 0, _, len => return if len = 0 then some [] else none
  | n + 1, off, len => do
    if len = 0 then return some []
    let p ← w.read idx off len
    if p = [] then return none
    match ← readLoop w idx n ((off + p.length) % 2 ^ 32) (len - p.length) with
    | none => return none
    | some q => return some (p ++ q)

def readAt {σ : Type} (w : World σ) (idx : ℤ) (off len : ℕ) : StateM σ (Option Bytes) :=
  readLoop w idx len off len

/-- An end record at `i` of the file's last bytes, its comment inside them. -/
def isEnd (t : Bytes) (i : ℕ) : Bool :=
  get32 t i == sigEnd && decide (i + 22 + get16 t (i + 20) ≤ t.length)

/-- The last of the first `n` places where an end record is. -/
def findEnd (t : Bytes) : ℕ → Option ℕ
  | 0 => none
  | n + 1 => if isEnd t n then some n else findEnd t n

/-- `zr_open` -/
def zrOpen {σ : Type} (w : World σ) (zip : Name) : StateM σ (Except String Zr) := do
  let idx ← w.findFile zip
  if idx < 0 then
    return .error (if 0 ≤ (← w.findDir zip) then "that is a folder" else "no such file")
  let size ← w.size idx
  if size < 22 then return .error "not a ZIP archive (too small)"
  -- the end record: in the last 22 bytes + up to 64 KiB of comment
  let tail := if size < 22 + 65535 then size else 22 + 65535
  if (← w.kmalloc tail) = false then return .error "out of memory"
  match ← readAt w idx (size - tail) tail with
  | none => return .error "could not read the archive"
  | some t =>
    match findEnd t (tail - 22 + 1) with
    | none => return .error "not a ZIP archive (no end of central directory)"
    | some at' =>
      let entries := get16 t (at' + 10)
      let cdLen := get32 t (at' + 12)
      let cdOff := get32 t (at' + 16)
      if entries = 0xFFFF ∨ cdLen = 0xFFFFFFFF ∨ cdOff = 0xFFFFFFFF then
        return .error "ZIP64 archives are not supported"
      if size < cdOff + cdLen then
        return .error "damaged archive (central directory out of the file)"
      if (← w.kmalloc (if cdLen ≠ 0 then cdLen else 1)) = false then return .error "out of memory"
      if cdLen = 0 then return .ok ⟨idx, [], entries⟩
      match ← readAt w idx cdOff cdLen with
      | none => return .error "could not read the archive"
      | some cd => return .ok ⟨idx, cd, entries⟩

/-- What is at a place of the central directory. -/
inductive Next where
  | stop
  | damaged
  /-- An entry, its local header's offset, and the place after it. -/
  | entry (e : Entry) (localOff pos : ℕ)
  deriving DecidableEq

/-- The name's bytes as `e->name` has them, and what of them is the C string: up to a zero, with
slashes for backslashes (archives made on Windows). -/
def nameBytes (cd : Bytes) (o n : ℕ) : Bytes := (List.range n).map fun k => byteAt cd (o + k)

def cleanName (b : Bytes) : Name :=
  (b.takeWhile (· ≠ 0)).map fun c => if c = 92 then 47 else c

/-- The byte at the end of the name, which is behind the C string when a zero ends that before. -/
def lastByte (b : Bytes) : UInt8 :=
  if 0 ∈ b then byteAt b (b.length - 1) else byteAt (cleanName b) (b.length - 1)

/-- `zr_next` -/
def zrNext (cd : Bytes) (pos : ℕ) : Next :=
  if cd.length < pos + 46 then .stop
  else if get32 cd pos ≠ sigCentral then .damaged
  else
    let nlen := get16 cd (pos + 28)
    let xlen := get16 cd (pos + 30)
    let clen := get16 cd (pos + 32)
    if cd.length < pos + 46 + nlen + xlen + clen then .damaged
    else
      let n := min nlen (Fs.pathLen - 1)
      let b := nameBytes cd (pos + 46) n
      .entry
        { name := cleanName b
          size := get32 cd (pos + 24)
          csize := get32 cd (pos + 20)
          mtime := fromDos (get16 cd (pos + 12)) (get16 cd (pos + 14))
          crc := get32 cd (pos + 16)
          isDir := decide (0 < n) && lastByte b == 47
          method := get16 cd (pos + 10)
          encrypted := get16 cd (pos + 8) &&& flagEncrypted != 0 }
        (get32 cd (pos + 42)) (pos + 46 + nlen + xlen + clen)

theorem zero_notMem_cleanName (b : Bytes) : 0 ∉ cleanName b := by
  intro h
  obtain ⟨c, hc, hc0⟩ := List.mem_map.mp h
  have hne : c ≠ 0 := by simpa using List.mem_takeWhile_imp hc
  split_ifs at hc0 with h92
  · exact absurd hc0 (by decide)
  · exact hne hc0

/-! ## An entry's data -/

/-- `entry_data` -/
def entryData {σ : Type} (w : World σ) (z : Zr) (e : Entry) (localOff : ℕ) :
    StateM σ (Except String Bytes) := do
  match ← readAt w z.idx localOff 30 with
  | none => return .error "damaged (no local header)"
  | some h =>
    if get32 h 0 ≠ sigLocal then return .error "damaged (no local header)"
    let dataOff := (localOff + 30 + get16 h 26 + get16 h 28) % 2 ^ 32
    let inOk ← w.kmalloc (if e.csize ≠ 0 then e.csize else 1)
    let outOk ← if e.method = 0 then pure inOk else w.kmalloc (if e.size ≠ 0 then e.size else 1)
    if inOk = false ∨ outOk = false then return .error "too big for the memory"
    match ← (if e.csize = 0 then pure (some []) else readAt w z.idx dataOff e.csize) with
    | none => return .error "could not be read"
    | some packed =>
      if e.method = 0 then
        if e.csize ≠ e.size then return .error "damaged (sizes)"
        if (crc32Update 0 packed).toNat ≠ e.crc then return .error "damaged (CRC does not match)"
        return .ok packed
      else if e.size = 0 then
        if (crc32Update 0 []).toNat ≠ e.crc then return .error "damaged (CRC does not match)"
        return .ok []
      else
        match w.inflate e.size packed with
        | none => return .error "damaged (bad compressed data)"
        | some data =>
          if data.length ≠ e.size then return .error "damaged (bad compressed data)"
          if (crc32Update 0 data).toNat ≠ e.crc then
            return .error "damaged (CRC does not match)"
          return .ok data

/-! ## A file that is there -/

/-- A world that holds one file: `zip.c` finds it under every name, and every folder. -/
def holding (b : Bytes) (inflate : ℕ → Bytes → Option Bytes) : World Unit where
  findFile _ := return 0
  findDir _ := return 0
  mkdirP _ := return 0
  writePath _ _ := return 0
  setTimes _ _ _ := return ()
  size _ := return b.length
  read _ off len := return (b.drop off).take len
  kmalloc _ := return true
  inflate := inflate

variable {b : Bytes} {inflate : ℕ → Bytes → Option Bytes} {off len : ℕ}

@[simp] theorem holding_findFile (p : Name) : (holding b inflate).findFile p = pure 0 := rfl

@[simp] theorem holding_findDir (p : Name) : (holding b inflate).findDir p = pure 0 := rfl

@[simp] theorem holding_setTimes (d : Bool) (i : ℤ) (t : ℕ) :
    (holding b inflate).setTimes d i t = pure () := rfl

@[simp] theorem holding_size (i : ℤ) : (holding b inflate).size i = pure b.length := rfl

@[simp] theorem holding_read (i : ℤ) (off len : ℕ) :
    (holding b inflate).read i off len = pure ((b.drop off).take len) := rfl

@[simp] theorem holding_kmalloc (n : ℕ) : (holding b inflate).kmalloc n = pure true := rfl

/-- All of a range that is in the file is read. -/
theorem readAt_holding (h : off + len ≤ b.length) :
    readAt (holding b inflate) 0 off len = pure (some ((b.drop off).take len)) := by
  have hdone : ∀ n o, readLoop (holding b inflate) 0 n o 0 = pure (some []) := by
    intro n o
    cases n <;> rfl
  rcases len with - | len
  · rw [readAt, hdone, List.take_zero]
  · have hlen : ((b.drop off).take (len + 1)).length = len + 1 := by
      rw [List.length_take, List.length_drop]
      omega
    have hne : (b.drop off).take (len + 1) ≠ [] := by
      intro h0
      rw [h0] at hlen
      exact absurd hlen (by simp)
    rw [readAt, readLoop, if_neg (by omega), holding_read, pure_bind, if_neg hne, hlen, Nat.sub_self,
      hdone, pure_bind]
    simp only [List.append_nil]

/-- What `zr_open` makes of a file's bytes. -/
def openBytes (b : Bytes) : Except String Zr :=
  if b.length < 22 then .error "not a ZIP archive (too small)"
  else
    let tail := if b.length < 22 + 65535 then b.length else 22 + 65535
    let t := (b.drop (b.length - tail)).take tail
    match findEnd t (tail - 22 + 1) with
    | none => .error "not a ZIP archive (no end of central directory)"
    | some at' =>
      let entries := get16 t (at' + 10)
      let cdLen := get32 t (at' + 12)
      let cdOff := get32 t (at' + 16)
      if entries = 0xFFFF ∨ cdLen = 0xFFFFFFFF ∨ cdOff = 0xFFFFFFFF then
        .error "ZIP64 archives are not supported"
      else if b.length < cdOff + cdLen then
        .error "damaged archive (central directory out of the file)"
      else .ok ⟨0, (b.drop cdOff).take cdLen, entries⟩

theorem zrOpen_holding (b : Bytes) (zip : Name) :
    zrOpen (holding b inflate) zip = pure (openBytes b) := by
  unfold zrOpen openBytes
  simp only [holding_findFile, holding_size, holding_kmalloc, pure_bind]
  rw [if_neg (by decide)]
  by_cases hsmall : b.length < 22
  · rw [if_pos hsmall, if_pos hsmall]
  rw [if_neg hsmall, if_neg hsmall]
  generalize ht : (if b.length < 22 + 65535 then b.length else 22 + 65535) = tail
  have htail : tail ≤ b.length := by
    split_ifs at ht <;> omega
  rw [if_neg (by simp), readAt_holding (by omega), pure_bind]
  dsimp only
  cases findEnd ((b.drop (b.length - tail)).take tail) (tail - 22 + 1) with
  | none => rfl
  | some at' =>
    dsimp only
    split_ifs with h64 hout hroom hempty
    · rfl
    · rfl
    · exact absurd hroom (by simp)
    · rw [hempty, List.take_zero]
    · rw [readAt_holding (by omega), pure_bind]

end BananaOS.Zip
