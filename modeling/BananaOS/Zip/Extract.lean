import BananaOS.Fs.Paths
import BananaOS.Lib.Pieces
import BananaOS.Zip.Archive
import Mathlib.Data.List.DropRight

/-!
# Extracting an archive

`safe_path`, `make_parent` and `zip_extract` of `zip.c`.  `safe_path` is told where its output buffer
is and how long, and prints the destination into it with `ksnprintf`, which gives back the length of
all of it, also where it did not fit.  So that what happens behind the buffer's end is visible, the
output is memory from the buffer's start on, with whatever it held before.

What an extraction asks the file tree to change is recorded, with the path it asks it for.
-/

namespace BananaOS.Zip

open BananaOS.Lib
open BananaOS.Fs (slash dot dotdot pathLen nameLen)

/-! ## The path under the destination -/

/-- Memory from the output buffer on. -/
abbrev Memory := ℕ → UInt8

/-- `ksnprintf(out, cap, "%s", s)`: what fits of `s`, then a zero. -/
def printString (m : Memory) (cap : ℕ) (s : Name) : Memory := fun i =>
  if i < min s.length (cap - 1) then byteAt s i
  else if i = min s.length (cap - 1) then 0
  else m i

/-- The C string in a buffer of `cap` bytes. -/
def cString (m : Memory) (cap : ℕ) : Name := ((List.range cap).map m).takeWhile (· ≠ 0)

/-- `while (n > 1 && out[n - 1] == '/') out[--n] = 0;` -/
def stripLoop : ℕ → Memory → Memory × ℕ
  | 0, m => (m, 0)
  | n + 1, m => if 0 < n ∧ m n = slash then stripLoop n (Function.update m n 0) else (m, n + 1)

/-- `out`, `n` and `parts` -/
structure Out where
  mem : Memory
  n : ℕ
  parts : ℕ

/-- What the loop of `safe_path` does with one part of the name; `none` is its -1. -/
def addPart (cap : ℕ) (o : Out) (s : Name) : Option Out :=
  if s = [] ∨ s = dot then some o
  else if s = dotdot then none
  else if nameLen ≤ s.length ∨ cap ≤ o.n + 1 + s.length then none
  else
    some
      { mem := fun i =>
          if i = o.n then slash
          else if o.n < i ∧ i < o.n + 1 + s.length then byteAt s (i - (o.n + 1))
          else if i = o.n + 1 + s.length then 0
          else o.mem i
        n := o.n + 1 + s.length
        parts := o.parts + 1 }

/-- `name[0] == '/' || (name[0] && name[1] == ':')` -/
def isAbsolute (name : Name) : Bool :=
  byteAt name 0 == slash || (byteAt name 0 != 0 && byteAt name 1 == 58)

/-- `safe_path`: the memory after it, or `none` for -1. -/
def safePath (m : Memory) (cap : ℕ) (dest name : Name) : Option Memory :=
  if isAbsolute name then none
  else
    let start := stripLoop dest.length (printString m cap dest)
    match (name.splitOn slash).foldlM (addPart cap) ⟨start.1, start.2, 0⟩ with
    | none => none
    | some o => if o.parts = 0 then none else some o.mem

/-- The folder `make_parent` asks for: what is before the last slash, if that is not the first byte. -/
def parentOf (path : Name) : Option Name :=
  let d := (path.rdropWhile (· ≠ slash)).dropLast
  if d = [] then none else some d

/-! ## The archive's entries -/

/-- `ZIP_OVERWRITE` is the one flag that extracting looks at. -/
abbrev Overwrite := Bool

/-- `zip_stats_t`, what extracting counts of it -/
structure Stats where
  files : ℕ
  dirs : ℕ
  skipped : ℕ
  failed : ℕ
  bytes : ℕ

/-- What the file tree is asked to change. -/
inductive Change where
  | mkdir (path : Name)
  | write (path : Name) (data : Bytes)
  | date (path : Name) (mtime : ℕ)

def Change.path : Change → Name
  | .mkdir p => p
  | .write p _ => p
  | .date p _ => p

/-- The first problem, as `err` has it: the entry's name, where there is one, and the text. -/
structure Problem where
  name : Option Name
  text : String

/-- The state while an archive is extracted. -/
structure Extraction (σ : Type) where
  world : σ
  stats : Stats
  err : Option Problem
  changes : List Change

/-- A program that extracts. -/
abbrev X (σ : Type) := StateM (Extraction σ)

variable {σ α : Type}

/-- A call of something outside of `zip.c`. -/
def call (x : StateM σ α) : X σ α := fun s => ((x s.world).1, { s with world := (x s.world).2 })

def change (c : Change) : X σ Unit := modify fun s => { s with changes := s.changes ++ [c] }

def count (f : Stats → Stats) : X σ Unit := modify fun s => { s with stats := f s.stats }

/-- `seterr`: the first problem stays. -/
def seterr (p : Problem) : X σ Unit := modify fun s => { s with err := s.err.or (some p) }

/-- An entry that is not extracted, and why. -/
def skip (e : Entry) (text : String) : X σ Unit := do
  count fun st => { st with skipped := st.skipped + 1 }
  seterr ⟨some e.name, text⟩

def fail (e : Entry) (text : String) : X σ Unit := do
  count fun st => { st with failed := st.failed + 1 }
  seterr ⟨some e.name, text⟩

/-- `fs_find_dir(path) >= 0 || fs_mkdir_p(path) >= 0` -/
def needDir (w : World σ) (path : Name) : X σ Bool := do
  if 0 ≤ (← call (w.findDir path)) then return true
  change (.mkdir path)
  return decide (0 ≤ (← call (w.mkdirP path)))

/-- `make_parent` -/
def makeParent (w : World σ) (path : Name) : X σ Bool := do
  match parentOf (path.take (pathLen - 1)) with
  | none => return true
  | some d => needDir w d

/-- The path is taken, by a folder or by a file that is not to be replaced. -/
def isThere (w : World σ) (path : Name) (overwrite : Overwrite) : X σ Bool := do
  if 0 ≤ (← call (w.findDir path)) then return true
  if 0 ≤ (← call (w.findFile path)) then return !overwrite
  return false

/-- An entry that is a folder. -/
def extractDir (w : World σ) (e : Entry) (path : Name) : X σ Unit := do
  if ← needDir w path then
    count fun st => { st with dirs := st.dirs + 1 }
    let d ← call (w.findDir path)
    if 0 ≤ d ∧ e.mtime ≠ 0 then
      change (.date path e.mtime)
      call (w.setTimes true d e.mtime)
  else fail e "failed: cannot make the folder"

/-- An entry that is a file. -/
def extractFile (w : World σ) (z : Zr) (e : Entry) (localOff : ℕ) (path : Name) : X σ Unit := do
  match ← call (entryData w z e localOff) with
  | .error why => fail e why
  | .ok data =>
    if (← makeParent w path) = false then fail e "could not be written"
    else
      change (.write path data)
      let fi ← call (w.writePath path data)
      if fi < 0 then fail e "could not be written"
      else
        count fun st => { st with files := st.files + 1, bytes := (st.bytes + e.size) % 2 ^ 32 }
        if e.mtime ≠ 0 then
          change (.date path e.mtime)
          call (w.setTimes false fi e.mtime)

/-- One round of the loop of `zip_extract`; `heap` is what is in memory from `path` on. -/
def extractEntry (w : World σ) (z : Zr) (dest : Name) (overwrite : Overwrite) (heap : Memory)
    (e : Entry) (localOff : ℕ) : X σ Unit := do
  match safePath heap pathLen dest e.name with
  | none => skip e "skipped: unsafe name"
  | some m =>
    let path := cString m pathLen
    if e.encrypted then skip e "skipped: encrypted"
    else if e.isDir then extractDir w e path
    else if e.method ≠ 0 ∧ e.method ≠ 8 then skip e "skipped: unsupported compression"
    else if e.size = 0xFFFFFFFF ∨ e.csize = 0xFFFFFFFF then skip e "skipped: ZIP64 entry"
    else if ← isThere w path overwrite then skip e "skipped: already there"
    else extractFile w z e localOff path

/-- The loop; true when the directory is damaged.  A record has 46 bytes, so that its length is a
number of rounds that is enough. -/
def extractLoop (w : World σ) (z : Zr) (dest : Name) (overwrite : Overwrite)
    (heap : ℕ → Memory) : ℕ → ℕ → X σ Bool
  | 0, _ => return false
  | n + 1, pos =>
    match zrNext z.cd pos with
    | .stop => return false
    | .damaged => return true
    | .entry e localOff pos' => do
      extractEntry w z dest overwrite (heap pos) e localOff
      extractLoop w z dest overwrite heap n pos'

/-- `zip_extract`; true is its 0.  `heap` is what is in memory from `path` on when the entry at a
place of the directory comes. -/
def zipExtract (w : World σ) (heap : ℕ → Memory) (zip dest : Name) (overwrite : Overwrite) :
    X σ Bool := do
  match ← call (zrOpen w zip) with
  | .error text =>
    seterr ⟨none, text⟩
    return false
  | .ok z =>
    if (← needDir w dest) = false then
      seterr ⟨none, "cannot make the destination folder"⟩
      return false
    let e ← call (w.kmalloc 540)
    let path ← call (w.kmalloc pathLen)
    if e = false ∨ path = false then
      seterr ⟨none, "out of memory"⟩
      return false
    if ← extractLoop w z dest overwrite heap (z.cd.length + 1) 0 then
      count fun st => { st with failed := st.failed + 1 }
      seterr ⟨none, "damaged archive (central directory)"⟩
    return true

/-- What an extraction asks the file tree to change, from a state `s` of the world. -/
def changesOf (w : World σ) (heap : ℕ → Memory) (zip dest : Name) (overwrite : Overwrite) (s : σ) :
    List Change :=
  (zipExtract w heap zip dest overwrite ⟨s, ⟨0, 0, 0, 0, 0⟩, none, []⟩).2.changes

end BananaOS.Zip
