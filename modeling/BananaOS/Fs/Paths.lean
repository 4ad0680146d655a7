import Mathlib.Data.List.Basic
import Mathlib.Data.List.SplitOn
import Mathlib.Tactic.Common

/-!
# Paths

How `kernel/fs.c` reads a path: a leading "~" is the home folder, the components stand between the slashes,
and the walk begins at the root or in a folder.
-/

namespace BananaOS.Fs

/-- A C string, without its terminating zero. -/
abbrev Name := List UInt8

def nameLen : Nat := 256
def pathLen : Nat := 512

/-- `k_strcpy` into a name's array: what fits of it. -/
def cut (s : Name) : Name := s.take (nameLen - 1)

def slash : UInt8 := 47

/-- "." -/
def dot : Name := [46]

/-- ".." -/
def dotdot : Name := [46, 46]

/-- `FS_HOME_PATH`, "/home/banana". -/
def homePath : Name := [47, 104, 111, 109, 101, 47, 98, 97, 110, 97, 110, 97]

/-- A leading "~" becomes the home folder's path. -/
def expandTilde (path : Name) : Name :=
  match path with
  | 126 :: rest => if rest = [] ∨ rest.head? = some slash then (homePath ++ rest).take (pathLen - 1)
      else path.take (pathLen - 1)
  | _ => path.take (pathLen - 1)

/-- The components `next_component` gives one after the other. -/
def components (path : Name) : List Name :=
  ((path.splitOn slash).filter (· ≠ [])).map cut

/-- The folder a path starts from. -/
def startOf (start : Int) (path : Name) : Int :=
  if path.head? = some slash then 0 else start

end BananaOS.Fs
