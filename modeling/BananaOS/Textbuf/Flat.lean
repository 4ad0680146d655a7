import BananaOS.Lib.Lines
import BananaOS.Textbuf.Edit

/-!
# A flat text with a cursor

What the text buffer is for: a string of bytes, a cursor (the number of bytes before it), the other
end of the selection, and the column that moves up and down keep to.  The edits are written on the
string alone.  A line is what stands between two line breaks; only `tb_goto` and the moves up and
down, which name a line by its number, look at the string as the list of its lines.

A character begins at a byte that is not a continuation byte, or at the start of a line: that is
what the buffer takes for a character in any text.  In a text that is UTF-8 it is the character
of the encoding (`Textbuf/Chars.lean`).
-/

namespace BananaOS.Textbuf

open Lib.Lines

/-- A string, a cursor, the other end of the selection and the column to keep. -/
structure Flat where
  text : List UInt8
  cur : ℕ
  anchor : Option ℕ
  want : ℕ
  deriving DecidableEq, Repr

namespace Flat

/-- The string without the bytes from `i` to `j`. -/
def erase (s : List UInt8) (i j : ℕ) : List UInt8 := s.take i ++ s.drop j

/-- The start of the line of `i`. -/
def lineStart (s : List UInt8) (i : ℕ) : ℕ := i - (sinceSep nl (s.take i)).length

/-- The end of the line of `i`. -/
def lineEnd (s : List UInt8) (i : ℕ) : ℕ := i + (untilSep nl (s.drop i)).length

/-- The column of `i` on the screen. -/
def col (s : List UInt8) (i : ℕ) : ℕ := u8Width (sinceSep nl (s.take i))

/-- The start of the character before `i`; a line break is a character. -/
def prev (s : List UInt8) (i : ℕ) : ℕ :=
  let l := sinceSep nl (s.take i)
  if l = [] then i - 1 else lineStart s i + u8Prev l l.length

/-- The start of the character after the one at `i`. -/
def next (s : List UInt8) (i : ℕ) : ℕ :=
  if untilSep nl (s.drop i) = [] then i + 1
  else i + 1 + ((s.drop (i + 1)).takeWhile u8Cont).length

/-- The place of byte `x` of line `y`, brought into the text and to the start of a character. -/
def place (s : List UInt8) (x y : ℤ) : ℕ :=
  let ls := s.splitOn nl
  let y := (max 0 (min y (ls.length - 1))).toNat
  let l := ls.getD y []
  offset nl ls y (u8Back l (max 0 (min x l.length)).toNat)

/-- The two ends of what is selected, when that is something. -/
def selection (f : Flat) : Option (ℕ × ℕ) :=
  match f.anchor with
  | none => none
  | some a => if a = f.cur then none else some (min a f.cur, max a f.cur)

def selDelete (f : Flat) : Flat :=
  match f.selection with
  | none => { f with anchor := none }
  | some (i, j) => { f with text := erase f.text i j, cur := i, anchor := none }

def insert (f : Flat) (s : List UInt8) : Flat :=
  let f := f.selDelete
  let s := s.filter (· ≠ cr)
  let text := f.text.take f.cur ++ (s ++ f.text.drop f.cur)
  let cur := f.cur + s.length
  ⟨text, cur, none, col text cur⟩

def backspace (f : Flat) : Flat :=
  if f.selection.isSome then f.selDelete
  else if f.cur = 0 then { f with anchor := none }
  else
    let i := prev f.text f.cur
    let text := erase f.text i f.cur
    ⟨text, i, none, col text i⟩

def delete (f : Flat) : Flat :=
  if f.selection.isSome then f.selDelete
  else if f.cur = f.text.length then { f with anchor := none }
  else
    let text := erase f.text f.cur (next f.text f.cur)
    -- a line break is taken away from its other side, which sets the column anew
    let want := if lineEnd f.text f.cur = f.cur then col text f.cur else f.want
    ⟨text, f.cur, none, want⟩

/-- The line of the cursor goes, with the line break after it; the last line with the one before
it, and the cursor is then at the start of the line before. -/
def cutLine (f : Flat) : Flat :=
  let i := lineStart f.text f.cur
  let j := lineEnd f.text f.cur
  if j < f.text.length then { f with text := erase f.text i (j + 1), cur := i, anchor := none }
  else
    let text := f.text.take (i - 1)
    { f with text := text, cur := lineStart text (i - 1), anchor := none }

def startSel (f : Flat) (select : Bool) : Flat :=
  { f with anchor := if select then some (f.anchor.getD f.cur) else none }

def home (f : Flat) (select : Bool) : Flat :=
  { f.startSel select with cur := lineStart f.text f.cur, want := 0 }

def «end» (f : Flat) (select : Bool) : Flat :=
  let cur := lineEnd f.text f.cur
  { f.startSel select with cur := cur, want := col f.text cur }

def goto (f : Flat) (x y : ℤ) (select : Bool) : Flat :=
  let cur := place f.text x y
  { f.startSel select with cur := cur, want := col f.text cur }

/-- Up and down by lines, to the column to keep; beyond the first line to its start, beyond the
last one towards its end. -/
def vertical (f : Flat) (dy : ℤ) : Flat :=
  let ls := f.text.splitOn nl
  let y : ℤ := (f.text.take f.cur).count nl + dy
  let want := if y < 0 then 0
    else if y ≥ ls.length then (ls.getD (ls.length - 1) []).length else f.want
  let y := max 0 (min y (ls.length - 1))
  { f with cur := place f.text (u8ByteAtCol (ls.getD y.toNat []) want) y, want := want }

def move (f : Flat) (dx dy : ℤ) (select : Bool) : Flat :=
  let f := f.startSel select
  if dy ≠ 0 then f.vertical dy
  else
    let cur := if dx < 0 ∧ f.cur ≠ 0 then prev f.text f.cur
      else if dx > 0 ∧ f.cur ≠ f.text.length then next f.text f.cur else f.cur
    { f with cur := cur, want := col f.text cur }

def selectAll (f : Flat) : Flat := { f with anchor := some 0, cur := f.text.length }

/-- A carriage return before a line break, or at the very end, is dropped. -/
def unCrlf : List UInt8 → List UInt8
  | [] => []
  | b :: s => if b = cr ∧ (s = [] ∨ s.head? = some nl) then unCrlf s else b :: unCrlf s

/-- What a buffer can hold: lines and texts below `2 ^ 31` bytes, and `MAX_LINES` lines. -/
def Fits (s : List UInt8) : Prop := s.length < 2 ^ 31 ∧ s.count nl + 1 ≤ maxLines

instance (s : List UInt8) : Decidable (Fits s) := inferInstanceAs (Decidable (_ ∧ _))

def load (f : Flat) (s : List UInt8) : Flat :=
  if Fits s then ⟨unCrlf s, 0, none, 0⟩ else f

def step (f : Flat) : Op → Flat
  | .load text => f.load text
  | .insert s => f.insert s
  | .backspace => f.backspace
  | .delete => f.delete
  | .selDelete => f.selDelete
  | .cutLine => f.cutLine
  | .move dx dy select => f.move dx dy select
  | .home select => f.home select
  | .end select => f.end select
  | .goto x y select => f.goto x y select
  | .selectAll => f.selectAll

/-- The empty text. -/
def empty : Flat := ⟨[], 0, none, 0⟩

end Flat

end BananaOS.Textbuf
