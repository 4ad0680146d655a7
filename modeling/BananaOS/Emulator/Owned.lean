import BananaOS.Emulator.Screen
import Mathlib.Data.List.Perm.Basic

/-!
# Every line's cells are owned once

`Ledger out st` is the account of the blocks of cells: the ones held outside the scrollback (`out`),
the scrollback's and the ones given back are together exactly those ever handed out, each once.  So
no block has two owners, none is used after it was freed or freed twice, and none is lost.  The
functions that move lines about each turn one account into another.

The second half is about the cells of the lines that are made or brought to another width.  What is
asked of a line's cells besides their number is a parameter `Q`, as long as blank lines have it and
`fitCells` keeps it (`Fitting`).
-/

namespace BananaOS.Emulator

open BananaOS.Lib BananaOS.Lib.Checked

variable {st : Store} {out out' : List ℕ} {l : Line} {ls : List Line} {id : ℕ} {cols : ℤ}

/-- The blocks a list of lines owns. -/
def ids (ls : List Line) : List ℕ := ls.map Line.id

@[simp] theorem ids_nil : ids [] = [] := rfl

@[simp] theorem ids_cons : ids (l :: ls) = l.id :: ids ls := rfl

@[simp] theorem ids_append (ls ls' : List Line) : ids (ls ++ ls') = ids ls ++ ids ls' :=
  List.map_append ..

/-- The scrollback's lines. -/
def Store.sbLines (st : Store) : List Line := st.sb.list st.sbMax.toNat

/-- The blocks `out`, the scrollback's and the freed ones are all there are, each once. -/
structure Ledger (out : List ℕ) (st : Store) : Prop where
  len_le : (st.sb.len : ℤ) ≤ max st.sbMax 0
  head_lt : 0 < st.sbMax → st.sb.head < st.sbMax.toNat
  owned : (out ++ (ids st.sbLines ++ st.freed)).Perm (List.range st.next)

namespace Ledger

theorem perm (h : Ledger out st) (hp : out'.Perm out) : Ledger out' st :=
  { h with owned := (hp.append_right _).trans h.owned }

theorem free (h : Ledger (id :: out) st) : Ledger out (st.free id) := by
  refine { h with owned := List.Perm.trans ?_ h.owned }
  show (out ++ (ids st.sbLines ++ id :: st.freed)).Perm _
  rw [← List.append_assoc, ← List.append_assoc]
  exact List.perm_middle

theorem fresh (h : Ledger out st) : Ledger (st.next :: out) { st with next := st.next + 1 } := by
  refine { h with owned := ?_ }
  show (st.next :: (out ++ (ids st.sbLines ++ st.freed))).Perm (List.range (st.next + 1))
  rw [List.range_succ]
  exact (h.owned.cons _).trans (List.perm_append_singleton _ _).symm

theorem lineInit (h : Ledger out st) :
    Ledger ((lineInit st cols).1.id :: out) (lineInit st cols).2 :=
  h.fresh

theorem realloc (h : Ledger (l.id :: out) st) (c : List Cell) :
    Ledger ((st.realloc l c).1.id :: out) (st.realloc l c).2 :=
  (h.fresh.perm (List.Perm.swap ..)).free

theorem freshLines (h : Ledger out st) (n : ℕ) :
    Ledger (ids (freshLines cols n st).1 ++ out) (freshLines cols n st).2 := by
  induction n generalizing out st with
  | zero => exact h
  | succ n ih =>
    have h1 := ih (@Ledger.lineInit _ _ cols h)
    exact h1.perm List.perm_middle.symm

theorem trimLine (h : Ledger (l.id :: out) st) :
    Ledger ((trimLine st l).1.id :: out) (trimLine st l).2 := by
  unfold Emulator.trimLine
  split_ifs with hc
  · exact h.realloc _
  · exact h

theorem sbKeep (h : Ledger (l.id :: out) st) (hpos : 0 < st.sbMax) : Ledger out (sbKeep st l) := by
  have hlen := h.len_le
  have hhead := h.head_lt hpos
  have howned := h.owned
  unfold Store.sbLines at howned
  unfold Emulator.sbKeep
  split_ifs with hfull
  · have hpos' : 0 < st.sb.len := by omega
    have hN : st.sb.len = st.sbMax.toNat := by omega
    have hl : (st.sb.list st.sbMax.toNat) =
        st.sb.cell st.sb.head :: (st.sb.list st.sbMax.toNat).tail :=
      RingBuf.list_cons st.sb hpos' hhead
    refine ⟨hlen, fun _ => Nat.mod_lt _ (by omega), ?_⟩
    show (out ++ (ids (((st.sb.setFirst l).skipFull st.sbMax.toNat).list st.sbMax.toNat) ++
      (st.sb.cell st.sb.head).id :: st.freed)).Perm (List.range st.next)
    rw [RingBuf.list_setFirst_skipFull st.sb l hpos' hN hhead]
    refine List.Perm.trans ?_ howned
    rw [hl]
    simp only [ids_append, ids_cons, ids_nil, List.tail_cons, List.cons_append]
    rw [List.perm_iff_count]
    intro a
    simp only [List.count_append, List.count_cons, List.count_nil]
    omega
  · have hlt : st.sb.len < st.sbMax.toNat := by omega
    refine ⟨?_, h.head_lt, ?_⟩
    · show ((st.sb.len + 1 : ℕ) : ℤ) ≤ max st.sbMax 0
      omega
    · show (out ++ (ids ((st.sb.put st.sbMax.toNat l).list st.sbMax.toNat) ++ st.freed)).Perm
        (List.range st.next)
      rw [RingBuf.list_put _ _ hlt]
      refine List.Perm.trans ?_ howned
      rw [List.perm_iff_count]
      intro a
      simp only [ids_append, ids_cons, ids_nil, List.count_append, List.count_cons, List.count_nil]
      omega

theorem trimLine_sbMax (st : Store) (l : Line) : (Emulator.trimLine st l).2.sbMax = st.sbMax := by
  unfold Emulator.trimLine
  split_ifs <;> rfl

theorem sbPush (h : Ledger (l.id :: out) st) : Ledger out (sbPush st l) := by
  unfold Emulator.sbPush
  split_ifs with hmax
  · exact h.free
  · exact h.trimLine.sbKeep (by rw [trimLine_sbMax]; omega)

theorem dropLines (h : Ledger (ids ls ++ out) st) (keepInSb : Bool) :
    Ledger out (dropLines keepInSb ls st) := by
  induction ls generalizing st with
  | nil => exact h
  | cons l ls ih =>
    unfold Emulator.dropLines
    cases keepInSb with
    | false => exact ih h.free
    | true => exact ih h.sbPush

end Ledger

/-! ## Lines that fit -/

/-- A line with `cols` cells, which have `Q`. -/
structure LineFits (Q : List Cell → Prop) (cols : ℤ) (l : Line) : Prop where
  len : l.len = cols
  cells : Q l.c

/-- `rows` lines with `cols` cells each. -/
structure RowsFit (Q : List Cell → Prop) (cols rows : ℤ) (ls : List Line) : Prop where
  count : (ls.length : ℤ) = rows
  fits : ∀ l ∈ ls, LineFits Q cols l

/-- Blank lines have `Q`, and lines keep it at another width. -/
structure Fitting (Q : List Cell → Prop) : Prop where
  blank : ∀ n bg, Q (List.replicate n (blankCell bg))
  fit : ∀ c c' (cols : ℤ), 0 < cols → cols ≠ c.length → Q c → fitCells c cols = some c' → Q c'

section Fits

variable {Q : List Cell → Prop}

theorem lineInit_fits (hQ : Fitting Q) (hc : 0 ≤ cols) :
    LineFits Q cols (lineInit st cols).1 := by
  refine ⟨?_, hQ.blank _ _⟩
  show ((List.replicate cols.toNat (blankCell vtDefault)).length : ℤ) = cols
  rw [List.length_replicate]
  omega

theorem freshLines_fits (hQ : Fitting Q) (hc : 0 ≤ cols) (n : ℕ) :
    (freshLines cols n st).1.length = n ∧ ∀ l ∈ (freshLines cols n st).1, LineFits Q cols l := by
  induction n generalizing st with
  | zero => exact ⟨rfl, fun _ h => absurd h List.not_mem_nil⟩
  | succ n ih =>
    obtain ⟨h1, h2⟩ := ih
    refine ⟨congrArg Nat.succ h1, fun l hl => ?_⟩
    rcases List.mem_cons.mp hl with rfl | hl
    · exact lineInit_fits hQ hc
    · exact h2 l hl

theorem fitCells_runs (c : List Cell) (hcols : 0 < cols) :
    Runs (fitCells c cols) fun c' => (c'.length : ℤ) = cols := by
  unfold fitCells
  by_cases hgrow : cols > c.length
  · rw [if_pos hgrow]
    refine Runs.pure ?_
    rw [List.length_append, List.length_replicate]
    omega
  · rw [if_neg hgrow]
    have hlen : ((c.take cols.toNat).length : ℤ) = cols := by
      rw [List.length_take]
      omega
    simp only [if_pos (show cols > 0 from hcols)]
    refine Runs.bind (get_runs (by omega) (by omega)) fun last _ _ => Runs.ite (fun _ => ?_)
      fun _ => Runs.pure hlen
    rw [set_eq (by omega) (by omega)]
    refine Runs.pure ?_
    rw [List.length_set, hlen]

theorem lineFit_runs (hQ : Fitting Q) (hcols : 0 < cols) (hl : Q l.c)
    (h : Ledger (l.id :: out) st) :
    Runs (lineFit st l cols) fun r => LineFits Q cols r.1 ∧ Ledger (r.1.id :: out) r.2 := by
  unfold lineFit
  by_cases hlen : l.len = cols
  · rw [if_pos hlen]
    exact Runs.pure ⟨⟨hlen, hl⟩, h⟩
  · rw [if_neg hlen]
    refine Runs.bind (fitCells_runs l.c hcols) fun c hc hclen => Runs.pure ⟨⟨hclen, ?_⟩, h.realloc c⟩
    exact hQ.fit l.c c cols hcols (fun he => hlen he.symm) hl hc

theorem fitLines_runs (hQ : Fitting Q) (hcols : 0 < cols) (rows : ℕ) (hls : ∀ l ∈ ls, Q l.c)
    (h : Ledger (ids ls ++ out) st) :
    Runs (fitLines cols rows ls st) fun r =>
      r.1.length = min rows ls.length ∧ (∀ l ∈ r.1, LineFits Q cols l) ∧
        Ledger (ids r.1 ++ out) r.2 := by
  induction ls generalizing rows out st with
  | nil =>
    cases rows <;>
    exact Runs.pure ⟨(Nat.min_zero _).symm, fun _ hl => absurd hl List.not_mem_nil, h⟩
  | cons l ls ih =>
    have htail : ∀ l' ∈ ls, Q l'.c := fun l' hl' => hls l' (List.mem_cons_of_mem _ hl')
    cases rows with
    | zero =>
      refine (ih 0 htail h.free).mono fun r hr => ?_
      rw [Nat.zero_min] at hr ⊢
      exact hr
    | succ rows =>
      refine Runs.bind (lineFit_runs hQ hcols (hls l (List.mem_cons_self ..)) h) ?_
      rintro ⟨l', st'⟩ - ⟨hl', hst'⟩
      have hst : Ledger (ids ls ++ (l'.id :: out)) st' := hst'.perm List.perm_middle
      refine Runs.bind (ih rows htail hst) ?_
      rintro ⟨ls', st''⟩ - ⟨hlen, hfits, hst''⟩
      refine Runs.pure ⟨?_, fun l'' hl'' => ?_, hst''.perm List.perm_middle.symm⟩
      · show ls'.length + 1 = min (rows + 1) (ls.length + 1)
        have hlen' : ls'.length = min rows ls.length := hlen
        omega
      · rcases List.mem_cons.mp hl'' with rfl | hl''
        · exact hl'
        · exact hfits l'' hl''

end Fits

end BananaOS.Emulator
