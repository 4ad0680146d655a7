import BananaOS.Emulator.Controls

/-!
# One byte

A byte given to the emulator moves the cursor, scrolls, erases, or prints.  All of this keeps what
`Fits` says, except that a character may be printed where there is no room for it, and that printing
and ICH and DCH may break what is asked of the cells.

`Rules` are conditions for these steps: on a state in which a character is put into its cells
(`place`), in which the last cell of a line is blanked because a double-width character does not fit
(`last`), and in which ICH or DCH is done.  `Rules.byte` says that every such step the byte leads to
meets its condition, in the state that step is made in.  Rules are `Sound` when the conditions are
enough, and then `Fits.byte` walks through the parser once for all of them.
-/

namespace BananaOS.Emulator

open BananaOS.Lib BananaOS.Lib.Checked

/-- Conditions for the steps that move or overwrite cells. -/
structure Rules where
  place : Vt → ℤ → Prop
  last : Vt → Prop
  ich : Grid → ℤ → Prop
  dch : Grid → ℤ → Prop

namespace Rules

variable (R : Rules) (W : Widths)

/-- `c` may be printed. -/
def put (s : Vt) (c : ℕ) : Prop :=
  charWidth W (glyph s c) ≠ 0 → ∀ s1, wrapPending s = some s1 →
    if charWidth W (glyph s c) = 2 ∧ s1.cur.x = s1.cols - 1 then
      s1.autowrap → R.last s1 ∧
        ∀ s2, wrapWide s1 = some s2 → R.place s2 (charWidth W (glyph s c))
    else R.place s1 (charWidth W (glyph s c))

/-- The last character may be printed `n` times more. -/
def rep : ℕ → Vt → Prop
  | 0, _ => True
  | n + 1, s =>
    s.lastCh ≠ 0 → R.put W s s.lastCh ∧ ∀ s', putChar W s s.lastCh = some s' → rep n s'

/-- The control sequence that ends in `f` may be done. -/
def ansi (s : Vt) (f : Char) : Prop :=
  s.inter = '\x00' →
    (f = '@' → R.ich s.toGrid (param s 0 1)) ∧ (f = 'P' → R.dch s.toGrid (param s 0 1)) ∧
      (f = 'b' → R.rep W (param s 0 1).toNat s)

/-- A byte of a control sequence. -/
def csiByte (s : Vt) (b : ℕ) : Prop :=
  s.priv = '\x00' → R.ansi W { s with state := .ground } (chr b)

/-- A byte that starts a character of several bytes, or is out of place. -/
def start (s : Vt) (b : ℕ) : Prop :=
  (0xC2 ≤ b ∧ b ≤ 0xDF) ∨ (0xE0 ≤ b ∧ b ≤ 0xEF) ∨ (0xF0 ≤ b ∧ b ≤ 0xF4) ∨
    R.put W { s with utf8Left := 0 } 0xFFFD

/-- A byte outside a sequence. -/
def ground (s : Vt) (b : ℕ) : Prop :=
  (0x20 ≤ b → b < 0x7F → R.put W { s with utf8Left := 0 } b) ∧
  (0x80 ≤ b →
    if s.utf8Left ≠ 0 ∧ b &&& 0xC0 = 0x80 then
      s.utf8Left = 1 →
        R.put W { s with utf8Cp := s.utf8Cp <<< 6 ||| (b &&& 0x3F), utf8Left := 0 }
          (s.utf8Cp <<< 6 ||| (b &&& 0x3F))
    else (s.utf8Left ≠ 0 → R.put W s 0xFFFD) ∧ ∀ s', cutShort W s = some s' → R.start W s' b)

/-- A byte: every step it leads to meets its condition. -/
def byte (s : Vt) (b : UInt8) : Prop :=
  match s.state with
  | .csi => R.csiByte W s b.toNat
  | .ground => R.ground W s b.toNat
  | .oscEsc => chr b.toNat ≠ '\\' → R.ground W { s with state := .ground } b.toNat
  | _ => True

/-- The conditions are enough for the cells to keep `Q`, and for a double-width character to have
room in the next line. -/
structure Sound (lo : ℤ) (Q : List Cell → Prop) : Prop extends Editing Q where
  place : ∀ (s : Vt) (w : ℤ) (c : ℕ) (l : Line) (c' : List Cell), Fits lo Q s.toGrid →
    w = 1 ∨ w = 2 → s.cur.x + w ≤ s.cols → R.place s w → get s.lines s.cur.y = some l →
    LineFits Q s.cols l → printCells s.toGrid s.insert c w s.cur.x l.c = some c' → Q c'
  room : ∀ s : Vt, Fits lo Q s.toGrid → R.last s → 2 ≤ s.cols
  last : ∀ (s : Vt) (l : Line) (c' : List Cell), Fits lo Q s.toGrid → R.last s →
    s.cur.x = s.cols - 1 → get s.lines s.cur.y = some l → LineFits Q s.cols l →
    Emulator.blank s.toGrid l.c s.cur.x 1 = some c' → Q c'
  ich : ∀ (g : Grid) (n : ℤ) (l : Line) (c' : List Cell), Fits lo Q g → 1 ≤ n → R.ich g n →
    get g.lines g.cur.y = some l → LineFits Q g.cols l →
    Fits.insertedCells g (Fits.movedCells g n) l.c = some c' → Q c'
  dch : ∀ (g : Grid) (n : ℤ) (l : Line) (c' : List Cell), Fits lo Q g → 1 ≤ n → R.dch g n →
    get g.lines g.cur.y = some l → LineFits Q g.cols l →
    Fits.deletedCells g (Fits.movedCells g n) l.c = some c' → Q c'

end Rules

/-! ## Printing -/

theorem printCells_runs {g : Grid} {c : ℕ} {w x : ℤ} {l : List Cell} (insert : Bool)
    (hl : (l.length : ℤ) = g.cols) (hw : w = 1 ∨ w = 2) (hx : 0 ≤ x) (hxw : x + w ≤ g.cols) :
    Runs (printCells g insert c w x l) fun l' => (l'.length : ℤ) = g.cols := by
  have hroom : Runs (makeRoom g insert w x l) fun l' => (l'.length : ℤ) = g.cols := by
    refine Runs.ite (fun _ => Runs.ite (fun hn => ?_) fun _ => Runs.pure hl) fun _ => Runs.pure hl
    refine (slide_runs (by omega) hx (by omega) (by omega) (by omega)).mono fun l' hl' => ?_
    rw [hl'.1, hl]
  refine Runs.bind hroom fun l₁ _ h₁ => ?_
  have hfirst : Runs (blankFirst g x l₁) fun l' => (l'.length : ℤ) = g.cols := by
    refine Runs.bind (get_runs hx (by omega)) fun a _ _ => Runs.ite (fun ha => ?_) fun _ =>
      Runs.pure h₁
    have hpos : 0 < x := by
      simp only [Bool.and_eq_true, decide_eq_true_eq] at ha
      exact ha.2
    refine (fill_runs (by omega) (by omega) (by omega)).mono fun l' hl' => ?_
    rw [hl'.1, h₁]
  refine Runs.bind hfirst fun l₂ _ h₂ => ?_
  have hsecond : Runs (blankSecond g w x l₂) fun l' => (l'.length : ℤ) = g.cols := by
    refine Runs.ite (fun hlt => ?_) fun _ => Runs.pure h₂
    refine Runs.bind (get_runs (by omega) (by omega)) fun b _ _ => Runs.ite (fun _ => ?_) fun _ =>
      Runs.pure h₂
    refine (fill_runs (by omega) (by omega) (by omega)).mono fun l' hl' => ?_
    rw [hl'.1, h₂]
  refine Runs.bind hsecond fun l₃ _ h₃ => ?_
  refine Runs.bind_eq (set_eq hx (by omega)) (Runs.ite (fun _ => ?_) fun _ => Runs.pure ?_)
  · rw [set_eq (by omega) (by rw [List.length_set]; omega)]
    refine Runs.pure ?_
    rw [List.length_set, List.length_set, h₃]
  · rw [List.length_set, h₃]

namespace Fits

variable {lo : ℤ} {Q : List Cell → Prop} {R : Rules} {W : Widths} {s : Vt}

theorem onGrid {f : Grid → Option Grid} {P : Grid → Prop} (hf : Runs (f s.toGrid) P) :
    Runs (s.onGrid f) fun s' => P s'.toGrid ∧ s' = { s with toGrid := s'.toGrid } :=
  Runs.bind hf fun _ _ hg => Runs.pure ⟨hg, rfl⟩

theorem lift {f : Grid → Option Grid} (hf : Runs (f s.toGrid) (Fits lo Q)) :
    Runs (s.onGrid f) fun s' => Fits lo Q s'.toGrid :=
  (onGrid hf).mono fun _ h => h.1

theorem wrapLine (h : Fits lo Q s.toGrid) (hQ : Fitting Q) :
    Runs (wrapLine s) fun s' =>
      Fits lo Q s'.toGrid ∧ s'.cur.x = 0 ∧ s'.cols = s.cols ∧ s'.autowrap = s.autowrap := by
  refine Runs.bind (onGrid (h.editLine h.cur.y_nonneg h.cur.y_lt fun l _ hl =>
    Runs.pure ⟨rfl, hl.len, hl.cells⟩)) ?_
  rintro s₁ - ⟨⟨h₁, hs₁⟩, he₁⟩
  have h₂ : Fits lo Q (s₁.setCur { s₁.cur with x := 0 }).toGrid :=
    h₁.setCur ⟨le_refl _, h₁.cols_pos, h₁.cur.y_nonneg, h₁.cur.y_lt⟩
  refine (onGrid (h₂.indexDown hQ)).mono ?_
  rintro s₂ ⟨⟨h₃, hx, hcols⟩, he₂⟩
  refine ⟨h₃, hx, hcols.trans hs₁.cols, ?_⟩
  rw [he₂]
  show s₁.autowrap = s.autowrap
  rw [he₁]

theorem wrapPending (h : Fits lo Q s.toGrid) (hQ : Fitting Q) :
    Runs (wrapPending s) fun s' =>
      Fits lo Q s'.toGrid ∧ s'.cols = s.cols ∧ s'.autowrap = s.autowrap :=
  Runs.ite (fun _ => (h.wrapLine hQ).mono fun _ h' => ⟨h'.1, h'.2.2⟩) fun _ =>
    Runs.pure ⟨h, rfl, rfl⟩

theorem wrapWide (h : Fits lo Q s.toGrid) (hQ : Fitting Q)
    (hcells : ∀ l c', get s.lines s.cur.y = some l → LineFits Q s.cols l →
      blank s.toGrid l.c s.cur.x 1 = some c' → Q c') :
    Runs (wrapWide s) fun s' => Fits lo Q s'.toGrid ∧ s'.cur.x = 0 ∧ s'.cols = s.cols := by
  have h1 := h.cur.x_nonneg
  have h2 := h.cur.x_lt
  refine Runs.bind (onGrid (h.editLine h.cur.y_nonneg h.cur.y_lt fun l hget hl => ?_)) ?_
  · have hlen : (l.c.length : ℤ) = s.cols := hl.len
    refine Runs.bind (fill_runs h1 Int.one_nonneg (by omega)) fun c hc hc' => Runs.pure ⟨rfl, ?_, ?_⟩
    · show (c.length : ℤ) = s.cols
      rw [hc'.1, hlen]
    · exact hcells l c hget hl hc
  · rintro s₁ - ⟨⟨h₁, hs₁⟩, -⟩
    exact (h₁.wrapLine hQ).mono fun _ h' => ⟨h'.1, h'.2.1, h'.2.2.1.trans hs₁.cols⟩

theorem placeChar (h : Fits lo Q s.toGrid) {c : ℕ} {w : ℤ} (hw : w = 1 ∨ w = 2)
    (hx : s.cur.x + w ≤ s.cols)
    (hcells : ∀ l c', get s.lines s.cur.y = some l → LineFits Q s.cols l →
      printCells s.toGrid s.insert c w s.cur.x l.c = some c' → Q c') :
    Runs (placeChar s c w) fun s' => Fits lo Q s'.toGrid := by
  have h1 := h.cur.x_nonneg
  have h2 := h.cols_pos
  refine Runs.bind (onGrid (h.editLine h.cur.y_nonneg h.cur.y_lt fun l hget hl => ?_)) ?_
  · refine Runs.bind (printCells_runs s.insert hl.len hw h1 hx) fun c' hc' hlen =>
      Runs.pure ⟨rfl, hlen, hcells l c' hget hl hc'⟩
  · rintro s₁ - ⟨⟨h₁, hs₁⟩, -⟩
    have h3 := hs₁.cols
    have h4 : s₁.cur.x = s.cur.x := by rw [hs₁.cur]
    refine Runs.ite (fun hge => Runs.pure ?_) fun hlt => Runs.pure ?_
    · refine h₁.setCur ⟨?_, ?_, h₁.cur.y_nonneg, h₁.cur.y_lt⟩ <;> simp only <;> omega
    · refine h₁.setCur ⟨?_, ?_, h₁.cur.y_nonneg, h₁.cur.y_lt⟩ <;> simp only at hlt ⊢ <;> omega

theorem putChar (h : Fits lo Q s.toGrid) (hR : R.Sound lo Q) {c : ℕ} (hput : R.put W s c) :
    Runs (putChar W s c) fun s' => Fits lo Q s'.toGrid := by
  have hQ := hR.toFitting
  refine Runs.ite (fun _ => Runs.pure h) fun hw0 => ?_
  have hw : charWidth W (glyph s c) = 1 ∨ charWidth W (glyph s c) = 2 :=
    (charWidth_cases W (glyph s c)).resolve_left hw0
  refine Runs.bind (h.wrapPending hQ) fun s₁ hs₁ ⟨h₁, hcols₁, hauto₁⟩ => ?_
  have hput₁ := hput hw0 s₁ hs₁
  have hx₁ := h₁.cur.x_lt
  refine Runs.ite (fun hlast => Runs.ite (fun _ => Runs.pure h₁) fun hauto => ?_) fun hlast => ?_
  · rw [if_pos hlast] at hput₁
    obtain ⟨hR₁, hR₂⟩ := hput₁ (by simpa using hauto)
    have hroom := hR.room s₁ h₁ hR₁
    refine Runs.bind (h₁.wrapWide hQ fun l c' => hR.last s₁ l c' h₁ hR₁ hlast.2) ?_
    rintro s₂ hs₂ ⟨h₂, hx₂, hcols₂⟩
    have hfit : s₂.cur.x + charWidth W (glyph s c) ≤ s₂.cols := by omega
    exact h₂.placeChar hw hfit fun l c' => hR.place s₂ _ _ l c' h₂ hw hfit (hR₂ s₂ hs₂)
  · rw [if_neg hlast] at hput₁
    have hfit : s₁.cur.x + charWidth W (glyph s c) ≤ s₁.cols := by omega
    exact h₁.placeChar hw hfit fun l c' => hR.place s₁ _ _ l c' h₁ hw hfit hput₁

theorem repeatChar (h : Fits lo Q s.toGrid) (hR : R.Sound lo Q) (n : ℕ) (hrep : R.rep W n s) :
    Runs (repeatChar W n s) fun s' => Fits lo Q s'.toGrid := by
  induction n generalizing s with
  | zero => exact Runs.pure h
  | succ n ih =>
    refine Runs.ite (fun _ => Runs.pure h) fun hch => ?_
    obtain ⟨hput, hrest⟩ := hrep hch
    exact Runs.bind (h.putChar hR hput) fun s' hs' h' => ih h' (hrest s' hs')

/-! ## Controls and sequences -/

theorem moved (h : Fits lo Q s.toGrid) {c : Cursor} (hx : c.x = s.cur.x) (hy : c.y = s.cur.y) :
    Fits lo Q (s.setCur c).toGrid := by
  refine h.setCur ⟨?_, ?_, ?_, ?_⟩
  · rw [hx]; exact h.cur.x_nonneg
  · rw [hx]; exact h.cur.x_lt
  · rw [hy]; exact h.cur.y_nonneg
  · rw [hy]; exact h.cur.y_lt

theorem returned (h : Fits lo Q s.toGrid) {c : Cursor} (hx : c.x = 0) (hy : c.y = s.cur.y) :
    Fits lo Q (s.setCur c).toGrid := by
  refine h.setCur ⟨?_, ?_, ?_, ?_⟩
  · rw [hx]
  · rw [hx]; exact h.cols_pos
  · rw [hy]; exact h.cur.y_nonneg
  · rw [hy]; exact h.cur.y_lt

theorem lineFeed (h : Fits lo Q s.toGrid) (hQ : Fitting Q) :
    Runs (lineFeed s) fun s' => Fits lo Q s'.toGrid := by
  refine Runs.bind (onGrid (h.indexDown hQ)) fun s' _ ⟨⟨h', _⟩, _⟩ => Runs.pure ?_
  split_ifs
  · exact h'.returned rfl rfl
  · exact h'

theorem control (h : Fits lo Q s.toGrid) (hQ : Fitting Q) (c : ℕ) :
    Runs (control s c) fun s' => Fits lo Q s'.toGrid := by
  have h1 := h.cur.x_nonneg
  have h2 := h.cur.x_lt
  unfold Emulator.control
  split
  · refine Runs.pure (h.setCur ⟨?_, ?_, h.cur.y_nonneg, h.cur.y_lt⟩) <;> simp only <;>
      split_ifs <;> omega
  · exact lift h.horizontalTab
  iterate 3 exact h.lineFeed hQ
  · exact Runs.pure (h.returned rfl rfl)
  iterate 2 exact Runs.pure (h.moved rfl rfl)
  · exact Runs.pure h

/-! ## Sequences -/

theorem sgrOne_still (i : ℕ) (c : Cursor) :
    (sgrOne s i c).1.x = c.x ∧ (sgrOne s i c).1.y = c.y := by
  unfold sgrOne
  simp only
  split <;> (try split_ifs) <;> exact ⟨rfl, rfl⟩

theorem sgrFrom_still (n i : ℕ) (c : Cursor) :
    (sgrFrom s n i c).x = c.x ∧ (sgrFrom s n i c).y = c.y := by
  induction n generalizing i c with
  | zero => exact ⟨rfl, rfl⟩
  | succ n ih =>
    unfold sgrFrom
    split_ifs
    · have h1 := ih (sgrOne s i c).2 (sgrOne s i c).1
      have h2 := sgrOne_still (s := s) i c
      exact ⟨h1.1.trans h2.1, h1.2.trans h2.2⟩
    · exact ⟨rfl, rfl⟩

theorem sgr (h : Fits lo Q s.toGrid) : Fits lo Q (sgr s).toGrid := by
  unfold Emulator.sgr
  split_ifs
  · exact Fits.moved (s := { s with nparams := 1, params := s.params.set 0 0 }) h
      (sgrFrom_still ..).1 (sgrFrom_still ..).2
  · exact h.moved (sgrFrom_still ..).1 (sgrFrom_still ..).2

theorem decMode (h : Fits lo Q s.toGrid) (hQ : Fitting Q) (mode : ℕ) (on : Bool) :
    Runs (decMode s mode on) fun s' => Fits lo Q s'.toGrid := by
  unfold Emulator.decMode
  split
  · exact Runs.pure ((h.moved (c := { s.cur with origin := on }) rfl rfl).cursorTo _ _)
  · exact Runs.pure h
  · exact lift (h.setAlt hQ _ _)
  · exact lift (h.setAlt hQ _ _)
  · refine Runs.pure ?_
    show Fits lo Q (if on then Emulator.saveCursor s.toGrid else Emulator.restoreCursor s.toGrid)
    split_ifs
    exacts [h.saveCursor, h.restoreCursor]
  · refine Runs.ite (fun _ => ?_) fun _ => ?_
    · refine Runs.bind (lift (f := fun g => Emulator.setAlt (Emulator.saveCursor g) true true)
        (h.saveCursor.setAlt hQ _ _)) fun s' _ h' => Runs.pure ?_
      exact h'.setCur h'.savedPri
    · exact Runs.bind (lift (h.setAlt hQ _ _)) fun s' _ h' => Runs.pure h'.restoreCursor
  · exact Runs.pure h

theorem param_pos (s : Vt) (i : ℕ) : 1 ≤ param s i 1 := by
  unfold param
  split_ifs <;> omega

/-- A sequence without a private marker. -/
theorem csiAnsi (h : Fits lo Q s.toGrid) (hR : R.Sound lo Q) {f : Char} (hf : R.ansi W s f) :
    Runs (csiAnsi W s f) fun s' => Fits lo Q s'.toGrid := by
  have hQ := hR.toFitting
  have hE := hR.toEditing
  have hp := param_pos s 0
  unfold Emulator.csiAnsi
  refine Runs.ite (fun _ => Runs.pure h.softReset) fun _ => Runs.ite (fun _ => Runs.pure h)
    fun hinter => ?_
  obtain ⟨hich, hdch, hrep⟩ := hf (by simpa using hinter)
  simp only
  split
  iterate 13 exact Runs.pure (h.cursorTo _ _)
  · exact lift (Runs.times _ h fun g hg => hg.horizontalTab)
  · refine Runs.bind (lift (Runs.times _ h fun g hg => hg.backTab)) fun s' _ h' => Runs.pure ?_
    exact h'.moved rfl rfl
  · exact lift (h.eraseDisplay hE _)
  · exact lift (h.eraseInLine hE _)
  · refine Runs.bind (onGrid (h.eraseCells hE _ _ _)) fun s' _ ⟨⟨h', _⟩, _⟩ => Runs.pure ?_
    exact h'.moved rfl rfl
  · exact lift (h.insertLines hQ _)
  · exact lift (h.deleteLines hQ _)
  · exact lift (h.scrollRegionUp hQ _)
  · exact lift (h.scrollRegionDown hQ _)
  · exact lift (h.insertCells hp fun l hl hfit c =>
      hR.ich _ _ l c h hp (hich rfl) hl hfit)
  · exact lift (h.deleteCells hp fun l hl hfit c =>
      hR.dch _ _ l c h hp (hdch rfl) hl hfit)
  · exact h.repeatChar hR _ (hrep rfl)
  · exact Runs.pure h.sgr
  · exact Runs.pure (h.setRegion hp)
  · exact Runs.pure h.saveCursor
  · exact Runs.pure h.restoreCursor
  iterate 2
    refine Runs.upto (Q := fun t : Vt => Fits lo Q t.toGrid) _ h fun i t _ ht => Runs.pure ?_
    split_ifs <;> exact ht
  · exact lift (h.clearTabs _)
  · exact Runs.pure h

theorem csi (h : Fits lo Q s.toGrid) (hR : R.Sound lo Q) {f : Char}
    (hf : s.priv = '\x00' → R.ansi W s f) :
    Runs (csi W s f) fun s' => Fits lo Q s'.toGrid := by
  refine Runs.ite (fun _ => Runs.ite (fun _ => ?_) fun _ => Runs.ite (fun hJK => ?_) fun _ =>
    Runs.pure h) fun _ => Runs.ite (fun _ => Runs.pure h) fun hpriv => ?_
  · exact Runs.upto (Q := fun t : Vt => Fits lo Q t.toGrid) _ h fun i t _ ht =>
      ht.decMode hR.toFitting _ _
  · -- erasing only: none of the conditions is asked for
    refine Fits.csiAnsi (s := { s with priv := '\x00' }) h hR fun _ => ⟨?_, ?_, ?_⟩ <;>
      rintro rfl <;> rcases hJK with hJK | hJK <;> cases hJK
  · exact h.csiAnsi hR (hf (by simpa using hpriv))

theorem vtReset (h : Fits lo Q s.toGrid) (hQ : Fitting Q) :
    Runs (vtReset s) fun s' => Fits lo Q s'.toGrid := by
  have h1 := h.rows_pos
  have hin : Inside s.cols s.rows .zero := ⟨le_refl _, h.cols_pos, le_refl _, h.rows_pos⟩
  have h₁ : Fits lo Q { s.toGrid with
      altOn := false, scr := .pri, cur := .zero, savedPri := .zero, savedAlt := .zero, top := 0,
      bot := s.rows - 1, tabs := resetTabs s.cols } :=
    { h with
      cur := hin, savedPri := hin, savedAlt := hin, top_nonneg := le_refl _
      top_le := by simp only; omega
      bot_lt := by simp only; omega
      tabs := length_resetTabs h.cols_pos }
  refine Runs.bind (onGrid (P := fun g => Fits lo Q g ∧ Still _ g) (h₁.clearScreen hQ .pri))
    fun s' _ ⟨⟨h', _⟩, _⟩ => ?_
  exact (onGrid (h'.clearScreen hQ .alt)).mono fun _ h' => h'.1.1

theorem esc (h : Fits lo Q s.toGrid) (hQ : Editing Q) (f : Char) :
    Runs (esc s f) fun s' => Fits lo Q s'.toGrid := by
  unfold Emulator.esc
  refine Runs.ite (fun _ => Runs.pure (h.moved rfl rfl)) fun _ =>
    Runs.ite (fun _ => Runs.pure (h.moved rfl rfl)) fun _ =>
    Runs.ite (fun _ => lift (h.alignmentTest hQ)) fun _ => Runs.ite (fun _ => Runs.pure h)
    fun _ => ?_
  split
  · exact Runs.pure h.saveCursor
  · exact Runs.pure h.restoreCursor
  · exact (onGrid (h.indexDown hQ.toFitting)).mono fun _ h' => h'.1.1
  · have h₁ : Fits lo Q (s.setCur { s.cur with x := 0 }).toGrid := h.returned rfl rfl
    exact (onGrid (h₁.indexDown hQ.toFitting)).mono fun _ h' => h'.1.1
  · exact lift (h.indexUp hQ.toFitting)
  · exact lift h.setTab
  · exact h.vtReset hQ.toFitting
  · exact Runs.pure h

/-! ## The parser -/

theorem csiByte (h : Fits lo Q s.toGrid) (hR : R.Sound lo Q) {b : ℕ} (hb : R.csiByte W s b) :
    Runs (csiByte W s b) fun s' => Fits lo Q s'.toGrid := by
  unfold Emulator.csiByte
  refine Runs.ite (fun _ => Runs.pure h) fun _ => Runs.ite (fun _ => Runs.ite (fun _ =>
    Runs.pure h) fun _ => Runs.pure h) fun _ => Runs.ite (fun _ => Runs.pure h) fun _ =>
    Runs.ite (fun _ => Runs.pure h) fun _ => Runs.ite (fun _ => ?_) fun _ =>
    Runs.ite (fun _ => h.control hR.toFitting b) fun _ => Runs.pure h
  exact Fits.csi (s := { s with state := .ground }) h hR hb

theorem utf8Start (h : Fits lo Q s.toGrid) (hR : R.Sound lo Q) {b : ℕ} (hb : R.start W s b) :
    Runs (utf8Start W s b) fun s' => Fits lo Q s'.toGrid := by
  refine Runs.ite (fun _ => Runs.pure h) fun h1 => Runs.ite (fun _ => Runs.pure h) fun h2 =>
    Runs.ite (fun _ => Runs.pure h) fun h3 => ?_
  have hput : R.put W { s with utf8Left := 0 } 0xFFFD :=
    ((hb.resolve_left h1).resolve_left h2).resolve_left h3
  exact Fits.putChar (s := { s with utf8Left := 0 }) h hR hput

theorem cutShort (h : Fits lo Q s.toGrid) (hR : R.Sound lo Q)
    (hput : s.utf8Left ≠ 0 → R.put W s 0xFFFD) :
    Runs (cutShort W s) fun s' => Fits lo Q s'.toGrid :=
  Runs.ite (fun hleft => h.putChar hR (hput hleft)) fun _ => Runs.pure h

theorem groundByte (h : Fits lo Q s.toGrid) (hR : R.Sound lo Q) {b : ℕ} (hb : R.ground W s b) :
    Runs (groundByte W s b) fun s' => Fits lo Q s'.toGrid := by
  unfold Emulator.groundByte
  refine Runs.ite (fun _ => Runs.pure h) fun _ => Runs.ite (fun _ => ?_) fun h20 =>
    Runs.ite (fun _ => Runs.pure h) fun h7F => Runs.ite (fun h80 => ?_) fun h80 => ?_
  · exact Runs.bind (h.control hR.toFitting b) fun s' _ h' => Runs.pure h'
  · exact Fits.putChar (s := { s with utf8Left := 0 }) h hR (hb.1 (by omega) (by omega))
  · have hb' := hb.2 (by omega)
    refine Runs.ite (fun hcont => ?_) fun hcont => ?_
    · rw [if_pos hcont] at hb'
      refine Runs.ite (fun hlast => ?_) fun _ => Runs.pure h
      have hone : s.utf8Left = 1 := by
        have h1 := hcont.1
        simp only at hlast
        omega
      have hput := hb' hone
      refine Fits.putChar (s := { s with
        utf8Cp := s.utf8Cp <<< 6 ||| (b &&& 0x3F), utf8Left := s.utf8Left - 1 }) h hR ?_
      rw [hone]
      exact hput
    · rw [if_neg hcont] at hb'
      exact Runs.bind (h.cutShort hR hb'.1) fun s' hs' h' => h'.utf8Start hR (hb'.2 s' hs')

/-- **A byte.**  It touches no cell outside its line and keeps what holds of the screens. -/
theorem byte (h : Fits lo Q s.toGrid) (hR : R.Sound lo Q) {b : UInt8} (hb : R.byte W s b) :
    Runs (byte W s b) fun s' => Fits lo Q s'.toGrid := by
  unfold Emulator.byte
  unfold Rules.byte at hb
  simp only
  split
  case h_1 =>
    refine Runs.ite (fun _ => Runs.pure h) fun _ => Runs.ite (fun _ => Runs.pure h) fun _ =>
      Runs.ite (fun _ => Runs.pure h) fun _ => Runs.ite (fun _ => Runs.pure h) fun _ => ?_
    exact Fits.esc (s := { s with state := .ground }) h hR.toEditing _
  case h_2 =>
    refine Runs.ite (fun _ => Runs.pure h) fun _ => ?_
    exact Fits.esc (s := { s with state := .ground }) h hR.toEditing _
  case h_3 hs =>
    rw [hs] at hb
    exact h.csiByte hR hb
  case h_4 =>
    exact Runs.ite (fun _ => Runs.pure h) fun _ => Runs.ite (fun _ => Runs.pure h) fun _ =>
      Runs.pure h
  case h_5 hs =>
    rw [hs] at hb
    refine Runs.ite (fun _ => Runs.pure h) fun hne => ?_
    exact Fits.groundByte (s := { s with state := .ground }) h hR (hb hne)
  case h_6 =>
    exact Runs.ite (fun _ => Runs.pure h) fun _ => Runs.ite (fun _ => Runs.pure h) fun _ =>
      Runs.pure h
  case h_7 => exact Runs.pure h
  case h_8 hs =>
    rw [hs] at hb
    exact h.groundByte hR hb

theorem vtResize (h : Fits lo Q s.toGrid) (hQ : Fitting Q) {cols rows : ℤ}
    (hlo : lo ≤ if cols < 1 then 1 else cols) :
    Runs (vtResize s cols rows) fun s' => Fits lo Q s'.toGrid :=
  lift (h.gridResize hQ cols rows hlo)

theorem vtNew (hQ : Fitting Q) {cols rows scrollback : ℤ}
    (hlo : lo ≤ if cols < 1 then 1 else cols) : Fits lo Q (vtNew cols rows scrollback).toGrid := by
  unfold Emulator.vtNew
  generalize hc : (if cols < 1 then (1 : ℤ) else cols) = cols' at hlo
  generalize hr : (if rows < 1 then (1 : ℤ) else rows) = rows'
  have hcols : 0 < cols' := by
    rw [← hc]
    split_ifs <;> omega
  have hrows : 0 < rows' := by
    rw [← hr]
    split_ifs <;> omega
  have hin : Inside cols' rows' .zero := ⟨le_refl _, hcols, le_refl _, hrows⟩
  have hfresh : ∀ st : Store, RowsFit Q cols' rows' (freshLines cols' rows'.toNat st).1 := by
    intro st
    obtain ⟨h1, h2⟩ := freshLines_fits hQ hcols.le rows'.toNat
    exact ⟨by rw [h1]; omega, h2⟩
  have hled : Ledger [] (Store.empty scrollback) := by
    refine ⟨?_, fun hpos => ?_, List.Perm.refl _⟩
    · show ((0 : ℕ) : ℤ) ≤ max scrollback 0
      omega
    · have hpos' : 0 < scrollback := hpos
      show 0 < scrollback.toNat
      omega
  have hpri := @Ledger.freshLines _ _ cols' hled rows'.toNat
  rw [List.append_nil] at hpri
  have hled' := (@Ledger.freshLines _ _ cols' hpri rows'.toNat).perm List.perm_append_comm
  exact
    { lo_le := hlo, cols_pos := hcols, rows_pos := hrows, cur := hin, savedPri := hin,
      savedAlt := hin, top_nonneg := le_refl _, top_le := by simp only [resetModes]; omega
      bot_lt := by simp only [resetModes]; omega
      tabs := length_resetTabs hcols, pri := hfresh _, alt := hfresh _, owned := hled' }

end Fits

/-! ## Runs -/

/-- The states a terminal of at least `lo` columns can be in when every byte meets `fine`. -/
inductive Reachable (W : Widths) (fine : Vt → UInt8 → Prop) (lo : ℤ) : Vt → Prop
  | new (cols rows scrollback : ℤ) (hc : lo ≤ cols) (hr : 1 ≤ rows) :
      Reachable W fine lo (vtNew cols rows scrollback)
  | byte {s s' : Vt} (hs : Reachable W fine lo s) (b : UInt8) (hb : fine s b)
      (h : byte W s b = some s') : Reachable W fine lo s'
  | resize {s s' : Vt} (hs : Reachable W fine lo s) (cols rows : ℤ) (hc : lo ≤ cols) (hr : 1 ≤ rows)
      (h : vtResize s cols rows = some s') : Reachable W fine lo s'

theorem lo_le_clamp {lo cols : ℤ} (h : lo ≤ cols) : lo ≤ if cols < 1 then 1 else cols := by
  split_ifs <;> omega

theorem Reachable.fits {W : Widths} {R : Rules} {lo : ℤ} {Q : List Cell → Prop} {s : Vt}
    (hR : R.Sound lo Q) (h : Reachable W (R.byte W) lo s) : Fits lo Q s.toGrid := by
  induction h with
  | new cols rows scrollback hc hr => exact Fits.vtNew hR.toFitting (lo_le_clamp hc)
  | byte hs b hb h ih => exact (ih.byte hR hb).of_eq_some h
  | resize hs cols rows hc hr h ih =>
    exact (ih.vtResize hR.toFitting (lo_le_clamp hc)).of_eq_some h

end BananaOS.Emulator
