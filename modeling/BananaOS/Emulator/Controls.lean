import BananaOS.Emulator.Fits
import BananaOS.Emulator.Output

/-!
# Functions of the screens

The control functions that do not print: each touches only cells inside their lines and keeps
`Fits`.  ICH and DCH move cells over each other's edges, which `Q` need not survive; that they
do is a hypothesis there (`hcells`).
-/

namespace BananaOS.Emulator

open BananaOS.Lib BananaOS.Lib.Checked

namespace Fits

variable {lo : ℤ} {Q : List Cell → Prop} {g : Grid} {y x0 x1 : ℤ}

/-! ## The cursor -/

theorem cursorTo (h : Fits lo Q g) (x y : ℤ) : Fits lo Q (cursorTo g x y) := by
  have h1 := h.cols_pos
  have h2 := h.rows_pos
  have h3 := h.top_nonneg
  have h4 := h.top_le
  have h5 := h.bot_lt
  refine h.setCur ⟨?_, ?_, ?_, ?_⟩ <;> simp only <;> split_ifs <;> omega

theorem unpend (h : Fits lo Q g) : Fits lo Q { g with cur := { g.cur with pending := false } } :=
  h.setCur ⟨h.cur.x_nonneg, h.cur.x_lt, h.cur.y_nonneg, h.cur.y_lt⟩

theorem home (h : Fits lo Q g) :
    Fits lo Q { g with cur := { g.cur with x := 0, pending := false } } :=
  h.setCur ⟨le_refl _, h.cols_pos, h.cur.y_nonneg, h.cur.y_lt⟩

/-- The cursor's line may be another one afterwards, but neither its column nor the width. -/
theorem indexDown (h : Fits lo Q g) (hQ : Fitting Q) :
    Runs (indexDown g) fun g' => Fits lo Q g' ∧ g'.cur.x = g.cur.x ∧ g'.cols = g.cols := by
  have hg := h.unpend
  refine Runs.ite (fun _ => ?_) fun _ => Runs.ite (fun hlt => Runs.pure ⟨?_, rfl, rfl⟩) fun _ =>
    Runs.pure ⟨hg, rfl, rfl⟩
  · refine (hg.scrollUp hQ hg.top_nonneg hg.top_le hg.bot_lt 1).mono fun g' ⟨hg', hs⟩ =>
      ⟨hg', ?_, hs.cols⟩
    rw [hs.cur]
  · have h1 := h.cur.y_nonneg
    exact hg.setCur ⟨h.cur.x_nonneg, h.cur.x_lt, by simp only; omega, by simp only at hlt ⊢; omega⟩

theorem indexUp (h : Fits lo Q g) (hQ : Fitting Q) : Runs (indexUp g) (Fits lo Q) := by
  have hg := h.unpend
  refine Runs.ite (fun _ => ?_) fun _ => Runs.ite (fun hlt => Runs.pure ?_) fun _ => Runs.pure hg
  · exact (hg.scrollDown hQ hg.top_nonneg hg.top_le hg.bot_lt 1).mono fun _ h' => h'.1
  · have h1 := h.cur.y_lt
    exact hg.setCur ⟨h.cur.x_nonneg, h.cur.x_lt, by simp only at hlt ⊢; omega, by simp only; omega⟩

theorem saveCursor (h : Fits lo Q g) : Fits lo Q (saveCursor g) := by
  unfold Emulator.saveCursor
  split_ifs
  · exact { h with savedAlt := h.cur }
  · exact { h with savedPri := h.cur }

theorem restoreCursor (h : Fits lo Q g) : Fits lo Q (restoreCursor g) := by
  have hc : Inside g.cols g.rows (if g.altOn then g.savedAlt else g.savedPri) := by
    split_ifs
    exacts [h.savedAlt, h.savedPri]
  have h1 := h.cols_pos
  have h2 := h.rows_pos
  unfold Emulator.restoreCursor
  generalize (if g.altOn then g.savedAlt else g.savedPri) = c at hc
  obtain ⟨hc1, hc2, hc3, hc4⟩ := hc
  refine h.setCur ⟨?_, ?_, ?_, ?_⟩ <;> simp only <;> split_ifs <;> omega

theorem setAlt (h : Fits lo Q g) (hQ : Fitting Q) (on clear : Bool) :
    Runs (setAlt g on clear) (Fits lo Q) := by
  refine Runs.ite (fun _ => Runs.pure h) fun _ => ?_
  have hg : Fits lo Q { g with altOn := on, scr := if on then .alt else .pri } := { h with }
  refine Runs.ite (fun _ => ?_) fun _ => Runs.pure hg
  exact (hg.clearScreen hQ .alt).mono fun _ h' => h'.1

/-! ## Tab stops -/

theorem nextTab (h : Fits lo Q g) (n : ℕ) {x : ℤ} (hx : 0 ≤ x) :
    Runs (nextTab g n x) fun x' => 0 ≤ x' := by
  have ht := h.tabs
  induction n generalizing x with
  | zero => exact Runs.pure hx
  | succ n ih =>
    refine Runs.ite (fun hlt => ?_) fun _ => Runs.pure hx
    refine Runs.bind (get_runs hx (by omega)) fun t _ _ => Runs.ite (fun _ => Runs.pure hx)
      fun _ => ih (by omega)

theorem prevTab (h : Fits lo Q g) (n : ℕ) {x : ℤ} (hx : 0 ≤ x) (hx' : x < g.cols) :
    Runs (prevTab g n x) fun x' => 0 ≤ x' ∧ x' < g.cols := by
  have ht := h.tabs
  induction n generalizing x with
  | zero => exact Runs.pure ⟨hx, hx'⟩
  | succ n ih =>
    refine Runs.ite (fun hlt => ?_) fun _ => Runs.pure ⟨hx, hx'⟩
    refine Runs.bind (get_runs hx (by omega)) fun t _ _ => Runs.ite (fun _ => Runs.pure ⟨hx, hx'⟩)
      fun _ => ih (by omega) (by omega)

theorem horizontalTab (h : Fits lo Q g) : Runs (horizontalTab g) (Fits lo Q) := by
  have h1 := h.cur.x_nonneg
  have h2 := h.cols_pos
  refine Runs.bind (h.nextTab _ (by omega)) fun x _ hx => Runs.pure (h.setCur ?_)
  refine ⟨?_, ?_, h.cur.y_nonneg, h.cur.y_lt⟩ <;> simp only <;> split_ifs <;> omega

theorem backTab (h : Fits lo Q g) : Runs (backTab g) (Fits lo Q) := by
  have h1 := h.cur.x_lt
  refine Runs.ite (fun hlt => ?_) fun _ => Runs.pure h
  refine Runs.bind (h.prevTab _ (by omega) (by omega)) fun x _ hx => Runs.pure (h.setCur ?_)
  exact ⟨hx.1, hx.2, h.cur.y_nonneg, h.cur.y_lt⟩

theorem setTab (h : Fits lo Q g) : Runs (setTab g) (Fits lo Q) := by
  have ht := h.tabs
  have h1 := h.cur.x_lt
  refine Runs.bind_eq (set_eq h.cur.x_nonneg (by omega)) (Runs.pure { h with tabs := ?_ })
  rw [List.length_set, ht]

theorem clearTabs (h : Fits lo Q g) (m : ℤ) : Runs (clearTabs g m) (Fits lo Q) := by
  have ht := h.tabs
  have h1 := h.cur.x_lt
  have h2 := h.cols_pos
  refine Runs.ite (fun _ => ?_) fun _ => Runs.ite (fun _ => ?_) fun _ => Runs.pure h
  · refine Runs.bind_eq (set_eq h.cur.x_nonneg (by omega)) (Runs.pure { h with tabs := ?_ })
    rw [List.length_set, ht]
  · refine Runs.bind (fill_runs (le_refl _) h2.le (by omega)) fun tabs _ htabs =>
      Runs.pure { h with tabs := ?_ }
    rw [htabs.1, ht]

/-! ## Erasing -/

theorem eraseSpan_runs {l : Line} (hl : l.len = g.cols) (h0 : 0 ≤ x0) (hlt : x0 < x1)
    (h1 : x1 ≤ g.cols) : Runs (eraseSpan g x0 x1 l) fun l' => l'.id = l.id ∧ l'.len = g.cols := by
  unfold Line.len at hl
  have hleft : Runs (leftEdge l.c x0) fun x => 0 ≤ x ∧ x ≤ x0 := by
    refine Runs.ite (fun hpos => ?_) fun _ => Runs.pure ⟨h0, le_refl _⟩
    refine Runs.bind (get_runs h0 (by omega)) fun a _ _ => Runs.pure ?_
    split_ifs <;> omega
  have hright : Runs (rightEdge l.c g.cols x1) fun x => x1 ≤ x ∧ x ≤ g.cols := by
    refine Runs.ite (fun hpos => ?_) fun _ => Runs.pure ⟨le_refl _, h1⟩
    refine Runs.bind (get_runs (by omega) (by omega)) fun a _ _ => Runs.pure ?_
    split_ifs <;> omega
  refine Runs.bind hleft fun x0' _ hx0 => Runs.bind hright fun x1' _ hx1 => ?_
  refine Runs.bind (fill_runs hx0.1 (by omega) (by omega)) fun c _ hc => Runs.pure ⟨rfl, ?_⟩
  show (c.length : ℤ) = g.cols
  rw [hc.1, hl]

theorem eraseCells (h : Fits lo Q g) (hQ : Editing Q) (y x0 x1 : ℤ) :
    Runs (eraseCells g y x0 x1) fun g' => Fits lo Q g' ∧ Still g g' := by
  have hpos := h.cols_pos
  unfold Emulator.eraseCells
  refine Runs.ite (fun _ => Runs.pure ⟨h, Still.refl g⟩) fun hy => ?_
  generalize hx0 : (if x0 < 0 then (0 : ℤ) else x0) = x0'
  generalize hx1 : (if x1 > g.cols then g.cols else x1) = x1'
  refine Runs.ite (fun _ => Runs.pure ⟨h, Still.refl g⟩) fun hlt => ?_
  have h0 : 0 ≤ x0' := by
    rw [← hx0]
    split_ifs <;> omega
  have h1 : x1' ≤ g.cols := by
    rw [← hx1]
    split_ifs <;> omega
  refine h.editLine (by omega) (by omega) fun l _ hl => ?_
  obtain ⟨l', hl', hid, hlen⟩ := eraseSpan_runs hl.len h0 (by omega) h1
  exact ⟨l', hl', hid, hlen, hQ.erase g x0' x1' l l' hl.len h0 (by omega) h1 hl.cells hl'⟩

theorem eraseRows (h : Fits lo Q g) (hQ : Editing Q) (n : ℕ) (row : ℕ → ℤ) :
    Runs (upto (fun i g => Emulator.eraseCells g (row i) 0 g.cols) n g)
      fun g' => Fits lo Q g' ∧ Still g g' :=
  Runs.upto n ⟨h, Still.refl g⟩ fun i _ _ ⟨hg', hs⟩ =>
    (hg'.eraseCells hQ (row i) _ _).mono fun _ ⟨hg'', hs'⟩ => ⟨hg'', hs.trans hs'⟩

theorem eraseDisplay (h : Fits lo Q g) (hQ : Editing Q) (m : ℤ) :
    Runs (eraseDisplay g m) (Fits lo Q) := by
  refine Runs.ite (fun _ => ?_) fun _ => Runs.ite (fun _ => ?_) fun _ => Runs.ite (fun _ => ?_)
    fun _ => Runs.ite (fun _ => Runs.pure ?_) fun _ => Runs.pure h
  · refine Runs.bind (h.eraseCells hQ _ _ _) fun g' _ ⟨hg', _⟩ => ?_
    exact (hg'.eraseRows hQ _ _).mono fun _ h' => h'.1
  · refine Runs.bind (h.eraseRows hQ _ _) fun g' _ ⟨hg', _⟩ => ?_
    exact (hg'.eraseCells hQ _ _ _).mono fun _ h' => h'.1
  · exact (h.eraseRows hQ _ _).mono fun _ h' => h'.1
  · -- the scrollback's lines are freed
    refine { h with owned := ⟨?_, fun hpos => ?_, ?_⟩ }
    · show ((0 : ℕ) : ℤ) ≤ max g.sbMax 0
      omega
    · show 0 < g.sbMax.toNat
      have hpos' : 0 < g.sbMax := hpos
      omega
    · show (ids g.pri ++ ids g.alt ++ (ids (g.sb.clear.list g.sbMax.toNat) ++
        ((ids (g.sb.list g.sbMax.toNat)).reverse ++ g.freed))).Perm (List.range g.next)
      refine List.Perm.trans ?_ h.owned.owned
      rw [RingBuf.list_clear]
      exact ((List.reverse_perm _).append_right _).append_left _

theorem eraseInLine (h : Fits lo Q g) (hQ : Editing Q) (m : ℤ) :
    Runs (eraseInLine g m) (Fits lo Q) :=
  Runs.ite (fun _ => (h.eraseCells hQ _ _ _).mono fun _ h' => h'.1) fun _ =>
    Runs.ite (fun _ => (h.eraseCells hQ _ _ _).mono fun _ h' => h'.1) fun _ =>
      (h.eraseCells hQ _ _ _).mono fun _ h' => h'.1

theorem alignmentTest (h : Fits lo Q g) (hQ : Editing Q) : Runs (alignmentTest g) (Fits lo Q) := by
  refine (h.upto_rows fun i g' hi _ hg' => hg'.editLine (Int.natCast_nonneg i) hi fun l _ hl => ?_).mono
    fun _ h' => h'.1
  have hlen : (l.c.length : ℤ) = g'.cols := hl.len
  have hfill : fill l.c 0 g'.cols letterE = some (List.replicate l.c.length letterE) := by
    rw [← hlen, fill_all]
  refine Runs.bind_eq hfill (Runs.pure ⟨rfl, ?_, hQ.letters _⟩)
  show ((List.replicate l.c.length letterE).length : ℤ) = g'.cols
  rw [List.length_replicate, hlen]

/-! ## Lines and regions -/

theorem insertLines (h : Fits lo Q g) (hQ : Fitting Q) (n : ℤ) :
    Runs (insertLines g n) (Fits lo Q) := by
  refine Runs.ite (fun hin => ?_) fun _ => Runs.pure h
  refine Runs.bind (h.scrollDown hQ h.cur.y_nonneg hin.2 h.bot_lt n) fun g' _ ⟨hg', _⟩ => ?_
  exact Runs.pure hg'.home

theorem deleteLines (h : Fits lo Q g) (hQ : Fitting Q) (n : ℤ) :
    Runs (deleteLines g n) (Fits lo Q) := by
  refine Runs.ite (fun hin => ?_) fun _ => Runs.pure h
  have hg : Fits lo Q { g with altOn := true } := { h with }
  refine Runs.bind (hg.scrollUp hQ h.cur.y_nonneg hin.2 h.bot_lt n) fun g' _ ⟨hg', _⟩ => ?_
  have hg'' : Fits lo Q { g' with altOn := g.altOn } := { hg' with }
  exact Runs.pure hg''.home

theorem scrollRegionUp (h : Fits lo Q g) (hQ : Fitting Q) (n : ℤ) :
    Runs (scrollRegionUp g n) (Fits lo Q) := by
  have hg : Fits lo Q (if g.top ≠ 0 then { g with altOn := true } else g) := by
    split_ifs
    · exact { h with }
    · exact h
  refine Runs.bind (hg.scrollUp hQ hg.top_nonneg hg.top_le hg.bot_lt n) fun g' _ ⟨hg', _⟩ => ?_
  exact Runs.pure { hg' with }

theorem scrollRegionDown (h : Fits lo Q g) (hQ : Fitting Q) (n : ℤ) :
    Runs (Emulator.scrollDown g g.top g.bot n) (Fits lo Q) :=
  (h.scrollDown hQ h.top_nonneg h.top_le h.bot_lt n).mono fun _ h' => h'.1

theorem setRegion (h : Fits lo Q g) {p0 p1 : ℤ} (hp0 : 1 ≤ p0) : Fits lo Q (setRegion g p0 p1) := by
  unfold Emulator.setRegion
  simp only
  generalize hb : (if p1 - 1 ≥ g.rows then g.rows - 1 else p1 - 1) = b
  have hb' : b < g.rows := by
    rw [← hb]
    split_ifs <;> omega
  split_ifs with hlt
  all_goals first
    | exact h
    | refine Fits.cursorTo (g := { g with top := p0 - 1, bot := b }) ?_ _ _
      exact { h with top_nonneg := by simp only; omega, top_le := hlt.le, bot_lt := hb' }

theorem softReset (h : Fits lo Q g) :
    Fits lo Q { g with
      top := 0, bot := g.rows - 1,
      cur := { g.cur with origin := false, attr := {}, fg := vtDefault, bg := vtDefault } } := by
  have h1 := h.rows_pos
  exact { h with
    cur := ⟨h.cur.x_nonneg, h.cur.x_lt, h.cur.y_nonneg, h.cur.y_lt⟩
    top_nonneg := le_refl _
    top_le := by simp only; omega
    bot_lt := by simp only; omega }

/-! ## Inserting and deleting cells -/

/-- The cells of a line after ICH. -/
def insertedCells (g : Grid) (n : ℤ) (c : List Cell) : Option (List Cell) :=
  slide c g.cur.x (g.cur.x + n) (g.cols - g.cur.x - n) >>= fun c => blank g c g.cur.x n

/-- The cells of a line after DCH. -/
def deletedCells (g : Grid) (n : ℤ) (c : List Cell) : Option (List Cell) :=
  slide c (g.cur.x + n) g.cur.x (g.cols - g.cur.x - n) >>= fun c => blank g c (g.cols - n) n

/-- How many cells ICH and DCH really move. -/
def movedCells (g : Grid) (n : ℤ) : ℤ := if n > g.cols - g.cur.x then g.cols - g.cur.x else n

theorem movedCells_le (h : Fits lo Q g) {n : ℤ} (hn : 1 ≤ n) :
    1 ≤ movedCells g n ∧ g.cur.x + movedCells g n ≤ g.cols := by
  have h1 := h.cur.x_lt
  unfold movedCells
  split_ifs <;> omega

theorem insertCells (h : Fits lo Q g) {n : ℤ} (hn : 1 ≤ n)
    (hcells : ∀ l, get g.lines g.cur.y = some l → LineFits Q g.cols l → ∀ c,
      insertedCells g (movedCells g n) l.c = some c → Q c) :
    Runs (insertCells g n) (Fits lo Q) := by
  obtain ⟨h1, h2⟩ := h.movedCells_le hn
  have h3 := h.cur.x_nonneg
  refine Runs.bind (h.editLine h.cur.y_nonneg h.cur.y_lt fun l hget hl => ?_) fun g' _ ⟨hg', _⟩ =>
    Runs.pure hg'.unpend
  have hlen : (l.c.length : ℤ) = g.cols := hl.len
  have hruns : Runs (insertedCells g (movedCells g n) l.c) fun c => (c.length : ℤ) = g.cols := by
    refine Runs.bind (slide_runs (by omega) h3 (by omega) (by omega) (by omega)) fun c _ hc => ?_
    refine (fill_runs h3 (by omega) (by omega)).mono fun c' hc' => ?_
    rw [hc'.1, hc.1, hlen]
  obtain ⟨c, hc, hclen⟩ := hruns
  have hc' := hc
  obtain ⟨c₁, hs, hb⟩ := Option.bind_eq_some_iff.mp hc
  exact Runs.bind_eq hs (Runs.bind_eq hb (Runs.pure ⟨rfl, hclen, hcells l hget hl c hc'⟩))

theorem deleteCells (h : Fits lo Q g) {n : ℤ} (hn : 1 ≤ n)
    (hcells : ∀ l, get g.lines g.cur.y = some l → LineFits Q g.cols l → ∀ c,
      deletedCells g (movedCells g n) l.c = some c → Q c) :
    Runs (deleteCells g n) (Fits lo Q) := by
  obtain ⟨h1, h2⟩ := h.movedCells_le hn
  have h3 := h.cur.x_nonneg
  refine Runs.bind (h.editLine h.cur.y_nonneg h.cur.y_lt fun l hget hl => ?_) fun g' _ ⟨hg', _⟩ =>
    Runs.pure hg'.unpend
  have hlen : (l.c.length : ℤ) = g.cols := hl.len
  have hruns : Runs (deletedCells g (movedCells g n) l.c) fun c => (c.length : ℤ) = g.cols := by
    refine Runs.bind (slide_runs (by omega) (by omega) (by omega) h3 (by omega)) fun c _ hc => ?_
    refine (fill_runs (by omega) (by omega) (by omega)).mono fun c' hc' => ?_
    rw [hc'.1, hc.1, hlen]
  obtain ⟨c, hc, hclen⟩ := hruns
  have hc' := hc
  obtain ⟨c₁, hs, hb⟩ := Option.bind_eq_some_iff.mp hc
  exact Runs.bind_eq hs (Runs.bind_eq hb (Runs.pure ⟨rfl, hclen, hcells l hget hl c hc'⟩))

end Fits

end BananaOS.Emulator
