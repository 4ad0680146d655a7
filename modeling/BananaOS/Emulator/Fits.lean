import BananaOS.Emulator.Owned

/-!
# What holds of the screens

`Fits lo Q g`: the cursors are inside, the scrolling region is, both screens have `rows` lines of
`cols` cells, and every block of cells has one owner.  `lo` is a least width and `Q` is asked of the
cells of every line; both are parameters, so that one walk through the functions serves for what
holds of all screens and for what only holds of some (`Editing` lists what `Q` has to go through).

Every function here both returns, that is, it touches no cell outside its line, and keeps `Fits`.
-/

namespace BananaOS.Emulator

open BananaOS.Lib BananaOS.Lib.Checked

/-- The cursor is on the screen. -/
structure Inside (cols rows : ℤ) (c : Cursor) : Prop where
  x_nonneg : 0 ≤ c.x
  x_lt : c.x < cols
  y_nonneg : 0 ≤ c.y
  y_lt : c.y < rows

/-- What holds of the screens. -/
structure Fits (lo : ℤ) (Q : List Cell → Prop) (g : Grid) : Prop where
  lo_le : lo ≤ g.cols
  cols_pos : 0 < g.cols
  rows_pos : 0 < g.rows
  cur : Inside g.cols g.rows g.cur
  savedPri : Inside g.cols g.rows g.savedPri
  savedAlt : Inside g.cols g.rows g.savedAlt
  top_nonneg : 0 ≤ g.top
  top_le : g.top ≤ g.bot
  bot_lt : g.bot < g.rows
  tabs : (g.tabs.length : ℤ) = g.cols
  pri : RowsFit Q g.cols g.rows g.pri
  alt : RowsFit Q g.cols g.rows g.alt
  owned : Ledger (ids g.pri ++ ids g.alt) g.toStore

/-- The cells keep `Q` where they are erased, also when the screen is filled. -/
structure Editing (Q : List Cell → Prop) : Prop extends Fitting Q where
  erase : ∀ (g : Grid) (x0 x1 : ℤ) (l l' : Line), l.len = g.cols → 0 ≤ x0 → x0 < x1 →
    x1 ≤ g.cols → Q l.c → eraseSpan g x0 x1 l = some l' → Q l'.c
  letters : ∀ n, Q (List.replicate n letterE)

/-- The cursor and the size are as before. -/
structure Still (g g' : Grid) : Prop where
  cur : g'.cur = g.cur
  cols : g'.cols = g.cols
  rows : g'.rows = g.rows

theorem Still.refl (g : Grid) : Still g g := ⟨rfl, rfl, rfl⟩

theorem Still.trans {g g' g'' : Grid} (h : Still g g') (h' : Still g' g'') : Still g g'' :=
  ⟨h'.cur.trans h.cur, h'.cols.trans h.cols, h'.rows.trans h.rows⟩

/-- The screen that is not `w`. -/
def Screen.other : Screen → Screen
  | .pri => .alt
  | .alt => .pri

theorem setLinesOf_still (g : Grid) (w : Screen) (ls : List Line) : Still g (g.setLinesOf w ls) := by
  cases w <;> exact ⟨rfl, rfl, rfl⟩

namespace Fits

variable {lo : ℤ} {Q : List Cell → Prop} {g : Grid} {w : Screen} {y top bot x0 x1 : ℤ}

theorem linesOf (h : Fits lo Q g) (w : Screen) : RowsFit Q g.cols g.rows (g.linesOf w) := by
  cases w with
  | pri => exact h.pri
  | alt => exact h.alt

theorem ledger (h : Fits lo Q g) (w : Screen) :
    Ledger (ids (g.linesOf w) ++ ids (g.linesOf w.other)) g.toStore := by
  cases w with
  | pri => exact h.owned
  | alt => exact h.owned.perm List.perm_append_comm

theorem setCur (h : Fits lo Q g) {c : Cursor} (hc : Inside g.cols g.rows c) :
    Fits lo Q { g with cur := c } :=
  { h with cur := hc }

theorem setLinesOf (h : Fits lo Q g) {ls : List Line} {st : Store}
    (hls : RowsFit Q g.cols g.rows ls) (hst : Ledger (ids ls ++ ids (g.linesOf w.other)) st) :
    Fits lo Q ({ g with toStore := st }.setLinesOf w ls) := by
  cases w with
  | pri => exact { h with pri := hls, owned := hst }
  | alt => exact { h with alt := hls, owned := hst.perm List.perm_append_comm }

/-- A line is edited. -/
theorem editLine (h : Fits lo Q g) (hy : 0 ≤ y) (hy' : y < g.rows) {f : Line → Option Line}
    (hf : ∀ l, get (g.linesOf w) y = some l → LineFits Q g.cols l →
      Runs (f l) fun l' => l'.id = l.id ∧ LineFits Q g.cols l') :
    Runs (g.editLine w y f) fun g' => Fits lo Q g' ∧ Still g g' := by
  have hrows := h.linesOf w
  have hcount := hrows.count
  refine Runs.bind (get_runs hy (by omega)) fun l hget hl => ?_
  obtain ⟨hk, hlk⟩ := List.getElem?_eq_some_iff.mp hl
  have hmem : l ∈ g.linesOf w := List.mem_of_getElem? hl
  refine Runs.bind (hf l hget (hrows.fits l hmem)) fun l' _ hl' => ?_
  refine Runs.bind_eq (set_eq hy (by omega)) (Runs.pure ⟨?_, setLinesOf_still ..⟩)
  refine h.setLinesOf ⟨?_, fun l'' hl'' => ?_⟩ ?_
  · rw [List.length_set, hcount]
  · rcases List.mem_or_eq_of_mem_set hl'' with hm | rfl
    · exact hrows.fits l'' hm
    · exact hl'.2
  · have hids : ids ((g.linesOf w).set y.toNat l') = ids (g.linesOf w) := by
      unfold ids
      rw [List.map_set, hl'.1, ← hlk]
      apply List.ext_getElem?
      intro k
      rw [List.getElem?_set]
      split_ifs with hky
      · subst hky
        simp [hk]
      · rename_i hlt
        rw [List.length_map] at hlt
        omega
      · rfl
    rw [hids]
    exact h.ledger w

/-! ## Scrolling -/

/-- A screen with one line moved and erased, or replaced by a fresh one. -/
theorem moveLine (h : Fits lo Q g) {ls ls' : List Line} {new : Line} {st : Store}
    (hlen : ls'.length = ls.length) (hls : ls = g.linesOf w)
    (hmem : ∀ l ∈ ls', l = new ∨ l ∈ ls) (hnew : LineFits Q g.cols new)
    (hst : Ledger (ids ls' ++ ids (g.linesOf w.other)) st) :
    Fits lo Q ({ g with toStore := st }.setLinesOf w ls') := by
  subst hls
  have hrows := h.linesOf w
  refine h.setLinesOf ⟨by rw [hlen, hrows.count], fun l hl => ?_⟩ hst
  rcases hmem l hl with rfl | hl
  · exact hnew
  · exact hrows.fits l hl

theorem blanked (hQ : Fitting Q) {l : Line} (hl : l.len = g.cols) (bg : ℕ) (wrapped : Bool) :
    LineFits Q g.cols
      { l with c := List.replicate l.c.length (blankCell bg), wrapped := wrapped } := by
  refine ⟨?_, hQ.blank _ _⟩
  show ((List.replicate l.c.length (blankCell bg)).length : ℤ) = g.cols
  rw [List.length_replicate]
  exact hl

theorem scrollUpOne (h : Fits lo Q g) (hQ : Fitting Q) (h0 : 0 ≤ top) (hle : top ≤ bot)
    (hlt : bot < g.rows) :
    Runs (scrollUpOne top bot g) fun g' => Fits lo Q g' ∧ Still g g' := by
  have hrows := h.linesOf g.scr
  have hcount := hrows.count
  obtain ⟨ls, A, b, B, C, hs, hb, hl, hset⟩ :=
    slide_up (l := g.lines) h0 hle (by unfold Grid.lines; omega)
  have hbmem : b ∈ g.linesOf g.scr := by
    show b ∈ g.lines
    rw [hl]
    simp
  refine Runs.bind_eq hb (Runs.bind_eq hs ?_)
  -- the line that comes in at the bottom, and who owns what then
  have hled := h.ledger g.scr
  rw [show g.linesOf g.scr = A ++ b :: B ++ C from hl] at hled
  have hled' : Ledger (b.id :: (ids (A ++ (B ++ C)) ++ ids (g.linesOf g.scr.other))) g.toStore := by
    refine hled.perm ?_
    rw [List.perm_iff_count]
    intro a
    simp only [ids_append, ids_cons, List.count_append, List.count_cons]
    omega
  obtain ⟨new, st, hnew, hlen, hst⟩ : ∃ new st,
      (if !g.altOn && top = 0 then lineInit (sbPush g.toStore b) g.cols else (b, g.toStore)) =
        (new, st) ∧ new.len = g.cols ∧
      Ledger (new.id :: (ids (A ++ (B ++ C)) ++ ids (g.linesOf g.scr.other))) st := by
    split_ifs
    · exact ⟨_, _, rfl, (lineInit_fits hQ h.cols_pos.le).len, hled'.sbPush.lineInit⟩
    · exact ⟨b, g.toStore, rfl, (hrows.fits b hbmem).len, hled'⟩
  simp only [hnew]
  refine Runs.bind_eq (fill_all new.c _) (Runs.bind_eq (hset _) (Runs.pure ⟨?_, ?_⟩))
  · refine h.moveLine ?_ hl.symm ?_ (blanked hQ hlen g.cur.bg false) ?_
    · simp only [List.length_append, List.length_cons]
      omega
    · intro l hl'
      simp only [List.mem_append, List.mem_cons] at hl' ⊢
      tauto
    · refine hst.perm ?_
      rw [List.perm_iff_count]
      intro a
      simp only [ids_append, ids_cons, List.count_append, List.count_cons]
      omega
  · exact (Still.mk rfl rfl rfl : Still g { g with toStore := st }).trans (setLinesOf_still ..)

theorem scrollDownOne (h : Fits lo Q g) (hQ : Fitting Q) (h0 : 0 ≤ top) (hle : top ≤ bot)
    (hlt : bot < g.rows) :
    Runs (scrollDownOne top bot g) fun g' => Fits lo Q g' ∧ Still g g' := by
  have hrows := h.linesOf g.scr
  have hcount := hrows.count
  obtain ⟨ls, A, b, B, C, hs, hb, hl, hset⟩ :=
    slide_down (l := g.lines) h0 hle (by unfold Grid.lines; omega)
  have hbmem : b ∈ g.linesOf g.scr := by
    show b ∈ g.lines
    rw [hl]
    simp
  refine Runs.bind_eq hb (Runs.bind_eq hs (Runs.bind_eq (fill_all b.c _)
    (Runs.bind_eq (hset _) (Runs.pure ⟨?_, setLinesOf_still ..⟩))))
  refine h.moveLine ?_ hl.symm ?_
    (blanked hQ (hrows.fits b hbmem).len g.cur.bg false) ?_
  · simp only [List.length_append, List.length_cons]
    omega
  · intro l hl'
    simp only [List.mem_append, List.mem_cons] at hl' ⊢
    tauto
  · have hled := h.ledger g.scr
    rw [show g.linesOf g.scr = A ++ B ++ b :: C from hl] at hled
    refine hled.perm ?_
    rw [List.perm_iff_count]
    intro a
    simp only [ids_append, ids_cons, List.count_append, List.count_cons]
    omega

theorem times_still (h : Fits lo Q g) {f : Grid → Option Grid} (n : ℕ)
    (hf : ∀ g', Fits lo Q g' → Still g g' → Runs (f g') fun g'' => Fits lo Q g'' ∧ Still g' g'') :
    Runs (times f n g) fun g' => Fits lo Q g' ∧ Still g g' :=
  Runs.times n ⟨h, Still.refl g⟩ fun g' ⟨hg', hs⟩ =>
    (hf g' hg' hs).mono fun _ ⟨hg'', hs'⟩ => ⟨hg'', hs.trans hs'⟩

theorem scrollUp (h : Fits lo Q g) (hQ : Fitting Q) (h0 : 0 ≤ top) (hle : top ≤ bot)
    (hlt : bot < g.rows) (n : ℤ) :
    Runs (scrollUp g top bot n) fun g' => Fits lo Q g' ∧ Still g g' :=
  Runs.ite (fun _ => Runs.pure ⟨h, Still.refl g⟩) fun _ =>
    h.times_still _ fun _ hg' hs => hg'.scrollUpOne hQ h0 hle (by rw [hs.rows]; exact hlt)

theorem scrollDown (h : Fits lo Q g) (hQ : Fitting Q) (h0 : 0 ≤ top) (hle : top ≤ bot)
    (hlt : bot < g.rows) (n : ℤ) :
    Runs (scrollDown g top bot n) fun g' => Fits lo Q g' ∧ Still g g' :=
  Runs.ite (fun _ => Runs.pure ⟨h, Still.refl g⟩) fun _ =>
    h.times_still _ fun _ hg' hs => hg'.scrollDownOne hQ h0 hle (by rw [hs.rows]; exact hlt)

theorem upto_rows (h : Fits lo Q g) {f : ℕ → Grid → Option Grid}
    (hf : ∀ (i : ℕ) g', (i : ℤ) < g'.rows → g'.cols = g.cols → Fits lo Q g' →
      Runs (f i g') fun g'' => Fits lo Q g'' ∧ Still g' g'') :
    Runs (upto f g.rows.toNat g) fun g' => Fits lo Q g' ∧ Still g g' :=
  Runs.upto _ ⟨h, Still.refl g⟩ fun i g' hi ⟨hg', hs⟩ =>
    (hf i g' (by rw [hs.rows]; omega) hs.cols hg').mono fun _ ⟨hg'', hs'⟩ => ⟨hg'', hs.trans hs'⟩

theorem clearScreen (h : Fits lo Q g) (hQ : Fitting Q) (w : Screen) :
    Runs (clearScreen g w) fun g' => Fits lo Q g' ∧ Still g g' :=
  h.upto_rows fun i _ hi _ hg' => hg'.editLine (Int.natCast_nonneg i) hi fun l _ hl =>
    Runs.bind_eq (fill_all l.c _) (Runs.pure ⟨rfl, blanked hQ hl.len _ false⟩)

/-! ## Resizing -/

theorem blankBottom_runs {ls : List Line} {cy : ℤ} (hcy : 0 ≤ cy) (n : ℕ) (y : ℤ)
    (hy : y < ls.length) : Runs (blankBottom ls cy n y) fun k => 0 ≤ k ∧ k ≤ n := by
  induction n generalizing y with
  | zero => exact Runs.pure ⟨le_refl _, le_refl _⟩
  | succ n ih =>
    refine Runs.ite (fun hlt => ?_) fun _ => Runs.pure ⟨le_refl _, by omega⟩
    refine Runs.bind (get_runs (by omega) hy) fun l _ _ => Runs.ite (fun _ => ?_) fun _ =>
      Runs.pure ⟨le_refl _, by omega⟩
    refine Runs.bind (ih (y - 1) (by omega)) fun k _ hk => Runs.pure ⟨by omega, by omega⟩

theorem dropTop_runs {ls : List Line} {rows cy : ℤ} (hls : (ls.length : ℤ) = g.rows)
    (hrows : 0 < rows) (hcy : 0 ≤ cy) :
    Runs (dropTop g ls rows cy) fun k => 0 ≤ k ∧ k ≤ ls.length := by
  refine Runs.ite (fun hlt => ?_) fun _ => Runs.pure ⟨le_refl _, by omega⟩
  refine Runs.bind (blankBottom_runs hcy _ _ (by omega)) fun k _ hk => Runs.pure ⟨by omega, by omega⟩

theorem screenResize_runs (hQ : Fitting Q) {cols rows cy : ℤ} {out : List ℕ}
    (hls : ((g.linesOf w).length : ℤ) = g.rows) (hcells : ∀ l ∈ g.linesOf w, Q l.c)
    (hled : Ledger (ids (g.linesOf w) ++ out) g.toStore) (hcols : 0 < cols) (hrows : 0 < rows)
    (hcy : 0 ≤ cy) (keepInSb : Bool) :
    Runs (screenResize g w cols rows cy keepInSb) fun r => ∃ st ls,
      r.1 = { g with toStore := st }.setLinesOf w ls ∧ RowsFit Q cols rows ls ∧
        Ledger (ids ls ++ out) st := by
  refine Runs.bind (dropTop_runs hls hrows hcy) fun drop _ hdrop => ?_
  refine Runs.bind_eq (o := guard _) (if_pos hdrop) ?_
  have hsplit : (g.linesOf w).take drop.toNat ++ (g.linesOf w).drop drop.toNat = g.linesOf w :=
    List.take_append_drop ..
  have hled' : Ledger (ids ((g.linesOf w).take drop.toNat) ++
      (ids ((g.linesOf w).drop drop.toNat) ++ out)) g.toStore := by
    rw [← List.append_assoc, ← ids_append, hsplit]
    exact hled
  refine Runs.bind (fitLines_runs hQ hcols rows.toNat
    (fun l hl => hcells l (List.mem_of_mem_drop hl)) (hled'.dropLines keepInSb)) ?_
  rintro ⟨kept, st⟩ - ⟨hlen, hfits, hst⟩
  obtain ⟨hn, hfresh⟩ := freshLines_fits hQ hcols.le (rows.toNat - kept.length)
  refine Runs.pure ⟨_, _, rfl, ⟨?_, fun l hl => ?_⟩, ?_⟩
  · rw [List.length_append, hn]
    simp only at hlen
    omega
  · rcases List.mem_append.mp hl with hl | hl
    · exact hfits l hl
    · exact hfresh l hl
  · refine (hst.freshLines (rows.toNat - kept.length)).perm ?_
    rw [List.perm_iff_count]
    intro a
    simp only [ids_append, List.count_append]
    omega

theorem inside_fit {c : Cursor} {cols rows : ℤ} (hx : 0 ≤ c.x) (hcols : 0 < cols)
    (hrows : 0 < rows) : Inside cols rows (c.fit cols rows) := by
  unfold Cursor.fit
  refine ⟨?_, ?_, ?_, ?_⟩ <;> simp only <;> split_ifs <;> omega

theorem length_resetTabs {cols : ℤ} (hcols : 0 < cols) : ((resetTabs cols).length : ℤ) = cols := by
  unfold resetTabs
  rw [List.length_map, List.length_range]
  omega

theorem gridResize (h : Fits lo Q g) (hQ : Fitting Q) (cols rows : ℤ)
    (hlo : lo ≤ if cols < 1 then 1 else cols) :
    Runs (gridResize g cols rows) (Fits lo Q) := by
  unfold Emulator.gridResize
  generalize hc : (if cols < 1 then (1 : ℤ) else cols) = cols' at hlo
  generalize hr : (if rows < 1 then (1 : ℤ) else rows) = rows'
  have hcols : 0 < cols' := by
    rw [← hc]
    split_ifs <;> omega
  have hrows : 0 < rows' := by
    rw [← hr]
    split_ifs <;> omega
  refine Runs.ite (fun _ => Runs.pure h) fun _ => ?_
  have hcy : 0 ≤ (if g.altOn then g.savedPri.y else g.cur.y) := by
    split_ifs
    exacts [h.savedPri.y_nonneg, h.cur.y_nonneg]
  have hcy' : 0 ≤ (if g.altOn then g.cur.y else g.savedAlt.y) := by
    split_ifs
    exacts [h.cur.y_nonneg, h.savedAlt.y_nonneg]
  refine Runs.bind (screenResize_runs (w := .pri) hQ h.pri.count (fun l hl => (h.pri.fits l hl).cells)
    h.owned hcols hrows hcy true) ?_
  rintro ⟨g₁, cyPri⟩ - ⟨st, ls, hg₁, hls, hst⟩
  have halt : g₁.linesOf .alt = g.alt := by
    rw [show g₁ = _ from hg₁]
    rfl
  refine Runs.bind (@screenResize_runs _ g₁ .alt hQ _ _ _ (ids ls) ?_ ?_ ?_ hcols hrows
    hcy' false) ?_
  · rw [halt, show g₁ = _ from hg₁]
    exact h.alt.count
  · rw [halt]
    exact fun l hl => (h.alt.fits l hl).cells
  · rw [halt, show g₁ = _ from hg₁]
    exact hst.perm List.perm_append_comm
  rintro ⟨g₂, cyAlt⟩ - ⟨st', ls', hg₂, hls', hst'⟩
  simp only at hg₁ hg₂
  subst hg₁ hg₂
  have hled : Ledger (ids ls ++ ids ls') st' := hst'.perm List.perm_append_comm
  have hbot : rows' - 1 < rows' := by omega
  refine Runs.pure ?_
  cases g.altOn
  all_goals
    simp only [Grid.setLinesOf, Bool.false_eq_true, ↓reduceIte]
    exact ⟨hlo, hcols, hrows, inside_fit h.cur.x_nonneg hcols hrows,
      inside_fit h.savedPri.x_nonneg hcols hrows, inside_fit h.savedAlt.x_nonneg hcols hrows,
      le_refl _, Int.le_sub_one_of_lt hrows, hbot, length_resetTabs hcols,
      hls, hls', hled⟩

end Fits

end BananaOS.Emulator
