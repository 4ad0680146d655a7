import BananaOS.Textbuf.Edits
import Mathlib.Data.List.Induction

/-!
# Every run of the text buffer is a run of the flat text

The calls that move the cursor, cut a line and load a text, after `Textbuf/Edits.lean` has done the
edits; `step_spec` is the step of the simulation and `runOps_spec` the run.
-/

namespace BananaOS.Textbuf

open Lib.Lines

variable {t : Buf} {h : Heap}

/-! ## Moves -/

theorem startSel_spec (hi : t.Inv) (select : Bool) :
    (startSel t select).Inv ∧ (startSel t select).abs = t.abs.startSel select ∧
      (startSel t select).lines = t.lines := by
  obtain ⟨hc, hp, ha⟩ := hi
  cases select <;> cases hs : t.sel
  · simpa [startSel, hs, Buf.abs, Flat.startSel] using ⟨hc, hp, fun h => absurd h (by simp)⟩
  · simpa [startSel, hs, Buf.abs, Flat.startSel] using ⟨hc, hp, fun h => absurd h (by simp)⟩
  · simpa [startSel, hs, Buf.abs, Flat.startSel] using ⟨hc, hp, fun _ => hp⟩
  · simpa [startSel, hs, Buf.abs, Flat.startSel] using ⟨hc, hp, fun _ => ha hs⟩

theorem Buf.Inv.moved (hi : t.Inv) {x y w : ℕ} (h : Place t.lines y x) :
    ({ t with cx := x, cy := y, wantX := w } : Buf).Inv ∧
      ({ t with cx := x, cy := y, wantX := w } : Buf).abs
        = { t.abs with cur := offset nl t.lines y x, want := w } :=
  ⟨⟨hi.clean, h, hi.anchor⟩, rfl⟩

theorem Buf.Inv.movedCol (hi : t.Inv) {x y : ℕ} (h : Place t.lines y x) :
    let t' : Buf := { t with cx := x, cy := y }
    let t'' : Buf := { t' with wantX := tbCol t' t'.cy t'.cx }
    t''.Inv ∧ t''.abs = { t.abs with
      cur := offset nl t.lines y x, want := Flat.col t.abs.text (offset nl t.lines y x) } := by
  intro t' t''
  have hcol : tbCol t' t'.cy t'.cx = Flat.col t.abs.text (offset nl t.lines y x) :=
    col_cur (hi.moved (w := t.wantX) h).1
  rw [← hcol]
  exact hi.moved h

theorem clamp_eq (hi : t.Inv) (x y : ℤ) :
    let y' := (max 0 (min y ((t.n : ℤ) - 1))).toNat
    let x' := u8Back (t.line y') (max 0 (min x (t.line y').length)).toNat
    Place t.lines y' x' ∧ clamp t x y = { t with cx := x', cy := y' } ∧
      Flat.place t.abs.text x y = offset nl t.lines y' x' := by
  intro y' x'
  have hn : 0 < t.n := Nat.lt_of_le_of_lt (Nat.zero_le _) hi.cursor.1
  have hy' : y' < t.n := by omega
  have hyeq : (if (if y < 0 then 0 else y) ≥ (t.n : ℤ) then (t.n : ℤ) - 1
      else (if y < 0 then 0 else y)).toNat = y' := by
    split_ifs <;> omega
  refine ⟨⟨hy', ?_⟩, ?_, ?_⟩
  · have := u8Back_le (t.line y') (max 0 (min x (t.line y').length)).toNat
    have hle : (max 0 (min x (t.line y').length)).toNat ≤ (t.line y').length := by omega
    exact Nat.le_trans this hle
  · have hxeq : (if (if x < 0 then 0 else x) > ((t.line y').length : ℤ) then ((t.line y').length : ℤ)
        else (if x < 0 then 0 else x)).toNat = (max 0 (min x (t.line y').length)).toNat := by
      split_ifs <;> omega
    simp only [clamp, hyeq, hxeq]
    rfl
  · have hsplit : t.abs.text.splitOn nl = t.lines := hi.splitOn
    rw [Flat.place, hsplit]
    rfl

theorem tbGoto_spec (hi : t.Inv) (x y : ℤ) (select : Bool) :
    (tbGoto t x y select).Inv ∧ (tbGoto t x y select).abs = t.abs.goto x y select := by
  obtain ⟨hi1, habs1, -⟩ := startSel_spec hi select
  obtain ⟨hp, hclamp, hplace⟩ := clamp_eq hi1 x y
  rw [tbGoto, hclamp]
  have := hi1.movedCol hp
  rw [← hplace, habs1] at this
  exact this

theorem tbHome_spec (hi : t.Inv) (select : Bool) :
    (tbHome t select).Inv ∧ (tbHome t select).abs = t.abs.home select := by
  obtain ⟨hi1, habs1, -⟩ := startSel_spec hi select
  have hstart := lineStart_cur hi1
  have := hi1.moved (w := 0) (x := 0) ⟨hi1.cursor.1, Nat.zero_le _⟩
  rw [← hstart, habs1] at this
  exact this

theorem tbEnd_spec (hi : t.Inv) (select : Bool) :
    (tbEnd t select).Inv ∧ (tbEnd t select).abs = t.abs.end select := by
  obtain ⟨hi1, habs1, -⟩ := startSel_spec hi select
  have hend := lineEnd_cur hi1
  have := hi1.movedCol (x := ((startSel t select).line (startSel t select).cy).length)
    ⟨hi1.cursor.1, Nat.le_refl _⟩
  rw [← hend, habs1] at this
  exact this

theorem tbSelectAll_spec (hi : t.Inv) :
    (tbSelectAll t).Inv ∧ (tbSelectAll t).abs = t.abs.selectAll := by
  have hn : t.cy < t.n := hi.cursor.1
  have hinv : (tbSelectAll t).Inv := by
    refine ⟨hi.clean, ⟨?_, Nat.le_refl _⟩, fun _ => ⟨Nat.lt_of_le_of_lt (Nat.zero_le _) hn, Nat.zero_le _⟩⟩
    show t.n - 1 < t.n
    omega
  have hcur : (tbSelectAll t).abs.cur = t.abs.text.length := by
    refine (cur_eq_length_iff hinv).mpr ⟨rfl, ?_⟩
    show t.n - 1 + 1 = t.n
    omega
  refine ⟨hinv, ?_⟩
  rw [Flat.selectAll, ← hcur]
  rfl

/-- The column that a move up or down keeps to. -/
def wantAfter (t : Buf) (dy : ℤ) : ℕ :=
  if (t.cy : ℤ) + dy < 0 then 0
  else if (t.cy : ℤ) + dy ≥ t.n then (t.line (t.n - 1)).length else t.wantX

theorem tbMove_eq_clamp (hn : 0 < (startSel t false).n) {dy : ℤ} (hdy : dy ≠ 0) (dx : ℤ)
    (select : Bool) :
    let t1 := startSel t select
    let w := wantAfter t1 dy
    let y := max 0 (min ((t1.cy : ℤ) + dy) ((t1.n : ℤ) - 1))
    tbMove t dx dy select
      = clamp { t1 with wantX := w } (tbByte { t1 with wantX := w } y.toNat w) y := by
  have hn' : 0 < (startSel t select).n := by
    cases select <;> cases hs : t.sel <;> simpa [startSel, hs, Buf.n] using hn
  rw [tbMove]
  generalize startSel t select = t1 at hn'
  rw [if_pos hdy]
  simp only [wantAfter]
  by_cases h1 : (t1.cy : ℤ) + dy < 0
  · have h2 : ¬ (0 : ℤ) ≥ ({ t1 with wantX := 0 } : Buf).n := by
      show ¬ (0 : ℤ) ≥ t1.n
      omega
    have hy0 : max 0 (min ((t1.cy : ℤ) + dy) ((t1.n : ℤ) - 1)) = 0 := by omega
    simp only [h1, h2, if_true, if_false, hy0]
  · by_cases h2 : (t1.cy : ℤ) + dy ≥ t1.n
    · have hyn : max 0 (min ((t1.cy : ℤ) + dy) ((t1.n : ℤ) - 1)) = (t1.n : ℤ) - 1 := by omega
      simp only [h1, h2, if_true, if_false, hyn]
    · have hyn : max 0 (min ((t1.cy : ℤ) + dy) ((t1.n : ℤ) - 1)) = (t1.cy : ℤ) + dy := by omega
      simp only [h1, h2, if_false, hyn]

/-- Up or down. -/
theorem tbMove_vertical (hi : t.Inv) {dy : ℤ} (hdy : dy ≠ 0) (dx : ℤ) (select : Bool) :
    (tbMove t dx dy select).Inv ∧
      (tbMove t dx dy select).abs = (t.abs.startSel select).vertical dy := by
  obtain ⟨hi1, habs1, -⟩ := startSel_spec hi select
  have hn0 : 0 < (startSel t false).n :=
    Nat.lt_of_le_of_lt (Nat.zero_le _) (startSel_spec hi false).1.cursor.1
  rw [tbMove_eq_clamp hn0 hdy, ← habs1]
  generalize startSel t select = t1 at hi1
  obtain ⟨w, hw⟩ : ∃ w, w = wantAfter t1 dy := ⟨_, rfl⟩
  obtain ⟨y, hy⟩ : ∃ y, y = max 0 (min ((t1.cy : ℤ) + dy) ((t1.n : ℤ) - 1)) := ⟨_, rfl⟩
  have hn : 0 < t1.n := Nat.lt_of_le_of_lt (Nat.zero_le _) hi1.cursor.1
  have hsplit : t1.abs.text.splitOn nl = t1.lines := hi1.splitOn
  have hcount : (t1.abs.text.take t1.abs.cur).count nl = t1.cy :=
    count_take_offset hi1.clean hi1.cursor
  have hbyte : tbByte { t1 with wantX := w } y.toNat w = u8ByteAtCol (t1.line y.toNat) w :=
    if_neg (show ¬ y.toNat ≥ t1.n by omega)
  rw [← hw, ← hy, hbyte]
  obtain ⟨hp, hclamp, hplace⟩ :=
    clamp_eq (hi1.moved (w := w) hi1.cursor).1 (u8ByteAtCol (t1.line y.toNat) w) y
  rw [hclamp, Flat.vertical, hsplit, hcount]
  refine ⟨(hi1.moved (w := w) hp).1, (hi1.moved (w := w) hp).2.trans ?_⟩
  rw [show (if (t1.cy : ℤ) + dy < 0 then 0
      else if (t1.cy : ℤ) + dy ≥ t1.lines.length then
        (t1.lines.getD (t1.lines.length - 1) []).length else t1.abs.want) = w from hw.symm,
    show max 0 (min ((t1.cy : ℤ) + dy) ((t1.lines.length : ℤ) - 1)) = y from hy.symm]
  exact congrArg (fun c => ({ t1.abs with cur := c, want := w } : Flat)) hplace.symm

/-- Where a move to the left or to the right leads. -/
theorem horizontal_spec (hi : t.Inv) (dx : ℤ) : ∃ x y, Place t.lines y x ∧
    (if dx < 0 then
        if t.cx > 0 then { t with cx := u8Prev (t.line t.cy) t.cx }
        else if t.cy > 0 then { t with cy := t.cy - 1, cx := (t.line (t.cy - 1)).length }
        else t
      else if dx > 0 then
        if t.cx < (t.line t.cy).length then { t with cx := u8Next (t.line t.cy) t.cx }
        else if t.cy < t.n - 1 then { t with cy := t.cy + 1, cx := 0 }
        else t
      else t) = ({ t with cx := x, cy := y } : Buf) ∧
    (if dx < 0 ∧ t.abs.cur ≠ 0 then Flat.prev t.abs.text t.abs.cur
      else if dx > 0 ∧ t.abs.cur ≠ t.abs.text.length then Flat.next t.abs.text t.abs.cur
      else t.abs.cur) = offset nl t.lines y x := by
  have hx : t.cx ≤ (t.line t.cy).length := hi.cursor.2
  have hy : t.cy < t.n := hi.cursor.1
  have hzero := cur_eq_zero_iff hi
  have hlast := cur_eq_length_iff hi
  rcases Int.lt_trichotomy dx 0 with hdx | hdx | hdx
  · rw [if_pos hdx]
    rcases Nat.eq_zero_or_pos t.cx with hcx | hcx
    · rw [if_neg (by omega)]
      rcases Nat.eq_zero_or_pos t.cy with hcy | hcy
      · rw [if_neg (by omega), if_neg (fun h => h.2 (hzero.mpr ⟨hcx, hcy⟩)),
          if_neg (fun h => absurd h.1 (by omega))]
        exact ⟨t.cx, t.cy, hi.cursor, rfl, rfl⟩
      · obtain ⟨y, hcy'⟩ : ∃ y, t.cy = y + 1 := ⟨t.cy - 1, by omega⟩
        rw [if_pos hcy, if_pos ⟨hdx, fun h => absurd (hzero.mp h).2 (by omega)⟩,
          prev_of_zero hi hcx hcy', hcy', Nat.add_sub_cancel]
        exact ⟨_, y, ⟨show y < t.n by omega, Nat.le_refl _⟩, rfl, rfl⟩
    · rw [if_pos hcx, if_pos ⟨hdx, fun h => absurd (hzero.mp h).1 (by omega)⟩, prev_of_pos hi hcx]
      exact ⟨_, t.cy, place_u8Prev hi, rfl, rfl⟩
  · rw [if_neg (by omega), if_neg (by omega), if_neg (fun h => absurd h.1 (by omega)),
      if_neg (fun h => absurd h.1 (by omega))]
    exact ⟨t.cx, t.cy, hi.cursor, rfl, rfl⟩
  · have hno : ¬ (dx < 0 ∧ t.abs.cur ≠ 0) := fun h => absurd h.1 (by omega)
    rw [if_neg (by omega), if_pos hdx, if_neg hno]
    rcases Nat.lt_or_ge t.cx (t.line t.cy).length with hlt | hge
    · rw [if_pos hlt, if_pos ⟨hdx, fun h => absurd (hlast.mp h).1 (by omega)⟩, next_of_lt hi hlt]
      exact ⟨_, t.cy, ⟨hy, u8Next_le _⟩, rfl, rfl⟩
    · rw [if_neg (by omega)]
      by_cases hend : t.cy + 1 = t.n
      · rw [if_neg (by omega), if_neg (fun h => h.2 (hlast.mpr ⟨by omega, hend⟩))]
        exact ⟨t.cx, t.cy, hi.cursor, rfl, rfl⟩
      · rw [if_pos (by omega), if_pos ⟨hdx, fun h => hend (hlast.mp h).2⟩,
          next_of_end hi (by omega)]
        exact ⟨0, t.cy + 1, ⟨show t.cy + 1 < t.n by omega, Nat.zero_le _⟩, rfl, rfl⟩

theorem tbMove_spec (hi : t.Inv) (dx dy : ℤ) (select : Bool) :
    (tbMove t dx dy select).Inv ∧ (tbMove t dx dy select).abs = t.abs.move dx dy select := by
  by_cases hdy : dy ≠ 0
  · rw [Flat.move, if_pos hdy]
    exact tbMove_vertical hi hdy dx select
  obtain ⟨hi1, habs1, -⟩ := startSel_spec hi select
  rw [tbMove, Flat.move, ← habs1]
  generalize startSel t select = t1 at hi1
  obtain ⟨x, y, hp, hcode, hflat⟩ := horizontal_spec hi1 dx
  rw [if_neg hdy, if_neg hdy]
  simp only [hcode, hflat]
  exact hi1.movedCol hp

/-! ## Cutting a line -/

theorem clamp_line (hn : 0 < t.n) (x y : ℤ) (d : Bool) :
    ({ clamp t x y with cx := 0, dirty := d } : Buf)
      = { t with cx := 0, cy := (max 0 (min y ((t.n : ℤ) - 1))).toNat, dirty := d } := by
  have hyeq : (if (if y < 0 then 0 else y) ≥ (t.n : ℤ) then (t.n : ℤ) - 1
      else (if y < 0 then 0 else y)).toNat = (max 0 (min y ((t.n : ℤ) - 1))).toNat := by
    split_ifs <;> omega
  simp only [clamp, hyeq]

/-- The buffer after a line was cut: `ls` are the lines left. -/
theorem tbCutLine_eq {ls : List (List UInt8)}
    (hls : (if t.n > 1 then removeLine t.lines t.cy else t.lines.set t.cy []) = ls)
    (hne : 0 < ls.length) :
    (tbCutLine .full t).1 = ⟨ls, 0, min t.cy (ls.length - 1), t.wantX, false, t.ax, t.ay, true⟩ := by
  rw [tbCutLine, if_pos (show Heap.full 0 = true from rfl), hls]
  refine (clamp_line (t := { t with lines := ls, sel := false }) hne _ _ _).trans ?_
  have : (max 0 (min (t.cy : ℤ) ((ls.length : ℤ) - 1))).toNat = min t.cy (ls.length - 1) := by omega
  simp only [Buf.n, this]

/-- A line before the last. -/
theorem tbCutLine_inner (hi : t.Inv) (hlast : t.cy + 1 < t.n) :
    (tbCutLine .full t).1.Inv ∧ (tbCutLine .full t).1.abs = t.abs.cutLine := by
  have h0 : Place t.lines t.cy 0 := ⟨hi.cursor.1, Nat.zero_le _⟩
  have h1 : Place t.lines (t.cy + 1) 0 := ⟨hlast, Nat.zero_le _⟩
  have hlen : t.lines.length = t.n := rfl
  have hls : removeLine t.lines t.cy = cut t.lines t.cy 0 (t.cy + 1) 0 := by
    rw [removeLine, cut, List.take_zero, List.nil_append, List.drop_zero,
      List.drop_eq_getElem_cons hlast, List.getD_eq_getElem _ _ hlast]
  have hcutlen : (removeLine t.lines t.cy).length = t.n - 1 := by
    rw [removeLine, List.length_append, List.length_take, List.length_drop]
    omega
  have hj : Flat.lineEnd t.abs.text t.abs.cur + 1 = offset nl t.lines (t.cy + 1) 0 := by
    rw [lineEnd_cur hi, offset_line_succ hi.cursor.1]
  have hlt : Flat.lineEnd t.abs.text t.abs.cur < t.abs.text.length := by
    have : offset nl t.lines (t.cy + 1) 0 ≤ t.abs.text.length := offset_le h1
    omega
  rw [tbCutLine_eq (if_pos (by omega)) (by omega), hcutlen,
    Nat.min_eq_left (by omega), hls, Flat.cutLine, if_pos hlt, hj, lineStart_cur hi]
  exact hi.cut h0 h1

/-- The last line of several: the line break before it goes too. -/
theorem tbCutLine_last (hi : t.Inv) {y : ℕ} (hcy : t.cy = y + 1) (hlast : y + 2 = t.n) :
    (tbCutLine .full t).1.Inv ∧ (tbCutLine .full t).1.abs = t.abs.cutLine := by
  have hlen : t.lines.length = t.n := rfl
  have hy : y < t.lines.length := by omega
  have h0 : Place t.lines y (t.line y).length := ⟨hy, Nat.le_refl _⟩
  have hls : removeLine t.lines t.cy = t.lines.take (y + 1) := by
    rw [removeLine, hcy, List.drop_of_length_le (by omega), List.append_nil]
  have htake : t.lines.take (y + 1) = t.lines.take y ++ [t.line y] := by
    rw [Buf.line, List.getD_eq_getElem _ _ hy, List.take_succ_eq_append_getElem hy]
  have hcutlen : (t.lines.take (y + 1)).length = y + 1 := List.length_take_of_le hy
  -- the cursor at the end of the line before, in what is left
  obtain ⟨r, hr⟩ : ∃ r : Buf, r = ⟨t.lines.take (y + 1), (t.line y).length, y, t.wantX, false,
    t.ax, t.ay, true⟩ := ⟨_, rfl⟩
  have hline : (t.lines.take (y + 1)).getD y [] = t.line y := by
    rw [htake]
    exact getD_append_of_eq (Nat.le_of_lt hy) _ _
  have hri : r.Inv := by
    rw [hr]
    refine ⟨fun l hl => hi.clean l (List.mem_of_mem_take hl), ⟨?_, ?_⟩, fun hs => absurd hs (by simp)⟩
    · show y < (t.lines.take (y + 1)).length
      omega
    · show (t.line y).length ≤ ((t.lines.take (y + 1)).getD y []).length
      rw [hline]
  have htext : r.abs.text = t.abs.text.take (offset nl t.lines y (t.line y).length) := by
    have ht : t.abs.text.take _ = _ := take_offset h0
    rw [ht, hr]
    show joined nl (t.lines.take (y + 1)) = _
    rw [htake, joined_append_cons, opened_nil, List.append_nil]
    exact congrArg _ (List.take_length.symm)
  have hcur : r.abs.cur = offset nl t.lines y (t.line y).length := by
    rw [hr]
    show offset nl (t.lines.take (y + 1)) y _ = _
    rw [offset, htake, take_append_of_eq (Nat.le_of_lt hy), offset]
  have hi0 : Flat.lineStart t.abs.text t.abs.cur - 1 = offset nl t.lines y (t.line y).length := by
    rw [lineStart_cur hi, hcy, offset_line_succ hy]
    rfl
  have hnlt : ¬ Flat.lineEnd t.abs.text t.abs.cur < t.abs.text.length := by
    have hsel : (tbSelectAll t).abs.cur = t.abs.text.length :=
      congrArg Flat.cur (tbSelectAll_spec hi).2
    have hn1 : t.n - 1 = t.cy := by omega
    rw [lineEnd_cur hi, ← hsel, tbSelectAll, hn1]
    exact Nat.lt_irrefl _
  rw [tbCutLine_eq ((if_pos (by omega)).trans hls) (by omega), hcutlen,
    Nat.min_eq_right (by omega), Nat.add_sub_cancel, Flat.cutLine, if_neg hnlt, hi0, ← htext, ← hcur]
  simp only [lineStart_cur hri]
  rw [hr]
  refine ⟨⟨?_, ⟨?_, Nat.zero_le _⟩, fun hs => absurd hs (by simp)⟩, rfl⟩
  · exact fun l hl => hi.clean l (List.mem_of_mem_take hl)
  · show y < (t.lines.take (y + 1)).length
    omega

/-- The only line is emptied. -/
theorem tbCutLine_only (hi : t.Inv) (hn : t.n = 1) :
    (tbCutLine .full t).1.Inv ∧ (tbCutLine .full t).1.abs = t.abs.cutLine := by
  have hy : t.cy < t.n := hi.cursor.1
  have hcy : t.cy = 0 := by omega
  obtain ⟨l, hl⟩ := List.length_eq_one_iff.mp hn
  have hstart : Flat.lineStart t.abs.text t.abs.cur = 0 := by
    rw [lineStart_cur hi, hcy]
    rfl
  have hnlt : ¬ Flat.lineEnd t.abs.text t.abs.cur < t.abs.text.length := by
    have hsel : (tbSelectAll t).abs.cur = t.abs.text.length :=
      congrArg Flat.cur (tbSelectAll_spec hi).2
    have hn1 : t.n - 1 = t.cy := by omega
    rw [lineEnd_cur hi, ← hsel, tbSelectAll, hn1]
    exact Nat.lt_irrefl _
  have hls : (if t.n > 1 then removeLine t.lines t.cy else t.lines.set t.cy []) = [[]] := by
    rw [if_neg (by omega), hl, hcy]
    rfl
  rw [tbCutLine_eq hls Nat.one_pos, Flat.cutLine, if_neg hnlt, hstart, hcy]
  refine ⟨⟨?_, ⟨Nat.one_pos, Nat.zero_le _⟩, fun hs => absurd hs (by simp)⟩, rfl⟩
  intro m hm
  rw [List.mem_singleton.mp hm]
  exact List.not_mem_nil

theorem tbCutLine_spec (hi : t.Inv) :
    (tbCutLine .full t).1.Inv ∧ (tbCutLine .full t).1.abs = t.abs.cutLine := by
  have hy : t.cy < t.n := hi.cursor.1
  rcases Nat.lt_or_ge (t.cy + 1) t.n with h | h
  · exact tbCutLine_inner hi h
  · rcases Nat.eq_zero_or_pos t.cy with hcy | hcy
    · exact tbCutLine_only hi (by omega)
    · exact tbCutLine_last (y := t.cy - 1) hi (by omega) (by omega)

/-! ## Loading -/

theorem dropCr_length_le (l : List UInt8) : (dropCr l).length ≤ l.length := by
  rw [dropCr]
  split
  · rw [List.length_dropLast]
    omega
  · exact Nat.le_refl _

theorem dropCr_cons (b : UInt8) (l : List UInt8) :
    dropCr (b :: l) = if b = cr ∧ l = [] then [] else b :: dropCr l := by
  cases l with
  | nil => by_cases hb : b = cr <;> simp [dropCr, hb]
  | cons c l =>
    have hlast : (b :: c :: l).getLast? = (c :: l).getLast? := by simp
    rw [if_neg (by simp), dropCr, dropCr, hlast]
    split <;> rfl

theorem tbLoadLoop_spec (text : List UInt8) : ∀ (done : List (List UInt8)) (l : List UInt8),
    nl ∉ l → done ≠ [] → done.length ≤ maxLines → l.length + text.length < 2 ^ 31 →
    tbLoadLoop .full done l text = if done.length + text.count nl ≤ maxLines
      then some (done.dropLast ++ ((l ++ text).splitOn nl).map dropCr) else none := by
  induction text with
  | nil =>
    intro done l hl hne hd hlen
    have hlen' := dropCr_length_le l
    rw [tbLoadLoop, lineReserve_full (by rw [List.length_nil] at hlen; omega), List.append_nil,
      List.splitOn_eq_singleton hl]
    exact (if_pos hd).symm
  | cons b text ih =>
    intro done l hl hne hd hlen
    rw [List.length_cons] at hlen
    rw [tbLoadLoop]
    by_cases hb : b = nl
    · subst hb
      have hlen' := dropCr_length_le l
      have hdl : (done.dropLast ++ [dropCr l]).length = done.length := by
        have := List.length_pos_iff.mpr hne
        rw [List.length_append, List.length_dropLast, List.length_singleton]
        omega
      rw [if_pos rfl, lineReserve_full (by omega), List.count_cons_self,
        List.splitOn_append_cons_self, List.splitOn_eq_singleton hl]
      simp only []
      by_cases hmax : done.length + 1 ≤ maxLines
      · rw [insertLine_full (by rw [hdl]; exact hmax), List.take_length, List.drop_length]
        simp only []
        rw [ih _ _ (by simp) (by simp) (by rw [List.length_append, hdl]; exact hmax)
          (by rw [List.length_nil]; omega), List.length_append, hdl, List.dropLast_concat]
        simp only [List.length_singleton, List.nil_append, List.map_append, List.map_cons,
          List.map_nil, List.append_assoc, Nat.add_assoc, Nat.add_comm 1]
      · have hno : insertLine .full (done.dropLast ++ [dropCr l]) (done.dropLast ++ [dropCr l]).length
            = (none, .full) := by
          rw [insertLine, linesReserve, if_pos (by rw [hdl]; omega)]
        rw [hno, if_neg (by omega)]
    · rw [if_neg hb, ih _ _ (by simpa [hl] using fun h => hb h.symm) hne hd
        (by rw [List.length_append, List.length_singleton]; omega), List.count_cons_of_ne hb,
        List.append_assoc, List.singleton_append]

theorem unCrlf_line {l : List UInt8} (hl : nl ∉ l) : Flat.unCrlf l = dropCr l := by
  induction l with
  | nil => rfl
  | cons b l ih =>
    have hl' : nl ∉ l := fun h => hl (List.mem_cons_of_mem _ h)
    have hhead : l.head? ≠ some nl := by
      cases l with
      | nil => simp
      | cons c l => simpa using fun h : c = nl => hl' (h ▸ List.mem_cons_self)
    rw [Flat.unCrlf, dropCr_cons, ih hl']
    by_cases h : b = cr ∧ l = []
    · rw [if_pos ⟨h.1, Or.inl h.2⟩, if_pos h, h.2]
      rfl
    · rw [if_neg fun hc => h ⟨hc.1, hc.2.resolve_right hhead⟩, if_neg h]

theorem unCrlf_append_break {l : List UInt8} (hl : nl ∉ l) (s : List UInt8) :
    Flat.unCrlf (l ++ nl :: s) = dropCr l ++ nl :: Flat.unCrlf s := by
  induction l with
  | nil =>
    rw [List.nil_append, Flat.unCrlf, if_neg fun h => absurd h.1 (by decide)]
    rfl
  | cons b l ih =>
    have hl' : nl ∉ l := fun h => hl (List.mem_cons_of_mem _ h)
    have hcond : (l ++ nl :: s = [] ∨ (l ++ nl :: s).head? = some nl) ↔ l = [] := by
      cases l with
      | nil => simp
      | cons c l => simpa using fun h : c = nl => hl' (h ▸ List.mem_cons_self)
    rw [List.cons_append, Flat.unCrlf, dropCr_cons, ih hl']
    by_cases h : b = cr ∧ l = []
    · rw [if_pos ⟨h.1, hcond.mpr h.2⟩, if_pos h, h.2]
      rfl
    · rw [if_neg fun hc => h ⟨hc.1, hcond.mp hc.2⟩, if_neg h, List.cons_append]

theorem joined_map_dropCr {L : List (List UInt8)} (hc : Clean nl L) :
    joined nl (L.map dropCr) = Flat.unCrlf (joined nl L) := by
  induction L with
  | nil => rfl
  | cons l ls ih =>
    have hl : nl ∉ l := hc l List.mem_cons_self
    have ih' := ih fun k hk => hc k (List.mem_cons_of_mem _ hk)
    cases ls with
    | nil =>
      simp only [List.map_cons, List.map_nil, joined, opened_nil, List.append_nil]
      exact (unCrlf_line hl).symm
    | cons m ms =>
      have hopen : ∀ (k : List UInt8) (ks : List (List UInt8)),
          opened nl (k :: ks) = nl :: joined nl (k :: ks) := fun k ks => by rw [opened_cons, joined]
      rw [List.map_cons, joined, joined, List.map_cons, hopen, hopen, ← List.map_cons, ih',
        unCrlf_append_break hl]

theorem Clean.map_dropCr {L : List (List UInt8)} (hc : Clean nl L) : Clean nl (L.map dropCr) := by
  intro l hl
  obtain ⟨k, hk, rfl⟩ := List.mem_map.mp hl
  intro hm
  rw [dropCr] at hm
  split at hm
  · exact hc k hk (List.dropLast_subset k hm)
  · exact hc k hk hm

/-- `tb_load` with memory to be had: it takes exactly what fits. -/
theorem tbLoad_full (t : Buf) (text : List UInt8) :
    tbLoad .full t (some text) text.length = if Flat.Fits text
      then ({ Buf.zero with lines := (text.splitOn nl).map dropCr }, true) else (t, false) := by
  rw [tbLoad]
  by_cases hlen : text.length < 2 ^ 31
  · rw [if_neg (by simp; omega), insertLine_full (by simp [maxLines])]
    simp only [Option.getD_some, List.take_nil, List.drop_nil, List.nil_append]
    rw [tbLoadLoop_spec text [[]] [] (by simp) (by simp) (by simp [maxLines])
      (by simpa using hlen)]
    by_cases hmax : text.count nl + 1 ≤ maxLines
    · rw [if_pos (by simp only [List.length_singleton]; omega), if_pos ⟨hlen, hmax⟩]
      rfl
    · rw [if_neg (by simp only [List.length_singleton]; omega), if_neg fun h => hmax h.2]
  · rw [if_pos (Or.inl (by omega)), if_neg fun h => hlen h.1]

theorem zero_spec {ls : List (List UInt8)} (hne : ls ≠ []) (hc : Clean nl ls) :
    ({ Buf.zero with lines := ls } : Buf).Inv ∧
      ({ Buf.zero with lines := ls } : Buf).abs = ⟨joined nl ls, 0, none, 0⟩ :=
  ⟨⟨hc, ⟨List.length_pos_iff.mpr hne, Nat.zero_le _⟩, fun hs => absurd hs Bool.false_ne_true⟩, rfl⟩

theorem tbLoad_spec (hi : t.Inv) (text : List UInt8) :
    (tbLoad .full t (some text) text.length).1.Inv ∧
      (tbLoad .full t (some text) text.length).1.abs = t.abs.load text := by
  rw [tbLoad_full, Flat.load]
  split_ifs with hf
  · obtain ⟨-, hc, hj⟩ := splitOn_spec nl text
    have hne' : (text.splitOn nl).map dropCr ≠ [] := by simp
    have := zero_spec hne' (Clean.map_dropCr hc)
    rwa [joined_map_dropCr hc, hj] at this
  · exact ⟨hi, rfl⟩

/-- One call on the buffer is the call on the flat text. -/
theorem step_spec (hi : t.Inv) {op : Op} (hf : Flat.Fits (t.abs.step op).text) :
    (step .full t op).Inv ∧ (step .full t op).abs = t.abs.step op := by
  cases op with
  | load text => exact tbLoad_spec hi text
  | insert s => exact tbInsert_spec hi hf
  | backspace => exact tbBackspace_spec hi hf
  | delete => exact tbDelete_spec hi hf
  | selDelete =>
    obtain ⟨t', ht, hinv, -, habs⟩ := tbSelDelete_spec hi hf
    rw [step, ht]
    exact ⟨hinv, habs⟩
  | cutLine => exact tbCutLine_spec hi
  | move dx dy select => exact tbMove_spec hi dx dy select
  | home select => exact tbHome_spec hi select
  | «end» select => exact tbEnd_spec hi select
  | goto x y select => exact tbGoto_spec hi x y select
  | selectAll => exact tbSelectAll_spec hi

end BananaOS.Textbuf
