import BananaOS.Textbuf.Flat
import Mathlib.Data.List.TakeWhile

/-!
# Edits of the lines are edits of the text

`Buf.abs` is the flat text of a buffer.  The invariant says that its lines hold no line breaks and
that the cursor and the selection are places of the text (`Buf.Inv`); then the bytes before and
after the cursor in its line are those before and after the offset, up to the next line break, and
every edit of the line table is a cut between two places or an insertion at one
(`Lib/Lines.lean`).

Of memory a call is granted what it asks for (`Heap.full`); what fits into a buffer is below the
limits of `line_reserve` and `lines_reserve`, so that no request is refused.
-/

namespace BananaOS.Textbuf

open Lib.Lines

variable {t : Buf} {h : Heap}

/-- The flat text of a buffer. -/
def Buf.abs (t : Buf) : Flat where
  text := joined nl t.lines
  cur := offset nl t.lines t.cy t.cx
  anchor := if t.sel then some (offset nl t.lines t.ay t.ax) else none
  want := t.wantX

/-- The cursor, and while something is selected the other end of the selection, are in the text. -/
structure Buf.Inv (t : Buf) : Prop where
  clean : Clean nl t.lines
  cursor : Place t.lines t.cy t.cx
  anchor : t.sel = true → Place t.lines t.ay t.ax

/-! ## Requests that are granted -/

@[simp] theorem rest_full : Heap.full.rest = Heap.full := rfl

theorem lineReserve_full {need : ℕ} (hn : need < 2 ^ 31) :
    lineReserve .full need = (true, .full) := by
  rw [lineReserve, if_neg (by omega)]
  rfl

theorem linesReserve_full {need : ℕ} (hn : need ≤ maxLines) :
    linesReserve .full need = (true, .full) := by
  rw [linesReserve, if_neg (by omega)]
  rfl

theorem insertLine_full {ls : List (List UInt8)} {i : ℕ} (hn : ls.length + 1 ≤ maxLines) :
    insertLine .full ls i = (some (ls.take i ++ [] :: ls.drop i), .full) := by
  rw [insertLine, linesReserve_full hn]
  simp only [lineReserve_full (show 0 < 2 ^ 31 by decide)]

/-! ## Lines -/

theorem Buf.Inv.splitOn (hi : t.Inv) : (joined nl t.lines).splitOn nl = t.lines := by
  refine splitOn_joined (fun hnil => ?_) hi.clean
  have := hi.cursor.1
  rw [hnil] at this
  exact absurd this (by simp)

theorem sinceSep_cur (hi : t.Inv) :
    sinceSep nl (t.abs.text.take t.abs.cur) = (t.line t.cy).take t.cx :=
  sinceSep_take_offset hi.clean hi.cursor

theorem untilSep_cur (hi : t.Inv) :
    untilSep nl (t.abs.text.drop t.abs.cur) = (t.line t.cy).drop t.cx :=
  untilSep_drop_offset hi.clean hi.cursor

theorem lineStart_cur (hi : t.Inv) :
    Flat.lineStart t.abs.text t.abs.cur = offset nl t.lines t.cy 0 := by
  have hx : t.cx ≤ (t.line t.cy).length := hi.cursor.2
  have hcur : t.abs.cur = offset nl t.lines t.cy 0 + t.cx := rfl
  rw [Flat.lineStart, sinceSep_cur hi, List.length_take]
  omega

theorem lineEnd_cur (hi : t.Inv) :
    Flat.lineEnd t.abs.text t.abs.cur = offset nl t.lines t.cy (t.line t.cy).length := by
  have hx : t.cx ≤ (t.line t.cy).length := hi.cursor.2
  have hcur : t.abs.cur = offset nl t.lines t.cy 0 + t.cx := rfl
  rw [Flat.lineEnd, untilSep_cur hi, List.length_drop, offset_eq_add]
  omega

theorem col_cur (hi : t.Inv) : tbCol t t.cy t.cx = Flat.col t.abs.text t.abs.cur := by
  have hy : ¬ t.cy ≥ t.n := not_le.mpr hi.cursor.1
  rw [tbCol, if_neg hy, Flat.col, sinceSep_cur hi]

/-! ## The characters around the cursor -/

theorem cur_eq_zero_iff (hi : t.Inv) : t.abs.cur = 0 ↔ t.cx = 0 ∧ t.cy = 0 :=
  offset_inj hi.cursor
    (show Place t.lines 0 0 from ⟨Nat.lt_of_le_of_lt (Nat.zero_le _) hi.cursor.1, Nat.zero_le _⟩)

theorem cur_eq_length_iff (hi : t.Inv) :
    t.abs.cur = t.abs.text.length ↔ t.cx = (t.line t.cy).length ∧ t.cy + 1 = t.n := by
  have hle : t.abs.cur ≤ t.abs.text.length := offset_le hi.cursor
  have hx : t.cx ≤ (t.line t.cy).length := hi.cursor.2
  have hy : t.cy < t.n := hi.cursor.1
  have hdrop : t.abs.text.drop t.abs.cur
      = (t.line t.cy).drop t.cx ++ opened nl (t.lines.drop (t.cy + 1)) := drop_offset hi.cursor
  constructor
  · intro heq
    rw [heq, List.drop_length] at hdrop
    obtain ⟨h1, h2⟩ := List.append_eq_nil_iff.mp hdrop.symm
    rw [List.drop_eq_nil_iff] at h1
    refine ⟨by omega, ?_⟩
    have h3 : t.lines.drop (t.cy + 1) = [] := by
      cases hd : t.lines.drop (t.cy + 1) with
      | nil => rfl
      | cons b B => simp [hd] at h2
    rw [List.drop_eq_nil_iff] at h3
    exact Nat.le_antisymm hy h3
  · rintro ⟨h1, h2⟩
    rw [h1, List.drop_length, List.drop_of_length_le (Nat.le_of_eq h2.symm), opened_nil,
      List.append_nil, List.drop_eq_nil_iff] at hdrop
    exact Nat.le_antisymm hle hdrop

theorem prev_of_pos (hi : t.Inv) (hcx : 0 < t.cx) :
    Flat.prev t.abs.text t.abs.cur = offset nl t.lines t.cy (u8Prev (t.line t.cy) t.cx) := by
  have hmin : ((t.line t.cy).take t.cx).length = t.cx := List.length_take_of_le hi.cursor.2
  have hne : (t.line t.cy).take t.cx ≠ [] := fun hnil => by
    rw [hnil, List.length_nil] at hmin
    omega
  rw [Flat.prev, sinceSep_cur hi, if_neg hne, lineStart_cur hi, hmin, u8Prev_take]
  rfl

theorem place_u8Prev (hi : t.Inv) : Place t.lines t.cy (u8Prev (t.line t.cy) t.cx) := by
  refine ⟨hi.cursor.1, Nat.le_trans ?_ hi.cursor.2⟩
  rcases Nat.eq_zero_or_pos t.cx with h | h
  · rw [h]
    exact Nat.le_refl 0
  · exact Nat.le_of_lt (u8Prev_lt h)

theorem offset_line_succ {y : ℕ} (hy : y < t.n) :
    offset nl t.lines (y + 1) 0 = offset nl t.lines y (t.line y).length + 1 := offset_succ hy

theorem prev_of_zero (hi : t.Inv) {y : ℕ} (hcx : t.cx = 0) (hcy : t.cy = y + 1) :
    Flat.prev t.abs.text t.abs.cur = offset nl t.lines y (t.line y).length := by
  have hy : t.cy < t.n := hi.cursor.1
  have hcur : t.abs.cur = offset nl t.lines (y + 1) 0 := by rw [Buf.abs, hcy, hcx]
  rw [Flat.prev, sinceSep_cur hi, hcx, List.take_zero, if_pos rfl, hcur,
    offset_line_succ (by omega)]
  rfl

theorem u8Cont_nl : u8Cont nl = false := by decide

theorem takeWhile_append_opened (l : List UInt8) (B : List (List UInt8)) :
    (l ++ opened nl B).takeWhile u8Cont = l.takeWhile u8Cont := by
  induction l with
  | nil =>
    cases B with
    | nil => rfl
    | cons b B => simp [u8Cont_nl]
  | cons c l ih =>
    rw [List.cons_append, List.takeWhile_cons, List.takeWhile_cons, ih]

theorem next_of_lt (hi : t.Inv) (hlt : t.cx < (t.line t.cy).length) :
    Flat.next t.abs.text t.abs.cur = offset nl t.lines t.cy (u8Next (t.line t.cy) t.cx) := by
  have hne : (t.line t.cy).drop t.cx ≠ [] := by
    rw [Ne, List.drop_eq_nil_iff]
    omega
  have hdrop : t.abs.text.drop (t.abs.cur + 1)
      = (t.line t.cy).drop (t.cx + 1) ++ opened nl (t.lines.drop (t.cy + 1)) :=
    drop_offset (x := t.cx + 1) ⟨hi.cursor.1, hlt⟩
  rw [Flat.next, untilSep_cur hi, if_neg hne, hdrop, takeWhile_append_opened, u8Next,
    if_neg (by omega), offset_eq_add]
  have hcur : t.abs.cur = offset nl t.lines t.cy 0 + t.cx := rfl
  omega

theorem next_of_end (hi : t.Inv) (hcx : t.cx = (t.line t.cy).length) :
    Flat.next t.abs.text t.abs.cur = offset nl t.lines (t.cy + 1) 0 := by
  rw [Flat.next, untilSep_cur hi, hcx, List.drop_length, if_pos rfl,
    offset_line_succ hi.cursor.1, ← hcx]
  rfl

/-! ## The selection -/

theorem tbSelBounds_spec (hi : t.Inv) {x0 y0 x1 y1 : ℕ}
    (hb : tbSelBounds t = some (x0, y0, x1, y1)) :
    Place t.lines y0 x0 ∧ Place t.lines y1 x1 ∧ (y0 < y1 ∨ (y0 = y1 ∧ x0 < x1)) := by
  rw [tbSelBounds] at hb
  split_ifs at hb with h1 h2
  · rw [not_or, Bool.not_eq_false] at h1
    simp only [Option.some.injEq, Prod.mk.injEq] at hb
    obtain ⟨rfl, rfl, rfl, rfl⟩ := hb
    exact ⟨hi.anchor h1.1, hi.cursor, h2⟩
  · rw [not_or, Bool.not_eq_false] at h1
    simp only [Option.some.injEq, Prod.mk.injEq] at hb
    obtain ⟨rfl, rfl, rfl, rfl⟩ := hb
    exact ⟨hi.cursor, hi.anchor h1.1, by omega⟩

theorem selection_abs (hi : t.Inv) :
    t.abs.selection = (tbSelBounds t).map fun (x0, y0, x1, y1) =>
      (offset nl t.lines y0 x0, offset nl t.lines y1 x1) := by
  cases hs : t.sel with
  | false => simp [Flat.selection, Buf.abs, tbSelBounds, hs]
  | true =>
    have ha := hi.anchor hs
    have heq : offset nl t.lines t.ay t.ax = offset nl t.lines t.cy t.cx ↔ _ :=
      offset_inj ha hi.cursor
    have hlt : offset nl t.lines t.ay t.ax < offset nl t.lines t.cy t.cx ↔ _ :=
      offset_lt_iff ha hi.cursor
    simp only [Flat.selection, Buf.abs, tbSelBounds, hs, if_true, Bool.true_eq_false, false_or]
    by_cases h1 : t.ax = t.cx ∧ t.ay = t.cy
    · rw [if_pos (heq.mpr h1), if_pos h1, Option.map_none]
    · rw [if_neg (mt heq.mp h1), if_neg h1]
      by_cases h2 : t.ay < t.cy ∨ (t.ay = t.cy ∧ t.ax < t.cx)
      · have := hlt.mpr h2
        rw [if_pos h2, Option.map_some, Nat.min_eq_left (Nat.le_of_lt this),
          Nat.max_eq_right (Nat.le_of_lt this)]
      · have := not_lt.mp (mt hlt.mp h2)
        rw [if_neg h2, Option.map_some, Nat.min_eq_right this, Nat.max_eq_left this]

/-! ## Edits -/

theorem removeLines_eq {L : List (List UInt8)} {y k : ℕ} (hk : y + k < L.length) :
    removeLines L y k = L.take (y + 1) ++ L.drop (y + 1 + k) := by
  induction k generalizing L with
  | zero => simp [removeLines]
  | succ k ih =>
    have hlen : (L.take (y + (k + 1))).length = y + 1 + k := by
      rw [List.length_take]
      omega
    rw [removeLines, removeLine, ih (by rw [List.length_append, hlen]; omega),
      List.take_append_of_le_length (by omega), List.take_take, Nat.min_eq_left (by omega),
      List.drop_append_of_le_length (by omega), List.drop_of_length_le (by omega), List.nil_append]
    congr 2
    omega

theorem removeLines_set {L : List (List UInt8)} {y y' : ℕ} (hle : y ≤ y') (hy : y' < L.length)
    (v : List UInt8) :
    removeLines (L.set y v) y (y' - y) = L.take y ++ v :: L.drop (y' + 1) := by
  rw [removeLines_eq (by rw [List.length_set]; omega), List.drop_set_of_lt (by omega),
    List.take_set, List.take_succ_eq_append_getElem (by omega),
    List.set_append_right _ _ (List.length_take_le _ _)]
  have hmin : min y L.length = y := by omega
  simp [hmin]
  congr 1
  omega

theorem Buf.Inv.cut (hi : t.Inv) {x0 y0 x1 y1 w : ℕ} {d : Bool} (h0 : Place t.lines y0 x0)
    (h1 : Place t.lines y1 x1) :
    let t' : Buf := ⟨Lib.Lines.cut t.lines y0 x0 y1 x1, x0, y0, w, false, t.ax, t.ay, d⟩
    t'.Inv ∧ t'.abs = ⟨Flat.erase t.abs.text (offset nl t.lines y0 x0)
      (offset nl t.lines y1 x1), offset nl t.lines y0 x0, none, w⟩ := by
  refine ⟨⟨hi.clean.cut _ _ _ _, place_cut h0, fun hs => absurd hs (by simp)⟩, ?_⟩
  simp only [Buf.abs, Flat.erase, joined_cut h0 h1, offset_cut h0]
  rfl

theorem length_cut {L : List (List UInt8)} {x0 y0 x1 y1 : ℕ} (h0 : Place L y0 x0)
    (h1 : Place L y1 x1) :
    x0 + (L.getD y1 []).length - x1
      ≤ (Flat.erase (joined nl L) (offset nl L y0 x0) (offset nl L y1 x1)).length := by
  have := h0.2
  have := h1.2
  rw [Flat.erase, take_offset h0, drop_offset h1]
  simp only [List.length_append, List.length_take, List.length_drop]
  omega

theorem tbSelDelete_spec (hi : t.Inv) (hf : Flat.Fits t.abs.selDelete.text) :
    ∃ t', tbSelDelete .full t = (t', .full) ∧ t'.Inv ∧ t'.sel = false ∧
      t'.abs = t.abs.selDelete := by
  have hsel := selection_abs hi
  cases hb : tbSelBounds t with
  | none =>
    rw [hb, Option.map_none] at hsel
    refine ⟨{ t with sel := false }, by rw [tbSelDelete, hb],
      ⟨hi.clean, hi.cursor, fun hs => absurd hs (by simp)⟩, rfl, ?_⟩
    rw [Flat.selDelete, hsel]
    rfl
  | some b =>
    obtain ⟨x0, y0, x1, y1⟩ := b
    obtain ⟨h0, h1, hord⟩ := tbSelBounds_spec hi hb
    have hle : y0 ≤ y1 := by omega
    rw [hb, Option.map_some] at hsel
    rw [Flat.selDelete, hsel] at hf ⊢
    obtain ⟨hinv, habs⟩ := hi.cut (w := t.wantX) (d := true) h0 h1
    have hlen := length_cut h0 h1
    have hx1 := h1.2
    have hneed : x0 + ((t.line y1).drop x1).length < 2 ^ 31 := by
      rw [List.length_drop, Buf.line]
      have := hf.1
      simp only [Buf.abs] at this
      omega
    refine ⟨_, ?_, hinv, rfl, habs⟩
    rw [tbSelDelete, hb]
    simp only [lineReserve_full hneed, if_true, removeLines_set hle h1.1]
    rfl

theorem Buf.Inv.cutCol (hi : t.Inv) {x0 y0 x1 y1 : ℕ} (h0 : Place t.lines y0 x0)
    (h1 : Place t.lines y1 x1) :
    let t' : Buf := ⟨Lib.Lines.cut t.lines y0 x0 y1 x1, x0, y0, t.wantX, false, t.ax, t.ay, t.dirty⟩
    let t'' : Buf := { t' with wantX := tbCol t' y0 x0, dirty := true }
    let text := Flat.erase t.abs.text (offset nl t.lines y0 x0) (offset nl t.lines y1 x1)
    t''.Inv ∧ t''.abs = ⟨text, offset nl t.lines y0 x0, none,
      Flat.col text (offset nl t.lines y0 x0)⟩ := by
  intro t' t'' text
  obtain ⟨hinv, habs⟩ := hi.cut (w := t.wantX) (d := t.dirty) h0 h1
  have hcol : tbCol t' y0 x0 = Flat.col text (offset nl t.lines y0 x0) := by
    have := col_cur hinv
    rwa [habs] at this
  rw [← hcol]
  exact hi.cut h0 h1

theorem cut_same {L : List (List UInt8)} {y x x' : ℕ} (hy : y < L.length) :
    cut L y x y x' = L.set y ((L.getD y []).take x ++ (L.getD y []).drop x') := by
  rw [cut, List.set_eq_take_append_cons_drop, if_pos hy]

theorem cut_join {L : List (List UInt8)} {y : ℕ} (hy : y + 1 < L.length) :
    cut L y (L.getD y []).length (y + 1) 0
      = removeLine (L.set y (L.getD y [] ++ L.getD (y + 1) [])) (y + 1) := by
  rw [cut, removeLine, List.take_length, List.drop_zero, List.drop_set_of_lt (by omega),
    List.take_set, List.take_succ_eq_append_getElem (by omega),
    List.set_append_right _ _ (List.length_take_le _ _)]
  have hmin : min y L.length = y := by omega
  simp [hmin]

theorem sel_false (hi : t.Inv) : ({ t with sel := false } : Buf).Inv :=
  ⟨hi.clean, hi.cursor, fun hs => absurd hs (by simp)⟩

/-- Without a selection and inside a line the character before the cursor goes. -/
theorem tbBackspace_char (hb : tbSelBounds t = none) (hcx : 0 < t.cx) (hy : t.cy < t.n) :
    tbBackspace h t =
      let t' : Buf := ⟨cut t.lines t.cy (u8Prev (t.line t.cy) t.cx) t.cy t.cx,
        u8Prev (t.line t.cy) t.cx, t.cy, t.wantX, false, t.ax, t.ay, t.dirty⟩
      { t' with wantX := tbCol t' t'.cy t'.cx, dirty := true } := by
  rw [tbBackspace, hb, if_neg (by simp)]
  simp only [gt_iff_lt]
  rw [if_pos hcx, cut_same hy]
  rfl

/-- At the start of a line it is put after the line before. -/
theorem tbBackspace_join {y : ℕ} (hb : tbSelBounds t = none) (hcx : t.cx = 0) (hcy : t.cy = y + 1)
    (hy : y + 1 < t.n) (hneed : (t.line y).length + (t.line (y + 1)).length < 2 ^ 31) :
    tbBackspace .full t =
      let t' : Buf := ⟨cut t.lines y (t.line y).length (y + 1) 0, (t.line y).length, y, t.wantX,
        false, t.ax, t.ay, t.dirty⟩
      { t' with wantX := tbCol t' t'.cy t'.cx, dirty := true } := by
  have hcut : cut t.lines y (t.line y).length (y + 1) 0 = _ := cut_join hy
  rw [tbBackspace, hb, if_neg (by simp)]
  simp only [gt_iff_lt]
  rw [if_neg (by omega), if_pos (by omega), hcut]
  simp only [hcy, Nat.add_sub_cancel]
  have hres := lineReserve_full hneed
  simp only [Buf.line] at hres ⊢
  simp only [hres]

theorem tbBackspace_start (hb : tbSelBounds t = none) (hcx : t.cx = 0) (hcy : t.cy = 0) :
    tbBackspace h t = { t with sel := false } := by
  rw [tbBackspace, hb, if_neg (by simp)]
  simp only [gt_iff_lt]
  rw [if_neg (by omega), if_neg (by omega)]

theorem tbBackspace_spec (hi : t.Inv) (hf : Flat.Fits t.abs.backspace.text) :
    (tbBackspace .full t).Inv ∧ (tbBackspace .full t).abs = t.abs.backspace := by
  have hsel := selection_abs hi
  rw [Flat.backspace] at hf ⊢
  cases hb : tbSelBounds t with
  | some b =>
    rw [hb, Option.map_some] at hsel
    rw [hsel, if_pos Option.isSome_some] at hf ⊢
    obtain ⟨t', ht, hinv, -, habs⟩ := tbSelDelete_spec hi hf
    rw [tbBackspace, hb, if_pos Option.isSome_some, ht]
    exact ⟨hinv, habs⟩
  | none =>
    rw [hb, Option.map_none] at hsel
    rw [hsel, if_neg (by simp)] at hf ⊢
    rcases Nat.eq_zero_or_pos t.cx with hcx | hcx
    · rcases Nat.eq_zero_or_pos t.cy with hcy | hcy
      · rw [if_pos ((cur_eq_zero_iff hi).mpr ⟨hcx, hcy⟩), tbBackspace_start hb hcx hcy]
        exact ⟨sel_false hi, rfl⟩
      · obtain ⟨y, hy⟩ : ∃ y, t.cy = y + 1 := ⟨t.cy - 1, by omega⟩
        have hylt : y + 1 < t.lines.length := hy ▸ hi.cursor.1
        have h0 : Place t.lines y (t.line y).length := ⟨by omega, Nat.le_refl _⟩
        have h1 : Place t.lines (y + 1) 0 := ⟨hylt, Nat.zero_le _⟩
        have hc1 : t.abs.cur = offset nl t.lines (y + 1) 0 := by rw [Buf.abs, hy, hcx]
        have hne : t.abs.cur ≠ 0 := by
          rw [Ne, cur_eq_zero_iff hi]
          omega
        rw [if_neg hne, prev_of_zero hi hcx hy, hc1] at hf ⊢
        have hneed : (t.line y).length + (t.line (y + 1)).length < 2 ^ 31 :=
          Nat.lt_of_le_of_lt (length_cut h0 h1) hf.1
        rw [tbBackspace_join hb hcx hy hylt hneed]
        exact hi.cutCol h0 h1
    · have hne : t.abs.cur ≠ 0 := by
        rw [Ne, cur_eq_zero_iff hi]
        omega
      rw [if_neg hne, prev_of_pos hi hcx, tbBackspace_char hb hcx hi.cursor.1]
      exact hi.cutCol (place_u8Prev hi) hi.cursor

theorem tbDelete_char (hb : tbSelBounds t = none) (hlt : t.cx < (t.line t.cy).length)
    (hy : t.cy < t.n) :
    tbDelete h t = ⟨cut t.lines t.cy t.cx t.cy (u8Next (t.line t.cy) t.cx), t.cx, t.cy, t.wantX,
      false, t.ax, t.ay, true⟩ := by
  have hnext : t.cx + (u8Next (t.line t.cy) t.cx - t.cx) = u8Next (t.line t.cy) t.cx := by
    have := lt_u8Next hlt
    omega
  rw [tbDelete, hb, if_neg (by simp), cut_same hy]
  refine (if_pos hlt).trans ?_
  show ({ t with sel := false, dirty := true, lines := t.lines.set t.cy ((t.line t.cy).take t.cx ++
    (t.line t.cy).drop (t.cx + (u8Next (t.line t.cy) t.cx - t.cx))) } : Buf) = _
  rw [hnext]
  rfl

theorem tbDelete_end (hb : tbSelBounds t = none) (hge : ¬ t.cx < (t.line t.cy).length) :
    tbDelete h t = if t.cy < t.n - 1
      then tbBackspace h { t with sel := false, cy := t.cy + 1, cx := 0 }
      else { t with sel := false } := by
  rw [tbDelete, hb, if_neg (by simp)]
  exact if_neg hge

/-- Back from the start of the next line: the line break goes. -/
theorem tbDelete_join (hi : t.Inv) (hcx : t.cx = (t.line t.cy).length) (hlast : t.cy + 1 < t.n) :
    let t1 : Buf := { t with sel := false, cy := t.cy + 1, cx := 0 }
    let text := Flat.erase t.abs.text t.abs.cur (Flat.next t.abs.text t.abs.cur)
    t1.Inv ∧ t1.abs.backspace = ⟨text, t.abs.cur, none, Flat.col text t.abs.cur⟩ := by
  intro t1 text
  have hi1 : t1.Inv := ⟨hi.clean, ⟨hlast, Nat.zero_le _⟩, fun hs => absurd hs (by simp [t1])⟩
  have hcur1 : t1.abs.cur = Flat.next t.abs.text t.abs.cur := (next_of_end hi hcx).symm
  have hprev : Flat.prev t1.abs.text t1.abs.cur = t.abs.cur := by
    rw [prev_of_zero (y := t.cy) hi1 rfl rfl, Buf.abs, hcx]
    rfl
  have hne0 : t1.abs.cur ≠ 0 := by
    rw [Ne, cur_eq_zero_iff hi1]
    exact fun h => absurd h.2 (Nat.succ_ne_zero _)
  refine ⟨hi1, ?_⟩
  rw [Flat.backspace, if_neg (show ¬ t1.abs.selection.isSome from Bool.false_ne_true),
    if_neg hne0, hprev, hcur1]
  rfl

theorem tbDelete_spec (hi : t.Inv) (hf : Flat.Fits t.abs.delete.text) :
    (tbDelete .full t).Inv ∧ (tbDelete .full t).abs = t.abs.delete := by
  have hsel := selection_abs hi
  rw [Flat.delete] at hf ⊢
  cases hb : tbSelBounds t with
  | some b =>
    rw [hb, Option.map_some] at hsel
    rw [hsel, if_pos Option.isSome_some] at hf ⊢
    obtain ⟨t', ht, hinv, -, habs⟩ := tbSelDelete_spec hi hf
    rw [tbDelete, hb, if_pos Option.isSome_some, ht]
    exact ⟨hinv, habs⟩
  | none =>
    rw [hb, Option.map_none] at hsel
    rw [hsel, if_neg (by simp)] at hf ⊢
    have hx : t.cx ≤ (t.line t.cy).length := hi.cursor.2
    have hy : t.cy < t.n := hi.cursor.1
    rcases Nat.lt_or_ge t.cx (t.line t.cy).length with hlt | hge
    · -- inside the line
      have hne : t.abs.cur ≠ t.abs.text.length := by
        rw [Ne, cur_eq_length_iff hi]
        omega
      have hend : Flat.lineEnd t.abs.text t.abs.cur ≠ t.abs.cur := by
        rw [lineEnd_cur hi, offset_eq_add]
        have hcur : t.abs.cur = offset nl t.lines t.cy 0 + t.cx := rfl
        omega
      rw [if_neg hne]
      simp only [hend, if_false]
      rw [next_of_lt hi hlt, tbDelete_char hb hlt hy]
      exact hi.cut hi.cursor ⟨hy, u8Next_le _⟩
    · have hcx : t.cx = (t.line t.cy).length := by omega
      rw [tbDelete_end hb (by omega)]
      by_cases hlast : t.cy + 1 = t.n
      · rw [if_pos ((cur_eq_length_iff hi).mpr ⟨hcx, hlast⟩), if_neg (by omega)]
        exact ⟨sel_false hi, rfl⟩
      · -- at its end: from the start of the next line back over the line break
        have hne : t.abs.cur ≠ t.abs.text.length := by
          rw [Ne, cur_eq_length_iff hi]
          omega
        have hend : Flat.lineEnd t.abs.text t.abs.cur = t.abs.cur := by
          rw [lineEnd_cur hi, ← hcx]
          rfl
        obtain ⟨hi1, hback⟩ := tbDelete_join hi hcx (by omega)
        rw [if_neg hne] at hf ⊢
        simp only [hend, if_true] at hf ⊢
        rw [← hback, if_pos (by omega)]
        exact tbBackspace_spec hi1 (by rw [hback]; exact hf)

/-! ## Insertion -/

theorem tbInsertLoop_skip (h : Heap) (t : Buf) (k : ℕ) (s : List UInt8) :
    tbInsertLoop h t k s = tbInsertLoop h t 0 (s.drop k) := by
  induction k generalizing s with
  | zero => rfl
  | succ k ih =>
    cases s with
    | nil => rfl
    | cons b s => rw [tbInsertLoop, ih, List.drop_succ_cons]

/-- A buffer without a selection that became `r` longer at the cursor. -/
def Grown (t t' : Buf) (r : List UInt8) : Prop :=
  t'.Inv ∧ t'.sel = false ∧ t'.wantX = t.wantX ∧
    t'.abs.text = t.abs.text.take t.abs.cur ++ (r ++ t.abs.text.drop t.abs.cur) ∧
    t'.abs.cur = t.abs.cur + r.length

theorem Grown.trans {t t' t'' : Buf} {r r' : List UInt8} (hi : t.Inv) (h : Grown t t' r)
    (h' : Grown t' t'' r') : Grown t t'' (r ++ r') := by
  obtain ⟨h1, h2, h3, h4, h5⟩ := h
  obtain ⟨k1, k2, k3, k4, k5⟩ := h'
  have hlen : (t.abs.text.take t.abs.cur).length = t.abs.cur :=
    List.length_take_of_le (offset_le hi.cursor)
  refine ⟨k1, k2, k3.trans h3, ?_, by rw [k5, h5, List.length_append]; omega⟩
  have h4' : t'.abs.text = (t.abs.text.take t.abs.cur ++ r) ++ t.abs.text.drop t.abs.cur := by
    rw [h4, List.append_assoc]
  rw [k4, h4', h5, List.take_left' (by rw [List.length_append, hlen]),
    List.drop_left' (by rw [List.length_append, hlen])]
  simp

/-- What one line of the source puts in: a run of ordinary characters. -/
theorem grown_run (hi : t.Inv) (hs : t.sel = false) {r : List UInt8} (hr : nl ∉ r) :
    Grown t
      { t with
        lines := t.lines.set t.cy ((t.line t.cy).take t.cx ++ r ++ (t.line t.cy).drop t.cx)
        cx := t.cx + r.length } r :=
  ⟨⟨hi.clean.inserted hr t.cy t.cx, place_inserted hi.cursor r,
      fun hsel => absurd (hs.symm.trans hsel) Bool.false_ne_true⟩,
    hs, rfl, joined_inserted hi.cursor r, offset_inserted r⟩

theorem grown_break (hi : t.Inv) (hs : t.sel = false) :
    Grown t { t with lines := broken t.lines t.cy t.cx, cy := t.cy + 1, cx := 0 } [nl] :=
  ⟨⟨hi.clean.broken t.cy t.cx, place_broken hi.cursor,
      fun hsel => absurd (hs.symm.trans hsel) Bool.false_ne_true⟩,
    hs, rfl, joined_broken hi.cursor, offset_broken hi.cursor⟩

/-- The table after `insert_line`, with the line broken at the cursor. -/
theorem set_set_eq_broken {L : List (List UInt8)} {y x : ℕ} (hy : y < L.length) :
    ((L.take (y + 1) ++ [] :: L.drop (y + 1)).set (y + 1) ((L.getD y []).drop x)).set y
      ((L.getD y []).take x) = broken L y x := by
  have h1 : (L.take (y + 1)).length = y + 1 := List.length_take_of_le hy
  have h0 : (L.take y).length = y := List.length_take_of_le (Nat.le_of_lt hy)
  have ht : L.take (y + 1) = L.take y ++ [L.getD y []] := by
    rw [List.getD_eq_getElem _ _ hy, List.take_succ_eq_append_getElem hy]
  rw [List.set_append_right _ _ (Nat.le_of_eq h1), h1, Nat.sub_self, List.set_cons_zero, ht,
    List.append_assoc, List.set_append_right _ _ (Nat.le_of_eq h0), h0, Nat.sub_self, broken]
  rfl

theorem length_lines (hi : t.Inv) : t.lines.length = t.abs.text.count nl + 1 := by
  refine (count_joined (fun hnil => ?_) hi.clean).symm
  have := hi.cursor.1
  rw [hnil] at this
  exact absurd this (by simp)

theorem length_line_le (hi : t.Inv) : (t.line t.cy).length ≤ t.abs.text.length := by
  have : t.abs.text = _ := joined_eq hi.cursor.1
  rw [this, List.length_append, List.length_append]
  exact Nat.le_trans (Nat.le_add_right _ _) (Nat.le_add_left _ _)

theorem Grown.length {t' : Buf} {r : List UInt8} (h : Grown t t' r) :
    t'.abs.text.length = t.abs.text.length + r.length := by
  rw [h.2.2.2.1, List.length_append, List.length_append, List.length_take, List.length_drop]
  omega

theorem Grown.count {t' : Buf} {r : List UInt8} (h : Grown t t' r) :
    t'.abs.text.count nl = t.abs.text.count nl + r.count nl := by
  have hc := congrArg (List.count nl) (List.take_append_drop t.abs.cur t.abs.text)
  rw [List.count_append] at hc
  rw [h.2.2.2.1, List.count_append, List.count_append]
  omega

/-- The loop puts in everything but the carriage returns. -/
theorem tbInsertLoop_spec (n : ℕ) : ∀ (t : Buf) (s : List UInt8), s.length ≤ n → t.Inv →
    t.sel = false → t.abs.text.length + (s.filter (· ≠ cr)).length < 2 ^ 31 →
    t.abs.text.count nl + (s.filter (· ≠ cr)).count nl + 1 ≤ maxLines →
    ∃ t', tbInsertLoop .full t 0 s = (t', true) ∧ Grown t t' (s.filter (· ≠ cr)) := by
  induction n with
  | zero =>
    intro t s hn hi hs _ _
    obtain rfl : s = [] := List.length_eq_zero_iff.mp (Nat.le_zero.mp hn)
    refine ⟨t, rfl, hi, hs, rfl, ?_, rfl⟩
    rw [List.filter_nil, List.nil_append, List.take_append_drop]
  | succ n ih =>
    intro t s hn hi hs hlen hcount
    cases s with
    | nil =>
      refine ⟨t, rfl, hi, hs, rfl, ?_, rfl⟩
      rw [List.filter_nil, List.nil_append, List.take_append_drop]
    | cons c s =>
      rw [List.length_cons] at hn
      rw [tbInsertLoop]
      by_cases hcr : c = cr
      · rw [if_pos hcr]
        rw [List.filter_cons_of_neg (by simpa using hcr)] at hlen hcount ⊢
        exact ih t s (by omega) hi hs hlen hcount
      rw [if_neg hcr]
      by_cases hnl : c = nl
      · -- a line break
        subst hnl
        rw [if_pos rfl]
        rw [List.filter_cons_of_pos (by decide)] at hlen hcount ⊢
        rw [List.length_cons] at hlen
        rw [List.count_cons_self] at hcount
        have hg := grown_break hi hs
        have hline := length_line_le hi
        have hrest : ((t.line t.cy).drop t.cx).length < 2 ^ 31 := by
          rw [List.length_drop]
          omega
        rw [insertLine_full (by rw [length_lines hi]; omega)]
        simp only [lineReserve_full hrest, if_true]
        have hb : ((t.lines.take (t.cy + 1) ++ [] :: t.lines.drop (t.cy + 1)).set (t.cy + 1)
            ((t.line t.cy).drop t.cx)).set t.cy ((t.line t.cy).take t.cx)
              = broken t.lines t.cy t.cx := set_set_eq_broken hi.cursor.1
        rw [hb]
        obtain ⟨t', ht', hg'⟩ := ih _ s (by omega) hg.1 hs
          (by rw [hg.length]; simp only [List.length_singleton]; omega)
          (by rw [hg.count]; simp only [List.count_singleton_self]; omega)
        exact ⟨t', ht', hg.trans hi hg'⟩
      · -- a run of ordinary characters
        rw [if_neg hnl]
        obtain ⟨r, hr⟩ : ∃ r, r = s.takeWhile fun b => b ≠ nl ∧ b ≠ cr := ⟨_, rfl⟩
        have hrun : nl ∉ c :: r := by
          rw [List.mem_cons, not_or]
          refine ⟨fun he => hnl he.symm, fun hm => ?_⟩
          rw [hr] at hm
          have := List.mem_takeWhile_imp hm
          simp at this
        obtain ⟨q, hq⟩ : ∃ q, q = s.dropWhile fun b => b ≠ nl ∧ b ≠ cr := ⟨_, rfl⟩
        have hsplit : s = r ++ q := by rw [hr, hq, List.takeWhile_append_dropWhile]
        have hdrop : s.drop r.length = q := by
          rw [hsplit]
          exact List.drop_left
        have hfilter : (c :: s).filter (· ≠ cr) = (c :: r) ++ q.filter (· ≠ cr) := by
          have hrcr : r.filter (· ≠ cr) = r := by
            rw [List.filter_eq_self]
            intro b hb
            rw [hr] at hb
            have := List.mem_takeWhile_imp hb
            simp only [Bool.decide_and, Bool.and_eq_true, decide_eq_true_eq] at this
            simpa using this.2
          rw [List.filter_cons_of_pos (by simpa using hcr), hsplit, List.filter_append, hrcr,
            List.cons_append]
        rw [hfilter] at hlen hcount ⊢
        rw [List.length_append] at hlen
        rw [List.count_append, List.count_eq_zero_of_not_mem hrun] at hcount
        have hg := grown_run hi hs hrun
        have hline := length_line_le hi
        simp only [← hr, lineReserve_full
          (show (t.line t.cy).length + (c :: r).length < 2 ^ 31 by omega)]
        rw [tbInsertLoop_skip, List.length_cons, Nat.add_sub_cancel, hdrop]
        have hqn : q.length ≤ n := by
          have := congrArg List.length hsplit
          rw [List.length_append] at this
          omega
        obtain ⟨t', ht', hg'⟩ := ih _ q hqn hg.1 hs
          (by rw [hg.length]; omega)
          (by rw [hg.count, List.count_eq_zero_of_not_mem hrun]; omega)
        exact ⟨t', ht', hg.trans hi hg'⟩

theorem count_take_add_drop (s : List UInt8) (k : ℕ) :
    (s.take k).count nl + (s.drop k).count nl = s.count nl := by
  rw [← List.count_append, List.take_append_drop]

theorem tbInsert_spec (hi : t.Inv) {s : List UInt8} (hf : Flat.Fits (t.abs.insert s).text) :
    (tbInsert .full t s).Inv ∧ (tbInsert .full t s).abs = t.abs.insert s := by
  have hcnt := count_take_add_drop t.abs.selDelete.text t.abs.selDelete.cur
  simp only [Flat.insert, Flat.Fits, List.length_append, List.count_append, List.length_take,
    List.length_drop] at hf
  obtain ⟨t1, h1, hi1, hs1, habs1⟩ : ∃ t1 : Buf,
      (if t.sel then tbSelDelete .full t else (t, .full)) = (t1, Heap.full) ∧
        t1.Inv ∧ t1.sel = false ∧ t1.abs = t.abs.selDelete := by
    cases hs : t.sel with
    | true => exact tbSelDelete_spec hi ⟨by omega, by omega⟩
    | false =>
      refine ⟨t, by simp, hi, hs, ?_⟩
      simp [Flat.selDelete, Flat.selection, Buf.abs, hs]
  obtain ⟨t2, h2, hi2, hs2, -, htext, hcur⟩ := tbInsertLoop_spec s.length t1 s (Nat.le_refl _) hi1 hs1
    (by rw [habs1]; omega) (by rw [habs1]; omega)
  have ht1 : ({ t1 with sel := false } : Buf) = t1 := by rw [← hs1]
  have hcol := col_cur hi2
  rw [tbInsert, h1]
  simp only [ht1, h2]
  refine ⟨⟨hi2.clean, hi2.cursor, fun hsel => absurd (hs2.symm.trans hsel) Bool.false_ne_true⟩, ?_⟩
  have habs : ∀ w d, ({ t2 with wantX := w, dirty := d } : Buf).abs = ⟨t2.abs.text, t2.abs.cur, none, w⟩ := by
    intro w d
    simp [Buf.abs, hs2]
  rw [habs, hcol, htext, hcur, habs1, Flat.insert]

end BananaOS.Textbuf
