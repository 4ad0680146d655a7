import BananaOS.Emulator.Steps
import BananaOS.Lib.Halves

/-!
# Double-width characters stay whole

A double-width character takes two cells, `VT_WIDE` and then `VT_WIDE_CONT`.  Erasing, printing over
one half, scrolling and resizing all keep the two together.  Four steps do not ask: ICH and DCH move
the cells from the cursor on wherever the cursor stands, insert mode moves them and then looks for
halves among the moved cells, and a double-width character that does not fit at the last column
blanks that cell alone.

`wholeSteps` says when each of them keeps the halves together.  In all four it is the cells next to
the cuts that decide: the one at the cursor, and the first one pushed off the end or taken in.
-/

namespace BananaOS.Emulator

open BananaOS.Lib BananaOS.Lib.Checked BananaOS.Lib.Halves

/-! ## Marks -/

/-- Cell `i` is marked `p`; no cell past the end is. -/
def markAt (p : Cell → Bool) (cs : List Cell) (i : ℕ) : Bool := cs[i]?.any p

/-- The first and the second halves of a line are together. -/
def WholeLine (cs : List Cell) : Prop := Whole (markAt Cell.wide cs) (markAt Cell.cont cs)

section Marks

variable {p : Cell → Bool} {cs cs' : List Cell} {g : Grid} {i k : ℕ} {x w n cols : ℤ}

theorem markAt_of_le (h : cs.length ≤ k) : markAt p cs k = false := by
  unfold markAt
  rw [List.getElem?_eq_none h]
  rfl

theorem markAt_eq {a : Cell} (h : cs[k]? = some a) : markAt p cs k = p a := by
  unfold markAt
  rw [h]
  rfl

theorem markAt_get {a : Cell} (h : get cs x = some a) : markAt p cs x.toNat = p a :=
  markAt_eq (get_eq_some h).2

theorem markAt_replicate {a : Cell} (ha : p a = false) (m : ℕ) :
    markAt p (List.replicate m a) = fun _ => false := by
  funext k
  unfold markAt
  rw [List.getElem?_replicate]
  split_ifs
  · exact ha
  · rfl

theorem markAt_blank (hp : ∀ bg, p (blankCell bg) = false) (hx : 0 ≤ x) (hn : 0 ≤ n)
    (hxn : x + n ≤ cs.length) (h : blank g cs x n = some cs') :
    cs'.length = cs.length ∧ markAt p cs' = erase x.toNat (x + n).toNat (markAt p cs) := by
  obtain ⟨hlen, hget⟩ := (fill_runs hx hn hxn).of_eq_some h
  refine ⟨hlen, funext fun k => ?_⟩
  unfold markAt erase
  rw [hget]
  by_cases hk : x ≤ k ∧ (k : ℤ) < x + n
  · rw [if_pos hk, if_pos (by omega)]
    exact hp _
  · rw [if_neg hk, if_neg (by omega)]

theorem markAt_set {a : Cell} (hx : 0 ≤ x) (hlt : x < cs.length) (h : set cs x a = some cs') :
    cs'.length = cs.length ∧ ∀ k, markAt p cs' k = if k = x.toNat then p a else markAt p cs k := by
  rw [set_eq hx hlt] at h
  obtain rfl := Option.some.inj h
  refine ⟨List.length_set .., fun k => ?_⟩
  unfold markAt
  rw [getElem?_set_of hx hlt]
  by_cases hk : (k : ℤ) = x
  · rw [if_pos hk, if_pos (by omega)]
    rfl
  · rw [if_neg hk, if_neg (by omega)]

theorem markAt_slide {src dst : ℤ} (hn : 0 ≤ n) (hs : 0 ≤ src) (hs' : src + n ≤ cs.length)
    (hd : 0 ≤ dst) (hd' : dst + n ≤ cs.length) (h : slide cs src dst n = some cs') :
    cs'.length = cs.length ∧ ∀ k : ℕ, markAt p cs' k =
      if dst ≤ k ∧ (k : ℤ) < dst + n then markAt p cs (k - dst + src).toNat else markAt p cs k := by
  obtain ⟨hlen, hget⟩ := (slide_runs hn hs hs' hd hd').of_eq_some h
  refine ⟨hlen, fun k => ?_⟩
  unfold markAt
  rw [hget]
  split_ifs <;> rfl

end Marks

/-- Both kinds of marks. -/
def Neutral (p : Cell → Bool) : Prop := ∀ bg, p (blankCell bg) = false

theorem wide_neutral : Neutral Cell.wide := fun _ => rfl

theorem cont_neutral : Neutral Cell.cont := fun _ => rfl

/-! ## Erasing and resizing -/

namespace WholeLine

variable {cs cs' : List Cell} {g : Grid} {x0 x1 x w n cols : ℤ} {l l' : Line}

theorem of_marks {w v : ℕ → Bool} (h : Whole w v) (hw : markAt Cell.wide cs = w)
    (hv : markAt Cell.cont cs = v) : WholeLine cs := by
  unfold WholeLine
  rw [hw, hv]
  exact h

theorem replicate {a : Cell} (hw : a.wide = false) (hc : a.cont = false) (m : ℕ) :
    WholeLine (List.replicate m a) :=
  of_marks Whole.empty (markAt_replicate hw m) (markAt_replicate hc m)

theorem grow (h : WholeLine cs) (m bg : ℕ) : WholeLine (cs ++ List.replicate m (blankCell bg)) := by
  have hmark : ∀ p, Neutral p →
      markAt p (cs ++ List.replicate m (blankCell bg)) = markAt p cs := by
    intro p hp
    funext k
    unfold markAt
    rw [List.getElem?_append]
    split_ifs with hk
    · rfl
    · rw [List.getElem?_eq_none (show cs.length ≤ k by omega), List.getElem?_replicate]
      split_ifs
      · exact hp bg
      · rfl
  exact of_marks h (hmark _ wide_neutral) (hmark _ cont_neutral)

theorem markAt_take (p : Cell → Bool) (m : ℕ) : markAt p (cs.take m) = cut m (markAt p cs) := by
  funext k
  unfold markAt cut
  rw [List.getElem?_take]
  split_ifs <;> rfl

/-- Of a character cut in half at the new end a space is left. -/
theorem fit (h : WholeLine cs) (hcols : 0 < cols) (hfit : fitCells cs cols = some cs') :
    WholeLine cs' := by
  unfold fitCells at hfit
  split_ifs at hfit with hgrow
  · obtain rfl := Option.some.inj hfit
    exact h.grow _ _
  · simp only at hfit
    obtain ⟨m, hm⟩ : ∃ m, cols.toNat = m + 1 := ⟨cols.toNat - 1, by omega⟩
    have hlen : (cs.take cols.toNat).length = m + 1 := by
      rw [List.length_take]
      omega
    obtain ⟨last, hlast, hset⟩ := Option.bind_eq_some_iff.mp hfit
    have hwlast : markAt Cell.wide cs m = last.wide := by
      have h1 : markAt Cell.wide (cs.take cols.toNat) m = last.wide := by
        have h2 := markAt_get (p := Cell.wide) hlast
        rwa [show (cols - 1).toNat = m by omega] at h2
      rwa [markAt_take, cut, if_pos (by omega)] at h1
    split_ifs at hset with hwide
    · -- the first half is alone at the end
      have hcm : markAt Cell.cont cs m = false := Whole.apart h m (by rw [hwlast, hwide])
      obtain ⟨-, hmark⟩ := markAt_set (p := Cell.wide) (by omega) (by omega) hset
      obtain ⟨-, hmark'⟩ := markAt_set (p := Cell.cont) (by omega) (by omega) hset
      refine of_marks (Whole.cut h hcm) (funext fun k => ?_) (funext fun k => ?_)
      · rw [hmark, markAt_take]
        unfold cut
        by_cases hk : k = m
        · rw [if_pos (by omega), if_neg (by omega)]
        · rw [if_neg (by omega)]
          by_cases hk' : k < m
          · rw [if_pos (by omega), if_pos hk']
          · rw [if_neg (by omega), if_neg hk']
      · have hlc : last.cont = false := by
          have h2 := markAt_get (p := Cell.cont) hlast
          rw [show (cols - 1).toNat = m by omega, markAt_take, cut, if_pos (by omega), hcm] at h2
          exact h2.symm
        rw [hmark', markAt_take]
        unfold cut
        by_cases hk : k = m
        · rw [if_pos (by omega), if_neg (by omega)]
          exact hlc
        · rw [if_neg (by omega)]
          by_cases hk' : k < m
          · rw [if_pos (by omega), if_pos hk']
          · rw [if_neg (by omega), if_neg hk']
    · obtain rfl := Option.some.inj hset
      have hcm : markAt Cell.cont cs cols.toNat = false := by
        rw [hm, Whole.next h, hwlast]
        simpa using hwide
      exact of_marks (Whole.cut h hcm) (markAt_take _ _) (markAt_take _ _)

/-- The cells from one place that no character straddles to another are erased. -/
theorem blanked (h : WholeLine cs) (hx : 0 ≤ x0) (hle : x0 ≤ x1) (hlen : x1 ≤ cs.length)
    (h0 : markAt Cell.cont cs x0.toNat = false) (h1 : markAt Cell.cont cs x1.toNat = false)
    (hb : blank g cs x0 (x1 - x0) = some cs') : WholeLine cs' := by
  have hw := (markAt_blank wide_neutral hx (by omega) (by omega) hb).2
  have hc := (markAt_blank cont_neutral hx (by omega) (by omega) hb).2
  rw [show x0 + (x1 - x0) = x1 by omega] at hw hc
  exact of_marks (Whole.erase h h0 h1 (by omega)) hw hc

theorem erased (h : WholeLine l.c) (hl : l.len = g.cols) (h0 : 0 ≤ x0) (hlt : x0 < x1)
    (h1 : x1 ≤ g.cols) (he : eraseSpan g x0 x1 l = some l') : WholeLine l'.c := by
  have hlen : (l.c.length : ℤ) = g.cols := hl
  unfold eraseSpan at he
  obtain ⟨y0, hy0, he⟩ := Option.bind_eq_some_iff.mp he
  obtain ⟨y1, hy1, he⟩ := Option.bind_eq_some_iff.mp he
  obtain ⟨cs', hc', he⟩ := Option.bind_eq_some_iff.mp he
  obtain rfl := Option.some.inj he
  have hleft : 0 ≤ y0 ∧ y0 ≤ x0 ∧ markAt Cell.cont l.c y0.toNat = false := by
    unfold leftEdge at hy0
    split_ifs at hy0 with hpos
    · obtain ⟨a, ha, hy0⟩ := Option.bind_eq_some_iff.mp hy0
      have hmark := markAt_get (p := Cell.cont) ha
      obtain rfl := Option.some.inj hy0
      split_ifs with hcont
      · obtain ⟨y, hy, hwide⟩ := Whole.before h (hmark.trans hcont)
        refine ⟨by omega, by omega, ?_⟩
        rw [show (x0 - 1).toNat = y by omega]
        exact Whole.apart h y hwide
      · exact ⟨h0, le_refl _, by rw [hmark]; simpa using hcont⟩
    · obtain rfl := Option.some.inj hy0
      refine ⟨h0, le_refl _, ?_⟩
      rw [show x0.toNat = 0 by omega]
      exact Whole.start h
  have hright : x1 ≤ y1 ∧ y1 ≤ g.cols ∧ markAt Cell.cont l.c y1.toNat = false := by
    unfold rightEdge at hy1
    split_ifs at hy1 with hin
    · obtain ⟨a, ha, hy1⟩ := Option.bind_eq_some_iff.mp hy1
      have hmark := markAt_get (p := Cell.cont) ha
      obtain rfl := Option.some.inj hy1
      split_ifs with hcont
      · refine ⟨by omega, by omega, ?_⟩
        rw [show (x1 + 1).toNat = x1.toNat + 1 by omega, Whole.next h]
        exact Whole.not_wide h (hmark.trans hcont)
      · exact ⟨le_refl _, h1, by rw [hmark]; simpa using hcont⟩
    · obtain rfl := Option.some.inj hy1
      exact ⟨le_refl _, h1, markAt_of_le (by omega)⟩
  exact h.blanked hleft.1 (by omega) (by omega) hleft.2.2 hright.2.2 hc'

/-! ## Moving cells -/

theorem inserted (h : WholeLine cs) (hlen : (cs.length : ℤ) = g.cols) (hx : 0 ≤ g.cur.x)
    (hn : 1 ≤ n) (hxn : g.cur.x + n ≤ g.cols) (h0 : markAt Cell.cont cs g.cur.x.toNat = false)
    (h1 : markAt Cell.cont cs (g.cols - n).toNat = false)
    (hi : Fits.insertedCells g n cs = some cs') : WholeLine cs' := by
  obtain ⟨cs₁, hs, hb⟩ := Option.bind_eq_some_iff.mp hi
  have hmark : ∀ p, Neutral p →
      markAt p cs' = cut g.cols.toNat (openGap g.cur.x.toNat n.toNat (markAt p cs)) := by
    intro p hp
    obtain ⟨hlen₁, hslide⟩ :=
      markAt_slide (p := p) (by omega) hx (by omega) (by omega) (by omega) hs
    rw [(markAt_blank hp hx (by omega) (by omega) hb).2]
    funext k
    unfold erase cut openGap
    rw [hslide]
    by_cases hk : (k : ℤ) < g.cur.x
    · rw [if_neg (by omega), if_neg (by omega), if_pos (by omega), if_pos (by omega)]
    · by_cases hk' : (k : ℤ) < g.cur.x + n
      · rw [if_pos (by omega), if_pos (by omega), if_neg (by omega), if_pos (by omega)]
      · rw [if_neg (by omega)]
        by_cases hk'' : (k : ℤ) < g.cols
        · rw [if_pos (by omega), if_pos (by omega), if_neg (by omega), if_neg (by omega)]
          congr 1
          omega
        · rw [if_neg (by omega), if_neg (by omega), markAt_of_le (by omega)]
  refine of_marks (Whole.cut (Whole.openGap h h0) ?_) (hmark _ wide_neutral) (hmark _ cont_neutral)
  unfold openGap
  rw [if_neg (by omega)]
  split_ifs
  · rfl
  · rw [show g.cols.toNat - n.toNat = (g.cols - n).toNat by omega]
    exact h1

theorem deleted (h : WholeLine cs) (hlen : (cs.length : ℤ) = g.cols) (hx : 0 ≤ g.cur.x)
    (hn : 1 ≤ n) (hxn : g.cur.x + n ≤ g.cols)
    (h0 : markAt Cell.cont cs g.cur.x.toNat = markAt Cell.cont cs (g.cur.x + n).toNat)
    (hd : Fits.deletedCells g n cs = some cs') : WholeLine cs' := by
  obtain ⟨cs₁, hs, hb⟩ := Option.bind_eq_some_iff.mp hd
  have hmark : ∀ p, Neutral p →
      markAt p cs' = closeGap g.cur.x.toNat n.toNat (markAt p cs) := by
    intro p hp
    obtain ⟨hlen₁, hslide⟩ :=
      markAt_slide (p := p) (by omega) (by omega) (by omega) hx (by omega) hs
    rw [(markAt_blank hp (by omega) (by omega) (by omega) hb).2]
    funext k
    unfold erase closeGap
    rw [hslide]
    by_cases hk : (k : ℤ) < g.cur.x
    · rw [if_neg (by omega), if_neg (by omega), if_pos (by omega)]
    · rw [if_neg (show ¬ k < g.cur.x.toNat by omega)]
      by_cases hk' : (k : ℤ) < g.cols - n
      · rw [if_neg (by omega), if_pos (by omega)]
        congr 1
        omega
      · rw [markAt_of_le (show cs.length ≤ k + n.toNat by omega)]
        by_cases hk'' : (k : ℤ) < g.cols
        · rw [if_pos (by omega)]
        · rw [if_neg (by omega), if_neg (by omega), markAt_of_le (by omega)]
  have h0' : markAt Cell.cont cs g.cur.x.toNat =
      markAt Cell.cont cs (g.cur.x.toNat + n.toNat) := by
    rw [h0]
    congr 1
    omega
  exact of_marks (Whole.closeGap h h0') (hmark _ wide_neutral) (hmark _ cont_neutral)

/-! ## Printing -/

/-- Writing at `x` blanks the first half before it. -/
theorem blankFirst_marks {cs₁ : List Cell} (hx : 0 ≤ x) (hlt : x < cs.length)
    (hstart : markAt Cell.cont cs 0 = false) (h : blankFirst g x cs = some cs₁) :
    cs₁.length = cs.length ∧ ∀ p, Neutral p → markAt p cs₁ =
      erase (firstTouched (markAt Cell.cont cs) x.toNat) x.toNat (markAt p cs) := by
  unfold blankFirst at h
  obtain ⟨a, ha, h⟩ := Option.bind_eq_some_iff.mp h
  have hmark := markAt_get (p := Cell.cont) ha
  unfold firstTouched
  rw [hmark]
  split_ifs at h with hcond
  · simp only [Bool.and_eq_true, decide_eq_true_eq] at hcond
    rw [if_pos hcond.1]
    have hb := fun p hp => markAt_blank (p := p) hp (by omega) Int.one_nonneg (by omega) h
    refine ⟨(hb _ wide_neutral).1, fun p hp => ?_⟩
    rw [(hb p hp).2]
    congr 1 <;> omega
  · obtain rfl := Option.some.inj h
    refine ⟨rfl, fun p _ => funext fun k => ?_⟩
    unfold erase
    split_ifs with hcont hk hk
    · -- the first cell of a line is no second half
      simp only [Bool.and_eq_true, decide_eq_true_eq, not_and, hcont, forall_const] at hcond
      rw [show x.toNat = 0 by omega, hstart] at hmark
      rw [hcont] at hmark
      cases hmark
    · rfl
    · omega
    · rfl

/-- Writing up to `x + w` blanks the second half after it. -/
theorem blankSecond_marks {cs₁ : List Cell} (hlen : (cs.length : ℤ) = g.cols) (hx : 0 ≤ x)
    (hw : 1 ≤ w) (hend : markAt Cell.wide cs (x + w - 1).toNat = true → x + w < g.cols)
    (h : blankSecond g w x cs = some cs₁) :
    cs₁.length = cs.length ∧ ∀ p, Neutral p → markAt p cs₁ =
      erase (x.toNat + w.toNat) (lastTouched (markAt Cell.wide cs) x.toNat w.toNat)
        (markAt p cs) := by
  unfold blankSecond at h
  unfold lastTouched
  rw [show x.toNat + w.toNat - 1 = (x + w - 1).toNat by omega]
  have hnone : ∀ p, markAt p cs = erase (x.toNat + w.toNat) (x.toNat + w.toNat) (markAt p cs) := by
    intro p
    funext k
    unfold erase
    rw [if_neg (by omega)]
  split_ifs at h with hin
  · obtain ⟨b, hb, h⟩ := Option.bind_eq_some_iff.mp h
    have hmark := markAt_get (p := Cell.wide) hb
    rw [hmark]
    split_ifs at h with hwide
    · have hbl := fun p hp => markAt_blank (p := p) hp (by omega) Int.one_nonneg (by omega) h
      refine ⟨(hbl _ wide_neutral).1, fun p hp => ?_⟩
      rw [(hbl p hp).2, if_pos hwide]
      congr 1 <;> omega
    · obtain rfl := Option.some.inj h
      refine ⟨rfl, fun p _ => ?_⟩
      rw [if_neg hwide]
      exact hnone p
  · obtain rfl := Option.some.inj h
    refine ⟨rfl, fun p _ => ?_⟩
    rw [if_neg fun hwide => hin (hend hwide)]
    exact hnone p

/-- The cells right before and right after those of a printed character are blanked when they were
the other halves. -/
theorem printed_marks {insert : Bool} {ch : ℕ} (hlen : (cs.length : ℤ) = g.cols)
    (hw : w = 1 ∨ w = 2) (hx : 0 ≤ x) (hxw : x + w ≤ g.cols)
    {cs₁ : List Cell} (hroom : makeRoom g insert w x cs = some cs₁) (hlen₁ : cs₁.length = cs.length)
    (hp : printCells g insert ch w x cs = some cs')
    (hstart : markAt Cell.cont cs₁ 0 = false)
    (hend : markAt Cell.wide cs₁ (x + w - 1).toNat = true → x + w < g.cols)
    (hwhole : Whole
      (erase (firstTouched (markAt Cell.cont cs₁) x.toNat)
        (lastTouched (markAt Cell.wide cs₁) x.toNat w.toNat) (markAt Cell.wide cs₁))
      (erase (firstTouched (markAt Cell.cont cs₁) x.toNat)
        (lastTouched (markAt Cell.wide cs₁) x.toNat w.toNat) (markAt Cell.cont cs₁))) :
    WholeLine cs' := by
  unfold printCells at hp
  obtain ⟨cs₁', hroom', hp⟩ := Option.bind_eq_some_iff.mp hp
  obtain rfl : cs₁ = cs₁' := Option.some.inj (hroom.symm.trans hroom')
  obtain ⟨cs₂, hfirst, hp⟩ := Option.bind_eq_some_iff.mp hp
  obtain ⟨cs₃, hsecond, hp⟩ := Option.bind_eq_some_iff.mp hp
  obtain ⟨hlen₂, h₂⟩ := blankFirst_marks hx (by omega) hstart hfirst
  have hwide₂ : markAt Cell.wide cs₂ (x.toNat + w.toNat - 1) =
      markAt Cell.wide cs₁ (x.toNat + w.toNat - 1) := by
    rw [h₂ _ wide_neutral]
    unfold erase
    rw [if_neg (by omega)]
  obtain ⟨hlen₃, h₃⟩ := blankSecond_marks (by omega) hx (by omega) (fun hwide => hend (by
    rwa [show (x + w - 1).toNat = x.toNat + w.toNat - 1 by omega, ← hwide₂,
      show x.toNat + w.toNat - 1 = (x + w - 1).toNat by omega])) hsecond
  have hlast : lastTouched (markAt Cell.wide cs₂) x.toNat w.toNat =
      lastTouched (markAt Cell.wide cs₁) x.toNat w.toNat := by
    unfold lastTouched
    rw [hwide₂]
  generalize hf : firstTouched (markAt Cell.cont cs₁) x.toNat = x0 at hwhole h₂
  generalize hl : lastTouched (markAt Cell.wide cs₁) x.toNat w.toNat = x1 at hwhole hlast
  rw [hlast] at h₃
  have hx0 : x0 ≤ x.toNat := by
    rw [← hf]
    unfold firstTouched
    split_ifs <;> omega
  have hx1 : x.toNat + w.toNat ≤ x1 := by
    rw [← hl]
    unfold lastTouched
    split_ifs <;> omega
  -- outside the character's cells, and in them
  have hout : ∀ p, Neutral p → ∀ k, k < x.toNat ∨ x.toNat + w.toNat ≤ k →
      markAt p cs₃ k = erase x0 x1 (markAt p cs₁) k := by
    intro p hp k hk
    rw [h₃ p hp, h₂ p hp]
    unfold erase
    grind
  have hin : ∀ k, x.toNat ≤ k → k < x.toNat + w.toNat → ∀ m : ℕ → Bool,
      erase x0 x1 m k = false := by
    intro k hk hk' m
    unfold erase
    rw [if_pos (by omega)]
  unfold writeChar at hp
  obtain ⟨cs₄, hset, hp⟩ := Option.bind_eq_some_iff.mp hp
  have h₄ := fun p => markAt_set (p := p) hx (by omega) hset
  rcases hw with rfl | rfl
  · rw [if_neg (by omega)] at hp
    obtain rfl := Option.some.inj hp
    refine of_marks hwhole (funext fun k => ?_) (funext fun k => ?_)
    · rw [(h₄ _).2]
      split_ifs with hk
      · rw [hin k (by omega) (by omega)]
        rfl
      · exact hout _ wide_neutral k (by omega)
    · rw [(h₄ _).2]
      split_ifs with hk
      · rw [hin k (by omega) (by omega)]
      · exact hout _ cont_neutral k (by omega)
  · rw [if_pos rfl] at hp
    have hlen₄ := (h₄ Cell.wide).1
    have h₅ := fun p => markAt_set (p := p) (by omega) (by omega) hp
    refine of_marks (Whole.mark hwhole (hin x.toNat (le_refl _) (by omega) _)
      (hin (x.toNat + 1) (by omega) (by omega) _)) (funext fun k => ?_) (funext fun k => ?_)
    · rw [(h₅ _).2, (h₄ _).2]
      unfold mark
      by_cases hk : k = x.toNat
      · rw [if_neg (by omega), if_pos hk, if_pos hk]
        rfl
      · rw [if_neg hk, if_neg hk]
        split_ifs with hk'
        · rw [hin k (by omega) (by omega)]
        · exact hout _ wide_neutral k (by omega)
    · rw [(h₅ _).2, (h₄ _).2]
      unfold mark
      by_cases hk : k = x.toNat + 1
      · rw [if_pos (by omega), if_pos hk]
      · rw [if_neg (by omega), if_neg hk]
        split_ifs with hk'
        · rw [hin k (by omega) (by omega)]
        · exact hout _ cont_neutral k (by omega)

/-- When printing in insert mode keeps the halves together: no character is cut at the cursor or at
the end, or it is one whose halves are blanked anyway. -/
def InsertOk (w x cols : ℤ) (cs : List Cell) : Prop :=
  x + w = cols ∨
    (w = 1 ∧ markAt Cell.cont cs x.toNat = false ∧
      (x + 2 = cols ∨
        markAt Cell.wide cs x.toNat = false ∧ markAt Cell.cont cs (cols - 1).toNat = false)) ∨
    (w = 2 ∧ (markAt Cell.cont cs x.toNat = true → markAt Cell.wide cs (x + 1).toNat = true) ∧
      markAt Cell.cont cs (cols - 2).toNat = false)

/-- The marks after insert mode made room: the cells from `x` on are there twice at first. -/
theorem roomed (hlen : (cs.length : ℤ) = g.cols) (hx : 0 ≤ x) (hw : 1 ≤ w) (hxw : x + w < g.cols)
    {cs₁ : List Cell} (hroom : makeRoom g true w x cs = some cs₁) :
    cs₁.length = cs.length ∧
      ∀ p, markAt p cs₁ = cut g.cols.toNat (room x.toNat w.toNat (markAt p cs)) := by
  unfold makeRoom at hroom
  rw [if_pos rfl, if_pos (show g.cols - x - w > 0 by omega)] at hroom
  have hs := fun p => markAt_slide (p := p) (by omega) hx (by omega) (by omega) (by omega) hroom
  refine ⟨(hs Cell.wide).1, fun p => funext fun k => ?_⟩
  unfold cut room
  rw [(hs p).2]
  by_cases hk : x + w ≤ k
  · by_cases hk' : (k : ℤ) < g.cols
    · rw [if_pos (by omega), if_pos (by omega), if_pos (by omega)]
      congr 1
      omega
    · rw [if_neg (by omega), if_neg (by omega), markAt_of_le (by omega)]
  · rw [if_neg (by omega), if_pos (by omega), if_neg (by omega)]

/-- **Printing** keeps the halves together, in insert mode under `InsertOk`. -/
theorem printed (h : WholeLine cs) {insert : Bool} {ch : ℕ} (hlen : (cs.length : ℤ) = g.cols)
    (hw : w = 1 ∨ w = 2) (hx : 0 ≤ x) (hxw : x + w ≤ g.cols)
    (hok : insert = true → InsertOk w x g.cols cs)
    (hp : printCells g insert ch w x cs = some cs') : WholeLine cs' := by
  by_cases hins : insert = true ∧ x + w ≠ g.cols
  · obtain ⟨rfl, hne⟩ := hins
    obtain ⟨cs₁, hroom, -⟩ := Option.bind_eq_some_iff.mp hp
    obtain ⟨hlen₁, hm⟩ := roomed hlen hx (by omega) (by omega) hroom
    have hlow : ∀ p (k : ℕ), k < x.toNat + w.toNat → markAt p cs₁ k = markAt p cs k := by
      intro p k hk
      rw [hm]
      unfold cut room
      rw [if_pos (by omega), if_neg (by omega)]
    have hft : firstTouched (markAt Cell.cont cs₁) x.toNat =
        firstTouched (markAt Cell.cont cs) x.toNat := by
      unfold firstTouched
      rw [hlow _ _ (by omega)]
    have hlt : lastTouched (markAt Cell.wide cs₁) x.toNat w.toNat =
        lastTouched (markAt Cell.wide cs) x.toNat w.toNat := by
      unfold lastTouched
      rw [hlow _ _ (by omega)]
    refine printed_marks hlen hw hx hxw hroom hlen₁ hp ?_ (fun _ => by omega) ?_
    · rw [hlow _ _ (by omega)]
      exact Whole.start h
    rw [hft, hlt, hm, hm]
    rcases (hok rfl).resolve_left hne with ⟨rfl, hcont, hcase⟩ | ⟨rfl, hcont, hend⟩
    · refine Whole.write_one h (by omega) (fun k hk => markAt_of_le (by omega))
        (fun k hk => markAt_of_le (by omega)) hcont ?_
      rcases hcase with hlast | ⟨hwide, hend⟩
      · exact Or.inl (by omega)
      · refine Or.inr ⟨hwide, ?_⟩
        rwa [show g.cols.toNat - 1 = (g.cols - 1).toNat by omega]
    · refine Whole.write_two h (by omega) ?_ ?_
      · rwa [show x.toNat + 1 = (x + 1).toNat by omega]
      · rwa [show g.cols.toNat - 2 = (g.cols - 2).toNat by omega]
  · -- nothing moves
    have hroom : makeRoom g insert w x cs = some cs := by
      unfold makeRoom
      cases insert with
      | false => rfl
      | true =>
        have heq : x + w = g.cols := by simpa using hins
        rw [if_pos rfl]
        simp only
        rw [if_neg (by omega)]
    refine printed_marks hlen hw hx hxw hroom rfl hp (Whole.start h) (fun hwide => ?_)
      (Whole.write h (by omega))
    by_contra hge
    have hout : markAt Cell.cont cs ((x + w - 1).toNat + 1) = false := markAt_of_le (by omega)
    rw [Whole.next h, hwide] at hout
    cases hout

end WholeLine

/-! ## Rules -/

/-- Cell `x` of the cursor's line is a second half. -/
def contHere (g : Grid) (x : ℤ) : Prop :=
  ∃ l, get g.lines g.cur.y = some l ∧ markAt Cell.cont l.c x.toNat = true

/-- The steps that keep double-width characters whole.  Printing in insert mode is `InsertOk`; the
last cell may be blanked alone when it is no second half; ICH must not start at a second half nor
push one off the end without its first half; and DCH must not start at a second half unless it ends
right before one, nor the other way round. -/
def wholeSteps : Rules where
  place s w := s.insert = true → ∀ l, get s.lines s.cur.y = some l →
    WholeLine.InsertOk w s.cur.x s.cols l.c
  last s := ¬ contHere s.toGrid (s.cols - 1)
  ich g n := ¬ contHere g g.cur.x ∧ ¬ contHere g (g.cols - Fits.movedCells g n)
  dch g n := contHere g g.cur.x ↔ contHere g (g.cur.x + Fits.movedCells g n)

theorem not_contHere {g : Grid} {l : Line} {x : ℤ} (h : ¬ contHere g x)
    (hl : get g.lines g.cur.y = some l) : markAt Cell.cont l.c x.toNat = false := by
  by_contra hne
  exact h ⟨l, hl, by simpa using hne⟩

theorem contHere_iff {g : Grid} {l : Line} {x : ℤ} (hl : get g.lines g.cur.y = some l) :
    contHere g x ↔ markAt Cell.cont l.c x.toNat = true := by
  constructor
  · rintro ⟨l', hl', h⟩
    obtain rfl : l = l' := Option.some.inj (hl.symm.trans hl')
    exact h
  · exact fun h => ⟨l, hl, h⟩

theorem wholeSteps_sound : wholeSteps.Sound 2 WholeLine where
  blank n bg := WholeLine.replicate rfl rfl n
  fit cs cs' cols hcols _ h hfit := h.fit hcols hfit
  erase g x0 x1 l l' hl h0 hlt h1 h he := h.erased hl h0 hlt h1 he
  letters n := WholeLine.replicate rfl rfl n
  place s w cs l cs' h hw hx hR hl hfit hp :=
    hfit.cells.printed hfit.len hw h.cur.x_nonneg hx (fun hi => hR hi l hl) hp
  room s h _ := h.lo_le
  last s l cs' h hR hx hl hfit hb := by
    have hlen : (l.c.length : ℤ) = s.cols := hfit.len
    have h1 := h.cur.x_nonneg
    have hb' : blank s.toGrid l.c s.cur.x (s.cols - s.cur.x) = some cs' := by
      rw [show s.cols - s.cur.x = 1 by omega]
      exact hb
    refine hfit.cells.blanked h1 (by omega) (by omega) ?_ (markAt_of_le (by omega)) hb'
    rw [hx]
    exact not_contHere hR hl
  ich g n l cs' h hn hR hl hfit hi := by
    obtain ⟨h1, h2⟩ := h.movedCells_le hn
    exact hfit.cells.inserted hfit.len h.cur.x_nonneg h1 h2 (not_contHere hR.1 hl)
      (not_contHere hR.2 hl) hi
  dch g n l cs' h hn hR hl hfit hd := by
    obtain ⟨h1, h2⟩ := h.movedCells_le hn
    refine hfit.cells.deleted hfit.len h.cur.x_nonneg h1 h2 ?_ hd
    have hiff := hR
    unfold wholeSteps at hiff
    simp only [contHere_iff hl] at hiff
    exact Bool.eq_iff_iff.mpr hiff

/-! ## The terminal -/

/-- Each cell marked `VT_WIDE` is directly followed by one marked `VT_WIDE_CONT`, and each of these
directly follows one marked `VT_WIDE`. -/
def HalvesTogether (cs : List Cell) : Prop :=
  (∀ (i : ℕ) (a : Cell), cs[i]? = some a → a.wide = true →
    ∃ b, cs[i + 1]? = some b ∧ b.cont = true) ∧
  ∀ (i : ℕ) (a : Cell), cs[i]? = some a → a.cont = true →
    ∃ j b, i = j + 1 ∧ cs[j]? = some b ∧ b.wide = true

theorem markAt_iff {p : Cell → Bool} {cs : List Cell} {i : ℕ} :
    markAt p cs i = true ↔ ∃ a, cs[i]? = some a ∧ p a = true := by
  unfold markAt
  cases cs[i]? with
  | none => simp
  | some a => simp

theorem WholeLine.halvesTogether {cs : List Cell} (h : WholeLine cs) : HalvesTogether cs := by
  refine ⟨fun i a ha hw => ?_, fun i a ha hc => ?_⟩
  · have hmark : markAt Cell.wide cs i = true := markAt_iff.mpr ⟨a, ha, hw⟩
    rw [← Whole.next h] at hmark
    exact markAt_iff.mp hmark
  · obtain ⟨j, hj, hw⟩ := Whole.before h (markAt_iff.mpr ⟨a, ha, hc⟩)
    obtain ⟨b, hb⟩ := markAt_iff.mp hw
    exact ⟨j, b, hj, hb⟩

/-- **Double-width characters stay whole.**  In every run, of a screen that always has two columns
or more, in which every step that moves or blanks cells is one of `wholeSteps`, the halves of the
double-width characters are together in every line of both screens after every byte and resize. -/
theorem halves_stay_together (W : Widths) {s : Vt} (h : Reachable W (wholeSteps.byte W) 2 s) :
    ∀ l ∈ s.pri ++ s.alt, HalvesTogether l.c := by
  have hfits := h.fits wholeSteps_sound
  intro l hl
  rcases List.mem_append.mp hl with hl | hl
  · exact (hfits.pri.fits l hl).cells.halvesTogether
  · exact (hfits.alt.fits l hl).cells.halvesTogether

/-- A double-width character on a screen of four columns. -/
theorem halves_stay_together_printed :
    ∃ s, vtWrite .kernel (vtNew 4 1 0) [0xE4, 0xB8, 0xAD] = some s ∧
      ∀ l ∈ s.pri ++ s.alt, HalvesTogether l.c := by
  have h0 : Reachable .kernel (wholeSteps.byte .kernel) 2 (vtNew 4 1 0) :=
    .new 4 1 0 (by decide) (by decide)
  have h1 := Reachable.byte h0 0xE4 ⟨fun _ h => absurd h (by decide), fun _ =>
    ⟨fun h => absurd rfl h, fun _ _ => Or.inr (Or.inl (by decide))⟩⟩ rfl
  have h2 := Reachable.byte h1 0xB8 ⟨fun _ h => absurd h (by decide), fun _ h =>
    absurd h (by decide)⟩ rfl
  have h3 := Reachable.byte h2 0xAD ⟨fun _ h => absurd h (by decide), fun _ _ _ s1 hs1 => by
    obtain rfl := Option.some.inj hs1
    rw [if_neg (by decide)]
    exact fun h => absurd h (by decide)⟩ rfl
  exact ⟨_, rfl, halves_stay_together .kernel h3⟩

/-- A double-width character, the cursor back on its first half, and DCH: the second half is left
alone in the first cell. -/
theorem second_half_alone :
    ∃ s l, Reachable .kernel (fun _ _ => True) 2 s ∧ l ∈ s.pri ++ s.alt ∧ ¬ HalvesTogether l.c := by
  have h0 : Reachable .kernel (fun _ _ => True) 2 (vtNew 4 1 0) :=
    .new 4 1 0 (by decide) (by decide)
  have h3 := ((h0.byte 0xE4 trivial rfl).byte 0xB8 trivial rfl).byte 0xAD trivial rfl
  have h7 := (((h3.byte 0x0D trivial rfl).byte 0x1B trivial rfl).byte 0x5B trivial rfl).byte 0x50
    trivial rfl
  refine ⟨_, _, h7, List.mem_append_left _ (List.mem_cons_self ..), fun h => ?_⟩
  obtain ⟨j, b, hj, -⟩ := h.2 0 _ rfl rfl
  cases hj

end BananaOS.Emulator
