import BananaOS.Emulator.Steps

/-!
# The cursor stays inside

Whatever a program writes to the terminal and however its window is resized, the cursors stay on the
screen, the scrolling region does, every line keeps its `cols` cells, every line's cells have one
owner, and no function touches a cell outside its line.

There is one exception.  A double-width character that does not fit at the last column is put at the
start of the next line, and nobody asks whether it fits there: on a screen one column wide it does
not, and its second half is written past the end of the line (`out_of_line`).
-/

namespace BananaOS.Emulator

open BananaOS.Lib BananaOS.Lib.Checked

/-- With autowrap on, no double-width character is printed on a screen one column wide. -/
def roomForTwo : Rules where
  place _ _ := True
  last s := s.cols ≠ 1
  ich _ _ := True
  dch _ _ := True

theorem roomForTwo_sound : roomForTwo.Sound 1 fun _ => True where
  blank _ _ := trivial
  fit _ _ _ _ _ _ _ := trivial
  erase _ _ _ _ _ _ _ _ _ _ _ := trivial
  letters _ := trivial
  place _ _ _ _ _ _ _ _ _ _ _ _ := trivial
  room s h hl := by
    have hpos := h.cols_pos
    have hne : s.cols ≠ 1 := hl
    omega
  last _ _ _ _ _ _ _ _ _ := trivial
  ich _ _ _ _ _ _ _ _ _ _ := trivial
  dch _ _ _ _ _ _ _ _ _ _ := trivial

/-- The screens are as they should be. -/
structure Tidy (s : Vt) : Prop where
  cur : Inside s.cols s.rows s.cur
  savedPri : Inside s.cols s.rows s.savedPri
  savedAlt : Inside s.cols s.rows s.savedAlt
  region : 0 ≤ s.top ∧ s.top ≤ s.bot ∧ s.bot < s.rows
  pri : (s.pri.length : ℤ) = s.rows ∧ ∀ l ∈ s.pri, (l.c.length : ℤ) = s.cols
  alt : (s.alt.length : ℤ) = s.rows ∧ ∀ l ∈ s.alt, (l.c.length : ℤ) = s.cols
  scrollback : (s.sbLines.length : ℤ) ≤ max s.sbMax 0
  owned : (ids s.pri ++ ids s.alt ++ ids s.sbLines ++ s.freed).Nodup

theorem Fits.tidy {lo : ℤ} {Q : List Cell → Prop} {s : Vt} (h : Fits lo Q s.toGrid) : Tidy s where
  cur := h.cur
  savedPri := h.savedPri
  savedAlt := h.savedAlt
  region := ⟨h.top_nonneg, h.top_le, h.bot_lt⟩
  pri := ⟨h.pri.count, fun l hl => (h.pri.fits l hl).len⟩
  alt := ⟨h.alt.count, fun l hl => (h.alt.fits l hl).len⟩
  scrollback := by
    unfold Store.sbLines
    rw [RingBuf.length_list]
    exact h.owned.len_le
  owned := by
    rw [List.append_assoc]
    exact h.owned.owned.nodup_iff.mpr List.nodup_range

/-- **The emulator stays inside.**  In every run in which no double-width character is printed with
autowrap on while the screen is one column wide, the screens are as they should be after every
byte and resize, and the next byte and the next resize touch no cell outside its line. -/
theorem vt_stays_inside (W : Widths) {s : Vt} (h : Reachable W (roomForTwo.byte W) 1 s) :
    Tidy s ∧ (∀ b, roomForTwo.byte W s b → (byte W s b).isSome) ∧
      ∀ cols rows : ℤ, 1 ≤ cols → 1 ≤ rows → (vtResize s cols rows).isSome := by
  have hfits := h.fits roomForTwo_sound
  refine ⟨hfits.tidy, fun b hb => (hfits.byte roomForTwo_sound hb).isSome, fun cols rows hc _ => ?_⟩
  exact (hfits.vtResize roomForTwo_sound.toFitting (lo_le_clamp hc)).isSome

/-- A letter on a screen of two columns. -/
theorem vt_stays_inside_letter :
    ∃ s, byte .kernel (vtNew 2 1 0) 0x61 = some s ∧ Tidy s ∧
      ∀ cols rows : ℤ, 1 ≤ cols → 1 ≤ rows → (vtResize s cols rows).isSome := by
  have hfine : roomForTwo.byte .kernel (vtNew 2 1 0) 0x61 := by
    refine ⟨fun _ _ _ s1 _ => ?_, fun h => absurd h (by decide)⟩
    rw [if_neg (by rintro ⟨h, -⟩; exact absurd h (by decide))]
    trivial
  have h := vt_stays_inside .kernel
    (.byte (.new 2 1 0 (by decide) (by decide)) 0x61 hfine rfl)
  exact ⟨_, rfl, h.1, h.2.2⟩

/-- One column, and the three bytes of a double-width character: its second half would be written
outside the line. -/
theorem out_of_line :
    ∃ s b, Reachable .kernel (fun _ _ => True) 1 s ∧ byte .kernel s b = none :=
  ⟨_, 0xAD, .byte (.byte (.new 1 1 0 (by decide) (by decide)) 0xE4 trivial rfl) 0xB8 trivial rfl,
    rfl⟩

end BananaOS.Emulator
