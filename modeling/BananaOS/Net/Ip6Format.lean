import BananaOS.Net.Ip6

/-!
# The text written for an IPv6 address

`ip6_format` of `net/ipv6.c`: the longest run of two or more zero words becomes two colons.  The loop ends
early where less than seven bytes of the buffer are left, and `ksnprintf` gives back the length of what it
should have written; in 48 bytes every address has room (`formatLoop_joined`).

* `bestRun_spec`: what is found is a run of zeros; `formatLoop_gap`, `formatLoop_full`: what is written.
* `ip6_text`: what is written is read back, and which texts are read.
-/

namespace BananaOS.Net

open Lib Lib.Lines

/-! ## What is written -/

/-- `"%x"` -/
def hexText (v : ℕ) : Text :=
  if v = 0 then ['0'.toUInt8]
  else (Nat.digits 16 v).reverse.map fun x =>
    if x < 10 then '0'.toUInt8 + UInt8.ofNat x else 'a'.toUInt8 + UInt8.ofNat (x - 10)

/-- What is in the buffer, and `o`. -/
structure Written where
  text : Text
  o : ℕ

/-- `o += ksnprintf(out + o, cap - o, ...)` -/
def Written.print (t : Written) (cap : ℕ) (piece : Text) : Written :=
  ⟨t.text ++ piece.take (cap - t.o - 1), t.o + piece.length⟩

/-- `while (j < 8 && !w[j]) j++`, with `8 - j` turns at most -/
def skipZeros (w : List ℕ) : ℕ → ℕ → ℕ
  | 0, j => j
  | n + 1, j => if w.getD j 0 = 0 then skipZeros w n (j + 1) else j

/-- The loop that finds the longest run of zero words, with `8 - i` turns at most. -/
def bestRun (w : List ℕ) : ℕ → ℕ → Option ℕ → ℕ → Option ℕ × ℕ
  | 0, _, best, blen => (best, blen)
  | n + 1, i, best, blen =>
    if 8 ≤ i then (best, blen)
    else if w.getD i 0 ≠ 0 then bestRun w n (i + 1) best blen
    else
      let j := skipZeros w (8 - i) i
      if blen < j - i ∧ 1 < j - i then bestRun w n j (some i) (j - i) else bestRun w n j best blen

/-- The loop that writes, with `8 - i` turns at most. -/
def formatLoop (w : List ℕ) (best : Option ℕ) (blen cap : ℕ) : ℕ → ℕ → Written → Written
  | 0, _, t => t
  | n + 1, i, t =>
    if 8 ≤ i ∨ cap ≤ t.o + 6 then t
    else if best = some i then formatLoop w best blen cap n (i + blen) (t.print cap [colon, colon])
    else
      formatLoop w best blen cap n (i + 1)
        (t.print cap
          (if i ≠ 0 ∧ best.map (· + blen) ≠ some i then colon :: hexText (w.getD i 0)
          else hexText (w.getD i 0)))

def ip6Format (a : Ip6) (cap : ℕ) : Text :=
  let (best, blen) := bestRun a.words 8 0 none 0
  let t := formatLoop a.words best blen cap 8 0 ⟨[], 0⟩
  if t.o = 0 then [colon, colon].take (cap - 1) else t.text

/-! ## Words in hexadecimal -/

theorem hexDigit_char {x : ℕ} (h : x < 16) : HexDigit
    (if x < 10 then '0'.toUInt8 + UInt8.ofNat x else 'a'.toUInt8 + UInt8.ofNat (x - 10)) x := by
  revert x
  decide

theorem group_hexText {v : ℕ} (h : v < 2 ^ 16) : Group (hexText v) v := by
  rw [hexText]
  split_ifs with h0
  · refine ⟨le_rfl, by decide, [0], .cons (hexDigit_char (x := 0) (by decide)) .nil, h0⟩
  · have hlen : (Nat.digits 16 v).length ≤ 4 :=
      (Nat.digits_length_le_iff (by decide) v).mpr (by simpa using h)
    refine ⟨?_, ?_, (Nat.digits 16 v).reverse, ?_, ?_⟩
    · rw [List.length_map, List.length_reverse]
      exact List.length_pos_of_ne_nil (Nat.digits_ne_nil_iff_ne_zero.mpr h0)
    · rwa [List.length_map, List.length_reverse]
    · rw [List.forall₂_map_left_iff, List.forall₂_same]
      exact fun x hx => hexDigit_char (Nat.digits_lt_base (by decide) (List.mem_reverse.mp hx))
    · rw [List.reverse_reverse, Nat.ofDigits_digits]

theorem groups_hexText {ws : List ℕ} (h : ∀ v ∈ ws, v < 2 ^ 16) : Groups (ws.map hexText) ws := by
  rw [Groups, List.forall₂_map_left_iff, List.forall₂_same]
  exact fun v hv => group_hexText (h v hv)

/-! ## The longest run -/

variable {w : List ℕ} {n i k blen : ℕ} {best : Option ℕ} {s : Text}

/-- `len` words from `b` on are zero, two at least. -/
def ZeroRun (w : List ℕ) (b len : ℕ) : Prop :=
  1 < len ∧ b + len ≤ 8 ∧ ∀ i, b ≤ i → i < b + len → w.getD i 0 = 0

theorem skipZeros_spec (w : List ℕ) (n j : ℕ) :
    j ≤ skipZeros w n j ∧ skipZeros w n j ≤ j + n ∧ ∀ i, j ≤ i → i < skipZeros w n j → w.getD i 0 = 0 := by
  induction n generalizing j with
  | zero => exact ⟨le_rfl, le_rfl, fun i h1 h2 => absurd h1 (Nat.not_le_of_lt h2)⟩
  | succ n ih =>
    rw [skipZeros]
    split_ifs with hz
    · obtain ⟨h1, h2, h3⟩ := ih (j + 1)
      refine ⟨by omega, by omega, fun i hi hlt => ?_⟩
      rcases Nat.eq_or_lt_of_le hi with rfl | hi
      · exact hz
      · exact h3 i hi hlt
    · exact ⟨le_rfl, by omega, fun i h1 h2 => absurd h1 (Nat.not_le_of_lt h2)⟩

/-- What is found is a run of zeros. -/
theorem bestRun_spec (h : ∀ b, best = some b → ZeroRun w b blen) :
    ∀ b, (bestRun w n i best blen).1 = some b → ZeroRun w b (bestRun w n i best blen).2 := by
  induction n generalizing i best blen with
  | zero => exact h
  | succ n ih =>
    rw [bestRun]
    by_cases h8 : 8 ≤ i
    · rwa [if_pos h8]
    rw [if_neg h8]
    by_cases hw : w.getD i 0 ≠ 0
    · rw [if_pos hw]
      exact ih h
    rw [if_neg hw]
    obtain ⟨-, h2, h3⟩ := skipZeros_spec w (8 - i) i
    dsimp only
    by_cases hrun : blen < skipZeros w (8 - i) i - i ∧ 1 < skipZeros w (8 - i) i - i
    · rw [if_pos hrun]
      refine ih fun b hb => ?_
      obtain rfl := Option.some.inj hb
      exact ⟨hrun.2, by omega, fun l hl hlt => h3 l hl (by omega)⟩
    · rw [if_neg hrun]
      exact ih h

/-! ## The loop that writes -/

/-- Everything that was written had room. -/
def Written.of (s : Text) : Written := ⟨s, s.length⟩

@[simp] theorem Written.o_of (s : Text) : (Written.of s).o = s.length := rfl

theorem Written.print_of {cap : ℕ} {piece : Text} (h : s.length + piece.length < cap) :
    (Written.of s).print cap piece = .of (s ++ piece) := by
  rw [Written.print, Written.o_of, List.take_of_length_le (by omega), Written.of, Written.of,
    List.length_append]

theorem length_hexText {v : ℕ} (h : v < 2 ^ 16) : (hexText v).length ≤ 4 := (group_hexText h).2.1

theorem formatLoop_end {cap : ℕ} {t : Written} (h : 8 ≤ i) : formatLoop w best blen cap n i t = t := by
  cases n with
  | zero => rfl
  | succ n => rw [formatLoop, if_pos (.inl h)]

theorem getD_lt (hlen : w.length = 8) (hw : ∀ v ∈ w, v < 2 ^ 16) (hi : i < 8) : w.getD i 0 < 2 ^ 16 := by
  rw [List.getD_eq_getElem _ _ (hlen.symm ▸ hi)]
  exact hw _ (List.getElem_mem _)

/-- The words of a stretch are written with a colon before each. -/
theorem formatLoop_opened (hlen : w.length = 8) (hw : ∀ v ∈ w, v < 2 ^ 16) (hi : 0 < i) (hk : i + k ≤ 8)
    (hbest : ∀ l, i ≤ l → l < i + k → best ≠ some l ∧ best.map (· + blen) ≠ some l)
    (hs : s.length ≤ 5 * i) :
    formatLoop w best blen 48 (n + k) i (.of s) = formatLoop w best blen 48 n (i + k)
      (.of (s ++ opened colon (((w.drop i).take k).map hexText))) := by
  induction k generalizing i s with
  | zero => simp
  | succ k ih =>
    obtain ⟨h1, h2⟩ := hbest i le_rfl (by omega)
    have hhex := length_hexText (getD_lt hlen hw (i := i) (by omega))
    have hdrop : w.drop i = w.getD i 0 :: w.drop (i + 1) := by
      rw [List.getD_eq_getElem _ _ (by omega), List.drop_eq_getElem_cons (by omega)]
    have hroom : ¬(8 ≤ i ∨ 48 ≤ (Written.of s).o + 6) := by
      rw [Written.o_of]
      omega
    rw [← Nat.add_assoc, formatLoop, if_neg hroom, if_neg h1, if_pos ⟨by omega, h2⟩, Written.print_of, ih]
    · rw [hdrop, List.take_succ_cons, List.map_cons, opened_cons, List.append_assoc, Nat.add_assoc,
        Nat.add_comm 1]
      rfl
    · omega
    · omega
    · exact fun l hl hlt => hbest l (by omega) (by omega)
    · rw [List.length_append, List.length_cons]
      omega
    · rw [List.length_cons]
      omega

/-- The words of a stretch are written with colons between them, where none is written before the first. -/
theorem formatLoop_joined (best : Option ℕ) (blen n : ℕ) (hlen : w.length = 8) (hw : ∀ v ∈ w, v < 2 ^ 16) (hk : i + k ≤ 8)
    (hfirst : i = 0 ∨ best.map (· + blen) = some i)
    (hbest : ∀ l, i ≤ l → l < i + k → best ≠ some l ∧ (i < l → best.map (· + blen) ≠ some l))
    (hs : s.length ≤ 5 * i) :
    formatLoop w best blen 48 (n + k) i (.of s) = formatLoop w best blen 48 n (i + k)
      (.of (s ++ Lines.joined colon (((w.drop i).take k).map hexText))) := by
  cases k with
  | zero => simp [Lines.joined]
  | succ k =>
    have hhex := length_hexText (getD_lt hlen hw (i := i) (by omega))
    have hdrop : w.drop i = w.getD i 0 :: w.drop (i + 1) := by
      rw [List.getD_eq_getElem _ _ (by omega), List.drop_eq_getElem_cons (by omega)]
    have hroom : ¬(8 ≤ i ∨ 48 ≤ (Written.of s).o + 6) := by
      rw [Written.o_of]
      omega
    rw [← Nat.add_assoc, formatLoop, if_neg hroom, if_neg (hbest i le_rfl (by omega)).1,
      if_neg fun h => hfirst.elim h.1 h.2, Written.print_of (by omega), formatLoop_opened hlen hw]
    · rw [hdrop, List.take_succ_cons, List.map_cons, Lines.joined, List.append_assoc, Nat.add_assoc,
        Nat.add_comm 1]
    · omega
    · omega
    · exact fun l hl hlt =>
        ⟨(hbest l (by omega) (by omega)).1, (hbest l (by omega) (by omega)).2 (by omega)⟩
    · rw [List.length_append]
      omega

/-- What is written where a run of zeros was found. -/
theorem formatLoop_gap {b : ℕ} (hlen : w.length = 8) (hw : ∀ v ∈ w, v < 2 ^ 16) (hrun : ZeroRun w b blen) :
    formatLoop w (some b) blen 48 8 0 (.of []) =
      .of (Lines.joined colon ((w.take b).map hexText) ++ [colon, colon] ++
        Lines.joined colon ((w.drop (b + blen)).map hexText)) := by
  obtain ⟨hblen, hend, -⟩ := hrun
  have hshort : (Lines.joined colon ((w.take b).map hexText)).length ≤ 5 * b := by
    have h := length_joined (groups_hexText fun v hv => hw v (List.mem_of_mem_take (i := b) hv))
    rw [List.length_map, List.length_take] at h
    omega
  have hbefore := formatLoop_joined (some b) blen (7 - b + 1) (k := b) (i := 0) (s := []) hlen hw (by omega)
    (.inl rfl) (fun l _ hl => ⟨by simp; omega, fun _ => by simp; omega⟩) (by simp)
  rw [List.drop_zero, Nat.zero_add, List.nil_append, show 7 - b + 1 + b = 8 by omega] at hbefore
  have hroom : ¬(8 ≤ b ∨ 48 ≤ (Written.of (Lines.joined colon ((w.take b).map hexText))).o + 6) := by
    rw [Written.o_of]
    omega
  have hafter := formatLoop_joined (some b) blen (7 - b - (8 - (b + blen))) (k := 8 - (b + blen))
    (i := b + blen) (s := Lines.joined colon ((w.take b).map hexText) ++ [colon, colon]) hlen hw (by omega)
    (.inr rfl) (fun l hl _ => ⟨by simp; omega, fun _ => by simp; omega⟩)
    (by rw [List.length_append, List.length_cons, List.length_singleton]; omega)
  have htake : (w.drop (b + blen)).take (8 - (b + blen)) = w.drop (b + blen) :=
    List.take_of_length_le (by rw [List.length_drop, hlen])
  have hturns : 7 - b - (8 - (b + blen)) + (8 - (b + blen)) = 7 - b := by omega
  have hend8 : 8 ≤ b + blen + (8 - (b + blen)) := by omega
  rw [htake, hturns, formatLoop_end hend8] at hafter
  rw [hbefore, formatLoop, if_neg hroom, if_pos rfl, Written.print_of, hafter]
  rw [List.length_cons, List.length_singleton]
  omega

theorem formatLoop_full (hlen : w.length = 8) (hw : ∀ v ∈ w, v < 2 ^ 16) :
    formatLoop w none blen 48 8 0 (.of []) = .of (Lines.joined colon (w.map hexText)) := by
  have h := formatLoop_joined none blen 0 (k := 8) (i := 0) (s := []) hlen hw le_rfl (.inl rfl) (by simp)
    (by simp)
  rw [Nat.zero_add, formatLoop_end le_rfl, List.drop_zero, List.take_of_length_le hlen.le] at h
  exact h

/-! ## Reading it back -/

theorem joined_ne_nil {gs : List Text} {vs : List ℕ} (h : Groups gs vs) (hne : gs ≠ []) :
    Lines.joined colon gs ≠ [] := by
  obtain ⟨c, t, hct, -⟩ := joined_head h hne
  rw [hct]
  exact List.cons_ne_nil _ _

/-- What is written says which address it is. -/
theorem ip6Text_ip6Format (a : Ip6) : Ip6Text (ip6Format a 48) a.words := by
  have hlen := a.length_words
  have hw := a.words_lt
  have hrun : ∀ b, (bestRun a.words 8 0 none 0).1 = some b → ZeroRun a.words b (bestRun a.words 8 0 none 0).2 :=
    bestRun_spec fun b hb => absurd hb (by simp)
  rw [ip6Format]
  revert hrun
  generalize bestRun a.words 8 0 none 0 = r
  obtain ⟨best, blen⟩ := r
  intro hrun
  dsimp only at hrun ⊢
  rw [show (⟨[], 0⟩ : Written) = .of [] from rfl]
  cases best with
  | none =>
    have hgroups := groups_hexText hw
    have hne : Lines.joined colon (a.words.map hexText) ≠ [] := joined_ne_nil hgroups (by
      rw [ne_eq, List.map_eq_nil_iff, ← List.length_eq_zero_iff, hlen]
      decide)
    rw [formatLoop_full hlen hw, Written.o_of, if_neg (by rwa [List.length_eq_zero_iff])]
    exact .full hgroups (by rw [List.length_map, hlen])
  | some b =>
    obtain ⟨h1, h2, h3⟩ := hrun b rfl
    rw [formatLoop_gap hlen hw (hrun b rfl), Written.o_of, if_neg (by simp)]
    have hsplit : a.words = a.words.take b ++ List.replicate (blen - 1 + 1) 0 ++ a.words.drop (b + blen) := by
      have hzeros : (a.words.drop b).take blen = List.replicate (blen - 1 + 1) 0 := by
        refine List.eq_replicate_iff.mpr ⟨?_, fun v hv => ?_⟩
        · rw [List.length_take, List.length_drop]
          omega
        · obtain ⟨j, hj, rfl⟩ := List.getElem_of_mem hv
          rw [List.length_take] at hj
          rw [List.getElem_take, List.getElem_drop, ← List.getD_eq_getElem _ 0]
          exact h3 _ (by omega) (by omega)
      rw [← hzeros, List.append_assoc, ← List.drop_drop, List.take_append_drop, List.take_append_drop]
    have hcount : (a.words.take b).length + (blen - 1 + 1) + (a.words.drop (b + blen)).length = 8 := by
      rw [List.length_take, List.length_drop, hlen]
      omega
    have htext := Ip6Text.gap (groups_hexText fun v hv => hw v (List.mem_of_mem_take hv))
      (groups_hexText fun v hv => hw v (List.mem_of_mem_drop hv)) hcount
    rwa [← hsplit] at htext

/-- What is written for an address is read back as it, and exactly the texts of addresses are read. -/
theorem ip6_text : (∀ a : Ip6, ip6Parse (ip6Format a 48) = some a) ∧
    ∀ (s : Text) (a : Ip6), ip6Parse s = some a ↔ Ip6Text s a.words :=
  ⟨fun a => ip6Parse_complete (ip6Text_ip6Format a), fun s a => ip6Parse_iff s a⟩

end BananaOS.Net
