import BananaOS.Deflate.Lengths
import BananaOS.Lib.Canonical
import Mathlib.Data.Prod.Lex

/-!
# The codes of a Huffman code

`huff_codes` of `kernel/deflate.c`: the canonical codes for given lengths, with their bits in the other order,
and what `huff_lengths` and `huff_codes` give together.

`next[b]` counts on from the first code of `b` bits.  The word of 15 bits at which that code begins is the sum of
what the shorter codes take (`firstCodes_spec`).
-/

namespace BananaOS.Deflate

open Finset Function Lib.Canonical

def u16 (n : ℕ) : ℕ := n % 2 ^ 16

/-- `count` after the first `m` symbols. -/
def countLens (len : ℕ → ℕ) (m : ℕ) : ℕ → ℕ :=
  (List.range m).foldl (fun count i => update count (len i) (u16 (count (len i) + 1))) fun _ => 0

/-- The first code of every length up to `m` and the last of these; `next[0]` is never used. -/
def firstCodes (count : ℕ → ℕ) (m : ℕ) : ℕ × (ℕ → ℕ) :=
  (List.range m).foldl
    (fun p k =>
      let c := u16 ((p.1 + count k) <<< 1)
      (c, update p.2 (k + 1) c))
    (0, fun _ => 0)

/-- The loop that turns the bits of `v` round. -/
def turnLoop : ℕ → ℕ → ℕ → ℕ
  | 0, _, r => r
  | k + 1, v, r => turnLoop k (v >>> 1) (u16 ((r <<< 1) ||| (v &&& 1)))

/-- One turn of the loop over the symbols, with `next` and `code`. -/
def codeStep (len : ℕ → ℕ) (p : (ℕ → ℕ) × (ℕ → ℕ)) (i : ℕ) : (ℕ → ℕ) × (ℕ → ℕ) :=
  if len i = 0 then (p.1, update p.2 i 0)
  else
    (update p.1 (len i) (u16 (p.1 (len i) + 1)), update p.2 i (turnLoop (len i) (p.1 (len i)) 0))

def huffCodes (len : ℕ → ℕ) (n : ℕ) (code : ℕ → ℕ) : ℕ → ℕ :=
  let count := update (countLens len n) 0 0
  ((List.range n).foldl (codeStep len) ((firstCodes count 15).2, code)).2

variable {len : ℕ → ℕ} {n m b : ℕ}

/-- The symbols that have a code. -/
def coded (len : ℕ → ℕ) (n : ℕ) : Finset ℕ := {i ∈ range n | len i ≠ 0}

theorem mem_coded {i : ℕ} : i ∈ coded len n ↔ i < n ∧ len i ≠ 0 := by rw [coded, mem_filter, mem_range]

/-- Shorter codes come first, and of the same length those of lower symbols. -/
def codeKey (len : ℕ → ℕ) (i : ℕ) : ℕ ×ₗ ℕ := toLex (len i, i)

theorem injective_codeKey (len : ℕ → ℕ) : Injective (codeKey len) := fun _ _ h =>
  congrArg Prod.snd (toLex.injective h)

theorem codeKey_lt {i j : ℕ} : codeKey len j < codeKey len i ↔ len j < len i ∨ len j = len i ∧ j < i :=
  Prod.Lex.lt_iff

/-! ## The first code of each length -/

/-- How many of the first `m` symbols have codes of `b` bits. -/
def sameLen (len : ℕ → ℕ) (m b : ℕ) : Finset ℕ := {i ∈ range m | len i = b}

theorem card_sameLen_succ : #(sameLen len (m + 1) b) = #(sameLen len m b) + if len m = b then 1 else 0 := by
  rw [sameLen, range_add_one, filter_insert]
  split_ifs with h
  · exact card_insert_of_notMem fun hm => (mem_range.mp (mem_filter.mp hm).1).false
  · rfl

theorem card_sameLen_le (len : ℕ → ℕ) (m b : ℕ) : #(sameLen len m b) ≤ m :=
  (card_filter_le _ _).trans (card_range m).le

theorem countLens_eq (hm : m < 2 ^ 16) : countLens len m b = #(sameLen len m b) := by
  induction m generalizing b with
  | zero => rfl
  | succ m ih =>
    have hle := card_sameLen_le len m (len m)
    have hstep : countLens len (m + 1) = update (countLens len m) (len m) (u16 (countLens len m (len m) + 1)) := by
      rw [countLens, List.range_succ, List.foldl_append]
      rfl
    rw [hstep, card_sameLen_succ]
    by_cases hb : b = len m
    · rw [hb, update_self, if_pos rfl, ih (by omega), u16, Nat.mod_eq_of_lt (by omega)]
    · rw [update_of_ne hb, if_neg (Ne.symm hb), ih (by omega)]
      rfl

/-- The words of 15 bits that the codes of fewer than `b` bits take. -/
def shorter (len : ℕ → ℕ) (n b : ℕ) : ℕ := ∑ i ∈ coded len n with len i < b, 2 ^ (15 - len i)

theorem shorter_zero : shorter len n 0 = 0 :=
  sum_eq_zero fun _ hi => absurd (mem_filter.mp hi).2 (Nat.not_lt_zero _)

theorem shorter_le (hkraft : ∑ i ∈ coded len n, 2 ^ (15 - len i) ≤ 2 ^ 15) : shorter len n b ≤ 2 ^ 15 :=
  (sum_le_sum_of_subset (filter_subset _ _)).trans hkraft

theorem shorter_succ (hn : n < 2 ^ 16) :
    shorter len n (b + 1) = shorter len n b + update (countLens len n) 0 0 b * 2 ^ (15 - b) := by
  have hcount : update (countLens len n) 0 0 b = #{i ∈ coded len n | len i = b} := by
    by_cases hb : b = 0
    · rw [hb, update_self, eq_comm, card_eq_zero]
      exact filter_eq_empty_iff.mpr fun i hi => (mem_coded.mp hi).2
    · rw [update_of_ne hb, countLens_eq hn, sameLen, coded, filter_filter]
      refine congrArg card (filter_congr fun i _ => ?_)
      exact ⟨fun h => ⟨h.trans_ne hb, h⟩, And.right⟩
  have hsame : ∑ i ∈ coded len n with len i = b, 2 ^ (15 - len i) = #{i ∈ coded len n | len i = b} * 2 ^ (15 - b) :=
    sum_const_nat fun i hi => by rw [(mem_filter.mp hi).2]
  have hdisj : Disjoint {i ∈ coded len n | len i < b} {i ∈ coded len n | len i = b} :=
    disjoint_filter.mpr fun i _ hlt heq => hlt.ne heq
  rw [hcount, ← hsame, shorter, shorter, ← sum_union hdisj, ← filter_or]
  exact sum_congr (filter_congr fun i _ => Nat.lt_succ_iff_lt_or_eq) fun _ _ => rfl

theorem firstCodes_loop {count : ℕ → ℕ}
    (hcount : ∀ b, shorter len n (b + 1) = shorter len n b + count b * 2 ^ (15 - b))
    (hkraft : ∑ i ∈ coded len n, 2 ^ (15 - len i) ≤ 2 ^ 15) (hm : m ≤ 15) :
    (firstCodes count m).1 * 2 ^ (15 - m) = shorter len n m ∧
    ∀ b, 1 ≤ b → b ≤ m → (firstCodes count m).2 b * 2 ^ (15 - b) = shorter len n b := by
  induction m with
  | zero => exact ⟨(Nat.zero_mul _).trans shorter_zero.symm, fun b h1 h2 => absurd (h1.trans h2) (by decide)⟩
  | succ m ih =>
    obtain ⟨hc, hnext⟩ := ih (by omega)
    have hpow : 2 ^ (15 - m) = 2 * 2 ^ (15 - (m + 1)) := by
      rw [← pow_succ']
      exact congrArg _ (by omega)
    have hval : ((firstCodes count m).1 + count m) <<< 1 * 2 ^ (15 - (m + 1)) = shorter len n (m + 1) := by
      rw [hcount, ← hc, ← Nat.add_mul, hpow, Nat.shiftLeft_eq, pow_one, Nat.mul_assoc]
    have hlt : ((firstCodes count m).1 + count m) <<< 1 < 2 ^ 16 := by
      have hle : ((firstCodes count m).1 + count m) <<< 1 ≤ shorter len n (m + 1) := by
        rw [← hval]
        exact Nat.le_mul_of_pos_right _ (Nat.two_pow_pos _)
      exact (hle.trans (shorter_le hkraft)).trans_lt (by decide)
    have hstep : firstCodes count (m + 1) =
        (u16 (((firstCodes count m).1 + count m) <<< 1),
          update (firstCodes count m).2 (m + 1) (u16 (((firstCodes count m).1 + count m) <<< 1))) := by
      rw [firstCodes, List.range_succ, List.foldl_append]
      rfl
    rw [hstep, u16, Nat.mod_eq_of_lt hlt]
    refine ⟨hval, fun b h1 h2 => ?_⟩
    dsimp only
    by_cases hb : b = m + 1
    · rw [hb, update_self, hval]
    · rw [update_of_ne hb]
      exact hnext b h1 (by omega)

/-! ## The codes -/

/-- The number that is the code of the symbol `i`, when `next` holds the first codes. -/
def codeValue (next len : ℕ → ℕ) (i : ℕ) : ℕ := next (len i) + #(sameLen len i (len i))

theorem turnLoop_eq {k v r : ℕ} (h : (r + 1) * 2 ^ k ≤ 2 ^ 16) : turnLoop k v r = r * 2 ^ k + revBits k v := by
  induction k generalizing v r with
  | zero =>
    have hrev : revBits 0 v = 0 := Nat.lt_one_iff.mp (revBits_lt 0 v)
    rw [turnLoop, hrev, pow_zero, Nat.mul_one, Nat.add_zero]
  | succ k ih =>
    have hbit : (r <<< 1) ||| (v &&& 1) = 2 * r + v % 2 := by
      rw [← Nat.shiftLeft_add_eq_or_of_lt (b := v &&& 1) (i := 1) (by rw [Nat.and_one_is_mod]; omega),
        Nat.and_one_is_mod, Nat.shiftLeft_eq, pow_one, Nat.mul_comm]
    have hroom : (2 * r + v % 2 + 1) * 2 ^ k ≤ 2 ^ 16 := by
      refine le_trans ?_ h
      rw [pow_succ', ← Nat.mul_assoc]
      exact Nat.mul_le_mul_right _ (by omega)
    have hlt : 2 * r + v % 2 < 2 ^ 16 := (Nat.le_mul_of_pos_right _ (Nat.two_pow_pos k)).trans hroom
    rw [turnLoop, hbit, u16, Nat.mod_eq_of_lt hlt, ih hroom, revBits_succ, Nat.shiftRight_eq_div_pow, pow_one,
      Nat.add_mul, pow_succ]
    ring

theorem foldl_codeStep {next code : ℕ → ℕ} (hlen : ∀ i < n, len i ≤ 15) (hn : n < 2 ^ 15)
    (hnext : ∀ b, 1 ≤ b → b ≤ 15 → next b ≤ 2 ^ 15) (hm : m ≤ n) :
    (∀ b, 1 ≤ b → b ≤ 15 →
      ((List.range m).foldl (codeStep len) (next, code)).1 b = next b + #(sameLen len m b)) ∧
    ∀ i < m, ((List.range m).foldl (codeStep len) (next, code)).2 i = revBits (len i) (codeValue next len i) := by
  induction m with
  | zero => exact ⟨fun _ _ _ => rfl, fun i hi => absurd hi i.not_lt_zero⟩
  | succ m ih =>
    obtain ⟨hcount, hcode⟩ := ih (by omega)
    have hm15 := hlen m hm
    rw [List.range_succ, List.foldl_append, List.foldl_cons, List.foldl_nil, codeStep]
    split_ifs with h0 <;> dsimp only
    · refine ⟨fun b h1 h2 => ?_, fun i hi => ?_⟩
      · rw [hcount b h1 h2, card_sameLen_succ, if_neg (by omega)]
        rfl
      · by_cases him : i = m
        · rw [him, update_self, h0]
          exact (Nat.lt_one_iff.mp (revBits_lt 0 _)).symm
        · rw [update_of_ne him]
          exact hcode i (by omega)
    · refine ⟨fun b h1 h2 => ?_, fun i hi => ?_⟩
      · rw [card_sameLen_succ]
        by_cases hb : b = len m
        · have hle := hnext b h1 h2
          have hle' := card_sameLen_le len m b
          rw [hb, update_self, if_pos rfl, ← hb, hcount b h1 h2, u16, Nat.mod_eq_of_lt (by omega)]
          rfl
        · rw [update_of_ne hb, if_neg (Ne.symm hb)]
          exact hcount b h1 h2
      · by_cases him : i = m
        · rw [him, update_self, hcount (len m) (by omega) hm15, turnLoop_eq, Nat.zero_mul, Nat.zero_add]
          · rfl
          · rw [Nat.zero_add, Nat.one_mul]
            exact Nat.pow_le_pow_right Nat.two_pos (by omega)
        · rw [update_of_ne him]
          exact hcode i (by omega)

/-- `huff_codes` assigns the canonical codes. -/
theorem huffCodes_canonical (hlen : ∀ i < n, len i ≤ 15) (hn : n < 2 ^ 15)
    (hkraft : ∑ i ∈ coded len n, 2 ^ (15 - len i) ≤ 2 ^ 15) :
    ∃ v, IsCanonical (coded len n) (codeKey len) 15 len v ∧
      ∀ code, ∀ i < n, huffCodes len n code i = revBits (len i) (v i) := by
  have hnext := (firstCodes_loop (fun b => shorter_succ (hn.trans (by decide))) hkraft le_rfl).2
  have hbound : ∀ b, 1 ≤ b → b ≤ 15 → (firstCodes (update (countLens len n) 0 0) 15).2 b ≤ 2 ^ 15 :=
    fun b h1 h2 => by
      have hle := hnext b h1 h2 ▸ shorter_le hkraft
      exact (Nat.le_mul_of_pos_right _ (Nat.two_pow_pos _)).trans hle
  refine ⟨codeValue (firstCodes (update (countLens len n) 0 0) 15).2 len, ⟨fun i hi => ?_, fun i hi => ?_⟩,
    fun code => (foldl_codeStep hlen hn hbound le_rfl).2⟩
  · exact hlen i (mem_coded.mp hi).1
  · rw [mem_coded] at hi
    have hfilter : {j ∈ coded len n | codeKey len j < codeKey len i} =
        {j ∈ coded len n | len j < len i} ∪ sameLen len i (len i) := by
      ext j
      rw [mem_filter, mem_union, mem_filter, mem_coded, codeKey_lt, sameLen, mem_filter, mem_range]
      constructor
      · rintro ⟨hj, hlt | ⟨heq, hlt⟩⟩
        · exact .inl ⟨hj, hlt⟩
        · exact .inr ⟨hlt, heq⟩
      · rintro (⟨hj, hlt⟩ | ⟨hlt, heq⟩)
        · exact ⟨hj, .inl hlt⟩
        · exact ⟨⟨by omega, by omega⟩, .inr ⟨heq, hlt⟩⟩
    have hdisj : Disjoint {j ∈ coded len n | len j < len i} (sameLen len i (len i)) :=
      disjoint_left.mpr fun j hj hj' => (mem_filter.mp hj).2.ne (mem_filter.mp hj').2
    have hsame : ∑ j ∈ sameLen len i (len i), 2 ^ (15 - len j) = #(sameLen len i (len i)) * 2 ^ (15 - len i) :=
      sum_const_nat fun j hj => by rw [(mem_filter.mp hj).2]
    rw [before, hfilter, sum_union hdisj, hsame, codeValue, Nat.add_mul,
      hnext (len i) (by omega) (hlen i hi.1)]
    rfl

/-- With a Kraft sum of 1 no code begins with another one, and all bits begin with a code. -/
theorem huffCodes_spec (hlen : ∀ i < n, len i ≤ 15) (hn : n < 2 ^ 15)
    (hkraft : ∑ i ∈ coded len n, 2 ^ (15 - len i) = 2 ^ 15) :
    ∃ v, IsCanonical (coded len n) (codeKey len) 15 len v ∧ ∀ code,
      (∀ i < n, huffCodes len n code i = revBits (len i) (v i)) ∧
      PrefixFree (coded len n) len (huffCodes len n code) ∧ Complete (coded len n) len (huffCodes len n code) := by
  obtain ⟨v, hv, hcode⟩ := huffCodes_canonical hlen hn hkraft.le
  have hinj : Set.InjOn (codeKey len) (coded len n) := (injective_codeKey len).injOn
  have heq : ∀ code, ∀ i ∈ coded len n, huffCodes len n code i = revBits (len i) (v i) := fun code i hi =>
    hcode code i (mem_coded.mp hi).1
  refine ⟨v, hv, fun code => ⟨hcode code, fun i hi j hj hij hle => ?_, fun x => ?_⟩⟩
  · rw [heq code i hi, heq code j hj]
    exact hv.prefixFree hinj hkraft i hi j hj hij hle
  · obtain ⟨i, hi, hx⟩ := hv.complete hinj hkraft x
    exact ⟨i, hi, hx.trans (heq code i hi).symm⟩

/-! ## Lengths and codes together -/

variable {freq : ℕ → ℕ} {maxbits : ℕ}

theorem IsLengths.coded_eq (h : IsLengths freq n maxbits len) : coded len n = {i ∈ range n | freq i ≠ 0} := by
  refine filter_congr fun i hi => ⟨fun hne h0 => hne (h.unused i (mem_range.mp hi) h0), fun hu => ?_⟩
  have := (h.used i (mem_range.mp hi) hu).1
  omega

theorem IsLengths.le (h : IsLengths freq n maxbits len) {i : ℕ} (hi : i < n) : len i ≤ maxbits := by
  by_cases h0 : freq i = 0
  · rw [h.unused i hi h0]
    exact Nat.zero_le _
  · exact (h.used i hi h0).2

theorem IsLengths.kraft_of_le (h : IsLengths freq n maxbits len) (hm : maxbits ≤ m) :
    ∑ i ∈ coded len n, 2 ^ (m - len i) = 2 ^ m := by
  have hsplit : ∀ i ∈ {i ∈ range n | freq i ≠ 0}, 2 ^ (m - len i) = 2 ^ (m - maxbits) * 2 ^ (maxbits - len i) :=
    fun i hi => by
      have := h.le (mem_range.mp (mem_filter.mp hi).1)
      rw [← pow_add]
      exact congrArg _ (by omega)
  rw [h.coded_eq, sum_congr rfl hsplit, ← mul_sum, h.kraft, ← pow_add]
  exact congrArg _ (by omega)

/-- Two codes of one bit. -/
theorem huffCodes_pair {a b : ℕ} (rest : ℕ → ℕ) (ha : a < n) (hb : b < n) (hab : a ≠ b) (hn : n < 2 ^ 15) :
    let len := fun i => if i = a ∨ i = b then 1 else if i < n then 0 else rest i
    ∃ v, IsCanonical (coded len n) (codeKey len) 15 len v ∧ ∀ code,
      (∀ i < n, huffCodes len n code i = revBits (len i) (v i)) ∧
      PrefixFree (coded len n) len (huffCodes len n code) ∧ Complete (coded len n) len (huffCodes len n code) := by
  intro len
  have hcoded : coded len n = {a, b} := by
    ext i
    rw [mem_coded, mem_insert, mem_singleton]
    constructor
    · rintro ⟨hi, hne⟩
      by_contra hnot
      exact hne ((if_neg hnot).trans (if_pos hi))
    · intro hi
      refine ⟨hi.elim (fun h => h ▸ ha) fun h => h ▸ hb, ?_⟩
      rw [show len i = 1 from if_pos hi]
      exact one_ne_zero
  refine huffCodes_spec (fun i hi => ?_) hn ?_
  · change (if i = a ∨ i = b then 1 else if i < n then 0 else rest i) ≤ 15
    rw [if_pos hi]
    split_ifs <;> omega
  · rw [hcoded, sum_pair hab, show len a = 1 from if_pos (.inl rfl), show len b = 1 from if_pos (.inr rfl)]
    rfl

/-- Whatever the frequencies are, the lengths are found, and they give a canonical code that is prefix-free
and complete. -/
theorem huffLengths_codes (hfreq : ∀ i < n, freq i < 2 ^ 32) (hn : 2 ≤ n)
    (hmax : maxbits = 15 ∧ n ≤ 288 ∨ maxbits = 7 ∧ n ≤ 19) (len : ℕ → ℕ) :
    ∃ len', huffLengths freq n maxbits len = some len' ∧
      (2 ≤ #{i ∈ range n | freq i ≠ 0} → IsLengths freq n maxbits len') ∧
      (∀ a, {i ∈ range n | freq i ≠ 0} = {a} →
        ∀ i < n, len' i = if i = a ∨ i = (if a = 0 then 1 else 0) then 1 else 0) ∧
      ((∀ i < n, freq i = 0) → ∀ i < n, len' i = 0) ∧
      ((∃ i < n, freq i ≠ 0) → ∃ v, IsCanonical (coded len' n) (codeKey len') 15 len' v ∧ ∀ code,
        (∀ i < n, huffCodes len' n code i = revBits (len' i) (v i)) ∧
        PrefixFree (coded len' n) len' (huffCodes len' n code) ∧
        Complete (coded len' n) len' (huffCodes len' n code)) := by
  have hn' : n < 2 ^ 15 := by omega
  obtain hzero | hpos := (#{i ∈ range n | freq i ≠ 0}).eq_zero_or_pos
  · have hall : ∀ i < n, freq i = 0 := fun i hi =>
      not_not.mp (filter_eq_empty_iff.mp (card_eq_zero.mp hzero) (mem_range.mpr hi))
    refine ⟨_, huffLengths_zero hall, fun h => absurd hzero (by omega), fun a ha => ?_, fun _ i hi => if_pos hi,
      fun ⟨i, hi, hu⟩ => absurd (hall i hi) hu⟩
    rw [ha, card_singleton] at hzero
    exact absurd hzero one_ne_zero
  obtain hone | htwo := (Nat.succ_le_of_lt hpos).eq_or_lt
  · obtain ⟨a, ha⟩ := card_eq_one.mp hone.symm
    have hmem : a ∈ {i ∈ range n | freq i ≠ 0} := ha ▸ mem_singleton_self a
    rw [mem_filter, mem_range] at hmem
    have hcodes := huffCodes_pair (b := if a = 0 then 1 else 0) len hmem.1 (by split_ifs <;> omega)
      (by split_ifs <;> omega) hn'
    refine ⟨_, huffLengths_one ha, fun h => absurd h (by omega), fun a' ha' i hi => ?_,
      fun hall => absurd (hall a hmem.1) hmem.2, fun _ => hcodes⟩
    obtain rfl : a = a' := singleton_injective (ha.symm.trans ha')
    rw [if_pos hi]
  · have hroom : 2 ^ (maxbits + 1) * n < 3 ^ (maxbits + 1) := by
      obtain ⟨rfl, hle⟩ | ⟨rfl, hle⟩ := hmax <;> omega
    obtain ⟨len', hlen', h⟩ := @lengthsLoop_spec freq n maxbits 31 htwo hfreq (by omega) (by omega) hroom len 1
    refine ⟨len', hlen', fun _ => h, fun a ha => ?_, fun hall => ?_, fun _ => ?_⟩
    · rw [ha, card_singleton] at htwo
      omega
    · exact fun i hi => h.unused i hi (hall i hi)
    · exact huffCodes_spec (fun i hi => (h.le hi).trans (by omega)) hn' (h.kraft_of_le (by omega))

theorem huffLengths_codes_three : ∃ len', huffLengths (fun i => 2 ^ i) 3 7 (fun _ => 0) = some len' ∧
    IsLengths (fun i => 2 ^ i) 3 7 len' := by
  obtain ⟨len', hlen', hspec, -⟩ := @huffLengths_codes 3 (fun i => 2 ^ i) 7 (by decide) (by decide)
    (by decide) fun _ => 0
  exact ⟨len', hlen', hspec (by decide)⟩

/-- One used symbol: an unused one gets a code as well. -/
theorem huffLengths_unused : ¬ ∀ freq : ℕ → ℕ, (∀ i < 30, freq i < 2 ^ 32) →
    ∃ len', huffLengths freq 30 15 (fun _ => 0) = some len' ∧ ∀ i < 30, freq i = 0 → len' i = 0 := by
  intro hall
  obtain ⟨len', hlen', hunused⟩ := hall (fun i => if i = 0 then 1 else 0) (by decide)
  rw [huffLengths_one (a := 0) (by decide)] at hlen'
  have h0 := hunused 1 (by decide) (by decide)
  rw [← Option.some.inj hlen'] at h0
  exact absurd h0 (by decide)

end BananaOS.Deflate
