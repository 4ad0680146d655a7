import BananaOS.Diskpart.Valid

/-!
# Where a new partition goes

`find_gaps` is `Lib.stretches` with two differences: it stops after eight gaps, and it rounds up in 32
bits, so that from a partition on which ends in the last 2047 sectors below `2^32` every gap begins at
sector 0 (`gapsAll_eq`).

What it works on is the list of `fill`, which has the first sixteen partitions of the table and not the
extended one.  So what a new partition may hit is what the list lacks, `Table.missed`, and sector 0.
`create_harmless_iff` says for which tables it does: those where one of the first eight stretches that
the listed partitions leave holds something missed, or reaches out of the usable area of a GPT that sets
it itself, and those with a partition near `2^32` and fewer than eight stretches before it.
-/

namespace BananaOS.Diskpart

open BananaOS.Lib

/-! ## The order -/

theorem insertPart_concat (l : List Extent) (x p : Extent) :
    insertPart (l ++ [x]) p = if p.base < x.base then insertPart l p ++ [x] else l ++ [x, p] := by
  unfold insertPart
  split_ifs with h
  · rw [List.rdropWhile_concat_pos _ _ _ (by simpa using h),
      List.rtakeWhile_concat_pos _ _ _ (by simpa using h)]
    simp
  · rw [List.rdropWhile_concat_neg _ _ _ (by simpa using h),
      List.rtakeWhile_concat_neg _ _ _ (by simpa using h)]
    simp

theorem insertPart_perm (l : List Extent) (p : Extent) : (insertPart l p).Perm (p :: l) := by
  unfold insertPart
  refine List.perm_middle.trans (List.Perm.cons p ?_)
  rw [List.rdropWhile_append_rtakeWhile]

theorem insertPart_sorted {l : List Extent} (h : l.Pairwise fun p q => p.base ≤ q.base) (p : Extent) :
    (insertPart l p).Pairwise fun p q => p.base ≤ q.base := by
  induction l using List.reverseRecOn with
  | nil => exact List.pairwise_singleton _ _
  | append_singleton l x ih =>
    obtain ⟨hl, -, hx⟩ := List.pairwise_append.1 h
    rw [insertPart_concat]
    split_ifs with hp
    · refine List.pairwise_append.2 ⟨ih hl, List.pairwise_singleton _ _, fun q hq y hy => ?_⟩
      obtain rfl := List.mem_singleton.1 hy
      rcases List.mem_cons.1 ((insertPart_perm l p).mem_iff.1 hq) with rfl | hq
      · exact hp.le
      · exact hx q hq y hy
    · have hle : ∀ q ∈ l ++ [x], q.base ≤ p.base := by
        intro q hq
        rcases List.mem_append.1 hq with hq | hq
        · exact (hx q hq x List.mem_cons_self).trans (not_lt.1 hp)
        · obtain rfl := List.mem_singleton.1 hq
          exact not_lt.1 hp
      have hsplit : l ++ [x, p] = (l ++ [x]) ++ [p] := by simp
      rw [hsplit]
      refine List.pairwise_append.2 ⟨h, List.pairwise_singleton _ _, fun q hq y hy => ?_⟩
      obtain rfl := List.mem_singleton.1 hy
      exact hle q hq

theorem foldl_insertPart (l acc : List Extent) (h : acc.Pairwise fun p q => p.base ≤ q.base) :
    (l.foldl insertPart acc).Perm (l ++ acc) ∧
      (l.foldl insertPart acc).Pairwise fun p q => p.base ≤ q.base := by
  induction l generalizing acc with
  | nil => exact ⟨List.Perm.refl _, h⟩
  | cons p l ih =>
    obtain ⟨hperm, hsort⟩ := ih (insertPart acc p) (insertPart_sorted h p)
    refine ⟨hperm.trans ?_, hsort⟩
    exact ((insertPart_perm acc p).append_left l).trans List.perm_middle

theorem order_perm (l : List Extent) : (order l).Perm l := by
  have h := (foldl_insertPart l [] List.Pairwise.nil).1
  rwa [List.append_nil] at h

theorem order_sorted (l : List Extent) : (order l).Pairwise fun p q => p.base ≤ q.base :=
  (foldl_insertPart l [] List.Pairwise.nil).2

/-- In order, each ends before the next begins, when none is over another. -/
theorem order_stop_le {l : List Extent} (hlen : ∀ p ∈ l, 1 ≤ p.len) (h : l.Pairwise Extent.Apart) :
    (order l).Pairwise fun p q => p.stop ≤ q.base := by
  have hap : (order l).Pairwise Extent.Apart :=
    (order_perm l).symm.pairwise h Extent.Apart.symm
  have hmem : ∀ p ∈ order l, 1 ≤ p.len := fun p hp => hlen p ((order_perm l).mem_iff.1 hp)
  refine (((order_sorted l).and hap).imp_of_mem fun {p q} hp hq hpq => ?_)
  rcases hpq.2 with h | h
  · exact h
  · have hq1 := hmem q hq
    have hle := hpq.1
    unfold Extent.stop at h ⊢
    omega

/-! ## The gaps -/

/-- Above this place the rounding goes round. -/
def top : ℕ := 2 ^ 32 - align

/-- All gaps. -/
def gapsAll (hi : ℕ) : ℕ → List Extent → List Extent
  | a, [] => gapAt a hi
  | a, p :: l =>
    gapAt a p.base ++ gapsAll hi (if a < u32 (p.base + p.len) then u32 (p.base + p.len) else a) l

/-- The loop finds the first eight. -/
theorem gapLoop_eq {hi a : ℕ} {gaps l : List Extent} (h : gaps.length ≤ dpMaxGaps) :
    gapLoop hi a gaps l = (gaps ++ gapsAll hi a l).take dpMaxGaps := by
  have hone : ∀ a stop, (gapAt a stop).length ≤ 1 := by
    intro a stop
    unfold gapAt
    change (if _ then _ else _ : List Extent).length ≤ 1
    split_ifs <;> simp
  have hfull : ∀ r : List Extent, ¬ gaps.length < dpMaxGaps → (gaps ++ r).take dpMaxGaps = gaps := by
    intro r hr
    have hlen : gaps.length = dpMaxGaps := by omega
    rw [← hlen, List.take_left]
  induction l generalizing a gaps with
  | nil =>
    unfold gapLoop gapsAll
    split_ifs with hc
    · refine (List.take_of_length_le ?_).symm
      have := hone a hi
      rw [List.length_append]
      omega
    · exact (hfull _ hc).symm
  | cons p l ih =>
    unfold gapLoop gapsAll
    split_ifs with hc h1 h1
    · have := hone a p.base
      have hlen : (gaps ++ gapAt a p.base).length ≤ dpMaxGaps := by rw [List.length_append]; omega
      change gapLoop hi (if a < u32 (p.base + p.len) then _ else a) (gaps ++ gapAt a p.base) l = _
      rw [if_pos h1, ih hlen, List.append_assoc]
      intro r hr
      have heq : (gaps ++ gapAt a p.base).length = dpMaxGaps := by omega
      rw [← heq, List.take_left]
    · have := hone a p.base
      have hlen : (gaps ++ gapAt a p.base).length ≤ dpMaxGaps := by rw [List.length_append]; omega
      change gapLoop hi (if a < u32 (p.base + p.len) then _ else a) (gaps ++ gapAt a p.base) l = _
      rw [if_neg h1, ih hlen, List.append_assoc]
      intro r hr
      have heq : (gaps ++ gapAt a p.base).length = dpMaxGaps := by omega
      rw [← heq, List.take_left]
    · exact (hfull _ hc).symm
    · exact (hfull _ hc).symm

theorem alignUp_of_top {a : ℕ} (h : top < a) : 2 ^ 32 ≤ alignUp align a := by
  unfold top align at h
  unfold alignUp align
  omega

theorem gapAt_of_le {a stop : ℕ} (h : a ≤ top) : gapAt a stop = stretch align a stop := by
  have hu : u32 (a + align - 1) / align * align = alignUp align a := by
    unfold top align at h
    unfold u32 alignUp align
    rw [Nat.mod_eq_of_lt (by omega), Nat.add_sub_assoc (by omega)]
  unfold gapAt stretch
  rw [hu]

theorem gapAt_of_top {a stop : ℕ} (h : top < a) (ha : a < 2 ^ 32) (hs : a ≤ stop) :
    gapAt a stop = [⟨0, stop⟩] := by
  have hz : u32 (a + align - 1) / align * align = 0 := by
    unfold top align at h
    unfold u32 align
    have hm : (a + 2048 - 1) % 2 ^ 32 < 2048 := by omega
    rw [Nat.div_eq_of_lt hm, Nat.zero_mul]
  have hal : align ≤ stop := by
    unfold top align at h
    unfold align
    omega
  unfold gapAt
  rw [hz]
  change (if 0 < stop ∧ align ≤ stop - 0 then [(⟨0, stop - 0⟩ : Extent)] else []) = _
  rw [if_pos ⟨by omega, hal⟩]
  rfl

variable {hi : ℕ} {l : List Extent}

theorem u32_stop {p : Extent} (h : p.stop ≤ hi) (hhi : hi < 2 ^ 32) (a : ℕ) :
    (if a < u32 (p.base + p.len) then u32 (p.base + p.len) else a) = max a p.stop := by
  have hu : u32 (p.base + p.len) = p.stop := Nat.mod_eq_of_lt (h.trans_lt hhi)
  rw [hu, max_def_lt]

/-- Once a partition ends above the top, all gaps begin at sector 0, and there is one. -/
theorem gapsAll_of_top {a : ℕ} (ha : top < a) (hahi : a ≤ hi) (hhi : hi < 2 ^ 32)
    (hl : ∀ p ∈ l, a ≤ p.base ∧ p.stop ≤ hi) (hsort : l.Pairwise fun p q => p.stop ≤ q.base) :
    gapsAll hi a l ≠ [] ∧ ∀ g ∈ gapsAll hi a l, g.base = 0 := by
  induction l generalizing a with
  | nil =>
    rw [gapsAll, gapAt_of_top ha (by omega) hahi]
    refine ⟨List.cons_ne_nil _ _, fun g hg => ?_⟩
    obtain rfl := List.mem_singleton.1 hg
    rfl
  | cons p l ih =>
    obtain ⟨hp, hrest⟩ := List.pairwise_cons.1 hsort
    obtain ⟨hpa, hphi⟩ := hl p List.mem_cons_self
    have hps : p.base ≤ p.stop := Nat.le_add_right _ _
    obtain ⟨-, hzero⟩ := ih (a := max a p.stop) (by omega) (by omega)
      (fun q hq => ⟨max_le ((hl q (List.mem_cons_of_mem _ hq)).1) (hp q hq),
        (hl q (List.mem_cons_of_mem _ hq)).2⟩) hrest
    rw [gapsAll, gapAt_of_top ha (by omega) hpa, u32_stop hphi hhi]
    refine ⟨List.cons_ne_nil _ _, fun g hg => ?_⟩
    rcases List.mem_cons.1 hg with rfl | hg
    · rfl
    · exact hzero g hg

/-- **The gaps are the stretches**, and gaps from sector 0 on behind them if a partition ends above the
top. -/
theorem gapsAll_eq {a : ℕ} (hhi : hi < 2 ^ 32) (hl : ∀ p ∈ l, p.stop ≤ hi)
    (hsort : l.Pairwise fun p q => p.stop ≤ q.base)
    (ha : a ≤ align ∨ a ≤ hi ∧ ∀ p ∈ l, a ≤ p.base) :
    ∃ extra, gapsAll hi a l = stretches align hi a l ++ extra ∧ (∀ g ∈ extra, g.base = 0) ∧
      (extra = [] ↔ a ≤ top ∧ ∀ p ∈ l, p.stop ≤ top) := by
  have hbase : ∀ p ∈ l, p.base ≤ hi := fun p hp => (Nat.le_add_right _ _).trans (hl p hp)
  have htop : align ≤ top := by decide
  by_cases hat : top < a
  · -- the rounding goes round at once
    obtain ⟨hahi, hal⟩ : a ≤ hi ∧ ∀ p ∈ l, a ≤ p.base := ha.resolve_left (by omega)
    obtain ⟨hne, hzero⟩ := gapsAll_of_top hat hahi hhi (fun p hp => ⟨hal p hp, hl p hp⟩) hsort
    have hnil : stretches align hi a l = [] := stretches_eq_nil
      (hhi.le.trans (alignUp_of_top hat)) hbase
    exact ⟨gapsAll hi a l, by rw [hnil, List.nil_append], hzero,
      ⟨fun h => absurd h hne, fun h => absurd h.1 (by omega)⟩⟩
  · induction l generalizing a with
    | nil =>
      refine ⟨[], ?_, fun g hg => absurd hg List.not_mem_nil, ?_⟩
      · rw [gapsAll, stretches, gapAt_of_le (by omega), List.append_nil]
      · exact iff_of_true rfl ⟨by omega, fun p hp => absurd hp List.not_mem_nil⟩
    | cons p l ih =>
      obtain ⟨hp, hrest⟩ := List.pairwise_cons.1 hsort
      have hphi := hl p List.mem_cons_self
      have hl' : ∀ q ∈ l, q.stop ≤ hi := fun q hq => hl q (List.mem_cons_of_mem _ hq)
      have hbase' : ∀ q ∈ l, q.base ≤ hi := fun q hq => hbase q (List.mem_cons_of_mem _ hq)
      rw [gapsAll, stretches, gapAt_of_le (by omega), u32_stop hphi hhi]
      by_cases hpt : top < p.stop
      · have hmax : max a p.stop = p.stop := max_eq_right (by omega)
        obtain ⟨hne, hzero⟩ := gapsAll_of_top hpt hphi hhi (fun q hq => ⟨hp q hq, hl' q hq⟩) hrest
        have hnil : stretches align hi p.stop l = [] := stretches_eq_nil
          (hhi.le.trans (alignUp_of_top hpt)) hbase'
        rw [hmax]
        refine ⟨gapsAll hi p.stop l, by rw [hnil, List.append_nil], hzero, ?_⟩
        exact ⟨fun h => absurd h hne, fun h => absurd (h.2 p List.mem_cons_self) (by omega)⟩
      · have hnext : max a p.stop ≤ align ∨ max a p.stop ≤ hi ∧ ∀ q ∈ l, max a p.stop ≤ q.base := by
          rcases ha with ha | ⟨hahi, hal⟩
          · rcases le_total p.stop align with h | h
            · exact .inl (max_le ha h)
            · exact .inr ⟨by omega, fun q hq => max_le ((ha.trans h).trans (hp q hq)) (hp q hq)⟩
          · exact .inr ⟨max_le hahi hphi, fun q hq =>
              max_le (hal q (List.mem_cons_of_mem _ hq)) (hp q hq)⟩
        obtain ⟨extra, heq, hzero, hiff⟩ := ih hl' hrest hnext hbase' (by omega)
        refine ⟨extra, by rw [heq, List.append_assoc], hzero, hiff.trans ?_⟩
        rw [List.forall_mem_cons, max_le_iff, and_assoc]

/-! ## What a new partition may hit -/

namespace Table

variable (t : Table)

/-- The partitions the code lists. -/
def listedParts : List Extent := t.parts.take t.listed

/-- What the table says beyond that. -/
def missed : List Extent := t.parts.drop t.listed ++ t.others

/-- The stretches of a MiB or more, from a MiB boundary on, that the listed partitions leave between
the first MiB and the end of the disk, or the backup of a GPT. -/
def free (sectors : ℕ) : List Extent :=
  if sectors < 2 * align then []
  else stretches align (usableEnd t.scheme sectors) align (order t.listedParts)

/-- Nothing on the disk is hit. -/
def Harmless (e : Extent) : Prop := e.Within t.usable ∧ ∀ r ∈ t.parts ++ t.others, e.Apart r

/-- The whole MiBs of the first eight stretches hold nothing that the list lacks, and no partition that
is listed ends above the top, unless there are eight stretches below it. -/
structure Spared (sectors : ℕ) : Prop where
  low : (∀ p ∈ t.listedParts, p.stop ≤ top) ∨ dpMaxGaps ≤ (t.free sectors).length
  clear : ∀ s ∈ (t.free sectors).take dpMaxGaps,
    (s.whole align).Within t.usable ∧ ∀ r ∈ t.missed, (s.whole align).Apart r

variable {t} {sectors : ℕ}

theorem Harmless.mono {e e' : Extent} (h : t.Harmless e) (he : e'.Within e) : t.Harmless e' :=
  ⟨he.trans h.1, fun r hr => (h.2 r hr).mono he⟩

theorem mem_parts_or_missed {r : Extent} (h : r ∈ t.parts ++ t.others) :
    r ∈ t.listedParts ∨ r ∈ t.missed := by
  have hsplit : t.parts = t.listedParts ++ t.parts.drop t.listed := (List.take_append_drop _ _).symm
  rw [hsplit, List.append_assoc] at h
  exact List.mem_append.1 h

theorem missed_subset {r : Extent} (h : r ∈ t.missed) : r ∈ t.parts ++ t.others := by
  rcases List.mem_append.1 h with h | h
  · exact List.mem_append_left _ (List.mem_of_mem_drop h)
  · exact List.mem_append_right _ h

namespace Sound

variable (hs : t.Sound sectors)
include hs

theorem listed_facts : ∀ p ∈ t.listedParts, 1 ≤ p.len ∧ p.stop ≤ usableEnd t.scheme sectors :=
  fun p hp => have h := hs.parts p (List.mem_of_mem_take hp); ⟨h.1, h.2.2⟩

theorem order_facts : ∀ p ∈ order t.listedParts, p.stop ≤ usableEnd t.scheme sectors :=
  fun p hp => (hs.listed_facts p ((order_perm _).mem_iff.1 hp)).2

theorem order_sep : (order t.listedParts).Pairwise fun p q => p.stop ≤ q.base :=
  order_stop_le (fun p hp => (hs.listed_facts p hp).1) (hs.apart.sublist (List.take_sublist _ _))

/-- **A free stretch meets no listed partition.** -/
theorem free_apart {s : Extent} (h : s ∈ t.free sectors) {p : Extent} (hp : p ∈ t.listedParts) :
    s.Apart p := by
  have hbase : ∀ p ∈ order t.listedParts, p.base ≤ usableEnd t.scheme sectors :=
    fun p hp => (Nat.le_add_right _ _).trans (hs.order_facts p hp)
  unfold free at h
  split_ifs at h
  · exact absurd h List.not_mem_nil
  · exact apart_of_mem_stretches (by decide) (order_sorted _) h ((order_perm _).mem_iff.2 hp) hbase

theorem free_len {s : Extent} (h : s ∈ t.free sectors) : align ≤ s.len := by
  have hbase : ∀ p ∈ order t.listedParts, p.base ≤ usableEnd t.scheme sectors :=
    fun p hp => (Nat.le_add_right _ _).trans (hs.order_facts p hp)
  unfold free at h
  split_ifs at h
  · exact absurd h List.not_mem_nil
  · exact (mem_stretches (by decide) hbase h).2.2

theorem harmless_iff {s : Extent} (h : s ∈ t.free sectors) :
    t.Harmless (s.whole align) ↔
      (s.whole align).Within t.usable ∧ ∀ r ∈ t.missed, (s.whole align).Apart r := by
  refine and_congr_right fun _ => ⟨fun hall r hr => hall r (missed_subset hr), fun hmiss r hr => ?_⟩
  rcases mem_parts_or_missed hr with hr | hr
  · exact (hs.free_apart h hr).mono (Extent.whole_within _ _)
  · exact hmiss r hr

/-- **The gaps that `find_gaps` finds.** -/
theorem findGaps_eq (hsch : t.scheme ≠ .none) (hsec : sectors < 2 ^ 32) :
    ∃ extra, findGaps t.scheme sectors t.listedParts = (t.free sectors ++ extra).take dpMaxGaps ∧
      (∀ g ∈ extra, g.base = 0) ∧ (extra = [] ↔ ∀ p ∈ t.listedParts, p.stop ≤ top) := by
  have hend : usableEnd t.scheme sectors ≤ sectors := by
    unfold usableEnd
    split_ifs <;> omega
  unfold findGaps free
  rw [if_neg fun h => hsch h.1]
  by_cases hsmall : sectors < 2 * align
  · -- too small for a gap, and for a partition above the top
    rw [if_pos hsmall, if_pos hsmall]
    refine ⟨[], rfl, fun g hg => absurd hg List.not_mem_nil, iff_of_true rfl fun p hp => ?_⟩
    have h := (hs.listed_facts p hp).2
    have htop : 2 * align ≤ top := by decide
    omega
  · rw [if_neg hsmall, if_neg hsmall, gapLoop_eq (Nat.zero_le _), List.nil_append]
    obtain ⟨extra, heq, hzero, hiff⟩ := gapsAll_eq (a := align) (hend.trans_lt hsec)
      hs.order_facts hs.order_sep (.inl le_rfl)
    refine ⟨extra, by rw [heq], hzero, hiff.trans ?_⟩
    have htop : align ≤ top := by decide
    exact ⟨fun h p hp => h.2 p ((order_perm _).mem_iff.2 hp),
      fun h => ⟨htop, fun p hp => h p ((order_perm _).mem_iff.1 hp)⟩⟩

end Sound

end Table

/-! ## A new partition -/

theorem sizeFor_zero {room : ℕ} (h : align ≤ room) : sizeFor room 0 = room / align * align := by
  simp [sizeFor, h]

theorem sizeFor_le {room : ℕ} (h : align ≤ room) (sectors : ℕ) :
    1 ≤ sizeFor room sectors ∧ sizeFor room sectors ≤ room / align * align := by
  have halign : align = 2048 := rfl
  unfold sizeFor
  rw [halign] at h ⊢
  by_cases hc : sectors = 0 ∨ room < sectors
  · rw [if_pos hc]
    change 1 ≤ (if 2048 ≤ room then _ else _) ∧ (if 2048 ≤ room then _ else _) ≤ _
    rw [if_pos h]
    omega
  · rw [if_neg hc]
    change 1 ≤ (if 2048 ≤ sectors then _ else _) ∧ (if 2048 ≤ sectors then _ else _) ≤ _
    split_ifs <;> omega

variable {bd : Blockdev} {f : Drive} {t : Table}

/-- **What a call creates** comes out of a gap of `fill`, on a disk that takes it. -/
theorem dpCreate_ok (h : Describes bd t) {init : Except String (DpDisk × Blockdev)} {gap : ℤ}
    {sectors : ℕ} {c : Created} (hc : dpCreate init (fill f bd) bd gap sectors = .ok c) :
    Takes f bd ∧ ∃ g ∈ (fill f bd).gaps, c.extent = ⟨g.base, sizeFor g.len sectors⟩ := by
  unfold dpCreate at hc
  rcases hw : checkWritable (fill f bd) bd with e | _
  · rw [hw] at hc
    cases hc
  rw [hw] at hc
  change (if (fill f bd).scheme = .none then _ else _) = _ at hc
  obtain ⟨hcd, hp⟩ := checkWritable_ok hw
  by_cases hn : (fill f bd).scheme = .none
  · have hncd : ¬ f.cdrom := by
      intro hf
      unfold fill at hcd
      rw [if_pos hf] at hcd
      exact Bool.false_ne_true (hcd.symm.trans hf)
    rw [if_pos hn, if_pos (parts_ne_nil h hp hncd hn)] at hc
    cases hc
  rw [if_neg hn] at hc
  unfold createIn at hc
  rcases hg : (if 0 ≤ gap then (fill f bd).gaps[gap.toNat]? else none) with _ | g
  · rw [hg] at hc
    cases hc
  rw [hg] at hc
  rcases hs : freeSlot (fill f bd).scheme bd with e | slot
  · simp only [hs] at hc
    cases hc
  simp only [hs] at hc
  cases hc
  refine ⟨⟨hw, hn, slot, hs⟩, g, ?_, rfl⟩
  split_ifs at hg
  exact List.mem_of_getElem? hg

/-- A disk that takes a partition makes one in every gap. -/
theorem Takes.dpCreate_gap (ht : Takes f bd) (init : Except String (DpDisk × Blockdev)) {g : Extent}
    (hg : g ∈ (fill f bd).gaps) (sectors : ℕ) :
    ∃ gap c, dpCreate init (fill f bd) bd gap sectors = .ok c ∧
      c.extent = ⟨g.base, sizeFor g.len sectors⟩ := by
  obtain ⟨i, hi⟩ := List.getElem?_of_mem hg
  obtain ⟨slot, hs⟩ := ht.slot
  refine ⟨i, ⟨slot + 1, g.base, sizeFor g.len sectors⟩, ?_, rfl⟩
  unfold dpCreate
  rw [ht.writable]
  change (if (fill f bd).scheme = .none then _ else _) = _
  rw [if_neg ht.scheme]
  unfold createIn
  rw [if_pos (Int.natCast_nonneg i), Int.toNat_natCast, hi]
  simp only [hs]

/-- **Creating a partition destroys nothing exactly on the tables that are spared**, of those that take
a partition at all: whatever the gap and the size that are asked for, the sectors that are written into
the table and formatted lie in the usable area and meet no partition, not the extended one nor its boot
records, and neither the table nor its backup. -/
theorem create_harmless_iff (h : Describes bd t) (hsec : bd.sectors < 2 ^ 32) (f : Drive) :
    (∀ (init : Except String (DpDisk × Blockdev)) (gap : ℤ) (sectors : ℕ),
        ∀ c, dpCreate init (fill f bd) bd gap sectors = .ok c → t.Harmless c.extent) ↔
      (Takes f bd → t.Spared bd.sectors) := by
  have hsound := h.sound
  constructor
  · intro hall ht
    obtain ⟨hscheme, hgaps⟩ := ht.fill_table h hsec
    obtain ⟨extra, hfind, hzero, hnil⟩ := hsound.findGaps_eq (hscheme ▸ ht.scheme) hsec
    rw [Table.listedParts] at hfind
    rw [hfind] at hgaps
    -- every gap is formatted by some call
    have hgap : ∀ g ∈ (t.free bd.sectors ++ extra).take dpMaxGaps,
        t.Harmless ⟨g.base, sizeFor g.len 0⟩ := by
      intro g hg
      obtain ⟨gap, c, hc, he⟩ := ht.dpCreate_gap (.error "") (hgaps ▸ hg) 0
      exact he ▸ hall _ gap 0 c hc
    constructor
    · by_contra hlow
      rw [not_or, Nat.not_le] at hlow
      obtain ⟨hhigh, hfew⟩ := hlow
      rcases hex : extra with _ | ⟨g, rest⟩
      · exact hhigh (hnil.1 hex)
      · have hmem : g ∈ (t.free bd.sectors ++ extra).take dpMaxGaps := by
          rw [hex, List.take_append]
          refine List.mem_append_right _ ?_
          obtain ⟨k, hk⟩ : ∃ k, dpMaxGaps - (t.free bd.sectors).length = k + 1 :=
            ⟨dpMaxGaps - (t.free bd.sectors).length - 1, by omega⟩
          rw [hk, List.take_succ_cons]
          exact List.mem_cons_self
        have hb := (hgap g hmem).1.1
        have hz : g.base = 0 := hzero g (hex ▸ List.mem_cons_self)
        have hu := hsound.usable
        change t.usable.base ≤ g.base at hb
        omega
    · intro s hs
      have hfree := List.mem_of_mem_take hs
      have hmem : s ∈ (t.free bd.sectors ++ extra).take dpMaxGaps := by
        rw [List.take_append]
        exact List.mem_append_left _ hs
      have hharm := hgap s hmem
      rw [sizeFor_zero (hsound.free_len hfree)] at hharm
      exact (hsound.harmless_iff hfree).1 hharm
  · intro hspared init gap sectors c hc
    obtain ⟨ht, g, hg, he⟩ := dpCreate_ok h hc
    obtain ⟨hscheme, hgaps⟩ := ht.fill_table h hsec
    obtain ⟨extra, hfind, hzero, hnil⟩ := hsound.findGaps_eq (hscheme ▸ ht.scheme) hsec
    rw [Table.listedParts] at hfind
    rw [hgaps, hfind, List.take_append] at hg
    have hsp := hspared ht
    have hmem : g ∈ (t.free bd.sectors).take dpMaxGaps := by
      rcases List.mem_append.1 hg with hg | hg
      · exact hg
      · -- no gap from sector 0 on is among the first eight
        exfalso
        rcases hsp.low with hlow | hmany
        · rw [hnil.2 hlow, List.take_nil] at hg
          exact absurd hg List.not_mem_nil
        · rw [Nat.sub_eq_zero_of_le hmany, List.take_zero] at hg
          exact absurd hg List.not_mem_nil
    have hfree := List.mem_of_mem_take hmem
    have hharm := (hsound.harmless_iff hfree).2 (hsp.clear g hmem)
    refine hharm.mono ?_
    rw [he]
    exact ⟨le_rfl, Nat.add_le_add_left (sizeFor_le (hsound.free_len hfree) sectors).2 _⟩

/-! ## A disk that is not spared -/

/-- An MBR with one entry, an extended partition of 4 MiB at the first MiB. -/
def extMbr : Bytes :=
  List.replicate 446 0 ++
    [0, 0xFE, 0xFF, 0xFF, 0x05, 0xFE, 0xFF, 0xFF, 0, 8, 0, 0, 0, 0x20, 0, 0] ++
      List.replicate 48 0 ++ [0x55, 0xAA]

/-- A boot record with no logical partition yet. -/
def extRecord : Bytes := List.replicate 510 0 ++ [0x55, 0xAA]

/-- The disk, of 8 MiB. -/
def extDisk : Blockdev where
  present := true
  sectors := 16384
  read := fun i =>
    some (if i = 0 then extMbr else if i = 2048 then extRecord else List.replicate 512 0)

def extSays : Mbr := ⟨[], some ⟨2048, 8192⟩, [(2048, none)]⟩

def extDrive : Drive := ⟨false, false, true⟩

theorem extSays_valid : extSays.Valid extDisk extMbr where
  read := rfl
  signed := by decide +kernel
  plain := by decide +kernel
  prims := by decide +kernel
  ext := by decide +kernel
  chain := by
    intro e he
    obtain rfl : (⟨2048, 8192⟩ : Extent) = e := Option.some.inj he
    have hl : logical 2048 extRecord = none := by decide +kernel
    have hn : nextRecord 2048 extRecord = 0 := by decide +kernel
    have h : Chain extDisk 2048 2048 [(2048, logical 2048 extRecord)] :=
      .record (by decide) rfl (by decide +kernel) (hn ▸ .stop)
    rwa [hl] at h
  noChain := fun h => absurd h (by decide)
  some_len := by decide
  inside := by decide
  apart := by decide
  within := by decide
  apartIn := by decide

theorem dpCreate_ext :
    (dpCreate (.error "") (fill extDrive extDisk) extDisk 0 0).toOption =
      some ⟨2, ⟨2048, 14336⟩⟩ := by
  decide +kernel

/-- **The extended partition is free space to the code**: on a disk whose only partition it is, with no
logical one in it yet, a new partition is put over it. -/
theorem created_over_extended :
    ¬ ∀ (bd : Blockdev) (t : Table) (f : Drive), Describes bd t → bd.sectors < 2 ^ 32 →
      ∀ (init : Except String (DpDisk × Blockdev)) (gap : ℤ) (sectors : ℕ),
        ∀ c, dpCreate init (fill f bd) bd gap sectors = .ok c → t.Harmless c.extent := by
  intro h
  rcases hc : dpCreate (.error "") (fill extDrive extDisk) extDisk 0 0 with e | c
  · have := dpCreate_ext
    rw [hc] at this
    cases this
  · have hce := dpCreate_ext
    rw [hc] at hce
    obtain rfl := Option.some.inj hce
    have hharm := h extDisk _ extDrive (.mbr extSays_valid) (by decide) _ _ _ _ hc
    exact absurd (hharm.2 ⟨2048, 8192⟩ (by decide)) (by decide)

theorem create_harmless_iff_ext :
    (∀ (init : Except String (DpDisk × Blockdev)) (gap : ℤ) (sectors : ℕ),
        ∀ c, dpCreate init (fill extDrive extDisk) extDisk gap sectors = .ok c →
          (extSays.table 16384).Harmless c.extent) ↔
      (Takes extDrive extDisk → (extSays.table 16384).Spared 16384) :=
  create_harmless_iff (.mbr extSays_valid) (by decide) extDrive

end BananaOS.Diskpart
