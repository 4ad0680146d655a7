import BananaOS.Diskpart.Table

/-!
# What a table says

What lies where on a disk with a table, read off its sectors by the rules of the two formats and with
all their bits: the primary and the logical partitions, the extended partition and its chain of boot
records, the entries of a GPT and their backup.  `Table` is the outcome, and the code has no part in it,
but for `listed`: how many of the partitions come first, up to sixteen of them and up to the
sixty-fourth boot record.  `parts_of_table` says that those are the ones the code lists.

A table is valid when its partitions lie on the disk and none is over another, logical ones with their
boot records within the extended partition; the partitions of a GPT lie in its usable area, and its
entries, for which 16 KiB are set aside at least, outside of it on either side.
-/

namespace BananaOS.Diskpart

open BananaOS.Lib

/-- What a table says. -/
structure Table where
  scheme : Scheme
  /-- the sectors that partitions may have -/
  usable : Extent
  /-- the primary partitions, then the logical ones -/
  parts : List Extent
  /-- how many of them come first -/
  listed : ℕ
  /-- the table itself, its backup, the extended partition and the boot records in it -/
  others : List Extent

/-! ## MBR -/

/-- The entries of an MBR of some types. -/
def slots (b : Bytes) (want : ℕ → Bool) (l : List ℕ) : List Extent :=
  (l.filter fun i => want (byteAt b (446 + i * 16 + 4))).map fun i =>
    ⟨rd32 b (446 + i * 16 + 8), rd32 b (446 + i * 16 + 12)⟩

/-- A partition of its own. -/
def isPrimary (type : ℕ) : Bool := type ≠ 0 ∧ ¬ isExtended type

/-- The logical partition of the boot record `b` at `ebr`. -/
def logical (ebr : ℕ) (b : Bytes) : Option Extent :=
  if byteAt b 450 ≠ 0 then some ⟨ebr + rd32 b 454, rd32 b 458⟩ else none

/-- Where the next boot record is; zero for none. -/
def nextRecord (base : ℕ) (b : Bytes) : ℕ :=
  if byteAt b 466 ≠ 0 ∧ rd32 b 470 ≠ 0 then base + rd32 b 470 else 0

/-- The chain of boot records in the extended partition at `base`, each with its logical partition. -/
inductive Chain (bd : Blockdev) (base : ℕ) : ℕ → List (ℕ × Option Extent) → Prop
  | stop : Chain bd base 0 []
  | record {ebr : ℕ} {b : Bytes} {l : List (ℕ × Option Extent)} :
      ebr ≠ 0 → bd.read ebr = some b → signed b → Chain bd base (nextRecord base b) l →
        Chain bd base ebr ((ebr, logical ebr b) :: l)

/-- What an MBR says. -/
structure Mbr where
  prims : List Extent
  ext : Option Extent
  chain : List (ℕ × Option Extent)

namespace Mbr

variable (m : Mbr)

/-- The boot records. -/
def records : List Extent := m.chain.map fun r => ⟨r.1, 1⟩

/-- The logical partitions. -/
def logicals : List Extent := m.chain.filterMap Prod.snd

/-- The MBR `b` of a drive says `m`, and that can be. -/
structure Valid (bd : Blockdev) (b : Bytes) : Prop where
  read : bd.read 0 = some b
  signed : signed b
  plain : protective b = false
  prims : m.prims = slots b isPrimary (List.range 4)
  ext : m.ext.toList = slots b isExtended (List.range 4)
  chain : ∀ e ∈ m.ext, Chain bd e.base e.base m.chain
  noChain : m.ext = none → m.chain = []
  some_len : ∀ e ∈ m.prims ++ m.ext.toList ++ m.logicals, 1 ≤ e.base ∧ 1 ≤ e.len
  inside : ∀ e ∈ m.prims ++ m.ext.toList, e.stop ≤ bd.sectors
  apart : (m.prims ++ m.ext.toList).Pairwise Extent.Apart
  within : ∀ e ∈ m.records ++ m.logicals, ∃ x ∈ m.ext, e.Within x
  apartIn : (m.records ++ m.logicals).Pairwise Extent.Apart

/-- The table. -/
def table (sectors : ℕ) : Table where
  scheme := .mbr
  usable := ⟨1, sectors - 1⟩
  parts := m.prims ++ m.logicals
  listed := min dpMaxParts (m.prims.length + ((m.chain.take 64).filterMap Prod.snd).length)
  others := ⟨0, 1⟩ :: m.ext.toList ++ m.records

end Mbr

/-! ## GPT -/

/-- The `i`-th entry of a GPT with the header `h`: its sector. -/
def gptSector (bd : Blockdev) (h : Bytes) (i : ℕ) : Option Bytes :=
  bd.read (rd64 h 72 + i * rd32 h 84 / 512)

/-- The partition of an entry. -/
def gptPart (bd : Blockdev) (h : Bytes) (i : ℕ) : Option Extent :=
  (gptSector bd h i).bind fun b =>
    let o := i * rd32 h 84 % 512
    if empty16 b o then none else some ⟨rd64 b (o + 32), rd64 b (o + 40) + 1 - rd64 b (o + 32)⟩

/-- What a GPT says. -/
structure Gpt where
  usable : Extent
  entries : Extent
  backup : Extent
  /-- where the backup's header is -/
  alt : ℕ
  parts : List Extent

namespace Gpt

variable (g : Gpt)

/-- The GPT of a drive, with the protective MBR `b` and the headers `h` and `h'`, says `g`, and that
can be. -/
structure Valid (bd : Blockdev) (b h h' : Bytes) : Prop where
  read : bd.read 0 = some b
  signed : signed b
  protective : protective b
  header : bd.read 1 = some h
  name : rd64 h 0 = efiPart
  count : rd32 h 80 ≤ 128
  entries : g.entries = ⟨rd64 h 72, max gptSecs ((rd32 h 80 * rd32 h 84 + 511) / 512)⟩
  usable : g.usable.base = rd64 h 40 ∧ g.usable.stop = rd64 h 48 + 1
  alt : g.alt = rd64 h 32
  backup : bd.read g.alt = some h' ∧ g.backup = ⟨rd64 h' 72, g.entries.len⟩
  readable : ∀ i < rd32 h 80, (gptSector bd h i).isSome
  parts : g.parts = (List.range (rd32 h 80)).filterMap (gptPart bd h)
  inside : ∀ e ∈ g.parts, 1 ≤ e.len ∧ e.Within g.usable
  apart : g.parts.Pairwise Extent.Apart
  front : 2 ≤ g.entries.base ∧ g.entries.stop ≤ g.usable.base
  back : g.usable.stop ≤ g.backup.base ∧ g.backup.stop ≤ g.alt ∧ g.alt < bd.sectors

/-- The table. -/
def table : Table where
  scheme := .gpt
  usable := g.usable
  parts := g.parts
  listed := dpMaxParts
  others := [⟨0, 1⟩, ⟨1, 1⟩, g.entries, g.backup, ⟨g.alt, 1⟩]

end Gpt

/-- **A drive has a valid table that says `t`.** -/
inductive Describes (bd : Blockdev) : Table → Prop
  | mbr {m : Mbr} {b : Bytes} : m.Valid bd b → Describes bd (m.table bd.sectors)
  | gpt {g : Gpt} {b h h' : Bytes} : g.Valid bd b h h' → Describes bd g.table

/-! ## What the code lists of an MBR -/

variable {bd : Blockdev} {b : Bytes} {max : ℕ}

theorem addPart_of_lt {out : List VolPart} (h : out.length < max) (number : ℕ) (e : Extent) :
    addPart out max number e = out ++ [⟨number, e⟩] :=
  if_neg (Nat.not_le.2 h)

/-- The entries of the MBR, one after the other. -/
theorem foldl_mbrEntry {l : List ℕ} (s : ℕ × List VolPart) (hs : s.2.length + l.length ≤ max)
    (hv : ∀ e ∈ slots b (fun t => t ≠ 0) l, e.base ≠ 0 ∧ e.base < bd.sectors) :
    ((l.foldl (mbrEntry bd max b) s).2.map VolPart.extent = s.2.map VolPart.extent ++ slots b isPrimary l) ∧
      (l.foldl (mbrEntry bd max b) s).1 =
        if s.1 = 0 then ((slots b isExtended l).head?.map Extent.base).getD 0 else s.1 := by
  induction l generalizing s with
  | nil =>
    refine ⟨(List.append_nil _).symm, ?_⟩
    split_ifs with h
    · exact h
    · rfl
  | cons i l ih =>
    rw [List.length_cons] at hs
    have hv' : ∀ e ∈ slots b (fun t => t ≠ 0) l, e.base ≠ 0 ∧ e.base < bd.sectors := by
      intro e he
      refine hv e ?_
      obtain ⟨j, hj, rfl⟩ := List.mem_map.1 he
      obtain ⟨hjl, hjt⟩ := List.mem_filter.1 hj
      exact List.mem_map.2 ⟨j, List.mem_filter.2 ⟨List.mem_cons_of_mem _ hjl, hjt⟩, rfl⟩
    rw [List.foldl_cons]
    by_cases ht : byteAt b (446 + i * 16 + 4) = 0
    · -- an empty entry
      have hstep : mbrEntry bd max b s i = s := if_pos (.inl ht)
      have hp : slots b isPrimary (i :: l) = slots b isPrimary l := by
        simp [slots, ht, isPrimary]
      have he : slots b isExtended (i :: l) = slots b isExtended l := by
        simp [slots, ht, isExtended]
      rw [hstep, hp, he]
      exact ih s (by omega) hv'
    obtain ⟨hz, hlt⟩ := hv ⟨rd32 b (446 + i * 16 + 8), rd32 b (446 + i * 16 + 12)⟩ <| by
      simp [slots, ht]
    change rd32 b (446 + i * 16 + 8) ≠ 0 at hz
    change rd32 b (446 + i * 16 + 8) < bd.sectors at hlt
    have hgo : ¬ (byteAt b (446 + i * 16 + 4) = 0 ∨ rd32 b (446 + i * 16 + 8) = 0 ∨
        bd.sectors ≤ rd32 b (446 + i * 16 + 8)) := by
      rintro (h | h | h)
      · exact ht h
      · exact hz h
      · omega
    by_cases hx : isExtended (byteAt b (446 + i * 16 + 4))
    · have hstep : mbrEntry bd max b s i =
          (if s.1 = 0 then rd32 b (446 + i * 16 + 8) else s.1, s.2) := by
        unfold mbrEntry
        rw [if_neg hgo, if_pos hx]
      have hp : slots b isPrimary (i :: l) = slots b isPrimary l := by
        simp [slots, isPrimary, hx]
      obtain ⟨ih1, ih2⟩ := ih (mbrEntry bd max b s i) (by rw [hstep]; change s.2.length + l.length ≤ max; omega)
        hv'
      rw [hp, ih1, ih2, hstep]
      refine ⟨rfl, ?_⟩
      have he : slots b isExtended (i :: l) =
          ⟨rd32 b (446 + i * 16 + 8), rd32 b (446 + i * 16 + 12)⟩ :: slots b isExtended l := by
        simp [slots, hx]
      rw [he]
      by_cases h0 : s.1 = 0
      · simp [h0, hz]
      · simp [h0]
    · have hstep : mbrEntry bd max b s i =
          (s.1, s.2 ++ [⟨i + 1, ⟨rd32 b (446 + i * 16 + 8), rd32 b (446 + i * 16 + 12)⟩⟩]) := by
        unfold mbrEntry
        rw [if_neg hgo, if_neg hx, addPart_of_lt (by omega)]
      have hp : slots b isPrimary (i :: l) =
          ⟨rd32 b (446 + i * 16 + 8), rd32 b (446 + i * 16 + 12)⟩ :: slots b isPrimary l := by
        simp [slots, isPrimary, hx, ht]
      have he : slots b isExtended (i :: l) = slots b isExtended l := by
        simp [slots, hx]
      obtain ⟨ih1, ih2⟩ := ih (mbrEntry bd max b s i)
        (by rw [hstep, List.length_append, List.length_singleton]; omega) hv'
      rw [hp, he, ih1, ih2, hstep]
      exact ⟨by simp, rfl⟩

theorem Chain.lt {base ebr : ℕ} {l : List (ℕ × Option Extent)} (h : Chain bd base ebr l) (hz : ebr ≠ 0)
    (hlt : ∀ r ∈ l, r.1 < bd.sectors) : ebr < bd.sectors := by
  rcases h with _ | ⟨-, -, -, -⟩
  · exact absurd rfl hz
  · exact hlt _ List.mem_cons_self

/-- The sector numbers of logical partitions count from their boot record. -/
theorem Chain.le_logical {base ebr : ℕ} {l : List (ℕ × Option Extent)} (h : Chain bd base ebr l)
    {r : ℕ × Option Extent} (hr : r ∈ l) {e : Extent} (he : e ∈ r.2) : r.1 ≤ e.base := by
  induction h with
  | stop => exact absurd hr List.not_mem_nil
  | @record ebr b l _ _ _ _ ih =>
    rcases List.mem_cons.1 hr with rfl | hr
    · change logical ebr b = some e at he
      unfold logical at he
      split_ifs at he
      obtain rfl := Option.some.inj he
      exact Nat.le_add_right _ _
    · exact ih hr

/-- **The chain of boot records**, as far as the guard and the room in the list let the code go. -/
theorem chainLoop_eq {base ebr : ℕ} {l : List (ℕ × Option Extent)} (h : Chain bd base ebr l)
    (hlt : ∀ r ∈ l, r.1 < bd.sectors) (hsec : bd.sectors < 2 ^ 32)
    (hlog : ∀ r ∈ l, ∀ e ∈ r.2, r.1 < e.base ∧ e.base < bd.sectors) (guard number : ℕ)
    (out : List VolPart) (hout : out.length ≤ max) :
    (chainLoop bd max base guard ebr number out).map VolPart.extent =
      (out.map VolPart.extent ++ (l.take guard).filterMap Prod.snd).take max := by
  have hfull : out.map VolPart.extent = (out.map VolPart.extent).take max :=
    (List.take_of_length_le (by rwa [List.length_map])).symm
  induction guard generalizing ebr number out l with
  | zero =>
    rw [List.take_zero, List.filterMap_nil, List.append_nil, ← hfull]
    rfl
  | succ guard ih =>
    rcases h with _ | ⟨hz, hread, hsig, hnext⟩
    · rw [List.take_nil, List.filterMap_nil, List.append_nil, ← hfull]
      rfl
    rename_i b l
    unfold chainLoop
    by_cases hmax : max ≤ out.length
    · rw [if_pos (.inr (.inl hmax)), List.take_append_of_le_length (by rwa [List.length_map]), ← hfull]
    have hebr : ebr < bd.sectors := hlt _ List.mem_cons_self
    rw [if_neg (by omega), hread]
    change List.map _ (if ¬ signed b then out else _) = _
    rw [if_neg (not_not.2 hsig)]
    -- the number of the next boot record does not go round
    have hstep : (if byteAt b 466 ≠ 0 ∧ rd32 b 470 ≠ 0 then u32 (base + rd32 b 470) else 0) =
        nextRecord base b := by
      unfold nextRecord
      split_ifs with hc
      · have hne : nextRecord base b = base + rd32 b 470 := if_pos hc
        have hon : nextRecord base b < bd.sectors :=
          hnext.lt (by rw [hne]; omega) fun r hr => hlt r (List.mem_cons_of_mem _ hr)
        rw [hne] at hon
        exact Nat.mod_eq_of_lt (hon.trans hsec)
      · rfl
    have hlt' : ∀ r ∈ l, r.1 < bd.sectors := fun r hr => hlt r (List.mem_cons_of_mem _ hr)
    have hlog' : ∀ r ∈ l, ∀ e ∈ r.2, r.1 < e.base ∧ e.base < bd.sectors :=
      fun r hr => hlog r (List.mem_cons_of_mem _ hr)
    rw [hstep, List.take_succ_cons]
    by_cases ht : byteAt b 450 ≠ 0
    · have hl : logical ebr b = some ⟨ebr + rd32 b 454, rd32 b 458⟩ := if_pos ht
      obtain ⟨h1, h2⟩ := hlog _ List.mem_cons_self _ hl
      change ebr < ebr + rd32 b 454 at h1
      change ebr + rd32 b 454 < bd.sectors at h2
      have hu : u32 (ebr + rd32 b 454) = ebr + rd32 b 454 := Nat.mod_eq_of_lt (by omega)
      rw [hu, if_pos ⟨ht, by omega, h2⟩, addPart_of_lt (by omega),
        ih hnext hlt' hlog' _ _ (by rw [List.length_append, List.length_singleton]; omega)
          (List.take_of_length_le (by
            rw [List.length_map, List.length_append, List.length_singleton]; omega)).symm,
        List.filterMap_cons, hl]
      simp
    · have hl : logical ebr b = none := if_neg ht
      rw [if_neg fun hc => ht hc.1, ih hnext hlt' hlog' _ _ hout hfull, List.filterMap_cons, hl]

namespace Mbr.Valid

variable {m : Mbr}

/-- Slots that are not empty hold a partition of its own or an extended one. -/
theorem slot_facts (hv : m.Valid bd b) {e : Extent}
    (he : e ∈ slots b (fun t => t ≠ 0) (List.range 4)) : e.base ≠ 0 ∧ e.base < bd.sectors := by
  have hmem : e ∈ m.prims ++ m.ext.toList := by
    obtain ⟨i, hi, rfl⟩ := List.mem_map.1 he
    obtain ⟨hi, ht⟩ := List.mem_filter.1 hi
    rw [hv.prims, hv.ext, List.mem_append]
    by_cases hx : isExtended (byteAt b (446 + i * 16 + 4))
    · exact .inr (List.mem_map.2 ⟨i, List.mem_filter.2 ⟨hi, hx⟩, rfl⟩)
    · refine .inl (List.mem_map.2 ⟨i, List.mem_filter.2 ⟨hi, ?_⟩, rfl⟩)
      simpa [isPrimary, hx] using ht
  obtain ⟨hbase, hlen⟩ := hv.some_len e (List.mem_append_left _ hmem)
  have hstop := hv.inside e hmem
  unfold Extent.stop at hstop
  exact ⟨by omega, by omega⟩

theorem mem_ext_within (hv : m.Valid bd b) {e : Extent} (he : e ∈ m.records ++ m.logicals) :
    e.stop ≤ bd.sectors := by
  obtain ⟨x, hx, hin⟩ := hv.within e he
  exact hin.2.trans (hv.inside x (List.mem_append_right _ (Option.mem_toList.2 hx)))

theorem record_lt (hv : m.Valid bd b) {r : ℕ × Option Extent} (hr : r ∈ m.chain) : r.1 < bd.sectors := by
  have h := hv.mem_ext_within (List.mem_append_left _ (List.mem_map.2 ⟨r, hr, rfl⟩))
  unfold Extent.stop at h
  exact h

/-- A logical partition begins behind its boot record. -/
theorem logical_lt (hv : m.Valid bd b) {r : ℕ × Option Extent} (hr : r ∈ m.chain) {e : Extent}
    (he : e ∈ r.2) : r.1 < e.base ∧ e.base < bd.sectors := by
  have hrec : (⟨r.1, 1⟩ : Extent) ∈ m.records := List.mem_map.2 ⟨r, hr, rfl⟩
  have hlog : e ∈ m.logicals := List.mem_filterMap.2 ⟨r, hr, he⟩
  have hlen := (hv.some_len e (List.mem_append_right _ hlog)).2
  have hstop := hv.mem_ext_within (List.mem_append_right _ hlog)
  have hge : r.1 ≤ e.base := by
    rcases hx : m.ext with _ | x
    · rw [hv.noChain hx] at hr
      exact absurd hr List.not_mem_nil
    · exact (hv.chain x hx).le_logical hr he
  have hap := (List.pairwise_append.1 hv.apartIn).2.2 _ hrec _ hlog
  unfold Extent.Apart Extent.stop at hap
  unfold Extent.stop at hstop
  change r.1 + 1 ≤ e.base ∨ e.base + e.len ≤ r.1 at hap
  exact ⟨by omega, by omega⟩

/-- **The code's list of an MBR.** -/
theorem mbrParts_eq (hv : m.Valid bd b) (hsec : bd.sectors < 2 ^ 32) :
    (mbrParts bd volMaxParts b).map VolPart.extent =
      (m.prims ++ (m.chain.take 64).filterMap Prod.snd).take volMaxParts := by
  obtain ⟨hlist, hbase⟩ := @foldl_mbrEntry _ _ volMaxParts _ (0, []) (by decide) fun e he =>
    hv.slot_facts he
  have hlen := congrArg List.length hlist
  have hle : (slots b isPrimary (List.range 4)).length ≤ 4 := by
    unfold slots
    rw [List.length_map]
    exact List.length_filter_le _ _
  rw [List.length_map, List.map_nil, List.nil_append] at hlen
  rw [← hv.ext] at hbase
  unfold mbrParts
  have hchain : Chain bd ((List.range 4).foldl (mbrEntry bd volMaxParts b) (0, [])).1
      ((List.range 4).foldl (mbrEntry bd volMaxParts b) (0, [])).1 m.chain := by
    rw [hbase]
    rcases hx : m.ext with _ | x
    · rw [hv.noChain hx]
      exact Chain.stop
    · exact hv.chain x hx
  have hout : ((List.range 4).foldl (mbrEntry bd volMaxParts b) (0, [])).2.length ≤ volMaxParts := by
    rw [hlen]
    exact hle.trans (by decide)
  have h := chainLoop_eq hchain (fun r hr => hv.record_lt hr) hsec
    (fun r hr e he => hv.logical_lt hr he) 64 5 _ hout
  rw [hlist, List.map_nil, List.nil_append, ← hv.prims] at h
  exact h

theorem volumePartitions_eq (hv : m.Valid bd b) (hp : bd.present = true) :
    volumePartitions bd volMaxParts = (mbrParts bd volMaxParts b, false) := by
  unfold volumePartitions
  rw [if_pos hp, hv.read]
  change (if ¬ Diskpart.signed b then _ else _) = _
  rw [if_neg (not_not.2 hv.signed)]
  unfold gptHeader
  rw [hv.plain]
  rfl

end Mbr.Valid

/-! ## What the code lists of a GPT -/

theorem rd32_of_lt {o : ℕ} (h : rd64 b o < 2 ^ 32) : rd32 b o = rd64 b o := by
  have hmod : rd64 b o % 256 ^ 4 = rd32 b o := getLE_mod (by decide)
  rw [← hmod]
  exact Nat.mod_eq_of_lt h

/-- **The loop over the entries.** -/
theorem gptEntries_eq {h : Bytes} (hent : rd64 h 72 + gptSecs < 2 ^ 32) (hesz : rd32 h 84 = 128)
    (hsec : bd.sectors < 2 ^ 32) {left i : ℕ} (hle : i + left ≤ 128)
    (hread : ∀ j < i + left, (gptSector bd h j).isSome)
    (hpart : ∀ j < i + left, ∀ e ∈ gptPart bd h j, 1 ≤ e.base ∧ 1 ≤ e.len ∧ e.stop ≤ bd.sectors)
    (out : List VolPart) (hout : out.length ≤ max) :
    (gptEntries bd max (rd32 h 72) 128 left i out).map VolPart.extent =
      (out.map VolPart.extent ++ (List.range' i left).filterMap (gptPart bd h)).take max := by
  have hfull : out.map VolPart.extent = (out.map VolPart.extent).take max :=
    (List.take_of_length_le (by rwa [List.length_map])).symm
  induction left generalizing i out with
  | zero =>
    rw [List.range'_zero, List.filterMap_nil, List.append_nil, ← hfull]
    rfl
  | succ left ih =>
    unfold gptEntries
    by_cases hmax : max ≤ out.length
    · rw [if_pos hmax, List.take_append_of_le_length (by rwa [List.length_map]), ← hfull]
    rw [if_neg hmax]
    obtain ⟨b, hb⟩ := Option.isSome_iff_exists.1 (hread i (by omega))
    have hlba : u32 (rd32 h 72 + i * 128 / 512) = rd64 h 72 + i * rd32 h 84 / 512 := by
      have hgpt : gptSecs = 32 := rfl
      rw [rd32_of_lt (by omega), hesz]
      exact Nat.mod_eq_of_lt (by omega)
    have hsector : bd.read (u32 (rd32 h 72 + i * 128 / 512)) = some b := by
      rw [hlba]
      exact hb
    rw [hsector]
    have hread' : ∀ j < i + 1 + left, (gptSector bd h j).isSome := fun j hj => hread j (by omega)
    have hpart' : ∀ j < i + 1 + left, ∀ e ∈ gptPart bd h j,
        1 ≤ e.base ∧ 1 ≤ e.len ∧ e.stop ≤ bd.sectors := fun j hj => hpart j (by omega)
    have hdef : gptPart bd h i = if empty16 b (i * 128 % 512) then none else
        some ⟨rd64 b (i * 128 % 512 + 32),
          rd64 b (i * 128 % 512 + 40) + 1 - rd64 b (i * 128 % 512 + 32)⟩ := by
      unfold gptPart
      rw [hb, hesz]
      rfl
    rw [List.range'_succ, List.filterMap_cons]
    by_cases hemp : empty16 b (i * 128 % 512)
    · have hnone : gptPart bd h i = none := by rw [hdef, if_pos hemp]
      rw [hnone]
      change List.map _ (if empty16 b (i * 128 % 512) ∨ _ then _ else _) = _
      rw [if_pos (.inl hemp)]
      exact ih (by omega) hread' hpart' out hout hfull
    · have hsome : gptPart bd h i = some ⟨rd64 b (i * 128 % 512 + 32),
          rd64 b (i * 128 % 512 + 40) + 1 - rd64 b (i * 128 % 512 + 32)⟩ := by
        rw [hdef, if_neg hemp]
      obtain ⟨h1, h2, h3⟩ := hpart i (by omega) _ hsome
      rw [hsome]
      change 1 ≤ rd64 b (i * 128 % 512 + 32) at h1
      change 1 ≤ rd64 b (i * 128 % 512 + 40) + 1 - rd64 b (i * 128 % 512 + 32) at h2
      change rd64 b (i * 128 % 512 + 32) +
        (rd64 b (i * 128 % 512 + 40) + 1 - rd64 b (i * 128 % 512 + 32)) ≤ bd.sectors at h3
      have hfirst : rd32 b (i * 128 % 512 + 32) = rd64 b (i * 128 % 512 + 32) :=
        rd32_of_lt (by omega)
      have hlast : rd32 b (i * 128 % 512 + 40) = rd64 b (i * 128 % 512 + 40) :=
        rd32_of_lt (by omega)
      change List.map _ (if empty16 b (i * 128 % 512) ∨ rd32 b (i * 128 % 512 + 32) = 0 ∨
        bd.sectors ≤ rd32 b (i * 128 % 512 + 32) ∨
          rd32 b (i * 128 % 512 + 40) < rd32 b (i * 128 % 512 + 32) then _ else
        gptEntries bd max (rd32 h 72) 128 left (i + 1) (addPart out max (i + 1)
          ⟨rd32 b (i * 128 % 512 + 32),
            rd32 b (i * 128 % 512 + 40) - rd32 b (i * 128 % 512 + 32) + 1⟩)) = _
      rw [hfirst, hlast, if_neg (by
          rintro (hc | hc | hc | hc)
          · exact hemp hc
          · omega
          · omega
          · omega), addPart_of_lt (by omega),
        ih (by omega) hread' hpart' _ (by rw [List.length_append, List.length_singleton]; omega)
          (List.take_of_length_le (by
            rw [List.length_map, List.length_append, List.length_singleton]; omega)).symm]
      have hsize : rd64 b (i * 128 % 512 + 40) - rd64 b (i * 128 % 512 + 32) + 1 =
          rd64 b (i * 128 % 512 + 40) + 1 - rd64 b (i * 128 % 512 + 32) := by omega
      rw [hsize]
      simp

namespace Gpt.Valid

variable {g : Gpt} {h h' : Bytes}

theorem part_facts (hv : g.Valid bd b h h') {e : Extent} (he : e ∈ g.parts) :
    1 ≤ e.base ∧ 1 ≤ e.len ∧ e.stop ≤ usableEnd .gpt bd.sectors := by
  obtain ⟨hlen, hlo, hhi⟩ := hv.inside e he
  have hf := hv.front
  have hb := hv.back
  have hfl : gptSecs ≤ g.backup.len := by
    rw [hv.backup.2, hv.entries]
    exact le_max_left _ _
  have hs : g.entries.base ≤ g.entries.stop := Nat.le_add_right _ _
  have hbs : g.backup.stop = g.backup.base + g.backup.len := rfl
  have hend : usableEnd .gpt bd.sectors = bd.sectors - 1 - gptSecs := if_pos rfl
  rw [hend]
  exact ⟨by omega, hlen, by omega⟩

/-- **The code's list of a GPT.** -/
theorem gptParts_eq (hv : g.Valid bd b h h') (hesz : rd32 h 84 = 128) (hsec : bd.sectors < 2 ^ 32) :
    (gptParts bd volMaxParts h).map VolPart.extent = g.parts.take volMaxParts := by
  have hc := hv.count
  have hent : rd64 h 72 + gptSecs < 2 ^ 32 := by
    have hf := hv.front
    have hb := hv.back
    have hus : g.usable.base ≤ g.usable.stop := Nat.le_add_right _ _
    have hbs : g.backup.base ≤ g.backup.stop := Nat.le_add_right _ _
    have hes : g.entries.stop = rd64 h 72 + max gptSecs ((rd32 h 80 * rd32 h 84 + 511) / 512) := by
      rw [hv.entries]
      rfl
    have hle := le_max_left gptSecs ((rd32 h 80 * rd32 h 84 + 511) / 512)
    omega
  unfold gptParts
  rw [hesz]
  change (gptEntries bd volMaxParts (rd32 h 72) 128
    (if 128 < 128 ∨ 512 < 128 ∨ 128 < rd32 h 80 then 0 else rd32 h 80) 0 []).map _ = _
  rw [if_neg (by omega), gptEntries_eq hent hesz hsec (by omega)
    (fun j hj => hv.readable j (by omega)) ?_ [] (Nat.zero_le _), List.map_nil, List.nil_append,
    hv.parts, List.range_eq_range']
  intro j hj e he
  have hmem : e ∈ g.parts := by
    rw [hv.parts]
    exact List.mem_filterMap.2 ⟨j, List.mem_range.2 (by omega), he⟩
  obtain ⟨h1, h2, h3⟩ := hv.part_facts hmem
  have hend : usableEnd .gpt bd.sectors ≤ bd.sectors := by
    unfold usableEnd
    split_ifs <;> omega
  exact ⟨h1, h2, h3.trans hend⟩

theorem volumePartitions_eq (hv : g.Valid bd b h h') (hp : bd.present = true) :
    volumePartitions bd volMaxParts = (gptParts bd volMaxParts h, true) := by
  have hhead : gptHeader bd b = some h := by
    unfold gptHeader
    rw [if_pos hv.protective, hv.header, Option.filter_some]
    exact if_pos (by simpa using hv.name)
  unfold volumePartitions
  rw [if_pos hp, hv.read]
  change (if ¬ Diskpart.signed b then _ else _) = _
  rw [if_neg (not_not.2 hv.signed), hhead]

end Gpt.Valid

/-! ## What the code knows of a disk -/

/-- The disk takes a new partition: it may be changed, it has a table that the code sees, and the table
has a free slot. -/
structure Takes (f : Drive) (bd : Blockdev) : Prop where
  writable : checkWritable (fill f bd) bd = .ok ()
  scheme : (fill f bd).scheme ≠ .none
  slot : ∃ i, freeSlot (fill f bd).scheme bd = .ok i

/-- What a valid table lets one rely on. -/
structure Table.Sound (t : Table) (sectors : ℕ) : Prop where
  usable : 1 ≤ t.usable.base
  parts : ∀ e ∈ t.parts, 1 ≤ e.len ∧ e.Within t.usable ∧ e.stop ≤ usableEnd t.scheme sectors
  apart : t.parts.Pairwise Extent.Apart

theorem Describes.sound {t : Table} (h : Describes bd t) : t.Sound bd.sectors := by
  rcases h with ⟨hv⟩ | ⟨hv⟩
  · rename_i m b
    have hin : ∀ e ∈ m.prims ++ m.logicals, 1 ≤ e.base ∧ 1 ≤ e.len ∧ e.stop ≤ bd.sectors := by
      intro e he
      rcases List.mem_append.1 he with hp | hl
      · have hs := hv.some_len e (List.mem_append_left _ (List.mem_append_left _ hp))
        exact ⟨hs.1, hs.2, hv.inside e (List.mem_append_left _ hp)⟩
      · have hs := hv.some_len e (List.mem_append_right _ hl)
        exact ⟨hs.1, hs.2, hv.mem_ext_within (List.mem_append_right _ hl)⟩
    refine ⟨le_rfl, fun e he => ?_, ?_⟩
    · obtain ⟨h1, h2, h3⟩ := hin e he
      have hst : e.stop = e.base + e.len := rfl
      refine ⟨h2, ⟨h1, ?_⟩, h3⟩
      change e.stop ≤ 1 + (bd.sectors - 1)
      omega
    · refine List.pairwise_append.2 ⟨(List.pairwise_append.1 hv.apart).1,
        (List.pairwise_append.1 hv.apartIn).2.1, fun p hp l hl => ?_⟩
      -- a logical partition lies in the extended one, which no primary one meets
      obtain ⟨x, hx, hin⟩ := hv.within l (List.mem_append_right _ hl)
      exact ((List.pairwise_append.1 hv.apart).2.2 p hp x (Option.mem_toList.2 hx)).symm.mono hin |>.symm
  · rename_i g b h h'
    refine ⟨?_, fun e he => ?_, hv.apart⟩
    · have hf := hv.front
      have hs : g.entries.base ≤ g.entries.stop := Nat.le_add_right _ _
      change 1 ≤ g.usable.base
      omega
    · obtain ⟨-, h2, h3⟩ := hv.part_facts he
      exact ⟨h2, (hv.inside e he).2, h3⟩

theorem checkWritable_ok {d : DpDisk} (h : checkWritable d bd = .ok ()) :
    d.cdrom = false ∧ bd.present = true := by
  unfold checkWritable at h
  split_ifs at h with h1 h2 h3
  refine ⟨by simpa using h1, ?_⟩
  by_contra hp
  exact h3 (.inr hp)

/-- A disk whose table the code does not see is one volume to it. -/
theorem parts_ne_nil {f : Drive} {t : Table} (h : Describes bd t) (hp : bd.present = true)
    (hcd : ¬ f.cdrom) (hs : (fill f bd).scheme = .none) : (fill f bd).parts ≠ [] := by
  unfold fill at hs ⊢
  rw [if_neg hcd] at hs ⊢
  change schemeOf bd (volumePartitions bd volMaxParts) = .none at hs
  suffices hsn : (sniff bd ⟨0, bd.sectors⟩).isSome by
    change (if _ then _ else _) ≠ []
    rw [if_pos ⟨hs, hsn⟩]
    exact List.cons_ne_nil _ _
  rcases h with ⟨hv⟩ | ⟨hv⟩
  · rename_i m b
    -- the boot sector of a volume that could be an MBR too
    rw [hv.volumePartitions_eq hp] at hs
    unfold schemeOf at hs
    by_cases hne : mbrParts bd volMaxParts b ≠ []
    · rw [if_pos (.inl hne)] at hs
      cases hs
    have hno : ¬ (mbrParts bd volMaxParts b ≠ [] ∨ (false : Bool) = true) := by simpa using hne
    rw [if_neg hno, hv.read] at hs
    change (if signed b ∧ rd64 b 82 ≠ fat32Name ∧ rd64 b 3 ≠ exfatName ∧ rd64 b 3 ≠ ntfsName then
      Scheme.mbr else Scheme.none) = .none at hs
    unfold sniff
    rw [hv.read]
    change (if rd64 b 3 = exfatName then _ else _ : Option Holds).isSome
    by_cases h1 : rd64 b 3 = exfatName
    · rw [if_pos h1]
      rfl
    by_cases h2 : rd64 b 3 = ntfsName
    · rw [if_neg h1, if_pos h2]
      rfl
    by_cases h3 : rd64 b 82 = fat32Name
    · rw [if_neg h1, if_neg h2, if_pos ⟨hv.signed, h3⟩]
      rfl
    · rw [if_pos ⟨hv.signed, h3, h1, h2⟩] at hs
      cases hs
  · rename_i g b h h'
    rw [hv.volumePartitions_eq hp] at hs
    have hgpt : schemeOf bd (gptParts bd volMaxParts h, true) = .gpt := if_pos (.inr rfl)
    rw [hgpt] at hs
    cases hs

namespace Takes

variable {f : Drive}

/-- The list that `volume_partitions` makes for `fill`. -/
theorem fill_eq (ht : Takes f bd) :
    (fill f bd).scheme = schemeOf bd (volumePartitions bd volMaxParts) ∧
      (fill f bd).gaps = findGaps (fill f bd).scheme bd.sectors
        (((volumePartitions bd volMaxParts).1.map VolPart.extent).take dpMaxParts) := by
  have hcd : ¬ f.cdrom := by
    intro hc
    have h := (checkWritable_ok ht.writable).1
    unfold fill at h
    rw [if_pos hc] at h
    exact Bool.false_ne_true (h.symm.trans hc)
  have hsch := ht.scheme
  unfold fill at hsch ⊢
  rw [if_neg hcd] at hsch ⊢
  refine ⟨rfl, ?_⟩
  change schemeOf bd (volumePartitions bd volMaxParts) ≠ .none at hsch
  change findGaps _ _ (List.map _ (if _ then _ else _)) = _
  rw [if_neg fun hc => hsch hc.1, List.map_map, ← List.map_take]
  rfl

/-- **What `fill` knows of a disk with a valid MBR**: the partitions that come first. -/
theorem fill_mbr {m : Mbr} (ht : Takes f bd) (hv : m.Valid bd b) (hsec : bd.sectors < 2 ^ 32) :
    (fill f bd).scheme = .mbr ∧ (fill f bd).gaps = findGaps .mbr bd.sectors
      ((m.table bd.sectors).parts.take (m.table bd.sectors).listed) := by
  obtain ⟨hscheme, hgaps⟩ := ht.fill_eq
  have hsch := ht.scheme
  have hvp := hv.volumePartitions_eq (checkWritable_ok ht.writable).2
  have hmbr : (fill f bd).scheme = .mbr := by
    rw [hscheme, hvp] at hsch ⊢
    unfold schemeOf at hsch ⊢
    by_cases hne : mbrParts bd volMaxParts b ≠ []
    · exact if_pos (.inl hne)
    · have hno : ¬ (mbrParts bd volMaxParts b ≠ [] ∨ (false : Bool) = true) := by simpa using hne
      rw [if_neg hno, hv.read] at hsch ⊢
      change (if _ then Scheme.mbr else Scheme.none) ≠ .none at hsch
      change (if _ then Scheme.mbr else Scheme.none) = .mbr
      split_ifs at hsch ⊢ with hc
      · rfl
      · exact absurd rfl hsch
  refine ⟨hmbr, ?_⟩
  rw [hgaps, hmbr, hvp]
  change findGaps _ _ (((mbrParts bd volMaxParts b).map VolPart.extent).take dpMaxParts) = _
  rw [hv.mbrParts_eq hsec, List.take_take]
  have hsplit : m.prims ++ m.logicals = (m.prims ++ (m.chain.take 64).filterMap Prod.snd) ++
      (m.chain.drop 64).filterMap Prod.snd := by
    rw [List.append_assoc, ← List.filterMap_append, List.take_append_drop]
    rfl
  change _ = findGaps _ _ ((m.prims ++ m.logicals).take
    (min dpMaxParts (m.prims.length + ((m.chain.take 64).filterMap Prod.snd).length)))
  rw [hsplit, ← List.length_append, List.take_append_of_le_length (min_le_right _ _),
    List.take_eq_take_min, min_eq_left (show dpMaxParts ≤ volMaxParts by decide)]

/-- **What `fill` knows of a disk with a valid GPT**: the partitions that come first. -/
theorem fill_gpt {g : Gpt} {h h' : Bytes} (ht : Takes f bd) (hv : g.Valid bd b h h')
    (hsec : bd.sectors < 2 ^ 32) :
    (fill f bd).scheme = .gpt ∧
      (fill f bd).gaps = findGaps .gpt bd.sectors (g.table.parts.take g.table.listed) := by
  obtain ⟨hscheme, hgaps⟩ := ht.fill_eq
  have hvp := hv.volumePartitions_eq (checkWritable_ok ht.writable).2
  have hgpt : (fill f bd).scheme = .gpt := by
    rw [hscheme, hvp]
    exact if_pos (.inr rfl)
  -- a GPT with entries of another size is listed, but takes no new partition
  have hesz : rd32 h 84 = 128 := by
    obtain ⟨i, hi⟩ := ht.slot
    rw [hgpt] at hi
    unfold freeSlot at hi
    rw [if_neg (by decide)] at hi
    by_contra hne
    have hnone : gptLoad bd = none := by
      unfold gptLoad
      rw [hv.header]
      exact if_pos (.inr (.inl hne))
    rw [hnone] at hi
    exact absurd hi (by simp)
  refine ⟨hgpt, ?_⟩
  rw [hgaps, hgpt, hvp]
  change findGaps _ _ (((gptParts bd volMaxParts h).map VolPart.extent).take dpMaxParts) = _
  rw [hv.gptParts_eq hesz hsec, List.take_take]
  rfl

/-- **What `fill` knows of a disk with a valid table.** -/
theorem fill_table {t : Table} (ht : Takes f bd) (h : Describes bd t) (hsec : bd.sectors < 2 ^ 32) :
    (fill f bd).scheme = t.scheme ∧
      (fill f bd).gaps = findGaps t.scheme bd.sectors (t.parts.take t.listed) := by
  rcases h with ⟨hv⟩ | ⟨hv⟩
  · exact ht.fill_mbr hv hsec
  · exact ht.fill_gpt hv hsec

end Takes

end BananaOS.Diskpart
