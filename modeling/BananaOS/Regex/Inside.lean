import BananaOS.Regex.Compile

/-!
# Where a match can be

A position can leave the subject at a back reference alone: to a group that has begun and not ended yet,
whose end is before its beginning, so that the reference moves back.  In every run without such a
reference all positions are in the subject, only its bytes are read, and the captures that are reported
are whole (`rxExec_inside`).

What carries the proof is which groups are open: those whose end is still to come, in the continuation or
around a lookahead.  They begin at or before the position, and every other group is whole or unset
(`Standing`).  A pass that fails leaves the captures as they were, but for those of groups in
lookaheads; so these must be other groups than the open ones, which is so at each level of a compiled
pattern since its groups have different numbers (`Node.Fits`).
-/

namespace BananaOS.Regex.Whole

/-! ## Levels -/

mutual

/-- The groups of a node: those of its own level, `P`, and those in lookaheads, `L`, which for each
lookahead are split the same way. -/
def Node.Fits (P L : ℕ → Prop) : Node → Prop
  | .group g child => (g = 0 ∨ P g) ∧ SeqFits P L child
  | .alt options => OptionsFit P L options
  | .rep _ _ _ child => SeqFits P L child
  | .look _ child =>
    ∃ P' L' : ℕ → Prop, (∀ g, P' g → L g) ∧ (∀ g, L' g → L g) ∧ (∀ g, P' g → ¬ L' g) ∧
      SeqFits P' L' child
  | _ => True

/-- Those of a sequence. -/
def SeqFits (P L : ℕ → Prop) : List Node → Prop
  | [] => True
  | node :: next => node.Fits P L ∧ SeqFits P L next

/-- Those of alternatives. -/
def OptionsFit (P L : ℕ → Prop) : List (List Node) → Prop
  | [] => True
  | o :: options => SeqFits P L o ∧ OptionsFit P L options

end

mutual

theorem Node.Fits.mono {P L P' L' : ℕ → Prop} (hP : ∀ g, P g → P' g) (hL : ∀ g, L g → L' g) :
    ∀ {node : Node}, node.Fits P L → node.Fits P' L'
  | .group g child, h => by
    rw [Node.Fits] at h ⊢
    exact ⟨h.1.imp_right (hP g), SeqFits.mono hP hL h.2⟩
  | .alt options, h => by
    rw [Node.Fits] at h ⊢
    exact OptionsFit.mono hP hL h
  | .rep _ _ _ child, h => by
    rw [Node.Fits] at h ⊢
    exact SeqFits.mono hP hL h
  | .look _ child, h => by
    rw [Node.Fits] at h ⊢
    obtain ⟨P'', L'', h1, h2, h3⟩ := h
    exact ⟨P'', L'', fun g hg => hL g (h1 g hg), fun g hg => hL g (h2 g hg), h3⟩
  | .char _, _ => by simp [Node.Fits]
  | .any, _ => by simp [Node.Fits]
  | .cls _ _, _ => by simp [Node.Fits]
  | .bol, _ => by simp [Node.Fits]
  | .eol, _ => by simp [Node.Fits]
  | .wordb, _ => by simp [Node.Fits]
  | .nwordb, _ => by simp [Node.Fits]
  | .backref _, _ => by simp [Node.Fits]

theorem SeqFits.mono {P L P' L' : ℕ → Prop} (hP : ∀ g, P g → P' g) (hL : ∀ g, L g → L' g) :
    ∀ {nodes : List Node}, SeqFits P L nodes → SeqFits P' L' nodes
  | [], _ => by simp [SeqFits]
  | _ :: _, h => by
    rw [SeqFits] at h ⊢
    exact ⟨Node.Fits.mono hP hL h.1, SeqFits.mono hP hL h.2⟩

theorem OptionsFit.mono {P L P' L' : ℕ → Prop} (hP : ∀ g, P g → P' g) (hL : ∀ g, L g → L' g) :
    ∀ {options : List (List Node)}, OptionsFit P L options → OptionsFit P' L' options
  | [], _ => by simp [OptionsFit]
  | _ :: _, h => by
    rw [OptionsFit] at h ⊢
    exact ⟨SeqFits.mono hP hL h.1, OptionsFit.mono hP hL h.2⟩

end

/-- Numbers from after `lo` to `hi`, split in two. -/
structure Split (lo hi : ℕ) (P L : ℕ → Prop) : Prop where
  le : lo ≤ hi
  own : ∀ g, P g → lo < g ∧ g ≤ hi
  inLook : ∀ g, L g → lo < g ∧ g ≤ hi
  apart : ∀ g, P g → ¬ L g

namespace Split

variable {lo mid hi : ℕ} {P L P' L' : ℕ → Prop}

theorem nothing (h : lo ≤ hi) : Split lo hi (fun _ => False) fun _ => False :=
  ⟨h, fun _ h => h.elim, fun _ h => h.elim, fun _ h => h.elim⟩

theorem append (h : Split lo mid P L) (h' : Split mid hi P' L') :
    Split lo hi (fun g => P g ∨ P' g) fun g => L g ∨ L' g where
  le := h.le.trans h'.le
  own := by
    rintro g (hg | hg)
    · exact ⟨(h.own g hg).1, (h.own g hg).2.trans h'.le⟩
    · exact ⟨lt_of_le_of_lt h.le (h'.own g hg).1, (h'.own g hg).2⟩
  inLook := by
    rintro g (hg | hg)
    · exact ⟨(h.inLook g hg).1, (h.inLook g hg).2.trans h'.le⟩
    · exact ⟨lt_of_le_of_lt h.le (h'.inLook g hg).1, (h'.inLook g hg).2⟩
  apart := by
    rintro g (hg | hg) (hl | hl)
    · exact h.apart g hg hl
    · have := (h.own g hg).2
      have := (h'.inLook g hl).1
      omega
    · have := (h'.own g hg).1
      have := (h.inLook g hl).2
      omega
    · exact h'.apart g hg hl

theorem widen (h : Split mid hi P L) (hle : lo ≤ mid) : Split lo hi P L :=
  ⟨hle.trans h.le, fun g hg => ⟨lt_of_le_of_lt hle (h.own g hg).1, (h.own g hg).2⟩,
    fun g hg => ⟨lt_of_le_of_lt hle (h.inLook g hg).1, (h.inLook g hg).2⟩, h.apart⟩

theorem group {g : ℕ} (hg : lo < g) (h : Split g hi P L) : Split lo hi (fun i => i = g ∨ P i) L where
  le := (Nat.le_of_lt hg).trans h.le
  own := by
    rintro i (rfl | hi)
    · exact ⟨hg, h.le⟩
    · exact ⟨hg.trans (h.own i hi).1, (h.own i hi).2⟩
  inLook := fun i hi => ⟨hg.trans (h.inLook i hi).1, (h.inLook i hi).2⟩
  apart := by
    rintro i (rfl | hi) hl
    · exact absurd (h.inLook i hl).1 (Nat.lt_irrefl i)
    · exact h.apart i hi hl

theorem look (h : Split lo hi P L) : Split lo hi (fun _ => False) fun g => P g ∨ L g :=
  ⟨h.le, fun _ h => h.elim, fun g hg => hg.elim (h.own g) (h.inLook g), fun _ h => h.elim⟩

end Split

mutual

theorem Node.Numbered.fits : ∀ {node : Node} {lo hi : ℕ}, node.Numbered lo hi →
    ∃ P L, Split lo hi P L ∧ node.Fits P L
  | .group g child, lo, hi, h => by
    rw [Node.Numbered] at h
    rcases h with ⟨rfl, mid, hle, h⟩ | ⟨hg, -, h⟩
    · obtain ⟨P, L, hsplit, hfits⟩ := SeqNumbered.fits h
      exact ⟨P, L, hsplit.widen hle, by rw [Node.Fits]; exact ⟨Or.inl rfl, hfits⟩⟩
    · obtain ⟨P, L, hsplit, hfits⟩ := SeqNumbered.fits h
      refine ⟨_, L, hsplit.group hg, ?_⟩
      rw [Node.Fits]
      exact ⟨Or.inr (Or.inl rfl), SeqFits.mono (fun i hi => Or.inr hi) (fun i hi => hi) hfits⟩
  | .alt options, lo, hi, h => by
    rw [Node.Numbered] at h
    obtain ⟨P, L, hsplit, hfits⟩ := OptionsNumbered.fits h
    exact ⟨P, L, hsplit, by rw [Node.Fits]; exact hfits⟩
  | .rep _ _ _ child, lo, hi, h => by
    rw [Node.Numbered] at h
    obtain ⟨P, L, hsplit, hfits⟩ := SeqNumbered.fits h
    exact ⟨P, L, hsplit, by rw [Node.Fits]; exact hfits⟩
  | .look _ child, lo, hi, h => by
    rw [Node.Numbered] at h
    obtain ⟨P, L, hsplit, hfits⟩ := SeqNumbered.fits h
    refine ⟨_, _, hsplit.look, ?_⟩
    rw [Node.Fits]
    exact ⟨P, L, fun g => Or.inl, fun g => Or.inr, hsplit.apart, hfits⟩
  | .char _, _, _, h => ⟨_, _, Split.nothing (le_of_eq (by simpa [Node.Numbered] using h)), by simp [Node.Fits]⟩
  | .any, _, _, h => ⟨_, _, Split.nothing (le_of_eq (by simpa [Node.Numbered] using h)), by simp [Node.Fits]⟩
  | .cls _ _, _, _, h => ⟨_, _, Split.nothing (le_of_eq (by simpa [Node.Numbered] using h)), by simp [Node.Fits]⟩
  | .bol, _, _, h => ⟨_, _, Split.nothing (le_of_eq (by simpa [Node.Numbered] using h)), by simp [Node.Fits]⟩
  | .eol, _, _, h => ⟨_, _, Split.nothing (le_of_eq (by simpa [Node.Numbered] using h)), by simp [Node.Fits]⟩
  | .wordb, _, _, h => ⟨_, _, Split.nothing (le_of_eq (by simpa [Node.Numbered] using h)), by simp [Node.Fits]⟩
  | .nwordb, _, _, h => ⟨_, _, Split.nothing (le_of_eq (by simpa [Node.Numbered] using h)), by simp [Node.Fits]⟩
  | .backref _, _, _, h => ⟨_, _, Split.nothing (le_of_eq (by simpa [Node.Numbered] using h)), by simp [Node.Fits]⟩

theorem SeqNumbered.fits : ∀ {nodes : List Node} {lo hi : ℕ}, SeqNumbered lo hi nodes →
    ∃ P L, Split lo hi P L ∧ SeqFits P L nodes
  | [], lo, hi, h => ⟨_, _, Split.nothing (le_of_eq (seqNumbered_nil.mp h)), by simp [SeqFits]⟩
  | node :: next, lo, hi, h => by
    obtain ⟨mid, hnode, hnext⟩ := seqNumbered_cons.mp h
    obtain ⟨P, L, hsplit, hfits⟩ := Node.Numbered.fits hnode
    obtain ⟨P', L', hsplit', hfits'⟩ := SeqNumbered.fits hnext
    refine ⟨_, _, hsplit.append hsplit', ?_⟩
    rw [SeqFits]
    exact ⟨Node.Fits.mono (fun g => Or.inl) (fun g => Or.inl) hfits,
      SeqFits.mono (fun g => Or.inr) (fun g => Or.inr) hfits'⟩

theorem OptionsNumbered.fits : ∀ {options : List (List Node)} {lo hi : ℕ},
    OptionsNumbered lo hi options → ∃ P L, Split lo hi P L ∧ OptionsFit P L options
  | [], lo, hi, h =>
    ⟨_, _, Split.nothing (le_of_eq (by simpa [OptionsNumbered] using h)), by simp [OptionsFit]⟩
  | o :: options, lo, hi, h => by
    rw [OptionsNumbered] at h
    obtain ⟨mid, hnode, hnext⟩ := h
    obtain ⟨P, L, hsplit, hfits⟩ := SeqNumbered.fits hnode
    obtain ⟨P', L', hsplit', hfits'⟩ := OptionsNumbered.fits hnext
    refine ⟨_, _, hsplit.append hsplit', ?_⟩
    rw [OptionsFit]
    exact ⟨SeqFits.mono (fun g => Or.inl) (fun g => Or.inl) hfits,
      OptionsFit.mono (fun g => Or.inr) (fun g => Or.inr) hfits'⟩

end

/-! ## Where a run stands -/

/-- What happens, happens in the subject. -/
def Event.Inside (n : ℕ) : Event → Prop
  | .pass pos => 0 ≤ pos ∧ pos ≤ n
  | .read i => 0 ≤ i ∧ i < n
  | _ => True

/-- A back reference finds a group that does not end before it begins. -/
def Event.Ended : Event → Prop
  | .back start stop => start ≤ stop
  | _ => True

instance : DecidablePred Event.Ended
  | .pass _ => .isTrue trivial
  | .read _ => .isTrue trivial
  | .back start stop => inferInstanceAs (Decidable (start ≤ stop))
  | .failed _ _ => .isTrue trivial
  | .lost _ _ => .isTrue trivial

/-- A group is unset, or lies in the subject. -/
def CapsWhole (n : ℕ) (caps : Caps) (g : ℕ) : Prop :=
  (caps (2 * g) = -1 ∧ caps (2 * g + 1) = -1) ∨
    (0 ≤ caps (2 * g) ∧ caps (2 * g) ≤ caps (2 * g + 1) ∧ caps (2 * g + 1) ≤ n)

/-- The open groups begin at or before `pos`, and the others are whole. -/
def Standing (n : ℕ) (caps : Caps) (pos : ℤ) (isOpen : ℕ → Prop) : Prop :=
  ∀ g, (isOpen g → 0 ≤ caps (2 * g) ∧ caps (2 * g) ≤ pos ∧ caps (2 * g + 1) ≤ n) ∧
    (¬ isOpen g → CapsWhole n caps g)

/-- A group is captured as it was. -/
def SameAt (caps caps' : Caps) (g : ℕ) : Prop :=
  caps' (2 * g) = caps (2 * g) ∧ caps' (2 * g + 1) = caps (2 * g + 1)

theorem SameAt.refl (caps : Caps) (g : ℕ) : SameAt caps caps g := ⟨rfl, rfl⟩

theorem SameAt.trans {a b c : Caps} {g : ℕ} (h : SameAt a b g) (h' : SameAt b c g) : SameAt a c g :=
  ⟨h'.1.trans h.1, h'.2.trans h.2⟩

theorem SameAt.whole {n : ℕ} {a b : Caps} {g : ℕ} (h : SameAt a b g) (hw : CapsWhole n a g) :
    CapsWhole n b g := by
  rwa [CapsWhole, h.1, h.2]

theorem sameAt_update (caps : Caps) {g i : ℕ} (v : ℤ) (hi : i / 2 ≠ g) :
    SameAt caps (Function.update caps i v) g :=
  ⟨Function.update_of_ne (by omega) _ _, Function.update_of_ne (by omega) _ _⟩

/-- A node fits a level, or is the mark of one of its groups. -/
def Ptr.Fits (P L : ℕ → Prop) : Ptr → Prop
  | .seq nodes => SeqFits P L nodes
  | .endmark g => P g

/-- The groups that are open: from outside a lookahead, or with their end still to come. -/
def opens (O : ℕ → Prop) (node : Ptr) (k : List Frame) (g : ℕ) : Prop :=
  O g ∨ .endmark g ∈ node :: k.map Frame.node

/-- A pass can begin. -/
structure Ready (n : ℕ) (P L O : ℕ → Prop) (M : Mstate) (node : Ptr) (pos : ℤ) (k : List Frame) :
    Prop where
  apart : ∀ g, P g → ¬ L g
  outP : ∀ g, O g → ¬ P g
  outL : ∀ g, O g → ¬ L g
  fits : node.Fits P L
  conts : ∀ f ∈ k, f.node.Fits P L
  nonneg : 0 ≤ pos
  le : pos ≤ n
  caps : Standing n M.caps pos (opens O node k)
  log : ∀ e ∈ M.log, e.Inside n

/-- What a failure leaves: the captures as they were, but for groups in lookaheads, which are whole. -/
def Restored (n : ℕ) (L : ℕ → Prop) (caps caps' : Caps) : Prop :=
  ∀ g, (¬ L g → SameAt caps caps' g) ∧ (L g → CapsWhole n caps' g)

/-- What a pass may end with. -/
structure Outcome (n : ℕ) (P L O : ℕ → Prop) (caps : Caps) (pos : ℤ) (x : ℤ × Mstate) : Prop where
  log : ∀ e ∈ x.2.log, e.Inside n
  result : x.1 = -2 ∨ (x.1 = -1 ∧ Restored n L caps x.2.caps) ∨
    (pos ≤ x.1 ∧ x.1 ≤ n ∧ (∀ g, ¬ P g → ¬ L g → SameAt caps x.2.caps g) ∧
      ∀ g, ¬ O g → CapsWhole n x.2.caps g)

section

variable {n : ℕ} {P L O : ℕ → Prop} {M M' : Mstate} {node : Ptr} {pos : ℤ} {k : List Frame}
  {caps caps' : Caps} {x : ℤ × Mstate}

theorem Ready.not_inLook (h : Ready n P L O M node pos k) {g : ℕ} (hg : opens O node k g) : ¬ L g := by
  rcases hg with hg | hg
  · exact h.outL g hg
  · rcases List.mem_cons.mp hg with hg | hg
    · have hfits := h.fits
      rw [← hg] at hfits
      exact h.apart g hfits
    · obtain ⟨f, hf, hfg⟩ := List.mem_map.mp hg
      have hfits := h.conts f hf
      rw [hfg] at hfits
      exact h.apart g hfits

theorem Ready.retry (h : Ready n P L O M node pos k) (hr : Restored n L M.caps M'.caps)
    (hlog : ∀ e ∈ M'.log, e.Inside n) : Ready n P L O M' node pos k := by
  refine { h with caps := fun g => ⟨fun hg => ?_, fun hg => ?_⟩, log := hlog }
  · obtain ⟨hsame, hsame'⟩ := (hr g).1 (h.not_inLook hg)
    rw [hsame, hsame']
    exact (h.caps g).1 hg
  · by_cases hl : L g
    · exact (hr g).2 hl
    · exact ((hr g).1 hl).whole ((h.caps g).2 hg)

theorem Outcome.restored (h : Outcome n P L O caps pos x) (hpos : 0 ≤ pos) (hx : ¬ settled x.1) :
    x.1 = -1 ∧ Restored n L caps x.2.caps := by
  rcases h.result with h2 | h1 | ⟨hle, -⟩
  · exact absurd (Or.inr h2) hx
  · exact h1
  · exact absurd (Or.inl (hpos.trans hle)) hx

theorem restored_refl (h : Standing n caps pos (opens O node k)) (hl : ∀ g, opens O node k g → ¬ L g) :
    Restored n L caps caps := by
  intro g
  refine ⟨fun _ => SameAt.refl _ _, fun hg => (h g).2 fun hopen => hl g hopen hg⟩

/-- What fails after a failure, or not, has the outcome of both. -/
theorem Restored.outcome (hr : Restored n L caps caps') (h : Outcome n P L O caps' pos x) :
    Outcome n P L O caps pos x := by
  refine ⟨h.log, ?_⟩
  rcases h.result with h2 | ⟨h1, hr'⟩ | ⟨hle, hn, hsame, hwhole⟩
  · exact Or.inl h2
  · exact Or.inr (Or.inl ⟨h1, fun g => ⟨fun hg => ((hr g).1 hg).trans ((hr' g).1 hg), (hr' g).2⟩⟩)
  · exact Or.inr (Or.inr ⟨hle, hn, fun g hp hl => ((hr g).1 hl).trans (hsame g hp hl), hwhole⟩)

theorem Ready.fails (h : Ready n P L O M node pos k) (hlog : ∀ e ∈ M'.log, e.Inside n)
    (hcaps : M'.caps = M.caps) : Outcome n P L O M.caps pos (-1, M') := by
  refine ⟨hlog, Or.inr (Or.inl ⟨rfl, ?_⟩)⟩
  rw [hcaps]
  exact restored_refl h.caps fun g hg => h.not_inLook hg

theorem Outcome.earlier {pos' : ℤ} (h : Outcome n P L O caps pos' x) (hle : pos ≤ pos') :
    Outcome n P L O caps pos x :=
  ⟨h.log, h.result.imp_right (Or.imp_right fun h => ⟨hle.trans h.1, h.2⟩)⟩

end

/-! ## Nodes that hold no others -/

section

variable {re : Rx} {s : ℤ → UInt8} {n : ℕ} {caps : Caps} {pos : ℤ} {isOpen : ℕ → Prop}

theorem backLoop_inside {s0 : ℤ} {k : ℕ} {i : ℤ} (hi : 0 ≤ i) (hpos : 0 ≤ pos) (hs0 : 0 ≤ s0)
    (hposk : pos + i + k ≤ n) (hs0k : s0 + i + k ≤ n) :
    ∀ e ∈ (backLoop re s pos s0 k i).1, e.Inside n := by
  induction k generalizing i with
  | zero => exact fun e he => absurd he List.not_mem_nil
  | succ k ih =>
    have hreads : ∀ e ∈ [Event.read (s0 + i), Event.read (pos + i)], e.Inside n := by
      intro e he
      rcases List.mem_cons.mp he with rfl | he
      · exact ⟨by omega, by omega⟩
      · rw [List.mem_singleton.mp he]
        exact ⟨by omega, by omega⟩
    rw [backLoop]
    split_ifs
    · intro e he
      rcases List.mem_append.mp he with he | he
      · exact ih (by omega) (by omega) (by omega) e he
      · exact hreads e he
    · exact hreads

theorem wordAt_inside (s : ℤ → UInt8) (n : ℕ) (i : ℤ) : ∀ e ∈ (wordAt s n i).1, e.Inside n := by
  rw [wordAt]
  split_ifs with h
  · intro e he
    rw [List.mem_singleton.mp he]
    exact h
  · exact fun e he => absurd he List.not_mem_nil

theorem inside_nil : ∀ e ∈ ([] : List Event), e.Inside n := fun _ he => absurd he List.not_mem_nil

theorem inside_read {i : ℤ} (h0 : 0 ≤ i) (hn : i < n) : ∀ e ∈ [Event.read i], e.Inside n := by
  intro e he
  rw [List.mem_singleton.mp he]
  exact ⟨h0, hn⟩

/-- What is read is in the subject, and so is where the match goes on, which is not back. -/
def Leads (n : ℕ) (pos : ℤ) (x : List Event × Option ℤ) : Prop :=
  (∀ e ∈ x.1, e.Inside n) ∧ ∀ p, x.2 = some p → pos ≤ p ∧ p ≤ n

theorem leads_none {l : List Event} (h : ∀ e ∈ l, e.Inside n) : Leads n pos (l, none) :=
  ⟨h, fun p hp => absurd hp (by simp)⟩

theorem leads_some {l : List Event} {p : ℤ} (h : ∀ e ∈ l, e.Inside n) (hp : pos ≤ p) (hn : p ≤ n) :
    Leads n pos (l, some p) := by
  refine ⟨h, fun q hq => ?_⟩
  rw [← Option.some.inj hq]
  exact ⟨hp, hn⟩

/-- A node that holds no others. -/
theorem leaf_leads (re : Rx) (s : ℤ → UInt8) (h : Standing n caps pos isOpen) (hpos : 0 ≤ pos) (hle : pos ≤ n) (node : Node)
    (hended : ∀ e ∈ (leaf re s n caps pos node).1, e.Ended) : Leads n pos (leaf re s n caps pos node) := by
  have hwords : ∀ e ∈ (wordAt s n pos).1 ++ (wordAt s n (pos - 1)).1, e.Inside n := fun e he =>
    (List.mem_append.mp he).elim (wordAt_inside s n pos e) (wordAt_inside s n (pos - 1) e)
  cases node with
  | char c =>
    rw [leaf]
    split_ifs
    · exact leads_none inside_nil
    · exact leads_some (inside_read hpos (by omega)) (by omega) (by omega)
    · exact leads_none (inside_read hpos (by omega))
  | any =>
    rw [leaf]
    split_ifs
    · exact leads_none inside_nil
    · exact leads_some inside_nil (by omega) (by omega)
    · exact leads_none (inside_read hpos (by omega))
    · exact leads_some (inside_read hpos (by omega)) (by omega) (by omega)
  | cls set neg =>
    rw [leaf]
    split_ifs
    · exact leads_none inside_nil
    · exact leads_none (inside_read hpos (by omega))
    · exact leads_some (inside_read hpos (by omega)) (by omega) (by omega)
  | bol =>
    rw [leaf]
    split_ifs
    · exact leads_some inside_nil (Int.le_refl _) hle
    · exact leads_some (inside_read (by omega) (by omega)) (Int.le_refl _) hle
    · exact leads_none (inside_read (by omega) (by omega))
    · exact leads_none inside_nil
  | eol =>
    rw [leaf]
    split_ifs
    · exact leads_some inside_nil (Int.le_refl _) hle
    · exact leads_some (inside_read hpos (by omega)) (Int.le_refl _) hle
    · exact leads_none (inside_read hpos (by omega))
    · exact leads_none inside_nil
  | wordb =>
    rw [leaf]
    split_ifs
    · exact leads_some hwords (Int.le_refl _) hle
    · exact leads_none hwords
  | nwordb =>
    rw [leaf]
    split_ifs
    · exact leads_some hwords (Int.le_refl _) hle
    · exact leads_none hwords
  | backref g =>
    rw [leaf] at hended ⊢
    by_cases hset : 0 < g ∧ g ≤ rxMaxGroups ∧ 0 ≤ caps (2 * g)
    · rw [if_pos hset] at hended ⊢
      have hback : ∀ e ∈ [Event.back (caps (2 * g)) (caps (2 * g) + (caps (2 * g + 1) - caps (2 * g)))],
          e.Inside n := fun e he => by
        rw [List.mem_singleton.mp he]
        trivial
      dsimp only at hended ⊢
      by_cases hlong : pos + (caps (2 * g + 1) - caps (2 * g)) > n
      · rw [if_pos hlong]
        exact leads_none hback
      · rw [if_neg hlong] at hended ⊢
        have hfwd : caps (2 * g) ≤ caps (2 * g) + (caps (2 * g + 1) - caps (2 * g)) :=
          hended _ (List.mem_append_right _ (List.mem_singleton.mpr rfl))
        have hstop : caps (2 * g + 1) ≤ n := by
          by_cases hg : isOpen g
          · exact ((h g).1 hg).2.2
          · rcases (h g).2 hg with hw | hw
            · omega
            · exact hw.2.2
        have hall : ∀ e ∈ (backLoop re s pos (caps (2 * g)) (caps (2 * g + 1) - caps (2 * g)).toNat 0).1 ++
            [Event.back (caps (2 * g)) (caps (2 * g) + (caps (2 * g + 1) - caps (2 * g)))],
            e.Inside n := fun e he => by
          rcases List.mem_append.mp he with he | he
          · exact backLoop_inside (Int.le_refl 0) hpos hset.2.2 (by omega) (by omega) e he
          · exact hback e he
        split_ifs
        · exact leads_some hall (by omega) (by omega)
        · exact leads_none hall
    · rw [if_neg hset]
      exact leads_some inside_nil (Int.le_refl _) hle
  | group _ _ => exact leads_none inside_nil
  | alt _ => exact leads_none inside_nil
  | rep _ _ _ _ => exact leads_none inside_nil
  | look _ _ => exact leads_none inside_nil

end

/-! ## From one pass to the next -/

section

variable {n : ℕ} {P L O : ℕ → Prop} {M : Mstate} {node : Ptr} {pos : ℤ} {k : List Frame}
  {nodes : List Node} {x : ℤ × Mstate}

theorem opens_seq {g : ℕ} : opens O (.seq nodes) k g ↔ O g ∨ .endmark g ∈ k.map Frame.node := by
  simp [opens]

theorem opens_cons {f : Frame} {g : ℕ} : opens O (.seq nodes) (f :: k) g ↔ opens O f.node k g := by
  rw [opens_seq, opens]
  simp

theorem Standing.congr {caps : Caps} {a b : ℕ → Prop} (h : Standing n caps pos a) (hab : ∀ g, b g ↔ a g) :
    Standing n caps pos b :=
  fun g => ⟨fun hg => (h g).1 ((hab g).mp hg), fun hg => (h g).2 fun ha => hg ((hab g).mpr ha)⟩

theorem Standing.begins {caps : Caps} {a : ℕ → Prop} (h : Standing n caps pos a) (h0 : 0 ≤ pos)
    (g : ℕ) :
    Standing n (Function.update caps (2 * g) pos) pos fun i => i = g ∨ a i := by
  intro i
  by_cases hi : i = g
  · subst hi
    have hstart : Function.update caps (2 * i) pos (2 * i) = pos := Function.update_self _ _ _
    have hstop : Function.update caps (2 * i) pos (2 * i + 1) = caps (2 * i + 1) :=
      Function.update_of_ne (Nat.succ_ne_self _) _ _
    have hle : caps (2 * i + 1) ≤ n := by
      by_cases hopen : a i
      · exact ((h i).1 hopen).2.2
      · rcases (h i).2 hopen with hw | hw
        · omega
        · exact hw.2.2
    rw [hstart, hstop]
    exact ⟨fun _ => ⟨h0, Int.le_refl _, hle⟩, fun hnot => absurd (Or.inl rfl) hnot⟩
  · have hsame := sameAt_update caps (i := 2 * g) pos (g := i) (by omega)
    refine ⟨fun hor => ?_, fun hnot => hsame.whole ((h i).2 fun hopen => hnot (Or.inr hopen))⟩
    rw [hsame.1, hsame.2]
    exact (h i).1 (hor.resolve_left hi)

theorem Standing.finishes {caps : Caps} {a : ℕ → Prop} {g : ℕ}
    (h : Standing n caps pos fun i => i = g ∨ a i) (hn : pos ≤ n) :
    Standing n (Function.update caps (2 * g + 1) pos) pos a := by
  intro i
  by_cases hi : i = g
  · subst hi
    have hbegun := (h i).1 (Or.inl rfl)
    have hstart : Function.update caps (2 * i + 1) pos (2 * i) = caps (2 * i) :=
      Function.update_of_ne (Nat.succ_ne_self _).symm _ _
    have hstop : Function.update caps (2 * i + 1) pos (2 * i + 1) = pos := Function.update_self _ _ _
    rw [CapsWhole, hstart, hstop]
    exact ⟨fun _ => ⟨hbegun.1, hbegun.2.1, hn⟩, fun _ => Or.inr ⟨hbegun.1, hbegun.2.1, hn⟩⟩
  · have hsame := sameAt_update caps (i := 2 * g + 1) pos (g := i) (by omega)
    refine ⟨fun hopen => ?_, fun hnot => hsame.whole ((h i).2 fun hor => hnot (hor.resolve_left hi))⟩
    rw [hsame.1, hsame.2]
    exact (h i).1 (Or.inr hopen)

theorem Ready.seq (h : Ready n P L O M (.seq nodes) pos k) {nodes' : List Node}
    (hf : SeqFits P L nodes') : Ready n P L O M (.seq nodes') pos k :=
  { h with fits := hf, caps := h.caps.congr fun g => by rw [opens_seq, opens_seq] }

theorem Ready.push (h : Ready n P L O M (.seq nodes) pos k) {next : List Node} (hf : SeqFits P L next)
    (c : ℕ) (p : ℤ) : Ready n P L O M (.seq nodes) pos (⟨.seq next, c, p⟩ :: k) :=
  { h with
    conts := fun f hmem => by
      rcases List.mem_cons.mp hmem with rfl | hmem
      · exact hf
      · exact h.conts f hmem
    caps := h.caps.congr fun g => by rw [opens_seq, opens_seq]; simp }

theorem Ready.pop {f : Frame} (h : Ready n P L O M (.seq nodes) pos (f :: k)) :
    Ready n P L O M f.node pos k :=
  { h with
    fits := h.conts f List.mem_cons_self
    conts := fun f' hmem => h.conts f' (List.mem_cons_of_mem _ hmem)
    caps := h.caps.congr fun _ => opens_cons.symm }

theorem Ready.advance (h : Ready n P L O M node pos k) {p : ℤ} {e : List Event} (hp : pos ≤ p)
    (hn : p ≤ n) (he : ∀ a ∈ e, a.Inside n) : Ready n P L O (M.note e) node p k :=
  { h with
    nonneg := h.nonneg.trans hp
    le := hn
    caps := fun g => ⟨fun hg => ⟨((h.caps g).1 hg).1, ((h.caps g).1 hg).2.1.trans hp,
      ((h.caps g).1 hg).2.2⟩, (h.caps g).2⟩
    log := fun a ha => (List.mem_append.mp ha).elim (he a) (h.log a) }

theorem Ready.inside_note (h : Ready n P L O M node pos k) {e : List Event} (he : ∀ a ∈ e, a.Inside n) :
    ∀ a ∈ (M.note e).log, a.Inside n :=
  fun a ha => (List.mem_append.mp ha).elim (he a) (h.log a)

theorem Ready.begins {g : ℕ} {next : List Node} (h : Ready n P L O M (.seq nodes) pos k) (hg : P g)
    (hf : SeqFits P L next) :
    Ready n P L O (M.setCaps (Function.update M.caps (2 * g) pos)) (.seq nodes) pos
      (⟨.endmark g, 0, 0⟩ :: ⟨.seq next, 0, 0⟩ :: k) :=
  { h with
    conts := fun f hmem => by
      rcases List.mem_cons.mp hmem with rfl | hmem
      · exact hg
      · rcases List.mem_cons.mp hmem with rfl | hmem
        · exact hf
        · exact h.conts f hmem
    caps := (h.caps.begins h.nonneg g).congr fun i => by
      rw [opens_seq, opens_seq]
      simp only [List.map_cons, List.mem_cons, Ptr.endmark.injEq, reduceCtorEq, false_or]
      tauto }

theorem Ready.finishes {g : ℕ} (h : Ready n P L O M (.endmark g) pos k) :
    Ready n P L O (M.setCaps (Function.update M.caps (2 * g + 1) pos)) (.seq []) pos k :=
  { h with
    fits := show SeqFits P L [] by
      rw [SeqFits]
      trivial
    caps := by
      refine Standing.finishes (h.caps.congr fun i => ?_) h.le
      rw [opens_seq, opens]
      simp only [List.mem_cons, Ptr.endmark.injEq]
      tauto }

/-- A lookahead begins: what is open around it stays open. -/
theorem Ready.looks {P' L' : ℕ → Prop} {child : List Node} (h : Ready n P L O M (.seq nodes) pos k)
    (hP : ∀ g, P' g → L g) (hL : ∀ g, L' g → L g) (hapart : ∀ g, P' g → ¬ L' g)
    (hf : SeqFits P' L' child) : Ready n P' L' (opens O (.seq nodes) k) M (.seq child) pos [] where
  apart := hapart
  outP := fun g hg hp => h.not_inLook hg (hP g hp)
  outL := fun g hg hl => h.not_inLook hg (hL g hl)
  fits := hf
  conts := fun f hmem => absurd hmem List.not_mem_nil
  nonneg := h.nonneg
  le := h.le
  log := h.log
  caps := h.caps.congr fun g => by
    rw [opens_seq]
    simp

end

/-! ## A pass -/

/-- What is called keeps inside the subject, in every run whose back references find groups that have
ended. -/
structure HereSafe (n : ℕ) (here : Here) : Prop where
  kept : ∀ M node pos k, Kept M (here M node pos k)
  safe : ∀ {P L O M node pos k}, Ready n P L O M node pos k →
    (∀ e ∈ (here M node pos k).2.log, e.Ended) → Outcome n P L O M.caps pos (here M node pos k)

/-- The same of a repeat. -/
structure IterSafe (n : ℕ) (iter : Iter) : Prop where
  safe : ∀ {P L O M min max lazy child next count pos startPos k},
    Ready n P L O M (.seq (.rep min max lazy child :: next)) pos k →
    (∀ e ∈ (iter M min max lazy child next count pos startPos k).2.log, e.Ended) →
      Outcome n P L O M.caps pos (iter M min max lazy child next count pos startPos k)

section

variable {re : Rx} {s : ℤ → UInt8} {n : ℕ} {P L O : ℕ → Prop} {M : Mstate} {node : Ptr} {pos : ℤ}
  {k : List Frame} {here : Here} {iter : Iter} {caps : Caps} {x : ℤ × Mstate}

theorem Kept.ended (h : Kept M x) (hx : ∀ e ∈ x.2.log, e.Ended) :
    ∀ e ∈ M.log, e.Ended := fun e he => hx e (h.2.subset he)

/-- Putting the captures of a group of the level back, when what follows failed. -/
theorem Outcome.undo {g : ℕ} {caps' : Caps} {f : Caps → Caps} (hg : P g) (hl : ¬ L g)
    (h : Outcome n P L O caps' pos x) (hpos : 0 ≤ pos)
    (hothers : ∀ i, i ≠ g → SameAt caps caps' i) (hf : ∀ c i, i ≠ g → SameAt c (f c) i)
    (hback : ∀ c, SameAt caps' c g → SameAt caps (f c) g) :
    Outcome n P L O caps pos (undo f x) := by
  rw [Whole.undo]
  split_ifs with hneg
  · refine ⟨h.log, ?_⟩
    rcases h.result with h2 | ⟨h1, hr⟩ | ⟨hle, -⟩
    · exact Or.inl h2
    · refine Or.inr (Or.inl ⟨h1, fun i => ⟨fun hi => ?_, fun hi => ?_⟩⟩)
      · by_cases hig : i = g
        · subst hig
          exact hback _ ((hr i).1 hl)
        · exact ((hothers i hig).trans ((hr i).1 hi)).trans (hf _ i hig)
      · have hig : i ≠ g := fun hig => hl (hig ▸ hi)
        exact (hf _ i hig).whole ((hr i).2 hi)
    · omega
  · refine ⟨h.log, ?_⟩
    rcases h.result with h2 | ⟨h1, -⟩ | ⟨hle, hn, hsame, hwhole⟩
    · exact Or.inl h2
    · omega
    · refine Or.inr (Or.inr ⟨hle, hn, fun i hp hi => ?_, hwhole⟩)
      exact (hothers i fun hig => hp (hig ▸ hg)).trans (hsame i hp hi)

/-- A capture group. -/
theorem capture_safe (hhere : HereSafe n here) {g : ℕ} {child next : List Node}
    (h : Ready n P L O M (.seq child) pos k) (hg : P g) (hf : SeqFits P L next)
    (hended : ∀ e ∈ (capture here M g child next pos k).2.log, e.Ended) :
    Outcome n P L O M.caps pos (capture here M g child next pos k) := by
  have hready := h.begins hg hf
  have hcall : ∀ e ∈ (here (M.setCaps (Function.update M.caps (2 * g) pos)) (.seq child) pos
      (⟨.endmark g, 0, 0⟩ :: ⟨.seq next, 0, 0⟩ :: k)).2.log, e.Ended := by
    rw [capture, undo] at hended
    split_ifs at hended
    · exact hended
    · exact hended
  rw [capture]
  refine Outcome.undo hg (h.apart g hg) (hhere.safe hready hcall) h.nonneg (fun i hi => ?_)
    (fun c i hi => ?_) fun c _ => ?_
  · exact sameAt_update _ pos (by omega)
  · exact (sameAt_update _ (M.caps (2 * g)) (by omega)).trans (sameAt_update _ _ (by omega))
  · refine ⟨?_, Function.update_self _ _ _⟩
    rw [Function.update_of_ne (Nat.succ_ne_self _).symm, Function.update_self]

/-- The end of a capture group. -/
theorem captureEnd_safe (hhere : HereSafe n here) {g : ℕ} (h : Ready n P L O M (.endmark g) pos k)
    (hended : ∀ e ∈ (captureEnd here M g pos k).2.log, e.Ended) :
    Outcome n P L O M.caps pos (captureEnd here M g pos k) := by
  have hg : P g := h.fits
  have hcall : ∀ e ∈ (here (M.setCaps (Function.update M.caps (2 * g + 1) pos)) (.seq []) pos k).2.log,
      e.Ended := by
    rw [captureEnd, undo] at hended
    split_ifs at hended
    · exact hended
    · exact hended
  rw [captureEnd]
  refine Outcome.undo hg (h.apart g hg) (hhere.safe h.finishes hcall) h.nonneg (fun i hi => ?_)
    (fun c i hi => ?_) fun c hc => ?_
  · exact sameAt_update _ pos (by omega)
  · exact sameAt_update _ _ (by omega)
  · refine ⟨?_, Function.update_self _ _ _⟩
    rw [Function.update_of_ne (Nat.succ_ne_self _).symm, hc.1]
    exact Function.update_of_ne (Nat.succ_ne_self _).symm _ _

/-- The alternatives, one after the other. -/
theorem altLoop_safe (hhere : HereSafe n here) {nodes next : List Node} {options : List (List Node)}
    (h : Ready n P L O M (.seq nodes) pos k) (hf : SeqFits P L next) (ho : OptionsFit P L options)
    (hended : ∀ e ∈ (altLoop (fun o M => here M o pos (⟨.seq next, 0, 0⟩ :: k)) options M).2.log,
      e.Ended) :
    Outcome n P L O M.caps pos
      (altLoop (fun o M => here M o pos (⟨.seq next, 0, 0⟩ :: k)) options M) := by
  induction options generalizing M with
  | nil => exact h.fails h.log rfl
  | cons o options ih =>
    rw [OptionsFit] at ho
    rw [altLoop] at hended ⊢
    have hready := (h.seq ho.1).push hf 0 0
    split_ifs at hended ⊢ with hset
    · exact hhere.safe hready hended
    · have hfirst := hhere.safe hready
        (Kept.ended (Kept.altLoop (fun o M => hhere.kept M o pos _) options _) hended)
      obtain ⟨-, hr⟩ := hfirst.restored h.nonneg hset
      exact hr.outcome (ih (h.retry hr hfirst.log) ho.2 hended)

/-- Two ways to go on. -/
theorem eitherWay_safe {can1 can2 : Bool} {way1 way2 : Mstate → ℤ × Mstate}
    (hkept : ∀ M, Kept M (way2 M))
    (h1 : ∀ {M}, Ready n P L O M node pos k → (∀ e ∈ (way1 M).2.log, e.Ended) →
      Outcome n P L O M.caps pos (way1 M))
    (h2 : ∀ {M}, Ready n P L O M node pos k → (∀ e ∈ (way2 M).2.log, e.Ended) →
      Outcome n P L O M.caps pos (way2 M))
    (h : Ready n P L O M node pos k) (hended : ∀ e ∈ (eitherWay can1 way1 can2 way2 M).2.log, e.Ended) :
    Outcome n P L O M.caps pos (eitherWay can1 way1 can2 way2 M) := by
  have hfirst : (∀ e ∈ (if can1 then way1 M else (-1, M)).2.log, e.Ended) →
      Outcome n P L O M.caps pos (if can1 then way1 M else (-1, M)) := by
    split_ifs
    · exact h1 h
    · exact fun _ => h.fails h.log rfl
  rw [eitherWay] at hended ⊢
  generalize (if can1 then way1 M else (-1, M)) = y at hfirst hended ⊢
  split_ifs at hended ⊢ with hset
  · exact hfirst hended
  · have hout := hfirst (Kept.ended (hkept y.2) hended)
    obtain ⟨-, hr⟩ := hout.restored h.nonneg hset
    exact hr.outcome (h2 (h.retry hr hout.log) hended)
  · exact hfirst hended

/-- What a lookahead of the level leaves is what the level's own lookaheads may. -/
theorem Outcome.look {P' L' : ℕ → Prop} {nodes : List Node}
    (h : Outcome n P' L' (opens O (.seq nodes) k) caps pos x) (hP : ∀ g, P' g → L g)
    (hL : ∀ g, L' g → L g) (hstanding : Standing n caps pos (opens O (.seq nodes) k))
    (hopen : ∀ g, opens O (.seq nodes) k g → ¬ L g) (hx : x.1 ≠ -2) : Restored n L caps x.2.caps := by
  rcases h.result with h2 | ⟨-, hr⟩ | ⟨-, -, hsame, hwhole⟩
  · exact absurd h2 hx
  · refine fun g => ⟨fun hg => (hr g).1 fun hl => hg (hL g hl), fun hg => ?_⟩
    by_cases hl : L' g
    · exact (hr g).2 hl
    · exact ((hr g).1 hl).whole ((hstanding g).2 fun ho => hopen g ho hg)
  · exact fun g => ⟨fun hg => hsame g (fun hp => hg (hP g hp)) fun hl => hg (hL g hl),
      fun hg => hwhole g fun ho => hopen g ho hg⟩

/-- `(?=...)` -/
theorem lookAhead_safe (hhere : HereSafe n here) {P' L' : ℕ → Prop} {nodes child next : List Node}
    (h : Ready n P L O M (.seq nodes) pos k) (hP : ∀ g, P' g → L g) (hL : ∀ g, L' g → L g)
    (hapart : ∀ g, P' g → ¬ L' g) (hc : SeqFits P' L' child) (hf : SeqFits P L next)
    (hended : ∀ e ∈ (lookAhead here M child next pos k).2.log, e.Ended) :
    Outcome n P L O M.caps pos (lookAhead here M child next pos k) := by
  have hsub := hhere.safe (h.looks hP hL hapart hc)
  have hopen : ∀ g, opens O (.seq nodes) k g → ¬ L g := fun g hg => h.not_inLook hg
  rw [lookAhead] at hended ⊢
  generalize here M (.seq child) pos [] = y at hsub hended ⊢
  split_ifs at hended ⊢ with h2 hmatch
  · exact ⟨(hsub hended).log, Or.inl h2⟩
  · have hrest : ∀ e ∈ (here y.2 (.seq next) pos k).2.log, e.Ended := by
      rw [follows] at hended
      split_ifs at hended
      · exact hended
      · exact fun e he => hended e (List.mem_append_right _ he)
    have hout := hsub (Kept.ended (hhere.kept y.2 _ pos k) hrest)
    have hr := hout.look hP hL h.caps hopen h2
    have hthen := hr.outcome (hhere.safe ((h.seq hf).retry hr hout.log) hrest)
    rw [follows]
    split_ifs with hset
    · exact hthen
    · refine ⟨fun e he => ?_, hthen.result⟩
      rcases List.mem_append.mp he with he | he
      · rw [List.mem_singleton.mp he]
        trivial
      · exact hthen.log e he
  · have hout := hsub hended
    exact ⟨hout.log, Or.inr (Or.inl ⟨rfl, hout.look hP hL h.caps hopen h2⟩)⟩

/-- `(?!...)` -/
theorem lookNotAhead_safe (hhere : HereSafe n here) {P' L' : ℕ → Prop} {nodes child next : List Node}
    (h : Ready n P L O M (.seq nodes) pos k) (hP : ∀ g, P' g → L g) (hL : ∀ g, L' g → L g)
    (hapart : ∀ g, P' g → ¬ L' g) (hc : SeqFits P' L' child) (hf : SeqFits P L next)
    (hended : ∀ e ∈ (lookNotAhead here M child next pos k).2.log, e.Ended) :
    Outcome n P L O M.caps pos (lookNotAhead here M child next pos k) := by
  have hsub := hhere.safe (h.looks hP hL hapart hc)
  have hback : Restored n L M.caps M.caps := restored_refl h.caps fun g hg => h.not_inLook hg
  rw [lookNotAhead] at hended ⊢
  generalize here M (.seq child) pos [] = y at hsub hended ⊢
  split_ifs at hended ⊢ with h2 hmatch
  · exact ⟨(hsub hended).log, Or.inl h2⟩
  · exact h.fails (hsub hended).log rfl
  · have hout := hsub (Kept.ended (hhere.kept (y.2.setCaps M.caps) _ pos k) hended)
    have hagain : Ready n P L O (y.2.setCaps M.caps) (.seq next) pos k := (h.seq hf).retry hback hout.log
    exact hhere.safe hagain hended

/-- A node that holds no others. -/
theorem bare_safe (hhere : HereSafe n here) {node : Node} {nodes next : List Node}
    (h : Ready n P L O M (.seq nodes) pos k) (hf : SeqFits P L next)
    (hended : ∀ e ∈ (bare re s n here M node next pos k).2.log, e.Ended) :
    Outcome n P L O M.caps pos (bare re s n here M node next pos k) := by
  have hleads := leaf_leads re s h.caps h.nonneg h.le node
  rw [bare] at hended ⊢
  generalize leaf re s n M.caps pos node = y at hleads hended ⊢
  obtain ⟨l, r⟩ := y
  cases r with
  | none =>
    have hl := hleads fun e he => hended e (List.mem_append_left _ he)
    exact h.fails (h.inside_note hl.1) rfl
  | some p =>
    have hnote : ∀ e ∈ (M.note l).log, e.Ended := Kept.ended (hhere.kept (M.note l) _ p k) hended
    obtain ⟨hl, hp⟩ := hleads fun e he => hnote e (List.mem_append_left _ he)
    obtain ⟨hle, hn⟩ := hp p rfl
    exact (hhere.safe ((h.advance hle hn hl).seq hf) hended).earlier hle

theorem popCont_safe (hhere : HereSafe n here) (hiter : IterSafe n iter)
    (h : Ready n P L O M (.seq []) pos k) (hended : ∀ e ∈ (popCont here iter M pos k).2.log, e.Ended) :
    Outcome n P L O M.caps pos (popCont here iter M pos k) := by
  cases k with
  | nil =>
    refine ⟨h.log, Or.inr (Or.inr ⟨Int.le_refl _, h.le, fun g _ _ => SameAt.refl _ g, fun g hg => ?_⟩)⟩
    exact (h.caps g).2 fun ho => hg ((opens_seq.mp ho).resolve_right (by simp))
  | cons f k =>
    have hpop := h.pop
    rcases popCont_cons f with hf | ⟨min, max, lazy, child, next, hnode, -, hf⟩
    · rw [hf] at hended ⊢
      exact hhere.safe hpop hended
    · rw [hf] at hended ⊢
      rw [hnode] at hpop
      exact hiter.safe hpop hended

/-- A pass keeps inside the subject if what it calls does. -/
theorem pass_safe (re : Rx) (s : ℤ → UInt8) (hhere : HereSafe n here) (hiter : IterSafe n iter) (h : Ready n P L O M node pos k)
    (hended : ∀ e ∈ (pass re s n here iter M node pos k).2.log, e.Ended) :
    Outcome n P L O M.caps pos (pass re s n here iter M node pos k) := by
  rcases node with nodes | g
  · rcases nodes with _ | ⟨node, next⟩
    · exact popCont_safe hhere hiter h hended
    · have hfits := h.fits
      rw [Ptr.Fits, SeqFits] at hfits
      obtain ⟨hnode, hnext⟩ := hfits
      by_cases hb : node.Bare
      · rw [pass_bare hb] at hended ⊢
        exact bare_safe hhere h hnext hended
      · cases node with
        | group g child =>
          rw [Node.Fits] at hnode
          change ∀ e ∈ (if g = 0 then _ else _ : ℤ × Mstate).2.log, e.Ended at hended
          change Outcome n P L O M.caps pos (if g = 0 then _ else _)
          split_ifs at hended ⊢ with hg
          · exact hhere.safe ((h.seq hnode.2).push hnext 0 0) hended
          · exact capture_safe hhere (h.seq hnode.2) (hnode.1.resolve_left hg) hnext hended
        | alt options =>
          rw [Node.Fits] at hnode
          exact altLoop_safe hhere h hnext hnode hended
        | rep min max lazy child => exact hiter.safe (h.push hnext 0 0) hended
        | look neg child =>
          rw [Node.Fits] at hnode
          obtain ⟨P', L', hP, hL, hapart, hc⟩ := hnode
          cases neg with
          | behind => exact hhere.safe (h.seq hnext) hended
          | ahead => exact lookAhead_safe hhere h hP hL hapart hc hnext hended
          | notAhead => exact lookNotAhead_safe hhere h hP hL hapart hc hnext hended
        | _ => exact absurd trivial hb
  · exact captureEnd_safe hhere h hended

/-- And so do more iterations or none. -/
theorem iterate_safe (hhere : HereSafe n here) {min : ℕ} {max : Option ℕ} {lazy : Bool}
    {child next : List Node} {count : ℕ} {startPos : ℤ}
    (h : Ready n P L O M (.seq (.rep min max lazy child :: next)) pos k)
    (hended : ∀ e ∈ (iterate here M min max lazy child next count pos startPos k).2.log, e.Ended) :
    Outcome n P L O M.caps pos (iterate here M min max lazy child next count pos startPos k) := by
  have hseq : SeqFits P L (.rep min max lazy child :: next) := h.fits
  have hchild : SeqFits P L child := by
    have hfits := hseq
    rw [SeqFits, Node.Fits] at hfits
    exact hfits.1
  have hnil : SeqFits P L [] := by
    rw [SeqFits]
    trivial
  have hmore : ∀ {M : Mstate}, Ready n P L O M (.seq []) pos k →
      (∀ e ∈ (here M (.seq child) pos
        (⟨.seq (.rep min max lazy child :: next), count + 1, pos⟩ :: k)).2.log, e.Ended) →
      Outcome n P L O M.caps pos (here M (.seq child) pos
        (⟨.seq (.rep min max lazy child :: next), count + 1, pos⟩ :: k)) :=
    fun hM he => hhere.safe ((hM.seq hchild).push hseq (count + 1) pos) he
  have hstop : ∀ {M : Mstate}, Ready n P L O M (.seq []) pos k →
      (∀ e ∈ (matchCont here M pos k).2.log, e.Ended) →
      Outcome n P L O M.caps pos (matchCont here M pos k) := by
    intro M hM he
    cases k with
    | nil =>
      refine ⟨hM.log, Or.inr (Or.inr ⟨Int.le_refl _, hM.le, fun g _ _ => SameAt.refl _ g, fun g hg => ?_⟩)⟩
      exact (hM.caps g).2 fun ho => hg ((opens_seq.mp ho).resolve_right (by simp))
    | cons f k => exact hhere.safe hM.pop he
  rw [iterate] at hended ⊢
  cases lazy
  · exact eitherWay_safe (fun M => Kept.matchCont hhere.kept M pos k) hmore hstop (h.seq hnil) hended
  · exact eitherWay_safe (fun M => hhere.kept M _ pos _) hstop hmore (h.seq hnil) hended

end

/-! ## A run -/

section

variable {re : Rx} {s : ℤ → UInt8} {n : ℕ}

theorem ready_tick {P L O : ℕ → Prop} {M : Mstate} {node : Ptr} {pos : ℤ} {k : List Frame}
    (h : Ready n P L O M node pos k) : Ready n P L O (M.tick.note [.pass pos]) node pos k := by
  have hnote := h.advance (Int.le_refl pos) h.le (e := [.pass pos]) fun e he => by
    rw [List.mem_singleton.mp he]
    exact ⟨h.nonneg, h.le⟩
  exact { hnote with }

theorem matchHere_safe (re : Rx) (s : ℤ → UInt8) (n fuel : ℕ) :
    HereSafe n (matchHere re s n fuel) ∧ IterSafe n (repeatIter re s n fuel) := by
  have hlimit : ∀ {P L O : ℕ → Prop} {caps : Caps} {pos : ℤ} {M : Mstate}, (∀ e ∈ M.log, e.Inside n) →
      Outcome n P L O caps pos (-2, M) := fun hlog => ⟨hlog, Or.inl rfl⟩
  induction fuel with
  | zero =>
    exact ⟨⟨(kept re s n 0).1, fun h _ => hlimit (ready_tick h).log⟩, ⟨fun h _ => hlimit h.log⟩⟩
  | succ fuel ih =>
    refine ⟨⟨(kept re s n (fuel + 1)).1, fun {P L O M node pos k} h hended => ?_⟩,
      ⟨fun {P L O M min max lazy child next count pos startPos k} h hended => ?_⟩⟩
    · have hready := ready_tick h
      rw [matchHere] at hended ⊢
      split_ifs at hended ⊢
      · exact hlimit hready.log
      · have hpass := pass_safe re s ih.1 ih.2 hready
        rw [ends] at hended ⊢
        split_ifs at hended ⊢ with hset
        · exact hpass hended
        · have hout := hpass fun e he => hended e (List.mem_append_right _ he)
          refine ⟨fun e he => ?_, hout.result⟩
          rcases List.mem_append.mp he with he | he
          · rw [List.mem_singleton.mp he]
            trivial
          · exact hout.log e he
    · rw [repeatIter] at hended ⊢
      dsimp only at hended ⊢
      split_ifs at hended ⊢
      · exact hlimit h.log
      · exact hlimit h.log
      · have hready : Ready n P L O (M.tick.setDepth (M.tick.depth + 1))
            (.seq (.rep min max lazy child :: next)) pos k := { h with }
        have hout := iterate_safe ih.1 hready hended
        exact ⟨hout.log, hout.result⟩

/-- The loop of `rx_exec`. -/
theorem rxExecLoop_inside {P L : ℕ → Prop} (hapart : ∀ g, P g → ¬ L g) (hroot : SeqFits P L re.root)
    (sticky : Bool) {left : ℕ} {M : Mstate} {p : ℤ} (hp : 0 ≤ p) (hn : p + left ≤ n + 1)
    (hlog : ∀ e ∈ M.log, e.Inside n)
    (hended : ∀ e ∈ (rxExecLoop re s n sticky left M p).2.log, e.Ended) :
    (∀ e ∈ (rxExecLoop re s n sticky left M p).2.log, e.Inside n) ∧
      ((rxExecLoop re s n sticky left M p).1 = 1 →
        ∀ g, CapsWhole n (rxExecLoop re s n sticky left M p).2.caps g) := by
  induction left generalizing M p with
  | zero => exact ⟨hlog, fun h => absurd h (by simp [rxExecLoop])⟩
  | succ left ih =>
    have hready : Ready n P L (fun _ => False) (M.setCaps fun _ => -1) (.seq re.root) p [] :=
      ⟨hapart, fun _ h => h.elim, fun _ h => h.elim, hroot, fun f hf => absurd hf List.not_mem_nil, hp,
        by omega, fun g => ⟨fun ho => absurd (opens_seq.mp ho) (by simp), fun _ => Or.inl ⟨rfl, rfl⟩⟩, hlog⟩
    have hout := (matchHere_safe re s n (stepLimit + 1)).1.safe hready
    rw [rxExecLoop] at hended ⊢
    generalize matchHere re s n (stepLimit + 1) (M.setCaps fun _ => -1) (.seq re.root) p [] = y at *
    split_ifs at hended ⊢ with h2 hmatch
    · exact ⟨(hout hended).log, fun h => absurd h (by simp)⟩
    · have hres := hout hended
      refine ⟨hres.log, fun _ g => ?_⟩
      rcases hres.result with h | ⟨h, -⟩ | ⟨hle, hend, -, hwhole⟩
      · exact absurd h h2
      · omega
      · by_cases hg : g = 0
        · subst hg
          have h0 : Function.update (Function.update y.2.caps 0 p) 1 y.1 (2 * 0) = p := by
            rw [Function.update_of_ne (by decide), Function.update_self]
          have h1 : Function.update (Function.update y.2.caps 0 p) 1 y.1 (2 * 0 + 1) = y.1 :=
            Function.update_self _ _ _
          rw [CapsWhole, Mstate.setCaps]
          dsimp only
          rw [h0, h1]
          exact Or.inr ⟨hp, hle, hend⟩
        · exact ((sameAt_update _ p (by omega)).trans (sameAt_update _ y.1 (by omega))).whole
            (hwhole g fun h => h.elim)
    · exact ⟨(hout hended).log, fun h => absurd h (by simp)⟩
    · exact ⟨(hout hended).log, fun h => absurd h (by simp)⟩
    · have hlater := hout fun e he => hended e ((kept_rxExecLoop re s n sticky left y.2 (p + 1)).subset he)
      exact ih (by omega) (by omega) hlater.log hended

end

/-- **A match keeps inside the subject.**  In every run of a compiled pattern whose back references find
groups that do not end before they begin, every position is in the subject, only its bytes are read, and
a match reports groups that are unset or lie in the subject. -/
theorem rxExec_inside {pattern flags : List UInt8} {re : Rx} (h : rxCompile pattern flags = .ok re)
    (s : ℤ → UInt8) (n : ℕ) (caps : Caps) (start : ℕ) (sticky : Bool)
    (hended : ∀ e ∈ (rxExec re s n caps start sticky).2.log, e.Ended) :
    (∀ e ∈ (rxExec re s n caps start sticky).2.log, e.Inside n) ∧
      ((rxExec re s n caps start sticky).1 = 1 →
        ∀ g ≤ rxMaxGroups, CapsWhole n (rxExec re s n caps start sticky).2.caps g) := by
  obtain ⟨hi, hnum⟩ := rxCompile_numbered h
  obtain ⟨P, L, hsplit, hfits⟩ := hnum.fits
  rw [rxExec] at hended ⊢
  rcases Nat.lt_or_ge n start with hlt | hge
  · rw [Nat.sub_eq_zero_of_le (by omega)]
    exact ⟨fun e he => absurd he List.not_mem_nil, fun h => absurd h (by simp [rxExecLoop])⟩
  · obtain ⟨hlog, hcaps⟩ := rxExecLoop_inside hsplit.apart hfits sticky (Int.natCast_nonneg start)
      (by omega) (fun e he => absurd he List.not_mem_nil) hended
    exact ⟨hlog, fun hone g _ => hcaps hone g⟩

/-- A subject of some bytes, with zeros before and after it. -/
def subject (l : List UInt8) (i : ℤ) : UInt8 := if 0 ≤ i then l.getD i.toNat 0 else 0

/-- `(a)\1` -/
def rxTwice : Rx := ⟨[.group 1 [.char 97], .backref 1], 1, false, false, false, []⟩

/-- In `"baa"` it matches from 1 to 3. -/
theorem inside_twice :
    (∀ e ∈ (rxExec rxTwice (subject [98, 97, 97]) 3 (fun _ => 0) 0 false).2.log, e.Inside 3) ∧
      (rxExec rxTwice (subject [98, 97, 97]) 3 (fun _ => 0) 0 false).1 = 1 ∧
      ∀ g ≤ rxMaxGroups,
        CapsWhole 3 (rxExec rxTwice (subject [98, 97, 97]) 3 (fun _ => 0) 0 false).2.caps g := by
  have hcompile : rxCompile [40, 97, 41, 92, 49] [] = .ok rxTwice := by rfl
  have hended : ∀ e ∈ (rxExec rxTwice (subject [98, 97, 97]) 3 (fun _ => 0) 0 false).2.log, e.Ended := by
    decide +kernel
  have hone : (rxExec rxTwice (subject [98, 97, 97]) 3 (fun _ => 0) 0 false).1 = 1 := by decide +kernel
  obtain ⟨hlog, hcaps⟩ := rxExec_inside hcompile (subject [98, 97, 97]) 3 (fun _ => 0) 0 false hended
  exact ⟨hlog, hone, hcaps hone⟩

/-- `(a\1)`, with a back reference in its own group -/
def rxSelf : Rx := ⟨[.group 1 [.char 97, .backref 1]], 1, false, false, false, []⟩

/-- In `"ba"` it reports a group that begins at 1 and ends at 0. -/
theorem not_whole_self : ¬ ∀ (pattern flags : List UInt8) (re : Rx), rxCompile pattern flags = .ok re →
    ∀ (s : ℤ → UInt8) (n : ℕ) (caps : Caps) (start : ℕ) (sticky : Bool),
      (∀ e ∈ (rxExec re s n caps start sticky).2.log, e.Inside n) ∧
        ((rxExec re s n caps start sticky).1 = 1 →
          ∀ g ≤ rxMaxGroups, CapsWhole n (rxExec re s n caps start sticky).2.caps g) := by
  intro h
  have hcompile : rxCompile [40, 97, 92, 49, 41] [] = .ok rxSelf := by rfl
  have hone : (rxExec rxSelf (subject [98, 97]) 2 (fun _ => 0) 0 false).1 = 1 := by decide +kernel
  have hbegin : (rxExec rxSelf (subject [98, 97]) 2 (fun _ => 0) 0 false).2.caps (2 * 1) = 1 := by
    decide +kernel
  have hend : (rxExec rxSelf (subject [98, 97]) 2 (fun _ => 0) 0 false).2.caps (2 * 1 + 1) = 0 := by
    decide +kernel
  have hwhole := (h _ _ rxSelf hcompile (subject [98, 97]) 2 (fun _ => 0) 0 false).2 hone 1 (by decide)
  rw [CapsWhole, hbegin, hend] at hwhole
  omega

end BananaOS.Regex.Whole
