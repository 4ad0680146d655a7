import BananaOS.Zip.Extract

/-!
# What `safe_path` lets through

The output buffer is followed as a C string (`Holds`): `ksnprintf` puts the destination there, the
loop takes slashes off its end (`stripSlashes`), and every part of the name that is let through adds a
slash and itself.

**A destination that does not fit lets nothing through.**  `n` is then the length of the whole of it,
and `out[n - 1]` is behind the buffer.  Whatever is there, the loop stops at the zero that `ksnprintf`
wrote into the last byte of the buffer (`stripLoop_past`), so that `n` stays past the end and no part
fits.
-/

namespace BananaOS.Zip

open BananaOS.Lib
open BananaOS.Fs (slash dot dotdot pathLen nameLen)

variable {m m' : Memory} {s c dest name : Name} {cs : List Name} {cap n : ℕ} {o o' : Out}

/-- Every slash at the end but one that is the whole path is taken off. -/
def stripSlashes (s : Name) : Name :=
  if s.rdropWhile (· = slash) = [] then s.take 1 else s.rdropWhile (· = slash)

/-- A part that is a name of its own: not empty, not "." or "..", and no separator in it. -/
def Plain (c : Name) : Prop := c ≠ [] ∧ c ≠ dot ∧ c ≠ dotdot ∧ slash ∉ c

/-! ## C strings in memory -/

theorem byteAt_of_lt {i : ℕ} (h : i < s.length) : byteAt s i = s[i] := by
  rw [byteAt, List.getD_eq_getElem?_getD, List.getElem?_eq_getElem h, Option.getD_some]

theorem byteAt_append_right (i : ℕ) : byteAt (s ++ c) (s.length + i) = byteAt c i := by
  rw [byteAt, byteAt, List.getD_eq_getElem?_getD, List.getD_eq_getElem?_getD,
    List.getElem?_append_right (Nat.le_add_right ..), Nat.add_sub_cancel_left]

theorem byteAt_append_left {i : ℕ} (h : i < s.length) : byteAt (s ++ c) i = byteAt s i := by
  rw [byteAt, byteAt, List.getD_eq_getElem?_getD, List.getD_eq_getElem?_getD,
    List.getElem?_append_left h]

/-- The string and its zero are in memory. -/
def Holds (m : Memory) (s : Name) : Prop := (∀ i < s.length, m i = byteAt s i) ∧ m s.length = 0

theorem Holds.cString (h : Holds m s) (h0 : 0 ∉ s) (hcap : s.length < cap) : cString m cap = s := by
  obtain ⟨k, rfl⟩ : ∃ k, cap = s.length + (k + 1) := ⟨cap - s.length - 1, by omega⟩
  have hfront : (List.range s.length).map m = s := by
    refine List.ext_getElem (by simp) fun i h1 h2 => ?_
    rw [List.getElem_map, List.getElem_range, h.1 i h2, byteAt_of_lt h2]
  have hzero : m s.length = 0 := h.2
  unfold Zip.cString
  rw [List.range_add, List.map_append, hfront, List.takeWhile_append_of_pos, List.range_succ_eq_map]
  · simp [hzero]
  · intro x hx
    have hne : x ≠ 0 := fun h => h0 (h ▸ hx)
    simpa using hne

theorem holds_printString (h : s.length < cap) : Holds (printString m cap s) s := by
  have hmin : min s.length (cap - 1) = s.length := by omega
  unfold Holds printString
  rw [hmin]
  exact ⟨fun i hi => if_pos hi, by simp⟩

/-! ## The slashes at the end of the destination -/

theorem stripSlashes_append_slash (hs : s ≠ []) : stripSlashes (s ++ [slash]) = stripSlashes s := by
  unfold stripSlashes
  rw [List.rdropWhile_concat_pos _ _ _ (by simp)]
  split_ifs
  · rw [List.take_append_of_le_length (List.length_pos_iff.mpr hs)]
  · rfl

theorem stripSlashes_eq_self (h : s.length ≤ 1 ∨ s.getLast? ≠ some slash) : stripSlashes s = s := by
  unfold stripSlashes
  rcases s.eq_nil_or_concat with rfl | ⟨s, x, rfl⟩
  · rfl
  rw [List.concat_eq_append] at h ⊢
  by_cases hx : x = slash
  · subst hx
    have hs : s = [] := by
      rcases h with h | h
      · rw [List.length_append] at h
        exact List.length_eq_zero_iff.mp (by simpa using h)
      · simp at h
    subst hs
    rfl
  · rw [List.rdropWhile_concat_neg _ _ _ (by simpa using hx)]
    simp

theorem stripSlashes_start (s : Name) : stripSlashes s <+: s := by
  unfold stripSlashes
  split_ifs
  · exact List.take_prefix ..
  · exact List.rdropWhile_prefix ..

theorem stripSlashes_eq_nil : stripSlashes s = [] ↔ s = [] := by
  unfold stripSlashes
  split_ifs with h
  · simp
  · refine ⟨fun h' => absurd h' h, fun hs => ?_⟩
    subst hs
    rfl

/-- What the loop leaves in the buffer. -/
theorem stripLoop_holds (h : Holds m s) :
    Holds (stripLoop s.length m).1 (stripSlashes s) ∧
      (stripLoop s.length m).2 = (stripSlashes s).length := by
  induction s using List.reverseRecOn generalizing m with
  | nil => exact ⟨h, rfl⟩
  | append_singleton s x ih =>
    have hx : m s.length = x := by
      rw [h.1 s.length (by simp)]
      exact byteAt_append_right (c := [x]) 0
    rw [List.length_append, List.length_singleton, stripLoop, hx]
    split_ifs with hslash
    · obtain ⟨hpos, rfl⟩ := hslash
      rw [stripSlashes_append_slash (List.length_pos_iff.mp hpos)]
      refine ih ⟨fun i hi => ?_, Function.update_self ..⟩
      rw [Function.update_of_ne (by omega), h.1 i (by rw [List.length_append]; omega),
        byteAt_append_left hi]
    · rw [stripSlashes_eq_self]
      · exact ⟨h, by simp⟩
      · rcases Nat.eq_zero_or_pos s.length with h0 | hpos
        · left
          simp [h0]
        · right
          simpa using fun hxs => hslash ⟨hpos, hxs⟩

theorem stripLoop_past {k : ℕ} (hk : m k = 0) (hn : k < n) : k < (stripLoop n m).2 := by
  induction n generalizing m with
  | zero => omega
  | succ n ih =>
    rw [stripLoop]
    split_ifs with hslash
    · have hkn : k ≠ n := by
        rintro rfl
        rw [hk] at hslash
        exact absurd hslash.2 (by decide)
      exact ih (by rw [Function.update_of_ne hkn, hk]) (by omega)
    · exact hn

/-! ## The parts of the name -/

/-- The output so far is `s`. -/
def Out.Has (o : Out) (s : Name) : Prop := Holds o.mem s ∧ o.n = s.length

/-- The parts that are let through one after the other. -/
def Fits (cap : ℕ) (s : Name) (cs : List Name) : Prop :=
  (∀ c ∈ cs, Plain c ∧ c.length < nameLen) ∧ (cs = [] ∨ (s ++ joined slash cs).length < cap)

theorem addPart_has (hs : o.Has s) (hc : slash ∉ c) (h : addPart cap o c = some o') :
    ((c = [] ∨ c = dot) ∧ o' = o) ∨
      (Plain c ∧ c.length < nameLen ∧ (s ++ slash :: c).length < cap ∧
        o'.Has (s ++ slash :: c) ∧ o'.parts = o.parts + 1) := by
  unfold addPart at h
  split_ifs at h with h1 h2 h3
  · exact .inl ⟨h1, (Option.some.inj h).symm⟩
  · obtain ⟨hlen, hcap⟩ := not_or.mp h3
    obtain ⟨hne, hdot⟩ := not_or.mp h1
    rw [hs.2] at hcap
    refine .inr ⟨⟨hne, hdot, h2, hc⟩, by omega, by simp; omega, ?_, ?_⟩
    · obtain rfl := Option.some.inj h
      refine ⟨⟨fun i hi => ?_, ?_⟩, ?_⟩
      · rcases Nat.lt_or_ge i s.length with hlt | hge
        · rw [byteAt_append_left hlt, ← hs.1.1 i hlt]
          simp only [hs.2]
          rw [if_neg (by omega), if_neg (by omega), if_neg (by omega)]
        · obtain ⟨k, rfl⟩ := Nat.exists_eq_add_of_le hge
          rw [byteAt_append_right]
          rw [List.length_append, List.length_cons] at hi
          rcases k with - | k
          · exact if_pos hs.2.symm
          · simp only [hs.2]
            rw [if_neg (by omega), if_pos (by omega)]
            rw [show s.length + (k + 1) - (s.length + 1) = k by omega]
            rfl
      · simp only [hs.2, List.length_append, List.length_cons]
        rw [if_neg (by omega), if_neg (by omega), if_pos (by omega)]
      · simp only [hs.2, List.length_append, List.length_cons]
        omega
    · obtain rfl := Option.some.inj h
      rfl

theorem addParts_has {l : List Name} (hs : o.Has s) (hl : ∀ c ∈ l, slash ∉ c)
    (h : l.foldlM (addPart cap) o = some o') :
    ∃ cs, cs ⊆ l ∧ Fits cap s cs ∧ o'.Has (s ++ joined slash cs) ∧
      o'.parts = o.parts + cs.length := by
  induction l generalizing o s with
  | nil =>
    obtain rfl : o = o' := Option.some.inj h
    exact ⟨[], List.nil_subset _, ⟨by simp, .inl rfl⟩, by simpa using hs, rfl⟩
  | cons c l ih =>
    obtain ⟨hc, hl⟩ := List.forall_mem_cons.mp hl
    rw [List.foldlM_cons] at h
    obtain ⟨o₁, h₁, h₂⟩ := Option.bind_eq_some_iff.mp h
    rcases addPart_has hs hc h₁ with ⟨-, rfl⟩ | ⟨hplain, hlen, hcap, hs₁, hparts⟩
    · obtain ⟨cs, hsub, hrest⟩ := ih hs hl h₂
      exact ⟨cs, List.subset_cons_of_subset _ hsub, hrest⟩
    · obtain ⟨cs, hsub, ⟨hcs, hfit⟩, hs', hparts'⟩ := ih hs₁ hl h₂
      have hjoin : s ++ slash :: c ++ joined slash cs = s ++ joined slash (c :: cs) := by simp
      refine ⟨c :: cs, List.cons_subset_cons _ hsub,
        ⟨List.forall_mem_cons.mpr ⟨⟨hplain, hlen⟩, hcs⟩, .inr ?_⟩, hjoin ▸ hs', ?_⟩
      · rcases hfit with rfl | hfit
        · simpa using hcap
        · rwa [← hjoin]
      · rw [hparts', hparts, List.length_cons]
        omega

/-- Where the output is past the buffer's end nothing is added. -/
theorem addParts_past {l : List Name} (hn : cap ≤ o.n) (h : l.foldlM (addPart cap) o = some o') :
    o' = o := by
  induction l with
  | nil => exact (Option.some.inj h).symm
  | cons c l ih =>
    rw [List.foldlM_cons] at h
    obtain ⟨o₁, h₁, h₂⟩ := Option.bind_eq_some_iff.mp h
    have hstay : o₁ = o := by
      unfold addPart at h₁
      split_ifs at h₁ with h1 h2 h3
      · exact (Option.some.inj h₁).symm
      · omega
    exact ih (hstay ▸ h₂)

/-- **What is let through is the destination with plain names after it**, and it fits. -/
theorem safePath_eq (h0 : 0 ∉ dest) (hname : 0 ∉ name)
    (h : safePath m pathLen dest name = some m') :
    dest.length < pathLen ∧ ∃ cs, cs ≠ [] ∧ Fits pathLen (stripSlashes dest) cs ∧
      cString m' pathLen = stripSlashes dest ++ joined slash cs := by
  unfold safePath at h
  rw [if_neg (by rintro habs; rw [if_pos habs] at h; exact absurd h (by simp))] at h
  rcases hfold : (name.splitOn slash).foldlM (addPart pathLen)
    ⟨(stripLoop dest.length (printString m pathLen dest)).1,
      (stripLoop dest.length (printString m pathLen dest)).2, 0⟩ with - | o
  · simp only [hfold] at h
    exact absurd h (by simp)
  simp only [hfold] at h
  split_ifs at h with hparts
  obtain rfl := Option.some.inj h
  have hl : ∀ c ∈ name.splitOn slash, slash ∉ c := splitOn_forall_notMem
  rcases Nat.lt_or_ge dest.length pathLen with hfit | hover
  · obtain ⟨hstrip, hlen⟩ := stripLoop_holds (holds_printString (m := m) hfit)
    obtain ⟨cs, hsub, hcs, hhas, hcount⟩ := addParts_has (o := ⟨_, _, 0⟩) ⟨hstrip, hlen⟩ hl hfold
    have hne : cs ≠ [] := by
      rintro rfl
      exact hparts (by simpa using hcount)
    refine ⟨hfit, cs, hne, hcs, hhas.1.cString ?_ (hcs.2.resolve_left hne)⟩
    -- neither the destination nor a part of the name has a zero
    intro hmem
    rcases List.mem_append.mp hmem with hmem | hmem
    · exact h0 ((stripSlashes_start dest).subset hmem)
    · obtain ⟨c, hc, hzero⟩ := List.mem_flatMap.mp hmem
      rcases List.mem_cons.mp hzero with hzero | hzero
      · exact absurd hzero (by decide)
      · exact hname (subset_of_mem_splitOn (hsub hc) hzero)
  · exfalso
    have hzero : printString m pathLen dest (pathLen - 1) = 0 := by
      unfold printString
      rw [Nat.min_eq_right (by omega), if_neg (lt_irrefl _), if_pos rfl]
    have hpast := stripLoop_past hzero (n := dest.length) (by simp only [pathLen] at hover ⊢; omega)
    have hsame := addParts_past (by simp only [pathLen] at hpast ⊢; omega) hfold
    exact hparts (by rw [hsame])

/-- A name of one part that is no name to refuse is let through where there is room. -/
theorem safePath_folder (h0 : 0 ∉ dest) (hname : 0 ∉ name) (habs : isAbsolute name = false)
    (hsplit : name.splitOn slash = [c, []]) (hc : Plain c) (hshort : c.length < nameLen)
    (hdest : dest.length < pathLen) (hfit : (stripSlashes dest ++ slash :: c).length < pathLen) :
    ∃ m', safePath m pathLen dest name = some m' ∧
      cString m' pathLen = stripSlashes dest ++ slash :: c := by
  obtain ⟨hstrip, hlen⟩ := stripLoop_holds (holds_printString (m := m) hdest)
  set start := stripLoop dest.length (printString m pathLen dest) with hstart
  have hadd : ∃ o, addPart pathLen ⟨start.1, start.2, 0⟩ c = some o := by
    unfold addPart
    rw [if_neg (by rintro (h | h); exacts [hc.1 h, hc.2.1 h]), if_neg hc.2.2.1, if_neg]
    · exact ⟨_, rfl⟩
    · rw [List.length_append, List.length_cons] at hfit
      simp only [hlen]
      omega
  obtain ⟨o, ho⟩ := hadd
  rcases addPart_has ⟨hstrip, hlen⟩ hc.2.2.2 ho with ⟨hskip, -⟩ | ⟨-, -, -, hhas, hparts⟩
  · rcases hskip with h | h
    · exact absurd h hc.1
    · exact absurd h hc.2.1
  · refine ⟨o.mem, ?_, hhas.1.cString ?_ hfit⟩
    · have hfold : (name.splitOn slash).foldlM (addPart pathLen) ⟨start.1, start.2, 0⟩ = some o := by
        rw [hsplit, List.foldlM_cons, ho]
        rfl
      unfold safePath
      rw [habs, if_neg (by decide)]
      simp only [← hstart, hfold, hparts]
      rfl
    · intro hmem
      rcases List.mem_append.mp hmem with hmem | hmem
      · exact h0 ((stripSlashes_start dest).subset hmem)
      · rcases List.mem_cons.mp hmem with hzero | hzero
        · exact absurd hzero (by decide)
        · exact hname (subset_of_mem_splitOn (hsplit ▸ List.mem_cons_self) hzero)

end BananaOS.Zip
