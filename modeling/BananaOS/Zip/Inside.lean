import BananaOS.Lib.Triples
import BananaOS.Zip.Paths

/-!
# An archive stays inside the destination

Where a path leads is decided by `fs.c`: `expand_tilde` puts the home folder's path for a leading "~"
and cuts what is then too long, and the walk starts at the root or at the current folder.  `Contained`
says that a path leads where the destination leads and from there no higher.

`safe_path` compares none of this, and there are two destinations for which it does not follow from
plain names.  After the empty path, which is the current folder, a name begins with a slash and so at
the root.  And a path that begins with "~" grows by eleven bytes in `expand_tilde`: of a destination of
497 bytes and a name "..x" what is left after the cut ends in "/..".
-/

namespace BananaOS.Zip

open BananaOS.Lib
open BananaOS.Fs (slash dot dotdot pathLen nameLen expandTilde components startOf cut homePath)

variable {dest path c p : Name} {cs ds init : List Name} {cwd : ℤ} {d : ℕ}

/-! ## Going down and up again -/

/-- A walk along these names does not go above where it starts; `d` folders below that it is now. -/
def Stays : ℕ → List Name → Prop
  | _, [] => True
  | d, c :: cs =>
    if c = dot then Stays d cs
    else if c = dotdot then 0 < d ∧ Stays (d - 1) cs
    else Stays (d + 1) cs

theorem stays_append_plain (h : ∀ c ∈ init, Plain c) :
    Stays d (init ++ cs) ↔ Stays (d + init.length) cs := by
  induction init generalizing d with
  | nil => rfl
  | cons c init ih =>
    obtain ⟨hc, hinit⟩ := List.forall_mem_cons.mp h
    rw [List.cons_append, Stays, if_neg hc.2.1, if_neg hc.2.2.1, ih hinit, List.length_cons]
    rw [Nat.add_right_comm, Nat.add_assoc]

theorem stays_of_plain (h : ∀ c ∈ cs, Plain c) : Stays d cs := by
  rw [← List.append_nil cs, stays_append_plain h]
  trivial

theorem stays_singleton : Stays d [p] ↔ p ≠ dotdot ∨ 0 < d := by
  unfold Stays
  split_ifs with h1 h2
  · subst h1
    exact ⟨fun _ => .inl (by decide), fun _ => trivial⟩
  · subst h2
    simp [Stays]
  · exact ⟨fun _ => .inl h2, fun _ => trivial⟩

/-- The path leads to where the destination leads, or to a place below that. -/
def Contained (cwd : ℤ) (dest path : Name) : Prop :=
  startOf cwd (expandTilde path) = startOf cwd (expandTilde dest) ∧
    ∃ cs, components (expandTilde path) = components (expandTilde dest) ++ cs ∧ Stays 0 cs

theorem Contained.refl : Contained cwd dest dest := ⟨rfl, [], (List.append_nil _).symm, trivial⟩

/-! ## Components -/

theorem components_eq (path : Name) : components path = (pieces slash path).map cut := rfl

theorem cut_of_short (h : c.length < nameLen) : cut c = c :=
  List.take_of_length_le (by simp only [nameLen] at h ⊢; omega)

theorem components_append_joined (h : ∀ c ∈ cs, c ≠ [] ∧ slash ∉ c) (hs : ∀ c ∈ cs, c.length < nameLen) :
    components (path ++ joined slash cs) = components path ++ cs := by
  rw [components_eq, pieces_append_joined h, List.map_append, components_eq]
  congr 1
  calc cs.map cut = cs.map id := List.map_congr_left fun c hc => cut_of_short (hs c hc)
    _ = cs := List.map_id _

theorem components_stripSlashes (path : Name) : components (stripSlashes path) = components path := by
  induction path using List.reverseRecOn with
  | nil => rfl
  | append_singleton s x ih =>
    by_cases hx : x = slash ∧ s ≠ []
    · obtain ⟨rfl, hs⟩ := hx
      rw [stripSlashes_append_slash hs, ih, components_eq, components_eq, pieces_append_singleton]
    · rw [stripSlashes_eq_self]
      rcases eq_or_ne s [] with rfl | hs
      · exact .inl (by simp)
      · exact .inr (by simpa using fun hxs => hx ⟨hxs, hs⟩)

theorem components_append_slashes (path : Name) (k : ℕ) :
    components (path ++ List.replicate k slash) = components path := by
  induction k with
  | zero => rw [List.replicate_zero, List.append_nil]
  | succ k ih =>
    rw [List.replicate_succ', ← List.append_assoc, components_eq, pieces_append_singleton,
      ← components_eq, ih]

theorem exists_stripSlashes (path : Name) :
    ∃ k, path = stripSlashes path ++ List.replicate k slash := by
  induction path using List.reverseRecOn with
  | nil => exact ⟨0, rfl⟩
  | append_singleton s x ih =>
    by_cases hx : x = slash ∧ s ≠ []
    · obtain ⟨rfl, hs⟩ := hx
      obtain ⟨k, hk⟩ := ih
      refine ⟨k + 1, ?_⟩
      rw [stripSlashes_append_slash hs, List.replicate_succ', ← List.append_assoc, ← hk]
    · refine ⟨0, ?_⟩
      rw [stripSlashes_eq_self, List.replicate_zero, List.append_nil]
      rcases eq_or_ne s [] with rfl | hs
      · exact .inl (by simp)
      · exact .inr (by simpa using fun hxs => hx ⟨hxs, hs⟩)

/-! ## The home folder -/

/-- `expand_tilde` puts the home folder's path in. -/
def IsHome (p : Name) : Prop :=
  p.head? = some 126 ∧ (p.tail = [] ∨ p.tail.head? = some slash)

instance : Decidable (IsHome p) := by
  unfold IsHome
  infer_instance

theorem expandTilde_home {r : Name} (h : IsHome (126 :: r)) :
    expandTilde (126 :: r) = (homePath ++ r).take (pathLen - 1) := if_pos h.2

theorem expandTilde_of_not_home (h : ¬ IsHome p) : expandTilde p = p.take (pathLen - 1) := by
  unfold expandTilde
  split
  · rename_i r
    exact if_neg fun hr => h ⟨rfl, hr⟩
  · rfl

theorem startOf_expandTilde_home {r : Name} (h : IsHome (126 :: r)) :
    startOf cwd (expandTilde (126 :: r)) = 0 := by
  rw [expandTilde_home h]
  rfl

theorem head?_joined (cs : List Name) : joined slash cs = [] ∨ (joined slash cs).head? = some slash := by
  rcases cs with - | ⟨c, cs⟩
  · exact .inl rfl
  · exact .inr rfl

/-- A path under the destination is a home path when the destination is. -/
theorem isHome_append_joined (hdest : dest ≠ []) :
    IsHome (stripSlashes dest ++ joined slash cs) ↔ IsHome dest := by
  obtain ⟨k, hk⟩ := exists_stripSlashes dest
  obtain ⟨x, r, hr⟩ := List.exists_cons_of_ne_nil (mt stripSlashes_eq_nil.mp hdest)
  have hslashes : List.replicate k slash = [] ∨ (List.replicate k slash).head? = some slash := by
    rcases k with - | k
    · exact .inl rfl
    · exact .inr rfl
  have hhome : ∀ t : Name, t = [] ∨ t.head? = some slash →
      (IsHome (x :: (r ++ t)) ↔ x = 126 ∧ (r = [] ∨ r.head? = some slash)) := by
    intro t ht
    unfold IsHome
    rcases r with - | ⟨y, r⟩
    · simpa using fun _ => ht
    · simp
  rw [hr] at hk ⊢
  rw [List.cons_append, hhome _ (head?_joined cs), hk, List.cons_append, hhome _ hslashes]

/-! ## Where a path under the destination leads -/

/-- The path under a destination that is no home path. -/
theorem contained_of_not_home (hdest : dest ≠ [] ∨ cwd = 0) (hhome : ¬ IsHome dest)
    (hcs : ∀ c ∈ cs, Plain c ∧ c.length < nameLen) (hlen : dest.length < pathLen)
    (hfit : (stripSlashes dest ++ joined slash cs).length < pathLen) :
    Contained cwd dest (stripSlashes dest ++ joined slash cs) := by
  have hhome' : ¬ IsHome (stripSlashes dest ++ joined slash cs) := by
    rcases eq_or_ne dest [] with rfl | hne
    · rcases cs with - | ⟨c, cs⟩
      · exact hhome
      · exact fun h => absurd (Option.some.inj h.1) (by decide)
    · rwa [isHome_append_joined hne]
  rw [Contained, expandTilde_of_not_home hhome, expandTilde_of_not_home hhome',
    List.take_of_length_le (by omega), List.take_of_length_le (by omega)]
  refine ⟨?_, cs, ?_, stays_of_plain fun c hc => (hcs c hc).1⟩
  · unfold startOf
    rcases eq_or_ne dest [] with rfl | hne
    · rw [hdest.resolve_left (by simp)]
      simp
    · obtain ⟨k, hk⟩ := exists_stripSlashes dest
      obtain ⟨x, r, hr⟩ := List.exists_cons_of_ne_nil (mt stripSlashes_eq_nil.mp hne)
      rw [hr] at hk ⊢
      rw [hk]
      rfl
  · rw [components_append_joined (fun c hc => ⟨(hcs c hc).1.1, (hcs c hc).1.2.2.2⟩)
      fun c hc => (hcs c hc).2, components_stripSlashes]

/-- What a cut leaves of plain names does not go up, unless it is ".." alone. -/
theorem exists_cut_joined {n : ℕ} (hcs : ∀ c ∈ cs, Plain c ∧ c.length < nameLen) (hn : n ≠ 3) :
    ∃ ds, (∀ a, components (a ++ (joined slash cs).take n) = components a ++ ds) ∧ Stays 0 ds := by
  rcases take_joined n cs with ⟨init, hinit, htake⟩ | ⟨init, c, p, hinit, hp, htake⟩
  · have hplain : ∀ c ∈ init, Plain c ∧ c.length < nameLen := fun c hc => hcs c (hinit.subset hc)
    refine ⟨init, fun a => ?_, stays_of_plain fun c hc => (hplain c hc).1⟩
    rw [htake, components_append_joined (fun c hc => ⟨(hplain c hc).1.1, (hplain c hc).1.2.2.2⟩)
      fun c hc => (hplain c hc).2]
  · have hplain : ∀ d ∈ init ++ [c], Plain d ∧ d.length < nameLen :=
      fun d hd => hcs d (hinit.subset hd)
    obtain ⟨hin, hc⟩ := List.forall_mem_append.mp hplain
    obtain ⟨hc, hshort⟩ := hc c List.mem_cons_self
    have hpieces : ∀ d ∈ init, d ≠ [] ∧ slash ∉ d :=
      fun d hd => ⟨(hin d hd).1.1, (hin d hd).1.2.2.2⟩
    rcases eq_or_ne p [] with rfl | hpne
    · refine ⟨init, fun a => ?_, stays_of_plain fun d hd => (hin d hd).1⟩
      rw [htake, joined_append, ← List.append_assoc, joined_cons, List.nil_append, joined_nil,
        components_eq, pieces_append_singleton, ← components_eq,
        components_append_joined hpieces fun d hd => (hin d hd).2]
    · have hpc : p ≠ [] ∧ slash ∉ p := ⟨hpne, fun h => hc.2.2.2 (hp.subset h)⟩
      have hplen : p.length < nameLen := lt_of_le_of_lt hp.length_le hshort
      refine ⟨init ++ [p], fun a => ?_, ?_⟩
      · rw [htake, components_append_joined
          (List.forall_mem_append.mpr ⟨hpieces, by simpa using hpc⟩)
          (List.forall_mem_append.mpr ⟨fun d hd => (hin d hd).2, by simpa using hplen⟩)]
      · rw [stays_append_plain fun d hd => (hin d hd).1, stays_singleton]
        by_contra hup
        obtain ⟨hpdot, hlen⟩ := not_or.mp hup
        -- ".." alone is left: the name goes on, so that the cut is after three bytes
        obtain rfl : p = dotdot := not_not.mp hpdot
        obtain rfl : init = [] := List.length_eq_zero_iff.mp (by omega)
        have hlonger : dotdot.length < c.length := by
          refine lt_of_le_of_ne hp.length_le fun he => hc.2.2.1 ?_
          exact (hp.eq_of_length he).symm
        have hjoined : [c] <+: cs := hinit
        have hlong : c.length + 1 ≤ (joined slash cs).length := by
          obtain ⟨rest, rfl⟩ := hjoined
          simp
        have hthree := congrArg List.length htake
        rw [List.length_take] at hthree
        have : (joined slash ([] ++ [dotdot])).length = 3 := rfl
        have : dotdot.length = 2 := rfl
        omega

/-- **A path under the destination leads to a place under the destination**, but for the two. -/
theorem contained_of_plain (hdest : dest ≠ [] ∨ cwd = 0)
    (hhome : ¬ (IsHome dest ∧ (stripSlashes dest).length = 497))
    (hcs : ∀ c ∈ cs, Plain c ∧ c.length < nameLen) (hlen : dest.length < pathLen)
    (hfit : (stripSlashes dest ++ joined slash cs).length < pathLen) :
    Contained cwd dest (stripSlashes dest ++ joined slash cs) := by
  by_cases hh : IsHome dest
  · have hne : dest ≠ [] := by
      rintro rfl
      exact absurd hh (by decide)
    have hh' := (@isHome_append_joined dest cs hne).mpr hh
    obtain ⟨k, hk⟩ := exists_stripSlashes dest
    obtain ⟨x, r, hr⟩ := List.exists_cons_of_ne_nil (mt stripSlashes_eq_nil.mp hne)
    have h497 : (stripSlashes dest).length ≠ 497 := fun h => hhome ⟨hh, h⟩
    rw [hr] at hk hh' h497 ⊢
    obtain rfl : x = 126 := by simpa using hh'.1
    subst hk
    rw [List.cons_append] at hh hh' ⊢
    have hroot : homePath.length = 12 := rfl
    have hlen' : (homePath ++ r).length = 12 + r.length := by rw [List.length_append, hroot]
    have h496 : r.length ≠ 496 := fun h => h497 (by rw [List.length_cons, h])
    rw [Contained, List.cons_append, startOf_expandTilde_home hh, startOf_expandTilde_home hh',
      expandTilde_home hh, expandTilde_home hh', ← List.append_assoc, ← List.append_assoc,
      List.take_append, @List.take_append _ _ (List.replicate k slash), hlen']
    refine ⟨rfl, ?_⟩
    rcases Nat.lt_or_ge (12 + r.length) (pathLen - 1) with hshort | hlong
    · rw [List.take_of_length_le (by omega), List.take_replicate, components_append_slashes]
      obtain ⟨ds, hds, hstays⟩ := exists_cut_joined (n := pathLen - 1 - (12 + r.length)) hcs
        (by simp only [pathLen]; omega)
      exact ⟨ds, hds _, hstays⟩
    · rw [Nat.sub_eq_zero_of_le hlong, List.take_zero, List.take_zero]
      exact ⟨[], (List.append_nil _).symm, trivial⟩
  · exact contained_of_not_home hdest hh hcs hlen hfit

/-! ## The paths of one entry -/

/-- The path is the destination with names after it, each a name of its own. -/
structure Under (dest path : Name) : Prop where
  fits : dest.length < pathLen ∧ path.length < pathLen
  names : ∃ cs, (∀ c ∈ cs, Plain c ∧ c.length < nameLen) ∧
    path = stripSlashes dest ++ joined slash cs

/-- A home path after which a cut can leave "..". -/
def Strays (dest : Name) : Prop :=
  IsHome dest ∧ (stripSlashes dest).length = 497 ∧ dest.length < pathLen

instance : Decidable (Strays dest) := by
  unfold Strays
  infer_instance

theorem Under.contained (h : Under dest path) (hdest : dest ≠ [] ∨ cwd = 0)
    (hstrays : ¬ Strays dest) : Contained cwd dest path := by
  obtain ⟨cs, hcs, rfl⟩ := h.names
  exact contained_of_plain hdest (fun hh => hstrays ⟨hh.1, hh.2, h.fits.1⟩) hcs h.fits.1 h.fits.2

theorem parentOf_append {a : Name} (hc : slash ∉ c) :
    parentOf (a ++ slash :: c) = if a = [] then none else some a := by
  have hback : (a ++ slash :: c).rdropWhile (· ≠ slash) = a ++ [slash] := by
    induction c using List.reverseRecOn with
    | nil => rw [List.rdropWhile_concat_neg _ _ _ (by simp)]
    | append_singleton c x ih =>
      have hx : x ≠ slash := fun h => hc (by simp [h])
      rw [← List.cons_append, ← List.append_assoc, List.rdropWhile_concat_pos _ _ _ (by simpa using hx)]
      exact ih fun h => hc (List.mem_append_left _ h)
  unfold parentOf
  rw [hback, List.dropLast_concat]

/-- The path for an entry is under the destination, and so is the folder that is made for it. -/
theorem safePath_under {m m' : Memory} {name : Name} (h0 : 0 ∉ dest) (hname : 0 ∉ name)
    (h : safePath m pathLen dest name = some m') :
    Under dest (cString m' pathLen) ∧
      ∀ p, parentOf ((cString m' pathLen).take (pathLen - 1)) = some p → Under dest p := by
  obtain ⟨hlen, cs, hne, ⟨hcs, hfit⟩, hpath⟩ := safePath_eq h0 hname h
  have hlen' := hfit.resolve_left hne
  rw [hpath]
  refine ⟨⟨⟨hlen, hlen'⟩, cs, hcs, rfl⟩, fun p hp => ?_⟩
  rw [List.take_of_length_le (by omega)] at hp
  obtain ⟨cs, c, rfl⟩ := cs.eq_nil_or_concat.resolve_left hne
  rw [List.concat_eq_append] at hcs hp hlen'
  obtain ⟨hcs, hc⟩ := List.forall_mem_append.mp hcs
  rw [joined_append, joined_cons, joined_nil, List.append_nil, ← List.append_assoc] at hp hlen'
  rw [parentOf_append (hc c List.mem_cons_self).1.2.2.2] at hp
  split_ifs at hp
  obtain rfl := Option.some.inj hp
  refine ⟨⟨hlen, ?_⟩, cs, hcs, rfl⟩
  rw [List.length_append] at hlen'
  omega

/-! ## What an extraction changes -/

/-- Between two states the file tree was asked for changes at paths with `P` only. -/
def Asks {σ : Type} (P : Name → Prop) (s t : Extraction σ) : Prop :=
  ∃ l, t.changes = s.changes ++ l ∧ ∀ c ∈ l, P c.path

section Run

variable {σ α : Type} {P : Name → Prop} {w : World σ} {e : Entry}

instance : Std.Refl (Asks (σ := σ) P) := ⟨fun s => ⟨[], by simp, by simp⟩⟩

instance : IsTrans (Extraction σ) (Asks P) := ⟨by
  rintro s t u ⟨l, hl, hP⟩ ⟨l', hl', hP'⟩
  refine ⟨l ++ l', by rw [hl', hl, List.append_assoc], fun c hc => ?_⟩
  exact (List.mem_append.mp hc).elim (hP c) (hP' c)⟩

theorem asks_of_same {x : X σ α} (h : ∀ s, (x s).2.changes = s.changes) : Along (Asks P) x :=
  fun s => ⟨[], by rw [h, List.append_nil], by simp⟩

theorem call_pure (a : α) : (call (pure a) : X σ α) = pure a := rfl

theorem asks_call (x : StateM σ α) : Along (Asks P) (call x) := asks_of_same fun _ => rfl

theorem asks_count (f : Stats → Stats) : Along (Asks (σ := σ) P) (count f) :=
  asks_of_same fun _ => rfl

theorem asks_seterr (p : Problem) : Along (Asks (σ := σ) P) (seterr p) := asks_of_same fun _ => rfl

theorem asks_change {c : Change} (h : P c.path) : Along (Asks (σ := σ) P) (change c) :=
  fun _ => ⟨[c], rfl, by simpa using h⟩

theorem asks_skip (text : String) : Along (Asks (σ := σ) P) (skip e text) :=
  (asks_count _).bind fun _ => asks_seterr _

theorem asks_fail (text : String) : Along (Asks (σ := σ) P) (fail e text) :=
  (asks_count _).bind fun _ => asks_seterr _

theorem asks_needDir (h : P path) : Along (Asks P) (needDir w path) :=
  (asks_call _).bind fun _ => (Along.pure _).ite
    ((asks_change h).bind fun _ => (asks_call _).bind fun _ => Along.pure _)

theorem asks_makeParent (h : ∀ p, parentOf (path.take (pathLen - 1)) = some p → P p) :
    Along (Asks P) (makeParent w path) := by
  unfold makeParent
  cases hp : Zip.parentOf (path.take (pathLen - 1)) with
  | none => exact Along.pure _
  | some p => exact asks_needDir (h p hp)

theorem asks_isThere (overwrite : Overwrite) : Along (Asks P) (isThere w path overwrite) :=
  (asks_call _).bind fun _ => (Along.pure _).ite
    ((asks_call _).bind fun _ => (Along.pure _).ite (Along.pure _))

theorem asks_extractDir (h : P path) : Along (Asks P) (extractDir w e path) := by
  refine (asks_needDir h).bind fun ok => ?_
  refine Along.ite ?_ (asks_fail _)
  refine (asks_count _).bind fun _ => (asks_call _).bind fun d => ?_
  exact ((asks_change h).bind fun _ => asks_call _).ite (Along.pure _)

theorem asks_extractFile {z : Zr} {localOff : ℕ} (h : P path)
    (hp : ∀ p, parentOf (path.take (pathLen - 1)) = some p → P p) :
    Along (Asks P) (extractFile w z e localOff path) := by
  refine (asks_call _).bind fun data => ?_
  cases data with
  | error why => exact asks_fail _
  | ok data =>
    refine (asks_makeParent hp).bind fun ok => (asks_fail _).ite ?_
    refine (asks_change h).bind fun _ => (asks_call _).bind fun fi => (asks_fail _).ite ?_
    refine (asks_count _).bind fun _ => ?_
    exact ((asks_change h).bind fun _ => asks_call _).ite (Along.pure _)

/-- One entry: what is changed is under the destination. -/
theorem asks_extractEntry {z : Zr} {localOff : ℕ} {heap : Memory} {overwrite : Overwrite}
    (h0 : 0 ∉ dest) (hname : 0 ∉ e.name) (hP : ∀ p, Under dest p → P p) :
    Along (Asks P) (extractEntry w z dest overwrite heap e localOff) := by
  unfold extractEntry
  cases hsafe : safePath heap pathLen dest e.name with
  | none => exact asks_skip _
  | some m =>
    obtain ⟨hpath, hparent⟩ := safePath_under h0 hname hsafe
    refine (asks_skip _).ite ?_
    refine (asks_extractDir (hP _ hpath)).ite ?_
    refine (asks_skip _).ite ((asks_skip _).ite ?_)
    refine (asks_isThere _).bind fun there => (asks_skip _).ite ?_
    exact asks_extractFile (hP _ hpath) fun p hp => hP p (hparent p hp)

theorem zrNext_name {cd : Bytes} {pos localOff pos' : ℕ} (h : zrNext cd pos = .entry e localOff pos') :
    ∃ b, e.name = cleanName b := by
  unfold zrNext at h
  dsimp only at h
  split_ifs at h
  obtain ⟨rfl, -, -⟩ := Next.entry.inj h
  exact ⟨_, rfl⟩

theorem asks_extractLoop {z : Zr} {heap : ℕ → Memory} {overwrite : Overwrite} (h0 : 0 ∉ dest)
    (hP : ∀ p, Under dest p → P p) (n pos : ℕ) :
    Along (Asks P) (extractLoop w z dest overwrite heap n pos) := by
  induction n generalizing pos with
  | zero => exact Along.pure _
  | succ n ih =>
    unfold extractLoop
    cases hnext : zrNext z.cd pos with
    | stop => exact Along.pure _
    | damaged => exact Along.pure _
    | entry e localOff pos' =>
      obtain ⟨b, hb⟩ := zrNext_name hnext
      exact (asks_extractEntry h0 (hb ▸ zero_notMem_cleanName b) hP).bind fun _ => ih pos'

/-- A whole extraction: what is changed is the destination or under it. -/
theorem asks_zipExtract {heap : ℕ → Memory} {zip : Name} {overwrite : Overwrite} (h0 : 0 ∉ dest)
    (hdest : P dest) (hP : ∀ p, Under dest p → P p) :
    Along (Asks P) (zipExtract w heap zip dest overwrite) := by
  refine (asks_call _).bind fun z => ?_
  cases z with
  | error text => exact (asks_seterr _).bind fun _ => Along.pure _
  | ok z =>
    refine (asks_needDir hdest).bind fun ok => ?_
    refine Along.ite ((asks_seterr _).bind fun _ => Along.pure _) ?_
    refine (asks_call _).bind fun e => (asks_call _).bind fun p => ?_
    refine Along.ite ((asks_seterr _).bind fun _ => Along.pure _) ?_
    refine (asks_extractLoop h0 hP _ _).bind fun damaged => ?_
    exact Along.ite ((asks_count _).bind fun _ => (asks_seterr _).bind fun _ => Along.pure _)
      (Along.pure _)

theorem changesOf_forall {heap : ℕ → Memory} {zip : Name} {overwrite : Overwrite} {s : σ}
    (h0 : 0 ∉ dest) (hdest : P dest) (hP : ∀ p, Under dest p → P p) :
    ∀ c ∈ changesOf w heap zip dest overwrite s, P c.path := by
  obtain ⟨l, hl, h⟩ := asks_zipExtract (w := w) h0 hdest hP
    ⟨s, ⟨0, 0, 0, 0, 0⟩, none, []⟩
  rw [List.nil_append] at hl
  unfold changesOf
  rwa [hl]

end Run

/-! ## The two destinations -/

/-- An archive with one entry, a folder of that name and dated 1 January 2000. -/
def oneFolder (name : Name) : Bytes :=
  [0x50, 0x4b, 1, 2, 20, 3, 20, 0, 0, 8, 0, 0, 0, 0, 0x21, 0x28, 0, 0, 0, 0, 0, 0, 0, 0, 0, 0, 0, 0] ++
    [UInt8.ofNat name.length, 0, 0, 0, 0, 0, 0, 0, 0, 0, 0, 0, 0, 0, 0, 0, 0, 0] ++ name ++
  ([0x50, 0x4b, 5, 6, 0, 0, 0, 0, 1, 0, 1, 0, UInt8.ofNat (46 + name.length), 0, 0, 0] ++
    [0, 0, 0, 0, 0, 0])

/-- "a/" -/
def plainFolder : Name := [97, 47]

/-- "..x/" -/
def dotsFolder : Name := [46, 46, 120, 47]

theorem openBytes_oneFolder {name : Name} (h : name = plainFolder ∨ name = dotsFolder) :
    openBytes (oneFolder name) = .ok ⟨0, (oneFolder name).take (46 + name.length), 1⟩ := by
  rcases h with rfl | rfl <;> decide +kernel

theorem zrNext_oneFolder {name : Name} (h : name = plainFolder ∨ name = dotsFolder) :
    zrNext ((oneFolder name).take (46 + name.length)) 0 =
        .entry ⟨name, 0, 0, 946684800, 0, true, 0, false⟩ 0 (46 + name.length) ∧
      zrNext ((oneFolder name).take (46 + name.length)) (46 + name.length) = .stop := by
  rcases h with rfl | rfl <;> decide +kernel

/-- What extracting such an archive changes, where every path is a folder's. -/
theorem changesOf_oneFolder {name zip : Name} {heap : ℕ → Memory} {m : Memory}
    {inflate : ℕ → Bytes → Option Bytes} (h : name = plainFolder ∨ name = dotsFolder)
    (hsafe : safePath (heap 0) pathLen dest name = some m) :
    changesOf (holding (oneFolder name) inflate) heap zip dest false () =
      [.date (cString m pathLen) 946684800] := by
  obtain ⟨hentry, hstop⟩ := zrNext_oneFolder h
  obtain ⟨n, hn⟩ : ∃ n, ((oneFolder name).take (46 + name.length)).length = n + 1 := by
    rcases h with rfl | rfl
    · exact ⟨_, rfl⟩
    · exact ⟨_, rfl⟩
  unfold changesOf zipExtract
  rw [zrOpen_holding, openBytes_oneFolder h]
  simp only [call_pure, pure_bind, needDir, holding_findDir, holding_kmalloc, le_refl, if_true,
    reduceCtorEq, or_self, if_false, hn, extractLoop, hentry, hstop, extractEntry, hsafe, extractDir,
    holding_setTimes]
  rfl

/-! ## The result -/

/-- A string of C: bytes without a zero. -/
structure CString where
  bytes : Name
  noZero : 0 ∉ bytes

theorem not_contained_of_empty (hcwd : cwd ≠ 0) : ¬ Contained cwd [] (slash :: c) := by
  rintro ⟨hstart, -⟩
  exact hcwd hstart.symm

/-- What a cut leaves of "..x" after a home path of 497 bytes. -/
theorem not_contained_of_strays (h : Strays dest) :
    ¬ Contained cwd dest (stripSlashes dest ++ slash :: [46, 46, 120]) := by
  obtain ⟨hhome, hlen, -⟩ := h
  have hne : dest ≠ [] := by
    rintro rfl
    exact absurd hhome (by decide)
  have hhome' := (@isHome_append_joined dest [[46, 46, 120]] hne).mpr hhome
  obtain ⟨k, hk⟩ := exists_stripSlashes dest
  obtain ⟨x, r, hr⟩ := List.exists_cons_of_ne_nil (mt stripSlashes_eq_nil.mp hne)
  rw [joined_cons, joined_nil, List.append_nil] at hhome'
  rw [hr] at hk hhome' hlen ⊢
  obtain rfl : x = 126 := by simpa using hhome'.1
  subst hk
  rw [List.cons_append] at hhome hhome' ⊢
  rw [List.length_cons] at hlen
  have hroot : homePath.length = 12 := rfl
  have hlen' : (homePath ++ r).length = 508 := by
    rw [List.length_append, hroot]
    omega
  rintro ⟨-, cs, hcs, hstays⟩
  rw [List.cons_append, expandTilde_home hhome, expandTilde_home hhome', ← List.append_assoc,
    ← List.append_assoc, List.take_append, @List.take_append _ _ (List.replicate k slash), hlen',
    List.take_of_length_le (by rw [hlen']; decide), List.take_replicate,
    components_append_slashes] at hcs
  have hcut : (slash :: [46, 46, 120]).take (pathLen - 1 - 508) = joined slash [dotdot] := by
    decide
  rw [hcut, components_append_joined (by decide) (by decide)] at hcs
  rw [← List.append_cancel_left hcs, stays_singleton] at hstays
  exact absurd hstays (by decide)

/-- What extracting such an archive changes: a place right under the destination. -/
theorem changesOf_folder {name zip : Name} {inflate : ℕ → Bytes → Option Bytes} {heap : ℕ → Memory}
    (h : name = plainFolder ∨ name = dotsFolder) (h0 : 0 ∉ dest) (hdest : dest.length < pathLen)
    (hfit : (stripSlashes dest).length < 508) :
    changesOf (holding (oneFolder name) inflate) heap zip dest false () =
      [.date (stripSlashes dest ++ slash :: name.dropLast) 946684800] := by
  have hname : 0 ∉ name ∧ isAbsolute name = false ∧ name.splitOn slash = [name.dropLast, []] ∧
      Plain name.dropLast ∧ name.dropLast.length ≤ 3 := by
    unfold Plain
    rcases h with rfl | rfl <;> decide
  obtain ⟨hzero, habs, hsplit, hplain, hshort⟩ := hname
  obtain ⟨m', hsafe, hpath⟩ := safePath_folder (m := heap 0) h0 hzero habs hsplit hplain
    (by simp only [nameLen]; omega) hdest
    (by simp only [List.length_append, List.length_cons, pathLen]; omega)
  rw [changesOf_oneFolder h hsafe, hpath]

/-- **Nothing is made, written or dated outside of the destination**, whatever the archive, the file
tree and what is in memory, exactly when the destination is not the empty path (or the current folder
is the root) and no home path of 497 bytes that a cut can make stray.  The path itself is for every
destination that destination with plain names after it. -/
theorem zipExtract_stays_inside (dest : CString) (cwd : ℤ) :
    ((∀ (m m' : Memory) (b : Bytes), safePath m pathLen dest.bytes (cleanName b) = some m' →
        Under dest.bytes (cString m' pathLen)) ∧
      ∀ (σ : Type) (w : World σ) (heap : ℕ → Memory) (zip : Name) (overwrite : Overwrite) (s : σ),
        ∀ c ∈ changesOf w heap zip dest.bytes overwrite s, Contained cwd dest.bytes c.path) ↔
      (dest.bytes ≠ [] ∨ cwd = 0) ∧ ¬ Strays dest.bytes := by
  constructor
  · rintro ⟨-, hinside⟩
    have hfolder := fun name => hinside Unit (holding (oneFolder name) fun _ _ => none)
      (fun _ _ => 0) [] false ()
    refine ⟨?_, fun hstrays => ?_⟩
    · by_contra hempty
      obtain ⟨hdest, hcwd⟩ := not_or.mp hempty
      have hplain := hfolder plainFolder
      rw [not_not.mp hdest, changesOf_folder (.inl rfl) (by simp) (by decide) (by decide)] at hplain
      exact not_contained_of_empty hcwd (hplain _ List.mem_cons_self)
    · have hdots := hfolder dotsFolder
      rw [changesOf_folder (.inr rfl) dest.noZero hstrays.2.2 (by rw [hstrays.2.1]; decide)] at hdots
      exact not_contained_of_strays hstrays (hdots _ List.mem_cons_self)
  · rintro ⟨hdest, hstrays⟩
    refine ⟨fun m m' b h => (safePath_under dest.noZero (zero_notMem_cleanName b) h).1, ?_⟩
    intro σ w heap zip overwrite s
    exact changesOf_forall dest.noZero Contained.refl fun p hp => hp.contained hdest hstrays

/-- The empty destination leads to the current folder, and "a" in it to the root. -/
theorem empty_destination_escapes :
    ¬ ∀ (dest : CString) (cwd : ℤ) (σ : Type) (w : World σ) (heap : ℕ → Memory) (zip : Name)
        (overwrite : Overwrite) (s : σ),
      ∀ c ∈ changesOf w heap zip dest.bytes overwrite s, Contained cwd dest.bytes c.path := by
  intro h
  have hplain := h ⟨[], by simp⟩ 5 Unit (holding (oneFolder plainFolder) fun _ _ => none)
    (fun _ _ => 0) [] false ()
  rw [changesOf_folder (.inl rfl) (by simp) (by decide) (by decide)] at hplain
  exact not_contained_of_empty (by decide) (hplain _ List.mem_cons_self)

end BananaOS.Zip
