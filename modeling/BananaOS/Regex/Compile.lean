import BananaOS.Regex.Exec

/-!
# Compiling a pattern

`rx_compile` of `web/regex.c`.  What is left of the pattern, how many groups there are and what they are
called is the state of the parser (`Parse`).  A group within a group is parsed with one less of the
hundred levels, which is the recursion here; the loops end with the pattern, of which each turn takes
something.

Groups are numbered as they open, so that in a compiled tree no group of a lookahead is a group outside
it (`Numbered`, `rxCompile_numbered`).
-/

namespace BananaOS.Regex.Whole

/-- `rparse_t` -/
structure Parse where
  rest : List UInt8
  ngroups : ℕ
  names : List (ℕ × List UInt8)
  err : Option String

/-- `P->err = ..` -/
def Parse.fail (P : Parse) (e : String) : Parse := { P with err := some e }

def Parse.setRest (P : Parse) (rest : List UInt8) : Parse := { P with rest := rest }

/-- `P->p < P->end && *P->p == c`: what is left after it -/
def eat (c : UInt8) : List UInt8 → Option (List UInt8)
  | [] => none
  | b :: rest => if b = c then some rest else none

/-! ## Characters and classes -/

/-- `set_add` -/
def setAdd (set : List UInt8) (c : UInt8) : List UInt8 :=
  set.modify (c.toNat >>> 3) (· ||| (1 : UInt8) <<< (c &&& 7))

/-- `is_spc` -/
def isSpc (c : UInt8) : Bool :=
  c = 0x20 ∨ c = 9 ∨ c = 10 ∨ c = 13 ∨ c = 12 ∨ c = 11 ∨ c = 0xA0

/-- The bytes from `lo` to `hi` put into a set. -/
def setRange (set : List UInt8) (lo hi : ℕ) : List UInt8 :=
  (List.range' lo (hi + 1 - lo)).foldl (fun set c => setAdd set (UInt8.ofNat c)) set

/-- `class_escape` -/
def classEscape (set : List UInt8) (e : UInt8) : List UInt8 :=
  let neg : Bool := e = 0x44 ∨ e = 0x57 ∨ e = 0x53
  let b := lower e
  let has : UInt8 → Bool := fun c =>
    if b = 0x64 then isDig c else if b = 0x77 then isWordc c else isSpc c && decide (c < 0x80)
  ((List.range 256).map UInt8.ofNat).foldl (fun set c => if has c ≠ neg then setAdd set c else set) set

/-- The escapes of a class of characters: `\d`, `\D`, `\w`, `\W`, `\s` and `\S`. -/
def isClassEscape (e : UInt8) : Bool :=
  e = 0x64 ∨ e = 0x44 ∨ e = 0x77 ∨ e = 0x57 ∨ e = 0x73 ∨ e = 0x53

/-- `hexd`, `none` for -1 -/
def hexd (c : UInt8) : Option ℕ :=
  if isDig c then some (c.toNat - 0x30)
  else
    let c := lower c
    if 0x61 ≤ c ∧ c ≤ 0x66 then some (c.toNat - 0x61 + 10) else none

/-- The value of hexadecimal digits, if they are all there. -/
def hexValue (count : ℕ) (l : List UInt8) : Option ℕ :=
  if l.length < count then none
  else (l.take count).foldlM (fun v c => (hexd c).map fun d => v * 16 + d) 0

/-- `char_escape` of `x` -/
def hexEscape (rest : List UInt8) : UInt8 × List UInt8 :=
  match hexValue 2 rest with
  | some v => (UInt8.ofNat v, rest.drop 2)
  | none => (0x78, rest)

/-- `char_escape` of `u` -/
def unicodeEscape (rest : List UInt8) : UInt8 × List UInt8 :=
  match hexValue 4 rest with
  | some v => (if v < 256 then UInt8.ofNat v else 0x3F, rest.drop 4)
  | none =>
    if rest.head? = some 0x7B then (0x3F, (rest.dropWhile (· ≠ 0x7D)).drop 1) else (0x75, rest)

/-- `char_escape` of `c` -/
def controlEscape : List UInt8 → UInt8 × List UInt8
  | [] => (0x63, [])
  | c :: rest => (c &&& 31, rest)

/-- `char_escape`: the character, and what is left after it -/
def charEscape (e : UInt8) (rest : List UInt8) : UInt8 × List UInt8 :=
  if e = 0x6E then (10, rest)
  else if e = 0x74 then (9, rest)
  else if e = 0x72 then (13, rest)
  else if e = 0x66 then (12, rest)
  else if e = 0x76 then (11, rest)
  else if e = 0x30 then (0, rest)
  else if e = 0x78 then hexEscape rest
  else if e = 0x75 then unicodeEscape rest
  else if e = 0x63 then controlEscape rest
  else (e, rest)

/-- The character after a `-`, which may be escaped. -/
def rangeChar (c : UInt8) : List UInt8 → UInt8 × List UInt8
  | [] => (c, [])
  | e :: rest => if c = 0x5C then charEscape e rest else (c, e :: rest)

/-- The end of a range in a class, if one follows. -/
def rangeEnd (lo : UInt8) : List UInt8 → UInt8 × List UInt8
  | [] => (lo, [])
  | [c] => (lo, [c])
  | c1 :: c2 :: rest =>
    if c1 = 0x2D ∧ c2 ≠ 0x5D then rangeChar c2 rest else (lo, c1 :: c2 :: rest)

/-- From one character of a class on: the range it begins, and what is left. -/
def classRange (set : List UInt8) (x : UInt8 × List UInt8) : List UInt8 × List UInt8 :=
  let y := rangeEnd x.1 x.2
  let lo := min x.1.toNat y.1.toNat
  let hi := max x.1.toNat y.1.toNat
  let set := setRange set lo hi
  -- non-ASCII ranges (UTF-8 text): all continuation and lead bytes
  (if 0x80 ≤ hi then setRange set 0x80 255 else set, y.2)

/-- One turn of the loop of `parse_class`, after a `\`. -/
def classEscaped (set : List UInt8) : List UInt8 → List UInt8 × List UInt8
  | [] => classRange set (0x5C, [])
  | e :: rest =>
    if isClassEscape e then (classEscape set e, rest)
    else if e = 0x62 then classRange set (8, rest)
    else classRange set (charEscape e rest)

/-- One turn of the loop of `parse_class`, which begins with `c`. -/
def classItem (set : List UInt8) (c : UInt8) (rest : List UInt8) : List UInt8 × List UInt8 :=
  if c = 0x5C then classEscaped set rest else classRange set (c, rest)

/-- The loop of `parse_class`. -/
def classLoop : ℕ → Bool → List UInt8 → List UInt8 → List UInt8 × List UInt8
  | 0, _, set, rest => (set, rest)
  | _ + 1, _, set, [] => (set, [])
  | turns + 1, first, set, c :: rest =>
    if c = 0x5D ∧ first = false then (set, c :: rest)
    else
      let x := classItem set c rest
      classLoop turns false x.1 x.2

/-- Both cases of each letter. -/
def foldCase (set : List UInt8) : List UInt8 :=
  ((List.range' 0x61 26).map UInt8.ofNat).foldl (fun set c =>
    let set := if setHas set c then setAdd set (c - 32) else set
    if setHas set (c - 32) then setAdd set c else set) set

/-- `parse_class` -/
def parseClass (icase : Bool) (P : Parse) : Node × Parse :=
  let neg : Bool := P.rest.head? = some 0x5E
  let rest := if neg then P.rest.drop 1 else P.rest
  let x := classLoop rest.length true (List.replicate 32 0) rest
  match x.2 with
  | [] => (.cls x.1 neg, (P.setRest []).fail "unterminated character class")
  | _ :: rest => (.cls (if icase then foldCase x.1 else x.1) neg, P.setRest rest)

/-! ## Atoms and pieces -/

/-- The digits of `parse_int`, from the value of those before on. -/
def intDigits (v : ℕ) : List UInt8 → ℕ × List UInt8
  | [] => (v, [])
  | c :: rest =>
    if isDig c then intDigits (min (v * 10 + (c.toNat - 0x30)) 100000) rest else (v, c :: rest)

/-- `parse_int`, `none` if there is none -/
def parseInt (rest : List UInt8) : Option (ℕ × List UInt8) :=
  match rest with
  | [] => none
  | c :: _ => if isDig c then some (intDigits 0 rest) else none

/-- The digits of a back reference after the first, as long as there are so many groups. -/
def backDigits (ngroups g : ℕ) : List UInt8 → ℕ × List UInt8
  | [] => (g, [])
  | c :: rest =>
    if isDig c ∧ g * 10 + (c.toNat - 0x30) ≤ ngroups then backDigits ngroups (g * 10 + (c.toNat - 0x30)) rest
    else (g, c :: rest)

/-- A name and what is left after the `>` that ends it. -/
def nameOf (rest : List UInt8) : List UInt8 × List UInt8 :=
  (rest.takeWhile (· ≠ 0x3E), (rest.dropWhile (· ≠ 0x3E)).drop 1)

/-- The group of a name, the last one if there are several; 0 if there is none. -/
def groupNamed (P : Parse) (name : List UInt8) : ℕ :=
  (List.range' 1 (min P.ngroups rxMaxGroups)).foldl (fun g i =>
    if (P.names.find? fun x => x.1 = i).map (fun x => x.2.takeWhile (· ≠ 0)) = some name then i else g) 0

/-- What follows a `\`. -/
def parseEscape (P : Parse) : Node × Parse :=
  match P.rest with
  | [] => (.char 0x5C, P)
  | e :: rest =>
    let P := P.setRest rest
    if isClassEscape e then (.cls (classEscape (List.replicate 32 0) e) false, P)
    else if e = 0x62 then (.wordb, P)
    else if e = 0x42 then (.nwordb, P)
    else if 0x31 ≤ e ∧ e ≤ 0x39 then
      let x := backDigits P.ngroups (e.toNat - 0x30) rest
      (.backref x.1, P.setRest x.2)
    else if e = 0x6B ∧ rest.head? = some 0x3C then
      let x := nameOf (rest.drop 1)
      (.backref (groupNamed P x.1), P.setRest x.2)
    else
      let x := charEscape e rest
      (.char x.1, P.setRest x.2)

/-- The next group: its number, 0 if there are too many. -/
def newGroup (P : Parse) : ℕ × Parse :=
  (if P.ngroups + 1 > rxMaxGroups then 0 else P.ngroups + 1, { P with ngroups := P.ngroups + 1 })

/-- What follows a `(?`, up to what the group holds: what the node will be, and the state. -/
def openSpecial (P : Parse) : (List Node → Node) × Parse :=
  match P.rest with
  | [] => (.group 0, P.fail "unsupported group")
  | t :: rest =>
    if t = 0x3A then (.group 0, P.setRest rest)
    else if t = 0x3D then (.look .ahead, P.setRest rest)
    else if t = 0x21 then (.look .notAhead, P.setRest rest)
    else if t = 0x3C ∧ (rest.head? = some 0x3D ∨ rest.head? = some 0x21) then
      -- lookbehind: unsupported
      (.look .behind, P.setRest (rest.drop 1))
    else if t = 0x3C then
      let x := nameOf rest
      let g := newGroup (P.setRest x.2)
      (.group g.1, { g.2 with
        names := if g.2.ngroups ≤ rxMaxGroups then (g.2.ngroups, x.1) :: g.2.names else g.2.names })
    else (.group 0, (P.setRest rest).fail "unsupported group")

/-- What follows a `(`. -/
def openGroup (P : Parse) : (List Node → Node) × Parse :=
  match eat 0x3F P.rest with
  | some rest => openSpecial (P.setRest rest)
  | none =>
    let g := newGroup P
    (.group g.1, g.2)

/-- `parse_atom`, of a pattern of which something is left; `nested` is `parse_alt` one level down,
`none` when there are too many levels. -/
def parseAtom (icase : Bool) (nested : Option (Parse → List Node × Parse)) (P : Parse) : Node × Parse :=
  match P.rest with
  | [] => (.any, P)
  | c :: rest =>
    let P := P.setRest rest
    if c = 0x2E then (.any, P)
    else if c = 0x5E then (.bol, P)
    else if c = 0x24 then (.eol, P)
    else if c = 0x5B then parseClass icase P
    else if c = 0x28 then
      match nested with
      | none => (.any, P.fail "pattern nested too deeply")
      | some parseAlt =>
        let x := openGroup P
        let y := parseAlt x.2
        match eat 0x29 y.2.rest with
        | some rest => (x.1 y.1, y.2.setRest rest)
        | none => (x.1 y.1, y.2.fail "missing )")
    else if c = 0x5C then parseEscape P
    else (.char c, P)

/-- A quantifier in braces, after the `{`. -/
def braces (rest : List UInt8) : Option ((ℕ × Option ℕ) × List UInt8) :=
  match parseInt rest with
  | none => none
  | some (lo, rest) =>
    let x : Option ℕ × List UInt8 :=
      match eat 0x2C rest with
      | none => (some lo, rest)
      | some rest =>
        match parseInt rest with
        | some (hi, rest) => (some hi, rest)
        | none => (none, rest)
    (eat 0x7D x.2).map fun rest => ((lo, x.1), rest)

/-- A quantifier: the bounds, and what is left. -/
def quantifier : List UInt8 → Option ((ℕ × Option ℕ) × List UInt8)
  | [] => none
  | q :: rest =>
    if q = 0x2A then some ((0, none), rest)
    else if q = 0x2B then some ((1, none), rest)
    else if q = 0x3F then some ((0, some 1), rest)
    else if q = 0x7B then braces rest
    else none

/-- `parse_piece`, with `parse_atom` -/
def parsePiece (atom : Parse → Node × Parse) (P : Parse) : List Node × Parse :=
  let x := atom P
  if x.2.err.isSome ∨ x.2.rest = [] then ([x.1], x.2)
  else
    match quantifier x.2.rest with
    | some ((min, max), rest) =>
      match eat 0x3F rest with
      | some rest => ([.rep min max true [x.1]], x.2.setRest rest)
      | none => ([.rep min max false [x.1]], x.2.setRest rest)
    | none =>
      match eat 0x7B x.2.rest with
      | some rest => ([x.1, .char 0x7B], x.2.setRest rest)      -- a literal `{`
      | none => ([x.1], x.2)

/-! ## Sequences and alternatives -/

/-- A sequence goes on. -/
def Parse.more (P : Parse) : Bool :=
  P.err.isNone && (match P.rest with
    | [] => false
    | c :: _ => c ≠ 0x7C && c ≠ 0x29)

/-- The loop of `parse_seq`. -/
def seqLoop (piece : Parse → List Node × Parse) : ℕ → Parse → List Node × Parse
  | 0, P => ([], P)
  | turns + 1, P =>
    if P.more then
      let x := piece P
      let y := seqLoop piece turns x.2
      (x.1 ++ y.1, y.2)
    else ([], P)

/-- `parse_seq` -/
def parseSeq (piece : Parse → List Node × Parse) (P : Parse) : List Node × Parse :=
  seqLoop piece P.rest.length P

/-- The loop of `parse_alt`. -/
def altOptions (seq : Parse → List Node × Parse) : ℕ → Parse → List (List Node) × Parse
  | 0, P => ([], P)
  | turns + 1, P =>
    match if P.err.isNone then eat 0x7C P.rest else none with
    | some rest =>
      let x := seq (P.setRest rest)
      let y := altOptions seq turns x.2
      (x.1 :: y.1, y.2)
    | none => ([], P)

/-- `parse_alt`, with `parse_seq` -/
def altOf (seq : Parse → List Node × Parse) (P : Parse) : List Node × Parse :=
  let x := seq P
  if (eat 0x7C x.2.rest).isSome then
    let y := altOptions seq x.2.rest.length x.2
    ([.alt (x.1 :: y.1)], y.2)
  else x

/-- `parse_alt`, with so many levels left -/
def parseAlt (icase : Bool) : ℕ → Parse → List Node × Parse
  | 0 => altOf (parseSeq (parsePiece (parseAtom icase none)))
  | levels + 1 => altOf (parseSeq (parsePiece (parseAtom icase (some (parseAlt icase levels)))))

/-- `rx_compile`: the pattern, or `*err` -/
def rxCompile (pattern flags : List UInt8) : Except String Rx :=
  let icase : Bool := 0x69 ∈ flags
  let x := parseAlt icase 100 ⟨pattern, 0, [], none⟩
  match x.2.err with
  | some e => .error e
  | none =>
    if x.2.rest = [] then
      .ok ⟨x.1, x.2.ngroups, icase, 0x6D ∈ flags, 0x73 ∈ flags, x.2.names⟩
    else .error "unmatched )"

/-! ## What is left of the pattern -/

theorem eat_length {c : UInt8} {l rest : List UInt8} (h : eat c l = some rest) :
    rest.length < l.length := by
  cases l with
  | nil => simp [eat] at h
  | cons b l =>
    rw [eat] at h
    split_ifs at h
    obtain rfl := Option.some.inj h
    exact Nat.lt_succ_self _

theorem length_hexEscape (rest : List UInt8) : (hexEscape rest).2.length ≤ rest.length := by
  rw [hexEscape]
  cases hexValue 2 rest with
  | some v => exact (List.drop_sublist _ _).length_le
  | none => exact Nat.le_refl _

theorem length_unicodeEscape (rest : List UInt8) : (unicodeEscape rest).2.length ≤ rest.length := by
  rw [unicodeEscape]
  cases hexValue 4 rest with
  | some v => exact (List.drop_sublist _ _).length_le
  | none =>
    dsimp only
    split_ifs
    · exact (List.drop_sublist _ _).length_le.trans (List.dropWhile_sublist _).length_le
    · exact Nat.le_refl _

theorem length_controlEscape (rest : List UInt8) : (controlEscape rest).2.length ≤ rest.length := by
  cases rest with
  | nil => exact Nat.le_refl _
  | cons c rest => exact Nat.le_succ _

theorem length_charEscape (e : UInt8) (rest : List UInt8) :
    (charEscape e rest).2.length ≤ rest.length := by
  rw [charEscape]
  split_ifs
  case pos => exact Nat.le_refl _
  case pos => exact Nat.le_refl _
  case pos => exact Nat.le_refl _
  case pos => exact Nat.le_refl _
  case pos => exact Nat.le_refl _
  case pos => exact Nat.le_refl _
  · exact length_hexEscape rest
  · exact length_unicodeEscape rest
  · exact length_controlEscape rest
  · exact Nat.le_refl _

theorem length_rangeChar (c : UInt8) (rest : List UInt8) :
    (rangeChar c rest).2.length ≤ rest.length := by
  cases rest with
  | nil => exact Nat.le_refl _
  | cons e rest =>
    rw [rangeChar]
    split_ifs
    · exact (length_charEscape e rest).trans (Nat.le_succ _)
    · exact Nat.le_refl _

theorem length_rangeEnd (lo : UInt8) (rest : List UInt8) : (rangeEnd lo rest).2.length ≤ rest.length := by
  rcases rest with _ | ⟨c1, _ | ⟨c2, rest⟩⟩
  · exact Nat.le_refl _
  · exact Nat.le_refl _
  · rw [rangeEnd]
    split_ifs
    · exact (length_rangeChar c2 rest).trans ((Nat.le_succ _).trans (Nat.le_succ _))
    · exact Nat.le_refl _

theorem length_classRange (set : List UInt8) (x : UInt8 × List UInt8) :
    (classRange set x).2.length ≤ x.2.length := length_rangeEnd _ _

theorem length_classEscaped (set rest : List UInt8) : (classEscaped set rest).2.length ≤ rest.length := by
  cases rest with
  | nil => exact length_classRange _ _
  | cons e rest =>
    rw [classEscaped]
    split_ifs
    · exact Nat.le_succ _
    · exact (length_classRange _ _).trans (Nat.le_succ _)
    · exact (length_classRange _ _).trans ((length_charEscape _ _).trans (Nat.le_succ _))

theorem length_classItem (set : List UInt8) (c : UInt8) (rest : List UInt8) :
    (classItem set c rest).2.length ≤ rest.length := by
  rw [classItem]
  split_ifs
  · exact length_classEscaped _ _
  · exact length_classRange _ _

theorem length_classLoop (turns : ℕ) (first : Bool) (set rest : List UInt8) :
    (classLoop turns first set rest).2.length ≤ rest.length := by
  induction turns generalizing first set rest with
  | zero => exact Nat.le_refl _
  | succ turns ih =>
    cases rest with
    | nil => exact Nat.le_refl _
    | cons c rest =>
      rw [classLoop]
      split_ifs
      · exact Nat.le_refl _
      · exact (ih _ _ _).trans ((length_classItem set c rest).trans (Nat.le_succ _))

theorem length_backDigits (ngroups g : ℕ) (rest : List UInt8) :
    (backDigits ngroups g rest).2.length ≤ rest.length := by
  induction rest generalizing g with
  | nil => exact Nat.le_refl _
  | cons c rest ih =>
    rw [backDigits]
    split_ifs
    · exact (ih _).trans (Nat.le_succ _)
    · exact Nat.le_refl _

theorem length_nameOf (rest : List UInt8) : (nameOf rest).2.length ≤ rest.length :=
  (List.drop_sublist _ _).length_le.trans (List.dropWhile_sublist _).length_le

theorem length_intDigits (v : ℕ) (rest : List UInt8) : (intDigits v rest).2.length ≤ rest.length := by
  induction rest generalizing v with
  | nil => exact Nat.le_refl _
  | cons c rest ih =>
    rw [intDigits]
    split_ifs
    · exact (ih _).trans (Nat.le_succ _)
    · exact Nat.le_refl _

theorem length_parseInt {rest : List UInt8} {x : ℕ × List UInt8} (h : parseInt rest = some x) :
    x.2.length ≤ rest.length := by
  cases rest with
  | nil => simp [parseInt] at h
  | cons c rest =>
    rw [parseInt] at h
    split_ifs at h
    obtain rfl := Option.some.inj h
    exact length_intDigits _ _

theorem length_braces {rest : List UInt8} {x : (ℕ × Option ℕ) × List UInt8} (h : braces rest = some x) :
    x.2.length ≤ rest.length := by
  rw [braces] at h
  cases hlo : parseInt rest with
  | none => simp [hlo] at h
  | some a =>
    have ha := length_parseInt hlo
    rw [hlo] at h
    dsimp only at h
    obtain ⟨r, hr, rfl⟩ := Option.map_eq_some_iff.mp h
    refine (Nat.le_of_lt (eat_length hr)).trans (le_trans ?_ ha)
    cases hcomma : eat 0x2C a.2 with
    | none => exact Nat.le_refl _
    | some l =>
      have hl := eat_length hcomma
      dsimp only
      cases hhi : parseInt l with
      | none => exact Nat.le_of_lt hl
      | some b => exact (length_parseInt hhi).trans (Nat.le_of_lt hl)

theorem length_quantifier {l : List UInt8} {x : (ℕ × Option ℕ) × List UInt8} (h : quantifier l = some x) :
    x.2.length ≤ l.length := by
  cases l with
  | nil => simp [quantifier] at h
  | cons q rest =>
    rw [quantifier] at h
    split_ifs at h with h1 h2 h3 h4
    · obtain rfl := Option.some.inj h
      exact Nat.le_succ _
    · obtain rfl := Option.some.inj h
      exact Nat.le_succ _
    · obtain rfl := Option.some.inj h
      exact Nat.le_succ _
    · exact (length_braces h).trans (Nat.le_succ _)

/-! ## The numbers of the groups -/

mutual

/-- The groups of a node are numbered from after `lo` to `hi`, as they open; those beyond the last
number there is are 0. -/
def Node.Numbered (lo hi : ℕ) : Node → Prop
  | .group g child =>
    (g = 0 ∧ ∃ mid, lo ≤ mid ∧ SeqNumbered mid hi child) ∨
      (lo < g ∧ g ≤ rxMaxGroups ∧ SeqNumbered g hi child)
  | .alt options => OptionsNumbered lo hi options
  | .rep _ _ _ child => SeqNumbered lo hi child
  | .look _ child => SeqNumbered lo hi child
  | _ => lo = hi

/-- Those of a sequence. -/
def SeqNumbered (lo hi : ℕ) : List Node → Prop
  | [] => lo = hi
  | node :: next => ∃ mid, node.Numbered lo mid ∧ SeqNumbered mid hi next

/-- Those of alternatives. -/
def OptionsNumbered (lo hi : ℕ) : List (List Node) → Prop
  | [] => lo = hi
  | o :: options => ∃ mid, SeqNumbered lo mid o ∧ OptionsNumbered mid hi options

end

theorem seqNumbered_nil {lo hi : ℕ} : SeqNumbered lo hi [] ↔ lo = hi := by rw [SeqNumbered]

theorem seqNumbered_cons {lo hi : ℕ} {node : Node} {next : List Node} :
    SeqNumbered lo hi (node :: next) ↔ ∃ mid, node.Numbered lo mid ∧ SeqNumbered mid hi next := by
  rw [SeqNumbered]

theorem seqNumbered_singleton {lo hi : ℕ} {node : Node} :
    SeqNumbered lo hi [node] ↔ node.Numbered lo hi := by
  rw [seqNumbered_cons]
  constructor
  · rintro ⟨mid, h, hmid⟩
    rwa [seqNumbered_nil.mp hmid] at h
  · exact fun h => ⟨hi, h, seqNumbered_nil.mpr rfl⟩

theorem seqNumbered_append {lo mid hi : ℕ} {l more : List Node} (h : SeqNumbered lo mid l)
    (hmore : SeqNumbered mid hi more) : SeqNumbered lo hi (l ++ more) := by
  induction l generalizing lo with
  | nil => rwa [seqNumbered_nil.mp h]
  | cons node next ih =>
    obtain ⟨m, hnode, hnext⟩ := seqNumbered_cons.mp h
    exact seqNumbered_cons.mpr ⟨m, hnode, ih hnext⟩

/-! ## What the parser takes, and what it makes of it -/

/-- A parser of sequences takes no more than there is, and numbers the groups. -/
structure Took (P : Parse) (x : List Node × Parse) : Prop where
  rest : x.2.rest.length ≤ P.rest.length
  numbered : SeqNumbered P.ngroups x.2.ngroups x.1

/-- An atom takes something. -/
structure TookAtom (P : Parse) (x : Node × Parse) : Prop where
  rest : x.2.rest.length < P.rest.length
  numbered : x.1.Numbered P.ngroups x.2.ngroups

/-- What follows a `(` numbers the group. -/
structure Opened (P : Parse) (x : (List Node → Node) × Parse) : Prop where
  rest : x.2.rest.length ≤ P.rest.length
  numbered : ∀ {hi : ℕ} {child : List Node}, SeqNumbered x.2.ngroups hi child →
    (x.1 child).Numbered P.ngroups hi

theorem opened_newGroup (P : Parse) : Opened P (.group (newGroup P).1, (newGroup P).2) where
  rest := Nat.le_refl _
  numbered := by
    intro hi child h
    rw [Node.Numbered, newGroup]
    dsimp only
    split_ifs with hmany
    · exact Or.inl ⟨rfl, P.ngroups + 1, Nat.le_succ _, h⟩
    · exact Or.inr ⟨Nat.lt_succ_self _, Nat.le_of_not_lt hmany, h⟩

theorem opened_plain {P P' : Parse} (hrest : P'.rest.length ≤ P.rest.length)
    (hn : P'.ngroups = P.ngroups) : Opened P (.group 0, P') where
  rest := hrest
  numbered := fun h => by
    rw [Node.Numbered]
    exact Or.inl ⟨rfl, P'.ngroups, hn.ge, h⟩

theorem opened_look {P P' : Parse} (neg : Look) (hrest : P'.rest.length ≤ P.rest.length)
    (hn : P'.ngroups = P.ngroups) : Opened P (.look neg, P') where
  rest := hrest
  numbered := fun h => by
    rw [Node.Numbered, ← hn]
    exact h

theorem opened_openSpecial (P : Parse) : Opened P (openSpecial P) := by
  rw [openSpecial]
  cases hP : P.rest with
  | nil => exact opened_plain (Nat.le_refl _) rfl
  | cons t rest =>
    have hle : rest.length ≤ P.rest.length := by
      rw [hP]
      exact Nat.le_succ _
    dsimp only
    split_ifs
    · exact opened_plain hle rfl
    · exact opened_look _ hle rfl
    · exact opened_look _ hle rfl
    · exact opened_look _ ((List.drop_sublist _ _).length_le.trans hle) rfl
    · have hnew := opened_newGroup (P.setRest (nameOf rest).2)
      exact ⟨(length_nameOf rest).trans hle, hnew.numbered⟩
    · have hnew := opened_newGroup (P.setRest (nameOf rest).2)
      exact ⟨(length_nameOf rest).trans hle, hnew.numbered⟩
    · exact opened_plain hle rfl

theorem opened_openGroup (P : Parse) : Opened P (openGroup P) := by
  rw [openGroup]
  cases hP : eat 0x3F P.rest with
  | none => exact opened_newGroup P
  | some rest =>
    have hspecial := opened_openSpecial (P.setRest rest)
    exact ⟨hspecial.rest.trans (Nat.le_of_lt (eat_length hP)), hspecial.numbered⟩

theorem Node.Bare.numbered {node : Node} (h : node.Bare) (n : ℕ) : node.Numbered n n := by
  cases node <;> simp [Node.Numbered, Node.Bare] at h ⊢

theorem tookAtom_bare {P P' : Parse} {node : Node} (hrest : P'.rest.length < P.rest.length)
    (hb : node.Bare) (hn : P'.ngroups = P.ngroups) : TookAtom P (node, P') :=
  ⟨hrest, hn ▸ hb.numbered _⟩

theorem tookAtom_parseClass (icase : Bool) {P : Parse} {c : UInt8} {rest : List UInt8}
    (hP : P.rest = c :: rest) : TookAtom P (parseClass icase (P.setRest rest)) := by
  have hlt : rest.length < P.rest.length := by
    rw [hP]
    exact Nat.lt_succ_self _
  rw [parseClass]
  have hloop := length_classLoop
    (if decide ((P.setRest rest).rest.head? = some 0x5E) = true then (P.setRest rest).rest.drop 1
      else (P.setRest rest).rest).length true (List.replicate 32 0)
    (if decide ((P.setRest rest).rest.head? = some 0x5E) = true then (P.setRest rest).rest.drop 1
      else (P.setRest rest).rest)
  have hle : (if decide ((P.setRest rest).rest.head? = some 0x5E) = true then
      (P.setRest rest).rest.drop 1 else (P.setRest rest).rest).length ≤ rest.length := by
    split_ifs
    · exact (List.drop_sublist _ _).length_le
    · exact Nat.le_refl _
  generalize classLoop _ true (List.replicate 32 0) _ = x at hloop ⊢
  cases hx : x.2 with
  | nil => exact tookAtom_bare (Nat.zero_lt_of_lt hlt) trivial rfl
  | cons d rest' =>
    rw [hx] at hloop
    refine tookAtom_bare ?_ trivial rfl
    exact lt_of_le_of_lt ((Nat.le_succ _).trans (hloop.trans hle)) hlt

theorem tookAtom_parseEscape {P : Parse} {c : UInt8} {rest : List UInt8} (hP : P.rest = c :: rest) :
    TookAtom P (parseEscape (P.setRest rest)) := by
  have hlt : rest.length < P.rest.length := by
    rw [hP]
    exact Nat.lt_succ_self _
  rw [parseEscape, Parse.setRest]
  cases rest with
  | nil => exact tookAtom_bare hlt trivial rfl
  | cons e rest =>
    have hle : rest.length < P.rest.length := (Nat.lt_succ_self _).trans hlt
    dsimp only
    split_ifs
    · exact tookAtom_bare hle trivial rfl
    · exact tookAtom_bare hle trivial rfl
    · exact tookAtom_bare hle trivial rfl
    · exact tookAtom_bare ((length_backDigits _ _ _).trans_lt hle) trivial rfl
    · refine tookAtom_bare (lt_of_le_of_lt (length_nameOf _) (lt_of_le_of_lt ?_ hle)) trivial rfl
      exact (List.drop_sublist _ _).length_le
    · exact tookAtom_bare ((length_charEscape e rest).trans_lt hle) trivial rfl

theorem tookAtom_parseAtom (icase : Bool) {nested : Option (Parse → List Node × Parse)}
    (hnested : ∀ f, nested = some f → ∀ P, Took P (f P)) {P : Parse} (hP : P.rest ≠ []) :
    TookAtom P (parseAtom icase nested P) := by
  rw [parseAtom]
  cases hrest : P.rest with
  | nil => exact absurd hrest hP
  | cons c rest =>
    have hlt : rest.length < P.rest.length := by
      rw [hrest]
      exact Nat.lt_succ_self _
    dsimp only
    split_ifs
    · exact tookAtom_bare hlt trivial rfl
    · exact tookAtom_bare hlt trivial rfl
    · exact tookAtom_bare hlt trivial rfl
    · exact tookAtom_parseClass icase hrest
    · cases nested with
      | none => exact tookAtom_bare hlt trivial rfl
      | some f =>
        have hopen := opened_openGroup (P.setRest rest)
        have htook := hnested f rfl (openGroup (P.setRest rest)).2
        have hle := htook.rest.trans hopen.rest
        dsimp only
        cases hclose : eat 0x29 (f (openGroup (P.setRest rest)).2).2.rest with
        | none => exact ⟨hle.trans_lt hlt, hopen.numbered htook.numbered⟩
        | some rest' =>
          exact ⟨((Nat.le_of_lt (eat_length hclose)).trans hle).trans_lt hlt,
            hopen.numbered htook.numbered⟩
    · exact tookAtom_parseEscape hrest
    · exact tookAtom_bare hlt trivial rfl

/-- A piece takes something, too. -/
theorem took_parsePiece {atom : Parse → Node × Parse} {P : Parse} (h : TookAtom P (atom P)) :
    (parsePiece atom P).2.rest.length < P.rest.length ∧ Took P (parsePiece atom P) := by
  have hone := seqNumbered_singleton.mpr h.numbered
  rw [parsePiece]
  split_ifs
  · exact ⟨h.rest, Nat.le_of_lt h.rest, hone⟩
  · cases hq : quantifier (atom P).2.rest with
    | some q =>
      obtain ⟨⟨min, max⟩, rest⟩ := q
      have hlt : rest.length < P.rest.length := (length_quantifier hq).trans_lt h.rest
      have hrep : ∀ lazy, SeqNumbered P.ngroups (atom P).2.ngroups [.rep min max lazy [(atom P).1]] :=
        fun lazy => seqNumbered_singleton.mpr (by rw [Node.Numbered]; exact hone)
      dsimp only
      cases hlazy : eat 0x3F rest with
      | none => exact ⟨hlt, Nat.le_of_lt hlt, hrep false⟩
      | some rest' =>
        have hlt' := (eat_length hlazy).trans hlt
        exact ⟨hlt', Nat.le_of_lt hlt', hrep true⟩
    | none =>
      dsimp only
      cases hbrace : eat 0x7B (atom P).2.rest with
      | none => exact ⟨h.rest, Nat.le_of_lt h.rest, hone⟩
      | some rest =>
        have hlt := (eat_length hbrace).trans h.rest
        exact ⟨hlt, Nat.le_of_lt hlt, seqNumbered_append hone (seqNumbered_singleton.mpr
          (Node.Bare.numbered (show (Node.char 0x7B).Bare from trivial) _))⟩

/-- A parser of pieces that takes something wherever there is something. -/
def Pieces (piece : Parse → List Node × Parse) : Prop :=
  ∀ P : Parse, P.rest ≠ [] → (piece P).2.rest.length < P.rest.length ∧ Took P (piece P)

theorem rest_ne_nil_of_more {P : Parse} (h : P.more = true) : P.rest ≠ [] := by
  intro hnil
  simp [Parse.more, hnil] at h

/-- The loop of `parse_seq` ends where the source's does. -/
theorem seqLoop_spec {piece : Parse → List Node × Parse} (hpiece : Pieces piece) {turns : ℕ} {P : Parse}
    (hturns : P.rest.length ≤ turns) :
    (seqLoop piece turns P).2.more = false ∧ Took P (seqLoop piece turns P) := by
  induction turns generalizing P with
  | zero =>
    have hnil : P.rest = [] := List.eq_nil_of_length_eq_zero (Nat.le_zero.mp hturns)
    exact ⟨by simp [seqLoop, Parse.more, hnil], Nat.le_refl _, seqNumbered_nil.mpr rfl⟩
  | succ turns ih =>
    rw [seqLoop]
    split_ifs with hmore
    · obtain ⟨hlt, htook⟩ := hpiece P (rest_ne_nil_of_more hmore)
      obtain ⟨hend, hthen⟩ := ih (P := (piece P).2) (by omega)
      exact ⟨hend, hthen.rest.trans htook.rest, seqNumbered_append htook.numbered hthen.numbered⟩
    · exact ⟨Bool.eq_false_iff.mpr hmore, Nat.le_refl _, seqNumbered_nil.mpr rfl⟩

/-- The loop of `parse_alt` ends where the source's does. -/
theorem altOptions_spec {seq : Parse → List Node × Parse} (hseq : ∀ P, Took P (seq P)) {turns : ℕ}
    {P : Parse} (hturns : P.rest.length ≤ turns) :
    ((altOptions seq turns P).2.err = none → eat 0x7C (altOptions seq turns P).2.rest = none) ∧
      (altOptions seq turns P).2.rest.length ≤ P.rest.length ∧
      OptionsNumbered P.ngroups (altOptions seq turns P).2.ngroups (altOptions seq turns P).1 := by
  induction turns generalizing P with
  | zero =>
    have hnil : P.rest = [] := List.eq_nil_of_length_eq_zero (Nat.le_zero.mp hturns)
    exact ⟨fun _ => by rw [altOptions, hnil, eat], Nat.le_refl _, by rw [altOptions, OptionsNumbered]⟩
  | succ turns ih =>
    rw [altOptions]
    cases hbar : (if P.err.isNone then eat 0x7C P.rest else none) with
    | none =>
      refine ⟨fun herr => ?_, Nat.le_refl _, by rw [OptionsNumbered]⟩
      have herr' : P.err = none := herr
      rw [herr'] at hbar
      exact hbar
    | some rest =>
      have hlt : rest.length < P.rest.length := by
        split_ifs at hbar
        exact eat_length hbar
      have htook := hseq (P.setRest rest)
      have hle : (seq (P.setRest rest)).2.rest.length ≤ rest.length := htook.rest
      obtain ⟨hend, hrest, hnum⟩ := ih (P := (seq (P.setRest rest)).2) (by omega)
      refine ⟨hend, hrest.trans (hle.trans (Nat.le_of_lt hlt)), ?_⟩
      rw [OptionsNumbered]
      exact ⟨_, htook.numbered, hnum⟩

theorem took_altOf {seq : Parse → List Node × Parse} (hseq : ∀ P, Took P (seq P)) (P : Parse) :
    Took P (altOf seq P) := by
  rw [altOf]
  split_ifs
  · obtain ⟨-, hrest, hnum⟩ := altOptions_spec hseq (Nat.le_refl (seq P).2.rest.length)
    refine ⟨hrest.trans (hseq P).rest, seqNumbered_singleton.mpr ?_⟩
    rw [Node.Numbered, OptionsNumbered]
    exact ⟨_, (hseq P).numbered, hnum⟩
  · exact hseq P

theorem took_parseAlt (icase : Bool) (levels : ℕ) (P : Parse) : Took P (parseAlt icase levels P) := by
  have hlevel : ∀ nested : Option (Parse → List Node × Parse),
      (∀ f, nested = some f → ∀ P, Took P (f P)) →
        ∀ P, Took P (altOf (parseSeq (parsePiece (parseAtom icase nested))) P) :=
    fun nested hnested P => took_altOf (fun P => (seqLoop_spec (fun P hP =>
      took_parsePiece (tookAtom_parseAtom icase hnested hP)) (Nat.le_refl _)).2) P
  induction levels generalizing P with
  | zero => exact hlevel none (fun f hf => absurd hf (by simp)) P
  | succ levels ih =>
    refine hlevel (some (parseAlt icase levels)) (fun f hf => ?_) P
    obtain rfl := Option.some.inj hf
    exact ih

/-- The groups of a compiled pattern are numbered as they open. -/
theorem rxCompile_numbered {pattern flags : List UInt8} {re : Rx} (h : rxCompile pattern flags = .ok re) :
    ∃ hi, SeqNumbered 0 hi re.root := by
  rw [rxCompile] at h
  have htook := took_parseAlt (decide ((0x69 : UInt8) ∈ flags)) 100 ⟨pattern, 0, [], none⟩
  cases herr : (parseAlt (decide ((0x69 : UInt8) ∈ flags)) 100 ⟨pattern, 0, [], none⟩).2.err with
  | some e =>
    rw [herr] at h
    cases h
  | none =>
    rw [herr] at h
    dsimp only at h
    split_ifs at h
    cases h
    exact ⟨_, htook.numbered⟩

end BananaOS.Regex.Whole
