import BananaOS.Rdp.Rle
import Mathlib.Data.List.GetD
import Mathlib.Data.List.Range
import Mathlib.Tactic.IntervalCases

/-!
# What the interleaved code says

The decoder of the format as its description has it: an order is read (`specHeader`, `drawing`) and drawn
(`Spec.next`).  The first line has nothing above it, and whether an order draws in it is settled where the order
begins.  A background run behind a background run begins with a pixel of the foreground, which is one of its
length; the run that first begins behind the first line does not.

`order_eq`: every order of the program draws the pens of `drawing`, with one more where it puts in a pixel of the
foreground.  `rleDecompress_spec` says when the program and the description agree.
-/

namespace BananaOS.Rdp

open Lib Res

/-! ## The description -/

/-- A length in the low bits of an order, or in the next byte. -/
def lengthOf (f unit extra : ℕ) : List UInt8 → Option (ℕ × List UInt8)
  | x :: rest => some (if f ≠ 0 then (f * unit, x :: rest) else (x.toNat + extra, rest))
  | [] => if f ≠ 0 then some (f * unit, []) else none

/-- The kind of an order, its length and what is behind them: three bits for the kind, or four of them from `0xC0`
on, or the whole byte from `0xF0` on. -/
def specHeader (code : ℕ) (rest : List UInt8) : Option (ℕ × ℕ × List UInt8) :=
  if code < 0xA0 then
    (if code / 32 = 2 then lengthOf (code % 32) 8 1 rest else lengthOf (code % 32) 1 32 rest).map (code / 32, ·)
  else if 0xC0 ≤ code ∧ code < 0xF0 then
    (if code / 16 = 0xD then lengthOf (code % 16) 8 1 rest else lengthOf (code % 16) 1 16 rest).map (code / 16 - 6, ·)
  else if 0xF0 ≤ code ∧ code < 0xF9 then
    match rest with
    | a :: b :: rest => some (code - 0xF0, a.toNat + 256 * b.toNat, rest)
    | _ => none
  else if code = 0xF9 ∨ code = 0xFA then some (code - 0xF0, 8, rest)
  else if code = 0xFD ∨ code = 0xFE then some (code - 0xF0, 1, rest)
  else none

/-- An order: its kind, what it draws, the foreground it leaves and the input behind it. -/
structure Turn where
  id : ℕ
  pens : List Pen
  fg : ℕ
  rest : List UInt8

def maskBytes (n : ℕ) : ℕ := (n + 7) / 8

/-- A bit for each of `n` pixels. -/
def maskImage (rest : List UInt8) (n : ℕ) : List Pen :=
  (List.range n).map fun k => if (rest.getD (k / 8) 0).toNat.testBit (k % 8) then .mixed else .above

/-- The order of the kind `id` and the length `n`. -/
def drawing (bytes white id n fg : ℕ) (rest : List UInt8) : Option Turn :=
  match id with
  | 0 => some ⟨0, List.replicate n .above, fg, rest⟩
  | 1 => some ⟨1, List.replicate n .mixed, fg, rest⟩
  | 2 =>
    if maskBytes n ≤ rest.length then some ⟨2, maskImage rest n, fg, rest.drop (maskBytes n)⟩ else none
  | 3 =>
    if bytes ≤ rest.length then some ⟨3, List.replicate n (.colour (pixelAt rest 0 bytes)), fg, rest.drop bytes⟩
    else none
  | 4 =>
    if n * bytes ≤ rest.length then
      some ⟨4, (List.range n).map fun k => .colour (pixelAt rest (k * bytes) bytes), fg, rest.drop (n * bytes)⟩
    else none
  | 6 =>
    if bytes ≤ rest.length then some ⟨6, List.replicate n .mixed, pixelAt rest 0 bytes, rest.drop bytes⟩ else none
  | 7 =>
    if bytes + maskBytes n ≤ rest.length then
      some ⟨7, maskImage (rest.drop bytes) n, pixelAt rest 0 bytes, (rest.drop bytes).drop (maskBytes n)⟩
    else none
  | 8 =>
    if 2 * bytes ≤ rest.length then
      some ⟨8, (List.replicate n [.colour (pixelAt rest 0 bytes), .colour (pixelAt rest bytes bytes)]).flatten, fg,
        (rest.drop bytes).drop bytes⟩
    else none
  | 9 => some ⟨9, maskPens 3 8, fg, rest⟩
  | 10 => some ⟨10, maskPens 5 8, fg, rest⟩
  | 13 => some ⟨13, [.colour white], fg, rest⟩
  | 14 => some ⟨14, [.colour 0], fg, rest⟩
  | _ => none

def readTurn (bytes white fg : ℕ) : List UInt8 → Option Turn
  | [] => none
  | code :: rest => (specHeader code.toNat rest).bind fun (id, n, rest) => drawing bytes white id n fg rest

/-- The pixels drawn so far, the foreground, whether the last order was a background run and whether none has begun
behind the first line. -/
structure Spec where
  dest : List ℕ
  fg : ℕ
  insert : Bool
  first : Bool

/-- The pixels after those of `ps`; `line` says of a place whether it has nothing above it. -/
def drawn (w bytes fg : ℕ) (line : ℕ → Bool) (dest : List ℕ) (ps : List Pen) : List ℕ :=
  ps.foldl (fun dest p =>
    dest ++ [p.value fg (if line dest.length then 0 else dest.getD (dest.length - w) 0) % 256 ^ bytes]) dest

/-- One order. -/
def Spec.next (w bytes : ℕ) (st : Spec) (t : Turn) : Spec :=
  let first := st.first && decide (st.dest.length < w)
  let insert := st.insert && !(st.first && !first)
  let ps := if t.id = 0 ∧ insert then .mixed :: t.pens.tail else t.pens
  ⟨drawn w bytes t.fg (fun _ => first) st.dest ps, t.fg, t.id = 0, first⟩

/-- All orders, in at most so many turns. -/
def specLoop (w bytes white : ℕ) : ℕ → Spec → List UInt8 → Option (List ℕ)
  | 0, _, _ => none
  | k + 1, st, bs =>
    if bs = [] then some st.dest
    else (readTurn bytes white st.fg bs).bind fun t => specLoop w bytes white k (st.next w bytes t) t.rest

def white (bpp : ℕ) : ℕ := 2 ^ bpp - 1

/-- The pixels of a bitmap. -/
def specDecode (bpp w : ℕ) (bs : List UInt8) : Option (List ℕ) :=
  specLoop w (bppBytes bpp) (white bpp) (bs.length + 1) ⟨[], white bpp, false, true⟩ bs

/-- A pixel as `0x00RRGGBB`. -/
def specColour (bpp v : ℕ) : ℕ :=
  if bpp = 15 then
    let r := v >>> 10 % 32
    let g := v >>> 5 % 32
    let b := v % 32
    (r <<< 3 ||| r >>> 2) <<< 16 ||| (g <<< 3 ||| g >>> 2) <<< 8 ||| (b <<< 3 ||| b >>> 2)
  else argb (bppBytes bpp) v

/-- An order on which the program does as the description: a background run behind another one is the first order
behind the first line and begins a line, and an order that looks above does not go over the end of the first line. -/
def calmTurn (w : ℕ) (st : Spec) (t : Turn) : Bool :=
  (!(t.id = 0 && st.insert) || st.first && w ≤ st.dest.length && st.dest.length % w = 0) &&
    (w ≤ st.dest.length || st.dest.length + t.pens.length ≤ w || t.pens.all fun p => p ≠ .above ∧ p ≠ .mixed)

def calm (w bytes white : ℕ) : ℕ → Spec → List UInt8 → Bool
  | 0, _, _ => true
  | k + 1, st, bs =>
    match readTurn bytes white st.fg bs with
    | none => true
    | some t => calmTurn w st t && calm w bytes white k (st.next w bytes t) t.rest

/-- All orders of a bitmap are such. -/
def Calm (bpp w : ℕ) (bs : List UInt8) : Prop :=
  calm w (bppBytes bpp) (white bpp) (bs.length + 1) ⟨[], white bpp, false, true⟩ bs = true

variable {c : Bitmap} {s s' : Decoder} {ps qs : List Pen} {rest : List UInt8} {n id : ℕ} {st : Spec} {t : Turn}

/-! ## One order -/

theorem wrAll_then (ps qs : List Pen) (s : Decoder) (rest : List UInt8) :
    (wrAll c ps s >>= fun s => wrAll c qs { s with rest }) = wrAll c (ps ++ qs) { s with rest } := by
  have hrest := wrAll_rest (c := c) ps s rest
  rw [wrAll_append, ← hrest]
  cases wrAll c ps s <;> rfl

theorem maskImage_cons (m : UInt8) (rest : List UInt8) (n : ℕ) :
    maskImage (m :: rest) n = maskPens m (min 8 n) ++ maskImage rest (n - 8) := by
  have hrange : List.range n = List.range (min 8 n) ++ (List.range (n - 8)).map (min 8 n + ·) := by
    rw [← List.range_add]
    exact congrArg _ (by omega)
  rw [maskImage, hrange, List.map_append, List.map_map]
  refine congrArg₂ _ (List.map_congr_left fun k hk => ?_) (List.map_congr_left fun k hk => ?_)
  · rw [List.mem_range] at hk
    rw [show k / 8 = 0 by omega, show k % 8 = k by omega]
    rfl
  · rw [List.mem_range] at hk
    rw [Function.comp_apply, show (min 8 n + k) / 8 = k / 8 + 1 by omega, show (min 8 n + k) % 8 = k % 8 by omega]
    rfl

theorem fom_eq (rest : List UInt8) (n : ℕ) (s : Decoder) : fom c rest n s =
    if maskBytes n ≤ rest.length then wrAll c (maskImage rest n) { s with rest := rest.drop (maskBytes n) } else fail := by
  induction rest generalizing n s with
  | nil =>
    cases n with
    | zero => rfl
    | succ n =>
      rw [fom, if_neg]
      rw [maskBytes, List.length_nil]
      omega
  | cons m rest ih =>
    cases n with
    | zero => rfl
    | succ n =>
      have hbytes : maskBytes (n + 1) = maskBytes (n + 1 - 8) + 1 := by
        rw [maskBytes, maskBytes]
        omega
      simp only [fom, ih]
      rw [hbytes, List.length_cons, maskImage_cons, List.drop_succ_cons]
      by_cases hle : maskBytes (n + 1 - 8) ≤ rest.length
      · simp only [if_pos hle]
        rw [if_pos (by omega), wrAll_then]
      · simp only [if_neg hle]
        rw [if_neg (by omega)]
        exact bind_fail (wrAll_ne_fault _ _)

theorem pixelAt_drop (rest : List UInt8) (b i bytes : ℕ) :
    pixelAt (rest.drop b) i bytes = pixelAt rest (b + i) bytes := by
  rw [pixelAt, pixelAt]
  induction bytes with
  | zero => rfl
  | succ n ih =>
    rw [getLE, getLE, ih, List.getD_eq_getElem?_getD, List.getElem?_drop, List.getD_eq_getElem?_getD, Nat.add_assoc]

theorem image_eq (n : ℕ) (s : Decoder) : image c n s = if n * c.bytes ≤ s.rest.length then
    wrAll c ((List.range n).map fun k => .colour (pixelAt s.rest (k * c.bytes) c.bytes))
      { s with rest := s.rest.drop (n * c.bytes) } else fail := by
  induction n generalizing s with
  | zero =>
    rw [Nat.zero_mul, if_pos (Nat.zero_le _)]
    rfl
  | succ n ih =>
    have hmul : (n + 1) * c.bytes = c.bytes + n * c.bytes := by rw [Nat.add_mul, Nat.one_mul, Nat.add_comm]
    rw [image]
    by_cases hlen : c.bytes ≤ s.rest.length
    · have hpens : (List.range (n + 1)).map (fun k => Pen.colour (pixelAt s.rest (k * c.bytes) c.bytes)) =
          .colour (pixelAt s.rest 0 c.bytes) ::
            (List.range n).map fun k => .colour (pixelAt (s.rest.drop c.bytes) (k * c.bytes) c.bytes) := by
        rw [List.range_succ_eq_map, List.map_cons, List.map_map, Nat.zero_mul]
        refine congrArg _ (List.map_congr_left fun k _ => ?_)
        rw [Function.comp_apply, pixelAt_drop, Nat.succ_mul, Nat.add_comm c.bytes]
      rw [takePixel_eq hlen, ok_bind, hpens, hmul]
      dsimp only
      rw [← List.drop_drop]
      by_cases hop : s.op < c.total
      · rw [wrAll, wr_eq (s := { s with rest := s.rest.drop c.bytes }) hop,
          wr_eq (s := { s with rest := (s.rest.drop c.bytes).drop (n * c.bytes) }) hop, ok_bind, ok_bind, ih]
        dsimp only
        rw [List.length_drop]
        exact if_congr (by omega) rfl rfl
      · rw [wrAll, wr_fail (s := { s with rest := s.rest.drop c.bytes }) (not_lt.mp hop),
          wr_fail (s := { s with rest := (s.rest.drop c.bytes).drop (n * c.bytes) }) (not_lt.mp hop)]
        exact (ite_self _).symm
    · rw [takePixel, if_pos (by omega), if_neg (by omega)]
      rfl

/-- The program's own condition for the pixel put in. -/
def putsIn (c : Bitmap) (s : Decoder) (id : ℕ) : Bool := id = 0 ∧ s.lastop = 0 ∧ s.op % c.w ≠ 0

/-- What an order of the program does. -/
theorem order_eq (c : Bitmap) (id n : ℕ) (s : Decoder) : order c id n s =
    match drawing c.bytes (fgpel c.bytes) id n s.mix s.rest with
    | none => fail
    | some t => wrAll c (if putsIn c s id then .mixed :: t.pens else t.pens) { s with mix := t.fg, rest := t.rest } := by
  have htake : ∀ {f : ℕ × Decoder → Res Decoder}, (takePixel c s >>= f) =
      if c.bytes ≤ s.rest.length then f (pixelAt s.rest 0 c.bytes, { s with rest := s.rest.drop c.bytes }) else fail := by
    intro f
    split_ifs with h
    · rw [takePixel_eq h, ok_bind]
    · rw [takePixel, if_pos (by omega), fail_bind]
  have hno : ∀ k ≠ 0, putsIn c s k = false := fun k hk => decide_eq_false fun h => hk h.1
  obtain hlarge | hsmall := Nat.lt_or_ge 14 id
  · obtain ⟨k, rfl⟩ := Nat.exists_eq_add_of_le' hlarge
    rfl
  interval_cases id
  · rw [order, drawing]
    dsimp only
    by_cases h : s.lastop = 0 ∧ s.op % c.w ≠ 0
    · have hput : putsIn c s 0 = true := decide_eq_true ⟨rfl, h⟩
      rw [if_pos h, if_pos hput]
      rfl
    · have hput : putsIn c s 0 = false := decide_eq_false fun hp => h hp.2
      rw [if_neg h, hput]
      rfl
  · rfl
  · rw [order, drawing, fom_eq]
    by_cases h : maskBytes n ≤ s.rest.length
    · rw [if_pos h, if_pos h]
      rfl
    · rw [if_neg h, if_neg h]
  · rw [order, drawing, htake]
    by_cases h : c.bytes ≤ s.rest.length
    · rw [if_pos h, if_pos h]
      rfl
    · rw [if_neg h, if_neg h]
  · rw [order, drawing, image_eq]
    by_cases h : n * c.bytes ≤ s.rest.length
    · rw [if_pos h, if_pos h]
      rfl
    · rw [if_neg h, if_neg h]
  · rfl
  · rw [order, drawing, htake]
    by_cases h : c.bytes ≤ s.rest.length
    · rw [if_pos h, if_pos h]
      rfl
    · rw [if_neg h, if_neg h]
  · rw [order, drawing, htake]
    by_cases hlen : c.bytes ≤ s.rest.length
    · rw [if_pos hlen]
      dsimp only
      rw [fom_eq, List.length_drop]
      by_cases hmask : c.bytes + maskBytes n ≤ s.rest.length
      · rw [if_pos (by omega), if_pos hmask]
        rfl
      · rw [if_neg (by omega), if_neg hmask]
    · rw [if_neg hlen, if_neg (by omega)]
  · rw [order, drawing]
    by_cases hlen : 2 * c.bytes ≤ s.rest.length
    · have hlen' : c.bytes ≤ (s.rest.drop c.bytes).length := by
        rw [List.length_drop]
        omega
      rw [if_neg (by omega), if_pos hlen, takePixel_eq (by omega), ok_bind]
      dsimp only
      rw [takePixel_eq (s := { s with rest := s.rest.drop c.bytes }) hlen', ok_bind]
      dsimp only
      rw [pixelAt_drop, Nat.add_zero]
      rfl
    · rw [if_pos (by omega), if_neg hlen]
  · rfl
  · rfl
  · rfl
  · rfl
  · rw [order, drawing]
    dsimp only
    rw [hno 13 (by decide), if_neg Bool.false_ne_true, wrAll]
    cases wr c (.colour (fgpel c.bytes)) s <;> rfl
  · rw [order, drawing]
    dsimp only
    rw [hno 14 (by decide), if_neg Bool.false_ne_true, wrAll]
    cases wr c (.colour 0) s <;> rfl

/-! ## The end, and no access outside -/

theorem length_shortLen_le (f unit extra : ℕ) (rest : List UInt8) :
    (shortLen f unit extra rest).2.length ≤ rest.length := by
  rw [shortLen.eq_def]
  split_ifs
  · exact le_rfl
  · cases rest with
    | nil => exact le_rfl
    | cons x rest => exact Nat.le_succ _

theorem header_spec (code : ℕ) (rest : List UInt8) : header code rest = fail ∨
    ∃ id n rest', header code rest = ok (id, n, rest') ∧ rest'.length ≤ rest.length := by
  rw [header]
  dsimp only
  split_ifs
  · rcases rest with _ | ⟨a, _ | ⟨b, rest⟩⟩
    · exact .inl rfl
    · exact .inl rfl
    · exact .inr ⟨_, _, rest, rfl, by simp only [List.length_cons]; omega⟩
  all_goals first
    | exact .inr ⟨_, _, rest, rfl, le_rfl⟩
    | exact .inr ⟨_, _, _, rfl, length_shortLen_le ..⟩

theorem drawing_length {bytes white fg : ℕ} (h : drawing bytes white id n fg rest = some t) :
    t.rest.length ≤ rest.length := by
  rw [drawing.eq_def] at h
  split at h
  all_goals first
    | (cases h; done)
    | (cases h; exact le_rfl)
    | (split_ifs at h; cases h; simp only [List.length_drop]; omega)

theorem drawing_id {bytes white fg : ℕ} (h : drawing bytes white id n fg rest = some t) : t.id = id := by
  rw [drawing.eq_def] at h
  split at h
  all_goals first
    | (cases h; done)
    | (cases h; rfl)
    | (split_ifs at h; cases h; rfl)

theorem orders_ne_fault {k : ℕ} (h : s.rest.length < k) : orders c k s ≠ fault := by
  induction k generalizing s with
  | zero => omega
  | succ k ih =>
    rw [orders]
    rcases hrest : s.rest with _ | ⟨code, rest⟩
    · exact nofun
    dsimp only
    rw [hrest, List.length_cons] at h
    split_ifs with hop
    · exact nofun
    obtain hfail | ⟨id, n, rest', hok, hle⟩ := header_spec code.toNat rest
    · rw [hfail]
      exact nofun
    rw [hok, ok_bind]
    dsimp only
    rw [order_eq]
    rcases hd : drawing c.bytes (fgpel c.bytes) id n s.mix rest' with _ | t
    · exact nofun
    dsimp only
    have hlen := drawing_length hd
    refine bind_ne_fault (wrAll_ne_fault _ _) fun s' hs' => ih ?_
    have hsame := wrAll_rest_eq hs'
    dsimp only at hsame ⊢
    rw [hsame]
    omega

theorem convert_eq {raw : ℕ → UInt8} {i : ℕ} (h : i + n ≤ c.total) :
    convert c raw n i = ok ((List.range' i n).map fun k => argb c.bytes (getLE raw (k * c.bytes) c.bytes)) := by
  induction n generalizing i with
  | zero => rfl
  | succ n ih =>
    have hle : i * c.bytes + c.bytes ≤ c.total * c.bytes := by
      rw [← Nat.succ_mul]
      exact Nat.mul_le_mul_right _ (by omega)
    rw [convert, rdPixel, if_pos hle, ok_bind, ih (by omega), ok_bind, List.range'_succ]
    rfl

/-! ## The same pixels -/

/-- The pixels in the bitmap. -/
structure Shows (c : Bitmap) (s : Decoder) (dest : List ℕ) : Prop where
  op : s.op = dest.length
  pixels : ∀ k < dest.length, getLE s.raw (k * c.bytes) c.bytes = dest.getD k 0

variable {dest final : List ℕ} {p : Pen} {line line' : ℕ → Bool} {w bytes fg : ℕ}

theorem wr_shows (h : Shows c s dest) (hlt : dest.length < c.total) (p : Pen) : ∃ s', wr c p s = ok s' ∧
    Shows c s' (dest ++ [p.value s.mix (if decide (dest.length < c.w) then 0 else dest.getD (dest.length - c.w) 0) %
      256 ^ c.bytes]) ∧ s'.rest = s.rest ∧ s'.mix = s.mix := by
  have hop := h.op
  have hw : 0 < c.w := Nat.pos_of_ne_zero fun h0 => by rw [Bitmap.total, h0, Nat.zero_mul] at hlt; omega
  have habove : (if c.w ≤ s.op then getLE s.raw ((s.op - c.w) * c.bytes) c.bytes else 0) =
      if decide (dest.length < c.w) then 0 else dest.getD (dest.length - c.w) 0 := by
    rw [hop]
    by_cases hle : c.w ≤ dest.length
    · rw [if_pos hle, decide_eq_false (not_lt.mpr hle), if_neg Bool.false_ne_true]
      exact h.pixels _ (by omega)
    · rw [if_neg hle, if_pos (decide_eq_true (not_le.mp hle))]
  refine ⟨_, wr_eq (by omega) p, ⟨?_, fun k hk => ?_⟩, rfl, rfl⟩
  · rw [List.length_append, ← hop]
    rfl
  dsimp only
  rw [habove, hop]
  by_cases hlast : k = dest.length
  · rw [hlast, getLE_putLE, List.getD_append_right _ _ _ _ le_rfl, Nat.sub_self]
    rfl
  · rw [List.length_append, List.length_singleton] at hk
    have hbefore : k * c.bytes + c.bytes ≤ dest.length * c.bytes := by
      rw [← Nat.succ_mul]
      exact Nat.mul_le_mul_right _ (by omega)
    rw [List.getD_append _ _ _ _ (by omega), ← h.pixels k (by omega)]
    exact getLE_congr fun i _ hi => putLE_of_notMem (.inl (by omega))

theorem wrAll_shows (h : Shows c s dest) (hle : dest.length + ps.length ≤ c.total) : ∃ s', wrAll c ps s = ok s' ∧
    Shows c s' (drawn c.w c.bytes s.mix (fun k => decide (k < c.w)) dest ps) ∧ s'.rest = s.rest ∧ s'.mix = s.mix := by
  induction ps generalizing s dest with
  | nil => exact ⟨s, rfl, h, rfl, rfl⟩
  | cons p ps ih =>
    rw [List.length_cons] at hle
    obtain ⟨s₁, hwr, h₁, hrest, hmix⟩ := wr_shows h (by omega) p
    obtain ⟨s₂, hall, h₂, hrest', hmix'⟩ := ih h₁ (by rw [List.length_append, List.length_singleton]; omega)
    refine ⟨s₂, ?_, ?_, hrest'.trans hrest, hmix'.trans hmix⟩
    · rw [wrAll, hwr, ok_bind, hall]
    · rw [hmix] at h₂
      exact h₂

theorem drawn_cons (w bytes fg : ℕ) (line : ℕ → Bool) (dest : List ℕ) (p : Pen) (ps : List Pen) :
    drawn w bytes fg line dest (p :: ps) = drawn w bytes fg line (dest ++
      [p.value fg (if line dest.length then 0 else dest.getD (dest.length - w) 0) % 256 ^ bytes]) ps := rfl

theorem length_drawn (dest : List ℕ) (ps : List Pen) :
    (drawn w bytes fg line dest ps).length = dest.length + ps.length := by
  induction ps generalizing dest with
  | nil => rfl
  | cons p ps ih =>
    rw [drawn_cons, ih, List.length_append, List.length_singleton, List.length_cons]
    omega

theorem prefix_drawn (dest : List ℕ) (ps : List Pen) : dest <+: drawn w bytes fg line dest ps := by
  induction ps generalizing dest with
  | nil => exact List.prefix_refl dest
  | cons p ps ih => exact (List.prefix_append _ _).trans (ih _)

theorem drawn_congr (h : (∀ p ∈ ps, p ≠ .above ∧ p ≠ .mixed) ∨
      ∀ k, dest.length ≤ k → k < dest.length + ps.length → line k = line' k) :
    drawn w bytes fg line dest ps = drawn w bytes fg line' dest ps := by
  induction ps generalizing dest with
  | nil => rfl
  | cons p ps ih =>
    have hp : p.value fg (if line dest.length then 0 else dest.getD (dest.length - w) 0) =
        p.value fg (if line' dest.length then 0 else dest.getD (dest.length - w) 0) := by
      obtain hcolour | hline := h
      · have hne := hcolour p List.mem_cons_self
        cases p with
        | above => exact absurd rfl hne.1
        | mixed => exact absurd rfl hne.2
        | colour v => rfl
      · rw [hline dest.length le_rfl (by rw [List.length_cons]; omega)]
    rw [drawn_cons, drawn_cons, hp]
    refine ih (h.imp (fun hcolour p hmem => hcolour p (List.mem_cons_of_mem _ hmem)) fun hline k h1 h2 => ?_)
    rw [List.length_append, List.length_singleton] at h1 h2
    exact hline k (by omega) (by rw [List.length_cons]; omega)

theorem prefix_next (st : Spec) (w bytes : ℕ) (t : Turn) : st.dest <+: (st.next w bytes t).dest := by
  rw [Spec.next]
  dsimp only
  exact prefix_drawn _ _

theorem specLoop_grows {white k : ℕ} {bs : List UInt8} (h : specLoop w bytes white k st bs = some final) :
    st.dest <+: final := by
  induction k generalizing st bs with
  | zero => exact absurd h nofun
  | succ k ih =>
    rw [specLoop] at h
    split_ifs at h
    · exact Option.some.inj h ▸ List.prefix_refl _
    · obtain ⟨t, -, hrest⟩ := Option.bind_eq_some_iff.mp h
      exact (prefix_next st w bytes t).trans (ih hrest)

theorem shortLen_eq {f unit extra : ℕ} {q : ℕ × List UInt8} (h : lengthOf f unit extra rest = some q) :
    shortLen f unit extra rest = q := by
  rw [lengthOf.eq_def] at h
  rw [shortLen.eq_def]
  cases rest <;> dsimp only at h ⊢ <;> split_ifs at h ⊢ <;> exact Option.some.inj h

theorem header_eq {code : ℕ} {q : ℕ × ℕ × List UInt8} (hcode : code < 256) (h : specHeader code rest = some q) :
    header code rest = ok q := by
  rw [specHeader.eq_def] at h
  rw [header.eq_def]
  dsimp only
  split_ifs at h with h1 h2 h3 h4 h5 h6 h7
  · obtain ⟨r, hlen, rfl⟩ := Option.map_eq_some_iff.mp h
    rw [if_neg (by omega), if_neg (by omega), if_pos h2, shortLen_eq hlen]
  · obtain ⟨r, hlen, rfl⟩ := Option.map_eq_some_iff.mp h
    rw [if_neg (by omega), if_neg (by omega), if_neg h2, shortLen_eq hlen]
  · obtain ⟨r, hlen, rfl⟩ := Option.map_eq_some_iff.mp h
    rw [if_neg (by omega), if_pos (by omega), if_pos (by omega), shortLen_eq hlen]
  · obtain ⟨r, hlen, rfl⟩ := Option.map_eq_some_iff.mp h
    rw [if_neg (by omega), if_pos (by omega), if_neg (by omega), shortLen_eq hlen]
  · rw [if_pos (by omega), if_pos (by omega), show code % 16 = code - 0xF0 by omega]
    rcases rest with _ | ⟨a, _ | ⟨b, rest⟩⟩
    · exact absurd h nofun
    · exact absurd h nofun
    · exact congrArg ok (Option.some.inj h)
  · rw [if_pos (by omega), if_neg (by omega), if_pos (by omega), ← Option.some.inj h]
    exact congrArg (fun k => ok (k, 8, rest)) (by omega)
  · rw [if_pos (by omega), if_neg (by omega), if_neg (by omega), ← Option.some.inj h]
    exact congrArg (fun k => ok (k, 1, rest)) (by omega)

/-- One order, where the program does as the description. -/
theorem next_eq (bytes : ℕ) (h : calmTurn w st t = true) (hfirst : st.first = false → w ≤ st.dest.length) :
    (st.next w bytes t).dest = drawn w bytes t.fg (fun k => decide (k < w)) st.dest t.pens ∧
      ((st.next w bytes t).first = false → w ≤ (st.next w bytes t).dest.length) ∧
      (t.id = 0 → st.insert = true → st.dest.length % w = 0) := by
  rw [calmTurn, Bool.and_eq_true, Bool.or_eq_true, Bool.or_eq_true, Bool.or_eq_true] at h
  obtain ⟨hrun, hline⟩ := h
  have hfirst' : (st.first && decide (st.dest.length < w)) = decide (st.dest.length < w) := by
    cases hf : st.first with
    | false => exact (decide_eq_false (not_lt.mpr (hfirst hf))).symm
    | true => rfl
  have hgrow := (prefix_next st w bytes t).length_le
  have hput : t.id = 0 → st.insert = true → st.first = true ∧ w ≤ st.dest.length ∧ st.dest.length % w = 0 :=
    fun hid hins => by
      simpa [hid, hins, and_assoc] using hrun
  have hnone : ¬ (t.id = 0 ∧ (st.insert && !(st.first && !decide (st.dest.length < w))) = true) := by
    rintro ⟨hid, hins⟩
    rw [Bool.and_eq_true] at hins
    obtain ⟨hf, hw, -⟩ := hput hid hins.1
    rw [hf, decide_eq_false (not_lt.mpr hw)] at hins
    exact absurd hins.2 (by decide)
  have hdest : (st.next w bytes t).dest =
      drawn w bytes t.fg (fun _ => decide (st.dest.length < w)) st.dest t.pens := by
    rw [Spec.next]
    dsimp only
    rw [hfirst', if_neg hnone]
  refine ⟨hdest.trans (drawn_congr ?_), fun hf => ?_, fun hid hins => (hput hid hins).2.2⟩
  · obtain (hw | hw) | hall := hline
    · have hw := of_decide_eq_true hw
      exact .inr fun k hk _ => decide_eq_decide.mpr (by omega)
    · have hw := of_decide_eq_true hw
      exact .inr fun k hk hk' => decide_eq_decide.mpr (by omega)
    · exact .inl fun p hp => of_decide_eq_true (List.all_eq_true.mp hall p hp)
  · have hf' : (st.first && decide (st.dest.length < w)) = false := hf
    rw [hfirst', decide_eq_false_iff_not, not_lt] at hf'
    exact hf'.trans hgrow

/-- The program and the description, side by side. -/
structure Alongside (c : Bitmap) (s : Decoder) (st : Spec) : Prop where
  shows' : Shows c s st.dest
  mix : s.mix = st.fg
  last : s.lastop = 0 ↔ st.insert = true
  first : st.first = false → c.w ≤ st.dest.length

theorem orders_spec {k : ℕ} (h : Alongside c s st) (hlen : final.length = c.total)
    (hspec : specLoop c.w c.bytes (fgpel c.bytes) k st s.rest = some final)
    (hcalm : calm c.w c.bytes (fgpel c.bytes) k st s.rest = true) :
    ∃ s', orders c k s = ok s' ∧ Shows c s' final := by
  induction k generalizing s st with
  | zero => exact absurd hspec nofun
  | succ k ih =>
    have hpre := specLoop_grows hspec
    rw [specLoop] at hspec
    rw [calm] at hcalm
    rw [orders]
    rcases hrest : s.rest with _ | ⟨code, rest⟩
    · rw [hrest, if_pos rfl] at hspec
      exact ⟨s, rfl, Option.some.inj hspec ▸ h.shows'⟩
    rw [hrest] at hspec hcalm
    rw [if_neg (List.cons_ne_nil _ _)] at hspec
    obtain ⟨t, hturn, hspec⟩ := Option.bind_eq_some_iff.mp hspec
    rw [hturn, Bool.and_eq_true] at hcalm
    dsimp only
    split_ifs with hop
    · -- the bitmap is full, and what the description goes on with draws nothing
      have hfull : st.dest = final := hpre.eq_of_length_le (by rw [hlen, ← h.shows'.op]; exact hop)
      exact ⟨s, rfl, hfull ▸ h.shows'⟩
    obtain ⟨⟨id, n, rest'⟩, hhead, hdraw⟩ := Option.bind_eq_some_iff.mp hturn
    have hcode := code.toNat_lt
    rw [header_eq hcode hhead, ok_bind]
    dsimp only at hdraw ⊢
    have hid : t.id = id := drawing_id hdraw
    obtain ⟨hdest, hfirst, hbegin⟩ := next_eq c.bytes hcalm.1 h.first
    have hput : putsIn c { s with mix := st.fg, rest := rest' } id = false := by
      refine decide_eq_false fun ⟨h0, hlast, hmod⟩ => hmod ?_
      exact h.shows'.op ▸ hbegin (hid.trans h0) (h.last.mp hlast)
    rw [order_eq]
    dsimp only
    rw [h.mix, hdraw]
    dsimp only
    rw [hput, if_neg Bool.false_ne_true]
    have hroom : st.dest.length + t.pens.length ≤ c.total := by
      have hle := (specLoop_grows hspec).length_le
      rw [hdest, length_drawn, hlen] at hle
      exact hle
    obtain ⟨s₁, hall, hshows, hsrest, hmix⟩ :=
      wrAll_shows (s := { s with mix := t.fg, rest := t.rest }) ⟨h.shows'.op, h.shows'.pixels⟩ hroom
    rw [hall, ok_bind]
    have hnext : Alongside c { s₁ with lastop := id } (st.next c.w c.bytes t) :=
      { shows' := hdest ▸ ⟨hshows.op, hshows.pixels⟩
        mix := hmix
        last := by
          rw [Spec.next, ← hid]
          simp
        first := hfirst }
    refine ih hnext ?_ ?_
    · rw [hsrest]
      exact hspec
    · rw [hsrest]
      exact hcalm.2

/-! ## A whole bitmap -/

theorem specColour_eq {bpp : ℕ} (h : bpp ≠ 15) : specColour bpp = argb (bppBytes bpp) := by
  ext v
  rw [specColour, if_neg h]

/-- The decoder never reads or writes outside the bitmap, and it ends.  For 16 and 24 bits, what the description
makes of an input of `Calm` orders is what the program makes of it. -/
theorem rleDecompress_spec (bs : List UInt8) (bpp w h : ℕ) (raw : ℕ → UInt8) :
    rleDecompress bs bpp w h raw ≠ fault ∧
      ∀ px, (bpp = 16 ∨ bpp = 24) → specDecode bpp w bs = some px → px.length = w * h → Calm bpp w bs →
        rleDecompress bs bpp w h raw = ok (px.map (specColour bpp)) := by
  have hall : ∀ raw' : ℕ → UInt8, convert ⟨w, h, bppBytes bpp⟩ raw' (w * h) 0 =
      ok ((List.range' 0 (w * h)).map fun k => argb (bppBytes bpp) (getLE raw' (k * bppBytes bpp) (bppBytes bpp))) :=
    fun raw' => convert_eq (c := ⟨w, h, bppBytes bpp⟩) (i := 0) (by rw [Nat.zero_add, Bitmap.total])
  refine ⟨?_, fun px hbpp hspec hlen hcalm => ?_⟩
  · rw [rleDecompress]
    refine bind_ne_fault (bind_ne_fault (orders_ne_fault (Nat.lt_succ_self _)) fun s _ => ?_) fun raw' _ => ?_
    · split_ifs <;> exact nofun
    · rw [hall]
      exact nofun
  · have hwhite : white bpp = fgpel (bppBytes bpp) := by
      obtain rfl | rfl := hbpp <;> rfl
    rw [specDecode, hwhite] at hspec
    rw [Calm, hwhite] at hcalm
    have hstart : Alongside ⟨w, h, bppBytes bpp⟩ ⟨bs, 0, raw, fgpel (bppBytes bpp), -1⟩
        ⟨[], fgpel (bppBytes bpp), false, true⟩ :=
      { shows' := ⟨rfl, fun k hk => absurd hk (Nat.not_lt_zero k)⟩
        mix := rfl
        last := by simp
        first := nofun }
    obtain ⟨s', horders, hshows⟩ := orders_spec hstart hlen hspec hcalm
    have hop : (⟨w, h, bppBytes bpp⟩ : Bitmap).total ≤ s'.op := by
      rw [hshows.op, hlen, Bitmap.total]
    have hcode : interleaved ⟨w, h, bppBytes bpp⟩ bs raw = ok s'.raw := by
      rw [interleaved]
      dsimp only
      rw [horders, ok_bind, if_pos hop]
    rw [rleDecompress, hcode, ok_bind, hall, specColour_eq (by omega)]
    refine congrArg ok (List.ext_getElem (by simp [hlen]) fun k hk _ => ?_)
    rw [List.length_map, List.length_range', ← hlen] at hk
    rw [List.getElem_map, List.getElem_map, List.getElem_range', Nat.zero_add, Nat.one_mul, hshows.pixels k hk,
      List.getD_eq_getElem _ _ hk]

theorem rleDecompress_spec_four :
    rleDecompress [0xFD, 0x01, 0x22] 16 2 2 (fun _ => 0) = ok [0xFFFFFF, 0, 0, 0xFFFFFF] :=
  (rleDecompress_spec [0xFD, 0x01, 0x22] 16 2 2 fun _ => 0).2 [0xFFFF, 0, 0, 0xFFFF] (.inl rfl) (by decide) rfl
    (by rw [Calm]; decide)

/-- Two background runs of two pixels are four pixels, and the program wants to write a fifth one. -/
theorem rleDecompress_backgrounds :
    specDecode 16 4 [0x02, 0x02] = some [0, 0, 0xFFFF, 0] ∧ rleDecompress [0x02, 0x02] 16 4 1 (fun _ => 0) = fail :=
  ⟨by decide, by decide⟩

/-- A run of the foreground that begins in the first line and goes on behind it. -/
example : specDecode 16 2 [0x24] = some [0xFFFF, 0xFFFF, 0xFFFF, 0xFFFF] ∧
    rleDecompress [0x24] 16 2 2 (fun _ => 0) = ok [0xFFFFFF, 0xFFFFFF, 0, 0] := by decide

/-- The white of 15 bits. -/
example : specColour 15 0x7FFF = 0xFFFFFF ∧
    rleDecompress [0x61, 0xFF, 0x7F] 15 1 1 (fun _ => 0) = ok [0x7BFFFF] := by decide

end BananaOS.Rdp
