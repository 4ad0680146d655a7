import BananaOS.Lib.Buffers
import BananaOS.Net.Ip6
import Mathlib.Data.List.TakeWhile

/-!
# Questions for a name server

`net/dns.c`: how a host name becomes a question, and what is read of a reply.  Buffers are lists of bytes,
and an access outside of one is the outcome `fault`; so is a loop that has not come to its end in the turns
it is given.

`encode_name` is told how much room the packet has, 284 bytes, and what it made is copied to the 256 bytes of
the query record.

* `encodeLoop_eq`, `decodeLabels_wire`: what a name becomes, and that its labels can be had back.
* `questionOk_iff`: a question is what it should be unless its name takes 256 to 284 bytes.
-/

namespace BananaOS.Net

open Lib Lib.Lines Lib.Res

def dot : UInt8 := '.'.toUInt8

/-! ## Reading numbers and addresses -/

/-- `k_parse_u32`: how many digits there are, and their value. -/
def kParseU32 (s : Text) : ℕ × ℕ :=
  let ds := s.takeWhile fun c => decide ('0'.toUInt8 ≤ c ∧ c ≤ '9'.toUInt8)
  (ds.length, ds.foldl (fun v c => (v * 10 + (c - '0'.toUInt8).toNat) % 2 ^ 32) 0)

/-- The parts of an IPv4 address, `n` of them, after those that make up `v`. -/
def ip4Parts : ℕ → ℕ → Text → Option (ℕ × Text)
  | 0, v, s => some (v, s)
  | n + 1, v, s =>
    let (used, x) := kParseU32 s
    if used = 0 ∨ 3 < used ∨ 255 < x then none
    else
      let s := s.drop used
      if n = 0 then some (v * 2 ^ 8 + x, s)
      else if s.head? ≠ some dot then none
      else ip4Parts n (v * 2 ^ 8 + x) s.tail

def strToIp4 (s : Text) : Option ℕ :=
  match ip4Parts 4 0 s with
  | some (v, []) => some v
  | _ => none

def kTolower (c : UInt8) : UInt8 := if 'A'.toUInt8 ≤ c ∧ c ≤ 'Z'.toUInt8 then c + 32 else c

/-- `strcasecmp(a, b) == 0` -/
def sameText (a b : Text) : Bool := a.map kTolower == b.map kTolower

/-! ## Bytes in buffers -/

/-- `rd16` -/
def rd16At (p : List UInt8) (i : ℕ) : Res ℕ := do
  let a ← readAt p i
  let b ← readAt p (i + 1)
  return a.toNat * 2 ^ 8 + b.toNat

/-- `rd32` -/
def rd32At (p : List UInt8) (i : ℕ) : Res ℕ := do
  let a ← rd16At p i
  let b ← rd16At p (i + 2)
  return a * 2 ^ 16 + b

/-- `wr16` -/
def wr16At (p : List UInt8) (i v : ℕ) : Res (List UInt8) := do
  let p ← writeAt p i (UInt8.ofNat (v / 2 ^ 8))
  writeAt p (i + 1) (UInt8.ofNat v)

/-- `memcmp(a + i, b + j, n) == 0` -/
def sameBytes (a b : List UInt8) : ℕ → ℕ → ℕ → Res Bool
  | 0, _, _ => ok true
  | n + 1, i, j => do
    let x ← readAt a i
    let y ← readAt b j
    if x = y then sameBytes a b n (i + 1) (j + 1) else return false

/-- `memcpy(&x, p + i, n)` -/
def bytesAt (p : List UInt8) (i n : ℕ) : Res (List UInt8) :=
  if i + n ≤ p.length then ok ((p.drop i).take n) else fault

/-! ## Names -/

/-- The loop of `encode_name` with `out` at `base`, where the rest of the name is `s`. -/
def encodeLoop (base cap : ℕ) : ℕ → Text → List UInt8 → ℕ → Res (List UInt8 × ℕ)
  | 0, s, pkt, o => if s = [] then ok (pkt, o) else fault
  | n + 1, s, pkt, o =>
    if s = [] then ok (pkt, o)
    else
      let l := (s.takeWhile (· ≠ dot)).length % 2 ^ 32
      if l = 0 ∨ 63 < l ∨ cap < o + l + 2 then fail
      else do
        let pkt ← writeAt pkt (base + o) (UInt8.ofNat l)
        let pkt ← copyTo pkt (base + (o + 1)) s 0 l
        let s := s.drop l
        encodeLoop base cap n (if s.head? = some dot then s.tail else s) pkt (o + 1 + l)

/-- `encode_name`, with `fail` for -1 -/
def encodeName (name : Text) (pkt : List UInt8) (base cap : ℕ) : Res (List UInt8 × ℕ) := do
  let (pkt, o) ← encodeLoop base cap name.length name pkt 0
  if cap < o + 1 then fail
  else do
    let pkt ← writeAt pkt (base + o) 0
    return (pkt, o + 1)

/-- `skip_name`, with a number of turns. -/
def skipName (p : List UInt8) : ℕ → ℕ → Res ℕ
  | 0, off => if off < p.length then fault else ok 0
  | n + 1, off =>
    if off < p.length then do
      let l ← readAt p off
      if l = 0 then return off + 1
      else if l &&& 0xC0 = 0xC0 then return if off + 2 ≤ p.length then off + 2 else 0
      else if l &&& 0xC0 ≠ 0 ∨ p.length < (off + 1 + l.toNat) % 2 ^ 32 then return 0
      else skipName p n ((off + 1 + l.toNat) % 2 ^ 32)
    else ok 0

/-! ## Queries -/

/-- What `parse_reply` reads and writes of `dns_query_t`. -/
structure Query where
  id : ℕ
  done : Bool
  tc : Bool
  rcode : ℕ
  ip : ℕ
  ttl : ℕ
  ip6 : List UInt8
  type : ℕ
  question : List UInt8
  qlen : ℕ
  found : Bool

/-- The questions at the beginning of a reply. -/
def questionsLoop (p : List UInt8) : ℕ → ℕ → Res ℕ
  | 0, off => ok off
  | n + 1, off => do
    let off ← skipName p p.length off
    if off = 0 ∨ p.length < off + 4 then fail else questionsLoop p n (off + 4)

/-- The answers. -/
def answersLoop (p : List UInt8) : ℕ → ℕ → Query → Res Query
  | 0, _, q => ok q
  | n + 1, off, q => do
    let off ← skipName p p.length off
    if off = 0 ∨ p.length < off + 10 then return q
    else do
      let type ← rd16At p off
      let cls ← rd16At p (off + 2)
      let ttl ← rd32At p (off + 4)
      let rdlen ← rd16At p (off + 8)
      let off := off + 10
      if p.length < (off + rdlen) % 2 ^ 32 then return q
      else if type = q.type ∧ cls = 1 ∧ rdlen = (if q.type = 28 then 16 else 4) then
        if q.type = 28 then do
          let ip6 ← bytesAt p off 16
          return { q with ip6 := ip6, ttl := ttl, found := true }
        else do
          let ip ← rd32At p off
          return { q with ip := ip, ttl := ttl, found := true }
      else answersLoop p n ((off + rdlen) % 2 ^ 32) q

/-- `parse_reply` -/
def parseReply (q : Query) (p : List UInt8) : Res Query := do
  if p.length < 12 then return q
  else do
    let id ← rd16At p 0
    if id ≠ q.id then return q
    else do
      let flags ← readAt p 2
      let qd ← rd16At p 4
      if flags &&& 0xF8 ≠ 0x80 ∨ qd ≠ 1 then return q
      else if p.length < (12 + q.qlen + 4) % 2 ^ 32 then return q
      else do
        let same ← sameBytes p q.question q.qlen 12 0
        if same = false then return q
        else do
          let type ← rd16At p (12 + q.qlen)
          let cls ← rd16At p (14 + q.qlen)
          if type ≠ q.type ∨ cls ≠ 1 then return q
          else do
            let b ← readAt p 3
            let q := { q with rcode := (b &&& 0x0F).toNat }
            if flags &&& 0x02 ≠ 0 then return { q with tc := true, done := true }
            else do
              let an ← rd16At p 6
              match questionsLoop p qd 12 with
              | fault => fault
              | fail => return { q with done := true }
              | ok off => do
                let q ← answersLoop p an off q
                return { q with done := true }

/-- A name whose address was had before. -/
structure CacheEntry where
  name : Text
  type : ℕ
  /-- `expires_ms` is not reached. -/
  live : Bool

/-- What `resolve` asks the rest of the network for, and what its packet holds before it is filled. -/
structure Resolver where
  ip6On : Bool
  cache : List CacheEntry
  dev : Bool
  ip6Dns : Bool
  configured : Bool
  dns : ℕ
  randomId : ℕ
  stack : Vector UInt8 300

/-- `cache_get` -/
def cacheGet (r : Resolver) (name : Text) (type : ℕ) : Bool :=
  r.cache.any fun e => e.name ≠ [] && e.type == type && sameText e.name name && e.live

/-- How far `resolve` comes: it gives up, it knows the address, or it has a packet to send, `len` bytes of it,
with a query that waits for the reply. -/
inductive Asks where
  | refused (rc : ℤ)
  | known
  | sends (pkt : List UInt8) (len : ℕ) (q : Query)

def netErrDns : ℤ := -7
def netErrNotready : ℤ := -8
def netErrNodev : ℤ := -9

def localhost : Text := "localhost".toList.map Char.toUInt8

/-- The packet and the query of `resolve`. -/
def makeQuestion (r : Resolver) (name : Text) (type : ℕ) : Res Asks := do
  let pkt ← copyTo r.stack.toList 0 (List.replicate 12 0) 0 12
  let id := r.randomId % 2 ^ 16
  let pkt ← wr16At pkt 0 id
  let pkt ← wr16At pkt 2 0x0100
  let pkt ← wr16At pkt 4 1
  match encodeName name pkt 12 (300 - 16) with
  | fault => fault
  | fail => return .refused netErrDns
  | ok (pkt, nl) => do
    let qlen := 12 + nl
    let question ← copyTo (List.replicate 256 0) 0 pkt 12 nl
    let pkt ← wr16At pkt qlen type
    let pkt ← wr16At pkt (qlen + 2) 1
    return .sends pkt (qlen + 4)
      { id := id
        done := false
        tc := false
        rcode := 0
        ip := 0
        ttl := 0
        ip6 := List.replicate 16 0
        type := type
        question := question
        qlen := nl
        found := false }

/-- `resolve`, up to the first packet it sends; the types are 1 and 28. -/
def resolve (r : Resolver) (name : Text) (type : ℕ) : Res Asks :=
  if name = [] then ok (.refused netErrDns)
  else if type = 28 ∧ r.ip6On = false then ok (.refused netErrNotready)
  else if type = 28 ∧ (ip6Parse name).isSome then ok .known
  else if type ≠ 28 ∧ (strToIp4 name).isSome then ok .known
  else if sameText name localhost then ok .known
  else if cacheGet r name type then ok .known
  else if r.dev = false then ok (.refused netErrNodev)
  else if (type ≠ 28 ∨ r.ip6Dns = false) ∧ r.configured = false then ok (.refused netErrNotready)
  else if (type ≠ 28 ∨ r.ip6Dns = false) ∧ r.dns = 0 then ok (.refused netErrDns)
  else makeQuestion r name type

/-! ## What a question should be -/

/-- The labels of a name: what stands between its dots, of which one may be at the end. -/
def labels (name : Text) : List Text :=
  let ls := name.splitOn dot
  if ls.getLast? = some [] then ls.dropLast else ls

/-- The bytes a name takes in a question. -/
def nameBytes (name : Text) : ℕ := ((labels name).map fun l => l.length + 1).sum + 1

/-- Labels have 1 to 63 bytes. -/
def GoodLabels (name : Text) : Prop := ∀ l ∈ labels name, 1 ≤ l.length ∧ l.length ≤ 63

instance (name : Text) : Decidable (GoodLabels name) := inferInstanceAs (Decidable (∀ l ∈ labels name, _))

/-- The labels that a question holds: each with its length before it, and a zero at the end. -/
def decodeLabels : ℕ → List UInt8 → Option (List Text)
  | 0, _ => none
  | n + 1, s =>
    match s with
    | [] => none
    | l :: s =>
      if l = 0 then if s = [] then some [] else none
      else if 63 < l.toNat ∨ s.length < l.toNat then none
      else (decodeLabels n (s.drop l.toNat)).map (s.take l.toNat :: ·)

/-- What `resolve` makes of a name is as it should be: nothing, or a question within the record and the
packet, of at most 255 bytes, that holds the labels of the name. -/
def QuestionOk (name : Text) : Res Asks → Prop
  | ok (.sends pkt len q) =>
    q.qlen ≤ q.question.length ∧ len = 12 + q.qlen + 4 ∧ len ≤ pkt.length ∧
      (pkt.drop 12).take q.qlen = q.question.take q.qlen ∧ q.qlen ≤ 255 ∧
        decodeLabels q.qlen (q.question.take q.qlen) = some (labels name)
  | ok _ => True
  | fail => False
  | fault => False

/-! ## Labels -/

theorem labels_nil : labels [] = [] := rfl

theorem dot_notMem_takeWhile (s : Text) : dot ∉ s.takeWhile (· ≠ dot) := by
  intro h
  simpa using List.mem_takeWhile_imp h

theorem labels_of_notMem {s : Text} (h : s ≠ []) (hdot : dot ∉ s) : labels s = [s] := by
  rw [labels, List.splitOn_eq_singleton hdot]
  exact if_neg (by simpa using h)

theorem labels_append {l : Text} (hdot : dot ∉ l) (t : Text) : labels (l ++ dot :: t) = l :: labels t := by
  obtain ⟨x, xs, hxs⟩ := List.exists_cons_of_ne_nil (List.splitOn_ne_nil dot t)
  rw [labels, List.splitOn_append_cons_self_of_not_mem hdot, labels, hxs]
  rw [List.getLast?_cons_cons, List.dropLast_cons_cons]
  split_ifs with hlast
  · rfl
  · rfl

/-- The first label, and those of what is behind it. -/
theorem labels_of_ne_nil {s : Text} (h : s ≠ []) :
    ∃ l t, labels s = l :: labels t ∧ l = s.takeWhile (· ≠ dot) ∧
      (s = l ∧ t = [] ∨ s = l ++ dot :: t) := by
  have hs := List.takeWhile_append_dropWhile (p := fun c => decide (c ≠ dot)) (l := s)
  have hdot := dot_notMem_takeWhile s
  cases hrest : s.dropWhile fun c => decide (c ≠ dot) with
  | nil =>
    rw [hrest, List.append_nil] at hs
    rw [hs] at hdot
    exact ⟨s, [], by rw [labels_of_notMem h hdot, labels_nil], hs.symm, .inl ⟨rfl, rfl⟩⟩
  | cons c t =>
    have hc : c = dot := by
      have := List.head?_dropWhile_not (fun c => decide (c ≠ dot)) s
      rw [hrest] at this
      simpa using this
    subst hc
    rw [hrest] at hs
    refine ⟨s.takeWhile fun c => decide (c ≠ dot), t, ?_, rfl, .inr hs.symm⟩
    rw [← labels_append hdot t, hs]

/-! ## The encoder -/

variable {base cap n o : ℕ} {s name : Text} {pre rest : List UInt8}

/-- Labels with their lengths before them. -/
def wire (ls : List Text) : List UInt8 := ls.flatMap fun l => UInt8.ofNat l.length :: l

@[simp] theorem wire_nil : wire [] = [] := rfl

theorem length_wire (ls : List Text) : (wire ls).length = (ls.map fun l => l.length + 1).sum := by
  induction ls with
  | nil => rfl
  | cons l ls ih =>
    rw [wire, List.flatMap_cons, ← wire, List.length_append, List.length_cons, ih, List.map_cons,
      List.sum_cons]

/-- A turn whose label is not too long as it is counted. -/
theorem encodeLoop_turn (hs : s ≠ []) (hpre : pre.length = base + o) (hrest : cap ≤ o + rest.length) {l : ℕ}
    (hl : (s.takeWhile (· ≠ dot)).length % 2 ^ 32 = l) :
    encodeLoop base cap (n + 1) s (pre ++ rest) o =
      if l = 0 ∨ 63 < l ∨ cap < o + l + 2 then fail
      else encodeLoop base cap n (if (s.drop l).head? = some dot then (s.drop l).tail else s.drop l)
        (pre ++ (UInt8.ofNat l :: s.take l) ++ rest.drop (l + 1)) (o + 1 + l) := by
  rw [encodeLoop, if_neg hs, hl]
  by_cases hbad : l = 0 ∨ 63 < l ∨ cap < o + l + 2
  · rw [if_pos hbad, if_pos hbad]
  · have hne : rest ≠ [] := List.ne_nil_of_length_pos (by omega)
    have hlen : l ≤ s.length := by
      have h1 := Nat.mod_le (s.takeWhile (· ≠ dot)).length (2 ^ 32)
      have h2 := (s.takeWhile_prefix (· ≠ dot)).length_le
      omega
    rw [if_neg hbad, if_neg hbad, writeAt_append _ hpre.symm hne, ok_bind,
      copyTo_append (by simp [hpre]; omega) (by rw [List.length_drop]; omega) (by omega), ok_bind,
      List.drop_zero, List.drop_drop, Nat.add_comm 1 l, List.append_assoc pre]
    rfl

theorem takeWhile_drop (p : UInt8 → Bool) (s : Text) {l : ℕ} (h : l ≤ (s.takeWhile p).length) :
    (s.drop l).takeWhile p = (s.takeWhile p).drop l := by
  induction l generalizing s with
  | zero => rfl
  | succ l ih =>
    cases s with
    | nil => rfl
    | cons c s =>
      by_cases hc : p c = true
      · rw [List.takeWhile_cons_of_pos hc] at h ⊢
        rw [List.drop_succ_cons, List.drop_succ_cons]
        exact ih s (by simpa using h)
      · rw [List.takeWhile_cons_of_neg hc] at h
        exact absurd h (by simp)

/-- A label that is too long is found out, even where its length is cut to 32 bits. -/
theorem encodeLoop_long (hs : s.length ≤ n) (hpre : pre.length = base + o) (hrest : cap ≤ o + rest.length)
    (hlong : 63 < (s.takeWhile (· ≠ dot)).length) : encodeLoop base cap n s (pre ++ rest) o = fail := by
  have hne : s ≠ [] := by
    rintro rfl
    exact absurd hlong (by simp)
  obtain ⟨n, rfl⟩ : ∃ m, n = m + 1 := ⟨n - 1, by have := List.length_pos_of_ne_nil hne; omega⟩
  have hprefix := (s.takeWhile_prefix (· ≠ dot)).length_le
  rw [encodeLoop_turn hne hpre hrest rfl]
  by_cases hbad : (s.takeWhile (· ≠ dot)).length % 2 ^ 32 = 0 ∨
      63 < (s.takeWhile (· ≠ dot)).length % 2 ^ 32 ∨ cap < o + (s.takeWhile (· ≠ dot)).length % 2 ^ 32 + 2
  · rw [if_pos hbad]
  · -- the length was cut: a multiple of `2 ^ 32` bytes of the label is left
    obtain ⟨l, hl⟩ : ∃ l, l = (s.takeWhile (· ≠ dot)).length % 2 ^ 32 := ⟨_, rfl⟩
    rw [← hl] at hbad ⊢
    have hleft : ((s.drop l).takeWhile (· ≠ dot)).length = (s.takeWhile (· ≠ dot)).length - l := by
      rw [takeWhile_drop _ _ (by omega), List.length_drop]
    have hne' : s.drop l ≠ [] := by
      intro h
      rw [h] at hleft
      have : (s.takeWhile (· ≠ dot)).length - l = 0 := hleft.symm
      omega
    have hhead : (s.drop l).head? ≠ some dot := by
      intro h
      obtain ⟨t, ht⟩ := List.head?_eq_some_iff.mp h
      rw [ht, List.takeWhile_cons_of_neg (by simp)] at hleft
      have : (s.takeWhile (· ≠ dot)).length - l = 0 := hleft.symm
      omega
    obtain ⟨n, rfl⟩ : ∃ m, n = m + 1 := ⟨n - 1, by
      have := List.length_pos_of_ne_nil hne'
      rw [List.length_drop] at this
      omega⟩
    have hpre' : (pre ++ UInt8.ofNat l :: s.take l).length = base + (o + 1 + l) := by
      rw [List.length_append, List.length_cons, List.length_take, hpre]
      omega
    have hzero : ((s.drop l).takeWhile (· ≠ dot)).length % 2 ^ 32 = 0 := by
      rw [hleft]
      omega
    rw [if_neg hbad, if_neg hhead,
      encodeLoop_turn hne' hpre' (by rw [List.length_drop]; omega) hzero]
    exact if_pos (.inl rfl)

/-- The labels are written one behind the other, unless one of them is bad or there is no room. -/
theorem encodeLoop_eq (hs : s.length ≤ n) (hpre : pre.length = base + o) (ho : o + 1 ≤ cap)
    (hrest : cap ≤ o + rest.length) :
    encodeLoop base cap n s (pre ++ rest) o =
      if GoodLabels s ∧ o + (wire (labels s)).length + 1 ≤ cap then
        ok (pre ++ wire (labels s) ++ rest.drop (wire (labels s)).length, o + (wire (labels s)).length)
      else fail := by
  induction n generalizing s o pre rest with
  | zero =>
    obtain rfl := List.length_eq_zero_iff.mp (Nat.le_zero.mp hs)
    rw [encodeLoop, if_pos rfl, labels_nil, wire_nil, if_pos ⟨by simp [GoodLabels, labels_nil], ho⟩]
    simp
  | succ n ih =>
    by_cases hnil : s = []
    · subst hnil
      rw [encodeLoop, if_pos rfl, labels_nil, wire_nil, if_pos ⟨by simp [GoodLabels, labels_nil], ho⟩]
      simp
    · obtain ⟨l, t, hlabels, hl, ht⟩ := labels_of_ne_nil hnil
      by_cases hlong : 63 < l.length
      · rw [encodeLoop_long hs hpre hrest (hl ▸ hlong), if_neg]
        rintro ⟨hgood, -⟩
        have := hgood l (by rw [hlabels]; exact .head _)
        omega
      · have hmod : (s.takeWhile (· ≠ dot)).length % 2 ^ 32 = l.length := by
          rw [← hl]
          exact Nat.mod_eq_of_lt (by omega)
        have hdrop : (if (s.drop l.length).head? = some dot then (s.drop l.length).tail
            else s.drop l.length) = t := by
          rcases ht with ⟨rfl, rfl⟩ | rfl
          · simp
          · simp
        have htake : s.take l.length = l := by
          rcases ht with ⟨rfl, rfl⟩ | rfl
          · simp
          · simp
        have hwire : wire (labels s) = UInt8.ofNat l.length :: l ++ wire (labels t) := by
          rw [hlabels]
          rfl
        have hlen : (wire (labels s)).length = l.length + 1 + (wire (labels t)).length := by
          rw [hwire, List.length_append, List.length_cons]
        have hgood : GoodLabels s ↔ (1 ≤ l.length ∧ l.length ≤ 63) ∧ GoodLabels t := by
          rw [GoodLabels, hlabels, List.forall_mem_cons]
          rfl
        rw [encodeLoop_turn hnil hpre hrest hmod, hdrop, htake]
        by_cases hbad : l.length = 0 ∨ 63 < l.length ∨ cap < o + l.length + 2
        · rw [if_pos hbad, if_neg]
          rintro ⟨hg, hcap⟩
          have := (hgood.mp hg).1
          omega
        · have hshort : t.length ≤ n := by
            have hpos : 0 < s.length := List.length_pos_of_ne_nil hnil
            rcases ht with ⟨-, rfl⟩ | rfl
            · exact Nat.zero_le _
            · rw [List.length_append, List.length_cons] at hs
              omega
          have hlen' : (pre ++ UInt8.ofNat l.length :: l).length = base + (o + 1 + l.length) := by
            rw [List.length_append, List.length_cons, hpre]
            omega
          rw [if_neg hbad, ih hshort hlen' (by omega) (by rw [List.length_drop]; omega)]
          by_cases hok : GoodLabels t ∧ o + 1 + l.length + (wire (labels t)).length + 1 ≤ cap
          · rw [if_pos hok, if_pos ⟨hgood.mpr ⟨by omega, hok.1⟩, by omega⟩, List.drop_drop, hlen, hwire]
            simp only [List.append_assoc, Nat.add_assoc, Nat.add_comm 1]
          · rw [if_neg hok, if_neg]
            rintro ⟨hg, hcap⟩
            exact hok ⟨(hgood.mp hg).2, by omega⟩

theorem nameBytes_eq (name : Text) : nameBytes name = (wire (labels name)).length + 1 := by
  rw [nameBytes, length_wire]

/-- A name becomes its labels and a zero, or is refused. -/
theorem encodeName_eq (hpre : pre.length = base) (hcap : 1 ≤ cap) (hrest : cap ≤ rest.length) :
    encodeName name (pre ++ rest) base cap =
      if GoodLabels name ∧ nameBytes name ≤ cap then
        ok (pre ++ (wire (labels name) ++ [0]) ++ rest.drop (nameBytes name), nameBytes name)
      else fail := by
  rw [encodeName, encodeLoop_eq le_rfl (o := 0) (by omega) (by omega) (by omega), nameBytes_eq, Nat.zero_add]
  by_cases h : GoodLabels name ∧ (wire (labels name)).length + 1 ≤ cap
  · have hne : rest.drop (wire (labels name)).length ≠ [] := by
      refine List.ne_nil_of_length_pos ?_
      rw [List.length_drop]
      omega
    have hlen : base + (wire (labels name)).length = (pre ++ wire (labels name)).length := by
      rw [List.length_append, hpre]
    rw [if_pos h, if_pos h, ok_bind]
    simp only [if_neg (Nat.not_lt.mpr h.2)]
    rw [writeAt_append 0 hlen hne, ok_bind, List.drop_drop, List.append_assoc pre]
    rfl
  · rw [if_neg h, if_neg h]
    rfl

/-! ## The labels can be had back -/

theorem decodeLabels_wire {ls : List Text} (h : ∀ l ∈ ls, 1 ≤ l.length ∧ l.length ≤ 63) {k : ℕ}
    (hk : ls.length < k) : decodeLabels k (wire ls ++ [0]) = some ls := by
  induction ls generalizing k with
  | nil =>
    obtain ⟨k, rfl⟩ : ∃ m, k = m + 1 := ⟨k - 1, by omega⟩
    rfl
  | cons l ls ih =>
    obtain ⟨k, rfl⟩ : ∃ m, k = m + 1 := ⟨k - 1, by omega⟩
    obtain ⟨⟨hpos, hle⟩, hrest⟩ := List.forall_mem_cons.mp h
    have hnat : (UInt8.ofNat l.length).toNat = l.length := by
      rw [UInt8.toNat_ofNat', Nat.mod_eq_of_lt (by omega)]
    have hzero : UInt8.ofNat l.length ≠ 0 := by
      intro h
      rw [h] at hnat
      have h0 : (0 : UInt8).toNat = 0 := rfl
      omega
    rw [wire, List.flatMap_cons, ← wire, List.cons_append, List.cons_append, List.append_assoc]
    rw [decodeLabels]
    simp only [if_neg hzero, hnat]
    rw [if_neg (by rw [List.length_append]; omega), List.drop_left, List.take_left,
      ih hrest (by simpa using hk)]
    rfl

theorem length_labels_lt (name : Text) : (labels name).length < nameBytes name := by
  rw [nameBytes]
  induction labels name with
  | nil => exact Nat.zero_lt_one
  | cons l ls ih =>
    rw [List.map_cons, List.sum_cons, List.length_cons]
    omega

/-! ## Questions -/

theorem wr16At_of_le {p : List UInt8} {i : ℕ} (v : ℕ) (h : i + 2 ≤ p.length) :
    wr16At p i v = ok ((p.set i (UInt8.ofNat (v / 2 ^ 8))).set (i + 1) (UInt8.ofNat v)) := by
  rw [wr16At, writeAt_of_lt _ (by omega), ok_bind, writeAt_of_lt _ (by rw [List.length_set]; omega)]

theorem wr16At_append {a : List UInt8} {i : ℕ} (v : ℕ) (b : List UInt8) (h : i + 2 ≤ a.length) :
    ∃ a', wr16At (a ++ b) i v = ok (a' ++ b) ∧ a'.length = a.length := by
  refine ⟨(a.set i (UInt8.ofNat (v / 2 ^ 8))).set (i + 1) (UInt8.ofNat v), ?_, ?_⟩
  · rw [wr16At_of_le v (by rw [List.length_append]; omega), List.set_append_left _ _ (by omega),
      List.set_append_left _ _ (by rw [List.length_set]; omega)]
  · rw [List.length_set, List.length_set]

/-- The head of the packet is 12 bytes, and 288 are left. -/
theorem makeQuestion_head (r : Resolver) (name : Text) (type : ℕ) :
    ∃ pre rest : List UInt8, pre.length = 12 ∧ rest.length = 288 ∧
      makeQuestion r name type = match encodeName name (pre ++ rest) 12 (300 - 16) with
        | fault => fault
        | fail => return .refused netErrDns
        | ok (pkt, nl) => do
          let question ← copyTo (List.replicate 256 0) 0 pkt 12 nl
          let pkt ← wr16At pkt (12 + nl) type
          let pkt ← wr16At pkt (12 + nl + 2) 1
          return .sends pkt (12 + nl + 4) ⟨r.randomId % 2 ^ 16, false, false, 0, 0, 0, List.replicate 16 0, type,
            question, nl, false⟩ := by
  obtain ⟨a, h1, hlen1⟩ := @wr16At_append (List.replicate 12 0) 0 (r.randomId % 2 ^ 16)
    (r.stack.toList.drop 12) (by simp)
  rw [List.length_replicate] at hlen1
  obtain ⟨b, h2, hlen2⟩ := @wr16At_append a 2 0x0100 (r.stack.toList.drop 12) (by omega)
  obtain ⟨c, h3, hlen3⟩ := @wr16At_append b 4 1 (r.stack.toList.drop 12) (by omega)
  refine ⟨c, r.stack.toList.drop 12, by omega, by simp, ?_⟩
  have hcopy : copyTo r.stack.toList 0 (List.replicate 12 0) 0 12 =
      ok (List.replicate 12 0 ++ r.stack.toList.drop 12) :=
    @copyTo_append _ [] r.stack.toList (List.replicate 12 0) 0 0 12 rfl (by simp) (by simp)
  rw [makeQuestion, hcopy, ok_bind]
  dsimp only
  rw [h1, ok_bind, h2, ok_bind, h3, ok_bind]

variable {r : Resolver} {type : ℕ}

theorem makeQuestion_refused (h : ¬(GoodLabels name ∧ nameBytes name ≤ 284)) :
    makeQuestion r name type = ok (.refused netErrDns) := by
  obtain ⟨pre, rest, hpre, hrest, heq⟩ := makeQuestion_head r name type
  rw [heq, encodeName_eq hpre (by decide) (by omega), if_neg h]
  rfl

/-- The packet has room for more than the record of the query. -/
theorem makeQuestion_fault (hgood : GoodLabels name) (hcap : nameBytes name ≤ 284) (h : 256 < nameBytes name) :
    makeQuestion r name type = fault := by
  obtain ⟨pre, rest, hpre, hrest, heq⟩ := makeQuestion_head r name type
  rw [heq, encodeName_eq hpre (by decide) (by omega), if_pos ⟨hgood, hcap⟩]
  dsimp only
  rw [copyTo, if_neg]
  · rfl
  · rintro ⟨hle, -⟩
    rw [List.length_replicate] at hle
    omega

theorem slice_set {p : List UInt8} {d k i : ℕ} (x : UInt8) (h : d + k ≤ i) :
    ((p.set i x).drop d).take k = (p.drop d).take k := by
  rw [List.drop_set, if_neg (by omega), List.take_set_of_le (by omega)]

/-- A question that fits both. -/
theorem makeQuestion_sends (hgood : GoodLabels name) (h : nameBytes name ≤ 256) :
    ∃ pkt q, makeQuestion r name type = ok (.sends pkt (12 + nameBytes name + 4) q) ∧ pkt.length = 300 ∧
      q.qlen = nameBytes name ∧ q.question.length = 256 ∧
        q.question.take q.qlen = wire (labels name) ++ [0] ∧
          (pkt.drop 12).take q.qlen = wire (labels name) ++ [0] := by
  obtain ⟨pre, rest, hpre, hrest, heq⟩ := makeQuestion_head r name type
  obtain ⟨w, hw⟩ : ∃ w, w = wire (labels name) ++ [0] := ⟨_, rfl⟩
  have hlen : w.length = nameBytes name := by
    rw [hw, List.length_append, List.length_singleton, nameBytes_eq]
  rw [heq, encodeName_eq hpre (by decide) (by omega), if_pos ⟨hgood, by omega⟩, ← hw]
  dsimp only
  obtain ⟨pkt, hpkt⟩ : ∃ pkt, pkt = pre ++ w ++ rest.drop (nameBytes name) := ⟨_, rfl⟩
  have hlenp : pkt.length = 300 := by
    rw [hpkt, List.length_append, List.length_append, List.length_drop]
    omega
  have hslice : (pkt.drop 12).take (nameBytes name) = w := by
    rw [hpkt, List.append_assoc, ← hpre, List.drop_left, ← hlen, List.take_left]
  obtain ⟨question, hq⟩ : ∃ question, copyTo (List.replicate 256 0) 0 pkt 12 (nameBytes name) = ok question :=
    ⟨_, copyTo_of_le (by rw [List.length_replicate]; omega) (by omega)⟩
  have hlenq : question.length = 256 := (length_copyTo hq).trans List.length_replicate
  have htake := take_copyTo hq
  rw [Nat.zero_add, List.take_zero, List.nil_append, hslice] at htake
  rw [← hpkt, hq, ok_bind, wr16At_of_le _ (by omega), ok_bind,
    wr16At_of_le _ (by rw [List.length_set, List.length_set]; omega), ok_bind]
  refine ⟨_, _, rfl, ?_, rfl, hlenq, htake, ?_⟩
  · rw [List.length_set, List.length_set, List.length_set, List.length_set, hlenp]
  · dsimp only
    rw [slice_set _ (by omega), slice_set _ (by omega), slice_set _ (by omega), slice_set _ (by omega), hslice]

/-- A query keeps no more than its record has room for. -/
theorem makeQuestion_fits {pkt : List UInt8} {len : ℕ} {q : Query}
    (h : makeQuestion r name type = ok (.sends pkt len q)) :
    q.qlen ≤ q.question.length ∧ q.question.length = 256 := by
  by_cases hname : GoodLabels name ∧ nameBytes name ≤ 284
  · by_cases h256 : nameBytes name ≤ 256
    · obtain ⟨pkt', q', heq, -, hqlen, hlen, -⟩ := @makeQuestion_sends name r type hname.1 h256
      rw [heq] at h
      cases h
      exact ⟨by omega, hlen⟩
    · rw [makeQuestion_fault hname.1 hname.2 (by omega)] at h
      cases h
  · rw [makeQuestion_refused hname] at h
    cases h

/-- The names whose question is made as it should be. -/
def Askable (name : Text) : Prop := GoodLabels name → nameBytes name ≤ 284 → nameBytes name ≤ 255

theorem questionOk_makeQuestion (h : Askable name) : QuestionOk name (makeQuestion r name type) := by
  by_cases hname : GoodLabels name ∧ nameBytes name ≤ 284
  · have h255 := h hname.1 hname.2
    obtain ⟨pkt, q, heq, hpkt, hqlen, hlen, hq, hslice⟩ := @makeQuestion_sends name r type hname.1 (by omega)
    rw [heq]
    refine ⟨by omega, by rw [hqlen], by omega, by rw [hslice, hq], by omega, ?_⟩
    rw [hq, hqlen]
    exact decodeLabels_wire hname.1 (length_labels_lt name)
  · rw [makeQuestion_refused hname]
    trivial

theorem resolve_cases (r : Resolver) (name : Text) (type : ℕ) :
    resolve r name type = makeQuestion r name type ∨ resolve r name type = ok .known ∨
      ∃ rc, resolve r name type = ok (.refused rc) := by
  rw [resolve]
  split_ifs
  · exact .inr (.inr ⟨_, rfl⟩)
  · exact .inr (.inr ⟨_, rfl⟩)
  · exact .inr (.inl rfl)
  · exact .inr (.inl rfl)
  · exact .inr (.inl rfl)
  · exact .inr (.inl rfl)
  · exact .inr (.inr ⟨_, rfl⟩)
  · exact .inr (.inr ⟨_, rfl⟩)
  · exact .inr (.inr ⟨_, rfl⟩)
  · exact .inl rfl

theorem questionOk_resolve (h : Askable name) (r : Resolver) (type : ℕ) :
    QuestionOk name (resolve r name type) := by
  rcases resolve_cases r name type with heq | heq | ⟨rc, heq⟩
  · rw [heq]
    exact questionOk_makeQuestion h
  · rw [heq]
    trivial
  · rw [heq]
    trivial

theorem length_wire_le (s : Text) : (wire (labels s)).length ≤ s.length + 1 := by
  induction hn : s.length using Nat.strong_induction_on generalizing s with
  | _ n ih =>
    by_cases hnil : s = []
    · rw [hnil, labels_nil]
      exact Nat.zero_le _
    · obtain ⟨l, t, hlabels, -, ht⟩ := labels_of_ne_nil hnil
      have hlen : (wire (labels s)).length = l.length + 1 + (wire (labels t)).length := by
        rw [hlabels, wire, List.flatMap_cons, ← wire, List.length_append, List.length_cons]
      rcases ht with ⟨rfl, rfl⟩ | rfl
      · rw [hlen, labels_nil, wire_nil, List.length_nil]
        omega
      · rw [List.length_append, List.length_cons] at hn
        have := ih t.length (by omega) t rfl
        omega

/-- A machine with IPv6 that knows a name server and no name. -/
def freshResolver : Resolver where
  ip6On := true
  cache := []
  dev := true
  ip6Dns := true
  configured := true
  dns := 1
  randomId := 0
  stack := Vector.replicate 300 0

/-- A long name is looked up. -/
theorem resolve_long (h : 255 < nameBytes name) :
    resolve freshResolver name 28 = makeQuestion freshResolver name 28 := by
  have hlong : 254 ≤ name.length := by
    have := length_wire_le name
    rw [nameBytes_eq] at h
    omega
  have hne : name ≠ [] := List.ne_nil_of_length_pos (by omega)
  have hparse : ip6Parse name = none := by
    rw [Option.eq_none_iff_forall_ne_some]
    intro a ha
    have := (ip6Parse_sound ha).length_le
    omega
  have hlocal : sameText name localhost = false := by
    rw [sameText, beq_eq_false_iff_ne]
    intro h
    have := congrArg List.length h
    rw [List.length_map, List.length_map] at this
    have h9 : localhost.length = 9 := rfl
    omega
  rw [resolve, if_neg hne, if_neg (by simp [freshResolver]), hparse, if_neg (by simp), if_neg (by simp), hlocal,
    if_neg (by simp), if_neg (by simp [cacheGet, freshResolver]), if_neg (by simp [freshResolver]),
    if_neg (by simp [freshResolver]), if_neg (by simp [freshResolver])]

/-- A question is as it should be on every machine exactly where its name is askable. -/
theorem questionOk_iff (name : Text) : (∀ r type, QuestionOk name (resolve r name type)) ↔ Askable name := by
  refine ⟨fun h hgood hcap => ?_, fun h r type => questionOk_resolve h r type⟩
  by_contra hlong
  have hok := h freshResolver 28
  rw [resolve_long (by omega)] at hok
  by_cases h256 : nameBytes name ≤ 256
  · obtain ⟨pkt, q, heq, -, hqlen, -⟩ := @makeQuestion_sends name freshResolver 28 hgood h256
    rw [heq] at hok
    have := hok.2.2.2.2.1
    omega
  · rw [makeQuestion_fault hgood hcap (by omega)] at hok
    exact hok

end BananaOS.Net
