import BananaOS.Net.HttpChunked
import Mathlib.Data.List.Range

/-!
# Downloads that go on

`do_request` from the answer's headers on, and `http_fetch`, of `net/http.c`.  A connection that breaks in the
body is followed by a request for the rest, and the answer to that must be a 206 from the right place on.

What comes over the network is a list of exchanges, one for each call of `do_request`: there is no answer, or
there are the headers and the stream behind them.  `places` is not in the program; it has the place in the
body of every byte that is delivered, and `resumed` the answers that went on with a body.

The length of such an answer is not compared with what is missing.  `fetch_whole_iff`: the body is whole if and
only if the last of them has as many bytes as are missing.
-/

namespace BananaOS.Http

open Lib

def netErrTimeout : ℤ := -1
def netErrReset : ℤ := -2

inductive Method where
  | get
  | head
  | other
  deriving DecidableEq

/-- What the caller asks for; `stops` says of what was delivered whether `on_body` breaks off. -/
structure Request where
  method : Method
  hasBody : Bool
  followRedirects : Bool
  maxRedirects : ℕ
  stops : List UInt8 → Bool

/-- What the headers of an answer say: `contentLength` is an `int32_t`, -1 without the header. -/
structure Answer where
  status : ℕ
  contentLength : ℤ
  chunked : Bool
  rangeStart : Option ℕ
  location : List UInt8
  short : contentLength < 2 ^ 31

/-- What comes of a request: an error before the end of the headers, or an answer, the stream behind it and what
is in `line` of `read_chunked`. -/
inductive Exchange where
  | failed (r : ℤ) (neg : r < 0)
  | answered (a : Answer) (s : Stream) (line : List UInt8)

/-- `resume_t` -/
structure Resume where
  start : ℕ
  gotHeaders : Bool
  resumable : Bool
  status : ℕ
  total : ℤ

/-- An answer that goes on with a body: from where, the length of the whole, its own and the bytes that come. -/
structure Resumed where
  start : ℕ
  total : ℤ
  contentLength : ℤ
  bytes : ℕ

structure Response where
  status : ℕ
  contentLength : ℤ
  location : List UInt8
  bodyBytes : ℕ
  body : List UInt8
  places : List ℕ
  resumed : List Resumed

/-- The bytes `body` are delivered now, those behind what was delivered before from the place `p` on. -/
def Response.deliver (resp : Response) (p : ℕ) (body : List UInt8) : Response :=
  let n := body.length - resp.body.length
  { resp with bodyBytes := u32 (resp.bodyBytes + n), body, places := resp.places ++ List.range' p n }

/-- The end of `do_request`, where the body is read: `want` is the length of this answer. -/
def readBody (req : Request) (resp : Response) (chunked : Bool) (want : ℤ) (p : ℕ) (s : Stream) (line : List UInt8) :
    Option (ℤ × Response) :=
  if req.method = .head ∨ resp.status = 204 ∨ resp.status = 304 then some (0, resp)
  else if chunked then
    (readChunked req.stops s line resp.body).map fun (r, body, _) => (r, resp.deliver p body)
  else
    let (r, body, _) := readBodyBytes req.stops s (if 0 ≤ want then want else -1) resp.body
    some (r, resp.deliver p body)

/-- What the headers are worth: a request for the rest takes the rest or nothing (`none`). -/
def takeHeaders (req : Request) (rs : Resume) (resp : Response) (a : Answer) (bytes : ℕ) : Option (Resume × Response) :=
  if rs.start ≠ 0 then
    if resp.status ≠ 206 ∨ a.rangeStart ≠ some rs.start ∨ a.chunked then none
    else
      some (rs, { resp with
        status := rs.status
        contentLength := rs.total
        resumed := resp.resumed ++ [⟨rs.start, rs.total, a.contentLength, bytes⟩] })
  else if 300 ≤ resp.status ∧ resp.status < 400 then some (rs, resp)
  else
    some ({ rs with
      gotHeaders := true
      status := resp.status
      total := resp.contentLength
      resumable := resp.status = 200 ∧ 0 < resp.contentLength ∧ a.chunked = false ∧ req.method = .get ∧
        req.hasBody = false }, resp)

def isRedirect (resp : Response) : Prop := resp.status ∈ [301, 302, 303, 307, 308] ∧ resp.location ≠ []

instance (resp : Response) : Decidable (isRedirect resp) := inferInstanceAs (Decidable (_ ∧ _))

/-- What `do_request` and the loops around it have: the result, `redirect`, `rs` and `resp`. -/
structure Outcome where
  r : ℤ
  redirect : Bool
  rs : Resume
  resp : Response

def doRequest (req : Request) (rs : Resume) (resp : Response) : Exchange → Option Outcome
  | .failed r _ => some ⟨r, false, rs, resp⟩
  | .answered a s line =>
    let resp := { resp with status := a.status, contentLength := a.contentLength, location := a.location }
    match takeHeaders req rs resp a s.bytes.length with
    | none => some ⟨netErrProto, false, rs, resp⟩
    | some (rs, resp) =>
      if isRedirect resp ∧ req.followRedirects then some ⟨0, true, rs, resp⟩
      else
        (readBody req resp a.chunked a.contentLength rs.start s line).map fun (r, resp) => ⟨r, false, rs, resp⟩

/-- The condition of the loop that goes on where the connection broke. -/
def goesOn (tries : ℕ) (o : Outcome) : Bool :=
  o.r ≠ 0 ∧ o.rs.resumable ∧ tries < 6 ∧ (o.resp.bodyBytes : ℤ) < o.rs.total % 2 ^ 32 ∧
    (o.r = netErrTimeout ∨ o.r = netErrReset ∨ o.r = netErrClosed ∨ o.r = netErrProto) ∧
    ¬ (o.rs.start ≠ 0 ∧ o.resp.bodyBytes = o.rs.start ∧ o.r = netErrProto)

/-- The loop itself, with what is left of the exchanges; `none` when there are too few of them. -/
def resumeLoop (req : Request) : List Exchange → ℕ → ℕ → Outcome → Option (Outcome × List Exchange)
  | [], tries, _, o => if goesOn tries o then none else some (o, [])
  | x :: xs, tries, last, o =>
    if goesOn tries o then
      let tries := if last < o.resp.bodyBytes then 1 else tries + 1
      (doRequest req { o.rs with start := o.resp.bodyBytes } o.resp x).bind
        (resumeLoop req xs tries o.resp.bodyBytes)
    else some (o, x :: xs)

def noResume : Resume := ⟨0, false, false, 0, 0⟩

/-- One turn of the loop over the redirects, from the first request on. -/
def fetchHop (req : Request) (resp : Response) : List Exchange → Option (Outcome × List Exchange)
  | [] => none
  | x :: xs => do
    let o ← doRequest req noResume resp x
    let (o, xs) ← resumeLoop req xs 0 o.resp.bodyBytes o
    if o.r = netErrTimeout ∧ o.rs.gotHeaders = false ∧ req.hasBody = false ∧ req.method = .get then
      match xs with
      | [] => none
      | x :: xs => (doRequest req o.rs o.resp x).map fun o => (o, xs)
    else some (o, xs)

/-- The loop over the redirects in so many turns: the result, `rs` and `resp`.  `allowed` is `allow_url` and
`url_parse` together, `resolve` is `resolve_location`. -/
def fetchLoop (allowed : List UInt8 → Bool) (resolve : List UInt8 → List UInt8 → List UInt8) :
    ℕ → Request → List UInt8 → Response → List Exchange → Option (ℤ × Resume × Response)
  | 0, _, _, resp, _ => some (netErrProto, noResume, resp)
  | k + 1, req, url, resp, xs =>
    if allowed url = false then some (netErrProto, noResume, resp)
    else
      (fetchHop req resp xs).bind fun (o, xs) =>
        if o.r ≠ 0 ∨ o.redirect = false then some (o.r, o.rs, o.resp)
        else
          let get := req.hasBody ∧ (o.resp.status = 303 ∨ o.resp.status = 301 ∨ o.resp.status = 302)
          fetchLoop allowed resolve k (if get then { req with method := .get, hasBody := false } else req)
            (resolve url o.resp.location) { o.resp with bodyBytes := 0 } xs

def httpFetch (allowed : List UInt8 → Bool) (resolve : List UInt8 → List UInt8 → List UInt8) (url : List UInt8)
    (req : Request) (xs : List Exchange) : Option (ℤ × Resume × Response) :=
  let max := if req.maxRedirects ≠ 0 then req.maxRedirects else 10
  fetchLoop allowed resolve (max + 1) req url ⟨0, 0, [], 0, [], [], []⟩ xs

variable {req : Request} {rs : Resume} {resp resp' : Response} {x : Exchange} {xs xs' : List Exchange} {o o' : Outcome}
  {s : Stream} {n tries last : ℕ} {want : ℤ}

/-! ## One request -/

/-- `n` bytes were delivered, from the first place of the body on. -/
structure Delivered (resp : Response) (n : ℕ) : Prop where
  places : resp.places = List.range n
  length : resp.body.length = n
  count : resp.bodyBytes = n

/-- How many bytes a body has, of the length `want` or to the end of the stream. -/
def bodyCount (want : ℤ) (n : ℕ) : ℕ := if 0 ≤ want then want.toNat else n

theorem wanted_le (want : ℤ) (n : ℕ) : wanted (if 0 ≤ want then want else -1) n ≤ bodyCount want n := by
  rw [wanted, bodyCount]
  split_ifs <;> omega

theorem wanted_eq {last : ℤ} (h : bodyEnd (if 0 ≤ want then want else -1) last n = 0) :
    wanted (if 0 ≤ want then want else -1) n = bodyCount want n := by
  rw [bodyEnd] at h
  rw [wanted, bodyCount]
  split_ifs at h ⊢ with h1 h2 h3 h4 h5 <;> first | omega | exact absurd h (by decide)

theorem Delivered.deliver {body : List UInt8} {k : ℕ} (h : Delivered resp n) (hk : body.length = n + k)
    (hlt : n + k < 2 ^ 32) : Delivered (resp.deliver n body) (n + k) := by
  have hsub : body.length - resp.body.length = k := by
    rw [h.length]
    omega
  refine ⟨?_, hk, ?_⟩
  · rw [Response.deliver]
    dsimp only
    have happ := List.range'_append_1 (s := 0) (m := n) (n := k)
    rw [Nat.zero_add] at happ
    rw [hsub, h.places, List.range_eq_range', List.range_eq_range', happ]
  · rw [Response.deliver]
    dsimp only
    rw [hsub, h.count, u32, Nat.mod_eq_of_lt hlt]

/-- A body that is not chunked. -/
theorem readBody_spec (want : ℤ) (s : Stream) (line : List UInt8) (h : Delivered resp n) (hreq : req.method ≠ .head)
    (hstatus : resp.status ≠ 204 ∧ resp.status ≠ 304) (hlt : n + bodyCount want s.bytes.length < 2 ^ 32) :
    ∃ r resp' k, readBody req resp false want n s line = some (r, resp') ∧ Delivered resp' (n + k) ∧
      resp'.resumed = resp.resumed ∧ k ≤ bodyCount want s.bytes.length ∧
      (r = 0 → k = bodyCount want s.bytes.length) := by
  obtain ⟨r, k, ps, hk, hread, hr⟩ :=
    readBodyBytes_spec req.stops s (if 0 ≤ want then want else -1) resp.body
  have hle := hk.trans (wanted_le want _)
  have hlen : (resp.body ++ s.bytes.take k).length = n + k := by
    have hk' : k ≤ s.bytes.length := by
      refine hk.trans ?_
      rw [wanted]
      split_ifs <;> omega
    rw [List.length_append, h.length, List.length_take, Nat.min_eq_left hk']
  refine ⟨r, resp.deliver n (resp.body ++ s.bytes.take k), k, ?_, h.deliver hlen (by omega), rfl, hle, fun h0 => ?_⟩
  · rw [readBody, if_neg (by tauto), if_neg Bool.false_ne_true, hread]
  · obtain ⟨hintr, -⟩ | ⟨hall, -, hend⟩ := hr
    · exact absurd (hintr.symm.trans h0) (by decide)
    · rw [hall]
      exact wanted_eq (hend.symm.trans h0)

/-- Every 3xx answer is a redirect that is followed, and what comes without a length is less than 2 GiB. -/
def Plain (follow : Bool) : Exchange → Prop
  | .failed _ _ => True
  | .answered a s _ =>
    (300 ≤ a.status → a.status < 400 →
      a.status ∈ [301, 302, 303, 307, 308] ∧ a.location ≠ [] ∧ follow = true) ∧
    (a.contentLength < 0 → s.bytes.length < 2 ^ 31)

/-- How many bytes the answer has. -/
def Resumed.count (q : Resumed) : ℕ := bodyCount q.contentLength q.bytes

/-- What a resumable transfer is known to be. -/
def Known (req : Request) (rs : Resume) : Prop :=
  rs.resumable = true → req.method = .get ∧ rs.status = 200 ∧ 0 < rs.total ∧ rs.total < 2 ^ 31

/-- Before a request. -/
structure Before (req : Request) (rs : Resume) (resp : Response) : Prop where
  delivered : Delivered resp rs.start
  got : rs.gotHeaders = false → rs.start = 0
  known : Known req rs
  part : rs.start ≠ 0 → rs.resumable = true ∧ (rs.start : ℤ) < rs.total

/-- After a request. -/
structure After (req : Request) (o : Outcome) : Prop where
  fresh : o.rs.gotHeaders = false → o.rs.start = 0 ∧ Delivered o.resp 0
  known : Known req o.rs
  delivered : o.rs.resumable = true → Delivered o.resp o.resp.bodyBytes
  redirect : o.redirect = true → Delivered o.resp 0
  done : o.r = 0 → o.rs.start ≠ 0 → ∃ q, o.resp.resumed.getLast? = some q ∧ q.start = o.rs.start ∧
    q.total = o.rs.total ∧ Delivered o.resp (q.start + q.count)

theorem Delivered.same (h : Delivered resp n) : Delivered resp resp.bodyBytes := h.count.symm ▸ h

/-- The answer to a fresh request. -/
theorem doRequest_fresh {a : Answer} {line : List UInt8} (hb : Before req rs resp) (hstart : rs.start = 0)
    (hx : Plain req.followRedirects (.answered a s line)) (h : doRequest req rs resp (.answered a s line) = some o) :
    After req o := by
  have hd : Delivered { resp with status := a.status, contentLength := a.contentLength, location := a.location } 0 := by
    obtain ⟨h1, h2, h3⟩ := hstart ▸ hb.delivered
    exact ⟨h1, h2, h3⟩
  rw [doRequest] at h
  dsimp only at h
  by_cases h3 : 300 ≤ a.status ∧ a.status < 400
  · obtain ⟨hmem, hloc, hfollow⟩ := hx.1 h3.1 h3.2
    rw [takeHeaders, if_neg (not_not.mpr hstart), if_pos h3] at h
    dsimp only at h
    rw [if_pos ⟨⟨hmem, hloc⟩, hfollow⟩] at h
    obtain rfl := Option.some.inj h
    exact ⟨fun _ => ⟨hstart, hd⟩, hb.known, fun _ => hd.same, fun _ => hd, fun _ hne => absurd hstart hne⟩
  · rw [takeHeaders, if_neg (not_not.mpr hstart), if_neg h3] at h
    dsimp only at h
    rw [if_neg, Option.map_eq_some_iff] at h
    · obtain ⟨⟨r, resp'⟩, hread, rfl⟩ := h
      refine ⟨nofun, fun hres => ?_, fun hres => ?_, nofun, fun _ hne => absurd hstart hne⟩
      · obtain ⟨hstatus, hpos, -, hget, -⟩ := of_decide_eq_true hres
        exact ⟨hget, hstatus, hpos, a.short⟩
      · obtain ⟨hstatus, hpos, hchunked, hget, -⟩ := of_decide_eq_true hres
        have hshort := a.short
        rw [hstart, hchunked] at hread
        have hcount : 0 + bodyCount a.contentLength s.bytes.length < 2 ^ 32 := by
          rw [bodyCount]
          split_ifs <;> omega
        have hget' : req.method ≠ .head := by
          rw [hget]
          decide
        obtain ⟨r', resp'', k, hread', hdel, -⟩ := readBody_spec a.contentLength s line hd hget'
          ⟨hstatus.trans_ne (by decide), hstatus.trans_ne (by decide)⟩ hcount
        obtain ⟨rfl, rfl⟩ := Prod.mk.inj (Option.some.inj (hread.symm.trans hread'))
        exact hdel.same
    · rintro ⟨⟨hmem, -⟩, -⟩
      simp only [List.mem_cons, List.not_mem_nil, or_false] at hmem
      omega

/-- The answer to a request for the rest. -/
theorem doRequest_resumed {a : Answer} {line : List UInt8} (hb : Before req rs resp) (hstart : rs.start ≠ 0)
    (hx : Plain req.followRedirects (.answered a s line)) (h : doRequest req rs resp (.answered a s line) = some o) :
    After req o := by
  obtain ⟨hres, hlt⟩ := hb.part hstart
  obtain ⟨hget, hstatus, hpos, htotal⟩ := hb.known hres
  have hgot : rs.gotHeaders ≠ false := fun h0 => hstart (hb.got h0)
  rw [doRequest] at h
  dsimp only at h
  by_cases hbad : a.status ≠ 206 ∨ a.rangeStart ≠ some rs.start ∨ a.chunked
  · rw [takeHeaders, if_pos hstart, if_pos hbad] at h
    obtain rfl := Option.some.inj h
    obtain ⟨h1, h2, h3⟩ := hb.delivered
    refine ⟨fun h0 => absurd h0 hgot, hb.known, fun _ => ⟨?_, ?_, rfl⟩, nofun,
      fun h0 => absurd h0 (show netErrProto ≠ 0 by decide)⟩
    · rw [h3]
      exact h1
    · rw [h3]
      exact h2
  · have hchunked : a.chunked = false := by
      rw [not_or, not_or] at hbad
      exact Bool.eq_false_iff.mpr hbad.2.2
    rw [takeHeaders, if_pos hstart, if_neg hbad] at h
    dsimp only at h
    rw [if_neg, hchunked, Option.map_eq_some_iff] at h
    · obtain ⟨⟨r, resp'⟩, hread, rfl⟩ := h
      have hcount : bodyCount a.contentLength s.bytes.length < 2 ^ 31 := by
        have := a.short
        have := hx.2
        rw [bodyCount]
        split_ifs <;> omega
      have hd : Delivered { resp with
          status := rs.status
          contentLength := rs.total
          location := a.location
          resumed := resp.resumed ++ [⟨rs.start, rs.total, a.contentLength, s.bytes.length⟩] } rs.start :=
        ⟨hb.delivered.places, hb.delivered.length, hb.delivered.count⟩
      have hget' : req.method ≠ .head := by
        rw [hget]
        decide
      obtain ⟨r', resp'', k, hread', hdel, hresumed, hk, hend⟩ := readBody_spec a.contentLength s line hd hget'
        ⟨hstatus.trans_ne (by decide), hstatus.trans_ne (by decide)⟩ (by omega)
      obtain ⟨rfl, rfl⟩ := Prod.mk.inj (Option.some.inj (hread.symm.trans hread'))
      refine ⟨fun h0 => absurd h0 hgot, hb.known, fun _ => hdel.same, nofun, fun h0 _ => ?_⟩
      refine ⟨⟨rs.start, rs.total, a.contentLength, s.bytes.length⟩, ?_, rfl, rfl, ?_⟩
      · dsimp only
        rw [hresumed]
        exact List.getLast?_concat
      · rw [hend h0] at hdel
        exact hdel
    · rintro ⟨⟨hmem, -⟩, -⟩
      dsimp only at hmem
      rw [hstatus] at hmem
      exact absurd hmem (by decide)

theorem doRequest_after (hb : Before req rs resp) (hx : Plain req.followRedirects x) (h : doRequest req rs resp x = some o) :
    After req o := by
  cases x with
  | failed r hr =>
    obtain rfl := Option.some.inj h
    refine ⟨fun hgot => ⟨hb.got hgot, ?_⟩, hb.known, fun _ => hb.delivered.same, nofun, fun h0 => absurd h0 hr.ne⟩
    exact hb.got hgot ▸ hb.delivered
  | answered a s line =>
    by_cases hstart : rs.start = 0
    · exact doRequest_fresh hb hstart hx h
    · exact doRequest_resumed hb hstart hx h

/-! ## A whole run -/

theorem After.before (h : After req o) (hgo : goesOn tries o = true) :
    Before req { o.rs with start := o.resp.bodyBytes } o.resp := by
  obtain ⟨-, hres, -, hlt, -⟩ := of_decide_eq_true hgo
  obtain ⟨-, -, hpos, htotal⟩ := h.known hres
  refine ⟨h.delivered hres, fun hgot => (h.fresh hgot).2.count, h.known, fun _ => ⟨hres, ?_⟩⟩
  rw [Int.emod_eq_of_lt hpos.le (by omega)] at hlt
  exact hlt

theorem resumeLoop_after (h : After req o) (hx : ∀ x ∈ xs, Plain req.followRedirects x)
    (hloop : resumeLoop req xs tries last o = some (o', xs')) : After req o' ∧ xs' ⊆ xs := by
  induction xs generalizing tries last o with
  | nil =>
    rw [resumeLoop] at hloop
    split_ifs at hloop
    obtain ⟨rfl, rfl⟩ := Prod.mk.inj (Option.some.inj hloop)
    exact ⟨h, List.Subset.refl _⟩
  | cons x xs ih =>
    rw [resumeLoop] at hloop
    by_cases hgo : goesOn tries o = true
    · rw [if_pos hgo] at hloop
      obtain ⟨o'', hreq, hrest⟩ := Option.bind_eq_some_iff.mp hloop
      have hafter := doRequest_after (h.before hgo) (hx x List.mem_cons_self) hreq
      obtain ⟨h', hsub⟩ := ih hafter (fun x hmem => hx x (List.mem_cons_of_mem _ hmem)) hrest
      exact ⟨h', List.subset_cons_of_subset x hsub⟩
    · rw [if_neg hgo] at hloop
      obtain ⟨rfl, rfl⟩ := Prod.mk.inj (Option.some.inj hloop)
      exact ⟨h, List.Subset.refl _⟩

theorem before_noResume (hd : Delivered resp 0) : Before req noResume resp :=
  ⟨hd, fun _ => rfl, nofun, fun h => absurd rfl h⟩

theorem fetchHop_after (hd : Delivered resp 0) (hx : ∀ x ∈ xs, Plain req.followRedirects x)
    (hhop : fetchHop req resp xs = some (o, xs')) : After req o ∧ xs' ⊆ xs := by
  cases xs with
  | nil => exact absurd hhop nofun
  | cons x xs =>
    rw [fetchHop] at hhop
    obtain ⟨o₁, hreq, hhop⟩ := Option.bind_eq_some_iff.mp hhop
    obtain ⟨⟨o₂, xs₂⟩, hloop, hhop⟩ := Option.bind_eq_some_iff.mp hhop
    have hx' : ∀ x ∈ xs, Plain req.followRedirects x := fun x hmem => hx x (List.mem_cons_of_mem _ hmem)
    have h₁ := doRequest_after (before_noResume hd) (hx x List.mem_cons_self) hreq
    obtain ⟨h₂, hsub⟩ := resumeLoop_after h₁ hx' hloop
    dsimp only at hhop
    split_ifs at hhop with hagain
    · cases xs₂ with
      | nil => exact absurd hhop nofun
      | cons x₂ xs₂ =>
        dsimp only at hhop
        obtain ⟨o₃, hreq', heq⟩ := Option.map_eq_some_iff.mp hhop
        obtain ⟨rfl, rfl⟩ := Prod.mk.inj heq
        obtain ⟨hstart, hd₂⟩ := h₂.fresh hagain.2.1
        have hb : Before req o₂.rs o₂.resp :=
          ⟨hstart.symm ▸ hd₂, fun _ => hstart, h₂.known, fun hne => absurd hstart hne⟩
        refine ⟨doRequest_after hb (hx' x₂ (hsub List.mem_cons_self)) hreq', ?_⟩
        exact List.subset_cons_of_subset x (List.Subset.trans (List.subset_cons_self x₂ _) hsub)
    · obtain ⟨rfl, rfl⟩ := Prod.mk.inj (Option.some.inj hhop)
      exact ⟨h₂, List.subset_cons_of_subset x hsub⟩

variable {allowed : List UInt8 → Bool} {resolve : List UInt8 → List UInt8 → List UInt8} {url : List UInt8}

theorem fetchLoop_done {k : ℕ} (hd : Delivered resp 0) (hx : ∀ x ∈ xs, Plain req.followRedirects x)
    (hrun : fetchLoop allowed resolve k req url resp xs = some (0, rs, resp')) (hstart : rs.start ≠ 0) :
    ∃ q, resp'.resumed.getLast? = some q ∧ q.start = rs.start ∧ q.total = rs.total ∧
      Delivered resp' (q.start + q.count) := by
  induction k generalizing req url resp xs with
  | zero =>
    have hr := (Prod.mk.inj (Option.some.inj hrun)).1
    exact absurd hr (by decide)
  | succ k ih =>
    rw [fetchLoop] at hrun
    split_ifs at hrun
    · have hr := (Prod.mk.inj (Option.some.inj hrun)).1
      exact absurd hr (by decide)
    · obtain ⟨⟨o, xs'⟩, hhop, hrun⟩ := Option.bind_eq_some_iff.mp hrun
      obtain ⟨hafter, hsub⟩ := fetchHop_after hd hx hhop
      dsimp only at hrun
      by_cases hend : o.r ≠ 0 ∨ o.redirect = false
      · rw [if_pos hend] at hrun
        obtain ⟨hr, rfl, rfl⟩ : o.r = 0 ∧ o.rs = rs ∧ o.resp = resp' := by
          obtain ⟨h1, h2⟩ := Prod.mk.inj (Option.some.inj hrun)
          obtain ⟨h2, h3⟩ := Prod.mk.inj h2
          exact ⟨h1, h2, h3⟩
        exact hafter.done hr hstart
      · rw [if_neg hend] at hrun
        rw [not_or] at hend
        have hd' := hafter.redirect (Bool.not_eq_false _ ▸ hend.2)
        have hd₀ : Delivered { o.resp with bodyBytes := 0 } 0 := ⟨hd'.places, hd'.length, rfl⟩
        refine ih hd₀ (fun x hmem => ?_) hrun
        have hplain := hx x (hsub hmem)
        split_ifs
        · exact hplain
        · exact hplain

/-- A download that was gone on with is whole if and only if the last of the answers has the bytes that were
missing. -/
theorem fetch_whole_iff (hx : ∀ x ∈ xs, Plain req.followRedirects x)
    (hrun : httpFetch allowed resolve url req xs = some (0, rs, resp)) (hstart : rs.start ≠ 0) :
    ∃ q, resp.resumed.getLast? = some q ∧ q.start = rs.start ∧ q.total = rs.total ∧
      ((resp.body.length = rs.total ∧ resp.places = List.range rs.total.toNat) ↔ (q.count : ℤ) = q.total - q.start) := by
  obtain ⟨q, hq, hqs, hqt, hd⟩ := fetchLoop_done ⟨rfl, rfl, rfl⟩ hx hrun hstart
  refine ⟨q, hq, hqs, hqt, fun h => ?_, fun h => ?_⟩
  · have hlen := hd.length
    omega
  · have htotal : rs.total.toNat = q.start + q.count := by omega
    rw [hd.length, hd.places, htotal]
    exact ⟨by omega, rfl⟩

def getRequest : Request := ⟨.get, false, true, 0, fun _ => false⟩

theorem four_short : (4 : ℤ) < 2 ^ 31 := by decide

theorem ended_nonpos : (0 : ℤ) ≤ 0 := le_rfl

/-- A connection that breaks after two bytes of four, and an answer with the rest, of the length `n`. -/
def brokenAfterTwo (n : ℤ) (hn : n < 2 ^ 31) (rest : List UInt8) : List Exchange :=
  [.answered ⟨200, 4, false, none, [], four_short⟩ ⟨[[1, 2]], 0, ended_nonpos⟩ [],
    .answered ⟨206, n, false, some 2, [], hn⟩ ⟨[rest], 0, ended_nonpos⟩ []]

theorem fetch_whole_iff_four : ∃ rs resp, httpFetch (fun _ => true) (fun _ l => l) [] getRequest
      (brokenAfterTwo 2 (by decide) [3, 4]) = some (0, rs, resp) ∧
    resp.body.length = rs.total ∧ resp.places = List.range rs.total.toNat := by
  refine ⟨⟨2, true, true, 200, 4⟩, _, rfl, ?_⟩
  have hplain : ∀ x ∈ brokenAfterTwo 2 (by decide) [3, 4], Plain true x := fun x hx => by
    obtain rfl | rfl := List.mem_pair.mp hx
    · exact ⟨by decide, by decide⟩
    · exact ⟨by decide, by decide⟩
  obtain ⟨q, hq, -, -, hiff⟩ := @fetch_whole_iff getRequest ⟨2, true, true, 200, 4⟩ _ _ (fun _ => true)
    (fun _ l => l) [] hplain rfl (by decide)
  obtain rfl := Option.some.inj hq
  exact hiff.mpr (by decide)

/-- The rest may be too short. -/
theorem fetch_short : ¬ ∀ (xs : List Exchange) (rs : Resume) (resp : Response),
    httpFetch (fun _ => true) (fun _ l => l) [] getRequest xs = some (0, rs, resp) → rs.start ≠ 0 →
      resp.body.length = rs.total ∧ resp.places = List.range rs.total.toNat := by
  intro hall
  have hlen := (hall (brokenAfterTwo 1 (by decide) [3]) ⟨2, true, true, 200, 4⟩ _ rfl (by decide)).1
  exact absurd hlen (by decide)

end BananaOS.Http
