import BananaOS.Lib.Buffers

/-!
# The page compressor

`zswap_pack` and `zswap_unpack` of `kernel/zswap.c`: LZ77 in the LZ4 manner, for one 4 KiB page.
A compressed page is a row of sequences; a sequence is a token (literals in its high four bits,
match length less four in its low four; 15 means more in the bytes that follow, 255 each), the
literals, a two-byte offset back, more match length.  The last sequence may have literals only.

Every access goes through `Lib.Buffers`, so an access outside `page`, `in`, `out` or the hash
table `ht` is the outcome `fault`; `return -1` is `fail`.  Sums that the code forms in
`uint32_t` and compares with a caller's bound are taken modulo `2 ^ 32`.  The differences
`len - i` and `4096 - o` of the decoder do not wrap: `i ≤ len` and `o ≤ 4096` where they are
formed (`unpackSeq_safe`).
-/

namespace BananaOS.Zswap

open Lib Res

/-- What a 32-bit register keeps of a number. -/
def u32 (n : ℕ) : ℕ := n % 2 ^ 32

/-! ## Packing -/

/-- `out[(*o)++] = b`, after `if (*o >= cap) return -1` -/
def put (cap : ℕ) (out : List UInt8) (o : ℕ) (b : ℕ) : Res (List UInt8 × ℕ) :=
  if o ≥ cap then fail
  else do
    let out ← writeAt out o (UInt8.ofNat b)
    pure (out, o + 1)

/-- `put_len` -/
def putLen (cap : ℕ) (out : List UInt8) (o n : ℕ) : Res (List UInt8 × ℕ) :=
  if _h : n ≥ 255 then do
    let w ← put cap out o 255
    putLen cap w.1 w.2 (n - 255)
  else put cap out o n
termination_by n
decreasing_by omega

/-- `if (n >= 15 && put_len(out, o, cap, n - 15) < 0) return -1` -/
def putMore (cap : ℕ) (out : List UInt8) (o n : ℕ) : Res (List UInt8 × ℕ) :=
  if n ≥ 15 then putLen cap out o (n - 15) else ok (out, o)

/-- `put_seq`: the literals are `page[lit, lit + nlit)`. -/
def putSeq (cap : ℕ) (out : List UInt8) (o : ℕ) (page : List UInt8) (lit nlit off mlen : ℕ) :
    Res (List UInt8 × ℕ) := do
  let ml := if mlen ≠ 0 then mlen - 4 else 0
  let w ← put cap out o ((if nlit < 15 then nlit else 15) * 16 + (if ml < 15 then ml else 15))
  let w ← putMore cap w.1 w.2 nlit
  if u32 (w.2 + nlit) > cap then fail
  else do
    let out ← copyTo w.1 w.2 page lit nlit
    let o := w.2 + nlit
    if mlen = 0 then pure (out, o)
    else if u32 (o + 2) > cap then fail
    else do
      let out ← writeAt out o (UInt8.ofNat off)
      let out ← writeAt out (o + 1) (UInt8.ofNat (off / 256))
      putMore cap out (o + 2) ml

/-- `rd32` -/
def rd32 (page : List UInt8) (i : ℕ) : Res ℕ := do
  let b₀ ← readAt page i
  let b₁ ← readAt page (i + 1)
  let b₂ ← readAt page (i + 2)
  let b₃ ← readAt page (i + 3)
  pure (b₀.toNat + b₁.toNat * 2 ^ 8 + b₂.toNat * 2 ^ 16 + b₃.toNat * 2 ^ 24)

/-- `while (ip + m < 4096 && page[ref + m] == page[ip + m]) m++` -/
def matchLen (page : List UInt8) (ref ip m : ℕ) : Res ℕ :=
  if _h : ip + m < 4096 then do
    let a ← readAt page (ref + m)
    let b ← readAt page (ip + m)
    if a = b then matchLen page ref ip (m + 1) else pure m
  else pure m
termination_by 4096 - (ip + m)

/-- Where the packer is: the next byte to look at, the first literal not yet written, the hash
table and the output. -/
structure PackSt where
  ip : ℕ
  anchor : ℕ
  ht : List ℕ
  out : List UInt8
  o : ℕ

/-- `(v * 2654435761u) >> 20` -/
def hash (v : ℕ) : ℕ := u32 (v * 2654435761) / 2 ^ 20

/-- `ref && rd32(page + ref - 1) == v` -/
def sameAt (page : List UInt8) (ref v : ℕ) : Res Bool :=
  if ref ≠ 0 then do
    let w ← rd32 page (ref - 1)
    pure (decide (w = v))
  else pure false

/-- One turn of the loop of `zswap_pack`. -/
def packStep (cap : ℕ) (page : List UInt8) (s : PackSt) : Res PackSt := do
  let v ← rd32 page s.ip
  let ref ← readAt s.ht (hash v)
  let ht ← writeAt s.ht (hash v) ((s.ip + 1) % 2 ^ 16)
  let same ← sameAt page ref v
  if same then do
    let m ← matchLen page (ref - 1) s.ip 4
    let w ← putSeq cap s.out s.o page s.anchor (s.ip - s.anchor) (s.ip - (ref - 1)) m
    pure ⟨s.ip + m, s.ip + m, ht, w.1, w.2⟩
  else pure ⟨s.ip + 1, s.anchor, ht, s.out, s.o⟩

theorem le_of_matchLen {page : List UInt8} {ref ip m n : ℕ}
    (h : matchLen page ref ip m = ok n) : m ≤ n := by
  fun_induction matchLen page ref ip m with
  | case1 m hlt ih =>
    obtain ⟨a, -, h⟩ := bind_eq_ok.mp h
    obtain ⟨b, -, h⟩ := bind_eq_ok.mp h
    split_ifs at h
    · exact (Nat.le_succ m).trans (ih h)
    · cases h
      exact le_rfl
  | case2 m hlt =>
    cases h
    exact le_rfl

theorem ip_lt_of_packStep {cap : ℕ} {page : List UInt8} {s t : PackSt}
    (h : packStep cap page s = ok t) : s.ip < t.ip := by
  unfold packStep at h
  obtain ⟨v, -, h⟩ := bind_eq_ok.mp h
  obtain ⟨ref, -, h⟩ := bind_eq_ok.mp h
  obtain ⟨ht, -, h⟩ := bind_eq_ok.mp h
  obtain ⟨same, -, h⟩ := bind_eq_ok.mp h
  split_ifs at h
  · obtain ⟨m, hm, h⟩ := bind_eq_ok.mp h
    obtain ⟨w, -, h⟩ := bind_eq_ok.mp h
    cases h
    have := le_of_matchLen hm
    simp only
    omega
  · cases h
    exact Nat.lt_succ_self _

/-- The loop of `zswap_pack`. -/
def packLoop (cap : ℕ) (page : List UInt8) (s : PackSt) : Res PackSt :=
  if _h : s.ip + 4 ≤ 4096 then
    match _ht : packStep cap page s with
    | ok t => packLoop cap page t
    | fail => fail
    | fault => fault
  else pure s
termination_by 4096 - s.ip
decreasing_by
  have := ip_lt_of_packStep _ht
  omega

/-- What `zswap_pack` returns: `*zero` set, or `0` (it did not fit), or the size, with `out` as
it is then. -/
inductive Packed where
  | zero
  | unfit
  | packed (n : ℕ) (out : List UInt8)
  deriving DecidableEq, Repr

/-- The rest of `zswap_pack` once the page is known not to be all zeros. -/
def packBody (cap : ℕ) (page out : List UInt8) : Res (List UInt8 × ℕ) := do
  let s ← packLoop cap page ⟨0, 0, List.replicate 4096 0, out, 0⟩
  if s.anchor < 4096 then putSeq cap s.out s.o page s.anchor (4096 - s.anchor) 0 0
  else pure (s.out, s.o)

/-- `zswap_pack` -/
def zswapPack (page out : List UInt8) (cap : ℕ) : Res Packed :=
  if page.all (· = 0) then pure .zero
  else
    match packBody cap page out with
    | ok (out, o) => ok (.packed o out)
    | fail => ok .unfit
    | fault => fault

/-! ## Unpacking -/

/-- `get_len`: the next index and the length so far. -/
def getLen (inp : List UInt8) (len i n : ℕ) : Res (ℕ × ℕ) :=
  if _h : i ≥ len then fail
  else do
    let b ← readAt inp i
    if b ≠ 255 then pure (i + 1, n + b.toNat)
    else if n + b.toNat > 8192 then fail
    else getLen inp len (i + 1) (n + b.toNat)
termination_by len - i

/-- `if (n == 15 && get_len(in, len, &i, &n) < 0) return -1` -/
def moreLen (inp : List UInt8) (len i n : ℕ) : Res (ℕ × ℕ) :=
  if n = 15 then getLen inp len i n else ok (i, n)

/-- The second half of a turn of the loop of `zswap_unpack`, after the literals: the offset and
the match, or `break` at the end of the input. -/
def unpackMatch (inp : List UInt8) (len i o : ℕ) (t : UInt8) (page : List UInt8) :
    Res (Bool × ℕ × ℕ × List UInt8) :=
  if i = len then pure (true, i, o, page)
  else if len - i < 2 then fail
  else do
    let b₀ ← readAt inp i
    let b₁ ← readAt inp (i + 1)
    let off := b₀.toNat + b₁.toNat * 2 ^ 8
    let l ← moreLen inp len (i + 2) (t.toNat % 16)
    let m := l.2 + 4
    if off = 0 ∨ off > o ∨ m > 4096 - o then fail
    else do
      let page ← copyBack m page o off
      pure (false, l.1, o + m, page)

/-- One turn of the loop of `zswap_unpack`: whether it was the last one (`break`), the indexes
and the page after it. -/
def unpackSeq (inp : List UInt8) (len i o : ℕ) (page : List UInt8) :
    Res (Bool × ℕ × ℕ × List UInt8) := do
  let t ← readAt inp i
  let l ← moreLen inp len (i + 1) (t.toNat / 16)
  if l.2 > len - l.1 ∨ l.2 > 4096 - o then fail
  else do
    let page ← copyTo page o inp l.1 l.2
    unpackMatch inp len (l.1 + l.2) (o + l.2) t page

theorem lt_of_getLen {inp : List UInt8} {len i n : ℕ} {p : ℕ × ℕ}
    (h : getLen inp len i n = ok p) : i < p.1 ∧ p.1 ≤ len := by
  fun_induction getLen inp len i n with
  | case1 => cases h
  | case2 i n hlt ih =>
    obtain ⟨b, -, h⟩ := bind_eq_ok.mp h
    split_ifs at h with h1 h2
    · cases h
      simp only
      omega
    · have := ih b h
      omega

theorem le_of_moreLen {inp : List UInt8} {len i n : ℕ} {p : ℕ × ℕ} (hi : i ≤ len)
    (h : moreLen inp len i n = ok p) : i ≤ p.1 ∧ p.1 ≤ len := by
  unfold moreLen at h
  split_ifs at h
  · have := lt_of_getLen h
    omega
  · cases h
    exact ⟨le_rfl, hi⟩

theorem le_of_unpackMatch {inp page page' : List UInt8} {len i o j o' : ℕ} {t : UInt8}
    {last : Bool} (hi : i ≤ len)
    (h : unpackMatch inp len i o t page = ok (last, j, o', page')) : i ≤ j := by
  unfold unpackMatch at h
  split_ifs at h with h1 h2
  · cases h
    exact le_rfl
  · obtain ⟨b₀, -, h⟩ := bind_eq_ok.mp h
    obtain ⟨b₁, -, h⟩ := bind_eq_ok.mp h
    obtain ⟨l, h3, h⟩ := bind_eq_ok.mp h
    have hl := le_of_moreLen (by omega) h3
    dsimp only at h
    split_ifs at h
    obtain ⟨page₂, -, h⟩ := bind_eq_ok.mp h
    cases h
    omega

theorem lt_of_unpackSeq {inp page page' : List UInt8} {len i o j o' : ℕ} {last : Bool}
    (hi : i < len) (h : unpackSeq inp len i o page = ok (last, j, o', page')) : i < j := by
  unfold unpackSeq at h
  obtain ⟨t, -, h⟩ := bind_eq_ok.mp h
  obtain ⟨l, h1, h⟩ := bind_eq_ok.mp h
  have hl := le_of_moreLen (Nat.succ_le_of_lt hi) h1
  split_ifs at h with h2
  obtain ⟨page₁, -, h⟩ := bind_eq_ok.mp h
  have := le_of_unpackMatch (by omega) h
  omega

/-- The loop of `zswap_unpack`: the bytes of the page written, and the page. -/
def unpackLoop (inp : List UInt8) (len i o : ℕ) (page : List UInt8) : Res (ℕ × List UInt8) :=
  if _h : i < len then
    match _hs : unpackSeq inp len i o page with
    | ok (true, _, o, page) => pure (o, page)
    | ok (false, i, o, page) => unpackLoop inp len i o page
    | fail => fail
    | fault => fault
  else pure (o, page)
termination_by len - i
decreasing_by
  have := lt_of_unpackSeq _h _hs
  omega

/-- `zswap_unpack`: the page, if the data is not damaged. -/
def zswapUnpack (inp page : List UInt8) : Res (List UInt8) := do
  let r ← unpackLoop inp inp.length 0 0 page
  if r.1 = 4096 then pure r.2 else fail

end BananaOS.Zswap
