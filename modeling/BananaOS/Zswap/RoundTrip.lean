import BananaOS.Zswap.Codec

/-!
# Packing and unpacking a page

`zswap_unpack` undoes `zswap_pack`, and stays inside its buffers on any input.

* The decoder alone: no input makes it leave the input or the page (`zswapUnpack_ne_fault`).
* `encSeq` is the byte string of one sequence.  `put_seq` writes exactly that, or gives up
  (`putSeq_spec`); reading it back copies the literals and the match (`unpackSeq_match`,
  `unpackSeq_last`).
* The invariant of the packer's loop, `PackInv`, says that what has been written so far, in front
  of anything, decodes to the bytes of the page up to `anchor`.
-/

namespace BananaOS.Zswap

open Lib Res

/-! ## The decoder stays inside its buffers -/

theorem getLen_ne_fault (inp : List UInt8) (i n : ℕ) : getLen inp inp.length i n ≠ fault := by
  fun_induction getLen inp inp.length i n with
  | case1 => simp
  | case2 i n hlt ih =>
    rw [readAt_of_lt (by omega), ok_bind]
    split_ifs
    · simp
    · simp
    · exact ih _

theorem moreLen_ne_fault (inp : List UInt8) (i n : ℕ) : moreLen inp inp.length i n ≠ fault := by
  unfold moreLen
  split_ifs
  · exact getLen_ne_fault inp i n
  · simp

theorem unpackMatch_safe {inp page : List UInt8} {i o : ℕ} {t : UInt8} (hi : i ≤ inp.length)
    (ho : o ≤ 4096) (hp : page.length = 4096) :
    unpackMatch inp inp.length i o t page ≠ fault ∧
      ∀ r, unpackMatch inp inp.length i o t page = ok r →
        r.2.2.1 ≤ 4096 ∧ r.2.2.2.length = 4096 := by
  unfold unpackMatch
  split_ifs with h3 h4
  · refine ⟨by simp, fun r hr => ?_⟩
    cases hr
    exact ⟨ho, hp⟩
  · simp
  · rw [readAt_of_lt (by omega), ok_bind, readAt_of_lt (by omega), ok_bind]
    rcases h5 : moreLen inp inp.length (i + 2) (t.toNat % 16) with l | _ | _
    · rw [ok_bind]
      dsimp only
      split_ifs with h6
      · simp
      · obtain ⟨page₂, h7, h8⟩ := copyBack_ne_fault (m := l.2 + 4) (b := page) (o := o)
          (inp[i].toNat + inp[i + 1].toNat * 2 ^ 8) (by omega) (by omega)
        rw [h7, ok_bind]
        refine ⟨by simp, fun r hr => ?_⟩
        cases hr
        exact ⟨by dsimp only; omega, h8.trans hp⟩
    · simp
    · exact absurd h5 (moreLen_ne_fault _ _ _)

/-- One turn of the decoder, from indexes inside its buffers, leaves them inside. -/
theorem unpackSeq_safe {inp page : List UInt8} {i o : ℕ} (hi : i < inp.length) (ho : o ≤ 4096)
    (hp : page.length = 4096) :
    unpackSeq inp inp.length i o page ≠ fault ∧
      ∀ r, unpackSeq inp inp.length i o page = ok r → r.2.2.1 ≤ 4096 ∧ r.2.2.2.length = 4096 := by
  unfold unpackSeq
  rw [readAt_of_lt hi, ok_bind]
  rcases h1 : moreLen inp inp.length (i + 1) (inp[i].toNat / 16) with l | _ | _
  · have hl := le_of_moreLen (Nat.succ_le_of_lt hi) h1
    rw [ok_bind]
    split_ifs with h2
    · simp
    · have hc : copyTo page o inp l.1 l.2 = _ := copyTo_of_le (by omega) (by omega)
      rw [hc, ok_bind]
      exact unpackMatch_safe (by omega) (by omega) ((length_copyTo hc).trans hp)
  · simp
  · exact absurd h1 (moreLen_ne_fault _ _ _)

theorem unpackLoop_ne_fault {inp page : List UInt8} {i o : ℕ} (ho : o ≤ 4096)
    (hp : page.length = 4096) : unpackLoop inp inp.length i o page ≠ fault := by
  fun_induction unpackLoop inp inp.length i o page with
  | case1 => simp
  | case2 i o page hlt i' o' page' hs ih =>
    have h := (unpackSeq_safe hlt ho hp).2 _ hs
    exact ih h.1 h.2
  | case3 => simp
  | case4 i o page hlt hs => exact absurd hs (unpackSeq_safe hlt ho hp).1
  | case5 => simp

/-- The decoder never reads outside its input nor writes outside the page. -/
theorem zswapUnpack_ne_fault (inp : List UInt8) {page : List UInt8} (hp : page.length = 4096) :
    zswapUnpack inp page ≠ fault := by
  refine bind_ne_fault (unpackLoop_ne_fault (Nat.zero_le _) hp) fun r _ => ?_
  split_ifs <;> simp

/-! ## The byte string of a sequence -/

/-- What `put_len` writes. -/
def encLen (n : ℕ) : List UInt8 :=
  if _h : n ≥ 255 then 255 :: encLen (n - 255) else [UInt8.ofNat n]
termination_by n
decreasing_by omega

/-- The bytes of a length that its half of the token does not hold. -/
def encMore (n : ℕ) : List UInt8 := if n ≥ 15 then encLen (n - 15) else []

/-- The match length as the token has it. -/
def mlOf (mlen : ℕ) : ℕ := if mlen ≠ 0 then mlen - 4 else 0

/-- The token of a sequence. -/
def token (nlit ml : ℕ) : ℕ := (if nlit < 15 then nlit else 15) * 16 + (if ml < 15 then ml else 15)

/-- The beginning of a sequence: token, more literal length, literals. -/
def encLits (lits : List UInt8) (mlen : ℕ) : List UInt8 :=
  UInt8.ofNat (token lits.length (mlOf mlen)) :: (encMore lits.length ++ lits)

/-- The end of a sequence that has a match: offset, more match length. -/
def encMatch (off mlen : ℕ) : List UInt8 :=
  UInt8.ofNat off :: UInt8.ofNat (off / 256) :: encMore (mlOf mlen)

theorem length_encLen_le (n : ℕ) : (encLen n).length ≤ n / 255 + 1 := by
  fun_induction encLen n with
  | case1 n h ih =>
    rw [List.length_cons]
    omega
  | case2 n h => simp

theorem length_encMore_le (n : ℕ) : (encMore n).length ≤ n / 15 := by
  unfold encMore
  split_ifs with h
  · have := length_encLen_le (n - 15)
    omega
  · simp

/-! ## Writing it -/

/-- `bs` has been written at `o`: the buffer up to the new end, which is inside it. -/
structure Wrote (cap : ℕ) (out : List UInt8) (o : ℕ) (bs : List UInt8)
    (w : List UInt8 × ℕ) : Prop where
  size : w.1.length = out.length
  pos : w.2 = o + bs.length
  le : w.2 ≤ cap
  take : w.1.take w.2 = out.take o ++ bs

theorem Wrote.trans {cap o : ℕ} {out bs cs : List UInt8} {w x : List UInt8 × ℕ}
    (h : Wrote cap out o bs w) (h' : Wrote cap w.1 w.2 cs x) : Wrote cap out o (bs ++ cs) x where
  size := h'.size.trans h.size
  pos := by rw [h'.pos, h.pos, List.length_append, Nat.add_assoc]
  le := h'.le
  take := by rw [h'.take, h.take, List.append_assoc]

/-- Outcome of a write: no access outside the buffer, and if it is not given up the bytes are
there. -/
def Writes (cap : ℕ) (out : List UInt8) (o : ℕ) (bs : List UInt8)
    (r : Res (List UInt8 × ℕ)) : Prop :=
  r ≠ fault ∧ ∀ w, r = ok w → Wrote cap out o bs w

theorem Writes.bind {cap o : ℕ} {out bs cs : List UInt8} {r : Res (List UInt8 × ℕ)}
    {f : List UInt8 × ℕ → Res (List UInt8 × ℕ)} (h : Writes cap out o bs r)
    (hf : ∀ w, Wrote cap out o bs w → Writes cap w.1 w.2 cs (f w)) :
    Writes cap out o (bs ++ cs) (r >>= f) := by
  refine ⟨bind_ne_fault h.1 fun w hw => (hf w (h.2 w hw)).1, fun x hx => ?_⟩
  obtain ⟨w, hw, hx⟩ := bind_eq_ok.mp hx
  exact (h.2 w hw).trans ((hf w (h.2 w hw)).2 x hx)

theorem put_writes {cap : ℕ} {out : List UInt8} (ho : out.length = cap) (o b : ℕ) :
    Writes cap out o [UInt8.ofNat b] (put cap out o b) := by
  unfold put
  split_ifs with h
  · exact ⟨by simp, fun w hw => by cases hw⟩
  · have hlt : o < out.length := by omega
    rw [writeAt_of_lt _ hlt, ok_bind]
    refine ⟨by simp, fun w hw => ?_⟩
    cases hw
    exact ⟨by simp, rfl, by omega, take_set_succ _ hlt⟩

theorem putLen_writes {cap : ℕ} {out : List UInt8} (ho : out.length = cap) (o n : ℕ) :
    Writes cap out o (encLen n) (putLen cap out o n) := by
  induction n using Nat.strong_induction_on generalizing out o with
  | _ n ih =>
    rw [putLen, encLen]
    split_ifs with h
    · exact (put_writes ho o 255).bind fun w hw => ih _ (by omega) (hw.size.trans ho) _
    · exact put_writes ho o n

theorem Writes.nil {cap o : ℕ} {out : List UInt8} (h : o ≤ cap) :
    Writes cap out o [] (ok (out, o)) :=
  ⟨by simp, fun w hw => by cases hw; exact ⟨rfl, rfl, h, by simp⟩⟩

theorem putMore_writes {cap : ℕ} {out : List UInt8} (ho : out.length = cap) {o : ℕ} (h : o ≤ cap)
    (n : ℕ) : Writes cap out o (encMore n) (putMore cap out o n) := by
  unfold putMore encMore
  split_ifs
  · exact putLen_writes ho o _
  · exact Writes.nil h

/-- `put_seq` writes the sequence, or gives up, as long as its sums stay below `2 ^ 32`. -/
theorem putSeq_writes {cap : ℕ} {out page : List UInt8} (ho : out.length = cap)
    (o lit nlit off mlen : ℕ) (hlit : lit + nlit ≤ page.length)
    (hw : o + 2 * nlit + 3 < 2 ^ 32) :
    Writes cap out o
      (encLits ((page.drop lit).take nlit) mlen ++ if mlen = 0 then [] else encMatch off mlen)
      (putSeq cap out o page lit nlit off mlen) := by
  have hlen : ((page.drop lit).take nlit).length = nlit := by
    rw [List.length_take, List.length_drop]
    omega
  have hmore := length_encMore_le nlit
  unfold putSeq encLits
  rw [hlen, List.cons_append, ← List.singleton_append, List.append_assoc]
  refine (put_writes ho o _).bind fun w hw₁ => ?_
  refine (putMore_writes (hw₁.size.trans ho) hw₁.le nlit).bind fun x hx => ?_
  have hxo : x.1.length = cap := hx.size.trans (hw₁.size.trans ho)
  have hx2 : x.2 = o + 1 + (encMore nlit).length := by
    rw [hx.pos, hw₁.pos]
    rfl
  have gaveUp : ∀ bs, Writes cap x.1 x.2 bs fail := fun bs => ⟨by simp, fun w hw => by cases hw⟩
  unfold u32
  rw [Nat.mod_eq_of_lt (by omega)]
  by_cases h1 : x.2 + nlit > cap
  · rw [if_pos h1]
    exact gaveUp _
  have hc : copyTo x.1 x.2 page lit nlit = _ := copyTo_of_le (by omega) hlit
  have hs := length_copyTo hc
  have ht := take_copyTo hc
  rw [if_neg h1, hc, ok_bind]
  generalize x.1.take x.2 ++ (page.drop lit).take nlit ++ x.1.drop (x.2 + nlit) = b at hs ht
  dsimp only
  by_cases h2 : mlen = 0
  · rw [if_pos h2, if_pos h2, List.append_nil]
    refine ⟨by simp, fun w hw => ?_⟩
    cases hw
    exact ⟨hs, by rw [hlen], by dsimp only; omega, ht⟩
  · rw [if_neg h2, if_neg h2, Nat.mod_eq_of_lt (by omega)]
    by_cases h3 : x.2 + nlit + 2 > cap
    · rw [if_pos h3]
      exact gaveUp _
    rw [if_neg h3]
    have hb1 : x.2 + nlit < b.length := by omega
    have hb2 : x.2 + nlit + 1 < (b.set (x.2 + nlit) (UInt8.ofNat off)).length := by
      rw [List.length_set]
      omega
    rw [writeAt_of_lt _ hb1, ok_bind, writeAt_of_lt _ hb2, ok_bind]
    -- literals and offset as one write, then the rest of the match length
    have hoff : Wrote cap x.1 x.2
        ((page.drop lit).take nlit ++ [UInt8.ofNat off, UInt8.ofNat (off / 256)])
        (((b.set (x.2 + nlit) (UInt8.ofNat off)).set (x.2 + nlit + 1) (UInt8.ofNat (off / 256))),
          x.2 + nlit + 2) := by
      refine ⟨by rw [List.length_set, List.length_set, hs], ?_, by dsimp only; omega, ?_⟩
      · rw [List.length_append, hlen]
        rfl
      · dsimp only
        rw [take_set_succ _ hb2, take_set_succ _ hb1, ht]
        simp
    have hrest := putMore_writes (n := mlOf mlen) (hoff.size.trans hxo) hoff.le
    refine ⟨hrest.1, fun w hw => ?_⟩
    have := hoff.trans (hrest.2 w hw)
    rwa [List.append_assoc, List.cons_append, List.cons_append, List.nil_append] at this

/-! ## Reading it back -/

theorem getLen_enc {inp rest : List UInt8} {n : ℕ} (pre : List UInt8) (k : ℕ) (h : inp = pre ++ (encLen n ++ rest))
    (hk : k + n ≤ 8192) :
    getLen inp inp.length pre.length k = ok (pre.length + (encLen n).length, k + n) := by
  induction n using Nat.strong_induction_on generalizing pre k with
  | _ n ih =>
    have hlt : ¬ pre.length ≥ inp.length := by
      rw [h, encLen]
      split_ifs <;> simp
    rw [getLen, dif_neg hlt]
    rw [encLen] at h ⊢
    split_ifs at h ⊢ with hn
    · rw [List.cons_append] at h
      have hread : readAt inp pre.length = ok 255 := by
        rw [h]
        exact readAt_append rfl
      have h255 : (255 : UInt8).toNat = 255 := rfl
      rw [hread, ok_bind, if_neg (not_not.mpr rfl), h255, if_neg (by omega)]
      have := ih (n - 255) (by omega) (pre ++ [255]) (k + 255)
        (by rw [h, List.append_assoc]; rfl) (by omega)
      rw [List.length_append, List.length_singleton] at this
      rw [this, List.length_cons, show k + 255 + (n - 255) = k + n by omega, Nat.add_assoc,
        Nat.add_comm 1]
    · have hread : readAt inp pre.length = ok (UInt8.ofNat n) := by
        rw [h]
        exact readAt_append rfl
      have hn' : (UInt8.ofNat n).toNat = n := by
        rw [UInt8.toNat_ofNat']
        omega
      have hne : UInt8.ofNat n ≠ 255 := by
        intro hc
        rw [hc] at hn'
        have h255 : (255 : UInt8).toNat = 255 := rfl
        omega
      rw [hread, ok_bind, if_pos hne, hn']
      rfl

theorem moreLen_enc {inp pre rest : List UInt8} {n : ℕ} (h : inp = pre ++ (encMore n ++ rest))
    (hn : n ≤ 8192) :
    moreLen inp inp.length pre.length (if n < 15 then n else 15) =
      ok (pre.length + (encMore n).length, n) := by
  unfold moreLen
  unfold encMore at h ⊢
  by_cases h15 : n < 15
  · rw [if_pos h15, if_neg (by omega), if_neg (by omega)]
    rfl
  · rw [if_neg h15, if_pos rfl, if_pos (by omega)]
    rw [if_pos (by omega)] at h
    rw [getLen_enc _ 15 h (by omega), show 15 + (n - 15) = n by omega]

theorem token_div {nlit ml : ℕ} :
    (UInt8.ofNat (token nlit ml)).toNat / 16 = if nlit < 15 then nlit else 15 := by
  rw [UInt8.toNat_ofNat', token]
  split_ifs <;> omega

theorem token_mod {nlit ml : ℕ} :
    (UInt8.ofNat (token nlit ml)).toNat % 16 = if ml < 15 then ml else 15 := by
  rw [UInt8.toNat_ofNat', token]
  split_ifs <;> omega

/-- The page as the decoder has it when it has restored the first `a` bytes of `p`. -/
def partPage (p buf : List UInt8) (a : ℕ) : List UInt8 := p.take a ++ buf.drop a

theorem copyTo_partPage {p buf inp pre rest : List UInt8} {a n : ℕ} (hp : p.length = 4096)
    (hbuf : buf.length = 4096) (ha : a + n ≤ 4096)
    (h : inp = pre ++ ((p.drop a).take n ++ rest)) :
    copyTo (partPage p buf a) a inp pre.length n = ok (partPage p buf (a + n)) := by
  have hlen : ((p.drop a).take n).length = n := by
    rw [List.length_take, List.length_drop]
    omega
  have htake : (p.take a).length = a := List.length_take_of_le (by omega)
  have h1 : (partPage p buf a).length = 4096 := by
    rw [partPage, List.length_append, htake, List.length_drop]
    omega
  rw [copyTo_of_le (by omega) (by rw [h, List.length_append, List.length_append]; omega), h,
    List.drop_left, List.take_left' hlen]
  congr 1
  unfold partPage
  rw [List.take_left' htake, List.take_add, ← List.drop_drop, List.drop_left' htake,
    List.drop_drop, List.append_assoc]

/-- Reading the beginning of a sequence back: the second half of the turn starts behind the
literals. -/
theorem unpackSeq_lits {p buf inp pre : List UInt8} (rest : List UInt8) {a n : ℕ} (mlen : ℕ)
    (hp : p.length = 4096)
    (hbuf : buf.length = 4096) (ha : a + n ≤ 4096)
    (h : inp = pre ++ (encLits ((p.drop a).take n) mlen ++ rest)) :
    unpackSeq inp inp.length pre.length a (partPage p buf a) =
      unpackMatch inp inp.length (pre ++ encLits ((p.drop a).take n) mlen).length (a + n)
        (UInt8.ofNat (token n (mlOf mlen))) (partPage p buf (a + n)) := by
  have hlen : ((p.drop a).take n).length = n := by
    rw [List.length_take, List.length_drop]
    omega
  unfold encLits at h ⊢
  rw [hlen] at h ⊢
  rw [List.cons_append] at h
  have hread : readAt inp pre.length = ok (UInt8.ofNat (token n (mlOf mlen))) := by
    rw [h]
    exact readAt_append rfl
  set tok := UInt8.ofNat (token n (mlOf mlen)) with htok
  have h1 : inp = (pre ++ [tok]) ++ (encMore n ++ ((p.drop a).take n ++ rest)) := by
    rw [h]
    simp
  have h2 : inp = (pre ++ [tok] ++ encMore n) ++ ((p.drop a).take n ++ rest) := by
    rw [h1]
    simp
  have hmore := moreLen_enc h1 (by omega)
  have hcopy := copyTo_partPage hp hbuf ha h2
  have hl1 : (pre ++ [tok]).length = pre.length + 1 := by simp
  have hl2 : (pre ++ [tok] ++ encMore n).length = pre.length + 1 + (encMore n).length := by
    rw [List.length_append, hl1]
  have hl3 : (pre ++ tok :: (encMore n ++ (p.drop a).take n)).length =
      pre.length + 1 + (encMore n).length + n := by
    simp only [List.length_append, List.length_cons, hlen]
    omega
  have hfit : pre.length + 1 + (encMore n).length + n ≤ inp.length := by
    rw [h2]
    simp only [List.length_append, List.length_cons, List.length_nil, hlen]
    omega
  rw [hl1] at hmore
  rw [hl2] at hcopy
  unfold unpackSeq
  rw [hread, ok_bind, htok, token_div, ← htok, hmore, ok_bind]
  dsimp only
  rw [if_neg (by omega), hcopy, ok_bind, hl3]

/-- The last sequence: literals up to the end of the input. -/
theorem unpackSeq_last {p buf inp pre : List UInt8} {a n : ℕ} (hp : p.length = 4096)
    (hbuf : buf.length = 4096) (ha : a + n ≤ 4096)
    (h : inp = pre ++ encLits ((p.drop a).take n) 0) :
    unpackSeq inp inp.length pre.length a (partPage p buf a) =
      ok (true, inp.length, a + n, partPage p buf (a + n)) := by
  rw [unpackSeq_lits [] 0 hp hbuf ha (by rw [List.append_nil]; exact h), ← h,
    unpackMatch, if_pos rfl, pure_eq]

/-- A sequence with a match that repeats the page. -/
theorem unpackSeq_match {p buf inp pre rest : List UInt8} {a n off mlen : ℕ}
    (hp : p.length = 4096) (hbuf : buf.length = 4096) (ha : a + n + mlen ≤ 4096)
    (h : inp = pre ++ (encLits ((p.drop a).take n) mlen ++ (encMatch off mlen ++ rest)))
    (hm : 4 ≤ mlen) (hoff : 0 < off) (hoffle : off ≤ a + n)
    (hrep : ∀ k (_ : k < mlen), p[a + n + k]? = p[a + n + k - off]?) :
    unpackSeq inp inp.length pre.length a (partPage p buf a) =
      ok (false, (pre ++ (encLits ((p.drop a).take n) mlen ++ encMatch off mlen)).length,
        a + n + mlen, partPage p buf (a + n + mlen)) := by
  rw [unpackSeq_lits _ mlen hp hbuf (by omega) h, unpackMatch]
  have h1 : inp = (pre ++ encLits ((p.drop a).take n) mlen) ++ (encMatch off mlen ++ rest) := by
    rw [h, List.append_assoc]
  set q := pre ++ encLits ((p.drop a).take n) mlen with hq
  unfold encMatch at h1 ⊢
  rw [List.cons_append, List.cons_append] at h1
  have h2 : inp = (q ++ [UInt8.ofNat off]) ++
      (UInt8.ofNat (off / 256) :: (encMore (mlOf mlen) ++ rest)) := by
    rw [h1]
    simp
  have h3 : inp = (q ++ [UInt8.ofNat off, UInt8.ofNat (off / 256)]) ++
      (encMore (mlOf mlen) ++ rest) := by
    rw [h1]
    simp
  have hlen : inp.length = q.length + 2 + (encMore (mlOf mlen) ++ rest).length := by
    rw [h3, List.length_append, List.length_append]
    rfl
  have hr0 : readAt inp q.length = ok (UInt8.ofNat off) := by
    rw [h1]
    exact readAt_append rfl
  have hr1 : readAt inp (q.length + 1) = ok (UInt8.ofNat (off / 256)) := by
    rw [h2]
    exact readAt_append (by simp)
  have hml : mlOf mlen = mlen - 4 := if_pos (by omega)
  have hmore := moreLen_enc h3 (by omega)
  have hoffval : (UInt8.ofNat off).toNat + (UInt8.ofNat (off / 256)).toNat * 2 ^ 8 = off := by
    rw [UInt8.toNat_ofNat', UInt8.toNat_ofNat']
    omega
  have hback : copyBack mlen (partPage p buf (a + n)) (a + n) off =
      ok (partPage p buf (a + n + mlen)) := by
    have hc := copyBack_extends hoff hoffle (by omega) hrep (buf.drop (a + n)) (by rw [List.length_drop]; omega)
    rwa [List.drop_drop] at hc
  rw [show (q ++ [UInt8.ofNat off, UInt8.ofNat (off / 256)]).length = q.length + 2 by simp]
    at hmore
  rw [if_neg (by omega), if_neg (by omega), hr0, ok_bind, hr1, ok_bind, token_mod, hmore, ok_bind]
  dsimp only
  rw [hoffval, show mlOf mlen + 4 = mlen by omega, if_neg (by omega), hback, ok_bind, pure_eq]
  have hend : (q ++ UInt8.ofNat off :: UInt8.ofNat (off / 256) :: encMore (mlOf mlen)).length =
      q.length + 2 + (encMore (mlOf mlen)).length := by
    simp only [List.length_append, List.length_cons]
    omega
  rw [← List.append_assoc, ← hq, hend]

/-! ## The packer -/

theorem rd32_of_le {page : List UInt8} {i : ℕ} (h : i + 4 ≤ page.length) :
    rd32 page i = ok (page[i].toNat + page[i + 1].toNat * 2 ^ 8 + page[i + 2].toNat * 2 ^ 16 +
      page[i + 3].toNat * 2 ^ 24) := by
  unfold rd32
  rw [readAt_of_lt (by omega), ok_bind, readAt_of_lt (by omega), ok_bind,
    readAt_of_lt (by omega), ok_bind, readAt_of_lt (by omega), ok_bind, pure_eq]

/-- Equal words are equal bytes. -/
theorem rd32_inj {page : List UInt8} {i j v : ℕ} (hi : i + 4 ≤ page.length)
    (hj : j + 4 ≤ page.length) (h1 : rd32 page i = ok v) (h2 : rd32 page j = ok v) :
    ∀ k (_ : k < 4), page[i + k]? = page[j + k]? := by
  rw [rd32_of_le hi] at h1
  rw [rd32_of_le hj, ← h1] at h2
  have h3 := Res.ok.inj h2
  have lt : ∀ b : UInt8, b.toNat < 256 := UInt8.toNat_lt
  have l0 := lt page[i]
  have l1 := lt page[i + 1]
  have l2 := lt page[i + 2]
  have l3 := lt page[i + 3]
  have m0 := lt page[j]
  have m1 := lt page[j + 1]
  have m2 := lt page[j + 2]
  have m3 := lt page[j + 3]
  have e0 : page[i] = page[j] := UInt8.toNat_inj.mp (by omega)
  have e1 : page[i + 1] = page[j + 1] := UInt8.toNat_inj.mp (by omega)
  have e2 : page[i + 2] = page[j + 2] := UInt8.toNat_inj.mp (by omega)
  have e3 : page[i + 3] = page[j + 3] := UInt8.toNat_inj.mp (by omega)
  intro k hk
  rw [List.getElem?_eq_getElem (by omega), List.getElem?_eq_getElem (by omega), Option.some_inj]
  match k, hk with
  | 0, _ => exact e0
  | 1, _ => exact e1
  | 2, _ => exact e2
  | 3, _ => exact e3

/-- The match loop runs to a length over which the page repeats itself. -/
theorem matchLen_spec {page : List UInt8} {ref ip m : ℕ} (hp : page.length = 4096)
    (hlt : ref < ip) (hm : ip + m ≤ 4096)
    (hrep : ∀ k (_ : k < m), page[ip + k]? = page[ref + k]?) :
    ∃ n, matchLen page ref ip m = ok n ∧ m ≤ n ∧ ip + n ≤ 4096 ∧
      ∀ k (_ : k < n), page[ip + k]? = page[ref + k]? := by
  fun_induction matchLen page ref ip m with
  | case1 m h ih =>
    rw [readAt_of_lt (by omega), ok_bind, readAt_of_lt (by omega), ok_bind]
    split_ifs with heq
    · obtain ⟨n, h1, h2, h3, h4⟩ := ih (by omega) fun k hk => by
        rcases Nat.lt_succ_iff_lt_or_eq.mp hk with hk | rfl
        · exact hrep k hk
        · rw [List.getElem?_eq_getElem (by omega), List.getElem?_eq_getElem (by omega), heq]
      exact ⟨n, h1, by omega, h3, h4⟩
    · exact ⟨m, rfl, le_rfl, hm, hrep⟩
  | case2 m h => exact ⟨m, rfl, le_rfl, hm, hrep⟩

/-- The invariant of the loop of `zswap_pack`.  The table holds positions passed already; what
has been written decodes, in front of anything, to the page up to `anchor`. -/
structure PackInv (cap : ℕ) (page : List UInt8) (s : PackSt) : Prop where
  ip_le : s.ip ≤ 4096
  anchor_le : s.anchor ≤ s.ip
  ht_len : s.ht.length = 4096
  ht_le : ∀ r ∈ s.ht, r ≤ s.ip
  out_len : s.out.length = cap
  o_le : s.o ≤ cap
  o_small : s.o ≤ 2 * s.anchor
  decodes : ∀ rest buf : List UInt8, buf.length = 4096 →
    unpackLoop (s.out.take s.o ++ rest) (s.out.take s.o ++ rest).length 0 0 buf =
      unpackLoop (s.out.take s.o ++ rest) (s.out.take s.o ++ rest).length s.o s.anchor
        (partPage page buf s.anchor)

theorem PackInv.take_len {cap : ℕ} {page : List UInt8} {s : PackSt} (h : PackInv cap page s) :
    (s.out.take s.o).length = s.o :=
  List.length_take_of_le (by rw [h.out_len]; exact h.o_le)

theorem hash_lt (v : ℕ) : hash v < 4096 := by
  unfold hash u32
  omega

theorem length_encLits (lits : List UInt8) (mlen : ℕ) :
    (encLits lits mlen).length ≤ 1 + lits.length / 15 + lits.length := by
  have := length_encMore_le lits.length
  rw [encLits, List.length_cons, List.length_append]
  omega

theorem length_encMatch (off : ℕ) {mlen : ℕ} (h : 4 ≤ mlen) :
    (encMatch off mlen).length ≤ 2 + (mlen - 4) / 15 := by
  have := length_encMore_le (mlOf mlen)
  rw [show mlOf mlen = mlen - 4 from if_pos (by omega)] at this
  rw [encMatch, List.length_cons, List.length_cons, show mlOf mlen = mlen - 4 from if_pos (by omega)]
  omega

/-- A match found at `ip`, `off` back, and written: the invariant after it. -/
theorem PackInv.match_step {cap : ℕ} {page : List UInt8} {s : PackSt} (h : PackInv cap page s)
    (hp : page.length = 4096) {ref m : ℕ} {ht : List ℕ} {w : List UInt8 × ℕ} (hlt : ref < s.ip)
    (hm4 : 4 ≤ m) (hm : s.ip + m ≤ 4096)
    (hrep : ∀ k (_ : k < m), page[s.ip + k]? = page[ref + k]?)
    (hht : ht.length = 4096) (hhtle : ∀ r ∈ ht, r ≤ s.ip + 1)
    (hw : Wrote cap s.out s.o (encLits ((page.drop s.anchor).take (s.ip - s.anchor)) m ++
      encMatch (s.ip - ref) m) w) :
    PackInv cap page ⟨s.ip + m, s.ip + m, ht, w.1, w.2⟩ := by
  have hanchor := h.anchor_le
  have hn : s.anchor + (s.ip - s.anchor) = s.ip := by omega
  have hlen : ((page.drop s.anchor).take (s.ip - s.anchor)).length = s.ip - s.anchor := by
    rw [List.length_take, List.length_drop]
    omega
  refine ⟨hm, le_rfl, hht, fun r hr => (hhtle r hr).trans (by dsimp only; omega),
    hw.size.trans h.out_len, hw.le, ?_, fun rest buf hbuf => ?_⟩
  · have h1 := hw.pos
    have h2 := length_encLits ((page.drop s.anchor).take (s.ip - s.anchor)) m
    have h3 := length_encMatch (s.ip - ref) hm4
    have h4 := h.o_small
    rw [List.length_append] at h1
    rw [hlen] at h2
    dsimp only
    omega
  · dsimp only
    rw [hw.take, List.append_assoc, List.append_assoc]
    rw [h.decodes _ buf hbuf]
    set inp := s.out.take s.o ++ (encLits ((page.drop s.anchor).take (s.ip - s.anchor)) m ++
      (encMatch (s.ip - ref) m ++ rest)) with hinp
    have hseq := unpackSeq_match (a := s.anchor) (n := s.ip - s.anchor) hp hbuf (by omega) hinp hm4
      (by omega) (by omega) fun k hk => by
        rw [hn, hrep k hk, show s.ip + k - (s.ip - ref) = ref + k by omega]
    have hend : (s.out.take s.o ++ (encLits ((page.drop s.anchor).take (s.ip - s.anchor)) m ++
        encMatch (s.ip - ref) m)).length = w.2 := by
      rw [List.length_append, h.take_len, hw.pos]
    rw [h.take_len, hn, hend] at hseq
    have hlt' : s.o < inp.length := by
      rw [hinp, List.length_append, h.take_len, List.length_append, encLits, List.length_cons]
      omega
    rw [unpackLoop, dif_pos hlt', hseq]

/-- One turn of the packer never leaves its buffers and keeps the invariant. -/
theorem packStep_spec {cap : ℕ} {page : List UInt8} {s : PackSt} (h : PackInv cap page s)
    (hp : page.length = 4096) (hip : s.ip + 4 ≤ 4096) :
    packStep cap page s ≠ fault ∧ ∀ t, packStep cap page s = ok t → PackInv cap page t := by
  obtain ⟨v, hv⟩ : ∃ v, rd32 page s.ip = ok v := ⟨_, rd32_of_le (by omega)⟩
  have hh : hash v < s.ht.length := by
    rw [h.ht_len]
    exact hash_lt v
  have hrle : s.ht[hash v] ≤ s.ip := h.ht_le _ (List.getElem_mem hh)
  have hht : (s.ht.set (hash v) ((s.ip + 1) % 2 ^ 16)).length = 4096 := by
    rw [List.length_set, h.ht_len]
  have hhtle : ∀ r ∈ s.ht.set (hash v) ((s.ip + 1) % 2 ^ 16), r ≤ s.ip + 1 := by
    intro r hr
    rcases List.mem_or_eq_of_mem_set hr with hr | rfl
    · exact (h.ht_le r hr).trans (Nat.le_succ _)
    · exact Nat.mod_le _ _
  unfold packStep
  rw [hv, ok_bind, readAt_of_lt hh, ok_bind, writeAt_of_lt _ hh, ok_bind]
  generalize s.ht[hash v] = ref at hrle
  generalize s.ht.set (hash v) ((s.ip + 1) % 2 ^ 16) = ht at hht hhtle
  have noMatch : PackInv cap page ⟨s.ip + 1, s.anchor, ht, s.out, s.o⟩ :=
    ⟨by dsimp only; omega, h.anchor_le.trans (Nat.le_succ _), hht, hhtle, h.out_len, h.o_le,
      h.o_small, h.decodes⟩
  unfold sameAt
  by_cases href : ref = 0
  · rw [if_neg (not_not.mpr href), pure_eq, ok_bind, if_neg (by simp)]
    exact ⟨by simp, fun t ht' => by cases ht'; exact noMatch⟩
  rw [if_pos href]
  obtain ⟨u, hu⟩ : ∃ u, rd32 page (ref - 1) = ok u := ⟨_, rd32_of_le (by omega)⟩
  rw [hu, ok_bind, pure_eq, ok_bind]
  by_cases huv : u = v
  · subst huv
    rw [if_pos (by simp)]
    have hrep := rd32_inj (by omega) (by omega) hv hu
    obtain ⟨m, h1, h2, h3, h4⟩ := matchLen_spec hp (show ref - 1 < s.ip by omega) hip hrep
    rw [h1, ok_bind]
    have hwr := putSeq_writes h.out_len s.o s.anchor (s.ip - s.anchor) (s.ip - (ref - 1)) m
      (show s.anchor + (s.ip - s.anchor) ≤ page.length by have := h.anchor_le; omega)
      (by have := h.o_small; have := h.anchor_le; omega)
    rw [if_neg (by omega)] at hwr
    refine ⟨bind_ne_fault hwr.1 fun w _ => by simp, fun t ht' => ?_⟩
    obtain ⟨w, hw, ht'⟩ := bind_eq_ok.mp ht'
    cases ht'
    exact h.match_step hp (by omega) h2 h3 h4 hht hhtle (hwr.2 w hw)
  · rw [if_neg (by simp [huv])]
    exact ⟨by simp, fun t ht' => by cases ht'; exact noMatch⟩

theorem packLoop_spec {cap : ℕ} {page : List UInt8} {s : PackSt} (h : PackInv cap page s)
    (hp : page.length = 4096) :
    packLoop cap page s ≠ fault ∧ ∀ t, packLoop cap page s = ok t → PackInv cap page t := by
  fun_induction packLoop cap page s with
  | case1 s hip t ht ih => exact ih ((packStep_spec h hp hip).2 t ht)
  | case2 => exact ⟨by simp, fun t ht => by cases ht⟩
  | case3 s hip hs => exact absurd hs (packStep_spec h hp hip).1
  | case4 s hip => exact ⟨by simp, fun t ht => by cases ht; exact h⟩

theorem packInv_init {cap : ℕ} (page : List UInt8) {out : List UInt8} (ho : out.length = cap) :
    PackInv cap page ⟨0, 0, List.replicate 4096 0, out, 0⟩ where
  ip_le := Nat.zero_le _
  anchor_le := le_rfl
  ht_len := List.length_replicate
  ht_le r hr := by rw [List.eq_of_mem_replicate hr]
  out_len := ho
  o_le := Nat.zero_le _
  o_small := Nat.zero_le _
  decodes rest buf hbuf := by simp [partPage]

/-- What the packer has written when it is done decodes to the page. -/
theorem packBody_spec (cap : ℕ) {page out : List UInt8} (hp : page.length = 4096)
    (ho : out.length = cap) :
    packBody cap page out ≠ fault ∧
      ∀ w, packBody cap page out = ok w →
        w.1.length = cap ∧ w.2 ≤ cap ∧
          ∀ buf : List UInt8, buf.length = 4096 → zswapUnpack (w.1.take w.2) buf = ok page := by
  have hl := packLoop_spec (packInv_init page ho) hp
  have full : ∀ buf : List UInt8, buf.length = 4096 → partPage page buf 4096 = page := by
    intro buf hbuf
    unfold partPage
    rw [List.take_of_length_le hp.le, List.drop_of_length_le hbuf.le, List.append_nil]
  unfold packBody
  rcases hs : packLoop cap page ⟨0, 0, List.replicate 4096 0, out, 0⟩ with s | _ | _
  · have h := hl.2 s hs
    have hanchor := h.anchor_le.trans h.ip_le
    rw [ok_bind]
    by_cases ha : s.anchor < 4096
    · rw [if_pos ha]
      have hwr := putSeq_writes h.out_len s.o s.anchor (4096 - s.anchor) 0 0
        (show s.anchor + (4096 - s.anchor) ≤ page.length by omega)
        (by have := h.o_small; omega)
      rw [if_pos rfl, List.append_nil] at hwr
      refine ⟨hwr.1, fun w hw => ?_⟩
      have hwrote := hwr.2 w hw
      refine ⟨hwrote.size.trans h.out_len, hwrote.le, fun buf hbuf => ?_⟩
      unfold zswapUnpack
      rw [hwrote.take, h.decodes _ buf hbuf]
      set inp := s.out.take s.o ++ encLits ((page.drop s.anchor).take (4096 - s.anchor)) 0
        with hinp
      have hlast := unpackSeq_last (a := s.anchor) (n := 4096 - s.anchor) hp hbuf (by omega) hinp
      rw [h.take_len, show s.anchor + (4096 - s.anchor) = 4096 by omega, full buf hbuf] at hlast
      have hlt : s.o < inp.length := by
        rw [hinp, List.length_append, h.take_len, encLits, List.length_cons]
        omega
      rw [unpackLoop, dif_pos hlt, hlast]
      rfl
    · rw [if_neg ha]
      refine ⟨by simp, fun w hw => ?_⟩
      cases hw
      refine ⟨h.out_len, h.o_le, fun buf hbuf => ?_⟩
      have hd := h.decodes [] buf hbuf
      rw [List.append_nil, h.take_len, unpackLoop.eq_def _ _ s.o, dif_neg (lt_irrefl _),
        show s.anchor = 4096 by omega, full buf hbuf] at hd
      unfold zswapUnpack
      rw [h.take_len, hd]
      rfl
  · exact ⟨by simp, fun w hw => by cases hw⟩
  · exact absurd hs hl.1

/-- **A packed page comes back.**  For every page and every `cap`, `zswap_pack` into a buffer of `cap` bytes stays inside its buffers, and if it returns a size `n`
then `n ≤ cap` and `zswap_unpack` of the `n` bytes gives the page, whatever its buffer held; and
for every byte string `zswap_unpack` ends inside the page and the input. -/
theorem pack_unpack (page : List UInt8) (hp : page.length = 4096) (cap : ℕ) (out : List UInt8)
    (ho : out.length = cap) :
    (zswapPack page out cap ≠ fault ∧
      ∀ n out', zswapPack page out cap = ok (.packed n out') →
        n ≤ cap ∧ out'.length = cap ∧
          ∀ buf : List UInt8, buf.length = 4096 → zswapUnpack (out'.take n) buf = ok page) ∧
      ∀ inp buf : List UInt8, buf.length = 4096 → zswapUnpack inp buf ≠ fault := by
  refine ⟨?_, fun inp buf hbuf => zswapUnpack_ne_fault inp hbuf⟩
  have hb := packBody_spec cap hp ho
  unfold zswapPack
  split_ifs
  · exact ⟨by simp, fun n out' h => by cases h⟩
  · rcases hw : packBody cap page out with w | _ | _
    · refine ⟨by simp, fun n out' h => ?_⟩
      cases h
      obtain ⟨h1, h2, h3⟩ := hb.2 w hw
      exact ⟨h2, h1, h3⟩
    · exact ⟨by simp, fun n out' h => by cases h⟩
    · exact absurd hw hb.1

/-- A page of sevens, packed into 3584 bytes. -/
theorem pack_unpack_sevens :
    (List.replicate 4096 (7 : UInt8)).length = 4096 ∧
      zswapPack (List.replicate 4096 7) (List.replicate 3584 0) 3584 ≠ fault ∧
      zswapUnpack [0x1F, 7, 1, 0, 255] (List.replicate 4096 0) ≠ fault := by
  have h := pack_unpack (List.replicate 4096 7) List.length_replicate 3584 (List.replicate 3584 0)
    List.length_replicate
  exact ⟨List.length_replicate, h.1.1, h.2 _ _ List.length_replicate⟩

end BananaOS.Zswap
