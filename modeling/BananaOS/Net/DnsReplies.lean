import BananaOS.Net.Dns

/-!
# Replies of a name server

`skip_name` and `parse_reply` look at a reply of any bytes.  A name is skipped byte by byte or ends in a
reference to another place, which is not followed, so every turn of the loop comes closer to the reply's end.

* `skipName_runs`, `parseReply_runs`: they end, and read nothing outside of the reply.
* `dns_queries`: which names are asked for as they should be, and that replies to them are read so.
-/

namespace BananaOS.Net

open Lib Lib.Lines Lib.Res

variable {p : List UInt8} {q : Query} {n off : ℕ}

/-! ## Names and numbers -/

theorem rd16At_of_le {i : ℕ} (h : i + 2 ≤ p.length) : ∃ v < 2 ^ 16, rd16At p i = ok v := by
  refine ⟨p[i].toNat * 2 ^ 8 + p[i + 1].toNat, ?_, ?_⟩
  · have h1 := p[i].toNat_lt
    have h2 := p[i + 1].toNat_lt
    omega
  · rw [rd16At, readAt_of_lt (by omega), ok_bind, readAt_of_lt (by omega), ok_bind]
    rfl

theorem rd32At_of_le {i : ℕ} (h : i + 4 ≤ p.length) : ∃ v, rd32At p i = ok v := by
  obtain ⟨a, -, ha⟩ := @rd16At_of_le p i (by omega)
  obtain ⟨b, -, hb⟩ := @rd16At_of_le p (i + 2) (by omega)
  exact ⟨a * 2 ^ 16 + b, by rw [rd32At, ha, ok_bind, hb, ok_bind]; rfl⟩

theorem sameBytes_of_le {a b : List UInt8} {k i j : ℕ} (ha : i + k ≤ a.length) (hb : j + k ≤ b.length) :
    ∃ r, sameBytes a b k i j = ok r := by
  induction k generalizing i j with
  | zero => exact ⟨true, rfl⟩
  | succ k ih =>
    rw [sameBytes, readAt_of_lt (by omega), ok_bind, readAt_of_lt (by omega), ok_bind]
    split_ifs
    · exact ih (by omega) (by omega)
    · exact ⟨false, rfl⟩

/-- A name is skipped inside the reply: every turn comes closer to its end. -/
theorem skipName_runs (hp : p.length + 2 ^ 16 ≤ 2 ^ 32) (hn : p.length ≤ n + off) :
    ∃ r, skipName p n off = ok r ∧ r ≤ p.length := by
  induction n generalizing off with
  | zero => exact ⟨0, by rw [skipName, if_neg (by omega)], Nat.zero_le _⟩
  | succ n ih =>
    rw [skipName]
    by_cases hoff : off < p.length
    · rw [if_pos hoff, readAt_of_lt hoff, ok_bind]
      have hlt := p[off].toNat_lt
      by_cases h0 : p[off] = 0
      · exact ⟨off + 1, if_pos h0, by omega⟩
      rw [if_neg h0]
      by_cases hc : p[off] &&& 0xC0 = 0xC0
      · rw [if_pos hc]
        by_cases hend : off + 2 ≤ p.length
        · exact ⟨off + 2, by rw [if_pos hend]; rfl, hend⟩
        · exact ⟨0, by rw [if_neg hend]; rfl, Nat.zero_le _⟩
      rw [if_neg hc]
      by_cases hbad : p[off] &&& 0xC0 ≠ 0 ∨ p.length < (off + 1 + p[off].toNat) % 2 ^ 32
      · exact ⟨0, if_pos hbad, Nat.zero_le _⟩
      rw [if_neg hbad, Nat.mod_eq_of_lt (by omega)]
      exact ih (by omega)
    · exact ⟨0, if_neg hoff, Nat.zero_le _⟩

/-! ## Replies -/

theorem questionsLoop_runs (hp : p.length + 2 ^ 16 ≤ 2 ^ 32) (k off : ℕ) : questionsLoop p k off ≠ fault := by
  induction k generalizing off with
  | zero => exact fun h => by cases h
  | succ k ih =>
    obtain ⟨r, hr, -⟩ := skipName_runs hp (Nat.le_add_right p.length off)
    rw [questionsLoop, hr, ok_bind]
    split_ifs
    · exact fun h => by cases h
    · exact ih _

/-- What a reply does not change of a query: what it is compared with. -/
def Query.Same (q q' : Query) : Prop :=
  q'.id = q.id ∧ q'.type = q.type ∧ q'.question = q.question ∧ q'.qlen = q.qlen

theorem answersLoop_runs (hp : p.length + 2 ^ 16 ≤ 2 ^ 32) (k off : ℕ) (q : Query) :
    ∃ q', answersLoop p k off q = ok q' ∧ q.Same q' := by
  induction k generalizing off with
  | zero => exact ⟨q, rfl, rfl, rfl, rfl, rfl⟩
  | succ k ih =>
    obtain ⟨r, hr, -⟩ := skipName_runs hp (Nat.le_add_right p.length off)
    rw [answersLoop, hr, ok_bind]
    by_cases hend : r = 0 ∨ p.length < r + 10
    · exact ⟨q, if_pos hend, rfl, rfl, rfl, rfl⟩
    obtain ⟨type, -, h1⟩ := @rd16At_of_le p r (by omega)
    obtain ⟨cls, -, h2⟩ := @rd16At_of_le p (r + 2) (by omega)
    obtain ⟨ttl, h3⟩ := @rd32At_of_le p (r + 4) (by omega)
    obtain ⟨rdlen, hlt, h4⟩ := @rd16At_of_le p (r + 8) (by omega)
    rw [if_neg hend, h1, ok_bind, h2, ok_bind, h3, ok_bind, h4, ok_bind]
    by_cases hcut : p.length < (r + 10 + rdlen) % 2 ^ 32
    · exact ⟨q, if_pos hcut, rfl, rfl, rfl, rfl⟩
    have hmod : (r + 10 + rdlen) % 2 ^ 32 = r + 10 + rdlen := Nat.mod_eq_of_lt (by omega)
    simp only [if_neg hcut]
    by_cases hfound : type = q.type ∧ cls = 1 ∧ rdlen = if q.type = 28 then 16 else 4
    · rw [if_pos hfound]
      rw [hmod] at hcut
      obtain ⟨-, -, hlen⟩ := hfound
      by_cases h28 : q.type = 28
      · rw [if_pos h28] at hlen ⊢
        rw [bytesAt, if_pos (by omega), ok_bind]
        exact ⟨_, rfl, rfl, rfl, rfl, rfl⟩
      · rw [if_neg h28] at hlen ⊢
        obtain ⟨ip, h5⟩ := @rd32At_of_le p (r + 10) (by omega)
        rw [h5, ok_bind]
        exact ⟨_, rfl, rfl, rfl, rfl, rfl⟩
    · rw [if_neg hfound]
      exact ih _

/-- A reply is read to its end, inside. -/
theorem parseReply_runs (hq : q.qlen ≤ q.question.length) (h256 : q.question.length = 256)
    (hp : p.length + 2 ^ 16 ≤ 2 ^ 32) : ∃ q', parseReply q p = ok q' ∧ q.Same q' := by
  have hsame : q.Same q := ⟨rfl, rfl, rfl, rfl⟩
  rw [parseReply]
  by_cases h12 : p.length < 12
  · exact ⟨q, if_pos h12, hsame⟩
  obtain ⟨id, -, h1⟩ := @rd16At_of_le p 0 (by omega)
  rw [if_neg h12, h1, ok_bind]
  by_cases hid : id ≠ q.id
  · exact ⟨q, if_pos hid, hsame⟩
  obtain ⟨qd, -, h2⟩ := @rd16At_of_le p 4 (by omega)
  rw [if_neg hid, readAt_of_lt (by omega), ok_bind, h2, ok_bind]
  by_cases hflags : p[2] &&& 0xF8 ≠ 0x80 ∨ qd ≠ 1
  · exact ⟨q, if_pos hflags, hsame⟩
  rw [if_neg hflags, Nat.mod_eq_of_lt (by omega)]
  by_cases hlen : p.length < 12 + q.qlen + 4
  · exact ⟨q, if_pos hlen, hsame⟩
  obtain ⟨same, h3⟩ := @sameBytes_of_le p q.question q.qlen 12 0 (by omega) (by omega)
  rw [if_neg hlen, h3, ok_bind]
  by_cases hs : same = false
  · exact ⟨q, if_pos hs, hsame⟩
  obtain ⟨type, -, h4⟩ := @rd16At_of_le p (12 + q.qlen) (by omega)
  obtain ⟨cls, -, h5⟩ := @rd16At_of_le p (14 + q.qlen) (by omega)
  rw [if_neg hs, h4, ok_bind, h5, ok_bind]
  by_cases htype : type ≠ q.type ∨ cls ≠ 1
  · exact ⟨q, if_pos htype, hsame⟩
  rw [if_neg htype, readAt_of_lt (by omega), ok_bind]
  by_cases htc : p[2] &&& 0x02 ≠ 0
  · exact ⟨_, if_pos htc, rfl, rfl, rfl, rfl⟩
  obtain ⟨an, -, h6⟩ := @rd16At_of_le p 6 (by omega)
  simp only [if_neg htc]
  rw [h6, ok_bind]
  cases hqs : questionsLoop p qd 12 with
  | fault => exact absurd hqs (questionsLoop_runs hp qd 12)
  | fail => exact ⟨_, rfl, rfl, rfl, rfl, rfl⟩
  | ok off =>
    obtain ⟨q', hq', hsame'⟩ := answersLoop_runs hp an off { q with rcode := (p[3] &&& 0x0F).toNat }
    dsimp only
    rw [hq', ok_bind]
    exact ⟨_, rfl, hsame'⟩

/-! ## What is asked and answered -/

/-- The queries that wait for a reply: those that were sent, after any replies so far, and begun anew for
TCP. -/
inductive Waiting : Query → Prop where
  | sent {r : Resolver} {name : Text} {type : ℕ} {pkt : List UInt8} {len : ℕ} {q : Query} :
      resolve r name type = ok (.sends pkt len q) → Waiting q
  | reply {q q' : Query} {p : List UInt8} : Waiting q → p.length + 2 ^ 16 ≤ 2 ^ 32 →
      parseReply q p = ok q' → Waiting q'
  | again {q : Query} : Waiting q → Waiting { q with done := false, tc := false, found := false }

theorem Waiting.fits (h : Waiting q) : q.qlen ≤ q.question.length ∧ q.question.length = 256 := by
  induction h with
  | @sent r name type pkt len q h =>
    rcases resolve_cases r name type with heq | heq | ⟨rc, heq⟩
    · exact makeQuestion_fits (heq.symm.trans h)
    · rw [heq] at h
      cases h
    · rw [heq] at h
      cases h
  | @reply q q' p _ hp hq' ih =>
    obtain ⟨q'', heq, -, -, hquestion, hqlen⟩ := parseReply_runs ih.1 ih.2 hp
    rw [hq'] at heq
    cases heq
    rw [hquestion, hqlen]
    exact ih
  | again _ ih => exact ih

/-- A name makes a question as it should be, if any, exactly where it is askable; and a reply to any query is
read to its end, inside. -/
theorem dns_queries (name : Text) :
    ((∀ r type, QuestionOk name (resolve r name type)) ↔ Askable name) ∧
      ∀ q, Waiting q → ∀ p : List UInt8, p.length + 2 ^ 16 ≤ 2 ^ 32 →
        (∃ q', parseReply q p = ok q') ∧ ∀ off, ∃ r, skipName p p.length off = ok r := by
  refine ⟨questionOk_iff name, fun q hq p hp => ⟨?_, fun off => ?_⟩⟩
  · obtain ⟨q', h, -⟩ := parseReply_runs hq.fits.1 hq.fits.2 hp
    exact ⟨q', h⟩
  · obtain ⟨r, h, -⟩ := skipName_runs hp (Nat.le_add_right p.length off)
    exact ⟨r, h⟩

/-- Four labels, the last one of `k` bytes. -/
def longName (k : ℕ) : Text :=
  Lines.joined dot [List.replicate 63 97, List.replicate 63 97, List.replicate 63 97, List.replicate k 97]

theorem dns_queries_once : ∃ q, Waiting q ∧ ∃ q', parseReply q (List.replicate 12 0) = ok q' := by
  obtain ⟨pkt, q, h, -⟩ := @makeQuestion_sends (longName 62) freshResolver 28 (by decide +kernel)
    (by decide +kernel)
  rw [← resolve_long (by decide +kernel)] at h
  exact ⟨q, .sent h, ((dns_queries (longName 62)).2 q (.sent h) _ (by rw [List.length_replicate]; decide)).1⟩

/-- Four labels of 63 bytes each take 257 bytes, one more than the record has. -/
theorem long_name_faults : resolve freshResolver (longName 63) 28 = fault ∧
    ¬QuestionOk (longName 63) (resolve freshResolver (longName 63) 28) := by
  have h : resolve freshResolver (longName 63) 28 = fault := by
    rw [resolve_long (by decide +kernel)]
    exact makeQuestion_fault (by decide +kernel) (by decide +kernel) (by decide +kernel)
  exact ⟨h, h ▸ id⟩

end BananaOS.Net
