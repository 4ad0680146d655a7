import BananaOS.Media.FlacSamples

/-!
# Frames

`next_frame` skips what is not a frame that can be decoded (`NextFrame`) and decodes the first one that
is.  Which frame that is and where it ends depends on the bytes alone; its samples do if the blocks of
its first two subframes are filled (`Fhdr.Whole`), and a subframe's do in no other case
(`samples_of_whole`).
-/

namespace BananaOS.Media

open Lib Lib.Cells

variable {f : Flac} {h h' : Fhdr} {b b' : Br} {m m' M M' : Bufs} {n ch pos p : ℕ}

/-! ## Buffers by their channel -/

theorem dst_put (m : Bufs) (ch : ℕ) (s : Samples) {c : ℕ} (hc : c < 2) :
    (m.put ch s).dst c = if c = ch then s else m.dst c := by
  match ch, c, hc with
  | 0, 0, _ => rfl
  | 0, 1, _ => rfl
  | 1, 0, _ => rfl
  | 1, 1, _ => rfl
  | k + 2, 0, _ => rfl
  | k + 2, 1, _ => exact (if_neg (by omega)).symm

/-! ## The subframes of a frame -/

/-- The reader behind a subframe. -/
def behind (b : Br) (block : ℕ) (bps : ℤ) : Br :=
  match subframe b (fun _ => 0) block bps with
  | some (_, b, _) => b
  | none => b

/-- The reader at the subframe of a channel. -/
def Fhdr.chReader (h : Fhdr) (b : Br) : ℕ → Br
  | 0 => b
  | ch + 1 => behind (h.chReader b ch) h.block (h.bps + h.extra ch)

/-- The first two subframes of a frame fill their blocks. -/
def Fhdr.Whole (h : Fhdr) (b : Br) : Prop :=
  ∀ ch < h.nch, ch < 2 → Media.Whole (h.chReader b ch) h.block (h.bps + h.extra ch)

theorem behind_eq {s s' : Samples} {ok : Bool} {block : ℕ} {bps : ℤ} (hb : block ≤ maxBlock)
    (hs : subframe b s block bps = some (ok, b', s')) : b' = behind b block bps := by
  obtain ⟨x, y, hx, hy, hxy⟩ := subframe_both b s (fun _ => 0) bps hb
  obtain rfl : x = (ok, b', s') := Option.some.inj (hx.symm.trans hs)
  rw [behind, hy]
  exact hxy.br.symm

/-- The channels before `n` are the same in both buffers, where their blocks are filled. -/
def Coded (h : Fhdr) (b : Br) (n : ℕ) (M M' : Bufs) : Prop :=
  ∀ c < n, c < 2 → Media.Whole (h.chReader b c) h.block (h.bps + h.extra c) →
    Agree h.block (M.dst c) (M'.dst c)

theorem subframes_both (hb : h.block ≤ maxBlock) (left : ℕ) (hc : Coded h b ch M M') :
    Both (subframes h left ch (h.chReader b ch) M) (subframes h left ch (h.chReader b ch) M')
      fun x y => (y.1 = x.1 ∧ y.2.1 = x.2.1) ∧ Reads (h.chReader b ch) x.2.1 ∧
        (x.1 = true → x.2.1 = h.chReader b (ch + left) ∧ Coded h b (ch + left) x.2.2 y.2.2) := by
  induction left generalizing ch M M' with
  | zero => exact Both.pure ⟨⟨rfl, rfl⟩, .refl _, fun _ => ⟨rfl, hc⟩⟩
  | succ left ih =>
    obtain ⟨⟨ok, b1, s⟩, ⟨ok', b2, t⟩, hx, hy, hxy⟩ :=
      subframe_both (h.chReader b ch) (M.dst ch) (M'.dst ch) (h.bps + h.extra ch) hb
    obtain rfl : ok' = ok := hxy.ok
    obtain rfl : b2 = b1 := hxy.br
    have hr : Reads (h.chReader b ch) b2 := hxy.reads
    rw [subframes, subframes, hx, hy]
    cases ok' with
    | false => exact Both.pure ⟨⟨rfl, rfl⟩, hr, nofun⟩
    | true =>
      have hb2 : b2 = h.chReader b (ch + 1) := behind_eq hb hx
      subst hb2
      have hc' : Coded h b (ch + 1) (M.put ch s) (M'.put ch t) := by
        intro c hcn hc2 hw
        rw [dst_put M ch s hc2, dst_put M' ch t hc2]
        by_cases hcc : c = ch
        · subst hcc
          rw [if_pos rfl, if_pos rfl]
          have := hxy.agree rfl
          rwa [(filled_eq_iff _ _ _).mpr hw] at this
        · rw [if_neg hcc, if_neg hcc]
          exact hc c (by omega) hc2 hw
      refine (ih hc').mono fun x y hxy' => ⟨hxy'.1, hr.trans hxy'.2.1, fun hok => ?_⟩
      rw [show ch + (left + 1) = ch + 1 + left by omega]
      exact hxy'.2.2 hok

/-! ## The samples that are given out -/

/-- What is done to the samples of a place of the block. -/
def Fhdr.finish (h : Fhdr) (l r : BitVec 32) : BitVec 32 × BitVec 32 :=
  let x := if 8 ≤ h.chAssign then decorrelate h.chAssign l r else (l, r)
  (to16 (h.bps - 16) x.1, to16 (h.bps - 16) (if h.nch = 1 then x.1 else x.2))

theorem pairAt_eq (g : BitVec 32 → BitVec 32 → BitVec 32 × BitVec 32) (hn : n < maxBlock) (m : Bufs) :
    pairAt g n m = some { m with
      left := fun k => if k = n then (g (m.left k) (m.right k)).1 else m.left k
      right := fun k => if k = n then (g (m.left k) (m.right k)).2 else m.right k } := by
  simp only [pairAt, peek_eq m.left hn, peek_eq m.right hn, poke_eq m.left _ hn, poke_eq m.right _ hn,
    Option.bind_eq_bind, Option.bind_some, Option.pure_def]
  congr 2
  · ext k : 1
    split_ifs with hk
    · rw [hk]
    · rfl
  · ext k : 1
    split_ifs with hk
    · rw [hk]
    · rfl

theorem eachPair_eq (g : BitVec 32 → BitVec 32 → BitVec 32 × BitVec 32) {block : ℕ}
    (hb : block ≤ maxBlock) (m : Bufs) :
    eachPair g block m = some { m with
      left := fun k => if k < block then (g (m.left k) (m.right k)).1 else m.left k
      right := fun k => if k < block then (g (m.left k) (m.right k)).2 else m.right k } := by
  have h : ∀ n ≤ block, eachPair g n m = some { m with
      left := fun k => if k < n then (g (m.left k) (m.right k)).1 else m.left k
      right := fun k => if k < n then (g (m.left k) (m.right k)).2 else m.right k } := by
    intro n hn
    induction n with
    | zero => rfl
    | succ n ih =>
      have hm : n < maxBlock := by omega
      rw [eachPair, upto, ← eachPair, ih (by omega), Option.bind_eq_bind, Option.bind_some, pairAt_eq g hm,
        ← extend_one n (fun k => (g (m.left k) (m.right k)).1) m.left,
        ← extend_one n (fun k => (g (m.left k) (m.right k)).2) m.right]
      dsimp only
      congr 2
      · ext k : 1
        split_ifs with hk hlt
        · omega
        · rfl
        · rfl
        · rfl
      · ext k : 1
        split_ifs with hk hlt
        · omega
        · rfl
        · rfl
        · rfl
  exact h block le_rfl

/-- The samples given out are made of the samples coded for the same place. -/
theorem finishFrame_eq (hb : h.block ≤ maxBlock) (m : Bufs) :
    ∃ m', finishFrame h m = some m' ∧
      ∀ k < h.block, (m'.left k, m'.right k) = h.finish (m.left k) (m.right k) := by
  by_cases h8 : 8 ≤ h.chAssign
  · have hn : h.nch ≠ 1 := by
      rw [Fhdr.nch, if_neg (by omega)]
      decide
    simp only [finishFrame, Fhdr.finish, if_pos h8, if_neg hn, eachPair_eq _ hb, eachSample_eq _ hb,
      Option.bind_eq_bind, Option.bind_some, Option.pure_def]
    refine ⟨_, rfl, fun k hk => ?_⟩
    simp only [if_pos hk]
  · by_cases hn : h.nch = 1
    · simp only [finishFrame, Fhdr.finish, if_neg h8, if_pos hn, Bufs.copyLeft, if_pos hb,
        eachSample_eq _ hb, Option.bind_eq_bind, Option.bind_some, Option.pure_def]
      refine ⟨_, rfl, fun k hk => ?_⟩
      simp only [if_pos hk]
    · simp only [finishFrame, Fhdr.finish, if_neg h8, if_neg hn, eachSample_eq _ hb, Option.bind_eq_bind,
        Option.bind_some, Option.pure_def]
      refine ⟨_, rfl, fun k hk => ?_⟩
      simp only [if_pos hk]

theorem finish_mono {l r r' : BitVec 32} (hn : h.nch < 2) : h.finish l r = h.finish l r' := by
  have h8 : ¬ 8 ≤ h.chAssign := by
    intro h8
    rw [Fhdr.nch, if_neg (by omega)] at hn
    omega
  have h1 : h.nch = 1 := by
    rw [Fhdr.nch] at hn ⊢
    split_ifs at hn ⊢ <;> omega
  rw [Fhdr.finish, Fhdr.finish, if_neg h8, if_neg h8, if_pos h1, if_pos h1]

/-! ## The frame that is found -/

/-- The loops of `next_frame` go on here. -/
def Flac.InStream (f : Flac) (pos : ℕ) : Prop := (pos + 6) % 2 ^ 32 ≤ f.d.length

theorem bit_zero_lt : 0 < 8 := by decide

/-- The reader behind a header. -/
def Fhdr.reader (h : Fhdr) (f : Flac) (pos : ℕ) : Br := ⟨f.d, (pos + h.hdrLen) % 2 ^ 32, ⟨0, bit_zero_lt⟩, false⟩

/-- There is a frame here that can be decoded. -/
def Flac.FrameAt (f : Flac) (pos : ℕ) (h : Fhdr) : Prop :=
  frameHeader f pos = some (some h) ∧
    ∃ b m, subframes h h.nch 0 (h.reader f pos) ⟨fun _ => 0, fun _ => 0, fun _ => 0⟩ = some (true, b, m)

/-- The first place from `pos` on with a frame that can be decoded. -/
inductive Flac.NextFrame (f : Flac) : ℕ → ℕ → Fhdr → Prop where
  | here {pos : ℕ} {h : Fhdr} : f.InStream pos → f.FrameAt pos h → f.NextFrame pos pos h
  | later {pos p : ℕ} {h : Fhdr} : f.InStream pos → (∀ h', ¬ f.FrameAt pos h') →
      f.NextFrame ((pos + 1) % 2 ^ 32) p h → f.NextFrame pos p h

theorem reads_blockSize (bs : ℕ) (b : Br) : Reads b (blockSize bs b).2 := by
  rw [blockSize]
  dsimp only
  split_ifs
  · exact reads_bits b 8
  · exact reads_bits b 16
  · exact .refl b

theorem reads_sampleRate (f : Flac) (src : ℕ) (b : Br) : Reads b (sampleRate f src b).2 := by
  rw [sampleRate]
  split_ifs
  · exact .refl b
  · exact reads_bits b 8
  · exact reads_bits b 16
  · exact reads_bits b 16
  · exact .refl b

theorem reads_numberLoop {k num : ℕ} {x : ℕ × Br} (hx : numberLoop k num b = some x) : Reads b x.2 := by
  induction k generalizing num b with
  | zero =>
    obtain rfl := Option.some.inj hx
    exact .refl b
  | succ k ih =>
    rw [numberLoop] at hx
    dsimp only at hx
    split at hx
    · exact absurd hx nofun
    · exact (reads_bits b 8).trans (ih hx)

theorem reads_checkHeader (hx : checkHeader f pos b = some b') : Reads b b' := by
  rw [checkHeader] at hx
  dsimp only at hx
  split at hx
  · exact absurd hx nofun
  split at hx
  · exact absurd hx nofun
  obtain rfl := Option.some.inj hx
  exact reads_bits b 8

theorem headerFields_some {variableBlocks : Bool} (hh : headerFields f pos variableBlocks b = some h) :
    (0 < h.block ∧ h.block ≤ maxBlock) ∧ ∃ b', Reads b b' ∧ h.hdrLen = b'.pos - pos := by
  have h1 : Reads b (bits (bits (bits (bits (bits (bits b 4).2 4).2 4).2 3).2 1).2 8).2 :=
    (((((reads_bits b 4).trans (reads_bits _ 4)).trans (reads_bits _ 4)).trans (reads_bits _ 3)).trans
      (reads_bits _ 1)).trans (reads_bits _ 8)
  rw [headerFields] at hh
  dsimp only at hh
  split at hh
  · exact absurd hh nofun
  obtain ⟨x, -, hh⟩ := Option.bind_eq_some_iff.mp hh
  obtain ⟨y, hy, hh⟩ := Option.bind_eq_some_iff.mp hh
  obtain ⟨z, hz, hh⟩ := Option.bind_eq_some_iff.mp hh
  split at hh
  next hblock =>
    obtain rfl := Option.some.inj hh
    have h2 := (h1.trans (reads_numberLoop hy)).trans (reads_blockSize (bits b 4).1 y.2)
    have h3 := h2.trans (reads_sampleRate f (bits (bits b 4).2 4).1 _)
    refine ⟨?_, z, h3.trans (reads_checkHeader hz), rfl⟩
    dsimp only
    omega
  · exact absurd hh nofun

/-- A header is for a block that the buffers have room for, and ends in the stream. -/
theorem frameHeader_some (hh : frameHeader f pos = some (some h)) :
    (0 < h.block ∧ h.block ≤ maxBlock) ∧
      (f.InStream pos → pos + 6 < 2 ^ 32 → pos + h.hdrLen ≤ f.d.length) := by
  rw [frameHeader] at hh
  split at hh
  · exact absurd hh nofun
  obtain ⟨p0, -, hh⟩ := Option.bind_eq_some_iff.mp hh
  split at hh
  · exact absurd hh nofun
  obtain ⟨p1, -, hh⟩ := Option.bind_eq_some_iff.mp hh
  split at hh
  · exact absurd hh nofun
  obtain ⟨h1, b', hr, hlen⟩ := headerFields_some (Option.some.inj hh)
  refine ⟨h1, fun hin hpos => ?_⟩
  rw [Flac.InStream] at hin
  have hle := hr.pos
  have hinside := hr.inside
  dsimp only at hle hinside
  omega

theorem findHeader_some {found : Option Fhdr} (hf : findHeader f n pos = some (p, found)) :
    (∀ h, found = some h → f.InStream p ∧ frameHeader f p = some (some h)) ∧
      ∀ q h, f.NextFrame p q h → f.NextFrame pos q h := by
  induction n generalizing pos with
  | zero => exact absurd hf nofun
  | succ n ih =>
    rw [findHeader] at hf
    split at hf
    next hin =>
      obtain ⟨o, ho, hf⟩ := Option.bind_eq_some_iff.mp hf
      cases o with
      | some h =>
        obtain ⟨rfl, rfl⟩ := Prod.mk.inj (Option.some.inj hf)
        refine ⟨fun h' hh => ?_, fun q h' hq => hq⟩
        obtain rfl := Option.some.inj hh
        exact ⟨hin, ho⟩
      | none =>
        obtain ⟨h1, h2⟩ := ih hf
        refine ⟨h1, fun q h' hq => .later hin (fun h'' hat => ?_) (h2 q h' hq)⟩
        exact absurd (Option.some.inj (ho.symm.trans hat.1)) nofun
    · obtain ⟨rfl, rfl⟩ := Prod.mk.inj (Option.some.inj hf)
      exact ⟨nofun, fun q h' hq => hq⟩

/-- The same stream, with the same defaults for its frames. -/
structure Flac.SameStream (f g : Flac) : Prop where
  d : g.d = f.d
  sr : g.sr = f.sr
  bps : g.bps = f.bps

variable {g : Flac}

theorem Flac.SameStream.frameHeader (hs : f.SameStream g) (pos : ℕ) : frameHeader g pos = frameHeader f pos := by
  obtain ⟨d, _, _, bps, _, sr, _, _, _, _, _, _, _⟩ := f
  obtain ⟨d', _, _, bps', _, sr', _, _, _, _, _, _, _⟩ := g
  obtain ⟨rfl, rfl, rfl⟩ := hs
  rfl

theorem Flac.SameStream.findHeader (hs : f.SameStream g) (n pos : ℕ) : findHeader g n pos = findHeader f n pos := by
  induction n generalizing pos with
  | zero => rfl
  | succ n ih => rw [Media.findHeader, Media.findHeader, hs.d, hs.frameHeader, ih]

theorem Flac.SameStream.frameAt (hs : f.SameStream g) : g.FrameAt pos h ↔ f.FrameAt pos h := by
  rw [Flac.FrameAt, Flac.FrameAt, hs.frameHeader, Fhdr.reader, Fhdr.reader, hs.d]

theorem Flac.SameStream.nextFrame (hs : f.SameStream g) (hn : g.NextFrame pos p h) : f.NextFrame pos p h := by
  induction hn with
  | here hin hat => exact .here (by rwa [Flac.InStream, ← hs.d]) (hs.frameAt.mp hat)
  | later hin hnot _ ih =>
    exact .later (by rwa [Flac.InStream, ← hs.d]) (fun h' hat => hnot h' (hs.frameAt.mpr hat)) ih

/-- Two decoders that differ in their buffers come to the same frame, and code it alike. -/
structure Alike (f : Flac) (x y : Option (Fhdr × Br) × Flac) : Prop where
  found : y.1 = x.1
  state : ∃ pos M M', x.2 = { f with pos, bufs := M } ∧ y.2 = { f with pos, bufs := M' } ∧
    ∀ h b, x.1 = some (h, b) → f.FrameAt pos h ∧ f.NextFrame f.pos pos h ∧ f.InStream pos ∧
      Reads (h.reader f pos) b ∧ b = h.chReader (h.reader f pos) h.nch ∧ Coded h (h.reader f pos) h.nch M M'

/-- The subframes behind a header, from any two buffers. -/
theorem subframes_two (hh : frameHeader f pos = some (some h)) (m m' : Bufs) :
    ∃ ok b M M', subframes h h.nch 0 (h.reader f pos) m = some (ok, b, M) ∧
      subframes h h.nch 0 (h.reader f pos) m' = some (ok, b, M') ∧ Reads (h.reader f pos) b ∧
        (ok = true → b = h.chReader (h.reader f pos) h.nch ∧ Coded h (h.reader f pos) h.nch M M') := by
  have hc : Coded h (h.reader f pos) 0 m m' := fun c hc => absurd hc c.not_lt_zero
  obtain ⟨⟨ok, b, M⟩, ⟨ok', b', M'⟩, h1, h2, ⟨rfl, rfl⟩, h3, h4⟩ :=
    subframes_both (frameHeader_some hh).1.2 h.nch hc
  rw [Nat.zero_add] at h4
  exact ⟨_, _, M, M', h1, h2, h3, h4⟩

theorem frameAt_iff (hh : frameHeader f pos = some (some h)) {ok : Bool}
    (hs : subframes h h.nch 0 (h.reader f pos) m = some (ok, b, M)) (h' : Fhdr) :
    f.FrameAt pos h' ↔ h' = h ∧ ok = true := by
  obtain ⟨ok', b', N, N', h1, h2, -, -⟩ := subframes_two hh m ⟨fun _ => 0, fun _ => 0, fun _ => 0⟩
  obtain ⟨rfl, -, -⟩ : ok' = ok ∧ b' = b ∧ N = M := by simpa using h1.symm.trans hs
  constructor
  · rintro ⟨hh', b1, m1, h3⟩
    obtain rfl : h' = h := by simpa using hh'.symm.trans hh
    exact ⟨rfl, congrArg Prod.fst (Option.some.inj (h2.symm.trans h3))⟩
  · rintro ⟨rfl, rfl⟩
    exact ⟨hh, b', N', h2⟩

theorem frameLoop_two (n k : ℕ) (f : Flac) (m m' : Bufs) :
    frameLoop n k { f with bufs := m } = none ∧ frameLoop n k { f with bufs := m' } = none ∨
      Both (frameLoop n k { f with bufs := m }) (frameLoop n k { f with bufs := m' }) (Alike f) := by
  induction k generalizing f m m' with
  | zero => exact .inl ⟨rfl, rfl⟩
  | succ k ih =>
    have hsame : ∀ m, f.SameStream { f with bufs := m } := fun m => ⟨rfl, rfl, rfl⟩
    rw [frameLoop, frameLoop]
    dsimp only
    rw [(hsame m).findHeader n f.pos, (hsame m').findHeader n f.pos]
    cases hf : findHeader f n f.pos with
    | none => exact .inl ⟨rfl, rfl⟩
    | some x =>
      obtain ⟨pos, found⟩ := x
      obtain ⟨h1, h2⟩ := findHeader_some hf
      rw [Option.bind_eq_bind, Option.bind_some, Option.bind_eq_bind, Option.bind_some]
      cases found with
      | none => exact .inr (Both.pure ⟨rfl, pos, m, m', rfl, rfl, nofun⟩)
      | some h =>
        obtain ⟨hin, hh⟩ := h1 h rfl
        obtain ⟨ok, b, M, M', hM, hM', hr, hc⟩ := subframes_two hh m m'
        have hreader : (⟨f.d, (pos + h.hdrLen) % 2 ^ 32, 0, false⟩ : Br) = h.reader f pos := rfl
        dsimp only
        rw [hreader, hM, hM', Option.bind_some, Option.bind_some]
        have hat := frameAt_iff hh hM
        cases ok with
        | true =>
          refine .inr (Both.pure ⟨rfl, pos, M, M', rfl, rfl, fun h' b' hfound => ?_⟩)
          obtain ⟨rfl, rfl⟩ := Prod.mk.inj (Option.some.inj hfound)
          have hat' := (hat h).mpr ⟨rfl, rfl⟩
          exact ⟨hat', h2 pos h (.here hin hat'), hin, hr, hc rfl⟩
        | false =>
          have hnot : ∀ h', ¬ f.FrameAt pos h' := fun h' hat' => absurd ((hat h').mp hat').2 nofun
          refine (ih { f with pos := (pos + 1) % 2 ^ 32 } M M').imp id fun hboth => hboth.mono ?_
          rintro x y ⟨hxy, p, N, N', hx, hy, hfound⟩
          refine ⟨hxy, p, N, N', hx, hy, fun h' b' hx' => ?_⟩
          obtain ⟨h3, h4, h5, h6, h7⟩ := hfound h' b' hx'
          have hs : f.SameStream { f with pos := (pos + 1) % 2 ^ 32 } := ⟨rfl, rfl, rfl⟩
          exact ⟨hs.frameAt.mp h3, h2 p h' (.later hin hnot (hs.nextFrame h4)), h5, h6, h7⟩

/-- The channels that are given out come from channels that are filled. -/
theorem agree_finish (hb : h.block ≤ maxBlock) (hc : Coded h b h.nch M M') (hw : h.Whole b)
    (hm : finishFrame h M = some m) (hm' : finishFrame h M' = some m') :
    Agree h.block m.left m'.left ∧ Agree h.block m.right m'.right := by
  have h1 : ∀ k < h.block, (m.left k, m.right k) = (m'.left k, m'.right k) := by
    intro k hk
    obtain ⟨N, hN, hfin⟩ := finishFrame_eq hb M
    obtain ⟨N', hN', hfin'⟩ := finishFrame_eq hb M'
    obtain rfl : N = m := Option.some.inj (hN.symm.trans hm)
    obtain rfl : N' = m' := Option.some.inj (hN'.symm.trans hm')
    have hpos : 0 < h.nch := by
      rw [Fhdr.nch]
      split_ifs <;> omega
    have hleft : M.left k = M'.left k := hc 0 hpos two_pos (hw 0 hpos two_pos) k hk
    rw [hfin k hk, hfin' k hk, hleft]
    by_cases hn : h.nch < 2
    · exact finish_mono hn
    · have hright : M.right k = M'.right k := hc 1 (by omega) one_lt_two (hw 1 (by omega) one_lt_two) k hk
      rw [hright]
  exact ⟨fun k hk => congrArg Prod.fst (h1 k hk), fun k hk => congrArg Prod.snd (h1 k hk)⟩

/-- The frame that is found does not depend on the buffers, and its samples do not if it is whole. -/
theorem nextFrame_two {x : Option ℕ × Flac} (hx : nextFrame n { f with bufs := m } = some x) :
    ∃ y, nextFrame n { f with bufs := m' } = some y ∧ y.1 = x.1 ∧ y.2 = { x.2 with bufs := y.2.bufs } ∧
      (x.1.isSome → (∀ pos h, f.NextFrame f.pos pos h → h.Whole (h.reader f pos)) →
        Agree x.2.blen.toNat x.2.bufs.left y.2.bufs.left ∧
          Agree x.2.blen.toNat x.2.bufs.right y.2.bufs.right) := by
  rw [nextFrame] at hx ⊢
  obtain ⟨⟨found, g⟩, hg, hx⟩ := Option.bind_eq_some_iff.mp hx
  obtain hnone | ⟨x', ⟨found', g'⟩, hx', hy', hfound, pos, M, M', hM, hM', hsome⟩ := frameLoop_two n n f m m'
  · exact absurd (hnone.1.symm.trans hg) nofun
  obtain rfl : x' = (found, g) := Option.some.inj (hx'.symm.trans hg)
  obtain rfl : found' = found := hfound
  rw [hy', Option.bind_eq_bind, Option.bind_some]
  dsimp only at hM hM'
  subst hM hM'
  cases found' with
  | none =>
    obtain rfl := Option.some.inj hx
    exact ⟨_, rfl, rfl, rfl, nofun⟩
  | some p =>
    obtain ⟨h, b⟩ := p
    obtain ⟨hat, hnext, -, -, -, hc⟩ := hsome h b rfl
    have hb := (frameHeader_some hat.1).1.2
    obtain ⟨N', hN', -⟩ := finishFrame_eq hb M'
    obtain ⟨N, hN, hx⟩ := Option.bind_eq_some_iff.mp hx
    obtain rfl := Option.some.inj hx
    dsimp only
    rw [hN', Option.bind_eq_bind, Option.bind_some]
    refine ⟨_, rfl, rfl, rfl, fun _ hwhole => ?_⟩
    exact agree_finish hb hc (hwhole pos h hnext) hN hN'

/-- The samples of a frame whose first two blocks are filled depend on the stream alone, whatever was
skipped before it; and a subframe's samples do if and only if its block is filled. -/
theorem samples_of_whole (b : Br) (block : ℕ) (bps : ℤ) :
    (∀ (f : Flac) (n : ℕ) (m m' : Bufs) (x : Option ℕ × Flac), nextFrame n { f with bufs := m } = some x →
      ∃ y, nextFrame n { f with bufs := m' } = some y ∧ y.1 = x.1 ∧ y.2 = { x.2 with bufs := y.2.bufs } ∧
        (x.1.isSome → (∀ pos h, f.NextFrame f.pos pos h → h.Whole (h.reader f pos)) →
          Agree x.2.blen.toNat x.2.bufs.left y.2.bufs.left ∧
            Agree x.2.blen.toNat x.2.bufs.right y.2.bufs.right)) ∧
    (block ≤ maxBlock →
      ((∀ s t b1 b2 s' t', subframe b s block bps = some (true, b1, s') →
        subframe b t block bps = some (true, b2, t') → Agree block s' t') ↔
        ((∃ s b1 s', subframe b s block bps = some (true, b1, s')) → Whole b block bps))) :=
  ⟨fun _ _ _ _ _ hx => nextFrame_two hx, fun hb => subframe_samples_iff b bps hb⟩

/-- One frame, with a block of two samples in two partitions. -/
def evenBlock : Flac :=
  { d := [255, 249, 96, 0, 0, 1, 143, 16, 4, 33, 0, 0], first := 0, pos := 0, bps := 8, inCh := 1, sr := 8000
    bufs := ⟨fun _ => 0, fun _ => 0, fun _ => 0⟩, blen := 0, bat := 0, skip := 0, rate := 8000, channels := 1
    length := 0 }

theorem samples_of_whole_even :
    (∃ y, nextFrame 10 { evenBlock with bufs := ⟨fun _ => 1, fun _ => 1, fun _ => 1⟩ } = some y ∧
      y.1 = ((nextFrame 10 evenBlock).map Prod.fst).join) ∧
    ((∀ s t b1 b2 s' t', subframe ⟨evenBlock.d, 7, 0, false⟩ s 2 8 = some (true, b1, s') →
      subframe ⟨evenBlock.d, 7, 0, false⟩ t 2 8 = some (true, b2, t') → Agree 2 s' t') ↔
      ((∃ s b1 s', subframe ⟨evenBlock.d, 7, 0, false⟩ s 2 8 = some (true, b1, s')) →
        Whole ⟨evenBlock.d, 7, 0, false⟩ 2 8)) := by
  refine ⟨?_, (samples_of_whole ⟨evenBlock.d, 7, 0, false⟩ 2 8).2 (by decide)⟩
  have hsome : (nextFrame 10 evenBlock).isSome := by decide +kernel
  obtain ⟨x, hx⟩ := Option.isSome_iff_exists.mp hsome
  obtain ⟨y, hy, h1, -⟩ := (samples_of_whole ⟨evenBlock.d, 7, 0, false⟩ 2 8).1 evenBlock 10 evenBlock.bufs
    ⟨fun _ => 1, fun _ => 1, fun _ => 1⟩ x hx
  refine ⟨y, hy, ?_⟩
  rw [hx, h1]
  rfl

/-- A stream with one frame of three samples in two partitions. -/
def oddBlock : List UInt8 :=
  [102, 76, 97, 67, 128, 0, 0, 34, 0, 16, 0, 16, 0, 0, 0, 0, 0, 0, 1, 244, 0, 112, 0, 0, 0, 0, 0, 0, 0, 0, 0, 0,
    0, 0, 0, 0, 0, 0, 0, 0, 0, 0, 255, 249, 96, 0, 0, 2, 134, 16, 4, 33, 0, 0]

/-- The third sample of the first frame, if there is one. -/
def thirdSample (d : List UInt8) (m : Bufs) : Option (BitVec 32) := do
  let o ← flacOpen 10 d m
  let f ← o
  let (found, g) ← nextFrame 10 f
  if found.isSome ∧ 2 < g.blen then some (g.bufs.left 2) else none

theorem thirdSample_some {d : List UInt8} {v : BitVec 32} (hv : thirdSample d m = some v) :
    ∃ f i g, flacOpen 10 d m = some (some f) ∧ nextFrame 10 f = some (some i, g) ∧ 2 < g.blen.toNat ∧
      g.bufs.left 2 = v := by
  simp only [thirdSample, Option.bind_eq_bind, Option.bind_eq_some_iff] at hv
  obtain ⟨o, ho, f, rfl, ⟨found, g⟩, hg, hv⟩ := hv
  split at hv
  next hlt =>
    obtain ⟨i, rfl⟩ := Option.isSome_iff_exists.mp hlt.1
    have hlen : 2 < g.blen := hlt.2
    exact ⟨f, i, g, ho, hg, by omega, Option.some.inj hv⟩
  · exact absurd hv nofun

/-- Its third sample is in no partition: it is what the memory of the buffer held. -/
theorem oddBlock_differs :
    ¬ ∀ (d : List UInt8) (m m' : Bufs) (n i i' : ℕ) (f f' g g' : Flac), flacOpen n d m = some (some f) →
      flacOpen n d m' = some (some f') → nextFrame n f = some (some i, g) → nextFrame n f' = some (some i', g') →
        Agree g.blen.toNat g.bufs.left g'.bufs.left := by
  intro hall
  have h0 : thirdSample oddBlock ⟨fun _ => 0, fun _ => 0, fun _ => 0⟩ = some 0 := by decide +kernel
  have h1 : thirdSample oddBlock ⟨fun _ => 1, fun _ => 0, fun _ => 0⟩ = some 256 := by decide +kernel
  obtain ⟨f, i, g, hf, hg, hlt, hv⟩ := thirdSample_some h0
  obtain ⟨f', i', g', hf', hg', -, hv'⟩ := thirdSample_some h1
  have hagree := hall _ _ _ _ _ _ _ _ _ _ hf hf' hg hg' 2 hlt
  rw [hv, hv'] at hagree
  exact absurd hagree (by decide)

end BananaOS.Media
