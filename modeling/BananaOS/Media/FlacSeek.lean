import BananaOS.Media.FlacFrames

/-!
# Playing and seeking stay inside the block

`Flac.Ready` is what holds between calls: the position in the block is between 0 and the block's length,
which the buffers have room for.  Decoding keeps it.  Seeking computes the position from the sample number
that the frame it stops at claims, so it keeps it as long as no frame found on the way claims to begin
behind the sample that was asked for (`Flac.Orderly`).

`none` stands for an access outside a buffer and for too few rounds, so that a call is `some` for every
number of rounds that is large enough says both that it stays inside and that it ends.
-/

namespace BananaOS.Media

open Lib Lib.Cells

variable {f g : Flac} {h : Fhdr} {b : Br} {n k pos p : ℕ} {m M : Bufs}

/-! ## Frames from a place on -/

/-- The first place from `pos` on with a header. -/
inductive Flac.NextHeader (f : Flac) : ℕ → ℕ → Fhdr → Prop where
  | here {pos : ℕ} {h : Fhdr} : f.InStream pos → frameHeader f pos = some (some h) → f.NextHeader pos pos h
  | later {pos p : ℕ} {h : Fhdr} : f.InStream pos → frameHeader f pos = some none →
      f.NextHeader ((pos + 1) % 2 ^ 32) p h → f.NextHeader pos p h

/-- Where the decoder goes on behind a frame. -/
def Fhdr.after (h : Fhdr) (f : Flac) (pos : ℕ) : ℕ :=
  ((align (h.chReader (h.reader f pos) h.nch)).pos + 2) % 2 ^ 32

/-- The frame ends past a sample. -/
def Fhdr.Past (h : Fhdr) (frame : ℕ) : Prop := frame < (h.firstSample + h.block) % 2 ^ 64

/-- The frames from a place on, up to the first one that ends past `frame`. -/
inductive Flac.Reached (f : Flac) (frame : ℕ) : ℕ → Fhdr → Prop where
  | first {pos p : ℕ} {h : Fhdr} : f.NextFrame pos p h → f.Reached frame pos h
  | next {pos p : ℕ} {h h' : Fhdr} : f.NextFrame pos p h → ¬ h.Past frame →
      f.Reached frame (h.after f p) h' → f.Reached frame pos h'

/-- Where a seek starts to go forward: at the first header from the guess on, or if that is for a later
sample, at the first header of the stream. -/
def Flac.Starts (f : Flac) (frame pos : ℕ) : Prop :=
  ∃ h, h.firstSample ≤ frame ∧ (f.NextHeader (f.guess frame) pos h ∨
    (∃ p h', f.NextHeader (f.guess frame) p h' ∧ frame < h'.firstSample) ∧ f.NextHeader f.first pos h)

/-- The guess lies in the stream's numbers, and the first frame that ends past the sample, from where the
seek starts, begins at or before it. -/
structure Flac.Orderly (f : Flac) (frame : ℕ) : Prop where
  guess : f.guess frame + 6 < 2 ^ 32
  begins : ∀ pos h, f.Starts frame pos → f.Reached frame pos h → h.Past frame → h.firstSample ≤ frame

theorem Flac.SameStream.reached {frame : ℕ} (hs : f.SameStream g) (hr : g.Reached frame pos h) :
    f.Reached frame pos h := by
  induction hr with
  | first hn => exact .first (hs.nextFrame hn)
  | next hn hpast _ ih =>
    refine .next (hs.nextFrame hn) hpast ?_
    rw [Fhdr.after, Fhdr.reader, hs.d] at ih
    exact ih

theorem Flac.SameStream.nextHeader (hs : f.SameStream g) (hn : g.NextHeader pos p h) :
    f.NextHeader pos p h := by
  induction hn with
  | here hin hh => exact .here (by rwa [Flac.InStream, ← hs.d]) (by rwa [← hs.frameHeader])
  | later hin hh _ ih => exact .later (by rwa [Flac.InStream, ← hs.d]) (by rwa [← hs.frameHeader]) ih

/-! ## One frame -/

/-- What holds between calls. -/
structure Flac.Ready (f : Flac) : Prop where
  short : f.d.length + 9 < 2 ^ 32
  first : f.first < f.d.length
  pos : f.pos ≤ f.d.length + 3
  bat : 0 ≤ f.bat ∧ f.bat ≤ f.blen
  blen : f.blen ≤ maxBlock
  channels : f.channels = 1 ∨ f.channels = 2

theorem frameHeader_isSome (h : pos + 6 ≤ f.d.length) (hpos : pos + 6 < 2 ^ 32) :
    (frameHeader f pos).isSome := by
  rw [frameHeader, Nat.mod_eq_of_lt hpos, if_neg (by omega), List.getElem?_eq_getElem (by omega),
    List.getElem?_eq_getElem (by omega), Option.bind_eq_bind, Option.bind_some]
  split
  · rfl
  · rw [Option.bind_some]
    split
    · rfl
    · rfl

theorem findHeader_runs (hpos : pos + 6 < 2 ^ 32) (hlen : f.d.length + 9 < 2 ^ 32) (hn : 0 < n)
    (hrounds : f.d.length < pos + n) :
    Runs (findHeader f n pos) fun x => pos ≤ x.1 ∧ x.1 ≤ max pos f.d.length ∧
      ∀ h, x.2 = some h → x.1 + 6 ≤ f.d.length ∧ f.NextHeader pos x.1 h := by
  induction n generalizing pos with
  | zero => exact absurd hn (lt_irrefl 0)
  | succ n ih =>
    rw [findHeader, Nat.mod_eq_of_lt hpos]
    refine Runs.ite (fun hin => ?_) fun hin => Runs.pure
      ⟨le_rfl, le_max_left _ _, fun _ h => absurd h.symm (Option.some_ne_none _)⟩
    have hins : f.InStream pos := by rwa [Flac.InStream, Nat.mod_eq_of_lt hpos]
    obtain ⟨o, ho⟩ := Option.isSome_iff_exists.mp (frameHeader_isSome hin hpos)
    refine Runs.bind_eq ho ?_
    cases o with
    | some h =>
      refine Runs.pure ⟨le_rfl, le_max_left _ _, fun h' hh' => ?_⟩
      obtain rfl := Option.some.inj hh'
      exact ⟨hin, .here hins ho⟩
    | none =>
      have hmod : (pos + 1) % 2 ^ 32 = pos + 1 := Nat.mod_eq_of_lt (by omega)
      dsimp only
      rw [hmod]
      refine (ih (by omega) (by omega) (by omega)).mono fun x hx => ⟨by omega, by omega, fun h' hh' => ?_⟩
      obtain ⟨h1, h2⟩ := hx.2.2 h' hh'
      exact ⟨h1, .later hins ho (by rwa [hmod])⟩

theorem frameLoop_runs (hpos : f.pos + 6 < 2 ^ 32) (hlen : f.d.length + 9 < 2 ^ 32) (hn : f.d.length < n)
    (hk : 0 < k) (hrounds : f.d.length < f.pos + k) :
    Runs (frameLoop n k f) fun x => f.pos ≤ x.2.pos ∧ x.2.pos ≤ max f.pos f.d.length ∧
      ∀ h b, x.1 = some (h, b) → x.2.pos + 6 ≤ f.d.length := by
  induction k generalizing f with
  | zero => exact absurd hk (lt_irrefl 0)
  | succ k ih =>
    rw [frameLoop]
    refine (findHeader_runs hpos hlen (by omega) (by omega)).bind ?_
    rintro ⟨pos, found⟩ hfind ⟨h1, h2, h3⟩
    cases found with
    | none => exact Runs.pure ⟨h1, h2, fun _ _ h => absurd h.symm (Option.some_ne_none _)⟩
    | some h =>
      obtain ⟨h4, h5⟩ := h3 h rfl
      dsimp only at h1 h2 h4 h5 ⊢
      have hh := ((findHeader_some hfind).1 h rfl).2
      obtain ⟨ok, b, M, -, hM, -, -, -⟩ := subframes_two hh f.bufs f.bufs
      refine Runs.bind_eq hM ?_
      cases ok with
      | true => exact Runs.pure ⟨h1, h2, fun _ _ _ => h4⟩
      | false =>
        have hmod : (pos + 1) % 2 ^ 32 = pos + 1 := Nat.mod_eq_of_lt (by omega)
        dsimp only
        rw [hmod]
        exact (ih (f := { f with pos := pos + 1, bufs := M }) (by dsimp only; omega) hlen hn (by omega)
          (by dsimp only; omega)).mono fun x hx => ⟨by have := hx.1; dsimp only at this; omega, by
            have := hx.2.1; dsimp only at this; omega, hx.2.2⟩

theorem align_pos (b : Br) : b.pos ≤ (align b).pos ∧ (align b).pos ≤ b.pos + 1 := by
  rw [align]
  split_ifs
  · exact ⟨Nat.le_succ _, le_rfl⟩
  · exact ⟨le_rfl, Nat.le_succ _⟩

/-- Behind a frame the decoder is further on, and at most three bytes behind the stream. -/
theorem after_bounds (hh : frameHeader f pos = some (some h)) (hin : pos + 6 ≤ f.d.length)
    (hlen : f.d.length + 9 < 2 ^ 32) (hr : Reads (h.reader f pos) (h.chReader (h.reader f pos) h.nch)) :
    pos < h.after f pos ∧ h.after f pos ≤ f.d.length + 3 := by
  have hmod : (pos + 6) % 2 ^ 32 = pos + 6 := Nat.mod_eq_of_lt (by omega)
  have hend := (frameHeader_some hh).2 (by rw [Flac.InStream, hmod]; exact hin) (by omega)
  have hstart : (h.reader f pos).pos = pos + h.hdrLen := Nat.mod_eq_of_lt (by omega)
  have hd : (h.reader f pos).d = f.d := rfl
  have hpos := hr.pos
  have hinside := hr.inside
  rw [hstart] at hpos hinside
  rw [hd] at hinside
  have hle := hinside hend
  have halign := align_pos (h.chReader (h.reader f pos) h.nch)
  rw [Fhdr.after, Nat.mod_eq_of_lt (by omega)]
  omega

/-- What `next_frame` does: it comes to the next frame, or finds none and changes nothing but its
buffers and its place. -/
inductive Flac.Stepped (f : Flac) : Option ℕ × Flac → Prop where
  | ended {pos : ℕ} {M : Bufs} : pos ≤ max f.pos f.d.length → f.Stepped (none, { f with pos, bufs := M })
  | frame {p : ℕ} {h : Fhdr} {M : Bufs} : f.NextFrame f.pos p h → 0 < h.block → h.block ≤ maxBlock →
      f.pos < h.after f p → h.after f p ≤ f.d.length + 3 →
      f.Stepped (some h.firstSample, { f with bufs := M, blen := h.block, bat := 0, pos := h.after f p })

theorem nextFrame_runs (hpos : f.pos ≤ f.d.length + 3) (hlen : f.d.length + 9 < 2 ^ 32)
    (hn : f.d.length < n) : Runs (nextFrame n f) f.Stepped := by
  rw [nextFrame]
  refine (frameLoop_runs (k := n) (by omega) hlen hn (by omega) (by omega)).bind ?_
  rintro ⟨found, g⟩ hg ⟨h1, h2, h3⟩
  obtain hnone | ⟨x, y, hx, hy, -, pos, M, M', hM, -, hsome⟩ := frameLoop_two n n f f.bufs f.bufs
  · exact absurd (hg.symm.trans hnone.1) (Option.some_ne_none _)
  obtain rfl : x = (found, g) := Option.some.inj (hx.symm.trans hg)
  dsimp only at hM h1 h2 h3
  subst hM
  cases found with
  | none => exact Runs.pure (.ended h2)
  | some q =>
    obtain ⟨h, b⟩ := q
    obtain ⟨hat, hnext, -, hr, rfl, -⟩ := hsome h b rfl
    obtain ⟨hpos0, hb⟩ := (frameHeader_some hat.1).1
    obtain ⟨N, hN, -⟩ := finishFrame_eq hb M
    have hafter := after_bounds hat.1 (h3 h _ rfl) hlen hr
    refine Runs.bind_eq hN (Runs.pure ?_)
    exact .frame hnext hpos0 hb (lt_of_le_of_lt h1 hafter.1) hafter.2

/-! ## Decoding -/

theorem pokeOut_some {max i : ℕ} {j : ℤ} (out : Pcm) (v : BitVec 32) (hj : j = i)
    (hi : i < max * f.channels) (hmax : max * f.channels ≤ 2 ^ 31) :
    ∃ out', pokeOut f max out j v = some out' := by
  have hbmod : (i : ℤ).bmod (2 ^ 32) = i := Int.bmod_eq_of_le (by omega) (by omega)
  rw [pokeOut, hj, hbmod, set_eq _ hi]
  exact ⟨_, rfl⟩

theorem handOne_some {max n i : ℕ} (out : Pcm) (hf : f.Ready) (hmax : max ≤ 2 ^ 30) (hn : n + i < max)
    (hi : f.bat + i < f.blen) : ∃ out', handOne f max n i out = some out' := by
  have hbat := hf.bat
  have hblen := hf.blen
  obtain ⟨j, hj⟩ : ∃ j : ℕ, f.bat + i = j := ⟨(f.bat + i).toNat, by omega⟩
  have hjm : j < maxBlock := by omega
  rw [handOne, hj, peek_eq _ hjm, peek_eq _ hjm]
  obtain h1 | h2 := hf.channels
  · rw [if_neg (by omega), Option.bind_eq_bind, Option.bind_some]
    exact pokeOut_some (i := n + i) out _ (Nat.cast_add n i).symm (by rw [h1]; omega) (by rw [h1]; omega)
  · rw [if_pos h2, Option.bind_eq_bind, Option.bind_some]
    obtain ⟨out1, hout1⟩ := @pokeOut_some f max ((n + i) * 2) ((n + i) * 2) out (f.bufs.left j)
      (by push_cast; rfl) (by rw [h2]; omega) (by rw [h2]; omega)
    rw [hout1, Option.bind_eq_bind, Option.bind_some, Option.bind_some]
    exact pokeOut_some (i := (n + i) * 2 + 1) out1 _ (by push_cast; rfl) (by rw [h2]; omega)
      (by rw [h2]; omega)

theorem handOut_runs {max n : ℕ} (out : Pcm) (hf : f.Ready) (hmax : max ≤ 2 ^ 30) (hn : n < max)
    (hbat : f.bat < f.blen) : Runs (upto (handOne f max n) (f.take max n).toNat out) fun _ => True := by
  refine Runs.upto _ trivial fun i out hi _ => ?_
  have htake : f.take max n ≤ max - n ∧ f.take max n ≤ f.blen - f.bat := by
    rw [Flac.take]
    split_ifs <;> omega
  obtain ⟨out', hout'⟩ := @handOne_some f max n i out hf hmax (by omega) (by omega)
  exact ⟨out', hout', trivial⟩

theorem Flac.Ready.handed {max : ℕ} (hf : f.Ready) (hn : n < max) (hbat : f.bat < f.blen) :
    Flac.Ready { f with bat := f.bat + f.take max n } ∧ 0 < f.take max n := by
  have h1 := hf.bat
  have h2 : 0 < f.take max n ∧ f.take max n ≤ f.blen - f.bat := by
    rw [Flac.take]
    split_ifs <;> omega
  exact ⟨⟨hf.short, hf.first, hf.pos, ⟨by dsimp only; omega, by dsimp only; omega⟩, hf.blen, hf.channels⟩, h2.1⟩

theorem Flac.Ready.frame (hf : f.Ready) (hb : h.block ≤ maxBlock) (hafter : pos ≤ f.d.length + 3) :
    Flac.Ready { f with bufs := M, blen := h.block, bat := 0, pos } :=
  ⟨hf.short, hf.first, hafter, ⟨le_rfl, Int.natCast_nonneg _⟩, Int.ofNat_le.mpr hb, hf.channels⟩

theorem decodeLoop_runs {max rounds : ℕ} (out : Pcm) (hf : f.Ready) (hmax : max ≤ 2 ^ 30)
    (hr : f.d.length < rounds) (hk : max + f.d.length + 4 < n + f.pos + k) (hk0 : 0 < k) :
    Runs (decodeLoop rounds max k f out n) fun x => x.2.2.Ready ∧ x.2.2.d = f.d := by
  -- a round hands samples out, or goes to a later frame
  induction k generalizing f out n with
  | zero => exact absurd hk0 (lt_irrefl 0)
  | succ k ih =>
    have hpos := hf.pos
    have hand : ∀ g : Flac, g.Ready → g.d = f.d → f.pos ≤ g.pos → g.bat < g.blen → n < max → Runs (do
        let out ← upto (handOne g max n) (g.take max n).toNat out
        decodeLoop rounds max k { g with bat := g.bat + g.take max n } out (n + (g.take max n).toNat))
          fun x => x.2.2.Ready ∧ x.2.2.d = f.d := by
      intro g hg hd hle hbat hn
      obtain ⟨hg', htake⟩ := hg.handed hn hbat
      refine (handOut_runs out hg hmax hn hbat).bind fun out' _ _ => ?_
      rw [← hd]
      refine ih out' hg' ?_ ?_ ?_
      · rw [hd]
        exact hr
      · dsimp only
        rw [hd]
        omega
      · omega
    rw [decodeLoop]
    refine Runs.ite (fun _ => Runs.pure ⟨hf, rfl⟩) fun hn => ?_
    refine Runs.ite (fun hbat => hand f hf rfl le_rfl hbat (by omega)) fun _ => ?_
    refine (nextFrame_runs hpos hf.short hr).bind ?_
    rintro _ - (⟨hend⟩ | ⟨-, hblock, hb, hlt, hafter⟩)
    · exact Runs.pure ⟨⟨hf.short, hf.first, by dsimp only; omega, hf.bat, hf.blen, hf.channels⟩, rfl⟩
    · refine Runs.ite (fun hskip => ?_) fun _ => ?_
      · refine ih out ⟨hf.short, hf.first, hafter, ?_, Int.ofNat_le.mpr hb, hf.channels⟩ hr ?_ ?_
        · dsimp only
          split_ifs <;> omega
        · dsimp only
          omega
        · omega
      · exact hand _ (hf.frame hb hafter) rfl hlt.le (Int.ofNat_lt.mpr hblock) (by omega)

/-! ## Seeking -/

theorem walk_runs {rounds frame : ℕ} (hf : f.Ready) (hr : f.d.length < rounds)
    (hk : f.d.length + 4 < f.pos + k) (hk0 : 0 < k)
    (hbegins : ∀ h, f.Reached frame f.pos h → h.Past frame → h.firstSample ≤ frame) :
    Runs (walk rounds frame k f) fun g => g.Ready ∧ g.d = f.d := by
  -- what is reached from the next frame on is reached from here
  induction k generalizing f with
  | zero => exact absurd hk0 (lt_irrefl 0)
  | succ k ih =>
    have hpos := hf.pos
    rw [walk]
    refine (nextFrame_runs hpos hf.short hr).bind ?_
    rintro _ - (⟨hend⟩ | ⟨hnext, hblock, hb, hlt, hafter⟩)
    · exact Runs.pure ⟨⟨hf.short, hf.first, hpos, hf.bat, hf.blen, hf.channels⟩, rfl⟩
    next p h M =>
      have hs : f.SameStream { f with bufs := M, blen := h.block, bat := 0, pos := h.after f p } :=
        ⟨rfl, rfl, rfl⟩
      refine Runs.ite (fun hpast => ?_) fun hpast => ?_
      · have hle := hbegins h (.first hnext) hpast
        have hmod := Nat.mod_le (h.firstSample + h.block) (2 ^ 64)
        have hlt64 : frame < (h.firstSample + h.block) % 2 ^ 64 := hpast
        have hmax : h.block ≤ 65536 := hb
        have hbat : ((frame : ℤ) - h.firstSample).bmod (2 ^ 32) = frame - h.firstSample :=
          Int.bmod_eq_of_le (by omega) (by omega)
        refine Runs.pure ⟨⟨hf.short, hf.first, hafter, ?_, Int.ofNat_le.mpr hb, hf.channels⟩, rfl⟩
        dsimp only
        rw [hbat]
        omega
      · refine (ih (hf.frame hb hafter) hr ?_ ?_ fun h' hreach => ?_).mono fun g hg => hg
        · dsimp only
          omega
        · omega
        · exact hbegins h' (.next hnext hpast (hs.reached hreach))

theorem seekLoop_runs {rounds frame tries guess : ℕ} {Q : Flac → Prop} (hlen : f.d.length + 9 < 2 ^ 32)
    (hguess : guess + 6 < 2 ^ 32) (hr : f.d.length < rounds) (hskip : Q (f.skipTo frame))
    (hwalk : ∀ pos h, pos + 6 ≤ f.d.length → f.NextHeader guess pos h → h.firstSample ≤ frame →
      Runs (walk rounds frame rounds { f with pos }) Q)
    (hmore : (∃ p h, f.NextHeader guess p h ∧ frame < h.firstSample) →
      Runs (seekLoop rounds frame tries f.first f) Q) :
    Runs (seekLoop rounds frame (tries + 1) guess f) Q := by
  rw [seekLoop]
  refine (findHeader_runs hguess hlen (by omega) (by omega)).bind ?_
  rintro ⟨pos, found⟩ - ⟨-, -, h1⟩
  cases found with
  | none => exact Runs.pure hskip
  | some h =>
    obtain ⟨hin, hnext⟩ := h1 h rfl
    exact Runs.ite (fun hle => hwalk pos h hin hnext hle) fun hlt => hmore ⟨pos, h, hnext, by omega⟩

theorem Flac.Ready.at (hf : f.Ready) (hpos : pos ≤ f.d.length + 3) : Flac.Ready { f with pos } :=
  ⟨hf.short, hf.first, hpos, hf.bat, hf.blen, hf.channels⟩

theorem Flac.Ready.skipTo (hf : f.Ready) (frame : ℕ) : (f.skipTo frame).Ready :=
  ⟨hf.short, hf.first, Nat.le_add_right_of_le hf.first.le, hf.bat, hf.blen, hf.channels⟩

theorem Flac.Ready.reset (hf : f.Ready) : Flac.Ready { f with blen := 0, bat := 0, skip := 0 } :=
  ⟨hf.short, hf.first, hf.pos, ⟨le_rfl, le_rfl⟩, Int.natCast_nonneg maxBlock, hf.channels⟩

theorem flacSeek_runs {rounds frame : ℕ} (hf : f.Ready) (hr : f.d.length + 8 < rounds)
    (horder : f.Orderly frame) : Runs (flacSeek rounds f frame) fun g => g.Ready ∧ g.d = f.d := by
  obtain ⟨g, hg, hs, hfirst⟩ : ∃ g : Flac, g = { f with blen := 0, bat := 0, skip := 0 } ∧ f.SameStream g ∧
      g.first = f.first := ⟨_, rfl, ⟨rfl, rfl, rfl⟩, rfl⟩
  have hready : g.Ready := by
    rw [hg]
    exact hf.reset
  have hlt := hready.first
  have hshort := hready.short
  rw [← hs.d] at hr
  have hskip : (g.skipTo frame).Ready ∧ (g.skipTo frame).d = f.d := ⟨hready.skipTo frame, hs.d⟩
  have hwalk : ∀ pos, pos + 6 ≤ g.d.length → f.Starts frame pos →
      Runs (walk rounds frame rounds { g with pos }) fun x => x.Ready ∧ x.d = f.d := by
    intro pos hin hstart
    have hsp : f.SameStream { g with pos } := ⟨hs.d, hs.sr, hs.bps⟩
    have hgp : Flac.Ready { g with pos } := hready.at (by omega)
    refine (walk_runs hgp (by dsimp only; omega) (by dsimp only; omega) (by omega) ?_).mono fun x hx => ?_
    · exact fun h hreach hpast => horder.begins pos h hstart (hsp.reached hreach) hpast
    · exact ⟨hx.1, hx.2.trans hs.d⟩
  rw [flacSeek, ← hg]
  refine seekLoop_runs hshort horder.guess (by omega) hskip (fun pos h hin hn hle => ?_) fun hover => ?_
  · exact hwalk pos hin ⟨h, hle, .inl (hs.nextHeader hn)⟩
  · obtain ⟨p, h', hn', hgt⟩ := hover
    refine seekLoop_runs hshort (by omega) (by omega) hskip (fun pos h hin hn hle => ?_) fun _ => Runs.pure hskip
    rw [hfirst] at hn
    exact hwalk pos hin ⟨h, hle, .inr ⟨⟨p, h', hs.nextHeader hn', hgt⟩, hs.nextHeader hn⟩⟩

/-! ## Whole runs -/

theorem open_ready {d : List UInt8} {bufs : Bufs} {rounds : ℕ} (hlen : d.length + 9 < 2 ^ 32)
    (ho : flacOpen rounds d bufs = some (some f)) : f.Ready ∧ f.d = d := by
  rw [flacOpen] at ho
  split at ho
  · exact absurd ho nofun
  obtain ⟨o, -, ho⟩ := Option.bind_eq_some_iff.mp ho
  cases o with
  | none => exact absurd ho nofun
  | some x =>
    obtain ⟨p, info⟩ := x
    dsimp only at ho
    split at ho
    · exact absurd ho nofun
    next hp =>
      obtain rfl := Option.some.inj (Option.some.inj ho)
      have hlt : p < d.length := by omega
      refine ⟨⟨hlen, hlt, Nat.le_add_right_of_le hlt.le, ⟨le_rfl, le_rfl⟩, Int.natCast_nonneg maxBlock, ?_⟩, rfl⟩
      dsimp only
      split_ifs
      · exact .inr rfl
      · exact .inl rfl

/-- The states of the decoder of a stream, over any sequence of calls: a buffer for at most `2 ^ 30`
samples of each channel is given to `flac_decode`, and a seek meets `Flac.Orderly`. -/
inductive Flac.Run (d : List UInt8) : Flac → Prop where
  | opened {rounds : ℕ} {bufs : Bufs} {f : Flac} : flacOpen rounds d bufs = some (some f) → Flac.Run d f
  | decode {rounds max n : ℕ} {out out' : Pcm} {f f' : Flac} : Flac.Run d f → max ≤ 2 ^ 30 →
      max + d.length + 9 ≤ rounds → flacDecode rounds f out max = some (n, out', f') → Flac.Run d f'
  | seek {rounds frame : ℕ} {f f' : Flac} : Flac.Run d f → f.Orderly frame → d.length + 9 ≤ rounds →
      flacSeek rounds f frame = some f' → Flac.Run d f'

theorem flacDecode_runs {max rounds : ℕ} (out : Pcm) (hf : f.Ready) (hmax : max ≤ 2 ^ 30)
    (hr : max + f.d.length + 9 ≤ rounds) :
    Runs (flacDecode rounds f out max) fun x => x.2.2.Ready ∧ x.2.2.d = f.d :=
  decodeLoop_runs out hf hmax (by omega) (by omega) (by omega)

theorem Flac.Run.ready {d : List UInt8} (hlen : d.length + 9 < 2 ^ 32) (hrun : Flac.Run d f) :
    f.Ready ∧ f.d = d := by
  induction hrun with
  | opened ho => exact open_ready hlen ho
  | decode _ hmax hr hd ih =>
    obtain ⟨hf, rfl⟩ := ih
    exact (flacDecode_runs _ hf hmax hr).of_eq_some hd
  | seek _ horder hr hd ih =>
    obtain ⟨hf, rfl⟩ := ih
    exact (flacSeek_runs hf (by omega) horder).of_eq_some hd

/-- Over every run the position stays in the block and the block in its buffers, and the next call ends,
with every access inside. -/
theorem flac_inside {d : List UInt8} (hlen : d.length + 9 < 2 ^ 32) (hrun : Flac.Run d f) :
    0 ≤ f.bat ∧ f.bat ≤ f.blen ∧ f.blen ≤ maxBlock ∧
      (∀ rounds max out, max ≤ 2 ^ 30 → max + d.length + 9 ≤ rounds → (flacDecode rounds f out max).isSome) ∧
      ∀ rounds frame, f.Orderly frame → d.length + 9 ≤ rounds → (flacSeek rounds f frame).isSome := by
  obtain ⟨hf, rfl⟩ := hrun.ready hlen
  refine ⟨hf.bat.1, hf.bat.2, hf.blen, fun rounds max out hmax hr => ?_, fun rounds frame horder hr => ?_⟩
  · exact (flacDecode_runs out hf hmax hr).isSome
  · exact (flacSeek_runs hf (by omega) horder).isSome

/-- A stream with two frames of one sample: the sample 0, and the sample 9. -/
def gapStream : List UInt8 :=
  [102, 76, 97, 67, 128, 0, 0, 34, 0, 16, 0, 16, 0, 0, 0, 0, 0, 0, 1, 244, 0, 112, 0, 0, 0, 0, 0, 0, 0, 0, 0, 0,
    0, 0, 0, 0, 0, 0, 0, 0, 0, 0, 255, 249, 96, 0, 0, 0, 136, 0, 5, 0, 0, 255, 249, 96, 0, 9, 0, 53, 0, 7, 0, 0]

theorem opened_gapStream (bufs : Bufs) : ∃ f, flacOpen 80 gapStream bufs = some (some f) := ⟨_, rfl⟩

theorem flac_inside_gapStream :
    ∃ f n out f', flacOpen 80 gapStream ⟨fun _ => 0, fun _ => 0, fun _ => 0⟩ = some (some f) ∧
      flacDecode 80 f (fun _ => 0) 1 = some (n, out, f') ∧ 0 ≤ f'.bat ∧ f'.bat ≤ f'.blen ∧
        (flacDecode 80 f' out 1).isSome := by
  have hlen : gapStream.length + 9 < 2 ^ 32 := by decide
  have hrounds : 1 + gapStream.length + 9 ≤ 80 := by decide
  obtain ⟨f, hf⟩ := opened_gapStream ⟨fun _ => 0, fun _ => 0, fun _ => 0⟩
  obtain ⟨⟨n, out, f'⟩, hd⟩ := Option.isSome_iff_exists.mp
    ((flac_inside hlen (.opened hf)).2.2.2.1 80 1 (fun _ => 0) (by decide) hrounds)
  have hinside := flac_inside hlen (.decode (.opened hf) (by decide) hrounds hd)
  exact ⟨f, n, out, f', hf, hd, hinside.1, hinside.2.1, hinside.2.2.2.1 80 1 out (by decide) hrounds⟩

/-- A seek to the sample 5 stops at the frame for sample 9, four samples before its block. -/
theorem gapStream_before :
    ¬ ∀ (d : List UInt8) (bufs : Bufs) (rounds frame : ℕ) (f f' : Flac), flacOpen rounds d bufs = some (some f) →
      flacSeek rounds f frame = some f' → 0 ≤ f'.bat ∧ f'.bat ≤ f'.blen := by
  intro hall
  have hseek : ((flacOpen 80 gapStream ⟨fun _ => 0, fun _ => 0, fun _ => 0⟩).join.bind fun f =>
      (flacSeek 80 f 5).map Flac.bat) = some (-4) := by decide +kernel
  obtain ⟨f, hf⟩ := opened_gapStream ⟨fun _ => 0, fun _ => 0, fun _ => 0⟩
  rw [hf, Option.join_some, Option.bind_some] at hseek
  obtain ⟨f', hf', hbat⟩ := Option.map_eq_some_iff.mp hseek
  have := (hall _ _ _ _ _ _ hf hf').1
  omega

end BananaOS.Media
