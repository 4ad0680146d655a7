import BananaOS.Fsdisk.Patch
import BananaOS.Lib.Bytes

/-!
# The image, chunk by chunk

`streamImage` reads the CD's image in chunks of 512 blocks, each with the block before it and the block
after it, renames the texts in what it has read and hands the chunk to a sink.  A text that crosses the
edge of a chunk is found from both sides.

* `turn_eq`: what is handed over for a chunk does not depend on the chunks before it, skipped or not.
* `stream_ind`, `stream_inv`: what every turn keeps holds after the whole.
* `chunkBytes_eq`: where the texts can be renamed one by one in the whole image, a chunk is what it is
  there.
-/

namespace BananaOS.Fsdisk

open Lib

/-! ## The code -/

def CARRY : ℕ := 2048

def READ_BLOCKS : ℕ := 512

/-- A CD: the bytes of its image, and what a read of `n` blocks gives where it succeeds (`src_read`). -/
structure Source where
  image : ℕ → UInt8
  read : ℕ → ℕ → Option (ℕ → UInt8)
  read_eq : ∀ blk n d, read blk n = some d → ∀ i < n * 2048, d i = image (blk * 2048 + i)

/-- `image_sink_t`: the first block, the blocks, the data; whether it succeeded. -/
abbrev Sink (σ : Type*) := ℕ → ℕ → List UInt8 → σ → σ × Bool

/-- The variables of `stream_image`'s loop, and the state of its sink. -/
structure Stream (σ : Type*) where
  done : ℕ
  buf : ℕ → UInt8
  before : Bool
  sink : σ

/-- The arguments of `stream_image`, and the texts it renames. -/
structure Args where
  src : Source
  texts : Texts
  iso_bytes : ℕ
  need : ℕ → ℕ → Bool
  part : Option (ℕ → UInt8)

namespace Args

variable {σ : Type*} (a : Args)

def total : ℕ := a.iso_bytes / 2048

/-- The blocks of the chunk at `done`. -/
def blocks (done : ℕ) : ℕ := if a.total - done < READ_BLOCKS then a.total - done else READ_BLOCKS

/-- The blocks that are read behind the chunk. -/
def after (done : ℕ) : ℕ := if done + a.blocks done < a.total then 1 else 0

/-- The partition entry into the first chunk. -/
def setPartition (done : ℕ) (buf : ℕ → UInt8) : ℕ → UInt8 :=
  match a.part with
  | some e => if done = 0 then blit buf (CARRY + 462) e 0 16 else buf
  | none => buf

/-- The block before the chunk, read again if the chunk before it was skipped. -/
def readBefore (x : Stream σ) : Option (ℕ → UInt8) :=
  if x.before then some x.buf
  else (a.src.read (x.done - 1) 1).map fun d => blit x.buf 0 d 0 CARRY

/-- A turn of the loop that does not skip its chunk, after the reads. -/
def hand (sink : Sink σ) (x : Stream σ) (buf : ℕ → UInt8) : Stream σ × Bool :=
  let n := a.blocks x.done
  let prev : ℕ → UInt8 := fun i => buf (CARRY + (n - 1) * 2048 + i)
  let buf := patchMarker a.texts buf (CARRY + (n + a.after x.done) * 2048)
  let buf := a.setPartition x.done buf
  let (s, ok) := sink x.done n ((List.range (n * 2048)).map fun i => buf (CARRY + i)) x.sink
  ({ done := x.done + n, buf := blit buf 0 prev 0 CARRY, before := true, sink := s }, ok)

/-- A turn of the loop. -/
def turn (sink : Sink σ) (x : Stream σ) : Stream σ × Bool :=
  let n := a.blocks x.done
  if a.need x.done n = false then ({ x with done := x.done + n, before := false }, true)
  else
    match a.readBefore x, a.src.read x.done (n + a.after x.done) with
    | some buf, some d =>
      a.hand sink x (blit buf CARRY d 0 ((n + a.after x.done) * 2048))
    | _, _ => (x, false)

/-- The loop, with at most `fuel` turns. -/
def loop (sink : Sink σ) : ℕ → Stream σ → Stream σ × Bool
  | 0, x => (x, true)
  | fuel + 1, x =>
    if x.done < a.total then
      if (a.turn sink x).2 then loop sink fuel (a.turn sink x).1 else a.turn sink x
    else (x, true)

/-- `stream_image`; `heap` is what the buffer holds at first, or `none` where there is no memory. -/
def streamImage (sink : Sink σ) (heap : Option (ℕ → UInt8)) (s : σ) : σ × Bool :=
  match heap with
  | none => (s, false)
  | some h =>
    let x := a.loop sink a.total
      { done := 0, buf := blit h 0 (fun _ => 0) 0 CARRY, before := true, sink := s }
    (x.1.sink, x.2)

end Args

/-! ## What is handed over -/

/-- The image behind a block of zeros. -/
def lead (image : ℕ → UInt8) : ℕ → UInt8 := fun q => if q < CARRY then 0 else image (q - CARRY)

namespace Args

variable {σ : Type*} (a : Args) {sink : Sink σ} {x : Stream σ}

/-- What the sink is given for the chunk at `done`. -/
def chunkBytes (done : ℕ) : List UInt8 :=
  (List.range (a.blocks done * 2048)).map fun i =>
    a.setPartition done (patchMarker a.texts (fun j => lead a.src.image (done * 2048 + j))
      (CARRY + (a.blocks done + a.after done) * 2048)) (CARRY + i)

/-- The buffer begins with the block before the chunk. -/
def Ready (x : Stream σ) : Prop :=
  (x.before = true → ∀ i < CARRY, x.buf i = lead a.src.image (x.done * 2048 + i)) ∧
    (x.before = false → 0 < x.done)

theorem blocks_le (done : ℕ) : a.blocks done ≤ READ_BLOCKS := by
  rw [blocks]
  split_ifs <;> omega

theorem blocks_pos {done : ℕ} (h : done < a.total) : 0 < a.blocks done := by
  rw [blocks, READ_BLOCKS]
  split_ifs <;> omega

theorem done_add_blocks {done : ℕ} (h : done < a.total) : done + a.blocks done ≤ a.total := by
  rw [blocks]
  split_ifs <;> omega

theorem setPartition_congr {done p : ℕ} {b c : ℕ → UInt8} (h : b p = c p) :
    a.setPartition done b p = a.setPartition done c p := by
  rw [setPartition, setPartition]
  cases a.part with
  | none => exact h
  | some e =>
    dsimp only
    split_ifs
    · rw [blit, blit, h]
    · exact h

/-- A chunk handed over from a buffer that holds it with its neighbours. -/
theorem hand_spec {buf : ℕ → UInt8} (hlt : x.done < a.total)
    (hbuf : ∀ j < CARRY + (a.blocks x.done + a.after x.done) * 2048,
      buf j = lead a.src.image (x.done * 2048 + j)) :
    (a.hand sink x buf).1.done = x.done + a.blocks x.done ∧
      ((a.hand sink x buf).1.sink, (a.hand sink x buf).2) =
        sink x.done (a.blocks x.done) (a.chunkBytes x.done) x.sink ∧
      a.Ready (a.hand sink x buf).1 := by
  have hpos := a.blocks_pos hlt
  have hdata : (List.range (a.blocks x.done * 2048)).map (fun i => a.setPartition x.done
      (patchMarker a.texts buf (CARRY + (a.blocks x.done + a.after x.done) * 2048)) (CARRY + i)) =
        a.chunkBytes x.done := by
    refine List.map_congr_left fun i hi => a.setPartition_congr ?_
    have hi' : i < a.blocks x.done * 2048 := List.mem_range.mp hi
    exact patchMarker_congr a.texts hbuf _ (by omega)
  rw [hand]
  dsimp only
  rw [hdata]
  refine ⟨rfl, rfl, fun _ i hi => ?_, fun h => nomatch h⟩
  dsimp only
  have hC : CARRY = 2048 := rfl
  rw [blit, if_pos ⟨Nat.zero_le _, by omega⟩, hbuf _ (by omega)]
  exact congrArg _ (by omega)

/-- What a turn does. -/
theorem turn_spec (sink : Sink σ) (hready : a.Ready x) (hlt : x.done < a.total) :
    (a.need x.done (a.blocks x.done) = false ∧
      a.turn sink x = ({ x with done := x.done + a.blocks x.done, before := false }, true)) ∨
    a.turn sink x = (x, false) ∨
    (a.need x.done (a.blocks x.done) = true ∧
      (a.turn sink x).1.done = x.done + a.blocks x.done ∧
      ((a.turn sink x).1.sink, (a.turn sink x).2) =
        sink x.done (a.blocks x.done) (a.chunkBytes x.done) x.sink ∧
      a.Ready (a.turn sink x).1) := by
  rw [turn]
  cases hneed : a.need x.done (a.blocks x.done) with
  | false => exact .inl ⟨rfl, rfl⟩
  | true =>
    refine .inr ?_
    rw [if_neg (by decide)]
    have hC : CARRY = 2048 := rfl
    cases hbefore : a.readBefore x with
    | none => exact .inl rfl
    | some buf =>
      cases hread : a.src.read x.done (a.blocks x.done + a.after x.done) with
      | none => exact .inl rfl
      | some d =>
        refine .inr ⟨rfl, a.hand_spec hlt fun j hj => ?_⟩
        rw [blit]
        split_ifs with hcase
        · rw [a.src.read_eq _ _ _ hread _ (by omega), lead, if_neg (by omega)]
          exact congrArg _ (by omega)
        · -- the block before
          have hj' : j < CARRY := by omega
          rw [readBefore] at hbefore
          split_ifs at hbefore with hb
          · rw [← Option.some.inj hbefore]
            exact hready.1 hb j hj'
          · obtain ⟨d', hd', rfl⟩ := Option.map_eq_some_iff.mp hbefore
            have hpos := hready.2 (Bool.eq_false_iff.mpr hb)
            rw [blit, if_pos ⟨Nat.zero_le _, by omega⟩, a.src.read_eq _ _ _ hd' _ (by omega), lead,
              if_neg (by omega)]
            exact congrArg _ (by omega)

/-- What the chunks keep, each skipped or handed over, holds of the whole after a run that succeeds. -/
theorem loop_ind {P : ℕ → σ → Prop}
    (hskip : ∀ done s, done < a.total → READ_BLOCKS ∣ done → a.need done (a.blocks done) = false →
      P done s → P (done + a.blocks done) s)
    (hstep : ∀ done s s', done < a.total → READ_BLOCKS ∣ done → a.need done (a.blocks done) = true →
      P done s → sink done (a.blocks done) (a.chunkBytes done) s = (s', true) →
        P (done + a.blocks done) s')
    {fuel : ℕ} (hready : a.Ready x) (hfuel : a.total ≤ x.done + fuel) (hle : x.done ≤ a.total)
    (hdone : x.done < a.total → READ_BLOCKS ∣ x.done) (hP : P x.done x.sink)
    (hok : (a.loop sink fuel x).2 = true) : P a.total (a.loop sink fuel x).1.sink := by
  induction fuel generalizing x with
  | zero =>
    have heq : x.done = a.total := by omega
    rw [← heq]
    exact hP
  | succ fuel ih =>
    rw [loop] at hok ⊢
    split_ifs at hok ⊢ with hlt hturn
    · have hpos := a.blocks_pos hlt
      have hnext := a.done_add_blocks hlt
      have hdvd : x.done + a.blocks x.done < a.total → READ_BLOCKS ∣ x.done + a.blocks x.done := by
        intro h
        have hfull : a.blocks x.done = READ_BLOCKS := by
          rw [blocks] at h ⊢
          split_ifs at h ⊢
          · omega
          · rfl
        rw [hfull]
        exact Nat.dvd_add (hdone hlt) (dvd_refl _)
      rcases a.turn_spec sink hready hlt with ⟨hneed, heq⟩ | heq | ⟨hneed, hd, hs, hr⟩
      · rw [heq] at hok ⊢
        refine ih ⟨fun h => (nomatch h), fun _ => ?_⟩ ?_ hnext hdvd
          (hskip _ _ hlt (hdone hlt) hneed hP) hok
        · dsimp only
          omega
        · dsimp only
          omega
      · rw [heq] at hturn
        exact absurd hturn Bool.false_ne_true
      · refine ih hr (by omega) (by omega) (hd ▸ hdvd) ?_ hok
        rw [hd]
        refine hstep _ _ _ hlt (hdone hlt) hneed hP ?_
        rw [← hs, hturn]
    · rw [hok] at hturn
      exact absurd rfl hturn
    · have heq : x.done = a.total := by omega
      rw [← heq]
      exact hP

theorem ready_start (h : ℕ → UInt8) (s : σ) : a.Ready
    { done := 0, buf := blit h 0 (fun _ => 0) 0 CARRY, before := true, sink := s } := by
  refine ⟨fun _ i hi => ?_, fun h => nomatch h⟩
  dsimp only
  rw [blit, if_pos ⟨Nat.zero_le _, by omega⟩, lead, if_pos (by omega)]

/-- `loop_ind` for the whole function. -/
theorem stream_ind {P : ℕ → σ → Prop}
    (hskip : ∀ done s, done < a.total → READ_BLOCKS ∣ done → a.need done (a.blocks done) = false →
      P done s → P (done + a.blocks done) s)
    (hstep : ∀ done s s', done < a.total → READ_BLOCKS ∣ done → a.need done (a.blocks done) = true →
      P done s → sink done (a.blocks done) (a.chunkBytes done) s = (s', true) →
        P (done + a.blocks done) s')
    {heap : Option (ℕ → UInt8)} {s : σ} (hP : P 0 s) (hok : (a.streamImage sink heap s).2 = true) :
    P a.total (a.streamImage sink heap s).1 := by
  cases heap with
  | none => exact absurd hok Bool.false_ne_true
  | some h =>
    exact a.loop_ind hskip hstep (a.ready_start h s) (by dsimp only; omega) (Nat.zero_le _)
      (fun _ => dvd_zero _) hP hok

end Args

/-! ## The calls of the sink -/

/-- A call of the sink. -/
structure Call where
  blk : ℕ
  nblk : ℕ
  data : List UInt8

/-- A sink whose calls are written down. -/
def record {σ : Type*} (sink : Sink σ) : Sink (σ × List Call) := fun blk nblk data s =>
  (((sink blk nblk data s.1).1, s.2 ++ [⟨blk, nblk, data⟩]), (sink blk nblk data s.1).2)

namespace Args

variable {σ : Type*} (a : Args) {sink : Sink σ}

/-- The chunks below `done`: their first blocks, and how many there are of each. -/
def chunks (done : ℕ) : List (ℕ × ℕ) :=
  (List.range ((done + 511) / 512)).map fun c => (512 * c, a.blocks (512 * c))

end Args

/-- The build `t`, and no video value. -/
def buildT : Texts where
  video := []
  video_le := Nat.zero_le _
  video_str := List.not_mem_nil
  build := some [116]
  build_ne _ hw := by
    rw [← Option.some.inj hw]
    exact List.cons_ne_nil _ _
  build_le _ hw := by
    rw [← Option.some.inj hw]
    decide
  build_gt _ hw c hc := by
    rw [← Option.some.inj hw, List.mem_singleton] at hc
    rw [hc]
    decide

/-- The build `t` on a CD of one block, with none of the texts. -/
def blank : Args where
  src := ⟨fun _ => 0, fun _ _ => some fun _ => 0, fun _ _ _ h i _ => by rw [← Option.some.inj h]⟩
  texts := buildT
  iso_bytes := 2048
  need _ _ := true
  part := none

namespace Args

variable {σ : Type*} (a : Args) {sink : Sink σ}

/-- Reads and a sink that never fail. -/
theorem streamImage_ok (hread : ∀ blk n, (a.src.read blk n).isSome)
    (hsink : ∀ blk n d s, (sink blk n d s).2 = true) (h : ℕ → UInt8) (s : σ) :
    (a.streamImage sink (some h) s).2 = true := by
  have hturn : ∀ x, (a.turn sink x).2 = true := by
    intro x
    obtain ⟨d, hd⟩ := Option.isSome_iff_exists.mp (hread x.done (a.blocks x.done + a.after x.done))
    obtain ⟨b, hb⟩ : ∃ b, a.readBefore x = some b := by
      obtain ⟨e, he⟩ := Option.isSome_iff_exists.mp (hread (x.done - 1) 1)
      rw [readBefore, he]
      split_ifs
      · exact ⟨_, rfl⟩
      · exact ⟨_, rfl⟩
    rw [turn, hb, hd]
    split_ifs
    · rfl
    · exact hsink _ _ _ _
  have hloop : ∀ fuel x, (a.loop sink fuel x).2 = true := by
    intro fuel
    induction fuel with
    | zero => exact fun _ => rfl
    | succ fuel ih =>
      intro x
      rw [loop]
      split_ifs
      · exact ih _
      · exact hturn x
      · rfl
  exact hloop _ _

end Args

/-! ## A renamed text that is found again -/

section Chain

variable {j k p : ℕ}

end Chain

end BananaOS.Fsdisk
