import BananaOS.Lib.Spread
import BananaOS.Tcp.Window

/-!
# The scoreboard

The ranges `sb_s[i]`, `sb_e[i]` say what the peer reported to have.  Measured from `snd_una` all of
them lie in the window, where the comparisons of sequence numbers are those of distances, so that
`sb_add`, `sb_trim` and `sb_hole` are the insertion, the trimming and the first gap of a list of spread
ranges (`offsets_insertRange`, `offsets_trim`, `offsets_holeIn`).

That a block stays in the window is what the clipping in `sb_add` is for, and it is not enough for the
wildest blocks.  A block that ends before `snd_una` by about half the number space is taken to end
before `snd_max` and to begin before its own end; and one that begins and ends there passes for one that
goes round all of the window, though it may be empty.  `Clear` leaves these out and no others.
-/

namespace BananaOS.Tcp

open Lib Lib.Serial

/-- The sequence number is one of the block's. -/
def Within (r : Serial × Serial) (x : Serial) : Prop := dist r.1 x < dist r.1 r.2

/-- Ranges, measured from `b`. -/
def offsets (b : Serial) (l : List (Serial × Serial)) : List (ℕ × ℕ) :=
  l.map fun r => (dist b r.1, dist b r.2)

@[simp] theorem offsets_length (b : Serial) (l : List (Serial × Serial)) :
    (offsets b l).length = l.length := List.length_map ..

namespace Conn

/-- What the board is to be when the peer reported the blocks of `reported`. -/
structure Board (c : Conn) (reported : List (Serial × Serial)) : Prop where
  short : c.sb.length ≤ sbMax
  /-- sorted, apart from each other, and not empty -/
  spread : Spread (offsets c.sndUna c.sb)
  inside : ∀ r ∈ c.sb, dist c.sndUna r.2 ≤ dist c.sndUna c.sndMax
  told : ∀ r ∈ c.sb, ∀ x, Within r x → ∃ b ∈ reported, Within b x

/-- The block `[s, e)` is one that `sb_add` understands. -/
structure Clear (c : Conn) (s e : Serial) : Prop where
  /-- if the end is out of the window and not clipped, the block is dropped -/
  stop : lt e c.sndUna → le e c.sndMax → ¬ lt (if lt s c.sndUna then c.sndUna else s) e
  /-- if both ends are clipped, `snd_una` is in the block -/
  start : lt s c.sndUna → gt e c.sndMax → dist s c.sndUna < dist s e

variable {c : Conn}

/-! ## The board, measured from `snd_una` -/

section offsets

variable {b : Serial} {n : ℕ} (hn : n < 2 ^ 31)
include hn

/-- The ranges are within `n` of `b`. -/
theorem offsets_absorb {l : List (Serial × Serial)}
    (hl : ∀ r ∈ l, dist b r.1 ≤ n ∧ dist b r.2 ≤ n) {s e : Serial} (hs : dist b s ≤ n)
    (he : dist b e ≤ n) :
    Lib.absorb (dist b s) (dist b e) (offsets b l) =
      (dist b (absorb s e l).1, dist b (absorb s e l).2.1, offsets b (absorb s e l).2.2) := by
  induction l generalizing s e with
  | nil => rfl
  | cons r rest ih =>
    obtain ⟨h1, h2⟩ := hl r List.mem_cons_self
    have hle : le r.1 e ↔ dist b r.1 ≤ dist b e := le_near (by omega) (by omega)
    have hlt : lt r.1 s ↔ dist b r.1 < dist b s := lt_near (by omega) (by omega)
    have hgt : gt r.2 e ↔ dist b e < dist b r.2 := gt_near (by omega) (by omega)
    have hs' : dist b (if lt r.1 s then r.1 else s) =
        if dist b r.1 < dist b s then dist b r.1 else dist b s := by
      simp only [hlt, apply_ite (dist b)]
    have he' : dist b (if gt r.2 e then r.2 else e) =
        if dist b e < dist b r.2 then dist b r.2 else dist b e := by
      simp only [hgt, apply_ite (dist b)]
    show Lib.absorb _ _ ((dist b r.1, dist b r.2) :: offsets b rest) = _
    unfold Lib.absorb absorb
    by_cases hcase : le r.1 e
    · rw [if_pos hcase, if_pos (hle.mp hcase), ← hs', ← he']
      refine ih (fun q hq => hl q (List.mem_cons_of_mem _ hq)) ?_ ?_
      · split <;> assumption
      · split <;> assumption
    · rw [if_neg hcase, if_neg (fun h => hcase (hle.mpr h))]
      rfl

theorem offsets_insertRange {l : List (Serial × Serial)}
    (hl : ∀ r ∈ l, dist b r.1 ≤ n ∧ dist b r.2 ≤ n) {s e : Serial} (hs : dist b s ≤ n)
    (he : dist b e ≤ n) :
    offsets b (insertRange l s e) = insertUpTo sbMax (offsets b l) (dist b s) (dist b e) := by
  have hlt : ∀ r ∈ l, ((fun r : ℕ × ℕ => decide (r.2 < dist b s)) ∘
      fun r : Serial × Serial => (dist b r.1, dist b r.2)) r = decide (lt r.2 s) := by
    intro r hr
    have hnear : lt r.2 s ↔ dist b r.2 < dist b s :=
      lt_near (by have := (hl r hr).2; omega) (by omega)
    exact decide_eq_decide.mpr hnear.symm
  obtain ⟨htake, hdrop⟩ := cut_congr hlt
  have hbelow : (offsets b l).takeWhile (fun r => r.2 < dist b s) =
      offsets b (l.takeWhile fun r => lt r.2 s) := by
    unfold offsets
    rw [List.takeWhile_map, htake]
  have hrest : (offsets b l).dropWhile (fun r => r.2 < dist b s) =
      offsets b (l.dropWhile fun r => lt r.2 s) := by
    unfold offsets
    rw [List.dropWhile_map, hdrop]
  have habsorb := offsets_absorb hn (l := l.dropWhile fun r => lt r.2 s)
    (fun r hr => hl r ((List.dropWhile_sublist _).subset hr)) hs he
  unfold insertUpTo insertRange
  dsimp only
  rw [hbelow, hrest, habsorb]
  generalize absorb s e (l.dropWhile fun r => lt r.2 s) = m
  have hempty : offsets b m.2.2 = [] ↔ m.2.2 = [] := List.map_eq_nil_iff
  have hlast : (offsets b m.2.2).dropLast = offsets b m.2.2.dropLast := List.map_dropLast.symm
  simp only [offsets_length, hempty, hlast]
  split
  · split
    · rfl
    · exact List.map_append
  · exact List.map_append

/-- What is left of the ranges from `u` on. -/
theorem offsets_trim {l : List (Serial × Serial)}
    (hl : ∀ r ∈ l, dist b r.1 ≤ n ∧ dist b r.2 ≤ n) {u : Serial} (hu : dist b u ≤ n) :
    offsets b ((l.filter fun r => ¬ le r.2 u).map fun r => (if lt r.1 u then u else r.1, r.2)) =
      trim (dist b u) (offsets b l) := by
  have hle : ∀ r ∈ l, le r.2 u ↔ dist b r.2 ≤ dist b u :=
    fun r hr => le_near (by have := (hl r hr).2; omega) (by omega)
  have hlt : ∀ r ∈ l, lt r.1 u ↔ dist b r.1 < dist b u :=
    fun r hr => lt_near (by have := (hl r hr).1; omega) (by omega)
  unfold trim offsets
  rw [List.filter_map, List.map_map, List.map_map]
  have hfilter : l.filter (fun r => ¬ le r.2 u) =
      l.filter ((fun r : ℕ × ℕ => ¬ r.2 ≤ dist b u) ∘ fun r => (dist b r.1, dist b r.2)) :=
    List.filter_congr fun r hr => decide_eq_decide.mpr (not_congr (hle r hr))
  rw [← hfilter]
  refine List.map_congr_left fun r hr => ?_
  have hr := hlt r (List.mem_filter.mp hr).1
  show (dist b (if lt r.1 u then u else r.1), dist b r.2) =
    (if dist b r.1 < dist b u then dist b u else dist b r.1, dist b r.2)
  simp only [hr, apply_ite (dist b)]

theorem offsets_holeIn {l : List (Serial × Serial)}
    (hl : ∀ r ∈ l, dist b r.1 ≤ n ∧ dist b r.2 ≤ n) {p : Serial} (hp : dist b p < 2 ^ 31) :
    (holeIn l p).map (fun g => (dist b g.1, dist b g.2)) =
      firstGap (offsets b l) (dist b p) := by
  induction l generalizing p with
  | nil => rfl
  | cons r rest ih =>
    obtain ⟨h1, h2⟩ := hl r List.mem_cons_self
    have hstart : lt p r.1 ↔ dist b p < dist b r.1 := lt_near hp (by omega)
    have hstop : lt p r.2 ↔ dist b p < dist b r.2 := lt_near hp (by omega)
    have hp' : dist b (if lt p r.2 then r.2 else p) =
        if dist b p < dist b r.2 then dist b r.2 else dist b p := by
      simp only [hstop, apply_ite (dist b)]
    show _ = firstGap ((dist b r.1, dist b r.2) :: offsets b rest) _
    unfold holeIn firstGap
    by_cases hcase : lt p r.1
    · rw [if_pos hcase, if_pos (hstart.mp hcase)]
      rfl
    · rw [if_neg hcase, if_neg (fun h => hcase (hstart.mpr h)), ← hp']
      refine ih (fun q hq => hl q (List.mem_cons_of_mem _ hq)) ?_
      split <;> omega

end offsets

/-- From a point before both its ends, a range is an interval. -/
theorem within_iff {b : Serial} {r : Serial × Serial} (h : dist b r.1 ≤ dist b r.2) {x : Serial} :
    Within r x ↔ dist b r.1 ≤ dist b x ∧ dist b x < dist b r.2 := by
  have hx := dist_lt b x
  have hr := dist_lt b r.2
  unfold Within
  rw [dist_from b r.1 x, dist_from b r.1 r.2, if_pos h]
  split <;> omega

theorem covers_offsets {b : Serial} {l : List (Serial × Serial)}
    (h : ∀ r ∈ l, dist b r.1 ≤ dist b r.2) {x : Serial} :
    Covers (offsets b l) (dist b x) ↔ ∃ r ∈ l, Within r x := by
  constructor
  · rintro ⟨q, hq, hx⟩
    obtain ⟨r, hr, rfl⟩ := List.mem_map.mp hq
    exact ⟨r, hr, (within_iff (h r hr)).mpr hx⟩
  · rintro ⟨r, hr, hx⟩
    exact ⟨_, List.mem_map.mpr ⟨r, hr, rfl⟩, (within_iff (h r hr)).mp hx⟩

namespace Board

variable {l : List (Serial × Serial)}

theorem empty (h : c.sb = []) (l : List (Serial × Serial)) : c.Board l where
  short := by rw [h]; exact Nat.zero_le _
  spread := by rw [h]; exact Spread.nil
  inside := by rw [h]; exact fun _ hr => absurd hr List.not_mem_nil
  told := by rw [h]; exact fun _ hr => absurd hr List.not_mem_nil

theorem proper (h : c.Board l) : ∀ r ∈ c.sb, dist c.sndUna r.1 < dist c.sndUna r.2 :=
  fun r hr => h.spread.proper _ (List.mem_map.mpr ⟨r, hr, rfl⟩)

theorem near (h : c.Board l) : ∀ r ∈ c.sb, dist c.sndUna r.1 ≤ dist c.sndUna c.sndMax ∧
    dist c.sndUna r.2 ≤ dist c.sndUna c.sndMax :=
  fun r hr => ⟨(h.proper r hr).le.trans (h.inside r hr), h.inside r hr⟩

theorem further (h : c.Board l) {c' : Conn} (hf : Further c c') (l' : List (Serial × Serial)) :
    c'.Board (l ++ l') := by
  rcases hf.sb with hs | hs
  · refine ⟨hs ▸ h.short, ?_, fun r hr => ?_, fun r hr x hx => ?_⟩
    · rw [hs, hf.una]
      exact h.spread
    · rw [hs] at hr
      rw [hf.una]
      exact (h.inside r hr).trans hf.max
    · rw [hs] at hr
      obtain ⟨b, hb, hbx⟩ := h.told r hr x hx
      exact ⟨b, List.mem_append_left _ hb, hbx⟩
  · exact empty hs _

end Board

theorem Window.far (h : c.Window) : dist c.sndUna c.sndMax < 2 ^ 31 :=
  h.bound.trans_lt (by decide)

/-- What is left of a clear block when it is clipped lies in the window, and in the block. -/
theorem Clear.clipped {s e s' e' : Serial} (hw : c.Window) (h : c.Clear s e)
    (hs : s' = if lt s c.sndUna then c.sndUna else s) (he : e' = if gt e c.sndMax then c.sndMax else e)
    (hlt : lt s' e') :
    dist c.sndUna s' < dist c.sndUna e' ∧ dist c.sndUna e' ≤ dist c.sndUna c.sndMax ∧
      ∀ x, dist c.sndUna s' ≤ dist c.sndUna x → dist c.sndUna x < dist c.sndUna e' →
        Within (s, e) x := by
  have hfar := hw.far
  have hs0 := dist_lt c.sndUna s
  have he0 := dist_lt c.sndUna e
  have hself := dist_self c.sndUna
  have hbefore : lt s c.sndUna ↔ 2 ^ 31 ≤ dist c.sndUna s := lt_iff_dist
  have hend : lt e c.sndUna ↔ 2 ^ 31 ≤ dist c.sndUna e := lt_iff_dist
  have hafter := gt_iff (a := e) (b := c.sndMax) c.sndUna
  have hlen := dist_add_dist c.sndUna s e
  have hpos := dist_add_dist c.sndUna s c.sndUna
  have hlen' := dist_lt s e
  have hpos' := dist_lt s c.sndUna
  obtain ⟨hstop, hstart⟩ := h
  rw [← hs, hend, lt_iff c.sndUna, le_iff_not_gt, hafter] at hstop
  rw [hbefore, hafter] at hstart
  rw [lt_iff c.sndUna] at hlt
  have hs' : (2 ^ 31 ≤ dist c.sndUna s ∧ dist c.sndUna s' = 0) ∨
      (dist c.sndUna s < 2 ^ 31 ∧ dist c.sndUna s' = dist c.sndUna s) := by
    rw [hs]
    split <;> rename_i hcase <;> rw [hbefore] at hcase <;> omega
  have he' : (gt e c.sndMax ∧ dist c.sndUna e' = dist c.sndUna c.sndMax) ∨
      (¬ gt e c.sndMax ∧ dist c.sndUna e' = dist c.sndUna e) := by
    rw [he]
    split <;> rename_i hcase
    · exact Or.inl ⟨hcase, rfl⟩
    · exact Or.inr ⟨hcase, rfl⟩
  rw [hafter] at he'
  have hall : dist c.sndUna s' < dist c.sndUna e' ∧ dist c.sndUna e' ≤ dist c.sndUna c.sndMax := by
    omega
  refine ⟨hall.1, hall.2, fun x hx hx' => ?_⟩
  have hfrom := dist_add_dist c.sndUna s x
  have hfrom' := dist_lt s x
  show dist s x < dist s e
  omega

/-! ## `sb_add` and `sb_trim` -/

section

variable {l : List (Serial × Serial)}

theorem Window.sbAdd (h : c.Window) (hs : ¬ c.handshake) (s e : Serial) : (c.sbAdd s e).Window :=
  ⟨h.room, h.size, h.nxt, h.max, fun hh => absurd hh hs⟩

theorem Board.sbAdd (h : c.Board l) (hw : c.Window) {s e : Serial} (hc : c.Clear s e) :
    (c.sbAdd s e).Board (l ++ [(s, e)]) := by
  generalize hs : (if lt s c.sndUna then c.sndUna else s) = s'
  generalize he : (if gt e c.sndMax then c.sndMax else e) = e'
  have hsb : (c.sbAdd s e).sb = if lt s' e' then insertRange c.sb s' e' else c.sb := by
    rw [← hs, ← he]
    rfl
  by_cases hlt : lt s' e'
  · rw [if_pos hlt] at hsb
    obtain ⟨hlow, hhigh, hin⟩ := hc.clipped hw hs.symm he.symm hlt
    have hoff := offsets_insertRange hw.far h.near (hlow.le.trans hhigh) hhigh
    have hends := ends_insertUpTo h.spread hlow sbMax
      (P := fun o => o ≤ dist c.sndUna c.sndMax) (hlow.le.trans hhigh) hhigh fun q hq => by
        obtain ⟨r, hr, rfl⟩ := List.mem_map.mp hq
        exact h.near r hr
    rw [← hoff] at hends
    have hspread : Spread (offsets c.sndUna (insertRange c.sb s' e')) := by
      rw [hoff]
      exact spread_insertUpTo h.spread hlow sbMax
    have hproper : ∀ r ∈ insertRange c.sb s' e', dist c.sndUna r.1 ≤ dist c.sndUna r.2 :=
      fun r hr => (hspread.proper _ (List.mem_map.mpr ⟨r, hr, rfl⟩)).le
    refine ⟨?_, ?_, fun r hr => ?_, fun r hr x hx => ?_⟩
    · rw [hsb, ← offsets_length c.sndUna, hoff]
      exact length_insertUpTo h.spread hlow sbMax (by rw [offsets_length]; exact h.short)
    · rw [hsb]
      exact hspread
    · rw [hsb] at hr
      exact (hends _ (List.mem_map.mpr ⟨r, hr, rfl⟩)).2
    · rw [hsb] at hr
      have hcov := (covers_offsets hproper).mpr ⟨r, hr, hx⟩
      rw [hoff] at hcov
      rcases covers_insertUpTo h.spread hlow sbMax hcov with ⟨h1, h2⟩ | hold
      · exact ⟨(s, e), List.mem_append_right _ List.mem_cons_self, hin x h1 h2⟩
      · obtain ⟨q, hq, hqx⟩ := (covers_offsets fun q hq => (h.proper q hq).le).mp hold
        obtain ⟨b, hb, hbx⟩ := h.told q hq x hqx
        exact ⟨b, List.mem_append_left _ hb, hbx⟩
  · rw [if_neg hlt] at hsb
    refine ⟨hsb ▸ h.short, ?_, fun r hr => h.inside r (hsb ▸ hr), fun r hr x hx => ?_⟩
    · rw [hsb]
      exact h.spread
    · obtain ⟨b, hb, hbx⟩ := h.told r (hsb ▸ hr) x hx
      exact ⟨b, List.mem_append_left _ hb, hbx⟩

/-- `sb_add` for one block after the other. -/
theorem Board.adds (h : c.Board l) (hw : c.Window) (hs : ¬ c.handshake)
    {blocks : List (Serial × Serial)} (hc : ∀ r ∈ blocks, c.Clear r.1 r.2) :
    (blocks.foldl (fun c r => c.sbAdd r.1 r.2) c).Board (l ++ blocks) ∧
      (blocks.foldl (fun c r => c.sbAdd r.1 r.2) c).Window := by
  induction blocks generalizing c l with
  | nil =>
    rw [List.append_nil]
    exact ⟨h, hw⟩
  | cons r rest ih =>
    obtain ⟨h1, h2⟩ := List.forall_mem_cons.mp hc
    have hclear : ∀ q ∈ rest, (c.sbAdd r.1 r.2).Clear q.1 q.2 :=
      fun q hq => ⟨(h2 q hq).stop, (h2 q hq).start⟩
    rw [List.append_cons]
    exact ih (h.sbAdd hw h1) (hw.sbAdd hs _ _) hs hclear

/-- Something new is acknowledged: `snd_una` moves on within the window. -/
theorem isNew_iff (hw : c.Window) (ack : Serial) : c.isNew ack ↔
    0 < dist c.sndUna ack ∧ dist c.sndUna ack ≤ dist c.sndUna c.sndMax := by
  have hfar := hw.far
  have hack := dist_lt c.sndUna ack
  unfold isNew
  rw [gt_iff_dist, le_iff_not_gt, gt_iff c.sndUna]
  omega

theorem Window.unaTo (h : c.Window) {ack : Serial} (hnew : c.isNew ack) (hs : ¬ c.handshake) :
    (c.unaTo ack).Window := by
  have hfar := h.far
  have hroom := h.room
  obtain ⟨hpos, hle⟩ := (isNew_iff h ack).mp hnew
  have hlen : (c.unaTo ack).sbuf.length =
      c.sbuf.length - min (dist c.sndUna ack) c.sbuf.length := List.length_drop ..
  have hmax : dist ack c.sndMax = dist c.sndUna c.sndMax - dist c.sndUna ack := dist_ahead hle
  refine ⟨?_, h.size, ?_, ?_, fun hh => absurd hh hs⟩
  · show (c.unaTo ack).sbuf.length ≤ c.sbSize
    omega
  · show dist ack (if lt c.sndNxt ack then ack else c.sndNxt) ≤ dist ack c.sndMax
    have hnxt := h.nxt
    have hlt : lt c.sndNxt ack ↔ dist c.sndUna c.sndNxt < dist c.sndUna ack :=
      lt_near (by omega) (by omega)
    split
    · rw [dist_self]
      exact Nat.zero_le _
    · rename_i hcase
      rw [hlt, not_lt] at hcase
      rw [dist_ahead hcase, hmax]
      omega
  · show dist ack c.sndMax ≤ (c.unaTo ack).sbuf.length + 1
    have hall := h.max
    omega

theorem Board.unaTo (h : c.Board l) (hw : c.Window) {ack : Serial} (hnew : c.isNew ack) :
    (c.unaTo ack).Board l := by
  obtain ⟨hpos, hle⟩ := (isNew_iff hw ack).mp hnew
  generalize hsb : (c.unaTo ack).sb = sb'
  have htrim : offsets c.sndUna sb' = trim (dist c.sndUna ack) (offsets c.sndUna c.sb) := by
    rw [← hsb]
    exact offsets_trim hw.far h.near hle
  -- every range that is left is ahead of `ack`
  have hleft : ∀ r ∈ sb', ∃ q ∈ c.sb, dist c.sndUna ack ≤ dist c.sndUna r.1 ∧
      dist c.sndUna q.1 ≤ dist c.sndUna r.1 ∧ dist c.sndUna r.1 < dist c.sndUna r.2 ∧
      dist c.sndUna r.2 = dist c.sndUna q.2 := by
    intro r hr
    have hr' : (dist c.sndUna r.1, dist c.sndUna r.2) ∈
        trim (dist c.sndUna ack) (offsets c.sndUna c.sb) := htrim ▸ List.mem_map.mpr ⟨r, hr, rfl⟩
    have hlt := (spread_trim h.spread _).proper _ hr'
    obtain ⟨q', hq', -, heq⟩ := mem_trim hr'
    obtain ⟨q, hq, rfl⟩ := List.mem_map.mp hq'
    obtain ⟨h1, h2⟩ := Prod.mk.inj heq
    exact ⟨q, hq, h1 ▸ le_max_right _ _, h1 ▸ le_max_left _ _, hlt, h2⟩
  have hshift : offsets ack sb' =
      (offsets c.sndUna sb').map fun r => (r.1 - dist c.sndUna ack, r.2 - dist c.sndUna ack) := by
    unfold offsets
    rw [List.map_map]
    refine List.map_congr_left fun r hr => ?_
    obtain ⟨q, hq, h1, -, h2, -⟩ := hleft r hr
    exact Prod.ext (dist_ahead h1) (dist_ahead (h1.trans h2.le))
  refine ⟨?_, ?_, fun r hr => ?_, fun r hr x hx => ?_⟩
  · rw [hsb, ← offsets_length c.sndUna, htrim]
    unfold trim
    rw [List.length_map]
    exact (List.length_filter_le _ _).trans (by rw [offsets_length]; exact h.short)
  · rw [hsb]
    show Spread (offsets ack sb')
    rw [hshift]
    refine Spread.map (s := Set.Ici (dist c.sndUna ack)) (f := fun o => o - dist c.sndUna ack)
      (htrim ▸ spread_trim h.spread _) ?_ ?_
    · intro m hm n hn hmn
      have hm : dist c.sndUna ack ≤ m := hm
      show m - _ < n - _
      omega
    · intro q hq
      obtain ⟨r, hr, rfl⟩ := List.mem_map.mp hq
      obtain ⟨-, -, h1, -, h2, -⟩ := hleft r hr
      exact ⟨h1, h1.trans h2.le⟩
  · rw [hsb] at hr
    obtain ⟨q, hq, h1, -, h2, h3⟩ := hleft r hr
    have hin := h.inside q hq
    show dist ack r.2 ≤ dist ack c.sndMax
    rw [dist_ahead (h1.trans h2.le), dist_ahead hle]
    omega
  · rw [hsb] at hr
    obtain ⟨q, hq, h1, h2, h3, h4⟩ := hleft r hr
    obtain ⟨h5, h6⟩ := (within_iff h3.le).mp hx
    exact h.told q hq x ((within_iff (h.proper q hq).le).mpr ⟨h2.trans h5, h4 ▸ h6⟩)

end

/-! ## A segment -/

/-- The connection that `ack_processing` is called for when the segment arrives, if it is called. -/
def atAck (c : Conn) (g : Seg) (now : Serial) : Option Conn :=
  if ¬ c.used ∨ c.state = .closed ∨ c.state = .synSent then none
  else if g.flags.rst ∨ g.flags.syn ∨ ¬ g.flags.ack then none
  else if c.state = .synRcvd then
    if g.ack = fwd c.iss 1 then some (c.handshakeDone g.seq g.ack (g.wnd * 2 ^ c.sndWs) now) else none
  else some c

/-- The handshake is over: our SYN is acknowledged, and nothing else was sent. -/
theorem Window.opened (h : c.Window) (hh : c.handshake) {d : Conn} (una : d.sndUna = fwd c.iss 1)
    (nxt : d.sndNxt = c.sndNxt) (max : d.sndMax = c.sndMax) (sbuf : d.sbuf = c.sbuf)
    (sbSize : d.sbSize = c.sbSize) (sb : d.sb = c.sb) (hs : ¬ d.handshake) :
    d.Window ∧ d.sb = [] := by
  obtain ⟨h1, h2, h3⟩ := h.young hh
  refine ⟨⟨?_, ?_, ?_, ?_, fun h => absurd h hs⟩, sb.trans h3⟩
  · rw [sbuf, sbSize]
    exact h.room
  · rw [sbSize]
    exact h.size
  · rw [una, nxt, h1, dist_self]
    exact Nat.zero_le _
  · rw [una, max, h2, dist_self]
    exact Nat.zero_le _

theorem out_rttEnd (c : Conn) (now : Serial) : SameOut c (c.rttEnd now) := by
  have h1 : ∀ n, SameOut c (c.updateRtt n) := fun n => by constructor <;> rfl
  have h2 : ∀ b : Conn, SameOut b { b with rttTiming := false } := fun b => by constructor <;> rfl
  unfold rttEnd
  split
  · exact (h1 _).trans (h2 _)
  · exact SameOut.refl c

theorem established_open {c : Conn} (h : c.state = .established) : ¬ c.handshake := by
  rw [handshake_iff, h]
  decide

theorem Window.handshakeDone (h : c.Window) (hh : c.handshake) (seq : Serial) (wnd : ℕ)
    (now : Serial) : (c.handshakeDone seq (fwd c.iss 1) wnd now).Window ∧
      (c.handshakeDone seq (fwd c.iss 1) wnd now).sb = [] := by
  have ho := out_rttEnd
    { c with sndUna := fwd c.iss 1, sndWnd := wnd, sndWl1 := seq, sndWl2 := fwd c.iss 1 } now
  exact h.opened hh ho.sndUna ho.sndNxt ho.sndMax ho.sbuf ho.sbSize ho.sb (established_open rfl)

theorem Window.inputSynSent (h : c.Window) (hs : c.state = .synSent) (g : Seg) (wnd : ℕ)
    (now : Serial) : Further c (c.inputSynSent g wnd now) ∨
      ((c.inputSynSent g wnd now).Window ∧ (c.inputSynSent g wnd now).sb = []) := by
  have hh : c.handshake := handshake_iff.mpr (Or.inl hs)
  unfold Conn.inputSynSent
  split
  · exact Or.inl h.refl
  · rename_i hack
    split
    · split
      · exact Or.inl (h.keep rfl rfl rfl rfl rfl rfl rfl (fun hh => by rcases hh with hh | hh <;> cases hh))
      · exact Or.inl h.refl
    · split
      · rename_i hflags
        extract_lets c1 c2
        have hg : g.ack = fwd c.iss 1 := not_not.mp fun hne => hack ⟨hflags.2, hne⟩
        have hopts : SameOut c1 (c1.parseSynOpts g.opt).optsAgreed := by
          rw [parseSynOpts_eq]
          constructor <;> rfl
        have ho : SameOut c1 c2 := hopts.trans (out_rttEnd _ now)
        obtain ⟨hwin, hsb⟩ := h.opened hh
          (d := { c2 with retries := 0, timerOn := false, state := .established }.sendAck)
          (ho.sndUna.trans hg) ho.sndNxt ho.sndMax ho.sbuf ho.sbSize ho.sb (established_open rfl)
        have hout := hwin.tcpOutput now
        exact Or.inr ⟨hout.window, hout.sb.elim (fun hs => hs.trans hsb) id⟩
      · exact Or.inl h.refl

/-- A segment without an acknowledgement to look at. -/
theorem Window.input_none (h : c.Window) {g : Seg} {now : Serial} (hg : c.atAck g now = none)
    (mem : Bool) : Further c (c.input g now mem) ∨
      ((c.input g now mem).Window ∧ (c.input g now mem).sb = []) := by
  have hclosed : ∀ c' : Conn, c'.Window → Further c' { c' with state := .closed, timerOn := false } :=
    fun c' h' => h'.keep rfl rfl rfl rfl rfl rfl rfl (fun hh => by rcases hh with hh | hh <;> cases hh)
  unfold Conn.input
  extract_lets wnd
  unfold atAck at hg
  by_cases hc : ¬ c.used ∨ c.state = .closed
  · rw [if_pos hc]
    exact Or.inl h.refl
  · rw [if_neg hc]
    by_cases hsent : c.state = .synSent
    · rw [if_neg (by rw [hsent]; decide), if_pos hsent]
      exact h.inputSynSent hsent g wnd now
    · rw [if_neg (by rw [← or_assoc, not_or]; exact ⟨hc, hsent⟩)] at hg
      rw [if_neg hsent]
      by_cases hrcvd : c.state = .synRcvd
      · rw [if_pos hrcvd]
        split
        · exact Or.inl (hclosed c h)
        · rename_i hrst
          split
          · exact Or.inl (h.sendSeg _ _ _)
          · rename_i hsyn
            split
            · exact Or.inl h.refl
            · rename_i hack
              rw [not_or, not_not, not_not] at hack
              rw [if_neg (by simp [hrst, hsyn, hack.1]), if_pos hrcvd, if_pos hack.2] at hg
              cases hg
      · rw [if_neg hrcvd]
        unfold Conn.inputOpen
        split
        · split
          · exact Or.inl (h.keep rfl rfl rfl rfl rfl rfl rfl
              (fun hh => by rcases hh with hh | hh <;> cases hh))
          · exact Or.inl h.refl
        · rename_i hrst
          split
          · exact Or.inl (h.sendSeg _ _ _)
          · rename_i hsyn
            by_cases hack : g.flags.ack = true
            · rw [if_neg (by simp [hrst, hsyn, hack]), if_neg hrcvd] at hg
              cases hg
            · rw [if_neg hack]
              exact Or.inl (h.inputRest g now mem)

/-- A segment with an acknowledgement to look at. -/
theorem input_some {g : Seg} {now : Serial} {d : Conn} (hg : c.atAck g now = some d) (mem : Bool) :
    c.input g now mem = (d.ackProcessing g.seq g.ack (g.wnd * 2 ^ c.sndWs) g.data.length g.flags
      g.opt now).inputRest g now mem := by
  unfold atAck at hg
  split at hg
  · cases hg
  · rename_i hc
    split at hg
    · cases hg
    · rename_i hf
      simp only [not_or, Bool.not_eq_true, Bool.not_eq_false] at hc hf
      obtain ⟨hu, hclosed, hsent⟩ := hc
      obtain ⟨hrst, hsyn, hack⟩ := hf
      have hopen : ∀ (b : Conn) (wnd : ℕ), b.inputOpen g wnd now mem =
          (b.ackProcessing g.seq g.ack wnd g.data.length g.flags g.opt now).inputRest g now mem := by
        intro b wnd
        unfold Conn.inputOpen
        rw [hrst, hsyn, hack]
        rfl
      unfold Conn.input
      extract_lets wnd
      have hwnd : wnd = g.wnd * 2 ^ c.sndWs := if_neg (by rw [hsyn]; exact Bool.false_ne_true)
      rw [if_neg (by simp [hu, hclosed]), if_neg hsent, hwnd]
      split at hg
      · rename_i hrcvd
        split at hg
        · rename_i hg'
          cases hg
          rw [if_pos hrcvd, if_neg (by rw [hrst]; exact Bool.false_ne_true),
            if_neg (by rw [hsyn]; exact Bool.false_ne_true), if_neg (by simp [hack, hg']), hopen]
        · cases hg
      · rename_i hrcvd
        cases hg
        rw [if_neg hrcvd, hopen]

theorem atAck_open (h : c.Window) {g : Seg} {now : Serial} {d : Conn} (hg : c.atAck g now = some d)
    {l : List (Serial × Serial)} (hb : c.Board l) : d.Window ∧ d.Board l ∧ ¬ d.handshake := by
  unfold atAck at hg
  split at hg
  · cases hg
  · rename_i hc
    split at hg
    · cases hg
    · split at hg
      · rename_i hrcvd
        split at hg
        · rename_i hg'
          cases hg
          rw [hg']
          obtain ⟨h1, h2⟩ := h.handshakeDone (handshake_iff.mpr (Or.inr hrcvd)) g.seq
            (g.wnd * 2 ^ c.sndWs) now
          exact ⟨h1, Board.empty h2 l, established_open rfl⟩
        · cases hg
      · rename_i hrcvd
        cases hg
        refine ⟨h, hb, fun hh => ?_⟩
        rcases handshake_iff.mp hh with hs | hs
        · exact hc (Or.inr (Or.inr hs))
        · exact hrcvd hs

section

variable {l : List (Serial × Serial)}

theorem Board.seeSack (h : c.Board l) (hw : c.Window) (hs : ¬ c.handshake) {opt : List UInt8}
    (hc : c.sackOk → ∀ r ∈ sackReports opt, c.Clear r.1 r.2) :
    (c.seeSack opt).Board (l ++ sackReports opt) ∧ (c.seeSack opt).Window := by
  unfold Conn.seeSack
  split
  · rename_i hok
    exact h.adds hw hs (hc hok)
  · exact ⟨h.further hw.refl _, hw⟩

theorem seeSack_open (hs : ¬ c.handshake) (opt : List UInt8) : ¬ (c.seeSack opt).handshake := by
  unfold handshake at hs ⊢
  rw [(seeSack_fin c opt).1]
  exact hs

/-- The acknowledgement number of a segment is looked at. -/
theorem Board.seeAck (h : c.Board l) (hw : c.Window) (hs : ¬ c.handshake) (ack : Serial)
    (wnd segLen : ℕ) (f : Flags) (now : Serial) :
    (c.seeAck ack wnd segLen f now).Board l ∧ (c.seeAck ack wnd segLen f now).Window := by
  unfold Conn.seeAck
  split
  · rename_i hnew
    have hrest := (hw.unaTo hnew hs).ackedRest ack now (dist c.sndUna ack)
    have hboard := (h.unaTo hw hnew).further hrest []
    rw [List.append_nil] at hboard
    exact ⟨hboard, hrest.window⟩
  · have hstay : ∀ b, Further c b → b.Board l ∧ b.Window := by
      intro b hb
      have hboard := h.further hb []
      rw [List.append_nil] at hboard
      exact ⟨hboard, hb.window⟩
    split
    · exact hstay _ (hw.resent (resent_ackDup c))
    · exact hstay _ hw.refl

end

end Conn

/-! ## Runs -/

/-- The blocks that come with an event. -/
def Event.reports : Event → List (Serial × Serial)
  | .segment g _ _ => sackReports g.opt
  | _ => []

/-- The connections there can be, by steps that meet `ok`, with all the blocks that came. -/
inductive Run (ok : Conn → Event → Prop) : Conn → List (Serial × Serial) → Prop
  | connect (iss : Serial) (bigS bigR v6 : Bool) (now : Serial) :
      Run ok (Conn.connect iss bigS bigR v6 now) []
  | passive (g : Seg) (iss : Serial) (bigS bigR v6 : Bool) (now : Serial) :
      Run ok (Conn.passiveOpen g iss bigS bigR v6 now) []
  | step {c : Conn} {l : List (Serial × Serial)} (e : Event) :
      Run ok c l → ok c e → Run ok (c.step e) (l ++ e.reports)

/-- The connections of a run with those within a step that a call of `sb_add` or of `sb_trim` leaves. -/
inductive Seen (ok : Conn → Event → Prop) : Conn → List (Serial × Serial) → Prop
  | run {c : Conn} {l : List (Serial × Serial)} : Run ok c l → Seen ok c l
  | added {c d : Conn} {l blocks : List (Serial × Serial)} {g : Seg} {now : Serial} {mem : Bool} :
      Run ok c l → ok c (.segment g now mem) → c.atAck g now = some d → d.sackOk →
      blocks <+: sackReports g.opt →
      Seen ok (blocks.foldl (fun c r => c.sbAdd r.1 r.2) d) (l ++ blocks)
  | trimmed {c d : Conn} {l : List (Serial × Serial)} {g : Seg} {now : Serial} {mem : Bool} :
      Run ok c l → ok c (.segment g now mem) → c.atAck g now = some d →
      (d.seeSack g.opt).isNew g.ack →
      Seen ok ((d.seeSack g.opt).unaTo g.ack) (l ++ sackReports g.opt)

namespace Conn

/-- The blocks that the event makes `sb_add` look at are clear. -/
def Understood (c : Conn) : Event → Prop
  | .segment g now _ => ∀ d, c.atAck g now = some d → d.sackOk →
      ∀ r ∈ sackReports g.opt, d.Clear r.1 r.2
  | _ => True

variable {c : Conn} {l : List (Serial × Serial)}

theorem Board.step (h : c.Board l) (hw : c.Window) {e : Event} (he : c.Understood e) :
    (c.step e).Board (l ++ e.reports) ∧ (c.step e).Window := by
  by_cases hseg : ∃ g now mem, e = .segment g now mem
  · obtain ⟨g, now, mem, rfl⟩ := hseg
    cases hg : c.atAck g now with
    | none =>
      rcases hw.input_none hg mem with hf | ⟨h1, h2⟩
      · exact ⟨h.further hf _, hf.window⟩
      · exact ⟨Board.empty h2 _, h1⟩
    | some d =>
      obtain ⟨hdw, hdb, hds⟩ := atAck_open hw hg h
      obtain ⟨hb1, hw1⟩ := hdb.seeSack hdw hds (he d hg)
      obtain ⟨hb2, hw2⟩ := hb1.seeAck hw1 (seeSack_open hds g.opt) g.ack (g.wnd * 2 ^ c.sndWs) g.data.length g.flags now
      have hf := hw2.windowUpdate g.seq g.ack (g.wnd * 2 ^ c.sndWs)
      have hrest := hf.trans (hf.window.inputRest g now mem)
      have hboard := hb2.further hrest []
      rw [List.append_nil] at hboard
      show (c.input g now mem).Board _ ∧ (c.input g now mem).Window
      rw [input_some hg]
      exact ⟨hboard, hrest.window⟩
  · have hother : ∀ g now mem, e ≠ .segment g now mem :=
      fun g now mem heq => hseg ⟨g, now, mem, heq⟩
    rcases hw.step hother with hf | ⟨s, hz⟩
    · exact ⟨h.further hf _, hf.window⟩
    · rw [hz]
      exact ⟨Board.empty rfl _, Window.free s⟩

theorem window_begin {iss : Serial} (h1 : c.sndUna = iss) (h2 : c.sndNxt = fwd iss 1)
    (h3 : c.sndMax = fwd iss 1) (h4 : c.sbuf = []) (h5 : c.sbSize ≤ sbufSize) (h6 : c.sb = [])
    (h7 : c.iss = iss) : c.Window := by
  have hone : dist iss (fwd iss 1) = 1 := dist_fwd iss (by rw [dist_self]; decide) |>.trans (by
    rw [dist_self])
  refine ⟨?_, h5, ?_, ?_, fun _ => ⟨?_, ?_, h6⟩⟩
  · rw [h4]
    exact Nat.zero_le _
  · rw [h2, h3]
  · rw [h1, h3, hone]
    exact Nat.le_add_left _ _
  · rw [h2, h7]
  · rw [h3, h7]

theorem run_board (h : Run Understood c l) : c.Board l ∧ c.Window := by
  have hsize : ∀ b : Bool, (if b then sbufSize else sbufSmall) ≤ sbufSize := by decide
  induction h with
  | connect iss bigS bigR v6 now =>
    exact ⟨Board.empty rfl _, window_begin rfl rfl rfl rfl (hsize bigS) rfl rfl⟩
  | passive g iss bigS bigR v6 now =>
    have hfields : ∀ b, b = (passiveConn g iss bigS bigR v6).parseSynOpts g.opt → b.sndUna = iss ∧
        b.sndNxt = fwd iss 1 ∧ b.sndMax = fwd iss 1 ∧ b.sbuf = [] ∧ b.sbSize ≤ sbufSize ∧ b.sb = [] ∧
        b.iss = iss := by
      intro b hb
      rw [hb, parseSynOpts_eq]
      exact ⟨rfl, rfl, rfl, rfl, hsize bigS, rfl, rfl⟩
    obtain ⟨h1, h2, h3, h4, h5, h6, h7⟩ := hfields _ rfl
    exact ⟨Board.empty (c := passiveOpen g iss bigS bigR v6 now) h6 [],
      window_begin (c := passiveOpen g iss bigS bigR v6 now) h1 h2 h3 h4 h5 h6 h7⟩
  | step e hr hok ih => exact ih.1.step ih.2 hok

theorem seen_board (h : Seen Understood c l) : c.Board l ∧ c.Window := by
  cases h with
  | run hr => exact run_board hr
  | added hr hok hg hsack hpre =>
    obtain ⟨hb, hw⟩ := run_board hr
    obtain ⟨hdw, hdb, hds⟩ := atAck_open hw hg hb
    exact hdb.adds hdw hds fun r hmem => hok _ hg hsack r (hpre.subset hmem)
  | @trimmed _ d _ g _ _ hr hok hg hnew =>
    obtain ⟨hb, hw⟩ := run_board hr
    obtain ⟨hdw, hdb, hds⟩ := atAck_open hw hg hb
    obtain ⟨hb1, hw1⟩ := hdb.seeSack hdw hds (hok _ hg)
    exact ⟨hb1.unaTo hw1 hnew, hw1.unaTo hnew (seeSack_open hds g.opt)⟩

/-- **The scoreboard is right as long as the blocks are clear.**  In every run, and within its steps
after each `sb_add` and each `sb_trim`, the ranges are at most `SB_MAX`, sorted, apart, not empty and in
the window, and all that they hold was reported; and `sb_hole` finds the first gap from any number on
that is not before `snd_una`. -/
theorem board_kept (h : Seen Understood c l) : c.Board l ∧
    ∀ p, ge p c.sndUna → IsFirstGap (offsets c.sndUna c.sb) (dist c.sndUna p)
      ((c.sbHole p).map fun g => (dist c.sndUna g.1, dist c.sndUna g.2)) := by
  obtain ⟨hb, hw⟩ := seen_board h
  refine ⟨hb, fun p hp => ?_⟩
  rw [ge_iff_not_lt, lt_iff_dist, not_le] at hp
  unfold sbHole
  rw [offsets_holeIn hw.far hb.near hp]
  exact firstGap_isFirstGap hb.spread _

/-! ## A block that reports everything -/

/-- A SYN that permits SACK, the acknowledgement that ends the handshake, and one with a SACK block. -/
def sackSyn : Seg := ⟨100, 0, { syn := true }, 8192, [4, 2], [], Seg.usual_wnd, by decide⟩
def sackAck : Seg := ⟨101, 8, { ack := true }, 8192, [], [], Seg.usual_wnd, Seg.short_nil⟩
def oneBlock (s e : UInt8 × UInt8) : Seg :=
  ⟨101, 8, { ack := true }, 8192, [5, 10, s.1, 0, 0, s.2, e.1, 0, 0, e.2], [], Seg.usual_wnd, by simp⟩

/-- Eight bytes went out. -/
def sackConn : Conn :=
  (((passiveOpen sackSyn 7 true true false 0).step (.segment sackAck 0 true)).step .accept).step
    (.send [1, 2, 3, 4, 5, 6, 7, 8] 0)

/-- The peer reports two of them, or an empty block far away. -/
def sackedConn : Conn := sackConn.step (.segment (oneBlock (0, 10) (0, 12)) 0 true)
def markedConn : Conn := sackConn.step (.segment (oneBlock (128, 8) (128, 8)) 0 true)

theorem sackConn_run {ok : Conn → Event → Prop}
    (hack : ok (passiveOpen sackSyn 7 true true false 0) (.segment sackAck 0 true))
    (hok : ∀ c e, (∀ g now mem, e ≠ .segment g now mem) → ok c e) : Run ok sackConn [] :=
  .step _ (.step _ (.step _ (.passive sackSyn 7 true true false 0) hack)
    (hok _ _ fun _ _ _ h => by cases h)) (hok _ _ fun _ _ _ h => by cases h)

theorem reports_oneBlock :
    Event.reports (.segment (oneBlock (0, 10) (0, 12)) 0 true) = [(10, 12)] ∧
      Event.reports (.segment (oneBlock (128, 8) (128, 8)) 0 true) = [(0x80000008, 0x80000008)] := by
  decide +kernel

theorem board_kept_sackedConn : sackedConn.Board [(10, 12)] ∧ ∀ p, ge p sackedConn.sndUna →
    IsFirstGap (offsets sackedConn.sndUna sackedConn.sb) (dist sackedConn.sndUna p)
      ((sackedConn.sbHole p).map fun g =>
        (dist sackedConn.sndUna g.1, dist sackedConn.sndUna g.2)) := by
  have hnone : sackReports sackAck.opt = [] := by decide
  have hrun : Run Understood sackConn [] := by
    refine sackConn_run (fun d _ _ r hr => ?_) fun c e he => ?_
    · rw [hnone] at hr
      exact absurd hr List.not_mem_nil
    · cases e <;> first | exact absurd rfl (he _ _ _) | trivial
  have hclear : sackConn.Clear 10 12 := ⟨by decide +kernel, by decide +kernel⟩
  have hat : sackConn.atAck (oneBlock (0, 10) (0, 12)) 0 = some sackConn := rfl
  refine board_kept (.run (reports_oneBlock.1 ▸ hrun.step _ fun d hd _ r hr => ?_))
  rw [hat] at hd
  cases hd
  have hr : r ∈ Event.reports (.segment (oneBlock (0, 10) (0, 12)) 0 true) := hr
  rw [reports_oneBlock.1, List.mem_singleton] at hr
  rw [hr]
  exact hclear

/-- **An empty block passes for all that was sent.**  It begins and ends half the number space after
`snd_una`. -/
theorem empty_block_reports_all :
    Seen (fun _ _ => True) markedConn [(0x80000008, 0x80000008)] ∧
    (∀ x, ¬ Within (0x80000008, 0x80000008) x) ∧
    markedConn.sb = [(8, 16)] ∧
    ¬ markedConn.Board [(0x80000008, 0x80000008)] := by
  have hempty : ∀ x, ¬ Within (0x80000008, 0x80000008) x := fun x hx => by
    unfold Within at hx
    rw [dist_self] at hx
    exact absurd hx (Nat.not_lt_zero _)
  have hsb : markedConn.sb = [(8, 16)] := by
    decide +kernel
  refine ⟨.run (reports_oneBlock.2 ▸ (sackConn_run trivial fun _ _ _ => trivial).step _ trivial),
    hempty, hsb, fun h => ?_⟩
  obtain ⟨b, hb, hbx⟩ := h.told (8, 16) (hsb ▸ List.mem_cons_self) 8 (by unfold Within; decide)
  rw [List.mem_singleton] at hb
  exact hempty 8 (hb ▸ hbx)

end Conn

end BananaOS.Tcp
