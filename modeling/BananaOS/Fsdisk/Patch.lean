import BananaOS.Lib.Rewriting
import Mathlib.Data.List.GetD

/-!
# The texts that the installer renames

`patchMarker` is what the installer does to the CD's bytes on their way to the disk: the value of the
boot loader's video line, the line that tells which copy was started, and the build marker, as bytes and
as UCS-2.  `rules` are the four texts as rules; where they can be renamed one by one, `patchMarker` has
renamed all of them (`patchMarker_renamed`).
-/

namespace BananaOS.Fsdisk

open Lib

/-! ## The code -/

def VIDEO_FIELD : ℕ := 12

/-- The bytes of a text. -/
def text (s : String) : List UInt8 := s.toList.map fun c => UInt8.ofNat c.toNat

/-- `b[k..]` begins with `t`. -/
def begins (b : ℕ → UInt8) (k : ℕ) (t : List UInt8) : Prop := ∀ i < t.length, b (k + i) = t.getD i 0

instance (b : ℕ → UInt8) (k : ℕ) (t : List UInt8) : Decidable (begins b k t) :=
  inferInstanceAs (Decidable (∀ i < t.length, b (k + i) = t.getD i 0))

/-- `memcpy(b + k, t, ..)` -/
def copyIn (b : ℕ → UInt8) (k : ℕ) (t : List UInt8) : ℕ → UInt8 := fun p =>
  if k ≤ p ∧ p < k + t.length then t.getD (p - k) 0 else b p

/-- What the installer writes: the video value (empty: as the CD has it), and the build's name, which
the marker ends with `.uuid` on the CD and with `.inst` on the disk; no build: no marker. -/
structure Texts where
  video : List UInt8
  video_le : video.length ≤ VIDEO_FIELD
  video_str : 0 ∉ video
  build : Option (List UInt8)
  build_ne : ∀ w ∈ build, w ≠ []
  build_le : ∀ w ∈ build, w.length ≤ 43
  build_gt : ∀ w ∈ build, ∀ c ∈ w, 32 < c

/-- `video_key` -/
def videoKey : List UInt8 := text "set banana_video="

/-- The field of `patch_video`, padded. -/
def videoField (value : List UInt8) : List UInt8 :=
  (List.range VIDEO_FIELD).map fun i => if i < value.length then value.getD i 0 else 32

/-- The loop of `patch_video` from `k` on, with at most `fuel` turns; how many lines there were. -/
def patchVideoFrom (n : ℕ) (value : List UInt8) : ℕ → ℕ → (ℕ → UInt8) → ℕ → (ℕ → UInt8) × ℕ
  | 0, _, b, hits => (b, hits)
  | fuel + 1, k, b, hits =>
    if k + 17 + VIDEO_FIELD ≤ n then
      if b k = 115 ∧ begins b k videoKey then
        patchVideoFrom n value fuel (k + 17 + VIDEO_FIELD) (copyIn b (k + 17) (videoField value))
          (hits + 1)
      else patchVideoFrom n value fuel (k + 1) b hits
    else (b, hits)

/-- `patch_video` -/
def patchVideo (b : ℕ → UInt8) (n : ℕ) (value : List UInt8) : (ℕ → UInt8) × ℕ :=
  patchVideoFrom n value n 0 b 0

/-- `medium_line` -/
def mediumLine (word : String) : List UInt8 := text "set banana_" ++ text "medium=" ++ text word

/-- The second loop of `patch_marker`. -/
def patchMedium (n : ℕ) (b : ℕ → UInt8) : ℕ → UInt8 :=
  let cd := mediumLine "live-cd"
  let disk := mediumLine "install"
  (List.range (n + 1 - cd.length)).foldl
    (fun b k => if b k = 115 ∧ begins b k cd then copyIn b k disk else b) b

/-- `g_mark_old` -/
def markOld (build : List UInt8) : List UInt8 := build ++ text ".uuid"

/-- `g_mark_new` -/
def markNew (build : List UInt8) : List UInt8 := build ++ text ".inst"

/-- A turn of the last loop of `patch_marker`, where the marker is as bytes. -/
def markBytes (build : List UInt8) (b : ℕ → UInt8) (k : ℕ) : ℕ → UInt8 :=
  if b k = (markOld build).getD 0 0 ∧ begins b k (markOld build) then copyIn b k (markNew build) else b

/-- A turn of the last loop of `patch_marker`, where the marker is in UCS-2. -/
def markJoliet (build : List UInt8) (n : ℕ) (b : ℕ → UInt8) (k : ℕ) : ℕ → UInt8 :=
  let L := (markOld build).length
  if k + 2 * L ≤ n ∧ b k = 0 ∧ b (k + 1) = (markOld build).getD 0 0 then
    if ∀ m < L, b (k + 2 * m) = 0 ∧ b (k + 2 * m + 1) = (markOld build).getD m 0 then
      (List.range L).foldl (fun b m => Function.update b (k + 2 * m + 1) ((markNew build).getD m 0)) b
    else b
  else b

/-- `patch_marker` -/
def patchMarker (t : Texts) (b : ℕ → UInt8) (n : ℕ) : ℕ → UInt8 :=
  let b := if t.video ≠ [] then (patchVideo b n t.video).1 else b
  let b := patchMedium n b
  match t.build with
  | none => b
  | some w => (List.range (n + 1 - (markOld w).length)).foldl
      (fun b k => markJoliet w n (markBytes w b k) k) b

/-! ## The texts as rules -/

/-- A text that is replaced by another of its length. -/
def plain (old new : List UInt8) : Rule UInt8 where
  len := old.length
  pat i := some (old.getD i 0)
  out i := some (new.getD i 0)

def videoRule (value : List UInt8) : Rule UInt8 where
  len := 29
  pat i := if i < 17 then some (videoKey.getD i 0) else none
  out i := if i < 17 then none else some ((videoField value).getD (i - 17) 0)

def mediumRule : Rule UInt8 := plain (mediumLine "live-cd") (mediumLine "install")

def markRule (build : List UInt8) : Rule UInt8 := plain (markOld build) (markNew build)

def jolietRule (build : List UInt8) : Rule UInt8 where
  len := 2 * (markOld build).length
  pat i := some (if i % 2 = 0 then 0 else (markOld build).getD (i / 2) 0)
  out i := if i % 2 = 0 then none else some ((markNew build).getD (i / 2) 0)

variable {b c : ℕ → UInt8} {k n : ℕ} {w old new : List UInt8}

theorem length_markNew : (markNew w).length = (markOld w).length := by
  have h5 : (text ".uuid").length = 5 ∧ (text ".inst").length = 5 := by decide
  rw [markNew, markOld, List.length_append, List.length_append, h5.1, h5.2]

theorem begins_iff : begins b k old ↔ (plain old new).Stands b k :=
  forall₂_congr fun _ _ => eq_comm

theorem copyIn_eq (h : new.length = old.length) : copyIn b k new = (plain old new).write b k := by
  ext1 p
  rw [copyIn, h, Rule.write]
  rfl

theorem begins.first {x : UInt8} (h : begins b k old) (hx : old.head? = some x) : b k = x := by
  obtain ⟨l, rfl⟩ : ∃ l, old = x :: l := ⟨old.tail, (List.cons_head?_tail hx).symm⟩
  exact h 0 (Nat.zero_lt_succ _)

theorem turn_eq {x : UInt8} (hx : old.head? = some x) (hlen : new.length = old.length)
    (hk : k + old.length ≤ n) :
    (if b k = x ∧ begins b k old then copyIn b k new else b) = (plain old new).apply n b k := by
  rw [Rule.apply, copyIn_eq hlen]
  refine if_congr ?_ rfl rfl
  rw [← begins_iff]
  exact ⟨fun h => ⟨hk, h.2⟩, fun h => ⟨h.2.first hx, h.2⟩⟩

theorem length_videoKey : videoKey.length = 17 := by decide

theorem length_videoField (value : List UInt8) : (videoField value).length = 12 := by
  rw [videoField, List.length_map, List.length_range, VIDEO_FIELD]

theorem videoRule_stands (value : List UInt8) :
    (videoRule value).Stands b k ↔ b k = 115 ∧ begins b k videoKey := by
  constructor
  · intro h
    have hkey : begins b k videoKey := fun i hi => by
      rw [length_videoKey] at hi
      have hi' := h i (show i < 29 by omega)
      simp only [videoRule, if_pos hi, Option.getD_some] at hi'
      exact hi'.symm
    exact ⟨hkey.first (by decide), hkey⟩
  · rintro ⟨-, h⟩ i -
    simp only [videoRule]
    split_ifs with hi
    · exact (h i (by rwa [length_videoKey])).symm
    · rfl

theorem videoRule_write (value : List UInt8) :
    copyIn b (k + 17) (videoField value) = (videoRule value).write b k := by
  ext1 p
  have hlen : (videoRule value).len = 29 := rfl
  rw [copyIn, length_videoField]
  by_cases h : k ≤ p ∧ p < k + 29
  · rw [Rule.write_of_mem h]
    simp only [videoRule]
    split_ifs with h1 h2 h2
    · omega
    · rw [Option.getD_some, show p - (k + 17) = p - k - 17 by omega]
    · rfl
    · omega
  · rw [Rule.write_of_notMem (by omega), if_neg (by omega)]

theorem patchVideoFrom_eq (value : List UInt8) (fuel hits : ℕ) :
    (patchVideoFrom n value fuel k b hits).1 = skimFrom (videoRule value) n fuel k b := by
  induction fuel generalizing k b hits with
  | zero => rfl
  | succ fuel ih =>
    rw [patchVideoFrom, skimFrom, show (videoRule value).len = 29 from rfl, VIDEO_FIELD,
      ← videoRule_write]
    simp only [videoRule_stands]
    split_ifs
    · exact ih (hits + 1)
    · exact ih hits
    · rfl

theorem patchMedium_eq : patchMedium n b = (List.range (n + 1 - 25)).foldl
    (fun b k => [mediumRule].foldl (fun b r => r.apply n b k) b) b := by
  have hcd : (mediumLine "live-cd").length = 25 := by decide
  rw [patchMedium, hcd]
  refine List.foldl_ext _ _ _ fun b k hk => ?_
  have hk' : k < n + 1 - 25 := List.mem_range.mp hk
  exact turn_eq (by decide) (by decide) (by rw [hcd]; omega)

theorem foldl_update_odd (new : ℕ → UInt8) (L p : ℕ) :
    (List.range L).foldl (fun b m => Function.update b (k + 2 * m + 1) (new m)) b p =
      if k ≤ p ∧ p < k + 2 * L ∧ (p - k) % 2 = 1 then new ((p - k) / 2) else b p := by
  induction L with
  | zero => rw [if_neg (by omega)]; rfl
  | succ L ih =>
    rw [List.range_succ, List.foldl_concat, Function.update_apply, ih]
    split_ifs with h1 h2 h3 h4
    · rw [h1, show (k + 2 * L + 1 - k) / 2 = L by omega]
    · omega
    · rfl
    · omega
    · omega
    · rfl

theorem jolietRule_stands : (jolietRule w).Stands b k ↔ ∀ m < (markOld w).length,
    b (k + 2 * m) = 0 ∧ b (k + 2 * m + 1) = (markOld w).getD m 0 := by
  constructor
  · intro h m hm
    have h0 := h (2 * m) (show 2 * m < 2 * _ by omega)
    have h1 := h (2 * m + 1) (show 2 * m + 1 < 2 * _ by omega)
    simp only [jolietRule, Option.getD_some] at h0 h1
    rw [if_pos (by omega)] at h0
    rw [if_neg (by omega), show (2 * m + 1) / 2 = m by omega] at h1
    exact ⟨h0.symm, h1.symm⟩
  · intro h i hi
    have hi' : i < 2 * (markOld w).length := hi
    obtain ⟨h0, h1⟩ := h (i / 2) (by omega)
    simp only [jolietRule, Option.getD_some]
    split_ifs with heven
    · rw [← h0, show 2 * (i / 2) = i by omega]
    · rw [← h1, show k + 2 * (i / 2) + 1 = k + i by omega]

theorem markJoliet_eq : markJoliet w n b k = (jolietRule w).apply n b k := by
  have hpos : 0 < (markOld w).length := by simp [markOld, text]
  have hwrite : (List.range (markOld w).length).foldl
      (fun b m => Function.update b (k + 2 * m + 1) ((markNew w).getD m 0)) b =
        (jolietRule w).write b k := by
    ext1 p
    have hlen : (jolietRule w).len = 2 * (markOld w).length := rfl
    rw [foldl_update_odd fun m => (markNew w).getD m 0]
    by_cases h : k ≤ p ∧ p < k + 2 * (markOld w).length
    · rw [Rule.write_of_mem h]
      simp only [jolietRule]
      split_ifs with h1 h2 h2
      · omega
      · rfl
      · rfl
      · omega
    · rw [Rule.write_of_notMem (by omega), if_neg fun h' => h ⟨h'.1, h'.2.1⟩]
  rw [markJoliet, Rule.apply, hwrite, ← ite_and]
  refine if_congr ?_ rfl rfl
  rw [jolietRule_stands]
  constructor
  · rintro ⟨⟨hk, -⟩, h⟩
    exact ⟨hk, h⟩
  · rintro ⟨hk, h⟩
    exact ⟨⟨hk, h 0 hpos⟩, h⟩

/-- The last loop of `patch_marker`. -/
theorem patchMark_eq : (List.range (n + 1 - (markOld w).length)).foldl
      (fun b k => markJoliet w n (markBytes w b k) k) b =
    (List.range (n + 1 - (markOld w).length)).foldl
      (fun b k => [markRule w, jolietRule w].foldl (fun b r => r.apply n b k) b) b := by
  refine List.foldl_ext _ _ _ fun b k hk => ?_
  have hk' : k < n + 1 - (markOld w).length := List.mem_range.mp hk
  have hfirst : (markOld w).head? = some ((markOld w).getD 0 0) := by
    cases hw : markOld w with
    | nil => simp [markOld, text] at hw
    | cons x l => rfl
  have hbytes : markBytes w b k = (markRule w).apply n b k :=
    turn_eq hfirst length_markNew (by omega)
  rw [markJoliet_eq, hbytes]
  rfl

theorem patchMarker_congr (t : Texts) (h : ∀ p < n, b p = c p) :
    ∀ p < n, patchMarker t b n p = patchMarker t c n p := by
  have hvideo : ∀ p < n, (if t.video ≠ [] then (patchVideo b n t.video).1 else b) p =
      (if t.video ≠ [] then (patchVideo c n t.video).1 else c) p := by
    split_ifs
    · rw [patchVideo, patchVideo, patchVideoFrom_eq, patchVideoFrom_eq]
      exact skimFrom_congr h n
    · exact h
  rw [patchMarker, patchMarker, patchMedium_eq, patchMedium_eq]
  have hmedium := pass_congr hvideo [mediumRule] (n + 1 - 25)
  cases t.build with
  | none => exact hmedium
  | some w =>
    dsimp only
    rw [patchMark_eq, patchMark_eq]
    exact pass_congr hmedium [markRule w, jolietRule w] _

end BananaOS.Fsdisk
