import Mathlib.Order.Bounds.Defs
import Mathlib.Tactic.Linarith
import RetroRocket.Wav

/-!
# Converted WAV files

Every chunk that is kept lies in the file, so each frame that is fetched does, and no position leads
behind the last frame. A sample that is written is an interpolation of those at its position, which
the clamping of the position does not change, since both are the last frame there.
-/

namespace RetroRocket

namespace Wav

variable {float : ℕ → ℕ → ℤ} {w : WavFile} {off n base bits channels : ℕ} {isFloat : Bool}

/-! ## What is asked of it -/

def srcFrames (h : WavHeader) : ℕ :=
  h.dataBytes / (h.fmt.channels * ((h.fmt.bitsPerSample + 7) / 8))

def frameAt (float : ℕ → ℕ → ℤ) (w : WavFile) (h : WavHeader) (idx : ℕ) : ℤ × ℤ :=
  (fetchFrameLrS16 float w (h.dataPtr + idx * (h.fmt.channels * ((h.fmt.bitsPerSample + 7) / 8)))
    h.fmt.channels h.fmt.bitsPerSample (h.fmt.formatTag = 3)).getD (0, 0)

def positionOf (h : WavHeader) (i : ℕ) : ℕ := i * (h.fmt.samplerate * 2 ^ 32 / dstRate)

def indexBefore (h : WavHeader) (i : ℕ) : ℕ := min (positionOf h i / 2 ^ 32) (srcFrames h - 1)

def indexAfter (h : WavHeader) (i : ℕ) : ℕ := min (indexBefore h i + 1) (srcFrames h - 1)

/-- The output of a file: it is as long as it takes, each frame is made from two of the source, and
for PCM lies between them; and a file that has the format of the output is left as it is. -/
structure Converted (float : ℕ → ℕ → ℤ) (w : WavFile) (h : WavHeader) (out : WavOut) : Prop where
  length : IsLeast {n | srcFrames h * dstRate ≤ n * h.fmt.samplerate} out.frames
  bytes : out.bytes = 4 * out.frames
  indices : ∀ i, indexBefore h i < srcFrames h ∧ indexAfter h i < srcFrames h
  written : ∀ i < out.frames,
    out.samples (2 * i) = interpolate (frameAt float w h (indexBefore h i)).1
      (frameAt float w h (indexAfter h i)).1 (positionOf h i % 2 ^ 32) ∧
    out.samples (2 * i + 1) = interpolate (frameAt float w h (indexBefore h i)).2
      (frameAt float w h (indexAfter h i)).2 (positionOf h i % 2 ^ 32)
  between : h.fmt.formatTag = 1 → ∀ i < out.frames,
    out.samples (2 * i) ∈ Set.uIcc (frameAt float w h (indexBefore h i)).1
      (frameAt float w h (indexAfter h i)).1 ∧
    out.samples (2 * i + 1) ∈ Set.uIcc (frameAt float w h (indexBefore h i)).2
      (frameAt float w h (indexAfter h i)).2
  same : h.fmt.formatTag = 1 → h.fmt.channels = 2 → h.fmt.bitsPerSample = 16 →
    h.fmt.samplerate = dstRate → out.frames = srcFrames h ∧ ∀ i < out.frames,
      out.samples (2 * i) = signed 16 (le16 w.bytes (h.dataPtr + 4 * i)) ∧
      out.samples (2 * i + 1) = signed 16 (le16 w.bytes (h.dataPtr + 4 * i + 2))

/-! ## Reading -/

theorem readable_of_le (h : off + n ≤ w.size) : readable w off n = some () := if_pos h

theorem load8_of_le (h : off + 1 ≤ w.size) : load8 w off = some (w.bytes off).toNat := by
  unfold load8
  rw [readable_of_le h]
  rfl

theorem load16_of_le (h : off + 2 ≤ w.size) : load16 w off = some (le16 w.bytes off) := by
  unfold load16
  rw [readable_of_le h]
  rfl

theorem load24_of_le (h : off + 3 ≤ w.size) :
    load24 w off = some (leValue w.bytes off 3) := by
  unfold load24
  rw [readable_of_le h]
  rfl

theorem load32_of_le (h : off + 4 ≤ w.size) : load32 w off = some (le32 w.bytes off) := by
  unfold load32
  rw [readable_of_le h]
  rfl

theorem load64_of_le (h : off + 8 ≤ w.size) : load64 w off = some (le64 w.bytes off) := by
  unfold load64
  rw [readable_of_le h]
  rfl

/-! ## The chunks -/

structure Inside (w : WavFile) (h : WavHeader) : Prop where
  data : h.dataPtr + h.dataBytes ≤ w.size
  dataBytes : h.dataBytes < 2 ^ 32
  channels : h.fmt.channels < 2 ^ 16
  samplerate : h.fmt.samplerate < 2 ^ 32

theorem loadFmt_of_le (h : off + 16 ≤ w.size) :
    ∃ fmt, loadFmt w off = some fmt ∧ fmt.channels < 2 ^ 16 ∧ fmt.samplerate < 2 ^ 32 := by
  unfold loadFmt
  rw [load16_of_le (by omega), load16_of_le (by omega), load32_of_le (by omega),
    load32_of_le (by omega), load16_of_le (by omega), load16_of_le (by omega)]
  exact ⟨_, rfl, le16_lt _ _, le32_lt _ _⟩

theorem chunkLoop_spec {fuel : ℕ} {fmt : Option WavFmt} {data : Option (ℕ × ℕ)} (hfuel : 0 < fuel)
    (hoff : w.size < off + fuel) (hdata : ∀ d ∈ data, d.1 + d.2 ≤ w.size ∧ d.2 < 2 ^ 32)
    (hfmt : ∀ f ∈ fmt, f.channels < 2 ^ 16 ∧ f.samplerate < 2 ^ 32) :
    ∃ r, chunkLoop w fuel off fmt data = some r ∧ ∀ h ∈ r, Inside w h := by
  induction fuel generalizing off fmt data with
  | zero => exact absurd hfuel (lt_irrefl 0)
  | succ fuel ih =>
    unfold chunkLoop
    dsimp only
    by_cases hchunk : off + 8 ≤ w.size
    · rw [if_pos hchunk, load32_of_le (by omega)]
      dsimp only [Option.bind_eq_bind, Option.bind_some]
      have hck := le32_lt w.bytes (off + 4)
      generalize le32 w.bytes (off + 4) = ckSize at hck
      by_cases hlong : w.size < off + 8 + ckSize
      · rw [if_pos hlong]
        exact ⟨none, rfl, fun h hh => by cases hh⟩
      · rw [if_neg hlong, load32_of_le (by omega)]
        dsimp only [Option.bind_eq_bind, Option.bind_some]
        -- the end of the turn, with what the chunk was
        have hnext : ∀ (fmt : Option WavFmt) (data : Option (ℕ × ℕ)) (off' : ℕ),
            off + 8 ≤ off' → (∀ d ∈ data, d.1 + d.2 ≤ w.size ∧ d.2 < 2 ^ 32) →
            (∀ f ∈ fmt, f.channels < 2 ^ 16 ∧ f.samplerate < 2 ^ 32) →
            ∃ r, chunksDone fmt data (chunkLoop w fuel off' fmt data) = some r ∧
              ∀ h ∈ r, Inside w h := by
          intro fmt data off' hoff' hdata hfmt
          have hloop := ih (by omega) (by omega : w.size < off' + fuel) hdata hfmt
          cases fmt with
          | none => exact hloop
          | some f =>
            cases data with
            | none => exact hloop
            | some d =>
              refine ⟨_, rfl, fun h hh => ?_⟩
              obtain rfl := Option.some.inj hh
              exact ⟨(hdata d rfl).1, (hdata d rfl).2, (hfmt f rfl).1, (hfmt f rfl).2⟩
        have hadv : ∀ n, off + 8 ≤ off + if (8 + n) % 2 ≠ 0 then 8 + n + 1 else 8 + n := by
          intro n
          split <;> omega
        split
        · split
          · exact ⟨none, rfl, fun h hh => by cases hh⟩
          · have hfits : off + 8 + 16 ≤ w.size := by omega
            obtain ⟨f, hf, hchannels, hrate⟩ := loadFmt_of_le hfits
            rw [hf]
            refine hnext (some f) data _ (hadv _) hdata fun f' hf' => ?_
            obtain rfl := Option.some.inj hf'
            exact ⟨hchannels, hrate⟩
        · split
          · refine hnext fmt (some (off + 8, ckSize)) _ (hadv _) (fun d hd => ?_) hfmt
            obtain rfl := Option.some.inj hd
            exact ⟨not_lt.mp hlong, hck⟩
          · exact hnext fmt data _ (hadv _) hdata hfmt
    · rw [if_neg hchunk]
      exact ⟨none, rfl, fun h hh => by cases hh⟩

theorem parseWavHeader_spec (w : WavFile) :
    ∃ r, parseWavHeader w = some r ∧ ∀ h ∈ r, Inside w h ∧ WavFmt.Accepted h.fmt := by
  unfold parseWavHeader
  by_cases hsize : w.size < 12
  · exact ⟨none, if_pos hsize, fun h hh => by cases hh⟩
  · rw [if_neg hsize, load32_of_le (by omega), load32_of_le (by omega)]
    dsimp only [Option.bind_eq_bind, Option.bind_some]
    split
    · exact ⟨none, rfl, fun h hh => by cases hh⟩
    · have hoff : w.size < 12 + w.size := by omega
      obtain ⟨r, hr, hinside⟩ : ∃ r, chunkLoop w w.size 12 none none = some r ∧ _ :=
        chunkLoop_spec (by omega) hoff (fun d hd => by cases hd) (fun f hf => by cases hf)
      rw [hr]
      refine ⟨_, rfl, fun h hh => ?_⟩
      obtain ⟨hmem, haccepted⟩ := Option.filter_eq_some_iff.mp hh
      exact ⟨hinside h hmem, of_decide_eq_true haccepted⟩

/-! ## Frames -/

def InRange (s : ℤ) : Prop := -32768 ≤ s ∧ s ≤ 32767

theorem signed_bounds {k m : ℕ} (hm : m < 2 ^ (k + 1)) :
    -(2 : ℤ) ^ k ≤ signed (k + 1) m ∧ signed (k + 1) m < 2 ^ k := by
  have hpow : (2 : ℤ) ^ (k + 1) = 2 * 2 ^ k := pow_succ' 2 k
  have hm' : (m : ℤ) < 2 ^ (k + 1) := by exact_mod_cast hm
  unfold signed
  rw [Nat.add_sub_cancel]
  split
  · next hlow =>
    have hlow' : (m : ℤ) < 2 ^ k := by exact_mod_cast hlow
    omega
  · next hhigh =>
    have hhigh' : (2 : ℤ) ^ k ≤ m := by exact_mod_cast not_lt.mp hhigh
    rw [hpow] at hm' ⊢
    omega

theorem decode_spec (float : ℕ → ℕ → ℤ) (isFloat : Bool)
    (h : base + (n + 1) * ((bits + 7) / 8) ≤ w.size) :
    ∃ s, decodeSampleToS16 float w base bits n isFloat = some s ∧
      (isFloat = false → InRange s) := by
  unfold decodeSampleToS16
  cases isFloat with
  | false =>
    rw [if_pos (by decide)]
    split
    · rw [load8_of_le (by omega)]
      have hbyte := (w.bytes (base + n)).isLt
      refine ⟨_, rfl, fun _ => ?_⟩
      unfold InRange
      dsimp only
      omega
    · rw [load16_of_le (by omega)]
      have hbounds : -(2 : ℤ) ^ 15 ≤ signed 16 _ ∧ signed 16 _ < (2 : ℤ) ^ 15 :=
        signed_bounds (le16_lt w.bytes (base + n * 2))
      refine ⟨_, rfl, fun _ => ?_⟩
      unfold InRange
      omega
    · rw [load24_of_le (by omega)]
      have hbounds : -(2 : ℤ) ^ 23 ≤ signed 24 _ ∧ signed 24 _ < (2 : ℤ) ^ 23 :=
        signed_bounds (leValue_lt w.bytes (base + n * 3) 3)
      refine ⟨_, rfl, fun _ => ?_⟩
      unfold InRange
      dsimp only
      omega
    · rw [load32_of_le (by omega)]
      have hbounds : -(2 : ℤ) ^ 31 ≤ signed 32 _ ∧ signed 32 _ < (2 : ℤ) ^ 31 :=
        signed_bounds (le32_lt w.bytes (base + n * 4))
      refine ⟨_, rfl, fun _ => ?_⟩
      unfold InRange
      dsimp only
      omega
    · exact ⟨0, rfl, fun _ => by unfold InRange; omega⟩
  | true =>
    rw [if_neg (by decide)]
    split
    · rw [load32_of_le (by omega)]
      exact ⟨_, rfl, fun hfloat => by cases hfloat⟩
    · rw [load64_of_le (by omega)]
      exact ⟨_, rfl, fun hfloat => by cases hfloat⟩
    · exact ⟨0, rfl, fun hfloat => by cases hfloat⟩

theorem downmix_spec (float : ℕ → ℕ → ℤ) (isFloat : Bool)
    (h : base + channels * ((bits + 7) / 8) ≤ w.size) :
    ∃ accL accR cntL cntR, downmix float w base bits isFloat channels = some
      (accL, accR, cntL, cntR) ∧
      (isFloat = false → (-32768 * (cntL : ℤ) ≤ accL ∧ accL ≤ 32767 * cntL) ∧
        -32768 * (cntR : ℤ) ≤ accR ∧ accR ≤ 32767 * cntR) := by
  induction channels with
  | zero => exact ⟨0, 0, 0, 0, rfl, fun _ => by omega⟩
  | succ ch ih =>
    rw [Nat.succ_mul] at h
    obtain ⟨accL, accR, cntL, cntR, hmix, hrange⟩ := ih (by omega)
    obtain ⟨s, hs, hsrange⟩ := decode_spec float isFloat (by rw [Nat.succ_mul]; omega)
    unfold downmix
    rw [hmix]
    dsimp only [Option.bind_eq_bind, Option.bind_some]
    rw [hs]
    dsimp only [Option.bind_some]
    split
    · refine ⟨_, _, _, _, rfl, fun hpcm => ?_⟩
      have hacc := hrange hpcm
      have hsample := hsrange hpcm
      unfold InRange at hsample
      push_cast
      omega
    · refine ⟨_, _, _, _, rfl, fun hpcm => ?_⟩
      have hacc := hrange hpcm
      have hsample := hsrange hpcm
      unfold InRange at hsample
      push_cast
      omega

theorem inRange_mean {acc : ℤ} {cnt : ℕ} (hlow : -32768 * (cnt : ℤ) ≤ acc)
    (hhigh : acc ≤ 32767 * cnt) : InRange (acc.tdiv (if cnt = 0 then 1 else cnt : ℕ)) := by
  by_cases hcnt : cnt = 0
  · subst hcnt
    have hzero : acc = 0 := by omega
    subst hzero
    exact ⟨by decide, by decide⟩
  · rw [if_neg hcnt]
    have hpos : (0 : ℤ) < cnt := by omega
    by_cases hsign : 0 ≤ acc
    · rw [Int.tdiv_eq_ediv_of_nonneg hsign]
      have hnonneg := Int.ediv_nonneg hsign hpos.le
      have hle := Int.ediv_le_ediv hpos hhigh
      rw [Int.mul_ediv_cancel _ hpos.ne'] at hle
      exact ⟨by omega, hle⟩
    · have hneg : acc.tdiv cnt = -(-acc / cnt) := by
        rw [← Int.tdiv_eq_ediv_of_nonneg (by omega), Int.neg_tdiv, neg_neg]
      have hnonneg := Int.ediv_nonneg (by omega : 0 ≤ -acc) hpos.le
      have hle := Int.ediv_le_ediv hpos (by omega : -acc ≤ 32768 * cnt)
      rw [Int.mul_ediv_cancel _ hpos.ne'] at hle
      rw [hneg]
      exact ⟨by omega, by omega⟩

theorem fetch_spec (float : ℕ → ℕ → ℤ) (isFloat : Bool) (hchannels : 1 ≤ channels)
    (h : base + channels * ((bits + 7) / 8) ≤ w.size) :
    ∃ l r, fetchFrameLrS16 float w base channels bits isFloat = some (l, r) ∧
      (isFloat = false → InRange l ∧ InRange r) := by
  unfold fetchFrameLrS16
  by_cases hone : channels = 1
  · subst hone
    obtain ⟨s, hs, hrange⟩ := decode_spec float isFloat (n := 0) h
    rw [if_pos rfl, hs]
    exact ⟨s, s, rfl, fun hpcm => ⟨hrange hpcm, hrange hpcm⟩⟩
  · rw [if_neg hone]
    by_cases htwo : channels = 2
    · subst htwo
      have hfirst : base + (0 + 1) * ((bits + 7) / 8) ≤ w.size := by omega
      obtain ⟨l, hl, hlrange⟩ := decode_spec float isFloat hfirst
      obtain ⟨r, hr, hrrange⟩ := decode_spec float isFloat (n := 1) h
      rw [if_pos rfl, hl]
      dsimp only [Option.bind_eq_bind, Option.bind_some]
      rw [hr]
      exact ⟨l, r, rfl, fun hpcm => ⟨hlrange hpcm, hrrange hpcm⟩⟩
    · obtain ⟨accL, accR, cntL, cntR, hmix, hrange⟩ := downmix_spec float isFloat h
      rw [if_neg htwo, hmix]
      refine ⟨_, _, rfl, fun hpcm => ?_⟩
      obtain ⟨⟨hlowL, hhighL⟩, hlowR, hhighR⟩ := hrange hpcm
      exact ⟨inRange_mean hlowL hhighL, inRange_mean hlowR hhighR⟩

/-! ## Interpolation -/

theorem clamp_of_mem {v lo hi : ℤ} (hlo : lo ≤ v) (hhi : v ≤ hi) : clamp v lo hi = v := by
  unfold clamp
  split
  · omega
  · split <;> omega

theorem interpolate_self (a : ℤ) (frac frac' : ℕ) :
    interpolate a a frac = interpolate a a frac' := by
  unfold interpolate
  rw [sub_self, zero_mul, zero_mul]

theorem interpolate_zero {a : ℤ} (ha : InRange a) (b : ℤ) : interpolate a b 0 = a := by
  unfold interpolate
  rw [Nat.cast_zero, mul_zero, Int.zero_ediv, add_zero]
  exact clamp_of_mem ha.1 ha.2

theorem interpolate_mem {a b : ℤ} {frac : ℕ} (ha : InRange a) (hb : InRange b)
    (hfrac : frac < 2 ^ 32) : interpolate a b frac ∈ Set.uIcc a b := by
  have hpos : (0 : ℤ) < 2 ^ 32 := by decide
  have hfrac' : (frac : ℤ) ≤ 2 ^ 32 := by exact_mod_cast hfrac.le
  have hnonneg : (0 : ℤ) ≤ frac := Int.natCast_nonneg frac
  obtain ⟨halow, hahigh⟩ := ha
  obtain ⟨hblow, hbhigh⟩ := hb
  rw [Set.mem_uIcc]
  unfold interpolate
  rcases le_total a b with hab | hba
  · have hlow : 0 ≤ (b - a) * frac / 2 ^ 32 :=
      Int.ediv_nonneg (mul_nonneg (by omega) hnonneg) hpos.le
    have hhigh : (b - a) * frac / 2 ^ 32 ≤ b - a :=
      Int.ediv_le_of_le_mul hpos (mul_le_mul_of_nonneg_left hfrac' (by omega))
    rw [clamp_of_mem (by omega) (by omega)]
    exact Or.inl ⟨by omega, by omega⟩
  · have hlow : b - a ≤ (b - a) * frac / 2 ^ 32 :=
      (Int.le_ediv_iff_mul_le hpos).mpr (mul_le_mul_of_nonpos_left hfrac' (by omega))
    have hhigh : (b - a) * frac / 2 ^ 32 ≤ 0 := by
      refine Int.ediv_le_of_le_mul hpos ?_
      rw [zero_mul]
      exact mul_nonpos_of_nonpos_of_nonneg (by omega) hnonneg
    rw [clamp_of_mem (by omega) (by omega)]
    exact Or.inr ⟨by omega, by omega⟩

/-! ## The loop -/

structure Ready (w : WavFile) (h : WavHeader) : Prop extends Inside w h where
  channels_pos : 1 ≤ h.fmt.channels
  frames_pos : 0 < srcFrames h
  frames_le : srcFrames h ≤ 0x7FFFFFFF

def sourceOf (h : WavHeader) (dstFrames : ℕ) : Source where
  header := h
  isFloat := h.fmt.formatTag = 3
  block := h.fmt.channels * ((h.fmt.bitsPerSample + 7) / 8)
  frames := srcFrames h
  step := h.fmt.samplerate * 2 ^ 32 / dstRate
  dstFrames := dstFrames

theorem Ready.fetch {h : WavHeader} (hready : Ready w h) (float : ℕ → ℕ → ℤ)
    (dstFrames : ℕ) {idx : ℕ} (hidx : idx < srcFrames h) :
    fetchFrameLrS16 float w (h.dataPtr + idx * (sourceOf h dstFrames).block) h.fmt.channels
        h.fmt.bitsPerSample (sourceOf h dstFrames).isFloat = some (frameAt float w h idx) ∧
      (h.fmt.formatTag = 1 → InRange (frameAt float w h idx).1 ∧
        InRange (frameAt float w h idx).2) := by
  have hfits : h.dataPtr + idx * (h.fmt.channels * ((h.fmt.bitsPerSample + 7) / 8)) +
      h.fmt.channels * ((h.fmt.bitsPerSample + 7) / 8) ≤ w.size := by
    have hmul := Nat.mul_le_mul_right (h.fmt.channels * ((h.fmt.bitsPerSample + 7) / 8))
      (Nat.succ_le_of_lt hidx)
    have hdiv : srcFrames h * (h.fmt.channels * ((h.fmt.bitsPerSample + 7) / 8)) ≤ h.dataBytes :=
      Nat.div_mul_le_self _ _
    have hdata := hready.data
    rw [Nat.succ_mul] at hmul
    omega
  obtain ⟨l, r, hfetch, hrange⟩ := fetch_spec float (h.fmt.formatTag = 3) hready.channels_pos hfits
  have hframe : frameAt float w h idx = (l, r) := by
    unfold frameAt
    rw [hfetch]
    rfl
  rw [hframe]
  refine ⟨hfetch, fun hpcm => hrange ?_⟩
  rw [hpcm]
  rfl

def AtPosition (h : WavHeader) (i pos : ℕ) : Prop :=
  (pos = positionOf h i ∧ pos / 2 ^ 32 < srcFrames h) ∨
    (srcFrames h ≤ positionOf h i / 2 ^ 32 ∧ pos / 2 ^ 32 = srcFrames h - 1)

theorem positionOf_succ (h : WavHeader) (i : ℕ) :
    positionOf h (i + 1) = positionOf h i + h.fmt.samplerate * 2 ^ 32 / dstRate := Nat.succ_mul _ _

theorem AtPosition.index {h : WavHeader} {i pos : ℕ} (hat : AtPosition h i pos) :
    indexBefore h i = pos / 2 ^ 32 := by
  unfold indexBefore
  rcases hat with ⟨rfl, hlt⟩ | ⟨hle, heq⟩ <;> omega

theorem AtPosition.interpolate_eq {h : WavHeader} {i pos : ℕ} (hat : AtPosition h i pos)
    (f : ℕ → ℤ) :
    interpolate (f (indexBefore h i)) (f (indexAfter h i)) (pos % 2 ^ 32) =
      interpolate (f (indexBefore h i)) (f (indexAfter h i)) (positionOf h i % 2 ^ 32) := by
  have hindex := hat.index
  rcases hat with ⟨rfl, -⟩ | ⟨-, heq⟩
  · rfl
  · have hlast : indexAfter h i = indexBefore h i := by
      unfold indexAfter
      omega
    rw [hlast]
    exact interpolate_self _ _ _

theorem AtPosition.next {h : WavHeader} (hready : Ready w h) {i pos : ℕ}
    (hat : AtPosition h i pos) :
    AtPosition h (i + 1)
      (if srcFrames h - 1 < u64 (pos + h.fmt.samplerate * 2 ^ 32 / dstRate) / 2 ^ 32 then
        (srcFrames h - 1) * 2 ^ 32
      else u64 (pos + h.fmt.samplerate * 2 ^ 32 / dstRate)) := by
  have hpos : pos / 2 ^ 32 < srcFrames h := by
    have hframes := hready.frames_pos
    rcases hat with ⟨-, hlt⟩ | ⟨-, heq⟩ <;> omega
  have hstep : h.fmt.samplerate * 2 ^ 32 / dstRate < 2 ^ 50 := by
    have hrate := hready.samplerate
    unfold dstRate
    omega
  have hframes := hready.frames_le
  rw [u64_of_lt (by omega)]
  unfold AtPosition at hat ⊢
  rw [positionOf_succ]
  generalize h.fmt.samplerate * 2 ^ 32 / dstRate = step at hstep ⊢
  split
  · rcases hat with ⟨heq, -⟩ | ⟨hle, heq⟩ <;> right <;> omega
  · rcases hat with ⟨heq, -⟩ | ⟨hle, heq⟩
    · left
      omega
    · right
      omega

def Written (float : ℕ → ℕ → ℤ) (w : WavFile) (h : WavHeader) (out : ℕ → ℤ) (i : ℕ) : Prop :=
  out (2 * i) = interpolate (frameAt float w h (indexBefore h i)).1
    (frameAt float w h (indexAfter h i)).1 (positionOf h i % 2 ^ 32) ∧
  out (2 * i + 1) = interpolate (frameAt float w h (indexBefore h i)).2
    (frameAt float w h (indexAfter h i)).2 (positionOf h i % 2 ^ 32)

theorem convert_spec (float : ℕ → ℕ → ℤ) {h : WavHeader} (hready : Ready w h) {dstFrames : ℕ}
    (hdst : dstFrames ≤ 2 ^ 31) (dst : ℕ → ℤ) {i : ℕ} (hi : i ≤ dstFrames) :
    ∃ pos out, convert float w (sourceOf h dstFrames) dst i = some (pos, out) ∧ AtPosition h i pos ∧
      ∀ k < i, Written float w h out k := by
  induction i with
  | zero =>
    refine ⟨0, dst, rfl, Or.inl ⟨(Nat.zero_mul _).symm, ?_⟩, fun k hk =>
      absurd hk (Nat.not_lt_zero k)⟩
    exact hready.frames_pos
  | succ i ih =>
    obtain ⟨pos, out, hconvert, hat, hwritten⟩ := ih (Nat.le_of_succ_le hi)
    have hindex := hat.index
    have hframes := hready.frames_le
    have hbefore : indexBefore h i < srcFrames h := by
      have := hready.frames_pos
      unfold indexBefore
      omega
    have hafter : indexAfter h i < srcFrames h := by
      unfold indexAfter
      omega
    have hidx : u32 (pos / 2 ^ 32) = indexBefore h i := by
      rw [hindex]
      exact u32_of_lt (by omega)
    have hclamp :
      (if srcFrames h ≤ indexBefore h i + 1 then srcFrames h - 1 else indexBefore h i + 1) =
        indexAfter h i := by
      unfold indexAfter
      split <;> omega
    have hfetch : ∀ idx < srcFrames h, fetchFrameLrS16 float w
        ((sourceOf h dstFrames).header.dataPtr + idx * (sourceOf h dstFrames).block)
        (sourceOf h dstFrames).header.fmt.channels (sourceOf h dstFrames).header.fmt.bitsPerSample
        (sourceOf h dstFrames).isFloat = some (frameAt float w h idx) :=
      fun idx hidx => (hready.fetch float dstFrames hidx).1
    have hstore : ∀ (out : ℕ → ℤ) (k : ℕ) (v : ℤ), k < 2 * dstFrames →
        store (sourceOf h dstFrames) out k v = some (Function.update out k v) :=
      fun out k v hk => if_pos hk
    have hconvert' : convert float w (sourceOf h dstFrames) dst (i + 1) =
        (convert float w (sourceOf h dstFrames) dst i).bind _ := rfl
    have hframesEq : (sourceOf h dstFrames).frames = srcFrames h := rfl
    rw [hconvert', hconvert]
    dsimp only [Option.bind_some]
    rw [hidx, hframesEq, if_neg (not_le.mpr hbefore), hclamp, hfetch _ hbefore, hfetch _ hafter,
      u32_of_lt (by omega : i * 2 < 2 ^ 32), u32_of_lt (by omega : i * 2 + 1 < 2 ^ 32)]
    dsimp only [Option.bind_eq_bind, Option.bind_some]
    rw [hstore _ _ _ (by omega)]
    dsimp only [Option.bind_some]
    rw [hstore _ _ _ (by omega)]
    refine ⟨_, _, rfl, hat.next hready, fun k hk => ?_⟩
    rcases Nat.lt_succ_iff_lt_or_eq.mp hk with hk | rfl
    · -- the earlier frames are left as they are
      have hold := hwritten k hk
      unfold Written
      rw [Function.update_of_ne (by omega), Function.update_of_ne (by omega),
        Function.update_of_ne (by omega), Function.update_of_ne (by omega)]
      exact hold
    · constructor
      · rw [Nat.mul_comm 2 k, Function.update_of_ne (by omega), Function.update_self]
        exact hat.interpolate_eq fun idx => (frameAt float w h idx).1
      · rw [Nat.mul_comm 2 k, Function.update_self]
        exact hat.interpolate_eq fun idx => (frameAt float w h idx).2

/-! ## Files -/

theorem isLeast_ceil {a b : ℕ} (hb : 0 < b) : IsLeast {n | a ≤ n * b} ((a + b - 1) / b) := by
  constructor
  · have hlt := Nat.lt_div_mul_add hb (a := a + b - 1)
    change a ≤ _
    omega
  · intro n hn
    change a ≤ n * b at hn
    rw [Nat.div_le_iff_le_mul_add_pred hb, Nat.mul_comm b n]
    omega

theorem Ready.frameAt_same {h : WavHeader} (hready : Ready w h) (hpcm : h.fmt.formatTag = 1)
    (hchannels : h.fmt.channels = 2) (hbits : h.fmt.bitsPerSample = 16) {i : ℕ}
    (hi : i < srcFrames h) :
    frameAt float w h i = (signed 16 (le16 w.bytes (h.dataPtr + 4 * i)),
      signed 16 (le16 w.bytes (h.dataPtr + 4 * i + 2))) := by
  have hframes : srcFrames h = h.dataBytes / 4 := by
    unfold srcFrames
    rw [hchannels, hbits]
  have hdata := hready.data
  unfold frameAt fetchFrameLrS16 decodeSampleToS16
  rw [hchannels, hbits, hpcm,
    if_neg (by decide), if_pos rfl, if_pos (by decide), if_pos (by decide)]
  have hbase : h.dataPtr + i * (2 * ((16 + 7) / 8)) = h.dataPtr + 4 * i := by omega
  rw [hbase, load16_of_le (by omega), load16_of_le (by omega)]
  rfl

theorem Ready.converted {h : WavHeader} (hready : Ready w h) (hrate : h.fmt.samplerate ≠ 0)
    {out : ℕ → ℤ} {dstFrames : ℕ}
    (hlen : dstFrames = (srcFrames h * dstRate + h.fmt.samplerate - 1) / h.fmt.samplerate)
    (hwritten : ∀ k < dstFrames, Written float w h out k) :
    Converted float w h ⟨out, dstFrames, dstFrames * 4⟩ := by
  have hpos := hready.frames_pos
  have hindices : ∀ i, indexBefore h i < srcFrames h ∧ indexAfter h i < srcFrames h := by
    intro i
    unfold indexAfter indexBefore
    omega
  have hrange : h.fmt.formatTag = 1 → ∀ idx < srcFrames h,
      InRange (frameAt float w h idx).1 ∧ InRange (frameAt float w h idx).2 :=
    fun hpcm idx hidx => (hready.fetch float dstFrames hidx).2 hpcm
  have hfrac : ∀ i, positionOf h i % 2 ^ 32 < 2 ^ 32 := fun i => Nat.mod_lt _ (by decide)
  refine ⟨?_, Nat.mul_comm _ _, hindices, hwritten, fun hpcm i hi => ?_,
    fun hpcm hch hbits hsame => ?_⟩
  · rw [hlen]
    exact isLeast_ceil (Nat.pos_of_ne_zero hrate)
  · obtain ⟨hl, hr⟩ := hwritten i hi
    obtain ⟨hl0, hr0⟩ := hrange hpcm _ (hindices i).1
    obtain ⟨hl1, hr1⟩ := hrange hpcm _ (hindices i).2
    dsimp only
    rw [hl, hr]
    exact ⟨interpolate_mem hl0 hl1 (hfrac i), interpolate_mem hr0 hr1 (hfrac i)⟩
  · have hframes : dstFrames = srcFrames h := by
      rw [hlen, hsame]
      unfold dstRate
      omega
    refine ⟨hframes, fun i hi => ?_⟩
    have hposition : positionOf h i = i * 2 ^ 32 := by
      unfold positionOf
      rw [hsame, Nat.mul_div_cancel_left _ (by decide)]
    have hindex : indexBefore h i = i := by
      have hlast : i ≤ srcFrames h - 1 := Nat.le_sub_one_of_lt (hframes ▸ hi)
      unfold indexBefore
      rw [hposition, Nat.mul_div_cancel _ (by decide), min_eq_left hlast]
    have hzero : positionOf h i % 2 ^ 32 = 0 := by
      rw [hposition]
      exact Nat.mul_mod_left _ _
    obtain ⟨hl, hr⟩ := hwritten i hi
    obtain ⟨hl0, hr0⟩ := hrange hpcm i (hframes ▸ hi)
    rw [hindex, hzero, interpolate_zero hl0] at hl
    rw [hindex, hzero, interpolate_zero hr0] at hr
    dsimp only
    rw [hl, hr, hready.frameAt_same hpcm hch hbits (hframes ▸ hi)]
    exact ⟨rfl, rfl⟩

end Wav

end RetroRocket
