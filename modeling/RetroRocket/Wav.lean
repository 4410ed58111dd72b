import RetroRocket.BlockSource
import RetroRocket.CaseFolding

/-!
# WAV files

`wav_from_memory` of `wav.c` with the functions that it calls. A file is a range of memory, and
reading outside it is `none`, as is writing outside the frames that were allocated and a loop that
does not end. What the floating point unit makes of a sample is a parameter. The positions of
samples have 32 bits behind the point.
-/

namespace RetroRocket

structure WavFile where
  bytes : Buffer
  size : ℕ

/-- `wav_fmt_t`. -/
structure WavFmt where
  formatTag : ℕ
  channels : ℕ
  samplerate : ℕ
  byterate : ℕ
  blockAlign : ℕ
  bitsPerSample : ℕ

/-- What `parse_wav_header` fills in. -/
structure WavHeader where
  fmt : WavFmt
  dataPtr : ℕ
  dataBytes : ℕ

/-- What the arguments of `wav_from_memory` point to at the end, and the frames that were
allocated. -/
structure WavOut where
  samples : ℕ → ℤ
  frames : ℕ
  bytes : ℕ

namespace Wav

/-! ## The file -/

def riffTag : ℕ := 0x46464952
def waveTag : ℕ := 0x45564157
def fmtTag : ℕ := 0x20746d66
def dataTag : ℕ := 0x61746164

/-- A read of `n` bytes. -/
def readable (w : WavFile) (off n : ℕ) : Option Unit := if off + n ≤ w.size then some () else none

def load8 (w : WavFile) (off : ℕ) : Option ℕ := do
  readable w off 1
  some (w.bytes off).toNat

def load16 (w : WavFile) (off : ℕ) : Option ℕ := do
  readable w off 2
  some (le16 w.bytes off)

def load24 (w : WavFile) (off : ℕ) : Option ℕ := do
  readable w off 3
  some (leValue w.bytes off 3)

def load32 (w : WavFile) (off : ℕ) : Option ℕ := do
  readable w off 4
  some (le32 w.bytes off)

def load64 (w : WavFile) (off : ℕ) : Option ℕ := do
  readable w off 8
  some (le64 w.bytes off)

def loadFmt (w : WavFile) (cdat : ℕ) : Option WavFmt := do
  let formatTag ← load16 w cdat
  let channels ← load16 w (cdat + 2)
  let samplerate ← load32 w (cdat + 4)
  let byterate ← load32 w (cdat + 8)
  let blockAlign ← load16 w (cdat + 12)
  let bitsPerSample ← load16 w (cdat + 14)
  some ⟨formatTag, channels, samplerate, byterate, blockAlign, bitsPerSample⟩

def chunksDone (fmt : Option WavFmt) (data : Option (ℕ × ℕ)) (more : Option (Option WavHeader)) :
    Option (Option WavHeader) :=
  match fmt, data with
  | some fmt, some data => some (some ⟨fmt, data.1, data.2⟩)
  | _, _ => more

/-- The chunks: `some none` is a file that is refused. -/
def chunkLoop (w : WavFile) : ℕ → ℕ → Option WavFmt → Option (ℕ × ℕ) → Option (Option WavHeader)
  | 0, _, _, _ => none
  | fuel + 1, off, fmt, data =>
    if off + 8 ≤ w.size then do
      let ckSize ← load32 w (off + 4)
      let adv := 8 + ckSize
      let adv := if adv % 2 ≠ 0 then adv + 1 else adv
      if w.size < off + 8 + ckSize then some none
      else do
        let tag ← load32 w off
        if tag = fmtTag then
          if ckSize < 16 then some none
          else do
            let fmt ← loadFmt w (off + 8)
            chunksDone (some fmt) data (chunkLoop w fuel (off + adv) (some fmt) data)
        else if tag = dataTag then
          chunksDone fmt (some (off + 8, ckSize))
            (chunkLoop w fuel (off + adv) fmt (some (off + 8, ckSize)))
        else chunksDone fmt data (chunkLoop w fuel (off + adv) fmt data)
    else some none

/-- The formats that are accepted: `1` is PCM, and `3` floating point. -/
def WavFmt.Accepted (fmt : WavFmt) : Prop :=
  ((fmt.formatTag = 1 ∧ (fmt.bitsPerSample = 8 ∨ fmt.bitsPerSample = 16 ∨ fmt.bitsPerSample = 24 ∨
      fmt.bitsPerSample = 32)) ∨
    (fmt.formatTag = 3 ∧ (fmt.bitsPerSample = 32 ∨ fmt.bitsPerSample = 64))) ∧
  1 ≤ fmt.channels ∧ fmt.samplerate ≠ 0 ∧ fmt.blockAlign ≠ 0

instance (fmt : WavFmt) : Decidable (WavFmt.Accepted fmt) :=
  inferInstanceAs (Decidable (_ ∧ _))

def parseWavHeader (w : WavFile) : Option (Option WavHeader) :=
  if w.size < 12 then some none
  else do
    let riff ← load32 w 0
    let wave ← load32 w 8
    if riff ≠ riffTag ∨ wave ≠ waveTag then some none
    else do
      let header ← chunkLoop w w.size 12 none none
      some (header.filter fun h => WavFmt.Accepted h.fmt)

/-! ## Samples -/

/-- A value of `bits` bits as a signed number. -/
def signed (bits n : ℕ) : ℤ := if n < 2 ^ (bits - 1) then n else n - 2 ^ bits

variable (float : ℕ → ℕ → ℤ)

def decodeSampleToS16 (w : WavFile) (base bits n : ℕ) (isFloat : Bool) : Option ℤ :=
  if ¬ isFloat then
    match bits with
    | 8 => (load8 w (base + n)).map fun u => ((u : ℤ) - 128) * 2 ^ 8
    | 16 => (load16 w (base + n * 2)).map (signed 16)
    | 24 => (load24 w (base + n * 3)).map fun v => signed 24 v / 2 ^ 8
    | 32 => (load32 w (base + n * 4)).map fun v => signed 32 v / 2 ^ 16
    | _ => some 0
  else
    match bits with
    | 32 => (load32 w (base + n * 4)).map (float 32)
    | 64 => (load64 w (base + n * 8)).map (float 64)
    | _ => some 0

def downmix (w : WavFile) (base bits : ℕ) (isFloat : Bool) : ℕ → Option (ℤ × ℤ × ℕ × ℕ)
  | 0 => some (0, 0, 0, 0)
  | ch + 1 => do
    let (accL, accR, cntL, cntR) ← downmix w base bits isFloat ch
    let s ← decodeSampleToS16 float w base bits ch isFloat
    if ch % 2 = 0 then some (accL + s, accR, cntL + 1, cntR)
    else some (accL, accR + s, cntL, cntR + 1)

def fetchFrameLrS16 (w : WavFile) (base channels bits : ℕ) (isFloat : Bool) : Option (ℤ × ℤ) :=
  if channels = 1 then do
    let m ← decodeSampleToS16 float w base bits 0 isFloat
    some (m, m)
  else if channels = 2 then do
    let l ← decodeSampleToS16 float w base bits 0 isFloat
    let r ← decodeSampleToS16 float w base bits 1 isFloat
    some (l, r)
  else do
    let (accL, accR, cntL, cntR) ← downmix float w base bits isFloat channels
    some (accL.tdiv (if cntL = 0 then 1 else cntL : ℕ),
      accR.tdiv (if cntR = 0 then 1 else cntR : ℕ))

/-! ## Conversion -/

def clamp (v lo hi : ℤ) : ℤ := if v ≤ lo then lo else if hi ≤ v then hi else v

structure Source where
  header : WavHeader
  isFloat : Bool
  block : ℕ
  frames : ℕ
  step : ℕ
  dstFrames : ℕ

/-- `dst[k] = v`. -/
def store (src : Source) (dst : ℕ → ℤ) (k : ℕ) (v : ℤ) : Option (ℕ → ℤ) :=
  if k < 2 * src.dstFrames then some (Function.update dst k v) else none

def interpolate (a b : ℤ) (frac : ℕ) : ℤ := clamp (a + (b - a) * frac / 2 ^ 32) (-32768) 32767

def convert (w : WavFile) (src : Source) (dst : ℕ → ℤ) : ℕ → Option (ℕ × (ℕ → ℤ))
  | 0 => some (0, dst)
  | i + 1 => do
    let (pos, dst) ← convert w src dst i
    let idx0 := u32 (pos / 2 ^ 32)
    let frac := pos % 2 ^ 32
    let idx0 := if src.frames ≤ idx0 then src.frames - 1 else idx0
    let idx1 := idx0 + 1
    let idx1 := if src.frames ≤ idx1 then src.frames - 1 else idx1
    let fmt := src.header.fmt
    let (l0, r0) ← fetchFrameLrS16 float w (src.header.dataPtr + idx0 * src.block) fmt.channels
      fmt.bitsPerSample src.isFloat
    let (l1, r1) ← fetchFrameLrS16 float w (src.header.dataPtr + idx1 * src.block) fmt.channels
      fmt.bitsPerSample src.isFloat
    let dst ← store src dst (u32 (i * 2)) (interpolate l0 l1 frac)
    let dst ← store src dst (u32 (i * 2 + 1)) (interpolate r0 r1 frac)
    let pos := u64 (pos + src.step)
    some (if src.frames - 1 < pos / 2 ^ 32 then (src.frames - 1) * 2 ^ 32 else pos, dst)

def dstRate : ℕ := 44100

/-- `".wav"`. -/
def wavSuffix : List Byte := [0x2e, 0x77, 0x61, 0x76]

/-- `wav_from_memory`: `some none` is a file that is refused. -/
def wavFromMemory (filename : List Byte) (w : WavFile) (kmalloc : ℕ → Option (ℕ → ℤ)) :
    Option (Option WavOut) :=
  if ¬ hasSuffixIcase filename wavSuffix then some none else do
  let header ← parseWavHeader w
  match header with
  | none => some none
  | some header =>
    let fmt := header.fmt
    let block := fmt.channels * ((fmt.bitsPerSample + 7) / 8)
    if block = 0 ∨ header.dataBytes < block then some none
    else
      let srcFrames := header.dataBytes / block
      if srcFrames = 0 ∨ 0x7FFFFFFF < srcFrames then some none
      else
        let dstFrames := u64 (srcFrames * dstRate + fmt.samplerate - 1) / fmt.samplerate
        if dstFrames = 0 ∨ 2 ^ 31 < dstFrames then some none
        else
          match kmalloc (dstFrames * 4) with
          | none => some none
          | some dst => do
            let (_, samples) ← convert float w
              { header := header
                isFloat := fmt.formatTag = 3
                block := block
                frames := srcFrames
                step := fmt.samplerate * 2 ^ 32 / dstRate
                dstFrames := dstFrames } dst dstFrames
            some (some ⟨samples, dstFrames, dstFrames * 4⟩)

end Wav

end RetroRocket
