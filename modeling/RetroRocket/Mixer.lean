import RetroRocket.Bits

/-!
# The audio mixer

The functions of `mixer.c` that queue frames, change a stream, and mix. Samples are 16-bit and the
accumulator is 32-bit, both interleaved; an SSE2 register is the function from its lanes. A chunk
keeps its frames and `rpos`, a stream its chunks from `head` on. `kmalloc` says which allocations
succeed: for the chunk of a queueing loop by the number of frames queued before it, for the queueing
loops of one call by where they run. `frequency` and `queue_length` of the device are arguments of
`mixer_idle`, and `visualiser_process` is left out.
-/

namespace RetroRocket

structure AudioFrame where
  left : BitVec 16
  right : BitVec 16
  deriving DecidableEq

abbrev Samples := ℕ → BitVec 16

/-- `mix_accum`. -/
abbrev Accum := ℕ → BitVec 32

def samplesOf (frames : List AudioFrame) : Samples := fun k =>
  let f := frames.getD (k / 2) ⟨0, 0⟩
  if k % 2 = 0 then f.left else f.right

/-! ## The intrinsics -/

def mmSet1Epi16 (x : BitVec 16) : ℕ → BitVec 16 := fun _ => x

def mmSraiEpi16 (a : ℕ → BitVec 16) (n : ℕ) : ℕ → BitVec 16 := fun i => (a i).sshiftRight n

def mmSraiEpi32 (a : ℕ → BitVec 32) (n : ℕ) : ℕ → BitVec 32 := fun i => (a i).sshiftRight n

def mmUnpackloEpi16 (a b : ℕ → BitVec 16) : ℕ → BitVec 16 :=
  fun i => if i % 2 = 0 then a (i / 2) else b (i / 2)

def mmUnpackhiEpi16 (a b : ℕ → BitVec 16) : ℕ → BitVec 16 :=
  fun i => if i % 2 = 0 then a (4 + i / 2) else b (4 + i / 2)

def mmMaddEpi16 (a b : ℕ → BitVec 16) : ℕ → BitVec 32 := fun i =>
  (a (2 * i)).signExtend 32 * (b (2 * i)).signExtend 32 +
    (a (2 * i + 1)).signExtend 32 * (b (2 * i + 1)).signExtend 32

def mmAddEpi32 (a b : ℕ → BitVec 32) : ℕ → BitVec 32 := fun i => a i + b i

/-- `_mm_storeu_si128` to four elements of the accumulator. -/
def storeu (acc : Accum) (dst : ℕ) (v : ℕ → BitVec 32) : Accum :=
  fun j => if dst ≤ j ∧ j < dst + 4 then v (j - dst) else acc j

/-! ## Mixing a piece of a chunk -/

/-- `dst[0] += x; dst[1] += y`. -/
def addFrame (acc : Accum) (dst : ℕ) (x y : BitVec 32) : Accum :=
  fun j => if j = dst then acc j + x else if j = dst + 1 then acc j + y else acc j

/-- A loop that adds `value` of each sample from `pos` on, frame by frame. -/
def frameLoop (value : BitVec 16 → BitVec 32) (src : Samples) : ℕ → ℕ → ℕ → Accum → Accum
  | 0, _, _, acc => acc
  | n + 1, pos, dst, acc =>
    frameLoop value src n (pos + 2) (dst + 2)
      (addFrame acc dst (value (src pos)) (value (src (pos + 1))))

def unityLoop : Samples → ℕ → ℕ → ℕ → Accum → Accum := frameLoop fun s => s.signExtend 32

def vectorStep (gain : ℕ) (src : Samples) (i dst : ℕ) (acc : Accum) : Accum :=
  let vgain16 := mmSet1Epi16 (BitVec.ofNat 16 gain)
  let s16 : ℕ → BitVec 16 := fun k => src (2 * i + k)
  let lo16 := mmUnpackloEpi16 s16 (mmSraiEpi16 s16 15)
  let hi16 := mmUnpackhiEpi16 s16 (mmSraiEpi16 s16 15)
  let gLo := mmMaddEpi16 lo16 (mmUnpackloEpi16 vgain16 vgain16)
  let gHi := mmMaddEpi16 hi16 (mmUnpackloEpi16 vgain16 vgain16)
  let scLo := mmSraiEpi32 gLo 8
  let scHi := mmSraiEpi32 gHi 8
  let acc0 := mmAddEpi32 (fun k => acc (dst + k)) scLo
  let acc1 := mmAddEpi32 (fun k => acc (dst + 4 + k)) scHi
  storeu (storeu acc dst acc0) (dst + 4) acc1

/-- The vector loop, with the `i` and the `dst` it ends with. -/
def vectorLoop (gain : ℕ) (src : Samples) (take : ℕ) : ℕ → ℕ → ℕ → Accum → Accum × ℕ × ℕ
  | 0, i, dst, acc => (acc, i, dst)
  | fuel + 1, i, dst, acc =>
    if i + 4 ≤ take then
      vectorLoop gain src take fuel (i + 4) (dst + 8) (vectorStep gain src i dst acc)
    else (acc, i, dst)

/-- `((int32_t) s * (int32_t) gain) >> 8`. -/
def scaled (gain : ℕ) (s : BitVec 16) : BitVec 32 :=
  (s.signExtend 32 * BitVec.ofNat 32 gain).sshiftRight 8

def scalarLoop (gain : ℕ) : Samples → ℕ → ℕ → ℕ → Accum → Accum := frameLoop (scaled gain)

/-- `take` frames from `src` on are added to the accumulator from `dst` on. -/
def mixPiece (gain : ℕ) (src : Samples) (take dst : ℕ) (acc : Accum) : Accum :=
  if gain = 256 then unityLoop src take 0 dst acc
  else
    let r := vectorLoop gain src take take 0 dst acc
    -- `src` still points at the first frame
    scalarLoop gain src (take - r.2.1) 0 r.2.2 r.1

/-! ## Streams -/

/-- `chunk_t`, with its frames. -/
structure MixerChunk where
  frames : List AudioFrame
  rpos : ℕ

structure MixerStream where
  chunks : List MixerChunk
  queuedFrames : ℕ
  gainQ88 : ℕ
  muted : Bool
  paused : Bool
  inUse : Bool
  looping : Bool
  fadeActive : Bool
  fadeBaseGainQ88 : ℕ
  fadeTotalMs : ℕ
  fadeRemainingMs : ℕ
  chunkFrames : ℕ
  loopFrames : Option (List AudioFrame)
  loopFrameCount : ℕ

namespace MixerStream

/-- The loop that `mixer_push` and `stream_requeue_loop` share: chunks of `preferred` frames are
appended while there are frames left and `kmalloc` succeeds. The second result is `accepted`. -/
def appendLoop (kmalloc : ℕ → Bool) (frames : List AudioFrame) :
    ℕ → ℕ → ℕ → ℕ → MixerStream → MixerStream × ℕ
  | 0, _, _, accepted, ch => (ch, accepted)
  | fuel + 1, preferred, remaining, accepted, ch =>
    if remaining = 0 then (ch, accepted)
    else
      let batch := if preferred < remaining then preferred else remaining
      if kmalloc accepted = false then (ch, accepted)
      else
        -- `frames + 2u * accepted` is an offset of 32 bits, in samples
        let copied := (frames.drop (u32 (2 * accepted) / 2)).take batch
        let ch := { ch with
          chunks := ch.chunks ++ [⟨copied, 0⟩], queuedFrames := u32 (ch.queuedFrames + batch) }
        let accepted := u32 (accepted + batch)
        if preferred < 8192 ∧ u32 (preferred * 4) ≤ accepted then
          appendLoop kmalloc frames fuel (2 * preferred) (remaining - batch) accepted
            { ch with chunkFrames := 2 * preferred }
        else appendLoop kmalloc frames fuel preferred (remaining - batch) accepted ch

/-- `ch->chunk_frames ? ch->chunk_frames : 2048u`. -/
def preferred (ch : MixerStream) : ℕ := if ch.chunkFrames ≠ 0 then ch.chunkFrames else 2048

/-- `stream_requeue_loop`. -/
def requeueLoop (kmalloc : ℕ → Bool) (ch : MixerStream) : Bool × MixerStream :=
  match ch.loopFrames with
  | none => (false, ch)
  | some frames =>
    if ch.looping = false ∨ ch.loopFrameCount = 0 then (false, ch)
    else
      let r := appendLoop kmalloc frames ch.loopFrameCount ch.preferred ch.loopFrameCount 0 ch
      (r.2 ≠ 0, r.1)

/-- What `mixer_create_stream` makes of an unused stream. -/
def create (_ : MixerStream) : MixerStream where
  chunks := []
  queuedFrames := 0
  gainQ88 := 256
  muted := false
  paused := false
  inUse := true
  looping := false
  fadeActive := false
  fadeBaseGainQ88 := 256
  fadeTotalMs := 0
  fadeRemainingMs := 0
  chunkFrames := 2048
  loopFrames := none
  loopFrameCount := 0

/-- `mixer_stop_stream`. -/
def stop (ch : MixerStream) : MixerStream :=
  { ch with
    chunks := [], queuedFrames := 0, looping := false, fadeActive := false, fadeTotalMs := 0
    fadeRemainingMs := 0, loopFrames := none, loopFrameCount := 0 }

/-- `mixer_free_stream`. -/
def free (ch : MixerStream) : MixerStream := { ch.stop with inUse := false }

def setLoop (ch : MixerStream) (copies : Bool) (frames : List AudioFrame) (looping : Bool) :
    MixerStream :=
  let ch := if ch.loopFrames.isSome then { ch with loopFrames := none, loopFrameCount := 0 } else ch
  let ch := { ch with looping }
  if looping then
    if copies then { ch with loopFrames := some frames, loopFrameCount := u32 frames.length }
    else { ch with looping := false }
  else ch

/-- `mixer_push`; `copies` says whether the copy of a loop can be allocated. -/
def push (ch : MixerStream) (copies : Bool) (kmalloc : ℕ → Bool) (frames : List AudioFrame)
    (looping : Bool) : MixerStream × ℕ :=
  if ch.inUse = false ∨ frames.length = 0 then (ch, 0)
  else
    let ch := ch.setLoop copies frames looping
    appendLoop kmalloc frames (u32 frames.length) ch.preferred (u32 frames.length) 0 ch

/-- `mixer_set_gain`. -/
def setGain (ch : MixerStream) (gain : ℕ) : MixerStream :=
  { ch with gainQ88 := gain, fadeActive := false, fadeTotalMs := 0, fadeRemainingMs := 0 }

/-- `mixer_fade_stream`. -/
def fade (ch : MixerStream) (milliseconds : ℕ) : MixerStream :=
  if milliseconds = 0 then
    { ch with gainQ88 := 0, fadeActive := false, fadeTotalMs := 0, fadeRemainingMs := 0 }
  else
    { ch with
      fadeActive := true, fadeBaseGainQ88 := ch.gainQ88, fadeTotalMs := milliseconds
      fadeRemainingMs := milliseconds }

def dbTo255 : List ℕ := [
  0, 0, 0, 0, 0, 0, 1, 1, 1, 1,
  1, 1, 1, 1, 1, 1, 2, 2, 2, 2,
  3, 3, 3, 4, 4, 5, 5, 6, 6, 7,
  8, 9, 10, 11, 13, 14, 16, 18, 20, 23,
  26, 29, 32, 36, 40, 45, 51, 57, 64, 72,
  81, 90, 102, 114, 128, 143, 161, 181, 203, 227,
  255]

/-- `db_to_gain_q8_8` of a level that is `n` decibels below 0. -/
def dbToGainQ88 (n : ℕ) : ℕ :=
  if n = 0 then 256
  else if 60 ≤ n then 0
  else dbTo255.getD (60 - n) 0

def blockGain (ch : MixerStream) : MixerStream × ℕ :=
  if ch.fadeActive = false then (ch, ch.gainQ88)
  else if ch.fadeTotalMs = 0 ∨ ch.fadeRemainingMs = 0 then
    ({ ch with gainQ88 := 0, fadeActive := false, fadeTotalMs := 0, fadeRemainingMs := 0 }, 0)
  else
    let scaled := u32 (ch.fadeTotalMs + 2 ^ 32 - ch.fadeRemainingMs) * 60 / ch.fadeTotalMs
    (ch, u16 (ch.fadeBaseGainQ88 * dbToGainQ88 scaled / 256))

def mixLoop (kmalloc : ℕ → ℕ → Bool) (gain : ℕ) :
    ℕ → MixerStream → ℕ → ℕ → Accum → Option (MixerStream × Accum)
  | 0, _, _, _, _ => none
  | fuel + 1, ch, framesLeft, outIdx, acc =>
    if framesLeft = 0 then some (ch, acc)
    else match ch.chunks with
      | [] =>
        if ch.looping then
          let r := ch.requeueLoop (kmalloc fuel)
          if r.1 = false ∨ r.2.chunks.isEmpty then some (r.2, acc)
          else mixLoop kmalloc gain fuel r.2 framesLeft outIdx acc
        else some (ch, acc)
      | ck :: rest =>
        if ck.frames.length ≤ ck.rpos then
          mixLoop kmalloc gain fuel { ch with chunks := rest } framesLeft outIdx acc
        else
          let avail := ck.frames.length - ck.rpos
          let take := if avail < framesLeft then avail else framesLeft
          let acc := mixPiece gain (fun k => samplesOf ck.frames (2 * ck.rpos + k)) take
            (2 * outIdx) acc
          mixLoop kmalloc gain fuel { ch with
            chunks := { ck with rpos := ck.rpos + take } :: rest
            queuedFrames := if take ≤ ch.queuedFrames then ch.queuedFrames - take else 0 }
            (framesLeft - take) (outIdx + take) acc

def mixFuel (ch : MixerStream) (batch : ℕ) : ℕ := 4 * batch + 2 * ch.chunks.length + 2

def active (ch : MixerStream) : Bool := ch.inUse && !ch.muted && !ch.paused

def mixStream (kmalloc : ℕ → ℕ → Bool) (batch : ℕ) (ch : MixerStream) (acc : Accum) :
    Option (MixerStream × Accum) :=
  if ch.active = false then some (ch, acc)
  else
    let r := ch.blockGain
    let ch := if r.1.chunks.isEmpty ∧ r.1.looping then (r.1.requeueLoop (kmalloc 0)).2 else r.1
    if ch.chunks.isEmpty then some (ch, acc)
    else mixLoop (fun fuel => kmalloc (fuel + 1)) r.2 (ch.mixFuel batch) ch batch 0 acc

/-- The step of a fade after a block of `batchMs`. -/
def advanceFade (batchMs : ℕ) (ch : MixerStream) : MixerStream :=
  if ch.inUse = false ∨ ch.fadeActive = false then ch
  else if ch.fadeRemainingMs ≤ batchMs then
    { ch with fadeRemainingMs := 0, fadeTotalMs := 0, fadeActive := false, gainQ88 := 0 }
  else { ch with fadeRemainingMs := ch.fadeRemainingMs - batchMs }

end MixerStream

/-! ## The blocks -/

/-- `CLAMP(x, -32768, 32767)` as 16 bits, which is also what `_mm_packs_epi32` makes of a lane. -/
def clampS16 (x : BitVec 32) : BitVec 16 := BitVec.ofInt 16 (max (-32768) (min x.toInt 32767))

structure Block where
  frames : ℕ
  samples : Samples

structure Mixer where
  streams : List MixerStream
  targetLatencyMs : ℕ
  played : List Block

namespace Mixer

def mixStreams (kmalloc : ℕ → ℕ → ℕ → Bool) (batch : ℕ) :
    List MixerStream → Accum → Option (List MixerStream × Accum)
  | [], acc => some ([], acc)
  | ch :: rest, acc => do
    let r ← ch.mixStream (kmalloc rest.length) batch acc
    let q ← mixStreams kmalloc batch rest r.2
    some (r.1 :: q.1, q.2)

def batchOf (needFrames : ℕ) : ℕ :=
  let batch := if 16384 < needFrames then 16384 else needFrames
  let batch := batch / 8192 * 8192
  if batch = 0 then 8192 else batch

/-- One turn of the loop of `mixer_idle`. -/
def block (kmalloc : ℕ → ℕ → ℕ → Bool) (rate : ℕ) (s : Mixer) (batch : ℕ) : Option Mixer := do
  let r ← mixStreams kmalloc batch s.streams fun _ => 0
  let batchMs := if u32 (batch * 1000 / rate) = 0 then 1 else u32 (batch * 1000 / rate)
  some { s with
    streams := r.1.map (MixerStream.advanceFade batchMs)
    played := ⟨batch, fun j => clampS16 (r.2 j)⟩ :: s.played }

/-- The loop of `mixer_idle`. -/
def deliver (kmalloc : ℕ → ℕ → ℕ → ℕ → Bool) (rate : ℕ) : ℕ → Mixer → ℕ → Option Mixer
  | 0, s, needFrames => if needFrames = 0 then some s else none
  | fuel + 1, s, needFrames =>
    if needFrames = 0 then some s
    else do
      let batch := batchOf needFrames
      let s ← s.block (kmalloc fuel) rate batch
      deliver kmalloc rate fuel s (if batch < needFrames then needFrames - batch else 0)

/-- The frames that `mixer_idle` is to deliver: none when the device has enough. -/
def needFrames (rate haveMs : ℕ) (s : Mixer) : ℕ :=
  let wantMs := if s.targetLatencyMs ≠ 0 then s.targetLatencyMs else 200
  let target := u32 (wantMs + 100)
  if target ≤ haveMs then 0
  else
    let needMs := u32 (target + 1 - haveMs)
    u32 (needMs * rate / 1000)

/-- `mixer_idle`, with what the device says about its frequency and its queue. -/
def idle (kmalloc : ℕ → ℕ → ℕ → ℕ → Bool) (rate haveMs : ℕ) (s : Mixer) : Option Mixer :=
  deliver kmalloc rate (s.needFrames rate haveMs) s (s.needFrames rate haveMs)

/-- The streams after `mixer_create_stream`: the first unused one is taken. -/
def createStream : List MixerStream → List MixerStream
  | [] => []
  | ch :: rest => if ch.inUse then ch :: createStream rest else ch.create :: rest

end Mixer

end RetroRocket
