import RetroRocket.CaseFolding
import RetroRocket.Guarded

/-!
# The MOD player

`parse_and_init`, `engine_tick` and `mix_block` of `mod.c`. A song is read from its file while it is
played, so pointers are offsets of the file. Divisions, the cells of patterns and the bytes of
samples are accesses that have to be right. Numbers of type `int` wrap.
-/

namespace RetroRocket

/-- A value of type `int`. -/
def wrapInt (n : ℤ) : ℤ := Int.bmod n (2 ^ 32)

/-- A difference of type `uint32_t`. -/
def sub32 (a b : ℕ) : ℕ := u32 (a + 2 ^ 32 - b)

def fileByte (file : List Byte) (off : ℕ) : ℕ := (file.getD off 0).toNat

/-! ## The song -/

/-- `mod_sample_t`. -/
structure ModSample where
  data : Option ℕ
  actualLen : ℕ
  loopLen : ℕ

/-- What `parse_and_init` takes from a file. -/
structure ModSong where
  file : List Byte
  channels : ℕ
  orders : ℕ
  maxPattern : ℕ
  patternData : ℕ
  orderTable : ℕ
  samples : ℕ → ModSample

def readU32Be (file : List Byte) (off : ℕ) : ℕ :=
  2 ^ 24 * fileByte file off + 2 ^ 16 * fileByte file (off + 1) + 2 ^ 8 * fileByte file (off + 2) +
    fileByte file (off + 3)

def isModSignature (sig : ℕ) : Option ℕ :=
  let last : ℤ := (sig % 2 ^ 8 : ℕ) - 0x30
  let first : ℤ := (sig / 2 ^ 24 : ℕ) - 0x30
  let second : ℤ := (sig / 2 ^ 16 % 2 ^ 8 : ℕ) - 0x30
  if sig = 0x4D2E4B2E ∨ sig = 0x4D214B21 then some 4
  else if sig / 2 ^ 8 = 0x464C54 ∧ 4 ≤ last ∧ last ≤ 9 then some last.toNat
  else if sig % 2 ^ 24 = 0x43484E ∧ 0 ≤ first ∧ first ≤ 9 then some first.toNat
  else if sig % 2 ^ 16 = 0x4348 ∧ 10 ≤ first * 10 + second ∧ first * 10 + second ≤ 32 then
    some (first * 10 + second).toNat
  else none

/-- The greatest of the first `n` bytes of the order table. -/
def maxpat (file : List Byte) (orderTable : ℕ) : ℕ → ℕ
  | 0 => 0
  | n + 1 => max (maxpat file orderTable n) (fileByte file (orderTable + n))

def sampleHdr (i off : ℕ) : ℕ := 20 + i * 30 + off

def sampleBytes (file : List Byte) (i off : ℕ) : ℕ :=
  (2 ^ 8 * fileByte file (sampleHdr i off) + fileByte file (sampleHdr i (off + 1))) * 2

def sampleMem (file : List Byte) (start : ℕ) : ℕ → ℕ
  | 0 => start
  | i + 1 => sampleMem file start i + sampleBytes file i 22

def sampleOf (file : List Byte) (start i : ℕ) : ModSample :=
  let len := sampleBytes file i 22
  let loopStart := sampleBytes file i 26
  let loopLen := sampleBytes file i 28
  ⟨some (sampleMem file start i), len,
    if loopLen < 2 ∨ len ≤ loopStart ∨ len < loopStart + loopLen then 0 else loopLen⟩

def modSuffix : List Byte := [0x2E, 0x6D, 0x6F, 0x64]

def parseAndInit (name file : List Byte) : Option ModSong :=
  if file.length < 1084 then none
  else if !hasSuffixIcase name modSuffix then none
  else
    let signature := isModSignature (readU32Be file 1080)
    let legacy := signature.isNone
    let channels := signature.getD 4
    if channels = 0 ∨ 32 < channels then none
    else
      let sampleCount := if legacy then 15 else 31
      let orderTable := if legacy then 472 else 952
      let patternData := if legacy then 600 else 1084
      let orders := fileByte file (if legacy then 470 else 950)
      if orders = 0 ∨ 128 < orders then none
      else
        let maxPattern := maxpat file orderTable 128 + 1
        let start := patternData + maxPattern * 64 * channels * 4
        if file.length < start then none
        else if ∀ i < sampleCount, sampleMem file start (i + 1) ≤ file.length then
          some
            { file, channels, orders, maxPattern, patternData, orderTable
              samples := fun i => if i < sampleCount then sampleOf file start i else ⟨none, 0, 0⟩ }
        else none

/-! ## The state -/

/-- `osc_t`. -/
structure Osc where
  val : ℤ
  waveform : ℕ
  phase : ℕ
  speed : ℕ
  depth : ℕ

/-- `mod_channel_t`. -/
structure ModChannel where
  sample : Option ℕ
  age : ℕ
  currentPtr : ℕ
  length : ℕ
  loopLength : ℕ
  periodQ16 : ℕ
  volume : ℤ
  subptrQ16 : ℤ
  muted : Bool

/-- `tracker_ch_t`. -/
structure TrackerCh where
  notePeriod : ℕ
  sampleIdx : ℕ
  eff : ℕ
  effval : ℕ
  slideAmount : ℕ
  sampleOffset : ℕ
  vol : ℤ
  slideTarget : ℤ
  period : ℤ
  vibrato : Osc
  tremolo : Osc
  gen : ModChannel
  glissandoOn : Bool

/-- The members of `mod_state_t` that change. -/
structure ModState where
  order : ℕ
  row : ℕ
  tick : ℕ
  maxTick : ℤ
  speed : ℕ
  skipOrderReq : Option ℕ
  skipOrderDestRow : ℕ
  patLoopRow : ℕ
  patLoopCycle : ℕ
  audioSpeed : ℕ
  audioTick : ℕ
  rng : ℕ
  ch : ℕ → TrackerCh
  ended : Bool

namespace ModState

def samplerate : ℕ := 44100

def sampleRateQ16 : ℕ := u32 (3546895 * 2 ^ 16 / samplerate)

def initialOsc : Osc := ⟨0, 0, 0, 0, 0⟩

def initialCh : TrackerCh :=
  { notePeriod := 0, sampleIdx := 0, eff := 0, effval := 0, slideAmount := 0, sampleOffset := 0
    vol := 0x40, slideTarget := 0, period := 0, vibrato := initialOsc, tremolo := initialOsc
    gen := ⟨none, 0x7FFFFFFF, 0, 0, 0, 0, 0, 0, false⟩, glissandoOn := false }

/-- The state that `parse_and_init` leaves. -/
def initial : ModState :=
  { order := 0, row := 0, tick := 0, maxTick := 6, speed := 6, skipOrderReq := some 0
    skipOrderDestRow := 0, patLoopRow := 0, patLoopCycle := 0, audioSpeed := samplerate / 50
    audioTick := 0, rng := 0x13579B, ch := fun _ => initialCh, ended := false }

def setCh (st : ModState) (i : ℕ) (c : TrackerCh) : ModState :=
  { st with ch := fun k => if k = i then c else st.ch k }

end ModState

def sineTable : List ℕ :=
  [0, 24, 49, 74, 97, 120, 141, 161, 180, 197, 212, 224, 235, 244, 250, 253,
    255, 253, 250, 244, 235, 224, 212, 197, 180, 161, 141, 120, 97, 74, 49, 24]

def finetuneQ16 : List ℕ :=
  [65536, 65065, 64596, 64132, 63670, 63212, 62757, 62306,
    69433, 68933, 68438, 67945, 67456, 66971, 66489, 66011]

def arpeggioQ16 : List ℕ :=
  [65536, 61858, 58386, 55109, 52016, 49096, 46341, 43740,
    41285, 38968, 36781, 34716, 32768, 30929, 29193, 27554]

/-- `recalc_wave`, with the next random number. -/
def recalcWave (o : Osc) (rng : ℕ) : Osc × ℕ :=
  let sine : ℤ := sineTable.getD (o.phase % 32) 0
  let r : ℤ :=
    if o.waveform = 0 then if o.phase &&& 0x20 ≠ 0 then -sine else sine
    else if o.waveform = 1 then 255 - ((o.phase + 0x20) % 64 * 8 : ℕ)
    else if o.waveform = 2 then 255 - ((o.phase &&& 0x20) * 16 : ℕ)
    else if o.waveform = 3 then (rng / 2 ^ 20 % 2 ^ 10 : ℕ) - 255
    else 0
  ({ o with val := r * o.depth }, if o.waveform = 3 then (rng * 65 + 17) % 2 ^ 29 else rng)

def snapPeriodToSemitone (base current : ℤ) : ℤ :=
  let semitone (k : ℕ) : ℤ := base * arpeggioQ16.getD k 0 / 2 ^ 16
  (List.range 12).foldl (fun best k =>
    if (semitone k - current).natAbs < (best - current).natAbs then semitone k else
      best) (semitone 0)

/-! ## A row -/

structure ModCell where
  note : ℕ
  sample : ℕ
  eff : ℕ
  effval : ℕ

namespace ModSong

variable (song : ModSong)

def byte (off : ℕ) : ℕ := fileByte song.file off

def pattern (order : ℕ) : ℕ := song.byte (song.orderTable + order)

def cellAt (order row i : ℕ) : ℕ :=
  song.patternData + 4 * (i + song.channels * (row + 64 * song.pattern order))

def cell (order row i : ℕ) : ModCell :=
  let a := song.cellAt order row i
  { note := (2 ^ 8 * song.byte a + song.byte (a + 1)) % 2 ^ 12
    sample := song.byte a / 2 ^ 4 * 2 ^ 4 + song.byte (a + 2) / 2 ^ 4
    eff := song.byte (a + 2) % 2 ^ 4
    effval := song.byte (a + 3) }

def HasCell (order row i : ℕ) : Prop :=
  row < 64 ∧ order < song.orders ∧ song.pattern order < song.maxPattern ∧
    song.cellAt order row i + 4 ≤ song.patternData + song.maxPattern * 64 * song.channels * 4 ∧
    song.cellAt order row i + 4 ≤ song.file.length

instance (order row i : ℕ) : Decidable (song.HasCell order row i) :=
  inferInstanceAs (Decidable (_ ∧ _))

def readHdr (idx off : ℕ) : Guarded ℕ := do
  .access (sampleHdr idx off < song.file.length)
  return song.byte (sampleHdr idx off)

def takeSample (c : TrackerCh) (sample : ℕ) : Guarded TrackerCh :=
  if sample = 0 then return c
  else do
    let idx := (if 31 < sample then 1 else sample) - 1
    let s := song.samples idx
    let vol ← song.readHdr idx 25
    return { c with
      sampleIdx := idx, vol := vol
      gen := { c.gen with length := s.actualLen, loopLength := s.loopLen, sample := s.data } }

def resetPhase (o : Osc) : Osc := if o.waveform < 4 then { o with phase := 0 } else o

def finetune (c : TrackerCh) (cell : ModCell) : Guarded ℕ :=
  if cell.eff = 0xE ∧ cell.effval / 16 = 5 then return cell.effval % 16 else
    song.readHdr c.sampleIdx 24

def takeNote (c : TrackerCh) (cell : ModCell) : Guarded TrackerCh :=
  if cell.note = 0 then return c
  else do
    let finetune ← song.finetune c cell
    let note := cell.note * finetuneQ16.getD (finetune % 16) 0 / 2 ^ 16
    if cell.eff ≠ 3 ∧ cell.eff ≠ 5 ∧ (cell.eff ≠ 0xE ∨ cell.effval / 16 ≠ 0xD) then
      return { c with
        notePeriod := note, period := note
        gen := { c.gen with age := 0, currentPtr := 0 }
        vibrato := resetPhase c.vibrato, tremolo := resetPhase c.tremolo }
    else return { c with notePeriod := note }

def effectValue (cell : ModCell) : ℕ :=
  if cell.eff = 0xB ∧ song.orders ≤ cell.effval then 0
  else if cell.eff = 0xD ∧ 0x63 < cell.effval then 0
  else cell.effval

/-- Effect `0xE` of a row. -/
def extendedRow (st : ModState) (c : TrackerCh) (x y : ℕ) : ModState × TrackerCh :=
  match x with
  | 0x1 => (st, { c with period := wrapInt (c.period - y) })
  | 0x2 => (st, { c with period := wrapInt (c.period + y) })
  | 0x4 => (st, { c with vibrato := { c.vibrato with waveform := y % 8 } })
  | 0x6 =>
    if y = 0 then ({ st with patLoopRow := st.row }, c)
    else
      let cycle := if st.patLoopCycle = 0 then y + 1 else st.patLoopCycle
      if 1 < cycle then
        ({ st with
          patLoopCycle := cycle - 1, skipOrderReq := some st.order, skipOrderDestRow :=
            st.patLoopRow }, c)
      else ({ st with patLoopCycle := cycle - 1 }, c)
  | 0x7 => (st, { c with tremolo := { c.tremolo with waveform := y % 8 } })
  | 0xA => (st, { c with vol := min (c.vol + y) 0x40 })
  | 0xB => (st, { c with vol := max (c.vol - y) 0 })
  | 0xE => ({ st with maxTick := wrapInt (st.maxTick * (y + 1)) }, c)
  | _ => (st, c)

def setOsc (o : Osc) (ev : ℕ) : Osc :=
  { o with
    speed := if ev / 16 = 0 then o.speed else ev / 16
    depth := if ev % 16 = 0 then o.depth else ev % 16 }

def rowEffect (st : ModState) (c : TrackerCh) (eff ev : ℕ) : Guarded (ModState × TrackerCh) :=
  match eff with
  | 0x3 => return (st, { c with
      slideAmount := if ev = 0 then c.slideAmount else ev, slideTarget := c.notePeriod })
  | 0x5 => return (st, { c with slideTarget := c.notePeriod })
  | 0x4 =>
    let (o, rng) := recalcWave (setOsc c.vibrato ev) st.rng
    return ({ st with rng }, { c with vibrato := o })
  | 0x6 =>
    let (o, rng) := recalcWave c.vibrato st.rng
    return ({ st with rng }, { c with vibrato := o })
  | 0x7 =>
    let (o, rng) := recalcWave (setOsc c.tremolo ev) st.rng
    return ({ st with rng }, { c with tremolo := o })
  | 0xC => return (st, { c with vol := min ev 0x40 })
  | 0x9 =>
    let offset := if ev = 0 then c.sampleOffset else ev
    return (st,
      { c with sampleOffset := offset, gen :=
        { c.gen with currentPtr := offset * 2 ^ 8, age := 0 } })
  | 0xB => return ({ st with skipOrderReq := some ev }, c)
  | 0xD =>
    let next := if st.order + 1 < song.orders then st.order + 1 else 0
    return ({ st with
      skipOrderReq := some (st.skipOrderReq.getD next), skipOrderDestRow :=
        ev / 16 * 10 + ev % 16 }, c)
  | 0xE => return extendedRow st c (ev / 16) (ev % 16)
  | 0xF =>
    if ev = 0 then return (st, c)
    else if ev < 0x20 then do
      .access (st.speed ≠ 0)
      return ({ st with maxTick := wrapInt (wrapInt (st.maxTick.tdiv st.speed) * ev), speed := ev },
        c)
    else do
      .access (ev ≠ 0)
      return ({ st with audioSpeed := ModState.samplerate * 125 / ev / 50 }, c)
  | _ => return (st, c)

def startRow (c : TrackerCh) : TrackerCh :=
  { c with
    vibrato := { c.vibrato with val := 0 }, tremolo := { c.tremolo with val := 0 }
    period := if c.eff = 0 ∧ c.effval ≠ 0 then c.notePeriod else c.period }

def readRow (st : ModState) (i : ℕ) : Guarded ModState := do
  .access (song.HasCell st.order st.row i)
  let cell := song.cell st.order st.row i
  let c ← song.takeSample (startRow (st.ch i)) cell.sample
  let c ← song.takeNote c cell
  let ev := song.effectValue cell
  let (st, c) ← song.rowEffect st c cell.eff ev
  return st.setCh i { c with eff := cell.eff, effval := ev }

/-! ## A tick -/

def slideVol (c : TrackerCh) (ev : ℕ) : TrackerCh :=
  { c with
    vol := if 0xF < ev then min (c.vol + (ev / 16 : ℕ)) 0x40 else max (c.vol - (ev % 16 : ℕ)) 0 }

/-- Effect `0x3` of a tick. -/
def portamento (c : TrackerCh) (ev : ℕ) : TrackerCh :=
  let amt : ℕ := if ev = 0 then c.slideAmount else ev
  let period :=
    if c.period < c.slideTarget then min (wrapInt (c.period + amt)) c.slideTarget
    else if c.slideTarget < c.period then max (wrapInt (c.period - amt)) c.slideTarget
    else c.period
  { c with
    period := if c.glissandoOn ∧ 0 < c.notePeriod then
      snapPeriodToSemitone c.notePeriod period else period }

def retrigger (g : ModChannel) : ModChannel := { g with age := 0, currentPtr := 0, subptrQ16 := 0 }

/-- Effect `0xE` of a tick. -/
def extendedTick (tick : ℕ) (c : TrackerCh) (x y : ℕ) : Guarded TrackerCh :=
  match x with
  | 0x3 => return { c with glissandoOn := y ≠ 0 }
  | 0x9 =>
    if tick = 0 then return c
    else do
      .access (y ≠ 0)
      return if tick % y = 0 then { c with gen := retrigger c.gen } else c
  | 0xC => return if y ≤ tick then { c with vol := 0 } else c
  | 0xD => return if tick = y then { c with gen := retrigger c.gen, period := c.notePeriod } else c
  | _ => return c

def tickEffect (tick : ℕ) (c : TrackerCh) (rng : ℕ) : Guarded (TrackerCh × ℕ) :=
  match c.eff with
  | 0x0 =>
    if c.effval = 0 then return (c, rng)
    else
      let arpeggio (k : ℕ) : ℕ := u32 (c.notePeriod * arpeggioQ16.getD k 0) / 2 ^ 16
      return ({ c with period :=
        if tick % 3 = 0 then c.notePeriod
        else if tick % 3 = 1 then arpeggio (c.effval / 16) else arpeggio (c.effval % 16) }, rng)
  | 0x1 => return (if tick = 0 then c else { c with period := wrapInt (c.period - c.effval) }, rng)
  | 0x2 => return (if tick = 0 then c else { c with period := wrapInt (c.period + c.effval) }, rng)
  | 0x5 => return (if tick = 0 then c else portamento (slideVol c c.effval) c.effval, rng)
  | 0x3 => return (if tick = 0 then c else portamento c c.effval, rng)
  | 0x4 | 0x6 =>
    if tick = 0 then return (c, rng)
    else
      let (o, rng) :=
        recalcWave { c.vibrato with phase := (c.vibrato.phase + c.vibrato.speed) % 2 ^ 8 } rng
      return ({ c with vibrato := o }, rng)
  | 0xA => return (if tick = 0 then c else slideVol c c.effval, rng)
  | 0x7 =>
    if tick = 0 then return (c, rng)
    else
      let (o, rng) :=
        recalcWave { c.tremolo with phase := (c.tremolo.phase + c.tremolo.speed) % 2 ^ 8 } rng
      return ({ c with tremolo := o }, rng)
  | 0xE => do
    let c ← extendedTick tick c (c.effval / 16) (c.effval % 16)
    return (c, rng)
  | _ => return (c, rng)

def precalc (c : TrackerCh) : Guarded TrackerCh := do
  let period := max c.period 0
  let vol := c.vol + c.tremolo.val / 2 ^ 6
  let gen := { c.gen with volume := min (max vol 0) 64 }
  if period = 0 then return { c with period, gen := { gen with periodQ16 := 0 } }
  else do
    let p := max (wrapInt (period + c.vibrato.val / 2 ^ 7)) 1
    .access (p ≠ 0)
    return { c with period, gen := { gen with periodQ16 := ModState.sampleRateQ16 / p.toNat } }

def playCh (st : ModState) (i : ℕ) : Guarded ModState := do
  let (c, rng) ← tickEffect st.tick (st.ch i) st.rng
  let c ← precalc c
  return { st with rng }.setCh i c

def advance (st : ModState) : ModState :=
  let tick := st.tick + 1
  if tick < st.maxTick then { st with tick }
  else
    let st := { st with tick := 0, maxTick := st.speed }
    match st.skipOrderReq with
    | some order =>
      { st with
        ended := st.ended || order < st.order
        row := st.skipOrderDestRow, order, skipOrderDestRow := 0, skipOrderReq := none }
    | none =>
      if st.row + 1 < 64 then { st with row := st.row + 1 }
      else if st.order + 1 < song.orders then { st with row := 0, order := st.order + 1 }
      else { st with row := 0, order := 0, ended := true }

def readRows (st : ModState) : Guarded ModState :=
  if st.tick = 0 then Guarded.loop song.readRow { st with skipOrderReq := none } song.channels
  else return st

def engineTick (st : ModState) : Guarded ModState := do
  let st ← song.readRows st
  let st ← Guarded.loop playCh st song.channels
  return song.advance st

/-! ## The mix -/

/-- A byte of a sample at `data`. -/
def HasFrame (data ptr : ℕ) : Prop :=
  (∃ k < 31, (song.samples k).data = some data ∧ ptr < (song.samples k).actualLen) ∧
    data + ptr < song.file.length

instance (data ptr : ℕ) : Decidable (song.HasFrame data ptr) := inferInstanceAs (Decidable (_ ∧ _))

def frame (data ptr : ℕ) : ℤ := (song.file.getD (data + ptr) 0).toInt

/-- `while (ptr >= length)`, where a sample without a loop goes to `last`. -/
def wrapPtr (g : ModChannel) (last : ℕ) : ℕ → ℕ → Guarded ℕ
  | 0, _ => .outside
  | fuel + 1, ptr =>
    if ptr < g.length then return ptr
    else if g.loopLength ≠ 0 then wrapPtr g last fuel (sub32 ptr g.loopLength)
    else return last

def interpolate (data ptr : ℕ) (g : ModChannel) : Guarded ℤ :=
  if g.muted then return 0
  else do
    let next ← wrapPtr g ptr (u32 (ptr + 1) + 1) (u32 (ptr + 1))
    .access (song.HasFrame data ptr ∧ song.HasFrame data next)
    let frac := g.subptrQ16 % 2 ^ 16
    return (song.frame data ptr * (2 ^ 16 - frac) + song.frame data next * frac) / 2 ^ 16 * g.volume

def mixCh (i : ℕ) (major minor : ℤ) (g : ModChannel) : Guarded (ModChannel × ℤ × ℤ) :=
  match g.sample with
  | none => return (g, 0, 0)
  | some data =>
    if g.loopLength = 0 ∧ g.length ≤ g.currentPtr then return (g, 0, 0)
    else do
      let ptr ← wrapPtr g (g.length - 1) (g.currentPtr + 1) g.currentPtr
      let scaled ← song.interpolate data ptr g
      let inner := i % 4 = 1 ∨ i % 4 = 2
      let subptr := wrapInt (g.subptrQ16 + wrapInt g.periodQ16)
      return ({ g with
          currentPtr := if 2 ^ 16 ≤ subptr then u32 (ptr + (subptr / 2 ^ 16).toNat) else ptr
          subptrQ16 := if 2 ^ 16 ≤ subptr then subptr % 2 ^ 16 else subptr
          age := if g.age < 0x7FFFFFFF then g.age + 1 else g.age },
        scaled * (if inner then minor else major), scaled * (if inner then major else minor))

structure ModMix where
  st : ModState
  left : ℤ
  right : ℤ

def mixChannels (major minor : ℤ) (s : ModMix) (i : ℕ) : Guarded ModMix := do
  let (g, l, r) ← song.mixCh i major minor (s.st.ch i).gen
  return ⟨s.st.setCh i { s.st.ch i with gen := g }, s.left + l, s.right + r⟩

def clampSample (acc : ℤ) : ℤ := max (-32768) (min 32767 (wrapInt (acc / 2 ^ 16)))

def tickIfDue (st : ModState) : Guarded ModState :=
  if st.audioTick = 0 then do
    let st ← song.engineTick st
    return { st with audioTick := st.audioSpeed }
  else return st

/-- A frame of `mix_block`. -/
def mixFrame (major minor : ℤ) (s : ModState × List (ℤ × ℤ)) :
    Guarded (ModState × List (ℤ × ℤ)) := do
  let st ← song.tickIfDue s.1
  let st := { st with audioTick := sub32 st.audioTick 1 }
  let m ← Guarded.loop (song.mixChannels major minor) ⟨st, 0, 0⟩ song.channels
  return (m.st, s.2 ++ [(clampSample m.left, clampSample m.right)])

/-- `mix_block`, with the frames that it puts out. -/
def mixBlock (st : ModState) (frames : ℕ) : Guarded (ModState × List (ℤ × ℤ)) := do
  let pairs := if song.channels / 2 = 0 then 1 else song.channels / 2
  .access (pairs ≠ 0)
  let major : ℤ := 131072 / pairs
  let minor : ℤ := 131072 / 3 / pairs
  Guarded.loop (fun s _ => song.mixFrame major minor s) (st, []) frames

end ModSong

end RetroRocket
