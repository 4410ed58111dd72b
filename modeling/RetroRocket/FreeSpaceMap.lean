import RetroRocket.Volume

/-!
# The free space map

The functions of `fsmap.c`. One bit of the on-disk map (L0) stands for one sector, 1 for used and
0 for free. A group is 4096 sectors (`RFS_L1_GROUP_SECTORS`), so its bits fill one map sector; a
super-group is 1024 groups (`RFS_L2_GROUPS_PER_SUPER`). Sums and differences are reduced to 64 bits
wherever a volume can make them wrap. A loop that the source bounds only by its condition is given
a bound on its iterations that it cannot exceed.
-/

namespace RetroRocket

open RetroRocket.Action

/-! ## Group geometry and scans -/

def rfsGroupSize (v : Volume) (g : ℕ) : ℕ :=
  let start := 4096 * g
  let total := v.totalSectors
  if u64 (start + 4096) ≤ total then 4096 else sub64 total start

def rfsLoadGroupSector (env : Env) (g : ℕ) : Action Rfs Buffer := do
  let v ← get
  let l0Lba := u64 (v.desc.freeSpaceMapStart + g)
  rfsReadDevice env l0Lba 512

/-- The used bit the scans read: `(buf[b >> 3] >> (b & 7)) & 1`. -/
def scanBit (buf : Buffer) (b : ℕ) : Byte := (buf (b >>> 3) >>> (b &&& 7)) &&& 1#8

def prefixInByte (groupBits : ℕ) : ℕ → Byte → ℕ → ℕ → ℕ × ℕ
  | 0, _, p, b => (p, b)
  | fuel + 1, x, p, b =>
    if b < groupBits ∧ x &&& 1#8 = 0 then prefixInByte groupBits fuel (x >>> 1) (p + 1) (b + 1)
    else (p, b)

def prefixBytes (buf : Buffer) (groupBits : ℕ) : ℕ → ℕ → ℕ → ℕ × ℕ
  | 0, p, b => (p, b)
  | fuel + 1, p, b =>
    if b + 8 ≤ groupBits then
      let byte := buf (b >>> 3)
      if byte = 0 then prefixBytes buf groupBits fuel (p + 8) (b + 8)
      else prefixInByte groupBits 8 byte p b
    else (p, b)

def prefixBits (buf : Buffer) (groupBits : ℕ) : ℕ → ℕ → ℕ → ℕ
  | 0, p, _ => p
  | fuel + 1, p, b =>
    if b < groupBits ∧ scanBit buf b = 0 then prefixBits buf groupBits fuel (p + 1) (b + 1) else p

/-- The byte fast path of the suffix scan. It starts at `(b >> 3) - 1`, the byte below the one
that holds bit `b`. -/
def suffixBytes (buf : Buffer) : ℕ → ℕ → ℤ → ℤ → ℕ × ℤ
  | 0, s, b, _ => (s, b)
  | fuel + 1, s, b, byteIdx =>
    if 0 ≤ byteIdx ∧ buf byteIdx.toNat = 0 then suffixBytes buf fuel (s + 8) (b - 8) (byteIdx - 1)
    else (s, b)

/-- The suffix scan from bit `b` down. -/
def suffixBits (buf : Buffer) : ℕ → ℕ → ℤ → ℕ
  | 0, s, _ => s
  | fuel + 1, s, b =>
    if 0 ≤ b ∧ scanBit buf b.toNat = 0 then
      let s := s + 1
      let b := b - 1
      if (b + 1) % 8 = 0 then
        let r := suffixBytes buf fuel s b (b / 8 - 1)
        suffixBits buf fuel r.1 r.2
      else suffixBits buf fuel s b
    else s

/-- `rfs_group_prefix_suffix_free`: the free bits at the start and at the end of a group. -/
def rfsGroupPrefixSuffixFree (buf : Buffer) (groupBits : ℕ) : ℕ × ℕ :=
  let r := prefixBytes buf groupBits groupBits 0 0
  let p := prefixBits buf groupBits groupBits r.1 r.2
  let s := if 0 < groupBits then suffixBits buf groupBits 0 (groupBits - 1 : ℤ) else 0
  (p, s)

def findRunLoop (buf : Buffer) (groupBits need : ℕ) : ℕ → ℕ → ℕ → ℕ → Option ℕ
  | 0, _, _, _ => none
  | fuel + 1, b, run, runStart =>
    if b < groupBits then
      if scanBit buf b = 0 then
        let runStart := if run = 0 then b else runStart
        let run := run + 1
        if need ≤ run then some runStart else
          findRunLoop buf groupBits need fuel (b + 1) run runStart
      else findRunLoop buf groupBits need fuel (b + 1) 0 runStart
    else none

/-- `rfs_group_find_run_from`, with `none` for `(uint64_t) -1`. -/
def rfsGroupFindRunFrom (buf : Buffer) (groupBits offset need : ℕ) : Option ℕ :=
  if need = 0 then some offset
  else if groupBits ≤ offset then none
  else findRunLoop buf groupBits need groupBits offset 0 offset

/-! ## Finding an extent -/

def superGroups (v : Volume) (sg : ℕ) : List ℕ :=
  let g0 := 1024 * sg
  let g1 := min (g0 + 1024) v.l1Groups
  List.range' g0 (g1 - g0)

def findInGroup (env : Env) (need : ℕ) : List ℕ → Action Rfs (Option ℕ)
  | [] => pure none
  | g :: gs => do
    let v ← get
    if !bitsetGet v.l1NotFull g then findInGroup env need gs
    else
      let size := rfsGroupSize v.toVolume g
      if bitsetGet v.l1AllFree g then
        if need ≤ size then pure (some (4096 * g)) else findInGroup env need gs
      else
        let l0 ← rfsLoadGroupSector env g
        match rfsGroupFindRunFrom l0 size 0 need with
        | some offset => pure (some (4096 * g + offset))
        | none => findInGroup env need gs

/-- Chains the fully free groups from `gg` on: the sectors collected and the next group. -/
def chainGroups (v : Volume) (need : ℕ) : ℕ → ℕ → ℕ → ℕ × ℕ
  | 0, collected, gg => (collected, gg)
  | fuel + 1, collected, gg =>
    if collected < need ∧ gg < v.l1Groups ∧ bitsetGet v.l1AllFree gg = true then
      chainGroups v need fuel (collected + rfsGroupSize v gg) (gg + 1)
    else (collected, gg)

/-- The free tail of a group, read from L0 unless a summary bit tells; `none` for a full group. -/
def tailFree (env : Env) (g : ℕ) : Action Rfs (Option ℕ) := do
  let v ← get
  let size := rfsGroupSize v.toVolume g
  if bitsetGet v.l1AllFree g then pure (some size)
  else if bitsetGet v.l1NotFull g then
    let l0 ← rfsLoadGroupSector env g
    pure (some (rfsGroupPrefixSuffixFree l0 size).2)
  else pure none

def prefixFree (env : Env) (g : ℕ) : Action Rfs ℕ := do
  let v ← get
  let size := rfsGroupSize v.toVolume g
  if bitsetGet v.l1AllFree g then pure size
  else if bitsetGet v.l1NotFull g then
    let l0 ← rfsLoadGroupSector env g
    pure (rfsGroupPrefixSuffixFree l0 size).1
  else pure 0

def findAcrossGroups (env : Env) (need : ℕ) : List ℕ → Action Rfs (Option ℕ)
  | [] => pure none
  | g :: gs => do
    let v ← get
    let size := rfsGroupSize v.toVolume g
    match ← tailFree env g with
    | none => findAcrossGroups env need gs
    | some tail =>
      if tail = 0 then findAcrossGroups env need gs
      else
        let startHere := 4096 * g + (size - tail)
        let (collected, gg) := chainGroups v.toVolume need v.l1Groups tail (g + 1)
        if need ≤ collected then pure (some startHere)
        else if 0 < need % 4096 ∧ collected < need ∧ gg < v.l1Groups then
          let free ← prefixFree env gg
          if need ≤ collected + free then pure (some startHere)
          else findAcrossGroups env need gs
        else findAcrossGroups env need gs

def findInSupers (inGroups : List ℕ → Action Rfs (Option ℕ)) : List ℕ → Action Rfs (Option ℕ)
  | [] => pure none
  | sg :: sgs => do
    let v ← get
    if !bitsetGet v.l2NotFull sg then findInSupers inGroups sgs
    else
      match ← inGroups (superGroups v.toVolume sg) with
      | some start => pure (some start)
      | none => findInSupers inGroups sgs

def rfsFindFreeExtent (env : Env) (need : ℕ) : Action Rfs ℕ := do
  let v ← get
  if need = 0 then failWith .invalidArg
  else if v.totalSectors < need then failWith .noSpace
  else
    let inGroups := if need ≤ 4096 then findInGroup env need else findAcrossGroups env need
    match ← findInSupers inGroups (List.range v.l2Groups) with
    | some start => pure start
    | none => failWith .noSpace

/-! ## Marking an extent -/

def rfsUpdateL2ForGroup (v : Volume) (g : ℕ) : Volume :=
  let sg := g / 1024
  let g0 := 1024 * sg
  let g1 := if g0 + 1024 ≤ v.l1Groups then g0 + 1024 else v.l1Groups
  let r := (List.range' g0 (g1 - g0)).foldl
    (fun acc gg => (acc.1 || decide (0 < v.l1FreeCount gg), acc.2 && bitsetGet v.l1AllFree gg))
    (false, true)
  { v with
    l2NotFull := bitsetSet v.l2NotFull sg r.1
    l2AllFree := bitsetSet v.l2AllFree sg r.2 }

def markBytes (markUsed : Bool) (localEnd : ℕ) : ℕ → ℕ → Buffer → ℕ → Buffer × ℕ
  | 0, _, buf, transitions => (buf, transitions)
  | fuel + 1, b, buf, transitions =>
    if b < localEnd then
      let byteIdx := b >>> 3
      let bitOff := b &&& 7
      let span := min (8 - bitOff) (localEnd - b)
      let mask := byteMask span bitOff
      let before := buf byteIdx
      let after := if markUsed then before ||| mask else before &&& ~~~mask
      let delta := if markUsed then ~~~before &&& mask else before &&& mask
      markBytes markUsed localEnd fuel (b + span) (Function.update buf byteIdx after)
        (transitions + popcount delta)
    else (buf, transitions)

def markWholeGroup (markUsed : Bool) (g gSize : ℕ) (v : Volume) : Volume :=
  rfsUpdateL2ForGroup
    { v with
      l1FreeCount := Function.update v.l1FreeCount g (if markUsed then 0 else u16 gSize)
      l1NotFull := bitsetSet v.l1NotFull g (!markUsed)
      l1AllFree := bitsetSet v.l1AllFree g (!markUsed) } g

/-- The L1 and L2 update after `transitions` bits of a group changed. -/
def markPartialGroup (markUsed : Bool) (g gSize transitions : ℕ) (v : Volume) : Volume :=
  let fc := v.l1FreeCount g
  let room := sub64 gSize fc
  let fc' :=
    if markUsed then if transitions ≤ fc then u16 (fc - transitions) else 0
    else u16 (fc + u16 (min transitions room))
  rfsUpdateL2ForGroup
    { v with
      l1FreeCount := Function.update v.l1FreeCount g fc'
      l1NotFull := bitsetSet v.l1NotFull g (decide (0 < fc'))
      l1AllFree := bitsetSet v.l1AllFree g (decide (fc' = u16 gSize)) } g

/-- One iteration of `rfs_mark_extent`, for `take` sectors of group `g` from `pos` on. -/
def markGroup (env : Env) (markUsed : Bool) (g gStart gSize pos take : ℕ) : Action Rfs Unit := do
  let v ← get
  let l0Lba := u64 (v.desc.freeSpaceMapStart + g)
  if take = gSize then
    rfsWriteDevice env l0Lba 512 (fun _ => if markUsed then 0xFF#8 else 0x00#8)
    modify fun v => { v with toVolume := markWholeGroup markUsed g gSize v.toVolume }
  else
    let sectorBuf ← rfsReadDevice env l0Lba 512
    let localStart := pos - gStart
    let localEnd := localStart + take
    let (sectorBuf, transitions) := markBytes markUsed localEnd take localStart sectorBuf 0
    if transitions ≠ 0 then
      rfsWriteDevice env l0Lba 512 sectorBuf
      modify fun v =>
        { v with toVolume := markPartialGroup markUsed g gSize transitions v.toVolume }
    else pure ()

/-- The loop of `rfs_mark_extent`. -/
def markLoop (env : Env) (markUsed : Bool) (total : ℕ) : ℕ → ℕ → ℕ → Action Rfs Unit
  | 0, _, _ => pure ()
  | fuel + 1, pos, rem =>
    if rem = 0 then pure ()
    else do
      let g := pos / 4096
      let gStart := 4096 * g
      let gEnd := if u64 (gStart + 4096) ≤ total then u64 (gStart + 4096) else total
      let gSize := sub64 gEnd gStart
      let inGroup := sub64 gEnd pos
      let take := min rem inGroup
      markGroup env markUsed g gStart gSize pos take
      markLoop env markUsed total fuel (pos + take) (rem - take)

def rfsMarkExtent (env : Env) (startSector lengthSectors : ℕ) (markUsed : Bool) :
    Action Rfs Unit := do
  let v ← get
  if lengthSectors = 0 then failWith .invalidArg
  else if v.desc.freeSpaceMapStart = 0 ∨ v.cached = false ∨ v.l2Groups = 0 then failWith .invalidArg
  else
    let total := v.totalSectors
    if total ≤ startSector then failWith .invalidArg
    else
      let length := if total < u64 (startSector + lengthSectors) then total - startSector
        else lengthSectors
      if length = 0 then failWith .invalidGeometry
      else markLoop env markUsed total length startSector length

/-! ## Building the caches -/

/-- Adds `add` free sectors to the counter of group `g`, up to the size of the group. -/
def addFree (v : Volume) (g add : ℕ) : Volume :=
  let fc := v.l1FreeCount g
  let groupSize := rfsGroupSize v g
  if fc < groupSize then
    let room := groupSize - fc
    let inc := min add room
    { v with l1FreeCount := Function.update v.l1FreeCount g (u16 (fc + u16 inc)) }
  else v

/-- Distributes the free bits of a word over the groups from `pos` on. With `take = 64` the C
shift is by the width of the word; no bits remain then and the shifted word is not used again. -/
def distributeWord : ℕ → BitVec 64 → ℕ → ℕ → Volume → Volume × ℕ
  | 0, _, _, pos, v => (v, pos)
  | fuel + 1, word, remainingBits, pos, v =>
    if word ≠ 0 ∧ remainingBits ≠ 0 then
      let g := pos / 4096
      if v.l1Groups ≤ g then (v, pos)
      else
        let groupEnd := 4096 * (g + 1)
        let inGroup := groupEnd - pos
        let take := min remainingBits inGroup
        let mask := if take = 64 then BitVec.allOnes 64 else BitVec.ofNat 64 (2 ^ take - 1)
        let seg := word &&& mask
        let v := if seg ≠ 0 then addFree v g (popcount seg) else v
        distributeWord fuel (word >>> take) (remainingBits - take) (u64 (pos + take)) v
    else (v, pos)

/-- Word `wi` of a buffer, read as a little-endian `uint64_t`. -/
def wordAt (buf : Buffer) (wi : ℕ) : BitVec 64 :=
  buf (8 * wi + 7) ++ buf (8 * wi + 6) ++ buf (8 * wi + 5) ++ buf (8 * wi + 4) ++
    buf (8 * wi + 3) ++ buf (8 * wi + 2) ++ buf (8 * wi + 1) ++ buf (8 * wi)

/-- The loop over the full words. Its increment advances `pos` by 64 after every word, also after
one whose bits were distributed. -/
def countFullWords (buf : Buffer) : ℕ → ℕ → ℕ → Volume → Volume × ℕ
  | 0, _, pos, v => (v, pos)
  | n + 1, wi, pos, v =>
    let word := ~~~wordAt buf wi
    if word = 0 then countFullWords buf n (wi + 1) (u64 (pos + 64)) v
    else
      let r := distributeWord 64 word 64 pos v
      countFullWords buf n (wi + 1) (u64 (r.2 + 64)) r.1

def countChunk (buf : Buffer) (bitsInBuf bitCursor : ℕ) (v : Volume) : Volume :=
  let fullWords := bitsInBuf >>> 6
  let tailBits := bitsInBuf &&& 63
  let r := countFullWords buf fullWords 0 bitCursor v
  if tailBits ≠ 0 then
    let maskTail := if tailBits = 64 then BitVec.allOnes 64 else BitVec.ofNat 64 (2 ^ tailBits - 1)
    let word := ~~~wordAt buf fullWords &&& maskTail
    (distributeWord 64 word tailBits r.2 r.1).1
  else r.1

def countMap (env : Env) (mapStart mapLen totalBits : ℕ) : ℕ → ℕ → ℕ → Action Rfs Unit
  | 0, _, _ => pure ()
  | fuel + 1, bitCursor, sectorOff =>
    if sectorOff < mapLen ∧ bitCursor < totalBits then do
      let remaining := mapLen - sectorOff
      let sectorsThis := min remaining 16
      let bytesThis := 512 * sectorsThis
      match ← attempt (rfsReadDevice env (u64 (mapStart + sectorOff)) bytesThis) with
      | none => do
        modify fun v => { v with cached := false }
        fail
      | some buf => do
        let bitsInBuf := min (8 * bytesThis) (totalBits - bitCursor)
        modify fun v => { v with toVolume := countChunk buf bitsInBuf bitCursor v.toVolume }
        countMap env mapStart mapLen totalBits fuel (bitCursor + bitsInBuf)
          (sectorOff + sectorsThis)
    else pure ()

/-- Derives the L1 bits of group `g` from its counter. -/
def deriveL1 (v : Volume) (g : ℕ) : Volume :=
  let fc := v.l1FreeCount g
  let groupSize := rfsGroupSize v g
  { v with
    l1NotFull := bitsetSet v.l1NotFull g (decide (0 < fc))
    l1AllFree := bitsetSet v.l1AllFree g (decide (fc = u16 groupSize)) }

/-- Folds the L1 bits of super-group `sg` into its L2 bits. -/
def foldL2 (v : Volume) (sg : ℕ) : Volume :=
  let r := (superGroups v sg).foldl
    (fun acc g => (acc.1 || bitsetGet v.l1NotFull g, acc.2 && bitsetGet v.l1AllFree g))
    (false, true)
  { v with
    l2NotFull := bitsetSet v.l2NotFull sg r.1
    l2AllFree := bitsetSet v.l2AllFree sg r.2 }

def setGeometry (v : Volume) : Volume :=
  let l1Groups := u64 (v.totalSectors + 4095) / 4096
  { v with l1Groups := l1Groups, l2Groups := (l1Groups + 1023) / 1024 }

def clearCaches (v : Volume) : Volume :=
  { v with
    cached := true
    l1FreeCount := fun _ => 0
    l1NotFull := fun _ => 0
    l1AllFree := fun _ => 0
    l2NotFull := fun _ => 0
    l2AllFree := fun _ => 0 }

def deriveCaches (v : Volume) : Volume :=
  let v := (List.range v.l1Groups).foldl deriveL1 v
  (List.range v.l2Groups).foldl foldL2 v

def rfsBuildLevelCaches (env : Env) : Action Rfs Unit := do
  modify fun v => { v with toVolume := setGeometry v.toVolume }
  if !(← kmalloc env) then fail
  else
    modify fun v => { v with toVolume := clearCaches v.toVolume }
    let v ← get
    let mapLen := v.desc.freeSpaceMapLength
    countMap env v.desc.freeSpaceMapStart mapLen v.totalSectors mapLen 0 0
    modify fun v => { v with toVolume := deriveCaches v.toVolume }

end RetroRocket
