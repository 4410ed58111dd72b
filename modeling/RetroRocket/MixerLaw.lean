import RetroRocket.MixerStreams

/-!
# The mixing law

For each block that `mixer_idle` plays, the saturated sum over the streams of their frames to come,
each weighted with the gain of its stream, when the streams are cut into exact pieces; and after any
run of calls the count of queued frames is right.
-/

namespace RetroRocket

namespace MixerStream

variable {ch : MixerStream}

/-! ## One stream in one block -/

structure Kept (ch ch' : MixerStream) : Prop where
  chunks : ch'.chunks = ch.chunks
  queuedFrames : ch'.queuedFrames = ch.queuedFrames
  looping : ch'.looping = ch.looping
  loopFrames : ch'.loopFrames = ch.loopFrames
  loopFrameCount : ch'.loopFrameCount = ch.loopFrameCount

variable {ch' : MixerStream}

theorem Kept.queue (h : ch.Kept ch') : ch'.queue = ch.queue := by
  rw [MixerStream.queue, MixerStream.queue, h.chunks]

theorem Kept.good (h : ch.Kept ch') (hgood : ch.Good) (hgain : ch'.gainQ88 ≤ 256)
    (hbase : ch'.fadeBaseGainQ88 ≤ 256) : ch'.Good := by
  refine ⟨?_, ?_, hgain, hbase, ?_⟩
  · rw [h.queuedFrames, h.queue, hgood.queued]
  · rw [h.queue]
    exact hgood.small
  · rw [h.loopFrames, h.loopFrameCount]
    exact hgood.loop

theorem Kept.upcoming (h : ch.Kept ch') (k : ℕ) : ch'.upcoming k = ch.upcoming k :=
  upcoming_congr h.queue h.looping h.loopFrames k

theorem dbToGainQ88_le (n : ℕ) : dbToGainQ88 n ≤ 256 := by
  unfold dbToGainQ88
  split_ifs
  · exact le_rfl
  · exact Nat.zero_le _
  · have hall : ∀ g ∈ dbTo255, g ≤ 256 := by decide
    rw [List.getD_eq_getElem?_getD]
    cases hget : dbTo255[60 - n]? with
    | none => simp
    | some g => exact hall g (List.mem_of_getElem? hget)

theorem blockGain_spec (hgood : ch.Good) :
    ch.Kept ch.blockGain.1 ∧ ch.blockGain.1.Good ∧ ch.blockGain.2 ≤ 256 := by
  unfold blockGain
  split_ifs
  · exact ⟨⟨rfl, rfl, rfl, rfl, rfl⟩, hgood, hgood.gain⟩
  · have hkept : ch.Kept { ch with
        gainQ88 := 0, fadeActive := false, fadeTotalMs := 0, fadeRemainingMs := 0 } :=
      ⟨rfl, rfl, rfl, rfl, rfl⟩
    exact ⟨hkept, hkept.good hgood (Nat.zero_le _) hgood.fadeBase, Nat.zero_le _⟩
  · refine ⟨⟨rfl, rfl, rfl, rfl, rfl⟩, hgood, ?_⟩
    have hdb := dbToGainQ88_le
      (u32 (ch.fadeTotalMs + 2 ^ 32 - ch.fadeRemainingMs) * 60 / ch.fadeTotalMs)
    have hproduct := Nat.mul_le_mul hgood.fadeBase hdb
    have hgain : u16 (ch.fadeBaseGainQ88 * dbToGainQ88
        (u32 (ch.fadeTotalMs + 2 ^ 32 - ch.fadeRemainingMs) * 60 / ch.fadeTotalMs) / 256) ≤
            256 := by
      rw [u16_of_lt (by omega)]
      omega
    exact hgain

def started (ch : MixerStream) : MixerStream :=
  if ch.blockGain.1.chunks.isEmpty ∧ ch.blockGain.1.looping then
    (ch.blockGain.1.requeueLoop fun _ => true).2
  else ch.blockGain.1

def blockPieces (ch : MixerStream) (batch : ℕ) : List (List AudioFrame) :=
  ch.started.pieces (fun _ _ => true) (ch.started.mixFuel batch) batch

def Exact (ch : MixerStream) (batch : ℕ) : Prop :=
  ∀ p ∈ ch.blockPieces batch, PieceExact ch.blockGain.2 (samplesOf p) p.length

theorem turns_lt_mixFuel (ch : MixerStream) (batch : ℕ) : ch.turns batch < ch.mixFuel batch := by
  have hdrained : ch.drained ≤ ch.chunks.length := List.length_filter_le _ _
  unfold turns mixFuel
  split_ifs <;> omega

theorem started_spec (hgood : ch.Good) :
    ch.started.Good ∧ (∀ k, ch.started.upcoming k = ch.upcoming k) ∧
    (ch.started.chunks = [] → ∀ k, ch.upcoming k = none) := by
  obtain ⟨hkept, hgood', -⟩ := blockGain_spec hgood
  unfold started
  split_ifs with hloop
  · have hchunks := List.isEmpty_iff.mp hloop.1
    rcases requeueLoop_spec hgood' (fun _ => rfl) hchunks hloop.2 with
      ⟨-, hsame, hnone⟩ | ⟨-, hgood'', hfull, -, hsame⟩
    · rw [hsame]
      exact ⟨hgood', hkept.upcoming, fun _ k => (hkept.upcoming k).symm.trans (hnone k)⟩
    · exact ⟨hgood'', fun k => (hsame k).trans (hkept.upcoming k), fun h => absurd h hfull⟩
  · refine ⟨hgood', hkept.upcoming, fun hempty k => ?_⟩
    rw [← hkept.upcoming]
    have hlooping : ch.blockGain.1.looping = false := by
      by_contra h
      exact hloop ⟨List.isEmpty_iff.mpr hempty, by simpa using h⟩
    simp [MixerStream.upcoming, MixerStream.queue, hempty, hlooping]

theorem mixStream_spec (hgood : ch.Good) (hactive : ch.active = true) {batch : ℕ}
    (hexact : ch.Exact batch) (acc : Accum) :
    ∃ ch' acc', mixStream (fun _ _ => true) batch ch acc = some (ch', acc') ∧ ch'.Good ∧
      (∀ k, ch'.upcoming k = ch.upcoming (k + batch)) ∧
      Adds ch.blockGain.2 ch.upcoming 0 batch acc acc' := by
  obtain ⟨hgood', hsame, hnone⟩ := started_spec hgood
  have hgain := (blockGain_spec hgood).2.2
  have hrun : mixStream (fun _ _ => true) batch ch acc =
      if ch.started.chunks.isEmpty then some (ch.started, acc)
      else mixLoop (fun _ _ => true) ch.blockGain.2 (ch.started.mixFuel batch) ch.started
          batch 0 acc := by
    unfold mixStream
    rw [if_neg (by rw [hactive]; exact Bool.true_eq_false.mp)]
    rfl
  rw [hrun]
  split_ifs with hempty
  · have hnone' := hnone (List.isEmpty_iff.mp hempty)
    exact ⟨ch.started, acc, rfl, hgood',
      fun k => by rw [hsame, hnone', hnone'], adds_of_none hnone' acc⟩
  · obtain ⟨ch', acc', hloop, hgood'', hnext, hadds⟩ :=
      mixLoop_spec (fun _ _ => rfl) hgain 0 acc hgood'
      (ch.started.turns_lt_mixFuel batch) hexact
    rw [funext hsame] at hadds
    exact ⟨ch', acc', hloop, hgood'', fun k => (hnext k).trans (hsame _), hadds⟩

theorem advanceFade_kept (ch : MixerStream) (batchMs : ℕ) : ch.Kept (ch.advanceFade batchMs) := by
  unfold advanceFade
  split_ifs <;> exact ⟨rfl, rfl, rfl, rfl, rfl⟩

theorem Good.advanceFade (hgood : ch.Good) (batchMs : ℕ) : (ch.advanceFade batchMs).Good := by
  have hkept := ch.advanceFade_kept batchMs
  refine hkept.good hgood ?_ ?_
  · unfold MixerStream.advanceFade
    split_ifs
    · exact hgood.gain
    · exact Nat.zero_le _
    · exact hgood.gain
  · unfold MixerStream.advanceFade
    split_ifs <;> exact hgood.fadeBase

end MixerStream

namespace Mixer

open MixerStream

/-! ## One block -/

/-- What the streams add to sample `j` of the block. -/
def mixedAt (streams : List MixerStream) (j : ℕ) : ℤ :=
  ((streams.filter active).map fun ch => contribution ch.blockGain.2 ch.upcoming j).sum

theorem mixedAt_cons (ch : MixerStream) (rest : List MixerStream) (j : ℕ) :
    mixedAt (ch :: rest) j =
      (if ch.active = true then contribution ch.blockGain.2 ch.upcoming j else
        0) + mixedAt rest j := by
  unfold mixedAt
  split_ifs with hactive
  · rw [List.filter_cons_of_pos hactive, List.map_cons, List.sum_cons]
  · rw [List.filter_cons_of_neg hactive, zero_add]

def StreamPlayed (batch : ℕ) (ch ch' : MixerStream) : Prop :=
  if ch.active = true then ∀ k, ch'.upcoming k = ch.upcoming (k + batch)
  else ch'.queue = ch.queue ∧ ∀ k, ch'.upcoming k = ch.upcoming k

structure BlockLaw (s : Mixer) (batch : ℕ) (t : Mixer) : Prop where
  played : ∃ b, t.played = b :: s.played ∧ b.frames = batch ∧
    ∀ j < 2 * batch, (b.samples j).toInt = max (-32768) (min (mixedAt s.streams j) 32767)
  streams : List.Forall₂ (StreamPlayed batch) s.streams t.streams

def BlockExact (s : Mixer) (batch : ℕ) : Prop :=
  ∀ ch ∈ s.streams, ch.active = true → ch.Exact batch

theorem mixStreams_spec {streams : List MixerStream} (hgood : ∀ ch ∈ streams, ch.Good) {batch : ℕ}
    (hexact : ∀ ch ∈ streams, ch.active = true → ch.Exact batch) (acc : Accum) :
    ∃ streams' acc', mixStreams (fun _ _ _ => true) batch streams acc = some (streams', acc') ∧
      (∀ ch ∈ streams', ch.Good) ∧ List.Forall₂ (StreamPlayed batch) streams streams' ∧
      ∀ j < 2 * batch, acc' j = acc j + BitVec.ofInt 32 (mixedAt streams j) := by
  induction streams generalizing acc with
  | nil => exact ⟨[], acc, rfl, by simp, List.Forall₂.nil, fun j _ => (BitVec.add_zero _).symm⟩
  | cons ch rest ih =>
    have hch := hgood ch List.mem_cons_self
    have hrest := fun c hc => hgood c (List.mem_cons_of_mem ch hc)
    have hrestExact := fun c hc => hexact c (List.mem_cons_of_mem ch hc)
    by_cases hactive : ch.active = true
    · obtain ⟨ch', acc₁, hmix, hgood', hnext, hadds⟩ :=
        mixStream_spec hch hactive (hexact ch List.mem_cons_self hactive) acc
      obtain ⟨streams', acc', hmixes, hgoods, hplayed, hsum⟩ := ih hrest hrestExact acc₁
      refine ⟨ch' :: streams', acc', ?_, ?_, List.Forall₂.cons ?_ hplayed, fun j hj => ?_⟩
      · simp only [mixStreams, hmix, hmixes, Option.bind_eq_bind, Option.bind_some]
      · simpa [hgood'] using hgoods
      · rw [StreamPlayed, if_pos hactive]
        exact hnext
      · rw [hsum j hj, hadds j, if_pos (by omega), mixedAt_cons, if_pos hactive, BitVec.ofInt_add,
          BitVec.add_assoc, Nat.mul_zero, Nat.sub_zero]
    · obtain ⟨streams', acc', hmixes, hgoods, hplayed, hsum⟩ := ih hrest hrestExact acc
      refine ⟨ch :: streams', acc', ?_, ?_, List.Forall₂.cons ?_ hplayed, fun j hj => ?_⟩
      · have hmix : mixStream (fun _ _ => true) batch ch acc = some (ch, acc) := by
          unfold mixStream
          rw [if_pos (Bool.eq_false_iff.mpr hactive)]
        simp only [mixStreams, hmix, hmixes, Option.bind_eq_bind, Option.bind_some]
      · simpa [hch] using hgoods
      · rw [StreamPlayed, if_neg hactive]
        exact ⟨rfl, fun _ => rfl⟩
      · rw [hsum j hj, mixedAt_cons, if_neg hactive, zero_add]

theorem contribution_bounds {gain : ℕ} (hgain : gain ≤ 256) (next : ℕ → Option AudioFrame) (j : ℕ) :
    -32768 ≤ contribution gain next j ∧ contribution gain next j ≤ 32768 := by
  unfold contribution
  cases next (j / 2) with
  | none => constructor <;> dsimp only <;> omega
  | some f => exact weighted_bounds hgain _

theorem mixedAt_bounds {streams : List MixerStream} (hgood : ∀ ch ∈ streams, ch.Good) (j : ℕ) :
    -(32768 * streams.length) ≤ mixedAt streams j ∧ mixedAt streams j ≤ 32768 * streams.length := by
  induction streams with
  | nil => simp [mixedAt]
  | cons ch rest ih =>
    obtain ⟨hlow, hhigh⟩ := ih fun c hc => hgood c (List.mem_cons_of_mem ch hc)
    have hone :=
      contribution_bounds (blockGain_spec (hgood ch List.mem_cons_self)).2.2 ch.upcoming j
    rw [List.length_cons, mixedAt_cons]
    push_cast
    split_ifs <;> omega

theorem toInt_clampS16 {z : ℤ} (hlow : -2 ^ 31 ≤ z) (hhigh : z < 2 ^ 31) :
    (clampS16 (BitVec.ofInt 32 z)).toInt = max (-32768) (min z 32767) := by
  unfold clampS16
  rw [toInt_ofInt hlow hhigh]
  exact BitVec.toInt_ofInt_eq_self (by decide) (by omega) (by omega)

structure Good (s : Mixer) : Prop where
  streams : ∀ ch ∈ s.streams, ch.Good
  cap : s.streams.length ≤ 64

theorem block_spec {s : Mixer} (hgood : s.Good) {batch : ℕ} (hexact : s.BlockExact batch)
    (rate : ℕ) :
    ∃ t, s.block (fun _ _ _ => true) rate batch = some t ∧ t.Good ∧ s.BlockLaw batch t := by
  obtain ⟨streams', acc', hmix, hgoods, hplayed, hsum⟩ :=
    mixStreams_spec hgood.streams hexact fun _ => 0
  generalize hms : (if u32 (batch * 1000 / rate) = 0 then 1 else
    u32 (batch * 1000 / rate)) = batchMs
  refine ⟨{ s with
    streams := streams'.map (advanceFade batchMs)
    played := ⟨batch, fun j => clampS16 (acc' j)⟩ :: s.played }, ?_, ⟨?_, ?_⟩,
    ⟨⟨_, rfl, rfl, fun j hj => ?_⟩, ?_⟩⟩
  · simp only [block, hmix, Option.bind_eq_bind, Option.bind_some, hms]
  · intro ch hch
    obtain ⟨c, hc, rfl⟩ := List.mem_map.mp hch
    exact (hgoods c hc).advanceFade batchMs
  · rw [List.length_map, ← hplayed.length_eq]
    exact hgood.cap
  · have hbounds := mixedAt_bounds hgood.streams j
    have hcap := hgood.cap
    have hacc : acc' j = BitVec.ofInt 32 (mixedAt s.streams j) :=
      (hsum j hj).trans (BitVec.zero_add _)
    dsimp only
    rw [hacc]
    exact toInt_clampS16 (by omega) (by omega)
  · rw [List.forall₂_map_right_iff]
    refine hplayed.imp fun ch ch' hch => ?_
    have hkept := ch'.advanceFade_kept batchMs
    unfold StreamPlayed at hch ⊢
    split_ifs at hch ⊢
    · exact fun k => (hkept.upcoming k).trans (hch k)
    · exact ⟨hkept.queue.trans hch.1, fun k => (hkept.upcoming k).trans (hch.2 k)⟩

/-! ## One call of `mixer_idle` -/

inductive Delivered : Mixer → Mixer → Prop
  | refl (s : Mixer) : Delivered s s
  | cons {s t u : Mixer} {batch : ℕ} : BlockLaw s batch t → Delivered t u → Delivered s u

def DeliverExact (rate : ℕ) : ℕ → Mixer → ℕ → Prop
  | 0, _, _ => True
  | fuel + 1, s, needFrames => needFrames ≠ 0 → s.BlockExact (batchOf needFrames) ∧
      ∀ t, s.block (fun _ _ _ => true) rate (batchOf needFrames) = some t →
        DeliverExact rate fuel t
          (if batchOf needFrames < needFrames then needFrames - batchOf needFrames else 0)

theorem batchOf_pos (needFrames : ℕ) : 0 < batchOf needFrames := by
  unfold batchOf
  dsimp only
  split_ifs <;> omega

theorem deliver_spec {rate fuel needFrames : ℕ} {s : Mixer} (hgood : s.Good)
    (hfuel : needFrames ≤ fuel) (hexact : DeliverExact rate fuel s needFrames) :
    ∃ t, deliver (fun _ _ _ _ => true) rate fuel s needFrames = some t ∧ t.Good ∧
      Delivered s t := by
  induction fuel generalizing s needFrames with
  | zero =>
    obtain rfl : needFrames = 0 := by omega
    exact ⟨s, rfl, hgood, Delivered.refl s⟩
  | succ fuel ih =>
    unfold deliver
    by_cases hdone : needFrames = 0
    · exact ⟨s, if_pos hdone, hgood, Delivered.refl s⟩
    obtain ⟨hblock, hrest⟩ := hexact hdone
    obtain ⟨t, ht, hgood', hlaw⟩ := block_spec hgood hblock rate
    have hpos := batchOf_pos needFrames
    obtain ⟨u, hu, hgood'', hdelivered⟩ := ih hgood' (by split_ifs <;> omega) (hrest t ht)
    refine ⟨u, ?_, hgood'', Delivered.cons hlaw hdelivered⟩
    rw [if_neg hdone]
    simp only [ht, Option.bind_eq_bind, Option.bind_some, hu]

end Mixer

/-! ## Runs -/

inductive StreamCall where
  | push (copies : Bool) (kmalloc : ℕ → Bool) (frames : List AudioFrame) (looping : Bool)
  | setGain (gain : ℕ)
  | fade (milliseconds : ℕ)
  | setMute (mute : Bool)
  | setPaused (paused : Bool)
  | stop
  | free

namespace StreamCall

open MixerStream

def apply (ch : MixerStream) : StreamCall → MixerStream
  | push copies kmalloc frames looping => (ch.push copies kmalloc frames looping).1
  | setGain gain => ch.setGain gain
  | fade milliseconds => ch.fade milliseconds
  | setMute mute => { ch with muted := mute }
  | setPaused paused => { ch with paused }
  | stop => ch.stop
  | free => ch.free

def queueAfter (ch : MixerStream) : StreamCall → List AudioFrame
  | push _ _ frames _ => if ch.inUse then ch.queue ++ frames else ch.queue
  | stop => []
  | free => []
  | _ => ch.queue

/-- The chunks of a push can be allocated, its frames and those in the queue can be counted, and a
gain is at most unity. -/
def Smooth (ch : MixerStream) : StreamCall → Prop
  | push _ kmalloc frames _ => (∀ a, kmalloc a = true) ∧ frames.length ≤ 2 ^ 31 ∧
      ch.queue.length + frames.length < 2 ^ 32
  | setGain gain => gain ≤ 256
  | _ => True

variable {ch : MixerStream}

theorem setLoop_spec {frames : List AudioFrame} (hgood : ch.Good) (hlen : frames.length ≤ 2 ^ 31)
    (copies looping : Bool) : (ch.setLoop copies frames looping).Good ∧
      (ch.setLoop copies frames looping).queue = ch.queue := by
  have hcount : u32 frames.length = frames.length := u32_of_lt (by omega)
  have hset : ∀ l n looping, (∀ m, l = some m → n = m.length ∧ m.length ≤ 2 ^ 31) →
      ({ ch with looping, loopFrames := l, loopFrameCount := n } : MixerStream).Good :=
    fun l n looping hl => ⟨hgood.queued, hgood.small, hgood.gain, hgood.fadeBase, hl⟩
  unfold setLoop
  rw [hcount]
  dsimp only
  split_ifs with hold
  all_goals refine ⟨?_, rfl⟩
  all_goals first
    | exact hset _ _ _ hgood.loop
    | exact hset none 0 _ fun m hm => by cases hm
    | exact hset (some frames) _ _ fun m hm => by
        obtain rfl := Option.some.inj hm
        exact ⟨rfl, hlen⟩

theorem push_spec {kmalloc : ℕ → Bool} {frames : List AudioFrame} (hgood : ch.Good)
    (hkmalloc : ∀ a, kmalloc a = true) (hlen : frames.length ≤ 2 ^ 31)
    (hsmall : ch.queue.length + frames.length < 2 ^ 32) (copies looping : Bool) :
    (ch.push copies kmalloc frames looping).1.Good ∧
      (ch.push copies kmalloc frames looping).1.queue =
        if ch.inUse then ch.queue ++ frames else ch.queue := by
  unfold MixerStream.push
  by_cases hidle : ch.inUse = false ∨ frames.length = 0
  · rw [if_pos hidle]
    refine ⟨hgood, ?_⟩
    rcases hidle with hidle | hempty
    · rw [if_neg (by rw [hidle]; exact Bool.false_ne_true)]
    · rw [List.length_eq_zero_iff] at hempty
      rw [hempty, List.append_nil, ite_self]
  rw [if_neg hidle, if_pos (by simpa using (not_or.mp hidle).1),
    show u32 frames.length = frames.length from u32_of_lt (by omega)]
  obtain ⟨hgood', hqueue⟩ := setLoop_spec hgood hlen copies looping
  generalize ch.setLoop copies frames looping = ch' at hgood' hqueue
  have hqueued := hgood'.queued
  rw [hqueue] at hqueued
  obtain ⟨cs, chunkFrames, heq, hcs, -⟩ := appendLoop_spec hlen hkmalloc ch'.preferred ch'
    (show 0 + frames.length = frames.length by omega) le_rfl ch'.preferred_pos (by omega)
  dsimp only
  rw [heq]
  rw [List.drop_zero] at hcs
  generalize hafter : ({ ch' with
    chunks := ch'.chunks ++ cs
    queuedFrames := ch'.queuedFrames + frames.length, chunkFrames } : MixerStream) = after
  have hqueue' : after.queue = ch.queue ++ frames := by
    rw [← hafter, ← hqueue, MixerStream.queue, MixerStream.queue, List.flatMap_append, hcs]
  have hlength := congrArg List.length hqueue'
  rw [List.length_append] at hlength
  have hcounted : after.queuedFrames = after.queue.length := by
    rw [hlength, ← hqueued, ← hafter]
  have hafterSmall : after.queue.length < 2 ^ 32 := by omega
  refine ⟨⟨hcounted, hafterSmall, ?_, ?_, ?_⟩, hqueue'⟩ <;> rw [← hafter]
  · exact hgood'.gain
  · exact hgood'.fadeBase
  · exact hgood'.loop

theorem apply_spec (hgood : ch.Good) {c : StreamCall} (hsmooth : c.Smooth ch) :
    (c.apply ch).Good ∧ (c.apply ch).queue = c.queueAfter ch := by
  have hloop : ∀ l, (none : Option (List AudioFrame)) = some l → 0 = l.length ∧ l.length ≤ 2 ^ 31 :=
    fun l hl => by cases hl
  cases c with
  | push copies kmalloc frames looping =>
    exact push_spec hgood hsmooth.1 hsmooth.2.1 hsmooth.2.2 copies looping
  | setGain gain =>
    exact ⟨⟨hgood.queued, hgood.small, hsmooth, hgood.fadeBase, hgood.loop⟩, rfl⟩
  | fade milliseconds =>
    change (ch.fade milliseconds).Good ∧ (ch.fade milliseconds).queue = ch.queue
    unfold MixerStream.fade
    split_ifs
    · exact ⟨⟨hgood.queued, hgood.small, Nat.zero_le _, hgood.fadeBase, hgood.loop⟩, rfl⟩
    · exact ⟨⟨hgood.queued, hgood.small, hgood.gain, hgood.gain, hgood.loop⟩, rfl⟩
  | setMute mute => exact ⟨⟨hgood.queued, hgood.small, hgood.gain, hgood.fadeBase, hgood.loop⟩, rfl⟩
  | setPaused paused =>
    exact ⟨⟨hgood.queued, hgood.small, hgood.gain, hgood.fadeBase, hgood.loop⟩, rfl⟩
  | stop => exact ⟨⟨rfl, Nat.two_pow_pos 32, hgood.gain, hgood.fadeBase, hloop⟩, rfl⟩
  | free => exact ⟨⟨rfl, Nat.two_pow_pos 32, hgood.gain, hgood.fadeBase, hloop⟩, rfl⟩

end StreamCall

inductive MixerEvent where
  | create
  | call (i : ℕ) (c : StreamCall)
  | idle (kmalloc : ℕ → ℕ → ℕ → ℕ → Bool) (rate haveMs : ℕ)

namespace Mixer

open MixerStream

def step (s : Mixer) : MixerEvent → Option Mixer
  | .create => some { s with streams := createStream s.streams }
  | .call i c => some { s with streams := s.streams.modify i c.apply }
  | .idle kmalloc rate haveMs => s.idle kmalloc rate haveMs

/-- A call is smooth for its stream; the allocations of `mixer_idle` succeed and its pieces are
exact. -/
def Smooth (s : Mixer) : MixerEvent → Prop
  | .create => True
  | .call i c => ∀ ch ∈ s.streams[i]?, c.Smooth ch
  | .idle kmalloc rate haveMs => (∀ a b c d, kmalloc a b c d = true) ∧
      DeliverExact rate (s.needFrames rate haveMs) s (s.needFrames rate haveMs)

/-- The law of an event: a call queues what it is to queue, and `mixer_idle` plays lawful blocks. -/
def Law (s : Mixer) : MixerEvent → Mixer → Prop
  | .create, _ => True
  | .call i c, t => ∀ ch ∈ s.streams[i]?, ∃ ch' ∈ t.streams[i]?, ch'.queue = c.queueAfter ch
  | .idle _ _ _, t => Delivered s t

/-- The mixers that events satisfying `P` lead to. -/
inductive Run (P : Mixer → MixerEvent → Prop) (s : Mixer) : Mixer → Prop
  | refl : Run P s s
  | step {t u : Mixer} {e : MixerEvent} : Run P s t → P t e → t.step e = some u → Run P s u

/-- After `mixer_init`: the table of streams is all zero. -/
def initial (cap targetLatencyMs : ℕ) : Mixer where
  streams := List.replicate cap ⟨[], 0, 0, false, false, false, false, false, 0, 0, 0, 0, none, 0⟩
  targetLatencyMs := targetLatencyMs
  played := []

variable {s t : Mixer} {e : MixerEvent}

theorem initial_good {cap : ℕ} (hcap : cap ≤ 64) (targetLatencyMs : ℕ) :
    (initial cap targetLatencyMs).Good := by
  refine ⟨fun ch hch => ?_, ?_⟩
  · rw [List.eq_of_mem_replicate hch]
    exact ⟨rfl, Nat.two_pow_pos 32, Nat.zero_le _, Nat.zero_le _, fun l hl => by cases hl⟩
  · exact (List.length_replicate ..).trans_le hcap

theorem create_good (ch : MixerStream) : ch.create.Good :=
  ⟨rfl, Nat.two_pow_pos 32, le_rfl, le_rfl, fun l hl => by cases hl⟩

theorem createStream_good {streams : List MixerStream} (h : ∀ ch ∈ streams, ch.Good) :
    (∀ ch ∈ createStream streams, ch.Good) ∧ (createStream streams).length = streams.length := by
  induction streams with
  | nil => exact ⟨h, rfl⟩
  | cons ch rest ih =>
    obtain ⟨hrest, hlength⟩ := ih fun c hc => h c (List.mem_cons_of_mem ch hc)
    unfold createStream
    split_ifs
    · refine ⟨fun c hc => ?_, by rw [List.length_cons, hlength, List.length_cons]⟩
      rcases List.mem_cons.mp hc with rfl | hc
      · exact h c List.mem_cons_self
      · exact hrest c hc
    · refine ⟨fun c hc => ?_, rfl⟩
      rcases List.mem_cons.mp hc with rfl | hc
      · exact create_good ch
      · exact h c (List.mem_cons_of_mem ch hc)

theorem Good.step (hgood : s.Good) (hsmooth : s.Smooth e) :
    ∃ t, s.step e = some t ∧ t.Good ∧ s.Law e t := by
  cases e with
  | create =>
    obtain ⟨hstreams, hlength⟩ := createStream_good hgood.streams
    exact ⟨_, rfl, ⟨hstreams, hlength.trans_le hgood.cap⟩, trivial⟩
  | call i c =>
    refine ⟨_, rfl, ⟨fun ch hch => ?_, ?_⟩, fun ch hch => ?_⟩
    · obtain ⟨j, hj⟩ := List.mem_iff_getElem?.mp hch
      rw [List.getElem?_modify, Option.map_eq_map, Option.map_eq_some_iff] at hj
      obtain ⟨c', hc', rfl⟩ := hj
      have hgood' := hgood.streams c' (List.mem_of_getElem? hc')
      split_ifs with hij
      · subst hij
        exact (StreamCall.apply_spec hgood' (hsmooth c' hc')).1
      · exact hgood'
    · exact (List.length_modify ..).trans_le hgood.cap
    · have hgood' := hgood.streams ch (List.mem_of_getElem? hch)
      refine ⟨c.apply ch, ?_, (StreamCall.apply_spec hgood' (hsmooth ch hch)).2⟩
      rw [Option.mem_def] at hch ⊢
      dsimp only
      rw [List.getElem?_modify, hch, Option.map_eq_map, Option.map_some, if_pos rfl]
  | idle kmalloc rate haveMs =>
    obtain ⟨hkmalloc, hexact⟩ := hsmooth
    obtain rfl : kmalloc = fun _ _ _ _ => true := by
      funext a b c d
      exact hkmalloc a b c d
    exact deliver_spec hgood le_rfl hexact

theorem Good.run (hgood : s.Good) (hrun : s.Run Smooth t) : t.Good := by
  induction hrun with
  | refl => exact hgood
  | step _ hsmooth hstep ih =>
    obtain ⟨u, hu, hgood', -⟩ := ih.step hsmooth
    obtain rfl := Option.some.inj (hu.symm.trans hstep)
    exact hgood'

/-- In a smooth run the queues are counted right, and every further smooth event returns and is
lawful. -/
theorem run_mixing {cap : ℕ} (hcap : cap ≤ 64) (targetLatencyMs : ℕ)
    (hrun : (initial cap targetLatencyMs).Run Smooth t) :
    (∀ ch ∈ t.streams, ch.queuedFrames = ch.queue.length) ∧
      ∀ e, t.Smooth e → ∃ u, t.step e = some u ∧ t.Law e u := by
  have hgood := (initial_good hcap targetLatencyMs).run hrun
  refine ⟨fun ch hch => (hgood.streams ch hch).queued, fun e hsmooth => ?_⟩
  obtain ⟨u, hu, -, hlaw⟩ := hgood.step hsmooth
  exact ⟨u, hu, hlaw⟩

/-! ## One stream -/

theorem Delivered.played_length {u : Mixer} (h : Delivered s u) :
    s = u ∨ s.played.length < u.played.length := by
  induction h with
  | refl => exact Or.inl rfl
  | cons hlaw _ ih =>
    obtain ⟨b, hb, -⟩ := hlaw.played
    right
    rcases ih with rfl | hmore
    · simp [hb]
    · have := congrArg List.length hb
      rw [List.length_cons] at this
      omega

theorem Delivered.single {u : Mixer} (h : Delivered s u)
    (hlength : u.played.length = s.played.length + 1) : ∃ batch, s.BlockLaw batch u := by
  cases h with
  | refl => omega
  | @cons _ t _ batch hlaw hrest =>
    obtain ⟨b, hb, -⟩ := hlaw.played
    have hone := congrArg List.length hb
    rw [List.length_cons] at hone
    rcases hrest.played_length with rfl | hmore
    · exact ⟨batch, hlaw⟩
    · omega

def everyKmalloc : ℕ → ℕ → ℕ → ℕ → Bool := fun _ _ _ _ => true

def oneStream : Mixer := ((initial 1 60).step .create).getD (initial 1 60)

def withGain (gain : ℕ) : Mixer := (oneStream.step (.call 0 (.setGain gain))).getD oneStream

def withFrames (gain : ℕ) (frames : List AudioFrame) : Mixer :=
  ((withGain gain).step (.call 0 (.push true (fun _ => true) frames false))).getD (withGain gain)

theorem withFrames_run {P : Mixer → MixerEvent → Prop} {gain : ℕ} {frames : List AudioFrame}
    (hcreate : P (initial 1 60) .create) (hgain : P oneStream (.call 0 (.setGain gain)))
    (hpush : P (withGain gain) (.call 0 (.push true (fun _ => true) frames false))) :
    (initial 1 60).Run P (withFrames gain frames) :=
  ((Run.refl.step hcreate rfl).step hgain rfl).step hpush rfl

theorem not_delivered_of_sample {u : Mixer} {b : Block} {j : ℕ} (hplayed : u.played = b :: s.played)
    (hj : j < 2 * b.frames)
    (hsample : (b.samples j).toInt ≠ max (-32768) (min (mixedAt s.streams j) 32767)) :
    ¬ Delivered s u := by
  intro h
  obtain ⟨batch, hlaw⟩ := h.single (by rw [hplayed, List.length_cons])
  obtain ⟨b', hb', rfl, hlaw⟩ := hlaw.played
  obtain rfl := (List.cons.inj (hplayed.symm.trans hb')).1
  exact hsample (hlaw j hj)

/-- Half the gain on samples of -2, where the vector loop plays -2 and not -1, and on five frames,
the last of which is played as the first. -/
theorem halfGain_not_lawful :
    ((initial 1 60).Run (fun _ _ => True) (withFrames 128 (List.replicate 4 ⟨-2, -2⟩)) ∧
      ∃ u, (withFrames 128 (List.replicate 4 ⟨-2, -2⟩)).step (.idle everyKmalloc 1000 0) = some u ∧
        ¬ (withFrames 128 (List.replicate 4 ⟨-2, -2⟩)).Law (.idle everyKmalloc 1000 0) u) ∧
    (initial 1 60).Run (fun _ _ => True) (withFrames 128 (List.replicate 4 ⟨2, 2⟩ ++ [⟨4, 4⟩])) ∧
      ∃ u, (withFrames 128 (List.replicate 4 ⟨2, 2⟩ ++ [⟨4, 4⟩])).step
        (.idle everyKmalloc 1000 0) = some u ∧
        ¬ (withFrames 128 (List.replicate 4 ⟨2, 2⟩ ++ [⟨4, 4⟩])).Law
            (.idle everyKmalloc 1000 0) u := by
  have hfinds : ∀ frames : List AudioFrame, ∀ j x,
      ((withFrames 128 frames).step (.idle everyKmalloc 1000 0)).map (fun u =>
        (u.played.length, u.played.head?.map fun b => (b.frames, (b.samples j).toInt))) =
          some (1, some (8192, x)) → (withFrames 128 frames).played = [] → j < 16384 →
      x ≠ max (-32768) (min (mixedAt (withFrames 128 frames).streams j) 32767) →
      ∃ u, (withFrames 128 frames).step (.idle everyKmalloc 1000 0) = some u ∧
        ¬ (withFrames 128 frames).Law (.idle everyKmalloc 1000 0) u := by
    intro frames j x hrun hnone hj hx
    obtain ⟨u, hu, heq⟩ := Option.map_eq_some_iff.mp hrun
    obtain ⟨hlength, hhead⟩ := Prod.mk.inj heq
    obtain ⟨b, hb⟩ := List.length_eq_one_iff.mp hlength
    rw [hb, List.head?_cons, Option.map_some, Option.some.injEq, Prod.mk.injEq] at hhead
    refine ⟨u, hu, not_delivered_of_sample (b := b) (j := j) ?_ (by omega) (hhead.2 ▸ hx)⟩
    rw [hb, hnone]
  exact ⟨⟨withFrames_run trivial trivial trivial,
      hfinds _ 0 (-2) (by decide) (by decide) (by decide) (by decide)⟩,
    withFrames_run trivial trivial trivial,
      hfinds _ 8 1 (by decide) (by decide) (by decide) (by decide)⟩

theorem run_mixing_unity :
    (∀ ch ∈ (withFrames 256 [⟨-2, 7⟩]).streams, ch.queuedFrames = ch.queue.length) ∧
      ∀ e, (withFrames 256 [⟨-2, 7⟩]).Smooth e →
        ∃ u, (withFrames 256 [⟨-2, 7⟩]).step e = some u ∧ (withFrames 256 [⟨-2, 7⟩]).Law e u := by
  refine run_mixing
    (show 1 ≤ 64 by decide) 60 (withFrames_run trivial (fun ch _ => ?_) fun ch hch => ?_)
  · exact le_rfl
  · have hempty : ((withGain 256).streams[0]?).all (fun ch => ch.chunks.isEmpty) = true := by decide
    rw [Option.mem_def.mp hch, Option.all_some, List.isEmpty_iff] at hempty
    refine ⟨fun _ => rfl, by decide, ?_⟩
    rw [MixerStream.queue, hempty]
    decide

end Mixer

end RetroRocket
