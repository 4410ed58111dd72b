import RetroRocket.MixerPieces

/-!
# Streams in the mix

A stream has frames to come: those that are queued, and then its loop over and over. Queueing
appends frames, and mixing a block takes as many frames off the front as the block has and adds them
to the accumulator, if the pieces that the chunks are cut into are exact.
-/

namespace RetroRocket

def MixerChunk.rest (c : MixerChunk) : List AudioFrame := c.frames.drop c.rpos

namespace MixerStream

def queue (ch : MixerStream) : List AudioFrame := ch.chunks.flatMap MixerChunk.rest

def upcoming (ch : MixerStream) (k : ℕ) : Option AudioFrame :=
  if k < ch.queue.length then ch.queue[k]?
  else if ch.looping then ch.loopFrames.bind fun l => l[(k - ch.queue.length) % l.length]?
  else none

structure Good (ch : MixerStream) : Prop where
  queued : ch.queuedFrames = ch.queue.length
  small : ch.queue.length < 2 ^ 32
  gain : ch.gainQ88 ≤ 256
  fadeBase : ch.fadeBaseGainQ88 ≤ 256
  loop : ∀ l, ch.loopFrames = some l → ch.loopFrameCount = l.length ∧ l.length ≤ 2 ^ 31

variable {ch ch' : MixerStream} {n : ℕ}

theorem upcoming_of_queue_drop (hqueue : ch'.queue = ch.queue.drop n) (hn : n ≤ ch.queue.length)
    (hlooping : ch'.looping = ch.looping) (hloop : ch'.loopFrames = ch.loopFrames) (k : ℕ) :
    ch'.upcoming k = ch.upcoming (k + n) := by
  unfold upcoming
  rw [hqueue, List.length_drop, hlooping, hloop]
  by_cases hk : k + n < ch.queue.length
  · rw [if_pos (by omega), if_pos hk, List.getElem?_drop, Nat.add_comm]
  · rw [if_neg (by omega), if_neg hk,
      show k - (ch.queue.length - n) = k + n - ch.queue.length by omega]

theorem upcoming_congr (hqueue : ch'.queue = ch.queue) (hlooping : ch'.looping = ch.looping)
    (hloop : ch'.loopFrames = ch.loopFrames) (k : ℕ) : ch'.upcoming k = ch.upcoming k :=
  upcoming_of_queue_drop (n := 0) hqueue (Nat.zero_le _) hlooping hloop k

theorem upcoming_requeue {l : List AudioFrame} (hqueue : ch.queue = [])
    (hlooping : ch.looping = true)
    (hloop : ch.loopFrames = some l) (hqueue' : ch'.queue = l)
    (hlooping' : ch'.looping = ch.looping)
    (hloop' : ch'.loopFrames = ch.loopFrames) (k : ℕ) : ch'.upcoming k = ch.upcoming k := by
  unfold upcoming
  rw [hqueue, hqueue', hlooping', hloop', hlooping, hloop, List.length_nil,
    if_neg (Nat.not_lt_zero k),
    Nat.sub_zero]
  simp only [if_true, Option.bind_some]
  split_ifs with hk
  · rw [Nat.mod_eq_of_lt hk]
  · rw [Nat.mod_eq_sub_mod (not_lt.mp hk)]

/-! ## Queueing -/

/-- The loop of `mixer_push` queues all frames, in chunks that are not empty. -/
theorem appendLoop_spec {kmalloc : ℕ → Bool} {frames : List AudioFrame}
    (hlen : frames.length ≤ 2 ^ 31)
    (hkmalloc : ∀ a, kmalloc a = true) {fuel remaining accepted : ℕ} (preferred : ℕ)
    (ch : MixerStream) (hsum : accepted + remaining = frames.length) (hfuel : remaining ≤ fuel)
    (hpref : 0 < preferred) (hsmall : ch.queuedFrames + remaining < 2 ^ 32) :
    ∃ cs chunkFrames, appendLoop kmalloc frames fuel preferred remaining accepted ch =
        ({ ch with
            chunks := ch.chunks ++ cs
            queuedFrames := ch.queuedFrames + remaining
            chunkFrames }, frames.length) ∧
      cs.flatMap MixerChunk.rest = frames.drop accepted ∧ ∀ c ∈ cs, c.rpos < c.frames.length := by
  induction fuel generalizing preferred remaining accepted ch with
  | zero =>
    obtain rfl : remaining = 0 := by omega
    obtain rfl : accepted = frames.length := by omega
    refine ⟨[], ch.chunkFrames, ?_, by simp, by simp⟩
    rw [appendLoop, List.append_nil, Nat.add_zero]
  | succ fuel ih =>
    rw [appendLoop]
    by_cases hdone : remaining = 0
    · obtain rfl : accepted = frames.length := by omega
      subst hdone
      refine ⟨[], ch.chunkFrames, ?_, by simp, by simp⟩
      rw [if_pos rfl, List.append_nil, Nat.add_zero]
    rw [if_neg hdone, if_neg (by rw [hkmalloc]; exact Bool.true_eq_false.mp)]
    generalize hbatch : (if preferred < remaining then preferred else remaining) = batch
    have hpos : 0 < batch ∧ batch ≤ remaining := by
      rw [← hbatch]
      split_ifs <;> omega
    have hoffset : u32 (2 * accepted) / 2 = accepted := by
      rw [u32_of_lt (by omega), Nat.mul_div_cancel_left _ (by decide)]
    have hqueued : u32 (ch.queuedFrames + batch) = ch.queuedFrames + batch := u32_of_lt (by omega)
    have haccepted : u32 (accepted + batch) = accepted + batch := u32_of_lt (by omega)
    dsimp only
    rw [hoffset, hqueued, haccepted]
    have hchunk : ((frames.drop accepted).take batch).length = batch := by
      rw [List.length_take, List.length_drop]
      omega
    -- what is left is queued behind the new chunk, whether or not the chunks grow
    have hrest : ∀ p cf, 0 < p → ∃ cs chunkFrames,
        appendLoop kmalloc frames fuel p (remaining - batch) (accepted + batch) { ch with
          chunks := ch.chunks ++ [⟨(frames.drop accepted).take batch, 0⟩]
          queuedFrames := ch.queuedFrames + batch, chunkFrames := cf } =
        ({ ch with
            chunks := ch.chunks ++ cs
            queuedFrames := ch.queuedFrames + remaining
            chunkFrames }, frames.length) ∧
        cs.flatMap MixerChunk.rest = frames.drop accepted ∧ ∀ c ∈ cs, c.rpos < c.frames.length := by
      intro p cf hp
      obtain ⟨cs, chunkFrames, heq, hcs, hne⟩ := ih p { ch with
          chunks := ch.chunks ++ [⟨(frames.drop accepted).take batch, 0⟩]
          queuedFrames := ch.queuedFrames + batch, chunkFrames := cf }
        (show accepted + batch + (remaining - batch) = frames.length by omega) (by omega) hp
        (show ch.queuedFrames + batch + (remaining - batch) < 2 ^ 32 by omega)
      refine ⟨⟨(frames.drop accepted).take batch, 0⟩ :: cs, chunkFrames, ?_, ?_, ?_⟩
      · rw [heq]
        dsimp only
        rw [List.append_assoc, List.singleton_append,
          show ch.queuedFrames + batch + (remaining - batch) = ch.queuedFrames + remaining by omega]
      · rw [List.flatMap_cons, hcs]
        simp only [MixerChunk.rest, List.drop_zero]
        rw [← List.drop_drop, List.take_append_drop]
      · intro c hc
        rcases List.mem_cons.mp hc with rfl | hc
        · dsimp only
          omega
        · exact hne c hc
    split_ifs with hgrow
    · exact hrest (2 * preferred) (2 * preferred) (by omega)
    · exact hrest preferred ch.chunkFrames hpref

theorem preferred_pos (ch : MixerStream) : 0 < ch.preferred := by
  unfold preferred
  split_ifs <;> omega

theorem requeueLoop_spec {kmalloc : ℕ → Bool} (hgood : ch.Good) (hkmalloc : ∀ a, kmalloc a = true)
    (hchunks : ch.chunks = []) (hlooping : ch.looping = true) :
    ((ch.requeueLoop kmalloc).1 = false ∧ (ch.requeueLoop kmalloc).2 = ch ∧ ∀ k,
      ch.upcoming k = none) ∨
      ((ch.requeueLoop kmalloc).1 = true ∧ (ch.requeueLoop kmalloc).2.Good ∧
        (ch.requeueLoop kmalloc).2.chunks ≠ [] ∧
        (∀ c ∈ (ch.requeueLoop kmalloc).2.chunks, c.rpos < c.frames.length) ∧
        ∀ k, (ch.requeueLoop kmalloc).2.upcoming k = ch.upcoming k) := by
  have hqueue : ch.queue = [] := by rw [queue, hchunks, List.flatMap_nil]
  unfold requeueLoop
  cases hframes : ch.loopFrames with
  | none =>
    left
    refine ⟨rfl, rfl, fun k => ?_⟩
    simp [upcoming, hqueue, hframes]
  | some l =>
    obtain ⟨hcount, hlen⟩ := hgood.loop l hframes
    dsimp only
    by_cases hempty : l = []
    · subst hempty
      left
      rw [List.length_nil] at hcount
      rw [if_pos (Or.inr hcount)]
      refine ⟨rfl, rfl, fun k => ?_⟩
      simp [upcoming, hqueue, hframes]
    · right
      have hpos := List.length_pos_iff.mpr hempty
      rw [if_neg (by rw [hlooping, hcount]; simp [hempty])]
      have hzero : ch.queuedFrames = 0 := by rw [hgood.queued, hqueue, List.length_nil]
      obtain ⟨cs, chunkFrames, heq, hcs, hne⟩ := appendLoop_spec hlen hkmalloc ch.preferred ch
        (show 0 + ch.loopFrameCount = l.length by omega) le_rfl ch.preferred_pos (by omega)
      rw [heq]
      rw [List.drop_zero] at hcs
      have hqueue' : ({ ch with chunks := ch.chunks ++ cs
                                queuedFrames := ch.queuedFrames + ch.loopFrameCount, chunkFrames } :
          MixerStream).queue = l := by
        rw [queue]
        dsimp only
        rw [hchunks, List.nil_append, hcs]
      refine ⟨by simpa using hempty, ⟨?_, ?_, hgood.gain, hgood.fadeBase, hgood.loop⟩, ?_,
        ?_, fun k => ?_⟩
      · rw [hqueue']
        dsimp only
        omega
      · rw [hqueue']
        omega
      · dsimp only
        rw [hchunks, List.nil_append]
        rintro rfl
        exact hempty hcs.symm
      · dsimp only
        rw [hchunks, List.nil_append]
        exact hne
      · exact upcoming_requeue hqueue hlooping hframes hqueue' rfl rfl k

/-! ## Mixing -/

/-- The pieces that a stream is cut into while `framesLeft` frames are mixed, in order. -/
def pieces (kmalloc : ℕ → ℕ → Bool) : ℕ → MixerStream → ℕ → List (List AudioFrame)
  | 0, _, _ => []
  | fuel + 1, ch, framesLeft =>
    if framesLeft = 0 then []
    else match ch.chunks with
      | [] =>
        if ch.looping then pieces kmalloc fuel (ch.requeueLoop (kmalloc fuel)).2 framesLeft else []
      | ck :: rest =>
        if ck.frames.length ≤ ck.rpos then pieces kmalloc fuel { ch with chunks := rest } framesLeft
        else
          let take := min (ck.frames.length - ck.rpos) framesLeft
          ck.rest.take take :: pieces kmalloc fuel { ch with
            chunks := { ck with rpos := ck.rpos + take } :: rest
            queuedFrames := if take ≤ ch.queuedFrames then ch.queuedFrames - take else 0 }
            (framesLeft - take)

/-- What frames to come add to sample `j` of a block. -/
def contribution (gain : ℕ) (next : ℕ → Option AudioFrame) (j : ℕ) : ℤ :=
  match next (j / 2) with
  | none => 0
  | some f => weighted gain (if j % 2 = 0 then f.left else f.right)

theorem contribution_of_none {gain : ℕ} {next : ℕ → Option AudioFrame}
    (h : ∀ k, next k = none) (j : ℕ) :
    contribution gain next j = 0 := by
  unfold contribution
  rw [h]

theorem contribution_of_some {gain : ℕ} {next : ℕ → Option AudioFrame}
    {frames : List AudioFrame} {j : ℕ}
    (hj : j / 2 < frames.length) (h : next (j / 2) = frames[j / 2]?) :
    contribution gain next j = weighted gain (samplesOf frames j) := by
  unfold contribution samplesOf
  rw [h, List.getElem?_eq_getElem hj]
  dsimp only
  rw [List.getD_eq_getElem _ _ hj]

def drained (ch : MixerStream) : ℕ :=
  (ch.chunks.filter fun c => decide (c.frames.length ≤ c.rpos)).length

theorem samplesOf_drop (frames : List AudioFrame) (r k : ℕ) :
    samplesOf frames (2 * r + k) = samplesOf (frames.drop r) k := by
  unfold samplesOf
  rw [show (2 * r + k) / 2 = r + k / 2 by omega, show (2 * r + k) % 2 = k % 2 by omega,
    List.getD_eq_getElem?_getD, List.getD_eq_getElem?_getD, List.getElem?_drop]

theorem samplesOf_take (frames : List AudioFrame) {m k : ℕ} (hk : k < 2 * m) :
    samplesOf (frames.take m) k = samplesOf frames k := by
  unfold samplesOf
  rw [List.getD_eq_getElem?_getD, List.getD_eq_getElem?_getD, List.getElem?_take_of_lt (by omega)]

/-- The accumulator is that of before with what the frames to come add from `outIdx` on. -/
def Adds (gain : ℕ) (next : ℕ → Option AudioFrame) (outIdx framesLeft : ℕ) (acc acc' : Accum) :
    Prop :=
  ∀ j, acc' j = if 2 * outIdx ≤ j ∧ j < 2 * (outIdx + framesLeft) then
    acc j + BitVec.ofInt 32 (contribution gain next (j - 2 * outIdx)) else acc j

theorem adds_of_none {gain outIdx framesLeft : ℕ} {next : ℕ → Option AudioFrame}
    (h : ∀ k, next k = none) (acc : Accum) : Adds gain next outIdx framesLeft acc acc := by
  intro j
  rw [contribution_of_none h]
  split_ifs
  · exact (BitVec.add_zero _).symm
  · rfl

theorem Adds.cons {gain outIdx framesLeft m : ℕ} {next next' : ℕ → Option AudioFrame}
    {frames : List AudioFrame}
    {acc acc' acc'' : Accum} (hm : m ≤ framesLeft) (hmlen : m ≤ frames.length) (hgain : gain ≤ 256)
    (hexact : PieceExact gain (samplesOf (frames.take m)) m)
    (hnext : ∀ k < frames.length, next k = frames[k]?) (hshift : ∀ k, next' k = next (k + m))
    (hpiece : acc' = mixPiece gain (samplesOf frames) m (2 * outIdx) acc)
    (hrest : Adds gain next' (outIdx + m) (framesLeft - m) acc' acc'') :
    Adds gain next outIdx framesLeft acc acc'' := by
  have hvalue := (pieceValue_eq_iff hgain (samplesOf (frames.take m)) m).mpr hexact
  intro j
  rw [hrest, hpiece, mixPiece_apply]
  by_cases hin : 2 * outIdx ≤ j ∧ j < 2 * (outIdx + framesLeft)
  · rw [if_pos hin]
    by_cases hfirst : j < 2 * outIdx + 2 * m
    · have hk : j - 2 * outIdx < 2 * m := by omega
      have hsame : pieceValue gain (samplesOf frames) m (j - 2 * outIdx) =
          pieceValue gain (samplesOf (frames.take m)) m (j - 2 * outIdx) := by
        unfold pieceValue
        rw [samplesOf_take frames hk, samplesOf_take frames (by omega)]
      rw [if_neg (by omega), if_pos ⟨hin.1, hfirst⟩, hsame, hvalue _ hk, samplesOf_take frames hk,
        contribution_of_some (by omega) (hnext _ (by omega))]
    · have hlater : contribution gain next' (j - 2 * (outIdx + m)) =
          contribution gain next (j - 2 * outIdx) := by
        unfold contribution
        rw [hshift, show (j - 2 * (outIdx + m)) / 2 + m = (j - 2 * outIdx) / 2 by omega,
          show (j - 2 * (outIdx + m)) % 2 = (j - 2 * outIdx) % 2 by omega]
      rw [if_pos (by omega), if_neg (by omega), hlater]
  · rw [if_neg (by omega), if_neg (by omega), if_neg hin]

def turns (ch : MixerStream) (framesLeft : ℕ) : ℕ :=
  4 * framesLeft + 2 * ch.drained + if ch.chunks.isEmpty then 1 else 0

theorem drained_cons {ck : MixerChunk} {rest : List MixerChunk} (h : ch.chunks = ck :: rest) :
    ch.drained = (if ck.frames.length ≤ ck.rpos then 1 else 0) +
      (rest.filter fun c => decide (c.frames.length ≤ c.rpos)).length := by
  unfold drained
  rw [h, List.filter_cons]
  simp only [decide_eq_true_eq]
  split_ifs
  · rw [List.length_cons, Nat.add_comm]
  · rw [Nat.zero_add]

theorem drained_eq_zero (h : ∀ c ∈ ch.chunks, c.rpos < c.frames.length) : ch.drained = 0 := by
  unfold drained
  rw [List.length_eq_zero_iff, List.filter_eq_nil_iff]
  intro c hc
  have := h c hc
  simpa using this

theorem mixLoop_spec {kmalloc : ℕ → ℕ → Bool} (hkmalloc : ∀ a b, kmalloc a b = true) {gain : ℕ}
    (hgain : gain ≤ 256) {fuel framesLeft : ℕ} (outIdx : ℕ) (acc : Accum) (hgood : ch.Good)
    (hfuel : ch.turns framesLeft < fuel)
    (hexact : ∀ p ∈ ch.pieces kmalloc fuel framesLeft, PieceExact gain (samplesOf p) p.length) :
    ∃ ch' acc', mixLoop kmalloc gain fuel ch framesLeft outIdx acc = some (ch', acc') ∧ ch'.Good ∧
      (∀ k, ch'.upcoming k = ch.upcoming (k + framesLeft)) ∧
      Adds gain ch.upcoming outIdx framesLeft acc acc' := by
  induction fuel generalizing ch framesLeft outIdx acc with
  | zero => omega
  | succ fuel ih =>
    unfold mixLoop
    rw [pieces] at hexact
    by_cases hdone : framesLeft = 0
    · subst hdone
      refine ⟨ch, acc, by rw [if_pos rfl], hgood, fun _ => rfl, fun j => ?_⟩
      rw [if_neg (by omega)]
    rw [if_neg hdone] at hexact ⊢
    cases hchunks : ch.chunks with
    | nil =>
      rw [hchunks] at hexact
      dsimp only at hexact ⊢
      by_cases hlooping : ch.looping = true
      · rw [if_pos hlooping] at hexact ⊢
        rcases requeueLoop_spec hgood (hkmalloc fuel) hchunks hlooping with
          ⟨hfails, hsame, hnone⟩ | ⟨hqueued, hgood', hchunks', hfull, hsame⟩
        · refine ⟨ch, acc, ?_, hgood, fun k => by rw [hnone, hnone], adds_of_none hnone acc⟩
          rw [hfails, hsame, if_pos (Or.inl rfl)]
        · have hempty : (ch.requeueLoop (kmalloc fuel)).2.chunks.isEmpty = false := by
            simpa [List.isEmpty_iff] using hchunks'
          have hturns : (ch.requeueLoop (kmalloc fuel)).2.turns framesLeft < fuel := by
            unfold turns at hfuel ⊢
            rw [drained_eq_zero hfull, hempty]
            rw [hchunks, List.isEmpty_nil, if_pos rfl] at hfuel
            simp only [Bool.false_eq_true, if_false]
            omega
          rw [if_neg (by rw [hqueued, hempty]; simp)]
          obtain ⟨ch', acc', hrun, hgood'', hnext, hadds⟩ := ih outIdx acc hgood' hturns hexact
          refine ⟨ch', acc', hrun, hgood'', fun k => (hnext k).trans (hsame _), ?_⟩
          rwa [funext hsame] at hadds
      · have hnone : ∀ k, ch.upcoming k = none := by
          intro k
          simp [upcoming, queue, hchunks, hlooping]
        refine ⟨ch, acc, by rw [if_neg hlooping], hgood, fun k => by rw [hnone, hnone],
          adds_of_none hnone acc⟩
    | cons ck rest =>
      rw [hchunks] at hexact
      dsimp only at hexact ⊢
      by_cases hdrained : ck.frames.length ≤ ck.rpos
      · rw [if_pos hdrained] at hexact ⊢
        have hqueue : ({ ch with chunks := rest } : MixerStream).queue = ch.queue := by
          rw [queue, queue, hchunks, List.flatMap_cons, MixerChunk.rest,
            List.drop_eq_nil_of_le hdrained,
            List.nil_append]
        have hturns : ({ ch with chunks := rest } : MixerStream).turns framesLeft < fuel := by
          unfold turns at hfuel ⊢
          rw [drained_cons hchunks, if_pos hdrained, hchunks] at hfuel
          simp only [List.isEmpty_cons, Bool.false_eq_true, if_false] at hfuel
          unfold drained
          dsimp only
          split_ifs <;> omega
        have hgood' : ({ ch with chunks := rest } : MixerStream).Good :=
          ⟨hgood.queued.trans (congrArg List.length hqueue.symm), by rw [hqueue]; exact hgood.small,
            hgood.gain, hgood.fadeBase, hgood.loop⟩
        obtain ⟨ch', acc', hrun, hgood'', hnext, hadds⟩ := ih outIdx acc hgood' hturns hexact
        have hsame := upcoming_congr hqueue rfl rfl
        refine ⟨ch', acc', hrun, hgood'', fun k => (hnext k).trans (hsame _), ?_⟩
        rwa [funext hsame] at hadds
      · rw [if_neg hdrained] at hexact ⊢
        have htake : (if ck.frames.length - ck.rpos < framesLeft then ck.frames.length - ck.rpos
            else framesLeft) = min (ck.frames.length - ck.rpos) framesLeft := by
          split_ifs <;> omega
        rw [htake]
        generalize hm : min (ck.frames.length - ck.rpos) framesLeft = m at hexact
        have hrest : ck.rest.length = ck.frames.length - ck.rpos := List.length_drop
        have hqueue : ch.queue = ck.rest ++ rest.flatMap MixerChunk.rest := by
          rw [queue, hchunks, List.flatMap_cons]
        have hqlen : m ≤ ch.queue.length := by
          rw [hqueue, List.length_append]
          omega
        have hqueued : (if m ≤ ch.queuedFrames then ch.queuedFrames - m else 0) =
            ch.queue.length - m := by rw [hgood.queued, if_pos hqlen]
        rw [hqueued] at hexact ⊢
        generalize hafter : ({ ch with
          chunks := { ck with rpos := ck.rpos + m } :: rest
          queuedFrames := ch.queue.length - m } : MixerStream) = after at hexact ⊢
        have hqueue' : after.queue = ch.queue.drop m := by
          rw [← hafter, hqueue, List.drop_append_of_le_length (by omega), queue]
          simp only [List.flatMap_cons, MixerChunk.rest, List.drop_drop]
        have hturns : after.turns (framesLeft - m) < fuel := by
          unfold turns at hfuel ⊢
          rw [drained_cons hchunks, if_neg hdrained, hchunks] at hfuel
          rw [drained_cons (congrArg MixerStream.chunks hafter.symm), ← hafter]
          simp only [List.isEmpty_cons, Bool.false_eq_true, if_false] at hfuel ⊢
          split_ifs <;> omega
        have hgood' : after.Good := by
          have hlen := congrArg List.length hqueue'
          rw [List.length_drop] at hlen
          have hsmall := hgood.small
          rw [← hafter] at hlen ⊢
          exact ⟨hlen.symm, by omega, hgood.gain, hgood.fadeBase, hgood.loop⟩
        have hnext := upcoming_of_queue_drop hqueue' hqlen (by rw [← hafter]) (by rw [← hafter])
        have hpiece := hexact _ List.mem_cons_self
        rw [show (ck.rest.take m).length = m by rw [List.length_take]; omega] at hpiece
        obtain ⟨ch', acc', hrun, hgood'', hnext', hadds⟩ := ih (outIdx + m)
          (mixPiece gain (samplesOf ck.rest) m (2 * outIdx) acc) hgood' hturns
          fun p hp => hexact p (List.mem_cons_of_mem _ hp)
        refine ⟨ch', acc', ?_, hgood'', fun k => ?_, Adds.cons (by omega) (by omega) hgain hpiece
          (fun k hk => ?_) hnext rfl hadds⟩
        · rw [← hrun, funext (samplesOf_drop ck.frames ck.rpos)]
          rfl
        · rw [hnext', hnext, show k + (framesLeft - m) + m = k + framesLeft by omega]
        · have hlonger : k < ch.queue.length := by
            rw [hqueue, List.length_append]
            omega
          rw [upcoming, if_pos hlonger, hqueue, List.getElem?_append_left hk]

end MixerStream

end RetroRocket
