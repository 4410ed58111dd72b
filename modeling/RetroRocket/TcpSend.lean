import RetroRocket.TcpFrames

/-!
# The send side of a connection

`snd_una` and `snd_nxt` move through the numbers that were used from `iss` on, and the queue of
retransmissions holds what is not acknowledged. The handshakes do not keep this up: both accept an
acknowledgement of one number more than was sent, and SYN_SENT moves `snd_una` without removing the
SYN from the queue.
-/

namespace RetroRocket

inductive TcpCall where
  | segment (env : TcpEnv) (segment : TcpSegment) (options : TcpOptions)
  | send (env : TcpEnv) (buffer : List Byte)
  | recv (env : TcpEnv) (maxlen : ℕ)
  | close (env : TcpEnv)
  | idle (env : TcpEnv)

namespace TcpConn

variable {s t u : TcpConn} {segment : TcpSegment} {options : TcpOptions} {c : TcpCall}

def call (s : TcpConn) : TcpCall → Option TcpConn
  | .segment env segment options => tcpStateMachine { s with env := env } segment options
  | .send env buffer => (send { s with env := env } buffer).map Prod.snd
  | .recv env maxlen => some (recv { s with env := env } maxlen).2
  | .close env => some (tcpClose { s with env := env })
  | .idle env => tcpIdle { s with env := env }

/-- A connection as `tcp_connect` or an incoming SYN makes it. -/
def Made (s : TcpConn) : Prop :=
  (∃ env, tcpConnect env = s) ∨
    ∃ env queued segment options, tcpStateListen env queued segment options = some s

/-- The order of the send side. No entry of the queue is acknowledged as a whole, and so none is
sent again, or counted against the connection, after it has arrived. -/
structure SendOrder (s : TcpConn) : Prop where
  una : seqLte s.iss s.sndUna
  nxt : seqLte s.sndUna s.sndNxt
  sorted : s.retx.Pairwise fun e e' => seqLte e.seq e'.seq
  waiting : ∀ e ∈ s.retx, seqGt e.endSeq s.sndUna

/-- There are numbers left for `n` more bytes. -/
def Room (s : TcpConn) (n : ℕ) : Prop := offset s.iss s.sndNxt + n < 2 ^ 31

/-- The number of bytes `tcp_idle` sends from a buffer of a given length. -/
def chunkSize (s : TcpConn) (length : ℕ) : ℕ :=
  if (if s.peerMss ≠ 0 then s.peerMss else 1460) < length then
    if s.peerMss ≠ 0 then s.peerMss else 1460
  else length

/-- The numbers do not run out, an acknowledgement of the SYN in SYN_SENT leaves nothing to remove
from the queue, and one in SYN_RECEIVED is for what was sent. -/
def KeepsSendOrder (s : TcpConn) : TcpCall → Prop
  | .segment _ segment _ => s.Room 1 ∧
      match s.state with
      | .synSent => segment.flags.syn → segment.flags.ack → segment.flags.rst = false →
          seqLte segment.ack s.sndNxt ∧ ∀ e ∈ s.retx, seqGt e.endSeq segment.ack
      | .synReceived => segment.flags.ack → segment.flags.fin = false → segment.flags.rst = false →
          segment.ack ≠ s.sndNxt + 1
      | _ => True
  | .send _ buffer => s.Room (s.chunkSize (s.sendBuffer.length + buffer.length))
  | .idle _ => s.Room (s.chunkSize s.sendBuffer.length)
  | .close _ => s.Room 1
  | .recv _ _ => True

/-! ## The invariant -/

end TcpConn

def RetxEntry.span (entry : RetxEntry) : BitVec 32 × BitVec 32 := (entry.seq, entry.endSeq)

namespace TcpConn

variable {s t u : TcpConn} {segment : TcpSegment} {options : TcpOptions} {c : TcpCall}

def spans (s : TcpConn) : List (BitVec 32 × BitVec 32) := s.retx.map RetxEntry.span

def sentOffset (s : TcpConn) (x : BitVec 32) : ℕ := offset s.iss x

structure SendInv (s : TcpConn) : Prop where
  una : s.sentOffset s.sndUna ≤ s.sentOffset s.sndNxt
  nxt : s.sentOffset s.sndNxt < 2 ^ 31
  sorted : s.spans.Pairwise fun p q =>
    s.sentOffset p.1 ≤ s.sentOffset q.1 ∧ s.sentOffset p.2 ≤ s.sentOffset q.2
  within : ∀ p ∈ s.spans, s.sentOffset p.1 ≤ s.sentOffset s.sndNxt ∧
    s.sentOffset s.sndUna < s.sentOffset p.2 ∧ s.sentOffset p.2 ≤ s.sentOffset s.sndNxt
  opening : s.state = .synSent →
    s.sndUna = s.iss ∧ s.sndNxt = seqAt s.iss 2 ∧ ∀ p ∈ s.spans, p = (seqAt s.iss 1, seqAt s.iss 2)

theorem SendInv.sendOrder (h : s.SendInv) : s.SendOrder := by
  have huna := h.una
  have hnxt := h.nxt
  unfold sentOffset at huna hnxt
  have hbelow : ∀ p ∈ s.spans, offset s.iss p.1 < 2 ^ 31 ∧ offset s.iss p.2 < 2 ^ 31 := by
    intro p hp
    obtain ⟨hstart, -, hfinish⟩ := h.within p hp
    unfold sentOffset at hstart hfinish
    omega
  have hmem : ∀ e ∈ s.retx, e.span ∈ s.spans := fun e he => List.mem_map_of_mem he
  refine ⟨?_, ?_, ?_, ?_⟩
  · refine (seqLte_iff_offset (show offset s.iss s.iss < 2 ^ 31 by simp) (by omega)).mpr ?_
    rw [offset_self]
    exact Nat.zero_le _
  · exact (seqLte_iff_offset (by omega) hnxt).mpr huna
  · have hsorted := h.sorted
    unfold spans at hsorted
    rw [List.pairwise_map] at hsorted
    refine hsorted.imp_of_mem fun {e e'} he he' hle => ?_
    exact (seqLte_iff_offset (hbelow _ (hmem e he)).1 (hbelow _ (hmem e' he')).1).mpr hle.1
  · intro e he
    exact (seqGt_iff_offset (hbelow _ (hmem e he)).2 (by omega)).mpr (h.within _ (hmem e he)).2.1

structure SameSpans (s t : TcpConn) : Prop where
  state : t.state = s.state
  iss : t.iss = s.iss
  sndUna : t.sndUna = s.sndUna
  sndNxt : t.sndNxt = s.sndNxt
  spans : t.spans = s.spans

theorem SameSpans.refl (s : TcpConn) : s.SameSpans s := ⟨rfl, rfl, rfl, rfl, rfl⟩

theorem SameSpans.trans (h : s.SameSpans t) (h' : t.SameSpans u) : s.SameSpans u where
  state := h'.state.trans h.state
  iss := h'.iss.trans h.iss
  sndUna := h'.sndUna.trans h.sndUna
  sndNxt := h'.sndNxt.trans h.sndNxt
  spans := h'.spans.trans h.spans

theorem SameSend.sameSpans (h : s.SameSend t) : s.SameSpans t :=
  ⟨h.state, h.iss, h.sndUna, h.sndNxt, congrArg (List.map RetxEntry.span) h.retx⟩

theorem SendInv.same (h : s.SendInv) (ht : s.SameSpans t) : t.SendInv := by
  obtain ⟨hstate, hiss, huna, hnxt, hspans⟩ := ht
  obtain ⟨h1, h2, h3, h4, h5⟩ := h
  unfold sentOffset at *
  refine ⟨?_, ?_, ?_, ?_, ?_⟩
  · simpa only [sentOffset, hiss, huna, hnxt] using h1
  · simpa only [sentOffset, hiss, hnxt] using h2
  · simpa only [sentOffset, hiss, hspans] using h3
  · simpa only [sentOffset, hiss, huna, hnxt, hspans] using h4
  · simpa only [hstate, hiss, huna, hnxt, hspans] using h5

theorem Room.same {n : ℕ} (h : s.Room n) (hiss : t.iss = s.iss) (hnxt : t.sndNxt = s.sndNxt) :
    t.Room n := by
  unfold Room at *
  rw [hiss, hnxt]
  exact h

theorem SendInv.free (h : s.SendInv) : (tcpFree s).SendInv := by
  refine ⟨h.una, h.nxt, List.Pairwise.nil, by simp [spans, tcpFree], fun hstate => ?_⟩
  obtain ⟨huna, hnxt, -⟩ := h.opening hstate
  exact ⟨huna, hnxt, by simp [spans, tcpFree]⟩

theorem SendInv.setState (h : s.SendInv) {state : TcpState} (hstate : state ≠ .synSent) :
    (tcpSetState s state).SendInv :=
  ⟨h.una, h.nxt, h.sorted, h.within, fun h => absurd h hstate⟩

theorem SendInv.setConnMslTime (h : s.SendInv) : (tcpSetConnMslTime s).SendInv := by
  apply h.same
  constructor <;> simp only [tcpSetConnMslTime, spans]

/-! ## Acknowledgements -/

theorem not_of_mem_dropWhile {α : Type*} {p : α → Bool} {l : List α}
    (h : l.Pairwise fun a b => p b = true → p a = true) {x : α} (hx : x ∈ l.dropWhile p) :
    p x = false := by
  induction l with
  | nil => cases hx
  | cons a l ih =>
    rw [List.pairwise_cons] at h
    rw [List.dropWhile_cons] at hx
    split at hx
    · exact ih h.2 hx
    · next hp =>
      rcases List.mem_cons.mp hx with rfl | hx
      · exact Bool.eq_false_iff.mpr hp
      · exact Bool.eq_false_iff.mpr fun hpx => hp (h.1 x hx hpx)

theorem SendInv.acknowledge (h : s.SendInv) (hstate : s.state ≠ .synSent) {ack : BitVec 32}
    (hack : s.sentOffset ack ≤ s.sentOffset s.sndNxt) : (tcpRetxAcknowledge s ack).SendInv := by
  have hnxt := h.nxt
  have huna := h.una
  unfold tcpRetxAcknowledge
  split
  · next hgt =>
    have hlt : s.sentOffset s.sndUna < s.sentOffset ack := by
      rw [seqGt_iff_offset (show s.sentOffset ack < 2 ^ 31 by omega)
        (show s.sentOffset s.sndUna < 2 ^ 31 by omega)] at hgt
      exact hgt
    have hsub : ((s.retx.dropWhile fun entry => seqGte ack entry.endSeq).map RetxEntry.span).Sublist
        s.spans := (List.dropWhile_sublist _).map _
    refine ⟨hack, hnxt, h.sorted.sublist hsub, fun p hp => ?_, fun h => absurd h hstate⟩
    obtain ⟨hstart, -, hfinish⟩ := h.within p (hsub.subset hp)
    refine ⟨hstart, ?_, hfinish⟩
    obtain ⟨e, he, rfl⟩ := List.mem_map.mp hp
    have hcover : ∀ e ∈ s.retx,
        (decide (seqGte ack e.endSeq) = true ↔ s.sentOffset e.endSeq ≤ s.sentOffset ack) := by
      intro e he
      have hend := (h.within e.span (List.mem_map_of_mem he)).2.2
      change s.sentOffset e.endSeq ≤ _ at hend
      rw [decide_eq_true_iff]
      exact seqGte_iff_offset (show s.sentOffset ack < 2 ^ 31 by omega)
        (show s.sentOffset e.endSeq < 2 ^ 31 by omega)
    have hordered : s.retx.Pairwise fun e e' =>
        decide (seqGte ack e'.endSeq) = true → decide (seqGte ack e.endSeq) = true := by
      have hsorted := h.sorted
      unfold spans at hsorted
      rw [List.pairwise_map] at hsorted
      refine hsorted.imp_of_mem fun {e e'} he he' hle => ?_
      rw [hcover e he, hcover e' he']
      exact hle.2.trans
    have hnot := not_of_mem_dropWhile hordered he
    have hmem := (List.dropWhile_sublist _).subset he
    exact Nat.lt_of_not_le fun hle => Bool.eq_false_iff.mp hnot ((hcover e hmem).mpr hle)
  · exact h

theorem tcpRetxResendHead_sameSpans (s : TcpConn) : s.SameSpans (tcpRetxResendHead s) := by
  unfold tcpRetxResendHead
  split
  · exact SameSpans.refl s
  · next entry rest hretx =>
    refine ⟨rfl, rfl, rfl, rfl, ?_⟩
    unfold spans
    rw [hretx]
    rfl

theorem tcpDuplicateAck_sameSpans (s : TcpConn) (segment : TcpSegment) :
    s.SameSpans (tcpDuplicateAck s segment) := by
  unfold tcpDuplicateAck
  dsimp only
  split
  · exact SameSpans.refl s
  · split
    · exact SameSpans.refl s
    · split
      · exact SameSpans.refl s
      · split
        · exact SameSpans.refl s
        · split
          · exact ⟨rfl, rfl, rfl, rfl, rfl⟩
          · generalize (if s.dupAckCount < 255 then s.dupAckCount + 1 else s.dupAckCount) = n
            split
            · refine SameSpans.trans ?_ (tcpRetxResendHead_sameSpans { s with dupAckCount := n })
              exact ⟨rfl, rfl, rfl, rfl, rfl⟩
            · exact ⟨rfl, rfl, rfl, rfl, rfl⟩

theorem SendInv.processAck (h : s.SendInv) (hstate : s.state ≠ .synSent) (segment : TcpSegment) :
    (tcpProcessAck s segment).SendInv := by
  unfold tcpProcessAck
  split
  · exact h
  · split
    · next hack => exact h.acknowledge hstate (offset_between hack.1 hack.2 h.una h.nxt).2
    · exact h.same (tcpDuplicateAck_sameSpans s segment)

/-! ## Segments that go out -/

def flagCount (flags : TcpFlags) : ℕ := if flags.syn ∨ flags.fin then 1 else 0

theorem ofNat_flagCount (flags : TcpFlags) :
    BitVec.ofNat 32 (flagCount flags) = if flags.syn ∨ flags.fin then 1 else 0 := by
  unfold flagCount
  split <;> rfl

theorem tcpSegmentEndSeq_eq {flags : TcpFlags} (hflags : ¬ (flags.syn ∧ flags.fin))
    (seq : BitVec 32)
    (count : ℕ) : tcpSegmentEndSeq seq flags count = seq + BitVec.ofNat 32
    (count + flagCount flags) := by
  unfold tcpSegmentEndSeq
  rw [BitVec.ofNat_add, ofNat_flagCount]
  cases hsyn : flags.syn <;> cases hfin : flags.fin <;> simp_all [BitVec.add_assoc]

theorem tcpRetxEnqueue_spans (s : TcpConn) (seq : BitVec 32) {segment : TcpSegment}
    (hflags : ¬ (segment.flags.syn ∧ segment.flags.fin)) (count : ℕ) :
    s.SameSpans { tcpRetxEnqueue s seq segment count with retx := s.retx } ∧
    ((tcpRetxEnqueue s seq segment count).spans = s.spans ∨ 0 < count + flagCount segment.flags ∧
      (tcpRetxEnqueue s seq segment count).spans =
        s.spans ++ [(seq, seq + BitVec.ofNat 32 (count + flagCount segment.flags))]) := by
  unfold tcpRetxEnqueue kmalloc
  dsimp only
  split
  · exact ⟨SameSpans.refl s, Or.inl rfl⟩
  · next htakes =>
    have hpos : 0 < count + flagCount segment.flags := by
      unfold flagCount
      split
      · omega
      · next hnone =>
        refine Nat.add_pos_left (Nat.pos_of_ne_zero fun hzero => htakes ⟨hzero, ?_⟩) _
        simpa using hnone
    split
    · exact ⟨⟨rfl, rfl, rfl, rfl, rfl⟩, Or.inl rfl⟩
    · split
      · exact ⟨⟨rfl, rfl, rfl, rfl, rfl⟩, Or.inl rfl⟩
      · refine ⟨⟨rfl, rfl, rfl, rfl, rfl⟩, Or.inr ⟨hpos, ?_⟩⟩
        unfold spans
        rw [List.map_append, tcpSegmentEndSeq_eq hflags]
        rfl

structure Emits (s t : TcpConn) (seq : BitVec 32) (count : ℕ) : Prop where
  state : t.state = s.state
  iss : t.iss = s.iss
  sndUna : t.sndUna = s.sndUna
  sndNxt : t.sndNxt = s.sndNxt + BitVec.ofNat 32 count
  spans : t.spans = s.spans ∨ 0 < count ∧ t.spans = s.spans ++ [(seq, seq + BitVec.ofNat 32 count)]

theorem tcpSendSegment_emits (s : TcpConn) (seq : BitVec 32) {flags : TcpFlags}
    (hflags : ¬ (flags.syn ∧ flags.fin)) (data : List Byte) :
    s.Emits (tcpSendSegment s seq flags data) seq (data.length + flagCount flags) := by
  obtain ⟨hsame, hspans⟩ := tcpRetxEnqueue_spans s seq (show ¬ (({
    seq := seq
    ack := if flags.ack then s.rcvNxt else 0
    off := 5 + (if flags.syn then tcpBuildOptions s.rcvWscale else []).length / 4
    flags := flags
    windowSize := tcpRecvWindow s
    body := (if flags.syn then tcpBuildOptions s.rcvWscale else []) ++ data } :
      TcpSegment).flags.syn ∧ flags.fin) from hflags) data.length
  refine ⟨hsame.state, hsame.iss, hsame.sndUna, ?_, hspans⟩
  rw [BitVec.ofNat_add, ofNat_flagCount, ← BitVec.add_assoc, ← hsame.sndNxt]
  rfl

theorem SendInv.emit {count : ℕ} (h : s.SendInv) (hstate : s.state ≠ .synSent)
    (ht : s.Emits t s.sndNxt count) (hroom : s.Room count) : t.SendInv := by
  have huna := h.una
  have hnxt : t.sentOffset t.sndNxt = s.sentOffset s.sndNxt + count := by
    unfold Room at hroom
    unfold sentOffset
    rw [ht.iss, ht.sndNxt, offset_add (by omega)]
  have hoff : ∀ x, t.sentOffset x = s.sentOffset x := fun x => by
    unfold sentOffset
    rw [ht.iss]
  have hold : ∀ p ∈ s.spans, t.sentOffset p.1 ≤ t.sentOffset t.sndNxt ∧
      t.sentOffset t.sndUna < t.sentOffset p.2 ∧ t.sentOffset p.2 ≤ t.sentOffset t.sndNxt := by
    intro p hp
    obtain ⟨hstart, hwait, hfinish⟩ := h.within p hp
    rw [hnxt, hoff, hoff, hoff, ht.sndUna]
    omega
  have hnew : t.sentOffset (s.sndNxt + BitVec.ofNat 32 count) = t.sentOffset t.sndNxt := by
    rw [ht.sndNxt]
  refine ⟨?_, ?_, ?_, ?_, fun h => absurd (ht.state.symm.trans h) hstate⟩
  · rw [hnxt, hoff, ht.sndUna]
    omega
  · rw [hnxt]
    exact hroom
  · simp only [hoff]
    rcases ht.spans with hspans | ⟨-, hspans⟩
    · rw [hspans]
      exact h.sorted
    · rw [hspans, List.pairwise_append]
      refine ⟨h.sorted, List.pairwise_singleton _ _, fun p hp q hq => ?_⟩
      obtain rfl := List.mem_singleton.mp hq
      refine ⟨(h.within p hp).1, ?_⟩
      have hfinish := (hold p hp).2.2
      rw [← hnew, hoff, hoff] at hfinish
      exact hfinish
  · rcases ht.spans with hspans | ⟨hpos, hspans⟩
    · rw [hspans]
      exact hold
    · rw [hspans]
      intro p hp
      rcases List.mem_append.mp hp with hp | hp
      · exact hold p hp
      · obtain rfl := List.mem_singleton.mp hp
        dsimp only
        rw [hnew, hnxt, hoff, hoff, ht.sndUna]
        omega

theorem SendInv.sendAck (h : s.SendInv) : (tcpSendAck s).SendInv :=
  h.same (tcpSendAck_sameSend s).sameSpans

theorem SendInv.sendFin (h : s.SendInv) (hstate : s.state ≠ .synSent) (hroom : s.Room 1) :
    (tcpSendSegment s s.sndNxt finAckFlags []).SendInv :=
  h.emit hstate (tcpSendSegment_emits s s.sndNxt (by decide) []) hroom

theorem SendInv.sendFinAck (h : s.SendInv) (hstate : s.state ≠ .synSent) (hroom : s.Room 1) :
    (tcpSendFinAck s).SendInv := by
  unfold tcpSendFinAck tcpSendAckFlags
  split
  · exact h
  · have hmarked : SendInv { s with rcvLst := s.rcvNxt } := h.same ⟨rfl, rfl, rfl, rfl, rfl⟩
    exact hmarked.sendFin hstate hroom

theorem SendInv.sendReset (h : s.SendInv) (ack : BitVec 32) :
    (tcpSendSegment s ack rstFlags []).SendInv :=
  h.same (tcpSendSegment_sameSend s ack rstFlags rfl rfl).sameSpans

/-! ## Segments that come in -/

theorem SendInv.handleDataIn (h : s.SendInv) (hrun : tcpHandleDataIn s segment = some t) :
    t.SendInv ∧ t.state = s.state ∧ t.iss = s.iss ∧ t.sndNxt = s.sndNxt := by
  rcases tcpHandleDataIn_sameSend hrun with hsame | ⟨-, rfl⟩
  · exact ⟨h.same hsame.sameSpans, hsame.state, hsame.iss, hsame.sndNxt⟩
  · exact ⟨h.free, rfl, rfl, rfl⟩

theorem SendInv.receiveFin (h : s.SendInv) (segment : TcpSegment) :
    (tcpStateReceiveFin s segment).SendInv := by
  have hcounted :
      (if segment.seq = s.rcvNxt then { s with rcvNxt := s.rcvNxt + 1 } else s).SendInv := by
    split
    · exact h.same ⟨rfl, rfl, rfl, rfl, rfl⟩
    · exact h
  have hack := hcounted.sendAck
  unfold tcpStateReceiveFin
  dsimp only
  generalize tcpSendAck (if segment.seq = s.rcvNxt then
    { s with rcvNxt := s.rcvNxt + 1 } else s) = u
    at hack ⊢
  split
  · exact hack.setState (by decide)
  · exact hack.setState (by decide)
  · split
    · exact (hack.setState (by decide)).setConnMslTime
    · exact hack.setState (by decide)
  · exact (hack.setState (by decide)).setConnMslTime
  · exact hack.setConnMslTime
  · exact hack

theorem sendInv_opening (huna : s.sndUna = s.iss) (hnxt : s.sndNxt = seqAt s.iss 2)
    (hspans : ∀ p ∈ s.spans, p = (seqAt s.iss 1, seqAt s.iss 2)) : s.SendInv := by
  have hone : s.sentOffset (seqAt s.iss 1) = 1 := offset_seqAt (by decide)
  have htwo : s.sentOffset (seqAt s.iss 2) = 2 := offset_seqAt (by decide)
  have hzero : s.sentOffset s.iss = 0 := offset_self s.iss
  refine ⟨?_, ?_, ?_, ?_, fun _ => ⟨huna, hnxt, hspans⟩⟩
  · rw [huna, hzero]
    exact Nat.zero_le _
  · rw [hnxt, htwo]
    decide
  · refine List.pairwise_iff_forall_sublist.mpr fun {p q} hpq => ?_
    rw [hspans p (hpq.subset (by simp)), hspans q (hpq.subset (by simp))]
    exact ⟨le_rfl, le_rfl⟩
  · intro p hp
    rw [hspans p hp, huna, hnxt, hone, htwo, hzero]
    decide

theorem SendInv.synSent (h : s.SendInv) (hstate : s.state = .synSent)
    (hkeeps : segment.flags.syn → segment.flags.ack → segment.flags.rst = false →
      seqLte segment.ack s.sndNxt ∧ ∀ e ∈ s.retx, seqGt e.endSeq segment.ack) :
    (tcpStateSynSent s segment options).SendInv := by
  obtain ⟨huna, hnxt, hspans⟩ := h.opening hstate
  unfold tcpStateSynSent
  split
  · split
    · exact h
    · exact h.sendReset segment.ack
  · next hgood =>
    split
    · exact h
    · next hrst =>
      split
      · next hsyn =>
        dsimp only
        split
        · next hack =>
          obtain ⟨hle, hwait⟩ := hkeeps hsyn hack (Bool.eq_false_iff.mpr hrst)
          have hgt : seqGt segment.ack s.iss := by
            by_contra hnot
            exact hgood ⟨hack, fun h => hnot h.1⟩
          have hbetween := offset_between hgt hle (by simp) h.nxt
          refine SendInv.sendAck ⟨hbetween.2, h.nxt, h.sorted, fun p hp => ?_, fun h => by cases h⟩
          obtain ⟨hstart, -, hfinish⟩ := h.within p hp
          obtain ⟨e, he, rfl⟩ := List.mem_map.mp hp
          have hlimit := h.nxt
          refine ⟨hstart, ?_, hfinish⟩
          exact (seqGt_iff_offset (show s.sentOffset e.endSeq < 2 ^ 31 from hfinish.trans_lt hlimit)
            (hbetween.2.trans_lt hlimit)).mp (hwait e he)
        · have hback : s.sndNxt - 1 = seqAt s.iss 1 := by
            rw [hnxt]
            unfold seqAt
            bv_omega
          have hagain : seqAt s.iss 1 + BitVec.ofNat 32 1 = seqAt s.iss 2 := seqAt_add s.iss 1 1
          -- the SYN goes out once more, with the number it had before
          have hsend := tcpSendSegment_emits { tcpSetState { s with
              peerMss := if options.mss ≠ 0 then options.mss else s.peerMss
              windowScaling :=
                (options.windowScalePresent && decide (0 < s.rcvWscale)) || s.windowScaling
              irs := segment.seq
              rcvNxt := segment.seq + 1 } .synReceived with sndNxt := s.sndNxt - 1 } (s.sndNxt - 1)
            (show ¬ (synAckFlags.syn ∧ synAckFlags.fin) by decide) []
          refine sendInv_opening (hsend.sndUna.trans (huna.trans hsend.iss.symm)) ?_ ?_
          · rw [hsend.iss]
            refine hsend.sndNxt.trans ?_
            change s.sndNxt - 1 + BitVec.ofNat 32 1 = seqAt s.iss 2
            rw [hback, hagain]
          · rw [hsend.iss]
            intro p hp
            rcases hsend.spans with hold | ⟨-, hnew⟩
            · rw [hold] at hp
              exact hspans p hp
            · rw [hnew] at hp
              rcases List.mem_append.mp hp with hp | hp
              · exact hspans p hp
              · obtain rfl := List.mem_singleton.mp hp
                change (s.sndNxt - 1, s.sndNxt - 1 + BitVec.ofNat 32 1) = _
                rw [hback, hagain]
                rfl
      · exact h

theorem SendInv.synReceived (h : s.SendInv) (hstate : s.state = .synReceived) (hroom : s.Room 1)
    (hkeeps : segment.flags.ack → segment.flags.fin = false → segment.flags.rst = false →
      segment.ack ≠ s.sndNxt + 1) (hrun : tcpStateSynReceived s segment = some t) : t.SendInv := by
  unfold tcpStateSynReceived at hrun
  split at hrun
  · obtain rfl := Option.some.inj hrun
    exact h.receiveFin segment
  · next hfin =>
    split at hrun
    · obtain rfl := Option.some.inj hrun
      exact h.free
    · next hrst =>
      split at hrun
      · next hack =>
        split at hrun
        · next hgood =>
          have hnext : s.sentOffset (s.sndNxt + 1) = s.sentOffset s.sndNxt + 1 :=
            offset_add (n := 1) (by unfold Room at hroom; omega)
          have hlimit : s.sentOffset (s.sndNxt + 1) < 2 ^ 31 := hnext.symm ▸ hroom
          have hbetween := offset_between hgood.1 hgood.2
            (show offset s.iss s.iss ≤ _ by simp) hlimit
          have hne : s.sentOffset segment.ack ≠ s.sentOffset (s.sndNxt + 1) := fun heq => by
            refine hkeeps hack (Bool.eq_false_iff.mpr hfin) (Bool.eq_false_iff.mpr hrst) ?_
            rw [← seqAt_offset s.iss segment.ack, ← seqAt_offset s.iss (s.sndNxt + 1)]
            exact congrArg (seqAt s.iss) heq
          have hle : s.sentOffset segment.ack ≤ s.sentOffset s.sndNxt := by
            have hle := hbetween.2
            change s.sentOffset segment.ack ≤ s.sentOffset (s.sndNxt + 1) at hle
            omega
          have hopen := (h.acknowledge (by rw [hstate]; decide) hle).setState
            (show TcpState.established ≠ .synSent by decide)
          dsimp only at hrun
          split at hrun
          · exact (hopen.handleDataIn hrun).1
          · obtain rfl := Option.some.inj hrun
            exact hopen.sendAck
        · obtain rfl := Option.some.inj hrun
          exact h.sendReset segment.ack
      · obtain rfl := Option.some.inj hrun
        exact h

theorem SendInv.established (h : s.SendInv) (hstate : s.state ≠ .synSent)
    (hrun : tcpStateEstablished s segment = some t) : t.SendInv := by
  have hack := h.processAck hstate segment
  unfold tcpStateEstablished at hrun
  dsimp only at hrun
  have hfinish : ∀ u : TcpConn, u.SendInv →
      (if segment.flags.fin then ifAlive u fun u =>
        some (tcpStateReceiveFin u segment) else some u) =
        some t → t.SendInv := by
    intro u hu hrun
    split at hrun
    · unfold ifAlive at hrun
      split at hrun
      · obtain rfl := Option.some.inj hrun
        exact hu.receiveFin segment
      · cases hrun
    · obtain rfl := Option.some.inj hrun
      exact hu
  split at hrun
  · obtain ⟨u, hdata, hrun⟩ := Option.bind_eq_some_iff.mp hrun
    exact hfinish u (hack.handleDataIn hdata).1 hrun
  · exact hfinish _ hack hrun

theorem SendInv.finWait1 (h : s.SendInv) (hstate : s.state = .finWait1) (hroom : s.Room 1)
    (hrun : tcpStateFinWait1 s segment = some t) : t.SendInv := by
  have honly := tcpProcessAck_onlyAck s segment
  have hackState := honly.state.trans hstate
  have hack := h.processAck (by rw [hstate]; decide) segment
  unfold tcpStateFinWait1 at hrun
  dsimp only at hrun
  obtain ⟨u, hdata, hrun⟩ := Option.bind_eq_some_iff.mp hrun
  have hu : u.SendInv ∧ u.state ≠ .synSent ∧ u.Room 1 := by
    split at hdata
    · obtain ⟨hinv, hustate, huiss, hunxt⟩ :=
        (hack.setState (show TcpState.finWait2 ≠ .synSent by decide)).handleDataIn hdata
      refine ⟨hinv, fun h => ?_, hroom.same (huiss.trans honly.iss) (hunxt.trans honly.sndNxt)⟩
      cases hustate.symm.trans h
    · obtain ⟨hinv, hustate, huiss, hunxt⟩ := hack.handleDataIn hdata
      refine ⟨hinv, fun h => ?_, hroom.same (huiss.trans honly.iss) (hunxt.trans honly.sndNxt)⟩
      cases (hustate.trans hackState).symm.trans h
  obtain ⟨hinv, hustate, huroom⟩ := hu
  split at hrun
  · unfold ifAlive at hrun
    split at hrun
    · have hstepped : SendInv { u with
          rcvNxt := BitVec.ofNat 32 (segment.seq.toNat + segment.length) -
            BitVec.ofNat 32 segment.headerSize + 1 } := hinv.same (by constructor <;> rfl)
      have hsent := hstepped.sendFinAck hustate huroom
      dsimp only at hrun
      split at hrun
      · obtain rfl := Option.some.inj hrun
        exact hsent.setState (by decide)
      · obtain rfl := Option.some.inj hrun
        exact hsent.setState (by decide)
    · cases hrun
  · obtain rfl := Option.some.inj hrun
    exact hinv

theorem SendInv.stateMachine (h : s.SendInv) (hroom : s.Room 1)
    (hsyn : s.state = .synSent → segment.flags.syn → segment.flags.ack → segment.flags.rst = false →
      seqLte segment.ack s.sndNxt ∧ ∀ e ∈ s.retx, seqGt e.endSeq segment.ack)
    (hack : s.state = .synReceived → segment.flags.ack → segment.flags.fin = false →
      segment.flags.rst = false → segment.ack ≠ s.sndNxt + 1)
    (hrun : tcpStateMachine s segment options = some t) : t.SendInv := by
  have honly := tcpProcessAck_onlyAck s segment
  unfold tcpStateMachine at hrun
  cases hstate : s.state with
  | listen =>
    rw [hstate] at hrun
    obtain rfl := Option.some.inj hrun
    exact h
  | synSent =>
    rw [hstate] at hrun
    obtain rfl := Option.some.inj hrun
    exact h.synSent hstate (hsyn hstate)
  | synReceived =>
    rw [hstate] at hrun
    exact h.synReceived hstate hroom (hack hstate) hrun
  | established =>
    rw [hstate] at hrun
    exact h.established (by rw [hstate]; decide) hrun
  | finWait1 =>
    rw [hstate] at hrun
    exact h.finWait1 hstate hroom hrun
  | finWait2 =>
    rw [hstate] at hrun
    exact ((h.processAck (by rw [hstate]; decide) segment).handleDataIn hrun).1
  | closeWait =>
    rw [hstate] at hrun
    obtain rfl := Option.some.inj hrun
    have hsent := (h.processAck (by rw [hstate]; decide) segment).sendFin
      (by rw [honly.state, hstate]; decide) (hroom.same honly.iss honly.sndNxt)
    exact hsent.setState (by decide)
  | closing =>
    rw [hstate] at hrun
    obtain rfl := Option.some.inj hrun
    have hacked := h.processAck (by rw [hstate]; decide) segment
    unfold tcpStateClosing
    dsimp only
    split
    · exact (hacked.setState (by decide)).setConnMslTime
    · exact hacked
  | lastAck =>
    rw [hstate] at hrun
    obtain rfl := Option.some.inj hrun
    have hacked := h.processAck (by rw [hstate]; decide) segment
    unfold tcpStateLastAck
    dsimp only
    split
    · exact hacked.free
    · exact hacked
  | timeWait =>
    rw [hstate] at hrun
    obtain rfl := Option.some.inj hrun
    unfold tcpStateTimeWait
    split
    · exact h.receiveFin segment
    · exact h

/-! ## The calls of the user -/

theorem SendInv.close (h : s.SendInv) (hroom : s.Room 1) : (tcpClose s).SendInv := by
  unfold tcpClose
  split
  · exact h.free
  · exact h.free
  · next hstate => exact (h.sendFin (by rw [hstate]; decide) hroom).setState (by decide)
  · next hstate => exact (h.sendFin (by rw [hstate]; decide) hroom).setState (by decide)
  · next hstate => exact (h.sendFin (by rw [hstate]; decide) hroom).setState (by decide)
  · exact h

theorem recv_sameSpans (s : TcpConn) (maxlen : ℕ) : s.SameSpans (recv s maxlen).2 := by
  unfold recv kmalloc
  dsimp only
  split
  · exact SameSpans.refl s
  · generalize (if maxlen < s.recvBuffer.length then maxlen else s.recvBuffer.length) = n
    split
    · exact ⟨rfl, rfl, rfl, rfl, rfl⟩
    · split <;> exact ⟨rfl, rfl, rfl, rfl, rfl⟩

theorem SendInv.write (h : s.SendInv) {data : List Byte} (hroom : s.Room data.length)
    (hrun : tcpWrite s data = some t) : t.SendInv := by
  unfold tcpWrite at hrun
  split at hrun
  · obtain rfl := Option.some.inj hrun
    exact h
  · split at hrun
    · obtain rfl := Option.some.inj hrun
      exact h
    · next hstate =>
      split at hrun
      · cases hrun
      · obtain rfl := Option.some.inj hrun
        refine h.emit (fun h => hstate fun h' => ?_)
          (tcpSendSegment_emits s s.sndNxt (by decide) data)
          hroom
        cases h.symm.trans h'

theorem length_chunk (s : TcpConn) :
    (s.sendBuffer.take (s.chunkSize s.sendBuffer.length)).length = s.chunkSize
      s.sendBuffer.length := by
  rw [List.length_take]
  unfold chunkSize
  generalize (if s.peerMss ≠ 0 then s.peerMss else 1460) = n
  split <;> omega

theorem tcpDrainSendBuffer_eq (hrun : tcpDrainSendBuffer s = some t) :
    (s.sendBuffer = [] ∧ t = s) ∨ ∃ u,
      tcpWrite s (s.sendBuffer.take (s.chunkSize s.sendBuffer.length)) = some u ∧
      t = { u with sendBuffer := t.sendBuffer, env := t.env } ∧
      t.sendBuffer = if u.sendBuffer.length ≤ s.chunkSize s.sendBuffer.length ∨ u.env.memory 0 ≠ 0
        then u.sendBuffer.drop (s.chunkSize s.sendBuffer.length) else u.sendBuffer := by
  unfold tcpDrainSendBuffer at hrun
  split at hrun
  · next hempty =>
    obtain rfl := Option.some.inj hrun
    exact Or.inl ⟨hempty, rfl⟩
  · dsimp only at hrun
    have hchunk : (if (if s.peerMss ≠ 0 then s.peerMss else 1460) < s.sendBuffer.length then
        (if s.peerMss ≠ 0 then s.peerMss else 1460) else s.sendBuffer.length) =
          s.chunkSize s.sendBuffer.length := rfl
    rw [hchunk] at hrun
    obtain ⟨u, hwrite, hrun⟩ := Option.bind_eq_some_iff.mp hrun
    refine Or.inr ⟨u, hwrite, ?_⟩
    dsimp only [kmalloc] at hrun
    split at hrun
    · next hall =>
      obtain rfl := Option.some.inj hrun
      exact ⟨rfl, by rw [if_pos (Or.inl hall), List.drop_of_length_le hall]⟩
    · next hmore =>
      by_cases hmem : u.env.memory 0 ≠ 0
      · obtain rfl := Option.some.inj ((if_pos hmem).symm.trans hrun)
        exact ⟨rfl, by rw [if_pos (Or.inr hmem)]⟩
      · obtain rfl := Option.some.inj ((if_neg hmem).symm.trans hrun)
        exact ⟨rfl, by rw [if_neg (not_or.mpr ⟨hmore, hmem⟩)]⟩

theorem SendInv.drain (h : s.SendInv) (hroom : s.Room (s.chunkSize s.sendBuffer.length))
    (hrun : tcpDrainSendBuffer s = some t) : t.SendInv := by
  rcases tcpDrainSendBuffer_eq hrun with ⟨-, rfl⟩ | ⟨u, hwrite, heq, -⟩
  · exact h
  · have hu : u.SendInv := by
      refine h.write ?_ hwrite
      rw [length_chunk s]
      exact hroom
    rw [heq]
    exact hu.same ⟨rfl, rfl, rfl, rfl, rfl⟩

theorem tcpRetxTimer_cases (s : TcpConn) :
    tcpRetxTimer s = tcpFree s ∨ tcpRetxTimer s = tcpRetxResendHead s ∨ tcpRetxTimer s = s := by
  unfold tcpRetxTimer
  split
  · exact Or.inr (Or.inr rfl)
  · split
    · split
      · exact Or.inl rfl
      · exact Or.inr (Or.inl rfl)
    · exact Or.inr (Or.inr rfl)

theorem SendInv.idle (h : s.SendInv) (hroom : s.Room (s.chunkSize s.sendBuffer.length))
    (hrun : tcpIdle s = some t) : t.SendInv := by
  have htimer : (tcpRetxTimer s).SendInv ∧
      (tcpRetxTimer s).Room ((tcpRetxTimer s).chunkSize (tcpRetxTimer s).sendBuffer.length) := by
    rcases tcpRetxTimer_cases s with heq | heq | heq
    · rw [heq]
      exact ⟨h.free, hroom⟩
    · rw [heq]
      refine ⟨h.same (tcpRetxResendHead_sameSpans s), ?_⟩
      rw [tcpRetxResendHead_onlyAck s]
      exact hroom
    · rw [heq]
      exact ⟨h, hroom⟩
  unfold tcpIdle at hrun
  dsimp only at hrun
  split at hrun
  · obtain rfl := Option.some.inj hrun
    exact htimer.1
  · split at hrun
    · exact htimer.1.drain htimer.2 hrun
    · split at hrun
      · obtain rfl := Option.some.inj hrun
        exact htimer.1.free
      · obtain rfl := Option.some.inj hrun
        exact htimer.1

/-- What `send` makes of the connection before it sends. -/
def buffered (s : TcpConn) (buffer : List Byte) : TcpConn :=
  { s.kmalloc.2 with sendBuffer := s.sendBuffer ++ buffer }

theorem send_eq {buffer : List Byte} {ok : Bool} (hrun : RetroRocket.send s buffer = some (ok, t)) :
    (ok = false ∧ t = s.kmalloc.2) ∨ (ok ∧ tcpIdle (s.buffered buffer) = some t) := by
  unfold RetroRocket.send at hrun
  dsimp only at hrun
  split at hrun
  · obtain ⟨rfl, rfl⟩ := Prod.mk.inj (Option.some.inj hrun)
    exact Or.inl ⟨rfl, rfl⟩
  · obtain ⟨u, hidle, hrun⟩ := Option.bind_eq_some_iff.mp hrun
    obtain ⟨rfl, rfl⟩ := Prod.mk.inj (Option.some.inj hrun)
    exact Or.inr ⟨rfl, hidle⟩

theorem SendInv.send (h : s.SendInv) {buffer : List Byte} {ok : Bool}
    (hroom : s.Room (s.chunkSize (s.sendBuffer.length + buffer.length)))
    (hrun : RetroRocket.send s buffer = some (ok, t)) : t.SendInv := by
  rcases send_eq hrun with ⟨-, rfl⟩ | ⟨-, hidle⟩
  · exact h.same ⟨rfl, rfl, rfl, rfl, rfl⟩
  · have hbuffered : (s.buffered buffer).SendInv := h.same ⟨rfl, rfl, rfl, rfl, rfl⟩
    refine hbuffered.idle ?_ hidle
    change s.Room (s.chunkSize (s.sendBuffer ++ buffer).length)
    rw [List.length_append]
    exact hroom

/-! ## Runs -/

theorem Made.sendInv (h : s.Made) : s.SendInv := by
  rcases h with ⟨env, rfl⟩ | ⟨env, queued, segment, options, hlisten⟩
  · have hsend := tcpSendSegment_emits { emptyConn env .synSent with sndNxt := env.isn + 1 }
      (env.isn + 1) (show ¬ (synFlags.syn ∧ synFlags.fin) by decide) []
    have hnext : env.isn + 1 + BitVec.ofNat 32 1 = seqAt env.isn 2 := seqAt_add env.isn 1 1
    refine sendInv_opening (hsend.sndUna.trans hsend.iss.symm) ?_ ?_
    · exact (hsend.sndNxt.trans hnext).trans (congrArg (seqAt · 2) hsend.iss.symm)
    · intro p hp
      change p ∈ (tcpSendSegment _ _ _ _).spans at hp
      rw [show (tcpConnect env).iss = env.isn from hsend.iss]
      rcases hsend.spans with hold | ⟨-, hnew⟩
      · rw [hold] at hp
        cases hp
      · rw [hnew] at hp
        obtain rfl := List.mem_singleton.mp hp
        exact congrArg (Prod.mk _) hnext
  · unfold tcpStateListen at hlisten
    split at hlisten
    · cases hlisten
    · have hchild : ∀ u : TcpConn, u.state = .synReceived → u.iss = env.isn → u.sndUna = env.isn →
          u.sndNxt = env.isn → u.retx = [] → u.SendInv ∧
            (tcpSendSegment u u.sndNxt synAckFlags []).SendInv := by
        intro u hstate hiss huna hnxt hretx
        have hzero : u.sentOffset u.sndNxt = 0 := by
          unfold sentOffset
          rw [hiss, hnxt, offset_self]
        have hnil : u.spans = [] := by
          unfold spans
          rw [hretx]
          rfl
        have hu : u.SendInv := by
          refine ⟨?_, ?_, ?_, ?_, fun h => ?_⟩
          · rw [huna, ← hnxt]
          · rw [hzero]
            decide
          · rw [hnil]
            exact List.Pairwise.nil
          · rw [hnil]
            simp
          · cases hstate.symm.trans h
        refine ⟨hu, hu.emit (fun h => ?_) (tcpSendSegment_emits u u.sndNxt (by decide) []) ?_⟩
        · cases hstate.symm.trans h
        · unfold Room
          rw [show offset u.iss u.sndNxt = 0 from hzero]
          decide
      dsimp only [kmalloc] at hlisten
      split at hlisten
      · split at hlisten
        · obtain rfl := Option.some.inj hlisten
          exact (hchild _ rfl rfl rfl rfl rfl).1
        · obtain rfl := Option.some.inj hlisten
          exact (hchild _ rfl rfl rfl rfl rfl).2
      · obtain rfl := Option.some.inj hlisten
        exact (hchild _ rfl rfl rfl rfl rfl).2

theorem SendInv.call (h : s.SendInv) (hkeeps : s.KeepsSendOrder c) (hcall : s.call c = some t) :
    t.SendInv := by
  cases c with
  | segment env segment options =>
    obtain ⟨hroom, hstate⟩ := hkeeps
    have hwithin : SendInv { s with env := env } := h.same ⟨rfl, rfl, rfl, rfl, rfl⟩
    refine hwithin.stateMachine hroom (fun hsyn => ?_) (fun hsyn => ?_) hcall
    · change s.state = .synSent at hsyn
      rw [hsyn] at hstate
      exact hstate
    · change s.state = .synReceived at hsyn
      rw [hsyn] at hstate
      exact hstate
  | send env buffer =>
    have hwithin : SendInv { s with env := env } := h.same ⟨rfl, rfl, rfl, rfl, rfl⟩
    obtain ⟨⟨ok, u⟩, hsend, rfl⟩ := Option.map_eq_some_iff.mp hcall
    exact hwithin.send hkeeps hsend
  | recv env maxlen =>
    obtain rfl := Option.some.inj hcall
    have hwithin : SendInv { s with env := env } := h.same ⟨rfl, rfl, rfl, rfl, rfl⟩
    exact hwithin.same (recv_sameSpans _ maxlen)
  | close env =>
    obtain rfl := Option.some.inj hcall
    have hwithin : SendInv { s with env := env } := h.same ⟨rfl, rfl, rfl, rfl, rfl⟩
    exact hwithin.close hkeeps
  | idle env =>
    have hwithin : SendInv { s with env := env } := h.same ⟨rfl, rfl, rfl, rfl, rfl⟩
    exact hwithin.idle hkeeps hcall

def synAckSegment (ack : BitVec 32) : TcpSegment := ⟨100, ack, 5, synAckFlags, 65535, []⟩

def synSentStart : TcpConn := tcpConnect (envAt 4096)

def synSentAnswered : TcpConn :=
  Run.next call synSentStart (.segment (envAt 8192) (synAckSegment 2) ⟨0, 0, false⟩)

def synReceivedStart : TcpConn :=
  (tcpStateListen (envAt 4096) false ⟨100, 0, 5, synFlags, 65535, []⟩ ⟨0, 0, false⟩).getD
    synSentStart

def synReceivedAnswered : TcpConn :=
  Run.next call synReceivedStart (.segment (envAt 8192) (dataSegment 0 101 []) ⟨0, 0, false⟩)

end TcpConn

end RetroRocket
