import RetroRocket.TcpSend

/-!
# The sent stream

What `send` takes goes out in chunks, as `tcp_idle` finds time. A chunk is sent before the rest of
the buffer is moved, and if there is no memory for the move it stays where it is, and goes out again
under the next numbers.
-/

namespace RetroRocket

/-- A segment carries the bytes of a stream from a position on, below `n`. -/
structure TcpSegment.SentAt (segment : TcpSegment) (base : BitVec 32)
    (stream : List Byte) (n pos : ℕ) :
    Prop where
  seq : segment.seq = seqAt base pos
  finish : pos + segment.payload.length ≤ n
  payload : segment.payload = (stream.drop pos).take segment.payload.length

theorem TcpSegment.SentAt.mono {segment : TcpSegment} {base : BitVec 32} {stream more : List Byte}
    {m n pos : ℕ} (h : segment.SentAt base stream m pos) (hm : m ≤ stream.length) (hmn : m ≤ n) :
    segment.SentAt base (stream ++ more) n pos := by
  have hfinish := h.finish
  refine ⟨h.seq, by omega, ?_⟩
  rw [List.drop_append_of_le_length (by omega),
    List.take_append_of_le_length (by rw [List.length_drop]; omega)]
  exact h.payload

namespace TcpConn

variable {s t u : TcpConn} {segment : TcpSegment}

/-! ## Calls that send no new data -/

structure Quiet (s t : TcpConn) : Prop where
  state : t.state = s.state
  sndNxt : t.sndNxt = s.sndNxt
  sendBuffer : t.sendBuffer = s.sendBuffer
  peerMss : t.peerMss = s.peerMss
  kept : s.wire ⊆ t.wire
  added : ∀ p ∈ t.wire, p ∈ s.wire ∨ p.payload = [] ∨ ∃ e ∈ s.retx, e.segmentCopy = p
  copies : ∀ e ∈ t.retx, ∃ e' ∈ s.retx, e'.segmentCopy = e.segmentCopy

theorem Quiet.trans (h : s.Quiet t) (h' : t.Quiet u) : s.Quiet u where
  state := h'.state.trans h.state
  sndNxt := h'.sndNxt.trans h.sndNxt
  sendBuffer := h'.sendBuffer.trans h.sendBuffer
  peerMss := h'.peerMss.trans h.peerMss
  kept := List.Subset.trans h.kept h'.kept
  added p hp := by
    rcases h'.added p hp with hp | hp | ⟨e, he, rfl⟩
    · exact h.added p hp
    · exact Or.inr (Or.inl hp)
    · exact Or.inr (Or.inr (h.copies e he))
  copies e he := by
    obtain ⟨e', he', hcopy⟩ := h'.copies e he
    obtain ⟨e'', he'', hcopy'⟩ := h.copies e' he'
    exact ⟨e'', he'', hcopy'.trans hcopy⟩

theorem quiet_of_wire (hstate : t.state = s.state) (hnxt : t.sndNxt = s.sndNxt)
    (hbuffer : t.sendBuffer = s.sendBuffer) (hmss : t.peerMss = s.peerMss) (hwire : t.wire = s.wire)
    (hretx : t.retx.Sublist s.retx) : s.Quiet t where
  state := hstate
  sndNxt := hnxt
  sendBuffer := hbuffer
  peerMss := hmss
  kept := by rw [hwire]; exact List.Subset.refl _
  added p hp := Or.inl (hwire ▸ hp)
  copies e he := ⟨e, hretx.subset he, rfl⟩

theorem Quiet.refl (s : TcpConn) : s.Quiet s :=
  quiet_of_wire rfl rfl rfl rfl rfl (List.Sublist.refl _)

theorem quiet_free (s : TcpConn) : s.Quiet (tcpFree s) :=
  quiet_of_wire rfl rfl rfl rfl rfl (List.nil_sublist _)

theorem OnlyReceive.quiet (h : s.OnlyReceive t) : s.Quiet t := by
  rw [h]
  exact quiet_of_wire rfl rfl rfl rfl rfl (List.Sublist.refl _)

theorem tcpRetxEnqueue_copies (s : TcpConn) (seq : BitVec 32) (segment : TcpSegment) (count : ℕ) :
    (tcpRetxEnqueue s seq segment count).wire = s.wire ∧
    (tcpRetxEnqueue s seq segment count).sendBuffer = s.sendBuffer ∧
    (tcpRetxEnqueue s seq segment count).peerMss = s.peerMss ∧
    ((tcpRetxEnqueue s seq segment count).retx = s.retx ∨ ∃ e : RetxEntry, e.segmentCopy = segment ∧
      (tcpRetxEnqueue s seq segment count).retx = s.retx ++ [e]) := by
  unfold tcpRetxEnqueue kmalloc
  dsimp only
  split
  · exact ⟨rfl, rfl, rfl, Or.inl rfl⟩
  · split
    · exact ⟨rfl, rfl, rfl, Or.inl rfl⟩
    · split
      · exact ⟨rfl, rfl, rfl, Or.inl rfl⟩
      · exact ⟨rfl, rfl, rfl, Or.inr ⟨_, rfl, rfl⟩⟩

structure Carries (s t : TcpConn) (seq : BitVec 32) (data : List Byte) (packet : TcpSegment) :
    Prop where
  seq : packet.seq = seq
  payload : packet.payload = data
  wire : t.wire = s.wire ++ [packet]
  retx : t.retx = s.retx ∨ ∃ e : RetxEntry, e.segmentCopy = packet ∧ t.retx = s.retx ++ [e]
  sendBuffer : t.sendBuffer = s.sendBuffer
  peerMss : t.peerMss = s.peerMss

theorem tcpSendSegment_carries (s : TcpConn) (seq : BitVec 32) {flags : TcpFlags}
    (hsyn : flags.syn = false) (data : List Byte) :
    ∃ packet, s.Carries (tcpSendSegment s seq flags data) seq data packet := by
  let packet : TcpSegment :=
    { seq := seq
      ack := if flags.ack then s.rcvNxt else 0
      off := 5 + (if flags.syn then tcpBuildOptions s.rcvWscale else []).length / 4
      flags := flags
      windowSize := tcpRecvWindow s
      body := (if flags.syn then tcpBuildOptions s.rcvWscale else []) ++ data }
  have hpayload : packet.payload = data := by
    simp [packet, TcpSegment.payload, TcpSegment.headerSize, hsyn]
  obtain ⟨hwire, hbuffer, hmss, hretx⟩ := tcpRetxEnqueue_copies s seq packet data.length
  exact ⟨packet, rfl, hpayload, congrArg (· ++ [packet]) hwire, hretx, hbuffer, hmss⟩

theorem tcpSendAck_quiet (s : TcpConn) : s.Quiet (tcpSendAck s) := by
  unfold tcpSendAck tcpSendAckFlags
  split
  · exact Quiet.refl s
  · have hsame := tcpSendSegment_sameSend { s with rcvLst := s.rcvNxt } s.sndNxt ackFlags rfl rfl
    obtain ⟨packet, -, hpayload, hwire, -⟩ :=
      tcpSendSegment_carries { s with rcvLst := s.rcvNxt } s.sndNxt
        (show ackFlags.syn = false from rfl) []
    refine ⟨hsame.state, hsame.sndNxt, hsame.sendBuffer, hsame.peerMss, ?_, fun p hp => ?_,
      fun e he => ⟨e, hsame.retx ▸ he, rfl⟩⟩
    · rw [hwire]
      exact List.subset_append_left _ _
    · rw [hwire] at hp
      rcases List.mem_append.mp hp with hp | hp
      · exact Or.inl hp
      · obtain rfl := List.mem_singleton.mp hp
        exact Or.inr (Or.inl hpayload)

theorem tcpHandleDataIn_quiet (hrun : tcpHandleDataIn s segment = some t) : s.Quiet t := by
  unfold tcpHandleDataIn at hrun
  dsimp only at hrun
  split at hrun
  · obtain rfl := Option.some.inj hrun
    exact tcpSendAck_quiet s
  · split at hrun
    · split at hrun <;> obtain rfl := Option.some.inj hrun
      · exact Quiet.refl s
      · exact tcpSendAck_quiet s
    · split at hrun
      · obtain rfl := Option.some.inj hrun
        exact quiet_free s
      · obtain ⟨u, hinsert, hrun⟩ := Option.bind_eq_some_iff.mp hrun
        obtain ⟨v, hprocess, hrun⟩ := Option.bind_eq_some_iff.mp hrun
        obtain rfl := Option.some.inj hrun
        have hu := (tcpOrdListInsert_onlyQueue hinsert).onlyReceive
        exact (hu.trans (tcpProcessQueue_onlyReceive hprocess)).quiet.trans (tcpSendAck_quiet v)

theorem tcpRetxResendHead_quiet (s : TcpConn) : s.Quiet (tcpRetxResendHead s) := by
  unfold tcpRetxResendHead
  split
  · exact Quiet.refl s
  · next entry rest hretx =>
    have hentry : entry ∈ s.retx := by
      rw [hretx]
      exact List.mem_cons_self
    refine ⟨rfl, rfl, rfl, rfl, List.subset_append_left _ _, fun p hp => ?_, fun e he => ?_⟩
    · rcases List.mem_append.mp hp with hp | hp
      · exact Or.inl hp
      · exact Or.inr (Or.inr ⟨entry, hentry, (List.mem_singleton.mp hp).symm⟩)
    · rcases List.mem_cons.mp he with rfl | he
      · exact ⟨entry, hentry, rfl⟩
      · refine ⟨e, ?_, rfl⟩
        rw [hretx]
        exact List.mem_cons_of_mem _ he

theorem tcpDuplicateAck_quiet (s : TcpConn) (segment : TcpSegment) :
    s.Quiet (tcpDuplicateAck s segment) := by
  unfold tcpDuplicateAck
  dsimp only
  split
  · exact Quiet.refl s
  · split
    · exact Quiet.refl s
    · split
      · exact Quiet.refl s
      · split
        · exact Quiet.refl s
        · split
          · exact quiet_of_wire rfl rfl rfl rfl rfl (List.Sublist.refl _)
          · generalize (if s.dupAckCount < 255 then s.dupAckCount + 1 else s.dupAckCount) = n
            split
            · refine Quiet.trans ?_ (tcpRetxResendHead_quiet { s with dupAckCount := n })
              exact quiet_of_wire rfl rfl rfl rfl rfl (List.Sublist.refl _)
            · exact quiet_of_wire rfl rfl rfl rfl rfl (List.Sublist.refl _)

theorem tcpProcessAck_quiet (s : TcpConn) (segment : TcpSegment) :
    s.Quiet (tcpProcessAck s segment) := by
  unfold tcpProcessAck
  split
  · exact Quiet.refl s
  · split
    · unfold tcpRetxAcknowledge
      split
      · exact quiet_of_wire rfl rfl rfl rfl rfl (List.dropWhile_sublist _)
      · exact Quiet.refl s
    · exact tcpDuplicateAck_quiet s segment

theorem tcpRetxTimer_quiet (s : TcpConn) : s.Quiet (tcpRetxTimer s) := by
  rcases tcpRetxTimer_cases s with heq | heq | heq
  · rw [heq]
    exact quiet_free s
  · rw [heq]
    exact tcpRetxResendHead_quiet s
  · rw [heq]
    exact Quiet.refl s

theorem tcpStateEstablished_quiet (hfin : segment.flags.fin = false)
    (hrun : tcpStateEstablished s segment = some t) : s.Quiet t := by
  have hack := tcpProcessAck_quiet s segment
  unfold tcpStateEstablished at hrun
  dsimp only at hrun
  rw [hfin] at hrun
  split at hrun
  · obtain ⟨u, hdata, hrun⟩ := Option.bind_eq_some_iff.mp hrun
    obtain rfl := Option.some.inj hrun
    exact hack.trans (tcpHandleDataIn_quiet hdata)
  · obtain rfl := Option.some.inj hrun
    exact hack

/-! ## The idle task -/

def TimesOut (s : TcpConn) : Prop :=
  ∃ entry ∈ s.retx.head?, entry.rtoMs ≤ sub64 s.env.ticks entry.sentAt ∧ 5 ≤ entry.retries

def restMemory (s : TcpConn) : ℕ := if s.env.memory 0 = 0 then s.env.memory 1 else s.env.memory 2

/-- If `tcp_idle` comes to the buffer, the packet fits its length of 16 bits, and there is memory
for what stays in the buffer. -/
def DrainsSafely (s : TcpConn) : Prop :=
  ¬ s.TimesOut → s.chunkSize s.sendBuffer.length ≤ 65515 ∧
    (s.sendBuffer.length ≤ s.chunkSize s.sendBuffer.length ∨ s.restMemory ≠ 0)

theorem tcpRetxTimer_of_timesOut (h : s.TimesOut) : tcpRetxTimer s = tcpFree s := by
  obtain ⟨entry, hhead, hdue, hretries⟩ := h
  obtain ⟨rest, hretx⟩ := List.head?_eq_some_iff.mp hhead
  unfold tcpRetxTimer
  rw [hretx]
  dsimp only
  rw [if_pos hdue, if_pos hretries]

theorem tcpRetxTimer_env (h : ¬ s.TimesOut) :
    (tcpRetxTimer s).alive = s.alive ∧ (tcpRetxTimer s).env = s.env := by
  unfold tcpRetxTimer
  split
  · exact ⟨rfl, rfl⟩
  · next entry rest hretx =>
    split
    · next hdue =>
      split
      · next hretries => exact absurd ⟨entry, by rw [hretx]; rfl, hdue, hretries⟩ h
      · rw [tcpRetxResendHead_onlyAck s]
        exact ⟨rfl, rfl⟩
    · exact ⟨rfl, rfl⟩

theorem tcpRetxEnqueue_memory (s : TcpConn) (seq : BitVec 32) (segment : TcpSegment) {count : ℕ}
    (hcount : count ≠ 0) : (tcpRetxEnqueue s seq segment count).env.memory 0 = s.restMemory := by
  unfold tcpRetxEnqueue restMemory kmalloc
  dsimp only
  rw [if_neg fun h => hcount h.1]
  split
  · rfl
  · split <;> rfl

theorem eq_zero_of_chunkSize {n : ℕ} (h : s.chunkSize n = 0) : n = 0 := by
  unfold chunkSize at h
  have hpos : (if s.peerMss ≠ 0 then s.peerMss else 1460) ≠ 0 := by
    split
    · next hmss => exact hmss
    · decide
  generalize (if s.peerMss ≠ 0 then s.peerMss else 1460) = m at h hpos
  split at h
  · exact absurd h hpos
  · exact h

theorem tcpDrainSendBuffer_carries (hstate : s.state = .established)
    (hsize : s.chunkSize s.sendBuffer.length ≤ 65515)
    (hmem : s.sendBuffer.length ≤ s.chunkSize s.sendBuffer.length ∨ s.restMemory ≠ 0) :
    ∃ t, tcpDrainSendBuffer s = some t ∧ (t = s ∨ ∃ u packet,
      s.Carries u s.sndNxt (s.sendBuffer.take (s.chunkSize s.sendBuffer.length)) packet ∧
      u.state = s.state ∧ u.sndNxt = s.sndNxt + BitVec.ofNat 32 (s.chunkSize s.sendBuffer.length) ∧
      t = { u with
        sendBuffer := s.sendBuffer.drop (s.chunkSize s.sendBuffer.length)
        env := t.env }) := by
  have hlength := length_chunk s
  obtain ⟨u, hu⟩ : ∃ u, u = tcpSendSegment s s.sndNxt pshAckFlags
    (s.sendBuffer.take (s.chunkSize s.sendBuffer.length)) := ⟨_, rfl⟩
  obtain ⟨packet, hcarries⟩ :=
    tcpSendSegment_carries s s.sndNxt (show pshAckFlags.syn = false from rfl)
    (s.sendBuffer.take (s.chunkSize s.sendBuffer.length))
  have hemits :=
    tcpSendSegment_emits s s.sndNxt (show ¬ (pshAckFlags.syn ∧ pshAckFlags.fin) by decide)
    (s.sendBuffer.take (s.chunkSize s.sendBuffer.length))
  rw [← hu] at hcarries hemits
  have hwrite : tcpWrite s (s.sendBuffer.take (s.chunkSize s.sendBuffer.length)) = some u := by
    unfold tcpWrite
    rw [hlength, if_neg (by omega), if_neg (not_not.mpr hstate), if_neg (by omega), hu]
  have hsome : ∃ t, tcpDrainSendBuffer s = some t := by
    unfold tcpDrainSendBuffer
    split
    · exact ⟨_, rfl⟩
    · dsimp only
      rw [show (if (if s.peerMss ≠ 0 then s.peerMss else 1460) < s.sendBuffer.length then
        (if s.peerMss ≠ 0 then s.peerMss else 1460) else s.sendBuffer.length) =
          s.chunkSize s.sendBuffer.length from rfl, hwrite]
      dsimp only [Option.bind_eq_bind, Option.bind_some]
      split
      · exact ⟨_, rfl⟩
      · split <;> exact ⟨_, rfl⟩
  obtain ⟨t, hrun⟩ := hsome
  refine ⟨t, hrun, ?_⟩
  rcases tcpDrainSendBuffer_eq hrun with ⟨-, rfl⟩ | ⟨u', hwrite', ht, hbuffer⟩
  · exact Or.inl rfl
  · obtain rfl := Option.some.inj (hwrite.symm.trans hwrite')
    refine Or.inr ⟨u, packet, hcarries, hemits.state, ?_, ?_⟩
    · rw [hemits.sndNxt, hlength]
      rfl
    · have hmoved : u.sendBuffer.length ≤ s.chunkSize s.sendBuffer.length ∨ u.env.memory 0 ≠ 0 := by
        rw [hcarries.sendBuffer]
        rcases hmem with hall | hrest
        · exact Or.inl hall
        · by_cases hzero : s.chunkSize s.sendBuffer.length = 0
          · exact Or.inl ((eq_zero_of_chunkSize hzero).trans_le (Nat.zero_le _))
          · refine Or.inr ?_
            rw [hu]
            exact (tcpRetxEnqueue_memory s _ _ fun h => hzero (hlength.symm.trans h)).trans_ne hrest
      rw [if_pos hmoved, hcarries.sendBuffer] at hbuffer
      rw [ht, hbuffer]

end TcpConn

/-- A connection, and what the successful calls of `send` have taken. -/
structure TcpSender where
  conn : TcpConn
  sent : List Byte

inductive SenderCall where
  | send (env : TcpEnv) (buffer : List Byte)
  | idle (env : TcpEnv)
  | ack (env : TcpEnv) (segment : TcpSegment) (options : TcpOptions)

/-- A connection that has just been established, and sends its first byte under `iss + 1`. -/
structure TcpConn.FreshlyEstablished (s : TcpConn) : Prop where
  state : s.state = .established
  sndNxt : s.sndNxt = s.iss + 1
  sendBuffer : s.sendBuffer = []
  wire : ∀ p ∈ s.wire, p.payload = []
  copies : ∀ e ∈ s.retx, e.segmentCopy.payload = []

namespace TcpSender

variable {s t : TcpSender} {c : SenderCall} {base : BitVec 32} {n : ℕ}

def within (s : TcpSender) (env : TcpEnv) : TcpConn := { s.conn with env := env }

def call (s : TcpSender) : SenderCall → Option TcpSender
  | .send env buffer => do
    let (ok, conn) ← send (s.within env) buffer
    some { conn := conn, sent := if ok then s.sent ++ buffer else s.sent }
  | .idle env => do
    let conn ← tcpIdle (s.within env)
    some { s with conn := conn }
  | .ack env segment options => do
    let conn ← tcpStateMachine (s.within env) segment options
    some { s with conn := conn }

def Ongoing (s : TcpSender) : SenderCall → Prop
  | .ack _ segment _ => s.conn.alive ∧ segment.flags.fin = false ∧ segment.flags.rst = false
  | _ => s.conn.alive

def DrainsSafely (s : TcpSender) : SenderCall → Prop
  | .send env buffer => env.memory 0 ≠ 0 → ((s.within env).buffered buffer).DrainsSafely
  | .idle env => (s.within env).DrainsSafely
  | .ack _ _ _ => True

/-- What is on the wire is the first `n` bytes of what was taken, each under its own number. -/
structure LaidOut (base : BitVec 32) (s : TcpSender) (n : ℕ) : Prop where
  sent : n ≤ s.sent.length
  sndNxt : s.conn.sndNxt = seqAt base n
  carried : ∀ p ∈ s.conn.wire, p.payload ≠ [] → ∃ pos, p.SentAt base s.sent n pos
  covered : ∀ i < n, ∃ p ∈ s.conn.wire, ∃ pos, p.SentAt base s.sent n pos ∧
    pos ≤ i ∧ i < pos + p.payload.length

/-! ## The invariant -/

structure SendStream (base : BitVec 32) (s : TcpSender) (n : ℕ) :
    Prop extends LaidOut base s n where
  state : s.conn.state = .established
  buffer : s.sent.drop n = s.conn.sendBuffer
  copies : ∀ e ∈ s.conn.retx, e.segmentCopy.payload ≠ [] →
    ∃ pos, e.segmentCopy.SentAt base s.sent n pos

theorem FreshlyEstablished.sendStream {conn : TcpConn} (h : conn.FreshlyEstablished) :
    (⟨conn, []⟩ : TcpSender).SendStream (conn.iss + 1) 0 := by
  refine ⟨⟨le_rfl, ?_, fun p hp hdata => absurd (h.wire p hp) hdata, by simp⟩, h.state,
    h.sendBuffer.symm, fun e he hdata => absurd (h.copies e he) hdata⟩
  rw [seqAt_zero]
  exact h.sndNxt

theorem SendStream.quiet (h : s.SendStream base n) {conn : TcpConn} (hquiet : s.conn.Quiet conn) :
    (⟨conn, s.sent⟩ : TcpSender).SendStream base n := by
  refine ⟨⟨h.sent, hquiet.sndNxt.trans h.sndNxt, fun p hp hdata => ?_, fun i hi => ?_⟩,
    hquiet.state.trans h.state, h.buffer.trans hquiet.sendBuffer.symm, fun e he hdata => ?_⟩
  · rcases hquiet.added p hp with hp | hp | ⟨e, he, rfl⟩
    · exact h.carried p hp hdata
    · exact absurd hp hdata
    · exact h.copies e he hdata
  · obtain ⟨p, hp, hat⟩ := h.covered i hi
    exact ⟨p, hquiet.kept hp, hat⟩
  · obtain ⟨e', he', hcopy⟩ := hquiet.copies e he
    rw [← hcopy] at hdata ⊢
    exact h.copies e' he' hdata

/-- `send` takes more bytes. -/
theorem SendStream.buffered (h : s.SendStream base n) (buffer : List Byte) :
    (⟨s.conn.buffered buffer, s.sent ++ buffer⟩ : TcpSender).SendStream base n := by
  have hmono : ∀ {p : TcpSegment} {pos : ℕ}, p.SentAt base s.sent n pos →
      p.SentAt base (s.sent ++ buffer) n pos := fun hp => hp.mono h.sent le_rfl
  refine ⟨⟨?_, h.sndNxt, fun p hp hdata => ?_, fun i hi => ?_⟩, h.state, ?_, fun e he hdata => ?_⟩
  · rw [List.length_append]
    exact Nat.le_add_right_of_le h.sent
  · obtain ⟨pos, hat⟩ := h.carried p hp hdata
    exact ⟨pos, hmono hat⟩
  · obtain ⟨p, hp, pos, hat, hi⟩ := h.covered i hi
    exact ⟨p, hp, pos, hmono hat, hi⟩
  · change (s.sent ++ buffer).drop n = s.conn.sendBuffer ++ buffer
    rw [List.drop_append_of_le_length h.sent, h.buffer]
  · obtain ⟨pos, hat⟩ := h.copies e he hdata
    exact ⟨pos, hmono hat⟩

theorem SendStream.carries (h : s.SendStream base n) {u conn : TcpConn}
    {packet : TcpSegment} {k : ℕ} (hk : (s.conn.sendBuffer.take k).length = k)
    (hcarries : s.conn.Carries u s.conn.sndNxt (s.conn.sendBuffer.take k) packet)
    (hstate : u.state = s.conn.state) (hnxt : u.sndNxt = s.conn.sndNxt + BitVec.ofNat 32 k)
    (hconn : conn = { u with sendBuffer := s.conn.sendBuffer.drop k, env := conn.env }) :
    (⟨conn, s.sent⟩ : TcpSender).SendStream base (n + k) := by
  have hsent := h.sent
  have hlen : k ≤ s.sent.length - n := by
    rw [← List.length_drop, h.buffer]
    rw [List.length_take] at hk
    omega
  have hmono : ∀ {p : TcpSegment} {pos : ℕ}, p.SentAt base s.sent n pos →
      p.SentAt base s.sent (n + k) pos := fun hp =>
    ⟨hp.seq, hp.finish.trans (Nat.le_add_right _ _), hp.payload⟩
  have hpayload : packet.payload.length = k := by rw [hcarries.payload, hk]
  have hnew : packet.SentAt base s.sent (n + k) n := by
    refine ⟨hcarries.seq.trans h.sndNxt, by rw [hpayload], ?_⟩
    rw [hpayload, h.buffer]
    exact hcarries.payload
  have hwire : conn.wire = s.conn.wire ++ [packet] := by rw [hconn, ← hcarries.wire]
  have hretx : conn.retx = u.retx := by rw [hconn]
  refine ⟨⟨?_, ?_, fun p hp hdata => ?_, fun i hi => ?_⟩, ?_, ?_, fun e he hdata => ?_⟩
  · change n + k ≤ s.sent.length
    omega
  · rw [hconn, ← seqAt_add, ← h.sndNxt]
    exact hnxt
  · change p ∈ conn.wire at hp
    rw [hwire] at hp
    rcases List.mem_append.mp hp with hp | hp
    · obtain ⟨pos, hat⟩ := h.carried p hp hdata
      exact ⟨pos, hmono hat⟩
    · obtain rfl := List.mem_singleton.mp hp
      exact ⟨n, hnew⟩
  · change ∃ p ∈ conn.wire, _
    rw [hwire]
    by_cases hold : i < n
    · obtain ⟨p, hp, pos, hat, hi⟩ := h.covered i hold
      exact ⟨p, List.mem_append_left _ hp, pos, hmono hat, hi⟩
    · exact ⟨packet, List.mem_append_right _ (List.mem_singleton_self _), n,
        hnew, by omega, by omega⟩
  · rw [hconn]
    exact hstate.trans h.state
  · rw [hconn, ← List.drop_drop, h.buffer]
  · change e ∈ conn.retx at he
    rw [hretx] at he
    rcases hcarries.retx with hold | ⟨e', hcopy, happend⟩
    · obtain ⟨pos, hat⟩ := h.copies e (hold ▸ he) hdata
      exact ⟨pos, hmono hat⟩
    · rw [happend] at he
      rcases List.mem_append.mp he with he | he
      · obtain ⟨pos, hat⟩ := h.copies e he hdata
        exact ⟨pos, hmono hat⟩
      · obtain rfl := List.mem_singleton.mp he
        rw [hcopy]
        exact ⟨n, hnew⟩

theorem SendStream.idle (h : s.SendStream base n) (halive : s.conn.alive)
    (hsafe : s.conn.DrainsSafely) :
    ∃ conn, tcpIdle s.conn = some conn ∧ ∃ m, (⟨conn, s.sent⟩ : TcpSender).SendStream base m := by
  have htimer := h.quiet (TcpConn.tcpRetxTimer_quiet s.conn)
  by_cases hout : s.conn.TimesOut
  · refine ⟨tcpFree s.conn, ?_, n, h.quiet (TcpConn.quiet_free s.conn)⟩
    unfold tcpIdle
    dsimp only
    rw [TcpConn.tcpRetxTimer_of_timesOut hout]
    rfl
  · obtain ⟨halive', henv⟩ := TcpConn.tcpRetxTimer_env hout
    obtain ⟨hsize, hmem⟩ := hsafe hout
    have hquiet := TcpConn.tcpRetxTimer_quiet s.conn
    have hchunk : (tcpRetxTimer s.conn).chunkSize (tcpRetxTimer s.conn).sendBuffer.length =
        s.conn.chunkSize s.conn.sendBuffer.length := by
      unfold TcpConn.chunkSize
      rw [hquiet.peerMss, hquiet.sendBuffer]
    have hidle : tcpIdle s.conn = tcpDrainSendBuffer (tcpRetxTimer s.conn) := by
      unfold tcpIdle
      dsimp only
      rw [halive', halive, htimer.state]
      rfl
    obtain ⟨conn, hdrain, hconn⟩ :=
        TcpConn.tcpDrainSendBuffer_carries htimer.state (hchunk ▸ hsize) (by
      unfold TcpConn.restMemory at hmem ⊢
      rw [hchunk, hquiet.sendBuffer, henv]
      exact hmem)
    refine ⟨conn, hidle.trans hdrain, ?_⟩
    rcases hconn with rfl | ⟨u, packet, hcarries, hstate, hnxt, heq⟩
    · exact ⟨n, htimer⟩
    · exact ⟨_, htimer.carries (TcpConn.length_chunk _) hcarries hstate hnxt heq⟩

theorem within_sendStream (h : s.SendStream base n) (env : TcpEnv) :
    (⟨s.within env, s.sent⟩ : TcpSender).SendStream base n :=
  h.quiet (TcpConn.quiet_of_wire rfl rfl rfl rfl rfl (List.Sublist.refl _))

/-- `send` and the idle task return. -/
theorem SendStream.send (h : s.SendStream base n) {env : TcpEnv} {buffer : List Byte}
    (halive : s.conn.alive) (hsafe : s.DrainsSafely (.send env buffer)) :
    ∃ t, s.call (.send env buffer) = some t ∧ ∃ m, t.SendStream base m := by
  have hwithin := within_sendStream h env
  by_cases hmem : env.memory 0 = 0
  · have hfail :
        RetroRocket.send (s.within env) buffer = some (false, (s.within env).kmalloc.2) := by
      unfold RetroRocket.send
      exact if_pos hmem
    refine ⟨⟨(s.within env).kmalloc.2, s.sent⟩, ?_, n, hwithin.quiet ?_⟩
    · simp only [call, hfail]
      rfl
    · exact TcpConn.quiet_of_wire rfl rfl rfl rfl rfl (List.Sublist.refl _)
  · obtain ⟨conn, hidle, m, hconn⟩ := (hwithin.buffered buffer).idle halive (hsafe hmem)
    have hsend : RetroRocket.send (s.within env) buffer = some (true, conn) := by
      unfold RetroRocket.send
      refine (if_neg hmem).trans ?_
      change (tcpIdle ((s.within env).buffered buffer)).bind _ = _
      rw [hidle]
      rfl
    refine ⟨⟨conn, s.sent ++ buffer⟩, ?_, m, hconn⟩
    simp only [call, hsend]
    rfl

theorem SendStream.idleCall (h : s.SendStream base n) {env : TcpEnv} (halive : s.conn.alive)
    (hsafe : s.DrainsSafely (.idle env)) :
    ∃ t, s.call (.idle env) = some t ∧ ∃ m, t.SendStream base m := by
  obtain ⟨conn, hidle, m, hconn⟩ := (within_sendStream h env).idle halive hsafe
  refine ⟨⟨conn, s.sent⟩, ?_, m, hconn⟩
  simp only [call, hidle]
  rfl

theorem SendStream.ack (h : s.SendStream base n) {env : TcpEnv} {segment : TcpSegment}
    {options : TcpOptions} (hfin : segment.flags.fin = false)
    (hcall : s.call (.ack env segment options) = some t) : t.SendStream base n := by
  have hwithin := within_sendStream h env
  obtain ⟨conn, hmachine, hcall⟩ := Option.bind_eq_some_iff.mp hcall
  obtain rfl := Option.some.inj hcall
  unfold tcpStateMachine at hmachine
  rw [hwithin.state] at hmachine
  exact hwithin.quiet (TcpConn.tcpStateEstablished_quiet hfin hmachine)

theorem SendStream.call (h : ∃ n, s.SendStream base n) (hongoing : s.Ongoing c)
    (hsafe : s.DrainsSafely c) (hcall : s.call c = some t) : ∃ n, t.SendStream base n := by
  obtain ⟨n, h⟩ := h
  cases c with
  | send env buffer =>
    obtain ⟨u, hsend, hu⟩ := h.send hongoing hsafe
    obtain rfl := Option.some.inj (hsend.symm.trans hcall)
    exact hu
  | idle env =>
    obtain ⟨u, hidle, hu⟩ := h.idleCall hongoing hsafe
    obtain rfl := Option.some.inj (hidle.symm.trans hcall)
    exact hu
  | ack env segment options => exact ⟨n, h.ack hongoing.2.1 hcall⟩

/-! ## Runs -/

/-- In every state that such calls reach, what is on the wire is a prefix of what was taken, and
`send` and the idle task return. -/
theorem run_laidOut (conn : TcpConn) (hfresh : conn.FreshlyEstablished)
    (hrun : Run call (fun s c => s.Ongoing c ∧ s.DrainsSafely c) ⟨conn, []⟩ t) :
    (∃ n, t.LaidOut (conn.iss + 1) n) ∧ ∀ c, t.Ongoing c → t.DrainsSafely c →
      (∀ env segment options, c ≠ .ack env segment options) → (t.call c).isSome := by
  obtain ⟨n, h⟩ := hrun.preserved ⟨0, FreshlyEstablished.sendStream hfresh⟩
    fun h hallowed hcall => SendStream.call h hallowed.1 hallowed.2 hcall
  refine ⟨⟨n, h.toLaidOut⟩, fun c hongoing hsafe hack => ?_⟩
  cases c with
  | send env buffer =>
    obtain ⟨u, hcall, -⟩ := h.send hongoing hsafe
    rw [hcall]
    rfl
  | idle env =>
    obtain ⟨u, hcall, -⟩ := h.idleCall hongoing hsafe
    rw [hcall]
    rfl
  | ack env segment options => exact absurd rfl (hack env segment options)

def smallMss : TcpSender := ⟨{ establishedConn 0 100 with peerMss := 2 }, []⟩

def shortEnv : TcpEnv := { envAt 4096 with memory := fun n => if n = 3 then 0 else 4096 + 64 * n }

def sentTwice : TcpSender :=
  Run.next call (Run.next call smallMss (.send shortEnv [1, 2, 3])) (.idle (envAt 8192))

/-- The first two bytes go out under the numbers of the next two as well. -/
theorem sentTwice_not_laidOut :
    smallMss.conn.FreshlyEstablished ∧ Run call Ongoing smallMss sentTwice ∧
      ¬ ∃ n, sentTwice.LaidOut 1 n := by
  refine ⟨⟨rfl, rfl, rfl, by simp [smallMss, establishedConn], by simp [smallMss, establishedConn]⟩,
    ?_, ?_⟩
  · unfold sentTwice
    refine Run.next_step (Run.next_step Run.refl rfl (by decide +kernel)) ?_ (by decide +kernel)
    change (Run.next call smallMss (.send shortEnv [1, 2, 3])).conn.alive
    decide +kernel
  · rintro ⟨n, h⟩
    have hsent : sentTwice.sent = [1, 2, 3] := by decide +kernel
    have hlong := h.sent
    have hagain : ∃ p ∈ sentTwice.conn.wire, p.seq = 3 ∧ p.payload = [1, 2] := by decide +kernel
    obtain ⟨p, hp, hseq, hpayload⟩ := hagain
    obtain ⟨pos, hat⟩ := h.carried p hp (by simp [hpayload])
    have hfinish := hat.finish
    have hpos := hat.seq.symm.trans (hseq.trans (show (3 : BitVec 32) = seqAt 1 2 by decide))
    rw [hpayload] at hfinish
    rw [hsent] at hlong
    change pos + 2 ≤ n at hfinish
    change n ≤ 3 at hlong
    rw [seqAt_inj (by omega) (by omega)] at hpos
    omega

def sentOnce : TcpSender :=
  Run.next call (Run.next call smallMss (.send (envAt 4096) [1, 2, 3])) (.idle (envAt 8192))

theorem run_laidOut_twoSegments :
    (∃ n, sentOnce.LaidOut 1 n) ∧ ∀ c, sentOnce.Ongoing c → sentOnce.DrainsSafely c →
      (∀ env segment options, c ≠ .ack env segment options) → (sentOnce.call c).isSome := by
  have hfresh : smallMss.conn.FreshlyEstablished :=
    ⟨rfl, rfl, rfl, by simp [smallMss, establishedConn], by simp [smallMss, establishedConn]⟩
  refine run_laidOut smallMss.conn hfresh ?_
  unfold sentOnce
  refine Run.next_step
    (Run.next_step Run.refl ⟨rfl, fun _ _ => ?_⟩ (by decide +kernel)) ⟨?_, fun _ => ?_⟩
    (by decide +kernel)
  · exact ⟨by decide +kernel, Or.inr (by decide +kernel)⟩
  · change (Run.next call smallMss (.send (envAt 4096) [1, 2, 3])).conn.alive
    decide +kernel
  · exact ⟨by decide +kernel, Or.inl (by decide +kernel)⟩

end TcpSender

end RetroRocket
