import RetroRocket.TcpFrames
import RetroRocket.TcpStream

/-!
# The FIN of the peer

The peer sends a stream and then a FIN, which has the sequence number behind the stream. While the
connection is in ESTABLISHED, FIN_WAIT_1 or FIN_WAIT_2 the FIN should take it out of its state
exactly when the whole stream has been delivered. The three states handle it differently:
ESTABLISHED takes any FIN, and counts it only if it comes alone; FIN_WAIT_1 takes any FIN and sets
`rcv_nxt` behind it; FIN_WAIT_2 takes none.
-/

namespace RetroRocket

/-- A segment of the peer: its header, with options or without, is in the segment, the payload is
cut from the stream, and a FIN is behind the stream. -/
structure TcpSegment.PeerAt (segment : TcpSegment) (base : BitVec 32) (stream : List Byte)
    (pos : ℕ) : Prop where
  seq : segment.seq = seqAt base pos
  off : 5 ≤ segment.off
  header : segment.headerSize ≤ segment.length
  bound : segment.length < 2 ^ 16
  rst : segment.flags.rst = false
  syn : segment.flags.syn = false
  payload : segment.payload = (stream.drop pos).take segment.payload.length
  fin : segment.flags.fin → pos + segment.payload.length = stream.length

namespace TcpSegment.PeerAt

variable {segment : TcpSegment} {base : BitVec 32} {stream : List Byte} {pos : ℕ}

theorem payloadLen (h : segment.PeerAt base stream pos) :
    segment.payloadLen = segment.payload.length := payloadLen_eq h.off h.header h.bound

theorem pieceFrom (h : segment.PeerAt base stream pos)
    (hplain : segment.off = 5 ∨ segment.payload = []) :
    (TcpConn.piece segment pos).From stream := by
  rcases hplain with hoff | hnone
  · have hbody : segment.payload = segment.body := by
      unfold TcpSegment.payload headerSize
      rw [hoff]
      rfl
    have hlen := h.payloadLen
    have hpayload := h.payload
    rw [hbody] at hlen hpayload
    refine ⟨Or.inl hoff, hlen.le, ?_⟩
    change segment.body.take segment.payloadLen = (stream.drop pos).take segment.payloadLen
    rw [hlen, List.take_length]
    exact hpayload
  · have hlen : segment.payloadLen = 0 := by rw [h.payloadLen, hnone, List.length_nil]
    refine ⟨Or.inr hlen, hlen.trans_le (Nat.zero_le _), ?_⟩
    change segment.body.take segment.payloadLen = (stream.drop pos).take segment.payloadLen
    rw [hlen, List.take_zero, List.take_zero]

end TcpSegment.PeerAt

inductive PeerCall where
  | segment (env : TcpEnv) (segment : TcpSegment) (options : TcpOptions)
  | recv (env : TcpEnv) (maxlen : ℕ)
  | close (env : TcpEnv)

namespace TcpReceiver

variable {s t : TcpReceiver} {stream : List Byte} {irs : BitVec 32} {env : TcpEnv}
variable {segment : TcpSegment} {options : TcpOptions} {pos : ℕ}

def Open (s : TcpReceiver) : Prop :=
  s.conn.alive ∧ (s.conn.state = .established ∨ s.conn.state = .finWait1 ∨ s.conn.state = .finWait2)

def peerCall (s : TcpReceiver) : PeerCall → Option TcpReceiver
  | .segment env segment options => do
    let conn ← tcpStateMachine (s.within env) segment options
    some { s with conn := conn }
  | .recv env maxlen => s.call (.recv env maxlen)
  | .close env => some { s with conn := tcpClose (s.within env) }

def FromPeer (irs : BitVec 32) (stream : List Byte) (s : TcpReceiver) : PeerCall → Prop
  | .segment _ segment _ => s.Open ∧ ∃ pos, segment.PeerAt (irs + 1) stream pos
  | .recv _ _ => s.Open
  | .close _ => s.Open

/-- The FIN is one that its state handles: ESTABLISHED one that is next and comes alone,
FIN_WAIT_1 one behind a stream that is delivered or that the segment completes, FIN_WAIT_2 none
that is next. -/
def FinHandled (stream : List Byte) (s : TcpReceiver) (segment : TcpSegment) (pos : ℕ) : Prop :=
  match s.conn.state with
  | .established => pos = s.delivered ∧ segment.payloadLen = 0
  | .finWait1 => s.delivered = stream.length ∨
      pos = s.delivered ∧ segment.payloadLen ≤ tcpRecvWindow s.conn ∧ s.conn.NoneBelow
  | _ => pos ≠ s.delivered

/-- A segment that is taken for one in the window is in the window, has no options if it carries
data, and does not trim a stored one across the wrap. -/
def TakenSafely (irs : BitVec 32) (stream : List Byte) (s : TcpReceiver) (env : TcpEnv)
    (segment : TcpSegment) : Prop :=
  (s.within env).Accepts segment → (segment.off = 5 ∨ segment.payload = []) ∧
    (∃ pos, segment.PeerAt (irs + 1) stream pos ∧ s.delivered ≤ pos ∧
      pos + segment.payloadLen ≤ s.delivered + tcpRecvWindow s.conn) ∧
    ¬ (s.within env).TrimsAcrossWrap segment.seq segment.payloadLen

/-- The allocations succeed, the segment is taken in safely, and the FIN is handled. -/
def ClosesSafely (irs : BitVec 32) (stream : List Byte) (s : TcpReceiver) : PeerCall → Prop
  | .segment env segment _ => (s.within env).Allocates segment ∧
      s.TakenSafely irs stream env segment ∧
      (segment.flags.fin → ∀ pos, segment.PeerAt (irs + 1) stream pos →
        s.FinHandled stream segment pos)
  | .recv env _ => ∀ n, env.memory n ≠ 0
  | .close _ => True

/-- A segment takes the connection out of its state only by a FIN, when the stream is delivered and
the FIN is counted, and a FIN that is next does so. -/
structure ClosesInOrder (irs : BitVec 32) (stream : List Byte) (s t : TcpReceiver)
    (segment : TcpSegment) (pos : ℕ) : Prop where
  stays : segment.flags.fin = false → t.Open
  leaves : segment.flags.fin → ¬ t.Open →
    t.delivered = stream.length ∧ t.conn.rcvNxt = irs + 1 + BitVec.ofNat 32 stream.length + 1
  advances : segment.flags.fin → pos = s.delivered →
    match s.conn.state with
    | .established => t.conn.state = .closeWait
    | .finWait1 => t.conn.state = .closing ∨ t.conn.state = .timeWait
    | _ => t.conn.state = .timeWait

/-! ## The receive side of the handlers -/

theorem StreamInv.same (h : s.StreamInv irs stream) {conn : TcpConn}
    (hconn : s.conn.SameReceive conn) :
    (⟨conn, s.received⟩ : TcpReceiver).StreamInv irs stream := by
  obtain ⟨⟨ps, hpieces, hcontent⟩, hreceived⟩ := h
  have hdelivered : (⟨conn, s.received⟩ : TcpReceiver).delivered = s.delivered :=
    congrArg (fun l : List Byte => s.received.length + l.length) hconn.recvBuffer
  refine ⟨⟨ps, ?_, hcontent⟩, ?_⟩
  · rw [hdelivered]
    exact hpieces.same hconn
  · rw [hdelivered]
    change s.received ++ conn.recvBuffer = _
    rw [hconn.recvBuffer]
    exact hreceived

theorem StreamInv.delivered_le (h : s.StreamInv irs stream) : s.delivered ≤ stream.length := by
  have hlen := congrArg List.length h.received
  rw [List.length_append, List.length_take] at hlen
  unfold delivered at *
  omega

/-- A segment of the peer is taken in. One that is next is delivered, if nothing below it is
left. -/
theorem StreamInv.takeIn (h : s.StreamInv irs stream) {u : TcpConn} (hu : s.conn.SameReceive u)
    (henv : u.env = env) (hpeer : segment.PeerAt (irs + 1) stream pos)
    (halloc : (s.within env).Allocates segment) (hsafe : s.TakenSafely irs stream env segment) :
    ∃ conn, tcpHandleDataIn u segment = some conn ∧ u.SameSend conn ∧
      (⟨conn, s.received⟩ : TcpReceiver).StreamInv irs stream ∧
      s.delivered ≤ (⟨conn, s.received⟩ : TcpReceiver).delivered ∧
      (segment.payloadLen ≤ tcpRecvWindow s.conn → s.conn.NoneBelow → pos = s.delivered →
        s.delivered + segment.payloadLen ≤ (⟨conn, s.received⟩ : TcpReceiver).delivered) := by
  have hwithin : (s.within env).SameReceive u := (s.sameReceive_within env).symm.trans hu
  have hwin := hu.tcpRecvWindow_eq
  have hroom := TcpConn.tcpRecvWindow_le s.conn
  obtain ⟨ps, hpieces, -⟩ := h.pieces
  -- the position at which the segment is accepted is the one it was cut at, if that is next
  have hpos : ∃ pos', (pos = s.delivered → u.Accepts segment → pos' = s.delivered) ∧
      (u.Accepts segment → segment.seq = seqAt (irs + 1) pos' ∧
        (TcpConn.piece segment pos').From stream ∧ s.delivered ≤ pos' ∧
        pos' + segment.payloadLen ≤ s.delivered + tcpRecvWindow u ∧
        ¬ u.TrimsAcrossWrap segment.seq segment.payloadLen) := by
    by_cases haccept : u.Accepts segment
    · obtain ⟨hplain, ⟨pos', hat, hle, hwindow⟩, hwrap⟩ := hsafe (hwithin.accepts haccept)
      refine ⟨pos', fun heq _ => ?_, fun _ =>
        ⟨hat.seq, hat.pieceFrom hplain, hle, hwin.symm ▸ hwindow,
        fun htrims => hwrap (hwithin.trimsAcrossWrap htrims)⟩⟩
      have hseq := hat.seq.symm.trans hpeer.seq
      rw [seqAt_inj (by omega) (by omega)] at hseq
      exact hseq.trans heq
    · exact ⟨pos, fun heq _ => heq, fun h => absurd h haccept⟩
  obtain ⟨pos', hnext, hpos'⟩ := hpos
  obtain ⟨conn, hrun, hinv, hmono, hdeliver⟩ :=
    h.handle hu hpeer.rst (halloc.same hwithin henv) pos' hpos'
  have hsame : u.SameSend conn := by
    rcases TcpConn.tcpHandleDataIn_sameSend hrun with hsame | ⟨hrst, -⟩
    · exact hsame
    · rw [hpeer.rst] at hrst
      cases hrst
  refine ⟨conn, hrun, hsame, hinv, hmono, fun hfits hbelow heq => ?_⟩
  have haccept : u.Accepts segment := by
    refine TcpConn.accepts_of_window (hu.rcvNxt.trans hpieces.rcvNxt) hpeer.seq heq.ge ?_
    rw [heq, hwin]
    omega
  exact hdeliver haccept hbelow (hnext heq haccept)

/-! ## One segment -/

theorem tcpStateReceiveFin_established {s : TcpConn} (hnext : segment.seq = s.rcvNxt)
    (hstate : s.state = .established) :
    (tcpStateReceiveFin s segment).state = .closeWait ∧
      (tcpStateReceiveFin s segment).recvBuffer = s.recvBuffer ∧
      (tcpStateReceiveFin s segment).rcvNxt = s.rcvNxt + 1 := by
  have hsend := TcpConn.tcpSendAck_sameSend { s with rcvNxt := s.rcvNxt + 1 }
  have hreceive := TcpConn.tcpSendAckFlags_sameReceive ackFlags { s with rcvNxt := s.rcvNxt + 1 }
  have hfin : tcpStateReceiveFin s segment =
      tcpSetState (tcpSendAck { s with rcvNxt := s.rcvNxt + 1 }) .closeWait := by
    unfold tcpStateReceiveFin
    dsimp only
    rw [if_pos hnext, hsend.state, hstate]
  rw [hfin]
  exact ⟨rfl, hreceive.recvBuffer, hreceive.rcvNxt⟩

theorem processAck_receive (s : TcpReceiver) (env : TcpEnv) (segment : TcpSegment) :
    s.conn.SameReceive (tcpProcessAck (s.within env) segment) :=
  (s.sameReceive_within env).trans (TcpConn.tcpProcessAck_onlyAck _ segment).sameReceive

theorem processAck_env (s : TcpReceiver) (env : TcpEnv) (segment : TcpSegment) :
    (tcpProcessAck (s.within env) segment).env = env ∧
      (tcpProcessAck (s.within env) segment).state = s.conn.state ∧
      (tcpProcessAck (s.within env) segment).alive = s.conn.alive := by
  rw [TcpConn.tcpProcessAck_onlyAck (s.within env) segment]
  exact ⟨rfl, rfl, rfl⟩

theorem peerCall_segment {conn : TcpConn}
    (h : tcpStateMachine (s.within env) segment options = some conn) :
    s.peerCall (.segment env segment options) = some ⟨conn, s.received⟩ := by
  simp only [peerCall, h]
  rfl

theorem StreamInv.established (h : s.StreamInv irs stream) (halive : s.conn.alive)
    (hstate : s.conn.state = .established) (hpeer : segment.PeerAt (irs + 1) stream pos)
    (halloc : (s.within env).Allocates segment) (hsafe : s.TakenSafely irs stream env segment)
    (hfin : segment.flags.fin → s.FinHandled stream segment pos) :
    ∃ conn, tcpStateEstablished (s.within env) segment = some conn ∧
      ((⟨conn, s.received⟩ : TcpReceiver).Open →
        (⟨conn, s.received⟩ : TcpReceiver).StreamInv irs stream) ∧
      s.ClosesInOrder irs stream ⟨conn, s.received⟩ segment pos := by
  have hack := s.processAck_receive env segment
  obtain ⟨henv, hackState, hackAlive⟩ := s.processAck_env env segment
  have hlen := hpeer.payloadLen
  cases hflag : segment.flags.fin with
  | false =>
    have htaken : ∃ conn, tcpStateEstablished (s.within env) segment = some conn ∧
        conn.state = s.conn.state ∧ conn.alive = s.conn.alive ∧
        (⟨conn, s.received⟩ : TcpReceiver).StreamInv irs stream := by
      unfold tcpStateEstablished
      dsimp only
      rw [hflag]
      split
      · obtain ⟨conn, hrun, hsame, hinv, -⟩ := h.takeIn hack henv hpeer halloc hsafe
        rw [hrun]
        exact ⟨conn, rfl, hsame.state.trans hackState, hsame.alive.trans hackAlive, hinv⟩
      · exact ⟨_, rfl, hackState, hackAlive, h.same hack⟩
    obtain ⟨conn, hrun, hstate', halive', hinv⟩ := htaken
    refine ⟨conn, hrun, fun _ => hinv, ⟨fun _ => ?_, fun h => ?_, fun h => ?_⟩⟩
    · exact ⟨halive'.trans halive, Or.inl (hstate'.trans hstate)⟩
    · cases h.symm.trans hflag
    · cases h.symm.trans hflag
  | true =>
    have hhandled := hfin hflag
    unfold FinHandled at hhandled
    rw [hstate] at hhandled
    obtain ⟨hpos, hempty⟩ := hhandled
    have hbehind := hpeer.fin hflag
    obtain ⟨ps, hpieces, -⟩ := (h.same hack).pieces
    have hrun : tcpStateEstablished (s.within env) segment =
        some (tcpStateReceiveFin (tcpProcessAck (s.within env) segment) segment) := by
      have hbare : ¬ segment.headerSize < segment.length := by
        have hsize : segment.length = 20 + segment.body.length := rfl
        have hoff := hpeer.off
        rw [hempty, TcpSegment.payload, List.length_drop] at hlen
        unfold TcpSegment.headerSize at *
        omega
      unfold tcpStateEstablished
      dsimp only [Option.bind_eq_bind, Option.bind_some]
      rw [if_neg hbare, if_pos hflag]
      exact if_pos (hackAlive.trans halive)
    have hdelivered : (⟨tcpProcessAck (s.within env) segment, s.received⟩ : TcpReceiver).delivered =
        s.delivered := congrArg (fun l : List Byte => s.received.length + l.length) hack.recvBuffer
    have hnext : segment.seq = (tcpProcessAck (s.within env) segment).rcvNxt := by
      rw [hpieces.rcvNxt, hpeer.seq, hpos, hdelivered]
    obtain ⟨hfinState, hfinBuffer, hfinNxt⟩ :=
      tcpStateReceiveFin_established hnext (hackState.trans hstate)
    have hclosed :
      ¬ (⟨tcpStateReceiveFin (tcpProcessAck (s.within env) segment) segment, s.received⟩ :
        TcpReceiver).Open := by
      rintro ⟨-, h | h | h⟩ <;> cases h.symm.trans hfinState
    refine ⟨_, hrun, fun h => absurd h hclosed, ⟨fun h => ?_, fun _ _ => ⟨?_, ?_⟩, fun _ _ => ?_⟩⟩
    · cases h.symm.trans hflag
    · change s.received.length + (tcpStateReceiveFin _ segment).recvBuffer.length = _
      rw [hfinBuffer]
      change (⟨tcpProcessAck (s.within env) segment, s.received⟩ : TcpReceiver).delivered = _
      omega
    · change (tcpStateReceiveFin _ segment).rcvNxt = _
      rw [hfinNxt, hpieces.rcvNxt, hdelivered, show s.delivered = stream.length by omega]
      rfl
    · rw [hstate]
      exact hfinState

/-- `rcv_nxt` behind a FIN. -/
theorem stepOverFin (hpeer : segment.PeerAt (irs + 1) stream pos) (hfin : segment.flags.fin) :
    BitVec.ofNat 32 (segment.seq.toNat + segment.length) - BitVec.ofNat 32 segment.headerSize + 1 =
      irs + 1 + BitVec.ofNat 32 stream.length + 1 := by
  have hlength : segment.length = segment.payload.length + segment.headerSize := by
    have hsize : segment.length = 20 + segment.body.length := rfl
    have hoff := hpeer.off
    have hheader := hpeer.header
    rw [TcpSegment.payload, List.length_drop]
    unfold TcpSegment.headerSize at *
    omega
  have hnum : BitVec.ofNat 32 (segment.seq.toNat + segment.length) -
      BitVec.ofNat 32 segment.headerSize = segment.seq + BitVec.ofNat 32
          segment.payload.length := by
    rw [hlength, ← Nat.add_assoc, BitVec.ofNat_add, BitVec.ofNat_add, BitVec.ofNat_toNat,
      BitVec.setWidth_eq, BitVec.add_sub_cancel]
  rw [hnum, hpeer.seq, seqAt_add, hpeer.fin hfin]
  rfl

/-- The end of `tcp_state_fin_wait_1`, behind a FIN. -/
theorem finWait1_leaves {u conn : TcpConn} (hfin : segment.flags.fin) (halive : conn.alive)
    (hrun : tcpHandleDataIn
      (if seqGte (tcpProcessAck u segment).sndUna (tcpProcessAck u segment).sndNxt
      then tcpSetState (tcpProcessAck u segment) .finWait2 else tcpProcessAck u segment) segment =
        some conn) :
    ∃ conn', tcpStateFinWait1 u segment = some conn' ∧
      (conn'.state = .closing ∨ conn'.state = .timeWait) ∧ conn'.recvBuffer = conn.recvBuffer ∧
      conn'.rcvNxt = BitVec.ofNat 32 (segment.seq.toNat + segment.length) -
        BitVec.ofNat 32 segment.headerSize + 1 := by
  have hsend := TcpConn.tcpSendAckFlags_sameReceive finAckFlags { conn with
    rcvNxt := BitVec.ofNat 32 (segment.seq.toNat + segment.length) -
      BitVec.ofNat 32 segment.headerSize + 1 }
  unfold tcpStateFinWait1
  dsimp only
  rw [hrun]
  dsimp only [Option.bind_eq_bind, Option.bind_some]
  rw [if_pos hfin]
  unfold ifAlive
  rw [if_pos halive]
  dsimp only
  split
  · exact ⟨_, rfl, Or.inr rfl, hsend.recvBuffer, hsend.rcvNxt⟩
  · exact ⟨_, rfl, Or.inl rfl, hsend.recvBuffer, hsend.rcvNxt⟩

theorem StreamInv.finWait1 (h : s.StreamInv irs stream) (halive : s.conn.alive)
    (hstate : s.conn.state = .finWait1) (hpeer : segment.PeerAt (irs + 1) stream pos)
    (halloc : (s.within env).Allocates segment) (hsafe : s.TakenSafely irs stream env segment)
    (hfin : segment.flags.fin → s.FinHandled stream segment pos) :
    ∃ conn, tcpStateFinWait1 (s.within env) segment = some conn ∧
      ((⟨conn, s.received⟩ : TcpReceiver).Open →
        (⟨conn, s.received⟩ : TcpReceiver).StreamInv irs stream) ∧
      s.ClosesInOrder irs stream ⟨conn, s.received⟩ segment pos := by
  have hack := s.processAck_receive env segment
  obtain ⟨henv, hackState, hackAlive⟩ := s.processAck_env env segment
  generalize hu : (if seqGte (tcpProcessAck (s.within env) segment).sndUna
      (tcpProcessAck (s.within env) segment).sndNxt
    then tcpSetState (tcpProcessAck (s.within env) segment) .finWait2
    else tcpProcessAck (s.within env) segment) = u
  have hureceive : s.conn.SameReceive u := by
    rw [← hu]
    split
    · exact hack.trans ⟨rfl, rfl, rfl, rfl, rfl, rfl⟩
    · exact hack
  have huenv : u.env = env := by
    rw [← hu]
    split <;> exact henv
  have hualive : u.alive := by
    rw [← hu]
    split <;> exact hackAlive.trans halive
  have hustate : u.state = .finWait1 ∨ u.state = .finWait2 := by
    rw [← hu]
    split
    · exact Or.inr rfl
    · exact Or.inl (hackState.trans hstate)
  obtain ⟨conn, hrun, hsame, hinv, hmono, hdeliver⟩ := h.takeIn hureceive huenv hpeer halloc hsafe
  cases hflag : segment.flags.fin with
  | false =>
    have hopen : (⟨conn, s.received⟩ : TcpReceiver).Open :=
      ⟨hsame.alive.trans hualive, Or.inr (hsame.state ▸ hustate)⟩
    refine ⟨conn, ?_, fun _ => hinv, ⟨fun _ => hopen, fun h => ?_, fun h => ?_⟩⟩
    · unfold tcpStateFinWait1
      dsimp only
      rw [hu, hrun, hflag]
      rfl
    · cases h.symm.trans hflag
    · cases h.symm.trans hflag
  | true =>
    obtain ⟨conn', hrun', hclosed, hbuffer, hnxt⟩ :=
      finWait1_leaves hflag (hsame.alive.trans hualive) (hu.symm ▸ hrun)
    have hall := hpeer.fin hflag
    have hdelivered : (⟨conn', s.received⟩ : TcpReceiver).delivered = stream.length := by
      have hle := hinv.delivered_le
      have hhandled := hfin hflag
      unfold FinHandled at hhandled
      rw [hstate] at hhandled
      change s.received.length + conn'.recvBuffer.length = _
      rw [hbuffer]
      change (⟨conn, s.received⟩ : TcpReceiver).delivered = _
      rcases hhandled with hdone | ⟨hpos, hfits, hbelow⟩
      · omega
      · have hgot := hdeliver hfits hbelow hpos
        rw [hpeer.payloadLen] at hgot
        omega
    refine ⟨conn', hrun', fun hopen => ?_,
      ⟨fun h => ?_, fun _ _ => ⟨hdelivered, ?_⟩, fun _ _ => ?_⟩⟩
    · obtain ⟨-, hopen⟩ := hopen
      rcases hclosed with hc | hc <;> rcases hopen with ho | ho | ho <;> cases hc.symm.trans ho
    · cases h.symm.trans hflag
    · exact hnxt.trans (stepOverFin hpeer hflag)
    · rw [hstate]
      exact hclosed

theorem StreamInv.finWait2 (h : s.StreamInv irs stream) (halive : s.conn.alive)
    (hstate : s.conn.state = .finWait2) (hpeer : segment.PeerAt (irs + 1) stream pos)
    (halloc : (s.within env).Allocates segment) (hsafe : s.TakenSafely irs stream env segment)
    (hfin : segment.flags.fin → s.FinHandled stream segment pos) :
    ∃ conn, tcpStateFinWait2 (s.within env) segment = some conn ∧
      ((⟨conn, s.received⟩ : TcpReceiver).Open →
        (⟨conn, s.received⟩ : TcpReceiver).StreamInv irs stream) ∧
      s.ClosesInOrder irs stream ⟨conn, s.received⟩ segment pos := by
  have hack := s.processAck_receive env segment
  obtain ⟨henv, hackState, hackAlive⟩ := s.processAck_env env segment
  obtain ⟨conn, hrun, hsame, hinv, -⟩ := h.takeIn hack henv hpeer halloc hsafe
  have hopen : (⟨conn, s.received⟩ : TcpReceiver).Open :=
    ⟨hsame.alive.trans (hackAlive.trans halive),
      Or.inr (Or.inr (hsame.state.trans (hackState.trans hstate)))⟩
  refine ⟨conn, hrun, fun _ => hinv,
    ⟨fun _ => hopen, fun _ h => absurd hopen h, fun hflag hpos => ?_⟩⟩
  have hhandled := hfin hflag
  unfold FinHandled at hhandled
  rw [hstate] at hhandled
  exact absurd hpos hhandled

theorem StreamInv.segmentCall (h : s.StreamInv irs stream) (hopen : s.Open)
    (hpeer : segment.PeerAt (irs + 1) stream pos)
    (hclose : s.ClosesSafely irs stream (.segment env segment options)) :
    ∃ t, s.peerCall (.segment env segment options) = some t ∧
      (t.Open → t.StreamInv irs stream) ∧ s.ClosesInOrder irs stream t segment pos := by
  obtain ⟨halloc, hsafe, hfin⟩ := hclose
  have hhandled := fun hflag => hfin hflag pos hpeer
  have hmachine : ∃ conn, tcpStateMachine (s.within env) segment options = some conn ∧
      ((⟨conn, s.received⟩ : TcpReceiver).Open →
        (⟨conn, s.received⟩ : TcpReceiver).StreamInv irs stream) ∧
      s.ClosesInOrder irs stream ⟨conn, s.received⟩ segment pos := by
    have hwithin : (s.within env).state = s.conn.state := rfl
    unfold tcpStateMachine
    obtain ⟨halive, hstate | hstate | hstate⟩ := hopen
    · rw [hwithin, hstate]
      exact h.established halive hstate hpeer halloc hsafe hhandled
    · rw [hwithin, hstate]
      exact h.finWait1 halive hstate hpeer halloc hsafe hhandled
    · rw [hwithin, hstate]
      exact h.finWait2 halive hstate hpeer halloc hsafe hhandled
  obtain ⟨conn, hrun, hinv, hcloses⟩ := hmachine
  exact ⟨_, peerCall_segment hrun, hinv, hcloses⟩

/-! ## Runs -/

/-- `tcp_close` leaves the receive side alone. -/
theorem tcpClose_sameReceive {u : TcpConn} (h : u.state ≠ .listen ∧ u.state ≠ .synSent) :
    u.SameReceive (tcpClose u) := by
  have hsend := TcpConn.tcpSendSegment_sameReceive u u.sndNxt finAckFlags []
  unfold tcpClose
  split
  · next hstate => exact absurd hstate h.1
  · next hstate => exact absurd hstate h.2
  · exact hsend.trans ⟨rfl, rfl, rfl, rfl, rfl, rfl⟩
  · exact hsend.trans ⟨rfl, rfl, rfl, rfl, rfl, rfl⟩
  · exact hsend.trans ⟨rfl, rfl, rfl, rfl, rfl, rfl⟩
  · exact TcpConn.SameReceive.refl u

theorem StreamInv.peerCall (h : s.Open → s.StreamInv irs stream) {c : PeerCall}
    (hfrom : s.FromPeer irs stream c) (hclose : s.ClosesSafely irs stream c) :
    ∃ t, s.peerCall c = some t ∧ (t.Open → t.StreamInv irs stream) := by
  cases c with
  | segment env segment options =>
    obtain ⟨hopen, pos, hpeer⟩ := hfrom
    obtain ⟨t, hcall, hinv, -⟩ := (h hopen).segmentCall hopen hpeer hclose
    exact ⟨t, hcall, hinv⟩
  | recv env maxlen =>
    obtain ⟨t, hcall, hinv⟩ : ∃ t, s.call (.recv env maxlen) = some t ∧ t.StreamInv irs stream :=
      (h hfrom).recv hclose
    exact ⟨t, hcall, fun _ => hinv⟩
  | close env =>
    have hstate : (s.within env).state ≠ .listen ∧ (s.within env).state ≠ .synSent := by
      change s.conn.state ≠ .listen ∧ s.conn.state ≠ .synSent
      obtain ⟨-, hstate | hstate | hstate⟩ := hfrom <;> rw [hstate] <;> decide
    refine ⟨_, rfl, fun _ => (h hfrom).same ?_⟩
    exact (s.sameReceive_within env).trans (tcpClose_sameReceive hstate)

def closeStart : TcpReceiver := ⟨establishedConn 0 100, []⟩

def finSegment (seq : BitVec 32) : TcpSegment := ⟨seq, 1, 5, finAckFlags, 65535, []⟩

/-- With an empty list the allocations for a segment in the window succeed, and nothing is
trimmed. -/
theorem closesSafely_of_empty {address : ℕ} (haddress : 0 < address) (hbound : address < 2 ^ 64)
    (hempty : s.conn.segmentList = 0) (hpeer : segment.PeerAt (irs + 1) stream pos)
    (hplain : segment.off = 5 ∨ segment.payload = []) (hpos : s.delivered ≤ pos)
    (hwindow : pos + segment.payloadLen ≤ s.delivered + tcpRecvWindow s.conn)
    (hfin : segment.flags.fin → ∀ pos, segment.PeerAt (irs + 1) stream pos →
      s.FinHandled stream segment pos) :
    s.ClosesSafely irs stream (.segment (envAt address) segment options) := by
  have hlen : segment.payloadLen < 2 ^ 31 := by
    have hsize : segment.length = 20 + segment.body.length := rfl
    have hlength := hpeer.bound
    rw [hpeer.payloadLen, TcpSegment.payload, List.length_drop]
    omega
  refine ⟨TcpConn.allocates_of_empty hempty hlen (envAt_ne_zero haddress) hbound,
    fun _ => ⟨hplain, ⟨pos, hpeer, hpos, hwindow⟩, ?_⟩, hfin⟩
  rintro ⟨xs, x, hqueue, hx, -⟩
  rw [hqueue.eq_nil hempty] at hx
  cases hx

def noOptions : TcpOptions := ⟨0, 0, false⟩

/-- Two bytes arrive. -/
def closeData : TcpReceiver :=
  Run.next peerCall closeStart (.segment (envAt 4096) (dataSegment 0 101 [7, 8]) noOptions)

def closeRead : TcpReceiver := Run.next peerCall closeData (.recv (envAt 8192) 1)

def closeClosed : TcpReceiver := Run.next peerCall closeRead (.close (envAt 8192))

/-- The last byte arrives in FIN_WAIT_1. -/
def closeAll : TcpReceiver :=
  Run.next peerCall closeClosed (.segment (envAt 8192) (dataSegment 0 103 [9]) noOptions)

/-- A FIN with four bytes of options. -/
def optionsFin : TcpSegment := ⟨104, 1, 6, finAckFlags, 65535, [1, 1, 1, 0]⟩

end TcpReceiver

end RetroRocket
