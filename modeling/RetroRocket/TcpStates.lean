import RetroRocket.TcpReceive

/-!
# The states of a TCP connection

The handlers of `tcp.c` for a segment in each state, with the calls that open, write to and close a
connection and the idle task. What a handler does to a connection after `tcp_free` has removed it is
an access to memory that is no longer its own, and so the result is `none`. The options of a segment
come as `tcp_parse_options` returns them.
-/

namespace RetroRocket

def tcpSetState (s : TcpConn) (state : TcpState) : TcpConn := { s with state := state }

def tcpSetConnMslTime (s : TcpConn) : TcpConn :=
  { s with mslTime := BitVec.ofNat 32 (s.env.time + 12000) }

def ifAlive (s : TcpConn) (f : TcpConn → Option TcpConn) : Option TcpConn :=
  if s.alive then f s else none

/-! ## Opening -/

/-- A connection as `memset` leaves it, with the initial sequence number and no data. -/
def emptyConn (env : TcpEnv) (state : TcpState) : TcpConn where
  state := state
  iss := env.isn
  sndUna := env.isn
  sndNxt := env.isn
  irs := 0
  rcvNxt := 0
  rcvLst := 0
  recvBuffer := []
  sendBuffer := []
  segmentList := 0
  nodes := fun _ => ⟨0, 0, [], 0, 0, 0⟩
  retx := []
  peerMss := 1460
  lastDupAck := 0
  dupAckCount := 0
  rcvWscale := tcpDefaultWindowScale
  windowScaling := false
  mslTime := 0
  alive := true
  env := env
  wire := []

/-- `tcp_connect`, when a port, room in the connection table and a descriptor are found. -/
def tcpConnect (env : TcpEnv) : TcpConn :=
  let s := { emptyConn env .synSent with sndNxt := env.isn + 1 }
  tcpSendSegment s s.sndNxt synFlags []

/-- `tcp_state_listen`: the connection made for an incoming SYN. Where the listener queues it and
there is no memory for the entry of the queue, nothing is sent. -/
def tcpStateListen (env : TcpEnv) (queued : Bool) (segment : TcpSegment) (options : TcpOptions) :
    Option TcpConn :=
  if segment.flags.syn = false ∨ segment.flags.ack ∨ segment.flags.fin ∨ segment.flags.rst then none
  else
    let child := { emptyConn env .synReceived with
      peerMss := if options.mss ≠ 0 then options.mss else 1460
      windowScaling := options.windowScalePresent && decide (0 < tcpDefaultWindowScale)
      irs := segment.seq
      rcvNxt := segment.seq + 1 }
    if queued then
      let (pending, child) := child.kmalloc
      if pending = 0 then some child
      else some (tcpSendSegment child child.sndNxt synAckFlags [])
    else some (tcpSendSegment child child.sndNxt synAckFlags [])

def tcpStateSynSent (s : TcpConn) (segment : TcpSegment) (options : TcpOptions) : TcpConn :=
  if segment.flags.ack ∧ ¬ (seqGt segment.ack s.iss ∧ seqLte segment.ack (s.sndNxt + 1)) then
    if segment.flags.rst then s else tcpSendSegment s segment.ack rstFlags []
  else if segment.flags.rst then s
  else if segment.flags.syn then
    let s := { s with
      peerMss := if options.mss ≠ 0 then options.mss else s.peerMss
      windowScaling := (options.windowScalePresent && decide (0 < s.rcvWscale)) || s.windowScaling
      irs := segment.seq
      rcvNxt := segment.seq + 1 }
    if segment.flags.ack then
      tcpSendAck (tcpSetState { s with sndUna := segment.ack } .established)
    else
      let s := { tcpSetState s .synReceived with sndNxt := s.sndNxt - 1 }
      tcpSendSegment s s.sndNxt synAckFlags []
  else s

/-! ## Closing -/

def tcpStateReceiveFin (s : TcpConn) (segment : TcpSegment) : TcpConn :=
  let s := if segment.seq = s.rcvNxt then { s with rcvNxt := s.rcvNxt + 1 } else s
  let s := tcpSendAck s
  match s.state with
  | .synReceived | .established => tcpSetState s .closeWait
  | .finWait1 =>
    if seqGte segment.ack s.sndNxt then tcpSetConnMslTime (tcpSetState s .timeWait)
    else tcpSetState s .closing
  | .finWait2 => tcpSetConnMslTime (tcpSetState s .timeWait)
  | .timeWait => tcpSetConnMslTime s
  | _ => s

def tcpClose (s : TcpConn) : TcpConn :=
  match s.state with
  | .listen | .synSent => tcpFree s
  | .synReceived | .established => tcpSetState (tcpSendSegment s s.sndNxt finAckFlags []) .finWait1
  | .closeWait => tcpSetState (tcpSendSegment s s.sndNxt finAckFlags []) .lastAck
  | _ => s

/-! ## Segments -/

def tcpStateSynReceived (s : TcpConn) (segment : TcpSegment) : Option TcpConn :=
  if segment.flags.fin then some (tcpStateReceiveFin s segment)
  else if segment.flags.rst then some (tcpFree s)
  else if segment.flags.ack then
    if seqGt segment.ack s.iss ∧ seqLte segment.ack (s.sndNxt + 1) then
      let s := tcpSetState (tcpRetxAcknowledge s segment.ack) .established
      if segment.headerSize < segment.length then tcpHandleDataIn s segment
      else some (tcpSendAck s)
    else some (tcpSendSegment s segment.ack rstFlags [])
  else some s

def tcpStateEstablished (s : TcpConn) (segment : TcpSegment) : Option TcpConn := do
  let s := tcpProcessAck s segment
  let s ← if segment.headerSize < segment.length then tcpHandleDataIn s segment else some s
  if segment.flags.fin then ifAlive s fun s => some (tcpStateReceiveFin s segment)
  else some s

def tcpStateFinWait1 (s : TcpConn) (segment : TcpSegment) : Option TcpConn := do
  let s := tcpProcessAck s segment
  let s := if seqGte s.sndUna s.sndNxt then tcpSetState s .finWait2 else s
  let s ← tcpHandleDataIn s segment
  if segment.flags.fin then
    ifAlive s fun s =>
      -- step over FIN
      let s := { s with
        rcvNxt := BitVec.ofNat 32 (segment.seq.toNat + segment.length) -
          BitVec.ofNat 32 segment.headerSize + 1 }
      let s := tcpSendFinAck s
      if segment.flags.ack ∧ seqLte s.sndUna segment.ack ∧ seqLte segment.ack s.sndNxt then
        some (tcpSetState s .timeWait)
      else some (tcpSetState s .closing)
  else some s

def tcpStateFinWait2 (s : TcpConn) (segment : TcpSegment) : Option TcpConn :=
  tcpHandleDataIn (tcpProcessAck s segment) segment

def tcpStateCloseWait (s : TcpConn) (segment : TcpSegment) : TcpConn :=
  let s := tcpProcessAck s segment
  tcpSetState (tcpSendSegment s s.sndNxt finAckFlags []) .lastAck

def tcpStateClosing (s : TcpConn) (segment : TcpSegment) : TcpConn :=
  let s := tcpProcessAck s segment
  if seqGte s.sndUna s.sndNxt then tcpSetConnMslTime (tcpSetState s .timeWait) else s

def tcpStateLastAck (s : TcpConn) (segment : TcpSegment) : TcpConn :=
  let s := tcpProcessAck s segment
  if seqGte s.sndUna s.sndNxt then tcpFree s else s

def tcpStateTimeWait (s : TcpConn) (segment : TcpSegment) : TcpConn :=
  if segment.flags.fin then tcpStateReceiveFin s segment else s

/-- `tcp_state_machine`. In LISTEN a new connection is made (`tcpStateListen`), and the listener
stays as it is. -/
def tcpStateMachine (s : TcpConn) (segment : TcpSegment) (options : TcpOptions) : Option TcpConn :=
  match s.state with
  | .listen => some s
  | .synSent => some (tcpStateSynSent s segment options)
  | .synReceived => tcpStateSynReceived s segment
  | .established => tcpStateEstablished s segment
  | .finWait1 => tcpStateFinWait1 s segment
  | .finWait2 => tcpStateFinWait2 s segment
  | .closeWait => some (tcpStateCloseWait s segment)
  | .closing => some (tcpStateClosing s segment)
  | .lastAck => some (tcpStateLastAck s segment)
  | .timeWait => some (tcpStateTimeWait s segment)

/-! ## Sending -/

/-- `tcp_write`. A packet whose length does not fit in 16 bits is built in a buffer of the length
modulo 2 ^ 16. -/
def tcpWrite (s : TcpConn) (data : List Byte) : Option TcpConn :=
  if 65535 < data.length then some s
  else if s.state ≠ .established then some s
  else if 2 ^ 16 ≤ 20 + data.length then none
  else some (tcpSendSegment s s.sndNxt pshAckFlags data)

/-- The retransmission timer of `tcp_idle`, for one connection. -/
def tcpRetxTimer (s : TcpConn) : TcpConn :=
  match s.retx with
  | [] => s
  | entry :: _ =>
    if entry.rtoMs ≤ sub64 s.env.ticks entry.sentAt then
      if 5 ≤ entry.retries then tcpFree s else tcpRetxResendHead s
    else s

/-- The part of `tcp_idle` that sends buffered data. -/
def tcpDrainSendBuffer (s : TcpConn) : Option TcpConn :=
  if s.sendBuffer = [] then some s
  else do
    let maxSegment := if s.peerMss ≠ 0 then s.peerMss else 1460
    let amountToSend :=
      if maxSegment < s.sendBuffer.length then maxSegment else s.sendBuffer.length
    let s ← tcpWrite s (s.sendBuffer.take amountToSend)
    if s.sendBuffer.length ≤ amountToSend then some { s with sendBuffer := [] }
    else
      let (newBuf, s) := s.kmalloc
      if newBuf ≠ 0 then some { s with sendBuffer := s.sendBuffer.drop amountToSend }
      else some s

/-- `tcp_idle`, for one connection. -/
def tcpIdle (s : TcpConn) : Option TcpConn :=
  let s := tcpRetxTimer s
  if s.alive = false then some s
  else if s.state = .established then tcpDrainSendBuffer s
  else if s.state = .timeWait ∧ seqGte s.env.isn s.mslTime then some (tcpFree s)
  else some s

/-- `send` on a valid socket, with its result. -/
def send (s : TcpConn) (buffer : List Byte) : Option (Bool × TcpConn) :=
  let (newBuffer, s) := s.kmalloc
  if newBuffer = 0 then some (false, s)
  else do
    let s ← tcpIdle { s with sendBuffer := s.sendBuffer ++ buffer }
    some (true, s)

end RetroRocket
