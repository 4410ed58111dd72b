import RetroRocket.Bits
import RetroRocket.SequenceNumber

/-!
# A TCP connection

The connection record of `tcp.c` with its send side, its retransmission queue and its reassembly
list. The nodes of the list are in memory at addresses, a null pointer is address 0. What a call
gets from its surroundings is `env`: the results of the allocations in it, in order, where 0 is a
failure, and the clocks. `wire` holds the packets handed to `ip_send_packet`. Locks, close codes,
ports and the send window, which nothing reads, are left out. A call whose memory accesses are out
of bounds, or that does not return, is `none`.
-/

namespace RetroRocket

inductive TcpState where
  | listen
  | synSent
  | synReceived
  | established
  | finWait1
  | finWait2
  | closeWait
  | closing
  | lastAck
  | timeWait
  deriving DecidableEq

structure TcpFlags where
  fin : Bool
  syn : Bool
  rst : Bool
  psh : Bool
  ack : Bool
  deriving DecidableEq

/-- A segment: the header, and in `body` what follows its 20 bytes, options and payload. -/
structure TcpSegment where
  seq : BitVec 32
  ack : BitVec 32
  off : ℕ
  flags : TcpFlags
  windowSize : ℕ
  body : List Byte
  deriving DecidableEq

namespace TcpSegment

/-- The `len` that comes with a segment. -/
def length (segment : TcpSegment) : ℕ := 20 + segment.body.length

/-- `tcp_header_size`. -/
def headerSize (segment : TcpSegment) : ℕ := segment.off * 4

def payloadLen (segment : TcpSegment) : ℕ := sub64 segment.length segment.headerSize

def payload (segment : TcpSegment) : List Byte := segment.body.drop (segment.headerSize - 20)

end TcpSegment

/-- `tcp_options_t`. -/
structure TcpOptions where
  mss : ℕ
  windowScale : ℕ
  windowScalePresent : Bool

/-- `tcp_ordered_list_t`, with the copy of the segment it owns. -/
structure OrderedNode where
  seq : BitVec 32
  off : ℕ
  body : List Byte
  len : ℕ
  prev : ℕ
  next : ℕ

/-- `tcp_retx_entry_t`. -/
structure RetxEntry where
  seq : BitVec 32
  endSeq : BitVec 32
  sentAt : ℕ
  rtoMs : ℕ
  retries : ℕ
  segmentCopy : TcpSegment

structure TcpEnv where
  memory : ℕ → ℕ
  ticks : ℕ
  time : ℕ
  isn : BitVec 32

/-- `tcp_conn_t`. A connection that `tcp_free` has removed is not `alive`. -/
structure TcpConn where
  state : TcpState
  iss : BitVec 32
  sndUna : BitVec 32
  sndNxt : BitVec 32
  irs : BitVec 32
  rcvNxt : BitVec 32
  rcvLst : BitVec 32
  recvBuffer : List Byte
  sendBuffer : List Byte
  segmentList : ℕ
  nodes : ℕ → OrderedNode
  retx : List RetxEntry
  peerMss : ℕ
  lastDupAck : BitVec 32
  dupAckCount : ℕ
  rcvWscale : ℕ
  windowScaling : Bool
  mslTime : BitVec 32
  alive : Bool
  env : TcpEnv
  wire : List TcpSegment

namespace TcpConn

def setNode (s : TcpConn) (a : ℕ) (node : OrderedNode) : TcpConn :=
  { s with nodes := Function.update s.nodes a node }

/-- `a->prev = b`. -/
def setPrev (s : TcpConn) (a b : ℕ) : TcpConn := s.setNode a { s.nodes a with prev := b }

/-- `a->next = b`. -/
def setNext (s : TcpConn) (a b : ℕ) : TcpConn := s.setNode a { s.nodes a with next := b }

def kmalloc (s : TcpConn) : ℕ × TcpConn :=
  (s.env.memory 0, { s with env := { s.env with memory := fun n => s.env.memory (n + 1) } })

end TcpConn

def tcpDefaultWindowScale : ℕ :=
  ((List.range 14).find? fun scale => 16384 >>> scale ≤ 65535).getD 14

def tcpRecvWindow (s : TcpConn) : ℕ :=
  if 16384 ≤ s.recvBuffer.length then 0
  else
    let maxWindow := if s.windowScaling then (65535 <<< s.rcvWscale) % 2 ^ 32 else 65535
    let space := min (16384 - s.recvBuffer.length) maxWindow
    let space := if s.windowScaling ∧ 0 < s.rcvWscale then space >>> s.rcvWscale else space
    min space 65535

/-! ## Sending -/

def tcpSegmentEndSeq (seq : BitVec 32) (flags : TcpFlags) (count : ℕ) : BitVec 32 :=
  seq + BitVec.ofNat 32 count + (if flags.syn then 1 else 0) + (if flags.fin then 1 else 0)

def tcpRetxEnqueue (s : TcpConn) (seq : BitVec 32) (segment : TcpSegment) (count : ℕ) : TcpConn :=
  if count = 0 ∧ segment.flags.syn = false ∧ segment.flags.fin = false then s
  else
    let (entry, s) := s.kmalloc
    if entry = 0 then s
    else
      let (copy, s) := s.kmalloc
      if copy = 0 then s
      else
        { s with retx := s.retx ++ [{
            seq := seq
            endSeq := tcpSegmentEndSeq seq segment.flags count
            sentAt := s.env.ticks
            rtoMs := 1000
            retries := 0
            segmentCopy := segment }] }

/-- `tcp_build_options` for the options of a SYN. -/
def tcpBuildOptions (rcvWscale : ℕ) : List Byte :=
  [2, 4, 0x05, 0xb4] ++ if 0 < rcvWscale then [1, 3, 3, BitVec.ofNat 8 rcvWscale] else []

/-- `tcp_send_segment`, for a packet that fits in the 16 bits of its length. -/
def tcpSendSegment (s : TcpConn) (seq : BitVec 32) (flags : TcpFlags) (data : List Byte) :
    TcpConn :=
  let options := if flags.syn then tcpBuildOptions s.rcvWscale else []
  let packet : TcpSegment :=
    { seq := seq
      ack := if flags.ack then s.rcvNxt else 0
      off := 5 + options.length / 4
      flags := flags
      windowSize := tcpRecvWindow s
      body := options ++ data }
  let s := tcpRetxEnqueue s seq packet data.length
  { s with
    wire := s.wire ++ [packet]
    sndNxt := s.sndNxt + BitVec.ofNat 32 data.length + if flags.syn ∨ flags.fin then 1 else 0 }

def ackFlags : TcpFlags := ⟨false, false, false, false, true⟩

def synFlags : TcpFlags := ⟨false, true, false, false, false⟩

def synAckFlags : TcpFlags := ⟨false, true, false, false, true⟩

def finAckFlags : TcpFlags := ⟨true, false, false, false, true⟩

def pshAckFlags : TcpFlags := ⟨false, false, false, true, true⟩

def rstFlags : TcpFlags := ⟨false, false, true, false, false⟩

/-- `tcp_send_ack` and `tcp_send_fin_ack`: an ACK for the same number is not sent twice. -/
def tcpSendAckFlags (flags : TcpFlags) (s : TcpConn) : TcpConn :=
  if s.rcvNxt = s.rcvLst then s
  else tcpSendSegment { s with rcvLst := s.rcvNxt } s.sndNxt flags []

def tcpSendAck : TcpConn → TcpConn := tcpSendAckFlags ackFlags

def tcpSendFinAck : TcpConn → TcpConn := tcpSendAckFlags finAckFlags

def tcpRetxAcknowledge (s : TcpConn) (ack : BitVec 32) : TcpConn :=
  if seqGt ack s.sndUna then
    { s with
      sndUna := ack
      lastDupAck := 0
      dupAckCount := 0
      retx := s.retx.dropWhile fun entry => seqGte ack entry.endSeq }
  else s

def tcpRetxResendHead (s : TcpConn) : TcpConn :=
  match s.retx with
  | [] => s
  | entry :: rest =>
    { s with
      wire := s.wire ++ [entry.segmentCopy]
      retx := { entry with
        sentAt := s.env.ticks
        rtoMs := if entry.rtoMs < 8000 then min (entry.rtoMs * 2) 8000 else entry.rtoMs
        retries := if entry.retries < 255 then entry.retries + 1 else entry.retries } :: rest }

/-- The part of `tcp_process_ack` that counts duplicates of the last ACK. -/
def tcpDuplicateAck (s : TcpConn) (segment : TcpSegment) : TcpConn :=
  if segment.ack ≠ s.sndUna ∨ segment.length ≠ segment.headerSize then s
  else if segment.flags.syn ∨ segment.flags.fin ∨ segment.flags.rst then s
  else
    match s.retx with
    | [] => s
    | entry :: _ =>
      if ¬ seqLt segment.ack entry.endSeq then s
      else if s.lastDupAck ≠ segment.ack then
        { s with lastDupAck := segment.ack, dupAckCount := 1 }
      else
        let s := { s with
          dupAckCount := if s.dupAckCount < 255 then s.dupAckCount + 1 else s.dupAckCount }
        if s.dupAckCount = 3 then tcpRetxResendHead s else s

def tcpProcessAck (s : TcpConn) (segment : TcpSegment) : TcpConn :=
  if segment.flags.ack = false then s
  else if seqGt segment.ack s.sndUna ∧ seqLte segment.ack s.sndNxt then
    tcpRetxAcknowledge s segment.ack
  else tcpDuplicateAck s segment

end RetroRocket
