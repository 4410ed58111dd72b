import RetroRocket.TcpHeader

/-!
# The bytes of a TCP segment

`tcp_send_segment` as it builds a segment in memory, and the part of `tcp_handle_packet` that reads
one. The fields of `tcp_segment_t` lie in memory with their least significant byte first, and they
are put in the order of the network by `tcp_byte_order_out`. `bits1` and `bits2` of
`tcp_segment_flags_t` are members of a union, so that both are its first byte.
-/

namespace RetroRocket

/-! ## Byte order -/

/-- Byte `i` of a value in memory. -/
def byteOf {w : ℕ} (x : BitVec w) (i : ℕ) : Byte := x.extractLsb' (8 * i) 8

/-- `flip_short`, which is `htons` and `ntohs`. -/
def flipShort (x : BitVec 16) : BitVec 16 := byteOf x 0 ++ byteOf x 1

/-- `flip_long`, which is `htonl` and `ntohl`. -/
def flipLong (x : BitVec 32) : BitVec 32 := byteOf x 0 ++ byteOf x 1 ++ byteOf x 2 ++ byteOf x 3

def memory16 (x : BitVec 16) : List Byte := [byteOf x 0, byteOf x 1]

def memory32 (x : BitVec 32) : List Byte := [byteOf x 0, byteOf x 1, byteOf x 2, byteOf x 3]

@[simp] theorem length_memory16 (x : BitVec 16) : (memory16 x).length = 2 := rfl

@[simp] theorem length_memory32 (x : BitVec 32) : (memory32 x).length = 4 := rfl

theorem append_byteOf (x : BitVec 16) : byteOf x 1 ++ byteOf x 0 = x := by
  ext i hi
  simp [byteOf]
  grind

theorem append_byteOf_long (x : BitVec 32) :
    byteOf x 3 ++ byteOf x 2 ++ byteOf x 1 ++ byteOf x 0 = x := by
  ext i hi
  simp [byteOf]
  grind

theorem byteOf_flipShort (x : BitVec 16) :
    byteOf (flipShort x) 0 = byteOf x 1 ∧ byteOf (flipShort x) 1 = byteOf x 0 := by
  unfold flipShort
  generalize byteOf x 0 = a
  generalize byteOf x 1 = b
  constructor <;> (ext i hi; simp [byteOf]; try grind)

theorem byteOf_flipLong (x : BitVec 32) :
    byteOf (flipLong x) 0 = byteOf x 3 ∧ byteOf (flipLong x) 1 = byteOf x 2 ∧
      byteOf (flipLong x) 2 = byteOf x 1 ∧ byteOf (flipLong x) 3 = byteOf x 0 := by
  unfold flipLong
  generalize byteOf x 0 = a
  generalize byteOf x 1 = b
  generalize byteOf x 2 = c
  generalize byteOf x 3 = d
  refine ⟨?_, ?_, ?_, ?_⟩ <;> (ext i hi; simp [byteOf]; try grind)

@[simp] theorem flipShort_flipShort (x : BitVec 16) : flipShort (flipShort x) = x := by
  rw [flipShort, (byteOf_flipShort x).1, (byteOf_flipShort x).2, append_byteOf]

@[simp] theorem flipLong_flipLong (x : BitVec 32) : flipLong (flipLong x) = x := by
  obtain ⟨h0, h1, h2, h3⟩ := byteOf_flipLong x
  rw [flipLong, h0, h1, h2, h3, append_byteOf_long]

/-! ## The segment in memory -/

/-- `tcp_segment_flags_t`. -/
structure SegmentFlags where
  reserved : BitVec 4
  off : BitVec 4
  fin : Bool
  syn : Bool
  rst : Bool
  psh : Bool
  ack : Bool
  urg : Bool
  ece : Bool
  cwr : Bool

namespace SegmentFlags

/-- `bits1` and `bits2`, which are the same byte. -/
def bits (flags : SegmentFlags) : Byte := flags.off ++ flags.reserved

def setBits (flags : SegmentFlags) (value : Byte) : SegmentFlags :=
  { flags with reserved := value.extractLsb' 0 4, off := value.extractLsb' 4 4 }

def control (flags : SegmentFlags) : Byte :=
  BitVec.ofBoolListLE [flags.fin, flags.syn, flags.rst, flags.psh, flags.ack, flags.urg, flags.ece,
    flags.cwr]

def memory (flags : SegmentFlags) : List Byte := [flags.bits, flags.control]

def ofBytes (first second : Byte) : SegmentFlags where
  reserved := first.extractLsb' 0 4
  off := first.extractLsb' 4 4
  fin := second.getLsbD 0
  syn := second.getLsbD 1
  rst := second.getLsbD 2
  psh := second.getLsbD 3
  ack := second.getLsbD 4
  urg := second.getLsbD 5
  ece := second.getLsbD 6
  cwr := second.getLsbD 7

theorem extract_append (off reserved : BitVec 4) :
    (off ++ reserved : Byte).extractLsb' 0 4 = reserved ∧
      (off ++ reserved : Byte).extractLsb' 4 4 = off := by
  constructor <;> (ext i hi; simp; try grind)

theorem getLsbD_ofBoolListLE (b0 b1 b2 b3 b4 b5 b6 b7 : Bool) :
    let x := BitVec.ofBoolListLE [b0, b1, b2, b3, b4, b5, b6, b7]
    x.getLsbD 0 = b0 ∧ x.getLsbD 1 = b1 ∧ x.getLsbD 2 = b2 ∧ x.getLsbD 3 = b3 ∧
      x.getLsbD 4 = b4 ∧ x.getLsbD 5 = b5 ∧ x.getLsbD 6 = b6 ∧ x.getLsbD 7 = b7 := by
  revert b0 b1 b2 b3 b4 b5 b6 b7
  decide

@[simp] theorem setBits_bits (flags : SegmentFlags) : flags.setBits flags.bits = flags := by
  obtain ⟨hlow, hhigh⟩ := extract_append flags.off flags.reserved
  rw [setBits, bits, hlow, hhigh]

@[simp] theorem ofBytes_memory (flags : SegmentFlags) :
    ofBytes flags.bits flags.control = flags := by
  obtain ⟨hlow, hhigh⟩ := extract_append flags.off flags.reserved
  obtain ⟨h0, h1, h2, h3, h4, h5, h6, h7⟩ := getLsbD_ofBoolListLE flags.fin flags.syn flags.rst
    flags.psh flags.ack flags.urg flags.ece flags.cwr
  rw [ofBytes, bits, control, hlow, hhigh, h0, h1, h2, h3, h4, h5, h6, h7]

end SegmentFlags

/-- `tcp_segment_t`, and in `body` the memory behind its 20 bytes. -/
structure WireSegment where
  srcPort : BitVec 16
  dstPort : BitVec 16
  seq : BitVec 32
  ack : BitVec 32
  flags : SegmentFlags
  windowSize : BitVec 16
  checksum : BitVec 16
  urgent : BitVec 16
  body : List Byte

namespace WireSegment

def memory (segment : WireSegment) : List Byte :=
  memory16 segment.srcPort ++ memory16 segment.dstPort ++ memory32 segment.seq ++
    memory32 segment.ack ++ segment.flags.memory ++ memory16 segment.windowSize ++
    memory16 segment.checksum ++ memory16 segment.urgent ++ segment.body

def ofMemory : List Byte → Option WireSegment
  | s0 :: s1 :: d0 :: d1 :: q0 :: q1 :: q2 :: q3 :: a0 :: a1 :: a2 :: a3 :: f0 :: f1 ::
      w0 :: w1 :: c0 :: c1 :: u0 :: u1 :: body =>
    some
      { srcPort := s1 ++ s0
        dstPort := d1 ++ d0
        seq := q3 ++ q2 ++ q1 ++ q0
        ack := a3 ++ a2 ++ a1 ++ a0
        flags := .ofBytes f0 f1
        windowSize := w1 ++ w0
        checksum := c1 ++ c0
        urgent := u1 ++ u0
        body := body }
  | _ => none

theorem ofMemory_memory (segment : WireSegment) : ofMemory segment.memory = some segment := by
  simp only [memory, memory16, memory32, SegmentFlags.memory, List.cons_append, List.nil_append,
    ofMemory, append_byteOf, append_byteOf_long, SegmentFlags.ofBytes_memory]

theorem length_memory (segment : WireSegment) :
    segment.memory.length = 20 + segment.body.length := by
  simp only [memory, SegmentFlags.memory, List.length_append, length_memory16, length_memory32,
    List.length_cons, List.length_nil]

def toTcpSegment (segment : WireSegment) : TcpSegment where
  seq := segment.seq
  ack := segment.ack
  off := segment.flags.off.toNat
  flags := ⟨segment.flags.fin, segment.flags.syn, segment.flags.rst, segment.flags.psh,
    segment.flags.ack⟩
  windowSize := segment.windowSize.toNat
  body := segment.body

/-- `tcp_byte_order_in`. -/
def byteOrderIn (segment : WireSegment) : WireSegment :=
  { segment with
    srcPort := flipShort segment.srcPort
    dstPort := flipShort segment.dstPort
    seq := flipLong segment.seq
    ack := flipLong segment.ack
    windowSize := flipShort segment.windowSize
    checksum := flipShort segment.checksum
    urgent := flipShort segment.urgent }

/-- `tcp_byte_order_out`. The exchange of `bits1` and `bits2` is one of a byte with itself. -/
def byteOrderOut (segment : WireSegment) : WireSegment :=
  let tmp := segment.flags.bits
  let flags := segment.flags.setBits segment.flags.bits
  let flags := flags.setBits tmp
  { segment.byteOrderIn with flags := flags }

end WireSegment

/-! ## The checksum -/

/-- The loop of `tcp_calculate_checksum` over the words of its array. An odd byte at the end has a
zero behind it. -/
def sumWords : BitVec 32 → List Byte → BitVec 32
  | sum, low :: high :: rest => sumWords (sum + (flipShort (high ++ low)).setWidth 32) rest
  | sum, [low] => sum + (flipShort (0#8 ++ low)).setWidth 32
  | sum, [] => sum

/-- The pseudo header of a segment of `len` bytes. -/
def pseudoHeader (src dst : BitVec 32) (len : ℕ) : List Byte :=
  memory32 src ++ memory32 dst ++ [0, 6] ++ memory16 (flipShort (BitVec.ofNat 16 len))

/-- `tcp_calculate_checksum`, with the addresses as the packet has them. -/
def tcpCalculateChecksum (src dst : BitVec 32) (segment : WireSegment) (len : ℕ) : BitVec 16 :=
  let body := ({ segment with checksum := 0 } : WireSegment).memory.take len
  let sum := sumWords 0 (pseudoHeader src dst len ++ body)
  let sum := (sum &&& 0xffff) + (sum >>> 16)
  let sum := sum + (sum >>> 16)
  (~~~ sum).setWidth 16

/-! ## Sending -/

/-- A connection with its addresses. `rcv_wscale` is a byte. -/
structure TcpEndpoint where
  conn : TcpConn
  localAddr : BitVec 32
  remoteAddr : BitVec 32
  localPort : BitVec 16
  remotePort : BitVec 16
  wscale_lt : conn.rcvWscale < 2 ^ 8

/-- A bit of the flags that `tcp_send_segment` is called with. -/
def hasFlag (flags mask : Byte) : Bool := flags &&& mask != 0

/-- `TCP_FIN` to `TCP_CWR`. -/
def tcpFin : Byte := 1
def tcpSyn : Byte := 2
def tcpRst : Byte := 4
def tcpPsh : Byte := 8
def tcpAck : Byte := 16
def tcpUrg : Byte := 32
def tcpEce : Byte := 64
def tcpCwr : Byte := 128

/-- The options that `tcp_send_segment` chooses. -/
def sendOptions (rcvWscale : ℕ) (flags : Byte) : TcpOptions :=
  if hasFlag flags tcpSyn then
    if 0 < rcvWscale then ⟨1460, rcvWscale, true⟩ else ⟨1460, 0, false⟩
  else ⟨0, 0, false⟩

def tcpOptionsLen (opt : TcpOptions) : ℕ :=
  (if opt.mss ≠ 0 then 4 else 0) + if opt.windowScalePresent then 4 else 0

/-- `tcp_build_options`. -/
def buildOptions (opt : TcpOptions) : List Byte :=
  (if opt.mss ≠ 0 then
      [2, 4, BitVec.ofNat 8 (opt.mss >>> 8), BitVec.ofNat 8 (opt.mss &&& 0xff)]
    else []) ++
    if opt.windowScalePresent then [1, 3, 3, BitVec.ofNat 8 opt.windowScale] else []

/-- The flags of a segment with options of `optLen` bytes. -/
def sendFlags (flags : Byte) (optLen : ℕ) : SegmentFlags where
  reserved := 0
  off := BitVec.ofNat 4 (5 + optLen / 4)
  fin := hasFlag flags tcpFin
  syn := hasFlag flags tcpSyn
  rst := hasFlag flags tcpRst
  psh := hasFlag flags tcpPsh
  ack := hasFlag flags tcpAck
  urg := hasFlag flags tcpUrg
  ece := hasFlag flags tcpEce
  cwr := hasFlag flags tcpCwr

/-- The bytes that `tcp_send_segment` hands to `ip_send_packet`. -/
def sendBytes (e : TcpEndpoint) (seq : BitVec 32) (flags : Byte) (data : List Byte) : List Byte :=
  let options := sendOptions e.conn.rcvWscale flags
  let optLen := if hasFlag flags tcpSyn then tcpOptionsLen options else 0
  let length := u16 (20 + data.length + optLen)
  let packet : WireSegment :=
    { srcPort := e.localPort
      dstPort := e.remotePort
      seq := seq
      ack := if hasFlag flags tcpAck then e.conn.rcvNxt else 0
      flags := sendFlags flags optLen
      windowSize := BitVec.ofNat 16 (tcpRecvWindow e.conn)
      checksum := 0
      urgent := 0
      body := [] }
  let packet := packet.byteOrderOut
  let packet := { packet with body := (if 0 < optLen then buildOptions options else []) ++ data }
  let checksum := tcpCalculateChecksum e.localAddr e.remoteAddr packet length
  ({ packet with checksum := flipShort checksum } : WireSegment).memory.take length

/-! ## Receiving -/

/-- What `tcp_handle_packet` makes of a packet before it looks for the connection. -/
structure ReceivedPacket where
  segment : WireSegment
  options : TcpOptions
  checksumOk : Bool

/-- The beginning of `tcp_handle_packet`. -/
def receiveBytes (src dst : BitVec 32) (bytes : List Byte) : Option ReceivedPacket := do
  let segment ← WireSegment.ofMemory bytes
  let ourChecksum := tcpCalculateChecksum src dst segment bytes.length
  let segment := segment.byteOrderIn
  let (options, _) ← tcpParseOptions segment.toTcpSegment
  some ⟨segment, options, ourChecksum == segment.checksum⟩

end RetroRocket
