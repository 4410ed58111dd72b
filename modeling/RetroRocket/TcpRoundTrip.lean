import RetroRocket.TcpAcks
import RetroRocket.TcpWire

/-!
# A TCP segment is read as it was sent

The bytes that `tcp_send_segment` builds pass the test of the checksum, and `tcp_byte_order_in` and
`tcp_parse_options` find in them what went in.
-/

namespace RetroRocket

structure ReadsBack (e : TcpEndpoint) (seq : BitVec 32) (flags : Byte) (data : List Byte)
    (p : ReceivedPacket) : Prop where
  checksumOk : p.checksumOk = true
  srcPort : p.segment.srcPort = e.localPort
  dstPort : p.segment.dstPort = e.remotePort
  seq : p.segment.seq = seq
  ack : p.segment.ack = if hasFlag flags tcpAck then e.conn.rcvNxt else 0
  control : p.segment.flags.control = flags
  windowSize : p.segment.windowSize.toNat = tcpRecvWindow e.conn
  options : p.options = sendOptions e.conn.rcvWscale flags
  payload : p.segment.toTcpSegment.payload = data

/-! ## Fields -/

theorem sendFlags_control (flags : Byte) (optLen : ℕ) :
    (sendFlags flags optLen).control = flags := by
  have hall : ∀ flags : Byte, BitVec.ofBoolListLE [hasFlag flags tcpFin, hasFlag flags tcpSyn,
      hasFlag flags tcpRst, hasFlag flags tcpPsh, hasFlag flags tcpAck, hasFlag flags tcpUrg,
      hasFlag flags tcpEce, hasFlag flags tcpCwr] = flags := by decide +kernel
  exact hall flags

theorem tcpRecvWindow_lt (s : TcpConn) : tcpRecvWindow s < 2 ^ 16 := by
  unfold tcpRecvWindow
  split
  · decide
  · dsimp only
    omega

namespace WireSegment

theorem byteOrderOut_eq (segment : WireSegment) : segment.byteOrderOut = segment.byteOrderIn := by
  simp [byteOrderOut, byteOrderIn]

@[simp] theorem byteOrderIn_byteOrderIn (segment : WireSegment) :
    segment.byteOrderIn.byteOrderIn = segment := by
  simp [byteOrderIn]

end WireSegment

/-! ## Options -/

theorem tcpOptionsLen_sendOptions (rcvWscale : ℕ) (flags : Byte) :
    tcpOptionsLen (sendOptions rcvWscale flags) =
      if hasFlag flags tcpSyn then if 0 < rcvWscale then 8 else 4 else 0 := by
  unfold sendOptions
  split
  · split <;> rfl
  · rfl

theorem length_buildOptions (opt : TcpOptions) : (buildOptions opt).length = tcpOptionsLen opt := by
  unfold buildOptions tcpOptionsLen
  split <;> split <;> rfl

theorem parseOptions_buildOptions {rcvWscale : ℕ} (hscale : rcvWscale < 2 ^ 8) (flags : Byte)
    (data : List Byte) : ∃ count,
      parseOptionsLoop (tcpOptionsLen (sendOptions rcvWscale flags))
        (tcpOptionsLen (sendOptions rcvWscale flags))
        (buildOptions (sendOptions rcvWscale flags) ++ data) (⟨0, 0, false⟩, 0) =
          some (sendOptions rcvWscale flags, count) := by
  unfold sendOptions
  by_cases hsyn : hasFlag flags tcpSyn = true
  · rw [if_pos hsyn]
    by_cases hpos : 0 < rcvWscale
    · rw [if_pos hpos]
      refine ⟨2, ?_⟩
      simp [tcpOptionsLen, buildOptions, parseOptionsLoop, readOption, tcpOptEnd, tcpOptNop,
        tcpOptMss, tcpOptWindowScale]
      omega
    · rw [if_neg hpos]
      exact ⟨1, rfl⟩
  · rw [if_neg hsyn]
    exact ⟨0, rfl⟩

theorem tcpOptionsLen_le (rcvWscale : ℕ) (flags : Byte) :
    tcpOptionsLen (sendOptions rcvWscale flags) ≤ 8 ∧
      4 ∣ tcpOptionsLen (sendOptions rcvWscale flags) := by
  rw [tcpOptionsLen_sendOptions]
  split
  · split <;> decide
  · decide

/-! ## The segment that is sent -/

def sentSegment (e : TcpEndpoint) (seq : BitVec 32) (flags : Byte) (data : List Byte) :
    WireSegment :=
  let options := sendOptions e.conn.rcvWscale flags
  { srcPort := e.localPort
    dstPort := e.remotePort
    seq := seq
    ack := if hasFlag flags tcpAck then e.conn.rcvNxt else 0
    flags := sendFlags flags (tcpOptionsLen options)
    windowSize := BitVec.ofNat 16 (tcpRecvWindow e.conn)
    checksum := 0
    urgent := 0
    body := buildOptions options ++ data }

def sentChecksum (e : TcpEndpoint) (seq : BitVec 32) (flags : Byte) (data : List Byte) :
    BitVec 16 :=
  let packet := (sentSegment e seq flags data).byteOrderIn
  tcpCalculateChecksum e.localAddr e.remoteAddr packet packet.memory.length

theorem length_sentSegment (e : TcpEndpoint) (seq : BitVec 32) (flags : Byte) (data : List Byte) :
    (sentSegment e seq flags data).body.length =
      tcpOptionsLen (sendOptions e.conn.rcvWscale flags) + data.length := by
  rw [sentSegment, List.length_append, length_buildOptions]

theorem headerSize_sentSegment (e : TcpEndpoint) (seq : BitVec 32) (flags : Byte)
    (data : List Byte) : (sentSegment e seq flags data).toTcpSegment.headerSize =
      20 + tcpOptionsLen (sendOptions e.conn.rcvWscale flags) := by
  obtain ⟨hle, hdvd⟩ := tcpOptionsLen_le e.conn.rcvWscale flags
  simp only [TcpSegment.headerSize, WireSegment.toTcpSegment, sentSegment, sendFlags,
    BitVec.toNat_ofNat]
  omega

theorem tcpCalculateChecksum_checksum (src dst : BitVec 32) (segment : WireSegment)
    (checksum : BitVec 16) (len : ℕ) :
    tcpCalculateChecksum src dst { segment with checksum := checksum } len =
      tcpCalculateChecksum src dst segment len := rfl

theorem sendBytes_eq {e : TcpEndpoint} {seq : BitVec 32} {flags : Byte} {data : List Byte}
    (hlen : 20 + data.length + tcpOptionsLen (sendOptions e.conn.rcvWscale flags) < 2 ^ 16) :
    sendBytes e seq flags data =
      ({ (sentSegment e seq flags data).byteOrderIn with
          checksum := flipShort (sentChecksum e seq flags data) } : WireSegment).memory := by
  have hoptLen : (if hasFlag flags tcpSyn then
      tcpOptionsLen (sendOptions e.conn.rcvWscale flags) else 0) =
      tcpOptionsLen (sendOptions e.conn.rcvWscale flags) := by
    rw [tcpOptionsLen_sendOptions]
    split <;> rfl
  have hbuilt : (if 0 < tcpOptionsLen (sendOptions e.conn.rcvWscale flags) then
      buildOptions (sendOptions e.conn.rcvWscale flags) else []) =
      buildOptions (sendOptions e.conn.rcvWscale flags) := by
    split
    · rfl
    · rename_i hzero
      symm
      rw [← List.length_eq_zero_iff, length_buildOptions]
      omega
  have hlength : (sentSegment e seq flags data).byteOrderIn.memory.length =
      20 + data.length + tcpOptionsLen (sendOptions e.conn.rcvWscale flags) := by
    rw [WireSegment.length_memory, WireSegment.byteOrderIn, length_sentSegment]
    omega
  unfold sendBytes
  dsimp only
  rw [hoptLen, hbuilt, u16_of_lt (by omega), WireSegment.byteOrderOut_eq, ← hlength]
  apply List.take_of_length_le
  rw [WireSegment.length_memory, WireSegment.length_memory]
  exact le_rfl

theorem receiveBytes_sendBytes {e : TcpEndpoint} {seq : BitVec 32} {flags : Byte}
    {data : List Byte}
    (hlen : 20 + data.length + tcpOptionsLen (sendOptions e.conn.rcvWscale flags) < 2 ^ 16) :
    receiveBytes e.localAddr e.remoteAddr (sendBytes e seq flags data) =
      some ⟨{ sentSegment e seq flags data with checksum := sentChecksum e seq flags data },
        sendOptions e.conn.rcvWscale flags, true⟩ := by
  obtain ⟨count, hparse⟩ := parseOptions_buildOptions e.wscale_lt flags data
  have hoptions : tcpParseOptions ({ sentSegment e seq flags data with
      checksum := sentChecksum e seq flags data } : WireSegment).toTcpSegment =
      some (sendOptions e.conn.rcvWscale flags, count) := by
    have hleft := headerSize_sentSegment e seq flags data
    rw [tcpParseOptions]
    change parseOptionsLoop ((sentSegment e seq flags data).toTcpSegment.headerSize - 20)
      ((sentSegment e seq flags data).toTcpSegment.headerSize - 20) _ _ = _
    rw [hleft, Nat.add_sub_cancel_left]
    exact hparse
  have hread : ({ (sentSegment e seq flags data).byteOrderIn with
      checksum := flipShort (sentChecksum e seq flags data) } : WireSegment).byteOrderIn =
      { sentSegment e seq flags data with checksum := sentChecksum e seq flags data } := by
    simp [WireSegment.byteOrderIn]
  have hsum : tcpCalculateChecksum e.localAddr e.remoteAddr
      { (sentSegment e seq flags data).byteOrderIn with
        checksum := flipShort (sentChecksum e seq flags data) }
      (sentSegment e seq flags data).byteOrderIn.memory.length =
      sentChecksum e seq flags data :=
    tcpCalculateChecksum_checksum e.localAddr e.remoteAddr _ _ _
  rw [sendBytes_eq hlen, receiveBytes, WireSegment.ofMemory_memory, Option.bind_eq_bind,
    Option.bind_some]
  dsimp only
  rw [hread, hoptions, WireSegment.length_memory]
  rw [WireSegment.length_memory] at hsum
  simp only [Option.bind_eq_bind, Option.bind_some, hsum, BEq.rfl]

/-- The segment that the model of a connection puts on the wire. -/
theorem tcpSendSegment_wire (e : TcpEndpoint) (seq : BitVec 32) (flags : Byte) (data : List Byte) :
    (tcpSendSegment e.conn seq ⟨hasFlag flags tcpFin, hasFlag flags tcpSyn, hasFlag flags tcpRst,
      hasFlag flags tcpPsh, hasFlag flags tcpAck⟩ data).wire =
      e.conn.wire ++ [(sentSegment e seq flags data).toTcpSegment] := by
  have hbuilt : (if hasFlag flags tcpSyn then tcpBuildOptions e.conn.rcvWscale else []) =
      buildOptions (sendOptions e.conn.rcvWscale flags) := by
    rw [sendOptions]
    split
    · rw [tcpBuildOptions]
      split <;> simp [buildOptions]
    · rfl
  have hoff : 5 + tcpOptionsLen (sendOptions e.conn.rcvWscale flags) / 4 =
      (sendFlags flags (tcpOptionsLen (sendOptions e.conn.rcvWscale flags))).off.toNat := by
    obtain ⟨hle, -⟩ := tcpOptionsLen_le e.conn.rcvWscale flags
    simp only [sendFlags, BitVec.toNat_ofNat]
    omega
  have hwindow : tcpRecvWindow e.conn = (BitVec.ofNat 16 (tcpRecvWindow e.conn)).toNat := by
    rw [BitVec.toNat_ofNat, Nat.mod_eq_of_lt (tcpRecvWindow_lt e.conn)]
  simp only [tcpSendSegment, TcpConn.tcpRetxEnqueue_wire, hbuilt, length_buildOptions, hoff]
  conv =>
    lhs
    rw [hwindow]
  rfl

/-- The bytes that `tcp_send_segment` builds are accepted, and the segment that is read from them is
the one that the model of a connection puts on its wire. -/
theorem receiveBytes_wire (e : TcpEndpoint) (seq : BitVec 32) (flags : Byte) (data : List Byte)
    (hlen : 20 + data.length + tcpOptionsLen (sendOptions e.conn.rcvWscale flags) < 2 ^ 16) :
    ∃ p, receiveBytes e.localAddr e.remoteAddr (sendBytes e seq flags data) = some p ∧
      p.checksumOk = true ∧
      (tcpSendSegment e.conn seq ⟨hasFlag flags tcpFin, hasFlag flags tcpSyn, hasFlag flags tcpRst,
        hasFlag flags tcpPsh, hasFlag flags tcpAck⟩ data).wire =
          e.conn.wire ++ [p.segment.toTcpSegment] := by
  refine ⟨_, receiveBytes_sendBytes hlen, rfl, ?_⟩
  rw [tcpSendSegment_wire]
  rfl

/-- What `tcp_send_segment` builds is accepted, and yields what it was built from. -/
theorem sendBytes_readsBack (e : TcpEndpoint) (seq : BitVec 32) (flags : Byte) (data : List Byte)
    (hlen : 20 + data.length + tcpOptionsLen (sendOptions e.conn.rcvWscale flags) < 2 ^ 16) :
    ∃ p, receiveBytes e.localAddr e.remoteAddr (sendBytes e seq flags data) = some p ∧
      ReadsBack e seq flags data p := by
  refine ⟨_, receiveBytes_sendBytes hlen, ?_⟩
  have hwindow := tcpRecvWindow_lt e.conn
  exact
    { checksumOk := rfl
      srcPort := rfl
      dstPort := rfl
      seq := rfl
      ack := rfl
      control := sendFlags_control flags _
      windowSize := by
        simp only [sentSegment, BitVec.toNat_ofNat]
        exact Nat.mod_eq_of_lt hwindow
      options := rfl
      payload := by
        have hsize := headerSize_sentSegment e seq flags data
        change (buildOptions (sendOptions e.conn.rcvWscale flags) ++ data).drop
          ((sentSegment e seq flags data).toTcpSegment.headerSize - 20) = data
        rw [hsize, Nat.add_sub_cancel_left]
        exact List.drop_left' (length_buildOptions _) }

def answeringEndpoint : TcpEndpoint where
  conn := { establishedConn 0 100 with rcvWscale := 2 }
  localAddr := 0x0a000001
  remoteAddr := 0x0a000002
  localPort := 80
  remotePort := 40000
  wscale_lt := by decide

theorem receiveBytes_wire_synAck :
    ∃ p, receiveBytes 0x0a000001 0x0a000002
      (sendBytes answeringEndpoint 1 0x12 [1, 2, 3]) = some p ∧
      p.checksumOk = true ∧
      (tcpSendSegment answeringEndpoint.conn 1 synAckFlags [1, 2, 3]).wire =
        answeringEndpoint.conn.wire ++ [p.segment.toTcpSegment] :=
  receiveBytes_wire answeringEndpoint 1 0x12 [1, 2, 3] (by decide)

theorem sendBytes_readsBack_synAck :
    ∃ p, receiveBytes 0x0a000001 0x0a000002
      (sendBytes answeringEndpoint 1 0x12 [1, 2, 3]) = some p ∧
      ReadsBack answeringEndpoint 1 0x12 [1, 2, 3] p :=
  sendBytes_readsBack answeringEndpoint 1 0x12 [1, 2, 3] (by decide)

end RetroRocket
