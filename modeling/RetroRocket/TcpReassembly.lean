import RetroRocket.Tcp

/-!
# Reassembly of the TCP receive stream

The functions of `tcp.c` on the list of segments that came out of order. Sums of a sequence number
and a length are 64-bit numbers that are cut to 32 bits where they are compared.
-/

namespace RetroRocket

/-- `tcp_free` on a connection without pending children. -/
def tcpFree (s : TcpConn) : TcpConn :=
  { s with segmentList := 0, retx := [], alive := false }

namespace OrderedNode

def finish (node : OrderedNode) : ℕ := u64 (node.seq.toNat + node.len)

end OrderedNode

/-- The search of `tcp_ord_list_insert` for the first node that does not start below `seq`. -/
def findInsertionPoint (nodes : ℕ → OrderedNode) (seq : BitVec 32) : ℕ → ℕ → Option ℕ
  | 0, _ => none
  | fuel + 1, cur =>
    if cur ≠ 0 ∧ seqLt (nodes cur).seq seq then findInsertionPoint nodes seq fuel (nodes cur).next
    else some cur

def duplicatesPrev (s : TcpConn) (cur : ℕ) (seq : BitVec 32) (len : ℕ) : Prop :=
  cur ≠ 0 ∧ (s.nodes cur).prev ≠ 0 ∧ seq = (s.nodes (s.nodes cur).prev).seq ∧
    len = (s.nodes (s.nodes cur).prev).len

instance (s : TcpConn) (cur : ℕ) (seq : BitVec 32) (len : ℕ) :
    Decidable (duplicatesPrev s cur seq len) := by
  unfold duplicatesPrev
  infer_instance

def shrinkPrev (s : TcpConn) (cur : ℕ) (seq : BitVec 32) : TcpConn :=
  if cur = 0 then s
  else
    let prev := (s.nodes cur).prev
    let node := s.nodes prev
    if prev ≠ 0 ∧ seqGt (BitVec.ofNat 32 node.finish) seq then
      s.setNode prev { node with len := (seq - node.seq).toNat }
    else s

def unlinkNode (s : TcpConn) (cur : ℕ) : TcpConn :=
  let node := s.nodes cur
  let s := if node.prev ≠ 0 then s.setNext node.prev node.next else s
  let s := if node.next ≠ 0 then s.setPrev node.next node.prev else s
  if s.segmentList = cur then { s with segmentList := node.next } else s

def removeCovered (newEnd : ℕ) : ℕ → ℕ → TcpConn → Option (TcpConn × ℕ)
  | 0, _, _ => none
  | fuel + 1, cur, s =>
    if cur = 0 then some (s, 0)
    else if seqGte (BitVec.ofNat 32 newEnd) (BitVec.ofNat 32 (s.nodes cur).finish) then
      removeCovered newEnd fuel (s.nodes cur).next (unlinkNode s cur)
    else some (s, cur)

/-- `memmove(payload, payload + overlap, count)` in a segment copy. -/
def moveForward (body : List Byte) (overlap count : ℕ) : List Byte :=
  (body.drop overlap).take count ++ body.drop count

/-- The node behind the new segment gives up its front. An overlap that is larger than the node
moves a block of nearly 2 ^ 64 bytes. -/
def trimFront (s : TcpConn) (cur newEnd : ℕ) : Option TcpConn :=
  let node := s.nodes cur
  if cur ≠ 0 ∧ seqGt (BitVec.ofNat 32 newEnd) node.seq then
    let overlap := sub64 newEnd node.seq.toNat
    if node.len < overlap ∨ node.body.length < node.len then none
    else
      some (s.setNode cur { node with
        seq := node.seq + BitVec.ofNat 32 overlap
        len := node.len - overlap
        body := moveForward node.body overlap (node.len - overlap) })
  else some s

def lastNode (nodes : ℕ → OrderedNode) : ℕ → ℕ → Option ℕ
  | 0, _ => none
  | fuel + 1, tail =>
    if (nodes tail).next ≠ 0 then lastNode nodes fuel (nodes tail).next else some tail

/-- The new node is linked in before `cur`, or at the end of the list. -/
def linkNode (s : TcpConn) (new cur : ℕ) (node : OrderedNode) : Option TcpConn :=
  if cur ≠ 0 then
    let prev := (s.nodes cur).prev
    let s := s.setNode new { node with prev := prev, next := cur }
    let s := s.setPrev cur new
    if prev ≠ 0 then some (s.setNext prev new)
    else some { s with segmentList := new }
  else if s.segmentList ≠ 0 then do
    let tail ← lastNode s.nodes (2 ^ 64) s.segmentList
    let s := s.setNode new { node with prev := tail, next := 0 }
    some (s.setNext tail new)
  else some { s.setNode new { node with prev := 0, next := 0 } with segmentList := new }

/-- The part of `tcp_ord_list_insert` before the allocation: the overlaps are cut away. -/
def makeRoom (s : TcpConn) (cur : ℕ) (seq : BitVec 32) (len : ℕ) : Option (TcpConn × ℕ) := do
  let newEnd := u64 (seq.toNat + len)
  let (s, cur) ← removeCovered newEnd (2 ^ 64) cur (shrinkPrev s cur seq)
  let s ← trimFront s cur newEnd
  some (s, cur)

def tcpOrdListInsert (s : TcpConn) (segment : TcpSegment) (len : ℕ) : Option TcpConn := do
  let cur ← findInsertionPoint s.nodes segment.seq (2 ^ 64) s.segmentList
  if duplicatesPrev s cur segment.seq len then some s
  else
    let (s, cur) ← makeRoom s cur segment.seq len
    let (new, s) := s.kmalloc
    if new = 0 then some s
    else
      let (copy, s) := s.kmalloc
      if copy = 0 then some s
      else linkNode s new cur ⟨segment.seq, segment.off, segment.body, len, 0, 0⟩

def nodePayload (node : OrderedNode) : ℕ × ℕ :=
  if 5 < node.off then
    let optionsLen := (node.off - 5) * 4
    if optionsLen < node.len then (optionsLen, node.len - optionsLen) else (0, 0)
  else (0, node.len)

def tcpProcessQueue : ℕ → TcpConn → Option TcpConn
  | 0, _ => none
  | fuel + 1, s =>
    let cur := s.segmentList
    let node := s.nodes cur
    let start := (nodePayload node).1
    let payloadLen := (nodePayload node).2
    if cur = 0 ∨ s.rcvNxt ≠ node.seq then some s
    else if 0 < payloadLen ∧ 196608 < u64 (s.recvBuffer.length + payloadLen) then some s
    else
      let s := { s with rcvNxt := s.rcvNxt + BitVec.ofNat 32 payloadLen }
      if payloadLen = 0 then tcpProcessQueue fuel (unlinkNode s cur)
      else
        let (buffer, s) := s.kmalloc
        if buffer = 0 then some s
        else if node.body.length < start + payloadLen then none
        else
          let s := { s with recvBuffer := s.recvBuffer ++ (node.body.drop start).take payloadLen }
          tcpProcessQueue fuel (unlinkNode s cur)

def tcpHandleDataIn (s : TcpConn) (segment : TcpSegment) : Option TcpConn :=
  let payloadLen := segment.payloadLen
  let rcvWnd := tcpRecvWindow s
  let segmentEnd := BitVec.ofNat 32 (segment.seq.toNat + payloadLen)
  if 0 < payloadLen ∧ seqLte segmentEnd s.rcvNxt then some (tcpSendAck s)
  else if ¬ (seqLte s.rcvNxt segment.seq ∧
    seqLte segmentEnd (s.rcvNxt + BitVec.ofNat 32 rcvWnd)) then
    if segment.flags.rst then some s else some (tcpSendAck s)
  else if segment.flags.rst then some (tcpFree s)
  else do
    let s ← tcpOrdListInsert s segment payloadLen
    let s ← tcpProcessQueue (2 ^ 64) s
    some (tcpSendAck s)

end RetroRocket
