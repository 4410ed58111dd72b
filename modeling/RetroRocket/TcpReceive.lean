import RetroRocket.Run
import RetroRocket.TcpPieces

/-!
# The receive side of a connection

A receiver is a connection together with the bytes that `recv` has handed out so far. Segments may
arrive in any order; `recv` may be called with any size at any time. Position 0 of the stream has
the sequence number `irs + 1`.
-/

namespace RetroRocket

/-- `recv` on a valid socket, with what it copies to the caller. A blocking call that finds the
buffer empty waits or gives up, and takes nothing. -/
def recv (s : TcpConn) (maxlen : ℕ) : List Byte × TcpConn :=
  if s.recvBuffer = [] then ([], s)
  else
    let amountToRecv := if maxlen < s.recvBuffer.length then maxlen else s.recvBuffer.length
    let buffer := s.recvBuffer.take amountToRecv
    if s.recvBuffer.length - amountToRecv = 0 then (buffer, { s with recvBuffer := [] })
    else
      let (newBuf, s) := s.kmalloc
      if newBuf ≠ 0 then (buffer, { s with recvBuffer := s.recvBuffer.drop amountToRecv })
      else (buffer, s)

namespace TcpConn

variable {s t : TcpConn} {base : BitVec 32} {ps : List Piece} {segment : TcpSegment}
    {w next pos : ℕ}

structure SameReceive (s t : TcpConn) : Prop where
  nodes : t.nodes = s.nodes
  segmentList : t.segmentList = s.segmentList
  rcvNxt : t.rcvNxt = s.rcvNxt
  recvBuffer : t.recvBuffer = s.recvBuffer
  windowScaling : t.windowScaling = s.windowScaling
  rcvWscale : t.rcvWscale = s.rcvWscale

theorem SameReceive.refl (s : TcpConn) : s.SameReceive s := ⟨rfl, rfl, rfl, rfl, rfl, rfl⟩

theorem SameReceive.trans {u : TcpConn} (h : s.SameReceive t) (h' : t.SameReceive u) :
    s.SameReceive u where
  nodes := h'.nodes.trans h.nodes
  segmentList := h'.segmentList.trans h.segmentList
  rcvNxt := h'.rcvNxt.trans h.rcvNxt
  recvBuffer := h'.recvBuffer.trans h.recvBuffer
  windowScaling := h'.windowScaling.trans h.windowScaling
  rcvWscale := h'.rcvWscale.trans h.rcvWscale

theorem SameReceive.symm (h : s.SameReceive t) : t.SameReceive s :=
  ⟨h.nodes.symm, h.segmentList.symm, h.rcvNxt.symm, h.recvBuffer.symm, h.windowScaling.symm,
    h.rcvWscale.symm⟩

theorem SameReceive.holds (h : s.SameReceive t) (hs : s.Holds base ps) : t.Holds base ps :=
  hs.same h.nodes h.segmentList

theorem tcpRetxEnqueue_sameReceive (s : TcpConn) (seq : BitVec 32)
    (segment : TcpSegment) (count : ℕ) :
    s.SameReceive (tcpRetxEnqueue s seq segment count) := by
  unfold tcpRetxEnqueue kmalloc
  dsimp only
  split
  · exact SameReceive.refl s
  · split
    · exact ⟨rfl, rfl, rfl, rfl, rfl, rfl⟩
    · split <;> exact ⟨rfl, rfl, rfl, rfl, rfl, rfl⟩

theorem tcpSendSegment_sameReceive (s : TcpConn) (seq : BitVec 32) (flags : TcpFlags)
    (data : List Byte) : s.SameReceive (tcpSendSegment s seq flags data) := by
  have hretx := tcpRetxEnqueue_sameReceive s seq
    { seq := seq
      ack := if flags.ack then s.rcvNxt else 0
      off := 5 + (if flags.syn then tcpBuildOptions s.rcvWscale else []).length / 4
      flags := flags
      windowSize := tcpRecvWindow s
      body := (if flags.syn then tcpBuildOptions s.rcvWscale else []) ++ data } data.length
  exact hretx.trans ⟨rfl, rfl, rfl, rfl, rfl, rfl⟩

theorem tcpSendAckFlags_sameReceive (flags : TcpFlags) (s : TcpConn) :
    s.SameReceive (tcpSendAckFlags flags s) := by
  unfold tcpSendAckFlags
  split
  · exact SameReceive.refl s
  · refine SameReceive.trans ?_
      (tcpSendSegment_sameReceive { s with rcvLst := s.rcvNxt } _ flags [])
    exact ⟨rfl, rfl, rfl, rfl, rfl, rfl⟩

theorem tcpRecvWindow_le (s : TcpConn) : tcpRecvWindow s ≤ 16384 - s.recvBuffer.length := by
  unfold tcpRecvWindow
  split
  · exact Nat.zero_le _
  · dsimp only
    have hshift : ∀ n k : ℕ, n >>> k ≤ n := fun n k => by
      rw [Nat.shiftRight_eq_div_pow]
      exact Nat.div_le_self _ _
    refine (Nat.min_le_left _ _).trans ?_
    split
    · exact (hshift _ _).trans (Nat.min_le_left _ _)
    · exact Nat.min_le_left _ _

/-- The two tests of `tcp_handle_data_in` that let a segment through to the list. -/
def Accepts (s : TcpConn) (segment : TcpSegment) : Prop :=
  let segmentEnd := BitVec.ofNat 32 (segment.seq.toNat + segment.payloadLen)
  ¬ (0 < segment.payloadLen ∧ seqLte segmentEnd s.rcvNxt) ∧
    seqLte s.rcvNxt segment.seq ∧ seqLte segmentEnd (s.rcvNxt + BitVec.ofNat 32 (tcpRecvWindow s))

theorem accepts_of_window (hnxt : s.rcvNxt = seqAt base next) (hseq : segment.seq = seqAt base pos)
    (hpos : next ≤ pos) (hwindow : pos + segment.payloadLen ≤ next + tcpRecvWindow s) :
    s.Accepts segment := by
  have hroom := tcpRecvWindow_le s
  have hend : BitVec.ofNat 32 (segment.seq.toNat + segment.payloadLen) =
      seqAt base (pos + segment.payloadLen) := by
    rw [← ofNat_u64, hseq, ofNat_seqAt_add]
  unfold Accepts
  dsimp only
  rw [hend, hnxt, hseq, seqAt_add, seqLte_seqAt (by omega) (by omega),
    seqLte_seqAt (by omega) (by omega), seqLte_seqAt (by omega) (by omega)]
  omega

theorem Accepts.reset (h : s.Accepts segment) (hrst : segment.flags.rst = true) :
    tcpHandleDataIn s segment = some (tcpFree s) := by
  unfold tcpHandleDataIn
  dsimp only
  rw [if_neg h.1, if_neg (not_not.mpr h.2), if_pos hrst]

/-- What the reassembly invariants say of the pieces in the list: they reach at most `w` over each
other and below the position that is next, and up to the end of the receive window. -/
structure Pieces (s : TcpConn) (base : BitVec 32) (w next : ℕ) (ps : List Piece) : Prop where
  holds : s.Holds base ps
  rcvNxt : s.rcvNxt = seqAt base next
  apart : Apart w ps
  ahead : Ahead w next ps
  window : ∀ p ∈ ps, p.finish + s.recvBuffer.length ≤ next + 16384
  body : ∀ p ∈ ps, p.len ≤ p.body.length
  buffer : s.recvBuffer.length ≤ 16384

theorem pieces_nil (s : TcpConn) (hempty : s.segmentList = 0)
    (hbuffer : s.recvBuffer.length ≤ 16384) : s.Pieces s.rcvNxt w 0 [] := by
  refine ⟨⟨[], ⟨⟨0, rfl, hempty⟩, List.nodup_nil, by simp⟩, rfl⟩, ?_, List.Pairwise.nil,
    by simp [Ahead], by simp, by simp, hbuffer⟩
  exact (seqAt_zero _).symm

/-- No entry of the list starts below `rcv_nxt`. -/
def NoneBelow (s : TcpConn) : Prop := ∀ xs, s.Queue xs → ∀ x ∈ xs, seqLte s.rcvNxt (s.nodes x).seq

theorem Pieces.le_start (h : s.Pieces base w next ps) (hw : w ≤ 16384) (hbelow : s.NoneBelow) :
    ∀ p ∈ ps, next ≤ p.start := by
  intro p hp
  obtain ⟨xs, hqueue, hmap⟩ := h.holds
  have hmem := List.mem_map_of_mem (f := Piece.chunk base) hp
  rw [← hmap, List.mem_map] at hmem
  obtain ⟨x, hx, hchunk⟩ := hmem
  have hle := hbelow xs hqueue x hx
  have hahead := h.ahead p hp
  have hwindow := h.window p hp
  unfold Piece.finish at hwindow
  rw [h.rcvNxt, seq_of_chunk hchunk, seqLte_seqAt (by omega) (by omega)] at hle
  exact hle

def piece (segment : TcpSegment) (pos : ℕ) : Piece :=
  ⟨pos, segment.off, segment.body, segment.payloadLen⟩

theorem Pieces.near (h : s.Pieces base w next ps) (hw : w ≤ 16384) : Near (next - 16384) ps := by
  intro p hp
  have hahead := h.ahead p hp
  have hwindow := h.window p hp
  omega

theorem Pieces.insert_window (h : s.Pieces base w next ps)
    (hwindow : pos + segment.payloadLen ≤ next + tcpRecvWindow s) :
    ∀ p ∈ insertPiece ps (piece segment pos), p.finish + s.recvBuffer.length ≤ next + 16384 := by
  have hroom := tcpRecvWindow_le s
  have hbuffer := h.buffer
  refine insertPiece_forall h.window ?_ (fun p hp hlt => ?_) fun p hp hlt => ?_
  · change pos + segment.payloadLen + s.recvBuffer.length ≤ next + 16384
    omega
  · rw [Piece.cutBack_finish hlt]
    omega
  · rw [Piece.cutFront_finish hlt]
    exact hp

theorem Pieces.accept (h : s.Pieces base w next ps) (hw : w ≤ 16384) (haccept : s.Accepts segment)
    (hrst : segment.flags.rst = false) (hseq : segment.seq = seqAt base pos) (hpos : next ≤ pos)
    (hwindow : pos + segment.payloadLen ≤ next + tcpRecvWindow s)
    (hbody : segment.payloadLen ≤ segment.body.length) (halloc : s.Allocates segment)
    (hwrap : ¬ s.TrimsAcrossWrap segment.seq segment.payloadLen)
    (htail : (∀ p ∈ ps, p.start < pos) → ∀ p ∈ ps.getLast?, p.finish ≤ pos + w) :
    ∃ t, tcpHandleDataIn s segment = some t ∧
      t.Pieces base w (drainPieces (insertPiece ps (piece segment pos)) next s.recvBuffer).2.1
        (drainPieces (insertPiece ps (piece segment pos)) next s.recvBuffer).1 ∧
      t.recvBuffer = (drainPieces (insertPiece ps (piece segment pos)) next s.recvBuffer).2.2 := by
  have hroom := tcpRecvWindow_le s
  have hbuffer := h.buffer
  have hnear := h.near hw
  obtain ⟨t, hinsert, honly, hholds, hmem⟩ := tcpOrdListInsert_holds (piece segment pos) h.holds
    hnear (show next - 16384 ≤ pos by omega)
    (show pos + segment.payloadLen < next - 16384 +
      2 ^ 31 by omega) hseq rfl rfl rfl h.body halloc hwrap
  have hapart : Apart w (insertPiece ps (piece segment pos)) := h.apart.insertPiece htail
  have hahead : Ahead w next (insertPiece ps (piece segment pos)) :=
    h.ahead.insertPiece (Nat.le_add_right_of_le hpos)
  have hinwindow := h.insert_window hwindow
  have hbodies : ∀ p ∈ insertPiece ps (piece segment pos), p.len ≤ p.body.length :=
    insertPiece_forall h.body hbody (fun p hp _ => Piece.cutBack_len_le hp _)
      fun p hp hlt => Piece.cutFront_len_le hp hlt
  have hbuf : t.recvBuffer = s.recvBuffer := by rw [honly]
  have hnxt : t.rcvNxt = seqAt base next := by
    rw [honly]
    exact h.rcvNxt
  obtain ⟨xs, hqueue, hmap⟩ := hholds
  have hlength := hqueue.length_lt
  have hcount := congrArg List.length hmap
  rw [List.length_map, List.length_map] at hcount
  obtain ⟨u, hprocess, honlyu, hholdsu, hnxtu, hbufu⟩ :=
    tcpProcessQueue_holds ⟨xs, hqueue, hmap⟩ hnxt
    hapart hahead (by omega) (fun p hp => by have := hinwindow p hp; omega) hbodies
    (by rw [hbuf]; omega) hmem (hcount ▸ hlength)
  rw [hbuf] at hholdsu hnxtu hbufu
  have hack := tcpSendAckFlags_sameReceive ackFlags u
  have hwin := drainPieces_window hinwindow hbuffer
  refine ⟨tcpSendAck u, ?_, ⟨hack.holds hholdsu, hack.rcvNxt.trans hnxtu, ?_, ?_, ?_, ?_, ?_⟩,
    hack.recvBuffer.trans hbufu⟩
  · unfold tcpHandleDataIn
    dsimp only
    rw [if_neg haccept.1, if_neg (not_not.mpr haccept.2), hrst, hinsert]
    dsimp only [Option.bind_eq_bind, Option.bind_some]
    rw [hprocess]
    rfl
  · exact List.Pairwise.sublist (drainPieces_isSuffix _ _ _).sublist hapart
  · exact hahead.drainPieces hapart
  · intro p hp
    have hrecv : (tcpSendAck u).recvBuffer = _ := hack.recvBuffer.trans hbufu
    rw [hrecv]
    exact hwin.1 p hp
  · exact fun p hp => hbodies p ((drainPieces_isSuffix _ _ _).subset hp)
  · have hrecv : (tcpSendAck u).recvBuffer = _ := hack.recvBuffer.trans hbufu
    rw [hrecv]
    exact hwin.2

theorem Pieces.same (h : s.Pieces base w next ps) (ht : s.SameReceive t) :
    t.Pieces base w next ps := by
  refine ⟨ht.holds h.holds, ht.rcvNxt.trans h.rcvNxt, h.apart, h.ahead, ?_, h.body, ?_⟩
  · rw [ht.recvBuffer]
    exact h.window
  · rw [ht.recvBuffer]
    exact h.buffer

theorem Pieces.reject (h : s.Pieces base w next ps) (hreject : ¬ s.Accepts segment) :
    ∃ t, tcpHandleDataIn s segment = some t ∧ t.Pieces base w next ps ∧
      t.recvBuffer = s.recvBuffer := by
  have hsame := tcpSendAckFlags_sameReceive ackFlags s
  have hack := And.intro (h.same hsame) hsame.recvBuffer
  unfold tcpHandleDataIn
  dsimp only
  split
  · exact ⟨_, rfl, hack⟩
  · next hfirst =>
    rw [if_pos fun hsecond => hreject ⟨hfirst, hsecond⟩]
    split
    · exact ⟨s, rfl, h, rfl⟩
    · exact ⟨_, rfl, hack⟩

/-- `recv` takes bytes from the front of the buffer. -/
theorem recv_split (s : TcpConn) (maxlen : ℕ) (hmem : s.env.memory 0 ≠ 0) :
    s.recvBuffer = (recv s maxlen).1 ++ (recv s maxlen).2.recvBuffer ∧
      (recv s maxlen).2.nodes = s.nodes ∧ (recv s maxlen).2.segmentList = s.segmentList ∧
      (recv s maxlen).2.rcvNxt = s.rcvNxt ∧ (recv s maxlen).2.windowScaling = s.windowScaling ∧
      (recv s maxlen).2.rcvWscale = s.rcvWscale := by
  unfold recv kmalloc
  dsimp only
  split
  · exact ⟨rfl, rfl, rfl, rfl, rfl, rfl⟩
  · generalize hamount : (if maxlen < s.recvBuffer.length then maxlen else s.recvBuffer.length) = n
    have hle : n ≤ s.recvBuffer.length := by
      rw [← hamount]
      split <;> omega
    split
    · refine ⟨?_, rfl, rfl, rfl, rfl, rfl⟩
      rw [List.append_nil, List.take_of_length_le (by omega)]
    · exact ⟨(List.take_append_drop _ _).symm, rfl, rfl, rfl, rfl, rfl⟩

theorem Pieces.recv (h : s.Pieces base w next ps) (maxlen : ℕ) (hmem : s.env.memory 0 ≠ 0) :
    (recv s maxlen).2.Pieces base w next ps := by
  obtain ⟨hsplit, hnodes, hlist, hnxt, hscaling, hscale⟩ := recv_split s maxlen hmem
  have hlen := congrArg List.length hsplit
  rw [List.length_append] at hlen
  have hsame : s.SameReceive { (RetroRocket.recv s maxlen).2 with recvBuffer := s.recvBuffer } :=
    ⟨hnodes, hlist, hnxt, rfl, hscaling, hscale⟩
  obtain ⟨xs, hqueue, hmap⟩ := hsame.holds h.holds
  refine ⟨⟨xs, ⟨hqueue.chain, hqueue.nodup, hqueue.bound⟩, hmap⟩, hnxt.trans h.rcvNxt, h.apart,
    h.ahead, fun p hp => ?_, h.body, ?_⟩
  · have := h.window p hp
    omega
  · have := h.buffer
    omega

end TcpConn

/-! ## Runs of a receiver -/

structure TcpConn.Opened (s : TcpConn) : Prop where
  segmentList : s.segmentList = 0
  recvBuffer : s.recvBuffer = []
  rcvNxt : s.rcvNxt = s.irs + 1

/-- A connection, and the bytes that `recv` has handed out. -/
structure TcpReceiver where
  conn : TcpConn
  received : List Byte

inductive ReceiverCall where
  | data (env : TcpEnv) (segment : TcpSegment)
  | recv (env : TcpEnv) (maxlen : ℕ)

namespace TcpReceiver

def within (s : TcpReceiver) (env : TcpEnv) : TcpConn := { s.conn with env := env }

def call (s : TcpReceiver) : ReceiverCall → Option TcpReceiver
  | .data env segment => do
    let conn ← tcpHandleDataIn (s.within env) segment
    some { s with conn := conn }
  | .recv env maxlen =>
    let (bytes, conn) := recv (s.within env) maxlen
    some { conn := conn, received := s.received ++ bytes }

theorem sameReceive_within (s : TcpReceiver) (env : TcpEnv) : s.conn.SameReceive (s.within env) :=
  ⟨rfl, rfl, rfl, rfl, rfl, rfl⟩

theorem call_data {s : TcpReceiver} {env : TcpEnv} {segment : TcpSegment} {conn : TcpConn}
    (h : tcpHandleDataIn (s.within env) segment = some conn) :
    s.call (.data env segment) = some ⟨conn, s.received⟩ := by
  simp only [call, h]
  rfl

theorem call_recv (s : TcpReceiver) (env : TcpEnv) (maxlen : ℕ) : s.call (.recv env maxlen) =
    some ⟨(recv (s.within env) maxlen).2, s.received ++ (recv (s.within env) maxlen).1⟩ := rfl

end TcpReceiver

def envAt (address : ℕ) : TcpEnv := ⟨fun n => address + 64 * n, 0, 0, 0⟩

def establishedConn (iss irs : BitVec 32) : TcpConn where
  state := .established
  iss := iss
  sndUna := iss + 1
  sndNxt := iss + 1
  irs := irs
  rcvNxt := irs + 1
  rcvLst := irs + 1
  recvBuffer := []
  sendBuffer := []
  segmentList := 0
  nodes := fun _ => ⟨0, 0, [], 0, 0, 0⟩
  retx := []
  peerMss := 1460
  lastDupAck := 0
  dupAckCount := 0
  rcvWscale := 0
  windowScaling := false
  mslTime := 0
  alive := true
  env := envAt 4096
  wire := []

def dataSegment (iss seq : BitVec 32) (data : List Byte) : TcpSegment :=
  ⟨seq, iss + 1, 5, pshAckFlags, 65535, data⟩

theorem opened_establishedConn (iss irs : BitVec 32) : (establishedConn iss irs).Opened :=
  ⟨rfl, rfl, rfl⟩

theorem envAt_ne_zero {a : ℕ} (ha : 0 < a) (n : ℕ) : (envAt a).memory n ≠ 0 :=
  Nat.ne_of_gt (Nat.add_pos_left ha _)

theorem TcpConn.allocates_of_empty {s : TcpConn} {segment : TcpSegment} (hempty : s.segmentList = 0)
    (hlen : segment.payloadLen < 2 ^ 31) (hpos : ∀ n, s.env.memory n ≠ 0)
    (hbound : s.env.memory 0 < 2 ^ 64) : s.Allocates segment := by
  refine ⟨hpos, hbound, ?_⟩
  intro cur t v hfind hroom xs hqueue
  have hnil : s.Queue ([] ++ []) := ⟨⟨0, rfl, hempty⟩, List.nodup_nil, by simp⟩
  obtain ⟨q, hchain⟩ := hnil.chain
  have hstart : findInsertionPoint s.nodes segment.seq (2 ^ 64) s.segmentList = some 0 :=
    findInsertionPoint_eq hchain (by simp) (by simp) (Nat.two_pow_pos 64)
  rw [hstart] at hfind
  obtain rfl := Option.some.inj hfind
  have hmap : ([] : List ℕ).map s.chunk = ([] : List Piece).map (Piece.chunk segment.seq) := rfl
  have hnear : Near 0 [] := fun p hp => by cases hp
  obtain ⟨u, r', hrun, -, -, hqueue', -, hmap⟩ := makeRoom_holds hnil hmap hmap hnear hnear le_rfl
    (show 0 + segment.payloadLen < 0 + 2 ^ 31 by omega) (by simp) (by simp) (by simp)
  rw [seqAt_zero] at hrun
  obtain ⟨rfl, -⟩ := Prod.mk.inj (Option.some.inj (hrun.symm.trans hroom))
  obtain rfl : r' = [] := by simpa [uncovered, cutHead] using hmap
  rw [hqueue.eq_nil hqueue'.head_eq]
  simp

end RetroRocket
