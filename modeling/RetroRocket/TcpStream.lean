import RetroRocket.TcpReceive

/-!
# The received stream

The peer sends segments cut from one stream, and they arrive in any order, any number of times. In a
run whose calls are all `Safe` what `recv` has handed out, followed by what is buffered, is a prefix
of the stream, and `rcv_nxt` counts it. A segment that crosses the wrap of the sequence numbers and
ends inside a segment stored behind the wrap is not safe: the length to move is computed with 64
bits and comes out as nearly 2 ^ 64.
-/

namespace RetroRocket

structure TcpSegment.CutAt (segment : TcpSegment) (base : BitVec 32)
    (stream : List Byte) (pos : ℕ) :
    Prop where
  seq : segment.seq = seqAt base pos
  off : segment.off = 5
  rst : segment.flags.rst = false
  body : segment.body = (stream.drop pos).take segment.body.length
  bound : segment.length < 2 ^ 16

namespace TcpSegment

variable {segment : TcpSegment} {stream : List Byte} {base : BitVec 32} {pos : ℕ}

theorem payloadLen_eq (hoff : 5 ≤ segment.off) (hheader : segment.headerSize ≤ segment.length)
    (hlength : segment.length < 2 ^ 16) : segment.payloadLen = segment.payload.length := by
  have hbody : segment.length = 20 + segment.body.length := rfl
  unfold TcpSegment.payloadLen TcpSegment.payload headerSize at *
  rw [sub64_of_le (by omega) (by omega), List.length_drop]
  omega

theorem CutAt.payloadLen (h : segment.CutAt base stream pos) :
    segment.payloadLen = segment.body.length := by
  have hbound := h.bound
  unfold TcpSegment.payloadLen headerSize
  unfold length at *
  rw [h.off, sub64_of_le (by omega) (by omega)]
  omega

theorem CutAt.from (h : segment.CutAt base stream pos) :
    (TcpConn.piece segment pos).From stream := by
  refine ⟨Or.inl h.off, h.payloadLen.le, ?_⟩
  change segment.body.take segment.payloadLen = (stream.drop pos).take segment.payloadLen
  rw [h.payloadLen, List.take_length]
  exact h.body

end TcpSegment

namespace TcpReceiver

variable {s t : TcpReceiver} {c : ReceiverCall} {stream : List Byte} {irs : BitVec 32}

def delivered (s : TcpReceiver) : ℕ := s.received.length + s.conn.recvBuffer.length

def FromStream (irs : BitVec 32) (stream : List Byte) (s : TcpReceiver) : ReceiverCall → Prop
  | .data env segment =>
    (∃ pos, segment.CutAt (irs + 1) stream pos) ∧ (s.within env).Allocates segment
  | .recv env _ => ∀ n, env.memory n ≠ 0

/-- A segment that is taken for one in the window is in the window, and does not trim a stored one
across the wrap. -/
def Safe (irs : BitVec 32) (stream : List Byte) (s : TcpReceiver) : ReceiverCall → Prop
  | .data env segment => (s.within env).Accepts segment →
      (∃ pos, segment.CutAt (irs + 1) stream pos ∧ s.delivered ≤ pos ∧
        pos + segment.payloadLen ≤ s.delivered + tcpRecvWindow s.conn) ∧
      ¬ (s.within env).TrimsAcrossWrap segment.seq segment.payloadLen
  | .recv _ _ => True

/-- What was received is a prefix of the stream, and `rcv_nxt` counts it. -/
structure InOrder (irs : BitVec 32) (stream : List Byte) (s : TcpReceiver) : Prop where
  received : s.received ++ s.conn.recvBuffer <+: stream
  rcvNxt : s.conn.rcvNxt = irs + 1 + BitVec.ofNat 32 s.delivered

/-! ## The invariant -/

structure StreamInv (irs : BitVec 32) (stream : List Byte) (s : TcpReceiver) : Prop where
  pieces : ∃ ps, s.conn.Pieces (irs + 1) 16384 s.delivered ps ∧ ∀ p ∈ ps, p.From stream
  received : s.received ++ s.conn.recvBuffer = stream.take s.delivered

theorem StreamInv.inOrder (h : s.StreamInv irs stream) : s.InOrder irs stream := by
  obtain ⟨ps, hpieces, -⟩ := h.pieces
  refine ⟨?_, hpieces.rcvNxt⟩
  rw [h.received]
  exact List.take_prefix _ _

theorem init_streamInv {conn : TcpConn} (h : conn.Opened) (stream : List Byte) :
    (⟨conn, []⟩ : TcpReceiver).StreamInv conn.irs stream := by
  have hzero : (⟨conn, []⟩ : TcpReceiver).delivered = 0 := by
    unfold delivered
    rw [h.recvBuffer]
    rfl
  refine ⟨⟨[], ?_, by simp⟩, ?_⟩
  · rw [hzero]
    refine ⟨⟨[], ⟨⟨0, rfl, h.segmentList⟩, List.nodup_nil, by simp⟩, rfl⟩, ?_, List.Pairwise.nil,
      by simp [Ahead], by simp, by simp, ?_⟩
    · rw [seqAt_zero]
      exact h.rcvNxt
    · rw [h.recvBuffer]
      exact Nat.zero_le _
  · rw [hzero, h.recvBuffer]
    rfl

theorem StreamInv.handle (h : s.StreamInv irs stream) {u : TcpConn} (hu : s.conn.SameReceive u)
    {segment : TcpSegment} (hrst : segment.flags.rst = false)
    (halloc : u.Allocates segment) (pos : ℕ)
    (hsafe : u.Accepts segment → segment.seq = seqAt (irs + 1) pos ∧
      (TcpConn.piece segment pos).From stream ∧ s.delivered ≤ pos ∧
      pos + segment.payloadLen ≤ s.delivered + tcpRecvWindow u ∧
      ¬ u.TrimsAcrossWrap segment.seq segment.payloadLen) :
    ∃ conn, tcpHandleDataIn u segment = some conn ∧
      (⟨conn, s.received⟩ : TcpReceiver).StreamInv irs stream ∧
      s.delivered ≤ (⟨conn, s.received⟩ : TcpReceiver).delivered ∧
      (u.Accepts segment → s.conn.NoneBelow → pos = s.delivered →
        s.delivered + segment.payloadLen ≤ (⟨conn, s.received⟩ : TcpReceiver).delivered) := by
  obtain ⟨⟨ps, hpieces, hcontent⟩, hreceived⟩ := h
  have hat := hpieces.same hu
  by_cases haccept : u.Accepts segment
  · obtain ⟨hseq, hfrom, hpos, hwindow, hwrap⟩ := hsafe haccept
    obtain ⟨conn, hrun, hconn, hbuffer⟩ := hat.accept le_rfl haccept hrst hseq hpos hwindow
      hfrom.len halloc hwrap (fun _ p hp => by
        have := hpieces.window p (List.mem_of_mem_getLast? hp)
        omega)
    rw [hu.recvBuffer] at hconn hbuffer
    have hfromAll : ∀ p ∈ insertPiece ps (TcpConn.piece segment pos), p.From stream :=
      insertPiece_forall hcontent hfrom (fun p hp _ => hp.cutBack _) fun p hp hlt => hp.cutFront hlt
    have hlength := drainPieces_length (insertPiece ps (TcpConn.piece segment pos)) s.delivered
      s.conn.recvBuffer
    have hdelivered : (⟨conn, s.received⟩ : TcpReceiver).delivered =
        (drainPieces (insertPiece ps (TcpConn.piece segment pos)) s.delivered
            s.conn.recvBuffer).2.1 := by
      change s.received.length + conn.recvBuffer.length = _
      rw [hbuffer]
      change _ = s.received.length + s.conn.recvBuffer.length + _ at hlength
      omega
    have hsuffix := drainPieces_isSuffix (insertPiece ps (TcpConn.piece segment pos)) s.delivered
      s.conn.recvBuffer
    refine ⟨_, hrun, ⟨⟨_, ?_, fun p hp => hfromAll p (hsuffix.subset hp)⟩, ?_⟩, ?_,
      fun _ hbelow hnext => ?_⟩
    · rw [hdelivered]
      exact hconn
    · rw [hdelivered]
      change s.received ++ conn.recvBuffer = _
      rw [hbuffer]
      exact drainPieces_prefix hfromAll hreceived
    · rw [hdelivered]
      exact le_drainPieces _ _ _
    · have hlen := hfrom.payload.2
      have hroom := TcpConn.tcpRecvWindow_le u
      have hfull := hpieces.buffer
      rw [hu.recvBuffer] at hroom
      change _ = segment.payloadLen at hlen
      rw [hdelivered, ← hlen]
      exact le_drainPieces_insert (hpieces.le_start le_rfl hbelow) hnext (by omega)
  · obtain ⟨conn, hrun, hconn, hbuffer⟩ := hat.reject haccept
    rw [hu.recvBuffer] at hbuffer
    have hdelivered : (⟨conn, s.received⟩ : TcpReceiver).delivered = s.delivered :=
      congrArg (fun l : List Byte => s.received.length + l.length) hbuffer
    refine ⟨_, hrun, ⟨⟨ps, ?_, hcontent⟩, ?_⟩, hdelivered.ge, fun h => absurd h haccept⟩
    · rw [hdelivered]
      exact hconn
    · rw [hdelivered]
      change s.received ++ conn.recvBuffer = _
      rw [hbuffer]
      exact hreceived

theorem StreamInv.data (h : s.StreamInv irs stream) {env : TcpEnv} {segment : TcpSegment}
    (hfrom : s.FromStream irs stream (.data env segment))
    (hsafe : s.Safe irs stream (.data env segment)) :
    ∃ t, s.call (.data env segment) = some t ∧ t.StreamInv irs stream := by
  obtain ⟨⟨pos, hcut⟩, halloc⟩ := hfrom
  have hpos : ∃ pos, (s.within env).Accepts segment → segment.seq = seqAt (irs + 1) pos ∧
      (TcpConn.piece segment pos).From stream ∧ s.delivered ≤ pos ∧
        pos + segment.payloadLen ≤ s.delivered + tcpRecvWindow (s.within env) ∧
      ¬ (s.within env).TrimsAcrossWrap segment.seq segment.payloadLen := by
    by_cases haccept : (s.within env).Accepts segment
    · obtain ⟨⟨pos, hcut, hle, hwindow⟩, hwrap⟩ := hsafe haccept
      exact ⟨pos, fun _ => ⟨hcut.seq, hcut.from, hle, hwindow, hwrap⟩⟩
    · exact ⟨pos, fun h => absurd h haccept⟩
  obtain ⟨pos, hpos⟩ := hpos
  obtain ⟨conn, hrun, hinv, -⟩ := h.handle (s.sameReceive_within env) hcut.rst halloc pos hpos
  exact ⟨_, call_data hrun, hinv⟩

theorem StreamInv.recv (h : s.StreamInv irs stream) {env : TcpEnv} {maxlen : ℕ}
    (hfrom : s.FromStream irs stream (.recv env maxlen)) :
    ∃ t, s.call (.recv env maxlen) = some t ∧ t.StreamInv irs stream := by
  obtain ⟨⟨ps, hpieces, hcontent⟩, hreceived⟩ := h
  have hat := hpieces.same (s.sameReceive_within env)
  have hsplit : s.conn.recvBuffer = _ := (TcpConn.recv_split (s.within env) maxlen (hfrom 0)).1
  refine ⟨_, s.call_recv env maxlen, ?_⟩
  have hdelivered : (⟨(RetroRocket.recv (s.within env) maxlen).2,
      s.received ++ (RetroRocket.recv (s.within env) maxlen).1⟩ : TcpReceiver).delivered =
      s.delivered := by
    unfold delivered
    dsimp only
    rw [hsplit, List.length_append, List.length_append, add_assoc]
  refine ⟨⟨ps, ?_, hcontent⟩, ?_⟩
  · rw [hdelivered]
    exact hat.recv maxlen (hfrom 0)
  · rw [hdelivered, ← hreceived, hsplit, List.append_assoc]

theorem StreamInv.call (h : s.StreamInv irs stream) (hfrom : s.FromStream irs stream c)
    (hsafe : s.Safe irs stream c) : ∃ t, s.call c = some t ∧ t.StreamInv irs stream := by
  cases c with
  | data env segment => exact h.data hfrom hsafe
  | recv env maxlen => exact h.recv hfrom

/-- In a run of safe calls the received stream is in order, and every further safe call returns. -/
theorem run_inOrder (conn : TcpConn) (hopened : conn.Opened) (stream : List Byte)
    (hrun : Run call (fun s c => s.FromStream conn.irs stream c ∧ s.Safe conn.irs stream c)
      ⟨conn, []⟩ t) :
    t.InOrder conn.irs stream ∧ ∀ c, t.FromStream conn.irs stream c → t.Safe conn.irs stream c →
      (t.call c).isSome := by
  have hinv := hrun.invariant (init_streamInv hopened stream)
    fun h hallowed => h.call hallowed.1 hallowed.2
  refine ⟨hinv.inOrder, fun c hfrom hsafe => ?_⟩
  obtain ⟨u, hcall, -⟩ := hinv.call hfrom hsafe
  rw [hcall]
  rfl

def wrapStart : TcpReceiver := ⟨establishedConn 0 4294967293, []⟩

def wrapStored : TcpReceiver :=
  Run.next call wrapStart (.data (envAt 4096) (dataSegment 0 1 [3, 4, 5]))

def wrapSegment : TcpSegment := dataSegment 0 4294967294 [0, 1, 2, 3]

theorem wrapStored_run :
    Run call (FromStream 4294967293 [0, 1, 2, 3, 4, 5]) wrapStart wrapStored := by
  unfold wrapStored
  refine Run.next_step Run.refl ⟨⟨3, by decide, rfl, rfl, rfl, by decide⟩, ?_⟩ (by decide +kernel)
  exact TcpConn.allocates_of_empty rfl (by decide) (envAt_ne_zero (by decide)) (by decide)

/-- The second segment makes the length of a block move wrap. -/
theorem wrapStored_not_inOrder :
    Run call (FromStream 4294967293 [0, 1, 2, 3, 4, 5]) wrapStart wrapStored ∧
      wrapStored.FromStream 4294967293 [0, 1, 2, 3, 4, 5] (.data (envAt 8192) wrapSegment) ∧
      ¬ ∃ t, wrapStored.call (.data (envAt 8192) wrapSegment) = some t ∧
        t.InOrder 4294967293 [0, 1, 2, 3, 4, 5] := by
  refine ⟨wrapStored_run, ⟨⟨0, by decide, rfl, rfl, rfl, by decide⟩,
    envAt_ne_zero (by decide), by decide, ?_⟩, ?_⟩
  · intro cur t v hfind hroom
    have hcur : findInsertionPoint (wrapStored.within (envAt 8192)).nodes wrapSegment.seq (2 ^ 64)
        (wrapStored.within (envAt 8192)).segmentList = some 4096 := by decide +kernel
    have hnone : (makeRoom (wrapStored.within (envAt 8192)) 4096 wrapSegment.seq
        wrapSegment.payloadLen).isSome = false := by decide +kernel
    obtain rfl := Option.some.inj (hcur.symm.trans hfind)
    rw [hroom] at hnone
    cases hnone
  · rintro ⟨t, hcall, -⟩
    have hnone : (wrapStored.call (.data (envAt 8192) wrapSegment)).isSome = false := by
      decide +kernel
    rw [hcall] at hnone
    cases hnone

def inOrderStart : TcpReceiver := ⟨establishedConn 0 100, []⟩

def inOrderStored : TcpReceiver :=
  Run.next call inOrderStart (.data (envAt 4096) (dataSegment 0 101 [0, 1]))

def inOrderRead : TcpReceiver := Run.next call inOrderStored (.recv (envAt 8192) 1)

def inOrderEnd : TcpReceiver :=
  Run.next call inOrderRead (.data (envAt 12288) (dataSegment 0 103 [2]))

theorem not_trimsAcrossWrap_of_empty {s : TcpConn} (h : s.segmentList = 0) {seq : BitVec 32}
    {len : ℕ} : ¬ s.TrimsAcrossWrap seq len := by
  rintro ⟨xs, x, hqueue, hx, -⟩
  rw [hqueue.eq_nil h] at hx
  cases hx

/-- Two bytes arrive, one of them is read, and another one arrives. -/
theorem run_inOrder_threeBytes :
    inOrderEnd.InOrder 100 [0, 1, 2] ∧ ∀ c, inOrderEnd.FromStream 100 [0, 1, 2] c →
      inOrderEnd.Safe 100 [0, 1, 2] c → (inOrderEnd.call c).isSome := by
  have hfirst : (dataSegment 0 101 [0, 1]).CutAt (100 + 1) [0, 1, 2] 0 :=
    ⟨by decide, rfl, rfl, rfl, by decide⟩
  have hlast : (dataSegment 0 103 [2]).CutAt (100 + 1) [0, 1, 2] 2 :=
    ⟨by decide, rfl, rfl, rfl, by decide⟩
  have hstored : Run call (fun s c => s.FromStream 100 [0, 1, 2] c ∧ s.Safe 100 [0, 1, 2] c)
      inOrderStart inOrderStored := by
    refine Run.next_step Run.refl ⟨⟨⟨0, hfirst⟩, ?_⟩, fun _ => ⟨⟨0, hfirst, by decide, by decide⟩,
      not_trimsAcrossWrap_of_empty rfl⟩⟩ (by decide +kernel)
    exact TcpConn.allocates_of_empty rfl (by decide) (envAt_ne_zero (by decide)) (by decide)
  have hread : Run call (fun s c => s.FromStream 100 [0, 1, 2] c ∧ s.Safe 100 [0, 1, 2] c)
      inOrderStart inOrderRead :=
    Run.next_step hstored ⟨envAt_ne_zero (by decide), trivial⟩ (by decide +kernel)
  have hend : Run call (fun s c => s.FromStream 100 [0, 1, 2] c ∧ s.Safe 100 [0, 1, 2] c)
      inOrderStart inOrderEnd := by
    have hempty : (inOrderRead.within (envAt 12288)).segmentList = 0 := by decide +kernel
    refine Run.next_step hread ⟨⟨⟨2, hlast⟩, ?_⟩, fun _ => ⟨⟨2, hlast, by decide +kernel,
      by decide +kernel⟩, not_trimsAcrossWrap_of_empty hempty⟩⟩ (by decide +kernel)
    exact TcpConn.allocates_of_empty hempty (by decide +kernel) (envAt_ne_zero (by decide))
      (by decide)
  exact run_inOrder (establishedConn 0 100) (opened_establishedConn 0 100) [0, 1, 2] hend

end TcpReceiver

end RetroRocket
