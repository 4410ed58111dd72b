import RetroRocket.TcpAcks
import RetroRocket.TcpOrder

/-!
# Failing allocations in the delivery

`tcp_process_queue` counts the bytes of an entry in `rcv_nxt` before it makes room for them in the
receive buffer, and it does so under the lock. Where the buffer cannot grow it stops between the
two. The functions are taken here with the lock, and for allocations that may fail in any order.
-/

namespace RetroRocket

/-- `tcp_process_queue`, and whether the lock is held when it returns. -/
def tcpProcessQueueLock : ℕ → TcpConn → Option (TcpConn × Bool)
  | 0, _ => none
  | fuel + 1, s =>
    let cur := s.segmentList
    let node := s.nodes cur
    let start := (nodePayload node).1
    let payloadLen := (nodePayload node).2
    if cur = 0 ∨ s.rcvNxt ≠ node.seq then some (s, false)
    else if 0 < payloadLen ∧ 196608 < u64 (s.recvBuffer.length + payloadLen) then some (s, false)
    else
      let s := { s with rcvNxt := s.rcvNxt + BitVec.ofNat 32 payloadLen }
      if payloadLen = 0 then tcpProcessQueueLock fuel (unlinkNode s cur)
      else
        -- the lock is taken here, and not given back when the buffer cannot grow
        let (buffer, s) := s.kmalloc
        if buffer = 0 then some (s, true)
        else if node.body.length < start + payloadLen then none
        else
          let s := { s with recvBuffer := s.recvBuffer ++ (node.body.drop start).take payloadLen }
          tcpProcessQueueLock fuel (unlinkNode s cur)

/-- `tcp_handle_data_in`, and whether the lock is held when it returns. -/
def tcpHandleDataInLock (s : TcpConn) (segment : TcpSegment) : Option (TcpConn × Bool) :=
  let payloadLen := segment.payloadLen
  let rcvWnd := tcpRecvWindow s
  let segmentEnd := BitVec.ofNat 32 (segment.seq.toNat + payloadLen)
  if 0 < payloadLen ∧ seqLte segmentEnd s.rcvNxt then some (tcpSendAck s, false)
  else if ¬ (seqLte s.rcvNxt segment.seq ∧
    seqLte segmentEnd (s.rcvNxt + BitVec.ofNat 32 rcvWnd)) then
    if segment.flags.rst then some (s, false) else some (tcpSendAck s, false)
  else if segment.flags.rst then some (tcpFree s, false)
  else do
    let s ← tcpOrdListInsert s segment payloadLen
    let (s, held) ← tcpProcessQueueLock (2 ^ 64) s
    some (tcpSendAck s, held)

/-! ## The functions without the lock -/

theorem map_tcpProcessQueueLock (fuel : ℕ) (s : TcpConn) :
    (tcpProcessQueueLock fuel s).map Prod.fst = tcpProcessQueue fuel s := by
  induction fuel generalizing s with
  | zero => rfl
  | succ fuel ih =>
    rw [tcpProcessQueueLock, tcpProcessQueue]
    dsimp only
    split_ifs
    · rfl
    · rfl
    · exact ih _
    · rfl
    · rfl
    · exact ih _

theorem map_tcpHandleDataInLock (s : TcpConn) (segment : TcpSegment) :
    (tcpHandleDataInLock s segment).map Prod.fst = tcpHandleDataIn s segment := by
  unfold tcpHandleDataInLock tcpHandleDataIn
  dsimp only
  split
  · rfl
  split
  · split <;> rfl
  split
  · rfl
  generalize (2 : ℕ) ^ 64 = fuel
  cases tcpOrdListInsert s segment segment.payloadLen with
  | none => rfl
  | some t =>
    have hqueue := map_tcpProcessQueueLock fuel t
    change ((tcpProcessQueueLock fuel t).bind _).map Prod.fst = (tcpProcessQueue fuel t).bind _
    rw [← hqueue]
    cases tcpProcessQueueLock fuel t <;> rfl

namespace TcpConn

variable {s t u : TcpConn} {segment : TcpSegment} {base : BitVec 32} {ps : List Piece}
variable {held : Bool} {fuel w next : ℕ}

/-- What goes into the buffer is counted in `rcv_nxt`, no more than that is acknowledged, and the
lock is free. -/
structure Atomic (s t : TcpConn) (held : Bool) : Prop where
  counted : ∃ added sent, t.recvBuffer = s.recvBuffer ++ added ∧
    t.rcvNxt = s.rcvNxt + BitVec.ofNat 32 added.length ∧ t.wire = s.wire ++ sent ∧
    ∀ p ∈ sent, p.ack = s.rcvNxt + BitVec.ofNat 32 added.length
  released : held = false

/-! ## Where the lock is given back -/

/-- The buffer and `rcv_nxt` have advanced by the same number of bytes. -/
def Counted (s t : TcpConn) : Prop :=
  ∃ added, t.recvBuffer = s.recvBuffer ++ added ∧
    t.rcvNxt = s.rcvNxt + BitVec.ofNat 32 added.length ∧ t.wire = s.wire

theorem Counted.refl (s : TcpConn) : s.Counted s := ⟨[], by simp⟩

theorem Counted.trans (h : s.Counted t) (h' : t.Counted u) : s.Counted u := by
  obtain ⟨added, hbuffer, hnxt, hwire⟩ := h
  obtain ⟨added', hbuffer', hnxt', hwire'⟩ := h'
  refine ⟨added ++ added', ?_, ?_, hwire'.trans hwire⟩
  · rw [hbuffer', hbuffer, List.append_assoc]
  · rw [hnxt', hnxt, List.length_append, BitVec.ofNat_add, BitVec.add_assoc]

theorem OnlyQueue.counted (h : s.OnlyQueue t) : s.Counted t := by
  rw [h]
  exact ⟨[], by simp⟩

theorem tcpProcessQueueLock_counted (h : tcpProcessQueueLock fuel s = some (t, false)) :
    s.Counted t := by
  induction fuel generalizing s with
  | zero => cases h
  | succ fuel ih =>
    simp only [tcpProcessQueueLock] at h
    split at h
    · obtain rfl := (Prod.mk.inj (Option.some.inj h)).1
      exact Counted.refl s
    · split at h
      · obtain rfl := (Prod.mk.inj (Option.some.inj h)).1
        exact Counted.refl s
      · split at h
        next hzero =>
          refine Counted.trans (Counted.trans ?_ (unlinkNode_onlyQueue _ _).counted) (ih h)
          exact ⟨[], by simp [hzero]⟩
        next =>
          split at h
          · cases (Prod.mk.inj (Option.some.inj h)).2
          · split at h
            · cases h
            next hbody =>
              refine Counted.trans (Counted.trans ?_ (unlinkNode_onlyQueue _ _).counted) (ih h)
              refine ⟨_, rfl, ?_, rfl⟩
              rw [List.length_take_of_le]
              · rfl
              · rw [List.length_drop]
                omega

theorem Counted.sendAck (h : s.Counted t) : s.Atomic (tcpSendAck t) false := by
  obtain ⟨added, hbuffer, hnxt, hwire⟩ := h
  have hsame := tcpSendAckFlags_sameReceive ackFlags t
  have hbuffer' : (tcpSendAck t).recvBuffer = _ := hsame.recvBuffer.trans hbuffer
  have hnxt' : (tcpSendAck t).rcvNxt = _ := hsame.rcvNxt.trans hnxt
  by_cases heq : t.rcvNxt = t.rcvLst
  · refine ⟨⟨added, [], hbuffer', hnxt', ?_, by simp⟩, rfl⟩
    rw [tcpSendAck_of_eq heq, hwire, List.append_nil]
  · obtain ⟨packet, hsent, -, hack⟩ := tcpSendAck_of_ne heq
    refine ⟨⟨added, [packet], hbuffer', hnxt', ?_, ?_⟩, rfl⟩
    · rw [hsent, hwire]
    · intro p hp
      rw [List.mem_singleton.mp hp, hack, hnxt]

/-! ## Which resizes are asked for -/

def resizes : List Piece → ℕ → ℕ → ℕ
  | [], _, _ => 0
  | p :: ps, next, size =>
    if p.start ≠ next ∨ 0 < p.payload.length ∧ 196608 < size + p.payload.length then 0
    else
      (if p.payload.length = 0 then 0 else 1) +
        resizes ps (next + p.payload.length) (size + p.payload.length)

theorem tcpProcessQueueLock_released_iff (h : s.Holds base ps) (hnext : s.rcvNxt = seqAt base next)
    (hapart : Apart w ps) (hahead : Ahead w next ps) (hw : w < 2 ^ 31)
    (hnear : ∀ p ∈ ps, p.finish < next + 2 ^ 31) (hbody : ∀ p ∈ ps, p.len ≤ p.body.length)
    (hbuffer : s.recvBuffer.length ≤ 196608) (hfuel : ps.length < fuel) :
    ∃ t held, tcpProcessQueueLock fuel s = some (t, held) ∧
      (held = false ↔ ∀ i < resizes ps next s.recvBuffer.length, s.env.memory i ≠ 0) := by
  induction ps generalizing s next fuel with
  | nil =>
    cases fuel with
    | zero => exact absurd hfuel (Nat.not_lt_zero _)
    | succ fuel =>
      refine ⟨s, false, ?_, by simp [resizes]⟩
      rw [tcpProcessQueueLock]
      exact if_pos (Or.inl h.segmentList_nil)
  | cons p ps ih =>
    cases fuel with
    | zero => exact absurd hfuel (Nat.not_lt_zero _)
    | succ fuel =>
      have hplen := hbody p List.mem_cons_self
      have hpahead := hahead p List.mem_cons_self
      obtain ⟨hcount, hroom, hbytes⟩ := nodePayload_of_chunk h.head.2 hplen
      obtain ⟨hstop, hfull⟩ :=
        h.head_tests hnext hpahead hw (hnear p List.mem_cons_self) hplen hbuffer
      rw [tcpProcessQueueLock, resizes]
      dsimp only
      by_cases hhalt : p.start ≠ next ∨ 0 < p.payload.length ∧
          196608 < s.recvBuffer.length + p.payload.length
      · rw [if_pos hhalt]
        refine ⟨s, false, ?_, by simp⟩
        rcases hhalt with hstart | hlimit
        · rw [if_pos (hstop.mpr hstart)]
        · by_cases hstart : p.start ≠ next
          · rw [if_pos (hstop.mpr hstart)]
          · rw [if_neg fun hor => hstart (hstop.mp hor), if_pos (hfull.mpr hlimit)]
      · rw [if_neg hhalt]
        obtain ⟨hstart, hlimit⟩ := not_or.mp hhalt
        rw [if_neg fun hor => hstart (hstop.mp hor), if_neg fun hand => hlimit (hfull.mp hand)]
        rw [not_not] at hstart
        obtain ⟨hbehind, hrest⟩ := List.pairwise_cons.mp hapart
        have hlenle := p.payload_length_le
        have hpfinish : p.finish = p.start + p.len := rfl
        have hstep : ∀ u : TcpConn, u.nodes = s.nodes → u.segmentList = s.segmentList →
            u.rcvNxt = seqAt base (next + p.payload.length) →
            u.recvBuffer = s.recvBuffer ++ p.payload →
            ∃ t held, tcpProcessQueueLock fuel (unlinkNode u s.segmentList) = some (t, held) ∧
              (held = false ↔ ∀ i < resizes ps (next + p.payload.length)
                (s.recvBuffer.length + p.payload.length), u.env.memory i ≠ 0) := by
          intro u hunodes hulist hunext hubuffer
          have hframe := unlinkNode_onlyQueue u s.segmentList
          have hunlink : (unlinkNode u s.segmentList).Holds base ps :=
            hulist ▸ (h.same hunodes hulist).unlink
          have hbuf : (unlinkNode u s.segmentList).recvBuffer.length =
              s.recvBuffer.length + p.payload.length := by
            rw [hframe, ← List.length_append, ← hubuffer]
          have hahead' : Ahead w (next + p.payload.length) ps := by
            intro q hq
            have := hbehind q hq
            omega
          obtain ⟨t, held, hrun, hiff⟩ := ih hunlink (by rw [hframe]; exact hunext) hrest hahead'
            (fun q hq => Nat.lt_of_lt_of_le (hnear q (List.mem_cons_of_mem p hq)) (by omega))
            (fun q hq => hbody q (List.mem_cons_of_mem p hq)) (by omega)
            (Nat.lt_of_succ_lt_succ hfuel)
          rw [hbuf, unlinkNode_env] at hiff
          exact ⟨t, held, hrun, hiff⟩
        have hnext' : s.rcvNxt + BitVec.ofNat 32 (nodePayload (s.nodes s.segmentList)).2 =
            seqAt base (next + p.payload.length) := by
          rw [hnext, hcount, seqAt_add]
        by_cases hzero : p.payload.length = 0
        · rw [if_pos (hcount.trans hzero), if_pos hzero, Nat.zero_add]
          refine hstep _ rfl rfl hnext' ?_
          rw [List.length_eq_zero_iff.mp hzero, List.append_nil]
        · rw [if_neg fun heq => hzero (hcount.symm.trans heq), if_neg hzero]
          by_cases hmem : s.env.memory 0 = 0
          · refine ⟨_, true, if_pos hmem, Bool.noConfusion, fun hall => ?_⟩
            exact absurd hmem (hall 0 (by omega))
          · obtain ⟨t, held, hrun, hiff⟩ := hstep { s with
                env := { s.env with memory := fun n => s.env.memory (n + 1) }
                rcvNxt := s.rcvNxt + BitVec.ofNat 32 (nodePayload (s.nodes s.segmentList)).2
                recvBuffer := s.recvBuffer ++ p.payload }
              rfl rfl hnext' rfl
            rw [← hbytes] at hrun
            refine ⟨t, held, (if_neg hmem).trans ((if_neg (not_lt.mpr hroom)).trans hrun), ?_⟩
            rw [hiff, Nat.add_comm 1]
            constructor
            · intro hall i hi
              cases i with
              | zero => exact hmem
              | succ i => exact hall i (Nat.lt_of_succ_lt_succ hi)
            · exact fun hall i hi => hall (i + 1) (Nat.succ_lt_succ hi)

def ResizesSucceed (s : TcpConn) (segment : TcpSegment) (next : ℕ) (ps : List Piece) : Prop :=
  let pos := next + (segment.seq - s.rcvNxt).toNat
  ∀ i < resizes (insertedPieces s.env.memory ps (piece segment pos)) next s.recvBuffer.length,
    s.env.memory (i + insertAllocations s.env.memory) ≠ 0

theorem insertedPieces_sublist (memory : ℕ → ℕ) (ps : List Piece) (new : Piece) :
    (insertedPieces memory ps new).Sublist (insertPiece ps new) := by
  unfold insertedPieces
  split
  · exact List.Sublist.refl _
  · rw [insertPiece_eq]
    exact (List.sublist_cons_self _ _).append_left _

/-- A segment that goes through to the list is delivered atomically if and only if the resizes
succeed. -/
theorem Pieces.accept_atomic_iff (h : s.Pieces base 16384 next ps) (hheader : 5 ≤ segment.off)
    (hoff : segment.off < 16) (hfresh : s.FreshMemory segment) (haccept : s.Accepts segment)
    (hrst : segment.flags.rst = false) (hwindow : s.InWindow segment)
    (hwrap : ¬ s.TrimsAcrossWrap segment.seq segment.payloadLen) :
    ∃ t held, tcpHandleDataInLock s segment = some (t, held) ∧
      (s.Atomic t held ↔ s.ResizesSucceed segment next ps) := by
  have hroom := tcpRecvWindow_le s
  have hbuffer := h.buffer
  have hpos := exists_seqAt base segment.seq next
  unfold InWindow at hwindow
  unfold ResizesSucceed
  rw [h.rcvNxt] at hwindow ⊢
  generalize (segment.seq - seqAt base next).toNat = d at hwindow hpos ⊢
  have hbody := TcpReceiver.payloadLen_le hheader hoff (by omega)
  have hsublist := insertedPieces_sublist s.env.memory ps (piece segment (next + d))
  obtain ⟨t, hinsert, honly, hholds, hmem⟩ :=
    tcpOrdListInsert_pieces (piece segment (next + d)) h.holds
    (h.near le_rfl) (show next - 16384 ≤ next + d by omega)
    (show next + d + segment.payloadLen < next - 16384 +
      2 ^ 31 by omega) hpos rfl rfl rfl h.body hfresh
    hwrap
  have hapart : Apart 16384 (insertPiece ps (piece segment (next + d))) := by
    refine h.apart.insertPiece fun _ p hp => ?_
    have := h.window p (List.mem_of_mem_getLast? hp)
    change p.finish ≤ next + d + 16384
    omega
  have hahead : Ahead 16384 next (insertPiece ps (piece segment (next + d))) :=
    h.ahead.insertPiece (Nat.le_add_right_of_le (Nat.le_add_right next d))
  have hend : next + d + segment.payloadLen ≤ next + tcpRecvWindow s := by omega
  have hinwindow := h.insert_window hend
  have hbodies : ∀ p ∈ insertPiece ps (piece segment (next + d)), p.len ≤ p.body.length :=
    insertPiece_forall h.body hbody (fun p hp _ => Piece.cutBack_len_le hp _)
      fun p hp hlt => Piece.cutFront_len_le hp hlt
  have hbuf : t.recvBuffer = s.recvBuffer := by rw [honly]
  have hnxt : t.rcvNxt = seqAt base next := by
    rw [honly]
    exact h.rcvNxt
  have hlength : (insertedPieces s.env.memory ps (piece segment (next + d))).length < 2 ^ 64 := by
    obtain ⟨xs, hqueue, hmap⟩ := hholds
    have hcount := congrArg List.length hmap
    rw [List.length_map, List.length_map] at hcount
    exact hcount ▸ hqueue.length_lt
  obtain ⟨u, held, hprocess, hiff⟩ := tcpProcessQueueLock_released_iff hholds hnxt
    (hapart.sublist hsublist) (fun p hp => hahead p (hsublist.subset hp)) (by omega)
    (fun p hp => by have := hinwindow p (hsublist.subset hp); omega)
    (fun p hp => hbodies p (hsublist.subset hp)) (by rw [hbuf]; omega) hlength
  refine ⟨tcpSendAck u, held, ?_, ?_⟩
  · unfold tcpHandleDataInLock
    dsimp only
    rw [if_neg haccept.1, if_neg (not_not.mpr haccept.2), hrst, hinsert]
    dsimp only [Option.bind_eq_bind, Option.bind_some]
    rw [hprocess]
    rfl
  · simp only [hbuf, hmem] at hiff
    rw [← hiff]
    refine ⟨fun hatomic => hatomic.released, ?_⟩
    rintro rfl
    exact (honly.counted.trans (tcpProcessQueueLock_counted hprocess)).sendAck

theorem reject_atomic (h : ¬ (s.Accepts segment ∧ segment.flags.rst = false)) :
    ∃ t, tcpHandleDataInLock s segment = some (t, false) ∧ s.Atomic t false := by
  have hsent := (Counted.refl s).sendAck
  have hdropped : ∀ t : TcpConn, t.recvBuffer = s.recvBuffer → t.rcvNxt = s.rcvNxt →
      t.wire = s.wire → s.Atomic t false := by
    intro t hbuffer hnxt hwire
    exact ⟨⟨[], [], by simp [hbuffer], by simp [hnxt], by simp [hwire], by simp⟩, rfl⟩
  unfold tcpHandleDataInLock
  dsimp only
  split
  case isTrue => exact ⟨_, rfl, hsent⟩
  case isFalse hbelow =>
    split
    case isTrue =>
      split
      · exact ⟨s, rfl, hdropped s rfl rfl rfl⟩
      · exact ⟨_, rfl, hsent⟩
    case isFalse hwindow =>
      have hrst : segment.flags.rst = true := by
        by_contra hne
        exact h ⟨⟨hbelow, not_not.mp hwindow⟩, Bool.eq_false_of_not_eq_true hne⟩
      rw [if_pos hrst]
      exact ⟨_, rfl, hdropped _ rfl rfl rfl⟩

def fullEnv : TcpEnv := { envAt 4096 with memory := fun n => if n = 2 then 0 else 4096 + 64 * n }

def deliveryStart : TcpConn := { establishedConn 0 100 with env := fullEnv }

end TcpConn

end RetroRocket
