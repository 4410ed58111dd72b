import RetroRocket.TcpStates

/-!
# What the handlers leave alone

Reassembly does not touch the send side of a connection, and the send side does not touch
reassembly.
-/

namespace RetroRocket

namespace TcpConn

variable {s t u : TcpConn} {segment : TcpSegment} {seq : BitVec 32} {cur len fuel : ℕ}

/-! ## The send side -/

structure SameSend (s t : TcpConn) : Prop where
  state : t.state = s.state
  iss : t.iss = s.iss
  sndUna : t.sndUna = s.sndUna
  sndNxt : t.sndNxt = s.sndNxt
  sendBuffer : t.sendBuffer = s.sendBuffer
  retx : t.retx = s.retx
  peerMss : t.peerMss = s.peerMss
  alive : t.alive = s.alive

theorem SameSend.refl (s : TcpConn) : s.SameSend s := ⟨rfl, rfl, rfl, rfl, rfl, rfl, rfl, rfl⟩

theorem SameSend.trans (h : s.SameSend t) (h' : t.SameSend u) : s.SameSend u where
  state := h'.state.trans h.state
  iss := h'.iss.trans h.iss
  sndUna := h'.sndUna.trans h.sndUna
  sndNxt := h'.sndNxt.trans h.sndNxt
  sendBuffer := h'.sendBuffer.trans h.sendBuffer
  retx := h'.retx.trans h.retx
  peerMss := h'.peerMss.trans h.peerMss
  alive := h'.alive.trans h.alive

theorem OnlyReceive.sameSend (h : s.OnlyReceive t) : s.SameSend t := by
  rw [h]
  exact ⟨rfl, rfl, rfl, rfl, rfl, rfl, rfl, rfl⟩

theorem shrinkPrev_onlyQueue (s : TcpConn) (cur : ℕ) (seq : BitVec 32) :
    s.OnlyQueue (shrinkPrev s cur seq) := by
  unfold shrinkPrev
  dsimp only
  split
  · exact OnlyQueue.refl s
  · split
    · exact onlyQueue_setNode s _ _
    · exact OnlyQueue.refl s

theorem removeCovered_onlyQueue {newEnd v : ℕ} (h : removeCovered newEnd fuel cur s = some (t, v)) :
    s.OnlyQueue t := by
  induction fuel generalizing cur s with
  | zero => cases h
  | succ fuel ih =>
    rw [removeCovered] at h
    split at h
    · obtain ⟨rfl, -⟩ := Prod.mk.inj (Option.some.inj h)
      exact OnlyQueue.refl s
    · split at h
      · exact (unlinkNode_onlyQueue s cur).trans (ih h)
      · obtain ⟨rfl, -⟩ := Prod.mk.inj (Option.some.inj h)
        exact OnlyQueue.refl s

theorem trimFront_onlyQueue {newEnd : ℕ} (h : trimFront s cur newEnd = some t) : s.OnlyQueue t := by
  unfold trimFront at h
  dsimp only at h
  split at h
  · split at h
    · cases h
    · obtain rfl := Option.some.inj h
      exact onlyQueue_setNode s _ _
  · obtain rfl := Option.some.inj h
    exact OnlyQueue.refl s

theorem linkNode_onlyQueue {new : ℕ} {node : OrderedNode} (h : linkNode s new cur node = some t) :
    s.OnlyQueue t := by
  unfold linkNode at h
  dsimp only at h
  split at h
  · split at h <;> obtain rfl := Option.some.inj h <;> rfl
  · split at h
    · obtain ⟨tail, -, h⟩ := Option.bind_eq_some_iff.mp h
      obtain rfl := Option.some.inj h
      rfl
    · obtain rfl := Option.some.inj h
      rfl

theorem makeRoom_onlyQueue {v : ℕ} (h : makeRoom s cur seq len = some (t, v)) : s.OnlyQueue t := by
  unfold makeRoom at h
  obtain ⟨⟨u, w⟩, hremove, h⟩ := Option.bind_eq_some_iff.mp h
  obtain ⟨x, htrim, h⟩ := Option.bind_eq_some_iff.mp h
  obtain ⟨rfl, -⟩ := Prod.mk.inj (Option.some.inj h)
  exact ((shrinkPrev_onlyQueue s cur seq).trans (removeCovered_onlyQueue hremove)).trans
    (trimFront_onlyQueue htrim)

theorem tcpOrdListInsert_onlyQueue (h : tcpOrdListInsert s segment len = some t) :
    s.OnlyQueue t := by
  unfold tcpOrdListInsert kmalloc at h
  obtain ⟨cur, -, h⟩ := Option.bind_eq_some_iff.mp h
  dsimp only at h
  split at h
  · obtain rfl := Option.some.inj h
    exact OnlyQueue.refl s
  · obtain ⟨⟨u, v⟩, hroom, h⟩ := Option.bind_eq_some_iff.mp h
    have hu := makeRoom_onlyQueue hroom
    dsimp only at h
    split at h
    · obtain rfl := Option.some.inj h
      exact hu.trans rfl
    · split at h
      · obtain rfl := Option.some.inj h
        exact hu.trans rfl
      · refine OnlyQueue.trans ?_ (linkNode_onlyQueue h)
        exact hu.trans rfl

theorem tcpProcessQueue_onlyReceive (h : tcpProcessQueue fuel s = some t) : s.OnlyReceive t := by
  induction fuel generalizing s with
  | zero => cases h
  | succ fuel ih =>
    rw [tcpProcessQueue] at h
    dsimp only [kmalloc] at h
    split at h
    · obtain rfl := Option.some.inj h
      exact OnlyReceive.refl s
    · split at h
      · obtain rfl := Option.some.inj h
        exact OnlyReceive.refl s
      · split at h
        · refine OnlyReceive.trans ?_ (ih h)
          refine OnlyReceive.trans ?_ (unlinkNode_onlyQueue _ _).onlyReceive
          exact rfl
        · split at h
          · obtain rfl := Option.some.inj h
            rfl
          · split at h
            · cases h
            · refine OnlyReceive.trans ?_ (ih h)
              refine OnlyReceive.trans ?_ (unlinkNode_onlyQueue _ _).onlyReceive
              exact rfl

theorem tcpSendSegment_sameSend (s : TcpConn) (seq : BitVec 32) (flags : TcpFlags)
    (hsyn : flags.syn = false) (hfin : flags.fin = false) :
    s.SameSend (tcpSendSegment s seq flags []) := by
  have hretx : ∀ packet : TcpSegment, packet.flags = flags → tcpRetxEnqueue s seq packet 0 = s := by
    intro packet hflags
    unfold tcpRetxEnqueue
    rw [if_pos ⟨rfl, hflags ▸ hsyn, hflags ▸ hfin⟩]
  unfold tcpSendSegment
  dsimp only [List.length_nil]
  rw [hretx _ rfl]
  refine ⟨rfl, rfl, rfl, ?_, rfl, rfl, rfl, rfl⟩
  simp [hsyn, hfin]

theorem tcpSendAck_sameSend (s : TcpConn) : s.SameSend (tcpSendAck s) := by
  unfold tcpSendAck tcpSendAckFlags
  split
  · exact SameSend.refl s
  · have hack := tcpSendSegment_sameSend { s with rcvLst := s.rcvNxt } s.sndNxt ackFlags rfl rfl
    exact ⟨hack.state, hack.iss, hack.sndUna, hack.sndNxt, hack.sendBuffer, hack.retx, hack.peerMss,
      hack.alive⟩

theorem tcpHandleDataIn_sameSend (h : tcpHandleDataIn s segment = some t) :
    s.SameSend t ∨ segment.flags.rst ∧ t = tcpFree s := by
  unfold tcpHandleDataIn at h
  dsimp only at h
  split at h
  · obtain rfl := Option.some.inj h
    exact Or.inl (tcpSendAck_sameSend s)
  · split at h
    · split at h <;> obtain rfl := Option.some.inj h
      · exact Or.inl (SameSend.refl s)
      · exact Or.inl (tcpSendAck_sameSend s)
    · split at h
      · next hrst =>
        obtain rfl := Option.some.inj h
        exact Or.inr ⟨hrst, rfl⟩
      · obtain ⟨u, hinsert, h⟩ := Option.bind_eq_some_iff.mp h
        obtain ⟨v, hprocess, h⟩ := Option.bind_eq_some_iff.mp h
        obtain rfl := Option.some.inj h
        have hu := (tcpOrdListInsert_onlyQueue hinsert).onlyReceive
        exact Or.inl (((hu.trans (tcpProcessQueue_onlyReceive hprocess)).sameSend).trans
          (tcpSendAck_sameSend v))

/-! ## Reassembly -/

def withList (t s : TcpConn) : TcpConn :=
  { t with nodes := s.nodes, segmentList := s.segmentList }

theorem unlinkNode_withList (t s : TcpConn) (cur : ℕ) :
    unlinkNode (t.withList s) cur = t.withList (unlinkNode s cur) := by
  by_cases hp : (s.nodes cur).prev = 0 <;> by_cases hn : (s.nodes cur).next = 0 <;>
    by_cases hhead : s.segmentList = cur <;>
    simp [unlinkNode, withList, setNext, setPrev, setNode, hp, hn, hhead]

theorem shrinkPrev_withList (t s : TcpConn) (cur : ℕ) (seq : BitVec 32) :
    shrinkPrev (t.withList s) cur seq = t.withList (shrinkPrev s cur seq) := by
  unfold shrinkPrev withList
  dsimp only
  split
  · rfl
  · split <;> rfl

theorem removeCovered_withList (t s : TcpConn) (newEnd fuel cur : ℕ) :
    removeCovered newEnd fuel cur (t.withList s) =
      (removeCovered newEnd fuel cur s).map fun p => (t.withList p.1, p.2) := by
  induction fuel generalizing s cur with
  | zero => rfl
  | succ fuel ih =>
    have hnodes : (t.withList s).nodes = s.nodes := rfl
    rw [removeCovered, removeCovered, hnodes, unlinkNode_withList, ih]
    split
    · rfl
    · split <;> rfl

theorem trimFront_withList (t s : TcpConn) (cur newEnd : ℕ) :
    trimFront (t.withList s) cur newEnd = (trimFront s cur newEnd).map t.withList := by
  unfold trimFront withList
  dsimp only
  split
  · split <;> rfl
  · rfl

theorem makeRoom_withList (t s : TcpConn) (cur : ℕ) (seq : BitVec 32) (len : ℕ) :
    makeRoom (t.withList s) cur seq len =
      (makeRoom s cur seq len).map fun p => (t.withList p.1, p.2) := by
  unfold makeRoom
  dsimp only
  rw [shrinkPrev_withList, removeCovered_withList]
  cases hremove : removeCovered (u64 (seq.toNat + len)) (2 ^ 64) cur (shrinkPrev s cur seq) with
  | none => rfl
  | some p =>
    dsimp only [Option.map_some, Option.bind_eq_bind, Option.bind_some]
    rw [trimFront_withList]
    cases trimFront p.1 p.2 (u64 (seq.toNat + len)) <;> rfl

theorem SameReceive.tcpRecvWindow_eq (h : s.SameReceive t) : tcpRecvWindow t = tcpRecvWindow s := by
  unfold tcpRecvWindow
  rw [h.recvBuffer, h.windowScaling, h.rcvWscale]

theorem SameReceive.accepts (h : s.SameReceive t) (ht : t.Accepts segment) : s.Accepts segment := by
  unfold Accepts at *
  rw [h.rcvNxt, h.tcpRecvWindow_eq] at ht
  exact ht

theorem SameReceive.trimsAcrossWrap (h : s.SameReceive t) (ht : t.TrimsAcrossWrap seq len) :
    s.TrimsAcrossWrap seq len := by
  obtain ⟨xs, x, hqueue, hx, hgt, hlt, hnot⟩ := ht
  rw [h.nodes] at hgt hlt hnot
  exact ⟨xs, x, hqueue.same h.nodes.symm h.segmentList.symm, hx, hgt, hlt, hnot⟩

theorem Allocates.same (h : s.Allocates segment) (ht : s.SameReceive t) (henv : t.env = s.env) :
    t.Allocates segment := by
  have hlist : t = t.withList s := by
    unfold withList
    rw [← ht.nodes, ← ht.segmentList]
  refine ⟨henv ▸ h.pos, henv ▸ h.bound, fun cur u v hfind hroom xs hxs => ?_⟩
  rw [ht.nodes, ht.segmentList] at hfind
  rw [hlist, makeRoom_withList, Option.map_eq_some_iff] at hroom
  obtain ⟨⟨u', v'⟩, hroom, heq⟩ := hroom
  obtain ⟨rfl, -⟩ := Prod.mk.inj heq
  rw [henv]
  exact h.fresh cur u' v' hfind hroom xs (hxs.same rfl rfl)

/-! ## Acknowledgements -/

def OnlyAck (s t : TcpConn) : Prop :=
  t = { s with
    sndUna := t.sndUna
    lastDupAck := t.lastDupAck
    dupAckCount := t.dupAckCount
    retx := t.retx
    wire := t.wire }

theorem OnlyAck.trans (h : s.OnlyAck t) (h' : t.OnlyAck u) : s.OnlyAck u := by
  unfold OnlyAck at *
  rw [h', h]

theorem OnlyAck.sameReceive (h : s.OnlyAck t) : s.SameReceive t := by
  rw [h]
  exact ⟨rfl, rfl, rfl, rfl, rfl, rfl⟩

theorem OnlyAck.state (h : s.OnlyAck t) : t.state = s.state := by rw [h]

theorem OnlyAck.iss (h : s.OnlyAck t) : t.iss = s.iss := by rw [h]

theorem OnlyAck.sndNxt (h : s.OnlyAck t) : t.sndNxt = s.sndNxt := by rw [h]

theorem tcpRetxResendHead_onlyAck (s : TcpConn) : s.OnlyAck (tcpRetxResendHead s) := by
  unfold tcpRetxResendHead
  split <;> rfl

theorem tcpRetxAcknowledge_onlyAck (s : TcpConn) (ack : BitVec 32) :
    s.OnlyAck (tcpRetxAcknowledge s ack) := by
  unfold tcpRetxAcknowledge
  split <;> rfl

theorem tcpDuplicateAck_onlyAck (s : TcpConn) (segment : TcpSegment) :
    s.OnlyAck (tcpDuplicateAck s segment) := by
  unfold tcpDuplicateAck
  dsimp only
  split
  · rfl
  · split
    · rfl
    · split
      · rfl
      · split
        · rfl
        · split
          · rfl
          · generalize (if s.dupAckCount < 255 then s.dupAckCount + 1 else s.dupAckCount) = n
            split
            · refine OnlyAck.trans ?_ (tcpRetxResendHead_onlyAck { s with dupAckCount := n })
              exact rfl
            · rfl

theorem tcpProcessAck_onlyAck (s : TcpConn) (segment : TcpSegment) :
    s.OnlyAck (tcpProcessAck s segment) := by
  unfold tcpProcessAck
  split
  · rfl
  · split
    · exact tcpRetxAcknowledge_onlyAck s _
    · exact tcpDuplicateAck_onlyAck s _

end TcpConn

end RetroRocket
