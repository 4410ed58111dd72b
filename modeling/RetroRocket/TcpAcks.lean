import RetroRocket.TcpSend

/-!
# Acknowledgements of what is refused

A segment that is refused should be answered with an acknowledgement, as the peer may have missed
the last one. `tcp_send_ack` sends none for the number it has sent one for already, `rcv_lst`. On an
established connection that is always the current one, so that refused data is never answered.
-/

namespace RetroRocket

namespace TcpConn

variable {s t u : TcpConn} {segment : TcpSegment} {options : TcpOptions} {c : TcpCall}

/-- `tcp_handle_data_in` hands out a segment that acknowledges what has been received. -/
def Acknowledges (s : TcpConn) (segment : TcpSegment) : Prop :=
  ∃ t, tcpHandleDataIn s segment = some t ∧
    ∃ sent, t.wire = s.wire ++ sent ∧ ∃ packet ∈ sent, packet.flags.ack ∧ packet.ack = t.rcvNxt

def CarriesData (s : TcpConn) : Prop :=
  s.state = .established ∨ s.state = .finWait1 ∨ s.state = .finWait2

structure Fresh (s : TcpConn) : Prop where
  rcvLst : s.rcvLst = 0
  rcvNxt : s.rcvNxt = s.irs + 1

/-! ## One call -/

theorem tcpHandleDataIn_refused (hrefused : ¬ s.Accepts segment)
    (hrst : segment.flags.rst = false) :
    tcpHandleDataIn s segment = some (tcpSendAck s) := by
  unfold tcpHandleDataIn
  dsimp only
  split
  case isTrue => rfl
  case isFalse hbelow =>
    rw [if_pos fun hwindow => hrefused ⟨hbelow, hwindow⟩, hrst]
    rfl

theorem tcpRetxEnqueue_wire (s : TcpConn) (seq : BitVec 32) (packet : TcpSegment) (count : ℕ) :
    (tcpRetxEnqueue s seq packet count).wire = s.wire := by
  unfold tcpRetxEnqueue kmalloc
  dsimp only
  split
  · rfl
  · split
    · rfl
    · split <;> rfl

theorem tcpSendAck_of_ne (hne : s.rcvNxt ≠ s.rcvLst) :
    ∃ packet, (tcpSendAck s).wire = s.wire ++ [packet] ∧ packet.flags.ack ∧
      packet.ack = s.rcvNxt := by
  unfold tcpSendAck tcpSendAckFlags
  rw [if_neg hne]
  unfold tcpSendSegment
  dsimp only
  rw [tcpRetxEnqueue_wire]
  exact ⟨_, rfl, rfl, rfl⟩

theorem tcpSendAck_of_eq (heq : s.rcvNxt = s.rcvLst) : tcpSendAck s = s := by
  unfold tcpSendAck tcpSendAckFlags
  rw [if_pos heq]

theorem acknowledges_iff (hrefused : ¬ s.Accepts segment) (hrst : segment.flags.rst = false) :
    s.Acknowledges segment ↔ s.rcvNxt ≠ s.rcvLst := by
  have hcall := tcpHandleDataIn_refused hrefused hrst
  constructor
  · rintro ⟨t, ht, sent, hwire, packet, hmem, -⟩ heq
    obtain rfl := Option.some.inj (ht.symm.trans hcall)
    rw [tcpSendAck_of_eq heq, List.self_eq_append_right] at hwire
    rw [hwire] at hmem
    cases hmem
  · intro hne
    obtain ⟨packet, hwire, hack, hnum⟩ := tcpSendAck_of_ne hne
    have hnxt : (tcpSendAck s).rcvNxt = s.rcvNxt := (tcpSendAckFlags_sameReceive ackFlags s).rcvNxt
    exact ⟨_, hcall, [packet], hwire, packet, List.mem_singleton_self _, hack, hnum.trans hnxt.symm⟩

/-! ## Runs -/

structure SameAcks (s t : TcpConn) : Prop where
  state : t.state = s.state
  irs : t.irs = s.irs
  rcvNxt : t.rcvNxt = s.rcvNxt
  rcvLst : t.rcvLst = s.rcvLst

theorem SameAcks.refl (s : TcpConn) : s.SameAcks s := ⟨rfl, rfl, rfl, rfl⟩

theorem SameAcks.trans (h : s.SameAcks t) (h' : t.SameAcks u) : s.SameAcks u where
  state := h'.state.trans h.state
  irs := h'.irs.trans h.irs
  rcvNxt := h'.rcvNxt.trans h.rcvNxt
  rcvLst := h'.rcvLst.trans h.rcvLst

theorem Fresh.same (h : s.Fresh) (hirs : t.irs = s.irs) (hnxt : t.rcvNxt = s.rcvNxt)
    (hlst : t.rcvLst = s.rcvLst) : t.Fresh :=
  ⟨hlst.trans h.rcvLst, by rw [hnxt, hirs, h.rcvNxt]⟩

def AckedOrFresh (s : TcpConn) : Prop := s.rcvNxt = s.rcvLst ∨ s.Fresh

theorem AckedOrFresh.same (h : s.AckedOrFresh) (hirs : t.irs = s.irs) (hnxt : t.rcvNxt = s.rcvNxt)
    (hlst : t.rcvLst = s.rcvLst) : t.AckedOrFresh := by
  rcases h with heq | hfresh
  · exact .inl (by rw [hnxt, hlst, heq])
  · exact .inr (hfresh.same hirs hnxt hlst)

/-- What `rcv_lst` is in each state. -/
def AckInv (s : TcpConn) : Prop :=
  match s.state with
  | .synSent => s.rcvLst = 0
  | .synReceived => s.Fresh
  | .established => s.rcvNxt = s.rcvLst
  | .finWait1 | .finWait2 => s.AckedOrFresh
  | _ => True

theorem AckInv.same (h : s.AckInv) (ht : s.SameAcks t) : t.AckInv := by
  unfold AckInv at h ⊢
  rw [ht.state]
  cases hstate : s.state <;> rw [hstate] at h <;> dsimp only at h ⊢
  case synSent => exact ht.rcvLst.trans h
  case synReceived => exact h.same ht.irs ht.rcvNxt ht.rcvLst
  case established => rw [ht.rcvNxt, ht.rcvLst, h]
  case finWait1 => exact h.same ht.irs ht.rcvNxt ht.rcvLst
  case finWait2 => exact h.same ht.irs ht.rcvNxt ht.rcvLst

/-- The current number is acknowledged, and so the invariant holds in every state behind the
handshake. -/
theorem ackInv_of_eq (heq : s.rcvNxt = s.rcvLst) (hsent : s.state ≠ .synSent)
    (hreceived : s.state ≠ .synReceived) : s.AckInv := by
  unfold AckInv
  cases hstate : s.state <;> dsimp only
  case synSent => exact absurd hstate hsent
  case synReceived => exact absurd hstate hreceived
  case established => exact heq
  case finWait1 => exact .inl heq
  case finWait2 => exact .inl heq

theorem tcpRetxEnqueue_sameAcks (s : TcpConn) (seq : BitVec 32) (packet : TcpSegment) (count : ℕ) :
    s.SameAcks (tcpRetxEnqueue s seq packet count) := by
  unfold tcpRetxEnqueue kmalloc
  dsimp only
  split
  · exact SameAcks.refl s
  · split
    · exact ⟨rfl, rfl, rfl, rfl⟩
    · split <;> exact ⟨rfl, rfl, rfl, rfl⟩

theorem tcpSendSegment_sameAcks (s : TcpConn) (seq : BitVec 32) (flags : TcpFlags)
    (data : List Byte) : s.SameAcks (tcpSendSegment s seq flags data) := by
  unfold tcpSendSegment
  dsimp only
  generalize hpacket : TcpSegment.mk seq _ _ _ _ _ = packet
  obtain ⟨hstate, hirs, hnxt, hlst⟩ := tcpRetxEnqueue_sameAcks s seq packet data.length
  exact ⟨hstate, hirs, hnxt, hlst⟩

theorem tcpSendAckFlags_acked (flags : TcpFlags) (s : TcpConn) :
    (tcpSendAckFlags flags s).rcvNxt = (tcpSendAckFlags flags s).rcvLst ∧
      (tcpSendAckFlags flags s).state = s.state := by
  unfold tcpSendAckFlags
  split
  case isTrue heq => exact ⟨heq, rfl⟩
  case isFalse =>
    have hsame := tcpSendSegment_sameAcks { s with rcvLst := s.rcvNxt } s.sndNxt flags []
    exact ⟨hsame.rcvNxt.trans hsame.rcvLst.symm, hsame.state⟩

theorem OnlyAck.sameAcks (h : s.OnlyAck t) : s.SameAcks t := by
  rw [h]
  exact ⟨rfl, rfl, rfl, rfl⟩

theorem tcpHandleDataIn_acked (h : tcpHandleDataIn s segment = some t) :
    (segment.flags.rst ∧ (t = s ∨ t = tcpFree s)) ∨ t.rcvNxt = t.rcvLst ∧ t.state = s.state := by
  unfold tcpHandleDataIn at h
  dsimp only at h
  split at h
  · obtain rfl := Option.some.inj h
    exact .inr (tcpSendAckFlags_acked ackFlags s)
  · split at h
    · split at h
      · next hrst =>
        obtain rfl := Option.some.inj h
        exact .inl ⟨hrst, .inl rfl⟩
      · obtain rfl := Option.some.inj h
        exact .inr (tcpSendAckFlags_acked ackFlags s)
    · split at h
      · next hrst =>
        obtain rfl := Option.some.inj h
        exact .inl ⟨hrst, .inr rfl⟩
      · obtain ⟨u, hinsert, h⟩ := Option.bind_eq_some_iff.mp h
        obtain ⟨v, hprocess, h⟩ := Option.bind_eq_some_iff.mp h
        obtain rfl := Option.some.inj h
        have honly := (tcpOrdListInsert_onlyQueue hinsert).onlyReceive.trans
          (tcpProcessQueue_onlyReceive hprocess)
        obtain ⟨hacked, hstate⟩ := tcpSendAckFlags_acked ackFlags v
        exact .inr ⟨hacked, hstate.trans honly.sameSend.state⟩

theorem AckInv.free (h : s.AckInv) : (tcpFree s).AckInv := h.same ⟨rfl, rfl, rfl, rfl⟩

theorem ackInv_of_state (h : t.state = .closeWait ∨ t.state = .closing ∨ t.state = .lastAck ∨
    t.state = .timeWait) : t.AckInv := by
  unfold AckInv
  rcases h with h | h | h | h <;> rw [h] <;> trivial

theorem AckInv.handleDataIn (h : s.AckInv) (hsent : s.state ≠ .synSent)
    (hreceived : s.state ≠ .synReceived) (hrun : tcpHandleDataIn s segment = some t) :
    t.AckInv := by
  rcases tcpHandleDataIn_acked hrun with ⟨-, rfl | rfl⟩ | ⟨hacked, hstate⟩
  · exact h
  · exact h.free
  · exact ackInv_of_eq hacked (by rw [hstate]; exact hsent) (by rw [hstate]; exact hreceived)

theorem ackInv_receiveFin (segment : TcpSegment) (hsent : s.state ≠ .synSent) :
    (tcpStateReceiveFin s segment).AckInv := by
  unfold tcpStateReceiveFin
  dsimp only
  generalize hstep : (if segment.seq = s.rcvNxt then { s with rcvNxt := s.rcvNxt + 1 } else s) = u
  have hu : u.state = s.state := by
    rw [← hstep]
    split <;> rfl
  obtain ⟨hacked, hstate⟩ := tcpSendAckFlags_acked ackFlags u
  change (tcpSendAck u).rcvNxt = (tcpSendAck u).rcvLst at hacked
  change (tcpSendAck u).state = u.state at hstate
  cases hs : s.state <;> rw [hstate, hu, hs] <;> dsimp only
  case synSent => exact absurd hs hsent
  case synReceived => exact ackInv_of_state (.inl rfl)
  case established => exact ackInv_of_state (.inl rfl)
  case finWait1 =>
    split
    · exact ackInv_of_state (.inr (.inr (.inr rfl)))
    · exact ackInv_of_state (.inr (.inl rfl))
  case finWait2 => exact ackInv_of_state (.inr (.inr (.inr rfl)))
  case timeWait =>
    have hwait : (tcpSetConnMslTime (tcpSendAck u)).state = (tcpSendAck u).state := by
      simp only [tcpSetConnMslTime]
    exact ackInv_of_state (.inr (.inr (.inr (hwait.trans ((hstate.trans hu).trans hs)))))
  all_goals
    exact ackInv_of_eq hacked (by rw [hstate, hu, hs]; decide) (by rw [hstate, hu, hs]; decide)

theorem AckInv.synSent (h : s.AckInv) (hstate : s.state = .synSent) :
    (tcpStateSynSent s segment options).AckInv := by
  have hlst : s.rcvLst = 0 := by
    unfold AckInv at h
    rw [hstate] at h
    exact h
  unfold tcpStateSynSent
  split
  · split
    · exact h
    · exact h.same (tcpSendSegment_sameAcks s _ _ _)
  · split
    · exact h
    · split
      · dsimp only
        split
        · obtain ⟨hacked, hack⟩ := tcpSendAckFlags_acked ackFlags (tcpSetState { s with
            peerMss := if options.mss ≠ 0 then options.mss else s.peerMss
            windowScaling :=
              (options.windowScalePresent && decide (0 < s.rcvWscale)) || s.windowScaling
            irs := segment.seq
            rcvNxt := segment.seq + 1
            sndUna := segment.ack } .established)
          refine ackInv_of_eq hacked (fun hbad => ?_) fun hbad => ?_ <;> cases hack.symm.trans hbad
        · refine AckInv.same ?_ (tcpSendSegment_sameAcks _ _ _ _)
          exact ⟨hlst, rfl⟩
      · exact h

theorem AckInv.synReceived (h : s.AckInv) (hstate : s.state = .synReceived)
    (hrun : tcpStateSynReceived s segment = some t) : t.AckInv := by
  unfold tcpStateSynReceived at hrun
  split at hrun
  · obtain rfl := Option.some.inj hrun
    exact ackInv_receiveFin segment (by rw [hstate]; decide)
  · split at hrun
    · obtain rfl := Option.some.inj hrun
      exact h.free
    · next hrst =>
      split at hrun
      · split at hrun
        · dsimp only at hrun
          split at hrun
          · rcases tcpHandleDataIn_acked hrun with ⟨hbad, -⟩ | ⟨hacked, hest⟩
            · exact absurd hbad hrst
            · refine ackInv_of_eq hacked (fun hbad => ?_) fun hbad => ?_ <;>
                cases hest.symm.trans hbad
          · obtain rfl := Option.some.inj hrun
            obtain ⟨hacked, hest⟩ := tcpSendAckFlags_acked ackFlags
              (tcpSetState (tcpRetxAcknowledge s segment.ack) .established)
            refine ackInv_of_eq hacked (fun hbad => ?_) fun hbad =>
              ?_ <;> cases hest.symm.trans hbad
        · obtain rfl := Option.some.inj hrun
          exact h.same (tcpSendSegment_sameAcks s _ _ _)
      · obtain rfl := Option.some.inj hrun
        exact h

theorem AckInv.established (h : s.AckInv) (hstate : s.state = .established)
    (hrun : tcpStateEstablished s segment = some t) : t.AckInv := by
  have honly := tcpProcessAck_onlyAck s segment
  have hack : (tcpProcessAck s segment).AckInv := h.same honly.sameAcks
  have hackState := honly.state.trans hstate
  have hfinish : ∀ u : TcpConn, u.AckInv → u.state = .established →
      (if segment.flags.fin then ifAlive u fun u =>
        some (tcpStateReceiveFin u segment) else some u) =
        some t → t.AckInv := by
    intro u hu hustate hrun
    split at hrun
    · unfold ifAlive at hrun
      split at hrun
      · obtain rfl := Option.some.inj hrun
        exact ackInv_receiveFin segment (by rw [hustate]; decide)
      · cases hrun
    · obtain rfl := Option.some.inj hrun
      exact hu
  unfold tcpStateEstablished at hrun
  dsimp only at hrun
  split at hrun
  · obtain ⟨u, hdata, hrun⟩ := Option.bind_eq_some_iff.mp hrun
    have hu := hack.handleDataIn (by rw [hackState]; decide) (by rw [hackState]; decide) hdata
    refine hfinish u hu ?_ hrun
    rcases tcpHandleDataIn_acked hdata with ⟨-, rfl | rfl⟩ | ⟨-, hsame⟩
    · exact hackState
    · exact hackState
    · exact hsame.trans hackState
  · exact hfinish _ hack hackState hrun

theorem AckInv.finWait1 (h : s.AckInv) (hstate : s.state = .finWait1)
    (hrun : tcpStateFinWait1 s segment = some t) : t.AckInv := by
  have honly := tcpProcessAck_onlyAck s segment
  have hack : (tcpProcessAck s segment).AckInv := h.same honly.sameAcks
  have hackState := honly.state.trans hstate
  have hsome : (tcpProcessAck s segment).AckedOrFresh := by
    unfold AckInv at hack
    rw [hackState] at hack
    exact hack
  unfold tcpStateFinWait1 at hrun
  dsimp only at hrun
  obtain ⟨u, hdata, hrun⟩ := Option.bind_eq_some_iff.mp hrun
  have hu : u.AckInv := by
    split at hdata
    · have hwait : (tcpSetState (tcpProcessAck s segment) .finWait2).AckInv :=
        hsome.same rfl rfl rfl
      exact hwait.handleDataIn (fun h => by cases h) (fun h => by cases h) hdata
    · exact hack.handleDataIn (by rw [hackState]; decide) (by rw [hackState]; decide) hdata
  split at hrun
  · unfold ifAlive at hrun
    split at hrun
    · dsimp only at hrun
      split at hrun
      · obtain rfl := Option.some.inj hrun
        exact ackInv_of_state (.inr (.inr (.inr rfl)))
      · obtain rfl := Option.some.inj hrun
        exact ackInv_of_state (.inr (.inl rfl))
    · cases hrun
  · obtain rfl := Option.some.inj hrun
    exact hu

theorem AckInv.stateMachine (h : s.AckInv) (hrun : tcpStateMachine s segment options = some t) :
    t.AckInv := by
  have honly := tcpProcessAck_onlyAck s segment
  have hacked : (tcpProcessAck s segment).AckInv := h.same honly.sameAcks
  unfold tcpStateMachine at hrun
  cases hstate : s.state with
  | listen =>
    rw [hstate] at hrun
    obtain rfl := Option.some.inj hrun
    exact h
  | synSent =>
    rw [hstate] at hrun
    obtain rfl := Option.some.inj hrun
    exact h.synSent hstate
  | synReceived =>
    rw [hstate] at hrun
    exact h.synReceived hstate hrun
  | established =>
    rw [hstate] at hrun
    exact h.established hstate hrun
  | finWait1 =>
    rw [hstate] at hrun
    exact h.finWait1 hstate hrun
  | finWait2 =>
    rw [hstate] at hrun
    exact hacked.handleDataIn (by rw [honly.state, hstate]; decide)
      (by rw [honly.state, hstate]; decide) hrun
  | closeWait =>
    rw [hstate] at hrun
    obtain rfl := Option.some.inj hrun
    exact ackInv_of_state (.inr (.inr (.inl rfl)))
  | closing =>
    rw [hstate] at hrun
    obtain rfl := Option.some.inj hrun
    unfold tcpStateClosing
    dsimp only
    split
    · exact ackInv_of_state (.inr (.inr (.inr rfl)))
    · exact hacked
  | lastAck =>
    rw [hstate] at hrun
    obtain rfl := Option.some.inj hrun
    unfold tcpStateLastAck
    dsimp only
    split
    · exact hacked.free
    · exact hacked
  | timeWait =>
    rw [hstate] at hrun
    obtain rfl := Option.some.inj hrun
    unfold tcpStateTimeWait
    split
    · exact ackInv_receiveFin segment (by rw [hstate]; decide)
    · exact h

theorem AckInv.close (h : s.AckInv) : (tcpClose s).AckInv := by
  have hsend := tcpSendSegment_sameAcks s s.sndNxt finAckFlags []
  unfold AckInv at h
  unfold tcpClose
  cases hstate : s.state <;> rw [hstate] at h <;> dsimp only at h ⊢
  case listen | synSent =>
    have hfree : (tcpFree s).state = s.state := rfl
    unfold AckInv
    rw [hfree, hstate]
    exact h
  case synReceived =>
    have hfresh : (tcpSendSegment s s.sndNxt finAckFlags []).Fresh :=
      h.same hsend.irs hsend.rcvNxt hsend.rcvLst
    exact AckedOrFresh.same (.inr hfresh) rfl rfl rfl
  case established =>
    have heq : (tcpSendSegment s s.sndNxt finAckFlags []).AckedOrFresh :=
      .inl (by rw [hsend.rcvNxt, hsend.rcvLst, h])
    exact heq.same rfl rfl rfl
  case closeWait => exact ackInv_of_state (.inr (.inr (.inl rfl)))
  all_goals
    unfold AckInv
    rw [hstate]
    exact h

theorem recv_sameAcks (s : TcpConn) (maxlen : ℕ) : s.SameAcks (recv s maxlen).2 := by
  unfold recv kmalloc
  dsimp only
  split
  · exact SameAcks.refl s
  · generalize (if maxlen < s.recvBuffer.length then maxlen else s.recvBuffer.length) = n
    split
    · exact ⟨rfl, rfl, rfl, rfl⟩
    · split <;> exact ⟨rfl, rfl, rfl, rfl⟩

theorem tcpWrite_sameAcks {data : List Byte} (hrun : tcpWrite s data = some t) : s.SameAcks t := by
  unfold tcpWrite at hrun
  split at hrun
  · obtain rfl := Option.some.inj hrun
    exact SameAcks.refl s
  · split at hrun
    · obtain rfl := Option.some.inj hrun
      exact SameAcks.refl s
    · split at hrun
      · cases hrun
      · obtain rfl := Option.some.inj hrun
        exact tcpSendSegment_sameAcks s _ _ _

theorem tcpRetxTimer_sameAcks (s : TcpConn) : s.SameAcks (tcpRetxTimer s) := by
  rcases tcpRetxTimer_cases s with heq | heq | heq
  · rw [heq]
    exact ⟨rfl, rfl, rfl, rfl⟩
  · rw [heq]
    exact (tcpRetxResendHead_onlyAck s).sameAcks
  · rw [heq]
    exact SameAcks.refl s

theorem tcpIdle_sameAcks (hrun : tcpIdle s = some t) : s.SameAcks t := by
  have htimer := tcpRetxTimer_sameAcks s
  unfold tcpIdle at hrun
  dsimp only at hrun
  split at hrun
  · obtain rfl := Option.some.inj hrun
    exact htimer
  · split at hrun
    · rcases tcpDrainSendBuffer_eq hrun with ⟨-, rfl⟩ | ⟨u, hwrite, heq, -⟩
      · exact htimer
      · refine (htimer.trans (tcpWrite_sameAcks hwrite)).trans ?_
        rw [heq]
        exact ⟨rfl, rfl, rfl, rfl⟩
    · split at hrun
      · obtain rfl := Option.some.inj hrun
        exact htimer.trans ⟨rfl, rfl, rfl, rfl⟩
      · obtain rfl := Option.some.inj hrun
        exact htimer

theorem Made.ackInv (h : s.Made) : s.AckInv := by
  rcases h with ⟨env, rfl⟩ | ⟨env, queued, segment, options, hlisten⟩
  · have hopen : AckInv { emptyConn env .synSent with sndNxt := env.isn + 1 } := rfl
    exact hopen.same (tcpSendSegment_sameAcks _ _ _ _)
  · unfold tcpStateListen at hlisten
    split at hlisten
    · cases hlisten
    · have hchild : ∀ u : TcpConn, u.state = .synReceived → u.Fresh → u.AckInv ∧
          (tcpSendSegment u u.sndNxt synAckFlags []).AckInv := by
        intro u hstate hfresh
        have hu : u.AckInv := by
          unfold AckInv
          rw [hstate]
          exact hfresh
        exact ⟨hu, hu.same (tcpSendSegment_sameAcks u _ _ _)⟩
      dsimp only [kmalloc] at hlisten
      split at hlisten
      · split at hlisten
        · obtain rfl := Option.some.inj hlisten
          exact (hchild _ rfl ⟨rfl, rfl⟩).1
        · obtain rfl := Option.some.inj hlisten
          exact (hchild _ rfl ⟨rfl, rfl⟩).2
      · obtain rfl := Option.some.inj hlisten
        exact (hchild _ rfl ⟨rfl, rfl⟩).2

theorem AckInv.call (h : s.AckInv) (hcall : s.call c = some t) : t.AckInv := by
  have hwithin : ∀ env : TcpEnv, AckInv { s with env := env } :=
    fun env => h.same ⟨rfl, rfl, rfl, rfl⟩
  cases c with
  | segment env segment options => exact (hwithin env).stateMachine hcall
  | send env buffer =>
    obtain ⟨⟨ok, u⟩, hsend, rfl⟩ := Option.map_eq_some_iff.mp hcall
    rcases send_eq hsend with ⟨-, rfl⟩ | ⟨-, hidle⟩
    · exact (hwithin env).same ⟨rfl, rfl, rfl, rfl⟩
    · refine AckInv.same ?_ (tcpIdle_sameAcks hidle)
      exact (hwithin env).same ⟨rfl, rfl, rfl, rfl⟩
  | recv env maxlen =>
    obtain rfl := Option.some.inj hcall
    exact (hwithin env).same (recv_sameAcks _ maxlen)
  | close env =>
    obtain rfl := Option.some.inj hcall
    exact (hwithin env).close
  | idle env => exact (hwithin env).same (tcpIdle_sameAcks hcall)

/-- In every state that a connection reaches, refused data is answered exactly if the current number
has not been acknowledged. That is never so in ESTABLISHED, and in the other two states only as long
as nothing has been received and acknowledged since the handshake. -/
theorem run_acknowledges (conn : TcpConn) (hmade : conn.Made)
    (hrun : Run call (fun s _ => s.alive) conn s) (hcarries : s.CarriesData) (env : TcpEnv)
    (segment : TcpSegment) (hrefused : ¬ s.Accepts segment) (hrst : segment.flags.rst = false) :
    (Acknowledges { s with env := env } segment ↔ s.rcvNxt ≠ s.rcvLst) ∧
      (s.rcvNxt ≠ s.rcvLst → s.state ≠ .established ∧ s.Fresh) := by
  have hinv : s.AckInv := hrun.preserved hmade.ackInv fun h _ hcall => h.call hcall
  have hsame : TcpConn.SameReceive s { s with env := env } := ⟨rfl, rfl, rfl, rfl, rfl, rfl⟩
  refine ⟨acknowledges_iff (fun haccept => hrefused (hsame.accepts haccept)) hrst, fun hne => ?_⟩
  unfold AckInv at hinv
  rcases hcarries with hstate | hstate | hstate <;> rw [hstate] at hinv
  · exact absurd hinv hne
  · exact ⟨by rw [hstate]; decide, hinv.resolve_left hne⟩
  · exact ⟨by rw [hstate]; decide, hinv.resolve_left hne⟩

def byteSegment : TcpSegment := dataSegment 0 101 [0x68]

def synReceivedClosed : TcpConn := Run.next call synReceivedStart (.close (envAt 8192))

theorem run_acknowledges_closed :
    Acknowledges { synReceivedClosed with env := envAt 16384 } (dataSegment 0 1 [0x68]) := by
  have hmade : synReceivedStart.Made :=
    Or.inr ⟨envAt 4096, false, ⟨100, 0, 5, synFlags, 65535, []⟩, ⟨0, 0, false⟩, rfl⟩
  have hrun : Run call (fun s _ => s.alive) synReceivedStart synReceivedClosed := by
    unfold synReceivedClosed
    exact Run.next_step Run.refl rfl (by decide +kernel)
  refine (run_acknowledges synReceivedStart hmade hrun
    (.inr (.inl (by decide +kernel))) (envAt 16384)
    (dataSegment 0 1 [0x68]) ?_ rfl).1.mpr (by decide +kernel)
  unfold Accepts
  decide +kernel

def byteReceived : TcpConn :=
  Run.next call synReceivedAnswered (.segment (envAt 16384) byteSegment ⟨0, 0, false⟩)

theorem byte_not_acknowledged :
    synReceivedStart.Made ∧ Run call (fun s _ => s.alive) synReceivedStart byteReceived ∧
      byteReceived.CarriesData ∧ ¬ byteReceived.Accepts byteSegment ∧
      byteReceived.recvBuffer = [0x68] ∧ ¬ byteReceived.Acknowledges byteSegment := by
  have hrefused : ¬ byteReceived.Accepts byteSegment := by
    unfold Accepts
    decide +kernel
  refine ⟨Or.inr ⟨envAt 4096, false, ⟨100, 0, 5, synFlags, 65535, []⟩, ⟨0, 0, false⟩, rfl⟩, ?_,
    .inl (by decide +kernel), hrefused, by decide +kernel, ?_⟩
  · unfold byteReceived
    refine Run.next_step ?_ (by decide +kernel) (by decide +kernel)
    unfold synReceivedAnswered
    exact Run.next_step Run.refl rfl (by decide +kernel)
  · rw [acknowledges_iff hrefused rfl]
    decide +kernel

end TcpConn

end RetroRocket
