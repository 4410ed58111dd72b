import RetroRocket.TcpClose
import RetroRocket.TcpSendStream

/-!
# Two ends of a connection

One end sends and the other one receives. Between their calls the data packets that are on the wire
reach the receiver in any order, any number of times or not at all. The invariant joins that of the
sender, that of the receiver for the stream taken so far, and that data goes out without options.
-/

namespace RetroRocket

def TcpSegment.Plain (p : TcpSegment) : Prop := p.off = 5 ∧ p.flags.rst = false ∧ p.length < 2 ^ 16

namespace TcpConn

variable {s t u : TcpConn} {data : List Byte} {segment : TcpSegment} {base : BitVec 32}
    {pos next n : ℕ}

/-! ## Data packets are plain -/

structure PlainData (s : TcpConn) : Prop where
  wire : ∀ p ∈ s.wire, p.payload ≠ [] → p.Plain
  copies : ∀ e ∈ s.retx, e.segmentCopy.payload ≠ [] → e.segmentCopy.Plain

theorem PlainData.quiet (h : s.PlainData) (hquiet : s.Quiet t) : t.PlainData := by
  refine ⟨fun p hp hdata => ?_, fun e he hdata => ?_⟩
  · rcases hquiet.added p hp with hp | hp | ⟨e, he, rfl⟩
    · exact h.wire p hp hdata
    · exact absurd hp hdata
    · exact h.copies e he hdata
  · obtain ⟨e', he', hcopy⟩ := hquiet.copies e he
    rw [← hcopy] at hdata ⊢
    exact h.copies e' he' hdata

theorem PlainData.send (h : s.PlainData) (seq : BitVec 32) (hlen : 20 + data.length < 2 ^ 16) :
    (tcpSendSegment s seq pshAckFlags data).PlainData := by
  let packet : TcpSegment :=
    { seq := seq
      ack := if pshAckFlags.ack then s.rcvNxt else 0
      off := 5 + (if pshAckFlags.syn then tcpBuildOptions s.rcvWscale else []).length / 4
      flags := pshAckFlags
      windowSize := tcpRecvWindow s
      body := (if pshAckFlags.syn then tcpBuildOptions s.rcvWscale else []) ++ data }
  have hpacket : packet.Plain :=
    ⟨by simp [packet, pshAckFlags],
      rfl, by simpa [packet, TcpSegment.length, pshAckFlags] using hlen⟩
  obtain ⟨hwire, -, -, hretx⟩ := tcpRetxEnqueue_copies s seq packet data.length
  refine ⟨fun p hp hdata => ?_, fun e he hdata => ?_⟩
  · change p ∈ (tcpRetxEnqueue s seq packet data.length).wire ++ [packet] at hp
    rw [hwire] at hp
    rcases List.mem_append.mp hp with hp | hp
    · exact h.wire p hp hdata
    · rw [List.mem_singleton.mp hp]
      exact hpacket
  · change e ∈ (tcpRetxEnqueue s seq packet data.length).retx at he
    rcases hretx with hold | ⟨e', hcopy, happend⟩
    · exact h.copies e (hold ▸ he) hdata
    · rw [happend] at he
      rcases List.mem_append.mp he with he | he
      · exact h.copies e he hdata
      · rw [List.mem_singleton.mp he, hcopy]
        exact hpacket

theorem PlainData.write (h : s.PlainData) (hrun : tcpWrite s data = some t) : t.PlainData := by
  unfold tcpWrite at hrun
  split at hrun
  · exact Option.some.inj hrun ▸ h
  · split at hrun
    · exact Option.some.inj hrun ▸ h
    · split at hrun
      · cases hrun
      · next hlen => exact Option.some.inj hrun ▸ h.send s.sndNxt (by omega)

theorem PlainData.idle (h : s.PlainData) (hrun : tcpIdle s = some t) : t.PlainData := by
  have htimer := h.quiet (tcpRetxTimer_quiet s)
  unfold tcpIdle at hrun
  dsimp only at hrun
  split at hrun
  · exact Option.some.inj hrun ▸ htimer
  · split at hrun
    · rcases tcpDrainSendBuffer_eq hrun with ⟨-, rfl⟩ | ⟨u, hwrite, hsame, -⟩
      · exact htimer
      · have hu := htimer.write hwrite
        rw [hsame]
        exact ⟨hu.wire, hu.copies⟩
    · split at hrun
      · exact Option.some.inj hrun ▸ htimer.quiet (quiet_free _)
      · exact Option.some.inj hrun ▸ htimer

theorem window_of_accepts (haccept : s.Accepts segment) (hnxt : s.rcvNxt = seqAt base next)
    (hseq : segment.seq = seqAt base pos) (hnext : next ≤ n) (hpos : pos + segment.payloadLen ≤ n)
    (hnear : n + 16384 < 2 ^ 31) :
    next ≤ pos ∧ pos + segment.payloadLen ≤ next + tcpRecvWindow s := by
  have hroom := tcpRecvWindow_le s
  have hend : BitVec.ofNat 32 (segment.seq.toNat + segment.payloadLen) =
      seqAt base (pos + segment.payloadLen) := by
    rw [← ofNat_u64, hseq, ofNat_seqAt_add]
  obtain ⟨-, hstart, hfinish⟩ := haccept
  rw [hnxt, hseq, seqLte_seqAt (by omega) (by omega)] at hstart
  rw [hend, hnxt, seqAt_add, seqLte_seqAt (by omega) (by omega)] at hfinish
  exact ⟨hstart, hfinish⟩

end TcpConn

/-! ## A stream that grows -/

theorem Piece.From.append {stream : List Byte} {p : Piece} (h : p.From stream) (more : List Byte) :
    p.From (stream ++ more) := by
  refine ⟨h.off, h.len, ?_⟩
  have hlength := congrArg List.length h.body
  rw [List.length_take_of_le h.len, List.length_take, List.length_drop] at hlength
  by_cases hzero : p.len = 0
  · rw [hzero, List.take_zero, List.take_zero]
  · rw [List.drop_append_of_le_length (by omega),
      List.take_append_of_le_length (by rw [List.length_drop]; omega)]
    exact h.body

namespace TcpReceiver

variable {s : TcpReceiver} {irs : BitVec 32} {stream : List Byte}

theorem StreamInv.append (h : s.StreamInv irs stream) (more : List Byte) :
    s.StreamInv irs (stream ++ more) := by
  obtain ⟨ps, hpieces, hfrom⟩ := h.pieces
  refine ⟨⟨ps, hpieces, fun p hp => (hfrom p hp).append more⟩, ?_⟩
  rw [List.take_append_of_le_length h.delivered_le]
  exact h.received

end TcpReceiver

namespace TcpSender

variable {s t : TcpSender} {c : SenderCall} {base : BitVec 32} {n : ℕ}

theorem call_sent (hcall : s.call c = some t) : ∃ more, t.sent = s.sent ++ more := by
  cases c with
  | send env buffer =>
    obtain ⟨⟨ok, conn⟩, -, hcall⟩ := Option.bind_eq_some_iff.mp hcall
    obtain rfl := Option.some.inj hcall
    cases ok with
    | true => exact ⟨buffer, rfl⟩
    | false => exact ⟨[], (List.append_nil _).symm⟩
  | idle env =>
    obtain ⟨conn, -, hcall⟩ := Option.bind_eq_some_iff.mp hcall
    exact ⟨[], by rw [← Option.some.inj hcall, List.append_nil]⟩
  | ack env segment options =>
    obtain ⟨conn, -, hcall⟩ := Option.bind_eq_some_iff.mp hcall
    exact ⟨[], by rw [← Option.some.inj hcall, List.append_nil]⟩

theorem call_plainData (h : s.SendStream base n) (hplain : s.conn.PlainData)
    (hongoing : s.Ongoing c) (hcall : s.call c = some t) : t.conn.PlainData := by
  have hwithin : ∀ env, (s.within env).PlainData := fun _ => ⟨hplain.wire, hplain.copies⟩
  cases c with
  | send env buffer =>
    obtain ⟨⟨ok, conn⟩, hsend, hcall⟩ := Option.bind_eq_some_iff.mp hcall
    obtain rfl := Option.some.inj hcall
    unfold RetroRocket.send at hsend
    dsimp only [TcpConn.kmalloc] at hsend
    split at hsend
    · obtain ⟨-, rfl⟩ := Prod.mk.inj (Option.some.inj hsend)
      exact ⟨hplain.wire, hplain.copies⟩
    · obtain ⟨u, hidle, hsend⟩ := Option.bind_eq_some_iff.mp hsend
      obtain ⟨-, rfl⟩ := Prod.mk.inj (Option.some.inj hsend)
      refine TcpConn.PlainData.idle ?_ hidle
      exact ⟨hplain.wire, hplain.copies⟩
  | idle env =>
    obtain ⟨conn, hidle, hcall⟩ := Option.bind_eq_some_iff.mp hcall
    obtain rfl := Option.some.inj hcall
    exact (hwithin env).idle hidle
  | ack env segment options =>
    obtain ⟨conn, hmachine, hcall⟩ := Option.bind_eq_some_iff.mp hcall
    obtain rfl := Option.some.inj hcall
    unfold tcpStateMachine at hmachine
    rw [(within_sendStream h env).state] at hmachine
    exact (hwithin env).quiet (TcpConn.tcpStateEstablished_quiet hongoing.2.1 hmachine)

end TcpSender

structure TcpChannel where
  sender : TcpSender
  receiver : TcpReceiver

inductive ChannelCall where
  | sender (c : SenderCall)
  | arrives (env : TcpEnv) (k : ℕ)
  | recv (env : TcpEnv) (maxlen : ℕ)

namespace TcpChannel

variable {s t : TcpChannel} {c : ChannelCall} {irs : BitVec 32} {sender receiver : TcpConn}

def call (s : TcpChannel) : ChannelCall → Option TcpChannel
  | .sender c => do
    let sender ← s.sender.call c
    some { s with sender := sender }
  | .arrives env k => do
    let packet ← s.sender.conn.wire[k]?
    let receiver ← s.receiver.call (.data env packet)
    some { s with receiver := receiver }
  | .recv env maxlen => do
    let receiver ← s.receiver.call (.recv env maxlen)
    some { s with receiver := receiver }

/-- The sender moves on as in `TcpSender.DrainsSafely`. What arrives carries data and trims no
stored segment across the wrap, the allocations succeed, and all positions are less than 2 ^ 31
apart. -/
def Allowed (s : TcpChannel) : ChannelCall → Prop
  | .sender c => s.sender.Ongoing c ∧ s.sender.DrainsSafely c
  | .arrives env k => s.sender.sent.length + 16384 < 2 ^ 31 ∧
      ∃ packet, s.sender.conn.wire[k]? = some packet ∧ packet.payload ≠ [] ∧
        (s.receiver.within env).Allocates packet ∧
        ¬ (s.receiver.within env).TrimsAcrossWrap packet.seq packet.payloadLen
  | .recv env _ => ∀ n, env.memory n ≠ 0

/-! ## The invariant -/

structure Inv (irs : BitVec 32) (s : TcpChannel) : Prop where
  sends : ∃ n, s.sender.SendStream (irs + 1) n
  plain : s.sender.conn.PlainData
  receives : s.receiver.StreamInv irs s.sender.sent

theorem Inv.cutAt (h : s.Inv irs) {packet : TcpSegment} (hmem : packet ∈ s.sender.conn.wire)
    (hdata : packet.payload ≠ []) : ∃ pos, packet.CutAt (irs + 1) s.sender.sent pos ∧
      pos + packet.payloadLen ≤ s.sender.sent.length := by
  obtain ⟨n, hsends⟩ := h.sends
  obtain ⟨pos, hat⟩ := hsends.carried packet hmem hdata
  obtain ⟨hoff, hrst, hlength⟩ := h.plain.wire packet hmem hdata
  have hbody : packet.payload = packet.body := by
    unfold TcpSegment.payload TcpSegment.headerSize
    rw [hoff]
    rfl
  have hpayload := hat.payload
  rw [hbody] at hpayload
  have hcut : packet.CutAt (irs + 1) s.sender.sent pos := ⟨hat.seq, hoff, hrst, hpayload, hlength⟩
  refine ⟨pos, hcut, ?_⟩
  rw [hcut.payloadLen, ← hbody]
  exact hat.finish.trans hsends.sent

theorem Inv.arrives (h : s.Inv irs) {env : TcpEnv} {k : ℕ} (hallowed : s.Allowed (.arrives env k)) :
    ∃ t, s.call (.arrives env k) = some t ∧ t.Inv irs := by
  obtain ⟨hnear, packet, hpacket, hdata, halloc, hwrap⟩ := hallowed
  obtain ⟨pos, hcut, hfinish⟩ := h.cutAt (List.mem_of_getElem? hpacket) hdata
  have hsafe : s.receiver.Safe irs s.sender.sent (.data env packet) := by
    intro haccept
    obtain ⟨ps, hpieces, -⟩ := h.receives.pieces
    have hsame := s.receiver.sameReceive_within env
    have hwindow := TcpConn.window_of_accepts (hsame.accepts haccept) hpieces.rcvNxt hcut.seq
      h.receives.delivered_le hfinish hnear
    exact ⟨⟨pos, hcut, hwindow⟩, hwrap⟩
  obtain ⟨receiver, hcall, hinv⟩ := h.receives.data ⟨⟨pos, hcut⟩, halloc⟩ hsafe
  have hrun : s.call (.arrives env k) = some ⟨s.sender, receiver⟩ :=
    Option.bind_eq_some_iff.mpr ⟨packet, hpacket,
      Option.bind_eq_some_iff.mpr ⟨receiver, hcall, rfl⟩⟩
  exact ⟨_, hrun, h.sends, h.plain, hinv⟩

theorem Inv.call (h : s.Inv irs) (hallowed : s.Allowed c) (hcall : s.call c = some t) :
    t.Inv irs := by
  cases c with
  | sender c =>
    obtain ⟨sender, hsender, hcall⟩ := Option.bind_eq_some_iff.mp hcall
    obtain rfl := Option.some.inj hcall
    obtain ⟨more, hmore⟩ := TcpSender.call_sent hsender
    obtain ⟨n, hsends⟩ := h.sends
    refine ⟨TcpSender.SendStream.call h.sends hallowed.1 hallowed.2 hsender,
      TcpSender.call_plainData hsends h.plain hallowed.1 hsender, ?_⟩
    change s.receiver.StreamInv irs sender.sent
    rw [hmore]
    exact h.receives.append more
  | arrives env k =>
    obtain ⟨u, hu, hinv⟩ := h.arrives hallowed
    obtain rfl := Option.some.inj (hu.symm.trans hcall)
    exact hinv
  | recv env maxlen =>
    obtain ⟨receiver, hrecv, hinv⟩ := h.receives.recv hallowed
    have hrun : (s.receiver.call (.recv env maxlen)).bind (fun receiver =>
        some (⟨s.sender, receiver⟩ : TcpChannel)) = some ⟨s.sender, receiver⟩ := by
      rw [hrecv]
      rfl
    obtain rfl := Option.some.inj (hrun.symm.trans hcall)
    exact ⟨h.sends, h.plain, hinv⟩

/-- Whatever the order of the calls and of the packets, the receiver hands out a prefix of what the
sender took, and whatever arrives next is dealt with. -/
theorem run_delivers (hsender : sender.FreshlyEstablished) (hreceiver : receiver.Opened)
    (hiss : receiver.irs = sender.iss) (hrun : Run call Allowed ⟨⟨sender, []⟩, ⟨receiver, []⟩⟩ t) :
    t.receiver.received ++ t.receiver.conn.recvBuffer <+: t.sender.sent ∧
      ∀ env k, t.Allowed (.arrives env k) → (t.call (.arrives env k)).isSome := by
  have hstart : (⟨⟨sender, []⟩, ⟨receiver, []⟩⟩ : TcpChannel).Inv sender.iss := by
    refine ⟨⟨0, TcpSender.FreshlyEstablished.sendStream hsender⟩,
      ⟨fun p hp hdata => absurd (hsender.wire p hp) hdata,
        fun e he hdata => absurd (hsender.copies e he) hdata⟩, ?_⟩
    rw [← hiss]
    exact TcpReceiver.init_streamInv hreceiver []
  have hinv : t.Inv sender.iss :=
    hrun.preserved hstart fun h hallowed hcall => h.call hallowed hcall
  refine ⟨hinv.receives.inOrder.received, fun env k hallowed => ?_⟩
  obtain ⟨u, hcall, -⟩ := hinv.arrives hallowed
  rw [hcall]
  rfl

def smallChannel : TcpChannel :=
  ⟨⟨{ establishedConn 100 0 with peerMss := 2 }, []⟩, ⟨establishedConn 0 100, []⟩⟩

def smallSent : TcpChannel := Run.next call smallChannel (.sender (.send (envAt 4096) [1, 2, 3]))

def smallArrived : TcpChannel := Run.next call smallSent (.arrives (envAt 8192) 0)

theorem run_delivers_oneSegment :
    smallArrived.receiver.received ++ smallArrived.receiver.conn.recvBuffer <+:
      smallArrived.sender.sent ∧
      ∀ env k, smallArrived.Allowed (.arrives env k) →
        (smallArrived.call (.arrives env k)).isSome := by
  have hsent : Run call Allowed smallChannel smallSent := by
    unfold smallSent
    refine Run.next_step Run.refl ⟨rfl, fun _ _ => ?_⟩ (by decide +kernel)
    exact ⟨by decide +kernel, Or.inr (by decide +kernel)⟩
  have hwire : smallSent.sender.conn.wire[0]? = some ⟨101, 1, 5, pshAckFlags, 16384, [1, 2]⟩ := by
    decide +kernel
  have hnil : (smallSent.receiver.within (envAt 8192)).segmentList = 0 := by decide +kernel
  have hfresh : smallChannel.sender.conn.FreshlyEstablished :=
    ⟨rfl, rfl, rfl, by simp [smallChannel, establishedConn], by simp [smallChannel,
      establishedConn]⟩
  refine run_delivers hfresh (opened_establishedConn 0 100) rfl (hsent.next_step
    ⟨by decide +kernel, _, hwire, by decide, ?_, ?_⟩ (by decide +kernel))
  · exact TcpConn.allocates_of_empty hnil (by decide) (envAt_ne_zero (by decide)) (by decide)
  · rintro ⟨xs, x, hqueue, hx, -⟩
    rw [hqueue.eq_nil hnil] at hx
    cases hx

end TcpChannel

end RetroRocket
