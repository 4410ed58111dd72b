import RetroRocket.TcpSendStream
import RetroRocket.TcpAcks

/-!
# Accepting connections

A listener of `tcp.c` with its children. The children have the local address and port of the
listener, so that the connection table maps the address and port of the peer to them. What waits to
be accepted is a queue of these keys, and not of connections: a child may leave the table while its
key stays in the queue. The table is a map, and a record stays where the listener and the
descriptors point to.
-/

namespace RetroRocket

structure Peer where
  addr : BitVec 32
  port : BitVec 16
  deriving DecidableEq

def listenerKey : Peer := ⟨0, 0⟩

structure TcpChild where
  conn : TcpConn
  fd : Option ℕ

/-- `born` is not part of the code: it numbers the SYNs that made the children. -/
structure TcpListener where
  tcb : Peer → Option TcpChild
  pending : List Peer
  born : Peer → ℕ
  syns : ℕ

inductive AcceptError where
  | wouldBlock
  | outOfDescriptors
  deriving DecidableEq

/-- The listener as `tcp_listen` makes it. -/
def tcpListen : TcpListener where
  tcb := fun _ => none
  pending := []
  born := fun _ => 0
  syns := 0

/-- `tcp_accept` on a listener, where `tcp_allocate_fd` finds the descriptor `fd` or none. -/
def tcpAccept (s : TcpListener) (fd : Option ℕ) : Except AcceptError ℕ × TcpListener :=
  match s.pending with
  | [] => (.error .wouldBlock, s)
  | peer :: pending =>
    match s.tcb peer with
    | none => (.error .wouldBlock, s)
    | some head =>
      if head.conn.state ≠ .established then (.error .wouldBlock, s)
      else
        -- the key is popped, and finds the same connection as before
        let s := { s with pending := pending }
        match fd with
        | none => (.error .outOfDescriptors, s)
        | some fd =>
          (.ok fd, { s with tcb := Function.update s.tcb peer (some { head with fd := some fd }) })

namespace TcpListener

/-- `tcp_state_listen` for a peer without a connection. `stored` says whether `hashmap_set` found
memory, `node` whether `queue_push` did. A SYN from the listener's own key writes the child over the
record of the listener. -/
def listen (s : TcpListener) (peer : Peer) (env : TcpEnv) (segment : TcpSegment)
    (options : TcpOptions) (stored node : Bool) : Option TcpListener :=
  match tcpStateListen env true segment options with
  | none => some s
  | some conn =>
    if peer = listenerKey then none
    else if stored = false then some s
    else some {
      tcb := Function.update s.tcb peer (some ⟨conn, none⟩)
      pending := if env.memory 0 ≠ 0 ∧ node then s.pending ++ [peer] else s.pending
      born := Function.update s.born peer s.syns
      syns := s.syns + 1 }

def setConn (s : TcpListener) (peer : Peer) (child : TcpChild) (conn : TcpConn) : TcpListener :=
  { s with
    tcb := Function.update s.tcb peer (if conn.alive then
      some { child with conn := conn } else none) }

end TcpListener

inductive ListenerCall where
  | segment (peer : Peer) (env : TcpEnv) (segment : TcpSegment) (options : TcpOptions)
      (stored node : Bool)
  | idle (peer : Peer) (env : TcpEnv)
  | user (peer : Peer) (c : TcpCall)
  | accept (fd : Option ℕ)

namespace TcpListener

variable {s t : TcpListener} {peer : Peer} {child : TcpChild} {c : ListenerCall}

/-- A segment of a peer, `tcp_idle` for one connection, a call on a descriptor that was handed out,
and `tcp_accept`. -/
def call (s : TcpListener) : ListenerCall → Option TcpListener
  | .segment peer env segment options stored node =>
    match s.tcb peer with
    | some child => do
      let conn ← tcpStateMachine { child.conn with env := env } segment options
      some (s.setConn peer child conn)
    | none => s.listen peer env segment options stored node
  | .idle peer env =>
    match s.tcb peer with
    | some child => do
      let conn ← tcpIdle { child.conn with env := env }
      some (s.setConn peer child conn)
    | none => some s
  | .user peer c =>
    match s.tcb peer with
    | some child =>
      if child.fd = none then some s
      else do
        let conn ← child.conn.call c
        some (s.setConn peer child conn)
    | none => some s
  | .accept fd => some (tcpAccept s fd).2

/-! ## Progress -/

/-- Calls of `tcp_accept` one after the other, which find these descriptors, and their results. -/
def acceptAll (s : TcpListener) : List ℕ → List (Except AcceptError ℕ) × TcpListener
  | [] => ([], s)
  | fd :: fds =>
    let (result, s) := tcpAccept s (some fd)
    let (results, s) := acceptAll s fds
    (result :: results, s)

/-- The child was never handed out, its handshake is complete, and of the older ones that were never
handed out none is in its handshake. -/
structure Ready (s : TcpListener) (peer : Peer) (child : TcpChild) : Prop where
  found : s.tcb peer = some child
  fd : child.fd = none
  established : child.conn.state = .established
  complete : ∀ older child', s.tcb older = some child' → child'.fd = none →
    s.born older < s.born peer → child'.conn.state ≠ .synReceived

structure Next (s : TcpListener) (peer : Peer) (child : TcpChild) : Prop
    extends s.Ready peer child where
  oldest : ∀ older child', s.tcb older = some child' → child'.fd = none →
    s.born older < s.born peer → child'.conn.state ≠ .established

/-- `tcp_accept` hands out the oldest child that is ready, and called again and again it comes to
each of them. -/
structure Progress (s : TcpListener) : Prop where
  next : ∀ peer child, s.Next peer child → ∀ fd, (tcpAccept s (some fd)).1 = .ok fd ∧
    (tcpAccept s (some fd)).2.tcb = Function.update s.tcb peer (some { child with fd := some fd })
  ready : ∀ peer child, s.Ready peer child → ∃ n, ∀ fds : List ℕ, fds.length = n → ∀ fd,
    (s.acceptAll (fds ++ [fd])).1 = (fds ++ [fd]).map .ok ∧
      (s.acceptAll (fds ++ [fd])).2.tcb peer = some { child with fd := some fd }

end TcpListener

/-- A SYN that `tcp_state_listen` takes. -/
def TcpSegment.Opens (segment : TcpSegment) : Prop :=
  segment.flags.syn ∧ segment.flags.ack = false ∧ segment.flags.fin = false ∧
    segment.flags.rst = false

def TcpConn.ResetBy (s : TcpConn) (segment : TcpSegment) : Prop :=
  segment.flags.rst ∧ (s.state = .synReceived ∨
    s.state = .established ∧ segment.headerSize < segment.length ∧ s.Accepts segment)

namespace TcpListener

variable {s t : TcpListener} {peer : Peer} {child : TcpChild} {c : ListenerCall}

/-- No child leaves the queue, the table or its state but through the front of the queue: a child in
the queue is neither closed nor reset by its peer nor given up by `tcp_idle`, a child that is stored
is queued, and one that leaves the queue finds a descriptor. -/
def KeepsProgress (s : TcpListener) : ListenerCall → Prop
  | .segment peer env segment _ stored node =>
    match s.tcb peer with
    | some child => child.fd = none → segment.flags.fin = false ∧ ¬ child.conn.ResetBy segment
    | none => segment.Opens → stored → env.memory 0 ≠ 0 ∧ node
  | .idle peer env =>
    ∀ child, s.tcb peer = some child → child.fd = none →
      ¬ TcpConn.TimesOut { child.conn with env := env }
  | .user _ _ => True
  | .accept fd =>
    fd = none → ∀ peer child, s.pending.head? = some peer → s.tcb peer = some child →
      child.conn.state ≠ .established

end TcpListener

/-! ## A waiting connection -/

namespace TcpConn

variable {s t : TcpConn} {segment : TcpSegment} {options : TcpOptions}

def Waiting (s : TcpConn) : Prop := s.alive ∧ (s.state = .synReceived ∨ s.state = .established)

theorem Waiting.same (h : s.Waiting) (hstate : t.state = s.state) (halive : t.alive = s.alive) :
    t.Waiting := by
  unfold Waiting
  rw [hstate, halive]
  exact h

theorem SameSend.waiting (h : s.SameSend t) (hs : s.Waiting) : t.Waiting := hs.same h.state h.alive

theorem OnlyAck.waiting (h : s.OnlyAck t) (hs : s.Waiting) : t.Waiting :=
  hs.same h.state (by rw [h])

theorem tcpSendSegment_alive (s : TcpConn) (seq : BitVec 32) (flags : TcpFlags) (data : List Byte) :
    (tcpSendSegment s seq flags data).alive = s.alive := by
  unfold tcpSendSegment tcpRetxEnqueue kmalloc
  dsimp only
  split
  · rfl
  · split
    · rfl
    · split <;> rfl

theorem Waiting.handleDataIn (h : s.Waiting) (hrst : ¬ (segment.flags.rst ∧ s.Accepts segment))
    (hrun : tcpHandleDataIn s segment = some t) : t.Waiting := by
  by_cases haccept : s.Accepts segment
  · rcases tcpHandleDataIn_sameSend hrun with hsame | ⟨hreset, -⟩
    · exact hsame.waiting h
    · exact absurd ⟨hreset, haccept⟩ hrst
  · unfold tcpHandleDataIn at hrun
    dsimp only at hrun
    have hack := (tcpSendAck_sameSend s).waiting h
    split at hrun
    · obtain rfl := Option.some.inj hrun
      exact hack
    · next hfirst =>
      rw [if_pos fun hsecond => haccept ⟨hfirst, hsecond⟩] at hrun
      split at hrun <;> obtain rfl := Option.some.inj hrun
      · exact h
      · exact hack

theorem Waiting.synReceived (h : s.Waiting) (hfin : segment.flags.fin = false)
    (hrst : segment.flags.rst = false) (hrun : tcpStateSynReceived s segment = some t) :
    t.Waiting := by
  unfold tcpStateSynReceived at hrun
  rw [hfin, hrst] at hrun
  simp only [Bool.false_eq_true, if_false] at hrun
  split at hrun
  · split at hrun
    · have hack := tcpRetxAcknowledge_onlyAck s segment.ack
      have hest : (tcpSetState (tcpRetxAcknowledge s segment.ack) .established).Waiting :=
        ⟨(hack.waiting h).1, .inr rfl⟩
      split at hrun
      · exact hest.handleDataIn (fun hreset => by simp [hrst] at hreset) hrun
      · obtain rfl := Option.some.inj hrun
        exact (tcpSendAck_sameSend _).waiting hest
    · obtain rfl := Option.some.inj hrun
      exact (tcpSendSegment_sameSend s segment.ack rstFlags rfl rfl).waiting h
  · obtain rfl := Option.some.inj hrun
    exact h

theorem Waiting.established (h : s.Waiting) (hfin : segment.flags.fin = false)
    (hrst : ¬ (segment.flags.rst ∧ segment.headerSize < segment.length ∧ s.Accepts segment))
    (hrun : tcpStateEstablished s segment = some t) : t.Waiting := by
  have honly := tcpProcessAck_onlyAck s segment
  have hack := honly.waiting h
  unfold tcpStateEstablished at hrun
  rw [hfin] at hrun
  dsimp only at hrun
  split at hrun
  · next hpayload =>
    obtain ⟨u, hdata, hrun⟩ := Option.bind_eq_some_iff.mp hrun
    obtain rfl := Option.some.inj hrun
    apply hack.handleDataIn ?_ hdata
    rintro ⟨hreset, haccept⟩
    exact hrst ⟨hreset, hpayload, honly.sameReceive.accepts haccept⟩
  · obtain rfl := Option.some.inj hrun
    exact hack

theorem Waiting.stateMachine (h : s.Waiting) (hfin : segment.flags.fin = false)
    (hrst : ¬ s.ResetBy segment) (hrun : tcpStateMachine s segment options = some t) :
    t.Waiting := by
  unfold tcpStateMachine at hrun
  rcases h.2 with hstate | hstate <;> rw [hstate] at hrun
  · have hno : segment.flags.rst = false := by
      by_contra hreset
      exact hrst ⟨by simpa using hreset, .inl hstate⟩
    exact h.synReceived hfin hno hrun
  · apply h.established hfin ?_ hrun
    rintro ⟨hreset, hpayload, haccept⟩
    exact hrst ⟨hreset, .inr ⟨hstate, hpayload, haccept⟩⟩

theorem Waiting.drain (h : s.Waiting) (hrun : tcpDrainSendBuffer s = some t) : t.Waiting := by
  rcases tcpDrainSendBuffer_eq hrun with ⟨-, rfl⟩ | ⟨u, hwrite, heq, -⟩
  · exact h
  · have hu : u.Waiting := by
      unfold tcpWrite at hwrite
      split at hwrite
      · obtain rfl := Option.some.inj hwrite
        exact h
      · split at hwrite
        · obtain rfl := Option.some.inj hwrite
          exact h
        · split at hwrite
          · cases hwrite
          · obtain rfl := Option.some.inj hwrite
            exact h.same (tcpSendSegment_sameAcks s _ _ _).state (tcpSendSegment_alive s _ _ _)
    rw [heq]
    exact hu.same rfl rfl

theorem Waiting.idle (h : s.Waiting) (hout : ¬ s.TimesOut) (hrun : tcpIdle s = some t) :
    t.Waiting := by
  have htimer : (tcpRetxTimer s).Waiting :=
    h.same (tcpRetxTimer_sameAcks s).state (tcpRetxTimer_env hout).1
  unfold tcpIdle at hrun
  dsimp only at hrun
  rw [htimer.1] at hrun
  simp only [Bool.true_eq_false, if_false] at hrun
  split at hrun
  · exact htimer.drain hrun
  · split at hrun
    · next hwait =>
      rcases htimer.2 with hstate | hstate <;> cases hstate.symm.trans hwait.1
    · obtain rfl := Option.some.inj hrun
      exact htimer

theorem waiting_of_listen {env : TcpEnv} {queued : Bool}
    (hrun : tcpStateListen env queued segment options = some t) : segment.Opens ∧ t.Waiting := by
  unfold tcpStateListen at hrun
  split at hrun
  · cases hrun
  · next hflags =>
    have hopens : segment.Opens := by
      unfold TcpSegment.Opens
      simpa [not_or] using hflags
    have hchild : ∀ u : TcpConn, u.alive → u.state = .synReceived → u.Waiting ∧
        (tcpSendSegment u u.sndNxt synAckFlags []).Waiting := by
      intro u halive hstate
      have hu : u.Waiting := ⟨halive, .inl hstate⟩
      exact ⟨hu, hu.same (tcpSendSegment_sameAcks u _ _ _).state (tcpSendSegment_alive u _ _ _)⟩
    refine ⟨hopens, ?_⟩
    dsimp only [kmalloc] at hrun
    split at hrun
    · split at hrun <;> obtain rfl := Option.some.inj hrun
      · exact (hchild _ rfl rfl).1
      · exact (hchild _ rfl rfl).2
    · obtain rfl := Option.some.inj hrun
      exact (hchild _ rfl rfl).2

end TcpConn

/-! ## The invariant -/

namespace TcpListener

variable {s t : TcpListener} {peer : Peer} {child : TcpChild} {c : ListenerCall}

structure Inv (s : TcpListener) : Prop where
  waiting : ∀ peer ∈ s.pending, ∃ child, s.tcb peer = some child ∧ child.fd = none ∧
    child.conn.Waiting
  queued : ∀ peer child, s.tcb peer = some child → child.fd = none → peer ∈ s.pending
  sorted : s.pending.Pairwise fun p q => s.born p < s.born q
  fresh : ∀ peer ∈ s.pending, s.born peer < s.syns

theorem inv_tcpListen : tcpListen.Inv where
  waiting := by simp [tcpListen]
  queued := by simp [tcpListen]
  sorted := List.Pairwise.nil
  fresh := by simp [tcpListen]

theorem Inv.established_of_ready (h : s.Inv) (hready : s.Ready peer child) {head : Peer}
    (hhead : head ∈ s.pending) (hborn : s.born head < s.born peer) :
    ∃ old, s.tcb head = some old ∧ old.fd = none ∧ old.conn.state = .established := by
  obtain ⟨old, hfound, hfd, hconn⟩ := h.waiting head hhead
  exact ⟨old, hfound, hfd, hconn.2.resolve_left (hready.complete head old hfound hfd hborn)⟩

theorem tcpAccept_of_head {pending : List Peer} (hpending : s.pending = peer :: pending)
    (hfound : s.tcb peer = some child) (hstate : child.conn.state = .established) (fd : ℕ) :
    tcpAccept s (some fd) = (.ok fd, { s with
      tcb := Function.update s.tcb peer (some { child with fd := some fd })
      pending := pending }) := by
  unfold tcpAccept
  simp only [hpending, hfound, hstate, ne_eq, not_true_eq_false, if_false]

theorem tcpAccept_of_gone (hhead : s.pending.head? = some peer) (hgone : s.tcb peer = none)
    (fd : Option ℕ) : tcpAccept s fd = (.error .wouldBlock, s) := by
  obtain ⟨pending, hpending⟩ := List.head?_eq_some_iff.mp hhead
  unfold tcpAccept
  simp only [hpending, hgone]

theorem Inv.head_of_next (h : s.Inv) (hnext : s.Next peer child) :
    ∃ pending, s.pending = peer :: pending := by
  have hmem := h.queued peer child hnext.found hnext.fd
  have hsorted := h.sorted
  cases hpending : s.pending with
  | nil =>
    rw [hpending] at hmem
    cases hmem
  | cons head pending =>
    rw [hpending] at hmem hsorted
    rcases List.mem_cons.mp hmem with rfl | htail
    · exact ⟨pending, rfl⟩
    · -- an older head would be ready itself
      have hborn := (List.pairwise_cons.mp hsorted).1 peer htail
      obtain ⟨old, hfound, hfd, hstate⟩ :=
        h.established_of_ready hnext.toReady (by simp [hpending]) hborn
      exact absurd hstate (hnext.oldest head old hfound hfd hborn)

/-- What happens to the connection of a child that is out of the queue, or goes on waiting in it. -/
theorem Inv.setConn (h : s.Inv) (hfound : s.tcb peer = some child) {conn : TcpConn}
    (hkeeps : child.fd = none → conn.Waiting) : (s.setConn peer child conn).Inv := by
  refine ⟨fun p hp => ?_, fun p child' hp hfd => ?_, h.sorted, h.fresh⟩
  · change p ∈ s.pending at hp
    obtain ⟨old, hold, hfd, hwaiting⟩ := h.waiting p hp
    by_cases hpeer : p = peer
    · subst hpeer
      obtain rfl := Option.some.inj (hfound.symm.trans hold)
      have hconn := hkeeps hfd
      refine ⟨{ child with conn := conn }, ?_, hfd, hconn⟩
      simp [TcpListener.setConn, hconn.1]
    · refine ⟨old, ?_, hfd, hwaiting⟩
      simp [TcpListener.setConn, hpeer, hold]
  · change p ∈ s.pending
    by_cases hpeer : p = peer
    · subst hpeer
      apply h.queued p child hfound
      simp only [TcpListener.setConn, Function.update_self] at hp
      split at hp
      · obtain rfl := Option.some.inj hp
        exact hfd
      · cases hp
    · apply h.queued p child' ?_ hfd
      simpa [TcpListener.setConn, hpeer] using hp

theorem Inv.push (h : s.Inv) (hfree : s.tcb peer = none) {conn : TcpConn} (hconn : conn.Waiting) :
    Inv {
      tcb := Function.update s.tcb peer (some ⟨conn, none⟩)
      pending := s.pending ++ [peer]
      born := Function.update s.born peer s.syns
      syns := s.syns + 1 } := by
  have hother : ∀ p ∈ s.pending, p ≠ peer := by
    rintro p hp rfl
    obtain ⟨old, hold, -⟩ := h.waiting p hp
    cases hold.symm.trans hfree
  refine ⟨fun p hp => ?_, fun p child hp hfd => ?_, ?_, fun p hp => ?_⟩
  · rcases List.mem_append.mp hp with hp | hp
    · obtain ⟨old, hold, hfd, hwaiting⟩ := h.waiting p hp
      exact ⟨old, by simp [hother p hp, hold], hfd, hwaiting⟩
    · obtain rfl := List.mem_singleton.mp hp
      exact ⟨⟨conn, none⟩, by simp, rfl, hconn⟩
  · by_cases hpeer : p = peer
    · simp [hpeer]
    · apply List.mem_append_left
      apply h.queued p child ?_ hfd
      simpa [hpeer] using hp
  · refine List.pairwise_append.mpr ⟨?_, List.pairwise_singleton _ _, fun p hp q hq => ?_⟩
    · apply h.sorted.imp_of_mem
      intro p q hp hq hlt
      simpa [hother p hp, hother q hq] using hlt
    · obtain rfl := List.mem_singleton.mp hq
      simpa [hother p hp] using h.fresh p hp
  · rcases List.mem_append.mp hp with hp | hp
    · have hlt := h.fresh p hp
      simp only [Function.update_of_ne (hother p hp)]
      omega
    · obtain rfl := List.mem_singleton.mp hp
      simp

theorem Inv.listen (h : s.Inv) (hfree : s.tcb peer = none) {env : TcpEnv} {segment : TcpSegment}
    {options : TcpOptions} {stored node : Bool}
    (hkeeps : segment.Opens → stored → env.memory 0 ≠ 0 ∧ node)
    (hrun : s.listen peer env segment options stored node = some t) : t.Inv := by
  unfold TcpListener.listen at hrun
  split at hrun
  · obtain rfl := Option.some.inj hrun
    exact h
  · next conn hmade =>
    obtain ⟨hopens, hconn⟩ := TcpConn.waiting_of_listen hmade
    split at hrun
    · cases hrun
    · split at hrun
      · obtain rfl := Option.some.inj hrun
        exact h
      · next hstored =>
        rw [if_pos (hkeeps hopens (by simpa using hstored))] at hrun
        obtain rfl := Option.some.inj hrun
        exact h.push hfree hconn

theorem Inv.accept (h : s.Inv) {fd : Option ℕ} (hkeeps : s.KeepsProgress (.accept fd)) :
    (tcpAccept s fd).2.Inv := by
  unfold tcpAccept
  split
  · exact h
  · next head pending hpending =>
    split
    · exact h
    · next child hfound =>
      split
      · exact h
      · next hstate =>
        cases fd with
        | none =>
          refine absurd ?_ hstate
          exact hkeeps rfl head child (by rw [hpending]; rfl) hfound
        | some fd =>
          have hsorted := h.sorted
          have hwaiting := h.waiting
          have hqueued := h.queued
          have hfresh := h.fresh
          rw [hpending] at hsorted hwaiting hqueued hfresh
          obtain ⟨hborn, htail⟩ := List.pairwise_cons.mp hsorted
          have hother : ∀ p ∈ pending, p ≠ head := by
            rintro p hp rfl
            exact absurd (hborn p hp) (lt_irrefl _)
          refine ⟨fun p hp => ?_, fun p child' hp hfd => ?_, htail, fun p hp => ?_⟩
          · obtain ⟨old, hold, hold'⟩ := hwaiting p (List.mem_cons_of_mem _ hp)
            exact ⟨old, by simp [hother p hp, hold], hold'⟩
          · by_cases hpeer : p = head
            · subst hpeer
              obtain rfl : { child with fd := some fd } = child' := by simpa using hp
              cases hfd
            · have hmem := hqueued p child' (by simpa [hpeer] using hp) hfd
              exact (List.mem_cons.mp hmem).resolve_left hpeer
          · exact hfresh p (List.mem_cons_of_mem _ hp)

theorem Ready.handOut (hready : s.Ready peer child) {head : Peer} {old : TcpChild}
    {pending : List Peer} (hhead : head ≠ peer) (fd : ℕ) : Ready { s with
      tcb := Function.update s.tcb head (some { old with fd := some fd })
      pending := pending } peer child := by
  refine ⟨?_, hready.fd, hready.established, fun older child' hfound hfd hborn => ?_⟩
  · simpa [hhead.symm] using hready.found
  · by_cases holder : older = head
    · subst holder
      obtain rfl : { old with fd := some fd } = child' := by simpa using hfound
      cases hfd
    · exact hready.complete older child' (by simpa [holder] using hfound) hfd hborn

theorem Inv.acceptAll (h : s.Inv) (hready : s.Ready peer child) {front back : List Peer}
    (hpending : s.pending = front ++ peer :: back) {fds : List ℕ} (hfds : fds.length = front.length)
    (fd : ℕ) : (s.acceptAll (fds ++ [fd])).1 = (fds ++ [fd]).map .ok ∧
      (s.acceptAll (fds ++ [fd])).2.tcb peer = some { child with fd := some fd } := by
  induction front generalizing s fds with
  | nil =>
    obtain rfl := List.length_eq_zero_iff.mp hfds
    have haccept := tcpAccept_of_head hpending hready.found hready.established fd
    simp [TcpListener.acceptAll, haccept]
  | cons head front ih =>
    obtain ⟨f, fds, rfl⟩ := List.exists_cons_of_length_eq_add_one hfds
    have hsorted := h.sorted
    rw [hpending, List.cons_append, List.pairwise_cons] at hsorted
    have hborn : s.born head < s.born peer := hsorted.1 peer (by simp)
    have hhead : head ≠ peer := by
      rintro rfl
      exact absurd hborn (lt_irrefl _)
    obtain ⟨old, hfound, -, hstate⟩ := h.established_of_ready hready (by simp [hpending]) hborn
    have haccept := tcpAccept_of_head hpending hfound hstate f
    have hinv : (tcpAccept s (some f)).2.Inv := h.accept fun hnone => by cases hnone
    rw [haccept] at hinv
    obtain ⟨hresults, hlast⟩ := ih hinv (hready.handOut hhead f) rfl (by simpa using hfds)
    simp only [List.cons_append, TcpListener.acceptAll, haccept, List.map_cons]
    exact ⟨congrArg _ hresults, hlast⟩

theorem Inv.progress (h : s.Inv) : s.Progress := by
  refine ⟨fun peer child hnext fd => ?_, fun peer child hready => ?_⟩
  · obtain ⟨pending, hpending⟩ := h.head_of_next hnext
    rw [tcpAccept_of_head hpending hnext.found hnext.established fd]
    exact ⟨rfl, rfl⟩
  · obtain ⟨front, back, hpending⟩ :=
      List.append_of_mem (h.queued peer child hready.found hready.fd)
    exact ⟨front.length, fun fds hfds fd => h.acceptAll hready hpending hfds fd⟩

theorem Inv.call (h : s.Inv) (hkeeps : s.KeepsProgress c) (hcall : s.call c = some t) : t.Inv := by
  cases c with
  | segment peer env segment options stored node =>
    simp only [TcpListener.call] at hcall
    simp only [KeepsProgress] at hkeeps
    cases hfound : s.tcb peer with
    | none =>
      rw [hfound] at hcall hkeeps
      exact h.listen hfound hkeeps hcall
    | some child =>
      rw [hfound] at hcall hkeeps
      obtain ⟨conn, hrun, hcall⟩ := Option.bind_eq_some_iff.mp hcall
      obtain rfl := Option.some.inj hcall
      apply h.setConn hfound
      intro hfd
      obtain ⟨hfin, hrst⟩ := hkeeps hfd
      obtain ⟨old, hold, -, hwaiting⟩ := h.waiting peer (h.queued peer child hfound hfd)
      obtain rfl := Option.some.inj (hfound.symm.trans hold)
      have hwithin : TcpConn.Waiting { child.conn with env := env } := hwaiting.same rfl rfl
      exact hwithin.stateMachine hfin hrst hrun
  | idle peer env =>
    simp only [TcpListener.call] at hcall
    cases hfound : s.tcb peer with
    | none =>
      rw [hfound] at hcall
      obtain rfl := Option.some.inj hcall
      exact h
    | some child =>
      rw [hfound] at hcall
      obtain ⟨conn, hrun, hcall⟩ := Option.bind_eq_some_iff.mp hcall
      obtain rfl := Option.some.inj hcall
      apply h.setConn hfound
      intro hfd
      obtain ⟨old, hold, -, hwaiting⟩ := h.waiting peer (h.queued peer child hfound hfd)
      obtain rfl := Option.some.inj (hfound.symm.trans hold)
      have hwithin : TcpConn.Waiting { child.conn with env := env } := hwaiting.same rfl rfl
      exact hwithin.idle (hkeeps child hfound hfd) hrun
  | user peer c =>
    simp only [TcpListener.call] at hcall
    cases hfound : s.tcb peer with
    | none =>
      rw [hfound] at hcall
      obtain rfl := Option.some.inj hcall
      exact h
    | some child =>
      rw [hfound] at hcall
      dsimp only at hcall
      split at hcall
      · obtain rfl := Option.some.inj hcall
        exact h
      · next hfd =>
        obtain ⟨conn, -, hcall⟩ := Option.bind_eq_some_iff.mp hcall
        obtain rfl := Option.some.inj hcall
        exact h.setConn hfound fun hnone => absurd hnone hfd
  | accept fd =>
    obtain rfl := Option.some.inj hcall
    exact h.accept hkeeps

theorem listen_frame {env : TcpEnv} {segment : TcpSegment} {options : TcpOptions}
    {stored node : Bool} {other : Peer} (hother : other ≠ peer)
    (hrun : s.listen peer env segment options stored node = some t) :
    t.tcb other = s.tcb other := by
  unfold TcpListener.listen at hrun
  split at hrun
  · obtain rfl := Option.some.inj hrun
    rfl
  · split at hrun
    · cases hrun
    · split at hrun
      · obtain rfl := Option.some.inj hrun
        rfl
      · obtain rfl := Option.some.inj hrun
        simp [hother]

theorem segment_frame {env : TcpEnv} {segment : TcpSegment} {options : TcpOptions}
    {stored node : Bool} {other : Peer} (hother : other ≠ peer) :
    (Run.next call s (.segment peer env segment options stored node)).tcb other = s.tcb other := by
  unfold Run.next
  cases hcall : s.call (.segment peer env segment options stored node) with
  | none => rfl
  | some t =>
    rw [Option.getD_some]
    simp only [TcpListener.call] at hcall
    split at hcall
    · obtain ⟨conn, -, hcall⟩ := Option.bind_eq_some_iff.mp hcall
      obtain rfl := Option.some.inj hcall
      simp [TcpListener.setConn, hother]
    · exact listen_frame hother hcall

def arrive (peer : Peer) (segment : TcpSegment) : ListenerCall :=
  .segment peer (envAt 4096) segment ⟨0, 0, false⟩ true true

def synSegment : TcpSegment := ⟨100, 0, 5, synFlags, 65535, []⟩

def rstSegment : TcpSegment := ⟨101, 0, 5, rstFlags, 65535, []⟩

def firstPeer : Peer := ⟨10, 1000⟩

def secondPeer : Peer := ⟨11, 1000⟩

def firstOpen : TcpListener := Run.next call tcpListen (arrive firstPeer synSegment)

def firstReset : TcpListener := Run.next call firstOpen (arrive firstPeer rstSegment)

def secondOpen : TcpListener := Run.next call firstReset (arrive secondPeer synSegment)

def secondEstablished : TcpListener :=
  Run.next call secondOpen (arrive secondPeer (dataSegment 0 101 []))

def firstEstablished : TcpListener :=
  Run.next call firstOpen (arrive firstPeer (dataSegment 0 101 []))

end TcpListener

end RetroRocket
