import RetroRocket.TcpOrder
import RetroRocket.TcpStream

/-!
# Options of data segments

`tcp_handle_data_in` takes the options off the length of the payload, and `tcp_process_queue` takes
them off once more. A segment that is next in order is delivered without its last bytes, as many as
it has bytes of options.
-/

namespace RetroRocket

def TcpSegment.withoutOptions (segment : TcpSegment) : TcpSegment :=
  { segment with off := 5, body := segment.payload }

structure TcpSegment.CarriesPayload (segment : TcpSegment) : Prop where
  off_ge : 5 ≤ segment.off
  header_lt : segment.headerSize < segment.length
  length_lt : segment.length < 2 ^ 16

variable {segment : TcpSegment}

namespace TcpSegment.CarriesPayload

variable (h : segment.CarriesPayload)

include h

theorem payloadLen_eq : segment.payloadLen = segment.payload.length :=
  TcpSegment.payloadLen_eq h.off_ge h.header_lt.le h.length_lt

theorem payload_pos : 0 < segment.payload.length := by
  obtain ⟨hoff, hheader, hlength⟩ := h
  have hbody : segment.length = 20 + segment.body.length := rfl
  unfold TcpSegment.payload TcpSegment.headerSize at *
  rw [List.length_drop]
  omega

end TcpSegment.CarriesPayload

/-! ## The piece that is next -/

variable {ps : List Piece} {new : Piece} {next pos : ℕ} {buffer : List Byte}

theorem insertPiece_first (h : ∀ p ∈ ps.head?, new.start ≤ p.start) :
    insertPiece ps new = new :: cutHead (uncovered ps new.finish) new.finish := by
  have hbelow : ps.takeWhile (fun p => p.start < new.start) = [] := by
    cases ps with
    | nil => rfl
    | cons p ps => exact List.takeWhile_cons_of_neg (by simpa using h p rfl)
  have hrest : ps.dropWhile (fun p => p.start < new.start) = ps := by
    cases ps with
    | nil => rfl
    | cons p ps => exact List.dropWhile_cons_of_neg (by simpa using h p rfl)
  unfold insertPiece
  dsimp only
  rw [hbelow, hrest]
  split
  case isTrue hnil =>
    subst hnil
    rfl
  case isFalse => rfl

theorem cutLast_head (p : Piece) (ps : List Piece) (e : ℕ) :
    ∃ q rest, cutLast (p :: ps) e = q :: rest ∧ q.start = p.start := by
  cases ps with
  | nil => exact ⟨p.cutBack e, [], rfl, p.cutBack_start e⟩
  | cons q ps => exact ⟨p, cutLast (q :: ps) e, rfl, rfl⟩

theorem insertPiece_behind {p : Piece} (h : p.start < new.start) :
    ∃ q rest, insertPiece (p :: ps) new = q :: rest ∧ q.start = p.start := by
  unfold insertPiece
  dsimp only
  split
  · exact ⟨p, ps ++ [new], rfl, rfl⟩
  · rw [List.takeWhile_cons_of_pos (by simpa using h)]
    obtain ⟨q, rest, hcut, hstart⟩ :=
      cutLast_head p (ps.takeWhile fun p => p.start < new.start) new.start
    exact ⟨q, _, congrArg (· ++ _) hcut, hstart⟩

theorem drainPieces_stuck {p : Piece} (h : p.start ≠ next) :
    drainPieces (p :: ps) next buffer = (p :: ps, next, buffer) := by
  rw [drainPieces, if_pos (.inl h)]

theorem drainPieces_gap {e : ℕ} (hgap : next < e) :
    drainPieces (cutHead (uncovered ps e) e) next buffer =
      (cutHead (uncovered ps e) e, next, buffer) := by
  cases uncovered ps e with
  | nil => rfl
  | cons p rest =>
    refine drainPieces_stuck ?_
    rw [Piece.cutFront_start]
    omega

theorem prefix_drainPieces (ps : List Piece) (next : ℕ) (buffer : List Byte) :
    buffer <+: (drainPieces ps next buffer).2.2 := by
  fun_induction drainPieces ps next buffer with
  | case1 => exact List.prefix_refl _
  | case2 => exact List.prefix_refl _
  | case3 p ps next buffer hstop ih => exact (List.prefix_append _ _).trans ih

/-- What is delivered of a piece that is next comes first, and if it is not the whole piece, nothing
comes behind it. -/
theorem drainPieces_next (hps : ∀ p ∈ ps.head?, next ≤ p.start) (hstart : new.start = next)
    (hlimit : buffer.length + new.payload.length ≤ 196608) :
    buffer ++ new.payload <+: (drainPieces (insertPiece ps new) next buffer).2.2 ∧
      (new.payload.length < new.len →
        (drainPieces (insertPiece ps new) next buffer).2.2 = buffer ++ new.payload) := by
  rw [insertPiece_first (hstart ▸ hps), drainPieces, if_neg (by omega)]
  refine ⟨prefix_drainPieces _ _ _, fun hlt => ?_⟩
  have hgap : next + new.payload.length < new.finish := by
    unfold Piece.finish
    omega
  rw [drainPieces_gap hgap]

/-! ## A segment that is next in order -/

namespace TcpConn

variable {s : TcpConn} {base : BitVec 32}

def Transparent (s : TcpConn) (segment : TcpSegment) : Prop :=
  ∃ t t', tcpHandleDataIn s segment = some t ∧ tcpHandleDataIn s segment.withoutOptions = some t' ∧
    s.recvBuffer ++ segment.payload <+: t.recvBuffer ∧ t.recvBuffer = t'.recvBuffer ∧
    t.rcvNxt = t'.rcvNxt

/-- The first entry of the list does not start below `rcv_nxt`. -/
def HeadAhead (s : TcpConn) : Prop :=
  s.segmentList = 0 ∨ seqLte s.rcvNxt (s.nodes s.segmentList).seq

theorem Pieces.headAhead_iff (h : s.Pieces base 16384 next ps) :
    s.HeadAhead ↔ ∀ p ∈ ps.head?, next ≤ p.start := by
  obtain ⟨xs, hqueue, hmap⟩ := h.holds
  have hhead := hqueue.head_eq
  cases ps with
  | nil =>
    obtain rfl : xs = [] := by simpa using hmap
    exact ⟨fun _ => by simp, fun _ => .inl hhead⟩
  | cons p ps =>
    cases xs with
    | nil => simp at hmap
    | cons x xs =>
      rw [List.map_cons, List.map_cons, List.cons.injEq] at hmap
      obtain ⟨q, hchain⟩ := hqueue.chain
      have hx : x ≠ 0 := hchain.ne_null List.mem_cons_self
      have hahead := h.ahead p List.mem_cons_self
      have hwindow := h.window p List.mem_cons_self
      unfold Piece.finish at hwindow
      unfold HeadAhead
      rw [hhead, List.head?_cons, Option.getD_some, or_iff_right hx, seq_of_chunk hmap.1, h.rcvNxt,
        seqLte_seqAt (by omega) (by omega)]
      simp

theorem piece_payload (segment : TcpSegment) (pos : ℕ) : (piece segment pos).payload =
    segment.payload.take (segment.payloadLen - (segment.off - 5) * 4) := by
  have hskip : segment.headerSize - 20 = (segment.off - 5) * 4 := by
    unfold TcpSegment.headerSize
    omega
  rw [TcpSegment.payload, hskip]
  exact List.drop_take ..

theorem Pieces.handle (h : s.Pieces base 16384 next ps) (hsegment : segment.CarriesPayload)
    (hrst : segment.flags.rst = false) (hseq : segment.seq = s.rcvNxt)
    (hwindow : segment.payloadLen ≤ tcpRecvWindow s) (halloc : s.Allocates segment)
    (hwrap : ¬ s.TrimsAcrossWrap segment.seq segment.payloadLen) :
    ∃ t, tcpHandleDataIn s segment = some t ∧
      t.recvBuffer = (drainPieces (insertPiece ps (piece segment next)) next s.recvBuffer).2.2 ∧
      t.rcvNxt =
        seqAt base (drainPieces (insertPiece ps (piece segment next)) next s.recvBuffer).2.1 := by
  have hseq' := hseq.trans h.rcvNxt
  have hin : next + segment.payloadLen ≤ next + tcpRecvWindow s := by omega
  have hbody : segment.payloadLen ≤ segment.body.length := by
    rw [hsegment.payloadLen_eq, TcpSegment.payload, List.length_drop]
    omega
  obtain ⟨t, hrun, ht, hbuffer⟩ :=
    h.accept le_rfl (accepts_of_window h.rcvNxt hseq' le_rfl hin) hrst
    hseq' le_rfl hin hbody halloc hwrap (fun _ p hp => by
      have := h.window p (List.mem_of_mem_getLast? hp)
      omega)
  exact ⟨t, hrun, hbuffer, ht.rcvNxt⟩

theorem Pieces.transparent_of (h : s.Pieces base 16384 next ps) (hsegment : segment.CarriesPayload)
    (hrst : segment.flags.rst = false) (hseq : segment.seq = s.rcvNxt)
    (halloc : s.Allocates segment)
    (hwrap : ¬ s.TrimsAcrossWrap segment.seq segment.payloadLen) (hoff : segment.off = 5)
    (hwindow : segment.payloadLen ≤ tcpRecvWindow s) (hhead : s.HeadAhead) :
    s.Transparent segment := by
  obtain ⟨t, hrun, hbuffer, -⟩ := h.handle hsegment hrst hseq hwindow halloc hwrap
  have hplain : segment.withoutOptions = segment := by
    unfold TcpSegment.withoutOptions TcpSegment.payload TcpSegment.headerSize
    rw [hoff]
    exact congrArg (fun off => { segment with off := off }) hoff.symm
  have hpayload : (piece segment next).payload = segment.payload := by
    rw [piece_payload, hsegment.payloadLen_eq, hoff]
    exact List.take_length
  have hroom := tcpRecvWindow_le s
  have hfull := h.buffer
  have hlen := hsegment.payloadLen_eq
  have hlimit : s.recvBuffer.length + (piece segment next).payload.length ≤ 196608 := by
    rw [hpayload]
    omega
  have hnext := drainPieces_next (h.headAhead_iff.mp hhead) rfl hlimit
  rw [hpayload] at hnext
  refine ⟨t, t, hrun, hplain.symm ▸ hrun, ?_, rfl, rfl⟩
  rw [hbuffer]
  exact hnext.1

theorem Pieces.window_of_transparent (h : s.Pieces base 16384 next ps)
    (hsegment : segment.CarriesPayload) (hseq : segment.seq = s.rcvNxt)
    (htransparent : s.Transparent segment) : segment.payloadLen ≤ tcpRecvWindow s := by
  obtain ⟨t, -, hrun, -, hprefix, -⟩ := htransparent
  have hpos := hsegment.payload_pos
  have hlen := hprefix.length_le
  rw [List.length_append] at hlen
  by_contra hwindow
  have hreject : ¬ s.Accepts segment := by
    have hroom := tcpRecvWindow_le s
    have hlength := hsegment.length_lt
    have hsize := hsegment.payloadLen_eq
    have hbound : segment.payload.length ≤ segment.body.length := by
      rw [TcpSegment.payload, List.length_drop]
      omega
    unfold TcpSegment.length at hlength
    rintro ⟨-, -, hend⟩
    rw [← ofNat_u64, hseq, h.rcvNxt, ofNat_seqAt_add, seqAt_add,
      seqLte_seqAt (by omega) (by omega)] at hend
    omega
  obtain ⟨u, hrun', -, hbuffer⟩ := h.reject hreject
  obtain rfl := Option.some.inj (hrun.symm.trans hrun')
  rw [hbuffer] at hlen
  omega

theorem Pieces.headAhead_of_transparent (h : s.Pieces base 16384 next ps)
    (hsegment : segment.CarriesPayload) (hrst : segment.flags.rst = false)
    (hseq : segment.seq = s.rcvNxt) (hwindow : segment.payloadLen ≤ tcpRecvWindow s)
    (halloc : s.Allocates segment) (hwrap : ¬ s.TrimsAcrossWrap segment.seq segment.payloadLen)
    (htransparent : s.Transparent segment) : s.HeadAhead := by
  obtain ⟨t, -, hrun, -, hprefix, -⟩ := htransparent
  obtain ⟨u, hrun', hbuffer, -⟩ := h.handle hsegment hrst hseq hwindow halloc hwrap
  obtain rfl := Option.some.inj (hrun.symm.trans hrun')
  have hpos := hsegment.payload_pos
  have hlen := hprefix.length_le
  rw [List.length_append] at hlen
  rw [h.headAhead_iff]
  intro p hp
  by_contra hbelow
  cases ps with
  | nil => cases hp
  | cons q ps =>
    obtain rfl := Option.some.inj hp
    have hqstart : q.start < (piece segment next).start := show q.start < next by omega
    obtain ⟨r, rest, hinsert, hstart⟩ := insertPiece_behind hqstart
    rw [hinsert, drainPieces_stuck (by omega)] at hbuffer
    rw [hbuffer] at hlen
    dsimp only at hlen
    omega

theorem Pieces.off_of_transparent (h : s.Pieces base 16384 next ps)
    (hsegment : segment.CarriesPayload)
    (hrst : segment.flags.rst = false) (hseq : segment.seq = s.rcvNxt)
    (hwindow : segment.payloadLen ≤ tcpRecvWindow s) (halloc : s.Allocates segment)
    (hwrap : ¬ s.TrimsAcrossWrap segment.seq segment.payloadLen) (hhead : s.HeadAhead)
    (htransparent : s.Transparent segment) : segment.off = 5 := by
  obtain ⟨t, -, hrun, -, hprefix, -⟩ := htransparent
  obtain ⟨u, hrun', hbuffer, -⟩ := h.handle hsegment hrst hseq hwindow halloc hwrap
  obtain rfl := Option.some.inj (hrun.symm.trans hrun')
  have hpos := hsegment.payload_pos
  have hoff := hsegment.off_ge
  have hlen := hprefix.length_le
  have hsize := hsegment.payloadLen_eq
  have hroom := tcpRecvWindow_le s
  have hfull := h.buffer
  have hpayload := congrArg List.length (piece_payload segment next)
  rw [List.length_take] at hpayload
  rw [List.length_append] at hlen
  by_contra hne
  have hlimit : s.recvBuffer.length + (piece segment next).payload.length ≤ 196608 := by omega
  have hnext := drainPieces_next (h.headAhead_iff.mp hhead) rfl hlimit
  rw [hnext.2 (by change _ < segment.payloadLen; omega)] at hbuffer
  rw [hbuffer, List.length_append] at hlen
  omega

/-- An in-order segment is transparent exactly if it has no options, fits in the window, and the
list does not start below it. -/
theorem Pieces.transparent_iff (h : s.Pieces base 16384 next ps) (hsegment : segment.CarriesPayload)
    (hrst : segment.flags.rst = false) (hseq : segment.seq = s.rcvNxt)
    (halloc : s.Allocates segment)
    (hwrap : ¬ s.TrimsAcrossWrap segment.seq segment.payloadLen) : s.Transparent segment ↔
      segment.off = 5 ∧ segment.payloadLen ≤ tcpRecvWindow s ∧ s.HeadAhead := by
  constructor
  · intro htransparent
    have hwindow := h.window_of_transparent hsegment hseq htransparent
    have hhead := h.headAhead_of_transparent hsegment hrst hseq hwindow halloc hwrap htransparent
    exact ⟨h.off_of_transparent hsegment hrst hseq hwindow halloc hwrap hhead htransparent,
      hwindow, hhead⟩
  · rintro ⟨hoff, hwindow, hhead⟩
    exact h.transparent_of hsegment hrst hseq halloc hwrap hoff hwindow hhead

end TcpConn

/-! ## Runs -/

namespace TcpReceiver

variable {s t : TcpReceiver} {c : ReceiverCall}

def KeepsPieces (s : TcpReceiver) : ReceiverCall → Prop
  | .data env segment =>
    5 ≤ segment.off ∧ ¬ (s.within env).TrimsAcrossWrap segment.seq segment.payloadLen
  | .recv _ _ => True

def PiecesInv (s : TcpReceiver) : Prop := ∃ base next ps, s.conn.Pieces base 16384 next ps

theorem PiecesInv.of_empty (conn : TcpConn) (hempty : conn.segmentList = 0)
    (hbuffer : conn.recvBuffer.length ≤ 16384) (received : List Byte) :
    (⟨conn, received⟩ : TcpReceiver).PiecesInv :=
  ⟨conn.rcvNxt, 0, [], conn.pieces_nil hempty hbuffer⟩

theorem PiecesInv.data (h : s.PiecesInv) {env : TcpEnv} (hfrom : s.FromWindow (.data env segment))
    (hkeeps : s.KeepsPieces (.data env segment)) :
    ∃ t, s.call (.data env segment) = some t ∧ t.PiecesInv := by
  obtain ⟨base, next, ps, hpieces⟩ := h
  obtain ⟨-, hoff, hwindow, halloc⟩ := hfrom
  obtain ⟨hheader, hwrap⟩ := hkeeps
  have hat := hpieces.same (s.sameReceive_within env)
  have hroom := TcpConn.tcpRecvWindow_le (s.within env)
  obtain ⟨d, hpos, hwindow', haccept⟩ := hat.inWindow hwindow
  cases hrst : segment.flags.rst with
  | true =>
    exact ⟨_, call_data (haccept.reset hrst),
      PiecesInv.of_empty (tcpFree (s.within env)) rfl hpieces.buffer _⟩
  | false =>
    obtain ⟨conn, hrun, hconn, -⟩ :=
      hat.accept le_rfl haccept hrst hpos (Nat.le_add_right _ _) hwindow'
      (payloadLen_le hheader hoff (by omega)) halloc hwrap (fun _ p hp => by
        have := hat.window p (List.mem_of_mem_getLast? hp)
        omega)
    exact ⟨_, call_data hrun, base, _, _, hconn⟩

theorem PiecesInv.call (h : s.PiecesInv) (hfrom : s.FromWindow c) (hkeeps : s.KeepsPieces c) :
    ∃ t, s.call c = some t ∧ t.PiecesInv := by
  cases c with
  | data env segment => exact h.data hfrom hkeeps
  | recv env maxlen =>
    obtain ⟨base, next, ps, hpieces⟩ := h
    have hat := hpieces.same (s.sameReceive_within env)
    exact ⟨_, s.call_recv env maxlen, base, next, ps, hat.recv maxlen (hfrom 0)⟩

def optionSegment : TcpSegment :=
  { dataSegment 0 101 [1, 1, 1, 0, 10, 11, 12, 13, 14, 15, 16, 17] with off := 6 }

end TcpReceiver

end RetroRocket
