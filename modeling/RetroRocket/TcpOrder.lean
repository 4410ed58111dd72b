import RetroRocket.TcpReceive

/-!
# The order of the reassembly list

In a run of in-window segments whose calls are all `Safe` the list stays doubly linked, in order and
disjoint, and nothing in it starts below `rcv_nxt`. Three kinds of calls are not safe: a segment
that goes to the end of the list is not cut against the last entry, an empty segment beyond
`rcv_nxt` is stored, and an entry is trimmed across the wrap of the sequence numbers.
-/

namespace RetroRocket

namespace TcpConn

def InWindow (s : TcpConn) (segment : TcpSegment) : Prop :=
  (segment.seq - s.rcvNxt).toNat + segment.payloadLen ≤ tcpRecvWindow s

def OverlapsLast (s : TcpConn) (seq : BitVec 32) : Prop :=
  ∃ xs, s.Queue xs ∧ (∀ x ∈ xs, seqLt (s.nodes x).seq seq) ∧
    ∃ x ∈ xs, seqGt (BitVec.ofNat 32 (s.nodes x).finish) seq

def Covers (s : TcpConn) (x : ℕ) (a : BitVec 32) : Prop :=
  (a - (s.nodes x).seq).toNat < (s.nodes x).len

structure OrderedList (s : TcpConn) (xs : List ℕ) : Prop where
  linked : s.Queue xs
  sorted : xs.Pairwise fun x y => seqLt (s.nodes x).seq (s.nodes y).seq
  disjoint : xs.Pairwise fun x y => ∀ a, s.Covers x a → ¬ s.Covers y a
  nonempty : ∀ x ∈ xs, 0 < (s.nodes x).len
  above : ∀ x ∈ xs, seqLte s.rcvNxt (s.nodes x).seq

variable {s : TcpConn} {base : BitVec 32} {w next : ℕ} {ps : List Piece} {segment : TcpSegment}

theorem Pieces.inWindow (h : s.Pieces base w next ps) (hwindow : s.InWindow segment) :
    ∃ d, segment.seq = seqAt base (next + d) ∧
      next + d + segment.payloadLen ≤ next + tcpRecvWindow s ∧ s.Accepts segment := by
  have hpos := exists_seqAt base segment.seq next
  unfold InWindow at hwindow
  rw [h.rcvNxt] at hwindow
  have hend := Nat.add_le_add_left hwindow next
  rw [← Nat.add_assoc] at hend
  exact ⟨_, hpos, hend, accepts_of_window h.rcvNxt hpos (Nat.le_add_right _ _) hend⟩

/-- A segment behind all pieces does not overlap the last one. -/
theorem Pieces.last_le (h : s.Pieces base 0 next ps) {seq : BitVec 32} {d : ℕ}
    (hlast : ¬ s.OverlapsLast seq) (hseq : seq = seqAt base (next + d)) (hd : d ≤ 16384)
    (hbelow : ∀ p ∈ ps, p.start < next + d) : ∀ p ∈ ps.getLast?, p.finish ≤ next + d + 0 := by
  intro p hp
  have hpmem := List.mem_of_mem_getLast? hp
  obtain ⟨xs, hqueue, hmap⟩ := h.holds
  by_contra hover
  refine hlast ⟨xs, hqueue, fun x hx => ?_, ?_⟩
  · obtain ⟨q, hq, hchunk⟩ := exists_of_map_eq hmap hx
    have hqahead := h.ahead q hq
    have hqbelow := hbelow q hq
    rw [seq_of_chunk hchunk, hseq]
    exact (seqLt_seqAt (by omega) (by omega)).mpr hqbelow
  · have hmem := List.mem_map_of_mem (f := Piece.chunk base) hpmem
    rw [← hmap, List.mem_map] at hmem
    obtain ⟨x, hx, hchunk⟩ := hmem
    have hpwindow := h.window p hpmem
    refine ⟨x, hx, ?_⟩
    rw [finish_of_chunk hchunk, hseq]
    exact (seqGt_seqAt (by omega) (by omega)).mpr (by omega)

end TcpConn

namespace TcpReceiver

variable {s t : TcpReceiver} {c : ReceiverCall}

/-- Segments that lie in the window reach a connection that is not freed, and allocations succeed.
The offset has four bits. -/
def FromWindow (s : TcpReceiver) : ReceiverCall → Prop
  | .data env segment => s.conn.alive = true ∧ segment.off < 16 ∧ s.conn.InWindow segment ∧
      (s.within env).Allocates segment
  | .recv env _ => ∀ n, env.memory n ≠ 0

/-- The header has its full length, an empty segment is the next one, a segment behind all entries
does not overlap the last one, and no entry is trimmed across the wrap. -/
def KeepsOrder (s : TcpReceiver) : ReceiverCall → Prop
  | .data env segment => 5 ≤ segment.off ∧ (segment.payloadLen = 0 → segment.seq = s.conn.rcvNxt) ∧
      ¬ (s.within env).OverlapsLast segment.seq ∧
      ¬ (s.within env).TrimsAcrossWrap segment.seq segment.payloadLen
  | .recv _ _ => True

/-! ## The invariant -/

def OrderInv (s : TcpReceiver) : Prop :=
  ∃ base next ps, s.conn.Pieces base 0 next ps ∧ ∀ p ∈ ps, 0 < p.len

theorem OrderInv.orderedList (h : s.OrderInv) : ∃ xs, s.conn.OrderedList xs := by
  obtain ⟨base, next, ps, hpieces, hlen⟩ := h
  obtain ⟨xs, hqueue, hmap⟩ := hpieces.holds
  -- a relation of pieces is one of the nodes that hold them
  have hpair : ∀ R : Chunk → Chunk → Prop,
      ps.Pairwise (fun p q => R (p.chunk base) (q.chunk base)) →
      xs.Pairwise fun x y => R (s.conn.chunk x) (s.conn.chunk y) := by
    intro R hR
    rw [← List.pairwise_map, hmap]
    exact List.pairwise_map.mpr hR
  refine ⟨xs, hqueue, ?_, ?_, ?_, ?_⟩
  · refine hpair (fun c d => seqLt c.seq d.seq) (hpieces.apart.imp_of_mem fun {p q} hp hq hpq => ?_)
    have hplen := hlen p hp
    have hpahead := hpieces.ahead p hp
    have hqwindow := hpieces.window q hq
    unfold Piece.finish at *
    exact (seqLt_seqAt (by omega) (by omega)).mpr (by omega)
  · refine hpair (fun c d => ∀ a, (a - c.seq).toNat < c.len → ¬ (a - d.seq).toNat < d.len)
      (hpieces.apart.imp_of_mem fun {p q} hp hq hpq a hpa hqa => ?_)
    have hpahead := hpieces.ahead p hp
    have hqwindow := hpieces.window q hq
    change (a - seqAt base p.start).toNat < p.len at hpa
    change (a - seqAt base q.start).toNat < q.len at hqa
    have hap := exists_seqAt base a p.start
    have haq := exists_seqAt base a q.start
    unfold Piece.finish at *
    generalize (a - seqAt base p.start).toNat = k at *
    generalize (a - seqAt base q.start).toNat = m at *
    have heq := (seqAt_inj (by omega) (by omega)).mp (hap.symm.trans haq)
    omega
  · intro x hx
    obtain ⟨p, hp, hchunk⟩ := TcpConn.exists_of_map_eq hmap hx
    rw [TcpConn.len_of_chunk hchunk]
    exact hlen p hp
  · intro x hx
    obtain ⟨p, hp, hchunk⟩ := TcpConn.exists_of_map_eq hmap hx
    have hahead := hpieces.ahead p hp
    have hwindow := hpieces.window p hp
    rw [TcpConn.seq_of_chunk hchunk, hpieces.rcvNxt]
    unfold Piece.finish at *
    exact (seqLte_seqAt (by omega) (by omega)).mpr hahead

theorem OrderInv.of_empty (conn : TcpConn) (hempty : conn.segmentList = 0)
    (hbuffer : conn.recvBuffer.length ≤ 16384) (received : List Byte) :
    (⟨conn, received⟩ : TcpReceiver).OrderInv :=
  ⟨conn.rcvNxt, 0, [], conn.pieces_nil hempty hbuffer, by simp⟩

theorem payloadLen_le {segment : TcpSegment} (hheader : 5 ≤ segment.off) (hoff : segment.off < 16)
    (hlen : segment.payloadLen ≤ 16384) : segment.payloadLen ≤ segment.body.length := by
  unfold TcpSegment.payloadLen TcpSegment.headerSize TcpSegment.length sub64 u64 at *
  omega

theorem OrderInv.data (h : s.OrderInv) {env : TcpEnv} {segment : TcpSegment}
    (hfrom : s.FromWindow (.data env segment)) (hkeeps : s.KeepsOrder (.data env segment)) :
    ∃ t, s.call (.data env segment) = some t ∧ t.OrderInv := by
  obtain ⟨base, next, ps, hpieces, hlen⟩ := h
  obtain ⟨-, hoff, hwindow, halloc⟩ := hfrom
  obtain ⟨hheader, hempty, hlast, hwrap⟩ := hkeeps
  have hat := hpieces.same (s.sameReceive_within env)
  have hroom := TcpConn.tcpRecvWindow_le (s.within env)
  obtain ⟨d, hpos, hwindow', haccept⟩ := hat.inWindow hwindow
  cases hrst : segment.flags.rst with
  | true =>
    exact ⟨_, call_data (haccept.reset hrst),
      OrderInv.of_empty (tcpFree (s.within env)) rfl hpieces.buffer _⟩
  | false =>
    obtain ⟨conn, hrun, hconn, -⟩ := hat.accept (Nat.zero_le _) haccept hrst hpos
      (Nat.le_add_right _ _) hwindow' (payloadLen_le hheader hoff (by omega)) halloc hwrap
      (hat.last_le hlast hpos (by omega))
    refine ⟨_, call_data hrun, base, _, _, hconn, ?_⟩
    -- an empty segment is delivered at once
    have hnew : 0 < segment.payloadLen ∨ next + d = next := by
      by_cases hzero : segment.payloadLen = 0
      · right
        rw [hpos, hpieces.rcvNxt] at hempty
        exact (seqAt_inj (by omega) (by omega)).mp (hempty hzero)
      · exact Or.inl (Nat.pos_of_ne_zero hzero)
    have hlimit : ∀ p ∈ insertPiece ps (TcpConn.piece segment (next + d)),
        p.finish + (s.within env).recvBuffer.length ≤ next + 196608 := fun p hp =>
      (hat.insert_window hwindow' p hp).trans (by omega)
    exact len_pos_of_head_ne (le_drainPieces _ _ _) hconn.ahead hconn.apart
      (drainPieces_head hlimit) fun p hp =>
        insertPiece_len hlen hnew p ((drainPieces_isSuffix _ _ _).subset hp)

theorem OrderInv.recv (h : s.OrderInv) {env : TcpEnv} {maxlen : ℕ}
    (hfrom : s.FromWindow (.recv env maxlen)) :
    ∃ t, s.call (.recv env maxlen) = some t ∧ t.OrderInv := by
  obtain ⟨base, next, ps, hpieces, hlen⟩ := h
  have hat := hpieces.same (s.sameReceive_within env)
  exact ⟨_, s.call_recv env maxlen, base, next, ps, hat.recv maxlen (hfrom 0), hlen⟩

theorem OrderInv.call (h : s.OrderInv) (hfrom : s.FromWindow c) (hkeeps : s.KeepsOrder c) :
    ∃ t, s.call c = some t ∧ t.OrderInv := by
  cases c with
  | data env segment => exact h.data hfrom hkeeps
  | recv env maxlen => exact h.recv hfrom

/-- In a run of calls that keep the order the list is ordered, and every further such call
returns. -/
theorem run_orderedList (conn : TcpConn) (hopened : conn.Opened)
    (hrun : Run call (fun s c => s.FromWindow c ∧ s.KeepsOrder c) ⟨conn, []⟩ t) :
    (∃ xs, t.conn.OrderedList xs) ∧ ∀ c, t.FromWindow c → t.KeepsOrder c → (t.call c).isSome := by
  have hbuffer : conn.recvBuffer.length ≤ 16384 := by
    rw [hopened.recvBuffer]
    exact Nat.zero_le _
  have hinv := hrun.invariant (OrderInv.of_empty conn hopened.segmentList hbuffer [])
    fun h hallowed => h.call hallowed.1 hallowed.2
  refine ⟨hinv.orderedList, fun c hfrom hkeeps => ?_⟩
  obtain ⟨u, hcall, -⟩ := hinv.call hfrom hkeeps
  rw [hcall]
  rfl

/-! ## An overlap at the end of the list -/

def overlapStart : TcpReceiver := ⟨establishedConn 0 100, []⟩

def overlapStored : TcpReceiver :=
  Run.next call overlapStart (.data (envAt 4096) (dataSegment 0 103 [2, 3, 4, 5]))

def overlapTail : TcpReceiver :=
  Run.next call overlapStored (.data (envAt 8192) (dataSegment 0 105 [4, 5, 6, 7]))

theorem overlapStored_run : Run call FromWindow overlapStart overlapStored := by
  unfold overlapStored
  refine Run.next_step Run.refl ⟨rfl, by decide, ?_, ?_⟩ (by decide +kernel)
  · unfold TcpConn.InWindow
    decide +kernel
  · exact TcpConn.allocates_of_empty rfl (by decide) (envAt_ne_zero (by decide)) (by decide)

theorem overlapTail_run : Run call FromWindow overlapStart overlapTail := by
  unfold overlapTail
  refine Run.next_step overlapStored_run ⟨by decide +kernel, by decide, ?_, ?_⟩ (by decide +kernel)
  · unfold TcpConn.InWindow
    decide +kernel
  · refine ⟨envAt_ne_zero (by decide), by decide, ?_⟩
    intro cur t v hfind hroom xs hqueue
    have hcur : findInsertionPoint (overlapStored.within (envAt 8192)).nodes 105 (2 ^ 64)
        (overlapStored.within (envAt 8192)).segmentList = some 0 := by decide +kernel
    have hlist : (makeRoom (overlapStored.within (envAt 8192)) 0 105 4).map
        (fun p => (p.1.segmentList, p.1.next 4096)) = some (4096, 0) := by decide +kernel
    obtain rfl := Option.some.inj (hcur.symm.trans hfind)
    have hlen : (dataSegment 0 105 [4, 5, 6, 7]).payloadLen = 4 := by decide
    rw [hlen] at hroom
    change makeRoom (overlapStored.within (envAt 8192)) 0 105 4 = _ at hroom
    rw [hroom] at hlist
    obtain ⟨hhead, hnext⟩ := Prod.mk.inj (Option.some.inj hlist)
    obtain ⟨r, rfl, hr⟩ := hqueue.eq_cons hhead (by decide)
    cases r with
    | nil => decide
    | cons y r =>
      obtain ⟨q, hchain⟩ := hqueue.chain
      exact absurd (hr.symm.trans hnext) (hchain.ne_null (by simp))

theorem overlapTail_not_ordered :
    Run call FromWindow overlapStart overlapTail ∧ ¬ ∃ xs, overlapTail.conn.OrderedList xs := by
  refine ⟨overlapTail_run, ?_⟩
  rintro ⟨xs, hlist⟩
  obtain ⟨r, rfl, hr⟩ := hlist.linked.eq_cons (a := 4096) (by decide +kernel) (by decide)
  have hnext : overlapTail.conn.next 4096 = 8192 := by decide +kernel
  have hmem : 8192 ∈ r := by
    cases r with
    | nil => cases hnext.symm.trans hr
    | cons y r =>
      obtain rfl : 8192 = y := hnext.symm.trans hr
      exact List.mem_cons_self
  have hfirst : overlapTail.conn.Covers 4096 105 := by
    unfold TcpConn.Covers
    decide +kernel
  have hsecond : overlapTail.conn.Covers 8192 105 := by
    unfold TcpConn.Covers
    decide +kernel
  exact (List.pairwise_cons.mp hlist.disjoint).1 8192 hmem 105 hfirst hsecond

def gapStored : TcpReceiver :=
  Run.next call overlapStart (.data (envAt 4096) (dataSegment 0 101 [0, 1]))

def gapRead : TcpReceiver := Run.next call gapStored (.recv (envAt 8192) 1)

def gapEnd : TcpReceiver :=
  Run.next call gapRead (.data (envAt 12288) (dataSegment 0 105 [4, 5]))

/-- An empty list takes in what carries data and is in the window. -/
theorem keepsOrder_of_empty {s : TcpReceiver} {env : TcpEnv} {segment : TcpSegment}
    (hempty : (s.within env).segmentList = 0) (hoff : 5 ≤ segment.off)
    (hlen : segment.payloadLen ≠ 0) :
    s.KeepsOrder (.data env segment) := by
  refine ⟨hoff, fun h => absurd h hlen, ?_, ?_⟩
  · rintro ⟨xs, hqueue, -, x, hx, -⟩
    rw [hqueue.eq_nil hempty] at hx
    cases hx
  · rintro ⟨xs, x, hqueue, hx, -⟩
    rw [hqueue.eq_nil hempty] at hx
    cases hx

/-- Two bytes arrive and one of them is read, before two others arrive behind a gap. -/
theorem run_orderedList_gap :
    (∃ xs, gapEnd.conn.OrderedList xs) ∧
      ∀ c, gapEnd.FromWindow c → gapEnd.KeepsOrder c → (gapEnd.call c).isSome := by
  have hstored : Run call (fun s c => s.FromWindow c ∧ s.KeepsOrder c) overlapStart gapStored := by
    refine Run.next_step Run.refl ⟨⟨rfl, by decide, ?_, ?_⟩,
      keepsOrder_of_empty rfl (by decide) (by decide)⟩ (by decide +kernel)
    · unfold TcpConn.InWindow
      decide +kernel
    · exact TcpConn.allocates_of_empty rfl (by decide) (envAt_ne_zero (by decide)) (by decide)
  have hread : Run call (fun s c => s.FromWindow c ∧ s.KeepsOrder c) overlapStart gapRead :=
    Run.next_step hstored ⟨envAt_ne_zero (by decide), trivial⟩ (by decide +kernel)
  have hend : Run call (fun s c => s.FromWindow c ∧ s.KeepsOrder c) overlapStart gapEnd := by
    have hempty : (gapRead.within (envAt 12288)).segmentList = 0 := by decide +kernel
    refine Run.next_step hread ⟨⟨by decide +kernel, by decide, ?_, ?_⟩,
      keepsOrder_of_empty hempty (by decide) (by decide)⟩ (by decide +kernel)
    · unfold TcpConn.InWindow
      decide +kernel
    · exact TcpConn.allocates_of_empty hempty (by decide +kernel) (envAt_ne_zero (by decide))
        (by decide)
  exact run_orderedList (establishedConn 0 100) (opened_establishedConn 0 100) hend

end TcpReceiver

end RetroRocket
