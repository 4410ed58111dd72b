import RetroRocket.StreamPieces
import RetroRocket.TcpSegmentList

/-!
# The reassembly list holds pieces of the stream

`Holds s base ps` says that the nodes of the list hold the pieces `ps`, where position 0 of the
stream has the sequence number `base`. While all positions are less than 2 ^ 31 apart, the functions
on the list do to the nodes what `insertPiece` and `drainPieces` do to the pieces, unless a node
would be trimmed across the wrap of the sequence numbers (`trimsAcrossWrap`).
-/

namespace RetroRocket

def Piece.chunk (base : BitVec 32) (p : Piece) : Chunk := ⟨seqAt base p.start, p.off, p.body, p.len⟩

def Near (lo : ℕ) (ps : List Piece) : Prop := ∀ p ∈ ps, lo ≤ p.start ∧ p.finish < lo + 2 ^ 31

namespace TcpConn

def Holds (s : TcpConn) (base : BitVec 32) (ps : List Piece) : Prop :=
  ∃ xs, s.Queue xs ∧ xs.map s.chunk = ps.map (Piece.chunk base)

variable {s t : TcpConn} {base seq : BitVec 32} {ps pl pr : List Piece} {xs l r : List ℕ}
variable {p : Piece} {a b q x n e lo newEnd fuel : ℕ}

/-! ## What a node says of its piece -/

theorem seq_of_chunk (h : s.chunk x = p.chunk base) : (s.nodes x).seq = seqAt base p.start :=
  congrArg Chunk.seq h

theorem len_of_chunk (h : s.chunk x = p.chunk base) : (s.nodes x).len = p.len :=
  congrArg Chunk.len h

theorem body_of_chunk (h : s.chunk x = p.chunk base) : (s.nodes x).body = p.body :=
  congrArg Chunk.body h

theorem off_of_chunk (h : s.chunk x = p.chunk base) : (s.nodes x).off = p.off :=
  congrArg Chunk.off h

theorem ofNat_u64 (n : ℕ) : BitVec.ofNat 32 (u64 n) = BitVec.ofNat 32 n := by
  apply BitVec.eq_of_toNat_eq
  rw [BitVec.toNat_ofNat, BitVec.toNat_ofNat, u64]
  exact Nat.mod_mod_of_dvd n (by norm_num)

theorem ofNat_seqAt_add (base : BitVec 32) (m n : ℕ) :
    BitVec.ofNat 32 (u64 ((seqAt base m).toNat + n)) = seqAt base (m + n) := by
  rw [ofNat_u64, BitVec.ofNat_add, BitVec.ofNat_toNat, BitVec.setWidth_eq, seqAt_add]

theorem finish_of_chunk (h : s.chunk x = p.chunk base) :
    BitVec.ofNat 32 (s.nodes x).finish = seqAt base p.finish := by
  unfold OrderedNode.finish
  rw [seq_of_chunk h, len_of_chunk h, ofNat_seqAt_add]
  rfl

/-! ## The search -/

theorem findInsertionPoint_eq (h : Chain 0 s.prev s.next a b (l ++ r) q 0)
    (hl : ∀ x ∈ l, seqLt (s.nodes x).seq seq) (hr : ∀ x ∈ r.head?, ¬ seqLt (s.nodes x).seq seq)
    (hfuel : l.length < fuel) : findInsertionPoint s.nodes seq fuel b = some (r.head?.getD 0) := by
  induction l generalizing a b fuel with
  | nil =>
    cases fuel with
    | zero => exact absurd hfuel (Nat.not_lt_zero _)
    | succ fuel =>
      have hhead : b = r.head?.getD 0 := h.head
      have hstop : ¬ (b ≠ 0 ∧ seqLt (s.nodes b).seq seq) := by
        rintro ⟨hb, hlt⟩
        cases r with
        | nil => exact hb hhead
        | cons c r =>
          obtain rfl : b = c := hhead
          exact hr b rfl hlt
      rw [findInsertionPoint, if_neg hstop, hhead]
  | cons y l ih =>
    obtain ⟨rfl, hb, -, hrest⟩ := h
    rw [List.forall_mem_cons] at hl
    cases fuel with
    | zero => exact absurd hfuel (Nat.not_lt_zero _)
    | succ fuel =>
      rw [findInsertionPoint, if_pos ⟨hb, hl.1⟩]
      exact ih hrest hl.2 (Nat.lt_of_succ_lt_succ hfuel)

/-! ## The overlap with the node before -/

theorem cutLast_concat (pl : List Piece) (p : Piece) (e : ℕ) :
    cutLast (pl ++ [p]) e = pl ++ [p.cutBack e] := by
  induction pl with
  | nil => rfl
  | cons q pl ih =>
    cases pl with
    | nil => rfl
    | cons r pl =>
      change q :: cutLast (r :: pl ++ [p]) e = _
      rw [ih]
      rfl

theorem shrinkPrev_holds (h : s.Queue (l ++ x :: r))
    (hl : l.map s.chunk = pl.map (Piece.chunk base))
    (hnear : Near lo pl) (hlo : lo ≤ n) (hn : n < lo + 2 ^ 31) (hlt : ∀ p ∈ pl, p.start < n) :
    ∃ t, shrinkPrev s x (seqAt base n) = t ∧ s.OnlyQueue t ∧ t.env = s.env ∧ t.Queue (l ++ x :: r) ∧
      l.map t.chunk = (cutLast pl n).map (Piece.chunk base) ∧
      (x :: r).map t.chunk = (x :: r).map s.chunk := by
  obtain ⟨q, hchain⟩ := h.chain
  have hx : x ≠ 0 := hchain.ne_null (by simp)
  have hprev : (s.nodes x).prev = _ := h.prev_eq
  refine ⟨_, rfl, ?_⟩
  cases l using List.reverseRecOn with
  | nil =>
    have heq : shrinkPrev s x (seqAt base n) = s := by
      unfold shrinkPrev
      rw [if_neg hx, hprev]
      exact if_neg fun hand => hand.1 rfl
    rw [heq]
    obtain rfl : pl = [] := by simpa using hl.symm
    exact ⟨OnlyQueue.refl s, rfl, h, rfl, rfl⟩
  | append_singleton l y =>
    rw [List.getLast?_concat] at hprev
    have hy : y ≠ 0 := hchain.ne_null (by simp)
    obtain ⟨pl, p, rfl⟩ : ∃ pl' p, pl = pl' ++ [p] :=
      (List.eq_nil_or_concat' pl).resolve_left (by rintro rfl; simp at hl)
    rw [List.map_append, List.map_append] at hl
    obtain ⟨hinit, hlast⟩ := List.append_inj' hl rfl
    have hchunk : s.chunk y = p.chunk base := by simpa using hlast
    have hpmem : p ∈ pl ++ [p] := by simp
    have hp := hnear p hpmem
    have hpn := hlt p hpmem
    unfold shrinkPrev
    rw [if_neg hx, hprev]
    dsimp only [Option.getD_some]
    rw [cutLast_concat]
    have hle : p.start ≤ p.finish := Nat.le_add_right _ _
    have hgt : seqGt (BitVec.ofNat 32 (s.nodes y).finish) (seqAt base n) ↔ n < p.finish := by
      rw [finish_of_chunk hchunk]
      exact seqGt_seqAt (by omega) (by omega)
    by_cases hcut : n < p.finish
    · rw [if_pos ⟨hy, hgt.mpr hcut⟩]
      have hyx : y ∉ l ∧ y ∉ x :: r := by
        rw [List.append_assoc] at h
        exact h.not_mem
      refine ⟨onlyQueue_setNode s y _, rfl, h.setNode rfl rfl, ?_, map_chunk_setNode s _ hyx.2⟩
      rw [List.map_append, List.map_append, map_chunk_setNode s _ hyx.1, hinit]
      congr 1
      rw [List.map_singleton, List.map_singleton, setNode_chunk_self]
      have hlen : (seqAt base n - (s.nodes y).seq).toNat = n - p.start := by
        rw [seq_of_chunk hchunk, sub_seqAt base hpn.le, BitVec.toNat_ofNat]
        exact Nat.mod_eq_of_lt (by omega)
      rw [hlen]
      unfold OrderedNode.chunk Piece.chunk Piece.cutBack
      rw [if_pos hcut]
      dsimp only
      rw [seq_of_chunk hchunk, off_of_chunk hchunk, body_of_chunk hchunk]
    · rw [if_neg fun hand => hcut (hgt.mp hand.2)]
      refine ⟨OnlyQueue.refl s, rfl, h, ?_, rfl⟩
      have huncut : p.cutBack n = p := if_neg hcut
      rw [huncut, List.map_append, List.map_append, hinit, hlast]

/-! ## The removal of covered nodes -/

theorem removeCovered_holds (h : s.Queue (l ++ r)) (hr : r.map s.chunk = pr.map (Piece.chunk base))
    (hnear : Near lo pr) (hlo : lo ≤ e) (he : e < lo + 2 ^ 31)
    (hend : BitVec.ofNat 32 newEnd = seqAt base e) (hfuel : r.length < fuel) :
    ∃ t r', removeCovered newEnd fuel (r.head?.getD 0) s = some (t, r'.head?.getD 0) ∧
      s.OnlyQueue t ∧ t.env = s.env ∧ t.Queue (l ++ r') ∧ t.chunk = s.chunk ∧
      r'.map s.chunk = (uncovered pr e).map (Piece.chunk base) := by
  induction r generalizing s pr fuel with
  | nil =>
    obtain rfl : pr = [] := by simpa using hr.symm
    cases fuel with
    | zero => exact absurd hfuel (Nat.not_lt_zero _)
    | succ fuel =>
      refine ⟨s, [], ?_, OnlyQueue.refl s, rfl, h, rfl, rfl⟩
      rw [removeCovered]
      exact if_pos rfl
  | cons x r ih =>
    obtain ⟨q, hchain⟩ := h.chain
    have hx : x ≠ 0 := hchain.ne_null (by simp)
    cases fuel with
    | zero => exact absurd hfuel (Nat.not_lt_zero _)
    | succ fuel =>
      cases pr with
      | nil => simp at hr
      | cons p pr =>
        rw [List.map_cons, List.map_cons, List.cons.injEq] at hr
        have hp := hnear p List.mem_cons_self
        have hle : p.start ≤ p.finish := Nat.le_add_right _ _
        have hgte : seqGte (BitVec.ofNat 32 newEnd) (BitVec.ofNat 32 (s.nodes x).finish) ↔
            p.finish ≤ e := by
          rw [hend, finish_of_chunk hr.1]
          exact seqGte_seqAt (by omega) (by omega)
        rw [removeCovered, List.head?_cons, Option.getD_some, if_neg hx]
        by_cases hcov : p.finish ≤ e
        · have hnext : (s.nodes x).next = r.head?.getD 0 := h.next_eq
          rw [if_pos (hgte.mpr hcov), hnext]
          obtain ⟨t, r', hrun, honly, henv, hqueue, hchunk, hmap⟩ :=
            ih h.unlinkNode (by rw [unlinkNode_chunk]; exact hr.2)
              (fun p hp => hnear p (List.mem_cons_of_mem _ hp)) (Nat.lt_of_succ_lt_succ hfuel)
          refine ⟨t, r', hrun, (unlinkNode_onlyQueue s x).trans honly, ?_, hqueue, ?_, ?_⟩
          · rw [henv, unlinkNode_env]
          · rw [hchunk, unlinkNode_chunk]
          · rw [unlinkNode_chunk] at hmap
            rw [hmap]
            unfold uncovered
            rw [List.dropWhile_cons_of_pos (by simpa using hcov)]
        · rw [if_neg fun hle => hcov (hgte.mp hle)]
          refine ⟨s, x :: r, rfl, OnlyQueue.refl s, rfl, h, rfl, ?_⟩
          unfold uncovered
          rw [List.dropWhile_cons_of_neg
            (by simpa using hcov), List.map_cons, List.map_cons, hr.1, hr.2]

/-! ## The overlap with the node behind -/

theorem sub64_seqAt {m : ℕ} (hend : BitVec.ofNat 32 newEnd = seqAt base e) (hle : m ≤ e)
    (hnear : e < m + 2 ^ 31) (hlt : newEnd < 2 ^ 64) (hstart : (seqAt base m).toNat ≤ newEnd)
    (hfinish : newEnd < (seqAt base m).toNat + 2 ^ 31) :
    sub64 newEnd (seqAt base m).toNat = e - m := by
  have hnat := congrArg BitVec.toNat hend
  rw [BitVec.toNat_ofNat, toNat_seqAt] at hnat
  rw [sub64_of_le hstart hlt]
  rw [toNat_seqAt] at *
  omega

theorem trimFront_holds (h : s.Queue (l ++ r)) (hr : r.map s.chunk = pr.map (Piece.chunk base))
    (hnear : Near lo pr) (hlo : lo ≤ e) (he : e < lo + 2 ^ 31)
    (hend : BitVec.ofNat 32 newEnd = seqAt base e) (hlt : newEnd < 2 ^ 64)
    (hbody : ∀ p ∈ pr, p.len ≤ p.body.length) (hlast : ∀ p ∈ pr.head?, e < p.finish)
    (hwrap : ∀ p ∈ pr.head?, p.start < e →
      (seqAt base p.start).toNat ≤ newEnd ∧ newEnd ≤ (seqAt base p.start).toNat + p.len) :
    ∃ t, trimFront s (r.head?.getD 0) newEnd = some t ∧ s.OnlyQueue t ∧ t.env = s.env ∧
      t.Queue (l ++ r) ∧ l.map t.chunk = l.map s.chunk ∧
      r.map t.chunk = (cutHead pr e).map (Piece.chunk base) := by
  cases r with
  | nil =>
    obtain rfl : pr = [] := by simpa using hr.symm
    refine ⟨s, ?_, OnlyQueue.refl s, rfl, h, rfl, rfl⟩
    unfold trimFront
    exact if_neg fun hand => hand.1 rfl
  | cons x r =>
    obtain ⟨q, hchain⟩ := h.chain
    have hx : x ≠ 0 := hchain.ne_null (by simp)
    cases pr with
    | nil => simp at hr
    | cons p pr =>
      rw [List.map_cons, List.map_cons, List.cons.injEq] at hr
      have hp := hnear p List.mem_cons_self
      have hfinish := hlast p rfl
      have hplen := hbody p List.mem_cons_self
      have hle : p.start ≤ p.finish := Nat.le_add_right _ _
      have hgt : seqGt (BitVec.ofNat 32 newEnd) (s.nodes x).seq ↔ p.start < e := by
        rw [hend, seq_of_chunk hr.1]
        exact seqGt_seqAt (by omega) (by omega)
      rw [List.head?_cons, Option.getD_some]
      unfold trimFront
      dsimp only
      by_cases hcut : p.start < e
      · obtain ⟨hfrom, hto⟩ := hwrap p rfl hcut
        have hlen : p.finish = p.start + p.len := rfl
        have hover : sub64 newEnd (s.nodes x).seq.toNat = e - p.start := by
          rw [seq_of_chunk hr.1]
          exact sub64_seqAt hend hcut.le (by omega) hlt hfrom (by omega)
        have hroom :
            ¬ ((s.nodes x).len < e - p.start ∨ (s.nodes x).body.length < (s.nodes x).len) := by
          rw [len_of_chunk hr.1, body_of_chunk hr.1]
          omega
        rw [if_pos ⟨hx, hgt.mpr hcut⟩, hover, if_neg hroom]
        refine ⟨_, rfl, onlyQueue_setNode s x _, rfl, h.setNode rfl rfl,
          map_chunk_setNode s _ h.not_mem.1, ?_⟩
        rw [List.map_cons, setNode_chunk_self, map_chunk_setNode s _ h.not_mem.2, cutHead,
          List.map_cons, hr.2]
        congr 1
        unfold OrderedNode.chunk Piece.chunk Piece.cutFront
        rw [if_pos hcut]
        dsimp only
        rw [seq_of_chunk hr.1, off_of_chunk hr.1, body_of_chunk hr.1, len_of_chunk hr.1, seqAt_add,
          Nat.add_sub_cancel' hcut.le, show p.len - (e - p.start) = p.finish - e by omega]
      · rw [if_neg fun hand => hcut (hgt.mp hand.2)]
        refine ⟨s, rfl, OnlyQueue.refl s, rfl, h, rfl, ?_⟩
        have huncut : p.cutFront e = p := if_neg hcut
        rw [cutHead, huncut, List.map_cons, List.map_cons, hr.1, hr.2]

/-! ## Insertion -/

/-- A stored node contains the end of the new segment in the order of sequence numbers, but not as
64-bit numbers: one of them has wrapped. -/
def TrimsAcrossWrap (s : TcpConn) (seq : BitVec 32) (len : ℕ) : Prop :=
  ∃ xs x, s.Queue xs ∧ x ∈ xs ∧
    seqGt (BitVec.ofNat 32 (seq.toNat + len)) (s.nodes x).seq ∧
    seqLt (BitVec.ofNat 32 (seq.toNat + len)) (BitVec.ofNat 32 (s.nodes x).finish) ∧
    ¬ ((s.nodes x).seq.toNat ≤ seq.toNat + len ∧
      seq.toNat + len ≤ (s.nodes x).seq.toNat + (s.nodes x).len)

/-- The allocations of a call succeed. The memory for the new node is not in use by the list as it
is at that time. -/
structure Allocates (s : TcpConn) (segment : TcpSegment) : Prop where
  pos : ∀ n, s.env.memory n ≠ 0
  bound : s.env.memory 0 < 2 ^ 64
  fresh : ∀ cur t v, findInsertionPoint s.nodes segment.seq (2 ^ 64) s.segmentList = some cur →
    makeRoom s cur segment.seq segment.payloadLen = some (t, v) →
    ∀ xs, t.Queue xs → s.env.memory 0 ∉ xs

theorem dropWhile_start_of_mem (h : p ∈ (ps.dropWhile fun p => p.start < n).head?) :
    n ≤ p.start := by
  have hnot := List.head?_dropWhile_not (fun p : Piece => p.start < n) ps
  rw [Option.mem_def.mp h] at hnot
  simpa using hnot

theorem mem_uncovered (h : p ∈ uncovered ps e) : p ∈ ps := (List.dropWhile_sublist _).subset h

theorem makeRoom_holds {len : ℕ} (h : s.Queue (l ++ r))
    (hl : l.map s.chunk = pl.map (Piece.chunk base))
    (hr : r.map s.chunk = pr.map (Piece.chunk base))
    (hnearl : Near lo pl) (hnearr : Near lo pr) (hlo : lo ≤ n) (hn : n + len < lo + 2 ^ 31)
    (hlt : ∀ p ∈ pl, p.start < n) (hbody : ∀ p ∈ pr, p.len ≤ p.body.length)
    (hwrap : ∀ p ∈ pr, p.start < n + len → n + len < p.finish →
      (seqAt base p.start).toNat ≤ (seqAt base n).toNat + len ∧
        (seqAt base n).toNat + len ≤ (seqAt base p.start).toNat + p.len) :
    ∃ t r', makeRoom s (r.head?.getD 0) (seqAt base n) len = some (t, r'.head?.getD 0) ∧
      s.OnlyQueue t ∧ t.env = s.env ∧ t.Queue (l ++ r') ∧
      l.map t.chunk = (if pr = [] then pl else cutLast pl n).map (Piece.chunk base) ∧
      r'.map t.chunk = (cutHead (uncovered pr (n + len)) (n + len)).map (Piece.chunk base) := by
  have hnat : u64 ((seqAt base n).toNat + len) = (seqAt base n).toNat + len := by
    have hseq := (seqAt base n).isLt
    exact u64_of_lt (by omega)
  have hend : BitVec.ofNat 32 (u64 ((seqAt base n).toNat + len)) = seqAt base (n + len) :=
    ofNat_seqAt_add base n len
  have hshrink : ∃ t, shrinkPrev s (r.head?.getD 0) (seqAt base n) = t ∧ s.OnlyQueue t ∧
      t.env = s.env ∧ t.Queue (l ++ r) ∧
      l.map t.chunk = (if pr = [] then pl else cutLast pl n).map (Piece.chunk base) ∧
      r.map t.chunk = r.map s.chunk := by
    cases r with
    | nil =>
      obtain rfl : pr = [] := by simpa using hr.symm
      exact ⟨s, if_pos rfl, OnlyQueue.refl s, rfl, h, hl, rfl⟩
    | cons x r =>
      have hne : pr ≠ [] := by
        rintro rfl
        simp at hr
      rw [if_neg hne]
      exact shrinkPrev_holds h hl hnearl hlo (by omega) hlt
  obtain ⟨t1, hrun1, honly1, henv1, hqueue1, hl1, hr1⟩ := hshrink
  have hlength := hqueue1.length_lt
  rw [List.length_append] at hlength
  obtain ⟨t2, r', hrun2, honly2, henv2, hqueue2, hchunk2, hr2⟩ :=
    removeCovered_holds hqueue1 (hr1.trans hr) hnearr (Nat.le_add_right_of_le hlo) hn hend
      (Nat.lt_of_le_of_lt (Nat.le_add_left _ _) hlength)
  have hr2' : r'.map t2.chunk = (uncovered pr (n + len)).map (Piece.chunk base) := by
    rw [hchunk2, hr2]
  obtain ⟨t3, hrun3, honly3, henv3, hqueue3, hl3, hr3⟩ :=
    trimFront_holds hqueue2 hr2' (fun p hp => hnearr p (mem_uncovered hp))
      (Nat.le_add_right_of_le hlo) hn hend (u64_lt _) (fun p hp => hbody p (mem_uncovered hp))
      (fun p hp => lt_finish_of_head_uncovered hp) fun p hp hcut => by
        rw [hnat]
        exact hwrap p (mem_uncovered (List.mem_of_mem_head? hp)) hcut
          (lt_finish_of_head_uncovered hp)
  refine ⟨t3, r', ?_, (honly1.trans honly2).trans honly3, ?_, hqueue3, ?_, hr3⟩
  · unfold makeRoom
    dsimp only
    rw [hrun1, hrun2]
    dsimp only [Option.bind_eq_bind, Option.bind_some]
    rw [hrun3]
    rfl
  · rw [henv3, henv2, henv1]
  · rw [hl3, hchunk2, hl1]

theorem exists_of_map_eq (hmap : xs.map s.chunk = ps.map (Piece.chunk base)) (hx : x ∈ xs) :
    ∃ p ∈ ps, s.chunk x = p.chunk base := by
  have hmem := List.mem_map_of_mem (f := s.chunk) hx
  rw [hmap, List.mem_map] at hmem
  obtain ⟨p, hp, heq⟩ := hmem
  exact ⟨p, hp, heq.symm⟩

theorem makeRoom_of_holds (new : Piece) (h : s.Holds base ps) (hnear : Near lo ps)
    (hlo : lo ≤ new.start) (hn : new.finish < lo + 2 ^ 31)
    (hbodies : ∀ p ∈ ps, p.len ≤ p.body.length)
    (hwrap : ¬ s.TrimsAcrossWrap (seqAt base new.start) new.len) :
    ∃ cur t l r, findInsertionPoint s.nodes (seqAt base new.start)
      (2 ^ 64) s.segmentList = some cur ∧
      ¬ duplicatesPrev s cur (seqAt base new.start) new.len ∧
      makeRoom s cur (seqAt base new.start) new.len = some (t, r.head?.getD 0) ∧ s.OnlyQueue t ∧
      t.env = s.env ∧ t.Queue (l ++ r) ∧ l.map t.chunk = (piecesBelow ps new).map
        (Piece.chunk base) ∧
      r.map t.chunk = (piecesBehind ps new).map (Piece.chunk base) := by
  obtain ⟨xs, hqueue, hmap⟩ := h
  have hle : new.start ≤ new.finish := Nat.le_add_right _ _
  have hwrap' : ∀ p ∈ ps, p.start < new.start + new.len → new.start + new.len < p.finish →
      (seqAt base p.start).toNat ≤ (seqAt base new.start).toNat + new.len ∧
        (seqAt base new.start).toNat + new.len ≤ (seqAt base p.start).toNat + p.len := by
    intro p hp hstart hfinish
    have hpnear := hnear p hp
    have hmem := List.mem_map_of_mem (f := Piece.chunk base) hp
    rw [← hmap, List.mem_map] at hmem
    obtain ⟨x, hx, hchunk⟩ := hmem
    by_contra hnot
    apply hwrap
    refine ⟨xs, x, hqueue, hx, ?_, ?_, ?_⟩
    · rw [← ofNat_u64, ofNat_seqAt_add, seq_of_chunk hchunk]
      exact (seqGt_seqAt (by omega) (by omega)).mpr hstart
    · rw [← ofNat_u64, ofNat_seqAt_add, finish_of_chunk hchunk]
      exact (seqLt_seqAt (by omega) (by omega)).mpr hfinish
    · rw [seq_of_chunk hchunk, len_of_chunk hchunk]
      exact hnot
  have hsplit :=
    List.takeWhile_append_dropWhile (p := fun p : Piece => p.start < new.start) (l := ps)
  have hbelow : ∀ p ∈ ps.takeWhile (fun p => p.start < new.start), p.start < new.start :=
    fun p hp => start_lt_of_mem_takeWhile hp
  have hrest : ∀ p ∈ (ps.dropWhile fun p => p.start < new.start).head?, new.start ≤ p.start :=
    fun p hp => dropWhile_start_of_mem hp
  unfold piecesBelow piecesBehind
  dsimp only
  generalize ps.takeWhile (fun p => p.start < new.start) = pl at *
  generalize ps.dropWhile (fun p => p.start < new.start) = pr at *
  subst hsplit
  rw [List.map_append] at hmap
  obtain ⟨l, r, rfl, hl, hr⟩ := List.map_eq_append_iff.mp hmap
  have hnearl : Near lo pl := fun p hp => hnear p (List.mem_append_left pr hp)
  have hnearr : Near lo pr := fun p hp => hnear p (List.mem_append_right pl hp)
  have hltl : ∀ x ∈ l, seqLt (s.nodes x).seq (seqAt base new.start) := by
    intro x hx
    obtain ⟨p, hp, hchunk⟩ := exists_of_map_eq hl hx
    have hpnear := hnearl p hp
    have hstart := hbelow p hp
    rw [seq_of_chunk hchunk]
    exact (seqLt_seqAt (by omega) (by omega)).mpr hstart
  have hltr : ∀ x ∈ r.head?, ¬ seqLt (s.nodes x).seq (seqAt base new.start) := by
    intro x hx
    cases r with
    | nil => cases hx
    | cons y r =>
      cases pr with
      | nil => simp at hr
      | cons p pr =>
        obtain rfl := Option.some.inj hx
        rw [List.map_cons, List.map_cons, List.cons.injEq] at hr
        have hpnear := hnearr p List.mem_cons_self
        have hstart := hrest p rfl
        rw [seq_of_chunk hr.1, seqLt_seqAt (by unfold Piece.finish at *; omega) (by omega)]
        omega
  obtain ⟨q, hchain⟩ := hqueue.chain
  have hlength := hqueue.length_lt
  rw [List.length_append] at hlength
  have hfind :=
    findInsertionPoint_eq hchain hltl hltr (Nat.lt_of_le_of_lt (Nat.le_add_right _ _) hlength)
  have hdup : ¬ duplicatesPrev s (r.head?.getD 0) (seqAt base new.start) new.len := by
    rintro ⟨hcur, hprev, heq, -⟩
    cases r with
    | nil => exact hcur rfl
    | cons x r =>
      rw [List.head?_cons, Option.getD_some] at hprev heq
      have hlast : (s.nodes x).prev = _ := hqueue.prev_eq
      rw [hlast] at hprev heq
      cases l using List.reverseRecOn with
      | nil => exact hprev rfl
      | append_singleton l y =>
        rw [List.getLast?_concat, Option.getD_some] at heq
        have hself := hltl y (by simp)
        rw [← heq] at hself
        unfold seqLt at hself
        simp at hself
  obtain ⟨t, r', hroom, honly, henv, hqueue', hl', hr'⟩ :=
    makeRoom_holds hqueue hl hr hnearl hnearr hlo hn hbelow
      (fun p hp => hbodies p (List.mem_append_right pl hp))
      (fun p hp => hwrap' p (List.mem_append_right pl hp))
  exact ⟨_, t, l, r', hfind, hdup, hroom, honly, henv, hqueue', hl', hr'⟩

theorem linkNode_holds {node : OrderedNode} (new : Piece) (h : t.Queue (l ++ r))
    (hl : l.map t.chunk = pl.map (Piece.chunk base))
    (hr : r.map t.chunk = pr.map (Piece.chunk base))
    (hnew : n ∉ l ++ r) (hne : n ≠ 0) (hlt : n < 2 ^ 64) (hnode : node.chunk = new.chunk base) :
    ∃ u, linkNode t n (r.head?.getD 0) node = some u ∧ t.OnlyQueue u ∧
      u.Holds base (pl ++ new :: pr) ∧ u.env = t.env := by
  obtain ⟨u, hlink, honly, hqueue, hchunk, henv⟩ := h.linkNode hnew hne hlt node
  refine ⟨u, hlink, honly, ⟨_, hqueue, ?_⟩, henv⟩
  have hnewl : n ∉ l := fun hmem => hnew (List.mem_append_left r hmem)
  have hnewr : n ∉ r := fun hmem => hnew (List.mem_append_right l hmem)
  have hmapl : l.map u.chunk = l.map t.chunk := by
    rw [hchunk]
    exact List.map_congr_left fun x hx => Function.update_of_ne (ne_of_mem_of_not_mem hx hnewl) _ _
  have hmapr : r.map u.chunk = r.map t.chunk := by
    rw [hchunk]
    exact List.map_congr_left fun x hx => Function.update_of_ne (ne_of_mem_of_not_mem hx hnewr) _ _
  have hself : u.chunk n = new.chunk base := by
    rw [hchunk, Function.update_self, hnode]
  rw [List.map_append, List.map_cons, hmapl, hmapr, hself, hl, hr, List.map_append, List.map_cons]

structure FreshMemory (s : TcpConn) (segment : TcpSegment) : Prop where
  bound : s.env.memory 0 < 2 ^ 64
  fresh : ∀ cur t v, findInsertionPoint s.nodes segment.seq (2 ^ 64) s.segmentList = some cur →
    makeRoom s cur segment.seq segment.payloadLen = some (t, v) →
    ∀ xs, t.Queue xs → s.env.memory 0 ∉ xs

def insertedPieces (memory : ℕ → ℕ) (ps : List Piece) (new : Piece) : List Piece :=
  if memory 0 ≠ 0 ∧ memory 1 ≠ 0 then insertPiece ps new else
    piecesBelow ps new ++ piecesBehind ps new

def insertAllocations (memory : ℕ → ℕ) : ℕ := if memory 0 = 0 then 1 else 2

theorem tcpOrdListInsert_pieces {segment : TcpSegment} (new : Piece) (h : s.Holds base ps)
    (hnear : Near lo ps) (hlo : lo ≤ new.start) (hn : new.finish < lo + 2 ^ 31)
    (hseq : segment.seq = seqAt base new.start) (hlen : segment.payloadLen = new.len)
    (hoff : segment.off = new.off) (hbody : segment.body = new.body)
    (hbodies : ∀ p ∈ ps, p.len ≤ p.body.length) (hfresh : s.FreshMemory segment)
    (hwrap : ¬ s.TrimsAcrossWrap segment.seq segment.payloadLen) :
    ∃ t, tcpOrdListInsert s segment segment.payloadLen = some t ∧ s.OnlyQueue t ∧
      t.Holds base (insertedPieces s.env.memory ps new) ∧
      ∀ n, t.env.memory n = s.env.memory (n + insertAllocations s.env.memory) := by
  rw [hseq, hlen] at hwrap
  obtain ⟨cur, t, l, r, hfind, hdup, hroom, honly, henv, hqueue, hl, hr⟩ :=
    makeRoom_of_holds new h hnear hlo hn hbodies hwrap
  rw [← hseq] at hfind
  rw [← hseq, ← hlen] at hdup hroom
  have hnew := hfresh.fresh _ t _ hfind hroom (l ++ r) hqueue
  have hrun : tcpOrdListInsert s segment segment.payloadLen =
      (if t.env.memory 0 = 0 then some t.kmalloc.2
      else if t.env.memory 1 = 0 then some t.kmalloc.2.kmalloc.2
      else linkNode t.kmalloc.2.kmalloc.2 (t.env.memory 0) (r.head?.getD 0)
        ⟨segment.seq, segment.off, segment.body, segment.payloadLen, 0, 0⟩) := by
    unfold tcpOrdListInsert
    rw [hfind]
    dsimp only [Option.bind_eq_bind, Option.bind_some]
    rw [if_neg hdup, hroom]
    rfl
  have hcleared : (l ++ r).map t.chunk =
      (piecesBelow ps new ++ piecesBehind ps new).map (Piece.chunk base) := by
    rw [List.map_append, List.map_append, hl, hr]
  unfold insertedPieces insertAllocations
  rw [hrun, ← henv]
  rw [← henv] at hnew
  by_cases hfirst : t.env.memory 0 = 0
  · rw [if_pos hfirst, if_neg fun hand => hand.1 hfirst, if_pos hfirst]
    exact ⟨_, rfl, honly.trans (u := t.kmalloc.2) rfl,
      ⟨l ++ r, ⟨hqueue.chain, hqueue.nodup, hqueue.bound⟩, hcleared⟩, fun n => rfl⟩
  · by_cases hsecond : t.env.memory 1 = 0
    · rw [if_neg hfirst, if_pos hsecond, if_neg fun hand => hand.2 hsecond, if_neg hfirst]
      exact ⟨_, rfl, honly.trans (u := t.kmalloc.2.kmalloc.2) rfl,
        ⟨l ++ r, ⟨hqueue.chain, hqueue.nodup, hqueue.bound⟩, hcleared⟩, fun n => rfl⟩
    · rw [if_neg hfirst, if_neg hsecond, if_pos ⟨hfirst, hsecond⟩, if_neg hfirst, insertPiece_eq]
      have hu : t.kmalloc.2.kmalloc.2.Queue (l ++ r) := ⟨hqueue.chain, hqueue.nodup, hqueue.bound⟩
      have hnode : (⟨segment.seq, segment.off, segment.body, segment.payloadLen, 0, 0⟩ :
          OrderedNode).chunk = new.chunk base := by
        unfold OrderedNode.chunk Piece.chunk
        rw [hseq, hoff, hbody, hlen]
      obtain ⟨v, hlink, honlyv, hholds, henvv⟩ :=
        linkNode_holds new hu hl hr hnew hfirst (henv ▸ hfresh.bound) hnode
      refine ⟨v, hlink, (honly.trans (u := t.kmalloc.2.kmalloc.2) rfl).trans honlyv,
        hholds, fun n => ?_⟩
      rw [henvv]
      rfl

theorem tcpOrdListInsert_holds {segment : TcpSegment} (new : Piece) (h : s.Holds base ps)
    (hnear : Near lo ps) (hlo : lo ≤ new.start) (hn : new.finish < lo + 2 ^ 31)
    (hseq : segment.seq = seqAt base new.start) (hlen : segment.payloadLen = new.len)
    (hoff : segment.off = new.off) (hbody : segment.body = new.body)
    (hbodies : ∀ p ∈ ps, p.len ≤ p.body.length) (halloc : s.Allocates segment)
    (hwrap : ¬ s.TrimsAcrossWrap segment.seq segment.payloadLen) :
    ∃ t, tcpOrdListInsert s segment segment.payloadLen = some t ∧ s.OnlyQueue t ∧
      t.Holds base (insertPiece ps new) ∧ (∀ n, t.env.memory n ≠ 0) := by
  obtain ⟨t, hrun, honly, hholds, hmem⟩ := tcpOrdListInsert_pieces new h hnear hlo hn hseq hlen hoff
    hbody hbodies ⟨halloc.bound, halloc.fresh⟩ hwrap
  refine ⟨t, hrun, honly, ?_, fun n => hmem n ▸ halloc.pos _⟩
  unfold insertedPieces at hholds
  rw [if_pos ⟨halloc.pos 0, halloc.pos 1⟩] at hholds
  exact hholds

/-! ## Delivery -/

def OnlyReceive (s t : TcpConn) : Prop :=
  t = { s with
    nodes := t.nodes
    segmentList := t.segmentList
    env := t.env
    rcvNxt := t.rcvNxt
    recvBuffer := t.recvBuffer }

theorem OnlyReceive.refl (s : TcpConn) : s.OnlyReceive s := rfl

theorem OnlyReceive.trans {u : TcpConn} (h : s.OnlyReceive t) (h' : t.OnlyReceive u) :
    s.OnlyReceive u := by
  unfold OnlyReceive at *
  rw [h', h]

theorem OnlyQueue.onlyReceive (h : s.OnlyQueue t) : s.OnlyReceive t := by
  unfold OnlyReceive OnlyQueue at *
  rw [h]

theorem nodePayload_of_chunk (h : s.chunk x = p.chunk base) (hlen : p.len ≤ p.body.length) :
    let start := (nodePayload (s.nodes x)).1
    let payloadLen := (nodePayload (s.nodes x)).2
    payloadLen = p.payload.length ∧ start + payloadLen ≤ (s.nodes x).body.length ∧
      (((s.nodes x).body.drop start).take payloadLen) = p.payload := by
  unfold nodePayload Piece.payload Piece.skip
  dsimp only
  rw [off_of_chunk h, len_of_chunk h, body_of_chunk h, List.length_drop, List.length_take,
    Nat.min_eq_left hlen]
  split
  · split
    · refine ⟨rfl, by omega, ?_⟩
      rw [List.drop_take]
    · refine ⟨by omega, by omega, ?_⟩
      rw [List.take_zero, List.drop_eq_nil_of_le]
      rw [List.length_take]
      omega
  · rw [show p.off - 5 = 0 by omega]
    exact ⟨by omega, by omega, rfl⟩

theorem Queue.same (h : s.Queue xs) (hnodes : t.nodes = s.nodes)
    (hlist : t.segmentList = s.segmentList) : t.Queue xs := by
  have hprev : t.prev = s.prev := by
    funext a
    exact congrArg (fun nodes : ℕ → OrderedNode => (nodes a).prev) hnodes
  have hnext : t.next = s.next := by
    funext a
    exact congrArg (fun nodes : ℕ → OrderedNode => (nodes a).next) hnodes
  refine ⟨?_, h.nodup, h.bound⟩
  rw [hprev, hnext, hlist]
  exact h.chain

theorem Holds.same (h : s.Holds base ps) (hnodes : t.nodes = s.nodes)
    (hlist : t.segmentList = s.segmentList) : t.Holds base ps := by
  obtain ⟨xs, hqueue, hmap⟩ := h
  have hchunk : t.chunk = s.chunk := by
    funext a
    exact congrArg (fun nodes : ℕ → OrderedNode => (nodes a).chunk) hnodes
  refine ⟨xs, hqueue.same hnodes hlist, ?_⟩
  rw [hchunk]
  exact hmap

theorem Holds.segmentList_nil (h : s.Holds base []) : s.segmentList = 0 := by
  obtain ⟨xs, hqueue, hmap⟩ := h
  obtain rfl : xs = [] := by simpa using hmap
  exact hqueue.head_eq

theorem Holds.head (h : s.Holds base (p :: ps)) :
    s.segmentList ≠ 0 ∧ s.chunk s.segmentList = p.chunk base := by
  obtain ⟨xs, hqueue, hmap⟩ := h
  cases xs with
  | nil => simp at hmap
  | cons x xs =>
    rw [List.map_cons, List.map_cons, List.cons.injEq] at hmap
    obtain ⟨q, hchain⟩ := hqueue.chain
    obtain rfl : s.segmentList = x := hqueue.head_eq
    exact ⟨hchain.ne_null List.mem_cons_self, hmap.1⟩

theorem Holds.unlink (h : s.Holds base (p :: ps)) : (unlinkNode s s.segmentList).Holds base ps := by
  obtain ⟨xs, hqueue, hmap⟩ := h
  cases xs with
  | nil => simp at hmap
  | cons x xs =>
    rw [List.map_cons, List.map_cons, List.cons.injEq] at hmap
    obtain rfl : s.segmentList = x := hqueue.head_eq
    refine ⟨xs, hqueue.unlinkNode (l := []), ?_⟩
    rw [unlinkNode_chunk]
    exact hmap.2

/-- The first node goes through the tests of `tcp_process_queue` as its piece does. -/
theorem Holds.head_tests {w next : ℕ} (h : s.Holds base (p :: ps))
    (hnext : s.rcvNxt = seqAt base next)
    (hahead : next ≤ p.start + w) (hw : w < 2 ^ 31) (hnear : p.finish < next + 2 ^ 31)
    (hbody : p.len ≤ p.body.length) (hbuffer : s.recvBuffer.length ≤ 196608) :
    (s.segmentList = 0 ∨ s.rcvNxt ≠ (s.nodes s.segmentList).seq ↔ p.start ≠ next) ∧
      (0 < (nodePayload (s.nodes s.segmentList)).2 ∧
        196608 < u64 (s.recvBuffer.length + (nodePayload (s.nodes s.segmentList)).2) ↔
        0 < p.payload.length ∧ 196608 < s.recvBuffer.length + p.payload.length) := by
  obtain ⟨hne, hchunk⟩ := h.head
  obtain ⟨hcount, -, -⟩ := nodePayload_of_chunk hchunk hbody
  have hfinish : p.finish = p.start + p.len := rfl
  have hlenle := p.payload_length_le
  constructor
  · rw [hnext, seq_of_chunk hchunk, ne_eq, seqAt_inj (by omega) (by omega)]
    constructor
    · exact fun hor heq => hor.resolve_left hne heq.symm
    · exact fun hstart => Or.inr (Ne.symm hstart)
  · rw [hcount, u64_of_lt (by omega)]

theorem tcpProcessQueue_holds {w next : ℕ} (h : s.Holds base ps)
    (hnext : s.rcvNxt = seqAt base next)
    (hapart : Apart w ps) (hahead : Ahead w next ps) (hw : w < 2 ^ 31)
    (hnear : ∀ p ∈ ps, p.finish < next + 2 ^ 31) (hbody : ∀ p ∈ ps, p.len ≤ p.body.length)
    (hbuffer : s.recvBuffer.length ≤ 196608) (hmem : ∀ n, s.env.memory n ≠ 0)
    (hfuel : ps.length < fuel) :
    ∃ t, tcpProcessQueue fuel s = some t ∧ s.OnlyReceive t ∧
      t.Holds base (drainPieces ps next s.recvBuffer).1 ∧
      t.rcvNxt = seqAt base (drainPieces ps next s.recvBuffer).2.1 ∧
      t.recvBuffer = (drainPieces ps next s.recvBuffer).2.2 := by
  induction ps generalizing s next fuel with
  | nil =>
    cases fuel with
    | zero => exact absurd hfuel (Nat.not_lt_zero _)
    | succ fuel =>
      refine ⟨s, ?_, OnlyReceive.refl s, h, hnext, rfl⟩
      rw [tcpProcessQueue]
      exact if_pos (Or.inl h.segmentList_nil)
  | cons p ps ih =>
    cases fuel with
    | zero => exact absurd hfuel (Nat.not_lt_zero _)
    | succ fuel =>
      have hplen := hbody p List.mem_cons_self
      have hpahead := hahead p List.mem_cons_self
      obtain ⟨hcount, hroom, hbytes⟩ := nodePayload_of_chunk h.head.2 hplen
      obtain ⟨hstop, hfull⟩ :=
        h.head_tests hnext hpahead hw (hnear p List.mem_cons_self) hplen hbuffer
      rw [tcpProcessQueue, drainPieces]
      dsimp only
      by_cases hstart : p.start ≠ next
      · rw [if_pos (hstop.mpr hstart), if_pos (Or.inl hstart)]
        exact ⟨s, rfl, OnlyReceive.refl s, h, hnext, rfl⟩
      · rw [if_neg fun hor => hstart (hstop.mp hor)]
        by_cases hlimit : 0 < p.payload.length ∧ 196608 < s.recvBuffer.length + p.payload.length
        · rw [if_pos (hfull.mpr hlimit), if_pos (Or.inr hlimit)]
          exact ⟨s, rfl, OnlyReceive.refl s, h, hnext, rfl⟩
        · rw [if_neg fun hand => hlimit (hfull.mp hand), if_neg (not_or.mpr ⟨hstart, hlimit⟩)]
          rw [not_not] at hstart
          obtain ⟨hbehind, hrest⟩ := List.pairwise_cons.mp hapart
          have hlenle := p.payload_length_le
          have hpfinish : p.finish = p.start + p.len := rfl
          -- the state before the node is taken out, with the bytes delivered
          have hstep : ∀ u : TcpConn, u.nodes = s.nodes → u.segmentList = s.segmentList →
              u.rcvNxt = seqAt base (next + p.payload.length) →
              u.recvBuffer = s.recvBuffer ++ p.payload → s.OnlyReceive u →
              (∀ n, u.env.memory n ≠ 0) →
              ∃ t, tcpProcessQueue fuel (unlinkNode u s.segmentList) = some t ∧ s.OnlyReceive t ∧
                t.Holds base
                  (drainPieces ps (next + p.payload.length) (s.recvBuffer ++ p.payload)).1 ∧
                t.rcvNxt = seqAt base
                  (drainPieces ps (next + p.payload.length) (s.recvBuffer ++ p.payload)).2.1 ∧
                t.recvBuffer =
                  (drainPieces ps (next + p.payload.length) (s.recvBuffer ++ p.payload)).2.2 := by
            intro u hunodes hulist hunext hubuffer honly hmemu
            have hframe := unlinkNode_onlyQueue u s.segmentList
            have hunlink : (unlinkNode u s.segmentList).Holds base ps :=
              hulist ▸ (h.same hunodes hulist).unlink
            have hbuf : (unlinkNode u s.segmentList).recvBuffer = s.recvBuffer ++ p.payload := by
              rw [hframe]
              exact hubuffer
            have hahead' : Ahead w (next + p.payload.length) ps := by
              intro q hq
              have := hbehind q hq
              omega
            have hbuffer' : (unlinkNode u s.segmentList).recvBuffer.length ≤ 196608 := by
              rw [hbuf, List.length_append]
              omega
            obtain ⟨t, hrun, honlyt, ht⟩ := ih hunlink (by rw [hframe]; exact hunext) hrest hahead'
              (fun q hq => Nat.lt_of_lt_of_le (hnear q (List.mem_cons_of_mem p hq)) (by omega))
              (fun q hq => hbody q (List.mem_cons_of_mem p hq)) hbuffer'
              (by rw [unlinkNode_env]; exact hmemu) (Nat.lt_of_succ_lt_succ hfuel)
            rw [hbuf] at ht
            exact ⟨t, hrun, (honly.trans hframe.onlyReceive).trans honlyt, ht⟩
          have hnext' : s.rcvNxt + BitVec.ofNat 32 (nodePayload (s.nodes s.segmentList)).2 =
              seqAt base (next + p.payload.length) := by
            rw [hnext, hcount, seqAt_add]
          by_cases hzero : p.payload.length = 0
          · rw [if_pos (hcount.trans hzero)]
            refine hstep _ rfl rfl hnext' ?_ rfl hmem
            rw [List.length_eq_zero_iff.mp hzero, List.append_nil]
          · rw [if_neg fun heq => hzero (hcount.symm.trans heq)]
            obtain ⟨t, hrun, ht⟩ := hstep { s with
                env := { s.env with memory := fun n => s.env.memory (n + 1) }
                rcvNxt := s.rcvNxt + BitVec.ofNat 32 (nodePayload (s.nodes s.segmentList)).2
                recvBuffer := s.recvBuffer ++ p.payload }
              rfl rfl hnext' rfl rfl fun n => hmem (n + 1)
            rw [← hbytes] at hrun
            exact ⟨t, (if_neg (hmem 0)).trans ((if_neg (not_lt.mpr hroom)).trans hrun), ht⟩

end TcpConn

end RetroRocket
