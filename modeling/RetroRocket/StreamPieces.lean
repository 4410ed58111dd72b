import Mathlib.Data.List.Infix
import Mathlib.Data.List.TakeWhile
import RetroRocket.TcpReassembly

/-!
# Pieces of a byte stream

The reassembly of a stream on positions that do not wrap: a piece covers the positions from `start`
up to `finish`. `insertPiece` lets a new piece replace what it overlaps, and `drainPieces` delivers
the pieces that are next. `Apart w` bounds by `w` how far a piece reaches over the start of a later
one, so `Apart 0` is a list of disjoint pieces in order. A piece that goes to the end of the list is
not cut against the last one, which is the hypothesis `htail` below.
-/

namespace RetroRocket

structure Piece where
  start : ℕ
  off : ℕ
  body : List Byte
  len : ℕ

namespace Piece

def finish (p : Piece) : ℕ := p.start + p.len

def skip (p : Piece) : ℕ := (p.off - 5) * 4

def payload (p : Piece) : List Byte := (p.body.take p.len).drop p.skip

def cutBack (p : Piece) (e : ℕ) : Piece :=
  if e < p.finish then { p with len := e - p.start } else p

def cutFront (p : Piece) (e : ℕ) : Piece :=
  if p.start < e then
    { p with
      start := e
      body := moveForward p.body (e - p.start) (p.finish - e)
      len := p.finish - e }
  else p

end Piece

def cutLast : List Piece → ℕ → List Piece
  | [], _ => []
  | [p], e => [p.cutBack e]
  | p :: q :: ps, e => p :: cutLast (q :: ps) e

def cutHead : List Piece → ℕ → List Piece
  | [], _ => []
  | p :: ps, e => p.cutFront e :: ps

/-- The pieces that are not covered up to `e`. -/
def uncovered (ps : List Piece) (e : ℕ) : List Piece := ps.dropWhile fun p => p.finish ≤ e

def insertPiece (ps : List Piece) (new : Piece) : List Piece :=
  let below := ps.takeWhile fun p => p.start < new.start
  let rest := ps.dropWhile fun p => p.start < new.start
  if rest = [] then ps ++ [new]
  else cutLast below new.start ++ new :: cutHead (uncovered rest new.finish) new.finish

def piecesBelow (ps : List Piece) (new : Piece) : List Piece :=
  let below := ps.takeWhile fun p => p.start < new.start
  let rest := ps.dropWhile fun p => p.start < new.start
  if rest = [] then below else cutLast below new.start

def piecesBehind (ps : List Piece) (new : Piece) : List Piece :=
  cutHead (uncovered (ps.dropWhile fun p => p.start < new.start) new.finish) new.finish

def drainPieces : List Piece → ℕ → List Byte → List Piece × ℕ × List Byte
  | [], next, buffer => ([], next, buffer)
  | p :: ps, next, buffer =>
    if p.start ≠ next ∨ 0 < p.payload.length ∧ 196608 < buffer.length + p.payload.length then
      (p :: ps, next, buffer)
    else drainPieces ps (next + p.payload.length) (buffer ++ p.payload)

variable {ps below rest : List Piece} {p q new : Piece} {e w next : ℕ} {buffer : List Byte}

theorem insertPiece_eq (ps : List Piece) (new : Piece) :
    insertPiece ps new = piecesBelow ps new ++ new :: piecesBehind ps new := by
  unfold insertPiece piecesBelow piecesBehind
  dsimp only
  split
  case isTrue hnil =>
    have hsplit :=
      List.takeWhile_append_dropWhile (p := fun p : Piece => p.start < new.start) (l := ps)
    rw [hnil, List.append_nil] at hsplit
    rw [hnil, hsplit]
    rfl
  case isFalse => rfl

namespace Piece

@[simp] theorem cutBack_start (p : Piece) (e : ℕ) : (p.cutBack e).start = p.start := by
  unfold cutBack
  split <;> rfl

theorem cutBack_finish (h : p.start < e) : (p.cutBack e).finish = min e p.finish := by
  unfold cutBack
  split
  · change p.start + (e - p.start) = _
    omega
  · omega

theorem cutFront_start (p : Piece) (e : ℕ) : (p.cutFront e).start = max p.start e := by
  unfold cutFront
  split
  · change e = _
    omega
  · omega

theorem cutFront_finish (h : e < p.finish) : (p.cutFront e).finish = p.finish := by
  unfold cutFront
  split
  · change e + (p.finish - e) = _
    omega
  · rfl

theorem payload_length_le (p : Piece) : p.payload.length ≤ p.len := by
  unfold payload
  rw [List.length_drop, List.length_take]
  omega

end Piece

/-! ## Membership -/

theorem mem_cutLast (h : p ∈ cutLast below e) : p ∈ below ∨ ∃ q ∈ below, p = q.cutBack e := by
  fun_induction cutLast below e with
  | case1 => cases h
  | case2 q =>
    rw [List.mem_singleton] at h
    exact Or.inr ⟨q, List.mem_singleton_self q, h⟩
  | case3 q r ps _ ih =>
    rcases List.mem_cons.mp h with rfl | h
    · exact Or.inl List.mem_cons_self
    · rcases ih h with h | ⟨t, ht, rfl⟩
      · exact Or.inl (List.mem_cons_of_mem q h)
      · exact Or.inr ⟨t, List.mem_cons_of_mem q ht, rfl⟩

theorem mem_cutHead (h : p ∈ cutHead rest e) : p ∈ rest ∨ ∃ q ∈ rest.head?, p = q.cutFront e := by
  cases rest with
  | nil => cases h
  | cons q ps =>
    rcases List.mem_cons.mp h with rfl | h
    · exact Or.inr ⟨q, rfl, rfl⟩
    · exact Or.inl (List.mem_cons_of_mem q h)

theorem lt_finish_of_head_uncovered (h : p ∈ (uncovered ps e).head?) : e < p.finish := by
  have hnot := List.head?_dropWhile_not (fun p : Piece => p.finish ≤ e) ps
  unfold uncovered at h
  rw [Option.mem_def.mp h] at hnot
  simpa using hnot

theorem start_lt_of_mem_takeWhile (h : p ∈ ps.takeWhile fun p => p.start < e) : p.start < e := by
  simpa using List.mem_takeWhile_imp h

theorem insertPiece_forall {P : Piece → Prop} (hps : ∀ p ∈ ps, P p) (hnew : P new)
    (hback : ∀ p, P p → p.start < new.start → P (p.cutBack new.start))
    (hfront : ∀ p, P p → new.finish < p.finish → P (p.cutFront new.finish)) :
    ∀ p ∈ insertPiece ps new, P p := by
  intro p hp
  unfold insertPiece at hp
  dsimp only at hp
  split at hp
  · rcases List.mem_append.mp hp with hp | hp
    · exact hps p hp
    · rw [List.mem_singleton.mp hp]
      exact hnew
  · rcases List.mem_append.mp hp with hp | hp
    · rcases mem_cutLast hp with hp | ⟨q, hq, rfl⟩
      · exact hps p ((List.takeWhile_sublist _).subset hp)
      · exact hback q (hps q ((List.takeWhile_sublist _).subset hq)) (start_lt_of_mem_takeWhile hq)
    · rcases List.mem_cons.mp hp with rfl | hp
      · exact hnew
      · have hsub :
            ∀ q ∈ uncovered (ps.dropWhile fun p => p.start < new.start) new.finish, q ∈ ps :=
          fun q hq => (List.dropWhile_sublist _).subset ((List.dropWhile_sublist _).subset hq)
        rcases mem_cutHead hp with hp | ⟨q, hq, rfl⟩
        · exact hps p (hsub p hp)
        · exact hfront q (hps q (hsub q (List.mem_of_mem_head? hq)))
            (lt_finish_of_head_uncovered hq)

/-! ## Order -/

/-- No piece reaches more than `w` over the start of a later one. -/
def Apart (w : ℕ) (ps : List Piece) : Prop := ps.Pairwise fun p q => p.finish ≤ q.start + w

/-- No piece starts more than `w` below the position that is next. -/
def Ahead (w next : ℕ) (ps : List Piece) : Prop := ∀ p ∈ ps, next ≤ p.start + w

theorem Apart.cutLast (h : Apart w below) : Apart w (cutLast below e) := by
  unfold Apart at *
  fun_induction RetroRocket.cutLast below e with
  | case1 => exact h
  | case2 p => exact List.pairwise_singleton _ _
  | case3 p q ps _ ih =>
    rw [List.pairwise_cons] at h ⊢
    refine ⟨fun r hr => ?_, ih h.2⟩
    rcases mem_cutLast hr with hr | ⟨t, ht, rfl⟩
    · exact h.1 r hr
    · rw [Piece.cutBack_start]
      exact h.1 t ht

theorem Apart.cutLast_finish_le (h : Apart w below) (hlt : ∀ p ∈ below, p.start < e) :
    ∀ p ∈ RetroRocket.cutLast below e, p.finish ≤ e + w := by
  unfold Apart at h
  fun_induction RetroRocket.cutLast below e with
  | case1 => simp
  | case2 p =>
    intro q hq
    rw [List.mem_singleton.mp hq, Piece.cutBack_finish (hlt p (List.mem_singleton_self p))]
    omega
  | case3 p q ps _ ih =>
    rw [List.pairwise_cons] at h
    rw [List.forall_mem_cons] at hlt
    refine List.forall_mem_cons.mpr ⟨?_, ih h.2 hlt.2⟩
    have hpq := h.1 q List.mem_cons_self
    have hq := hlt.2 q List.mem_cons_self
    omega

theorem Apart.cutHead (h : Apart w rest) (hlt : ∀ p ∈ rest.head?, e < p.finish) :
    Apart w (cutHead rest e) := by
  cases rest with
  | nil => exact h
  | cons p ps =>
    refine List.pairwise_cons.mpr ⟨fun q hq => ?_, (List.pairwise_cons.mp h).2⟩
    rw [Piece.cutFront_finish (hlt p rfl)]
    exact (List.pairwise_cons.mp h).1 q hq

theorem Apart.le_start_of_mem_cutHead (h : Apart w rest) (hlt : ∀ p ∈ rest.head?, e < p.finish) :
    ∀ p ∈ RetroRocket.cutHead rest e, e ≤ p.start + w := by
  cases rest with
  | nil => simp [RetroRocket.cutHead]
  | cons q ps =>
    refine List.forall_mem_cons.mpr ⟨?_, fun p hp => ?_⟩
    · rw [Piece.cutFront_start]
      omega
    · have hq := (List.pairwise_cons.mp h).1 p hp
      have he := hlt q rfl
      omega

/-- A stretch of pieces that lie below `e`, whatever comes behind them. -/
theorem Apart.append (hbelow : Apart w below) (hrest : Apart w rest)
    (hcross : ∀ p ∈ below, ∀ q ∈ rest, p.finish ≤ q.start + w) : Apart w (below ++ rest) :=
  List.pairwise_append.mpr ⟨hbelow, hrest, hcross⟩

theorem Apart.insertPiece (h : Apart w ps) (htail : (∀ p ∈ ps, p.start < new.start) →
    ∀ p ∈ ps.getLast?, p.finish ≤ new.start + w) : Apart w (insertPiece ps new) := by
  unfold RetroRocket.insertPiece
  dsimp only
  have hlt : ∀ p ∈ ps.takeWhile (fun p => p.start < new.start), p.start < new.start :=
    fun p hp => start_lt_of_mem_takeWhile hp
  have hsplit :=
    List.takeWhile_append_dropWhile (p := fun p : Piece => p.start < new.start) (l := ps)
  generalize ps.takeWhile (fun p => p.start < new.start) = below at *
  generalize ps.dropWhile (fun p => p.start < new.start) = rest at *
  subst hsplit
  obtain ⟨hbelow, hrest, hcross⟩ := List.pairwise_append.mp h
  split
  next hnil =>
    subst hnil
    rw [List.append_nil] at *
    refine h.append (List.pairwise_singleton _ _) fun p hp q hq => ?_
    rw [List.mem_singleton.mp hq]
    -- every piece but the last ends before the last one starts
    obtain ⟨l, last, rfl⟩ := List.eq_nil_or_concat' below |>.resolve_left (List.ne_nil_of_mem hp)
    rcases List.mem_append.mp hp with hp | hp
    · have hpl := (List.pairwise_append.mp h).2.2 p hp last (List.mem_singleton_self last)
      have hl := hlt last (by simp)
      omega
    · rw [List.mem_singleton.mp hp]
      exact htail hlt last (by simp)
  next hne =>
    have hkept := hrest.sublist (List.dropWhile_sublist fun p => decide (p.finish ≤ new.finish))
    have hlast : ∀ p ∈ (uncovered rest new.finish).head?, new.finish < p.finish :=
      fun p hp => lt_finish_of_head_uncovered hp
    refine Apart.append (Apart.cutLast hbelow) ?_ fun p hp q hq => ?_
    · exact List.pairwise_cons.mpr ⟨Apart.le_start_of_mem_cutHead hkept hlast,
        Apart.cutHead hkept hlast⟩
    · rcases List.mem_cons.mp hq with rfl | hq
      · exact Apart.cutLast_finish_le hbelow hlt p hp
      · have hfinish : ∃ p' ∈ below, p.finish ≤ p'.finish := by
          rcases mem_cutLast hp with hp | ⟨p', hp', rfl⟩
          · exact ⟨p, hp, le_refl _⟩
          · refine ⟨p', hp', ?_⟩
            rw [Piece.cutBack_finish (hlt p' hp')]
            exact Nat.min_le_right _ _
        have hstart : ∃ q' ∈ rest, q'.start ≤ q.start := by
          have hsub := List.dropWhile_sublist (l := rest) fun p => decide (p.finish ≤ new.finish)
          rcases mem_cutHead hq with hq | ⟨q', hq', rfl⟩
          · exact ⟨q, hsub.subset hq, le_refl _⟩
          · refine ⟨q', hsub.subset (List.mem_of_mem_head? hq'), ?_⟩
            rw [Piece.cutFront_start]
            exact Nat.le_max_left _ _
        obtain ⟨p', hp', hle⟩ := hfinish
        obtain ⟨q', hq', hge⟩ := hstart
        have := hcross p' hp' q' hq'
        omega

theorem Ahead.insertPiece (h : Ahead w next ps) (hnew : next ≤ new.start + w) :
    Ahead w next (insertPiece ps new) := by
  refine insertPiece_forall h hnew (fun p hp _ => ?_) fun p hp _ => ?_
  · rw [Piece.cutBack_start]
    exact hp
  · rw [Piece.cutFront_start]
    omega

theorem insertPiece_len (hps : ∀ p ∈ ps, 0 < p.len) (hnew : 0 < new.len ∨ new.start = next) :
    ∀ p ∈ insertPiece ps new, 0 < p.len ∨ p.start = next := by
  refine insertPiece_forall (fun p hp => Or.inl (hps p hp)) hnew (fun p hp hlt => ?_)
    fun p hp hlt => ?_
  · unfold Piece.cutBack
    split
    · exact Or.inl (Nat.sub_pos_of_lt hlt)
    · exact hp
  · unfold Piece.cutFront
    split
    · exact Or.inl (Nat.sub_pos_of_lt hlt)
    · exact hp

/-! ## Delivery -/

theorem drainPieces_isSuffix (ps : List Piece) (next : ℕ) (buffer : List Byte) :
    (drainPieces ps next buffer).1 <:+ ps := by
  fun_induction drainPieces ps next buffer with
  | case1 => exact List.suffix_refl []
  | case2 p ps next buffer h => exact List.suffix_refl _
  | case3 p ps next buffer h ih => exact ih.trans (List.suffix_cons p ps)

theorem drainPieces_length (ps : List Piece) (next : ℕ) (buffer : List Byte) :
    (drainPieces ps next buffer).2.1 + buffer.length =
      next + (drainPieces ps next buffer).2.2.length := by
  fun_induction drainPieces ps next buffer with
  | case1 => rfl
  | case2 p ps next buffer h => rfl
  | case3 p ps next buffer h ih =>
    rw [List.length_append] at ih
    omega

theorem le_drainPieces (ps : List Piece) (next : ℕ) (buffer : List Byte) :
    next ≤ (drainPieces ps next buffer).2.1 := by
  fun_induction drainPieces ps next buffer with
  | case1 => exact le_refl _
  | case2 p ps next buffer h => exact le_refl _
  | case3 p ps next buffer h ih => omega

theorem Ahead.drainPieces (h : Ahead w next ps) (hapart : Apart w ps) :
    Ahead w (drainPieces ps next buffer).2.1 (drainPieces ps next buffer).1 := by
  fun_induction RetroRocket.drainPieces ps next buffer with
  | case1 => exact h
  | case2 p ps next buffer hstop => exact h
  | case3 p ps next buffer hstop ih =>
    rw [not_or, not_not] at hstop
    obtain ⟨hbehind, hapart⟩ := List.pairwise_cons.mp hapart
    refine ih (fun q hq => ?_) hapart
    have hq := hbehind q hq
    have hlen := p.payload_length_le
    have hstart := hstop.1
    unfold Piece.finish at hq
    omega

/-- Pieces that end within `limit` of the start of the buffer fill it up to there only. -/
theorem drainPieces_window {limit : ℕ} (h : ∀ p ∈ ps, p.finish + buffer.length ≤ next + limit)
    (hbuffer : buffer.length ≤ limit) :
    (∀ p ∈ (drainPieces ps next buffer).1, p.finish + (drainPieces ps next buffer).2.2.length ≤
      (drainPieces ps next buffer).2.1 + limit) ∧
    (drainPieces ps next buffer).2.2.length ≤ limit := by
  fun_induction drainPieces ps next buffer with
  | case1 => exact ⟨h, hbuffer⟩
  | case2 p ps next buffer hstop => exact ⟨h, hbuffer⟩
  | case3 p ps next buffer hstop ih =>
    rw [List.forall_mem_cons] at h
    rw [not_or, not_not] at hstop
    have hp := h.1
    have hstart := hstop.1
    have hlen := p.payload_length_le
    unfold Piece.finish at hp
    apply ih
    · intro q hq
      have := h.2 q hq
      rw [List.length_append]
      omega
    · rw [List.length_append]
      omega

theorem drainPieces_head (h : ∀ p ∈ ps, p.finish + buffer.length ≤ next + 196608) :
    ∀ p ∈ (drainPieces ps next buffer).1.head?, p.start ≠ (drainPieces ps next buffer).2.1 := by
  fun_induction drainPieces ps next buffer with
  | case1 => simp
  | case2 p ps next buffer hstop =>
    rintro q hq rfl
    obtain rfl := Option.some.inj hq
    have hp := h p List.mem_cons_self
    have hlen := p.payload_length_le
    unfold Piece.finish at hp
    rcases hstop with hstart | ⟨-, hlimit⟩
    · exact hstart rfl
    · omega
  | case3 p ps next buffer hstop ih =>
    rw [List.forall_mem_cons] at h
    apply ih
    intro q hq
    have := h.2 q hq
    rw [List.length_append]
    omega

/-- An empty piece at a position that has been passed would have been delivered. -/
theorem len_pos_of_head_ne {done : ℕ} (hdone : done ≤ next) (hahead : Ahead 0 next ps)
    (hapart : Apart 0 ps) (hhead : ∀ p ∈ ps.head?, p.start ≠ next)
    (hfilled : ∀ p ∈ ps, 0 < p.len ∨ p.start = done) : ∀ p ∈ ps, 0 < p.len := by
  intro p hp
  refine (hfilled p hp).resolve_right fun hstart => ?_
  cases ps with
  | nil => cases hp
  | cons q rest =>
    have hq := hahead q List.mem_cons_self
    have hqne := hhead q rfl
    rcases List.mem_cons.mp hp with rfl | hp
    · omega
    · have hpq := (List.pairwise_cons.mp hapart).1 p hp
      unfold Piece.finish at hpq
      omega

theorem le_drainPieces_insert (hps : ∀ p ∈ ps, next ≤ p.start) (hnew : new.start = next)
    (hlimit : buffer.length + new.payload.length ≤ 196608) :
    next + new.payload.length ≤ (drainPieces (insertPiece ps new) next buffer).2.1 := by
  have hhead : ∃ rest, insertPiece ps new = new :: rest := by
    unfold insertPiece
    cases ps with
    | nil => exact ⟨[], rfl⟩
    | cons p ps =>
      have hp : ¬ p.start < new.start := by
        have := hps p List.mem_cons_self
        omega
      rw [List.takeWhile_cons_of_neg
        (by simpa using hp), List.dropWhile_cons_of_neg (by simpa using hp)]
      exact ⟨_, rfl⟩
  obtain ⟨rest, hinsert⟩ := hhead
  rw [hinsert, drainPieces, if_neg (by omega)]
  exact le_drainPieces _ _ _

/-! ## Contents -/

/-- A piece has bytes of the stream, and options only if it has none. -/
structure Piece.From (stream : List Byte) (p : Piece) : Prop where
  off : p.off = 5 ∨ p.len = 0
  len : p.len ≤ p.body.length
  body : p.body.take p.len = (stream.drop p.start).take p.len

theorem length_moveForward {body : List Byte} {overlap count : ℕ}
    (h : overlap + count ≤ body.length) :
    (moveForward body overlap count).length = body.length := by
  unfold moveForward
  rw [List.length_append, List.length_take, List.length_drop, List.length_drop]
  omega

theorem take_moveForward {body : List Byte} {overlap count : ℕ}
    (h : overlap + count ≤ body.length) :
    (moveForward body overlap count).take count = (body.take (overlap + count)).drop overlap := by
  unfold moveForward
  rw [List.take_append_of_le_length (by rw [List.length_take, List.length_drop]; omega),
    List.take_take, Nat.min_self, List.drop_take, Nat.add_sub_cancel_left]

theorem Piece.cutBack_len_le (h : p.len ≤ p.body.length) (e : ℕ) :
    (p.cutBack e).len ≤ (p.cutBack e).body.length := by
  unfold cutBack
  split
  · dsimp only
    unfold finish at *
    omega
  · exact h

theorem Piece.cutFront_len_le (h : p.len ≤ p.body.length) (he : e < p.finish) :
    (p.cutFront e).len ≤ (p.cutFront e).body.length := by
  unfold cutFront
  split
  · dsimp only
    unfold finish at *
    rw [length_moveForward (by omega)]
    omega
  · exact h

theorem Piece.From.cutBack {stream : List Byte} (h : p.From stream) (e : ℕ) :
    (p.cutBack e).From stream := by
  obtain ⟨hoff, hlen, hbody⟩ := h
  refine ⟨?_, cutBack_len_le hlen e, ?_⟩
  · unfold Piece.cutBack
    split
    · refine hoff.imp_right fun hnone => ?_
      dsimp only
      unfold finish at *
      omega
    · exact hoff
  · unfold Piece.cutBack
    split
    · dsimp only
      have hmin : min (e - p.start) p.len = e - p.start := by
        unfold finish at *
        omega
      rw [← hmin, ← List.take_take, hbody, List.take_take]
    · exact hbody

theorem Piece.From.cutFront {stream : List Byte} (h : p.From stream) (he : e < p.finish) :
    (p.cutFront e).From stream := by
  obtain ⟨hoff, hlen, hbody⟩ := h
  refine ⟨?_, cutFront_len_le hlen he, ?_⟩
  · unfold Piece.cutFront
    split
    · refine hoff.imp_right fun hnone => ?_
      dsimp only
      unfold finish at *
      omega
    · exact hoff
  · unfold Piece.cutFront
    split
    · dsimp only
      have hsum : e - p.start + (p.finish - e) = p.len := by
        unfold finish at *
        omega
      have hstart : p.start + (e - p.start) = e := by omega
      rw [take_moveForward (by omega), hsum, hbody, List.drop_take, List.drop_drop, hstart]
      congr 1
      omega
    · exact hbody

theorem Piece.From.payload {stream : List Byte} (h : p.From stream) :
    p.payload = (stream.drop p.start).take p.len ∧ p.payload.length = p.len := by
  obtain ⟨hoff, hlen, hbody⟩ := h
  have heq : p.payload = p.body.take p.len := by
    unfold Piece.payload skip
    rcases hoff with hoff | hnone
    · rw [hoff]
      rfl
    · rw [hnone, List.take_zero, List.drop_nil]
  rw [heq]
  exact ⟨hbody, List.length_take_of_le hlen⟩

theorem drainPieces_prefix {stream received : List Byte} (hps : ∀ p ∈ ps, p.From stream)
    (h : received ++ buffer = stream.take next) :
    received ++ (drainPieces ps next buffer).2.2 = stream.take
      (drainPieces ps next buffer).2.1 := by
  fun_induction drainPieces ps next buffer with
  | case1 => exact h
  | case2 p ps next buffer hstop => exact h
  | case3 p ps next buffer hstop ih =>
    rw [List.forall_mem_cons] at hps
    rw [not_or, not_not] at hstop
    obtain ⟨hpayload, hlen⟩ := hps.1.payload
    apply ih hps.2
    rw [← List.append_assoc, h, hlen, hpayload, hstop.1, List.take_add]

end RetroRocket
