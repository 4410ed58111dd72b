import RetroRocket.DoublyLinked
import RetroRocket.LinkedList
import RetroRocket.TcpReassembly

/-!
# The reassembly list as a list of chunks

`Queue s xs` says that the list of the connection runs forwards and backwards through the nodes
`xs`. What a node holds besides its links is its chunk. Taking a node out and linking one in keep a
list, and change no other chunk.
-/

namespace RetroRocket

structure Chunk where
  seq : BitVec 32
  off : ℕ
  body : List Byte
  len : ℕ

def OrderedNode.chunk (node : OrderedNode) : Chunk := ⟨node.seq, node.off, node.body, node.len⟩

namespace TcpConn

variable {s t u : TcpConn} {xs ys l r : List ℕ} {a b x y p q cur new : ℕ}

def prev (s : TcpConn) (a : ℕ) : ℕ := (s.nodes a).prev

def next (s : TcpConn) (a : ℕ) : ℕ := (s.nodes a).next

def chunk (s : TcpConn) (a : ℕ) : Chunk := (s.nodes a).chunk

structure Queue (s : TcpConn) (xs : List ℕ) : Prop where
  chain : ∃ q, Chain 0 s.prev s.next 0 s.segmentList xs q 0
  nodup : xs.Nodup
  bound : ∀ x ∈ xs, x < 2 ^ 64

def OnlyQueue (s t : TcpConn) : Prop :=
  t = { s with nodes := t.nodes, segmentList := t.segmentList, env := t.env }

theorem OnlyQueue.refl (s : TcpConn) : s.OnlyQueue s := rfl

theorem OnlyQueue.trans (h : s.OnlyQueue t) (h' : t.OnlyQueue u) : s.OnlyQueue u := by
  unfold OnlyQueue at *
  rw [h', h]

/-! ## Writing nodes -/

theorem setNode_prev (s : TcpConn) (a : ℕ) (node : OrderedNode) :
    (s.setNode a node).prev = Function.update s.prev a node.prev := by
  funext b
  change (Function.update s.nodes a node b).prev = _
  by_cases hb : b = a
  · rw [hb, Function.update_self, Function.update_self]
  · rw [Function.update_of_ne hb, Function.update_of_ne hb]
    rfl

theorem setNode_next (s : TcpConn) (a : ℕ) (node : OrderedNode) :
    (s.setNode a node).next = Function.update s.next a node.next := by
  funext b
  change (Function.update s.nodes a node b).next = _
  by_cases hb : b = a
  · rw [hb, Function.update_self, Function.update_self]
  · rw [Function.update_of_ne hb, Function.update_of_ne hb]
    rfl

theorem setNode_chunk (s : TcpConn) (a : ℕ) (node : OrderedNode) :
    (s.setNode a node).chunk = Function.update s.chunk a node.chunk := by
  funext b
  change (Function.update s.nodes a node b).chunk = _
  by_cases hb : b = a
  · rw [hb, Function.update_self, Function.update_self]
  · rw [Function.update_of_ne hb, Function.update_of_ne hb]
    rfl

@[simp] theorem setPrev_prev (s : TcpConn) (a b : ℕ) :
    (s.setPrev a b).prev = Function.update s.prev a b := setNode_prev s a _

@[simp] theorem setPrev_next (s : TcpConn) (a b : ℕ) : (s.setPrev a b).next = s.next :=
  (setNode_next s a _).trans (Function.update_eq_self a s.next)

@[simp] theorem setPrev_chunk (s : TcpConn) (a b : ℕ) : (s.setPrev a b).chunk = s.chunk :=
  (setNode_chunk s a _).trans (Function.update_eq_self a s.chunk)

@[simp] theorem setPrev_segmentList (s : TcpConn) (a b : ℕ) :
    (s.setPrev a b).segmentList = s.segmentList := rfl

@[simp] theorem setNext_prev (s : TcpConn) (a b : ℕ) : (s.setNext a b).prev = s.prev :=
  (setNode_prev s a _).trans (Function.update_eq_self a s.prev)

@[simp] theorem setNext_next (s : TcpConn) (a b : ℕ) :
    (s.setNext a b).next = Function.update s.next a b := setNode_next s a _

@[simp] theorem setNext_chunk (s : TcpConn) (a b : ℕ) : (s.setNext a b).chunk = s.chunk :=
  (setNode_chunk s a _).trans (Function.update_eq_self a s.chunk)

@[simp] theorem setNext_segmentList (s : TcpConn) (a b : ℕ) :
    (s.setNext a b).segmentList = s.segmentList := rfl

theorem onlyQueue_setNode (s : TcpConn) (a : ℕ) (node : OrderedNode) :
    s.OnlyQueue (s.setNode a node) :=
  rfl

@[simp] theorem setNode_chunk_self (s : TcpConn) (a : ℕ) (node : OrderedNode) :
    (s.setNode a node).chunk a = node.chunk := by
  rw [setNode_chunk, Function.update_self]

theorem map_chunk_setNode (s : TcpConn) (node : OrderedNode) (ha : a ∉ l) :
    l.map (s.setNode a node).chunk = l.map s.chunk := by
  rw [setNode_chunk]
  exact List.map_congr_left fun b hb => Function.update_of_ne (ne_of_mem_of_not_mem hb ha) _ _

theorem Queue.setNode (h : s.Queue xs) {node : OrderedNode} (hprev : node.prev = s.prev a)
    (hnext : node.next = s.next a) : (s.setNode a node).Queue xs := by
  obtain ⟨⟨q, hchain⟩, hnodup, hbound⟩ := h
  refine ⟨⟨q, ?_⟩, hnodup, hbound⟩
  rw [setNode_prev, setNode_next, hprev, hnext, Function.update_eq_self, Function.update_eq_self]
  exact hchain

theorem Queue.not_mem (h : s.Queue (l ++ x :: r)) : x ∉ l ∧ x ∉ r := by
  obtain ⟨-, hr, hdisj⟩ := List.nodup_append.mp h.nodup
  exact ⟨fun hx => hdisj x hx x List.mem_cons_self rfl, (List.nodup_cons.mp hr).1⟩

theorem Queue.length_lt (h : s.Queue xs) : xs.length < 2 ^ 64 := by
  obtain ⟨q, hchain⟩ := h.chain
  exact length_lt_of_nodup h.nodup (fun hmem => hchain.ne_null hmem rfl) h.bound
    (Nat.two_pow_pos 64)

theorem Queue.prev_eq (h : s.Queue (l ++ x :: r)) : s.prev x = l.getLast?.getD 0 := by
  obtain ⟨q, hchain⟩ := h.chain
  exact hchain.prev_eq

theorem Queue.next_eq (h : s.Queue (l ++ x :: r)) : s.next x = r.head?.getD 0 := by
  obtain ⟨q, hchain⟩ := h.chain
  exact hchain.next_eq

theorem Queue.head_eq (h : s.Queue xs) : s.segmentList = xs.head?.getD 0 := by
  obtain ⟨q, hchain⟩ := h.chain
  exact hchain.head

theorem Queue.eq_nil (h : s.Queue xs) (hempty : s.segmentList = 0) : xs = [] := by
  cases xs with
  | nil => rfl
  | cons x xs =>
    obtain ⟨q, hchain⟩ := h.chain
    exact absurd (h.head_eq.symm.trans hempty) (hchain.ne_null List.mem_cons_self)

theorem Queue.eq_cons (h : s.Queue xs) (hhead : s.segmentList = a) (ha : a ≠ 0) :
    ∃ r, xs = a :: r ∧ s.next a = r.head?.getD 0 := by
  have heq := h.head_eq
  cases xs with
  | nil => exact absurd (hhead.symm.trans heq) ha
  | cons x r =>
    obtain rfl : a = x := hhead.symm.trans heq
    exact ⟨r, rfl, h.next_eq (l := [])⟩

/-! ## Taking nodes out -/

theorem unlinkNode_onlyQueue (s : TcpConn) (cur : ℕ) : s.OnlyQueue (unlinkNode s cur) := by
  unfold unlinkNode
  dsimp only
  split <;> split <;> split <;> rfl

@[simp] theorem unlinkNode_env (s : TcpConn) (cur : ℕ) : (unlinkNode s cur).env = s.env := by
  unfold unlinkNode
  dsimp only
  split <;> split <;> split <;> rfl

theorem unlinkNode_chunk (s : TcpConn) (cur : ℕ) : (unlinkNode s cur).chunk = s.chunk := by
  have hhead : ∀ (t : TcpConn) (a : ℕ), ({ t with segmentList := a } : TcpConn).chunk = t.chunk :=
    fun _ _ => rfl
  unfold unlinkNode
  dsimp only
  split <;> split <;> split <;> simp only [hhead, setPrev_chunk, setNext_chunk]

theorem unlinkNode_next (s : TcpConn) (x : ℕ) : (unlinkNode s x).next =
    if s.prev x = 0 then s.next else Function.update s.next (s.prev x) (s.next x) := by
  have hhead : ∀ (t : TcpConn) (a : ℕ), ({ t with segmentList := a } : TcpConn).next = t.next :=
    fun _ _ => rfl
  by_cases hp : (s.nodes x).prev = 0 <;> by_cases hn : (s.nodes x).next = 0 <;>
    simp only [RetroRocket.unlinkNode, prev, next, hp, hn, ne_eq, not_true_eq_false,
      not_false_eq_true, if_true, if_false] <;> split <;>
    simp [hhead]

theorem unlinkNode_prev (s : TcpConn) (x : ℕ) : (unlinkNode s x).prev =
    if s.next x = 0 then s.prev else Function.update s.prev (s.next x) (s.prev x) := by
  have hhead : ∀ (t : TcpConn) (a : ℕ), ({ t with segmentList := a } : TcpConn).prev = t.prev :=
    fun _ _ => rfl
  by_cases hp : (s.nodes x).prev = 0 <;> by_cases hn : (s.nodes x).next = 0 <;>
    simp only [RetroRocket.unlinkNode, prev, next, hp, hn, ne_eq, not_true_eq_false,
      not_false_eq_true, if_true, if_false] <;> split <;>
    simp [hhead]

theorem unlinkNode_segmentList (s : TcpConn) (x : ℕ) : (unlinkNode s x).segmentList =
    if s.segmentList = x then s.next x else s.segmentList := by
  unfold RetroRocket.unlinkNode
  dsimp only
  split <;> split <;> split <;> simp_all [next]

theorem Queue.unlinkNode (h : s.Queue (l ++ x :: r)) : (unlinkNode s x).Queue (l ++ r) := by
  obtain ⟨⟨q, hchain⟩, hnodup, hbound⟩ := h
  have hsublist : (l ++ r).Sublist (l ++ x :: r) := (List.sublist_cons_self x r).append_left l
  have hhead : (RetroRocket.unlinkNode s x).segmentList =
      if s.prev x = 0 then s.next x else s.segmentList := by
    rw [unlinkNode_segmentList]
    simp only [hchain.prev_eq_null_iff hnodup]
  refine ⟨?_, hnodup.sublist hsublist, fun y hy => hbound y (hsublist.subset hy)⟩
  rw [hhead, unlinkNode_next, unlinkNode_prev]
  exact hchain.remove hnodup

/-! ## Linking a node in -/

theorem Queue.link (h : s.Queue (l ++ r)) (hnew : new ∉ l ++ r) (hne : new ≠ 0)
    (hlt : new < 2 ^ 64) (hp : p = l.getLast?.getD 0) (hq : q = r.head?.getD 0)
    (hprev : t.prev = let prev := Function.update s.prev new p
      if q = 0 then prev else Function.update prev q new)
    (hnext : t.next = let next := Function.update s.next new q
      if p = 0 then next else Function.update next p new)
    (hhead : t.segmentList = if p = 0 then new else s.segmentList) : t.Queue (l ++ new :: r) := by
  obtain ⟨⟨e, hchain⟩, hnodup, hbound⟩ := h
  obtain ⟨m, c, hl, hr⟩ := Chain.append.mp hchain
  obtain rfl : p = m := hp.trans hl.last.symm
  obtain rfl : q = c := hq.trans hr.head.symm
  rw [List.nodup_append] at hnodup
  obtain ⟨hlnodup, hrnodup, hdisj⟩ := hnodup
  rw [List.mem_append, not_or] at hnew
  obtain ⟨hnewl, hnewr⟩ := hnew
  have hl' := hl.relink_end hlnodup new
  obtain ⟨e', hr'⟩ := hr.relink_start hrnodup new
  have hql : ∀ y ∈ l, q ≠ 0 → y ≠ q := by
    rintro y hy hq0 rfl
    cases r with
    | nil => exact hq0 hq
    | cons z r => exact hdisj y hy z List.mem_cons_self hq
  have hpr : ∀ y ∈ r, p ≠ 0 → y ≠ p := by
    rintro y hy hp0 rfl
    cases l using List.reverseRecOn with
    | nil => exact hp0 hp
    | append_singleton l z =>
      rw [List.getLast?_concat] at hp
      exact hdisj z (by simp) y hy hp.symm
  refine ⟨⟨e', Chain.append.mpr ⟨p, new, ?_, rfl, hne, ?_, ?_⟩⟩, ?_, ?_⟩
  · rw [hhead]
    refine hl'.congr (fun y hy => ?_) fun y hy => ?_
    · have hyn : y ≠ new := ne_of_mem_of_not_mem hy hnewl
      by_cases hq0 : q = 0
      · simp [hprev, hq0, hyn]
      · simp [hprev, hq0, hyn, hql y hy hq0]
    · have hyn : y ≠ new := ne_of_mem_of_not_mem hy hnewl
      by_cases hp0 : p = 0
      · simp [hnext, hp0, hyn]
      · simp [hnext, hp0, Function.update_apply, hyn]
  · have hnq : q ≠ 0 → new ≠ q := by
      rintro hq0 rfl
      cases r with
      | nil => exact hq0 hq
      | cons z r => exact hnewr (by simp [show new = z from hq])
    by_cases hq0 : q = 0
    · simp [hprev, hq0]
    · simp [hprev, hq0, hnq hq0]
  · have hnp : p ≠ 0 → new ≠ p := by
      rintro hp0 rfl
      cases l using List.reverseRecOn with
      | nil => exact hp0 hp
      | append_singleton l z =>
        rw [List.getLast?_concat] at hp
        exact hnewl (by simp [show new = z from hp])
    have hq : t.next new = q := by
      by_cases hp0 : p = 0
      · simp [hnext, hp0]
      · simp [hnext, hp0, hnp hp0]
    rw [hq]
    refine hr'.congr (fun y hy => ?_) fun y hy => ?_
    · have hyn : y ≠ new := ne_of_mem_of_not_mem hy hnewr
      by_cases hq0 : q = 0
      · simp [hprev, hq0, hyn]
      · simp [hprev, hq0, Function.update_apply, hyn]
    · have hyn : y ≠ new := ne_of_mem_of_not_mem hy hnewr
      by_cases hp0 : p = 0
      · simp [hnext, hp0, hyn]
      · simp [hnext, hp0, hyn, hpr y hy hp0]
  · refine List.nodup_append.mpr ⟨hlnodup, List.nodup_cons.mpr ⟨hnewr, hrnodup⟩, ?_⟩
    rintro y hy z hz rfl
    rcases List.mem_cons.mp hz with rfl | hz
    · exact hnewl hy
    · exact hdisj y hy y hz rfl
  · intro y hy
    rcases List.mem_append.mp hy with hy | hy
    · exact hbound y (List.mem_append_left r hy)
    · rcases List.mem_cons.mp hy with rfl | hy
      · exact hlt
      · exact hbound y (List.mem_append_right l hy)

theorem lastNode_eq (h : Chain 0 s.prev s.next p a (l ++ [x]) q 0) {fuel : ℕ}
    (hfuel : l.length < fuel) : lastNode s.nodes fuel a = some x := by
  induction l generalizing p a fuel with
  | nil =>
    obtain ⟨rfl, -, -, -, hnext⟩ := h
    cases fuel with
    | zero => exact absurd hfuel (Nat.not_lt_zero _)
    | succ fuel =>
      rw [lastNode]
      exact if_neg (not_not.mpr hnext)
  | cons y l ih =>
    obtain ⟨rfl, -, -, hrest⟩ := h
    have hnext : (s.nodes a).next ≠ 0 := by
      have hhead : s.next a = _ := hrest.head
      change s.next a ≠ 0
      rw [hhead]
      refine hrest.ne_null ?_
      cases l with
      | nil => simp
      | cons z l => simp
    cases fuel with
    | zero => exact absurd hfuel (Nat.not_lt_zero _)
    | succ fuel =>
      rw [lastNode, if_pos hnext]
      exact ih hrest (Nat.lt_of_succ_lt_succ hfuel)

theorem Queue.linkNode (h : s.Queue (l ++ r)) (hnew : new ∉ l ++ r) (hne : new ≠ 0)
    (hlt : new < 2 ^ 64) (node : OrderedNode) :
    ∃ t, linkNode s new (r.head?.getD 0) node = some t ∧ s.OnlyQueue t ∧ t.Queue (l ++ new :: r) ∧
      t.chunk = Function.update s.chunk new node.chunk ∧ t.env = s.env := by
  have hlength := h.length_lt
  obtain ⟨q, hchain⟩ := h.chain
  cases r with
  | nil =>
    cases l using List.reverseRecOn with
    | nil =>
      have hempty : s.segmentList = 0 := h.head_eq
      have heq : linkNode s new 0 node =
          some { s.setNode new { node with prev := 0, next := 0 } with segmentList := new } := by
        simp [RetroRocket.linkNode, hempty]
      refine ⟨_, heq, rfl, h.link hnew hne hlt rfl rfl ?_ ?_ rfl, ?_, rfl⟩
      · exact setNode_prev s new _
      · exact setNode_next s new _
      · exact setNode_chunk s new _
    | append_singleton l tail =>
      rw [List.append_nil] at hchain hlength
      rw [List.length_append, List.length_singleton] at hlength
      have hlast := lastNode_eq hchain (Nat.lt_of_succ_lt hlength)
      have htail : tail ≠ 0 := hchain.ne_null (by simp)
      have hhead : s.segmentList ≠ 0 := by
        rw [hchain.head]
        refine hchain.ne_null ?_
        cases l with
        | nil => simp
        | cons z l => simp
      have heq : linkNode s new 0 node =
          some ((s.setNode new { node with prev := tail, next := 0 }).setNext tail new) := by
        rw [RetroRocket.linkNode, if_neg (not_not.mpr rfl), if_pos hhead, hlast]
        rfl
      refine ⟨_, heq, rfl, h.link hnew hne hlt (p := tail) (q := 0) (by simp) rfl ?_ ?_ ?_, ?_, rfl⟩
      · rw [setNext_prev, setNode_prev]
        rfl
      · rw [setNext_next, setNode_next, if_neg htail]
      · rw [if_neg htail]
        rfl
      · rw [setNext_chunk, setNode_chunk]
        rfl
  | cons cur r =>
    have hcur : cur ≠ 0 := hchain.ne_null (by simp)
    have hprev := h.prev_eq
    by_cases hp : s.prev cur = 0
    · have heq : linkNode s new cur node = some { (s.setNode new
          { node with prev := s.prev cur, next := cur }).setPrev cur new with segmentList :=
              new } := by
        have hp' : (s.nodes cur).prev = 0 := hp
        simp [RetroRocket.linkNode, hcur, hp, hp']
      refine ⟨_, heq, rfl, h.link hnew hne hlt (q := cur) hprev rfl ?_ ?_ ?_, ?_, rfl⟩
      · change ((s.setNode new _).setPrev cur new).prev = _
        rw [setPrev_prev, setNode_prev, if_neg hcur]
      · change ((s.setNode new _).setPrev cur new).next = _
        rw [setPrev_next, setNode_next, if_pos hp]
      · rw [if_pos hp]
      · change ((s.setNode new _).setPrev cur new).chunk = _
        rw [setPrev_chunk, setNode_chunk]
        rfl
    · have heq : linkNode s new cur node = some (((s.setNode new
          { node with prev := s.prev cur, next := cur }).setPrev cur new).setNext
              (s.prev cur) new) := by
        have hp' : (s.nodes cur).prev ≠ 0 := hp
        simp [RetroRocket.linkNode, hcur, hp']
        rfl
      refine ⟨_, heq, rfl, h.link hnew hne hlt (q := cur) hprev rfl ?_ ?_ ?_, ?_, rfl⟩
      · rw [setNext_prev, setPrev_prev, setNode_prev, if_neg hcur]
      · rw [setNext_next, setPrev_next, setNode_next, if_neg hp]
      · rw [if_neg hp]
        rfl
      · rw [setNext_chunk, setPrev_chunk, setNode_chunk]
        rfl

end TcpConn

end RetroRocket
