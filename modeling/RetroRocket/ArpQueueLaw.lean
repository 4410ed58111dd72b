import RetroRocket.ArpQueue

/-!
# What becomes of a packet that waits for ARP

`Lists q xs` says that the two pointers of the queue describe the list of items `xs`. A walk of
`ip_idle` takes out exactly the items whose address resolves, in order: no item is ever at the
number of tries at which it would be dropped. So a queued packet leaves exactly if its address is in
the table at some later tick.
-/

namespace RetroRocket

namespace PacketQueue

variable {q q' : PacketQueue} {xs l r : List ℕ} {a b c x : ℕ}

def next (q : PacketQueue) (a : ℕ) : ℕ := (q.mem a).next

/-- The head leads through the items `xs`, the end is the last of them, and no other is
allocated. -/
structure Lists (q : PacketQueue) (xs : List ℕ) : Prop where
  linked : Linked 0 q.next q.packetQueue xs 0
  nodup : xs.Nodup
  live : ∀ x, x ∈ q.live ↔ x ∈ xs
  last : q.packetQueueEnd = xs.getLast?.getD 0

def SameItems (q q' : PacketQueue) : Prop :=
  ∀ a, (q'.mem a).packet = (q.mem a).packet ∧ (q'.mem a).arpTries = (q.mem a).arpTries

theorem SameItems.refl (q : PacketQueue) : q.SameItems q := fun _ => ⟨rfl, rfl⟩

/-! ## Writing items -/

theorem store_next (q : PacketQueue) (a : ℕ) (item : PacketQueueItem) :
    (q.store a item).next = Function.update q.next a item.next := by
  funext b
  change (Function.update q.mem a item b).next = _
  by_cases hb : b = a
  · rw [hb, Function.update_self, Function.update_self]
  · rw [Function.update_of_ne hb, Function.update_of_ne hb]
    rfl

theorem setNext_next (q : PacketQueue) (a n : ℕ) :
    (q.setNext a n).next = Function.update q.next a n := store_next q a _

theorem packet_store (q : PacketQueue) (a : ℕ) (item : PacketQueueItem)
    (hitem : item.packet = (q.mem a).packet) (b : ℕ) :
    ((q.store a item).mem b).packet = (q.mem b).packet := by
  change (Function.update q.mem a item b).packet = _
  by_cases hb : b = a
  · rw [hb, Function.update_self, hitem]
  · rw [Function.update_of_ne hb]

theorem sameItems_setNext (q : PacketQueue) (a n : ℕ) : q.SameItems (q.setNext a n) := by
  intro b
  change (Function.update q.mem a _ b).packet = _ ∧ (Function.update q.mem a _ b).arpTries = _
  by_cases hb : b = a
  · rw [hb, Function.update_self]
    exact ⟨rfl, rfl⟩
  · rw [Function.update_of_ne hb]
    exact ⟨rfl, rfl⟩

/-- The last test of `dequeue_packet` changes nothing. -/
theorem endAtHead (x : ℕ) (hx : q.packetQueueEnd = x) :
    (if x = q.packetQueue then { q with packetQueueEnd := q.packetQueue } else q) = q := by
  split
  · next hhead =>
    obtain ⟨mem, live, head, last⟩ := q
    dsimp only at hx hhead ⊢
    rw [hx, hhead]
  · rfl

namespace Lists

theorem live_card (h : q.Lists xs) : q.live.card = xs.length := by
  rw [← List.toFinset_card_of_nodup h.nodup]
  congr 1
  ext x
  rw [h.live, List.mem_toFinset]

theorem head_eq (h : q.Lists (c :: r)) : q.packetQueue = c := h.linked.1

theorem next_eq (h : q.Lists (l ++ c :: r)) : (q.mem c).next = r.head?.getD 0 := h.linked.next_eq

theorem ne_zero (h : q.Lists xs) (hx : x ∈ xs) : x ≠ 0 := h.linked.ne_null hx

/-- Taking out the item behind `l`, when the walk remembers the last item of `l`. -/
theorem dequeue (h : q.Lists (l ++ c :: r)) :
    ∃ q', q.dequeuePacket c (l.getLast?.getD 0) = some q' ∧ q'.Lists (l ++ r) ∧
      q.SameItems q' := by
  have hc : c ∈ q.live := (h.live c).mpr (List.mem_append_right l List.mem_cons_self)
  have hnodup : (l ++ r).Nodup := by
    have hperm : (l ++ c :: r).Perm (c :: (l ++ r)) := List.perm_middle
    exact (List.nodup_cons.mp (hperm.nodup_iff.mp h.nodup)).2
  have hcout : c ∉ l ++ r := by
    have hperm : (l ++ c :: r).Perm (c :: (l ++ r)) := List.perm_middle
    exact (List.nodup_cons.mp (hperm.nodup_iff.mp h.nodup)).1
  have hlive : ∀ x, x ∈ q.live.erase c ↔ x ∈ l ++ r := by
    intro x
    rw [Finset.mem_erase, h.live, List.mem_append, List.mem_append, List.mem_cons]
    constructor
    · rintro ⟨hx, h | h | h⟩
      · exact Or.inl h
      · exact absurd h hx
      · exact Or.inr h
    · intro hx
      refine ⟨?_, hx.imp_right Or.inr⟩
      rintro rfl
      exact hcout (List.mem_append.mpr hx)
  have hnext := h.next_eq
  unfold dequeuePacket
  rw [if_neg (not_not.mpr hc)]
  rcases List.eq_nil_or_concat l with rfl | ⟨l, x, rfl⟩
  · -- the first item
    rw [List.nil_append] at h hlive hnodup ⊢
    rw [if_pos h.head_eq.symm]
    refine ⟨_, rfl, ⟨?_, hnodup, hlive, ?_⟩, fun _ => ⟨rfl, rfl⟩⟩
    · exact h.linked.2.2
    · dsimp only [free]
      rw [hnext, h.last]
      cases r with
      | nil => rfl
      | cons y r =>
        rw [List.head?_cons, Option.getD_some, if_neg (h.ne_zero (by simp)),
          List.getLast?_cons_cons]
  · rw [List.concat_eq_append] at h hlive hnodup hcout ⊢
    have hx : x ∈ q.live := (h.live x).mpr (by simp)
    have hhead : c ≠ q.packetQueue := by
      intro heq
      refine hcout (List.mem_append_left r ?_)
      rw [heq, h.linked.head]
      cases l <;> simp
    have hlinked :
        Linked 0 (Function.update q.next x (q.next c)) q.packetQueue (l ++ [x] ++ r) 0 := by
      have hsplit : l ++ [x] ++ c :: r = l ++ x :: c :: r := by simp
      have hnd := h.nodup
      have hlink := h.linked
      rw [hsplit] at hnd hlink
      rw [List.append_assoc]
      exact hlink.remove hnd
    rw [List.getLast?_concat, Option.getD_some, if_neg hhead, if_neg (not_not.mpr hx)]
    split
    · next hend =>
      -- the last item: the one before it becomes the end
      have hr : r = [] := by
        rcases List.eq_nil_or_concat r with rfl | ⟨r, y, rfl⟩
        · rfl
        · have hlast := h.last
          rw [← hend, List.concat_eq_append, ← List.cons_append, ← List.append_assoc,
            List.getLast?_concat, Option.getD_some] at hlast
          refine absurd ?_ hcout
          simp [hlast]
      subst hr
      have hzero : q.next c = 0 := hnext
      rw [hzero] at hlinked
      dsimp only
      rw [endAtHead (q := ({ q with packetQueueEnd := x } : PacketQueue).setNext x 0) x rfl]
      have hlast : x = (l ++ [x] ++ []).getLast?.getD 0 := by simp
      refine ⟨_, rfl, ⟨?_, hnodup, hlive, hlast⟩, sameItems_setNext _ x 0⟩
      change Linked 0 (({ q with packetQueueEnd := x } : PacketQueue).setNext x 0).next
        q.packetQueue _ 0
      rw [setNext_next]
      exact hlinked
    · next hend =>
      have hlast : q.packetQueueEnd = (l ++ [x] ++ r).getLast?.getD 0 := by
        rw [h.last]
        cases r with
        | nil =>
          refine absurd ?_ hend
          rw [h.last]
          simp
        | cons y r => simp [List.getLast?_append]
      refine ⟨_, rfl, ⟨?_, hnodup, hlive, hlast⟩, sameItems_setNext q x _⟩
      change Linked 0 (q.setNext x (q.mem c).next).next q.packetQueue _ 0
      rw [setNext_next]
      exact hlinked

theorem queuePacket (h : q.Lists xs) (k : ItemAllocator) (packet : QueuedPacket) (ticks : ℤ) :
    ∃ q' stored, q.queuePacket k packet ticks = some (q', stored) ∧
      (stored = false → q'.Lists xs ∧ q.SameItems q') ∧
      (stored = true → ∃ a, a ∉ xs ∧ q'.Lists (xs ++ [a]) ∧ q'.mem a = ⟨packet, 0, ticks, 0⟩ ∧
        ∀ x ∈ xs, (q'.mem x).packet = (q.mem x).packet ∧
          (q'.mem x).arpTries = (q.mem x).arpTries) := by
  have hfresh : ∀ a, k.alloc q.live = some a → a ≠ 0 ∧ a ∉ xs := by
    intro a ha
    obtain ⟨h0, hlive⟩ := k.fresh _ a ha
    exact ⟨h0, fun hmem => hlive ((h.live a).mpr hmem)⟩
  have hlive : ∀ a x, x ∈ insert a q.live ↔ x ∈ xs ++ [a] := by
    intro a x
    rw [Finset.mem_insert, h.live, List.mem_append, List.mem_singleton, or_comm]
  have hnodup : ∀ a, a ∉ xs → (xs ++ [a]).Nodup := by
    intro a ha
    refine List.nodup_append.mpr ⟨h.nodup, List.nodup_singleton a, fun x hx y hy => ?_⟩
    rw [List.mem_singleton] at hy
    rintro rfl
    exact ha (hy ▸ hx)
  have hlast : ∀ a, a = (xs ++ [a]).getLast?.getD 0 := fun a => by simp
  unfold PacketQueue.queuePacket
  rcases List.eq_nil_or_concat xs with rfl | ⟨l, x, rfl⟩
  · have hhead : q.packetQueue = 0 := h.linked
    rw [if_pos hhead]
    split
    · exact ⟨q, false, rfl, fun _ => ⟨h, SameItems.refl q⟩, Bool.noConfusion⟩
    · next a ha =>
      obtain ⟨h0, hout⟩ := hfresh a ha
      refine ⟨_, true, rfl, Bool.noConfusion, fun _ =>
        ⟨a, hout, ?_, Function.update_self _ _ _, ?_⟩⟩
      · refine ⟨⟨rfl, h0, ?_⟩, hnodup a hout, hlive a, hlast a⟩
        change (q.store a ⟨packet, 0, ticks, 0⟩).next a = 0
        rw [store_next, Function.update_self]
      · exact fun x hx => absurd hx List.not_mem_nil
  · rw [List.concat_eq_append] at h hfresh hlive hnodup hlast ⊢
    have hend : q.packetQueueEnd = x := by
      rw [h.last, List.getLast?_concat, Option.getD_some]
    have hhead : q.packetQueue ≠ 0 := by
      rw [h.linked.head]
      cases l with
      | nil => exact h.ne_zero (by simp)
      | cons y l => exact h.ne_zero (by simp)
    have hx : x ∈ q.live := (h.live x).mpr (by simp)
    have hzero : q.next x = 0 := h.next_eq
    rw [if_neg hhead, hend, if_neg (not_not.mpr hx)]
    split
    · refine ⟨_, false, rfl, fun _ => ⟨⟨?_, h.nodup, h.live, h.last⟩, sameItems_setNext q x 0⟩,
        Bool.noConfusion⟩
      change Linked 0 (q.setNext x 0).next q.packetQueue _ 0
      have hsame : Function.update q.next x 0 = q.next := by
        rw [Function.update_eq_self_iff, hzero]
      rw [setNext_next, hsame]
      exact h.linked
    · next a ha =>
      obtain ⟨h0, hout⟩ := hfresh a ha
      have hxa : x ≠ a := fun heq => hout (by simp [heq])
      refine ⟨_, true, rfl, Bool.noConfusion, fun _ =>
        ⟨a, hout, ?_, Function.update_self _ _ _, ?_⟩⟩
      · refine ⟨?_, hnodup a hout, hlive a, hlast a⟩
        have hinsert := h.linked.insert h.nodup hout h0
        rw [hzero, Function.update_comm hxa.symm] at hinsert
        change Linked 0 ((q.setNext x a).store a ⟨packet, 0, ticks, 0⟩).next q.packetQueue _ 0
        rw [store_next, setNext_next, List.append_assoc]
        exact hinsert
      · intro y hy
        have hya : y ≠ a := fun heq => hout (heq ▸ hy)
        have hmem : ((q.setNext x a).store a ⟨packet, 0, ticks, 0⟩).mem y = (q.setNext x a).mem y :=
          Function.update_of_ne hya _ _
        change (((q.setNext x a).store a ⟨packet, 0, ticks, 0⟩).mem y).packet = _ ∧
          (((q.setNext x a).store a ⟨packet, 0, ticks, 0⟩).mem y).arpTries = _
        rw [hmem]
        exact sameItems_setNext q x a y

end Lists

end PacketQueue

namespace IpSender

variable {cfg : IpConfig} {s t : IpSender} {xs l r : List ℕ} {now : ℤ}

structure Good (s : IpSender) (xs : List ℕ) : Prop where
  lists : s.queue.Lists xs
  tries : ∀ x ∈ xs, (s.queue.mem x).arpTries ≤ 2

theorem Good.rewrite (hs : s.Good xs) {c : ℕ} {item : PacketQueueItem}
    (hnext : item.next = (s.queue.mem c).next) (htries : item.arpTries ≤ 2)
    {requests : List (BitVec 32)} :
    ({ s with queue := s.queue.store c item, requests := requests } : IpSender).Good xs := by
  refine ⟨⟨?_, hs.lists.nodup, hs.lists.live, hs.lists.last⟩, fun x hx => ?_⟩
  · change Linked 0 (s.queue.store c item).next s.queue.packetQueue xs 0
    have hsame : Function.update s.queue.next c item.next = s.queue.next :=
      Function.update_eq_self_iff.mpr hnext
    rw [PacketQueue.store_next, hsame]
    exact hs.lists.linked
  · change (Function.update s.queue.mem c item x).arpTries ≤ 2
    by_cases hxc : x = c
    · rw [hxc, Function.update_self]
      exact htries
    · rw [Function.update_of_ne hxc]
      exact hs.tries x hx

/-! ## One walk -/

def frame (s : IpSender) (cfg : IpConfig) (a : ℕ) : Option (QueuedPacket × BitVec 48) :=
  (s.arp.lookup (cfg.arpDest (s.queue.mem a).packet)).map ((s.queue.mem a).packet, ·)

/-- What a walk over the items `r` behind `l` does: it sends the packets whose address resolves and
keeps the others. -/
structure Walked (cfg : IpConfig) (l r : List ℕ) (s t : IpSender) : Prop where
  good : t.Good (l ++ r.filter fun a => (s.frame cfg a).isNone)
  packet : ∀ a, (t.queue.mem a).packet = (s.queue.mem a).packet
  frames : t.frames = s.frames ++ r.filterMap (s.frame cfg)
  arp : t.arp = s.arp
  lastId : t.lastId = s.lastId
  queued : t.queued = s.queued
  dropped : t.dropped = s.dropped

theorem frame_congr (cfg : IpConfig) (harp : t.arp = s.arp)
    (hpacket : ∀ a, (t.queue.mem a).packet = (s.queue.mem a).packet) :
    t.frame cfg = s.frame cfg := by
  funext a
  unfold frame
  rw [harp, hpacket]

theorem idleLoop_walked (cfg : IpConfig) (now : ℤ) (r : List ℕ) {l : List ℕ} {fuel : ℕ}
    {s : IpSender} (hs : s.Good (l ++ r)) (hfuel : r.length < fuel) :
    ∃ t, idleLoop cfg now fuel (r.head?.getD 0) (l.getLast?.getD 0) s = some t ∧
      Walked cfg l r s t := by
  induction r generalizing l fuel s with
  | nil =>
    obtain ⟨fuel, rfl⟩ := Nat.exists_eq_add_one.mpr hfuel
    refine ⟨s, rfl, ⟨hs, fun _ => rfl, ?_, rfl, rfl, rfl, rfl⟩⟩
    rw [List.filterMap_nil, List.append_nil]
  | cons c r ih =>
    obtain ⟨fuel, rfl⟩ := Nat.exists_eq_add_one.mpr (Nat.zero_lt_of_lt hfuel)
    have hmem : c ∈ l ++ c :: r := List.mem_append_right l List.mem_cons_self
    have hc0 := hs.lists.ne_zero hmem
    have hlive := (hs.lists.live c).mpr hmem
    have hnext := hs.lists.next_eq
    have hfuel' : r.length < fuel := Nat.lt_of_succ_lt_succ hfuel
    have hlast : ((l ++ [c]).getLast?.getD 0) = c := by
      rw [List.getLast?_concat, Option.getD_some]
    have hshift : l ++ c :: r = l ++ [c] ++ r := by rw [List.append_assoc]; rfl
    rw [List.head?_cons, Option.getD_some]
    unfold idleLoop
    rw [if_neg hc0, if_neg (not_not.mpr hlive)]
    dsimp only
    rw [hnext]
    -- an unresolved item is kept, whatever else changes in it
    have hkeep : s.frame cfg c = none → ∀ s' : IpSender, s'.Good (l ++ c :: r) → s'.arp = s.arp →
        (∀ a, (s'.queue.mem a).packet = (s.queue.mem a).packet) → s'.frames = s.frames →
        s'.lastId = s.lastId → s'.queued = s.queued → s'.dropped = s.dropped →
        ∃ t, idleLoop cfg now fuel (r.head?.getD 0) c s' = some t ∧ Walked cfg l (c :: r) s t := by
      intro hnone s' hgood harp hpacket hframes hid hqueued hdropped
      rw [hshift] at hgood
      obtain ⟨t, ht, hwalk⟩ := ih hgood hfuel'
      rw [hlast] at ht
      have hframe := frame_congr cfg harp hpacket
      have hgood' := hwalk.good
      have hsent := hwalk.frames
      rw [hframe] at hgood' hsent
      refine ⟨t, ht, ⟨?_, fun a => (hwalk.packet a).trans (hpacket a), ?_, hwalk.arp.trans harp,
        hwalk.lastId.trans hid, hwalk.queued.trans hqueued, hwalk.dropped.trans hdropped⟩⟩
      · rw [List.filter_cons, hnone, Option.isNone_none, if_pos rfl]
        rwa [List.append_assoc] at hgood'
      · rw [hsent, hframes, List.filterMap_cons, hnone]
    cases hlookup : s.arp.lookup (cfg.arpDest (s.queue.mem c).packet) with
    | some mac =>
      have hframe : s.frame cfg c = some ((s.queue.mem c).packet, mac) := by
        unfold frame
        rw [hlookup]
        rfl
      obtain ⟨q, hq, hlists, hsame⟩ := hs.lists.dequeue
      dsimp only
      rw [hq]
      change ∃ t, idleLoop cfg now fuel (r.head?.getD 0) (l.getLast?.getD 0)
        { s with queue := q, frames := s.frames ++ [((s.queue.mem c).packet, mac)] } = some t ∧ _
      have hgood : ({ s with queue := q, frames := s.frames ++ [((s.queue.mem c).packet, mac)] } :
          IpSender).Good (l ++ r) := by
        refine ⟨hlists, fun x hx => ?_⟩
        have htries := hs.tries x (by
          rw [List.mem_append] at hx ⊢
          exact hx.imp_right (List.mem_cons_of_mem c))
        rw [← (hsame x).2] at htries
        exact htries
      obtain ⟨t, ht, hwalk⟩ := ih hgood hfuel'
      have hcongr := frame_congr cfg (s := s)
        (t := { s with queue := q, frames := s.frames ++ [((s.queue.mem c).packet, mac)] })
        rfl (fun a => (hsame a).1)
      have hgood' := hwalk.good
      have hsent := hwalk.frames
      rw [hcongr] at hgood' hsent
      refine ⟨t, ht, ⟨?_, fun a => (hwalk.packet a).trans (hsame a).1, ?_, hwalk.arp, hwalk.lastId,
        hwalk.queued, hwalk.dropped⟩⟩
      · rw [List.filter_cons, hframe, Option.isNone_some, if_neg Bool.false_ne_true]
        exact hgood'
      · rw [hsent, List.filterMap_cons, hframe, List.append_assoc]
        rfl
    | none =>
      have hframe : s.frame cfg c = none := by
        unfold frame
        rw [hlookup]
        rfl
      dsimp only
      split
      · next hretry =>
        have htries : (s.queue.mem c).arpTries + 1 ≤ 2 := hretry.2.1
        refine hkeep hframe _ ?_ rfl ?_ rfl rfl rfl rfl
        · exact hs.rewrite hnext.symm htries
        · exact s.queue.packet_store c _ rfl
      · split
        · next hdrop =>
          have := hs.tries c hmem
          omega
        · exact hkeep hframe s hs rfl (fun _ => rfl) rfl rfl rfl rfl

theorem ipIdle_walked (cfg : IpConfig) (now : ℤ) (hs : s.Good xs) :
    ∃ t, s.ipIdle cfg now = some t ∧ Walked cfg [] xs s t := by
  have hloop := idleLoop_walked cfg now xs (l := []) hs (Nat.lt_succ_self _)
  rw [← hs.lists.linked.head] at hloop
  unfold ipIdle
  split
  · next hempty =>
    have hnil : xs = [] := by
      cases xs with
      | nil => rfl
      | cons x xs => exact absurd (hs.lists.head_eq.symm.trans hempty) (hs.lists.ne_zero (by simp))
    subst hnil
    refine ⟨s, rfl, ⟨hs, fun _ => rfl, ?_, rfl, rfl, rfl, rfl⟩⟩
    rw [List.filterMap_nil, List.append_nil]
  · rw [hs.lists.live_card]
    exact hloop

/-! ## Runs -/

def sentQueued (s : IpSender) : List QueuedPacket := (s.frames.map Prod.fst).filter (· ∈ s.queued)

def waiting (s : IpSender) (xs : List ℕ) : List QueuedPacket :=
  xs.map fun a => (s.queue.mem a).packet

structure Inv (cfg : IpConfig) (s : IpSender) (xs : List ℕ) : Prop where
  good : s.Good xs
  number : ∀ p ∈ s.queued, p.number < s.lastId
  nodup : (s.queued.map QueuedPacket.number).Nodup
  srcIp : ∀ p ∈ s.queued, p.srcIp = cfg.hostAddr
  frames : ∀ f ∈ s.frames, f.1.number < s.lastId
  order : ∀ d, (s.sentQueued.filter (·.dstIp = d)) ++ ((s.waiting xs).filter (·.dstIp = d)) =
    s.queued.filter (·.dstIp = d)
  dropped : s.dropped = []

theorem Inv.perm (hs : s.Inv cfg xs) : (s.sentQueued ++ s.waiting xs).Perm s.queued := by
  rw [List.perm_iff_count]
  intro p
  have hd := congrArg (List.count p) (hs.order p.dstIp)
  rw [List.count_append, List.count_filter (by simp), List.count_filter (by simp),
    List.count_filter (by simp)] at hd
  rw [List.count_append, hd]

theorem Inv.mem_queued (hs : s.Inv cfg xs) {p : QueuedPacket} :
    p ∈ s.queued ↔ p ∈ s.sentQueued ∨ p ∈ s.waiting xs := by
  rw [← hs.perm.mem_iff, List.mem_append]

inductive IpEvent
  | send (env : SendEnv) (dstIp : BitVec 32) (data : List Byte) (protocol : ℕ)
  | arp (ipAddr : BitVec 32) (macAddr : BitVec 48)
  | idle (currentTime : ℤ)

def step (cfg : IpConfig) (s : IpSender) : IpEvent → Option IpSender
  | .send env dstIp data protocol => s.ipSendPacket cfg env dstIp data protocol
  | .arp ipAddr macAddr => some { s with arp := s.arp.handlePacket ipAddr macAddr }
  | .idle currentTime => s.ipIdle cfg currentTime

structure Goes (cfg : IpConfig) (e : IpEvent) (s t : IpSender) : Prop where
  queued : ∀ p ∈ s.queued, p ∈ t.queued
  frames : ∀ f ∈ s.frames, f ∈ t.frames
  sent : ∀ f ∈ t.frames, f.1 ∈ t.queued → f.1 ∈ s.queued ∧
    (f ∈ s.frames ∨ (∃ now, e = .idle now) ∧ s.arp.lookup (cfg.arpDest f.1) = some f.2)
  leaves : ∀ now, e = .idle now → ∀ p ∈ s.queued, (s.arp.lookup (cfg.arpDest p)).isSome →
    p ∈ t.sentQueued
  arp : (∀ ipAddr macAddr, e ≠ .arp ipAddr macAddr) → t.arp = s.arp

theorem mem_sentQueued {p : QueuedPacket} :
    p ∈ s.sentQueued ↔ (∃ mac, (p, mac) ∈ s.frames) ∧ p ∈ s.queued := by
  unfold sentQueued
  rw [List.mem_filter, decide_eq_true_iff, List.mem_map]
  constructor
  · rintro ⟨⟨⟨p, mac⟩, hf, rfl⟩, hp⟩
    exact ⟨⟨mac, hf⟩, hp⟩
  · rintro ⟨⟨mac, hf⟩, hp⟩
    exact ⟨⟨(p, mac), hf, rfl⟩, hp⟩

/-! ## The calls -/

theorem filter_split {w : List QueuedPacket} {res : QueuedPacket → Bool}
    (hres : ∀ p ∈ w, ∀ p' ∈ w, p.dstIp = p'.dstIp → res p = res p') (d : BitVec 32) :
    (w.filter res).filter (·.dstIp = d) ++ (w.filter fun p => !res p).filter (·.dstIp = d) =
      w.filter (·.dstIp = d) := by
  rw [List.filter_filter, List.filter_filter]
  by_cases hsome : ∃ p ∈ w, p.dstIp = d ∧ res p = true
  · obtain ⟨p, hp, hdst, hp'⟩ := hsome
    have hall : ∀ p' ∈ w, p'.dstIp = d → res p' = true :=
      fun p' h h' => (hres p hp p' h (hdst.trans h'.symm)).symm.trans hp'
    have hfirst : w.filter (fun p => decide (p.dstIp = d) && res p) = w.filter (·.dstIp = d) := by
      refine List.filter_congr fun p' hp' => ?_
      by_cases h : p'.dstIp = d
      · rw [hall p' hp' h, Bool.and_true]
      · rw [decide_eq_false h, Bool.false_and]
    have hsecond : w.filter (fun p => decide (p.dstIp = d) && !res p) = [] := by
      refine List.filter_eq_nil_iff.mpr fun p' hp' h => ?_
      rw [Bool.and_eq_true, decide_eq_true_iff] at h
      rw [hall p' hp' h.1] at h
      exact Bool.false_ne_true h.2
    rw [hfirst, hsecond, List.append_nil]
  · have hall : ∀ p' ∈ w, p'.dstIp = d → res p' = false :=
      fun p' h h' => Bool.eq_false_iff.mpr fun hr => hsome ⟨p', h, h', hr⟩
    have hfirst : w.filter (fun p => decide (p.dstIp = d) && res p) = [] := by
      refine List.filter_eq_nil_iff.mpr fun p' hp' h => ?_
      rw [Bool.and_eq_true, decide_eq_true_iff] at h
      rw [hall p' hp' h.1] at h
      exact Bool.false_ne_true h.2
    have hsecond : w.filter (fun p => decide (p.dstIp = d) && !res p) =
        w.filter (·.dstIp = d) := by
      refine List.filter_congr fun p' hp' => ?_
      by_cases h : p'.dstIp = d
      · rw [hall p' hp' h, Bool.not_false, Bool.and_true]
      · rw [decide_eq_false h, Bool.false_and]
    rw [hfirst, hsecond, List.nil_append]

def resolves (s : IpSender) (cfg : IpConfig) (p : QueuedPacket) : Bool :=
  (s.arp.lookup (cfg.arpDest p)).isSome

theorem isNone_frame (a : ℕ) : (s.frame cfg a).isNone = !s.resolves cfg (s.queue.mem a).packet := by
  unfold frame resolves
  cases s.arp.lookup (cfg.arpDest (s.queue.mem a).packet) <;> rfl

theorem map_fst_frames (xs : List ℕ) :
    (xs.filterMap (s.frame cfg)).map Prod.fst = (s.waiting xs).filter (s.resolves cfg) := by
  unfold waiting
  induction xs with
  | nil => rfl
  | cons x xs ih =>
    rw [List.filterMap_cons, List.map_cons, List.filter_cons, ← ih]
    unfold frame resolves
    cases s.arp.lookup (cfg.arpDest (s.queue.mem x).packet) <;> rfl

theorem Walked.waiting (h : Walked cfg l xs s t) :
    t.waiting (xs.filter fun a => (s.frame cfg a).isNone) =
      (s.waiting xs).filter fun p => !s.resolves cfg p := by
  unfold IpSender.waiting
  rw [List.filter_map]
  have hpacket : (fun a => (t.queue.mem a).packet) = fun a => (s.queue.mem a).packet :=
    funext h.packet
  rw [hpacket]
  congr 1
  exact List.filter_congr fun a _ => isNone_frame a

theorem Walked.sentQueued (h : Walked cfg l xs s t) (hw : ∀ p ∈ s.waiting xs, p ∈ s.queued) :
    t.sentQueued = s.sentQueued ++ (s.waiting xs).filter (s.resolves cfg) := by
  unfold IpSender.sentQueued
  rw [h.frames, h.queued, List.map_append, List.filter_append, map_fst_frames]
  congr 1
  refine List.filter_eq_self.mpr fun p hp => ?_
  rw [decide_eq_true_iff]
  exact hw p (List.mem_of_mem_filter hp)

theorem Inv.resolves_eq (hs : s.Inv cfg xs) {p p' : QueuedPacket} (hp : p ∈ s.queued)
    (hp' : p' ∈ s.queued) (hdst : p.dstIp = p'.dstIp) : s.resolves cfg p = s.resolves cfg p' := by
  unfold resolves IpConfig.arpDest IpConfig.isLocal
  rw [hdst, hs.srcIp p hp, hs.srcIp p' hp']

theorem Inv.idle (hs : s.Inv cfg xs) (now : ℤ) :
    ∃ t ys, s.ipIdle cfg now = some t ∧ t.Inv cfg ys ∧ Goes cfg (.idle now) s t := by
  obtain ⟨t, ht, hwalk⟩ := ipIdle_walked cfg now hs.good
  have hw : ∀ p ∈ s.waiting xs, p ∈ s.queued := fun p hp => hs.mem_queued.mpr (Or.inr hp)
  have hsent := hwalk.sentQueued hw
  have hnew : ∀ f ∈ xs.filterMap (s.frame cfg), f.1 ∈ s.queued ∧
      s.arp.lookup (cfg.arpDest f.1) = some f.2 := by
    intro f hf
    obtain ⟨a, ha, hframe⟩ := List.mem_filterMap.mp hf
    obtain ⟨mac, hmac, rfl⟩ := Option.map_eq_some_iff.mp hframe
    exact ⟨hw _ (List.mem_map_of_mem ha), hmac⟩
  refine ⟨t, _, ht, ⟨hwalk.good, ?_, ?_, ?_, ?_, fun d => ?_, ?_⟩,
    ⟨?_, ?_, ?_, ?_, fun _ => hwalk.arp⟩⟩
  · rw [hwalk.queued, hwalk.lastId]
    exact hs.number
  · rw [hwalk.queued]
    exact hs.nodup
  · rw [hwalk.queued]
    exact hs.srcIp
  · intro f hf
    rw [hwalk.frames, List.mem_append] at hf
    rw [hwalk.lastId]
    rcases hf with hf | hf
    · exact hs.frames f hf
    · exact hs.number _ (hnew f hf).1
  · rw [List.nil_append, hwalk.waiting, hsent, hwalk.queued, ← hs.order d, List.filter_append,
      List.append_assoc]
    congr 1
    exact filter_split (fun p hp p' hp' hdst => hs.resolves_eq (hw p hp) (hw p' hp') hdst) d
  · rw [hwalk.dropped]
    exact hs.dropped
  · rw [hwalk.queued]
    exact fun p hp => hp
  · rw [hwalk.frames]
    exact fun f hf => List.mem_append_left _ hf
  · intro f hf hq
    rw [hwalk.frames, List.mem_append] at hf
    rw [hwalk.queued] at hq
    rcases hf with hf | hf
    · exact ⟨hq, Or.inl hf⟩
    · exact ⟨hq, Or.inr ⟨⟨now, rfl⟩, (hnew f hf).2⟩⟩
  · intro _ _ p hp hres
    rw [hsent, List.mem_append]
    rcases hs.mem_queued.mp hp with hp | hp
    · exact Or.inl hp
    · exact Or.inr (List.mem_filter.mpr ⟨hp, hres⟩)

structure NoneSent (s t : IpSender) : Prop where
  queued : ∀ p ∈ s.queued, p ∈ t.queued
  frames : ∀ f ∈ s.frames, f ∈ t.frames
  old : ∀ f ∈ t.frames, f.1 ∈ t.queued → f.1 ∈ s.queued ∧ f ∈ s.frames
  arp : t.arp = s.arp

theorem NoneSent.goes (h : NoneSent s t) {e : IpEvent} (he : ∀ now, e ≠ .idle now) :
    Goes cfg e s t where
  queued := h.queued
  frames := h.frames
  sent f hf hq := ⟨(h.old f hf hq).1, Or.inl (h.old f hf hq).2⟩
  leaves now hidle := absurd hidle (he now)
  arp _ := h.arp

theorem Inv.arp (hs : s.Inv cfg xs) (ipAddr : BitVec 32) (macAddr : BitVec 48) :
    ({ s with arp := s.arp.handlePacket ipAddr macAddr } : IpSender).Inv cfg xs ∧
      Goes cfg (.arp ipAddr macAddr) s { s with arp := s.arp.handlePacket ipAddr macAddr } := by
  refine ⟨⟨⟨hs.good.lists, hs.good.tries⟩, hs.number, hs.nodup, hs.srcIp, hs.frames, hs.order,
    hs.dropped⟩, ⟨fun p hp => hp, fun f hf => hf, fun f hf hq => ⟨hq, Or.inl hf⟩, ?_, ?_⟩⟩
  · exact fun _ h => IpEvent.noConfusion h
  · exact fun h => absurd rfl (h ipAddr macAddr)

structure Fresh (s : IpSender) (p : QueuedPacket) : Prop where
  number : p.number < s.lastId
  queued : ∀ p' ∈ s.queued, p'.number ≠ p.number
  frames : ∀ f ∈ s.frames, f.1.number ≠ p.number

theorem Inv.next (hs : s.Inv cfg xs) :
    ({ s with lastId := s.lastId + 1 } : IpSender).Inv cfg xs where
  good := ⟨hs.good.lists, hs.good.tries⟩
  number p hp := Nat.lt_succ_of_lt (hs.number p hp)
  nodup := hs.nodup
  srcIp := hs.srcIp
  frames f hf := Nat.lt_succ_of_lt (hs.frames f hf)
  order := hs.order
  dropped := hs.dropped

theorem Inv.fresh (hs : s.Inv cfg xs) {p : QueuedPacket} (hp : p.number = s.lastId) :
    Fresh { s with lastId := s.lastId + 1 } p where
  number := hp ▸ Nat.lt_succ_self _
  queued p' h := hp ▸ (hs.number p' h).ne
  frames f h := hp ▸ (hs.frames f h).ne

theorem Inv.direct (hs : s.Inv cfg xs) {p : QueuedPacket} (hp : s.Fresh p) (mac : BitVec 48) :
    ({ s with frames := s.frames ++ [(p, mac)] } : IpSender).Inv cfg xs ∧
      NoneSent s { s with frames := s.frames ++ [(p, mac)] } := by
  have hout : p ∉ s.queued := fun h => hp.queued p h rfl
  have hsent : ({ s with frames := s.frames ++ [(p, mac)] } : IpSender).sentQueued =
      s.sentQueued := by
    unfold sentQueued
    dsimp only
    rw [List.map_append, List.filter_append, List.map_singleton,
      List.filter_singleton, decide_eq_false hout]
    exact List.append_nil _
  refine ⟨⟨⟨hs.good.lists, hs.good.tries⟩, hs.number, hs.nodup, hs.srcIp, fun f hf => ?_,
    fun d => ?_, hs.dropped⟩, ⟨fun p hp => hp, fun f hf => List.mem_append_left _ hf,
    fun f hf hq => ?_, rfl⟩⟩
  · rcases List.mem_append.mp hf with hf | hf
    · exact hs.frames f hf
    · obtain rfl := List.mem_singleton.mp hf
      exact hp.number
  · rw [hsent]
    exact hs.order d
  · rcases List.mem_append.mp hf with hf | hf
    · exact ⟨hq, hf⟩
    · obtain rfl := List.mem_singleton.mp hf
      exact absurd hq hout

theorem Inv.queueFor (hs : s.Inv cfg xs) (env : SendEnv) {p : QueuedPacket} (hp : s.Fresh p)
    (hsrc : p.srcIp = cfg.hostAddr) (dest : BitVec 32) :
    ∃ t ys, s.queueFor env p dest = some t ∧ t.Inv cfg ys ∧ NoneSent s t := by
  unfold IpSender.queueFor
  split
  · obtain ⟨q, stored, hq, hkept, hstored⟩ := hs.good.lists.queuePacket env.alloc p env.ticks
    rw [hq]
    cases stored with
    | false =>
      obtain ⟨hlists, hsame⟩ := hkept rfl
      refine ⟨_, xs, rfl, ⟨⟨hlists, fun x hx => ?_⟩, hs.number, hs.nodup, hs.srcIp, hs.frames,
        fun d => ?_, hs.dropped⟩, fun p hp => hp, fun f hf => hf, fun f hf hq => ⟨hq, hf⟩, rfl⟩
      · exact (hsame x).2.trans_le (hs.good.tries x hx)
      · have hwait : (xs.map fun a => (q.mem a).packet) = s.waiting xs :=
          List.map_congr_left fun a _ => (hsame a).1
        have horder := hs.order d
        rw [← hwait] at horder
        exact horder
    | true =>
      obtain ⟨a, ha, hlists, hitem, hsame⟩ := hstored rfl
      have hsent : (s.frames.map Prod.fst).filter (· ∈ s.queued ++ [p]) = s.sentQueued := by
        refine List.filter_congr fun p' hp' => ?_
        obtain ⟨f, hf, rfl⟩ := List.mem_map.mp hp'
        rw [decide_eq_decide, List.mem_append, List.mem_singleton]
        exact ⟨fun h => h.resolve_right fun heq => hp.frames f hf (heq ▸ rfl), Or.inl⟩
      have hwait : ((xs ++ [a]).map fun a => (q.mem a).packet) = s.waiting xs ++ [p] := by
        rw [List.map_append, List.map_singleton, hitem]
        congr 1
        exact List.map_congr_left fun x hx => (hsame x hx).1
      refine ⟨_, xs ++ [a], rfl, ⟨⟨hlists, fun x hx => ?_⟩, fun p' h => ?_, ?_, fun p' h => ?_,
        hs.frames, fun d => ?_, hs.dropped⟩, fun p' h => List.mem_append_left _ h, fun f hf => hf,
        fun f hf hq => ⟨?_, hf⟩, rfl⟩
      · change (q.mem x).arpTries ≤ 2
        rcases List.mem_append.mp hx with hx | hx
        · exact (hsame x hx).2.trans_le (hs.good.tries x hx)
        · rw [List.mem_singleton] at hx
          rw [hx, hitem]
          exact Nat.zero_le 2
      · rcases List.mem_append.mp h with h | h
        · exact hs.number p' h
        · rw [List.mem_singleton] at h
          exact h ▸ hp.number
      · change ((s.queued ++ [p]).map QueuedPacket.number).Nodup
        rw [List.map_append, List.map_singleton, List.nodup_append]
        refine ⟨hs.nodup, List.nodup_singleton _, fun n hn m hm => ?_⟩
        obtain ⟨p', hp', rfl⟩ := List.mem_map.mp hn
        rw [List.mem_singleton] at hm
        exact hm ▸ hp.queued p' hp'
      · rcases List.mem_append.mp h with h | h
        · exact hs.srcIp p' h
        · rw [List.mem_singleton] at h
          exact h ▸ hsrc
      · change (((s.frames.map Prod.fst).filter (· ∈ s.queued ++ [p])).filter _) ++
          (((xs ++ [a]).map fun a => (q.mem a).packet).filter _) = (s.queued ++ [p]).filter _
        rw [hsent, hwait, List.filter_append, List.filter_append, ← hs.order d, List.append_assoc]
      · rcases List.mem_append.mp hq with hq | hq
        · exact hq
        · rw [List.mem_singleton] at hq
          exact absurd (congrArg QueuedPacket.number hq) (hp.frames f hf)
  · exact ⟨_, xs, rfl, ⟨⟨hs.good.lists, hs.good.tries⟩, hs.number, hs.nodup, hs.srcIp, hs.frames,
      hs.order, hs.dropped⟩, fun p hp => hp, fun f hf => hf, fun f hf hq => ⟨hq, hf⟩, rfl⟩

theorem Inv.sendTo (hs : s.Inv cfg xs) (env : SendEnv) {p : QueuedPacket} (hp : s.Fresh p)
    (hsrc : p.srcIp = cfg.hostAddr) (dest : BitVec 32) :
    ∃ t ys, s.sendTo env p dest = some t ∧ t.Inv cfg ys ∧ NoneSent s t := by
  unfold IpSender.sendTo
  split
  · exact hs.queueFor env hp hsrc dest
  · next mac _ =>
    obtain ⟨hinv, hnone⟩ := hs.direct hp mac
    exact ⟨_, xs, rfl, hinv, hnone⟩

theorem Inv.send (hs : s.Inv cfg xs) (env : SendEnv) (dstIp : BitVec 32) (data : List Byte)
    (protocol : ℕ) : ∃ t ys, s.ipSendPacket cfg env dstIp data protocol = some t ∧ t.Inv cfg ys ∧
      Goes cfg (.send env dstIp data protocol) s t := by
  have hgoes : ∀ t : IpSender, NoneSent { s with lastId := s.lastId + 1 } t →
      Goes cfg (.send env dstIp data protocol) s t := by
    intro t h
    have hnone : NoneSent s t := ⟨h.queued, h.frames, h.old, h.arp⟩
    exact hnone.goes fun _ => IpEvent.noConfusion
  unfold ipSendPacket
  dsimp only
  split
  · exact ⟨_, xs, rfl, hs.next,
      hgoes _ ⟨fun p hp => hp, fun f hf => hf, fun f hf hq => ⟨hq, hf⟩, rfl⟩⟩
  · next hloop =>
    have hfresh := hs.fresh (p := ⟨s.lastId, cfg.hostAddr, dstIp, protocol, data⟩) rfl
    split
    · obtain ⟨t, ys, ht, hinv, hnone⟩ := hs.next.sendTo env hfresh rfl cfg.gateway
      exact ⟨t, ys, ht, hinv, hgoes t hnone⟩
    · obtain ⟨t, ys, ht, hinv, hnone⟩ := hs.next.sendTo env hfresh rfl dstIp
      exact ⟨t, ys, ht, hinv, hgoes t hnone⟩

theorem Inv.step (hs : s.Inv cfg xs) (e : IpEvent) :
    ∃ t ys, s.step cfg e = some t ∧ t.Inv cfg ys ∧ Goes cfg e s t := by
  cases e with
  | send env dstIp data protocol => exact hs.send env dstIp data protocol
  | arp ipAddr macAddr => exact ⟨_, xs, rfl, hs.arp ipAddr macAddr⟩
  | idle now => exact hs.idle now

/-! ## What the queue promises -/

def init : IpSender where
  queue := ⟨fun _ => ⟨⟨0, 0, 0, 0, []⟩, 0, 0, 0⟩, ∅, 0, 0⟩
  arp := .init
  lastId := 0
  queued := []
  frames := []
  dropped := []
  requests := []

/-- The state after `n` calls. -/
def stateAt (cfg : IpConfig) (ev : ℕ → IpEvent) : ℕ → Option IpSender
  | 0 => some init
  | n + 1 => (stateAt cfg ev n).bind fun s => s.step cfg (ev n)

/-- The pointers describe a list, every queued packet is in exactly one place, packets to one
destination are in order, and an item that was dropped had been tried three times. -/
structure Accounted (s : IpSender) (xs : List ℕ) : Prop where
  lists : s.queue.Lists xs
  nodup : s.queued.Nodup
  once : (s.sentQueued ++ s.dropped.map PacketQueueItem.packet ++ s.waiting xs).Perm s.queued
  order : ∀ d, (s.sentQueued.filter (·.dstIp = d)).Sublist (s.queued.filter (·.dstIp = d))
  tries : ∀ item ∈ s.dropped, item.arpTries = 3

/-- All packets are accounted for at all times, a queued packet goes out to the address that its
destination resolves to, and in the end it is sent or dropped. -/
structure QueueRight (cfg : IpConfig) (ev : ℕ → IpEvent) : Prop where
  accounted : ∀ n, ∃ s xs, stateAt cfg ev n = some s ∧ s.Accounted xs
  resolved : ∀ n s t, stateAt cfg ev n = some s → stateAt cfg ev (n + 1) = some t →
    ∀ f ∈ t.frames, f.1 ∈ t.queued →
      f.1 ∈ s.queued ∧ (f ∈ s.frames ∨ s.arp.lookup (cfg.arpDest f.1) = some f.2)
  leaves : ∀ n s, stateAt cfg ev n = some s → ∀ p ∈ s.queued, ∃ m t, stateAt cfg ev m = some t ∧
    (p ∈ t.sentQueued ∨ p ∈ t.dropped.map PacketQueueItem.packet)

/-- Every packet that is queued finds its address in the table at some tick while, or after, it is
in the queue. -/
def AllResolve (cfg : IpConfig) (ev : ℕ → IpEvent) : Prop :=
  ∀ n s, stateAt cfg ev n = some s → ∀ p ∈ s.queued, ∃ m t now, stateAt cfg ev m = some t ∧
    p ∈ t.queued ∧ ev m = .idle now ∧ (t.arp.lookup (cfg.arpDest p)).isSome

variable {ev : ℕ → IpEvent} {n m : ℕ}

theorem inv_init : init.Inv cfg [] where
  good := ⟨⟨rfl, List.nodup_nil,
    fun x => by simp [init], rfl⟩, fun x hx => absurd hx List.not_mem_nil⟩
  number p hp := absurd hp List.not_mem_nil
  nodup := List.nodup_nil
  srcIp p hp := absurd hp List.not_mem_nil
  frames f hf := absurd hf List.not_mem_nil
  order _ := rfl
  dropped := rfl

theorem stateAt_succ (h : stateAt cfg ev n = some s) :
    stateAt cfg ev (n + 1) = s.step cfg (ev n) := by
  change (stateAt cfg ev n).bind _ = _
  rw [h, Option.bind_some]

theorem exists_stateAt (cfg : IpConfig) (ev : ℕ → IpEvent) (n : ℕ) :
    ∃ s xs, stateAt cfg ev n = some s ∧ s.Inv cfg xs := by
  induction n with
  | zero => exact ⟨init, [], rfl, inv_init⟩
  | succ n ih =>
    obtain ⟨s, xs, hs, hinv⟩ := ih
    obtain ⟨t, ys, ht, hinv', -⟩ := hinv.step (ev n)
    exact ⟨t, ys, (stateAt_succ hs).trans ht, hinv'⟩

theorem inv_stateAt (h : stateAt cfg ev n = some s) : ∃ xs, s.Inv cfg xs := by
  obtain ⟨s', xs, hs', hinv⟩ := exists_stateAt cfg ev n
  obtain rfl := Option.some.inj (h.symm.trans hs')
  exact ⟨xs, hinv⟩

theorem goes_stateAt (h : stateAt cfg ev n = some s) (h' : stateAt cfg ev (n + 1) = some t) :
    Goes cfg (ev n) s t := by
  obtain ⟨xs, hinv⟩ := inv_stateAt h
  obtain ⟨t', ys, ht', -, hgoes⟩ := hinv.step (ev n)
  rw [stateAt_succ h, ht'] at h'
  obtain rfl := Option.some.inj h'
  exact hgoes

theorem Inv.accounted (hs : s.Inv cfg xs) : s.Accounted xs where
  lists := hs.good.lists
  nodup := hs.nodup.of_map _
  once := by
    rw [hs.dropped, List.map_nil, List.append_nil]
    exact hs.perm
  order d := by
    rw [← hs.order d]
    exact List.sublist_append_left _ _
  tries item hitem := by
    rw [hs.dropped] at hitem
    exact absurd hitem List.not_mem_nil

theorem resolves_of_sent (h : stateAt cfg ev n = some s) {p : QueuedPacket}
    (hp : p ∈ s.sentQueued) :
    ∃ m t now, stateAt cfg ev m = some t ∧ p ∈ t.queued ∧ ev m = .idle now ∧
      (t.arp.lookup (cfg.arpDest p)).isSome := by
  induction n generalizing s with
  | zero =>
    obtain rfl := Option.some.inj h
    exact absurd hp List.not_mem_nil
  | succ n ih =>
    obtain ⟨t, xs, ht, hinv⟩ := exists_stateAt cfg ev n
    have hgoes := goes_stateAt ht h
    obtain ⟨⟨mac, hmac⟩, hq⟩ := mem_sentQueued.mp hp
    obtain ⟨hqueued, hwas⟩ := hgoes.sent _ hmac hq
    rcases hwas with hold | ⟨⟨now, hidle⟩, hlookup⟩
    · exact ih ht (mem_sentQueued.mpr ⟨⟨mac, hold⟩, hqueued⟩)
    · exact ⟨n, t, now, ht, hqueued, hidle, Option.isSome_of_eq_some hlookup⟩

theorem allResolve_of_queueRight (h : QueueRight cfg ev) : AllResolve cfg ev := by
  intro n s hs p hp
  obtain ⟨m, t, ht, hleft⟩ := h.leaves n s hs p hp
  obtain ⟨xs, hinv⟩ := inv_stateAt ht
  rcases hleft with hsent | hdropped
  · exact resolves_of_sent ht hsent
  · rw [hinv.dropped] at hdropped
    exact absurd hdropped List.not_mem_nil

theorem queueRight_of_allResolve (h : AllResolve cfg ev) : QueueRight cfg ev where
  accounted n := by
    obtain ⟨s, xs, hs, hinv⟩ := exists_stateAt cfg ev n
    exact ⟨s, xs, hs, hinv.accounted⟩
  resolved n s t hs ht f hf hq :=
    ((goes_stateAt hs ht).sent f hf hq).imp_right fun hwas => hwas.imp_right fun hnew => hnew.2
  leaves n s hs p hp := by
    obtain ⟨m, t, now, ht, hq, hidle, hlookup⟩ := h n s hs p hp
    obtain ⟨u, xs, hu, -⟩ := exists_stateAt cfg ev (m + 1)
    exact ⟨m + 1, u, hu, Or.inl ((goes_stateAt ht hu).leaves now hidle p hq hlookup)⟩

/-- The queue keeps its promises in a run exactly if every address that a queued packet waits for is
in the table at some tick. -/
theorem queueRight_iff (cfg : IpConfig) (ev : ℕ → IpEvent) :
    QueueRight cfg ev ↔ AllResolve cfg ev :=
  ⟨allResolve_of_queueRight, queueRight_of_allResolve⟩

/-! ## A host that never answers -/

def homeConfig : IpConfig := ⟨0x00ffffff, 0x0101a8c0, 0x0a01a8c0⟩

def firstFree (live : Finset ℕ) : Option ℕ :=
  (List.range' 1 (live.card + 1)).find? fun a => a ∉ live

theorem firstFree_fresh {live : Finset ℕ} {a : ℕ} (h : firstFree live = some a) :
    a ≠ 0 ∧ a ∉ live := by
  have hrange := List.mem_range'_1.mp (List.mem_of_find?_eq_some h)
  have hfree := List.find?_some (p := fun a => decide (a ∉ live)) h
  exact ⟨Nat.ne_of_gt hrange.1, of_decide_eq_true hfree⟩

def nextItem : ItemAllocator where
  alloc := firstFree
  fresh _ _ h := firstFree_fresh h

def silentHost : ℕ → IpEvent
  | 0 => .send ⟨true, nextItem, 0⟩ 0x1401a8c0 [] 1
  | n + 1 => .idle (1000 * (n + 1))

theorem lookup_init {ip : BitVec 32} (h0 : ip ≠ 0) (hbroadcast : ip ≠ 0xffffffff) :
    ArpTable.init.lookup ip = none := by
  unfold ArpTable.lookup
  rw [if_neg hbroadcast]
  refine Option.map_eq_none_iff.mpr (List.find?_eq_none.mpr fun i _ => ?_)
  rw [decide_eq_true_iff]
  unfold ArpTable.init
  dsimp only
  split
  · exact hbroadcast.symm
  · exact h0.symm

theorem silentHost_arp (h : stateAt homeConfig silentHost n = some s) : s.arp = .init := by
  induction n generalizing s with
  | zero =>
    obtain rfl := Option.some.inj h
    rfl
  | succ n ih =>
    obtain ⟨t, xs, ht, -⟩ := exists_stateAt homeConfig silentHost n
    refine ((goes_stateAt ht h).arp fun ipAddr macAddr => ?_).trans (ih ht)
    cases n <;> exact IpEvent.noConfusion

/-- The packet that is queued is neither sent nor dropped, whatever the number of ticks. -/
theorem silentHost_not_queueRight : ¬ QueueRight homeConfig silentHost := by
  intro hright
  have hunknown : ArpTable.init.lookup 0x1401a8c0 = none := lookup_init (by decide) (by decide)
  have hqueued : ∃ s, stateAt homeConfig silentHost 1 = some s ∧
      ⟨0, 0x0a01a8c0, 0x1401a8c0, 1, []⟩ ∈ s.queued := by
    have hloop : ¬ ipIsLoopback 0x1401a8c0 = true := by decide
    have hlocal :
      ¬ (homeConfig.netmask ≠ 0 ∧ homeConfig.hostAddr ≠ 0 ∧ (0x1401a8c0 : BitVec 32) ≠ 0 ∧
        homeConfig.hostAddr &&& homeConfig.netmask ≠ 0x1401a8c0 &&& homeConfig.netmask) := by decide
    have hstart : stateAt homeConfig silentHost 0 = some init := rfl
    have harp : init.arp = .init := rfl
    rw [stateAt_succ hstart]
    simp only [silentHost, step, ipSendPacket, sendTo, if_neg hloop, if_neg hlocal, harp, hunknown]
    exact ⟨_, rfl, List.mem_singleton_self _⟩
  obtain ⟨s, hs, hp⟩ := hqueued
  obtain ⟨m, t, now, ht, -, -, hlookup⟩ := allResolve_of_queueRight hright 1 s hs _ hp
  rw [silentHost_arp ht] at hlookup
  have hdest : homeConfig.arpDest ⟨0, 0x0a01a8c0, 0x1401a8c0, 1, []⟩ = 0x1401a8c0 := by decide
  rw [hdest, hunknown] at hlookup
  exact Bool.false_ne_true hlookup

end IpSender

end RetroRocket
