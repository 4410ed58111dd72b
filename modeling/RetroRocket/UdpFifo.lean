import Mathlib.Data.List.TakeWhile
import RetroRocket.LinkedList
import RetroRocket.UdpQueue

/-!
# The queues return what was received

Head, tail and both links of each port describe one list, whose packets are the datagrams of the
abstract queue as they were stored. So a program gets the oldest datagram; what it gets of it is
right where a 0 ends the payload in time and the length that was stored is that of the text.
-/

namespace RetroRocket

namespace UdpState

/-! ## What is asked of it -/

def prev (s : UdpState) (a : ℕ) : ℕ := (s.mem a).prev

def next (s : UdpState) (a : ℕ) : ℕ := (s.mem a).next

/-- After some events nothing has gone wrong, everything returned was right, and each queue is a
list of as many packets as datagrams are waiting. -/
def Serves (env : UdpEnv) (past : List UdpEvent) : Prop :=
  ∃ s, after env past = some s ∧ s.returned = (UdpFifo.after past).returned ∧
    ∀ port, ∃ xs, Chain 0 s.prev s.next 0 (s.udpPackets port) xs (s.udpListTail port) 0 ∧
      xs.length = ((UdpFifo.after past).queues port).length

/-! ## When it does -/

def Fits (d : UdpDatagram) : Prop :=
  (0 ∈ d.payload ∨ d.beyond.head? = some 0) ∧
    d.length.toNat = (d.payload.takeWhile (· ≠ 0)).length

/-- An event does not go wrong: a text that is stored ends somewhere, a port that is read is one,
and a datagram that is returned fits. -/
def EventFits (f : UdpFifo) : UdpEvent → Prop
  | .deliver d => 0 ∈ d.payload ++ d.beyond
  | .begin _ _ => True
  | .take ctx => ∀ port, f.readers ctx = .begun port → 0 ≤ port ∧ port ≤ 65535
  | .finish ctx => ∀ d, f.readers ctx = .taken (some d) → Fits d

/-! ## Lists -/

variable {env : UdpEnv} {s s' : UdpState} {f : UdpFifo} {port : ℕ} {packet : UdpPacket}
  {lists : ℕ → List ℕ}

structure Lists (s : UdpState) (lists : ℕ → List ℕ) : Prop where
  chain : ∀ port, Chain 0 s.prev s.next 0 (s.udpPackets port) (lists port) (s.udpListTail port) 0
  nodup : ∀ port, (lists port).Nodup
  disjoint : ∀ p q, p ≠ q → (lists p).Disjoint (lists q)
  live : ∀ port, ∀ x ∈ lists port, x ∈ s.live

theorem Lists.setReaders (h : s.Lists lists) (readers : ℕ → UdpReader UdpPacket)
    (returned : List UdpReturn) :
    UdpState.Lists { s with readers := readers, returned := returned } lists :=
  ⟨h.chain, h.nodup, h.disjoint, h.live⟩

theorem Lists.tail_eq (h : s.Lists lists) (port : ℕ) :
    s.udpListTail port = (lists port).getLast?.getD 0 := (h.chain port).last

theorem Lists.tail_mem (h : s.Lists lists) (htail : s.udpListTail port ≠ 0) :
    s.udpListTail port ∈ lists port := by
  rw [h.tail_eq] at htail ⊢
  cases hlast : (lists port).getLast? with
  | none =>
    rw [hlast] at htail
    exact absurd rfl htail
  | some x => exact List.mem_of_getLast? hlast

theorem Lists.nil_of_tail (h : s.Lists lists) (htail : s.udpListTail port = 0) :
    lists port = [] := by
  rw [h.tail_eq] at htail
  cases hlast : (lists port).getLast? with
  | none => exact List.getLast?_eq_none_iff.mp hlast
  | some x =>
    rw [hlast] at htail
    exact absurd htail ((h.chain port).ne_null (List.mem_of_getLast? hlast))

theorem Lists.update (h : s.Lists lists) {xs : List ℕ}
    (hport : Chain 0 s'.prev s'.next 0 (s'.udpPackets port) xs (s'.udpListTail port) 0)
    (hnodup : xs.Nodup) (hdisjoint : ∀ q, q ≠ port → xs.Disjoint (lists q))
    (hlive : ∀ x ∈ xs, x ∈ s'.live)
    (hothers : ∀ q, q ≠ port → s'.udpPackets q = s.udpPackets q ∧
      s'.udpListTail q = s.udpListTail q ∧
      ∀ x ∈ lists q, s'.prev x = s.prev x ∧ s'.next x = s.next x ∧ x ∈ s'.live) :
    s'.Lists (Function.update lists port xs) where
  chain q := by
    by_cases hq : q = port
    · subst hq
      rw [Function.update_self]
      exact hport
    · obtain ⟨hhead, htail, hsame⟩ := hothers q hq
      rw [Function.update_of_ne hq, hhead, htail]
      exact (h.chain q).congr (fun x hx => (hsame x hx).1) fun x hx => (hsame x hx).2.1
  nodup q := by
    by_cases hq : q = port
    · subst hq
      rw [Function.update_self]
      exact hnodup
    · rw [Function.update_of_ne hq]
      exact h.nodup q
  disjoint p q hpq := by
    by_cases hp : p = port
    · subst hp
      rw [Function.update_self, Function.update_of_ne (Ne.symm hpq)]
      exact hdisjoint q (Ne.symm hpq)
    · by_cases hq : q = port
      · subst hq
        rw [Function.update_self, Function.update_of_ne hp]
        exact (hdisjoint p hp).symm
      · rw [Function.update_of_ne hp, Function.update_of_ne hq]
        exact h.disjoint p q hpq
  live q x hx := by
    by_cases hq : q = port
    · subst hq
      rw [Function.update_self] at hx
      exact hlive x hx
    · rw [Function.update_of_ne hq] at hx
      exact ((hothers q hq).2.2 x hx).2.2

theorem prev_update (mem : ℕ → QueuedUdpPacket) (a : ℕ) (v : QueuedUdpPacket) :
    (fun x => (Function.update mem a v x).prev) =
      Function.update (fun x => (mem x).prev) a v.prev :=
  funext (Function.apply_update (fun _ => QueuedUdpPacket.prev) mem a v)

theorem next_update (mem : ℕ → QueuedUdpPacket) (a : ℕ) (v : QueuedUdpPacket) :
    (fun x => (Function.update mem a v x).next) =
      Function.update (fun x => (mem x).next) a v.next :=
  funext (Function.apply_update (fun _ => QueuedUdpPacket.next) mem a v)

theorem packet_update (mem : ℕ → QueuedUdpPacket) (a : ℕ) (v : QueuedUdpPacket) :
    (fun x => (Function.update mem a v x).packet) =
      Function.update (fun x => (mem x).packet) a v.packet :=
  funext (Function.apply_update (fun _ => QueuedUdpPacket.packet) mem a v)

structure SameButLinks (s s' : UdpState) : Prop where
  packet : ∀ x, (s'.mem x).packet = (s.mem x).packet
  live : s'.live = s.live
  udpPackets : s'.udpPackets = s.udpPackets
  udpListTail : s'.udpListTail = s.udpListTail
  readers : s'.readers = s.readers
  returned : s'.returned = s.returned

theorem setNext_spec {a : ℕ} (ha : a ∈ s.live) (n : ℕ) :
    ∃ s', s.setNext a n = some s' ∧ s'.prev = s.prev ∧ s'.next = Function.update s.next a n ∧
      SameButLinks s s' := by
  refine ⟨_, if_pos ha, (prev_update ..).trans (Function.update_eq_self ..), next_update ..,
    fun x => ?_, rfl, rfl, rfl, rfl, rfl⟩
  have hpacket := (packet_update s.mem a { s.mem a with next := n }).trans
    (Function.update_eq_self a fun x => (s.mem x).packet)
  exact congrFun hpacket x

theorem setPrev_spec {a : ℕ} (ha : a ∈ s.live) (n : ℕ) :
    ∃ s', s.setPrev a n = some s' ∧ s'.prev = Function.update s.prev a n ∧ s'.next = s.next ∧
      SameButLinks s s' := by
  refine ⟨_, if_pos ha, prev_update .., (next_update ..).trans (Function.update_eq_self ..),
    fun x => ?_, rfl, rfl, rfl, rfl, rfl⟩
  have hpacket := (packet_update s.mem a { s.mem a with prev := n }).trans
    (Function.update_eq_self a fun x => (s.mem x).packet)
  exact congrFun hpacket x

/-! ## A packet arrives -/

structure Enqueued (s s' : UdpState) (packet : UdpPacket) (port a : ℕ) (lists : ℕ → List ℕ) :
    Prop where
  lists : s'.Lists (Function.update lists port (lists port ++ [a]))
  fresh : a ∉ s.live
  new : (s'.mem a).packet = packet
  packet : ∀ x ∈ s.live, (s'.mem x).packet = (s.mem x).packet
  readers : s'.readers = s.readers
  returned : s'.returned = s.returned

theorem Lists.enqueue (h : s.Lists lists) (env : UdpEnv) (packet : UdpPacket) (port : ℕ) :
    ∃ s' a, s.enqueue env packet port = some s' ∧ Enqueued s s' packet port a lists := by
  unfold UdpState.enqueue
  have hfresh := env.fresh s.live
  have hne := env.ne_zero s.live
  generalize env.malloc s.live = a at hfresh hne
  have hnot : ∀ q, ∀ x ∈ lists q, x ≠ a := fun q x hx => ne_of_mem_of_not_mem (h.live q x hx) hfresh
  have hdisjoint : ∀ q, q ≠ port → (lists port ++ [a]).Disjoint (lists q) := by
    intro q hq x hx hxq
    rcases List.mem_append.mp hx with hx | hx
    · exact h.disjoint port q (Ne.symm hq) hx hxq
    · exact hnot q x hxq (List.mem_singleton.mp hx)
  have hnodup : (lists port ++ [a]).Nodup := by
    refine List.nodup_append.mpr ⟨h.nodup port, List.nodup_singleton a, ?_⟩
    intro x hx y hy
    rw [List.mem_singleton.mp hy]
    exact hnot port x hx
  have hlive : ∀ x ∈ lists port ++ [a], x ∈ insert a s.live := by
    intro x hx
    rcases List.mem_append.mp hx with hx | hx
    · exact Finset.mem_insert_of_mem (h.live port x hx)
    · rw [List.mem_singleton.mp hx]
      exact Finset.mem_insert_self a _
  have hothers : ∀ q, ∀ x ∈ lists q, x ∈ insert a s.live :=
    fun q x hx => Finset.mem_insert_of_mem (h.live q x hx)
  dsimp only
  -- the packet is written, and not yet in a list
  generalize hs₁ : s.fill a ⟨packet, s.udpListTail port, 0⟩ = s₁
  have hprev : s₁.prev = Function.update s.prev a (s.udpListTail port) := hs₁ ▸ prev_update ..
  have hnext : s₁.next = Function.update s.next a 0 := hs₁ ▸ next_update ..
  have hpacket :
      (fun x => (s₁.mem x).packet) = Function.update (fun x => (s.mem x).packet) a packet :=
    hs₁ ▸ packet_update ..
  have hlive₁ : s₁.live = insert a s.live := hs₁ ▸ rfl
  have hnew : (s₁.mem a).packet = packet := (congrFun hpacket a).trans (Function.update_self ..)
  have hold : ∀ x ∈ s.live, (s₁.mem x).packet = (s.mem x).packet := fun x hx =>
    (congrFun hpacket x).trans (Function.update_of_ne (ne_of_mem_of_not_mem hx hfresh) _ _)
  have hheads : s₁.udpPackets = s.udpPackets := hs₁ ▸ rfl
  have htails : s₁.udpListTail = s.udpListTail := hs₁ ▸ rfl
  have hrest : s₁.readers = s.readers ∧ s₁.returned = s.returned := hs₁ ▸ ⟨rfl, rfl⟩
  rw [htails, hheads]
  by_cases htail : s.udpListTail port = 0
  · have hnil := h.nil_of_tail htail
    rw [if_pos htail]
    refine ⟨_, a, rfl, h.update ?_ hnodup hdisjoint (hlive₁ ▸ hlive) fun q hq =>
      ⟨Function.update_of_ne hq _ _, Function.update_of_ne hq _ _, fun x hx =>
        ⟨(congrFun hprev x).trans (Function.update_of_ne (hnot q x hx) _ _),
          (congrFun hnext x).trans (Function.update_of_ne (hnot q x hx) _ _),
          hlive₁ ▸ hothers q x hx⟩⟩, hfresh, hnew, hold, hrest.1, hrest.2⟩
    rw [hnil]
    change Chain 0 s₁.prev s₁.next 0 (Function.update s.udpPackets port a port) [a]
      (Function.update s.udpListTail port a port) 0
    rw [Function.update_self, Function.update_self]
    refine ⟨rfl, hne, ?_, rfl, ?_⟩
    · rw [hprev, Function.update_self, htail]
    · rw [hnext, Function.update_self]
  · have hmem := h.tail_mem htail
    obtain ⟨s₂, hs₂, hprev₂, hnext₂, hsame⟩ :=
      setNext_spec (hlive₁ ▸ hothers port _ hmem : s.udpListTail port ∈ s₁.live) a
    rw [if_neg htail, hs₂]
    have hta : s.udpListTail port ≠ a := hnot port _ hmem
    refine ⟨_, a, rfl, h.update ?_ hnodup hdisjoint ?_ fun q hq => ⟨?_, ?_,
      fun x hx => ⟨?_, ?_, ?_⟩⟩, hfresh, (hsame.packet a).trans hnew,
      fun x hx => (hsame.packet x).trans (hold x hx), hsame.readers.trans hrest.1,
      hsame.returned.trans hrest.2⟩
    · have hend := (h.chain port).relink_end (h.nodup port) a
      rw [if_neg htail, if_neg htail] at hend
      change Chain 0 s₂.prev s₂.next 0 (s₂.udpPackets port) _
        (Function.update s₂.udpListTail port a port) 0
      rw [hprev₂, hprev, hnext₂, hnext, hsame.udpPackets, hheads, Function.update_self]
      refine Chain.append.mpr ⟨s.udpListTail port, a, hend.congr (fun x hx => ?_) (fun x hx => ?_),
        rfl, hne, Function.update_self .., rfl, ?_⟩
      · exact Function.update_of_ne (hnot port x hx) _ _
      · by_cases hxt : x = s.udpListTail port
        · rw [hxt, Function.update_self, Function.update_self]
        · rw [Function.update_of_ne hxt, Function.update_of_ne hxt,
            Function.update_of_ne (hnot port x hx)]
      · rw [Function.update_of_ne (Ne.symm hta), Function.update_self]
    · intro x hx
      change x ∈ s₂.live
      rw [hsame.live, hlive₁]
      exact hlive x hx
    · exact congrFun (hsame.udpPackets.trans hheads) q
    · exact (Function.update_of_ne hq _ _).trans (congrFun (hsame.udpListTail.trans htails) q)
    · change s₂.prev x = _
      rw [hprev₂, hprev, Function.update_of_ne (hnot q x hx)]
    · change s₂.next x = _
      have hxt : x ≠ s.udpListTail port := by
        rintro rfl
        exact h.disjoint q port hq hx hmem
      rw [hnext₂, hnext, Function.update_of_ne hxt, Function.update_of_ne (hnot q x hx)]
    · change x ∈ s₂.live
      rw [hsame.live, hlive₁]
      exact hothers q x hx

/-! ## A packet is taken -/

structure Dequeued (s s' : UdpState) (last : UdpPacket) (port : ℕ) (lists : ℕ → List ℕ) : Prop where
  last : last = ((lists port).head?.map fun x => (s.mem x).packet).getD .none
  lists : s'.Lists (Function.update lists port (lists port).tail)
  packet : ∀ x, (s'.mem x).packet = (s.mem x).packet
  readers : s'.readers = s.readers
  returned : s'.returned = s.returned

theorem Lists.dequeue (h : s.Lists lists) {port : ℤ} (hlow : 0 ≤ port) (hhigh : port ≤ 65535) :
    ∃ last s', s.dequeue port = some (last, s') ∧ Dequeued s s' last port.toNat lists := by
  unfold UdpState.dequeue
  rw [if_neg (by omega)]
  generalize port.toNat = port
  dsimp only
  have hchain := h.chain port
  have hnodup := h.nodup port
  cases hlist : lists port with
  | nil =>
    rw [hlist] at hchain
    rw [if_pos hchain.2]
    have hsame : Function.update lists port (lists port).tail = lists := by
      rw [hlist, List.tail_nil, ← hlist]
      exact Function.update_eq_self port lists
    exact ⟨.none, s, rfl, ⟨by rw [hlist]; rfl, hsame.symm ▸ h, fun _ => rfl, rfl, rfl⟩⟩
  | cons x xs =>
    have hxlive := h.live port x (hlist ▸ List.mem_cons_self)
    have hothers : ∀ q, q ≠ port → ∀ z ∈ lists q, z ∈ s.live.erase x := by
      intro q hq z hz
      refine Finset.mem_erase.mpr ⟨?_, h.live q z hz⟩
      rintro rfl
      exact h.disjoint q port hq hz (hlist ▸ List.mem_cons_self)
    have hdisjoint : ∀ q, q ≠ port → (lists port).tail.Disjoint (lists q) := fun q hq z hz =>
      h.disjoint port q (Ne.symm hq) (List.mem_of_mem_tail hz)
    have hlast :
        (s.mem x).packet = ((lists port).head?.map fun x => (s.mem x).packet).getD .none := by
      rw [hlist]
      rfl
    rw [hlist] at hchain hnodup
    obtain ⟨hhead, hx, hprev, hrest⟩ := hchain
    rw [hhead, if_neg hx, if_neg (not_not_intro hxlive)]
    cases xs with
    | nil =>
      obtain ⟨htail, hnext⟩ := hrest
      change (s.mem x).next = 0 at hnext
      change (s.mem x).prev = 0 at hprev
      have hempty : (lists port).tail = [] := by rw [hlist]; rfl
      rw [if_pos htail, hprev, if_neg (not_not_intro rfl)]
      dsimp only [Option.bind_eq_bind, Option.bind_some]
      rw [hnext, if_neg (not_not_intro rfl)]
      refine ⟨_, _, rfl, ⟨hlast, h.update ?_ ?_ hdisjoint ?_ fun q hq =>
        ⟨Function.update_of_ne hq _ _, Function.update_of_ne hq _ _, fun z hz =>
          ⟨rfl, rfl, hothers q hq z hz⟩⟩, fun _ => rfl, rfl, rfl⟩⟩
      · rw [hempty]
        change Chain 0 s.prev s.next 0 (Function.update s.udpPackets port 0 port) []
          (Function.update s.udpListTail port 0 port) 0
        rw [Function.update_self, Function.update_self]
        exact ⟨rfl, rfl⟩
      · rw [hempty]
        exact List.nodup_nil
      · rw [hempty]
        exact fun z hz => absurd hz List.not_mem_nil
    | cons y ys =>
      have htailList : (lists port).tail = y :: ys := by rw [hlist]; rfl
      obtain ⟨hxnot, hynodup⟩ := List.nodup_cons.mp hnodup
      -- another packet is the last
      have htailMem : s.udpListTail port ∈ y :: ys := by
        rw [hrest.last, List.getLast?_eq_getLast_of_ne_nil (List.cons_ne_nil y ys)]
        exact List.getLast_mem _
      have hne : x ≠ s.udpListTail port := by
        rintro heq
        exact hxnot (heq ▸ htailMem)
      have hnext : (s.mem x).next = y := hrest.1
      have hy : y ≠ 0 := hrest.2.1
      have hymem : y ∈ lists port := hlist ▸ List.mem_cons_of_mem x List.mem_cons_self
      have hyx : y ≠ x := fun heq => hxnot (heq ▸ List.mem_cons_self)
      rw [if_neg hne]
      dsimp only [Option.bind_eq_bind, Option.bind_some]
      rw [hnext, if_pos hy]
      obtain ⟨s₂, hs₂, hprev₂, hnext₂, hsame⟩ := setPrev_spec
        (s := { s with udpPackets := Function.update s.udpPackets port y }) (h.live port y hymem) 0
      rw [hs₂]
      dsimp only [Option.bind_some]
      refine ⟨_, _, rfl,
        ⟨(hsame.packet x).trans hlast, h.update ?_ (htailList ▸ hynodup) hdisjoint ?_
        fun q hq => ⟨?_, ?_, fun z hz => ⟨?_, ?_, ?_⟩⟩, hsame.packet, hsame.readers,
          hsame.returned⟩⟩
      · obtain ⟨q, hstart⟩ := hrest.relink_start hynodup 0
        rw [if_neg (hrest.1.symm ▸ hy)] at hstart
        have hq : q = s.udpListTail port := by
          rw [hstart.last, hrest.last, List.getLast?_eq_getLast_of_ne_nil (List.cons_ne_nil y ys)]
          rfl
        change Chain 0 s₂.prev s₂.next 0 (s₂.udpPackets port) _ (s₂.udpListTail port) 0
        rw [hprev₂, hnext₂, hsame.udpPackets, hsame.udpListTail, htailList]
        change Chain 0 (Function.update s.prev y 0) s.next 0
          (Function.update s.udpPackets port y port)
          (y :: ys) (s.udpListTail port) 0
        rw [hq, hrest.1] at hstart
        rw [Function.update_self]
        exact hstart
      · intro z hz
        rw [htailList] at hz
        change z ∈ s₂.live.erase x
        rw [hsame.live]
        refine Finset.mem_erase.mpr ⟨?_, h.live port z (hlist ▸ List.mem_cons_of_mem x hz)⟩
        rintro rfl
        exact hxnot hz
      · exact (congrFun hsame.udpPackets q).trans (Function.update_of_ne hq _ _)
      · exact congrFun hsame.udpListTail q
      · have hzy : z ≠ y := by
          rintro rfl
          exact h.disjoint q port hq hz hymem
        exact (congrFun hprev₂ z).trans (Function.update_of_ne hzy _ _)
      · exact congrFun hnext₂ z
      · change z ∈ s₂.live.erase x
        rw [hsame.live]
        exact hothers q hq z hz

/-! ## Refinement -/

def stored (d : UdpDatagram) : UdpPacket :=
  ⟨d.srcPort.toNat, getIpStr d.srcIp, (d.payload ++ d.beyond).takeWhile (· ≠ 0), d.length.toNat⟩

inductive ReaderRefines : UdpReader UdpPacket → UdpReader (Option UdpDatagram) → Prop
  | idle : ReaderRefines .idle .idle
  | begun (port : ℤ) : ReaderRefines (.begun port) (.begun port)
  | taken (d : Option UdpDatagram) : ReaderRefines (.taken ((d.map stored).getD .none)) (.taken d)

structure Refines (s : UdpState) (f : UdpFifo) (lists : ℕ → List ℕ) : Prop where
  linked : s.Lists lists
  packets : ∀ port, ((lists port).map fun x => (s.mem x).packet) = (f.queues port).map stored
  ended : ∀ port, ∀ d ∈ f.queues port, 0 ∈ d.payload ++ d.beyond
  readers : ∀ ctx, ReaderRefines (s.readers ctx) (f.readers ctx)
  taken : ∀ ctx d, f.readers ctx = .taken (some d) → 0 ∈ d.payload ++ d.beyond

theorem readers_update {g : ℕ → UdpReader UdpPacket} {g' : ℕ → UdpReader (Option UdpDatagram)}
    (h : ∀ ctx, ReaderRefines (g ctx) (g' ctx)) {r : UdpReader UdpPacket}
    {r' : UdpReader (Option UdpDatagram)} (hr : ReaderRefines r r') (c ctx : ℕ) :
    ReaderRefines (Function.update g c r ctx) (Function.update g' c r' ctx) := by
  by_cases hc : ctx = c
  · rw [hc, Function.update_self, Function.update_self]
    exact hr
  · rw [Function.update_of_ne hc, Function.update_of_ne hc]
    exact h ctx

theorem Refines.init : Refines .init .init fun _ => [] where
  linked := ⟨fun _ => ⟨rfl, rfl⟩, fun _ => List.nodup_nil, fun _ _ _ _ hx =>
    absurd hx List.not_mem_nil,
    fun _ _ hx => absurd hx List.not_mem_nil⟩
  packets _ := rfl
  ended _ _ hd := absurd hd List.not_mem_nil
  readers _ := .idle
  taken _ _ h := by cases h

theorem Refines.deliver (h : Refines s f lists) (env : UdpEnv) {d : UdpDatagram}
    (hnul : 0 ∈ d.payload ++ d.beyond) :
    ∃ s' lists', s.step env (.deliver d) = some s' ∧ Refines s' (f.step (.deliver d)) lists' ∧
      s'.returned = s.returned := by
  obtain ⟨s', a, hs', henqueued⟩ := h.linked.enqueue env (stored d) d.dstPort.toNat
  have hstep : s.step env (.deliver d) = some s' := by
    change Option.bind (strdup (d.payload ++ d.beyond)) _ = _
    rw [show strdup (d.payload ++ d.beyond) = _ from if_pos (List.contains_iff_mem.mpr hnul)]
    exact hs'
  refine ⟨s', _, hstep, ⟨henqueued.lists, fun q => ?_, fun q e he => ?_, fun ctx => ?_, h.taken⟩,
    henqueued.returned⟩
  · have hold : ∀ q, (lists q).map (fun x => (s'.mem x).packet) = (f.queues q).map stored := by
      intro q
      rw [← h.packets q]
      exact List.map_congr_left fun x hx => henqueued.packet x (h.linked.live q x hx)
    change List.map _ _ = List.map stored (Function.update f.queues _ _ q)
    by_cases hq : q = d.dstPort.toNat
    · subst hq
      rw [Function.update_self, Function.update_self, List.map_append, List.map_append, hold,
        List.map_singleton, List.map_singleton, henqueued.new]
    · rw [Function.update_of_ne hq, Function.update_of_ne hq]
      exact hold q
  · change e ∈ Function.update f.queues _ _ q at he
    by_cases hq : q = d.dstPort.toNat
    · subst hq
      rw [Function.update_self] at he
      rcases List.mem_append.mp he with he | he
      · exact h.ended _ e he
      · rw [List.mem_singleton.mp he]
        exact hnul
    · rw [Function.update_of_ne hq] at he
      exact h.ended q e he
  · rw [henqueued.readers]
    exact h.readers ctx

theorem Refines.take (h : Refines s f lists) {ctx : ℕ} {port : ℤ} (hs : s.readers ctx = .begun port)
    (hf : f.readers ctx = .begun port) (hlow : 0 ≤ port) (hhigh : port ≤ 65535) (env : UdpEnv) :
    ∃ s' lists', s.step env (.take ctx) = some s' ∧ Refines s' (f.step (.take ctx)) lists' ∧
      s'.returned = s.returned := by
  obtain ⟨last, s', hs', hdequeued⟩ := h.linked.dequeue hlow hhigh
  have hstep : s.step env (.take ctx) =
      some { s' with readers := Function.update s'.readers ctx (.taken last) } := by
    unfold step
    dsimp only
    rw [hs]
    dsimp only
    rw [hs']
    rfl
  have hfstep : f.step (.take ctx) = { f with
      queues := Function.update f.queues port.toNat (f.queues port.toNat).tail
      readers := Function.update f.readers ctx (.taken (f.queues port.toNat).head?) } := by
    unfold UdpFifo.step
    dsimp only
    rw [hf]
    exact if_neg (by omega)
  have hpackets := h.packets port.toNat
  have hlast : last = ((f.queues port.toNat).head?.map stored).getD .none := by
    rw [hdequeued.last, ← List.head?_map, hpackets, List.head?_map]
  refine ⟨_, Function.update lists port.toNat (lists port.toNat).tail, hstep, ?_,
    hdequeued.returned⟩
  rw [hfstep]
  refine ⟨hdequeued.lists.setReaders _ _, fun q => ?_, fun q e he => ?_, fun c => ?_,
    fun c e he => ?_⟩
  · dsimp only
    have hsame : (fun x => (s'.mem x).packet) = fun x => (s.mem x).packet :=
      funext hdequeued.packet
    rw [hsame]
    by_cases hq : q = port.toNat
    · subst hq
      rw [Function.update_self, Function.update_self, List.map_tail, hpackets, List.map_tail]
    · rw [Function.update_of_ne hq, Function.update_of_ne hq]
      exact h.packets q
  · dsimp only at he
    by_cases hq : q = port.toNat
    · subst hq
      rw [Function.update_self] at he
      exact h.ended _ e (List.mem_of_mem_tail he)
    · rw [Function.update_of_ne hq] at he
      exact h.ended q e he
  · rw [hlast]
    change ReaderRefines (Function.update s'.readers ctx _ c) _
    rw [hdequeued.readers]
    exact readers_update h.readers (.taken _) ctx c
  · dsimp only at he
    by_cases hc : c = ctx
    · subst hc
      rw [Function.update_self] at he
      exact h.ended port.toNat e (List.mem_of_mem_head? (UdpReader.taken.inj he))
    · rw [Function.update_of_ne hc] at he
      exact h.taken c e he

theorem result_stored_iff {d : UdpDatagram} (hnul : 0 ∈ d.payload ++ d.beyond) (ctx : ℕ) :
    (stored d).result ctx = UdpFifo.result ctx (some d) ↔ Fits d := by
  have htext : (d.payload ++ d.beyond).takeWhile (· ≠ 0) = d.payload.takeWhile (· ≠ 0) ↔
      0 ∈ d.payload ∨ d.beyond.head? = some 0 := by
    by_cases hmem : 0 ∈ d.payload
    · refine ⟨fun _ => Or.inl hmem, fun _ => ?_⟩
      rw [List.takeWhile_append, if_neg]
      intro hlen
      have hall :=
        List.takeWhile_eq_self_iff.mp ((List.takeWhile_prefix _).eq_of_length hlen) 0 hmem
      exact absurd hall (by decide)
    · have hall : d.payload.takeWhile (· ≠ 0) = d.payload := by
        refine List.takeWhile_eq_self_iff.mpr fun x hx => decide_eq_true ?_
        rintro rfl
        exact hmem hx
      rw [List.takeWhile_append, hall, if_pos rfl, List.append_right_eq_self]
      rcases List.mem_append.mp hnul with h | h
      · exact absurd h hmem
      · cases hbeyond : d.beyond with
        | nil =>
          rw [hbeyond] at h
          cases h
        | cons b bs =>
          rw [List.takeWhile_cons]
          by_cases hb : b = 0
          · subst hb
            simp
          · rw [if_pos (decide_eq_true hb)]
            refine ⟨fun h => (List.cons_ne_nil _ _ h).elim, ?_⟩
            rintro (h | h)
            · exact absurd h hmem
            · exact absurd (Option.some.inj h) hb
  unfold Fits
  rw [← htext]
  unfold UdpPacket.result UdpFifo.result stored
  dsimp only
  rw [UdpReturn.mk.injEq]
  constructor
  · rintro ⟨-, hdata, hlen, -, -⟩
    exact ⟨hdata, hlen⟩
  · rintro ⟨hdata, hlen⟩
    exact ⟨rfl, hdata, hlen, rfl, rfl⟩

theorem Refines.step (h : Refines s f lists) (env : UdpEnv) {e : UdpEvent} (hfits : EventFits f e) :
    ∃ s' lists', s.step env e = some s' ∧ Refines s' (f.step e) lists' ∧
      (s.returned = f.returned → s'.returned = (f.step e).returned) := by
  cases e with
  | deliver d =>
    obtain ⟨s', lists', hstep, hrefines, hsame⟩ := h.deliver env hfits
    exact ⟨s', lists', hstep, hrefines, fun hreturned => hsame.trans hreturned⟩
  | begin ctx port =>
    have hreader := h.readers ctx
    unfold UdpState.step UdpFifo.step
    dsimp only
    generalize s.readers ctx = r at hreader
    generalize f.readers ctx = r' at hreader
    cases hreader with
    | idle =>
      refine ⟨_, lists, rfl, ⟨h.linked.setReaders _ _, h.packets, h.ended,
        readers_update h.readers (.begun port) ctx, fun c d hd => ?_⟩, id⟩
      by_cases hc : c = ctx
      · subst hc
        change Function.update f.readers c _ c = _ at hd
        rw [Function.update_self] at hd
        cases hd
      · change Function.update f.readers ctx _ c = _ at hd
        rw [Function.update_of_ne hc] at hd
        exact h.taken c d hd
    | begun port' => exact ⟨s, lists, rfl, h, id⟩
    | taken d => exact ⟨s, lists, rfl, h, id⟩
  | take ctx =>
    have hreader := h.readers ctx
    generalize hs : s.readers ctx = r at hreader
    generalize hf : f.readers ctx = r' at hreader
    cases hreader with
    | begun port =>
      obtain ⟨hlow, hhigh⟩ := hfits port hf
      obtain ⟨s', lists', hstep, hrefines, hsame⟩ := h.take hs hf hlow hhigh env
      refine ⟨s', lists', hstep, hrefines, fun hreturned => ?_⟩
      rw [hsame, hreturned]
      unfold UdpFifo.step
      dsimp only
      rw [hf]
      dsimp only
      split <;> rfl
    | idle =>
      unfold UdpState.step UdpFifo.step
      dsimp only
      rw [hs, hf]
      exact ⟨s, lists, rfl, h, id⟩
    | taken d =>
      unfold UdpState.step UdpFifo.step
      dsimp only
      rw [hs, hf]
      exact ⟨s, lists, rfl, h, id⟩
  | finish ctx =>
    have hreader := h.readers ctx
    unfold UdpState.step UdpFifo.step
    dsimp only
    generalize hs : s.readers ctx = r at hreader
    generalize hf : f.readers ctx = r' at hreader
    cases hreader with
    | taken d =>
      refine ⟨_, lists, rfl, ⟨h.linked.setReaders _ _, h.packets, h.ended,
        readers_update h.readers .idle ctx, fun c e he => ?_⟩, fun hreturned => ?_⟩
      · dsimp only at he
        by_cases hc : c = ctx
        · subst hc
          rw [Function.update_self] at he
          cases he
        · rw [Function.update_of_ne hc] at he
          exact h.taken c e he
      · dsimp only
        rw [hreturned]
        cases d with
        | none => rfl
        | some d =>
          have hresult := (result_stored_iff (h.taken ctx d hf) ctx).mpr (hfits d hf)
          exact congrArg (· :: f.returned) hresult
    | idle => exact ⟨s, lists, rfl, h, id⟩
    | begun port => exact ⟨s, lists, rfl, h, id⟩

theorem Refines.fits_of_step (h : Refines s f lists) (env : UdpEnv) {e : UdpEvent}
    (hstep : s.step env e = some s')
    (hafter : s'.returned = (f.step e).returned) : EventFits f e := by
  cases e with
  | deliver d =>
    change Option.bind (strdup (d.payload ++ d.beyond)) _ = _ at hstep
    by_contra hnul
    have hnone : strdup (d.payload ++ d.beyond) = none :=
      if_neg (mt List.contains_iff_mem.mp hnul)
    rw [hnone] at hstep
    cases hstep
  | begin ctx port => exact trivial
  | take ctx =>
    intro port hf
    have hreader := h.readers ctx
    unfold UdpState.step at hstep
    dsimp only at hstep
    rw [hf] at hreader
    generalize s.readers ctx = r at hreader hstep
    cases hreader with
    | begun port =>
      by_contra hout
      have hdequeue : s.dequeue port = none := if_pos (by omega)
      dsimp only at hstep
      rw [hdequeue] at hstep
      cases hstep
  | finish ctx =>
    intro d hf
    have hreader := h.readers ctx
    have hnul := h.taken ctx d hf
    unfold UdpState.step at hstep
    unfold UdpFifo.step at hafter
    dsimp only at hstep hafter
    rw [hf] at hreader hafter
    generalize s.readers ctx = r at hreader hstep
    cases hreader with
    | taken =>
      obtain rfl := Option.some.inj hstep
      dsimp only at hafter
      exact (result_stored_iff hnul ctx).mp (List.cons.inj hafter).1

/-! ## Runs -/

theorem Refines.serves (h : Refines s f lists) (port : ℕ) :
    ∃ xs, Chain 0 s.prev s.next 0 (s.udpPackets port) xs (s.udpListTail port) 0 ∧
      xs.length = (f.queues port).length := by
  refine ⟨lists port, h.linked.chain port, ?_⟩
  have hlen := congrArg List.length (h.packets port)
  rw [List.length_map, List.length_map] at hlen
  exact hlen

theorem after_refines {past : List UdpEvent}
    (hserves : ∀ earlier, earlier <:+ past → Serves env earlier) :
    ∃ s lists, after env past = some s ∧ Refines s (UdpFifo.after past) lists := by
  induction past with
  | nil => exact ⟨.init, _, rfl, Refines.init⟩
  | cons e past ih =>
    obtain ⟨s, lists, hs, hrefines⟩ :=
      ih fun earlier hsuffix => hserves earlier (hsuffix.trans (List.suffix_cons e past))
    obtain ⟨s', hs', hreturned', -⟩ := hserves (e :: past) List.suffix_rfl
    have hstep : s.step env e = some s' := by
      change Option.bind (after env past) _ = _ at hs'
      rw [hs] at hs'
      exact hs'
    obtain ⟨s'', lists', hstep', hrefines', -⟩ :=
      hrefines.step env (hrefines.fits_of_step env hstep hreturned')
    obtain rfl := Option.some.inj (hstep.symm.trans hstep')
    exact ⟨s', lists', hs', hrefines'⟩

/-- Every state of a run serves the programs right if and only if no event of it goes wrong. -/
theorem serves_iff (env : UdpEnv) (past : List UdpEvent) :
    (∀ earlier, earlier <:+ past → Serves env earlier) ↔
      ∀ e earlier, e :: earlier <:+ past → EventFits (UdpFifo.after earlier) e := by
  constructor
  · intro h e earlier hsuffix
    have hsuffix' := (List.suffix_cons e earlier).trans hsuffix
    obtain ⟨s, lists, hs, hrefines⟩ :=
      after_refines fun earlier' hearlier => h earlier' (hearlier.trans hsuffix')
    obtain ⟨s', hs', hreturned', -⟩ := h (e :: earlier) hsuffix
    change Option.bind (after env earlier) _ = _ at hs'
    rw [hs] at hs'
    exact hrefines.fits_of_step env hs' hreturned'
  · intro h earlier
    suffices hall : earlier <:+ past → ∃ s lists, after env earlier = some s ∧
        Refines s (UdpFifo.after earlier) lists ∧ s.returned = (UdpFifo.after earlier).returned by
      intro hsuffix
      obtain ⟨s, lists, hs, hrefines, hreturned⟩ := hall hsuffix
      exact ⟨s, hs, hreturned, hrefines.serves⟩
    induction earlier with
    | nil => exact fun _ => ⟨.init, _, rfl, Refines.init, rfl⟩
    | cons e earlier ih =>
      intro hsuffix
      obtain ⟨s, lists, hs, hrefines, hreturned⟩ := ih ((List.suffix_cons e earlier).trans hsuffix)
      obtain ⟨s', lists', hstep, hrefines', hkeeps⟩ := hrefines.step env (h e earlier hsuffix)
      refine ⟨s', lists', ?_, hrefines', hkeeps hreturned⟩
      change Option.bind (after env earlier) _ = _
      rw [hs]
      exact hstep

def risingEnv : UdpEnv where
  malloc live := live.sup id + 1
  fresh := succ_sup_not_mem
  ne_zero _ := Nat.succ_ne_zero _

def greeting : UdpDatagram where
  srcIp := ⟨10, 0, 2, 2⟩
  srcPort := 9
  dstPort := 7
  length := 10
  payload := [0x48, 0x69]
  beyond := [0]

/-- The length that is reported for it is 10. -/
theorem not_serves_greeting :
    ¬ Serves risingEnv [.finish 0, .take 0, .begin 0 7, .deliver greeting] := by
  rintro ⟨s, hs, hreturned, -⟩
  have hout : (after risingEnv [.finish 0, .take 0, .begin 0 7, .deliver greeting]).map
      (fun s => s.returned.map UdpReturn.outLen) = some [10] := rfl
  rw [hs] at hout
  have hlen : s.returned.map UdpReturn.outLen = [10] := Option.some.inj hout
  rw [hreturned] at hlen
  revert hlen
  decide

end UdpState

end RetroRocket
