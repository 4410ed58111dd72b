import Mathlib.Data.Finset.Card
import RetroRocket.Bits
import RetroRocket.LinkedList

/-!
# Packets that wait for ARP

`ip_send_packet`, `queue_packet`, `ip_idle` and `dequeue_packet` of `ip.c`, with `arp_lookup` and
the table that `arp_handle_packet` fills. Addresses are the 32 bits of their four bytes in memory.
The queue is a list of items on the heap, and an access to an item that is not allocated is `none`,
as is a walk that does not end. What was queued, handed to the Ethernet driver, dropped and asked
for is recorded. The number of a packet is the count of the calls before it, of which its header has
the low 16 bits.

A packet to a loopback address goes to `ip_handle_packet` and never to the queue.
-/

namespace RetroRocket

/-! ## ARP -/

structure ArpEntry where
  ipAddr : BitVec 32
  macAddr : BitVec 48
  deriving DecidableEq

/-- `arp_table` with `arp_table_curr`. -/
structure ArpTable where
  entries : ℕ → ArpEntry
  curr : ℕ

/-- `arp_lookup`. -/
def ArpTable.lookup (t : ArpTable) (ipAddr : BitVec 32) : Option (BitVec 48) :=
  if ipAddr = 0xffffffff then some 0xffffffffffff
  else ((List.range 512).find? fun i => (t.entries i).ipAddr = ipAddr).map
    fun i => (t.entries i).macAddr

/-- What `arp_handle_packet` does to the table, for the sender of the packet. -/
def ArpTable.handlePacket (t : ArpTable) (ipAddr : BitVec 32) (macAddr : BitVec 48) : ArpTable :=
  if (t.lookup ipAddr).isSome then t
  else
    { entries := Function.update t.entries t.curr ⟨ipAddr, macAddr⟩
      curr := if 512 ≤ t.curr + 1 then 0 else t.curr + 1 }

/-- The table after `arp_init`: the entry for the broadcast address is the next to be written. -/
def ArpTable.init : ArpTable where
  entries := fun i => if i = 0 then ⟨0xffffffff, 0xffffffffffff⟩ else ⟨0, 0⟩
  curr := 0

/-! ## The queue -/

structure IpConfig where
  netmask : BitVec 32
  gateway : BitVec 32
  hostAddr : BitVec 32

/-- `ip_packet_t`, the fields that matter here. -/
structure QueuedPacket where
  number : ℕ
  srcIp : BitVec 32
  dstIp : BitVec 32
  protocol : ℕ
  data : List Byte
  deriving DecidableEq

/-- `packet_queue_item_t`. -/
structure PacketQueueItem where
  packet : QueuedPacket
  arpTries : ℕ
  lastArp : ℤ
  next : ℕ

structure PacketQueue where
  mem : ℕ → PacketQueueItem
  live : Finset ℕ
  packetQueue : ℕ
  packetQueueEnd : ℕ

/-- What `kmalloc` answers while the items in `live` are allocated. -/
structure ItemAllocator where
  alloc : Finset ℕ → Option ℕ
  fresh : ∀ live a, alloc live = some a → a ≠ 0 ∧ a ∉ live

namespace PacketQueue

def store (q : PacketQueue) (a : ℕ) (item : PacketQueueItem) : PacketQueue :=
  { q with mem := Function.update q.mem a item }

def setNext (q : PacketQueue) (a next : ℕ) : PacketQueue := q.store a { q.mem a with next := next }

def free (q : PacketQueue) (a : ℕ) : PacketQueue := { q with live := q.live.erase a }

/-- `queue_packet`: the queue, and whether the packet is in it. -/
def queuePacket (q : PacketQueue) (k : ItemAllocator) (packet : QueuedPacket) (ticks : ℤ) :
    Option (PacketQueue × Bool) :=
  if q.packetQueue = 0 then
    match k.alloc q.live with
    | none => some (q, false)
    | some a =>
      some ({ (q.store a ⟨packet, 0, ticks, 0⟩) with
        live := insert a q.live
        packetQueue := a
        packetQueueEnd := a }, true)
  else if q.packetQueueEnd ∉ q.live then none
  else
    match k.alloc q.live with
    | none => some (q.setNext q.packetQueueEnd 0, false)
    | some a =>
      some ({ ((q.setNext q.packetQueueEnd a).store a ⟨packet, 0, ticks, 0⟩) with
        live := insert a q.live
        packetQueueEnd := a }, true)

def dequeuePacket (q : PacketQueue) (cur last : ℕ) : Option PacketQueue :=
  if cur ∉ q.live then none
  else if cur = q.packetQueue then
    let next := (q.mem cur).next
    some ({ q with
      packetQueue := next
      packetQueueEnd := if next = 0 then 0 else q.packetQueueEnd }.free cur)
  else if last ∉ q.live then none
  else if cur = q.packetQueueEnd then
    let q := { q with packetQueueEnd := last }.setNext last 0
    let q := if last = q.packetQueue then { q with packetQueueEnd := q.packetQueue } else q
    some (q.free cur)
  else some ((q.setNext last (q.mem cur).next).free cur)

end PacketQueue

/-! ## Sending -/

/-- The IP layer: its queue, the ARP table, `last_id`, and what happened so far. -/
structure IpSender where
  queue : PacketQueue
  arp : ArpTable
  lastId : ℕ
  queued : List QueuedPacket
  frames : List (QueuedPacket × BitVec 48)
  dropped : List PacketQueueItem
  requests : List (BitVec 32)

/-- `ip_is_loopback`, which looks at the last byte. -/
def ipIsLoopback (ip : BitVec 32) : Bool := ip.extractLsb' 24 8 = 127

def loopbackAddr : BitVec 32 := 0x0100007f

/-- The test of `ip_idle`. -/
def IpConfig.isLocal (cfg : IpConfig) (packet : QueuedPacket) : Bool :=
  cfg.gateway = 0 ∨ packet.dstIp &&& cfg.netmask = packet.srcIp &&& cfg.netmask

def IpConfig.arpDest (cfg : IpConfig) (packet : QueuedPacket) : BitVec 32 :=
  if cfg.isLocal packet then packet.dstIp else cfg.gateway

/-- What `kmalloc` and the clock return while a packet is sent. -/
structure SendEnv where
  copied : Bool
  alloc : ItemAllocator
  ticks : ℤ

namespace IpSender

def queueFor (s : IpSender) (env : SendEnv) (packet : QueuedPacket) (dest : BitVec 32) :
    Option IpSender :=
  if env.copied then do
    let (queue, stored) ← s.queue.queuePacket env.alloc packet env.ticks
    some { s with
      queue := queue
      queued := if stored then s.queued ++ [packet] else s.queued
      requests := s.requests ++ [dest] }
  else some { s with requests := s.requests ++ [dest] }

/-- The end of `ip_send_packet`: the packet goes out if the address is in the table. -/
def sendTo (s : IpSender) (env : SendEnv) (packet : QueuedPacket) (dest : BitVec 32) :
    Option IpSender :=
  match s.arp.lookup dest with
  | none => s.queueFor env packet dest
  | some mac => some { s with frames := s.frames ++ [(packet, mac)] }

def ipSendPacket (cfg : IpConfig) (env : SendEnv) (dstIp : BitVec 32) (data : List Byte)
    (protocol : ℕ) (s : IpSender) : Option IpSender :=
  let srcIp := if ipIsLoopback dstIp then loopbackAddr else cfg.hostAddr
  let packet : QueuedPacket := ⟨s.lastId, srcIp, dstIp, protocol, data⟩
  let s := { s with lastId := s.lastId + 1 }
  if ipIsLoopback dstIp then some s
  else if cfg.netmask ≠ 0 ∧ cfg.hostAddr ≠ 0 ∧ dstIp ≠ 0 ∧
      cfg.hostAddr &&& cfg.netmask ≠ dstIp &&& cfg.netmask then
    s.sendTo env packet cfg.gateway
  else s.sendTo env packet dstIp

/-- The loop of `ip_idle` from the item `cur` on, behind the item `last`. -/
def idleLoop (cfg : IpConfig) (currentTime : ℤ) : ℕ → ℕ → ℕ → IpSender → Option IpSender
  | 0, _, _, _ => none
  | fuel + 1, cur, last, s =>
    if cur = 0 then some s
    else if cur ∉ s.queue.live then none
    else
      let item := s.queue.mem cur
      let next := item.next
      let isLocal := cfg.isLocal item.packet
      let arpDest := cfg.arpDest item.packet
      match s.arp.lookup arpDest with
      | some mac => do
        let queue ← s.queue.dequeuePacket cur last
        idleLoop cfg currentTime fuel next last
          { s with queue := queue, frames := s.frames ++ [(item.packet, mac)] }
      | none =>
        if isLocal ∧ item.arpTries < 2 ∧ currentTime - item.lastArp > 10 then
          let item := { item with arpTries := item.arpTries + 1, lastArp := currentTime }
          idleLoop cfg currentTime fuel next cur
            { s with queue := s.queue.store cur item, requests := s.requests ++ [arpDest] }
        else if item.arpTries = 3 ∧ currentTime - item.lastArp ≥ 100 then do
          let queue ← s.queue.dequeuePacket cur last
          idleLoop cfg currentTime fuel next last
            { s with queue := queue, dropped := s.dropped ++ [item] }
        else idleLoop cfg currentTime fuel next cur s

def ipIdle (cfg : IpConfig) (currentTime : ℤ) (s : IpSender) : Option IpSender :=
  if s.queue.packetQueue = 0 then some s
  else idleLoop cfg currentTime (s.queue.live.card + 1) s.queue.packetQueue 0 s

end IpSender

end RetroRocket
