import Mathlib.Data.Finset.Insert
import RetroRocket.Bits
import RetroRocket.DoublyLinked

/-!
# The datagrams of BASIC programs

`udp_handle_packet` with `basic_udp_handle_packet`, and `basic_udpread` in three steps: up to the
lock, under it, and behind it. The queues are doubly linked lists of packets on the heap, one for
each port, and an access to a packet that is not allocated or to a port outside the arrays is
`none`. What was returned is recorded, the last of it first. Allocations succeed, and strings are
values.

Behind it is what the queues are for: a queue of datagrams for each port.
-/

namespace RetroRocket

structure IpBytes where
  b0 : Byte
  b1 : Byte
  b2 : Byte
  b3 : Byte
  deriving DecidableEq

/-- A datagram as it is received: the fields of its headers, its payload and the memory behind
it. -/
structure UdpDatagram where
  srcIp : IpBytes
  srcPort : BitVec 16
  dstPort : BitVec 16
  length : BitVec 16
  payload : List Byte
  beyond : List Byte

/-- `queued_udp_packet` without its links. -/
structure UdpPacket where
  sourcePort : ℕ
  ip : String
  data : List Byte
  length : ℕ
  deriving DecidableEq

structure QueuedUdpPacket where
  packet : UdpPacket
  prev : ℕ
  next : ℕ

/-- What a call of `UDPREAD$` returns to a program, with the source that can be asked for behind
it. -/
structure UdpReturn where
  ctx : ℕ
  data : List Byte
  outLen : ℕ
  ip : String
  sourcePort : ℕ
  deriving DecidableEq

/-- Where a program is in `basic_udpread`, with what is in `last_packet`. -/
inductive UdpReader (α : Type)
  | idle
  | begun (port : ℤ)
  | taken (last : α)

/-- What happens: a datagram arrives, or a program goes on in `basic_udpread`. -/
inductive UdpEvent
  | deliver (d : UdpDatagram)
  | begin (ctx : ℕ) (port : ℤ)
  | take (ctx : ℕ)
  | finish (ctx : ℕ)

/-- What `buddy_malloc` returns. -/
structure UdpEnv where
  malloc : Finset ℕ → ℕ
  fresh : ∀ live, malloc live ∉ live
  ne_zero : ∀ live, malloc live ≠ 0

/-- `udp_packets` and `udp_list_tail` with the packets. -/
structure UdpState where
  mem : ℕ → QueuedUdpPacket
  live : Finset ℕ
  udpPackets : ℕ → ℕ
  udpListTail : ℕ → ℕ
  readers : ℕ → UdpReader UdpPacket
  returned : List UdpReturn

/-- What `basic_udpread` puts into `last_packet` when there is no packet. -/
def UdpPacket.none : UdpPacket := ⟨0, "0.0.0.0", [], 0⟩

/-- What is returned for what is in `last_packet`. -/
def UdpPacket.result (last : UdpPacket) (ctx : ℕ) : UdpReturn :=
  ⟨ctx, last.data, last.length, last.ip, last.sourcePort⟩

namespace UdpState

def ntohl (n : IpBytes) : IpBytes := ⟨n.b3, n.b2, n.b1, n.b0⟩

def getIpStr (ip : IpBytes) : String :=
  toString ip.b0.toNat ++ "." ++ toString ip.b1.toNat ++ "." ++ toString ip.b2.toNat ++ "." ++
    toString ip.b3.toNat

/-- `buddy_strdup`: the bytes before the first 0, if there is one in the memory that can be read. -/
def strdup (s : List Byte) : Option (List Byte) :=
  if s.contains 0 then some (s.takeWhile (· ≠ 0)) else none

def init : UdpState :=
  ⟨fun _ => ⟨.none, 0, 0⟩, ∅, fun _ => 0, fun _ => 0, fun _ => .idle, []⟩

/-- `a->next = n`. -/
def setNext (s : UdpState) (a n : ℕ) : Option UdpState :=
  if a ∈ s.live then some { s with mem := Function.update s.mem a { s.mem a with next := n } } else
    none

/-- `a->prev = n`. -/
def setPrev (s : UdpState) (a n : ℕ) : Option UdpState :=
  if a ∈ s.live then some { s with mem := Function.update s.mem a { s.mem a with prev := n } } else
    none

def fill (s : UdpState) (a : ℕ) (packet : QueuedUdpPacket) : UdpState :=
  { s with live := insert a s.live, mem := Function.update s.mem a packet }

/-- What `basic_udp_handle_packet` does under the lock. -/
def enqueue (env : UdpEnv) (s : UdpState) (packet : UdpPacket) (port : ℕ) : Option UdpState :=
  let a := env.malloc s.live
  let s := s.fill a ⟨packet, s.udpListTail port, 0⟩
  if s.udpListTail port = 0 then
    some { s with
      udpListTail := Function.update s.udpListTail port a
      udpPackets := Function.update s.udpPackets port a }
  else do
    let s ← s.setNext (s.udpListTail port) a
    some { s with udpListTail := Function.update s.udpListTail port a }

def basicUdpHandlePacket (env : UdpEnv) (s : UdpState) (srcIp : IpBytes) (srcPort dstPort : ℕ)
    (data : List Byte) (length : ℕ) : Option UdpState := do
  let data ← strdup data
  s.enqueue env ⟨srcPort, getIpStr (ntohl srcIp), data, length⟩ dstPort

/-- `udp_handle_packet`, for a port that a program is bound to. -/
def udpHandlePacket (env : UdpEnv) (s : UdpState) (d : UdpDatagram) : Option UdpState :=
  s.basicUdpHandlePacket env (ntohl d.srcIp) d.srcPort.toNat d.dstPort.toNat (d.payload ++ d.beyond)
    d.length.toNat

/-- What `basic_udpread` does under the lock: the packet that goes into `last_packet`. -/
def dequeue (s : UdpState) (port : ℤ) : Option (UdpPacket × UdpState) :=
  if port < 0 ∨ 65535 < port then none
  else
    let port := port.toNat
    let queue := s.udpPackets port
    if queue = 0 then some (.none, s)
    else if queue ∉ s.live then none
    else do
      let s ←
        if queue = s.udpListTail port then
          let tail := (s.mem queue).prev
          let s := { s with udpListTail := Function.update s.udpListTail port tail }
          if tail ≠ 0 then s.setNext tail 0 else some s
        else some s
      let head := (s.mem queue).next
      let s := { s with udpPackets := Function.update s.udpPackets port head }
      let s ← if head ≠ 0 then s.setPrev head 0 else some s
      some ((s.mem queue).packet, { s with live := s.live.erase queue })

def step (env : UdpEnv) (s : UdpState) : UdpEvent → Option UdpState
  | .deliver d => s.udpHandlePacket env d
  | .begin ctx port =>
    match s.readers ctx with
    | .idle => some { s with readers := Function.update s.readers ctx (.begun port) }
    | _ => some s
  | .take ctx =>
    match s.readers ctx with
    | .begun port => do
      let (last, s) ← s.dequeue port
      some { s with readers := Function.update s.readers ctx (.taken last) }
    | _ => some s
  | .finish ctx =>
    match s.readers ctx with
    | .taken last =>
      some { s with
        readers := Function.update s.readers ctx .idle
        returned := last.result ctx :: s.returned }
    | _ => some s

def after (env : UdpEnv) : List UdpEvent → Option UdpState
  | [] => some init
  | e :: past => do
    let s ← after env past
    s.step env e

end UdpState

/-! ## Queues of datagrams -/

structure UdpFifo where
  queues : ℕ → List UdpDatagram
  readers : ℕ → UdpReader (Option UdpDatagram)
  returned : List UdpReturn

namespace UdpFifo

def init : UdpFifo := ⟨fun _ => [], fun _ => .idle, []⟩

def result (ctx : ℕ) : Option UdpDatagram → UdpReturn
  | none => UdpPacket.none.result ctx
  | some d =>
    let text := d.payload.takeWhile (· ≠ 0)
    ⟨ctx, text, text.length, UdpState.getIpStr d.srcIp, d.srcPort.toNat⟩

def step (f : UdpFifo) : UdpEvent → UdpFifo
  | .deliver d =>
    { f with
      queues := Function.update f.queues d.dstPort.toNat (f.queues d.dstPort.toNat ++ [d]) }
  | .begin ctx port =>
    match f.readers ctx with
    | .idle => { f with readers := Function.update f.readers ctx (.begun port) }
    | _ => f
  | .take ctx =>
    match f.readers ctx with
    | .begun port =>
      if port < 0 ∨ 65535 < port then
        { f with readers := Function.update f.readers ctx (.taken none) }
      else
        { f with
          queues := Function.update f.queues port.toNat (f.queues port.toNat).tail
          readers := Function.update f.readers ctx (.taken (f.queues port.toNat).head?) }
    | _ => f
  | .finish ctx =>
    match f.readers ctx with
    | .taken d =>
      { f with
        readers := Function.update f.readers ctx .idle
        returned := result ctx d :: f.returned }
    | _ => f

def after : List UdpEvent → UdpFifo
  | [] => init
  | e :: past => (after past).step e

end UdpFifo

end RetroRocket
