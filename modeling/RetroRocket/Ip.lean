import RetroRocket.Bits

/-!
# Inbound packets: Ethernet, IP and UDP

`ethernet_handle_packet`, `ip_handle_packet` and `udp_handle_packet`, with the table of fragments. A
packet is the memory from its first byte on, whatever lies behind its end included. What is done
with the packet is recorded as a list of calls, each with the memory its pointer goes into. The
table of fragments is a map by its key, `ip_frag_hash` and `ip_frag_compare` looking at the `id`
only.

`ip_frag_gc`, the entropy pool and the messages for the console are left out.
-/

namespace RetroRocket

def flipByte (byte : Byte) (numBits : ℕ) : Byte :=
  (byte <<< (8 - numBits)) ||| (byte >>> numBits)

def ntohb (byte : Byte) (numBits : ℕ) : Byte := flipByte byte (8 - numBits)

/-- `ntohs` of the 16-bit field at `off`. -/
def be16 (p : Buffer) (off : ℕ) : ℕ := 2 ^ 8 * (p off).toNat + (p (off + 1)).toNat

/-- `ntohl` of the 32-bit field at `off`. -/
def be32 (p : Buffer) (off : ℕ) : ℕ := 2 ^ 16 * be16 p off + be16 p (off + 2)

/-! ## The header -/

namespace IpPacket

/-- The two fields that `ip_handle_packet` converts in place. -/
def convert (p : Buffer) : Buffer :=
  fun i => if i = 0 then ntohb (p 0) 4 else if i = 6 then ntohb (p 6) 3 else p i

def version (p : Buffer) : ℕ := (p 0).toNat % 2 ^ 4

def ihl (p : Buffer) : ℕ := (p 0).toNat / 2 ^ 4

/-- `ntohs(packet->length)`. -/
def length (p : Buffer) : ℕ := be16 p 2

def id (p : Buffer) : ℕ := 2 ^ 8 * (p 5).toNat + (p 4).toNat

def dontFragment (p : Buffer) : Bool := (p 6).getLsbD 1

def moreFragmentsFollow (p : Buffer) : Bool := (p 6).getLsbD 2

/-- `fragment_offset_low` with `fragment_offset_high` above it. -/
def fragOffset (p : Buffer) : ℕ := (p 7).toNat + 2 ^ 8 * ((p 6).toNat / 2 ^ 3)

theorem fragOffset_lt (p : Buffer) : fragOffset p < 2 ^ 13 := by
  have hlow := (p 7).isLt
  have hhigh := (p 6).isLt
  unfold fragOffset
  omega

def protocol (p : Buffer) : ℕ := (p 9).toNat

def srcIp (p : Buffer) : ℕ := be32 p 12

/-- `data_len`, an `int` stored in a `size_t`. -/
def dataLen (p : Buffer) : ℕ := sub64 (length p) (4 * ihl p)

/-- `ip_calculate_checksum`: the first ten words, whatever the length of the header. -/
def calculateChecksum (p : Buffer) : ℕ :=
  let sum := ((List.range 10).map fun i => be16 p (2 * i)).sum
  let carry := sum / 2 ^ 16
  let sum := sum % 2 ^ 16 + carry
  u16 (2 ^ 32 - 1 - sum)

def checksumOk (p : Buffer) : Bool :=
  be16 p 10 = calculateChecksum fun i => if i = 10 ∨ i = 11 then 0 else p i

end IpPacket

open IpPacket

/-! ## Fragments -/

/-- `ip_packet_frag_t`, with the number of bytes allocated for its packet. -/
structure IpFrag where
  offset : ℕ
  packet : Buffer
  size : ℕ
  offset_lt : offset < 2 ^ 32

/-- `ip_fragmented_packet_parts_t`. -/
structure IpParts where
  id : ℕ
  size : ℕ
  orderedList : List IpFrag
  lastSeenTicks : ℕ

def fragListInsert (insert : IpFrag) : List IpFrag → List IpFrag
  | [] => [insert]
  | tmp :: list =>
    if insert.offset ≤ tmp.offset then insert :: tmp :: list
    else tmp :: fragListInsert insert list

structure IpKmalloc where
  fragment : Bool
  packet : Option Buffer
  data : Option Buffer
  hashmapSet : Bool
  ticks : ℕ

def IpFrag.copy (alloc p : Buffer) : IpFrag where
  offset := fragOffset p
  packet := fun i => if i < length p then p i else alloc i
  size := length p
  offset_lt := (fragOffset_lt p).trans (by decide)

namespace IpParts

def seen (parts : IpParts) (ticks : ℕ) : IpParts := { parts with lastSeenTicks := ticks }

def grow (parts : IpParts) (p : Buffer) : IpParts :=
  { parts with size := u32 (parts.size + dataLen p) }

def insert (parts : IpParts) (frag : IpFrag) : IpParts :=
  { parts with orderedList := fragListInsert frag parts.orderedList }

def add (parts : IpParts) (k : IpKmalloc) (p : Buffer) : IpParts × Bool :=
  if k.fragment then
    match k.packet with
    | some alloc => ((((parts.seen k.ticks).grow p).insert (.copy alloc p)), true)
    | none => ((parts.seen k.ticks).grow p, false)
  else (parts.seen k.ticks, false)

end IpParts

/-! ## Calls -/

inductive IpMemory where
  | frame
  | payload (size : ℕ)

inductive IpCall where
  /-- `memcpy(fragment->packet, packet, ntohs(packet->length))`. -/
  | copyPacket (p : Buffer)
  /-- `len` bytes of a stored packet from `src` on, to `dst` in a payload of `size` bytes. -/
  | copyPart (frag : IpFrag) (src dst len size : ℕ)
  | handler (p : Buffer) (mem : IpMemory) (off : ℕ) (data : Buffer) (len : ℕ)
  /-- The function of a daemon, for a datagram of `datagram` bytes. -/
  | daemon (srcIp srcPort dstPort : ℕ) (mem : IpMemory) (off len datagram : ℕ)
  | unreachable

/-- The registered protocols, the error handler, and the ports with a daemon. `daemons` has no entry
for port 65535: there it is whether the memory behind the table is zero. -/
structure IpHandlers where
  registered : ℕ → Bool
  error : Bool
  daemons : ℕ → Bool

/-- `frag_map`. -/
structure IpState where
  fragMap : ℕ → Option IpParts

namespace IpState

def set (s : IpState) (key : ℕ) (parts : Option IpParts) : IpState :=
  ⟨fun id => if id = key then parts else s.fragMap id⟩

end IpState

/-- The `id` that a zeroed `ip_packet_t` has where the table looks for it, in its first two
bytes. -/
def lookupKey : ℕ := 0

def udpProtocol : ℕ := 17

/-- `sizeof(udp_packet_t)`. -/
def udpHeader : ℕ := 8

/-- `udp_handle_packet`, for a datagram at `off`. -/
def udpHandlePacket (h : IpHandlers) (p : Buffer) (mem : IpMemory) (off : ℕ) (packet : Buffer)
    (len : ℕ) : List IpCall :=
  let srcPort := be16 packet 0
  let dstPort := be16 packet 2
  let length := be16 packet 4
  if h.daemons dstPort then
    [.daemon (srcIp p) srcPort dstPort mem (off + udpHeader) length len]
  else []

/-- The end of `ip_handle_packet`. -/
def routeToHandler (h : IpHandlers) (p : Buffer) (mem : IpMemory) (off : ℕ) (data : Buffer)
    (len : ℕ) : List IpCall :=
  if h.registered (protocol p) then
    .handler p mem off data len ::
      if protocol p = udpProtocol then udpHandlePacket h p mem off data len else []
  else if h.error then [.unreachable] else []

/-! ## The packet handlers -/

namespace IpState

def firstFragment (k : IpKmalloc) (s : IpState) (p : Buffer) : IpState × List IpCall :=
  if k.fragment then
    match k.packet with
    | some alloc =>
      let fragmented : IpParts := ⟨id p, u32 (dataLen p), [.copy alloc p], k.ticks⟩
      (if k.hashmapSet then s.set (id p) (some fragmented) else s, [.copyPacket p])
    | none => (s, [])
  else (s, [])

def middleFragment (k : IpKmalloc) (s : IpState) (p : Buffer) : IpState × List IpCall :=
  match s.fragMap lookupKey with
  | none => (s, [])
  | some fragmented =>
    let (fragmented, stored) := fragmented.add k p
    (s.set lookupKey (some fragmented), if stored then [.copyPacket p] else [])

def gather (dataLen : ℕ) : List IpFrag → Buffer → Buffer × List IpCall
  | [], data => (data, [])
  | cur :: next, data =>
    let thisPacketSize := IpPacket.dataLen cur.packet
    if u64 (cur.offset + thisPacketSize) ≤ dataLen then
      let copyFrom := 4 * ihl cur.packet
      let copied : Buffer := fun i =>
        if cur.offset ≤ i ∧ i < cur.offset + thisPacketSize then
          cur.packet (copyFrom + (i - cur.offset))
        else data i
      ((gather dataLen next copied).1,
        .copyPart cur copyFrom cur.offset thisPacketSize dataLen :: (gather dataLen next copied).2)
    else gather dataLen next data

def lastFragment (h : IpHandlers) (k : IpKmalloc) (s : IpState) (p : Buffer) :
    IpState × List IpCall :=
  match s.fragMap lookupKey with
  | none => (s, [])
  | some fragmented =>
    let (fragmented, stored) := fragmented.add k p
    if stored then
      match k.data with
      | none => (s.set lookupKey (some fragmented), [.copyPacket p])
      | some data =>
        let gathered := gather fragmented.size fragmented.orderedList data
        (s.set lookupKey none, .copyPacket p :: (gathered.2 ++
          routeToHandler h p (.payload fragmented.size) 0 gathered.1 fragmented.size))
    else (s.set lookupKey (some fragmented), [])

/-- The body of `ip_handle_packet`, once the packet is converted and of version 4. -/
def handleConverted (h : IpHandlers) (k : IpKmalloc) (s : IpState) (p : Buffer) :
    IpState × List IpCall :=
  if ¬ dontFragment p ∧ moreFragmentsFollow p then
    if fragOffset p = 0 then firstFragment k s p else middleFragment k s p
  else if ¬ dontFragment p ∧ fragOffset p ≠ 0 then lastFragment h k s p
  else
    (s, routeToHandler h p .frame (4 * ihl p) (fun i => p (4 * ihl p + i)) (dataLen p))

/-- `ip_handle_packet`. Its second argument, the length of the packet, is not used. -/
def ipHandlePacket (h : IpHandlers) (k : IpKmalloc) (s : IpState) (packet : Buffer) (_nLen : ℕ) :
    IpState × List IpCall :=
  if checksumOk packet ∧ version (convert packet) = 4 then
    handleConverted h k s (convert packet)
  else (s, [])

/-- `sizeof(ethernet_frame_t)`. -/
def ethernetHeader : ℕ := 14

def ethernetMaxFrame : ℕ := 65536 - ethernetHeader

def ethernetTypeIp : ℕ := 0x0800

/-- `ethernet_handle_packet`, with the handlers of other types doing nothing here. -/
def ethernetHandlePacket (h : IpHandlers) (k : IpKmalloc) (s : IpState) (frame : Buffer) (len : ℕ) :
    IpState × List IpCall :=
  if len < ethernetHeader ∨ ethernetMaxFrame < len then (s, [])
  else if be16 frame 12 = ethernetTypeIp then
    ipHandlePacket h k s (fun i => frame (ethernetHeader + i)) (len - ethernetHeader)
  else (s, [])

end IpState

end RetroRocket
