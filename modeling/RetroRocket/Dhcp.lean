import RetroRocket.Bits

/-!
# The DHCP client

The functions of `dhcp.c`, with the setters of `ip.c` that they call. A packet is given by the
fields that are read, its option bytes with whatever lies behind them in memory; `kmalloc` says for
each type of option what the allocation of its copy returns. Requests are recorded when they are
handed to `udp_send_packet`, without the options written into them; one that could not be built has
length 0. The printing of addresses is left out.
-/

namespace RetroRocket

def load32 (b : Buffer) : ℕ :=
  (b 0).toNat + 2 ^ 8 * (b 1).toNat + 2 ^ 16 * (b 2).toNat + 2 ^ 24 * (b 3).toNat

/-- `ntohl` after a 32-bit load. -/
def loadNtohl (b : Buffer) : ℕ :=
  (b 3).toNat + 2 ^ 8 * (b 2).toNat + 2 ^ 16 * (b 1).toNat + 2 ^ 24 * (b 0).toNat

/-- `dhcp_packet_t`. -/
structure DhcpPacket where
  op : ℕ
  xid : ℕ
  yourIp : ℕ
  clientHardwareAddr : List Byte
  options : Buffer

namespace Dhcp

/-- `DHCP_REPLY`. -/
def reply : ℕ := 2

def discoverType : ℕ := 1
def offerType : ℕ := 2
def requestType : ℕ := 3
def ackType : ℕ := 5
def nakType : ℕ := 6

def optSubnet : ℕ := 1
def optGateway : ℕ := 3
def optDns : ℕ := 6
def optLeaseTime : ℕ := 51
def optType : ℕ := 53
def optServerIp : ℕ := 54
def optEnd : ℕ := 255

/-- `sizeof(packet->options)`. -/
def optionsSize : ℕ := 128

/-- The loop of `get_dhcp_options`, from the option at `pos`: where an option of this type
starts. -/
def findOption (options : Buffer) (type : ℕ) : ℕ → ℕ → ℕ → Option ℕ
  | 0, _, _ => none
  | fuel + 1, currType, pos =>
    if currType ≠ optEnd ∧ pos < optionsSize then
      let currType := (options pos).toNat
      if currType = optEnd then none
      else if currType = type then some pos
      else findOption options type fuel currType (pos + (2 + (options (pos + 1)).toNat))
    else none

/-- `get_dhcp_options`: the copy of an option, in what `kmalloc` returns. -/
def getDhcpOptions (p : DhcpPacket) (kmalloc : ℕ → Option Buffer) (type : ℕ) : Option Buffer := do
  let pos ← findOption p.options type optionsSize (p.options 4).toNat 4
  let ret ← kmalloc type
  some fun i => if i < (p.options (pos + 1)).toNat then p.options (pos + 2 + i) else ret i

end Dhcp

structure DhcpRequest where
  type : ℕ
  xid : ℕ
  clientIp : ℕ
  yourIp : ℕ
  serverIp : ℕ
  deriving DecidableEq

/-- What the client has handed to the network: to this address this packet, if it could be built. -/
inductive DhcpSent where
  | udp (dst : ℕ) (packet : Option DhcpRequest)
  | arp (ip : ℕ)
  deriving DecidableEq

structure HostSetting where
  value : ℕ
  isAllocated : Bool
  deriving DecidableEq

/-- `sethostaddr`, `setnetmask`, `setdnsaddr` and `setgatewayaddr`, unless it is set already. -/
def HostSetting.setOnce (h : HostSetting) (value : ℕ) : HostSetting :=
  if h.isAllocated then h else if value = 0 then h else ⟨value, true⟩

/-- The variables of `dhcp.c`, its three seeds, the settings of the host and what was sent. -/
structure DhcpClient where
  currXid : ℕ
  selectedServer : ℕ
  serverId : ℕ
  t1Ms : ℤ
  t2Ms : ℤ
  expiryMs : ℤ
  haveLease : Bool
  renewSent : Bool
  rebindSent : Bool
  discoverSeed : ℕ
  renewSeed : ℕ
  rebindSeed : ℕ
  host : HostSetting
  netmask : HostSetting
  dns : HostSetting
  gateway : HostSetting
  sent : List DhcpSent

namespace DhcpClient

open Dhcp

def boot : DhcpClient where
  currXid := 0
  selectedServer := 0
  serverId := 0
  t1Ms := -1
  t2Ms := -1
  expiryMs := -1
  haveLease := false
  renewSent := false
  rebindSent := false
  discoverSeed := 0x13579BDF
  renewSeed := 0x2468ACE0
  rebindSeed := 0x97531BDF
  host := ⟨0, false⟩
  netmask := ⟨0, false⟩
  dns := ⟨0, false⟩
  gateway := ⟨0, false⟩
  sent := []

/-- The next value of an `xid_seed`. -/
def nextXid (seed : ℕ) : ℕ := u32 (seed + 0x01010101)

def broadcast : ℕ := 0xFFFFFFFF

section

-- the MAC address of the active network device, if there is one
variable (mac : Option (List Byte))

def makeDhcpPacket (type requestIp xid serverIp : ℕ) : Option DhcpRequest :=
  mac.map fun _ => ⟨type, xid, 0, requestIp, serverIp⟩

def makeDhcpRequestCiaddr (xid ciaddr : ℕ) : Option DhcpRequest :=
  mac.map fun _ => ⟨requestType, xid, ciaddr, 0, 0⟩

def dhcpDiscover (s : DhcpClient) : DhcpClient :=
  let xid := nextXid s.discoverSeed
  { s with
    discoverSeed := xid
    currXid := xid
    selectedServer := 0
    sent := .udp broadcast (makeDhcpPacket mac discoverType 0 xid 0) :: s.sent }

def dhcpRequest (s : DhcpClient) (requestIp xid serverIp : ℕ) : DhcpClient :=
  { s with
    sent := .udp broadcast (makeDhcpPacket mac requestType requestIp xid serverIp) :: s.sent }

def dhcpRequestRenewUnicast (s : DhcpClient) : DhcpClient :=
  let xid := nextXid s.renewSeed
  let s := { s with renewSeed := xid, currXid := xid }
  match makeDhcpRequestCiaddr mac xid s.host.value with
  | none => s
  | some packet => { s with sent := .udp s.serverId (some packet) :: s.sent }

def dhcpRequestRebindBroadcast (s : DhcpClient) : DhcpClient :=
  let xid := nextXid s.rebindSeed
  let s := { s with rebindSeed := xid, currXid := xid }
  match makeDhcpRequestCiaddr mac xid s.host.value with
  | none => s
  | some packet => { s with sent := .udp broadcast (some packet) :: s.sent }

def takeParameters (s : DhcpClient) (yourIp : ℕ) (subnet dns gateway : Option Buffer) :
    DhcpClient :=
  { s with
    host := s.host.setOnce yourIp
    netmask := (subnet.map load32).elim s.netmask s.netmask.setOnce
    dns := (dns.map load32).elim s.dns s.dns.setOnce
    gateway := (gateway.map load32).elim s.gateway s.gateway.setOnce
    sent := (gateway.map fun b => .arp (load32 b)).toList ++
      ((dns.map fun b => .arp (load32 b)).toList ++ s.sent) }

/-- The timers for a lease of `secs` seconds. -/
def setTimers (s : DhcpClient) (secs : ℕ) : DhcpClient :=
  { s with
    expiryMs := secs * 1000
    t1Ms := ↑(secs / 2) * 1000
    -- the product is a `uint32_t`
    t2Ms := ↑(u32 (secs * 7) / 8) * 1000 }

def setDefaultTimers (s : DhcpClient) : DhcpClient :=
  { s with expiryMs := 3600 * 1000, t1Ms := 1800 * 1000, t2Ms := 3150 * 1000 }

def handleOffer (s : DhcpClient) (p : DhcpPacket) (kmalloc : ℕ → Option Buffer) : DhcpClient :=
  match getDhcpOptions p kmalloc optServerIp with
  | none => s
  | some serverIp =>
    if s.selectedServer ≠ 0 ∧ load32 serverIp ≠ s.selectedServer then s
    else dhcpRequest mac { s with selectedServer := load32 serverIp } p.yourIp p.xid
      (load32 serverIp)

def handleAck (s : DhcpClient) (p : DhcpPacket) (kmalloc : ℕ → Option Buffer) : DhcpClient :=
  match getDhcpOptions p kmalloc optServerIp with
  | none => s
  | some serverIp =>
    if load32 serverIp ≠ s.selectedServer then s
    else
      let s := s.takeParameters p.yourIp (getDhcpOptions p kmalloc optSubnet)
        (getDhcpOptions p kmalloc optDns) (getDhcpOptions p kmalloc optGateway)
      let s := { s with serverId := load32 serverIp }
      let s := match getDhcpOptions p kmalloc optLeaseTime with
        | some lease => s.setTimers (loadNtohl lease)
        | none => s.setDefaultTimers
      { s with haveLease := true, renewSent := false, rebindSent := false, selectedServer := 0 }

def handleNak (s : DhcpClient) : DhcpClient :=
  dhcpDiscover mac
    { s with selectedServer := 0, haveLease := false, renewSent := false, rebindSent := false }

def dhcpHandlePacket (s : DhcpClient) (p : DhcpPacket) (kmalloc : ℕ → Option Buffer) : DhcpClient :=
  if p.op ≠ reply then s
  else if mac.isNone ∨ some (p.clientHardwareAddr.take 6) ≠ mac then s
  else if p.xid ≠ s.currXid then s
  else match getDhcpOptions p kmalloc optType with
    | none => s
    | some type =>
      if (type 0).toNat = offerType then s.handleOffer mac p kmalloc
      else if (type 0).toNat = ackType then s.handleAck p kmalloc
      else if (type 0).toNat = nakType then s.handleNak mac
      else s

def countDown (n : ℤ) : ℤ := if 0 < n then n - 1 else n

/-- `dhcp_background`, which runs every millisecond. -/
def dhcpBackground (s : DhcpClient) : DhcpClient :=
  if s.haveLease = false then s
  else
    let preExp := s.expiryMs
    let preT1 := s.t1Ms
    let preT2 := s.t2Ms
    let s := { s with
      expiryMs := countDown preExp, t1Ms := countDown preT1, t2Ms := countDown preT2 }
    if preExp = 1 then
      dhcpDiscover mac { s with
        haveLease := false, renewSent := false, rebindSent := false, selectedServer := 0
        serverId := 0 }
    else if preT1 = 1 then
      if s.renewSent = false then dhcpRequestRenewUnicast mac { s with renewSent := true } else s
    else if preT2 = 1 then
      if s.rebindSent = false then dhcpRequestRebindBroadcast mac { s with rebindSent := true } else
        s
    else s

end

end DhcpClient

end RetroRocket
