import RetroRocket.Ip

/-!
# The bounds of inbound data

`IpCall.Lawful` says that a call stays inside the packet, inside a stored fragment or inside the
reassembled payload. The three lengths of a packet, of the frame, of IP and of UDP, are never
compared, so the calls are lawful for the packets of `DeliveryOk` only.
-/

namespace RetroRocket

open IpPacket IpState

structure HeaderFits (p : Buffer) (n : ℕ) : Prop where
  header_le : 4 * ihl p ≤ length p
  length_le : length p ≤ n

def IpMemory.size (n : ℕ) : IpMemory → ℕ
  | .frame => n
  | .payload size => size

/-- A call stays inside its memory, for a packet of `n` bytes. -/
def IpCall.Lawful (n : ℕ) : IpCall → Prop
  | .copyPacket p => HeaderFits p n
  | .copyPart frag src dst len size => src + len ≤ frag.size ∧ dst + len ≤ size
  | .handler p mem off _ len => 4 * ihl p ≤ length p ∧ off + len ≤ mem.size n
  | .daemon _ _ _ mem off len datagram => off + len ≤ mem.size n ∧ len + udpHeader = datagram
  | .unreachable => True

variable {h : IpHandlers} {k : IpKmalloc} {s : IpState} {p data : Buffer} {n size off len : ℕ}
  {mem : IpMemory}

@[simp] theorem handler_lawful : (IpCall.handler p mem off data len).Lawful n ↔
    4 * ihl p ≤ length p ∧ off + len ≤ mem.size n := Iff.rfl

@[simp] theorem daemon_lawful {srcIp srcPort dstPort datagram : ℕ} :
    (IpCall.daemon srcIp srcPort dstPort mem off len datagram).Lawful n ↔
      off + len ≤ mem.size n ∧ len + udpHeader = datagram := Iff.rfl

@[simp] theorem copyPacket_lawful : (IpCall.copyPacket p).Lawful n ↔ HeaderFits p n := Iff.rfl

@[simp] theorem unreachable_lawful : IpCall.unreachable.Lawful n := trivial

/-! ## Lengths -/

theorem length_lt (p : Buffer) : length p < 2 ^ 16 := by
  have hhigh := (p 2).isLt
  have hlow := (p (2 + 1)).isLt
  unfold length be16
  omega

theorem ihl_lt (p : Buffer) : ihl p < 2 ^ 4 := by
  have hbyte := (p 0).isLt
  unfold ihl
  omega

theorem dataLen_of_le (hle : 4 * ihl p ≤ length p) : dataLen p = length p - 4 * ihl p :=
  sub64_of_le hle ((length_lt p).trans (by decide))

theorem dataLen_of_lt (hlt : length p < 4 * ihl p) : 2 ^ 64 - 2 ^ 6 ≤ dataLen p := by
  have hihl := ihl_lt p
  unfold dataLen sub64 u64
  omega

theorem dataLen_within :
    4 * ihl p ≤ length p ∧ 4 * ihl p + dataLen p ≤ n ↔ HeaderFits p n := by
  constructor
  · rintro ⟨hle, hwithin⟩
    rw [dataLen_of_le hle] at hwithin
    exact ⟨hle, by omega⟩
  · rintro ⟨hle, hlen⟩
    refine ⟨hle, ?_⟩
    rw [dataLen_of_le hle]
    omega

/-! ## The loop over the fragments -/

namespace IpFrag

/-- The guard of the loop, for a payload of `size` bytes. -/
def Fits (f : IpFrag) (size : ℕ) : Prop := u64 (f.offset + dataLen f.packet) ≤ size

instance (f : IpFrag) (size : ℕ) : Decidable (f.Fits size) := Nat.decLe _ _

/-- Byte `i` of a payload of `size` bytes is copied from this fragment. -/
def Covers (f : IpFrag) (size i : ℕ) : Prop :=
  f.Fits size ∧ f.offset ≤ i ∧ i < f.offset + dataLen f.packet

instance (f : IpFrag) (size i : ℕ) : Decidable (f.Covers size i) := instDecidableAnd

/-- The byte of the payload at `i`. -/
def byteAt (f : IpFrag) (i : ℕ) : Byte := f.packet (4 * ihl f.packet + (i - f.offset))

def overlay (size : ℕ) (frags : List IpFrag) (data : Buffer) : Buffer := fun i =>
  frags.foldl (fun byte f => if f.Covers size i then f.byteAt i else byte) (data i)

theorem overlay_cons (size : ℕ) (f : IpFrag) (frags : List IpFrag) (data : Buffer) :
    overlay size (f :: frags) data =
      overlay size frags fun i => if f.Covers size i then f.byteAt i else data i := by
  funext i
  simp only [overlay, List.foldl_cons]

theorem copyPart_lawful_iff (f : IpFrag) (hsize : size < 2 ^ 32) (hfits : f.Fits size) :
    (IpCall.copyPart f (4 * ihl f.packet) f.offset (dataLen f.packet) size).Lawful n ↔
      HeaderFits f.packet f.size := by
  have hoffset := f.offset_lt
  unfold Fits at hfits
  rcases le_or_gt (4 * ihl f.packet) (length f.packet) with hle | hlt
  · have hlength := length_lt f.packet
    have hlen := dataLen_of_le hle
    rw [u64_of_lt (by omega)] at hfits
    constructor
    · rintro ⟨hsrc, -⟩
      exact ⟨hle, by omega⟩
    · rintro ⟨-, hsrc⟩
      exact ⟨by omega, hfits⟩
  · have hlen := dataLen_of_lt hlt
    constructor
    · rintro ⟨-, hdst⟩
      omega
    · rintro ⟨hle, -⟩
      omega

end IpFrag

open IpFrag

theorem gather_fst (size : ℕ) (frags : List IpFrag) (data : Buffer) :
    (gather size frags data).1 = overlay size frags data := by
  induction frags generalizing data with
  | nil => rfl
  | cons f frags ih =>
    rw [overlay_cons]
    by_cases hfits : f.Fits size
    · have hguard : u64 (f.offset + dataLen f.packet) ≤ size := hfits
      simp [gather, hguard, ih, Covers, hfits, byteAt]
    · have hguard : ¬ u64 (f.offset + dataLen f.packet) ≤ size := hfits
      simp [gather, hguard, ih, Covers, hfits]

theorem gather_lawful_iff (hsize : size < 2 ^ 32) (frags : List IpFrag) (data : Buffer) :
    (∀ call ∈ (gather size frags data).2, call.Lawful n) ↔
      ∀ f ∈ frags, f.Fits size → HeaderFits f.packet f.size := by
  induction frags generalizing data with
  | nil => simp [gather]
  | cons f frags ih =>
    by_cases hfits : f.Fits size
    · have hguard : u64 (f.offset + dataLen f.packet) ≤ size := hfits
      simp [gather, hguard, ih, hfits, f.copyPart_lawful_iff hsize hfits]
    · have hguard : ¬ u64 (f.offset + dataLen f.packet) ≤ size := hfits
      simp [gather, hguard, ih, hfits]

/-! ## Handlers and daemons -/

def UdpFits (h : IpHandlers) (p data : Buffer) (len : ℕ) : Prop :=
  protocol p = udpProtocol → h.daemons (be16 data 2) → be16 data 4 + udpHeader = len

theorem udpHandlePacket_lawful_iff (hwithin : off + len ≤ mem.size n) :
    (∀ call ∈ udpHandlePacket h p mem off data len, call.Lawful n) ↔
      (h.daemons (be16 data 2) → be16 data 4 + udpHeader = len) := by
  by_cases hdaemon : h.daemons (be16 data 2)
  · simp only [udpHandlePacket, hdaemon, if_true, List.forall_mem_singleton, daemon_lawful,
      forall_true_left]
    constructor
    · exact And.right
    · intro hlen
      exact ⟨by omega, hlen⟩
  · simp [udpHandlePacket, hdaemon]

theorem routeToHandler_lawful_iff :
    (∀ call ∈ routeToHandler h p mem off data len, call.Lawful n) ↔
      (h.registered (protocol p) →
        (4 * ihl p ≤ length p ∧ off + len ≤ mem.size n) ∧ UdpFits h p data len) := by
  by_cases hreg : h.registered (protocol p)
  · simp only [routeToHandler, hreg, if_true, List.forall_mem_cons, handler_lawful,
      forall_true_left, UdpFits]
    refine and_congr_right fun hwithin => ?_
    by_cases hudp : protocol p = udpProtocol
    · rw [if_pos hudp, udpHandlePacket_lawful_iff hwithin.2]
      simp only [hudp, forall_true_left]
    · simp [hudp]
  · cases herror : h.error <;> simp [routeToHandler, hreg, herror]

/-! ## Packets -/

def IsWhole (p : Buffer) : Prop :=
  dontFragment p ∨ (¬ moreFragmentsFollow p ∧ fragOffset p = 0)

def IsKept (k : IpKmalloc) (s : IpState) (p alloc : Buffer) : Prop :=
  ¬ IsWhole p ∧ k.fragment ∧ k.packet = some alloc ∧
    (fragOffset p = 0 ∨ (s.fragMap lookupKey).isSome)

structure GatherFits (h : IpHandlers) (p data : Buffer) (parts : IpParts) : Prop where
  copies : ∀ f ∈ parts.orderedList, f.Fits parts.size → HeaderFits f.packet f.size
  udp : h.registered (protocol p) →
    UdpFits h p (overlay parts.size parts.orderedList data) parts.size

/-- The condition on a converted packet of `n` bytes. -/
structure PacketFits (h : IpHandlers) (k : IpKmalloc) (s : IpState) (p : Buffer) (n : ℕ) :
    Prop where
  whole : IsWhole p → h.registered (protocol p) →
    HeaderFits p n ∧ UdpFits h p (fun i => p (4 * ihl p + i)) (length p - 4 * ihl p)
  kept : ∀ alloc, IsKept k s p alloc → HeaderFits p n
  last : ∀ alloc parts data, IsKept k s p alloc → ¬ moreFragmentsFollow p →
    s.fragMap lookupKey = some parts → k.data = some data →
    GatherFits h p data ((parts.grow p).insert (.copy alloc p))

/-- The condition on a frame of `len` bytes. -/
def DeliveryOk (h : IpHandlers) (k : IpKmalloc) (s : IpState) (frame : Buffer) (len : ℕ) : Prop :=
  ethernetHeader ≤ len → len ≤ ethernetMaxFrame → be16 frame 12 = ethernetTypeIp →
    checksumOk (fun i => frame (ethernetHeader + i)) →
      version (convert fun i => frame (ethernetHeader + i)) = 4 →
        PacketFits h k s (convert fun i => frame (ethernetHeader + i)) (len - ethernetHeader)

theorem whole_lawful_iff (hwhole : IsWhole p) :
    (∀ call ∈ (handleConverted h k s p).2, call.Lawful n) ↔ PacketFits h k s p n := by
  have hcalls : (handleConverted h k s p).2 =
      routeToHandler h p .frame (4 * ihl p) (fun i => p (4 * ihl p + i)) (dataLen p) := by
    rcases hwhole with hdont | ⟨hmore, hoffset⟩
    · simp [handleConverted, hdont]
    · simp [handleConverted, hmore, hoffset]
  have hnotKept : ∀ alloc, ¬ IsKept k s p alloc := fun alloc hkept => hkept.1 hwhole
  rw [hcalls, routeToHandler_lawful_iff, IpMemory.size, dataLen_within]
  constructor
  · intro hfits
    refine ⟨fun _ hreg => ⟨(hfits hreg).1, ?_⟩, fun alloc hkept => absurd hkept (hnotKept alloc),
      fun alloc parts data hkept => absurd hkept (hnotKept alloc)⟩
    rw [← dataLen_of_le (hfits hreg).1.header_le]
    exact (hfits hreg).2
  · intro hfits hreg
    obtain ⟨hheader, hudp⟩ := hfits.whole hwhole hreg
    rw [dataLen_of_le hheader.header_le]
    exact ⟨hheader, hudp⟩

theorem first_lawful_iff (hdont : dontFragment p = false) (hmore : moreFragmentsFollow p = true)
    (hoffset : fragOffset p = 0) :
    (∀ call ∈ (handleConverted h k s p).2, call.Lawful n) ↔ PacketFits h k s p n := by
  have hcalls : (handleConverted h k s p).2 = (firstFragment k s p).2 := by
    simp [handleConverted, hdont, hmore, hoffset]
  have hwhole : ¬ IsWhole p := by simp [IsWhole, hdont, hmore]
  rw [hcalls]
  constructor
  · intro hlawful
    refine ⟨fun h => absurd h hwhole, fun alloc ⟨_, hfragment, hpacket, _⟩ => ?_,
      fun _ _ _ _ hlast => absurd hmore hlast⟩
    simpa [firstFragment, hfragment, hpacket] using hlawful
  · intro hfits
    unfold firstFragment
    split
    case isTrue hfragment =>
      split
      case h_1 alloc hpacket =>
        simpa using hfits.kept alloc ⟨hwhole, hfragment, hpacket, .inl hoffset⟩
      case h_2 => simp
    case isFalse => simp

theorem add_of_alloc {alloc : Buffer} (parts : IpParts) (hfragment : k.fragment = true)
    (hpacket : k.packet = some alloc) :
    parts.add k p = (((parts.seen k.ticks).grow p).insert (.copy alloc p), true) := by
  simp [IpParts.add, hfragment, hpacket]

theorem add_not_stored (parts : IpParts)
    (hnone : ∀ alloc, ¬ (k.fragment = true ∧ k.packet = some alloc)) :
    (parts.add k p).2 = false := by
  unfold IpParts.add
  split
  case isTrue hfragment =>
    split
    case h_1 alloc hpacket => exact absurd ⟨hfragment, hpacket⟩ (hnone alloc)
    case h_2 => rfl
  case isFalse => rfl

theorem middle_lawful_iff (hdont : dontFragment p = false) (hmore : moreFragmentsFollow p = true)
    (hoffset : fragOffset p ≠ 0) :
    (∀ call ∈ (handleConverted h k s p).2, call.Lawful n) ↔ PacketFits h k s p n := by
  have hcalls : (handleConverted h k s p).2 = (middleFragment k s p).2 := by
    simp [handleConverted, hdont, hmore, hoffset]
  have hwhole : ¬ IsWhole p := by simp [IsWhole, hdont, hmore]
  rw [hcalls]
  constructor
  · intro hlawful
    refine ⟨fun h => absurd h hwhole, fun alloc ⟨_, hfragment, hpacket, hset⟩ => ?_,
      fun _ _ _ _ hlast => absurd hmore hlast⟩
    obtain ⟨parts, hparts⟩ := Option.isSome_iff_exists.mp (hset.resolve_left hoffset)
    simpa [middleFragment, hparts, add_of_alloc parts hfragment hpacket] using hlawful
  · intro hfits
    unfold middleFragment
    split
    case h_1 => simp
    case h_2 parts hparts =>
      by_cases halloc : ∃ alloc, k.fragment = true ∧ k.packet = some alloc
      · obtain ⟨alloc, hfragment, hpacket⟩ := halloc
        have hheader := hfits.kept alloc ⟨hwhole, hfragment, hpacket, .inr (by simp [hparts])⟩
        simpa [add_of_alloc parts hfragment hpacket] using hheader
      · simp [add_not_stored parts (not_exists.mp halloc)]

theorem gathered_lawful_iff {parts : IpParts} (hheader : HeaderFits p n)
    (hsize : parts.size < 2 ^ 32) :
    (∀ call ∈ (gather parts.size parts.orderedList data).2 ++
        routeToHandler h p (.payload parts.size) 0 (gather parts.size parts.orderedList data).1
          parts.size, call.Lawful n) ↔ GatherFits h p data parts := by
  have hcopies := gather_lawful_iff (n := n) hsize parts.orderedList data
  have hroute : (∀ call ∈ routeToHandler h p (.payload parts.size) 0
      (overlay parts.size parts.orderedList data) parts.size, call.Lawful n) ↔ _ :=
    routeToHandler_lawful_iff
  rw [List.forall_mem_append, hcopies, gather_fst, hroute]
  constructor
  · rintro ⟨hparts, hudp⟩
    exact ⟨hparts, fun hreg => (hudp hreg).2⟩
  · rintro ⟨hparts, hudp⟩
    refine ⟨hparts, fun hreg => ⟨⟨hheader.header_le, ?_⟩, hudp hreg⟩⟩
    rw [IpMemory.size, Nat.zero_add]

theorem gatherFits_seen (parts : IpParts) (ticks : ℕ) (frag : IpFrag) :
    GatherFits h p data (((parts.seen ticks).grow p).insert frag) ↔
      GatherFits h p data ((parts.grow p).insert frag) :=
  ⟨fun hfits => ⟨hfits.copies, hfits.udp⟩, fun hfits => ⟨hfits.copies, hfits.udp⟩⟩

theorem last_lawful_iff (hdont : dontFragment p = false) (hmore : moreFragmentsFollow p = false)
    (hoffset : fragOffset p ≠ 0) :
    (∀ call ∈ (handleConverted h k s p).2, call.Lawful n) ↔ PacketFits h k s p n := by
  have hcalls : (handleConverted h k s p).2 = (lastFragment h k s p).2 := by
    simp [handleConverted, hdont, hmore, hoffset]
  have hwhole : ¬ IsWhole p := by simp [IsWhole, hdont, hoffset]
  have hgrown : ∀ (parts : IpParts) alloc,
      (((parts.seen k.ticks).grow p).insert (.copy alloc p)).size < 2 ^ 32 :=
    fun parts alloc => Nat.mod_lt _ (by decide)
  rw [hcalls]
  constructor
  · intro hlawful
    have hkept : ∀ alloc, IsKept k s p alloc → HeaderFits p n := by
      rintro alloc ⟨_, hfragment, hpacket, hset⟩
      obtain ⟨parts, hparts⟩ := Option.isSome_iff_exists.mp (hset.resolve_left hoffset)
      simp only [lastFragment, hparts, add_of_alloc parts hfragment hpacket, if_true] at hlawful
      split at hlawful
      case h_1 => simpa using hlawful
      case h_2 data hdata => exact (List.forall_mem_cons.mp hlawful).1
    refine ⟨fun h => absurd h hwhole, hkept, fun alloc parts data hk _ hparts hdata => ?_⟩
    simp only [lastFragment, hparts, add_of_alloc parts hk.2.1 hk.2.2.1, hdata, if_true]
      at hlawful
    exact (gatherFits_seen parts k.ticks _).mp <|
      (gathered_lawful_iff (hkept alloc hk) (hgrown parts alloc)).mp
        (List.forall_mem_cons.mp hlawful).2
  · intro hfits
    unfold lastFragment
    split
    case h_1 => simp
    case h_2 parts hparts =>
      by_cases halloc : ∃ alloc, k.fragment = true ∧ k.packet = some alloc
      · obtain ⟨alloc, hfragment, hpacket⟩ := halloc
        have hk : IsKept k s p alloc := ⟨hwhole, hfragment, hpacket, .inr (by simp [hparts])⟩
        have hheader := hfits.kept alloc hk
        simp only [add_of_alloc parts hfragment hpacket, if_true]
        split
        case h_1 => simpa using hheader
        case h_2 data hdata =>
          refine List.forall_mem_cons.mpr ⟨hheader, ?_⟩
          exact (gathered_lawful_iff hheader (hgrown parts alloc)).mpr <|
            (gatherFits_seen parts k.ticks _).mpr <|
              hfits.last alloc parts data hk (by simp [hmore]) hparts hdata
      · simp [add_not_stored parts (not_exists.mp halloc)]

theorem handleConverted_lawful_iff :
    (∀ call ∈ (handleConverted h k s p).2, call.Lawful n) ↔ PacketFits h k s p n := by
  by_cases hwhole : IsWhole p
  · exact whole_lawful_iff hwhole
  · simp only [IsWhole, not_or, Bool.not_eq_true, not_and] at hwhole
    obtain ⟨hdont, hoffset⟩ := hwhole
    cases hmore : moreFragmentsFollow p
    · exact last_lawful_iff hdont hmore (hoffset hmore)
    · by_cases hzero : fragOffset p = 0
      · exact first_lawful_iff hdont hmore hzero
      · exact middle_lawful_iff hdont hmore hzero

/-- No UDP datagram with the right length is passed to a daemon within bounds: the field counts the
header, which is not taken off. -/
theorem not_packetFits_of_udp (hwhole : IsWhole p) (hudp : protocol p = udpProtocol)
    (hreg : h.registered (protocol p)) (hdaemon : h.daemons (be16 p (4 * ihl p + 2)))
    (hlength : be16 p (4 * ihl p + 4) = length p - 4 * ihl p) : ¬ PacketFits h k s p n := by
  intro hfits
  have hudpFits : be16 p (4 * ihl p + 4) + udpHeader = length p - 4 * ihl p :=
    (hfits.whole hwhole hreg).2 hudp hdaemon
  rw [hlength, udpHeader] at hudpFits
  omega

/-- All calls made for a frame are lawful exactly when `DeliveryOk` holds. -/
theorem ethernetHandlePacket_lawful_iff (h : IpHandlers) (k : IpKmalloc) (s : IpState)
    (frame : Buffer) (len : ℕ) :
    (∀ call ∈ (ethernetHandlePacket h k s frame len).2, call.Lawful (len - ethernetHeader)) ↔
      DeliveryOk h k s frame len := by
  unfold ethernetHandlePacket DeliveryOk
  split
  case isTrue hrange =>
    simp only [List.not_mem_nil, false_imp_iff, implies_true, true_iff]
    intro hmin hmax
    omega
  case isFalse hrange =>
    have hmin : ethernetHeader ≤ len := by omega
    have hmax : len ≤ ethernetMaxFrame := by omega
    split
    case isTrue htype =>
      unfold ipHandlePacket
      split
      case isTrue hok =>
        simp only [hmin, hmax, htype, hok.1, hok.2, forall_true_left]
        exact handleConverted_lawful_iff
      case isFalse hbad =>
        simp only [List.not_mem_nil, false_imp_iff, implies_true, true_iff]
        intro _ _ _ hsum hversion
        exact absurd ⟨hsum, hversion⟩ hbad
    case isFalse htype => simp [htype]

def emptyUdpFrame : Buffer := fun i =>
  [0x52, 0x54, 0, 0x12, 0x34, 0x56, 0x52, 0x55, 10, 0, 2, 2, 8, 0,
    0x45, 0, 0, 28, 0, 0, 0, 0, 64, 17, 0x62, 0xc1, 10, 0, 2, 2, 10, 0, 2, 15,
    0, 67, 0, 68, 0, 8, 0, 0].getD i 0

theorem emptyUdp_not_lawful :
    ¬ ∀ (h : IpHandlers) (k : IpKmalloc) (s : IpState) (frame : Buffer) (len : ℕ),
      ∀ call ∈ (ethernetHandlePacket h k s frame len).2, call.Lawful (len - ethernetHeader) := by
  intro hall
  specialize hall ⟨fun _ => true, false, fun port => port = 68⟩ ⟨true, none, none, true, 0⟩
    ⟨fun _ => none⟩ emptyUdpFrame 42
  unfold ethernetHandlePacket ipHandlePacket at hall
  rw [if_neg (by decide), if_pos (by decide), if_pos (by decide)] at hall
  exact not_packetFits_of_udp (.inr (by decide)) (by decide) (by decide) (by decide) (by decide)
    (handleConverted_lawful_iff.mp hall)

end RetroRocket
