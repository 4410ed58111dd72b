import RetroRocket.Ip

/-!
# Reassembly over runs of fragments

Datagrams are cut as RFC 791 has it, and their fragments arrive in any order and any number of
times. The bit that `ip_handle_packet` reads as `more_fragments_follow` is the reserved bit of the
packet, so that the table of fragments stays empty: a first fragment is delivered alone, and the
others are dropped.
-/

namespace RetroRocket

open IpPacket IpState

/-- The ones' complement sum of a header of `words` words is all ones. -/
def headerSumOk (p : Buffer) (words : ℕ) : Prop :=
  ((List.range words).map fun i => be16 p (2 * i)).sum % (2 ^ 16 - 1) = 0

structure IpDatagram where
  srcIp : ℕ
  dstIp : ℕ
  id : ℕ
  protocol : ℕ
  pieces : List (List Byte)
  pieces_ne : pieces ≠ []
  inner : ∀ i (hi : i + 1 < pieces.length),
    0 < (pieces.get ⟨i, by omega⟩).length ∧ 8 ∣ (pieces.get ⟨i, by omega⟩).length
  last : 1 < pieces.length → pieces.getLast pieces_ne ≠ []

namespace IpDatagram

def payload (D : IpDatagram) : List Byte := D.pieces.flatten

/-- Where piece `i` starts in the payload. -/
def offset (D : IpDatagram) (i : ℕ) : ℕ := (D.pieces.take i).flatten.length

/-- The packet `p` of `n` bytes carries piece `i`, in the byte order and with the bits of RFC
791. -/
structure Carries (D : IpDatagram) (i : ℕ) (p : Buffer) (n : ℕ) : Prop where
  index_lt : i < D.pieces.length
  version : (p 0).toNat / 2 ^ 4 = 4
  headerWords : 5 ≤ (p 0).toNat % 2 ^ 4
  headerSum : headerSumOk p (2 * ((p 0).toNat % 2 ^ 4))
  total : be16 p 2 = 4 * ((p 0).toNat % 2 ^ 4) + (D.pieces.get ⟨i, index_lt⟩).length
  within : be16 p 2 ≤ n
  id : be16 p 4 = D.id
  reserved : (p 6).getLsbD 7 = false
  dontFragment : 1 < D.pieces.length → (p 6).getLsbD 6 = false
  moreFragments : (p 6).getLsbD 5 = decide (i + 1 < D.pieces.length)
  fragmentOffset : 8 * (2 ^ 8 * ((p 6).toNat % 2 ^ 5) + (p 7).toNat) = D.offset i
  protocol : (p 9).toNat = D.protocol
  srcIp : be32 p 12 = D.srcIp
  dstIp : be32 p 16 = D.dstIp
  data : ∀ j (hj : j < (D.pieces.get ⟨i, index_lt⟩).length),
    p (4 * ((p 0).toNat % 2 ^ 4) + j) = (D.pieces.get ⟨i, index_lt⟩).get ⟨j, hj⟩

def first (D : IpDatagram) : List Byte := D.pieces.head D.pieces_ne

theorem offset_pos (D : IpDatagram) {i : ℕ} (hpos : 0 < i) (hi : i < D.pieces.length) :
    0 < D.offset i := by
  obtain ⟨piece, pieces, hcons⟩ := List.exists_cons_of_ne_nil D.pieces_ne
  have hinner := (D.inner 0 (by omega)).1
  obtain ⟨j, rfl⟩ := Nat.exists_eq_add_of_lt hpos
  simp only [hcons, List.get_eq_getElem, List.getElem_cons_zero] at hinner
  rw [offset, hcons, Nat.zero_add, List.take_succ_cons, List.flatten_cons, List.length_append]
  omega

theorem payload_of_single (D : IpDatagram) (hsingle : ¬ 1 < D.pieces.length) :
    D.payload = D.first := by
  obtain ⟨piece, pieces, hcons⟩ := List.exists_cons_of_ne_nil D.pieces_ne
  have hnil : pieces = [] := by
    rw [hcons, List.length_cons] at hsingle
    exact List.length_eq_zero_iff.mp (by omega)
  simp [payload, first, hcons, hnil]

theorem payload_ne_first (D : IpDatagram) (hmulti : 1 < D.pieces.length) :
    D.first ≠ D.payload := by
  obtain ⟨piece, pieces, hcons⟩ := List.exists_cons_of_ne_nil D.pieces_ne
  have hne : pieces ≠ [] := by
    rintro rfl
    simp [hcons] at hmulti
  have hlast := D.last hmulti
  intro heq
  simp only [first, payload, hcons, List.head_cons, List.flatten_cons, List.self_eq_append_right,
    List.flatten_eq_nil_iff] at heq
  simp only [hcons, List.getLast_cons hne] at hlast
  exact hlast (heq _ (List.getLast_mem hne))

end IpDatagram

structure IpArrival {ι : Type*} (D : ι → IpDatagram) where
  datagram : ι
  index : ℕ
  packet : Buffer
  nLen : ℕ
  kmalloc : IpKmalloc
  carries : (D datagram).Carries index packet nLen

def IpCall.delivered : IpCall → Option (List Byte)
  | .handler _ _ _ data len => some ((List.range len).map data)
  | _ => none

def deliveries {ι : Type*} {D : ι → IpDatagram} (h : IpHandlers) :
    IpState → List (IpArrival D) → List (ι × List Byte)
  | _, [] => []
  | s, a :: as =>
    ((ipHandlePacket h a.kmalloc s a.packet a.nLen).2.filterMap IpCall.delivered).map
        (a.datagram, ·) ++
      deliveries h (ipHandlePacket h a.kmalloc s a.packet a.nLen).1 as

def IpState.empty : IpState := ⟨fun _ => none⟩

/-! ## One arrival -/

theorem convert_flags (b : Byte) :
    (ntohb b 3).getLsbD 1 = b.getLsbD 6 ∧ (ntohb b 3).getLsbD 2 = b.getLsbD 7 ∧
      (ntohb b 3).toNat / 2 ^ 3 = b.toNat % 2 ^ 5 := by
  revert b
  decide +kernel

theorem convert_nibbles (b : Byte) :
    (ntohb b 4).toNat % 2 ^ 4 = b.toNat / 2 ^ 4 ∧ (ntohb b 4).toNat / 2 ^ 4 = b.toNat % 2 ^ 4 := by
  revert b
  decide +kernel

variable {ι : Type*} {D : ι → IpDatagram} {h : IpHandlers} {p : Buffer} {n i : ℕ}

theorem convert_of_ne (hi : i ≠ 0) (hi' : i ≠ 6) : convert p i = p i := by
  simp [convert, hi, hi']

theorem length_convert : length (convert p) = be16 p 2 := by
  simp [length, be16, convert_of_ne]

theorem ihl_convert : ihl (convert p) = (p 0).toNat % 2 ^ 4 := (convert_nibbles (p 0)).2

theorem version_convert : version (convert p) = (p 0).toNat / 2 ^ 4 := (convert_nibbles (p 0)).1

theorem fragOffset_convert :
    fragOffset (convert p) = (p 7).toNat + 2 ^ 8 * ((p 6).toNat % 2 ^ 5) := by
  rw [← (convert_flags (p 6)).2.2]
  rfl

theorem routeToHandler_delivered (h : IpHandlers) (p data : Buffer) (mem : IpMemory)
    (off len : ℕ) :
    (routeToHandler h p mem off data len).filterMap IpCall.delivered =
      if h.registered (protocol p) then [(List.range len).map data] else [] := by
  unfold routeToHandler
  split
  case isTrue hreg =>
    rw [List.filterMap_cons_some (f := IpCall.delivered) rfl]
    split
    case isTrue hudp =>
      by_cases hdaemon : h.daemons (be16 data 2) <;>
        simp [udpHandlePacket, hdaemon, IpCall.delivered]
    case isFalse hudp => rfl
  case isFalse hreg => cases h.error <;> rfl

namespace IpDatagram.Carries

variable {D : IpDatagram} (hc : D.Carries i p n)

include hc

theorem not_more : moreFragmentsFollow (convert p) = false :=
  (convert_flags (p 6)).2.1.trans hc.reserved

theorem fragOffset_eq_zero : fragOffset (convert p) = 0 ↔ i = 0 := by
  have hoffset := hc.fragmentOffset
  rw [fragOffset_convert]
  rcases Nat.eq_zero_or_pos i with rfl | hpos
  · simp only [IpDatagram.offset, List.take_zero, List.flatten_nil, List.length_nil] at hoffset
    simp only [iff_true]
    omega
  · have hlater := D.offset_pos hpos hc.index_lt
    constructor
    · intro hzero
      omega
    · intro hzero
      omega

theorem not_dont (hi : i ≠ 0) : IpPacket.dontFragment (convert p) = false :=
  (convert_flags (p 6)).1.trans (hc.dontFragment (by have := hc.index_lt; omega))

theorem dataLen_eq : dataLen (convert p) = (D.pieces.get ⟨i, hc.index_lt⟩).length := by
  have htotal := hc.total
  have hlen := (p 2).isLt
  have hlen' := (p (2 + 1)).isLt
  have hbound : be16 p 2 < 2 ^ 16 := by
    unfold be16
    omega
  unfold dataLen
  rw [ihl_convert, length_convert, sub64_of_le (by omega) (by omega)]
  omega

theorem piece_eq (hi : i = 0) :
    (List.range (dataLen (convert p))).map (fun j => convert p (4 * ihl (convert p) + j)) =
      D.first := by
  subst hi
  have hwords := hc.headerWords
  have hfirst : D.first = D.pieces.get ⟨0, hc.index_lt⟩ := by
    rw [IpDatagram.first, List.head_eq_getElem, List.get_eq_getElem]
  rw [hc.dataLen_eq, hfirst, ihl_convert]
  refine List.ext_getElem (by simp) fun j hj hj' => ?_
  rw [List.getElem_map, List.getElem_range, convert_of_ne (by omega) (by omega)]
  exact hc.data j hj'

/-- On an empty table a first piece goes to the handler of its protocol, if the checksum is what the
code computes, and other pieces go nowhere. -/
theorem ipHandlePacket_empty (h : IpHandlers) (k : IpKmalloc) :
    (ipHandlePacket h k IpState.empty p n).1 = IpState.empty ∧
      (ipHandlePacket h k IpState.empty p n).2.filterMap IpCall.delivered =
        if checksumOk p ∧ i = 0 ∧ h.registered D.protocol then [D.first] else [] := by
  have hversion : IpPacket.version (convert p) = 4 := version_convert.trans hc.version
  have hprotocol : IpPacket.protocol (convert p) = D.protocol := hc.protocol
  unfold ipHandlePacket
  by_cases hsum : checksumOk p
  · rw [if_pos ⟨hsum, hversion⟩]
    simp only [handleConverted, hc.not_more, Bool.false_eq_true, and_false, if_false]
    by_cases hi : i = 0
    · have hoffset := hc.fragOffset_eq_zero.mpr hi
      rw [if_neg (by simp [hoffset]), routeToHandler_delivered, hc.piece_eq hi, hprotocol]
      simp [hsum, hi]
    · have hoffset := mt hc.fragOffset_eq_zero.mp hi
      rw [if_pos ⟨by simp [hc.not_dont hi], hoffset⟩]
      simp [lastFragment, IpState.empty, hi]
  · rw [if_neg (by simp [hsum])]
    simp [hsum]

end IpDatagram.Carries

/-! ## Runs -/

def IpArrival.Delivers (h : IpHandlers) (a : IpArrival D) : Prop :=
  checksumOk a.packet ∧ a.index = 0 ∧ h.registered (D a.datagram).protocol

instance (h : IpHandlers) (a : IpArrival D) : Decidable (a.Delivers h) :=
  inferInstanceAs (Decidable (_ ∧ a.index = 0 ∧ _))

theorem deliveries_empty (h : IpHandlers) (as : List (IpArrival D)) :
    deliveries h IpState.empty as =
      (as.filter fun a => a.Delivers h).map fun a => (a.datagram, (D a.datagram).first) := by
  induction as with
  | nil => rfl
  | cons a as ih =>
    obtain ⟨hstate, hcalls⟩ := a.carries.ipHandlePacket_empty h a.kmalloc
    rw [deliveries, hstate, hcalls, ih]
    by_cases hdelivers : a.Delivers h
    · have hif : checksumOk a.packet ∧ a.index = 0 ∧ h.registered (D a.datagram).protocol :=
        hdelivers
      simp [hdelivers, hif]
    · have hif : ¬ (checksumOk a.packet ∧ a.index = 0 ∧ h.registered (D a.datagram).protocol) :=
        hdelivers
      rw [List.filter_cons_of_neg (by simpa using hdelivers), if_neg hif]
      rfl

structure Reassembles [DecidableEq ι] (h : IpHandlers) (as : List (IpArrival D))
    (out : List (ι × List Byte)) : Prop where
  complete : ∀ x ∈ out, x.2 = (D x.1).payload
  atMostOnce : ∀ d, (out.filter fun x => x.1 = d).length ≤ 1
  delivered : ∀ d, h.registered (D d).protocol →
    (∀ i < (D d).pieces.length, ∃ a ∈ as, a.datagram = d ∧ a.index = i) → ∃ x ∈ out, x.1 = d

/-- The runs that a stack without reassembly and without a check for duplicates gets right: in parts
a datagram neither starts nor arrives completely, and in one part it is accepted once. -/
structure WithoutReassembly [DecidableEq ι] (h : IpHandlers) (as : List (IpArrival D)) :
    Prop where
  parts : ∀ d, h.registered (D d).protocol → 1 < (D d).pieces.length →
    (∀ a ∈ as, a.datagram = d → a.index = 0 → ¬ checksumOk a.packet) ∧
      ∃ i < (D d).pieces.length, ∀ a ∈ as, a.datagram = d → a.index ≠ i
  single : ∀ d, h.registered (D d).protocol → ¬ 1 < (D d).pieces.length →
    (as.filter fun a => a.datagram = d ∧ checksumOk a.packet).length ≤ 1 ∧
      ((∃ a ∈ as, a.datagram = d) → ∃ a ∈ as, a.datagram = d ∧ checksumOk a.packet)

theorem mem_deliveries {as : List (IpArrival D)} {x : ι × List Byte} :
    x ∈ deliveries h IpState.empty as ↔
      ∃ a ∈ as, a.Delivers h ∧ x = (a.datagram, (D a.datagram).first) := by
  simp only [deliveries_empty, List.mem_map, List.mem_filter, decide_eq_true_eq]
  constructor
  · rintro ⟨a, ⟨ha, hdelivers⟩, rfl⟩
    exact ⟨a, ha, hdelivers, rfl⟩
  · rintro ⟨a, ha, hdelivers, rfl⟩
    exact ⟨a, ⟨ha, hdelivers⟩, rfl⟩

theorem IpArrival.index_of_single (a : IpArrival D)
    (hsingle : ¬ 1 < (D a.datagram).pieces.length) : a.index = 0 := by
  have hlt := a.carries.index_lt
  omega

theorem count_deliveries [DecidableEq ι] (as : List (IpArrival D)) (d : ι) :
    ((deliveries h IpState.empty as).filter fun x => x.1 = d).length =
      (as.filter fun a => a.Delivers h ∧ a.datagram = d).length := by
  rw [deliveries_empty, List.filter_map, List.length_map, List.filter_filter]
  congr 2
  funext a
  simp [and_comm]

/-- The handlers are called as reassembly requires exactly on the runs that need none. -/
theorem reassembles_iff [DecidableEq ι] (h : IpHandlers) (as : List (IpArrival D)) :
    Reassembles h as (deliveries h IpState.empty as) ↔ WithoutReassembly h as := by
  constructor
  · rintro ⟨hcomplete, honce, hdelivered⟩
    constructor
    · intro d hreg hmulti
      have hstart : ∀ a ∈ as, a.datagram = d → a.index = 0 → ¬ checksumOk a.packet := by
        rintro a ha rfl hindex hsum
        have hfirst := hcomplete _ (mem_deliveries.mpr ⟨a, ha, ⟨hsum, hindex, hreg⟩, rfl⟩)
        exact (D a.datagram).payload_ne_first hmulti hfirst
      refine ⟨hstart, ?_⟩
      by_contra hall
      push Not at hall
      obtain ⟨x, hx, hxd⟩ := hdelivered d hreg hall
      obtain ⟨a, ha, hdelivers, rfl⟩ := mem_deliveries.mp hx
      exact hstart a ha hxd hdelivers.2.1 hdelivers.1
    · intro d hreg hsingle
      constructor
      · have hcount := honce d
        rw [count_deliveries] at hcount
        refine le_trans
          (List.Sublist.length_le (List.monotone_filter_right _ fun a ha => ?_)) hcount
        simp only [decide_eq_true_eq] at ha ⊢
        obtain ⟨rfl, hsum⟩ := ha
        exact ⟨⟨hsum, a.index_of_single hsingle, hreg⟩, rfl⟩
      · rintro ⟨a, ha, rfl⟩
        have hall : ∀ i < (D a.datagram).pieces.length,
            ∃ b ∈ as, b.datagram = a.datagram ∧ b.index = i := fun i hi =>
          ⟨a, ha, rfl, by rw [a.index_of_single hsingle]; omega⟩
        obtain ⟨x, hx, hxd⟩ := hdelivered a.datagram hreg hall
        obtain ⟨b, hb, hdelivers, rfl⟩ := mem_deliveries.mp hx
        exact ⟨b, hb, hxd, hdelivers.1⟩
  · rintro ⟨hparts, hsingles⟩
    have hone : ∀ a ∈ as, a.Delivers h → ¬ 1 < (D a.datagram).pieces.length :=
      fun a ha ⟨hsum, hindex, hreg⟩ hmulti =>
        (hparts a.datagram hreg hmulti).1 a ha rfl hindex hsum
    constructor
    · intro x hx
      obtain ⟨a, ha, hdelivers, rfl⟩ := mem_deliveries.mp hx
      exact ((D a.datagram).payload_of_single (hone a ha hdelivers)).symm
    · intro d
      rw [count_deliveries]
      by_cases hsome : ∃ a ∈ as, a.Delivers h ∧ a.datagram = d
      · obtain ⟨a, ha, hdelivers, rfl⟩ := hsome
        have hcount := (hsingles a.datagram hdelivers.2.2 (hone a ha hdelivers)).1
        refine le_trans
          (List.Sublist.length_le (List.monotone_filter_right _ fun b hb => ?_)) hcount
        simp only [decide_eq_true_eq] at hb ⊢
        exact ⟨hb.2, hb.1.1⟩
      · have hnil : as.filter (fun a => a.Delivers h ∧ a.datagram = d) = [] := by
          refine List.filter_eq_nil_iff.mpr fun a ha hboth => hsome ⟨a, ha, ?_⟩
          simpa using hboth
        rw [hnil]
        exact Nat.zero_le 1
    · intro d hreg hall
      by_cases hmulti : 1 < (D d).pieces.length
      · obtain ⟨-, i, hi, hmissing⟩ := hparts d hreg hmulti
        obtain ⟨a, ha, had, hai⟩ := hall i hi
        exact absurd hai (hmissing a ha had)
      · obtain ⟨a, ha, had, -⟩ := hall 0 (List.length_pos_of_ne_nil (D d).pieces_ne)
        obtain ⟨b, hb, rfl, hsum⟩ := (hsingles d hreg hmulti).2 ⟨a, ha, had⟩
        exact ⟨_, mem_deliveries.mpr ⟨b, hb, ⟨hsum, b.index_of_single hmulti, hreg⟩, rfl⟩, rfl⟩

def twoParts : IpDatagram where
  srcIp := 0x0a000202
  dstIp := 0x0a00020f
  id := 1
  protocol := 17
  pieces := [[0, 67, 0, 68, 0, 16, 0, 0], [1, 2, 3, 4, 5, 6, 7, 8]]
  pieces_ne := by decide
  inner := fun i hi => by
    obtain rfl : i = 0 := by simp only [List.length_cons, List.length_nil] at hi; omega
    simp
  last := by decide

def firstPart : Buffer := fun i =>
  [69, 0, 0, 28, 0, 1, 32, 0, 64, 17, 66, 192, 10, 0, 2, 2, 10, 0, 2, 15,
    0, 67, 0, 68, 0, 16, 0, 0].getD i 0

def secondPart : Buffer := fun i =>
  [69, 0, 0, 28, 0, 1, 0, 1, 64, 17, 98, 191, 10, 0, 2, 2, 10, 0, 2, 15,
    1, 2, 3, 4, 5, 6, 7, 8].getD i 0

theorem firstPart_carries : twoParts.Carries 0 firstPart 28 where
  index_lt := by decide
  version := by decide
  headerWords := by decide
  headerSum := by unfold headerSumOk; decide
  total := by decide
  within := by decide
  id := by decide
  reserved := by decide
  dontFragment := by decide
  moreFragments := by decide
  fragmentOffset := by decide
  protocol := by decide
  srcIp := by decide
  dstIp := by decide
  data := by decide

theorem secondPart_carries : twoParts.Carries 1 secondPart 28 where
  index_lt := by decide
  version := by decide
  headerWords := by decide
  headerSum := by unfold headerSumOk; decide
  total := by decide
  within := by decide
  id := by decide
  reserved := by decide
  dontFragment := by decide
  moreFragments := by decide
  fragmentOffset := by decide
  protocol := by decide
  srcIp := by decide
  dstIp := by decide
  data := by decide

theorem twoParts_not_reassembled :
    ¬ ∀ (D : Unit → IpDatagram) (h : IpHandlers) (as : List (IpArrival D)),
      Reassembles h as (deliveries h IpState.empty as) := by
  intro hall
  have hboth := hall (fun _ => twoParts) ⟨fun _ => true, false, fun _ => false⟩
    [⟨(), 0, firstPart, 28, ⟨true, none, none, true, 0⟩, firstPart_carries⟩,
      ⟨(), 1, secondPart, 28, ⟨true, none, none, true, 0⟩, secondPart_carries⟩]
  have hfirst := hboth.complete ((), twoParts.first) <| mem_deliveries.mpr
    ⟨_, List.mem_cons_self, ⟨by decide, rfl, rfl⟩, rfl⟩
  exact twoParts.payload_ne_first (by decide) hfirst

end RetroRocket
