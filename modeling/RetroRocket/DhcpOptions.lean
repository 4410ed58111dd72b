import RetroRocket.Dhcp

/-!
# Where `get_dhcp_options` reads

The loop takes every option for a type, a length and a value, and it ends behind the structure,
however long the datagram is. A padding option has no length, so the loop goes on elsewhere, unless
another one is behind it; an option may lie behind the datagram; and what is copied is read as 32
bits. When the loop keeps to the order of RFC 2132 is said of the bytes.
-/

namespace RetroRocket

namespace Dhcp

/-- Where the options are in `dhcp_packet_t`. -/
def optionsOffset : ℕ := 236

/-- `0`, for which there is no name in `dhcp_option_type_t`. -/
def optPad : ℕ := 0

/-- What the loop of `findOption` reads, as places in the options. -/
def findReads (options : Buffer) (type : ℕ) : ℕ → ℕ → ℕ → List ℕ
  | 0, _, _ => []
  | fuel + 1, currType, pos =>
    if currType ≠ optEnd ∧ pos < optionsSize then
      let currType := (options pos).toNat
      if currType = optEnd then [pos]
      else if currType = type then [pos, pos + 1]
      else
        [pos, pos + 1] ++
          findReads options type fuel currType (pos + (2 + (options (pos + 1)).toNat))
    else []

/-- The copy of the option at a place, if there is one, in what `kmalloc` returns. -/
def copyOption (p : DhcpPacket) (kmalloc : ℕ → Option Buffer) (type : ℕ) (found : Option ℕ) :
    Option Buffer := do
  let pos ← found
  let ret ← kmalloc type
  some fun i => if i < (p.options (pos + 1)).toNat then p.options (pos + 2 + i) else ret i

/-- What `get_dhcp_options` reads: the first type, the loop, and the value that is copied. -/
def getReads (p : DhcpPacket) (kmalloc : ℕ → Option Buffer) (type : ℕ) : List ℕ :=
  4 :: findReads p.options type optionsSize (p.options 4).toNat 4 ++
    match findOption p.options type optionsSize (p.options 4).toNat 4 with
    | none => []
    | some pos =>
      if (kmalloc type).isSome then
        (List.range (p.options (pos + 1)).toNat).map fun i => pos + 2 + i
      else []

/-- The first option of a type in the order of RFC 2132, in `size` bytes of options. -/
def rfcFind (options : Buffer) (size type : ℕ) : ℕ → ℕ → Option ℕ
  | 0, _ => none
  | fuel + 1, pos =>
    if size ≤ pos then none
    else if (options pos).toNat = optEnd then none
    else if (options pos).toNat = optPad then rfcFind options size type fuel (pos + 1)
    else if size < pos + 2 + (options (pos + 1)).toNat then none
    else if (options pos).toNat = type then some pos
    else rfcFind options size type fuel (pos + (2 + (options (pos + 1)).toNat))

end Dhcp

namespace DhcpClient

open Dhcp

variable (mac : Option (List Byte))

def optionUses (s : DhcpClient) (p : DhcpPacket) (kmalloc : ℕ → Option Buffer) : List (ℕ × ℕ) :=
  let use (type bytes : ℕ) : List (ℕ × ℕ) :=
    if (getDhcpOptions p kmalloc type).isSome then [(type, bytes)] else []
  if p.op ≠ reply then []
  else if mac.isNone ∨ some (p.clientHardwareAddr.take 6) ≠ mac then []
  else if p.xid ≠ s.currXid then []
  else match getDhcpOptions p kmalloc optType with
    | none => []
    | some type =>
      (optType, 1) ::
        if (type 0).toNat = offerType then use optServerIp 4
        else if (type 0).toNat = ackType then
          match getDhcpOptions p kmalloc optServerIp with
          | none => []
          | some serverIp =>
            (optServerIp, 4) ::
              if load32 serverIp ≠ s.selectedServer then []
              else use optSubnet 4 ++ use optDns 4 ++ use optGateway 4 ++ use optLeaseTime 4
        else []

end DhcpClient

namespace Dhcp

variable {options : Buffer} {p : DhcpPacket} {kmalloc : ℕ → Option Buffer}
  {size length type currType fuel pos q r : ℕ}

/-! ## What is asked of it -/

def optionLength (options : Buffer) (pos : ℕ) : ℕ := (options (pos + 1)).toNat

/-- `get_dhcp_options` for a datagram of some length: it comes to an end, it reads in the datagram,
and what it copies is the first option in the order of RFC 2132. -/
structure Parsed (p : DhcpPacket) (length : ℕ) (kmalloc : ℕ → Option Buffer) (type : ℕ) : Prop where
  returns : ∀ fuel, optionsSize ≤ fuel →
    findOption p.options type fuel (p.options 4).toNat 4 =
      findOption p.options type optionsSize (p.options 4).toNat 4
  reads : ∀ r ∈ getReads p kmalloc type, optionsOffset + r < length
  value : getDhcpOptions p kmalloc type =
    copyOption p kmalloc type
      (rfcFind p.options (length - optionsOffset) type (length - optionsOffset) 4)

structure OptionsSafe (mac : Option (List Byte)) (s : DhcpClient) (p : DhcpPacket) (length : ℕ)
    (kmalloc : ℕ → Option Buffer) : Prop where
  parsed : ∀ type, optPad < type → type < optEnd → Parsed p length kmalloc type
  uses : ∀ u ∈ s.optionUses mac p kmalloc, ∀ pos,
    findOption p.options u.1 optionsSize (p.options 4).toNat 4 = some pos →
      u.2 ≤ optionLength p.options pos

/-! ## When it does -/

/-- The options before `q`, taken for a type, a length and a value each, are of other types. -/
inductive Walks (options : Buffer) (type : ℕ) : ℕ → ℕ → Prop
  | refl : ∀ pos, Walks options type pos pos
  | step : ∀ {pos q}, pos < optionsSize → (options pos).toNat ≠ optEnd →
      (options pos).toNat ≠ type → Walks options type (pos + (2 + optionLength options pos)) q →
        Walks options type pos q

structure HeaderInside (options : Buffer) (size type : ℕ) (allocated : Prop) (q : ℕ) : Prop where
  start : q < size
  header : (options q).toNat ≠ optEnd → q + 1 < size
  value : (options q).toNat ≠ optEnd → (options q).toNat = type → allocated →
    q + 2 + optionLength options q ≤ size

/-- From `pos` to `q` the options are of other types and complete, and paddings come in pairs. -/
inductive InOrder (options : Buffer) (size type : ℕ) : ℕ → ℕ → Prop
  | refl : ∀ pos, InOrder options size type pos pos
  | other : ∀ {pos q}, pos < optionsSize → (options pos).toNat ≠ optEnd →
      (options pos).toNat ≠ optPad →
      (options pos).toNat ≠ type → pos + 2 + optionLength options pos ≤ size →
      InOrder options size type (pos + (2 + optionLength options pos)) q →
      InOrder options size type pos q
  | pads : ∀ {pos q}, pos < optionsSize → (options pos).toNat = optPad →
      (options (pos + 1)).toNat = optPad → InOrder options size type (pos + 2) q →
      InOrder options size type pos q

/-- A padding that has something else behind it, which is then taken for its length. -/
def LonePad (options : Buffer) (q : ℕ) : Prop :=
  q < optionsSize ∧ (options q).toNat = optPad ∧ (options (q + 1)).toNat ≠ optPad

/-- In the order of RFC 2132 the options from one place on lead to another one. -/
inductive RfcWalks (options : Buffer) (size : ℕ) : ℕ → ℕ → Prop
  | refl : ∀ pos, RfcWalks options size pos pos
  | pad : ∀ {pos q}, pos < size → (options pos).toNat = optPad →
      RfcWalks options size (pos + 1) q → RfcWalks options size pos q
  | option : ∀ {pos q}, (options pos).toNat ≠ optEnd → (options pos).toNat ≠ optPad →
      pos + 2 + optionLength options pos ≤ size →
      RfcWalks options size (pos + (2 + optionLength options pos)) q → RfcWalks options size pos q

/-- The walk for a type comes to an option of it, and there is memory for its copy. -/
def Found (p : DhcpPacket) (kmalloc : ℕ → Option Buffer) (type pos : ℕ) : Prop :=
  Walks p.options type 4 pos ∧ pos < optionsSize ∧ (p.options pos).toNat = type ∧
    (kmalloc type).isSome

def Long (p : DhcpPacket) (kmalloc : ℕ → Option Buffer) (type bytes : ℕ) : Prop :=
  ∀ pos, Found p kmalloc type pos → bytes ≤ optionLength p.options pos

/-- The options that are read are long enough: one byte of the type, and four of the server of an
offer or an acknowledgement and of what else comes with that of the selected server. -/
structure UsesLong (mac : Option (List Byte)) (s : DhcpClient) (p : DhcpPacket)
    (kmalloc : ℕ → Option Buffer) : Prop where
  type : p.op = reply → mac = some (p.clientHardwareAddr.take 6) → p.xid = s.currXid →
    Long p kmalloc optType 1
  server : ∀ pos, p.op = reply → mac = some (p.clientHardwareAddr.take 6) → p.xid = s.currXid →
    Found p kmalloc optType pos →
    (p.options (pos + 2)).toNat = offerType ∨ (p.options (pos + 2)).toNat = ackType →
    Long p kmalloc optServerIp 4
  parameters : ∀ pos q, p.op = reply → mac = some (p.clientHardwareAddr.take 6) →
    p.xid = s.currXid → Found p kmalloc optType pos → (p.options (pos + 2)).toNat = ackType →
    Found p kmalloc optServerIp q → load32 (fun i => p.options (q + 2 + i)) = s.selectedServer →
    ∀ t ∈ [optSubnet, optDns, optGateway, optLeaseTime], Long p kmalloc t 4

/-- What a datagram is to be like: the options that the loop comes to lie in it, a padding has
another one or the end behind it, and behind the 128 bytes no option of a type is left that was not
there before and that there is memory for. -/
structure OptionsKeep (mac : Option (List Byte)) (s : DhcpClient) (p : DhcpPacket) (length : ℕ)
    (kmalloc : ℕ → Option Buffer) : Prop where
  inside : ∀ type, optPad < type → type < optEnd → ∀ q, Walks p.options type 4 q → q < optionsSize →
    HeaderInside p.options (length - optionsOffset) type (kmalloc type).isSome q
  pads : ∀ type, optPad < type → type < optEnd → ∀ q,
    InOrder p.options (length - optionsOffset) type 4 q → LonePad p.options q →
    (p.options (q + 1)).toNat = optEnd
  past : ∀ type, optPad < type → type < optEnd → (kmalloc type).isSome → ∀ q,
    InOrder p.options (length - optionsOffset) type 4 q → optionsSize ≤ q →
    ∀ r, RfcWalks p.options (length - optionsOffset) q r →
      r + 2 + optionLength p.options r ≤ length - optionsOffset → (p.options r).toNat ≠ type
  long : UsesLong mac s p kmalloc

/-- Behind the padding at `q` an option is lost: it is complete, its type is neither before it nor
where the loop goes on, and there is memory for its copy. -/
structure Hides (p : DhcpPacket) (length : ℕ) (kmalloc : ℕ → Option Buffer) (q : ℕ) : Prop where
  complete : q + 1 + 2 + optionLength p.options (q + 1) ≤ length - optionsOffset
  before : InOrder p.options (length - optionsOffset) (p.options (q + 1)).toNat 4 q
  behind : ∀ r, Walks p.options (p.options (q + 1)).toNat (q + (2 + optionLength p.options q)) r →
    r < optionsSize → (p.options r).toNat ≠ (p.options (q + 1)).toNat
  allocated : (kmalloc (p.options (q + 1)).toNat).isSome

/-! ## The loop -/

theorem findOption_past (hpos : optionsSize ≤ pos) :
    findOption options type fuel currType pos = none := by
  cases fuel with
  | zero => rfl
  | succ fuel => exact if_neg fun hboth => absurd hboth.2 (not_lt.mpr hpos)

theorem findReads_past (hpos : optionsSize ≤ pos) :
    findReads options type fuel currType pos = [] := by
  cases fuel with
  | zero => rfl
  | succ fuel => exact if_neg fun hboth => absurd hboth.2 (not_lt.mpr hpos)

theorem findOption_succ (hcurr : currType ≠ optEnd) (hpos : pos < optionsSize) :
    findOption options type (fuel + 1) currType pos =
      if (options pos).toNat = optEnd then none
      else if (options pos).toNat = type then some pos
      else findOption options type fuel (options pos).toNat
        (pos + (2 + optionLength options pos)) := if_pos ⟨hcurr, hpos⟩

theorem findReads_succ (hcurr : currType ≠ optEnd) (hpos : pos < optionsSize) :
    findReads options type (fuel + 1) currType pos =
      if (options pos).toNat = optEnd then [pos]
      else if (options pos).toNat = type then [pos, pos + 1]
      else [pos, pos + 1] ++ findReads options type fuel (options pos).toNat
        (pos + (2 + optionLength options pos)) := if_pos ⟨hcurr, hpos⟩

theorem findOption_fuel {fuel' : ℕ} (hfuel : optionsSize ≤ fuel + pos)
    (hfuel' : optionsSize ≤ fuel' + pos) :
    findOption options type fuel currType pos = findOption options type fuel' currType pos := by
  induction fuel generalizing fuel' currType pos with
  | zero =>
    have hpos : optionsSize ≤ pos := by omega
    rw [findOption_past hpos, findOption_past hpos]
  | succ fuel ih =>
    by_cases hpos : optionsSize ≤ pos
    · rw [findOption_past hpos, findOption_past hpos]
    · obtain ⟨fuel', rfl⟩ : ∃ n, fuel' = n + 1 := ⟨fuel' - 1, by omega⟩
      by_cases hcurr : currType = optEnd
      · exact (if_neg fun hboth => hboth.1 hcurr).trans (if_neg fun hboth => hboth.1 hcurr).symm
      · rw [findOption_succ hcurr (not_le.mp hpos), findOption_succ hcurr (not_le.mp hpos),
          ih (by omega) (by omega : optionsSize ≤ fuel' + _)]

theorem findOption_curr {currType' : ℕ} (hcurr : currType ≠ optEnd) (hcurr' : currType' ≠ optEnd) :
    findOption options type fuel currType pos = findOption options type fuel currType' pos := by
  by_cases hpos : optionsSize ≤ pos
  · rw [findOption_past hpos, findOption_past hpos]
  · cases fuel with
    | zero => rfl
    | succ fuel =>
      rw [findOption_succ hcurr (not_le.mp hpos), findOption_succ hcurr' (not_le.mp hpos)]

abbrev find (options : Buffer) (type pos : ℕ) : Option ℕ :=
  findOption options type optionsSize optPad pos

theorem pad_ne_end : optPad ≠ optEnd := by decide

theorem find_past (hpos : optionsSize ≤ pos) : find options type pos = none := findOption_past hpos

theorem find_eq (hpos : pos < optionsSize) :
    find options type pos =
      if (options pos).toNat = optEnd then none
      else if (options pos).toNat = type then some pos
      else find options type (pos + (2 + optionLength options pos)) := by
  have hsucc : find options type pos = findOption options type (127 + 1) optPad pos := rfl
  rw [hsucc, findOption_succ pad_ne_end hpos]
  by_cases hend : (options pos).toNat = optEnd
  · rw [if_pos hend, if_pos hend]
  · have hsize : optionsSize ≤ 127 + (pos + (2 + optionLength options pos)) := by
      unfold optionsSize
      omega
    rw [if_neg hend, if_neg hend, findOption_curr hend pad_ne_end,
      findOption_fuel hsize (Nat.le_add_right optionsSize _)]

theorem find_start (options : Buffer) (type : ℕ) :
    findOption options type optionsSize (options 4).toNat 4 = find options type 4 := by
  by_cases hend : (options 4).toNat = optEnd
  · rw [find_eq (by decide), if_pos hend]
    exact if_neg fun hboth => hboth.1 hend
  · exact findOption_curr hend pad_ne_end

theorem Walks.past (h : Walks options type pos q) (hpos : optionsSize ≤ pos) : q = pos := by
  cases h with
  | refl => rfl
  | step hlt => exact absurd hlt (not_lt.mpr hpos)

theorem walks_iff (hpos : pos < optionsSize) (hend : (options pos).toNat ≠ optEnd)
    (htype : (options pos).toNat ≠ type) :
    Walks options type pos q ↔
      q = pos ∨ Walks options type (pos + (2 + optionLength options pos)) q := by
  constructor
  · intro h
    cases h with
    | refl => exact Or.inl rfl
    | step _ _ _ hrest => exact Or.inr hrest
  · rintro (rfl | hrest)
    · exact .refl _
    · exact .step hpos hend htype hrest

theorem walks_stop (hstop : (options pos).toNat = optEnd ∨ (options pos).toNat = type) :
    Walks options type pos q ↔ q = pos := by
  constructor
  · intro h
    cases h with
    | refl => rfl
    | step _ hend htype _ => exact absurd hstop (not_or.mpr ⟨hend, htype⟩)
  · rintro rfl
    exact .refl _

theorem mem_findReads (hcurr : currType ≠ optEnd) (hfuel : optionsSize ≤ fuel + pos) :
    r ∈ findReads options type fuel currType pos ↔
      ∃ q, Walks options type pos q ∧ q < optionsSize ∧
        (r = q ∨ (r = q + 1 ∧ (options q).toNat ≠ optEnd)) := by
  induction fuel generalizing currType pos with
  | zero =>
    have hpos : optionsSize ≤ pos := by omega
    rw [findReads_past hpos]
    refine ⟨fun h => absurd h List.not_mem_nil, ?_⟩
    rintro ⟨q, hwalks, hq, -⟩
    rw [hwalks.past hpos] at hq
    exact absurd hq (not_lt.mpr hpos)
  | succ fuel ih =>
    by_cases hpos : pos < optionsSize
    · rw [findReads_succ hcurr hpos]
      by_cases hend : (options pos).toNat = optEnd
      · rw [if_pos hend]
        simp only [walks_stop (Or.inl hend), exists_eq_left, hpos, hend, ne_eq,
          not_true_eq_false, and_false, or_false, true_and, List.mem_singleton]
      · rw [if_neg hend]
        by_cases htype : (options pos).toNat = type
        · rw [if_pos htype]
          simp only [walks_stop (Or.inr htype), exists_eq_left, hpos, hend, ne_eq,
            not_false_eq_true, and_true, true_and, List.mem_cons, List.not_mem_nil, or_false]
        · rw [if_neg htype, List.mem_append, ih hend (by omega)]
          simp only [walks_iff hpos hend htype, List.mem_cons, List.not_mem_nil, or_false]
          constructor
          · rintro (hr | ⟨q, hwalks, hq⟩)
            · exact ⟨pos, Or.inl rfl, hpos, hr.imp_right fun hr => ⟨hr, hend⟩⟩
            · exact ⟨q, Or.inr hwalks, hq⟩
          · rintro ⟨q, rfl | hwalks, hq, hr⟩
            · exact Or.inl (hr.imp_right And.left)
            · exact Or.inr ⟨q, hwalks, hq, hr⟩
    · rw [findReads_past (not_lt.mp hpos)]
      refine ⟨fun h => absurd h List.not_mem_nil, ?_⟩
      rintro ⟨q, hwalks, hq, -⟩
      rw [hwalks.past (not_lt.mp hpos)] at hq
      exact absurd hq hpos

theorem find_eq_some_iff (htype : type ≠ optEnd) :
    find options type pos = some q ↔
      Walks options type pos q ∧ q < optionsSize ∧ (options q).toNat = type := by
  constructor
  · intro h
    induction hn : optionsSize - pos using Nat.strong_induction_on generalizing pos with
    | _ n ih =>
      by_cases hpos : pos < optionsSize
      · rw [find_eq hpos] at h
        by_cases hend : (options pos).toNat = optEnd
        · rw [if_pos hend] at h
          cases h
        · rw [if_neg hend] at h
          by_cases hmatch : (options pos).toNat = type
          · rw [if_pos hmatch] at h
            cases h
            exact ⟨.refl _, hpos, hmatch⟩
          · rw [if_neg hmatch] at h
            obtain ⟨hwalks, hrest⟩ := ih _ (by omega) h rfl
            exact ⟨.step hpos hend hmatch hwalks, hrest⟩
      · rw [find_past (not_lt.mp hpos)] at h
        cases h
  · rintro ⟨hwalks, hq, hmatch⟩
    induction hwalks with
    | refl =>
      rw [find_eq hq, if_neg (hmatch ▸ htype), if_pos hmatch]
    | step hpos hend hne _ ih =>
      rw [find_eq hpos, if_neg hend, if_neg hne]
      exact ih hq hmatch

theorem reads_inside_iff (htype : type < optEnd) :
    (∀ r ∈ getReads p kmalloc type, optionsOffset + r < length) ↔
      ∀ q, Walks p.options type 4 q → q < optionsSize →
        HeaderInside p.options (length - optionsOffset) type (kmalloc type).isSome q := by
  have hoffset : ∀ r, optionsOffset + r < length ↔ r < length - optionsOffset := by omega
  have hhead : ∀ r, (r = 4 ∨ r ∈ findReads p.options type optionsSize (p.options 4).toNat 4) ↔
      ∃ q, Walks p.options type 4 q ∧ q < optionsSize ∧
        (r = q ∨ (r = q + 1 ∧ (p.options q).toNat ≠ optEnd)) := by
    intro r
    by_cases hend : (p.options 4).toNat = optEnd
    · have hnil : findReads p.options type optionsSize (p.options 4).toNat 4 = [] :=
        if_neg fun hboth => hboth.1 hend
      rw [hnil]
      simp only [List.not_mem_nil, or_false, walks_stop (Or.inl hend), exists_eq_left, hend,
        ne_eq, not_true_eq_false, and_false]
      exact ⟨fun hr => ⟨by decide, hr⟩, And.right⟩
    · rw [mem_findReads hend (Nat.le_add_right _ _)]
      refine ⟨?_, Or.inr⟩
      rintro (rfl | h)
      · exact ⟨4, .refl _, by decide, Or.inl rfl⟩
      · exact h
  have hfind := find_start p.options type
  unfold getReads
  rw [hfind]
  simp only [List.cons_append, List.mem_cons, List.mem_append]
  constructor
  · intro h q hwalks hq
    have hread : ∀ r, (r = q ∨ (r = q + 1 ∧ (p.options q).toNat ≠ optEnd)) →
        r < length - optionsOffset := by
      intro r hr
      refine (hoffset r).mp (h r ?_)
      rw [← or_assoc]
      exact Or.inl ((hhead r).mpr ⟨q, hwalks, hq, hr⟩)
    refine ⟨hread q (Or.inl rfl), fun hend => hread _ (Or.inr ⟨rfl, hend⟩), ?_⟩
    intro hend hmatch halloc
    by_contra hout
    have hfound := (find_eq_some_iff htype.ne).mpr ⟨hwalks, hq, hmatch⟩
    have hlength := hread _ (Or.inr ⟨rfl, hend⟩)
    have hlast := (hoffset _).mp (h (q + 2 + (optionLength p.options q - 1)) (Or.inr (Or.inr ?_)))
    · omega
    · rw [hfound]
      dsimp only
      rw [if_pos halloc, List.mem_map]
      refine ⟨_, List.mem_range.mpr ?_, rfl⟩
      change _ < optionLength p.options q
      omega
  · intro h r hr
    rw [← or_assoc, hhead] at hr
    rw [hoffset]
    rcases hr with ⟨q, hwalks, hq, rfl | ⟨rfl, hend⟩⟩ | hr
    · exact (h _ hwalks hq).start
    · exact (h _ hwalks hq).header hend
    · cases hfound : find p.options type 4 with
      | none =>
        rw [hfound] at hr
        cases hr
      | some q =>
        obtain ⟨hwalks, hq, hmatch⟩ := (find_eq_some_iff htype.ne).mp hfound
        rw [hfound] at hr
        dsimp only at hr
        split at hr
        · next halloc =>
          obtain ⟨i, hi, rfl⟩ := List.mem_map.mp hr
          have hvalue := (h q hwalks hq).value (hmatch ▸ htype.ne) hmatch halloc
          have hi : i < optionLength p.options q := List.mem_range.mp hi
          omega
        · cases hr

/-! ## The order -/

theorem rfcFind_fuel {fuel' : ℕ} (hfuel : size ≤ fuel + pos) (hfuel' : size ≤ fuel' + pos) :
    rfcFind options size type fuel pos = rfcFind options size type fuel' pos := by
  induction fuel generalizing fuel' pos with
  | zero =>
    cases fuel' with
    | zero => rfl
    | succ fuel' => exact (if_pos (by omega)).symm
  | succ fuel ih =>
    cases fuel' with
    | zero => exact if_pos (by omega)
    | succ fuel' =>
      unfold rfcFind
      rw [ih (by omega) (by omega : size ≤ fuel' + _), ih (by omega) (by omega : size ≤ fuel' + _)]

abbrev rfc (options : Buffer) (size type pos : ℕ) : Option ℕ := rfcFind options size type size pos

theorem rfc_eq (hpos : pos < size) :
    rfc options size type pos =
      if (options pos).toNat = optEnd then none
      else if (options pos).toNat = optPad then rfc options size type (pos + 1)
      else if size < pos + 2 + optionLength options pos then none
      else if (options pos).toNat = type then some pos
      else rfc options size type (pos + (2 + optionLength options pos)) := by
  obtain ⟨n, rfl⟩ : ∃ n, size = n + 1 := ⟨size - 1, by omega⟩
  have hunfold : rfc options (n + 1) type pos = _ := if_neg (not_le.mpr hpos)
  rw [hunfold, rfcFind_fuel (by omega) (Nat.le_add_right (n + 1) (pos + 1)),
    rfcFind_fuel (by omega) (Nat.le_add_right (n + 1) (pos + (2 + (options (pos + 1)).toNat)))]
  rfl

theorem rfc_past (hpos : size ≤ pos) : rfc options size type pos = none := by
  cases size with
  | zero => rfl
  | succ n => exact if_pos hpos

theorem InOrder.same (h : InOrder options size type pos q) (hpad : optPad < type) :
    find options type pos = find options type q ∧
      rfc options size type pos = rfc options size type q := by
  induction h with
  | refl => exact ⟨rfl, rfl⟩
  | @other pos q hpos hend hnotPad htype hcomplete _ ih =>
    rw [find_eq hpos, if_neg hend, if_neg htype, rfc_eq (by omega), if_neg hend, if_neg hnotPad,
      if_neg (not_lt.mpr hcomplete), if_neg htype]
    exact ih
  | @pads pos q hpos hfirst hsecond _ ih =>
    have hend : (options pos).toNat ≠ optEnd := hfirst ▸ pad_ne_end
    have hend' : (options (pos + 1)).toNat ≠ optEnd := hsecond ▸ pad_ne_end
    have hlength : pos + (2 + optionLength options pos) = pos + 2 := by
      change pos + (2 + (options (pos + 1)).toNat) = pos + 2
      rw [hsecond]
      rfl
    rw [find_eq hpos, if_neg hend, if_neg (by omega), hlength]
    refine ⟨ih.1, ?_⟩
    by_cases hsize : pos + 1 < size
    · rw [rfc_eq (by omega), if_neg hend, if_pos hfirst, rfc_eq hsize, if_neg hend', if_pos hsecond]
      exact ih.2
    · rw [← ih.2, rfc_past (by omega : size ≤ pos + 2)]
      by_cases hpos' : pos < size
      · rw [rfc_eq hpos', if_neg hend, if_pos hfirst, rfc_past (by omega)]
      · exact rfc_past (by omega)

theorem copyOption_of_none (h : kmalloc type = none) (found : Option ℕ) :
    copyOption p kmalloc type found = none := by
  unfold copyOption
  rw [h]
  cases found <;> rfl

/-- What is found in the order of RFC 2132 is a complete option that the walk in this order comes
to. -/
theorem rfcWalks_of_rfc (h : rfc options size type pos = some r) :
    RfcWalks options size pos r ∧ r + 2 + optionLength options r ≤ size ∧
      (options r).toNat = type := by
  induction hn : size - pos using Nat.strong_induction_on generalizing pos with
  | _ n ih =>
    by_cases hpos : pos < size
    · rw [rfc_eq hpos] at h
      by_cases hend : (options pos).toNat = optEnd
      · rw [if_pos hend] at h
        cases h
      · rw [if_neg hend] at h
        by_cases hpad : (options pos).toNat = optPad
        · rw [if_pos hpad] at h
          obtain ⟨hwalks, hrest⟩ := ih _ (by omega) h rfl
          exact ⟨.pad hpos hpad hwalks, hrest⟩
        · rw [if_neg hpad] at h
          by_cases hcomplete : size < pos + 2 + optionLength options pos
          · rw [if_pos hcomplete] at h
            cases h
          · rw [if_neg hcomplete] at h
            by_cases hmatch : (options pos).toNat = type
            · rw [if_pos hmatch] at h
              cases h
              exact ⟨.refl _, not_lt.mp hcomplete, hmatch⟩
            · rw [if_neg hmatch] at h
              obtain ⟨hwalks, hrest⟩ := ih _ (by omega) h rfl
              exact ⟨.option hend hpad (not_lt.mp hcomplete) hwalks, hrest⟩
    · rw [rfc_past (not_lt.mp hpos)] at h
      cases h

theorem rfc_isSome (hpad : optPad < type) (htype : type < optEnd)
    (hwalks : RfcWalks options size pos r) (hcomplete : r + 2 + optionLength options r ≤ size)
    (hmatch : (options r).toNat = type) : (rfc options size type pos).isSome := by
  induction hwalks with
  | refl pos =>
    rw [rfc_eq (by omega), if_neg (by omega), if_neg (by omega), if_neg (not_lt.mpr hcomplete),
      if_pos hmatch]
    rfl
  | pad hpos hfirst _ ih =>
    rw [rfc_eq hpos, if_neg (hfirst ▸ pad_ne_end), if_pos hfirst]
    exact ih hcomplete hmatch
  | option hend hnotPad hfits _ ih =>
    rw [rfc_eq (by omega), if_neg hend, if_neg hnotPad, if_neg (not_lt.mpr hfits)]
    split
    · rfl
    · exact ih hcomplete hmatch

/-- The loop finds what RFC 2132 has, where paddings have the end behind them and nothing is left
behind the 128 bytes. -/
theorem value_of_keep (hpad : optPad < type)
    (hinside : ∀ q, Walks p.options type pos q → q < optionsSize →
      HeaderInside p.options size type (kmalloc type).isSome q)
    (hpads : ∀ q, InOrder p.options size type pos q → LonePad p.options q →
      (p.options (q + 1)).toNat = optEnd)
    (hpast : (kmalloc type).isSome → ∀ q, InOrder p.options size type pos q → optionsSize ≤ q →
      ∀ r, RfcWalks p.options size q r → r + 2 + optionLength p.options r ≤ size →
        (p.options r).toNat ≠ type) :
    copyOption p kmalloc type (find p.options type pos) =
      copyOption p kmalloc type (rfc p.options size type pos) := by
  cases halloc : kmalloc type with
  | none => rw [copyOption_of_none halloc, copyOption_of_none halloc]
  | some ret =>
    have hsome : (kmalloc type).isSome := by
      rw [halloc]
      rfl
    congr 1
    induction hn : optionsSize - pos using Nat.strong_induction_on generalizing pos with
    | _ n ih =>
      by_cases hpos : pos < optionsSize
      · have hheader := hinside pos (.refl _) hpos
        have hsize := hheader.start
        by_cases hend : (p.options pos).toNat = optEnd
        · rw [find_eq hpos, if_pos hend, rfc_eq hsize, if_pos hend]
        · by_cases hfirst : (p.options pos).toNat = optPad
          · by_cases hsecond : (p.options (pos + 1)).toNat = optPad
            · have hlength : pos + 2 = pos + (2 + optionLength p.options pos) := by
                change pos + 2 = pos + (2 + (p.options (pos + 1)).toNat)
                rw [hsecond]
                rfl
              have hsame : InOrder p.options size type pos (pos + 2) :=
                .pads hpos hfirst hsecond (.refl _)
              rw [(hsame.same hpad).1, (hsame.same hpad).2]
              refine ih _ (by omega) (fun q hwalks => hinside q ?_)
                (fun q hq => hpads q (.pads hpos hfirst hsecond hq))
                (fun _ q hq => hpast hsome q (.pads hpos hfirst hsecond hq)) rfl
              exact .step hpos hend (by omega) (hlength ▸ hwalks)
            · -- the end is taken for a length, which leads behind the structure
              have hlast := hpads pos (.refl _) ⟨hpos, hfirst, hsecond⟩
              have hlength : optionLength p.options pos = 255 := hlast
              have hpast' : optionsSize ≤ pos + (2 + optionLength p.options pos) := by
                rw [hlength]
                unfold optionsSize
                omega
              rw [find_eq hpos, if_neg hend, if_neg (by omega), find_past hpast', rfc_eq hsize,
                if_neg hend, if_pos hfirst, rfc_eq (hheader.header hend), if_pos hlast]
          · by_cases hmatch : (p.options pos).toNat = type
            · have hvalue := hheader.value hend hmatch hsome
              rw [find_eq hpos, if_neg hend, if_pos hmatch, rfc_eq hsize,
                if_neg hend, if_neg hfirst,
                if_neg (not_lt.mpr hvalue), if_pos hmatch]
            · by_cases hcomplete : size < pos + 2 + optionLength p.options pos
              · have hpast' : optionsSize ≤ pos + (2 + optionLength p.options pos) := by
                  by_contra hlt
                  have hstart :=
                    (hinside _ (.step hpos hend hmatch (.refl _)) (not_le.mp hlt)).start
                  omega
                rw [find_eq hpos, if_neg hend, if_neg hmatch, find_past hpast', rfc_eq hsize,
                  if_neg hend, if_neg hfirst, if_pos hcomplete]
              · have hcomplete := not_lt.mp hcomplete
                have hsame : InOrder p.options size type pos
                    (pos + (2 + optionLength p.options pos)) :=
                  .other hpos hend hfirst hmatch hcomplete (.refl _)
                rw [(hsame.same hpad).1, (hsame.same hpad).2]
                exact ih _ (by omega) (fun q hwalks => hinside q (.step hpos hend hmatch hwalks))
                  (fun q hq => hpads q (.other hpos hend hfirst hmatch hcomplete hq))
                  (fun _ q hq => hpast hsome q (.other hpos hend hfirst hmatch hcomplete hq)) rfl
      · rw [find_past (not_lt.mp hpos)]
        cases hrfc : rfc p.options size type pos with
        | none => rfl
        | some r =>
          obtain ⟨hwalks, hcomplete, hmatch⟩ := rfcWalks_of_rfc hrfc
          exact absurd hmatch (hpast hsome pos (.refl _) (not_lt.mp hpos) r hwalks hcomplete)

theorem getDhcpOptions_eq (p : DhcpPacket) (kmalloc : ℕ → Option Buffer) (type : ℕ) :
    getDhcpOptions p kmalloc type = copyOption p kmalloc type (find p.options type 4) := by
  rw [← find_start]
  rfl

theorem copyOption_ne_none {found : Option ℕ} (hfound : found.isSome)
    (halloc : (kmalloc type).isSome) :
    copyOption p kmalloc type found ≠ none := by
  obtain ⟨pos, rfl⟩ := Option.isSome_iff_exists.mp hfound
  obtain ⟨ret, hret⟩ := Option.isSome_iff_exists.mp halloc
  unfold copyOption
  rw [hret]
  exact Option.some_ne_none _

/-- What the loop finds behind a place on the common part of the two walks is there in the order of
RFC 2132. -/
theorem Parsed.value_at (h : Parsed p length kmalloc type) (hpad : optPad < type)
    (hq : InOrder p.options (length - optionsOffset) type 4 q) :
    copyOption p kmalloc type (find p.options type q) =
      copyOption p kmalloc type (rfc p.options (length - optionsOffset) type q) := by
  have hvalue := h.value
  rw [getDhcpOptions_eq] at hvalue
  rw [← (hq.same hpad).1, ← (hq.same hpad).2]
  exact hvalue

theorem Parsed.past (h : Parsed p length kmalloc type) (hpad : optPad < type)
    (htype : type < optEnd)
    (halloc : (kmalloc type).isSome) (hq : InOrder p.options (length - optionsOffset) type 4 q)
    (hpos : optionsSize ≤ q) (hwalks : RfcWalks p.options (length - optionsOffset) q r)
    (hcomplete : r + 2 + optionLength p.options r ≤ length - optionsOffset) :
    (p.options r).toNat ≠ type := by
  intro hmatch
  have hvalue := h.value_at hpad hq
  rw [find_past hpos] at hvalue
  exact copyOption_ne_none (rfc_isSome hpad htype hwalks hcomplete hmatch) halloc hvalue.symm

theorem Hides.not_parsed (h : Hides p length kmalloc q) (hlone : LonePad p.options q)
    (hend : (p.options (q + 1)).toNat ≠ optEnd) :
    ¬ Parsed p length kmalloc (p.options (q + 1)).toNat := by
  intro hparsed
  obtain ⟨hpos, hfirst, hsecond⟩ := hlone
  have hpad : optPad < (p.options (q + 1)).toNat := Nat.pos_of_ne_zero hsecond
  have hcomplete := h.complete
  have hvalue := hparsed.value_at hpad h.before
  have hnone : find p.options (p.options (q + 1)).toNat q = none := by
    rw [find_eq hpos, if_neg (hfirst ▸ pad_ne_end), if_neg (by omega)]
    cases hfound : find p.options (p.options (q + 1)).toNat
      (q + (2 + optionLength p.options q)) with
    | none => rfl
    | some r =>
      obtain ⟨hwalks, hr, hmatch⟩ := (find_eq_some_iff hend).mp hfound
      exact absurd hmatch (h.behind r hwalks hr)
  have hsome : (rfc p.options (length - optionsOffset) (p.options (q + 1)).toNat q).isSome := by
    rw [rfc_eq (by omega), if_neg (hfirst ▸ pad_ne_end), if_pos hfirst, rfc_eq (by omega),
      if_neg hend, if_neg hsecond, if_neg (not_lt.mpr hcomplete), if_pos rfl]
    rfl
  rw [hnone] at hvalue
  exact copyOption_ne_none hsome h.allocated hvalue.symm

/-! ## The handler -/

def UseFits (p : DhcpPacket) (u : ℕ × ℕ) : Prop :=
  ∀ pos, findOption p.options u.1 optionsSize (p.options 4).toNat 4 = some pos →
    u.2 ≤ optionLength p.options pos

theorem Found.copied (h : Found p kmalloc type pos) (htype : type ≠ optEnd) :
    ∃ copy, getDhcpOptions p kmalloc type = some copy ∧
      ∀ i < optionLength p.options pos, copy i = p.options (pos + 2 + i) := by
  obtain ⟨hwalks, hpos, hmatch, halloc⟩ := h
  obtain ⟨ret, hret⟩ := Option.isSome_iff_exists.mp halloc
  refine ⟨fun i => if i < optionLength p.options pos then p.options (pos + 2 + i) else ret i, ?_,
    fun i hi => if_pos hi⟩
  rw [getDhcpOptions_eq, (find_eq_some_iff htype).mpr ⟨hwalks, hpos, hmatch⟩]
  unfold copyOption
  rw [hret]
  rfl

theorem exists_found {copy : Buffer} (h : getDhcpOptions p kmalloc type = some copy)
    (htype : type ≠ optEnd) : ∃ pos, Found p kmalloc type pos := by
  have halloc : (kmalloc type).isSome := by
    cases hret : kmalloc type with
    | some ret => rfl
    | none =>
      rw [getDhcpOptions_eq, copyOption_of_none hret] at h
      cases h
  rw [getDhcpOptions_eq] at h
  cases hfound : find p.options type 4 with
  | none =>
    rw [hfound] at h
    cases h
  | some pos =>
    obtain ⟨hwalks, hpos, hmatch⟩ := (find_eq_some_iff htype).mp hfound
    exact ⟨pos, hwalks, hpos, hmatch, halloc⟩

theorem long_of_none {n : ℕ} (h : getDhcpOptions p kmalloc type = none) (htype : type ≠ optEnd) :
    Long p kmalloc type n := by
  intro pos hfound
  obtain ⟨copy, hcopy, -⟩ := hfound.copied htype
  cases h.symm.trans hcopy

theorem long_iff_of_some {n : ℕ} {copy : Buffer} (h : getDhcpOptions p kmalloc type = some copy)
    (htype : type ≠ optEnd) : Long p kmalloc type n ↔ UseFits p (type, n) := by
  obtain ⟨-, -, -, -, halloc⟩ := exists_found h htype
  unfold UseFits
  simp only [find_start, find_eq_some_iff htype]
  exact ⟨fun hlong pos hfound => hlong pos ⟨hfound.1, hfound.2.1, hfound.2.2, halloc⟩,
    fun hfits pos hfound => hfits pos ⟨hfound.1, hfound.2.1, hfound.2.2.1⟩⟩

theorem long_iff_use {n : ℕ} (htype : type ≠ optEnd) :
    (∀ u ∈ (if (getDhcpOptions p kmalloc type).isSome then [(type, n)] else []), UseFits p u) ↔
      Long p kmalloc type n := by
  cases hget : getDhcpOptions p kmalloc type with
  | none => exact ⟨fun _ => long_of_none hget htype, fun _ u hu => absurd hu List.not_mem_nil⟩
  | some copy => exact List.forall_mem_singleton.trans (long_iff_of_some hget htype).symm

theorem optionUses_eq {mac : Option (List Byte)} {s : DhcpClient} (hop : p.op = reply)
    (hmac : mac = some (p.clientHardwareAddr.take 6)) (hxid : p.xid = s.currXid) :
    (∀ u ∈ s.optionUses mac p kmalloc, UseFits p u) ↔
      Long p kmalloc optType 1 ∧ ∀ type, getDhcpOptions p kmalloc optType = some type →
        ((type 0).toNat = offerType ∨ (type 0).toNat = ackType → Long p kmalloc optServerIp 4) ∧
        ∀ serverIp, (type 0).toNat = ackType →
          getDhcpOptions p kmalloc optServerIp = some serverIp →
          load32 serverIp = s.selectedServer →
          ∀ t ∈ [optSubnet, optDns, optGateway, optLeaseTime], Long p kmalloc t 4 := by
  have hmac' : ¬ (mac.isNone ∨ some (p.clientHardwareAddr.take 6) ≠ mac) := by
    rw [hmac]
    simp
  unfold DhcpClient.optionUses
  dsimp only
  rw [if_neg (not_not_intro hop), if_neg hmac', if_neg (not_not_intro hxid)]
  cases htype : getDhcpOptions p kmalloc optType with
  | none =>
    exact ⟨fun _ => ⟨long_of_none htype (by decide), fun type h => by cases h⟩,
      fun _ u hu => absurd hu List.not_mem_nil⟩
  | some type =>
    dsimp only
    rw [List.forall_mem_cons, ← long_iff_of_some htype (by decide)]
    refine and_congr_right fun _ => ?_
    simp only [Option.some.injEq, forall_eq']
    by_cases hoffer : (type 0).toNat = offerType
    · have hack : (type 0).toNat ≠ ackType := by
        rw [hoffer]
        decide
      rw [if_pos hoffer, long_iff_use (by decide)]
      exact ⟨fun h => ⟨fun _ => h, fun _ hack' => absurd hack' hack⟩, fun h => h.1 (Or.inl hoffer)⟩
    · rw [if_neg hoffer]
      by_cases hack : (type 0).toNat = ackType
      · rw [if_pos hack]
        cases hserver : getDhcpOptions p kmalloc optServerIp with
        | none =>
          exact ⟨fun _ => ⟨fun _ => long_of_none hserver (by decide), fun _ _ h => by cases h⟩,
            fun _ u hu => absurd hu List.not_mem_nil⟩
        | some serverIp =>
          dsimp only
          rw [List.forall_mem_cons, ← long_iff_of_some hserver (by decide)]
          simp only [Option.some.injEq, forall_eq', hack, or_true, forall_const]
          refine and_congr_right fun _ => ?_
          by_cases hselected : load32 serverIp = s.selectedServer
          · rw [if_neg (not_not_intro hselected)]
            simp only [List.forall_mem_append, long_iff_use (by decide : optSubnet ≠ optEnd),
              long_iff_use
                (by decide : optDns ≠ optEnd), long_iff_use (by decide : optGateway ≠ optEnd),
              long_iff_use (by decide : optLeaseTime ≠ optEnd), hselected, forall_const,
              List.forall_mem_cons, List.not_mem_nil, false_imp_iff, and_true, and_assoc]
          · rw [if_pos hselected]
            exact ⟨fun _ h => absurd h hselected, fun _ u hu => absurd hu List.not_mem_nil⟩
      · rw [if_neg hack]
        refine ⟨fun _ => ⟨fun h => ?_, fun _ h => absurd h hack⟩,
          fun _ u hu => absurd hu List.not_mem_nil⟩
        exact absurd h (not_or.mpr ⟨hoffer, hack⟩)

theorem load32_congr {b c : Buffer} (h : ∀ i < 4, b i = c i) : load32 b = load32 c := by
  unfold load32
  rw [h 0 (by decide), h 1 (by decide), h 2 (by decide), h 3 (by decide)]

theorem usesLong_iff {mac : Option (List Byte)} {s : DhcpClient} :
    (∀ u ∈ s.optionUses mac p kmalloc, UseFits p u) ↔ UsesLong mac s p kmalloc := by
  by_cases hus : p.op = reply ∧ mac = some (p.clientHardwareAddr.take 6) ∧ p.xid = s.currXid
  · obtain ⟨hop, hmac, hxid⟩ := hus
    rw [optionUses_eq hop hmac hxid]
    constructor
    · rintro ⟨htype, hrest⟩
      have hserver : ∀ pos, Found p kmalloc optType pos → (p.options (pos + 2)).toNat = offerType ∨
          (p.options (pos + 2)).toNat = ackType → Long p kmalloc optServerIp 4 := by
        intro pos hfound hkind
        obtain ⟨copy, hcopy, hbytes⟩ := hfound.copied (by decide)
        rw [← hbytes 0 (htype pos hfound)] at hkind
        exact (hrest copy hcopy).1 hkind
      refine ⟨fun _ _ _ => htype, fun pos _ _ _ => hserver pos, ?_⟩
      intro pos q _ _ _ hfound hack hfoundServer hselected
      obtain ⟨copy, hcopy, hbytes⟩ := hfound.copied (by decide)
      obtain ⟨ip, hip, hipBytes⟩ := hfoundServer.copied (by decide)
      have hlong := hserver pos hfound (Or.inr hack) q hfoundServer
      rw [← load32_congr fun i hi => hipBytes i (hi.trans_le hlong)] at hselected
      rw [← hbytes 0 (htype pos hfound)] at hack
      exact (hrest copy hcopy).2 ip hack hip hselected
    · intro h
      have htype := h.type hop hmac hxid
      refine ⟨htype, fun copy hcopy => ?_⟩
      obtain ⟨pos, hfound⟩ := exists_found hcopy (by decide)
      obtain ⟨copy', hcopy', hbytes⟩ := hfound.copied (by decide)
      obtain rfl := Option.some.inj (hcopy.symm.trans hcopy')
      have hfirst := hbytes 0 (htype pos hfound)
      have hserver := h.server pos hop hmac hxid hfound
      rw [hfirst]
      refine ⟨hserver, fun ip hack hip hselected => ?_⟩
      obtain ⟨q, hfoundServer⟩ := exists_found hip (by decide)
      obtain ⟨ip', hip', hipBytes⟩ := hfoundServer.copied (by decide)
      obtain rfl := Option.some.inj (hip.symm.trans hip')
      have hlong := hserver (Or.inr hack) q hfoundServer
      rw [load32_congr fun i hi => hipBytes i (hi.trans_le hlong)] at hselected
      exact h.parameters pos q hop hmac hxid hfound hack hfoundServer hselected
  · have hnil : s.optionUses mac p kmalloc = [] := by
      unfold DhcpClient.optionUses
      dsimp only
      by_cases hop : p.op = reply
      · rw [if_neg (not_not_intro hop)]
        by_cases hmac : mac.isNone ∨ some (p.clientHardwareAddr.take 6) ≠ mac
        · exact if_pos hmac
        · rw [if_neg hmac]
          exact if_pos fun hxid => hus ⟨hop, (not_not.mp (not_or.mp hmac).2).symm, hxid⟩
      · exact if_pos hop
    rw [hnil]
    refine ⟨fun _ => ⟨fun hop hmac hxid => ?_, fun _ hop hmac hxid => ?_,
      fun _ _ hop hmac hxid => ?_⟩, fun _ u hu => absurd hu List.not_mem_nil⟩
    all_goals exact absurd ⟨hop, hmac, hxid⟩ hus

/-- The options of a datagram are parsed in order and in bounds and used within their lengths if its
bytes are as `OptionsKeep` says. Where each padding that has neither another one nor the end behind
it hides an option, this is also necessary. -/
theorem optionsSafe_of_keep (mac : Option (List Byte)) (s : DhcpClient)
    (p : DhcpPacket) (length : ℕ) (kmalloc : ℕ → Option Buffer) :
    (OptionsKeep mac s p length kmalloc → OptionsSafe mac s p length kmalloc) ∧
      ((∀ type q, InOrder p.options (length - optionsOffset) type 4 q → LonePad p.options q →
          (p.options (q + 1)).toNat ≠ optEnd → Hides p length kmalloc q) →
        OptionsSafe mac s p length kmalloc → OptionsKeep mac s p length kmalloc) := by
  constructor
  · intro h
    refine ⟨fun type hpad htype => ?_, usesLong_iff.mpr h.long⟩
    refine ⟨fun fuel hfuel => findOption_fuel (hfuel.trans (Nat.le_add_right _ _))
      (Nat.le_add_right _ _), (reads_inside_iff htype).mpr (h.inside type hpad htype), ?_⟩
    rw [getDhcpOptions_eq]
    exact value_of_keep hpad (h.inside type hpad htype) (h.pads type hpad htype)
      (h.past type hpad htype)
  · intro hhides h
    refine ⟨fun type hpad htype => (reads_inside_iff htype).mp (h.parsed type hpad htype).reads, ?_,
      fun type hpad htype halloc q hq hpos r =>
        (h.parsed type hpad htype).past hpad htype halloc hq hpos,
      usesLong_iff.mp h.uses⟩
    intro type _ _ q hq hlone
    by_contra hend
    have hlast : (p.options (q + 1)).toNat < optEnd := by
      have hbyte := (p.options (q + 1)).isLt
      unfold optEnd at *
      omega
    refine (hhides type q hq hlone hend).not_parsed hlone hend (h.parsed _ ?_ hlast)
    exact Nat.pos_of_ne_zero hlone.2.2

def paddedPacket : DhcpPacket where
  op := reply
  xid := 0
  yourIp := 0
  clientHardwareAddr := []
  options i := [99, 130, 83, 99, 0, 53, 1, 2, 255].getD i 0

theorem not_optionsSafe_padded :
    ¬ OptionsSafe none .boot paddedPacket 245 (fun _ => some fun _ => 0) := by
  intro h
  have hread := (h.parsed optType (by decide) (by decide)).reads 59
    (List.mem_append_left _ (by decide))
  exact absurd hread (by decide)

end Dhcp

end RetroRocket
