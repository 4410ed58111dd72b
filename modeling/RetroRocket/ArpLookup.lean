import RetroRocket.ArpQueue

/-!
# What the ARP table answers

`arp_handle_packet` puts the sender of a packet into the table when `arp_lookup` does not find it,
at an index that goes round. An entry is not changed by a later packet of its sender, and it is
written over 512 insertions after its own, however late its sender was heard of. The slots that are
not in use have the address 0, which is found in them.
-/

namespace RetroRocket

/-! ## Packets -/

/-- The address of the host, which is 0 while it has none, and whether a network device is
active. -/
structure ArpHost where
  myIp : BitVec 32
  hasDevice : Bool

/-- `arp_packet_t`, the fields that are read. -/
structure ArpPacket where
  opcode : ℕ
  srcHardwareAddr : BitVec 48
  srcProtocolAddr : BitVec 32
  dstProtocolAddr : BitVec 32

def arpRequest : ℕ := 1

/-- `arp_table` with `arp_table_curr` and `arp_table_size`. -/
structure ArpCache where
  table : ArpTable
  size : ℕ

/-- After `arp_init`. -/
def ArpCache.init : ArpCache := ⟨ArpTable.init, 1⟩

def ArpHost.Drops (host : ArpHost) (packet : ArpPacket) : Prop :=
  packet.opcode = arpRequest ∧ packet.dstProtocolAddr = host.myIp ∧ ¬ host.hasDevice

instance (host : ArpHost) (packet : ArpPacket) : Decidable (host.Drops packet) :=
  inferInstanceAs (Decidable (_ ∧ _ ∧ _))

/-- `arp_handle_packet`, without the reply it sends. -/
def ArpCache.handlePacket (c : ArpCache) (host : ArpHost) (packet : ArpPacket) : ArpCache :=
  if host.Drops packet then c
  else
    { table := c.table.handlePacket packet.srcProtocolAddr packet.srcHardwareAddr
      size := if (c.table.lookup packet.srcProtocolAddr).isSome then c.size
        else if c.size < 512 then c.size + 1 else c.size }

abbrev ArpEvent := ArpHost × ArpPacket

def ArpCache.after : List ArpEvent → ArpCache
  | [] => init
  | e :: past => (after past).handlePacket e.1 e.2

def lastAddress (past : List ArpEvent) (ip : BitVec 32) : Option (BitVec 48) :=
  (past.find? fun e => e.2.srcProtocolAddr = ip).map fun e => e.2.srcHardwareAddr

def sendersSince (past : List ArpEvent) (ip : BitVec 32) : Finset (BitVec 32) :=
  ((past.takeWhile fun e => e.2.srcProtocolAddr ≠ ip).map fun e => e.2.srcProtocolAddr).toFinset

/-! ## What is asked of it -/

structure AnswersRight (past : List ArpEvent) (ip : BitVec 32) : Prop where
  received : ((ArpCache.after past).table.lookup ip).isSome →
    ∃ e ∈ past, e.2.srcProtocolAddr = ip
  recent : ∀ mac, lastAddress past ip = some mac → (sendersSince past ip).card < 512 →
    (ArpCache.after past).table.lookup ip = some mac
  inside : (ArpCache.after past).table.curr < 512 ∧ (ArpCache.after past).size ≤ 512

def ArpTable.Has (t : ArpTable) (ip : BitVec 32) : Prop :=
  ∃ i < 512, (t.entries i).ipAddr = ip

/-- What a packet does to the answer for an address is right: a packet of the sender itself is
entered or says what its entry has, and no other is written over its entry before 512 senders have
appeared. -/
def KeepsAnswer (past : List ArpEvent) (e : ArpEvent) (ip : BitVec 32) : Prop :=
  let table := (ArpCache.after past).table
  if e.2.srcProtocolAddr = ip then
    (∃ i < 512, table.entries i = ⟨ip, e.2.srcHardwareAddr⟩) ∨ (¬ table.Has ip ∧ ¬ e.1.Drops e.2)
  else
    ¬ e.1.Drops e.2 → e.2.srcProtocolAddr ≠ 0xffffffff → ¬ table.Has e.2.srcProtocolAddr →
      (table.entries table.curr).ipAddr = ip → 512 ≤ (sendersSince (e :: past) ip).card

/-! ## The table -/

namespace ArpTable

variable {t : ArpTable} {ip ip' : BitVec 32} {mac mac' : BitVec 48}

theorem lookup_eq_none_iff (hip : ip ≠ 0xffffffff) :
    t.lookup ip = none ↔ ∀ i < 512, (t.entries i).ipAddr ≠ ip := by
  unfold lookup
  rw [if_neg hip, Option.map_eq_none_iff, List.find?_eq_none]
  simp only [List.mem_range, decide_eq_true_eq, ne_eq]

theorem not_has_iff (hip : ip ≠ 0xffffffff) : ¬ t.Has ip ↔ t.lookup ip = none := by
  rw [lookup_eq_none_iff hip]
  unfold Has
  push Not
  rfl

theorem lookup_broadcast (t : ArpTable) : t.lookup 0xffffffff = some 0xffffffffffff := if_pos rfl

theorem exists_of_lookup (hip : ip ≠ 0xffffffff) (h : t.lookup ip = some mac) :
    ∃ i < 512, t.entries i = ⟨ip, mac⟩ := by
  unfold lookup at h
  rw [if_neg hip] at h
  obtain ⟨i, hfind, hmac⟩ := Option.map_eq_some_iff.mp h
  have hi := List.mem_range.mp (List.mem_of_find?_eq_some hfind)
  have hentry := List.find?_some hfind
  rw [decide_eq_true_eq] at hentry
  refine ⟨i, hi, ?_⟩
  rw [← hentry, ← hmac]

def Single (t : ArpTable) (ip : BitVec 32) : Prop :=
  ∀ i < 512, ∀ j < 512, (t.entries i).ipAddr = ip → (t.entries j).ipAddr = ip → i = j

theorem Single.lookup (h : t.Single ip) (hip : ip ≠ 0xffffffff) {i : ℕ} (hi : i < 512)
    (hentry : t.entries i = ⟨ip, mac⟩) : t.lookup ip = some mac := by
  cases hlookup : t.lookup ip with
  | none =>
    refine absurd ?_ ((lookup_eq_none_iff hip).mp hlookup i hi)
    rw [hentry]
  | some mac' =>
    obtain ⟨j, hj, hentry'⟩ := exists_of_lookup hip hlookup
    have hij : i = j := h i hi j hj (by rw [hentry]) (by rw [hentry'])
    rw [hij, hentry'] at hentry
    rw [(ArpEntry.mk.inj hentry).2]

theorem handlePacket_of_some (h : (t.lookup ip).isSome) : t.handlePacket ip mac = t := if_pos h

theorem handlePacket_of_none (h : t.lookup ip = none) :
    t.handlePacket ip mac =
      { entries := Function.update t.entries t.curr ⟨ip, mac⟩
        curr := if 512 ≤ t.curr + 1 then 0 else t.curr + 1 } := by
  unfold handlePacket
  rw [h]
  rfl

end ArpTable

namespace ArpCache

variable {c : ArpCache} {e : ArpEvent} {past : List ArpEvent} {ip : BitVec 32} {mac : BitVec 48}

structure Inside (c : ArpCache) : Prop where
  curr : c.table.curr < 512
  size : c.size ≤ 512

theorem Inside.handlePacket (h : c.Inside) (host : ArpHost) (packet : ArpPacket) :
    (c.handlePacket host packet).Inside := by
  unfold ArpCache.handlePacket
  split
  · exact h
  · constructor
    · cases hlookup : c.table.lookup packet.srcProtocolAddr with
      | some mac =>
        rw [ArpTable.handlePacket_of_some (by rw [hlookup]; rfl)]
        exact h.curr
      | none =>
        rw [ArpTable.handlePacket_of_none hlookup]
        have hcurr := h.curr
        dsimp only
        split <;> omega
    · have hsize := h.size
      dsimp only
      split
      · exact hsize
      · split <;> omega

theorem after_inside (past : List ArpEvent) : (after past).Inside := by
  induction past with
  | nil => exact ⟨by decide, by decide⟩
  | cons e past ih => exact ih.handlePacket e.1 e.2

theorem handlePacket_cases (c : ArpCache) (host : ArpHost) (packet : ArpPacket) :
    ((host.Drops packet ∨ (c.table.lookup packet.srcProtocolAddr).isSome) ∧
      (c.handlePacket host packet).table = c.table) ∨
    (¬ host.Drops packet ∧ c.table.lookup packet.srcProtocolAddr = none ∧
      (c.handlePacket host packet).table.entries = Function.update c.table.entries c.table.curr
        ⟨packet.srcProtocolAddr, packet.srcHardwareAddr⟩) := by
  unfold handlePacket
  split
  · next hdrops => exact Or.inl ⟨Or.inl hdrops, rfl⟩
  · next hdrops =>
    cases hlookup : c.table.lookup packet.srcProtocolAddr with
    | some mac =>
      exact Or.inl ⟨Or.inr rfl, ArpTable.handlePacket_of_some (by rw [hlookup]; rfl)⟩
    | none =>
      refine Or.inr ⟨hdrops, rfl, ?_⟩
      dsimp only
      rw [ArpTable.handlePacket_of_none hlookup]

structure Known (past : List ArpEvent) (ip : BitVec 32) : Prop where
  single : (after past).table.Single ip
  received : ∀ i < 512, ((after past).table.entries i).ipAddr = ip →
    ∃ e ∈ past, e.2.srcProtocolAddr = ip

theorem known (hip : ip ≠ 0xffffffff) (hzero : ip ≠ 0) (past : List ArpEvent) : Known past ip := by
  induction past with
  | nil =>
    have hnone : ∀ i < 512, ((after []).table.entries i).ipAddr ≠ ip := by
      intro i _
      change (if i = 0 then (⟨0xffffffff, 0xffffffffffff⟩ : ArpEntry) else ⟨0, 0⟩).ipAddr ≠ ip
      split
      · exact Ne.symm hip
      · exact Ne.symm hzero
    exact ⟨fun i hi j hj hentry => absurd hentry (hnone i hi),
      fun i hi hentry => absurd hentry (hnone i hi)⟩
  | cons e past ih =>
    have hcons : (∃ e' ∈ past, e'.2.srcProtocolAddr = ip) →
        ∃ e' ∈ e :: past, e'.2.srcProtocolAddr = ip :=
      fun ⟨e', he', hsrc⟩ => ⟨e', List.mem_cons_of_mem e he', hsrc⟩
    rcases handlePacket_cases (after past) e.1 e.2 with ⟨-, hsame⟩ | ⟨-, hnone, hentries⟩
    · constructor
      · change ((after past).handlePacket e.1 e.2).table.Single ip
        rw [hsame]
        exact ih.single
      · intro i hi hentry
        change (((after past).handlePacket e.1 e.2).table.entries i).ipAddr = ip at hentry
        rw [hsame] at hentry
        exact hcons (ih.received i hi hentry)
    · have hentry : ∀ i < 512, ((after (e :: past)).table.entries i).ipAddr = ip →
          (i = (after past).table.curr ∧ e.2.srcProtocolAddr = ip) ∨
            (i ≠ (after past).table.curr ∧ ((after past).table.entries i).ipAddr = ip) := by
        intro i hi hat
        change (((after past).handlePacket e.1 e.2).table.entries i).ipAddr = ip at hat
        rw [hentries] at hat
        by_cases hcurr : i = (after past).table.curr
        · rw [hcurr, Function.update_self] at hat
          exact Or.inl ⟨hcurr, hat⟩
        · rw [Function.update_of_ne hcurr] at hat
          exact Or.inr ⟨hcurr, hat⟩
      constructor
      · intro i hi j hj hat hat'
        rcases hentry i hi hat with ⟨hcurr, hsrc⟩ | ⟨-, hold⟩
        · rcases hentry j hj hat' with ⟨hcurr', -⟩ | ⟨-, hold'⟩
          · rw [hcurr, hcurr']
          · rw [hsrc] at hnone
            exact absurd hold' ((ArpTable.lookup_eq_none_iff hip).mp hnone j hj)
        · rcases hentry j hj hat' with ⟨-, hsrc⟩ | ⟨-, hold'⟩
          · rw [hsrc] at hnone
            exact absurd hold ((ArpTable.lookup_eq_none_iff hip).mp hnone i hi)
          · exact ih.single i hi j hj hold hold'
      · intro i hi hat
        rcases hentry i hi hat with ⟨-, hsrc⟩ | ⟨-, hold⟩
        · exact ⟨e, List.mem_cons_self, hsrc⟩
        · exact hcons (ih.received i hi hold)

/-! ## One packet -/

theorem lastAddress_cons (e : ArpEvent) (past : List ArpEvent) (ip : BitVec 32) :
    lastAddress (e :: past) ip =
      if e.2.srcProtocolAddr = ip then some e.2.srcHardwareAddr else lastAddress past ip := by
  unfold lastAddress
  rw [List.find?_cons]
  split <;> simp_all

theorem exists_lastAddress (h : ∃ e ∈ past, e.2.srcProtocolAddr = ip) :
    ∃ mac, lastAddress past ip = some mac := by
  obtain ⟨e, he, hsrc⟩ := h
  unfold lastAddress
  cases hfind : past.find? fun e => e.2.srcProtocolAddr = ip with
  | none =>
    have hnot := List.find?_eq_none.mp hfind e he
    rw [decide_eq_true_eq] at hnot
    exact absurd hsrc hnot
  | some e' => exact ⟨_, rfl⟩

theorem sendersSince_self (h : e.2.srcProtocolAddr = ip) : sendersSince (e :: past) ip = ∅ := by
  unfold sendersSince
  rw [List.takeWhile_cons_of_neg (by simpa using h)]
  rfl

theorem sendersSince_other (h : e.2.srcProtocolAddr ≠ ip) :
    sendersSince (e :: past) ip = insert e.2.srcProtocolAddr (sendersSince past ip) := by
  unfold sendersSince
  rw [List.takeWhile_cons_of_pos (by simpa using h), List.map_cons, List.toFinset_cons]

theorem lookup_kept (hip : ip ≠ 0xffffffff) (hzero : ip ≠ 0)
    (hlookup : (after past).table.lookup ip = some mac)
    (hkept : (after (e :: past)).table = (after past).table ∨
      ((after (e :: past)).table.entries = Function.update (after past).table.entries
        (after past).table.curr ⟨e.2.srcProtocolAddr, e.2.srcHardwareAddr⟩ ∧
        ((after past).table.entries (after past).table.curr).ipAddr ≠ ip)) :
    (after (e :: past)).table.lookup ip = some mac := by
  rcases hkept with hsame | ⟨hentries, hcurr⟩
  · rw [hsame]
    exact hlookup
  · obtain ⟨i, hi, hentry⟩ := ArpTable.exists_of_lookup hip hlookup
    have hne : i ≠ (after past).table.curr := by
      rintro rfl
      rw [hentry] at hcurr
      exact hcurr rfl
    refine (known hip hzero (e :: past)).single.lookup hip hi ?_
    rw [hentries, Function.update_of_ne hne]
    exact hentry

theorem lookup_own (hip : ip ≠ 0xffffffff) (hzero : ip ≠ 0) (hsrc : e.2.srcProtocolAddr = ip) :
    (after (e :: past)).table.lookup ip =
      if (after past).table.lookup ip = none ∧ ¬ e.1.Drops e.2 then some e.2.srcHardwareAddr
      else (after past).table.lookup ip := by
  rcases handlePacket_cases (after past) e.1 e.2 with ⟨hcase, hsame⟩ | ⟨hdrops, hnone, hentries⟩
  · have hnot : ¬ ((after past).table.lookup ip = none ∧ ¬ e.1.Drops e.2) := by
      rintro ⟨hnone, hdrops⟩
      rcases hcase with hcase | hcase
      · exact hdrops hcase
      · rw [hsrc, hnone] at hcase
        cases hcase
    rw [if_neg hnot]
    exact congrArg (fun t => t.lookup ip) hsame
  · rw [hsrc] at hnone
    rw [if_pos ⟨hnone, hdrops⟩]
    refine (known hip hzero (e :: past)).single.lookup hip (after_inside past).curr ?_
    change ((after past).handlePacket e.1 e.2).table.entries _ = _
    rw [hentries, Function.update_self, hsrc]

theorem lookup_lost (hip : ip ≠ 0xffffffff) (hzero : ip ≠ 0) (hsrc : e.2.srcProtocolAddr ≠ ip)
    (hdrops : ¬ e.1.Drops e.2) (hnone : (after past).table.lookup e.2.srcProtocolAddr = none)
    (hcurr : ((after past).table.entries (after past).table.curr).ipAddr = ip) :
    (after (e :: past)).table.lookup ip = none := by
  rcases handlePacket_cases (after past) e.1 e.2 with ⟨hcase, -⟩ | ⟨-, -, hentries⟩
  · rcases hcase with hcase | hcase
    · exact absurd hcase hdrops
    · rw [hnone] at hcase
      cases hcase
  · rw [ArpTable.lookup_eq_none_iff hip]
    intro i hi hentry
    change (((after past).handlePacket e.1 e.2).table.entries i).ipAddr = ip at hentry
    rw [hentries] at hentry
    by_cases hi' : i = (after past).table.curr
    · rw [hi', Function.update_self] at hentry
      exact hsrc hentry
    · rw [Function.update_of_ne hi'] at hentry
      exact hi' ((known hip hzero past).single i hi _ (after_inside past).curr hentry hcurr)

theorem received_of_lookup (hip : ip ≠ 0xffffffff) (hzero : ip ≠ 0)
    (h : ((after past).table.lookup ip).isSome) : ∃ e ∈ past, e.2.srcProtocolAddr = ip := by
  obtain ⟨mac, hlookup⟩ := Option.isSome_iff_exists.mp h
  obtain ⟨i, hi, hentry⟩ := ArpTable.exists_of_lookup hip hlookup
  exact (known hip hzero past).received i hi (by rw [hentry])

theorem answersRight_cons (hip : ip ≠ 0xffffffff) (hzero : ip ≠ 0) (h : AnswersRight past ip)
    (hkeeps : KeepsAnswer past e ip) : AnswersRight (e :: past) ip := by
  have hinside := after_inside (e :: past)
  refine ⟨received_of_lookup hip hzero, fun mac hlast hcard => ?_, hinside.curr, hinside.size⟩
  unfold KeepsAnswer at hkeeps
  rw [lastAddress_cons] at hlast
  by_cases hsrc : e.2.srcProtocolAddr = ip
  · rw [if_pos hsrc] at hkeeps hlast
    rw [lookup_own hip hzero hsrc, ← hlast]
    rcases hkeeps with ⟨i, hi, hentry⟩ | ⟨hnone, hdrops⟩
    · have hfound := (known hip hzero past).single.lookup hip hi hentry
      rw [if_neg (by rw [hfound]; simp), hfound]
    · rw [if_pos ⟨(ArpTable.not_has_iff hip).mp hnone, hdrops⟩]
  · rw [if_neg hsrc] at hkeeps hlast
    have hsince : sendersSince (e :: past) ip = insert _ (sendersSince past ip) :=
      sendersSince_other hsrc
    have hlookup := h.recent mac hlast (lt_of_le_of_lt (Finset.card_le_card (by
      rw [hsince]
      exact Finset.subset_insert _ _)) hcard)
    refine lookup_kept hip hzero hlookup ?_
    rcases handlePacket_cases (after past) e.1 e.2 with ⟨-, hsame⟩ | ⟨hdrops, hnone, hentries⟩
    · exact Or.inl hsame
    · refine Or.inr ⟨hentries, fun hcurr => ?_⟩
      have hsender : e.2.srcProtocolAddr ≠ 0xffffffff := by
        intro heq
        rw [heq, ArpTable.lookup_broadcast] at hnone
        cases hnone
      have hhas := (ArpTable.not_has_iff hsender).mpr hnone
      exact absurd (hkeeps hdrops hsender hhas hcurr) (not_le.mpr hcard)

theorem keepsAnswer_of_right (hip : ip ≠ 0xffffffff) (hzero : ip ≠ 0)
    (h : AnswersRight (e :: past) ip) : KeepsAnswer past e ip := by
  unfold KeepsAnswer
  by_cases hsrc : e.2.srcProtocolAddr = ip
  · have hlast : lastAddress (e :: past) ip = some e.2.srcHardwareAddr := by
      rw [lastAddress_cons, if_pos hsrc]
    have hlookup := h.recent _ hlast (by rw [sendersSince_self hsrc]; decide)
    rw [lookup_own hip hzero hsrc] at hlookup
    dsimp only
    rw [if_pos hsrc]
    split at hlookup
    · next hentered => exact Or.inr ⟨(ArpTable.not_has_iff hip).mpr hentered.1, hentered.2⟩
    · exact Or.inl (ArpTable.exists_of_lookup hip hlookup)
  · dsimp only
    rw [if_neg hsrc]
    intro hdrops hsender hhas hcurr
    have hnone := (ArpTable.not_has_iff hsender).mp hhas
    by_contra hcard
    obtain ⟨e', he', hsrc'⟩ := (known hip hzero past).received _ (after_inside past).curr hcurr
    have hheard : ∃ e' ∈ e :: past, e'.2.srcProtocolAddr = ip :=
      ⟨e', List.mem_cons_of_mem e he', hsrc'⟩
    obtain ⟨mac, hlast⟩ := exists_lastAddress hheard
    have hlookup := h.recent mac hlast (not_le.mp hcard)
    rw [lookup_lost hip hzero hsrc hdrops hnone hcurr] at hlookup
    cases hlookup

theorem answersRight_nil (hip : ip ≠ 0xffffffff) (hzero : ip ≠ 0) : AnswersRight [] ip := by
  refine ⟨received_of_lookup hip hzero, fun mac hlast => ?_, by decide, by decide⟩
  cases hlast

/-! ## Runs -/

/-- In every state of a run the table answers right for an address if and only if the address is not
0 and each packet keeps the answer right. -/
theorem answersRight_iff (hip : ip ≠ 0xffffffff) (past : List ArpEvent) :
    (∀ earlier, earlier <:+ past → AnswersRight earlier ip) ↔
      ip ≠ 0 ∧ ∀ e earlier, e :: earlier <:+ past → KeepsAnswer earlier e ip := by
  constructor
  · intro h
    have hzero : ip ≠ 0 := by
      rintro rfl
      have hzero := (h [] List.nil_suffix).received
      cases hlookup : (after []).table.lookup 0 with
      | none => exact (ArpTable.lookup_eq_none_iff hip).mp hlookup 1 (by decide) rfl
      | some mac =>
        rw [hlookup] at hzero
        obtain ⟨e, he, -⟩ := hzero rfl
        cases he
    exact ⟨hzero, fun e earlier hsuffix => keepsAnswer_of_right hip hzero (h _ hsuffix)⟩
  · rintro ⟨hzero, h⟩ earlier
    induction earlier with
    | nil => exact fun _ => answersRight_nil hip hzero
    | cons e earlier ih =>
      intro hsuffix
      have hrest := ih ((List.suffix_cons e earlier).trans hsuffix)
      exact answersRight_cons hip hzero hrest (h e earlier hsuffix)

def replyFrom (mac : BitVec 48) : ArpEvent :=
  (⟨0x0f02000a, true⟩, ⟨2, mac, 0x0202000a, 0x0f02000a⟩)

theorem not_has_init (hip : ip ≠ 0xffffffff) (hzero : ip ≠ 0) : ¬ (after []).table.Has ip := by
  rintro ⟨i, hi, hentry⟩
  obtain ⟨e, he, -⟩ := (known hip hzero []).received i hi hentry
  cases he

theorem lookup_replyFrom : (after [replyFrom 1]).table.lookup 0x0202000a = some 1 := by
  have hnone : (after []).table.lookup 0x0202000a = none :=
    (ArpTable.not_has_iff (by decide)).mp (not_has_init (by decide) (by decide))
  have hsrc : (replyFrom 1).2.srcProtocolAddr = 0x0202000a := rfl
  rw [lookup_own (by decide) (by decide) hsrc]
  exact if_pos ⟨hnone, by decide⟩

def replyOther : ArpEvent := (⟨0x0f02000a, true⟩, ⟨2, 2, 0x0302000a, 0x0f02000a⟩)

/-- The first packet of a sender, and one of another sender behind it. -/
theorem answersRight_iff_twoSenders : AnswersRight [replyOther, replyFrom 1] 0x0202000a := by
  have hip : (0x0202000a : BitVec 32) ≠ 0xffffffff := by decide
  refine (answersRight_iff hip [replyOther, replyFrom 1]).mpr
    ⟨by decide, fun e earlier hsuffix => ?_⟩ _ List.suffix_rfl
  rcases List.suffix_cons_iff.mp hsuffix with heq | hsuffix
  · obtain ⟨rfl, rfl⟩ := List.cons.inj heq
    have hother : ((after [replyFrom 1]).table.entries (after [replyFrom 1]).table.curr).ipAddr ≠
        0x0202000a := by decide +kernel
    exact fun _ _ _ hcurr => absurd hcurr hother
  rcases List.suffix_cons_iff.mp hsuffix with heq | hnil
  · obtain ⟨rfl, rfl⟩ := List.cons.inj heq
    exact Or.inr ⟨not_has_init (by decide) (by decide), by decide⟩
  · cases List.suffix_nil.mp hnil

/-- The address 0 is found in an empty table, and a second packet does not change the entry that the
first made. -/
theorem not_answersRight_zero_stale :
    ¬ AnswersRight [] 0 ∧ ¬ AnswersRight [replyFrom 2, replyFrom 1] 0x0202000a := by
  constructor
  · intro h
    obtain ⟨e, he, -⟩ := h.received (Option.ne_none_iff_isSome.mp fun hnone =>
      (ArpTable.lookup_eq_none_iff (by decide)).mp hnone 1 (by decide) rfl)
    cases he
  · intro h
    have hlookup := h.recent 2 rfl (by decide)
    have hsrc : (replyFrom 2).2.srcProtocolAddr = 0x0202000a := rfl
    rw [lookup_own (by decide) (by decide) hsrc, lookup_replyFrom,
      if_neg (fun hnot => by cases hnot.1)] at hlookup
    revert hlookup
    decide

end ArpCache

end RetroRocket
