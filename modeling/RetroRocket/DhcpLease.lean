import RetroRocket.Dhcp

/-!
# The lease of the DHCP client

Packets with valid options carry messages, and `get_dhcp_options` reads from them what was encoded.
A run is made of ticks, calls of `dhcp_discover` and messages of servers, watched from outside:
whether the client waits for the answer to a renewal is read off the events alone. In a run whose
steps are all `Smooth` the timers stay ordered, the acknowledgements the client waits for restart
the lease, and it lasts as long as every renewal is answered. A renewal's acknowledgement is refused
when the client has not selected its server anew, which it does only for an offer.
-/

namespace RetroRocket

/-- An option of a packet; `pad` is a single byte without a length. -/
inductive DhcpOption where
  | pad
  | value (type : Byte) (bytes : List Byte)

namespace DhcpOption

def encode : DhcpOption → List Byte
  | pad => [0]
  | value type bytes => type :: BitVec.ofNat 8 bytes.length :: bytes

def encodeAll : List DhcpOption → List Byte
  | [] => [255]
  | o :: opts => o.encode ++ encodeAll opts

def lookup (type : ℕ) : List DhcpOption → Option (List Byte)
  | [] => none
  | pad :: opts => lookup type opts
  | value t bytes :: opts => if t.toNat = type then some bytes else lookup type opts

def Valid : DhcpOption → Prop
  | pad => True
  | value type _ => type ≠ 0 ∧ type ≠ 255

end DhcpOption

namespace DhcpPacket

open Dhcp DhcpOption

structure WellFormed (p : DhcpPacket) (opts : List DhcpOption) : Prop where
  bytes : ∀ i < (encodeAll opts).length, p.options (4 + i) = (encodeAll opts).getD i 0
  fits : 4 + (encodeAll opts).length ≤ optionsSize
  valid : ∀ o ∈ opts, o.Valid

variable {p : DhcpPacket} {opts : List DhcpOption} {kmalloc : ℕ → Option Buffer} {type : ℕ}
  {bytes : List Byte}

theorem findOption_encodeAll {options : Buffer} {pos fuel currType : ℕ}
    (hbytes : ∀ i < (encodeAll opts).length, options (pos + i) = (encodeAll opts).getD i 0)
    (hfits : pos + (encodeAll opts).length ≤ optionsSize) (hvalid : ∀ o ∈ opts, o.Valid)
    (hpad : DhcpOption.pad ∉ opts) (hfuel : opts.length < fuel) (hcurr : currType ≠ optEnd)
    (hlookup : lookup type opts = some bytes) :
    ∃ found, findOption options type fuel currType pos = some found ∧
      (options (found + 1)).toNat = bytes.length ∧
      ∀ i < bytes.length, options (found + 2 + i) = bytes.getD i 0 := by
  induction opts generalizing pos fuel currType with
  | nil => cases hlookup
  | cons o opts ih =>
    cases o with
    | pad => exact absurd List.mem_cons_self hpad
    | value t value =>
      have hlen : (encodeAll (.value t value :: opts)).length =
          2 + value.length + (encodeAll opts).length := by
        simp only [encodeAll, encode, List.length_append, List.length_cons]
        omega
      rw [hlen] at hbytes hfits
      have htype : options pos = t := hbytes 0 (by omega)
      have hsmall : value.length < 2 ^ 8 := by
        have : optionsSize = 128 := rfl
        omega
      have hlength : (options (pos + 1)).toNat = value.length := by
        rw [hbytes 1 (by omega)]
        exact (BitVec.toNat_ofNat _ _).trans (Nat.mod_eq_of_lt hsmall)
      have hne : t.toNat ≠ optEnd := by
        intro h
        exact (hvalid _ List.mem_cons_self).2 (BitVec.eq_of_toNat_eq h)
      obtain ⟨fuel, rfl⟩ := Nat.exists_eq_succ_of_ne_zero (Nat.ne_of_gt (Nat.zero_lt_of_lt hfuel))
      unfold findOption
      rw [if_pos ⟨hcurr, by omega⟩]
      dsimp only
      rw [htype, if_neg hne]
      by_cases hmatch : t.toNat = type
      · rw [if_pos hmatch]
        simp only [lookup, if_pos hmatch, Option.some.injEq] at hlookup
        subst hlookup
        refine ⟨pos, rfl, hlength, fun i hi => ?_⟩
        rw [show pos + 2 + i = pos + (2 + i) by omega, hbytes (2 + i) (by omega)]
        simp only [encodeAll, encode, List.cons_append]
        rw [Nat.add_comm 2 i, List.getD_cons_succ, List.getD_cons_succ, List.getD_append _ _ _ _ hi]
      · rw [if_neg hmatch, hlength]
        simp only [lookup, if_neg hmatch] at hlookup
        refine ih (fun i hi => ?_) (by omega) (fun o ho => hvalid o (List.mem_cons_of_mem _ ho))
          (fun h => hpad (List.mem_cons_of_mem _ h)) (by simpa using hfuel) hne hlookup
        rw [show pos + (2 + value.length) + i = pos + (2 + (value.length + i)) by omega,
          hbytes _ (by omega)]
        simp only [encodeAll, encode, List.cons_append]
        rw [Nat.add_comm 2, List.getD_cons_succ, List.getD_cons_succ,
          List.getD_append_right _ _ _ _ (Nat.le_add_right _ _), Nat.add_sub_cancel_left]

theorem length_le_encodeAll (opts : List DhcpOption) : opts.length < (encodeAll opts).length := by
  induction opts with
  | nil => simp [encodeAll]
  | cons o opts ih =>
    have : 0 < o.encode.length := by cases o <;> simp [encode]
    simp only [encodeAll, List.length_append, List.length_cons]
    omega

theorem WellFormed.getDhcpOptions (h : p.WellFormed opts) (hpad : DhcpOption.pad ∉ opts)
    {ret : Buffer} (hkmalloc : kmalloc type = some ret) (hlookup : lookup type opts = some bytes) :
    ∃ b, Dhcp.getDhcpOptions p kmalloc type = some b ∧ ∀ i < bytes.length,
      b i = bytes.getD i 0 := by
  have hlen := length_le_encodeAll opts
  have hfits := h.fits
  have hfirst : (p.options 4).toNat ≠ optEnd := by
    have hbyte := h.bytes 0 (by omega)
    cases opts with
    | nil => cases hlookup
    | cons o opts =>
      cases o with
      | pad => exact absurd List.mem_cons_self hpad
      | value t value =>
        intro hend
        refine (h.valid _ List.mem_cons_self).2 (BitVec.eq_of_toNat_eq ?_)
        rw [Nat.add_zero] at hbyte
        rwa [hbyte] at hend
  obtain ⟨pos, hpos, hlength, hbytes⟩ := findOption_encodeAll h.bytes hfits h.valid hpad
    (show opts.length < optionsSize by omega) hfirst hlookup
  refine ⟨fun i => if i < bytes.length then p.options (pos + 2 + i) else ret i, ?_, fun i hi => ?_⟩
  · simp only [Dhcp.getDhcpOptions, hpos, hkmalloc, Option.bind_eq_bind, Option.bind_some, hlength]
  · rw [← hbytes i hi]
    exact if_pos hi

end DhcpPacket

/-! ## Messages and runs -/

inductive DhcpMessage where
  | offer (server : ℕ)
  | ack (server lease : ℕ)
  | nak

open Dhcp DhcpOption

def Holds4 (opts : List DhcpOption) (type : ℕ) (load : Buffer → ℕ) (value : ℕ) : Prop :=
  ∃ bytes, lookup type opts = some bytes ∧ bytes.length = 4 ∧
    load (fun i => bytes.getD i 0) = value

def DhcpMessage.In (opts : List DhcpOption) : DhcpMessage → Prop
  | offer server =>
    lookup optType opts = some [BitVec.ofNat 8 offerType] ∧ Holds4 opts optServerIp load32 server
  | ack server lease =>
    lookup optType opts = some [BitVec.ofNat 8 ackType] ∧ Holds4 opts optServerIp load32 server ∧
      Holds4 opts optLeaseTime loadNtohl lease
  | nak => lookup optType opts = some [BitVec.ofNat 8 nakType]

inductive DhcpEvent where
  | tick
  | discover
  | message (m : DhcpMessage) (p : DhcpPacket) (opts : List DhcpOption)
      (kmalloc : ℕ → Option Buffer)

structure WatchedClient where
  client : DhcpClient
  awaiting : Bool

namespace WatchedClient

section

variable (mac : List Byte)

def Legal (w : WatchedClient) : DhcpEvent → Prop
  | .message m p opts _ => p.op = reply ∧ p.clientHardwareAddr.take 6 = mac ∧
      p.xid = w.client.currXid ∧ p.WellFormed opts ∧ m.In opts
  | _ => True

def next (w : WatchedClient) : DhcpEvent → DhcpClient
  | .tick => w.client.dhcpBackground (some mac)
  | .discover => w.client.dhcpDiscover (some mac)
  | .message _ p _ kmalloc => w.client.dhcpHandlePacket (some mac) p kmalloc

theorem next_message (w : WatchedClient) (m : DhcpMessage) (p : DhcpPacket) (opts : List DhcpOption)
    (kmalloc : ℕ → Option Buffer) :
    w.next mac (.message m p opts kmalloc) = w.client.dhcpHandlePacket (some mac) p kmalloc := rfl

def FromSelected (w : WatchedClient) (server : ℕ) : Prop := server = w.client.selectedServer

def Answers (w : WatchedClient) (server : ℕ) : Prop :=
  w.awaiting = true ∧ server = w.client.serverId

instance (w : WatchedClient) (server : ℕ) : Decidable (w.FromSelected server) :=
  inferInstanceAs (Decidable (_ = _))

instance (w : WatchedClient) (server : ℕ) : Decidable (w.Answers server) :=
  inferInstanceAs (Decidable (_ ∧ _))

def Sends (s t : DhcpClient) : Bool := decide (t.sent ≠ s.sent)

def waits (w : WatchedClient) : DhcpEvent → Bool
  | .tick => (w.next mac .tick).haveLease &&
      (w.awaiting || Sends w.client (w.next mac .tick))
  | .message (.ack server _) _ _ _ =>
    w.awaiting && !decide (w.FromSelected server ∨ w.Answers server)
  | .message .nak _ _ _ => false
  | _ => w.awaiting

def step (w : WatchedClient) (e : DhcpEvent) : WatchedClient := ⟨w.next mac e, w.waits mac e⟩

/-- The clients that legal steps satisfying `P` lead to. -/
inductive Run (P : WatchedClient → DhcpEvent → Prop) (w : WatchedClient) : WatchedClient → Prop
  | refl : Run P w w
  | step {v : WatchedClient} {e : DhcpEvent} : Run P w v → v.Legal mac e → P v e →
      Run P w (v.step mac e)

end

/-- The options have no padding and can be copied; the answer to a renewal comes from a server that
is also the selected one; a lease that is taken is not of one second and has a `T2` that fits 32
bits; a refusal does not end a lease that is not being renewed. -/
def Smooth (w : WatchedClient) : DhcpEvent → Prop
  | .message m _ opts kmalloc => DhcpOption.pad ∉ opts ∧ (∀ type, (kmalloc type).isSome) ∧
      match m with
      | .offer _ => True
      | .ack server lease => (w.Answers server → w.FromSelected server) ∧
          (w.FromSelected server → lease * 7 < 2 ^ 32 ∧ lease ≠ 1)
      | .nak => w.client.haveLease = true → w.awaiting = true
  | _ => True

def Unanswered (w : WatchedClient) : DhcpEvent → Prop
  | .tick => w.awaiting = true ∧ w.client.expiryMs = 1
  | .message .nak _ _ _ => w.awaiting = true
  | _ => False

def Accepts (mac : List Byte) (w : WatchedClient) : DhcpEvent → Prop
  | .message (.ack server lease) p opts kmalloc => w.FromSelected server ∨ w.Answers server →
      (w.next mac (.message (.ack server lease) p opts kmalloc)).haveLease = true ∧
        (w.next mac (.message (.ack server lease) p opts kmalloc)).expiryMs = lease * 1000
  | _ => True

end WatchedClient

/-- The counters are unset, or `T1` is not behind `T2` and `T2` not behind the expiry. -/
def DhcpClient.TimersOrdered (s : DhcpClient) : Prop :=
  (s.t1Ms = -1 ∧ s.t2Ms = -1 ∧ s.expiryMs = -1) ∨
    (0 ≤ s.t1Ms ∧ s.t1Ms ≤ s.t2Ms ∧ s.t2Ms ≤ s.expiryMs)

namespace DhcpClient

variable {mac : List Byte} {s : DhcpClient}

/-! ## One step of the client -/

theorem background_of_none (h : s.haveLease = false) : s.dhcpBackground (some mac) = s := by
  unfold dhcpBackground
  rw [if_pos h]

theorem background_counters (mac : List Byte) (h : s.haveLease = true) :
    (s.dhcpBackground (some mac)).t1Ms = countDown s.t1Ms ∧
      (s.dhcpBackground (some mac)).t2Ms = countDown s.t2Ms ∧
      (s.dhcpBackground (some mac)).expiryMs = countDown s.expiryMs ∧
      ((s.dhcpBackground (some mac)).haveLease = true ↔ s.expiryMs ≠ 1) := by
  simp only [dhcpBackground, h, dhcpDiscover, dhcpRequestRenewUnicast, dhcpRequestRebindBroadcast,
    makeDhcpRequestCiaddr, Option.map_some]
  split_ifs <;> simp_all

/-- The first time `T1` has run down a renewal is sent. -/
theorem background_renews (mac : List Byte) (h : s.haveLease = true) (hexp : s.expiryMs ≠ 1) :
    ((s.dhcpBackground (some mac)).renewSent = true ↔ s.renewSent = true ∨ s.t1Ms = 1) ∧
      (s.t1Ms = 1 → s.renewSent = false → (s.dhcpBackground (some mac)).sent ≠ s.sent) := by
  simp only [dhcpBackground, h, dhcpRequestRenewUnicast, dhcpRequestRebindBroadcast,
    makeDhcpRequestCiaddr, Option.map_some, hexp]
  split_ifs <;> simp_all

theorem countDown_nonneg {n : ℤ} (h : 0 ≤ n) : 0 ≤ countDown n := by
  unfold countDown
  split_ifs <;> omega

theorem countDown_mono {m n : ℤ} (h : m ≤ n) (hm : 0 ≤ m) : countDown m ≤ countDown n := by
  unfold countDown
  split_ifs <;> omega

theorem TimersOrdered.background (mac : List Byte) (h : s.TimersOrdered) :
    (s.dhcpBackground (some mac)).TimersOrdered := by
  by_cases hlease : s.haveLease = true
  · obtain ⟨ht1, ht2, hexp, -⟩ := background_counters mac hlease
    unfold TimersOrdered at h ⊢
    rw [ht1, ht2, hexp]
    rcases h with ⟨h1, h2, h3⟩ | ⟨h1, h2, h3⟩
    · rw [h1, h2, h3]
      decide
    · exact Or.inr ⟨countDown_nonneg h1, countDown_mono h2 h1, countDown_mono h3 (h1.trans h2)⟩
  · rwa [background_of_none (Bool.eq_false_iff.mpr hlease)]

/-- The client when all counters have run down by `n`. -/
def elapsed (s : DhcpClient) (n : ℤ) : DhcpClient :=
  { s with t1Ms := s.t1Ms - n, t2Ms := s.t2Ms - n, expiryMs := s.expiryMs - n }

theorem elapsed_elapsed (s : DhcpClient) (m n : ℤ) :
    (s.elapsed m).elapsed n = s.elapsed (m + n) := by
  simp only [elapsed, sub_sub]

/-- The timers of a lease are in order exactly when its `T2` fits 32 bits. -/
theorem setTimers_ordered_iff (s : DhcpClient) {secs : ℕ} (h : secs < 2 ^ 32) :
    (s.setTimers secs).TimersOrdered ↔ secs * 7 < 2 ^ 32 := by
  unfold TimersOrdered setTimers u32
  dsimp only
  constructor
  · rintro (⟨h1, -⟩ | ⟨-, h2, -⟩)
    · omega
    · -- a `T2` that has wrapped is below 2 ^ 29 seconds, and `T1` follows the lease
      by_contra hwraps
      have hquot : 1 ≤ secs * 7 / 2 ^ 32 := by omega
      have hdiv := Nat.div_add_mod (secs * 7) (2 ^ 32)
      have hmod := Nat.mod_lt (secs * 7) (Nat.two_pow_pos 32)
      omega
  · intro hfits
    rw [Nat.mod_eq_of_lt hfits]
    right
    omega

end DhcpClient

/-! ## Messages -/

theorem load32_congr {b b' : Buffer} (h : ∀ i < 4, b i = b' i) : load32 b = load32 b' := by
  simp only [load32, h 0 (by omega), h 1 (by omega), h 2 (by omega), h 3 (by omega)]

theorem loadNtohl_congr {b b' : Buffer} (h : ∀ i < 4, b i = b' i) : loadNtohl b = loadNtohl b' := by
  simp only [loadNtohl, h 0 (by omega), h 1 (by omega), h 2 (by omega), h 3 (by omega)]

section Messages

variable {mac : List Byte} {s : DhcpClient} {w : WatchedClient} {p : DhcpPacket}
  {opts : List DhcpOption} {kmalloc : ℕ → Option Buffer} {server lease : ℕ} {m : DhcpMessage}

theorem Holds4.read {type value : ℕ} {load : Buffer → ℕ} (h : Holds4 opts type load value)
    (hload : ∀ b b' : Buffer, (∀ i < 4, b i = b' i) → load b = load b') (hp : p.WellFormed opts)
    (hpad : DhcpOption.pad ∉ opts) (hkmalloc : ∀ type, (kmalloc type).isSome) :
    ∃ b, getDhcpOptions p kmalloc type = some b ∧ load b = value := by
  obtain ⟨bytes, hlookup, hlength, rfl⟩ := h
  obtain ⟨ret, hret⟩ := Option.isSome_iff_exists.mp (hkmalloc type)
  obtain ⟨b, hb, hbytes⟩ := hp.getDhcpOptions hpad hret hlookup
  exact ⟨b, hb, hload _ _ fun i hi => hbytes i (hlength ▸ hi)⟩

theorem handlePacket_eq {type : ℕ} (hop : p.op = reply) (hmac : p.clientHardwareAddr.take 6 = mac)
    (hxid : p.xid = s.currXid) (hp : p.WellFormed opts) (hpad : DhcpOption.pad ∉ opts)
    (hkmalloc : ∀ type, (kmalloc type).isSome)
    (htype : lookup optType opts = some [BitVec.ofNat 8 type]) (hsmall : type < 2 ^ 8) :
    s.dhcpHandlePacket (some mac) p kmalloc =
      if type = offerType then s.handleOffer (some mac) p kmalloc
      else if type = ackType then s.handleAck p kmalloc
      else if type = nakType then s.handleNak (some mac)
      else s := by
  obtain ⟨ret, hret⟩ := Option.isSome_iff_exists.mp (hkmalloc optType)
  obtain ⟨b, hb, hbytes⟩ := hp.getDhcpOptions hpad hret htype
  have hfirst : (b 0).toNat = type := by
    rw [hbytes 0 Nat.zero_lt_one]
    exact (BitVec.toNat_ofNat _ _).trans (Nat.mod_eq_of_lt hsmall)
  have hmac' : ¬ ((some mac).isNone = true ∨ some (p.clientHardwareAddr.take 6) ≠ some mac) := by
    simp [hmac]
  unfold DhcpClient.dhcpHandlePacket
  rw [if_neg (not_not.mpr hop), if_neg hmac', if_neg (not_not.mpr hxid), hb]
  dsimp only
  rw [hfirst]

structure DhcpClient.Leased (s t : DhcpClient) (server lease : ℕ) : Prop where
  haveLease : t.haveLease = true
  serverId : t.serverId = server
  renewSent : t.renewSent = false
  t1Ms : t.t1Ms = (s.setTimers lease).t1Ms
  t2Ms : t.t2Ms = (s.setTimers lease).t2Ms
  expiryMs : t.expiryMs = lease * 1000

theorem WatchedClient.next_ack (hlegal : w.Legal mac (.message (.ack server lease) p opts kmalloc))
    (hpad : DhcpOption.pad ∉ opts) (hkmalloc : ∀ type, (kmalloc type).isSome) :
    (¬ w.FromSelected server →
      w.next mac (.message (.ack server lease) p opts kmalloc) = w.client) ∧
    (w.FromSelected server → w.client.Leased
      (w.next mac (.message (.ack server lease) p opts kmalloc)) server lease) := by
  obtain ⟨hop, hmac, hxid, hp, htype, hserver, hlease⟩ := hlegal
  obtain ⟨b, hb, hbvalue⟩ := hserver.read (fun _ _ => load32_congr) hp hpad hkmalloc
  obtain ⟨c, hc, hcvalue⟩ := hlease.read (fun _ _ => loadNtohl_congr) hp hpad hkmalloc
  have heq : w.next mac (.message (.ack server lease) p opts kmalloc) =
      w.client.handleAck p kmalloc := by
    rw [WatchedClient.next_message,
      handlePacket_eq hop hmac hxid hp hpad hkmalloc htype (by decide)]
    rfl
  rw [heq]
  unfold WatchedClient.FromSelected DhcpClient.handleAck
  rw [hb, hc]
  dsimp only
  rw [hbvalue, hcvalue]
  constructor
  · intro hne
    rw [if_pos hne]
  · intro hsel
    rw [if_neg (not_not.mpr hsel)]
    exact ⟨rfl, rfl, rfl, rfl, rfl, rfl⟩

structure DhcpClient.SameLease (s t : DhcpClient) : Prop where
  haveLease : t.haveLease = s.haveLease
  serverId : t.serverId = s.serverId
  renewSent : t.renewSent = s.renewSent
  t1Ms : t.t1Ms = s.t1Ms
  t2Ms : t.t2Ms = s.t2Ms
  expiryMs : t.expiryMs = s.expiryMs

theorem DhcpClient.dhcpDiscover_sameLease (s : DhcpClient) (mac : Option (List Byte)) :
    s.SameLease (s.dhcpDiscover mac) := by
  unfold dhcpDiscover
  exact ⟨rfl, rfl, rfl, rfl, rfl, rfl⟩

theorem WatchedClient.next_offer (hlegal : w.Legal mac (.message (.offer server) p opts kmalloc))
    (hpad : DhcpOption.pad ∉ opts) (hkmalloc : ∀ type, (kmalloc type).isSome) :
    w.client.SameLease (w.next mac (.message (.offer server) p opts kmalloc)) := by
  obtain ⟨hop, hmac, hxid, hp, htype, hserver⟩ := hlegal
  rw [WatchedClient.next_message,
    handlePacket_eq hop hmac hxid hp hpad hkmalloc htype (by decide), if_pos rfl]
  unfold DhcpClient.handleOffer
  cases getDhcpOptions p kmalloc optServerIp with
  | none => exact ⟨rfl, rfl, rfl, rfl, rfl, rfl⟩
  | some b =>
    dsimp only
    split_ifs <;> exact ⟨rfl, rfl, rfl, rfl, rfl, rfl⟩

theorem WatchedClient.next_nak (hlegal : w.Legal mac (.message .nak p opts kmalloc))
    (hpad : DhcpOption.pad ∉ opts) (hkmalloc : ∀ type, (kmalloc type).isSome) :
    w.next mac (.message .nak p opts kmalloc) = w.client.handleNak (some mac) := by
  obtain ⟨hop, hmac, hxid, hp, htype⟩ := hlegal
  rw [WatchedClient.next_message, handlePacket_eq hop hmac hxid hp hpad hkmalloc htype (by decide)]
  rfl

end Messages

namespace WatchedClient

variable {mac : List Byte} {v w : WatchedClient} {e : DhcpEvent}
  {P Q : WatchedClient → DhcpEvent → Prop}

/-! ## The invariant -/

structure Inv (w : WatchedClient) : Prop where
  ordered : w.client.TimersOrdered
  unset : w.client.haveLease = true → 0 ≤ w.client.t1Ms
  fresh : w.client.haveLease = true → 0 < w.client.t1Ms → w.client.renewSent = false
  renews : w.client.haveLease = true → w.awaiting = false →
    w.client.expiryMs = 0 ∨ 0 < w.client.t1Ms ∧ w.client.t1Ms < w.client.expiryMs
  leased : w.awaiting = true → w.client.haveLease = true

theorem boot_inv : (⟨.boot, false⟩ : WatchedClient).Inv := by
  refine ⟨Or.inl ⟨rfl, rfl, rfl⟩, ?_, ?_, ?_, ?_⟩ <;> intro h <;> cases h

theorem Inv.of_sameLease (h : w.Inv) (hsame : w.client.SameLease v.client)
    (hawaiting : v.awaiting = w.awaiting) : v.Inv := by
  obtain ⟨hordered, hunset, hfresh, hrenews, hleased⟩ := h
  refine ⟨?_, ?_, ?_, ?_, ?_⟩
  · unfold DhcpClient.TimersOrdered
    rw [hsame.t1Ms, hsame.t2Ms, hsame.expiryMs]
    exact hordered
  · rwa [hsame.haveLease, hsame.t1Ms]
  · rwa [hsame.haveLease, hsame.t1Ms, hsame.renewSent]
  · rwa [hsame.haveLease, hsame.t1Ms, hsame.expiryMs, hawaiting]
  · rwa [hsame.haveLease, hawaiting]

theorem Inv.of_none (hordered : w.client.TimersOrdered) (hnone : w.client.haveLease = false)
    (hawaiting : w.awaiting = false) : w.Inv := by
  refine ⟨hordered, ?_, ?_, ?_, ?_⟩ <;> simp [hnone, hawaiting]

theorem step_tick (w : WatchedClient) (mac : List Byte) : w.step mac .tick =
    ⟨w.client.dhcpBackground (some mac), (w.client.dhcpBackground (some mac)).haveLease &&
      (w.awaiting || Sends w.client (w.client.dhcpBackground (some mac)))⟩ := by
  simp only [WatchedClient.step, waits, next]

theorem Inv.tick (h : w.Inv) : (w.step mac .tick).Inv := by
  rw [step_tick]
  by_cases hlease : w.client.haveLease = true
  swap
  · have hnone := Bool.eq_false_iff.mpr hlease
    rw [DhcpClient.background_of_none hnone]
    exact Inv.of_none h.ordered hnone (by rw [hnone, Bool.false_and])
  obtain ⟨ht1, -, hexpiry, hkept⟩ := DhcpClient.background_counters mac hlease
  have hordered := h.ordered.background mac
  have hedge := DhcpClient.background_renews mac hlease
  have hnonneg := h.unset hlease
  generalize w.client.dhcpBackground (some mac) = t at *
  refine ⟨hordered, fun _ => ?_, fun hstill hpos => ?_, fun hstill hidle => ?_, fun hw => ?_⟩
  · rw [ht1]
    exact DhcpClient.countDown_nonneg hnonneg
  · obtain ⟨hrenew, -⟩ := hedge (hkept.mp hstill)
    rw [ht1, DhcpClient.countDown] at hpos
    have hbefore : 1 < w.client.t1Ms := by split_ifs at hpos <;> omega
    refine Bool.eq_false_iff.mpr fun hsent => ?_
    rcases hrenew.mp hsent with hold | hone
    · rw [h.fresh hlease (by omega)] at hold
      cases hold
    · omega
  · -- nothing was sent, so `T1` has not run down now
    obtain ⟨-, hasks⟩ := hedge (hkept.mp hstill)
    dsimp only at hstill hidle
    rw [hstill, Bool.true_and, Bool.or_eq_false_iff, Sends, decide_eq_false_iff_not,
      not_not] at hidle
    dsimp only
    rw [ht1, hexpiry, DhcpClient.countDown, DhcpClient.countDown]
    rcases h.renews hlease hidle.1 with hzero | ⟨hpos, hbelow⟩
    · rw [hzero]
      exact Or.inl rfl
    · have hone : w.client.t1Ms ≠ 1 := fun hone =>
        hasks hone (h.fresh hlease hpos) hidle.2
      right
      rw [if_pos hpos, if_pos (hpos.trans hbelow)]
      omega
  · exact (Bool.and_eq_true_iff.mp hw).1

theorem step_discover (w : WatchedClient) (mac : List Byte) :
    w.step mac .discover = ⟨w.client.dhcpDiscover (some mac), w.awaiting⟩ := by
  simp only [WatchedClient.step, waits, next]

theorem Inv.discover (h : w.Inv) : (w.step mac .discover).Inv := by
  rw [step_discover]
  have hsame := w.client.dhcpDiscover_sameLease (some mac)
  generalize w.client.dhcpDiscover (some mac) = t at hsame
  exact h.of_sameLease hsame rfl

section Messages

variable {p : DhcpPacket} {opts : List DhcpOption} {kmalloc : ℕ → Option Buffer} {server lease : ℕ}

theorem Inv.offer (h : w.Inv) (hlegal : w.Legal mac (.message (.offer server) p opts kmalloc))
    (hsmooth : w.Smooth (.message (.offer server) p opts kmalloc)) :
    (w.step mac (.message (.offer server) p opts kmalloc)).Inv := by
  refine h.of_sameLease (v := w.step mac (.message (.offer server) p opts kmalloc))
    (next_offer hlegal hsmooth.1 hsmooth.2.1) ?_
  simp only [WatchedClient.step, waits]

theorem Inv.nak (h : w.Inv) (hlegal : w.Legal mac (.message .nak p opts kmalloc))
    (hsmooth : w.Smooth (.message .nak p opts kmalloc)) :
    (w.step mac (.message .nak p opts kmalloc)).Inv := by
  have hnak := next_nak hlegal hsmooth.1 hsmooth.2.1
  have hsame := DhcpClient.dhcpDiscover_sameLease { w.client with
    selectedServer := 0, haveLease := false, renewSent := false, rebindSent := false } (some mac)
  unfold WatchedClient.step
  rw [hnak, DhcpClient.handleNak]
  refine Inv.of_none ?_ hsame.haveLease ?_
  · unfold DhcpClient.TimersOrdered
    rw [hsame.t1Ms, hsame.t2Ms, hsame.expiryMs]
    exact h.ordered
  · simp only [waits]

theorem Inv.ack (h : w.Inv) (hlegal : w.Legal mac (.message (.ack server lease) p opts kmalloc))
    (hsmooth : w.Smooth (.message (.ack server lease) p opts kmalloc)) :
    (w.step mac (.message (.ack server lease) p opts kmalloc)).Inv := by
  obtain ⟨hpad, hkmalloc, hanswers, hfits⟩ := hsmooth
  obtain ⟨hrefused, htaken⟩ := next_ack hlegal hpad hkmalloc
  by_cases hsel : w.FromSelected server
  · have hnew := htaken hsel
    obtain ⟨hfits, hone⟩ := hfits hsel
    have hlease : lease < 2 ^ 32 := by omega
    have hordered := (w.client.setTimers_ordered_iff hlease).mpr hfits
    unfold WatchedClient.step
    generalize w.next mac (.message (.ack server lease) p opts kmalloc) = t at hnew
    have ht1 : t.t1Ms = ↑(lease / 2) * 1000 := hnew.t1Ms
    refine ⟨?_, fun _ => ?_, fun _ _ => hnew.renewSent, fun _ _ => ?_, fun _ => hnew.haveLease⟩
    · unfold DhcpClient.TimersOrdered
      rw [hnew.t1Ms, hnew.t2Ms, hnew.expiryMs]
      exact hordered
    · dsimp only
      omega
    · dsimp only
      rw [hnew.expiryMs]
      omega
  · have hother : ¬ w.Answers server := fun hans => hsel (hanswers hans)
    refine h.of_sameLease (v := w.step mac (.message (.ack server lease) p opts kmalloc)) ?_ ?_
    · rw [WatchedClient.step, hrefused hsel]
      exact ⟨rfl, rfl, rfl, rfl, rfl, rfl⟩
    · simp [WatchedClient.step, waits, hsel, hother]

end Messages

theorem Inv.step (h : w.Inv) (hlegal : w.Legal mac e) (hsmooth : w.Smooth e) :
    (w.step mac e).Inv := by
  cases e with
  | tick => exact h.tick
  | discover => exact h.discover
  | message m p opts kmalloc =>
    cases m with
    | offer server => exact h.offer hlegal hsmooth
    | nak => exact h.nak hlegal hsmooth
    | ack server lease => exact h.ack hlegal hsmooth

theorem Inv.run (h : w.Inv) (hrun : w.Run mac Smooth v) : v.Inv := by
  induction hrun with
  | refl => exact h
  | step _ hlegal hsmooth ih => exact ih.step hlegal hsmooth

theorem accepts_of_smooth (hlegal : w.Legal mac e) (hsmooth : w.Smooth e) : w.Accepts mac e := by
  cases e with
  | tick => trivial
  | discover => trivial
  | message m p opts kmalloc =>
    cases m with
    | offer server => trivial
    | nak => trivial
    | ack server lease =>
      intro hfrom
      obtain ⟨hpad, hkmalloc, hanswers, -⟩ := hsmooth
      have hnew := (next_ack hlegal hpad hkmalloc).2 (hfrom.elim id hanswers)
      exact ⟨hnew.haveLease, hnew.expiryMs⟩

theorem Inv.keeps (h : w.Inv) (hlegal : w.Legal mac e) (hsmooth : w.Smooth e)
    (hanswered : ¬ w.Unanswered e) (hlease : w.client.haveLease = true) :
    (w.step mac e).client.haveLease = true := by
  cases e with
  | tick =>
    rw [step_tick]
    refine (DhcpClient.background_counters mac hlease).2.2.2.mpr fun hlast => ?_
    by_cases hw : w.awaiting = true
    · exact hanswered ⟨hw, hlast⟩
    · have hrenews := h.renews hlease (Bool.eq_false_iff.mpr hw)
      omega
  | discover =>
    rw [step_discover]
    exact (w.client.dhcpDiscover_sameLease _).haveLease.trans hlease
  | message m p opts kmalloc =>
    obtain ⟨hpad, hkmalloc, hcond⟩ := hsmooth
    cases m with
    | offer server => exact (next_offer hlegal hpad hkmalloc).haveLease.trans hlease
    | nak => exact absurd (hcond hlease) hanswered
    | ack server lease =>
      obtain ⟨hrefused, htaken⟩ := next_ack hlegal hpad hkmalloc
      by_cases hsel : w.FromSelected server
      · exact (htaken hsel).haveLease
      · exact (congrArg DhcpClient.haveLease (hrefused hsel)).trans hlease

theorem Inv.run_keeps (h : w.Inv)
    (hrun : w.Run mac (fun w e => w.Smooth e ∧ ¬ w.Unanswered e) v) :
    v.Inv ∧ (w.client.haveLease = true → v.client.haveLease = true) := by
  induction hrun with
  | refl => exact ⟨h, id⟩
  | step _ hlegal hstep ih =>
    obtain ⟨hinv, hkept⟩ := ih
    exact ⟨hinv.step hlegal hstep.1,
      fun hlease => hinv.keeps hlegal hstep.1 hstep.2 (hkept hlease)⟩

def exampleMac : List Byte := [0x52, 0x54, 0x00, 0x12, 0x34, 0x56]

def exampleServer : List Byte := [10, 0, 2, 2]

def offerOptions : List DhcpOption := [.value 53 [2], .value 54 exampleServer]

def ackOptions (lease : List Byte) : List DhcpOption :=
  [.value 53 [5], .value 54 exampleServer, .value 51 lease]

def replyWith (xid : ℕ) (opts : List DhcpOption) : DhcpPacket where
  op := reply
  xid := xid
  yourIp := 251789322
  clientHardwareAddr := exampleMac
  options i := (encodeAll opts).getD (i - 4) 0

theorem replyWith_wellFormed (xid : ℕ) {opts : List DhcpOption}
    (hfits : 4 + (encodeAll opts).length ≤ optionsSize) (hvalid : ∀ o ∈ opts, o.Valid) :
    (replyWith xid opts).WellFormed opts := by
  refine ⟨fun i _ => ?_, hfits, hvalid⟩
  simp only [replyWith, Nat.add_sub_cancel_left]

def kmallocs : ℕ → Option Buffer := fun _ => some fun _ => 0

def offerEvent (w : WatchedClient) : DhcpEvent :=
  .message (.offer (load32 fun i => exampleServer.getD i 0))
    (replyWith w.client.currXid offerOptions)
    offerOptions kmallocs

def ackEvent (w : WatchedClient) (lease : List Byte) : DhcpEvent :=
  .message (.ack (load32 fun i => exampleServer.getD i 0) (loadNtohl fun i => lease.getD i 0))
    (replyWith w.client.currXid (ackOptions lease)) (ackOptions lease) kmallocs

theorem offerEvent_legal (w : WatchedClient) : w.Legal exampleMac (offerEvent w) := by
  refine ⟨rfl, rfl, rfl,
    replyWith_wellFormed _ (by decide) ?_, by decide, ⟨exampleServer, by decide,
    rfl, rfl⟩⟩
  simp [offerOptions, DhcpOption.Valid]

theorem ackEvent_legal (w : WatchedClient) {lease : List Byte} (hlease : lease.length = 4) :
    w.Legal exampleMac (ackEvent w lease) := by
  refine ⟨rfl, rfl, rfl, replyWith_wellFormed _ ?_ ?_, ?_, ⟨exampleServer, ?_, rfl, rfl⟩,
    ⟨lease, ?_, hlease, rfl⟩⟩
  · simp [ackOptions, encodeAll, encode, hlease, exampleServer, optionsSize]
  · simp [ackOptions, DhcpOption.Valid]
  · simp [ackOptions, lookup, optType, ackType]
  · simp [ackOptions, lookup, optServerIp]
  · simp [ackOptions, lookup, optLeaseTime]

def offered : WatchedClient :=
  let w := (⟨.boot, false⟩ : WatchedClient).step exampleMac .discover
  w.step exampleMac (offerEvent w)

def granted (lease : List Byte) : WatchedClient := offered.step exampleMac (ackEvent offered lease)

theorem granted_run {P : WatchedClient → DhcpEvent → Prop} {lease : List Byte}
    (hlease : lease.length = 4) (hP : ∀ w, P w .discover ∧ P w (offerEvent w))
    (hack : P offered (ackEvent offered lease)) :
    (⟨.boot, false⟩ : WatchedClient).Run exampleMac P (granted lease) := by
  have hdiscover : (⟨.boot, false⟩ : WatchedClient).Run exampleMac P
      ((⟨.boot, false⟩ : WatchedClient).step exampleMac .discover) :=
    Run.refl.step (e := .discover) trivial (hP _).1
  have hoffer : (⟨.boot, false⟩ : WatchedClient).Run exampleMac P offered :=
    hdiscover.step (offerEvent_legal _) (hP _).2
  exact hoffer.step (ackEvent_legal _ hlease) hack

theorem step_tick_early (hlease : w.client.haveLease = true) (h1 : 1 < w.client.t1Ms)
    (h2 : 1 < w.client.t2Ms) (h3 : 1 < w.client.expiryMs) :
    w.step mac .tick = ⟨w.client.elapsed 1, w.awaiting⟩ := by
  have hback : w.client.dhcpBackground (some mac) = w.client.elapsed 1 := by
    simp only [DhcpClient.dhcpBackground, DhcpClient.countDown, DhcpClient.elapsed, hlease,
      Bool.true_eq_false, if_false, if_neg h1.ne', if_neg h2.ne', if_neg h3.ne',
      if_pos (zero_lt_one.trans h1), if_pos (zero_lt_one.trans h2), if_pos (zero_lt_one.trans h3)]
  rw [step_tick, hback]
  simp [DhcpClient.elapsed, hlease, Sends]

def ticks (mac : List Byte) : ℕ → WatchedClient → WatchedClient
  | 0, w => w
  | n + 1, w => (ticks mac n w).step mac .tick

theorem Run.ticks {u : WatchedClient} (h : u.Run mac (fun _ _ => True) w) (n : ℕ) :
    u.Run mac (fun _ _ => True) (w.ticks mac n) := by
  induction n with
  | zero => exact h
  | succ n ih => exact ih.step (e := .tick) trivial trivial

theorem ticks_eq (hlease : w.client.haveLease = true) {n : ℕ} (h1 : n < w.client.t1Ms)
    (h2 : n < w.client.t2Ms) (h3 : n < w.client.expiryMs) :
    w.ticks mac n = ⟨w.client.elapsed n, w.awaiting⟩ := by
  induction n with
  | zero => simp [WatchedClient.ticks, DhcpClient.elapsed]
  | succ n ih =>
    push_cast at h1 h2 h3
    rw [WatchedClient.ticks, ih (by omega) (by omega) (by omega),
      step_tick_early (w := ⟨w.client.elapsed n, w.awaiting⟩) hlease
        (show 1 < w.client.t1Ms - n by omega) (show 1 < w.client.t2Ms - n by omega)
        (show 1 < w.client.expiryMs - n by omega), DhcpClient.elapsed_elapsed, ← Int.natCast_succ]

/-- The timers of a lease of 613566757 seconds: `T2` is 0. -/
theorem longLease_not_ordered :
    (⟨.boot, false⟩ : WatchedClient).Run exampleMac (fun _ _ => True)
    (granted [0x24, 0x92, 0x49, 0x25]) ∧
      ¬ (granted [0x24, 0x92, 0x49, 0x25]).client.TimersOrdered := by
  refine ⟨granted_run rfl (fun _ => ⟨trivial, trivial⟩) trivial, ?_⟩
  have h1 : (granted [0x24, 0x92, 0x49, 0x25]).client.t1Ms = 306783378000 := by decide
  have h2 : (granted [0x24, 0x92, 0x49, 0x25]).client.t2Ms = 0 := by decide
  unfold DhcpClient.TimersOrdered
  omega

def renewing : WatchedClient := (granted [0, 0, 0, 2]).ticks exampleMac 1000

theorem renewing_eq : renewing = (⟨(granted [0, 0, 0, 2]).client.elapsed 999,
    (granted [0, 0, 0, 2]).awaiting⟩ : WatchedClient).step exampleMac .tick := by
  have h1 : (granted [0, 0, 0, 2]).client.t1Ms = 1000 := by decide
  have h2 : (granted [0, 0, 0, 2]).client.t2Ms = 1000 := by decide
  have h3 : (granted [0, 0, 0, 2]).client.expiryMs = 2000 := by decide
  rw [renewing, WatchedClient.ticks, ticks_eq (by decide) (by omega) (by omega) (by omega)]
  rfl

theorem renewal_not_accepted :
    (⟨.boot, false⟩ : WatchedClient).Run exampleMac (fun _ _ => True) renewing ∧
      renewing.Legal exampleMac (ackEvent renewing [0, 0, 0, 2]) ∧
      ¬ renewing.Accepts exampleMac (ackEvent renewing [0, 0, 0, 2]) := by
  have hlegal := ackEvent_legal renewing (show [0, 0, 0, 2].length = 4 from rfl)
  refine ⟨(granted_run rfl (fun _ => ⟨trivial, trivial⟩) trivial).ticks 1000, hlegal,
    fun haccepts => ?_⟩
  have hserver : renewing.client.serverId = load32 fun i => exampleServer.getD i 0 := by
    rw [renewing_eq]
    decide
  have hselected : renewing.client.selectedServer ≠ load32 fun i => exampleServer.getD i 0 := by
    rw [renewing_eq]
    decide
  have hawaiting : renewing.awaiting = true := by
    rw [renewing_eq]
    decide
  have hexpiry : renewing.client.expiryMs = 1000 := by
    rw [renewing_eq]
    decide
  have hrefused :=
    (next_ack hlegal (by simp [ackOptions]) fun _ => rfl).1 fun hsel => hselected hsel.symm
  obtain ⟨-, hrestarted⟩ := haccepts (Or.inr ⟨hawaiting, hserver.symm⟩)
  rw [hrefused, hexpiry] at hrestarted
  exact absurd hrestarted (by decide)

end WatchedClient

end RetroRocket
