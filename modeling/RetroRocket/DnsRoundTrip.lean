import RetroRocket.DnsNames
import RetroRocket.DnsQuery

/-!
# Host names there and back

The encoder and the decoder of `dns.c` meet at `Spells`, a name in a packet with its labels. What
`dns_make_payload` writes spells the host name, and `dns_result_ready` returns the text of what is
spelled, through any chain of pointers to it.
-/

namespace RetroRocket

namespace DnsLog

variable {log : DnsLog} {res : ℕ → Byte} {o : ℕ}

/-- `char result[256]` behind the writes, where it held `res`. -/
def result (log : DnsLog) (res : ℕ → Byte) : ℕ → Byte :=
  log.writes.foldl (fun m w => Function.update m w.2 w.1) res

def text (log : DnsLog) (res : ℕ → Byte) (n : ℕ) : List Byte := (List.range n).map (log.result res)

@[simp] theorem text_read (i n k : ℕ) : (log.read i n).text res k = log.text res k := rfl

theorem result_write (b : Byte) :
    (log.write o [b]).result res = Function.update (log.result res) o b := by
  simp [result, write]

theorem text_write_behind (b : Byte) : (log.write o [b]).text res o = log.text res o := by
  unfold text
  rw [result_write]
  exact List.map_congr_left fun k hk => Function.update_of_ne (List.mem_range.mp hk).ne _ _

theorem text_write_singleton (b : Byte) :
    (log.write o [b]).text res (o + 1) = log.text res o ++ [b] := by
  have hlast : (log.write o [b]).result res o = b := by
    rw [result_write, Function.update_self]
  have hbehind : (log.write o [b]).text res o = log.text res o := text_write_behind b
  unfold text at hbehind ⊢
  rw [List.range_succ, List.map_append, hbehind, List.map_singleton, hlast]

theorem text_write (bytes : List Byte) :
    (log.write o bytes).text res (o + bytes.length) = log.text res o ++ bytes := by
  induction bytes generalizing log o with
  | nil => simp [write]
  | cons b bytes ih =>
    have hsplit : log.write o (b :: bytes) = (log.write o [b]).write (o + 1) bytes := by
      simp [write]
    rw [hsplit, List.length_cons, Nat.add_comm bytes.length, ← Nat.add_assoc, ih,
      text_write_singleton, List.append_assoc]
    rfl

end DnsLog

/-- The text of these labels behind `text`. -/
def dottedAfter (text : List Byte) (labels : List (List Byte)) : List Byte :=
  [dnsDot].intercalate (if text = [] then labels else text :: labels)

theorem dottedAfter_nil (text : List Byte) : dottedAfter text [] = text := by
  unfold dottedAfter
  split_ifs with htext
  · exact htext.symm
  · simp

theorem dottedAfter_cons (text : List Byte) {label : List Byte} (hlabel : label ≠ [])
    (labels : List (List Byte)) : dottedAfter text (label :: labels) =
      dottedAfter ((if text = [] then [] else text ++ [dnsDot]) ++ label) labels := by
  unfold dottedAfter
  split_ifs <;> cases labels <;> simp_all [List.intercalate, List.intersperse]

theorem length_le_dottedAfter (text : List Byte) (labels : List (List Byte)) :
    text.length ≤ (dottedAfter text labels).length := by
  unfold dottedAfter
  split_ifs with htext
  · simp [htext]
  · cases labels <;> simp [List.intercalate, List.intersperse]

namespace DnsPacket

open DnsLog

variable {p : DnsPacket} {request : DnsRequest} {log : DnsLog} {res : ℕ → Byte}
  {i j fuel lowestPos : ℕ} {text label name payload : List Byte} {labels : List (List Byte)}

/-- The payload holds these bytes from `j` on. -/
def Holds (p : DnsPacket) (j : ℕ) (bytes : List Byte) : Prop :=
  j + bytes.length ≤ p.payloadLength ∧
    (List.range' (dnsHeaderSize + j) bytes.length).map p.memory = bytes

theorem Holds.append {a b : List Byte} (h : p.Holds j (a ++ b)) :
    p.Holds j a ∧ p.Holds (j + a.length) b := by
  obtain ⟨hle, hmap⟩ := h
  rw [List.length_append] at hle hmap
  rw [← List.range'_append_1, List.map_append] at hmap
  obtain ⟨ha, hb⟩ := List.append_inj hmap (by simp)
  exact ⟨⟨by omega, ha⟩, by omega, by rwa [← Nat.add_assoc]⟩

/-- A name from `i` on has these labels, and its pointers lead in front of `lowestPos`. -/
inductive Spells (p : DnsPacket) : ℕ → ℕ → List (List Byte) → Prop
  | root {lowestPos i : ℕ} : i < p.payloadLength → p.payload i = 0 → Spells p lowestPos i []
  | label {lowestPos i : ℕ} {label : List Byte} {labels : List (List Byte)} : ValidLabel label →
      p.payload i = label.length → p.Holds (i + 1) label →
      Spells p lowestPos (i + label.length + 1) labels → Spells p lowestPos i (label :: labels)
  | pointer {lowestPos i target : ℕ} {labels : List (List Byte)} : i + 2 ≤ p.payloadLength →
      63 < p.payload i → p.Points i target lowestPos → Spells p target target labels →
      Spells p lowestPos i labels

/-! ## The encoder -/

theorem spells_encodeName (hvalid : ∀ label ∈ labels, ValidLabel label)
    (h : p.Holds j (encodeName labels)) (lowestPos : ℕ) : p.Spells lowestPos j labels := by
  induction labels generalizing j with
  | nil =>
    obtain ⟨hle, hmap⟩ := h
    have hzero : p.memory (dnsHeaderSize + j) = 0 := List.singleton_inj.mp hmap
    exact .root hle (by unfold payload; rw [hzero]; rfl)
  | cons label labels ih =>
    rw [List.forall_mem_cons] at hvalid
    rw [encodeName_cons, ← List.singleton_append] at h
    obtain ⟨⟨-, hlength⟩, hrest⟩ := h.append
    obtain ⟨hlabel, hname⟩ := hrest.append
    have hlength : p.memory (dnsHeaderSize + j) = BitVec.ofNat 8 label.length :=
      List.singleton_inj.mp hlength
    refine .label hvalid.1 ?_ hlabel (ih hvalid.2 ?_)
    · unfold payload
      rw [hlength, toNat_length hvalid.1.2]
    · rwa [Nat.add_right_comm]

/-- From `i` on pointers lead back to `j`. -/
inductive Refers (p : DnsPacket) (j : ℕ) : ℕ → ℕ → Prop
  | here {lowestPos : ℕ} : Refers p j lowestPos j
  | pointer {lowestPos i target : ℕ} : i + 2 ≤ p.payloadLength → 63 < p.payload i →
      p.Points i target lowestPos → Refers p j target target → Refers p j lowestPos i

theorem Refers.spells (h : p.Refers j lowestPos i)
    (hspells : ∀ lowestPos, p.Spells lowestPos j labels) : p.Spells lowestPos i labels := by
  induction h with
  | here => exact hspells _
  | pointer hread hpointer hpoints _ ih => exact .pointer hread hpointer hpoints ih

/-! ## The decoder -/

theorem text_copyLabel (hlength : p.payload i = label.length) (hlabel : p.Holds (i + 1) label)
    (htext : log.text res text.length = text) :
    (p.copyLabel text.length i log).text res (labelPlace text.length + label.length) =
      (if text = [] then [] else text ++ [dnsDot]) ++ label := by
  unfold copyLabel copy
  rw [hlength, hlabel.2, text_write, text_read]
  unfold labelPlace
  by_cases hfirst : text = []
  · subst hfirst
    rfl
  · have hne : text.length ≠ 0 := List.length_eq_zero_iff.not.mpr hfirst
    rw [if_pos hne, if_pos hne, if_neg hfirst, text_write_singleton, text_write_behind, text_read,
      htext]
    rfl

theorem Spells.copyName (h : p.Spells lowestPos i labels)
    (hfits : (dottedAfter text labels).length ≤ 256) (htext : log.text res text.length = text)
    (hfuel : lowestPos + dnsResultMax < fuel + text.length) :
    ∃ log', p.copyName fuel i text.length lowestPos log =
        some (none, (dottedAfter text labels).length, log') ∧
      log'.text res (dottedAfter text labels).length = dottedAfter text labels := by
  have hlong := (length_le_dottedAfter text labels).trans hfits
  have hroom : text.length + 256 < dnsResultMax :=
    lt_of_le_of_lt (Nat.add_le_add_right hlong 256) (by decide)
  obtain ⟨fuel, rfl⟩ := Nat.exists_eq_succ_of_ne_zero (show fuel ≠ 0 by omega)
  induction h generalizing fuel log text with
  | root hi hroot =>
    rw [dottedAfter_nil]
    exact ⟨_, copyName_root hi hroom hroot, htext⟩
  | @label lowestPos i label labels hvalid hlength hlabel _ ih =>
    have hpos := hvalid.1
    have hshort := hvalid.2
    rw [dottedAfter_cons text (List.ne_nil_of_length_pos hpos)] at hfits ⊢
    generalize hnext : (if text = [] then [] else text ++ [dnsDot]) ++ label = next at hfits ⊢
    have hplace : labelPlace text.length + label.length = next.length := by
      rw [← hnext]
      unfold labelPlace
      by_cases hfirst : text = []
      · simp [hfirst]
      · simp [hfirst]
        omega
    have hwritten := text_copyLabel hlength hlabel htext
    have hgrows := le_labelPlace text.length
    have hnextLong := (length_le_dottedAfter next labels).trans hfits
    have hsize : labelPlace text.length + p.payload i ≤ sizeofDnsHeader := by
      rw [hlength, hplace]
      exact hnextLong.trans (by decide)
    have hle := hlabel.1
    rw [hplace, hnext] at hwritten
    rw [copyName_label (by omega) hroom (by omega) (by omega) hsize, hlength, hplace]
    obtain ⟨fuel, rfl⟩ := Nat.exists_eq_succ_of_ne_zero (show fuel ≠ 0 by omega)
    exact ih hfits hwritten hnextLong
      (lt_of_le_of_lt (Nat.add_le_add_right hnextLong 256) (by decide)) fuel (by omega)
  | @pointer lowestPos i target labels hread hpointer hpoints _ ih =>
    have hlowest := hpoints.2
    rw [copyName_pointer (by omega) hroom hpointer hpoints]
    obtain ⟨fuel, rfl⟩ := Nat.exists_eq_succ_of_ne_zero (show fuel ≠ 0 by omega)
    have hread :
      ((log.read (dnsHeaderSize + i) 1).read (dnsHeaderSize + i) 2).text res text.length =
        text := htext
    exact ih hfits hread hlong hroom fuel (by omega)

theorem Answers.dnsResultReady {rr : ResourceRecord} (h : p.Answers request rr i) :
    ∃ request' log, p.dnsResultReady request = p.copyAnswer request' rr i log ∧
      i + rr.rdlength ≤ p.payloadLength := by
  obtain ⟨j, log', log, request', hskip, hfind, -, hfits, hcount⟩ :=
    h.found (DnsLog.read ⟨[], [(0, 0)]⟩ 2 6)
  obtain ⟨hheader, hquery, hopcode, hrcode⟩ := h.1
  refine ⟨request', log, ?_, hfits⟩
  unfold DnsPacket.dnsResultReady
  rw [if_neg (by omega)]
  dsimp only
  rw [if_neg hquery, if_neg (not_not.mpr hopcode), if_neg (not_not.mpr hrcode), if_neg (by omega)]
  unfold readAnswers
  rw [hskip]
  dsimp only [Option.bind_eq_bind, Option.bind_some]
  rw [hfind]
  rfl

theorem text_copyAddress {bytes : List Byte} (hbytes : p.Holds i bytes) (log : DnsLog)
    (res : ℕ → Byte) : ((p.copy 0 i bytes.length log).write bytes.length [0]).text res
      (bytes.length + 1) = bytes ++ [0] := by
  have hcopy : ((log.read (dnsHeaderSize + i) bytes.length).write 0 bytes).text res
      (0 + bytes.length) = [] ++ bytes := text_write bytes
  rw [Nat.zero_add] at hcopy
  rw [text_write_singleton]
  unfold copy
  rw [hbytes.2, hcopy]
  rfl

/-- The address in the answer is returned as it stands in the packet. -/
theorem dnsResultReady_address {rr : ResourceRecord} {bytes : List Byte}
    (hanswers : p.Answers request rr i)
    (htype : rr.type = dnsQueryA ∧ bytes.length = 4 ∨ rr.type = dnsQueryAaaa ∧ bytes.length = 16)
    (hlength : rr.rdlength = bytes.length) (hbytes : p.Holds i bytes) (res : ℕ → Byte) :
    ∃ r, p.dnsResultReady request = some r ∧ r.error = none ∧ r.outlength = bytes.length ∧
      r.log.text res (bytes.length + 1) = bytes ++ [0] := by
  obtain ⟨request', log, hready, hfits⟩ := hanswers.dnsResultReady
  refine ⟨⟨none, { request' with ttl := rr.ttl },
    (p.copy 0 i bytes.length log).write bytes.length [0], bytes.length⟩, ?_, rfl, rfl,
    text_copyAddress hbytes log res⟩
  rw [hready]
  unfold copyAnswer copyAddress dnsResultMax
  rw [if_neg (by omega), hlength]
  rcases htype with ⟨htype, hlen⟩ | ⟨htype, hlen⟩ <;> rw [htype, if_neg (by omega)] <;> dsimp only
  · simp [dnsQueryA, dnsQueryCname, dnsQueryPtr, dnsQueryAaaa, hlen]
  · simp [dnsQueryCname, dnsQueryPtr, dnsQueryAaaa, hlen]

/-- The answer to a query for `ab` of type A. -/
def addressReply : DnsPacket where
  memory := fun k => ([0, 1, 0x80, 0, 0, 1, 0, 1, 0, 0, 0, 0, 2, 0x61, 0x62, 0, 0, 1, 0, 1,
    0xc0, 12, 0, 1, 0, 1, 0, 0, 0, 60, 0, 4, 10, 0, 2, 15] : List Byte).getD k 0
  length := 36
  short := by decide

theorem dnsResultReady_address_addressReply :
    ∃ r, addressReply.dnsResultReady addressRequest = some r ∧ r.error = none ∧ r.outlength = 4 ∧
      r.log.text (fun _ => 0xff) 5 = [10, 0, 2, 15, 0] := by
  have hanswers : addressReply.Answers addressRequest (addressReply.fillResourceRecord 10) 20 := by
    refine ⟨by unfold Reply; decide, 8, _, true, ?_,
      .record (.pointer (by decide) (by decide)) (by decide) .done, rfl⟩
    exact .label (by decide) (by decide) (by decide) (.root (by decide) (by decide) .done)
  have hbytes : addressReply.Holds 20 [10, 0, 2, 15] := ⟨by decide, by decide⟩
  exact dnsResultReady_address hanswers (Or.inl ⟨by decide, rfl⟩) (by decide) hbytes _

/-- A reply whose answer names what `dns_make_payload` wrote for a host name, somewhere in the
packet, returns this host name. -/
theorem dnsResultReady_dnsMakePayload {rr : ResourceRecord} {type : Byte} {rrClass : BitVec 16}
    (hmake : dnsMakePayload name type rrClass = some payload) (hname : Encodable name)
    (hroot : name ≠ [dnsDot]) (hanswers : p.Answers request rr i) (hholdsName : rr.HoldsName)
    (hlarge : rr.rdlength ≤ dnsResultMax) (hholds : p.Holds j payload)
    (hrefers : p.Refers j p.payloadLength i) (res : ℕ → Byte) :
    ∃ r, p.dnsResultReady request = some r ∧ r.error = none ∧ r.outlength = name.length + 1 ∧
      r.log.text res r.outlength = name ++ [0] := by
  obtain ⟨hvalid, hshort⟩ := hname.resolve_left hroot
  rw [payload_of_validLabels hmake hvalid] at hholds
  have hspells := hrefers.spells (spells_encodeName hvalid hholds.append.1)
  have htext : dottedAfter [] (name.splitOn dnsDot) = name := List.intercalate_splitOn dnsDot
  have hlength : p.payloadLength < 2 ^ 16 := by
    have := p.short
    unfold payloadLength
    omega
  obtain ⟨request', log, hready, hfits⟩ := hanswers.dnsResultReady
  obtain ⟨log', hcopy, hlog⟩ : ∃ log', p.copyName (2 ^ 17) i 0 p.payloadLength log =
      some (none, name.length, log') ∧ log'.text res name.length = name := by
    have hempty : log.text res ([] : List Byte).length = [] := rfl
    have hfuel : p.payloadLength + dnsResultMax < 2 ^ 17 + ([] : List Byte).length := by
      unfold dnsResultMax
      omega
    have hread := hspells.copyName (by rw [htext]; omega) hempty hfuel
    rwa [htext] at hread
  have houtlength : (name.length + 1) % 2 ^ 8 = name.length + 1 := Nat.mod_eq_of_lt (by omega)
  refine ⟨⟨none, { request' with ttl := rr.ttl }, log'.write name.length [0], name.length + 1⟩, ?_,
    rfl, rfl, ?_⟩
  · rw [hready]
    unfold copyAnswer
    rw [if_neg (by omega), if_neg (by omega)]
    dsimp only
    rw [if_pos (show rr.type = dnsQueryCname ∨ rr.type = dnsQueryPtr from hholdsName)]
    unfold decompress
    rw [Nat.mod_eq_of_lt hlength]
    rw [hcopy]
    dsimp only [Option.bind_eq_bind, Option.bind_some]
    rw [houtlength]
  · rw [text_write_singleton, hlog]

/-- The answer to a query for `ab` of type PTR, which points to the question. -/
def pointerReply : DnsPacket where
  memory := fun k => ([0, 1, 0x80, 0, 0, 1, 0, 1, 0, 0, 0, 0, 2, 0x61, 0x62, 0, 0, 12, 0, 1,
    0xc0, 12, 0, 12, 0, 1, 0, 0, 0, 60, 0, 2, 0xc0, 12] : List Byte).getD k 0
  length := 34
  short := by decide

theorem pointerReply_answers :
    pointerReply.Answers ⟨dnsQueryPtr, 1, 0⟩ (pointerReply.fillResourceRecord 10) 20 := by
  refine ⟨by unfold Reply; decide, 8, _, true, ?_,
    .record (.pointer (by decide) (by decide)) (by decide) .done, rfl⟩
  exact .label (by decide) (by decide) (by decide) (.root (by decide) (by decide) .done)

theorem dnsResultReady_dnsMakePayload_pointerReply :
    ∃ r, pointerReply.dnsResultReady ⟨dnsQueryPtr, 1, 0⟩ = some r ∧ r.error = none ∧
      r.outlength = 3 ∧ r.log.text (fun _ => 0xff) r.outlength = [0x61, 0x62, 0] := by
  have hmake : dnsMakePayload [0x61, 0x62] 12 1 = some [2, 0x61, 0x62, 0, 0, 12, 0, 1] := rfl
  have hholds : pointerReply.Holds 0 [2, 0x61, 0x62, 0, 0, 12, 0, 1] := ⟨by decide, by decide⟩
  refine dnsResultReady_dnsMakePayload hmake (Or.inr ⟨?_, by decide⟩) (by decide)
    pointerReply_answers (Or.inr rfl) (by decide) hholds
    (.pointer (by decide) (by decide) ⟨by decide, by decide⟩ .here) _
  unfold ValidLabel
  decide

end DnsPacket

end RetroRocket
