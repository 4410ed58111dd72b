import Mathlib.Data.List.Flatten
import RetroRocket.Bits

/-!
# The question of a DNS query

`dns_make_payload` of `dns.c` and the decoder of the names that it should produce. The root label is
written behind a last label only, and an empty label is written as it stands. The bound on the name
is the one of the buffer. A payload that is a question is one whose name has labels of 1 to 63 bytes
and 253 characters at most, apart from the name of the root.
-/

namespace RetroRocket

/-! ## The code -/

def dnsDot : Byte := 0x2e

/-- `strchr(tempchr2, '.')`, as an offset. -/
def firstDot : List Byte → Option ℕ
  | [] => none
  | c :: s => if c = dnsDot then some 0 else (firstDot s).map (· + 1)

def dnsDotted : ℕ → List Byte → List Byte → Option (List Byte × List Byte)
  | 0, payload, rest => some (payload, rest)
  | fuel + 1, payload, rest =>
    match firstDot rest with
    | none => some (payload, rest)
    | some tempchr =>
      let length := u16 tempchr
      if 63 < length then none
      else if 507 < payload.length + length + 1 then none
      else dnsDotted fuel (payload ++ BitVec.ofNat 8 length :: rest.take length)
        (rest.drop (tempchr + 1))

def dnsLastLabel (payload rest : List Byte) : Option (List Byte) :=
  let length := u16 rest.length
  if length = 0 then some payload
  else if 63 < length then none
  else if 507 < payload.length + length + 2 then none
  else some (payload ++ BitVec.ofNat 8 length :: rest.take length ++ [0])

def dnsTypeClass (rr : Byte) (rrClass : BitVec 16) : List Byte :=
  [0, rr, rrClass.extractLsb' 8 8, rrClass.extractLsb' 0 8]

/-- `dns_make_payload`, with `none` for -1. -/
def dnsMakePayload (name : List Byte) (rr : Byte) (rrClass : BitVec 16) : Option (List Byte) :=
  if name = [] then none
  else do
    let (payload, rest) ← dnsDotted name.length [] name
    let payload ← dnsLastLabel payload rest
    if 508 < payload.length then none else some (payload ++ dnsTypeClass rr rrClass)

/-! ## Names on the wire -/

def ValidLabel (label : List Byte) : Prop := 1 ≤ label.length ∧ label.length ≤ 63

def encodeLabel (label : List Byte) : List Byte := BitVec.ofNat 8 label.length :: label

def encodeName (labels : List (List Byte)) : List Byte := labels.flatMap encodeLabel ++ [0]

def decodeName : ℕ → List Byte → Option (List (List Byte) × List Byte)
  | 0, _ => none
  | _ + 1, [] => none
  | fuel + 1, length :: rest =>
    if length = 0 then some ([], rest)
    else if 63 < length.toNat ∨ rest.length < length.toNat then none
    else (decodeName fuel (rest.drop length.toNat)).map fun (labels, behind) =>
      (rest.take length.toNat :: labels, behind)

def hostLabels (name : List Byte) : List (List Byte) :=
  let name := if name.getLast? = some dnsDot then name.dropLast else name
  if name = [] then [] else name.splitOn dnsDot

/-- The payload is the question for the name: a name of at most 255 bytes that decodes to the
labels, and the type and the class behind it. -/
def IsQuestion (name : List Byte) (rr : Byte) (rrClass : BitVec 16) (payload : List Byte) : Prop :=
  decodeName payload.length payload = some (hostLabels name, dnsTypeClass rr rrClass) ∧
    payload.length ≤ 255 + 4

def Encodable (name : List Byte) : Prop :=
  name = [dnsDot] ∨ ((∀ label ∈ name.splitOn dnsDot, ValidLabel label) ∧ name.length ≤ 253)

variable {name label rest payload bytes behind : List Byte} {labels : List (List Byte)}

/-! ## The decoder -/

theorem toNat_length (hlabel : label.length ≤ 63) :
    (BitVec.ofNat 8 label.length).toNat = label.length := by
  rw [BitVec.toNat_ofNat]
  omega

theorem encodeName_cons (label : List Byte) (labels : List (List Byte)) :
    encodeName (label :: labels) = BitVec.ofNat 8 label.length :: (label ++ encodeName labels) := by
  unfold encodeName
  rw [List.flatMap_cons, List.append_assoc]
  rfl

theorem decodeName_encodeName (h : ∀ label ∈ labels, ValidLabel label) {fuel : ℕ}
    (hfuel : labels.length < fuel) (behind : List Byte) :
    decodeName fuel (encodeName labels ++ behind) = some (labels, behind) := by
  induction labels generalizing fuel with
  | nil =>
    obtain ⟨fuel, rfl⟩ := Nat.exists_eq_add_one.mpr hfuel
    rfl
  | cons label labels ih =>
    obtain ⟨fuel, rfl⟩ := Nat.exists_eq_add_one.mpr (Nat.zero_lt_of_lt hfuel)
    obtain ⟨hpos, hle⟩ := h label List.mem_cons_self
    have hnat := toNat_length hle
    have hne : BitVec.ofNat 8 label.length ≠ 0 := by
      intro h0
      rw [h0, BitVec.ofNat_eq_ofNat, BitVec.toNat_ofNat, Nat.zero_mod] at hnat
      omega
    have hlen : (label ++ (encodeName labels ++ behind)).length =
        label.length + (encodeName labels ++ behind).length := List.length_append
    rw [encodeName_cons, List.cons_append, List.append_assoc]
    unfold decodeName
    rw [if_neg hne, if_neg (by omega), hnat, List.drop_left, List.take_left,
      ih (fun l hl => h l (List.mem_cons_of_mem label hl)) (Nat.lt_of_succ_lt_succ hfuel)]
    rfl

theorem eq_of_decodeName {fuel : ℕ} (h : decodeName fuel bytes = some (labels, behind)) :
    (∀ label ∈ labels, ValidLabel label) ∧ bytes = encodeName labels ++ behind := by
  induction fuel generalizing bytes labels with
  | zero => cases h
  | succ fuel ih =>
    rcases bytes with _ | ⟨length, rest⟩
    · cases h
    · unfold decodeName at h
      split at h
      · next h0 =>
        cases h
        rw [h0]
        exact ⟨fun l hl => absurd hl List.not_mem_nil, rfl⟩
      · next h0 =>
        split at h
        · cases h
        · next hle =>
          push Not at hle
          obtain ⟨⟨ls, b⟩, hdec, heq⟩ := Option.map_eq_some_iff.mp h
          cases heq
          obtain ⟨hvalid, hrest⟩ := ih hdec
          have htake : (rest.take length.toNat).length = length.toNat := by
            rw [List.length_take]
            omega
          have hpos : length.toNat ≠ 0 := fun hz => h0 (BitVec.eq_of_toNat_eq hz)
          refine ⟨fun l hl => ?_, ?_⟩
          · rcases List.mem_cons.mp hl with rfl | hl
            · unfold ValidLabel
              omega
            · exact hvalid l hl
          · rw [encodeName_cons, htake, BitVec.ofNat_toNat, BitVec.setWidth_eq, List.cons_append,
              List.append_assoc, ← hrest, List.take_append_drop]

/-! ## Splitting at dots -/

theorem firstDot_eq_none (h : firstDot name = none) : dnsDot ∉ name := by
  induction name with
  | nil => exact List.not_mem_nil
  | cons c s ih =>
    unfold firstDot at h
    rw [List.mem_cons, not_or]
    split at h
    · cases h
    · next hc => exact ⟨fun heq => hc heq.symm, ih (Option.map_eq_none_iff.mp h)⟩

theorem firstDot_eq_some {i : ℕ} (h : firstDot name = some i) :
    i < name.length ∧ dnsDot ∉ name.take i ∧ name = name.take i ++ dnsDot :: name.drop (i + 1) := by
  induction name generalizing i with
  | nil => cases h
  | cons c s ih =>
    unfold firstDot at h
    split at h
    · next hc =>
      cases h
      rw [hc]
      exact ⟨Nat.succ_pos _, List.not_mem_nil, rfl⟩
    · next hc =>
      obtain ⟨j, hj, rfl⟩ := Option.map_eq_some_iff.mp h
      obtain ⟨hlt, hnot, heq⟩ := ih hj
      refine ⟨Nat.succ_lt_succ hlt, ?_, ?_⟩
      · rw [List.take_succ_cons, List.mem_cons, not_or]
        exact ⟨fun heq' => hc heq'.symm, hnot⟩
      · rw [List.take_succ_cons, List.drop_succ_cons, List.cons_append, ← heq]

theorem splitOn_of_firstDot {i : ℕ} (h : firstDot name = some i) :
    name.splitOn dnsDot = name.take i :: (name.drop (i + 1)).splitOn dnsDot := by
  obtain ⟨-, hnot, heq⟩ := firstDot_eq_some h
  conv_lhs => rw [heq]
  exact List.splitOn_append_cons_self_of_not_mem hnot _

theorem length_le_flatMap_encodeLabel (labels : List (List Byte)) :
    labels.length ≤ (labels.flatMap encodeLabel).length := by
  induction labels with
  | nil => exact le_rfl
  | cons label labels ih =>
    rw [List.flatMap_cons, List.length_append, List.length_cons]
    unfold encodeLabel at ih ⊢
    rw [List.length_cons]
    omega

theorem length_encode_splitOn (name : List Byte) :
    ((name.splitOn dnsDot).flatMap encodeLabel).length = name.length + 1 := by
  induction name with
  | nil => rfl
  | cons c s ih =>
    rw [List.splitOn_cons_eq_if_modifyHead]
    split
    · rw [List.flatMap_cons, List.length_append, ih]
      exact Nat.add_comm 1 _
    · obtain ⟨label, labels, hsplit⟩ := List.exists_cons_of_ne_nil (List.splitOn_ne_nil dnsDot s)
      rw [hsplit, List.flatMap_cons, List.length_append] at ih
      rw [hsplit, List.modifyHead_cons, List.flatMap_cons, List.length_append,
        List.length_cons, ← ih]
      unfold encodeLabel
      rw [List.length_cons, List.length_cons, List.length_cons]
      omega

/-! ## The loop -/

theorem dnsDotted_eq {fuel : ℕ} (hfuel : name.length ≤ fuel)
    (h : dnsDotted fuel bytes name = some (payload, rest))
    (hvalid : ∀ label ∈ (name.splitOn dnsDot).dropLast, ValidLabel label) :
    payload = bytes ++ (name.splitOn dnsDot).dropLast.flatMap encodeLabel ∧
      name.splitOn dnsDot = (name.splitOn dnsDot).dropLast ++ [rest] := by
  induction fuel generalizing bytes name with
  | zero =>
    obtain rfl := List.length_eq_zero_iff.mp (Nat.le_zero.mp hfuel)
    cases h
    exact ⟨(List.append_nil _).symm, rfl⟩
  | succ fuel ih =>
    unfold dnsDotted at h
    split at h
    · next hdot =>
      cases h
      rw [List.splitOn_eq_singleton (firstDot_eq_none hdot)]
      exact ⟨(List.append_nil _).symm, rfl⟩
    · next i hdot =>
      obtain ⟨hlt, -, -⟩ := firstDot_eq_some hdot
      have hsplit := splitOn_of_firstDot hdot
      have hne := List.splitOn_ne_nil dnsDot (name.drop (i + 1))
      have hdrop : (name.splitOn dnsDot).dropLast =
          name.take i :: ((name.drop (i + 1)).splitOn dnsDot).dropLast := by
        rw [hsplit, List.dropLast_cons_of_ne_nil hne]
      rw [hdrop] at hvalid ⊢
      obtain ⟨-, hle⟩ := hvalid _ List.mem_cons_self
      have htake : (name.take i).length = i := by
        rw [List.length_take]
        omega
      have hu16 : u16 i = (name.take i).length := by
        rw [u16_of_lt (by omega), htake]
      dsimp only at h
      split at h
      · cases h
      · split at h
        · cases h
        · rw [hu16, htake] at h
          have hlen : (name.drop (i + 1)).length ≤ fuel := by
            rw [List.length_drop]
            omega
          obtain ⟨hpay, hlast⟩ := ih hlen h
            fun l hl => hvalid l (List.mem_cons_of_mem _ hl)
          refine ⟨?_, ?_⟩
          · rw [hpay, List.flatMap_cons, List.append_assoc]
            unfold encodeLabel
            rw [htake]
          · rw [hsplit, List.cons_append, ← hlast]

/-! ## The payload -/

variable {rr : Byte} {rrClass : BitVec 16}

theorem dnsMakePayload_eq_some (h : dnsMakePayload name rr rrClass = some payload) :
    name ≠ [] ∧ ∃ written rest q, dnsDotted name.length [] name = some (written, rest) ∧
      dnsLastLabel written rest = some q ∧ payload = q ++ dnsTypeClass rr rrClass := by
  unfold dnsMakePayload at h
  split at h
  · cases h
  · next hname =>
    obtain ⟨⟨written, rest⟩, hdotted, h⟩ := Option.bind_eq_some_iff.mp h
    obtain ⟨q, hlast, h⟩ := Option.bind_eq_some_iff.mp h
    split at h
    · cases h
    · cases h
      exact ⟨hname, written, rest, q, hdotted, hlast, rfl⟩

theorem payload_of_validLabels (h : dnsMakePayload name rr rrClass = some payload)
    (hvalid : ∀ label ∈ name.splitOn dnsDot, ValidLabel label) :
    payload = encodeName (name.splitOn dnsDot) ++ dnsTypeClass rr rrClass := by
  obtain ⟨-, written, rest, q, hdotted, hlast, rfl⟩ := dnsMakePayload_eq_some h
  obtain ⟨rfl, hsplit⟩ := dnsDotted_eq le_rfl hdotted
    fun l hl => hvalid l (List.mem_of_mem_dropLast hl)
  obtain ⟨hpos, hle⟩ := hvalid rest (by rw [hsplit]; exact List.mem_concat_self)
  have hu16 : u16 rest.length = rest.length := u16_of_lt (by omega)
  unfold dnsLastLabel at hlast
  dsimp only at hlast
  rw [hu16, if_neg (by omega), if_neg (by omega), List.take_length] at hlast
  split at hlast
  · cases hlast
  · cases hlast
    conv_rhs => rw [hsplit]
    unfold encodeName
    rw [List.flatMap_append, List.flatMap_singleton]
    rfl

theorem payload_of_trailing (h : dnsMakePayload (name ++ [dnsDot]) rr rrClass = some payload)
    (hvalid : ∀ label ∈ name.splitOn dnsDot, ValidLabel label) :
    payload = (name.splitOn dnsDot).flatMap encodeLabel ++ dnsTypeClass rr rrClass := by
  have hsplit : (name ++ [dnsDot]).splitOn dnsDot = name.splitOn dnsDot ++ [[]] :=
    List.splitOn_append_cons_self name []
  have hdrop : ((name ++ [dnsDot]).splitOn dnsDot).dropLast = name.splitOn dnsDot := by
    rw [hsplit, List.dropLast_concat]
  obtain ⟨-, written, rest, q, hdotted, hlast, rfl⟩ := dnsMakePayload_eq_some h
  obtain ⟨rfl, heq⟩ := dnsDotted_eq le_rfl hdotted (by rwa [hdrop])
  rw [hdrop, hsplit] at heq
  obtain rfl : [] = rest := List.singleton_inj.mp (List.append_cancel_left heq)
  cases hlast
  rw [hdrop]
  rfl

/-! ## Host names -/

theorem hostLabels_trailing (hname : name ≠ []) :
    hostLabels (name ++ [dnsDot]) = name.splitOn dnsDot := by
  unfold hostLabels
  dsimp only
  rw [if_pos List.getLast?_concat, List.dropLast_concat, if_neg hname]

theorem hostLabels_of_getLast? (hname : name ≠ []) (hlast : name.getLast? ≠ some dnsDot) :
    hostLabels name = name.splitOn dnsDot := by
  unfold hostLabels
  dsimp only
  rw [if_neg hlast, if_neg hname]

theorem getLast?_of_validLabels (hvalid : ∀ label ∈ name.splitOn dnsDot, ValidLabel label) :
    name.getLast? ≠ some dnsDot := by
  intro hlast
  obtain ⟨s, rfl⟩ := List.getLast?_eq_some_iff.mp hlast
  have hsplit : (s ++ [dnsDot]).splitOn dnsDot = s.splitOn dnsDot ++ [[]] :=
    List.splitOn_append_cons_self s []
  have hempty := hvalid [] (by rw [hsplit]; exact List.mem_concat_self)
  exact absurd hempty.1 (by decide)

theorem length_payload (name : List Byte) (rr : Byte) (rrClass : BitVec 16) :
    (encodeName (name.splitOn dnsDot) ++ dnsTypeClass rr rrClass).length = name.length + 6 := by
  unfold encodeName
  rw [List.length_append, List.length_append, length_encode_splitOn]
  rfl

theorem isQuestion_of_encodable (h : dnsMakePayload name rr rrClass = some payload)
    (hname : Encodable name) : IsQuestion name rr rrClass payload := by
  rcases hname with rfl | ⟨hvalid, hle⟩
  · cases h
    exact ⟨rfl, (by decide : 5 ≤ 259)⟩
  · have hne := (dnsMakePayload_eq_some h).1
    have hlabels := hostLabels_of_getLast? hne (getLast?_of_validLabels hvalid)
    obtain rfl := payload_of_validLabels h hvalid
    have hlen := length_payload name rr rrClass
    have hcount := length_le_flatMap_encodeLabel (name.splitOn dnsDot)
    rw [length_encode_splitOn] at hcount
    refine ⟨?_, by omega⟩
    rw [hlabels]
    exact decodeName_encodeName hvalid (by omega) _

theorem encodable_of_isQuestion (h : dnsMakePayload name rr rrClass = some payload)
    (hquestion : IsQuestion name rr rrClass payload) : Encodable name := by
  obtain ⟨hdecode, hlen⟩ := hquestion
  obtain ⟨hvalid, hpayload⟩ := eq_of_decodeName hdecode
  have hne := (dnsMakePayload_eq_some h).1
  by_cases hlast : name.getLast? = some dnsDot
  · obtain ⟨s, rfl⟩ := List.getLast?_eq_some_iff.mp hlast
    by_cases hs : s = []
    · left
      rw [hs]
      rfl
    · -- the payload lacks the root label
      rw [hostLabels_trailing hs] at hvalid hpayload
      have hwritten := payload_of_trailing h hvalid
      rw [hpayload] at hwritten
      have hlength := congrArg List.length (List.append_cancel_right hwritten)
      unfold encodeName at hlength
      rw [List.length_append] at hlength
      exact absurd hlength (by rw [List.length_singleton]; omega)
  · rw [hostLabels_of_getLast? hne hlast] at hvalid hpayload
    rw [hpayload, length_payload] at hlen
    exact Or.inr ⟨hvalid, by omega⟩

/-- A name that is accepted is encoded as a question exactly when it is encodable. -/
theorem dnsMakePayload_isQuestion_iff (h : dnsMakePayload name rr rrClass = some payload) :
    IsQuestion name rr rrClass payload ↔ Encodable name :=
  ⟨encodable_of_isQuestion h, isQuestion_of_encodable h⟩

/-- `a.b`, for an address. -/
theorem dnsMakePayload_isQuestion_iff_dotted :
    IsQuestion [0x61, dnsDot, 0x62] 1 1 [1, 0x61, 1, 0x62, 0, 0, 1, 0, 1] ↔
      Encodable [0x61, dnsDot, 0x62] :=
  dnsMakePayload_isQuestion_iff rfl

theorem not_encodable_of_mem_nil (hname : name ≠ [dnsDot]) (hmem : [] ∈ name.splitOn dnsDot) :
    ¬ Encodable name := by
  rintro (heq | ⟨hvalid, -⟩)
  · exact hname heq
  · exact absurd (hvalid [] hmem).1 (by decide)

/-- `a.` is accepted without a root label, and `a..b` with one behind `a`. -/
theorem accepted_not_isQuestion :
    (dnsMakePayload [0x61, dnsDot] 1 1 = some [1, 0x61, 0, 1, 0, 1] ∧
      ¬ IsQuestion [0x61, dnsDot] 1 1 [1, 0x61, 0, 1, 0, 1]) ∧
    (dnsMakePayload [0x61, dnsDot, dnsDot, 0x62] 1 1 = some [1, 0x61, 0, 1, 0x62, 0, 0, 1, 0, 1] ∧
      ¬ IsQuestion [0x61, dnsDot, dnsDot, 0x62] 1 1 [1, 0x61, 0, 1, 0x62, 0, 0, 1, 0, 1]) := by
  refine ⟨⟨rfl, fun h => ?_⟩, rfl, fun h => ?_⟩
  · have hsplit : [0x61, dnsDot].splitOn dnsDot = [[0x61], []] := rfl
    refine not_encodable_of_mem_nil (by decide) ?_ (encodable_of_isQuestion rfl h)
    rw [hsplit]
    decide
  · have hsplit : [0x61, dnsDot, dnsDot, 0x62].splitOn dnsDot = [[0x61], [], [0x62]] := rfl
    refine not_encodable_of_mem_nil (by decide) ?_ (encodable_of_isQuestion rfl h)
    rw [hsplit]
    decide

end RetroRocket
