import RetroRocket.TcpFrames

/-!
# The data offset of a TCP segment

`tcp_parse_options` walks the options up to the end of the header that the segment claims, and the
handlers of some states take the length of the payload from it. Nothing compares the data offset
with the length of the segment or with the 20 bytes of a header.
-/

namespace RetroRocket

/-- `TCP_OPT_END`, and the other kinds of options. -/
def tcpOptEnd : ℕ := 0
def tcpOptNop : ℕ := 1
def tcpOptMss : ℕ := 2
def tcpOptWindowScale : ℕ := 3

/-- The `switch` of `tcp_parse_options`: an option with its values, and the count of those known. A
value behind the end of the segment cannot be read. -/
def readOption (kind size : ℕ) (values : List Byte) (found : TcpOptions × ℕ) :
    Option (TcpOptions × ℕ) :=
  if kind = tcpOptMss ∧ size = 4 then
    match values with
    | hi :: lo :: _ => some ({ found.1 with mss := 2 ^ 8 * hi.toNat + lo.toNat }, found.2 + 1)
    | _ => none
  else if kind = tcpOptWindowScale ∧ size = 3 then
    match values with
    | scale :: _ =>
      some ({ found.1 with windowScale := scale.toNat, windowScalePresent := true }, found.2 + 1)
    | _ => none
  else some found

/-- The loop of `tcp_parse_options`. The segment goes on with `bytes`, and the options end behind
`left` more bytes. -/
def parseOptionsLoop : ℕ → ℕ → List Byte → TcpOptions × ℕ → Option (TcpOptions × ℕ)
  | 0, _, _, found => some found
  | fuel + 1, left, bytes, found =>
    if left = 0 then some found
    else
      match bytes with
      | [] => none
      | kind :: bytes =>
        if kind.toNat = tcpOptEnd then some found
        else if kind.toNat = tcpOptNop then parseOptionsLoop fuel (left - 1) bytes found
        else if left = 1 then some found
        else
          match bytes with
          | [] => none
          | size :: values =>
            if size.toNat < 2 ∨ left < size.toNat then some found
            else do
              let found ← readOption kind.toNat size.toNat values found
              parseOptionsLoop fuel (left - size.toNat) (values.drop (size.toNat - 2)) found

def tcpParseOptions (segment : TcpSegment) : Option (TcpOptions × ℕ) :=
  let left := segment.headerSize - 20
  parseOptionsLoop left left segment.body (⟨0, 0, false⟩, 0)

/-- A segment of which 20 bytes or more were received: the data offset has 4 bits, and the length
comes from an IP packet. -/
structure ReceivedSegment extends TcpSegment where
  off_lt : off < 2 ^ 4
  length_lt : toTcpSegment.length < 2 ^ 16

/-! ## Options -/

def ReadsInside (kind size : ℕ) (values : List Byte) : Prop :=
  (kind = tcpOptMss → size = 4 → 2 ≤ values.length) ∧
    (kind = tcpOptWindowScale → size = 3 → 1 ≤ values.length)

/-- The options that start here stop before anything behind the segment is read: at the end of the
header, or at an option that ends the list or is out of bounds. -/
inductive StopsInside : ℕ → List Byte → Prop
  | headerEnd (bytes : List Byte) : StopsInside 0 bytes
  | listEnd {left : ℕ} {kind : Byte} (bytes : List Byte) (hkind : kind.toNat = tcpOptEnd) :
      StopsInside left (kind :: bytes)
  | nop {left : ℕ} {kind : Byte} {bytes : List Byte} (hkind : kind.toNat = tcpOptNop)
      (hnext : StopsInside left bytes) : StopsInside (left + 1) (kind :: bytes)
  | noSize {kind : Byte} (bytes : List Byte) : StopsInside 1 (kind :: bytes)
  | badSize {left : ℕ} {kind size : Byte} (bytes : List Byte) (hkind : tcpOptNop < kind.toNat)
      (hsize : size.toNat < 2 ∨ left < size.toNat) : StopsInside left (kind :: size :: bytes)
  | option {left : ℕ} {kind size : Byte} {values : List Byte} (hkind : tcpOptNop < kind.toNat)
      (hmin : 2 ≤ size.toNat) (hmax : size.toNat ≤ left)
      (hreads : ReadsInside kind.toNat size.toNat values)
      (hnext : StopsInside (left - size.toNat) (values.drop (size.toNat - 2))) :
      StopsInside left (kind :: size :: values)

theorem readOption_isSome_iff (kind size : ℕ) (values : List Byte) (found : TcpOptions × ℕ) :
    (readOption kind size values found).isSome ↔ ReadsInside kind size values := by
  unfold readOption ReadsInside
  by_cases hmss : kind = tcpOptMss ∧ size = 4
  · obtain ⟨rfl, rfl⟩ := hmss
    rcases values with _ | ⟨hi, _ | ⟨lo, values⟩⟩ <;> simp [tcpOptMss, tcpOptWindowScale]
  · rw [if_neg hmss]
    by_cases hscale : kind = tcpOptWindowScale ∧ size = 3
    · obtain ⟨rfl, rfl⟩ := hscale
      rcases values with _ | ⟨scale, values⟩ <;> simp [tcpOptMss, tcpOptWindowScale]
    · rw [if_neg hscale]
      simp only [Option.isSome_some, true_iff]
      exact ⟨fun hkind hsize => absurd ⟨hkind, hsize⟩ hmss,
        fun hkind hsize => absurd ⟨hkind, hsize⟩ hscale⟩

theorem stopsInside_nop_iff {left : ℕ} {kind : Byte} {bytes : List Byte} (hleft : left ≠ 0)
    (hkind : kind.toNat = tcpOptNop) :
    StopsInside (left - 1) bytes ↔ StopsInside left (kind :: bytes) := by
  obtain ⟨left, rfl⟩ := Nat.exists_eq_succ_of_ne_zero hleft
  constructor
  · exact StopsInside.nop hkind
  · intro hstops
    cases hstops with
    | listEnd _ hend => cases hkind.symm.trans hend
    | nop _ hnext => exact hnext
    | noSize _ => exact .headerEnd bytes
    | badSize _ hlt _ => exact absurd hkind (Nat.ne_of_gt hlt)
    | option hlt _ _ _ _ => exact absurd hkind (Nat.ne_of_gt hlt)

theorem stopsInside_option_iff {left : ℕ} {kind size : Byte} {values : List Byte} (hleft : left ≠ 1)
    (hkind : tcpOptNop < kind.toNat) (hsize : ¬ (size.toNat < 2 ∨ left < size.toNat)) :
    StopsInside left (kind :: size :: values) ↔ ReadsInside kind.toNat size.toNat values ∧
      StopsInside (left - size.toNat) (values.drop (size.toNat - 2)) := by
  constructor
  · intro hstops
    cases hstops with
    | headerEnd _ => omega
    | listEnd _ hend =>
      rw [hend] at hkind
      exact absurd hkind (by decide)
    | nop hnop _ => exact absurd hnop (Nat.ne_of_gt hkind)
    | noSize _ => exact absurd rfl hleft
    | badSize _ _ hbad => exact absurd hbad hsize
    | option _ _ _ hreads hnext => exact ⟨hreads, hnext⟩
  · rintro ⟨hreads, hnext⟩
    exact .option hkind (by omega) (by omega) hreads hnext

theorem parseOptionsLoop_isSome_iff {fuel left : ℕ} (hfuel : left ≤ fuel) (bytes : List Byte)
    (found : TcpOptions × ℕ) :
    (parseOptionsLoop fuel left bytes found).isSome ↔ StopsInside left bytes := by
  induction fuel generalizing left bytes found with
  | zero =>
    obtain rfl : left = 0 := by omega
    simp [parseOptionsLoop, StopsInside.headerEnd]
  | succ fuel ih =>
    by_cases hleft : left = 0
    · subst hleft
      simp [parseOptionsLoop, StopsInside.headerEnd]
    rcases bytes with _ | ⟨kind, bytes⟩
    · simp only [parseOptionsLoop, hleft, if_false, Option.isSome_none, Bool.false_eq_true,
        false_iff]
      intro hstops
      cases hstops
      exact hleft rfl
    by_cases hend : kind.toNat = tcpOptEnd
    · simp [parseOptionsLoop, hleft, hend, StopsInside.listEnd bytes hend]
    by_cases hnop : kind.toNat = tcpOptNop
    · have hloop : parseOptionsLoop (fuel + 1) left (kind :: bytes) found =
          parseOptionsLoop fuel (left - 1) bytes found := by
        have hne : tcpOptNop ≠ tcpOptEnd := by decide
        simp [parseOptionsLoop, hleft, hnop, hne]
      rw [hloop, ih (by omega)]
      exact stopsInside_nop_iff hleft hnop
    by_cases hone : left = 1
    · subst hone
      simp [parseOptionsLoop, hend, hnop, StopsInside.noSize bytes]
    have hkind : tcpOptNop < kind.toNat := by
      unfold tcpOptEnd at hend
      unfold tcpOptNop at hnop ⊢
      omega
    rcases bytes with _ | ⟨size, values⟩
    · simp only [parseOptionsLoop, hleft, hend, hnop, hone, if_false, Option.isSome_none,
        Bool.false_eq_true, false_iff]
      intro hstops
      cases hstops
      case headerEnd => exact hleft rfl
      case listEnd h => exact hend h
      case nop h _ => exact hnop h
      case noSize => exact hone rfl
    by_cases hsize : size.toNat < 2 ∨ left < size.toNat
    · simp only [parseOptionsLoop, hleft, hend, hnop, hone, if_false, if_pos hsize,
        Option.isSome_some,
        StopsInside.badSize values hkind hsize]
    · have hloop : parseOptionsLoop (fuel + 1) left (kind :: size :: values) found =
          (readOption kind.toNat size.toNat values found).bind
            (parseOptionsLoop fuel (left - size.toNat) (values.drop (size.toNat - 2))) := by
        simp only [parseOptionsLoop, hleft, hend, hnop, hone, if_false, if_neg hsize]
        rfl
      rw [hloop, stopsInside_option_iff hone hkind hsize, ← readOption_isSome_iff _ _ _ found]
      cases hread : readOption kind.toNat size.toNat values found with
      | none => simp
      | some next =>
        rw [Option.bind_some, ih (by omega)]
        simp

/-! ## Payload -/

theorem stopsInside_of_le {left : ℕ} {bytes : List Byte} (hle : left ≤ bytes.length) :
    StopsInside left bytes := by
  induction left using Nat.strong_induction_on generalizing bytes with
  | h left ih =>
    by_cases hleft : left = 0
    · subst hleft
      exact .headerEnd bytes
    rcases bytes with _ | ⟨kind, bytes⟩
    · exact absurd (Nat.le_zero.mp hle) hleft
    rw [List.length_cons] at hle
    by_cases hend : kind.toNat = tcpOptEnd
    · exact .listEnd bytes hend
    by_cases hnop : kind.toNat = tcpOptNop
    · exact (stopsInside_nop_iff hleft hnop).mp (ih (left - 1) (by omega) (by omega))
    by_cases hone : left = 1
    · subst hone
      exact .noSize bytes
    have hkind : tcpOptNop < kind.toNat := by
      unfold tcpOptEnd at hend
      unfold tcpOptNop at hnop ⊢
      omega
    rcases bytes with _ | ⟨size, values⟩
    · rw [List.length_nil] at hle
      omega
    rw [List.length_cons] at hle
    by_cases hsize : size.toNat < 2 ∨ left < size.toNat
    · exact .badSize values hkind hsize
    · refine (stopsInside_option_iff hone hkind hsize).mpr ⟨?_, ?_⟩
      · exact ⟨fun _ hfour => by omega, fun _ hthree => by omega⟩
      · refine ih (left - size.toNat) (by omega) ?_
        rw [List.length_drop]
        omega

/-! ## Payload -/

namespace TcpConn

variable {s u : TcpConn} {segment : TcpSegment} {options : TcpOptions}

/-- The connection with which the handler of its state calls `tcp_handle_data_in`, if it does. In
FIN_WAIT_1 the step over a FIN uses the same length once more. -/
def beforeDataIn (s : TcpConn) (segment : TcpSegment) : Option TcpConn :=
  match s.state with
  | .synReceived =>
    if segment.flags.fin = false ∧ segment.flags.rst = false ∧ segment.flags.ack ∧
        seqGt segment.ack s.iss ∧ seqLte segment.ack (s.sndNxt + 1) ∧
        segment.headerSize < segment.length then
      some (tcpSetState (tcpRetxAcknowledge s segment.ack) .established)
    else none
  | .established =>
    if segment.headerSize < segment.length then some (tcpProcessAck s segment) else none
  | .finWait1 =>
    let s := tcpProcessAck s segment
    some (if seqGte s.sndUna s.sndNxt then tcpSetState s .finWait2 else s)
  | .finWait2 => some (tcpProcessAck s segment)
  | _ => none

/-- The state machine gets through only if that call does. -/
theorem tcpStateMachine_eq_none (hbefore : s.beforeDataIn segment = some u)
    (hdata : tcpHandleDataIn u segment = none) : tcpStateMachine s segment options = none := by
  unfold beforeDataIn at hbefore
  unfold tcpStateMachine
  cases hstate : s.state <;> rw [hstate] at hbefore <;> dsimp only at hbefore ⊢
  case synReceived =>
    split at hbefore
    case isTrue hcond =>
      obtain ⟨hfin, hrst, hack, hgt, hle, hlen⟩ := hcond
      obtain rfl := Option.some.inj hbefore
      simp only [tcpStateSynReceived, hfin, hrst, hack, hgt, hle, hlen, hdata, if_true,
        Bool.false_eq_true, if_false, and_self]
    case isFalse => cases hbefore
  case established =>
    split at hbefore
    case isTrue hlen =>
      obtain rfl := Option.some.inj hbefore
      simp only [tcpStateEstablished, hlen, hdata, if_true]
      rfl
    case isFalse => cases hbefore
  case finWait1 =>
    obtain rfl := Option.some.inj hbefore
    simp only [tcpStateFinWait1, hdata]
    rfl
  case finWait2 =>
    obtain rfl := Option.some.inj hbefore
    exact hdata
  all_goals cases hbefore

/-- Where no handler makes that call, the state machine gets through. -/
theorem tcpStateMachine_isSome (halive : s.alive) (hbefore : s.beforeDataIn segment = none) :
    (tcpStateMachine s segment options).isSome := by
  unfold beforeDataIn at hbefore
  unfold tcpStateMachine
  cases hstate : s.state <;> rw [hstate] at hbefore <;> dsimp only at hbefore ⊢
  case synReceived =>
    split at hbefore
    case isTrue => cases hbefore
    case isFalse hcall =>
      unfold tcpStateSynReceived
      by_cases hfin : segment.flags.fin = true
      · rw [if_pos hfin]
        rfl
      rw [if_neg hfin]
      by_cases hrst : segment.flags.rst = true
      · rw [if_pos hrst]
        rfl
      rw [if_neg hrst]
      by_cases hack : segment.flags.ack = true
      · rw [if_pos hack]
        split
        case isTrue hacceptable =>
          have hlen : ¬ segment.headerSize < segment.length := fun hlen =>
            hcall ⟨eq_false_of_ne_true hfin, eq_false_of_ne_true hrst, hack, hacceptable.1,
              hacceptable.2, hlen⟩
          dsimp only
          rw [if_neg hlen]
          rfl
        case isFalse => rfl
      · rw [if_neg hack]
        rfl
  case established =>
    have hlen : ¬ segment.headerSize < segment.length := fun h => by
      rw [if_pos h] at hbefore
      cases hbefore
    have hprocess : (tcpProcessAck s segment).alive := by
      rw [tcpProcessAck_onlyAck s segment]
      exact halive
    unfold tcpStateEstablished
    dsimp only
    rw [if_neg hlen]
    change (if _ then ifAlive (tcpProcessAck s segment) _ else _ : Option TcpConn).isSome
    unfold ifAlive
    rw [if_pos hprocess]
    split <;> rfl
  case finWait1 => cases hbefore
  case finWait2 => cases hbefore
  all_goals rfl

/-- What is read of a segment, and the length of its payload, are inside it. `tcp_ord_list_insert`
copies the payload length and the header length in one piece. -/
structure InputInside (s : TcpConn) (segment : TcpSegment) : Prop where
  options : (tcpParseOptions segment).isSome
  payload : (s.beforeDataIn segment).isSome → segment.payloadLen ≤ segment.length - 20
  copy : u64 (segment.payloadLen + segment.headerSize) ≤ segment.length

theorem payloadLen_le_iff (segment : ReceivedSegment) :
    segment.payloadLen ≤ segment.length - 20 ↔
      5 ≤ segment.off ∧ segment.headerSize ≤ segment.length := by
  have hoff := segment.off_lt
  have hlength := segment.length_lt
  have hmin : 20 ≤ segment.length := Nat.le_add_right 20 _
  unfold TcpSegment.payloadLen TcpSegment.headerSize sub64 u64
  omega

theorem copy_le (segment : ReceivedSegment) :
    u64 (segment.payloadLen + segment.headerSize) ≤ segment.length := by
  have hoff := segment.off_lt
  have hlength := segment.length_lt
  unfold TcpSegment.payloadLen TcpSegment.headerSize sub64 u64
  omega

theorem inputInside_iff (s : TcpConn) (segment : ReceivedSegment) :
    s.InputInside segment.toTcpSegment ↔
      StopsInside (segment.headerSize - 20) segment.body ∧
        ((s.beforeDataIn segment.toTcpSegment).isSome →
          5 ≤ segment.off ∧ segment.headerSize ≤ segment.length) := by
  have hoptions : (tcpParseOptions segment.toTcpSegment).isSome ↔
      StopsInside (segment.headerSize - 20) segment.body :=
    parseOptionsLoop_isSome_iff le_rfl _ _
  constructor
  · rintro ⟨hparse, hpayload, -⟩
    exact ⟨hoptions.mp hparse, fun hdata => (payloadLen_le_iff segment).mp (hpayload hdata)⟩
  · rintro ⟨hstops, hoff⟩
    exact ⟨hoptions.mpr hstops, fun hdata => (payloadLen_le_iff segment).mpr (hoff hdata),
      copy_le segment⟩

/-- A data offset between the 20 bytes of a header and the end of the segment is right for every
state. -/
theorem inputInside_of_le (s : TcpConn) (segment : ReceivedSegment) (hmin : 5 ≤ segment.off)
    (hmax : segment.headerSize ≤ segment.length) : s.InputInside segment.toTcpSegment := by
  refine ⟨?_, fun _ => (payloadLen_le_iff segment).mpr ⟨hmin, hmax⟩, copy_le segment⟩
  have hbody : segment.headerSize - 20 ≤ segment.body.length := by
    unfold TcpSegment.length at hmax
    omega
  exact (parseOptionsLoop_isSome_iff le_rfl _ _).mpr (stopsInside_of_le hbody)

/-- A segment of 21 bytes that claims a header of 32. -/

def longHeader : ReceivedSegment where
  seq := 101
  ack := 1
  off := 8
  flags := ackFlags
  windowSize := 65535
  body := [0]
  off_lt := by decide
  length_lt := by decide

theorem longHeader_not_inside :
    ¬ ∀ (s : TcpConn) (segment : ReceivedSegment), s.InputInside segment.toTcpSegment := by
  intro hall
  have hinside := hall { establishedConn 0 100 with state := .finWait2 } longHeader
  have hpayload := (payloadLen_le_iff longHeader).mp (hinside.payload rfl)
  exact absurd hpayload.2 (by decide)

end TcpConn

end RetroRocket
