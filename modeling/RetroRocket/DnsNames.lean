import RetroRocket.DnsReply

/-!
# Names in DNS replies

The sections of a reply are relations on its bytes, and the loops of `dns_result_ready` follow them.
As long as they do, they stay inside the packet. What they leave to chance is the name an answer
holds: its labels and pointers are read without a test against the length of the packet, and its
text is compared with the size of the header instead of that of the result.
-/

namespace RetroRocket

namespace DnsLog

variable {length n o : ℕ} {log log' log'' : DnsLog}

structure ReadsInside (length : ℕ) (log log' : DnsLog) : Prop where
  writes : log'.writes = log.writes
  reads : ∀ k ∈ log'.reads, k ∈ log.reads ∨ k < length

theorem ReadsInside.refl (length : ℕ) (log : DnsLog) : ReadsInside length log log :=
  ⟨rfl, fun _ hk => .inl hk⟩

theorem ReadsInside.trans (h : ReadsInside length log log') (h' : ReadsInside length log' log'') :
    ReadsInside length log log'' := by
  refine ⟨h'.writes.trans h.writes, fun k hk => ?_⟩
  rcases h'.reads k hk with hk | hk
  · exact h.reads k hk
  · exact .inr hk

theorem readsInside_read (log : DnsLog) {i : ℕ} (h : i + n ≤ length) :
    ReadsInside length log (log.read i n) := by
  refine ⟨rfl, fun k hk => ?_⟩
  rcases mem_read.mp hk with hk | hk
  · exact .inl hk
  · exact .inr (by omega)

theorem ReadsInside.inside (h : ReadsInside length log log') (hlog : log.Inside length) :
    log'.Inside length := by
  refine ⟨fun k hk => ?_, ?_⟩
  · rcases h.reads k hk with hk | hk
    · exact hlog.reads k hk
    · exact hk
  · rw [h.writes]
    exact hlog.writes

theorem ReadsInside.fills (h : ReadsInside length log log') (hlog : log.Fills n) :
    log'.Fills n := by
  constructor
  · rw [h.writes]
    exact hlog.written
  · rw [h.writes]
    exact hlog.only

theorem Inside.read (h : log.Inside length) {i : ℕ} (hi : i + n ≤ length) :
    (log.read i n).Inside length := (readsInside_read log hi).inside h

theorem mem_zipIdx_bounds {bytes : List Byte} {w : Byte × ℕ} (hw : w ∈ bytes.zipIdx o) :
    o ≤ w.2 ∧ w.2 < o + bytes.length := by
  obtain ⟨hle, hlt, -⟩ := List.mem_zipIdx hw
  exact ⟨hle, by omega⟩

theorem Inside.write (h : log.Inside length) {bytes : List Byte} (ho : o + bytes.length ≤ 256) :
    (log.write o bytes).Inside length := by
  refine ⟨h.reads, fun w hw => ?_⟩
  rcases mem_write.mp hw with hw | hw
  · exact h.writes w hw
  · have hbounds := mem_zipIdx_bounds hw
    omega

theorem Fills.write (h : log.Fills o) {bytes : List Byte} (hbytes : 0 < bytes.length) :
    (log.write o bytes).Fills (o + bytes.length) := by
  refine ⟨fun k hk => ?_, fun w hw => ?_⟩
  · by_cases hold : k < o
    · obtain ⟨w, hw, hwk⟩ := h.written k hold
      exact ⟨w, mem_write.mpr (.inl hw), hwk⟩
    · have hlt : k - o < bytes.length := by omega
      refine ⟨(bytes[k - o], k), mem_write.mpr (.inr ?_), rfl⟩
      rw [List.mk_mem_zipIdx_iff_le_and_getElem?_sub]
      exact ⟨by omega, List.getElem?_eq_getElem hlt⟩
  · left
    rcases mem_write.mp hw with hw | hw
    · rcases h.only w hw with hlt | rfl
      · omega
      · dsimp only
        omega
    · exact (mem_zipIdx_bounds hw).2

structure Grows (log log' : DnsLog) : Prop where
  reads : ∀ k ∈ log.reads, k ∈ log'.reads
  writes : ∀ w ∈ log.writes, w ∈ log'.writes

theorem Grows.refl (log : DnsLog) : Grows log log := ⟨fun _ h => h, fun _ h => h⟩

theorem Grows.trans (h : Grows log log') (h' : Grows log' log'') : Grows log log'' :=
  ⟨fun k hk => h'.reads k (h.reads k hk), fun w hw => h'.writes w (h.writes w hw)⟩

theorem grows_read (log : DnsLog) (i n : ℕ) : Grows log (log.read i n) :=
  ⟨fun _ hk => mem_read.mpr (.inl hk), fun _ hw => hw⟩

theorem grows_write (log : DnsLog) (o : ℕ) (bytes : List Byte) : Grows log (log.write o bytes) :=
  ⟨fun _ hk => hk, fun _ hw => mem_write.mpr (.inl hw)⟩

theorem Grows.inside (h : Grows log log') (hin : log'.Inside length) : log.Inside length :=
  ⟨fun k hk => hin.reads k (h.reads k hk), fun w hw => hin.writes w (h.writes w hw)⟩

theorem Fills.terminate (h : log.Fills o) : (log.write o [0]).Fills o := by
  refine ⟨fun k hk => ?_, fun w hw => ?_⟩
  · obtain ⟨w, hw, hwk⟩ := h.written k hk
    exact ⟨w, mem_write.mpr (.inl hw), hwk⟩
  · rcases mem_write.mp hw with hw | hw
    · exact h.only w hw
    · rw [List.zipIdx_singleton, List.mem_singleton] at hw
      exact .inr hw

end DnsLog

namespace DnsPacket

open DnsLog

variable {p : DnsPacket} {request : DnsRequest} {log log' : DnsLog}
    {i j n left fuel o lowestPos : ℕ}

/-! ## The sections of a reply -/

/-- The name in front of a record goes from `i` to `j`. -/
inductive Owner (p : DnsPacket) : ℕ → ℕ → Prop
  | past {i : ℕ} : p.payloadLength ≤ i → Owner p i i
  | pointer {i : ℕ} : i < p.payloadLength → 63 < p.payload i → Owner p i (i + 2)
  | root {i : ℕ} : i < p.payloadLength → p.payload i = 0 → Owner p i (i + 1)
  | label {i j : ℕ} : i < p.payloadLength → p.payload i ≠ 0 → p.payload i ≤ 63 →
      Owner p (i + p.payload i + 1) j → Owner p i j

/-- So many questions go from `i` to `j`. -/
inductive Questions (p : DnsPacket) : ℕ → ℕ → ℕ → Prop
  | done {i : ℕ} : Questions p 0 i i
  | past {n i : ℕ} : p.payloadLength ≤ i → Questions p n i i
  | pointer {n i j : ℕ} : i < p.payloadLength → 63 < p.payload i → Questions p n (i + 6) j →
      Questions p (n + 1) i j
  | root {n i j : ℕ} : i < p.payloadLength → p.payload i = 0 → Questions p n (i + 5) j →
      Questions p (n + 1) i j
  | label {n i j : ℕ} : i < p.payloadLength → p.payload i ≠ 0 → p.payload i ≤ 63 →
      Questions p (n + 1) (i + p.payload i + 1) j → Questions p (n + 1) i j

/-- The first records of a section from `i` on, with the places of their data: all of them, or those
in front of one that leaves the packet. -/
inductive Records (p : DnsPacket) : ℕ → ℕ → List (ResourceRecord × ℕ) → Bool → Prop
  | done {i : ℕ} : Records p 0 i [] true
  | cut {left i j : ℕ} : Owner p i j →
      p.payloadLength < j + dnsRrFixedSize + (p.fillResourceRecord j).rdlength →
      Records p (left + 1) i [] false
  | record {left i j : ℕ} {rs : List (ResourceRecord × ℕ)} {complete : Bool} : Owner p i j →
      j + dnsRrFixedSize + (p.fillResourceRecord j).rdlength ≤ p.payloadLength →
      Records p left (j + dnsRrFixedSize + (p.fillResourceRecord j).rdlength) rs complete →
      Records p (left + 1) i ((p.fillResourceRecord j, j + dnsRrFixedSize) :: rs) complete

theorem exists_owner (p : DnsPacket) (i : ℕ) : ∃ j, Owner p i j := by
  induction hn : p.payloadLength - i using Nat.strong_induction_on generalizing i with
  | _ n ih =>
    by_cases hi : i < p.payloadLength
    · by_cases hpointer : 63 < p.payload i
      · exact ⟨_, .pointer hi hpointer⟩
      · by_cases hroot : p.payload i = 0
        · exact ⟨_, .root hi hroot⟩
        · obtain ⟨j, hj⟩ := ih _ (by omega) (i + p.payload i + 1) rfl
          exact ⟨j, .label hi hroot (by omega) hj⟩
    · exact ⟨i, .past (by omega)⟩

theorem exists_questions (p : DnsPacket) (n i : ℕ) : ∃ j, Questions p n i j := by
  induction hk : p.payloadLength - i using Nat.strong_induction_on generalizing n i with
  | _ k ih =>
    cases n with
    | zero => exact ⟨i, .done⟩
    | succ n =>
      by_cases hi : i < p.payloadLength
      · by_cases hpointer : 63 < p.payload i
        · obtain ⟨j, hj⟩ := ih _ (by omega) n (i + 6) rfl
          exact ⟨j, .pointer hi hpointer hj⟩
        · by_cases hroot : p.payload i = 0
          · obtain ⟨j, hj⟩ := ih _ (by omega) n (i + 5) rfl
            exact ⟨j, .root hi hroot hj⟩
          · obtain ⟨j, hj⟩ := ih _ (by omega) (n + 1) (i + p.payload i + 1) rfl
            exact ⟨j, .label hi hroot (by omega) hj⟩
      · exact ⟨i, .past (by omega)⟩

theorem exists_records (p : DnsPacket) (left i : ℕ) :
    ∃ rs complete, Records p left i rs complete := by
  induction left generalizing i with
  | zero => exact ⟨[], true, .done⟩
  | succ left ih =>
    obtain ⟨j, hj⟩ := p.exists_owner i
    by_cases hfits : j + dnsRrFixedSize + (p.fillResourceRecord j).rdlength ≤ p.payloadLength
    · obtain ⟨rs, complete, hrs⟩ := ih (j + dnsRrFixedSize + (p.fillResourceRecord j).rdlength)
      exact ⟨_, complete, .record hj hfits hrs⟩
    · exact ⟨[], false, .cut hj (by omega)⟩

/-! ## The loops follow them -/

theorem payload_inside (h : i + n ≤ p.payloadLength) (hn : 0 < n) :
    dnsHeaderSize + i + n ≤ p.length := by
  unfold payloadLength at h
  omega

theorem Owner.skipName (h : Owner p i j) (hfuel : p.payloadLength - i < fuel) (log : DnsLog) :
    ∃ log', p.skipName fuel i log = some (j, log') ∧ ReadsInside p.length log log' := by
  induction h generalizing fuel log with
  | past hi =>
    cases fuel with
    | zero => omega
    | succ fuel => exact ⟨log, by rw [DnsPacket.skipName, if_neg (by omega)], .refl _ _⟩
  | @pointer i hi hpointer =>
    cases fuel with
    | zero => omega
    | succ fuel =>
      refine ⟨_, by rw [DnsPacket.skipName, if_pos hi, if_pos hpointer], ?_⟩
      exact readsInside_read _ (payload_inside hi Nat.one_pos)
  | @root i hi hroot =>
    cases fuel with
    | zero => omega
    | succ fuel =>
      refine ⟨_, by rw [DnsPacket.skipName, if_pos hi, if_neg (by omega), if_pos hroot], ?_⟩
      exact readsInside_read _ (payload_inside hi Nat.one_pos)
  | @label i j hi hroot hlabel _ ih =>
    cases fuel with
    | zero => omega
    | succ fuel =>
      obtain ⟨log', hrun, hreads⟩ :=
        ih (show p.payloadLength - (i + p.payload i + 1) < fuel by omega)
        (log.read (dnsHeaderSize + i) 1)
      refine ⟨log', ?_, (readsInside_read _ (payload_inside hi Nat.one_pos)).trans hreads⟩
      rw [DnsPacket.skipName, if_pos hi, if_neg (by omega), if_neg hroot]
      exact hrun

theorem Questions.skipQuestions (h : Questions p n i j) {q : ℕ} (hq : p.qdcount - q = n)
    (hfuel : p.payloadLength - i < fuel) (log : DnsLog) :
    ∃ log', p.skipQuestions fuel q i log = some (j, log') ∧ ReadsInside p.length log log' := by
  induction h generalizing fuel q log with
  | done | past =>
    cases fuel with
    | zero => omega
    | succ fuel => exact ⟨log, by rw [DnsPacket.skipQuestions, if_neg (by omega)], .refl _ _⟩
  | @pointer n i j hi hpointer _ ih =>
    cases fuel with
    | zero => omega
    | succ fuel =>
      obtain ⟨log', hrun, hreads⟩ := ih (show p.qdcount - (q + 1) = n by omega)
        (show p.payloadLength - (i + 6) < fuel by omega) (log.read (dnsHeaderSize + i) 1)
      refine ⟨log', ?_, (readsInside_read _ (payload_inside hi Nat.one_pos)).trans hreads⟩
      rw [DnsPacket.skipQuestions, if_pos ⟨by omega, hi⟩, if_pos hpointer]
      exact hrun
  | @root n i j hi hroot _ ih =>
    cases fuel with
    | zero => omega
    | succ fuel =>
      obtain ⟨log', hrun, hreads⟩ := ih (show p.qdcount - (q + 1) = n by omega)
        (show p.payloadLength - (i + 5) < fuel by omega) (log.read (dnsHeaderSize + i) 1)
      refine ⟨log', ?_, (readsInside_read _ (payload_inside hi Nat.one_pos)).trans hreads⟩
      rw [DnsPacket.skipQuestions, if_pos ⟨by omega, hi⟩, if_neg (by omega), if_pos hroot]
      exact hrun
  | @label n i j hi hroot hlabel _ ih =>
    cases fuel with
    | zero => omega
    | succ fuel =>
      obtain ⟨log', hrun, hreads⟩ := ih hq
        (show p.payloadLength - (i + p.payload i + 1) <
          fuel by omega) (log.read (dnsHeaderSize + i) 1)
      refine ⟨log', ?_, (readsInside_read _ (payload_inside hi Nat.one_pos)).trans hreads⟩
      rw [DnsPacket.skipQuestions, if_pos ⟨by omega, hi⟩, if_neg (by omega), if_neg hroot]
      exact hrun

end DnsPacket

/-! ## The answer -/

def ResourceRecord.HoldsName (rr : ResourceRecord) : Prop :=
  rr.type = dnsQueryCname ∨ rr.type = dnsQueryPtr

def DnsRequest.Asks (request : DnsRequest) (rr : ResourceRecord) : Prop :=
  rr.type = request.type ∧ rr.rrClass = request.rrClass

def DnsRequest.Aliases (request : DnsRequest) (rr : ResourceRecord) : Prop :=
  rr.type = dnsQueryCname ∧ request.type = dnsQueryA ∧ rr.rrClass = request.rrClass

instance (request : DnsRequest) (rr : ResourceRecord) : Decidable (request.Asks rr) :=
  inferInstanceAs (Decidable (_ ∧ _))

instance (request : DnsRequest) (rr : ResourceRecord) : Decidable (request.Aliases rr) :=
  inferInstanceAs (Decidable (_ ∧ _))

def DnsRequest.select (request : DnsRequest) (cname : Option (ResourceRecord × ℕ))
    (rs : List (ResourceRecord × ℕ)) (complete : Bool) : Option (ResourceRecord × ℕ) :=
  rs.find? (fun r => request.Asks r.1) <|>
    if complete then cname <|> rs.find? (fun r => request.Aliases r.1) else none

namespace DnsRequest

variable {request : DnsRequest} {r : ResourceRecord × ℕ} {rs : List (ResourceRecord × ℕ)}
  {cname : Option (ResourceRecord × ℕ)} {complete : Bool}

theorem Aliases.not_asks {rr : ResourceRecord} (h : request.Aliases rr) : ¬ request.Asks rr := by
  intro hasks
  have heq := h.1.symm.trans (hasks.1.trans h.2.1)
  cases heq

theorem select_of_asks (h : request.Asks r.1) :
    request.select cname (r :: rs) complete = some r := by
  simp [select, h]

theorem select_of_aliases (h : request.Aliases r.1) :
    request.select cname (r :: rs) complete = request.select (cname <|> some r) rs complete := by
  cases cname <;> simp [select, h, h.not_asks]

theorem mem_of_select (h : request.select none rs complete = some r) : r ∈ rs := by
  unfold select at h
  cases hasks : rs.find? fun r => request.Asks r.1 with
  | some r' =>
    rw [hasks] at h
    obtain rfl := Option.some.inj h
    exact List.mem_of_find?_eq_some hasks
  | none =>
    rw [hasks] at h
    cases complete with
    | false => cases h
    | true => exact List.mem_of_find?_eq_some h

theorem select_of_neither (hasks : ¬ request.Asks r.1) (halias : ¬ request.Aliases r.1) :
    request.select cname (r :: rs) complete = request.select cname rs complete := by
  simp [select, hasks, halias]

end DnsRequest

namespace DnsPacket

open DnsLog

variable {p : DnsPacket} {request : DnsRequest} {log log' : DnsLog}
    {i j n left fuel o lowestPos : ℕ}

theorem Records.fits {rs : List (ResourceRecord × ℕ)} {complete : Bool}
    (h : Records p left i rs complete) : ∀ r ∈ rs, r.2 + r.1.rdlength ≤ p.payloadLength := by
  induction h with
  | done | cut => simp
  | record _ hfits _ ih =>
    intro r hr
    rcases List.mem_cons.mp hr with rfl | hr
    · exact hfits
    · exact ih r hr

theorem Records.findAnswer {rs : List (ResourceRecord × ℕ)} {complete : Bool}
    (h : Records p left i rs complete) (request : DnsRequest) (cname : Option (ResourceRecord × ℕ))
    (log : DnsLog) :
    ∃ result log', p.findAnswer request left i cname log = some (result, log') ∧
      ReadsInside p.length log log' ∧
      (∀ rr k, request.select cname rs complete = some (rr, k) →
        ∃ request', result = .ok (rr, k, request')) ∧
      ∀ rr k request', result = .ok (rr, k, request') →
        request.select cname rs complete = some (rr, k) ∨ p.payloadLength < k + rr.rdlength := by
  induction h generalizing cname log with
  | done =>
    cases cname with
    | none =>
      refine ⟨.error _, log, rfl, .refl _ _, fun rr k hselect => ?_, fun rr k request' hok => ?_⟩
      · simp [DnsRequest.select] at hselect
      · cases hok
    | some r =>
      refine ⟨_, log, rfl, .refl _ _, fun rr k hselect => ?_, fun rr k request' hok => .inl ?_⟩
      · obtain rfl : r = (rr, k) := by simpa [DnsRequest.select] using hselect
        exact ⟨_, rfl⟩
      · obtain ⟨rfl, rfl, rfl⟩ : r.1 = rr ∧ r.2 = k ∧ _ := by simpa using hok
        simp [DnsRequest.select]
  | @cut left i j howner hcut =>
    have hnone : request.select cname [] false = none := by simp [DnsRequest.select]
    obtain ⟨log', hname, hreads⟩ := howner.skipName (show _ < p.payloadLength + 1 by omega) log
    rw [DnsPacket.findAnswer, hname, hnone]
    by_cases hshort : p.payloadLength < j + dnsRrFixedSize
    · refine ⟨.error "Incorrectly sized DNS reply", log', if_pos hshort, hreads, ?_, ?_⟩
      · exact fun rr k hselect => by cases hselect
      · exact fun rr k request' hok => by cases hok
    · have hfixed := hreads.trans (readsInside_read _
        (payload_inside (show j + dnsRrFixedSize ≤ p.payloadLength by omega) (by decide)))
      by_cases halias : request.Aliases (p.fillResourceRecord j)
      · refine ⟨_, _, (if_neg hshort).trans ((if_pos halias).trans (if_pos hcut)), hfixed, ?_, ?_⟩
        · exact fun rr k hselect => by cases hselect
        · exact fun rr k request' hok => by cases hok
      · by_cases hasks : request.Asks (p.fillResourceRecord j)
        · refine ⟨_, _, (if_neg hshort).trans ((if_neg halias).trans (if_neg ?_)), hfixed, ?_, ?_⟩
          · exact not_or.mpr ⟨not_not.mpr hasks.1, not_not.mpr hasks.2⟩
          · exact fun rr k hselect => by cases hselect
          · intro rr k request' hok
            obtain ⟨rfl, rfl, -⟩ : p.fillResourceRecord j = rr ∧ j + dnsRrFixedSize = k ∧ _ := by
              simpa using hok
            exact .inr hcut
        · refine ⟨_, _,
            (if_neg hshort).trans ((if_neg halias).trans ((if_pos ?_).trans (if_pos hcut))),
            hfixed, ?_, ?_⟩
          · exact not_and_or.mp hasks
          · exact fun rr k hselect => by cases hselect
          · exact fun rr k request' hok => by cases hok
  | @record left i j rs complete howner hfits _ ih =>
    obtain ⟨log', hname, hreads⟩ := howner.skipName (show _ < p.payloadLength + 1 by omega) log
    have hfixed := hreads.trans (readsInside_read _
      (payload_inside (show j + dnsRrFixedSize ≤ p.payloadLength by omega) (by decide)))
    rw [DnsPacket.findAnswer, hname]
    by_cases halias : request.Aliases (p.fillResourceRecord j)
    · obtain ⟨result, last, hrun, hrest, hselect⟩ := ih
        (cname <|> some (p.fillResourceRecord j, j + dnsRrFixedSize))
        (log'.read (dnsHeaderSize + j) dnsRrFixedSize)
      rw [DnsRequest.select_of_aliases halias]
      refine ⟨result, last, ?_, hfixed.trans hrest, hselect⟩
      exact (if_neg (by omega)).trans ((if_pos halias).trans ((if_neg (by omega)).trans hrun))
    · by_cases hasks : request.Asks (p.fillResourceRecord j)
      · rw [DnsRequest.select_of_asks hasks]
        refine ⟨_, _, (if_neg (by omega)).trans ((if_neg halias).trans (if_neg ?_)), hfixed, ?_, ?_⟩
        · exact not_or.mpr ⟨not_not.mpr hasks.1, not_not.mpr hasks.2⟩
        · intro rr k hselect
          obtain ⟨rfl, rfl⟩ := Prod.mk.inj (Option.some.inj hselect)
          exact ⟨_, rfl⟩
        · intro rr k request' hok
          obtain ⟨rfl, rfl, -⟩ : p.fillResourceRecord j = rr ∧ j + dnsRrFixedSize = k ∧ _ := by
            simpa using hok
          exact .inl rfl
      · obtain ⟨result, last, hrun, hrest, hselect⟩ := ih cname
          (log'.read (dnsHeaderSize + j) dnsRrFixedSize)
        rw [DnsRequest.select_of_neither hasks halias]
        refine ⟨result, last, ?_, hfixed.trans hrest, hselect⟩
        refine (if_neg (by omega)).trans ((if_neg halias).trans ((if_pos ?_).trans
          ((if_neg (by omega)).trans hrun)))
        exact not_and_or.mp hasks

/-! ## Names -/

/-- The number at `i` is a pointer to `target`, in front of `lowestPos`. -/
def Points (p : DnsPacket) (i target lowestPos : ℕ) : Prop :=
  p.word (dnsHeaderSize + i) = 3 * 2 ^ 14 + dnsHeaderSize + target ∧ target < lowestPos

/-- A name from `i` on lies in the packet: the lengths of its labels, and whether it comes to an
end, which the end of the packet is, or breaks off at a bad pointer. -/
inductive Name (p : DnsPacket) : ℕ → ℕ → List ℕ → Bool → Prop
  | past {lowestPos i : ℕ} : p.payloadLength ≤ i → Name p lowestPos i [] true
  | root {lowestPos i : ℕ} : i < p.payloadLength → p.payload i = 0 → Name p lowestPos i [] true
  | label {lowestPos i : ℕ} {ls : List ℕ} {ends : Bool} : i + 1 + p.payload i ≤ p.payloadLength →
      p.payload i ≠ 0 → p.payload i ≤ 63 → Name p lowestPos (i + p.payload i + 1) ls ends →
      Name p lowestPos i (p.payload i :: ls) ends
  | pointer {lowestPos i target : ℕ} {ls : List ℕ} {ends : Bool} : i + 2 ≤ p.payloadLength →
      63 < p.payload i → p.Points i target lowestPos → Name p target target ls ends →
      Name p lowestPos i ls ends
  | bad {lowestPos i : ℕ} : i + 2 ≤ p.payloadLength → 63 < p.payload i →
      (∀ target, ¬ p.Points i target lowestPos) → Name p lowestPos i [] false

/-- The place of the next label behind `o` bytes of text. -/
def labelPlace (o : ℕ) : ℕ := if o ≠ 0 then o + 1 else o

/-- The length of the text when these labels are written behind `o` bytes of it. -/
def textAfter : ℕ → List ℕ → ℕ
  | o, [] => o
  | o, n :: ls => textAfter (labelPlace o + n) ls

def textLength (ls : List ℕ) : ℕ := ls.sum + (ls.length - 1)

/-- The name lies in the packet, and its text fits the result: with the terminator in a length of 8
bits, or without one where it breaks off. -/
def NameFits (p : DnsPacket) (i : ℕ) : Prop :=
  ∃ ls ends, Name p p.payloadLength i ls ends ∧ textLength ls ≤ if ends then 254 else 256

theorem le_labelPlace (o : ℕ) : o ≤ labelPlace o := by
  unfold labelPlace
  split <;> omega

theorem labelPlace_le (o : ℕ) : labelPlace o ≤ o + 1 := by
  unfold labelPlace
  split <;> omega

theorem le_textAfter (o : ℕ) (ls : List ℕ) : o ≤ textAfter o ls := by
  induction ls generalizing o with
  | nil => exact le_rfl
  | cons n ls ih =>
    have hplace := le_labelPlace o
    have hrest := ih (labelPlace o + n)
    simp only [textAfter]
    omega

theorem textAfter_pos {o : ℕ} (ho : o ≠ 0) (ls : List ℕ) :
    textAfter o ls = o + ls.sum + ls.length := by
  induction ls generalizing o with
  | nil => simp [textAfter]
  | cons n ls ih =>
    simp only [textAfter, labelPlace, if_pos ho, List.sum_cons, List.length_cons]
    rw [ih (by omega)]
    omega

theorem Name.textAfter_zero {ls : List ℕ} {ends : Bool} (h : Name p lowestPos i ls ends) :
    textAfter 0 ls = textLength ls := by
  induction h with
  | past | root | bad => rfl
  | label _ hlabel _ _ _ =>
    simp only [textAfter, labelPlace, textLength, ne_eq, not_true_eq_false, if_false, zero_add,
      List.sum_cons, List.length_cons, Nat.add_sub_cancel]
    exact textAfter_pos hlabel _
  | pointer _ _ _ _ ih => exact ih

theorem word_lt (p : DnsPacket) (k : ℕ) : p.word k < 2 ^ 16 := by
  have hhigh := (p.memory k).isLt
  have hlow := (p.memory (k + 1)).isLt
  unfold word
  omega

theorem points_iff {target : ℕ} : p.Points i target lowestPos ↔
    p.word (dnsHeaderSize + i) / 2 ^ 14 = 3 ∧ dnsHeaderSize ≤ p.word (dnsHeaderSize + i) % 2 ^ 14 ∧
      p.word (dnsHeaderSize + i) % 2 ^ 14 - dnsHeaderSize = target ∧ target < lowestPos := by
  have hword := p.word_lt (dnsHeaderSize + i)
  unfold Points
  generalize p.word (dnsHeaderSize + i) = w at hword ⊢
  simp only [dnsHeaderSize]
  omega

/-! ## Decompressing a name -/

def copyLabel (p : DnsPacket) (o i : ℕ) (log : DnsLog) : DnsLog :=
  let log := (log.read (dnsHeaderSize + i) 1).write o [0]
  p.copy (labelPlace o) (i + 1) (p.payload i) (if o ≠ 0 then log.write o [0x2e] else log)

theorem copyName_past (hi : p.payloadLength ≤ i) :
    p.copyName (fuel + 1) i o lowestPos log = some (none, o, log) := by
  rw [copyName, if_neg (by omega)]

theorem copyName_root (hi : i < p.payloadLength) (ho : o + 256 < dnsResultMax)
    (hroot : p.payload i = 0) : p.copyName (fuel + 1) i o lowestPos log =
      some (none, o, log.read (dnsHeaderSize + i) 1) := by
  rw [copyName, if_pos ⟨hi, ho⟩]
  dsimp only
  rw [if_neg (by omega), if_pos hroot]

theorem copyName_pointer (hi : i < p.payloadLength) (ho : o + 256 < dnsResultMax)
    (hpointer : 63 < p.payload i) {target : ℕ} (hpoints : p.Points i target lowestPos) :
    p.copyName (fuel + 1) i o lowestPos log = p.copyName fuel target o target
      ((log.read (dnsHeaderSize + i) 1).read (dnsHeaderSize + i) 2) := by
  obtain ⟨hbits, hheader, htarget, hlowest⟩ := points_iff.mp hpoints
  rw [copyName, if_pos ⟨hi, ho⟩]
  dsimp only
  rw [if_pos hpointer, if_neg (not_not.mpr hbits), if_neg (by omega), htarget, if_neg (by omega)]

theorem copyName_bad (fuel : ℕ) (log : DnsLog) (hi : i < p.payloadLength)
    (ho : o + 256 < dnsResultMax)
    (hpointer : 63 < p.payload i) (hbad : ∀ target, ¬ p.Points i target lowestPos) :
    ∃ error, p.copyName (fuel + 1) i o lowestPos log = some (some error, o,
      (log.read (dnsHeaderSize + i) 1).read (dnsHeaderSize + i) 2) := by
  rw [copyName, if_pos ⟨hi, ho⟩]
  dsimp only
  rw [if_pos hpointer]
  by_cases hbits : p.word (dnsHeaderSize + i) / 2 ^ 14 ≠ 3
  · exact ⟨_, if_pos hbits⟩
  · by_cases hheader : p.word (dnsHeaderSize + i) % 2 ^ 14 < dnsHeaderSize
    · exact ⟨_, (if_neg hbits).trans (if_pos hheader)⟩
    · have hlowest : lowestPos ≤ p.word (dnsHeaderSize + i) % 2 ^ 14 - dnsHeaderSize := by
        by_contra hlt
        exact hbad _ (points_iff.mpr ⟨not_not.mp hbits, by omega, rfl, by omega⟩)
      exact ⟨_, (if_neg hbits).trans ((if_neg hheader).trans (if_pos hlowest))⟩

theorem copyName_long (fuel lowestPos : ℕ) (log : DnsLog) (hi : i < p.payloadLength)
    (ho : o + 256 < dnsResultMax) (hlabel : p.payload i ≠ 0) (hshort : p.payload i ≤ 63)
    (hsize : sizeofDnsHeader < labelPlace o + p.payload i) :
    ∃ error log', p.copyName (fuel + 1) i o lowestPos log = some (some error, labelPlace o, log') ∧
      Grows log log' := by
  have hzero := (grows_read log (dnsHeaderSize + i) 1).trans (grows_write _ o [0])
  unfold labelPlace at hsize ⊢
  rw [copyName, if_pos ⟨hi, ho⟩]
  dsimp only
  rw [if_neg (by omega), if_neg hlabel]
  by_cases hfirst : o ≠ 0
  · simp only [if_pos hfirst] at hsize ⊢
    exact ⟨_, _, if_pos hsize, hzero.trans (grows_write _ _ _)⟩
  · simp only [if_neg hfirst] at hsize ⊢
    exact ⟨_, _, if_pos hsize, hzero⟩

theorem copyName_label (hi : i < p.payloadLength) (ho : o + 256 < dnsResultMax)
    (hlabel : p.payload i ≠ 0) (hshort : p.payload i ≤ 63)
    (hsize : labelPlace o + p.payload i ≤ sizeofDnsHeader) :
    p.copyName (fuel + 1) i o lowestPos log = p.copyName fuel (i + p.payload i + 1)
      (labelPlace o + p.payload i) lowestPos (p.copyLabel o i log) := by
  unfold labelPlace at hsize
  rw [copyName, if_pos ⟨hi, ho⟩]
  dsimp only
  rw [if_neg (by omega), if_neg hlabel]
  unfold copyLabel labelPlace
  by_cases hfirst : o ≠ 0
  · simp only [if_pos hfirst] at hsize ⊢
    rw [if_neg (by omega)]
  · simp only [if_neg hfirst] at hsize ⊢
    rw [if_neg (by omega)]

theorem inside_copy (h : log.Inside p.length) (hread : i + n ≤ p.payloadLength) (hn : 0 < n)
    (hwrite : o + n ≤ 256) : (p.copy o i n log).Inside p.length := by
  unfold copy
  apply (h.read (payload_inside hread hn)).write
  rw [List.length_map, List.length_range']
  exact hwrite

theorem fills_copy (h : log.Fills o) (i : ℕ) (hn : 0 < n) : (p.copy o i n log).Fills (o + n) := by
  have hlen : ((List.range' (dnsHeaderSize + i) n).map p.memory).length = n := by simp
  have hread : (log.read (dnsHeaderSize + i) n).Fills o := ⟨h.written, h.only⟩
  have hfill := hread.write (hlen.symm ▸ hn)
  rw [hlen] at hfill
  exact hfill

theorem grows_copy (p : DnsPacket) (o i n : ℕ) (log : DnsLog) : Grows log (p.copy o i n log) :=
  (grows_read _ _ _).trans (grows_write _ _ _)

theorem not_inside_copy (hpos : 0 < n) (hlen : 0 < p.payloadLength)
    (hout : p.payloadLength < i + n ∨ 256 < o + n) : ¬ (p.copy o i n log).Inside p.length := by
  intro h
  unfold payloadLength at hlen hout
  rcases hout with hout | hout
  · have hlast := h.reads (dnsHeaderSize + i + n - 1) (by simp [copy]; omega)
    omega
  · have hfill : ∃ w ∈ (p.copy o i n log).writes, w.2 = o + n - 1 := by
      have hlast : n - 1 < ((List.range' (dnsHeaderSize + i) n).map p.memory).length := by
        simp
        omega
      refine ⟨(((List.range' (dnsHeaderSize + i) n).map p.memory)[n - 1], o + n - 1), ?_, rfl⟩
      refine mem_write.mpr (.inr ?_)
      rw [List.mk_mem_zipIdx_iff_le_and_getElem?_sub]
      refine ⟨by omega, ?_⟩
      rw [show o + n - 1 - o = n - 1 by omega]
      exact List.getElem?_eq_getElem hlast
    obtain ⟨w, hw, hindex⟩ := hfill
    have hlt := h.writes w hw
    omega

theorem inside_copyLabel (h : log.Inside p.length) (hlabel : p.payload i ≠ 0)
    (hread : i + 1 + p.payload i ≤ p.payloadLength) (hwrite : labelPlace o + p.payload i ≤ 256) :
    (p.copyLabel o i log).Inside p.length := by
  have hplace := le_labelPlace o
  unfold copyLabel
  apply inside_copy ?_ hread (by omega) hwrite
  have hzero : ((log.read (dnsHeaderSize + i) 1).write o [0]).Inside p.length :=
    (h.read (payload_inside (by omega) Nat.one_pos)).write (show o + 1 ≤ 256 by omega)
  split
  · exact hzero.write (show o + 1 ≤ 256 by omega)
  · exact hzero

theorem fills_copyLabel (h : log.Fills o) (hlabel : p.payload i ≠ 0) :
    (p.copyLabel o i log).Fills (labelPlace o + p.payload i) := by
  have hread : (log.read (dnsHeaderSize + i) 1).Fills o := ⟨h.written, h.only⟩
  unfold copyLabel labelPlace
  by_cases hfirst : o ≠ 0
  · simp only [if_pos hfirst]
    exact fills_copy (hread.terminate.write (show 0 < [(0x2e : Byte)].length by simp)) _ (by omega)
  · simp only [if_neg hfirst]
    exact fills_copy hread.terminate _ (by omega)

theorem grows_copyLabel (p : DnsPacket) (o i : ℕ) (log : DnsLog) :
    Grows log (p.copyLabel o i log) := by
  unfold copyLabel
  refine Grows.trans ?_ (grows_copy _ _ _ _ _)
  have hzero := (grows_read log (dnsHeaderSize + i) 1).trans (grows_write _ o [0])
  split
  · exact hzero.trans (grows_write _ _ _)
  · exact hzero

theorem Name.copyName {ls : List ℕ} {ends : Bool} (h : Name p lowestPos i ls ends)
    (hin : log.Inside p.length) (hfill : log.Fills o) (htext : textAfter o ls ≤ 256)
    (hfuel : lowestPos + dnsResultMax < fuel + o) :
    ∃ error log', p.copyName fuel i o lowestPos log = some (error, textAfter o ls, log') ∧
      log'.Inside p.length ∧ log'.Fills (textAfter o ls) ∧ (error = none ↔ ends) := by
  have ho := (le_textAfter o ls).trans htext
  have hroom : o + 256 < dnsResultMax := lt_of_le_of_lt (Nat.add_le_add_right ho 256) (by decide)
  induction h generalizing o fuel log with
  | past hi =>
    obtain ⟨fuel, rfl⟩ := Nat.exists_eq_succ_of_ne_zero (show fuel ≠ 0 by omega)
    exact ⟨none, log, copyName_past hi, hin, hfill, by simp⟩
  | @root lowestPos i hi hroot =>
    obtain ⟨fuel, rfl⟩ := Nat.exists_eq_succ_of_ne_zero (show fuel ≠ 0 by omega)
    have hreads := readsInside_read log (payload_inside hi Nat.one_pos)
    exact ⟨none, _, copyName_root hi hroom hroot, hreads.inside hin, hreads.fills hfill, by simp⟩
  | @label lowestPos i ls ends hread hlabel hshort _ ih =>
    obtain ⟨fuel, rfl⟩ := Nat.exists_eq_succ_of_ne_zero (show fuel ≠ 0 by omega)
    have hplace := le_labelPlace o
    have hwrite := (le_textAfter (labelPlace o + p.payload i) ls).trans htext
    have hsize := hwrite.trans (show 256 ≤ sizeofDnsHeader by decide)
    rw [copyName_label (by omega) hroom hlabel hshort hsize]
    exact ih (inside_copyLabel hin hlabel hread hwrite) (fills_copyLabel hfill hlabel) htext
      (by omega)
      hwrite (lt_of_le_of_lt (Nat.add_le_add_right hwrite 256) (by decide))
  | @pointer lowestPos i target ls ends hread hpointer hpoints _ ih =>
    obtain ⟨fuel, rfl⟩ := Nat.exists_eq_succ_of_ne_zero (show fuel ≠ 0 by omega)
    have hlowest := hpoints.2
    have hreads := (readsInside_read log (payload_inside (show i + 1 ≤ p.payloadLength by omega)
      Nat.one_pos)).trans (readsInside_read _ (payload_inside hread Nat.two_pos))
    rw [copyName_pointer (by omega) hroom hpointer hpoints]
    exact ih (hreads.inside hin) (hreads.fills hfill) htext (by omega) ho hroom
  | @bad lowestPos i hread hpointer hbad =>
    obtain ⟨fuel, rfl⟩ := Nat.exists_eq_succ_of_ne_zero (show fuel ≠ 0 by omega)
    have hreads := (readsInside_read log (payload_inside (show i + 1 ≤ p.payloadLength by omega)
      Nat.one_pos)).trans (readsInside_read _ (payload_inside hread Nat.two_pos))
    obtain ⟨error, hrun⟩ := copyName_bad fuel log (by omega) hroom hpointer hbad
    exact ⟨some error, _, hrun, hreads.inside hin, hreads.fills hfill, by simp⟩

theorem copyName_cases (p : DnsPacket) (fuel i o lowestPos : ℕ) (log : DnsLog) :
    (∃ error o' log', p.copyName (fuel + 1) i o lowestPos log = some (error, o', log') ∧
      Grows log log') ∨
    (∃ target log', p.Points i target lowestPos ∧ Grows log log' ∧
      p.copyName (fuel + 1) i o lowestPos log = p.copyName fuel target o target log') ∨
    (p.payload i ≠ 0 ∧ labelPlace o + p.payload i ≤ sizeofDnsHeader ∧
      p.copyName (fuel + 1) i o lowestPos log = p.copyName fuel (i + p.payload i + 1)
        (labelPlace o + p.payload i) lowestPos (p.copyLabel o i log)) := by
  by_cases hmore : i < p.payloadLength ∧ o + 256 < dnsResultMax
  · obtain ⟨hi, ho⟩ := hmore
    have hread := (grows_read log (dnsHeaderSize + i) 1)
    by_cases hpointer : 63 < p.payload i
    · by_cases hpoints : ∃ target, p.Points i target lowestPos
      · obtain ⟨target, hpoints⟩ := hpoints
        exact .inr (.inl ⟨target, _, hpoints, hread.trans (grows_read _ _ _),
          copyName_pointer hi ho hpointer hpoints⟩)
      · obtain ⟨error, hrun⟩ := copyName_bad fuel log hi ho hpointer (not_exists.mp hpoints)
        exact .inl ⟨_, _, _, hrun, hread.trans (grows_read _ _ _)⟩
    · by_cases hroot : p.payload i = 0
      · exact .inl ⟨_, _, _, copyName_root hi ho hroot, hread⟩
      · by_cases hsize : labelPlace o + p.payload i ≤ sizeofDnsHeader
        · exact .inr (.inr ⟨hroot, hsize, copyName_label hi ho hroot (by omega) hsize⟩)
        · obtain ⟨error, log', hrun, hgrows⟩ := copyName_long fuel lowestPos log hi ho
            hroot (by omega) (by omega)
          exact .inl ⟨_, _, _, hrun, hgrows⟩
  · exact .inl ⟨none, o, log, by rw [copyName, if_neg hmore], .refl log⟩

theorem copyName_grows {error : Option String} {o' : ℕ}
    (hrun : p.copyName fuel i o lowestPos log = some (error, o', log')) : Grows log log' := by
  induction fuel generalizing i o lowestPos log with
  | zero => cases hrun
  | succ fuel ih =>
    rcases copyName_cases p fuel i o lowestPos log with
      ⟨_, _, _, heq, hgrows⟩ | ⟨target, next, -, hgrows, heq⟩ | ⟨-, -, heq⟩ <;> rw [heq] at hrun
    · cases hrun
      exact hgrows
    · exact hgrows.trans (ih hrun)
    · exact (grows_copyLabel p o i log).trans (ih hrun)

theorem exists_copyName (log : DnsLog) (ho : o ≤ dnsResultMax)
    (hfuel : lowestPos + dnsResultMax < fuel + o) :
    ∃ result, p.copyName fuel i o lowestPos log = some result := by
  induction fuel generalizing i o lowestPos log with
  | zero => omega
  | succ fuel ih =>
    rcases copyName_cases p fuel i o lowestPos log with
      ⟨_, _, _, heq, -⟩ | ⟨target, next, hpoints, -, heq⟩ | ⟨hlabel, hsize, heq⟩ <;> rw [heq]
    · exact ⟨_, rfl⟩
    · have hlowest := hpoints.2
      exact ih next ho (by omega)
    · have hplace := le_labelPlace o
      have hmax : sizeofDnsHeader ≤ dnsResultMax := by decide
      exact ih _ (by omega) (by omega)

theorem not_inside_pointer (hi : i < p.payloadLength) (hlast : ¬ i + 2 ≤ p.payloadLength)
    (hgrows : Grows ((log.read (dnsHeaderSize + i) 1).read (dnsHeaderSize + i) 2) log') :
    ¬ log'.Inside p.length := by
  intro hin
  have hsecond := hin.reads (dnsHeaderSize + i + 1) (hgrows.reads _ (by simp))
  unfold payloadLength at hi hlast
  omega

/-- Where the loop does not follow a name that lies in the packet and fits, it leaves one of
them. -/
theorem name_or_outside {error : Option String} {o' : ℕ}
    (hrun : p.copyName fuel i o lowestPos log = some (error, o', log')) (ho : o ≤ 256) :
    (∃ ls ends, Name p lowestPos i ls ends ∧ textAfter o ls ≤ 256) ∨ ¬ log'.Inside p.length := by
  induction fuel generalizing i o lowestPos log with
  | zero => cases hrun
  | succ fuel ih =>
    have hroom : o + 256 < dnsResultMax := lt_of_le_of_lt (Nat.add_le_add_right ho 256) (by decide)
    by_cases hi : i < p.payloadLength
    · by_cases hpointer : 63 < p.payload i
      · by_cases hpoints : ∃ target, p.Points i target lowestPos
        · obtain ⟨target, hpoints⟩ := hpoints
          rw [copyName_pointer hi hroom hpointer hpoints] at hrun
          by_cases hread : i + 2 ≤ p.payloadLength
          · rcases ih hrun ho with ⟨ls, ends, hname, htext⟩ | hout
            · exact .inl ⟨ls, ends, .pointer hread hpointer hpoints hname, htext⟩
            · exact .inr hout
          · exact .inr (not_inside_pointer hi hread (copyName_grows hrun))
        · obtain ⟨error, hbad⟩ := copyName_bad fuel log hi hroom hpointer (not_exists.mp hpoints)
          rw [hbad] at hrun
          cases hrun
          by_cases hread : i + 2 ≤ p.payloadLength
          · exact .inl ⟨[], false, .bad hread hpointer (not_exists.mp hpoints), ho⟩
          · exact .inr (not_inside_pointer hi hread (.refl _))
      · by_cases hroot : p.payload i = 0
        · exact .inl ⟨[], true, .root hi hroot, ho⟩
        · have hplace := labelPlace_le o
          have hsize : labelPlace o + p.payload i ≤ sizeofDnsHeader := by
            unfold sizeofDnsHeader
            omega
          rw [copyName_label hi hroom hroot (by omega) hsize] at hrun
          by_cases hfits : i + 1 + p.payload i ≤ p.payloadLength ∧ labelPlace o + p.payload i ≤ 256
          · rcases ih hrun hfits.2 with ⟨ls, ends, hname, htext⟩ | hout
            · exact .inl ⟨_, ends, .label hfits.1 hroot (by omega) hname, htext⟩
            · exact .inr hout
          · right
            intro hin
            refine not_inside_copy (by omega) (by omega) ?_ ((copyName_grows hrun).inside hin)
            omega
    · exact .inl ⟨[], true, .past (by omega), ho⟩

/-! ## The whole reply -/

def Reply (p : DnsPacket) : Prop :=
  dnsHeaderSize ≤ p.length ∧ p.flags1 &&& 0x80 ≠ 0 ∧ p.flags1 &&& 0x78 = 0 ∧ p.flags2 &&& 0x0f = 0

def Answers (p : DnsPacket) (request : DnsRequest) (rr : ResourceRecord) (i : ℕ) : Prop :=
  p.Reply ∧ ∃ j rs complete, Questions p p.qdcount 0 j ∧ Records p p.ancount j rs complete ∧
    request.select none rs complete = some (rr, i)

/-- The call returns, has read only the packet and written only the result, and if it succeeds
`outlength` counts what is there. -/
def Safe (p : DnsPacket) (returned : Option DnsResult) : Prop :=
  ∃ result, returned = some result ∧ result.log.Inside p.length ∧
    (result.error = none → result.log.Fills result.outlength)

theorem safe_error (error : String) (request : DnsRequest) (n : ℕ) (hin : log.Inside p.length) :
    p.Safe (some ⟨some error, request, log, n⟩) :=
  ⟨_, rfl, hin, fun h => by cases h⟩

theorem safe_copyAddress {rr : ResourceRecord} (error : String) (hin : log.Inside p.length)
    (hfill : log.Fills 0) (hfits : i + rr.rdlength ≤ p.payloadLength) (hn : 0 < n)
    (hsmall : n < 256) :
    p.Safe (some (p.copyAddress request rr i n error log)) := by
  unfold copyAddress
  split
  · exact safe_error error request 0 hin
  · next hlength =>
    have heq : rr.rdlength = n := not_not.mp hlength
    have hcopy := fills_copy (p := p) hfill i (show 0 < rr.rdlength by omega)
    rw [Nat.zero_add] at hcopy
    refine ⟨_, rfl, ?_, fun _ => hcopy.terminate⟩
    exact (inside_copy hin hfits (by omega) (by omega)).write (show rr.rdlength + 1 ≤ 256 by omega)

theorem le_of_safe_terminated
    (hsafe : p.Safe (some ⟨none, request, log.write n [0], (n + 1) % 2 ^ 8⟩)) : n ≤ 254 := by
  obtain ⟨result, heq, hin, hfills⟩ := hsafe
  obtain rfl := Option.some.inj heq
  have hlast : ((0 : Byte), n) ∈ (log.write n [0]).writes := mem_write.mpr (.inr (by simp))
  have hlt := hin.writes _ hlast
  dsimp only at hlt
  by_contra hmax
  obtain rfl : n = 255 := by omega
  -- the length of 256 bytes is stored as 0
  have hnone : log.write 255 [0] |>.Fills 0 := hfills rfl
  rcases hnone.only _ hlast with hzero | heq
  · cases hzero
  · cases congrArg Prod.snd heq

theorem safe_decompress_iff (hin : log.Inside p.length) (hfill : log.Fills 0) :
    p.Safe (p.decompress request i log) ↔ p.NameFits i := by
  have hshort : p.payloadLength % 2 ^ 16 = p.payloadLength := by
    have hlength := p.short
    unfold payloadLength
    exact Nat.mod_eq_of_lt (by omega)
  have hfuel : p.payloadLength + dnsResultMax < 2 ^ 17 + 0 := by
    have hlength := p.short
    unfold payloadLength dnsResultMax
    omega
  unfold decompress
  rw [hshort]
  constructor
  · intro hsafe
    obtain ⟨⟨error, o, log'⟩, hrun⟩ := exists_copyName (p := p) (i := i) log (Nat.zero_le _) hfuel
    rcases name_or_outside hrun (Nat.zero_le _) with ⟨ls, ends, hname, htext⟩ | hout
    · obtain ⟨error', last, hfollow, -, -, hends⟩ := hname.copyName hin hfill htext hfuel
      rw [hname.textAfter_zero] at htext hfollow
      refine ⟨ls, ends, hname, ?_⟩
      rw [hfollow] at hsafe
      cases ends with
      | false => exact htext
      | true =>
        obtain rfl : error' = none := hends.mpr rfl
        exact le_of_safe_terminated hsafe
    · rw [hrun] at hsafe
      refine absurd ?_ hout
      cases error with
      | some error =>
        obtain ⟨result, heq, hin', -⟩ := hsafe
        obtain rfl := Option.some.inj heq
        exact hin'
      | none =>
        obtain ⟨result, heq, hin', -⟩ := hsafe
        obtain rfl := Option.some.inj heq
        exact (grows_write log' o [0]).inside hin'
  · rintro ⟨ls, ends, hname, htext⟩
    have hmax : textAfter 0 ls ≤ 256 := by
      rw [hname.textAfter_zero]
      split at htext <;> omega
    obtain ⟨error, log', hrun, hin', hfill', hends⟩ := hname.copyName hin hfill hmax hfuel
    rw [hname.textAfter_zero] at hrun hfill'
    rw [hrun]
    cases error with
    | some error => exact safe_error error request 0 hin'
    | none =>
      rw [if_pos (hends.mp rfl)] at htext
      have hsmall : (textLength ls + 1) % 2 ^ 8 = textLength ls + 1 := Nat.mod_eq_of_lt (by omega)
      refine ⟨_, rfl, hin'.write (show textLength ls + 1 ≤ 256 by omega), fun _ => ?_⟩
      dsimp only
      rw [hsmall]
      exact hfill'.write (show 0 < [(0 : Byte)].length by simp)

theorem safe_copyAnswer_iff {rr : ResourceRecord} (hin : log.Inside p.length) (hfill : log.Fills 0)
    (hfits : i + rr.rdlength ≤ p.payloadLength) : p.Safe (p.copyAnswer request rr i log) ↔
      (rr.HoldsName → rr.rdlength ≤ dnsResultMax → p.NameFits i) := by
  unfold copyAnswer
  rw [if_neg (by omega)]
  by_cases hlarge : dnsResultMax < rr.rdlength
  · rw [if_pos hlarge]
    refine iff_of_true (safe_error _ _ _ hin) fun _ hmax => ?_
    omega
  · rw [if_neg hlarge]
    dsimp only
    by_cases hname : rr.HoldsName
    · rw [if_pos (show rr.type = dnsQueryCname ∨ rr.type = dnsQueryPtr from hname),
        safe_decompress_iff hin hfill]
      exact ⟨fun h _ _ => h, fun h => h hname (by omega)⟩
    · rw [if_neg (show ¬ (rr.type = dnsQueryCname ∨ rr.type = dnsQueryPtr) from hname)]
      refine iff_of_true ?_ fun h => absurd h hname
      split
      · exact safe_copyAddress _ hin hfill hfits (by decide) (by decide)
      · split
        · exact safe_copyAddress _ hin hfill hfits (by decide) (by decide)
        · exact safe_error _ _ _ hin

theorem exists_found (p : DnsPacket) (request : DnsRequest) (log : DnsLog) :
    ∃ j found log' log'', p.skipQuestions (p.payloadLength + 1) 0 0 log = some (j, log') ∧
      p.findAnswer request p.ancount j none log' = some (found, log'') ∧
      ReadsInside p.length log log'' ∧ ∀ rr i request', found = .ok (rr, i, request') → p.Reply →
        p.Answers request rr i ∨ p.payloadLength < i + rr.rdlength := by
  obtain ⟨j, hquestions⟩ := p.exists_questions p.qdcount 0
  obtain ⟨rs, complete, hrecords⟩ := p.exists_records p.ancount j
  obtain ⟨log', hskip, hreads⟩ := hquestions.skipQuestions (Nat.sub_zero _)
    (show p.payloadLength - 0 < p.payloadLength + 1 by omega) log
  obtain ⟨found, log'', hfind, hrest, -, hselect⟩ := hrecords.findAnswer request none log'
  refine ⟨j, found, log', log'', hskip, hfind, hreads.trans hrest,
    fun rr i request' hok hreply => ?_⟩
  exact (hselect rr i request' hok).imp_left fun h =>
    ⟨hreply, j, rs, complete, hquestions, hrecords, h⟩

theorem Answers.found {rr : ResourceRecord} (h : p.Answers request rr i) (log : DnsLog) :
    ∃ j log' log'' request', p.skipQuestions (p.payloadLength + 1) 0 0 log = some (j, log') ∧
      p.findAnswer request p.ancount j none log' = some (.ok (rr, i, request'), log'') ∧
      ReadsInside p.length log log'' ∧ i + rr.rdlength ≤ p.payloadLength ∧ 0 < p.ancount := by
  obtain ⟨-, j, rs, complete, hquestions, hrecords, hselected⟩ := h
  obtain ⟨log', hskip, hreads⟩ := hquestions.skipQuestions (Nat.sub_zero _)
    (show p.payloadLength - 0 < p.payloadLength + 1 by omega) log
  obtain ⟨found, log'', hfind, hrest, hselect, -⟩ := hrecords.findAnswer request none log'
  obtain ⟨request', rfl⟩ := hselect rr i hselected
  have hmem := DnsRequest.mem_of_select hselected
  refine ⟨j, log', log'', request', hskip, hfind, hreads.trans hrest, hrecords.fits _ hmem, ?_⟩
  by_contra hcount
  rw [show p.ancount = 0 by omega] at hrecords
  cases hrecords
  cases hmem

theorem safe_readAnswers_iff (hreply : p.Reply) (hin : log.Inside p.length) (hfill : log.Fills 0) :
    p.Safe (p.readAnswers request log) ↔ ∀ rr i, p.Answers request rr i → rr.HoldsName →
      rr.rdlength ≤ dnsResultMax → p.NameFits i := by
  unfold readAnswers
  constructor
  · intro hsafe rr i hanswers
    obtain ⟨j, log', log'', request', hskip, hfind, hreads, hfits, -⟩ := hanswers.found log
    rw [hskip] at hsafe
    dsimp only [Option.bind_eq_bind, Option.bind_some] at hsafe
    rw [hfind] at hsafe
    exact (safe_copyAnswer_iff (hreads.inside hin) (hreads.fills hfill) hfits).mp hsafe
  · intro hnames
    obtain ⟨j, found, log', log'', hskip, hfind, hreads, hfound⟩ := p.exists_found request log
    rw [hskip]
    dsimp only [Option.bind_eq_bind, Option.bind_some]
    rw [hfind]
    dsimp only [Option.bind_some]
    have hlast := hreads.inside hin
    cases found with
    | error error => exact safe_error error request 0 hlast
    | ok found =>
      obtain ⟨rr, i, request'⟩ := found
      by_cases hfits : i + rr.rdlength ≤ p.payloadLength
      · have hanswers := (hfound rr i request' rfl hreply).resolve_right (by omega)
        exact (safe_copyAnswer_iff hlast (hreads.fills hfill) hfits).mpr (hnames rr i hanswers)
      · dsimp only
        unfold copyAnswer
        rw [if_pos (by omega)]
        exact safe_error _ request' 0 hlast

/-- For every packet and request the call is safe exactly if the name that the answer holds, where
it holds one, lies in the packet and fits. -/
theorem dnsResultReady_safe_iff (p : DnsPacket) (request : DnsRequest) :
    p.Safe (p.dnsResultReady request) ↔ ∀ rr i, p.Answers request rr i → rr.HoldsName →
      rr.rdlength ≤ dnsResultMax → p.NameFits i := by
  have hstart : DnsLog.Inside p.length ⟨[], [(0, 0)]⟩ := ⟨by simp, by simp⟩
  have hempty : DnsLog.Fills 0 ⟨[], [(0, 0)]⟩ := ⟨by simp, by simp⟩
  unfold dnsResultReady
  by_cases hheader : p.length < dnsHeaderSize
  · rw [if_pos hheader]
    refine iff_of_true (safe_error _ request 0 hstart) fun rr i hanswers => ?_
    exact absurd hanswers.1.1 (not_le.mpr hheader)
  · have hread : ReadsInside p.length ⟨[], [(0, 0)]⟩ (DnsLog.read ⟨[], [(0, 0)]⟩ 2 6) := by
      unfold dnsHeaderSize at hheader
      exact readsInside_read _ (by omega)
    have hin := hread.inside hstart
    rw [if_neg hheader]
    dsimp only
    split
    · next hquery =>
      refine iff_of_true (safe_error _ request 0 hin) fun rr i hanswers => ?_
      exact absurd hquery hanswers.1.2.1
    · next hquery =>
      split
      · next hopcode =>
        refine iff_of_true (safe_error _ request 0 hin) fun rr i hanswers => ?_
        exact absurd hanswers.1.2.2.1 hopcode
      · next hopcode =>
        split
        · next hrcode =>
          refine iff_of_true (safe_error _ request 0 hin) fun rr i hanswers => ?_
          exact absurd hanswers.1.2.2.2 hrcode
        · next hrcode =>
          split
          · next hcount =>
            refine iff_of_true (safe_error _ request 0 hin) fun rr i hanswers => ?_
            obtain ⟨j, log', log'', request', -, -, -, -, hpos⟩ := hanswers.found ⟨[], []⟩
            omega
          · have hreply : p.Reply :=
              ⟨not_lt.mp hheader, hquery, not_not.mp hopcode, not_not.mp hrcode⟩
            exact safe_readAnswers_iff hreply hin (hread.fills hempty)

/-! ## A long alias -/

/-- An answer with one record, whose data is `rdata`. -/
def aliasBytes (rdata : List Byte) : List Byte :=
  [0, 1, 0x80, 0, 0, 0, 0, 1, 0, 0, 0, 0] ++ [0, 0, 5, 0, 1, 0, 0, 0, 60] ++
    [BitVec.ofNat 8 (rdata.length / 256), BitVec.ofNat 8 rdata.length] ++ rdata

def longName : List Byte := (List.replicate 5 (63 :: List.replicate 63 0x61)).flatten ++ [0]

def longAlias : DnsPacket where
  memory := fun k => (aliasBytes longName).getD k 0
  length := (aliasBytes longName).length
  short := by decide +kernel

def addressRequest : DnsRequest := ⟨dnsQueryA, 1, 0⟩

/-- The text of 319 bytes goes over the end of the result. -/
theorem longAlias_not_safe : ¬ longAlias.Safe (longAlias.dnsResultReady addressRequest) := by
  have hover : (longAlias.dnsResultReady addressRequest).any fun result =>
      result.log.writes.any fun w => decide (256 ≤ w.2) := by
    decide +kernel
  rintro ⟨result, heq, hin, -⟩
  rw [heq, Option.any_some, List.any_eq_true] at hover
  obtain ⟨w, hw, hlarge⟩ := hover
  exact absurd (hin.writes w hw) (not_lt.mpr (of_decide_eq_true hlarge))

end DnsPacket

end RetroRocket
