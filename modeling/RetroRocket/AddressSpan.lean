import RetroRocket.BootLayout
import RetroRocket.KernelHeap

/-!
# Valid spans

`address_valid_read` and `address_valid_write` over a memory map of disjoint entries in any order.
The cursor of the scan jumps to the end of each entry that it is found in, so what it has passed is
exactly what lies in entries of the wanted types.
-/

namespace RetroRocket

/-! ## Valid addresses -/

namespace MemmapEntry

def last (e : MemmapEntry) : ℕ := sub64 (e.base + e.length) 1

end MemmapEntry

def spanOverflows (addr width : ℕ) : Bool := width = 0 ∨ u64 (addr + width - 1) < addr

def typeReadable (t : MemmapType) : Bool :=
  t = .usable ∨ t = .acpiNvs ∨ t = .acpiReclaimable ∨ t = .bootloaderReclaimable ∨
    t = .framebuffer ∨
    t = .kernelAndModules

def typeWritable (t : MemmapType) : Bool :=
  t = .usable ∨ t = .acpiReclaimable ∨ t = .bootloaderReclaimable ∨ t = .framebuffer

/-- The loop of `address_valid_span`, where the first entry that holds the cursor decides. -/
def spanLoop (entries : List MemmapEntry) (forWrite : Bool) (finish : ℕ) : ℕ → ℕ → Option Bool
  | 0, _ => none
  | fuel + 1, cursor =>
    if finish < cursor then some true
    else
      match entries.find? fun e => e.base ≤ cursor ∧ cursor ≤ e.last with
      | none => some false
      | some e =>
        if !(if forWrite then typeWritable e.type else typeReadable e.type) then some false
        else if finish ≤ e.last then some true
        else spanLoop entries forWrite finish fuel (u64 (e.last + 1))

def addressValidSpan (entries : List MemmapEntry) (addr width : ℕ) (forWrite : Bool) :
    Option Bool :=
  if addr < 0x1000 ∨ spanOverflows addr width then some false
  else if entries = [] then some false
  else spanLoop entries forWrite (u64 (addr + width - 1)) width addr

/-! ## Memory maps -/

structure MapSound (entries : List MemmapEntry) : Prop where
  pos : ∀ e ∈ entries, 0 < e.length
  fits : ∀ e ∈ entries, e.base + e.length ≤ 2 ^ 64
  apart : entries.Pairwise fun e f => RangesApart e.range f.range

def TypeOk (forWrite : Bool) (t : MemmapType) : Prop :=
  if forWrite then typeWritable t else typeReadable t

def InMap (entries : List MemmapEntry) (forWrite : Bool) (a : ℕ) : Prop :=
  ∃ e ∈ entries, Occupies e.range a ∧ TypeOk forWrite e.type

structure SpanValid (entries : List MemmapEntry) (addr width : ℕ) (forWrite : Bool) : Prop where
  pos : 1 ≤ width
  low : 0x1000 ≤ addr
  fits : addr + width - 1 < 2 ^ 64
  inMap : ∀ a, addr ≤ a → a < addr + width → InMap entries forWrite a

variable {entries : List MemmapEntry} {e f : MemmapEntry} {forWrite : Bool}
  {a cursor finish fuel addr width : ℕ}

namespace MapSound

theorem last_eq (h : MapSound entries) (he : e ∈ entries) : e.last + 1 = e.base + e.length := by
  have hpos := h.pos e he
  have hfits := h.fits e he
  unfold MemmapEntry.last sub64 u64
  omega

theorem occupies_iff (h : MapSound entries) (he : e ∈ entries) :
    Occupies e.range a ↔ e.base ≤ a ∧ a ≤ e.last := by
  have hlast := h.last_eq he
  unfold Occupies MemmapEntry.range
  dsimp only
  omega

theorem eq_of_occupies (h : MapSound entries) (he : e ∈ entries) (hf : f ∈ entries)
    (hea : Occupies e.range a) (hfa : Occupies f.range a) : e = f := by
  by_contra hne
  have : Std.Symm fun e f : MemmapEntry => RangesApart e.range f.range := ⟨fun _ _ h => h.symm⟩
  exact h.apart.forall he hf hne a hea hfa

theorem find_some (h : MapSound entries)
    (hfind : (entries.find? fun e => e.base ≤ cursor ∧ cursor ≤ e.last) = some e) :
    e ∈ entries ∧ Occupies e.range cursor := by
  have he := List.mem_of_find?_eq_some hfind
  have hin := List.find?_some hfind
  rw [decide_eq_true_eq] at hin
  exact ⟨he, (h.occupies_iff he).mpr hin⟩

theorem find_none (h : MapSound entries)
    (hfind : (entries.find? fun e => e.base ≤ cursor ∧ cursor ≤ e.last) = none) :
    ¬ InMap entries forWrite cursor := by
  rintro ⟨e, he, hin, -⟩
  have hnot := List.find?_eq_none.mp hfind e he
  rw [decide_eq_true_eq] at hnot
  exact hnot ((h.occupies_iff he).mp hin)

/-! ## The scan -/

/-- The scan returns whether all bytes from the cursor on are in the map. The induction is on the
fuel, of which every byte that the cursor passes is worth one. -/
theorem spanLoop_spec (h : MapSound entries) (forWrite : Bool) (hfuel : finish < cursor + fuel)
    (hcursor : cursor ≤ finish) (hfinish : finish < 2 ^ 64) :
    ∃ b, spanLoop entries forWrite finish fuel cursor = some b ∧
      (b = true ↔ ∀ a, cursor ≤ a → a ≤ finish → InMap entries forWrite a) := by
  induction fuel generalizing cursor with
  | zero => omega
  | succ fuel ih =>
    rw [spanLoop, if_neg (by omega)]
    cases hfind : entries.find? fun e => e.base ≤ cursor ∧ cursor ≤ e.last with
    | none =>
      refine ⟨false, rfl, iff_of_false Bool.false_ne_true fun hall => ?_⟩
      exact h.find_none hfind (hall cursor le_rfl hcursor)
    | some e =>
      obtain ⟨he, hin⟩ := h.find_some hfind
      obtain ⟨hlow, hhigh⟩ := (h.occupies_iff he).mp hin
      dsimp only
      by_cases htype : TypeOk forWrite e.type
      · have hcovered : ∀ a, cursor ≤ a → a ≤ e.last → InMap entries forWrite a := by
          intro a hlow' hhigh'
          exact ⟨e, he, (h.occupies_iff he).mpr ⟨hlow.trans hlow', hhigh'⟩, htype⟩
        have hkind : ¬ (!if forWrite then typeWritable e.type else typeReadable e.type) = true := by
          unfold TypeOk at htype
          cases forWrite <;> simpa using htype
        rw [if_neg hkind]
        by_cases hlast : finish ≤ e.last
        · rw [if_pos hlast]
          exact ⟨true, rfl, iff_of_true rfl fun a hlow' hhigh' =>
            hcovered a hlow' (hhigh'.trans hlast)⟩
        · rw [if_neg hlast, u64_of_lt (by omega)]
          obtain ⟨b, hrun, hb⟩ := ih (show finish < e.last + 1 + fuel by omega) (by omega)
          refine ⟨b, hrun, hb.trans ⟨fun hall a hlow' hhigh' => ?_, fun hall a hlow' => ?_⟩⟩
          · rcases Nat.lt_or_ge e.last a with hpast | hpast
            · exact hall a hpast hhigh'
            · exact hcovered a hlow' hpast
          · exact hall a (by omega)
      · have hkind : (!if forWrite then typeWritable e.type else typeReadable e.type) = true := by
          unfold TypeOk at htype
          cases forWrite <;> simpa using htype
        rw [if_pos hkind]
        refine ⟨false, rfl, iff_of_false Bool.false_ne_true fun hall => ?_⟩
        -- no other entry has the cursor in it
        obtain ⟨f, hf, hinf, htypef⟩ := hall cursor le_rfl hcursor
        rw [h.eq_of_occupies hf he hinf hin] at htypef
        exact htype htypef

end MapSound

theorem spanOverflows_eq_false (haddr : addr < 2 ^ 64) (hwidth : width < 2 ^ 64) :
    spanOverflows addr width = false ↔ 1 ≤ width ∧ addr + width - 1 < 2 ^ 64 := by
  unfold spanOverflows u64
  rw [decide_eq_false_iff_not]
  omega

/-- `address_valid_read` and `address_valid_write`, which are the two kinds of `address_valid_span`,
allow valid spans and no others. -/
theorem addressValidSpan_iff (h : MapSound entries) (haddr : addr < 2 ^ 64)
    (hwidth : width < 2 ^ 64) (forWrite : Bool) :
    ∃ b, addressValidSpan entries addr width forWrite = some b ∧
      (b = true ↔ SpanValid entries addr width forWrite) := by
  unfold addressValidSpan
  split
  · next hbad =>
    refine ⟨false, rfl, iff_of_false Bool.false_ne_true fun hvalid => ?_⟩
    have hover := (spanOverflows_eq_false haddr hwidth).mpr ⟨hvalid.pos, hvalid.fits⟩
    have hlow := hvalid.low
    rw [hover] at hbad
    rcases hbad with hbad | hbad
    · omega
    · cases hbad
  · next hgood =>
    obtain ⟨hlow, hover⟩ := not_or.mp hgood
    obtain ⟨hpos, hfits⟩ := (spanOverflows_eq_false haddr hwidth).mp (Bool.eq_false_iff.mpr hover)
    split
    · next hnone =>
      subst hnone
      refine ⟨false, rfl, iff_of_false Bool.false_ne_true fun hvalid => ?_⟩
      obtain ⟨e, he, -⟩ := hvalid.inMap addr le_rfl (by omega)
      cases he
    · rw [u64_of_lt hfits]
      obtain ⟨b, hrun, hb⟩ := h.spanLoop_spec forWrite
        (show addr + width - 1 < addr + width by omega) (by omega) hfits
      refine ⟨b, hrun, hb.trans ⟨fun hall => ?_, fun hvalid a hlow' hhigh => ?_⟩⟩
      · exact ⟨hpos, by omega, hfits, fun a hlow' hhigh => hall a hlow' (by omega)⟩
      · exact hvalid.inMap a hlow' (by omega)

def adjacentEntries : List MemmapEntry :=
  [⟨0x3000, 0x1000, .framebuffer⟩, ⟨0x1000, 0x2000, .usable⟩]

theorem adjacentEntries_sound : MapSound adjacentEntries := by
  have hapart : RangesApart (0x1000, 0x2000) (0x3000, 0x1000) := rangesApart_of_le (by decide)
  exact ⟨by decide, by decide, List.pairwise_pair.mpr hapart.symm⟩

/-- 16 bytes across the border. -/
theorem addressValidSpan_iff_adjacent : SpanValid adjacentEntries 0x2ff8 16 true := by
  obtain ⟨b, hrun, hb⟩ := addressValidSpan_iff adjacentEntries_sound
    (show 0x2ff8 < 2 ^ 64 by decide) (show 16 < 2 ^ 64 by decide) true
  have htrue : addressValidSpan adjacentEntries 0x2ff8 16 true = some true := by decide
  exact hb.mp (Option.some.inj (hrun.symm.trans htrue))

end RetroRocket
