import RetroRocket.IsoDirectory

/-!
# What the parser of an ISO 9660 directory lists

A call that ends with a list has met no zero byte at the start of a sector, and every record it
processed lay in the array as far as it was read; and under these two conditions it ends, with the
records after the first two in the list.
-/

namespace RetroRocket

section Walk

variable {joliet : Bool} {dirbuffer : Buffer} {lengthbytes off entrycount : ℕ}
  {list : List IsoEntry}

/-! ## One turn -/

theorem isoNext_of_aligned (h : off % isoSectorSize = 0) :
    (off + 2047) / isoSectorSize * isoSectorSize = off := by
  simp only [isoSectorSize] at h ⊢
  omega

theorem isoNext_of_unaligned (h : off % isoSectorSize ≠ 0) :
    (off + 2047) / isoSectorSize * isoSectorSize = nextSector off := by
  simp only [isoSectorSize, nextSector] at h ⊢
  omega

theorem isoVisits_end (h : lengthbytes ≤ off) : isoVisits dirbuffer lengthbytes off = [] := by
  rw [isoVisits, if_neg (not_lt.mpr h)]

theorem isoVisits_padding (h : off < lengthbytes) (hzero : isoLength dirbuffer off = 0) :
    isoVisits dirbuffer lengthbytes off =
      off :: isoVisits dirbuffer lengthbytes (nextSector off) := by
  rw [isoVisits, if_pos h, if_pos hzero]

theorem isoVisits_cut (h : off < lengthbytes) (hrecord : isoLength dirbuffer off ≠ 0)
    (hcut : lengthbytes < off + isoLength dirbuffer off) :
    isoVisits dirbuffer lengthbytes off = [] := by
  rw [isoVisits, if_pos h, if_neg hrecord, if_pos hcut]

theorem isoVisits_record (h : off < lengthbytes) (hrecord : isoLength dirbuffer off ≠ 0)
    (hfits : off + isoLength dirbuffer off ≤ lengthbytes) :
    isoVisits dirbuffer lengthbytes off =
      off :: isoVisits dirbuffer lengthbytes (off + isoLength dirbuffer off) := by
  rw [isoVisits, if_pos h, if_neg hrecord, if_neg (not_lt.mpr hfits)]

theorem isoRecords_padding (h : off < lengthbytes) (hzero : isoLength dirbuffer off = 0) :
    isoRecords dirbuffer lengthbytes off = isoRecords dirbuffer lengthbytes (nextSector off) := by
  rw [isoRecords, isoVisits_padding h hzero, List.filter_cons_of_neg (by simp [hzero])]
  rfl

theorem isoRecords_record (h : off < lengthbytes) (hrecord : isoLength dirbuffer off ≠ 0)
    (hfits : off + isoLength dirbuffer off ≤ lengthbytes) :
    isoRecords dirbuffer lengthbytes off =
      off :: isoRecords dirbuffer lengthbytes (off + isoLength dirbuffer off) := by
  rw [isoRecords, isoVisits_record h hrecord hfits, List.filter_cons_of_pos (by simp [hrecord])]
  rfl

theorem isoVisits_ge {place : ℕ} (h : place ∈ isoVisits dirbuffer lengthbytes off) :
    off ≤ place := by
  fun_induction isoVisits dirbuffer lengthbytes off with
  | case1 off hin hzero ih =>
    rcases List.mem_cons.mp h with rfl | hlater
    · exact le_rfl
    · exact (lt_nextSector off).le.trans (ih hlater)
  | case2 off hin hrecord hcut => exact absurd h (by simp)
  | case3 off hin hrecord hfits ih =>
    rcases List.mem_cons.mp h with rfl | hlater
    · exact le_rfl
    · exact (Nat.le_add_right off _).trans (ih hlater)
  | case4 off hend => exact absurd h (by simp)

theorem isoVisits_nodup (dirbuffer : Buffer) (lengthbytes off : ℕ) :
    (isoVisits dirbuffer lengthbytes off).Nodup := by
  fun_induction isoVisits dirbuffer lengthbytes off with
  | case1 off hin hzero ih =>
    refine List.nodup_cons.mpr ⟨fun hagain => ?_, ih⟩
    exact absurd (isoVisits_ge hagain) (not_le.mpr (lt_nextSector off))
  | case2 off hin hrecord hcut => exact List.nodup_nil
  | case3 off hin hrecord hfits ih =>
    refine List.nodup_cons.mpr ⟨fun hagain => ?_, ih⟩
    have := isoVisits_ge hagain
    omega
  | case4 off hend => exact List.nodup_nil

theorem isoRecords_nodup (dirbuffer : Buffer) (lengthbytes : ℕ) :
    (isoRecords dirbuffer lengthbytes 0).Nodup :=
  (isoVisits_nodup dirbuffer lengthbytes 0).filter _

def isoShown (dirbuffer : Buffer) (off : ℕ) : Bool := isoSafeFilenameLength dirbuffer off != 0

theorem isoShown_of_wellFormed (h : IsoWellFormed dirbuffer off) :
    isoShown dirbuffer off = true := by
  obtain ⟨hname, hfits⟩ := h
  have hsafe : isoSafeFilenameLength dirbuffer off = isoFilenameLength dirbuffer off :=
    if_neg (not_lt.mpr hfits)
  simp only [isoShown, hsafe, bne_iff_ne]
  omega

theorem isoAddRecord_first (h : entrycount ≤ 2) :
    isoAddRecord joliet dirbuffer lengthbytes off entrycount list = some list := if_pos h

/-- A record behind the first two is read in the array, and then shown or not; or the array is
overrun. -/
theorem isoAddRecord_eq_some (h : 2 < entrycount) {list' : List IsoEntry} :
    isoAddRecord joliet dirbuffer lengthbytes off entrycount list = some list' ↔
      IsoInside joliet dirbuffer lengthbytes off ∧
        list' = (if isoShown dirbuffer off then [isoEntry joliet dirbuffer off] else
          []) ++ list := by
  simp only [isoAddRecord, if_neg (not_le.mpr h), IsoInside, isoShown, bne_iff_ne]
  by_cases hheader : lengthbytes + 1 < off + 33
  · rw [if_pos hheader]
    simp [not_le.mpr hheader]
  rw [if_neg hheader]
  have hin : off + 33 ≤ lengthbytes + 1 := not_lt.mp hheader
  by_cases hsafe : isoSafeFilenameLength dirbuffer off = 0
  · simp [hsafe, hin, eq_comm]
  · by_cases hname : lengthbytes + 1 < isoFilenameEnd joliet dirbuffer off
    · simp [hsafe, hname]
    · simp [hsafe, hname, hin, not_lt.mp hname, eq_comm]

theorem isoWalkLoop_padding (h : off < lengthbytes) (hzero : isoLength dirbuffer off = 0)
    (hunaligned : off % isoSectorSize ≠ 0) (hmore : nextSector off < lengthbytes) (fuel : ℕ) :
    isoWalkLoop joliet dirbuffer lengthbytes (fuel + 1) off entrycount list =
      isoWalkLoop joliet dirbuffer lengthbytes fuel (nextSector off) entrycount list := by
  rw [isoWalkLoop, if_pos h]
  dsimp only
  rw [if_pos hzero, isoNext_of_unaligned hunaligned, if_neg (not_le.mpr hmore)]

theorem isoWalkLoop_record (h : off < lengthbytes) (hrecord : isoLength dirbuffer off ≠ 0)
    (hfits : off + isoLength dirbuffer off ≤ lengthbytes) {list' : List IsoEntry}
    (hadd : isoAddRecord joliet dirbuffer lengthbytes off (entrycount + 1) list = some list')
    (fuel : ℕ) :
    isoWalkLoop joliet dirbuffer lengthbytes (fuel + 1) off entrycount list =
      isoWalkLoop joliet dirbuffer lengthbytes fuel (off + isoLength dirbuffer off)
        (entrycount + 1) list' := by
  rw [isoWalkLoop, if_pos h]
  dsimp only
  rw [if_neg hrecord, if_neg (not_lt.mpr hfits), hadd]

/-! ## Whole walks -/

def IsoPaddingInside (dirbuffer : Buffer) (lengthbytes off : ℕ) : Prop :=
  ∀ place ∈ isoVisits dirbuffer lengthbytes off, isoLength dirbuffer place = 0 →
    place % isoSectorSize ≠ 0

/-- The list at the end of a walk from `off` on, with `entrycount` records before it. -/
def isoResult (joliet : Bool) (dirbuffer : Buffer) (lengthbytes off entrycount : ℕ)
    (list : List IsoEntry) : List IsoEntry :=
  ((((isoRecords dirbuffer lengthbytes off).drop (2 - entrycount)).filter
    (isoShown dirbuffer)).map (isoEntry joliet dirbuffer)).reverse ++ list

theorem isoWalkLoop_listed {fuel : ℕ} {result : List IsoEntry}
    (hrun : isoWalkLoop joliet dirbuffer lengthbytes fuel off entrycount list =
      some (.listed result)) :
    IsoPaddingInside dirbuffer lengthbytes off ∧
      ∀ place ∈ (isoRecords dirbuffer lengthbytes off).drop (2 - entrycount),
        IsoInside joliet dirbuffer lengthbytes place := by
  induction fuel generalizing off entrycount list with
  | zero => simp [isoWalkLoop] at hrun
  | succ fuel ih =>
    rw [isoWalkLoop] at hrun
    by_cases hin : off < lengthbytes
    case neg =>
      have hend : isoVisits dirbuffer lengthbytes off = [] := isoVisits_end (not_lt.mp hin)
      simp [IsoPaddingInside, isoRecords, hend]
    rw [if_pos hin] at hrun
    dsimp only at hrun
    by_cases hzero : isoLength dirbuffer off = 0
    · rw [if_pos hzero] at hrun
      by_cases haligned : off % isoSectorSize = 0
      · -- the walk stays where it is, and a shorter run ends with the same list
        rw [isoNext_of_aligned haligned, if_neg (not_le.mpr hin)] at hrun
        exact ih hrun
      · rw [isoNext_of_unaligned haligned] at hrun
        rw [isoRecords_padding hin hzero]
        have hhere : ∀ place ∈ isoVisits dirbuffer lengthbytes off, place = off ∨
            place ∈ isoVisits dirbuffer lengthbytes (nextSector off) := by
          intro place hplace
          rwa [isoVisits_padding hin hzero, List.mem_cons] at hplace
        by_cases hlast : lengthbytes ≤ nextSector off
        · have hend : isoVisits dirbuffer lengthbytes (nextSector off) = [] := isoVisits_end hlast
          refine ⟨fun place hplace _ => ?_, by simp [isoRecords, hend]⟩
          rcases hhere place hplace with rfl | hlater
          · exact haligned
          · exact absurd hlater (by simp [hend])
        · rw [if_neg hlast] at hrun
          obtain ⟨hpadding, hinside⟩ := ih hrun
          refine ⟨fun place hplace hplaceZero => ?_, hinside⟩
          rcases hhere place hplace with rfl | hlater
          · exact haligned
          · exact hpadding place hlater hplaceZero
    · rw [if_neg hzero] at hrun
      by_cases hcut : lengthbytes < off + isoLength dirbuffer off
      · have hend := isoVisits_cut hin hzero hcut
        simp [IsoPaddingInside, isoRecords, hend]
      · rw [if_neg hcut] at hrun
        have hfits := not_lt.mp hcut
        cases hadd : isoAddRecord joliet dirbuffer lengthbytes off (entrycount + 1) list with
        | none => simp [hadd] at hrun
        | some list' =>
          rw [hadd] at hrun
          obtain ⟨hpadding, hinside⟩ := ih hrun
          refine ⟨fun place hplace hplaceZero => ?_, ?_⟩
          · rw [isoVisits_record hin hzero hfits, List.mem_cons] at hplace
            rcases hplace with rfl | hlater
            · exact absurd hplaceZero hzero
            · exact hpadding place hlater hplaceZero
          · rw [isoRecords_record hin hzero hfits]
            by_cases hfirst : entrycount + 1 ≤ 2
            · rw [show 2 - entrycount = 2 - (entrycount + 1) + 1 by omega, List.drop_succ_cons]
              exact hinside
            · rw [show 2 - (entrycount + 1) = 0 by omega, List.drop_zero] at hinside
              rw [show 2 - entrycount = 0 by omega, List.drop_zero]
              intro place hplace
              rcases List.mem_cons.mp hplace with rfl | hlater
              · exact ((isoAddRecord_eq_some (by omega)).mp hadd).1
              · exact hinside place hlater

/-- A walk that meets no zero byte at the start of a sector, and whose records are read in the
array, ends with its records in the list. The induction is on what is left of the directory. -/
theorem exists_isoWalkLoop (hpadding : IsoPaddingInside dirbuffer lengthbytes off)
    (hinside : ∀ place ∈ (isoRecords dirbuffer lengthbytes off).drop (2 - entrycount),
      IsoInside joliet dirbuffer lengthbytes place) :
    ∃ fuel, isoWalkLoop joliet dirbuffer lengthbytes fuel off entrycount list =
      some (.listed (isoResult joliet dirbuffer lengthbytes off entrycount list)) := by
  induction hleft : lengthbytes - off using Nat.strong_induction_on
    generalizing off entrycount list with
  | _ left ih =>
  by_cases hin : off < lengthbytes
  case neg =>
    have hend : isoVisits dirbuffer lengthbytes off = [] := isoVisits_end (not_lt.mp hin)
    refine ⟨1, ?_⟩
    rw [isoWalkLoop, if_neg hin]
    simp [isoResult, isoRecords, hend]
  by_cases hzero : isoLength dirbuffer off = 0
  · have hvisits := isoVisits_padding hin hzero
    have haligned : off % isoSectorSize ≠ 0 :=
      hpadding off (by rw [hvisits]; exact List.mem_cons_self) hzero
    have hforward := lt_nextSector off
    rw [isoRecords_padding hin hzero] at hinside
    have hresult : isoResult joliet dirbuffer lengthbytes off entrycount list =
        isoResult joliet dirbuffer lengthbytes (nextSector off) entrycount list := by
      rw [isoResult, isoRecords_padding hin hzero]
      rfl
    by_cases hlast : lengthbytes ≤ nextSector off
    · have hend : isoVisits dirbuffer lengthbytes (nextSector off) = [] := isoVisits_end hlast
      refine ⟨1, ?_⟩
      rw [hresult, isoWalkLoop, if_pos hin]
      dsimp only
      rw [if_pos hzero, isoNext_of_unaligned haligned, if_pos hlast]
      simp [isoResult, isoRecords, hend]
    · obtain ⟨fuel, hrun⟩ := @ih (lengthbytes - nextSector off) (by omega) (nextSector off)
        entrycount list (fun place hplace => hpadding place (by
          rw [hvisits]
          exact List.mem_cons_of_mem off hplace)) hinside rfl
      exact ⟨fuel + 1, by
        rw [hresult, isoWalkLoop_padding hin hzero haligned (not_le.mp hlast), hrun]⟩
  · by_cases hcut : lengthbytes < off + isoLength dirbuffer off
    · have hend := isoVisits_cut hin hzero hcut
      refine ⟨1, ?_⟩
      rw [isoWalkLoop, if_pos hin]
      dsimp only
      rw [if_neg hzero, if_pos hcut]
      simp [isoResult, isoRecords, hend]
    · have hfits := not_lt.mp hcut
      have hvisits := isoVisits_record hin hzero hfits
      have hrecords := isoRecords_record hin hzero hfits
      -- the list behind the record, and the rest of the walk from it
      have hturn : ∃ list', isoAddRecord joliet dirbuffer lengthbytes off (entrycount + 1) list =
            some list' ∧
          isoResult joliet dirbuffer lengthbytes off entrycount list =
            isoResult joliet dirbuffer lengthbytes (off + isoLength dirbuffer off) (entrycount + 1)
              list' ∧
          ∀ place ∈ (isoRecords dirbuffer lengthbytes (off + isoLength dirbuffer off)).drop
            (2 - (entrycount + 1)), IsoInside joliet dirbuffer lengthbytes place := by
        by_cases hfirst : entrycount + 1 ≤ 2
        · have hdrop : 2 - entrycount = 2 - (entrycount + 1) + 1 := by omega
          rw [hrecords, hdrop, List.drop_succ_cons] at hinside
          refine ⟨list, isoAddRecord_first hfirst, ?_, hinside⟩
          rw [isoResult, hrecords, hdrop, List.drop_succ_cons]
          rfl
        · have hdrop : 2 - entrycount = 0 := by omega
          have hdropNext : 2 - (entrycount + 1) = 0 := by omega
          rw [hrecords, hdrop, List.drop_zero] at hinside
          refine ⟨_, (isoAddRecord_eq_some (by omega)).mpr
            ⟨hinside off List.mem_cons_self, rfl⟩, ?_, ?_⟩
          · rw [isoResult, isoResult, hrecords, hdrop, hdropNext, List.drop_zero, List.drop_zero]
            by_cases hshown : isoShown dirbuffer off = true
            · simp [hshown]
            · simp [hshown]
          · intro place hplace
            rw [hdropNext, List.drop_zero] at hplace
            exact hinside place (List.mem_cons_of_mem off hplace)
      obtain ⟨list', hadd, hresult, hinside'⟩ := hturn
      obtain ⟨fuel, hrun⟩ := @ih (lengthbytes - (off + isoLength dirbuffer off)) (by omega)
        (off + isoLength dirbuffer off) (entrycount + 1) list' (fun place hplace =>
          hpadding place (by
            rw [hvisits]
            exact List.mem_cons_of_mem off hplace)) hinside' rfl
      exact ⟨fuel + 1, by rw [isoWalkLoop_record hin hzero hfits hadd, hresult, hrun]⟩

end Walk

/-! ## The theorem -/

/-- A call ends with a list, without a read outside the array, and every well-formed record after
the first two is in the list, once. -/
def IsoLists (joliet : Bool) (dirbuffer : Buffer) (recorded : ℕ) : Prop :=
  let records := isoRecords dirbuffer (isoDirectoryLength recorded) 0
  ∃ fuel entries, isoParseDirectory joliet true dirbuffer recorded fuel = some (.listed entries) ∧
    ∃ shown : List ℕ, shown.Sublist (records.drop 2) ∧ shown.Nodup ∧
      (∀ place ∈ records.drop 2, IsoWellFormed dirbuffer place → place ∈ shown) ∧
      entries = (shown.map (isoEntry joliet dirbuffer)).reverse

theorem isoParseDirectory_accepted {joliet : Bool} {dirbuffer : Buffer} {recorded : ℕ}
    (haccepted : isoDirectoryLength recorded ≤ maxReasonableIsoDirSize) (fuel : ℕ) :
    isoParseDirectory joliet true dirbuffer recorded fuel =
      isoWalkLoop joliet dirbuffer (isoDirectoryLength recorded) fuel 0 0 [] := by
  simp only [isoParseDirectory, Bool.true_eq_false, if_false, if_neg (not_lt.mpr haccepted)]

/-- **Listing a directory.** For every content of a directory of an accepted length, the parser
ends, reads nothing outside its array and lists every well-formed record after the first two once,
if and only if no zero byte that the walk meets starts a sector, and of every record after the
first two the fixed fields and the name, as it is read, lie in the array. -/
theorem isoParseDirectory_lists_iff (joliet : Bool) (dirbuffer : Buffer) (recorded : ℕ)
    (haccepted : isoDirectoryLength recorded ≤ maxReasonableIsoDirSize) :
    IsoLists joliet dirbuffer recorded ↔
      IsoPaddingInside dirbuffer (isoDirectoryLength recorded) 0 ∧
        ∀ place ∈ (isoRecords dirbuffer (isoDirectoryLength recorded) 0).drop 2,
          IsoInside joliet dirbuffer (isoDirectoryLength recorded) place := by
  constructor
  · rintro ⟨fuel, entries, hrun, -⟩
    rw [isoParseDirectory_accepted haccepted] at hrun
    exact isoWalkLoop_listed hrun
  · rintro ⟨hpadding, hinside⟩
    obtain ⟨fuel, hrun⟩ := @exists_isoWalkLoop joliet dirbuffer (isoDirectoryLength recorded) 0 0 []
      hpadding hinside
    have hsub : ((isoRecords dirbuffer (isoDirectoryLength recorded) 0).drop 2).filter
        (isoShown dirbuffer) |>.Sublist
          ((isoRecords dirbuffer (isoDirectoryLength recorded) 0).drop 2) := List.filter_sublist
    have hnodup := isoRecords_nodup dirbuffer (isoDirectoryLength recorded)
    refine ⟨fuel, _, (isoParseDirectory_accepted haccepted fuel).trans hrun, _, hsub,
      (hsub.trans (List.drop_sublist 2 _)).nodup hnodup, ?_, ?_⟩
    · intro place hplace hformed
      exact List.mem_filter.mpr ⟨hplace, isoShown_of_wellFormed hformed⟩
    · rw [isoResult, List.append_nil]

/-! ## A directory that ends with a sector -/

/-- Three records of 34 bytes, the last with the name `A`, and zeros behind them. -/
def isoThreeRecords : Buffer := fun k =>
  if k = 0 ∨ k = 34 ∨ k = 68 then 34 else if k = 100 then 1 else if k = 101 then 0x41 else 0

theorem isoThreeRecords_visits {lengthbytes : ℕ} (hlong : 102 < lengthbytes) :
    isoVisits isoThreeRecords lengthbytes 0 =
      [0, 34, 68] ++ isoVisits isoThreeRecords lengthbytes 102 := by
  rw [isoVisits_record (by omega) (by decide) (show 0 + 34 ≤ lengthbytes by omega)]
  rw [show 0 + isoLength isoThreeRecords 0 = 34 by decide,
    isoVisits_record (by omega) (by decide) (show 34 + 34 ≤ lengthbytes by omega)]
  rw [show 34 + isoLength isoThreeRecords 34 = 68 by decide,
    isoVisits_record (by omega) (by decide) (show 68 + 34 ≤ lengthbytes by omega)]
  rfl

/-- In one sector the third record is listed. -/
theorem isoParseDirectory_lists_oneSector : IsoLists false isoThreeRecords 2048 := by
  have hvisits : isoVisits isoThreeRecords (isoDirectoryLength 2048) 0 = [0, 34, 68, 102] := by
    rw [isoThreeRecords_visits (by decide), isoVisits_padding (by decide) (by decide),
      isoVisits_end (by decide)]
    rfl
  apply (isoParseDirectory_lists_iff false isoThreeRecords 2048 (by decide)).mpr
  rw [IsoPaddingInside, isoRecords, hvisits]
  exact ⟨by decide, by unfold IsoInside; decide⟩

theorem isoWalkLoop_stuck {joliet : Bool} {dirbuffer : Buffer} {lengthbytes off entrycount : ℕ}
    {list : List IsoEntry} (hin : off < lengthbytes) (hzero : isoLength dirbuffer off = 0)
    (haligned : off % isoSectorSize = 0) (fuel : ℕ) :
    isoWalkLoop joliet dirbuffer lengthbytes fuel off entrycount list = none := by
  induction fuel with
  | zero => rfl
  | succ fuel ih =>
    rw [isoWalkLoop, if_pos hin]
    dsimp only
    rw [if_pos hzero, isoNext_of_aligned haligned, if_neg (not_le.mpr hin), ih]

/-- With a second sector, all zeros, the walk comes to its first byte and stays there: the parser
never ends. -/
theorem isoParseDirectory_emptySector :
    (∀ fuel, isoParseDirectory false true isoThreeRecords 4096 fuel = none) ∧
      ¬ IsoLists false isoThreeRecords 4096 := by
  have hnever : ∀ fuel, isoParseDirectory false true isoThreeRecords 4096 fuel = none := by
    intro fuel
    rcases fuel with _ | _ | _ | _ | fuel
    · rfl
    · rfl
    · rfl
    · rfl
    · rw [isoParseDirectory_accepted (by decide), show isoDirectoryLength 4096 = 4096 by decide,
        isoWalkLoop_record (by decide) (by decide) (by decide) (isoAddRecord_first (by decide)),
        isoWalkLoop_record (by decide) (by decide) (by decide) (isoAddRecord_first (by decide)),
        isoWalkLoop_record (by decide) (by decide) (by decide)
          ((isoAddRecord_eq_some (by decide)).mpr ⟨by unfold IsoInside; decide, rfl⟩),
        isoWalkLoop_padding (by decide) (by decide) (by decide) (by decide),
        isoWalkLoop_stuck (by decide) (by decide) (by decide)]
  refine ⟨hnever, ?_⟩
  rintro ⟨fuel, entries, hrun, -⟩
  rw [hnever fuel] at hrun
  exact absurd hrun (by simp)

end RetroRocket
