import RetroRocket.UdfDirectory
import Mathlib.Algebra.BigOperators.Group.List.Basic

/-!
# What the parser of a UDF directory lists

The parser reads the directory inside its buffer whatever it holds; only the copy of an embedded
directory can leave the block of the file entry. The names it gives are too short: the decoder
takes the last byte of a field for the number of bytes in use, and an identifier has no such byte.
-/

namespace RetroRocket

/-! ## Reads -/

section Reads

variable {fs : UdfVolume} {dir : Buffer} {dirSize offset : ℕ} {list : List UdfEntry}

theorem udfNameReads_le (dir : Buffer) (src len : ℕ) : udfNameReads dir src len ≤ len := by
  unfold udfNameReads
  dsimp only
  split_ifs with hlen hout h8 h16 <;> omega

theorem fidLength_ge (dir : Buffer) (off : ℕ) :
    fidSize + fidImplLength dir off + fidNameLength dir off ≤ fidLength dir off := by
  unfold fidLength
  omega

theorem udfName_inside (hfits : offset + fidLength dir offset ≤ dirSize) :
    ¬ dirSize < offset + fidSize + fidImplLength dir offset +
      udfNameReads dir (offset + fidSize + fidImplLength dir offset)
        (fidNameLength dir offset) := by
  have hlength := fidLength_ge dir offset
  have hreads := udfNameReads_le dir (offset + fidSize + fidImplLength dir offset)
    (fidNameLength dir offset)
  omega

theorem udfFidLoop_fid (htag : be16 dir offset = tagFileIdentifier)
    (hfits : offset + fidLength dir offset ≤ dirSize) (fuel : ℕ) :
    udfFidLoop fs dir dirSize (fuel + 1) offset list =
      udfFidLoop fs dir dirSize fuel (offset + fidLength dir offset)
        ((if fidListed dir offset then [udfFidEntry fs dir offset] else []) ++ list) := by
  have hlength := fidLength_ge dir offset
  rw [udfFidLoop, if_pos (by omega), if_neg (not_not.mpr htag), if_neg (not_lt.mpr hfits)]
  by_cases hlisted : fidListed dir offset = true
  · rw [if_pos hlisted, if_neg (udfName_inside hfits), if_pos hlisted]
    rfl
  · rw [if_neg hlisted, if_neg hlisted]
    rfl

theorem udfFidLoop_stop
    (hstop : ¬ (be16 dir offset = tagFileIdentifier ∧ offset + fidLength dir offset ≤ dirSize))
    (fuel : ℕ) : udfFidLoop fs dir dirSize (fuel + 1) offset list = .listed list := by
  rw [udfFidLoop]
  by_cases hroom : offset + fidSize ≤ dirSize
  · rw [if_pos hroom]
    by_cases htag : be16 dir offset = tagFileIdentifier
    · rw [if_neg (not_not.mpr htag), if_pos (not_le.mp fun hfits => hstop ⟨htag, hfits⟩)]
    · rw [if_pos htag]
  · rw [if_neg hroom]

theorem udfFidLoop_inside (fuel : ℕ) :
    udfFidLoop fs dir dirSize fuel offset list ≠ .overrun := by
  induction fuel generalizing offset list with
  | zero => simp [udfFidLoop]
  | succ fuel ih =>
    by_cases hturn : be16 dir offset = tagFileIdentifier ∧
        offset + fidLength dir offset ≤ dirSize
    · rw [udfFidLoop_fid hturn.1 hturn.2]
      exact ih
    · rw [udfFidLoop_stop hturn]
      simp

end Reads

/-! ## Directories made of descriptors -/

/-- A file identifier descriptor: its identifier is a compression id, 8 or 16, and the characters
of an ASCII name, in one byte each or in two. -/
structure UdfFid where
  characteristics : Byte
  implLen : ℕ
  wide : Bool
  name : List Byte
  part : ℕ
  lba : ℕ
  name_ascii : ∀ c ∈ name, c ≠ 0 ∧ c.toNat < 128

namespace UdfFid

def live (fid : UdfFid) : Bool :=
  !isDeletedChar fid.characteristics && !isParentChar fid.characteristics

def identifier (fid : UdfFid) : List Byte :=
  if fid.wide then 16 :: fid.name.flatMap fun c => [0, c] else 8 :: fid.name

theorem identifier_length (fid : UdfFid) :
    fid.identifier.length = 1 + (if fid.wide then 2 else 1) * fid.name.length := by
  unfold identifier
  cases fid.wide with
  | true => simp [List.length_flatMap, Nat.add_comm, Nat.mul_comm]
  | false => simp [Nat.add_comm]

end UdfFid

/-- The bytes from `off` on are a descriptor. The identifier of one that is deleted or the parent
may be any. -/
structure FidAt (dir : Buffer) (off : ℕ) (fid : UdfFid) : Prop where
  tag : be16 dir off = tagFileIdentifier
  characteristics : fidCharacteristics dir off = fid.characteristics
  implLen : fidImplLength dir off = fid.implLen
  part : be16 dir (off + 30) = fid.part
  lba : be32 dir (off + 26) = fid.lba
  nameLength : fid.live = true → fidNameLength dir off = fid.identifier.length
  identifier : fid.live = true → ∀ i < fid.identifier.length,
    dir (off + fidSize + fid.implLen + i) = fid.identifier.getD i 0

/-- The bytes from `off` to the end of the directory are descriptors, each padded to a multiple of
four bytes. -/
inductive UdfFids (dir : Buffer) (dirSize : ℕ) : ℕ → List UdfFid → Prop
  | done : UdfFids dir dirSize dirSize []
  | fid {off : ℕ} {fid : UdfFid} {rest : List UdfFid} (hfid : FidAt dir off fid)
      (hfits : off + fidLength dir off ≤ dirSize)
      (hrest : UdfFids dir dirSize (off + fidLength dir off) rest) :
      UdfFids dir dirSize off (fid :: rest)

section Names

variable {fs : UdfVolume} {dir : Buffer} {dirSize off : ℕ} {fid : UdfFid}

def ShortName (fid : UdfFid) (entry : UdfEntry) : Prop :=
  entry.lbapos = udfPackIcb fid.part fid.lba ∧ entry.filename.length ≤ fid.name.length ∧
    (fid.name ≠ [] → entry.filename.length < fid.name.length)

theorem udfDecodeName_length {src len n : ℕ} (hid : dir src = 8 ∧ len = 1 + n ∨
    dir src = 16 ∧ len = 1 + 2 * n) :
    (udfDecodeName dir src len).length ≤ n ∧
      (0 < n → (udfDecodeName dir src len).length < n) := by
  unfold udfDecodeName
  dsimp only
  generalize udfOutlen dir src len = outlen
  rcases hid with ⟨hbyte, hlen⟩ | ⟨hbyte, hlen⟩
  · rw [if_neg (by omega), hbyte]
    by_cases hout : outlen = 0 ∨ len - 1 < outlen
    · rw [if_pos hout]
      exact ⟨Nat.zero_le n, id⟩
    · rw [if_neg hout, if_pos rfl, List.length_map, List.length_range]
      omega
  · rw [if_neg (by omega), hbyte]
    by_cases hout : outlen = 0 ∨ len - 1 < outlen
    · rw [if_pos hout]
      exact ⟨Nat.zero_le n, id⟩
    · rw [if_neg hout, if_neg (by decide), if_pos rfl, List.length_map, List.length_range]
      omega

theorem udfChildEntry_filename (name : List Byte) (characteristics : Byte) (part lba : ℕ) :
    (udfChildEntry fs name characteristics part lba).filename = name := by
  unfold udfChildEntry
  cases udfReadFileEntry fs part lba with
  | none => rfl
  | some child => rfl

theorem udfChildEntry_lbapos (name : List Byte) (characteristics : Byte) (part lba : ℕ) :
    (udfChildEntry fs name characteristics part lba).lbapos = udfPackIcb part lba := by
  unfold udfChildEntry
  cases udfReadFileEntry fs part lba with
  | none => rfl
  | some child => rfl

theorem shortName_of_fidAt (hfid : FidAt dir off fid) (hlive : fid.live = true) :
    ShortName fid (udfFidEntry fs dir off) := by
  have hlength := hfid.nameLength hlive
  have hfirst := hfid.identifier hlive 0 (by rw [fid.identifier_length]; omega)
  rw [fid.identifier_length] at hlength
  have hid : dir (off + fidSize + fidImplLength dir off) = 8 ∧
        fidNameLength dir off = 1 + fid.name.length ∨
      dir (off + fidSize + fidImplLength dir off) = 16 ∧
        fidNameLength dir off = 1 + 2 * fid.name.length := by
    rw [hfid.implLen]
    rw [Nat.add_zero] at hfirst
    rw [hfirst, hlength]
    unfold UdfFid.identifier
    cases fid.wide with
    | true => right; simp
    | false => left; simp
  obtain ⟨hle, hlt⟩ := udfDecodeName_length hid
  refine ⟨?_, ?_, fun hne => ?_⟩
  · rw [udfFidEntry, udfChildEntry_lbapos, hfid.part, hfid.lba]
  · rwa [udfFidEntry, udfChildEntry_filename]
  · rw [udfFidEntry, udfChildEntry_filename]
    exact hlt (List.length_pos_of_ne_nil hne)

theorem fidListed_eq_live (hfid : FidAt dir off fid) (hlive : fid.live = true) :
    fidListed dir off = true := by
  have hlength := hfid.nameLength hlive
  rw [fid.identifier_length] at hlength
  unfold UdfFid.live at hlive
  unfold fidListed
  rw [hfid.characteristics, hlive]
  simp only [Bool.true_and, bne_iff_ne]
  omega

theorem fidListed_of_not_live (hfid : FidAt dir off fid) (hlive : fid.live = false) :
    fidListed dir off = false := by
  unfold UdfFid.live at hlive
  unfold fidListed
  rw [hfid.characteristics, hlive, Bool.false_and]

/-- A directory made of descriptors is listed with one entry for each live one, all with short
names. The induction is on the descriptors. -/
theorem udfFidLoop_fids {offset fuel : ℕ} {fids : List UdfFid} {list : List UdfEntry}
    (hfids : UdfFids dir dirSize offset fids) (henough : dirSize < offset + fuel) :
    ∃ entries, udfFidLoop fs dir dirSize fuel offset list = .listed (entries.reverse ++ list) ∧
      List.Forall₂ ShortName (fids.filter UdfFid.live) entries := by
  induction hfids generalizing fuel list with
  | done =>
    obtain ⟨fuel, rfl⟩ := Nat.exists_eq_succ_of_ne_zero (show fuel ≠ 0 by omega)
    refine ⟨[], udfFidLoop_stop (fun hturn => ?_) fuel, .nil⟩
    have hlength := fidLength_ge dir dirSize
    simp only [fidSize] at hlength
    omega
  | @fid off fid rest hfid hfits hrest ih =>
    obtain ⟨fuel, rfl⟩ := Nat.exists_eq_succ_of_ne_zero (show fuel ≠ 0 by omega)
    have hlength := fidLength_ge dir off
    simp only [fidSize] at hlength
    rw [udfFidLoop_fid hfid.tag hfits]
    cases hlive : fid.live with
    | true =>
      rw [if_pos (fidListed_eq_live hfid hlive), List.filter_cons_of_pos hlive]
      obtain ⟨entries, hrun, hshort⟩ := @ih fuel ([udfFidEntry fs dir off] ++ list) (by omega)
      refine ⟨udfFidEntry fs dir off :: entries, ?_, .cons (shortName_of_fidAt hfid hlive) hshort⟩
      rw [hrun]
      simp
    | false =>
      rw [if_neg (by simp [fidListed_of_not_live hfid hlive]),
        List.filter_cons_of_neg (by simp [hlive]), List.nil_append]
      exact ih (by omega)

end Names

/-! ## The theorem -/

def UdfEntry.shown (entry : UdfEntry) : List Byte × ℕ := (entry.filename, entry.lbapos)

def UdfFid.shown (fid : UdfFid) : List Byte × ℕ := (fid.name, udfPackIcb fid.part fid.lba)

theorem shown_of_shortNames {fids : List UdfFid} {entries : List UdfEntry}
    (hshort : List.Forall₂ ShortName fids entries) (hempty : ∀ fid ∈ fids, fid.name = []) :
    entries.map UdfEntry.shown = fids.map UdfFid.shown := by
  induction hshort with
  | nil => rfl
  | @cons fid entry fids entries hname hrest ih =>
    obtain ⟨hplace, hle, -⟩ := hname
    have hfid := hempty fid List.mem_cons_self
    rw [hfid, List.length_nil, Nat.le_zero, List.length_eq_zero_iff] at hle
    rw [List.map_cons, List.map_cons, ih fun other hother =>
      hempty other (List.mem_cons_of_mem fid hother), UdfEntry.shown, UdfFid.shown,
        hplace, hle, hfid]

theorem shortNames_sum {fids : List UdfFid} {entries : List UdfEntry}
    (hshort : List.Forall₂ ShortName fids entries) :
    (entries.map fun entry => entry.filename.length).sum ≤
        (fids.map fun fid => fid.name.length).sum ∧
      ((entries.map fun entry => entry.filename.length).sum =
        (fids.map fun fid => fid.name.length).sum → ∀ fid ∈ fids, fid.name = []) := by
  induction hshort with
  | nil => simp
  | @cons fid entry fids entries hname hrest ih =>
    obtain ⟨-, hle, hlt⟩ := hname
    obtain ⟨hsum, hequal⟩ := ih
    simp only [List.map_cons, List.sum_cons]
    refine ⟨by omega, fun hsame other hother => ?_⟩
    have hfid : fid.name = [] := by
      by_contra hne
      have := hlt hne
      omega
    rcases List.mem_cons.mp hother with rfl | hlater
    · exact hfid
    · exact hequal (by omega) other hlater

/-- A call reads only inside the block of the file entry and inside the directory buffer, and lists
of a directory made of descriptors every live one, once and under its name. -/
def UdfDirectoryRight (fs : UdfVolume) (part icbLba : ℕ) (heap : Buffer) : Prop :=
  udfParseDirectory fs part icbLba heap ≠ .overrun ∧
    ∀ dirSize dirdata fids, udfDirectoryData fs part icbLba heap = .filled dirSize dirdata →
      UdfFids dirdata dirSize 0 fids →
      ∃ entries, udfParseDirectory fs part icbLba heap = .listed entries ∧
        (entries.map UdfEntry.shown).Perm ((fids.filter UdfFid.live).map UdfFid.shown)

def EmbeddedFits (fs : UdfVolume) (part icbLba : ℕ) : Prop :=
  ∀ entry, udfReadFileEntry fs part icbLba = some entry → udfDirectoryAccepted entry = true →
    (udfFileHeader entry).adType = adInIcb →
    (udfFileHeader entry).ads + (udfFileHeader entry).informationLength ≤ udfBlockSize

section Top

variable {fs : UdfVolume} {part icbLba : ℕ} {heap : Buffer}

theorem udfDirectoryData_overrun_iff :
    udfDirectoryData fs part icbLba heap = .overrun ↔ ¬ EmbeddedFits fs part icbLba := by
  unfold udfDirectoryData EmbeddedFits
  cases udfReadFileEntry fs part icbLba with
  | none => simp
  | some entry =>
    simp only [Option.some.injEq, forall_eq']
    by_cases haccepted : udfDirectoryAccepted entry = true
    · rw [if_pos haccepted]
      by_cases hkind : (udfFileHeader entry).adType = adInIcb
      · rw [if_pos hkind]
        by_cases hlong : udfBlockSize <
            (udfFileHeader entry).ads + (udfFileHeader entry).informationLength
        · rw [if_pos hlong]
          simp [haccepted, hkind, hlong]
        · rw [if_neg hlong]
          simp [not_lt.mp hlong]
      · rw [if_neg hkind]
        cases udfReadFileData fs part icbLba (wholeDirectory entry) fun k => some (heap k) with
        | none => simp [hkind]
        | some dirdata => simp [hkind]
    · simp [haccepted]

theorem udfParseDirectory_overrun_iff :
    udfParseDirectory fs part icbLba heap = .overrun ↔ ¬ EmbeddedFits fs part icbLba := by
  rw [← @udfDirectoryData_overrun_iff fs part icbLba heap]
  unfold udfParseDirectory
  cases udfDirectoryData fs part icbLba heap with
  | failed => simp
  | overrun => simp
  | filled dirSize dirdata => simp [udfFidLoop_inside]

end Top

/-- **Listing a directory.** For every volume, every directory and every content of the heap, the
parser reads only inside its buffers and lists the live descriptors of a directory made of
descriptors, once each and under their names, if and only if an embedded directory fits in the
block of its file entry, and all live descriptors have the empty name. -/
theorem udfParseDirectory_right_iff (fs : UdfVolume) (part icbLba : ℕ) (heap : Buffer) :
    UdfDirectoryRight fs part icbLba heap ↔
      EmbeddedFits fs part icbLba ∧
        ∀ dirSize dirdata fids, udfDirectoryData fs part icbLba heap = .filled dirSize dirdata →
          UdfFids dirdata dirSize 0 fids → ∀ fid ∈ fids.filter UdfFid.live, fid.name = [] := by
  have hfits : udfParseDirectory fs part icbLba heap ≠ .overrun ↔ EmbeddedFits fs part icbLba := by
    rw [ne_eq, udfParseDirectory_overrun_iff, not_not]
  refine and_congr hfits ?_
  apply forall_congr'
  intro dirSize
  apply forall_congr'
  intro dirdata
  apply forall_congr'
  intro fids
  apply imp_congr_right
  intro hdata
  apply imp_congr_right
  intro hfids
  obtain ⟨entries, hrun, hshort⟩ := @udfFidLoop_fids fs dirdata dirSize 0 (dirSize + 1) fids []
    hfids (by omega)
  have hparse : udfParseDirectory fs part icbLba heap = .listed entries.reverse := by
    simp only [udfParseDirectory, hdata, hrun, List.append_nil]
  rw [hparse]
  constructor
  · rintro ⟨listed, hlisted, hperm⟩
    obtain rfl := UdfListing.listed.inj hlisted
    have hlengths := (hperm.map fun shown => shown.1.length).sum_eq
    rw [List.map_map, List.map_map, List.map_reverse, List.sum_reverse] at hlengths
    exact (shortNames_sum hshort).2 hlengths
  · intro hempty
    refine ⟨entries.reverse, rfl, ?_⟩
    rw [← shown_of_shortNames hshort hempty]
    exact entries.reverse_perm.map _

/-! ## A directory with one file -/

/-- The bytes other than 0 of a file entry with an embedded directory of one descriptor, whose
identifier is the 8-bit name `A`. -/
def namedEntry : List (ℕ × Byte) :=
  [(0, 1), (1, 5), (27, 4), (33, 3), (61, 40), (173, 40), (174, 1), (175, 1), (193, 2), (203, 5),
    (212, 8), (213, 0x41)]

theorem namedDevice_blockSize_pos : 0 < udfBlockSize := by decide

def namedVolume : UdfVolume :=
  ⟨⟨udfBlockSize, namedDevice_blockSize_pos,
    fun a => (namedEntry.find? fun field => field.1 == a).elim 0 Prod.snd, fun _ _ => true⟩, rfl,
    [⟨0, 0⟩]⟩

def namedDirectory : Buffer :=
  fun k => if k < 40 then namedVolume.blockBytes (namedVolume.blockNumber 0 0) (174 + k) else 0

theorem namedFid_ascii : ∀ c ∈ [(0x41 : Byte)], c ≠ 0 ∧ c.toNat < 128 := by decide

def namedFid : UdfFid := ⟨0, 0, false, [0x41], 0, 5, namedFid_ascii⟩

theorem namedVolume_data :
    udfDirectoryData namedVolume 0 0 (fun _ => 0) = .filled 40 namedDirectory := by
  have hread := @udfReadFileEntry_served namedVolume 0 0 (fun _ _ => rfl) (by decide)
    (by decide +kernel)
  have hsize : (udfFileHeader (namedVolume.blockBytes
      (namedVolume.blockNumber 0 0))).informationLength = 40 := by decide +kernel
  have hads : (udfFileHeader (namedVolume.blockBytes
      (namedVolume.blockNumber 0 0))).ads = 174 := by decide +kernel
  rw [udfDirectoryData, hread]
  dsimp only
  rw [if_pos (by decide +kernel), if_pos (by decide +kernel), if_neg (by decide +kernel), hsize,
    hads]
  rfl

theorem namedDirectory_fids : UdfFids namedDirectory 40 0 [namedFid] := by
  have hend : 0 + fidLength namedDirectory 0 = 40 := by decide +kernel
  refine .fid ⟨?_, ?_, ?_, ?_, ?_, ?_, ?_⟩ (le_of_eq hend) (by rw [hend]; exact .done)
  · decide +kernel
  · decide +kernel
  · decide +kernel
  · decide +kernel
  · decide +kernel
  · decide +kernel
  · decide +kernel

def UdfListing.names : UdfListing → List (List Byte)
  | .listed entries => entries.map UdfEntry.filename
  | _ => []

/-- The file `A` is listed under the empty name. -/
theorem udfParseDirectory_named :
    (udfParseDirectory namedVolume 0 0 fun _ => 0).names = [[]] ∧
      ¬ UdfDirectoryRight namedVolume 0 0 fun _ => 0 := by
  have hnames : (udfParseDirectory namedVolume 0 0 fun _ => 0).names = [[]] := by
    decide +kernel
  refine ⟨hnames, ?_⟩
  rintro ⟨-, hlists⟩
  obtain ⟨entries, hlisted, hperm⟩ := hlists 40 namedDirectory [namedFid] namedVolume_data
    namedDirectory_fids
  rw [hlisted] at hnames
  have hnamed := hperm.map Prod.fst
  rw [List.map_map] at hnamed
  have hsame : [[]].Perm [[(0x41 : Byte)]] := by
    rw [← show entries.map UdfEntry.filename = [[]] from hnames]
    exact hnamed
  exact absurd (List.singleton_perm_singleton.mp hsame) (by decide)

end RetroRocket
