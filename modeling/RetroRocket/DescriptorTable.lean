import Mathlib.Data.Finset.Card
import Mathlib.Data.Finset.Range
import RetroRocket.Bits
import RetroRocket.FileHandles

/-!
# The table of file descriptors

`alloc_filehandle` and `destroy_filehandle` of `filesystem.c`. A search for a free slot starts at
`fd_last`, below which there is none, so the slot that it finds is the lowest one that is free, and
the search does not come to the end of the table.
-/

namespace RetroRocket

/-- `fs_handle_t`, where a null pointer to a buffer is 0. -/
structure FdHandle (φ : Type) where
  type : HandleType
  file : φ
  seekpos : ℕ
  inbufsize : ℕ
  outbufsize : ℕ
  inbufpos : ℕ
  outbufpos : ℕ
  inbuf : ℕ
  outbuf : ℕ

/-- The arguments of `alloc_filehandle`. -/
structure FdRequest (φ : Type) where
  type : HandleType
  file : φ
  ibufsz : ℕ
  obufsz : ℕ

/-- What `kmalloc` returns for a handle and for its buffers. -/
structure FdMemory where
  handle : ℕ
  inbuf : ℕ
  outbuf : ℕ

structure FdTable (φ : Type) where
  fdLast : ℕ
  fdAlloc : ℕ
  filehandles : ℕ → Option (FdHandle φ)

inductive FdCall (φ : Type) where
  | alloc (request : FdRequest φ) (memory : FdMemory)
  | destroy (descriptor : ℕ)

namespace FdTable

variable {φ : Type}

def newHandle (request : FdRequest φ) (memory : FdMemory) : FdHandle φ where
  type := request.type
  file := request.file
  seekpos := 0
  inbufsize := request.ibufsz
  outbufsize := request.obufsz
  inbufpos := 0
  outbufpos := 0
  inbuf := if request.ibufsz ≠ 0 then memory.inbuf else 0
  outbuf := if request.obufsz ≠ 0 then memory.outbuf else 0

def allocLoop (request : FdRequest φ) (memory : FdMemory) : ℕ → FdTable φ → Option (ℤ × FdTable φ)
  | 0, s => some (-1, s)
  | iter + 1, s =>
    if fdMax ≤ s.fdLast then none
    else
      match s.filehandles s.fdLast with
      | none =>
        if memory.handle = 0 then some (-1, s)
        else
          some (s.fdLast,
            { fdLast := u32 (s.fdLast + 1)
              fdAlloc := u32 (s.fdAlloc + 1)
              filehandles :=
                Function.update s.filehandles s.fdLast (some (newHandle request memory)) })
      | some _ =>
        let last := u32 (s.fdLast + 1)
        allocLoop request memory iter { s with fdLast := if fdMax ≤ last then 0 else last }

def allocFilehandle (request : FdRequest φ) (memory : FdMemory) (s : FdTable φ) :
    Option (ℤ × FdTable φ) :=
  if fdMax ≤ s.fdAlloc then some (-1, s) else allocLoop request memory fdMax s

def destroyFilehandle (descriptor : ℕ) (s : FdTable φ) : ℕ × FdTable φ :=
  if fdMax ≤ descriptor ∨ s.filehandles descriptor = none then (0, s)
  else
    (1,
      { fdLast := if descriptor < s.fdLast then descriptor else s.fdLast
        fdAlloc := u32 (s.fdAlloc + (2 ^ 32 - 1))
        filehandles := Function.update s.filehandles descriptor none })

def call (s : FdTable φ) : FdCall φ → Option (FdTable φ)
  | .alloc request memory => (s.allocFilehandle request memory).map (·.2)
  | .destroy descriptor => some (s.destroyFilehandle descriptor).2

def empty (φ : Type) : FdTable φ := ⟨0, 0, fun _ => none⟩

def run (s : FdTable φ) (calls : List (FdCall φ)) : Option (FdTable φ) := calls.foldlM call s

/-! ## Descriptors in use -/

variable {s t : FdTable φ} {d e descriptor : ℕ} {request : FdRequest φ} {memory : FdMemory}

def Occupied (s : FdTable φ) (d : ℕ) : Prop := (s.filehandles d).isSome

instance (s : FdTable φ) (d : ℕ) : Decidable (s.Occupied d) :=
  inferInstanceAs (Decidable (_ = true))

def inUse (s : FdTable φ) : Finset ℕ := (Finset.range fdMax).filter s.Occupied

theorem mem_inUse : d ∈ s.inUse ↔ d < fdMax ∧ s.Occupied d := by
  rw [inUse, Finset.mem_filter, Finset.mem_range]

structure Inv (s : FdTable φ) : Prop where
  counted : s.fdAlloc = s.inUse.card
  below : ∀ d < s.fdLast, s.Occupied d
  last : s.fdLast ≤ fdMax

theorem card_inUse_le (s : FdTable φ) : s.inUse.card ≤ fdMax := by
  have hle := Finset.card_filter_le (Finset.range fdMax) s.Occupied
  rwa [Finset.card_range] at hle

theorem exists_free (h : s.inUse.card < fdMax) : ∃ d < fdMax, ¬ s.Occupied d := by
  by_contra hall
  have hsub : Finset.range fdMax ⊆ s.inUse := by
    intro d hd
    have hlt := Finset.mem_range.mp hd
    rw [mem_inUse]
    exact ⟨hlt, by_contra fun hfree => hall ⟨d, hlt, hfree⟩⟩
  have hle := Finset.card_le_card hsub
  rw [Finset.card_range] at hle
  omega

def LowestFree (s : FdTable φ) (d : ℕ) : Prop := d < fdMax ∧ ¬ s.Occupied d ∧ ∀ e < d, s.Occupied e

def withHandle (s : FdTable φ) (d : ℕ) (request : FdRequest φ) (memory : FdMemory) : FdTable φ where
  fdLast := d + 1
  fdAlloc := u32 (s.fdAlloc + 1)
  filehandles := Function.update s.filehandles d (some (newHandle request memory))

/-- The search comes to the lowest descriptor that is free, on a way that does not leave the
table. -/
theorem allocLoop_spec {iter : ℕ} (hbelow : ∀ d < s.fdLast, s.Occupied d) (hfree : s.LowestFree d)
    (hiter : d < iter + s.fdLast) :
    allocLoop request memory iter s =
      some (if memory.handle = 0 then (-1, { s with fdLast := d })
        else ((d : ℤ), s.withHandle d request memory)) := by
  obtain ⟨hlt, hnot, hlowest⟩ := hfree
  have hle : s.fdLast ≤ d := Nat.le_of_not_lt fun h => hnot (hbelow d h)
  induction iter generalizing s with
  | zero => omega
  | succ iter ih =>
    rw [allocLoop, if_neg (by omega)]
    by_cases hfound : s.fdLast = d
    · subst hfound
      have hnone : s.filehandles s.fdLast = none := Option.not_isSome_iff_eq_none.mp hnot
      have hlast : u32 (s.fdLast + 1) = s.fdLast + 1 := u32_of_lt (by unfold fdMax at hlt; omega)
      rw [hnone, hlast]
      dsimp only
      split
      · rfl
      · rfl
    · obtain ⟨handle, hsome⟩ := Option.isSome_iff_exists.mp (hlowest s.fdLast (by omega))
      have hlast : u32 (s.fdLast + 1) = s.fdLast + 1 := u32_of_lt (by unfold fdMax at hlt; omega)
      rw [hsome, hlast]
      dsimp only
      rw [if_neg (by omega)]
      have hstep : ∀ e < s.fdLast + 1, s.Occupied e := fun e he => hlowest e (by omega)
      exact @ih { s with fdLast := s.fdLast + 1 } hstep (by dsimp only; omega) hnot hlowest
        (by dsimp only; omega)

theorem exists_lowestFree (h : s.inUse.card < fdMax) : ∃ d, s.LowestFree d := by
  obtain ⟨d, hlt, hfree⟩ := exists_free h
  have hex : ∃ d, ¬ s.Occupied d := ⟨d, hfree⟩
  refine ⟨Nat.find hex, ?_, Nat.find_spec hex, fun e he => not_not.mp (Nat.find_min hex he)⟩
  exact (Nat.find_min' hex hfree).trans_lt hlt

theorem allocFilehandle_spec (h : s.Inv) (request : FdRequest φ) (memory : FdMemory) :
    (s.inUse.card = fdMax ∧ s.allocFilehandle request memory = some (-1, s)) ∨
      ∃ d, s.LowestFree d ∧ s.inUse.card < fdMax ∧ s.allocFilehandle request memory =
        some (if memory.handle = 0 then (-1, { s with fdLast := d })
          else ((d : ℤ), s.withHandle d request memory)) := by
  have hle := s.card_inUse_le
  have hcounted := h.counted
  by_cases hfull : s.inUse.card = fdMax
  · left
    exact ⟨hfull, if_pos (by omega)⟩
  · right
    obtain ⟨d, hd⟩ := exists_lowestFree (show s.inUse.card < fdMax by omega)
    refine ⟨d, hd, by omega, ?_⟩
    rw [allocFilehandle, if_neg (by omega)]
    have hlt := hd.1
    exact allocLoop_spec h.below hd (by omega)

/-! ## Runs -/

theorem inUse_withHandle (hd : d < fdMax) (request : FdRequest φ) (memory : FdMemory) :
    (s.withHandle d request memory).inUse = insert d s.inUse := by
  ext e
  rw [Finset.mem_insert, mem_inUse, mem_inUse, Occupied, Occupied, withHandle]
  dsimp only
  by_cases he : e = d
  · subst he
    rw [Function.update_self]
    exact iff_of_true ⟨hd, rfl⟩ (Or.inl rfl)
  · rw [Function.update_of_ne he]
    exact (or_iff_right he).symm

theorem Inv.withHandle (h : s.Inv) (hd : s.LowestFree d) (request : FdRequest φ)
    (memory : FdMemory) : (s.withHandle d request memory).Inv := by
  have hnew : d ∉ s.inUse := fun hmem => hd.2.1 (mem_inUse.mp hmem).2
  have hle := s.card_inUse_le
  refine ⟨?_, fun e he => ?_, hd.1⟩
  · rw [inUse_withHandle hd.1, Finset.card_insert_of_notMem hnew, ← h.counted]
    exact u32_of_lt (by rw [h.counted]; unfold fdMax at hle; omega)
  · rw [Occupied, FdTable.withHandle]
    dsimp only
    by_cases heq : e = d
    · rw [heq, Function.update_self]
      rfl
    · rw [Function.update_of_ne heq]
      have hlt : e < d + 1 := he
      exact hd.2.2 e (by omega)

theorem Inv.alloc (h : s.Inv) (request : FdRequest φ) (memory : FdMemory) :
    ∃ r, s.allocFilehandle request memory = some r ∧ r.2.Inv := by
  rcases allocFilehandle_spec h request memory with ⟨-, hrun⟩ | ⟨d, hd, -, hrun⟩
  · exact ⟨_, hrun, h⟩
  · refine ⟨_, hrun, ?_⟩
    split
    · exact ⟨h.counted, hd.2.2, hd.1.le⟩
    · exact h.withHandle hd request memory

theorem Inv.destroy (h : s.Inv) (descriptor : ℕ) : (s.destroyFilehandle descriptor).2.Inv := by
  rw [destroyFilehandle]
  split
  · exact h
  · next hvalid =>
    rw [not_or] at hvalid
    obtain ⟨hlt, hsome⟩ := hvalid
    have hmem : descriptor ∈ s.inUse :=
      mem_inUse.mpr ⟨Nat.lt_of_not_le hlt, Option.isSome_iff_ne_none.mpr hsome⟩
    have hpos := Finset.card_pos.mpr ⟨descriptor, hmem⟩
    have hle := s.card_inUse_le
    have hcounted := h.counted
    have hoccupied : ∀ e, Occupied { s with
        fdLast := if descriptor < s.fdLast then descriptor else s.fdLast
        fdAlloc := u32 (s.fdAlloc + (2 ^ 32 - 1))
        filehandles := Function.update s.filehandles descriptor none } e ↔
          e ≠ descriptor ∧ s.Occupied e := by
      intro e
      rw [Occupied, Occupied]
      dsimp only
      by_cases he : e = descriptor
      · rw [he, Function.update_self]
        exact iff_of_false nofun fun h => h.1 rfl
      · rw [Function.update_of_ne he]
        exact (and_iff_right he).symm
    have herase : inUse { s with
        fdLast := if descriptor < s.fdLast then descriptor else s.fdLast
        fdAlloc := u32 (s.fdAlloc + (2 ^ 32 - 1))
        filehandles := Function.update s.filehandles descriptor none } = s.inUse.erase
            descriptor := by
      ext e
      rw [Finset.mem_erase, mem_inUse, mem_inUse, hoccupied]
      exact and_left_comm
    refine ⟨?_, fun e he => (hoccupied e).mpr ?_, ?_⟩
    · rw [herase, Finset.card_erase_of_mem hmem]
      dsimp only
      unfold u32 fdMax at *
      omega
    · dsimp only at he
      split at he
      · exact ⟨by omega, h.below e (by omega)⟩
      · exact ⟨by omega, h.below e he⟩
    · have hlast := h.last
      dsimp only
      split
      · omega
      · exact hlast

theorem Inv.call (h : s.Inv) (c : FdCall φ) : ∃ t, s.call c = some t ∧ t.Inv := by
  cases c with
  | alloc request memory =>
    obtain ⟨r, hrun, hr⟩ := h.alloc request memory
    exact ⟨r.2, by rw [FdTable.call, hrun, Option.map_some], hr⟩
  | destroy descriptor => exact ⟨_, rfl, h.destroy descriptor⟩

theorem empty_inv (φ : Type) : (empty φ).Inv := by
  have hnone : (empty φ).inUse = ∅ := by
    ext d
    rw [mem_inUse]
    exact iff_of_false (fun h => absurd h.2 nofun) (Finset.notMem_empty d)
  exact ⟨by rw [hnone]; rfl, fun d hd => absurd hd (Nat.not_lt_zero d), Nat.zero_le _⟩

theorem Inv.run (h : s.Inv) (calls : List (FdCall φ)) : ∃ t, s.run calls = some t ∧ t.Inv := by
  induction calls generalizing s with
  | nil => exact ⟨s, rfl, h⟩
  | cons c calls ih =>
    obtain ⟨t, hcall, ht⟩ := h.call c
    obtain ⟨u, hrun, hu⟩ := ih ht
    refine ⟨u, ?_, hu⟩
    rw [FdTable.run, List.foldlM_cons, hcall]
    exact hrun

/-- The counter counts the descriptors in use, those below the hint are in use, and an allocation
gives the lowest descriptor that is not, unless all are in use or there is no memory for the
handle. -/
structure Law (s : FdTable φ) : Prop where
  counted : s.fdAlloc = s.inUse.card
  below : ∀ d < s.fdLast, s.Occupied d
  alloc : ∀ request memory, ∃ r t, s.allocFilehandle request memory = some (r, t) ∧
    (r = -1 ↔ s.inUse.card = fdMax ∨ memory.handle = 0) ∧
    (r = -1 → t.filehandles = s.filehandles) ∧
    (r ≠ -1 → ∃ d, s.LowestFree d ∧ r = d ∧
      t.filehandles = Function.update s.filehandles d (some (newHandle request memory)))

theorem Inv.law (h : s.Inv) : s.Law := by
  refine ⟨h.counted, h.below, fun request memory => ?_⟩
  rcases allocFilehandle_spec h request memory with ⟨hfull, hrun⟩ | ⟨d, hd, hlt, hrun⟩
  · exact ⟨-1, s, hrun, iff_of_true rfl (Or.inl hfull), fun _ => rfl, fun hne => absurd rfl hne⟩
  · by_cases hmemory : memory.handle = 0
    · rw [if_pos hmemory] at hrun
      exact ⟨-1, _, hrun, iff_of_true rfl (Or.inr hmemory), fun _ => rfl, fun hne => absurd rfl hne⟩
    · rw [if_neg hmemory] at hrun
      refine ⟨d, _, hrun, iff_of_false (by omega) ?_, fun hneg => absurd hneg (by omega),
        fun _ => ⟨d, hd, rfl, rfl⟩⟩
      rintro (hfull | hnull)
      · omega
      · exact hmemory hnull

/-- Every run of allocations and releases stays inside of the table and ends in a table that keeps
the law. -/
theorem lawful_of_calls (calls : List (FdCall φ)) : ∃ s, (empty φ).run calls = some s ∧ s.Law := by
  obtain ⟨s, hrun, h⟩ := (empty_inv φ).run calls
  exact ⟨s, hrun, h.law⟩

/-- Without memory for the handle an allocation fails, although no descriptor is in use. -/
theorem alloc_fails_empty : ¬ ∀ (calls : List (FdCall ℕ)) (s : FdTable ℕ) (request : FdRequest ℕ)
    (memory : FdMemory), (empty ℕ).run calls = some s →
      (((s.allocFilehandle request memory).map (·.1) = some (-1)) ↔ s.inUse.card = fdMax) := by
  intro h
  have hiff := h [] (empty ℕ) ⟨.fileInput, 0, 0, 0⟩ ⟨0, 0, 0⟩ rfl
  have hfails :
    ((empty ℕ).allocFilehandle ⟨.fileInput, 0, 0, 0⟩ ⟨0, 0, 0⟩).map (·.1) = some (-1) := rfl
  have hcount := (empty_inv ℕ).counted
  rw [hiff.mp hfails] at hcount
  cases hcount

end FdTable

end RetroRocket
