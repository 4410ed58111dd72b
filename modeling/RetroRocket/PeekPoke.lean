import RetroRocket.AddressSpan
import RetroRocket.LittleEndian
import RetroRocket.MirroredGrants

/-!
# PEEK and POKE

The functions and statements of `peekpoke.c` that read and write memory, which differ in their width
only. A program that runs under `MEMORY` reaches the bytes of the blocks that it holds and no
others, after every run of allocations and releases.
-/

namespace RetroRocket

open BasicMemory (hex16)

/-! ## The code -/

/-- What an access depends on; `restricted` is `is_restricted_len(ctx, "MEMORY", 6)`. -/
structure PeekCtx where
  entries : List MemmapEntry
  restricted : Bool
  grants : MemoryGrants
  bytes : Buffer

namespace PeekCtx

/-- `address_valid_read` or `address_valid_write` and then `memory_grants_contains`, with the
error. -/
def check (ctx : PeekCtx) (addr width : ℕ) (forWrite : Bool) : Option (Option String) := do
  if !(← addressValidSpan ctx.entries addr width forWrite) then
    some (some ("Bad Address at &" ++ hex16 addr))
  else if ctx.restricted then
    if ← ctx.grants.contains addr width then some none
    else some (some ("Bad address &" ++ hex16 addr))
  else some none

def peek (width : ℕ) (ctx : PeekCtx) (addr : ℕ) : Option (Except String ℕ) :=
  (ctx.check addr width false).map fun
    | some error => .error error
    | none => .ok (leValue ctx.bytes addr width)

def poke (width : ℕ) (ctx : PeekCtx) (addr val : ℕ) : Option (Except String PeekCtx) :=
  (ctx.check addr width true).map fun
    | some error => .error error
    | none => .ok { ctx with bytes := storeValue ctx.bytes addr width val }

def basicPeek := peek 1

def basicPeekw := peek 2

def basicPeekd := peek 4

def basicPeekq := peek 8

def pokeStatement := poke 1

def pokewStatement := poke 2

def pokedStatement := poke 4

def pokeqStatement := poke 8

/-! ## Accesses of a restricted program -/

variable {ctx : PeekCtx} {entries : List MemmapEntry} {addr width : ℕ} {blocks : List (ℕ × ℕ)}
  {m : BasicMemory} {bytes : Buffer}

/-- The span passes the map, and one of the blocks has all of it. -/
def Reaches (entries : List MemmapEntry) (blocks : List (ℕ × ℕ)) (addr width : ℕ)
    (forWrite : Bool) :
    Prop :=
  addressValidSpan entries addr width forWrite = some true ∧
    ∃ block ∈ blocks, block.1 ≤ addr ∧ addr + width ≤ block.1 + block.2

theorem exists_addressValidSpan (h : MapSound entries) (haddr : addr < 2 ^ 64)
    (hwidth : width < 2 ^ 64) (forWrite : Bool) :
    ∃ valid, addressValidSpan entries addr width forWrite = some valid ∧
      (valid = true → 1 ≤ width ∧ addr + width - 1 < 2 ^ 64) := by
  unfold addressValidSpan
  split
  · exact ⟨false, rfl, nofun⟩
  · next hgood =>
    obtain ⟨hpos, hfits⟩ := (spanOverflows_eq_false haddr hwidth).mp
      (Bool.eq_false_iff.mpr (not_or.mp hgood).2)
    split
    · exact ⟨false, rfl, nofun⟩
    · rw [u64_of_lt hfits]
      obtain ⟨b, hrun, -⟩ := h.spanLoop_spec forWrite
        (show addr + width - 1 < addr + width by omega) (by omega) hfits
      exact ⟨b, hrun, fun _ => ⟨hpos, hfits⟩⟩

theorem check_spec (hmap : MapSound entries) (haddr : addr < 2 ^ 64) (hwidth : width < 2 ^ 64)
    (hgrants : m.Grants blocks) (hpos : ∀ block ∈ blocks, 0 < block.2) (bytes : Buffer)
    (forWrite : Bool) :
    ∃ error, PeekCtx.check ⟨entries, true, m.grants, bytes⟩ addr width forWrite = some error ∧
      (error = none ↔ Reaches entries blocks addr width forWrite) := by
  obtain ⟨valid, hvalid, hfits⟩ := exists_addressValidSpan hmap haddr hwidth forWrite
  unfold check Reaches
  rw [hvalid]
  cases valid with
  | false => exact ⟨_, rfl, iff_of_false nofun fun h => absurd h.1 (by simp)⟩
  | true =>
    obtain ⟨hone, hend⟩ := hfits rfl
    obtain ⟨l, hl, hperm⟩ := hgrants
    obtain ⟨b, hcontains, hb⟩ := MemoryGrants.contains_spec hl hone hend
    have hiff : b = true ↔ ∃ block ∈ blocks, block.1 ≤ addr ∧ addr + width ≤ block.1 + block.2 := by
      rw [hb]
      constructor
      · rintro ⟨r, hr, hlow, hhigh⟩
        obtain ⟨block, hblock, rfl⟩ := List.mem_map.mp (hperm.mem_iff.mp hr)
        have := hpos block hblock
        simp only [BasicMemory.granted] at hlow hhigh
        exact ⟨block, hblock, hlow, by omega⟩
      · rintro ⟨block, hblock, hlow, hhigh⟩
        refine ⟨_, hperm.mem_iff.mpr (List.mem_map_of_mem hblock), hlow, ?_⟩
        simp only [BasicMemory.granted]
        omega
    simp only [Option.bind_eq_bind, Option.bind_some, Bool.not_true, Bool.false_eq_true, if_false,
      if_true, hcontains]
    cases b with
    | false => exact ⟨_, rfl, iff_of_false nofun fun h => absurd (hiff.mpr h.2) nofun⟩
    | true => exact ⟨none, rfl, iff_of_true rfl ⟨trivial, hiff.mp rfl⟩⟩

/-- After every run of allocations and releases a restricted program reads and writes the spans
inside one of its blocks and no others. A write is read back, and changes nothing outside of its
span. -/
theorem peek_poke_of_run (s : BuddyAllocator) {minOrder maxOrder growOrder : ℕ} {t : TrackedMemory}
    (hok : BuddyOrders minOrder maxOrder growOrder)
    (hrun : Run TrackedMemory.call (fun t e => t.Possible e ∧ t.Meets e)
      (TrackedMemory.start s minOrder maxOrder growOrder) t)
    (hmap : MapSound entries) (haddr : addr < 2 ^ 64) (hwidth : width < 2 ^ 64) (bytes : Buffer)
    (val : ℕ) :
    let ctx : PeekCtx := ⟨entries, true, t.memory.grants, bytes⟩
    ∃ read written, peek width ctx addr = some read ∧ poke width ctx addr val = some written ∧
      ((∃ v, read = .ok v) ↔ Reaches entries t.blocks addr width false) ∧
      ((∃ ctx', written = .ok ctx') ↔ Reaches entries t.blocks addr width true) ∧
      ∀ ctx', written = .ok ctx' →
        leValue ctx'.bytes addr width = val % 2 ^ (8 * width) ∧
          ∀ a, ctx'.bytes a ≠ bytes a → addr ≤ a ∧ a < addr + width := by
  have hmirrored : t.memory.Mirrored t.blocks t.others := by
    apply hrun.invariant (P := fun t => t.memory.Mirrored t.blocks t.others)
    · exact ⟨BuddySession.init_inv s hok, ⟨[], MemoryGrants.holds_init, List.Perm.refl _⟩, nofun⟩
    · exact fun h he => TrackedMemory.call_spec h he.1 he.2
  have hcheck := check_spec hmap haddr hwidth hmirrored.grants hmirrored.pos bytes
  intro ctx
  obtain ⟨readError, hread, hreadIff⟩ := hcheck false
  obtain ⟨writeError, hwrite, hwriteIff⟩ := hcheck true
  unfold peek poke
  rw [hread, hwrite, ← hreadIff, ← hwriteIff]
  refine ⟨_, _, rfl, rfl, ?_, ?_, fun ctx' hwritten => ?_⟩
  · cases readError <;> simp
  · cases writeError <;> simp
  · cases writeError with
    | some error => cases hwritten
    | none =>
      cases hwritten
      refine ⟨leValue_storeValue fun _ _ _ => rfl, fun a hchanged => ?_⟩
      by_contra hout
      exact hchanged (if_neg hout)

theorem peek_poke_of_run_oneGrant :
    ∃ ctx, poke 8 ⟨adjacentEntries, true, TrackedMemory.oneGrant.memory.grants, fun _ => 0⟩ 4128 7 =
      some (.ok ctx) ∧ leValue ctx.bytes 4128 8 = 7 := by
  have hallowed := And.intro TrackedMemory.oneGrant_possible TrackedMemory.oneGrant_meets
  have hrun :
      Run TrackedMemory.call (fun t e => t.Possible e ∧ t.Meets e) _ TrackedMemory.oneGrant :=
    Run.refl.next_step hallowed TrackedMemory.oneGrant_call
  have hblocks : TrackedMemory.oneGrant.blocks = [(4120, 100)] := by decide +kernel
  obtain ⟨-, written, -, hpoke, -, hiff, hlaw⟩ := peek_poke_of_run BuddySession.noAllocator
    ⟨by decide, by decide, by decide, by decide⟩ hrun adjacentEntries_sound
    (show 4128 < 2 ^ 64 by decide) (show 8 < 2 ^ 64 by decide) (fun _ => 0) 7
  have hspan : addressValidSpan adjacentEntries 4128 8 true = some true := by decide
  obtain ⟨ctx, rfl⟩ :=
    hiff.mpr ⟨hspan, (4120, 100), by rw [hblocks]; exact List.mem_singleton_self _,
    by decide, by decide⟩
  exact ⟨ctx, hpoke, (hlaw ctx rfl).1⟩

end PeekCtx

end RetroRocket
