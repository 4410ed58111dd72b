import RetroRocket.BlockCache

/-!
# Coherence of the block cache

What the cache holds for a sector is what is on the device. A write reaches the device first and
then the cache, one sector after the other, so a write that runs out of memory between two sectors
leaves old data in the cache for those behind.
-/

namespace RetroRocket

variable {α : Type}

namespace BlockCache

variable {c c' : BlockCache α} {lba start : ℕ} {seg : α} {m : SectorMemory α} {src : ℕ → α}
  {memory : ℕ → SectorMemory α}

/-! ## What the steps leave in the cache -/

def Sub (c' c : BlockCache α) : Prop := ∀ l d, c'.entries l = some d → c.entries l = some d

theorem Sub.refl (c : BlockCache α) : c.Sub c := fun _ _ h => h

theorem Sub.trans {c'' : BlockCache α} (h : c''.Sub c') (h' : c'.Sub c) : c''.Sub c :=
  fun l d hl => h' l d (h l d hl)

theorem lruTouch_entries (c : BlockCache α) (lba : ℕ) (node : Bool) :
    (c.lruTouch lba node).entries = c.entries := by
  unfold lruTouch
  split <;> rfl

theorem sub_evictScan (c : BlockCache α) (queue : List ℕ) : (c.evictScan queue).Sub c := by
  induction queue with
  | nil => exact fun _ _ h => h
  | cons lba rest ih =>
    unfold evictScan
    split
    · intro l d h
      change Function.update c.entries lba none l = some d at h
      by_cases heq : l = lba
      · rw [heq, Function.update_self] at h
        cases h
      · rwa [Function.update_of_ne heq] at h
    · exact ih

theorem sub_makeRoom {fuel : ℕ} (h : c.makeRoom fuel = some c') : c'.Sub c := by
  induction fuel generalizing c with
  | zero => cases h
  | succ fuel ih =>
    unfold makeRoom at h
    split at h
    · exact (ih h).trans (sub_evictScan _ _)
    · cases h
      exact Sub.refl _

theorem length_evictScan (c : BlockCache α) (queue : List ℕ) :
    (c.evictScan queue).lru.length ≤ queue.length - 1 := by
  induction queue with
  | nil => exact Nat.le_refl _
  | cons lba rest ih =>
    unfold evictScan
    split
    · exact Nat.le_refl _
    · exact Nat.le_trans ih (Nat.sub_le _ _)

theorem cap_evictScan (c : BlockCache α) (queue : List ℕ) : (c.evictScan queue).cap = c.cap := by
  induction queue with
  | nil => rfl
  | cons lba rest ih =>
    unfold evictScan
    split
    · rfl
    · exact ih

theorem entries_of_storeSector (h : c.storeSector lba seg m = some (c', true)) {l : ℕ} {d : α}
    (hl : c'.entries l = some d) : (l = lba ∧ d = seg) ∨ (l ≠ lba ∧ c.entries l = some d) := by
  have hset : ∀ {b : BlockCache α} {node : Bool}, b.Sub c →
      ((b.setEntry lba (some seg)).lruTouch lba node).entries l = some d →
      (l = lba ∧ d = seg) ∨ (l ≠ lba ∧ c.entries l = some d) := by
    intro b node hsub hl
    rw [lruTouch_entries] at hl
    change Function.update b.entries lba (some seg) l = some d at hl
    by_cases heq : l = lba
    · rw [heq, Function.update_self] at hl
      exact Or.inl ⟨heq, (Option.some.inj hl).symm⟩
    · rw [Function.update_of_ne heq] at hl
      exact Or.inr ⟨heq, hsub l d hl⟩
  unfold storeSector at h
  split at h
  · cases h
    exact hset (Sub.refl c) hl
  · obtain ⟨b, hroom, h⟩ := Option.bind_eq_some_iff.mp h
    split at h
    · cases h
    · split at h
      · cases h
        exact hset (sub_makeRoom hroom) hl
      · cases h

/-- A sector that could not be stored was not in the cache, and leaves the other entries alone if
the deletion of its own moved none of them. -/
theorem sub_of_storeSector (h : c.storeSector lba seg m = some (c', false))
    (hmoved : m.buffer → m.grow → m.moved = none) : c'.Sub c ∧ c'.entries lba = none := by
  unfold storeSector at h
  split at h
  · cases h
  · next hnot =>
    have hnone : c.entries lba = none := by simpa using hnot
    have hsub : ∀ {b : BlockCache α}, b.Sub c → b.entries lba = none := by
      intro b hb
      cases hentry : b.entries lba with
      | none => rfl
      | some d =>
        rw [hb lba d hentry] at hnone
        cases hnone
    obtain ⟨b, hroom, h⟩ := Option.bind_eq_some_iff.mp h
    have hb := sub_makeRoom hroom
    split at h
    · cases h
      exact ⟨hb, hsub hb⟩
    · next hmemory =>
      split at h
      · cases h
      · cases h
        have hnone' : m.moved = none := by
          apply hmoved <;> · simp at hmemory; tauto
        unfold rollBack
        rw [hnone']
        exact ⟨hb, hsub hb⟩

/-! ## The loop over the sectors -/

/-- Where the loop of `block_cache_write` gives up, the deletion of an entry has moved no other one,
and what is `harmless` to leave out holds of the cache and of the sectors that are left. -/
def StopsWell (harmless : ℕ → ℕ → BlockCache α → Prop) (start : ℕ) (src : ℕ → α)
    (memory : ℕ → SectorMemory α) : ℕ → ℕ → BlockCache α → Prop
  | 0, _, _ => True
  | k + 1, i, c =>
    match c.storeSector ((start + i) % 2 ^ 64) (src i) (memory i) with
    | none => True
    | some (c', true) => StopsWell harmless start src memory k (i + 1) c'
    | some (c', false) =>
      ((memory i).buffer → (memory i).grow → (memory i).moved = none) ∧ harmless k (i + 1) c'

theorem writeLoop_entries {new : ℕ → α} {harmless : ℕ → ℕ → BlockCache α → Prop} {k i : ℕ}
    (pending : ℕ → ℕ → ℕ → Prop)
    (hdone : ∀ i l, ¬ pending 0 i l)
    (hnext : ∀ k i l, pending (k + 1) i l → l = (start + i) % 2 ^ 64 ∨ pending k (i + 1) l)
    (hharmless : ∀ k i c l, harmless k i c → pending k i l → c.entries l = none)
    (hsrc : ∀ j, i ≤ j → j < i + k → src j = new ((start + j) % 2 ^ 64))
    (hentries : ∀ l d, c.entries l = some d → d = new l ∨ pending k i l)
    (hstops : StopsWell harmless start src memory k i c)
    (h : writeLoop start src memory k i c = some c') :
    ∀ l d, c'.entries l = some d → d = new l := by
  induction k generalizing i c with
  | zero =>
    cases h
    exact fun l d hl => (hentries l d hl).resolve_right (hdone i l)
  | succ k ih =>
    unfold writeLoop at h
    unfold StopsWell at hstops
    obtain ⟨⟨b, more⟩, hstore, h⟩ := Option.bind_eq_some_iff.mp h
    rw [hstore] at hstops
    cases more with
    | true =>
      refine ih (fun j hj hlt => hsrc j (by omega) (by omega)) ?_ hstops h
      intro l d hl
      rcases entries_of_storeSector hstore hl with ⟨rfl, rfl⟩ | ⟨hne, hold⟩
      · exact Or.inl (hsrc i (Nat.le_refl _) (by omega))
      · rcases hentries l d hold with hnew | hpending
        · exact Or.inl hnew
        · exact Or.inr ((hnext k i l hpending).resolve_left hne)
    | false =>
      cases h
      obtain ⟨hsub, hnone⟩ := sub_of_storeSector hstore hstops.1
      intro l d hl
      rcases hentries l d (hsub l d hl) with hnew | hpending
      · exact hnew
      · rcases hnext k i l hpending with rfl | hlater
        · rw [hnone] at hl
          cases hl
        · rw [hharmless k (i + 1) _ l hstops.2 hlater] at hl
          cases hl

theorem cap_lruTouch (c : BlockCache α) (lba : ℕ) (node : Bool) :
    (c.lruTouch lba node).cap = c.cap := by
  unfold lruTouch
  split <;> rfl

/-! ## Reading -/

theorem readLoop_spec {nodes : ℕ → Bool} {k i : ℕ} {out : ℕ → α} {out' : ℕ → α} {hit : Bool}
    (h : readLoop start nodes k i c out = (c', out', hit)) :
    c'.entries = c.entries ∧ c'.cap = c.cap ∧ (hit → ∀ j, i ≤ j → j < i + k →
      c.entries ((start + j) % 2 ^ 64) = some (out' j)) ∧ ∀ j < i, out' j = out j := by
  induction k generalizing i c out with
  | zero =>
    cases h
    exact ⟨rfl, rfl, fun _ j hj hlt => absurd hlt (by omega), fun _ _ => rfl⟩
  | succ k ih =>
    unfold readLoop at h
    split at h
    · cases h
      exact ⟨rfl, rfl, fun h => Bool.noConfusion h, fun _ _ => rfl⟩
    · next data hentry =>
      obtain ⟨hentries, hcap, hdata, hbefore⟩ := ih h
      rw [lruTouch_entries] at hentries hdata
      refine ⟨hentries, ?_, fun hhit j hj hlt => ?_, fun j hj => ?_⟩
      · rw [hcap]
        unfold lruTouch
        split <;> rfl
      · by_cases heq : j = i
        · rw [heq, hbefore i (Nat.lt_succ_self i), Function.update_self]
          exact hentry
        · exact hdata hhit j (by omega) (by omega)
      · rw [hbefore j (by omega), Function.update_of_ne (by omega)]

end BlockCache

/-! ## Reads and writes of the device -/

namespace StorageDevice

open BlockCache

variable {s t : StorageDevice α} {start n : ℕ} {out src : ℕ → α} {io : Bool} {nodes : ℕ → Bool}
  {memory : ℕ → SectorMemory α}

def Coherent (s : StorageDevice α) : Prop := ∀ l d, s.cache.entries l = some d → d = s.sectors l

def NoneCached (start k i : ℕ) (c : BlockCache α) : Prop :=
  ∀ j < k, c.entries ((start + (i + j)) % 2 ^ 64) = none

/-- A length of zero is one sector for the driver, as it is for the cache. Where the cache gives up
on a sector for want of memory, no later sector of a write is in the cache, and the deletion of the
entry that could not be kept does not move another one. -/
def Allowed (s : StorageDevice α) : Call α → Prop
  | .read start n out io nodes memory => s.transferred n = sectorsForLen n ∧
      ∀ c out' hit data, s.cache.read s.size start n nodes out = (c, out', hit) →
        s.blockread start n io out' = some data →
        StopsWell (fun _ _ _ => True) start data memory (sectorsForLen n) 0 c
  | .write start n src io memory => s.transferred n = sectorsForLen n ∧
      ((s.blockwrite start n io src).isSome →
        StopsWell (NoneCached start) start src memory (sectorsForLen n) 0 s.cache)

theorem blockread_spec {data : ℕ → α} (h : s.blockread start n io out = some data) :
    start + s.transferred n ≤ s.size ∧ ∀ i < s.transferred n, data i = s.sectors (start + i) := by
  unfold blockread at h
  split at h
  · next hio =>
    cases h
    exact ⟨hio.2, fun i hi => if_pos hi⟩
  · cases h

theorem readStorageDevice_spec {data : Option (ℕ → α)} (hcoherent : s.Coherent)
    (hallowed : s.Allowed (.read start n out io nodes memory))
    (h : s.readStorageDevice start n out io nodes memory = some (t, data)) :
    t.Coherent ∧ t.sectors = s.sectors ∧ ∀ d, data = some d →
      ∀ i < s.transferred n, d i = s.sectors ((start + i) % 2 ^ 64) := by
  obtain ⟨hlength, hstops⟩ := hallowed
  unfold readStorageDevice at h
  rcases hread : s.cache.read s.size start n nodes out with ⟨c, out', hit⟩
  rw [hread] at h
  dsimp only at h
  have hcache : c.entries = s.cache.entries ∧ (hit → ∀ i < s.transferred n,
      s.cache.entries ((start + i) % 2 ^ 64) = some (out' i)) := by
    unfold BlockCache.read at hread
    split at hread
    · cases hread
      exact ⟨rfl, fun h => Bool.noConfusion h⟩
    · obtain ⟨hentries, -, hdata, -⟩ := readLoop_spec hread
      refine ⟨hentries, fun hhit i hi => hdata hhit i (Nat.zero_le i) ?_⟩
      rw [hlength] at hi
      omega
  obtain ⟨hentries, hdata⟩ := hcache
  have hcoherent' : ∀ l d, c.entries l = some d → d = s.sectors l := by
    rw [hentries]
    exact hcoherent
  split at h
  · next hhit =>
    cases h
    exact ⟨hcoherent', rfl, fun d hd i hi => by cases hd; exact hcoherent _ _ (hdata hhit i hi)⟩
  · split at h
    · cases h
      exact ⟨hcoherent', rfl, fun d hd => by cases hd⟩
    · next data' hblock =>
      obtain ⟨c', hwrite, h⟩ := Option.bind_eq_some_iff.mp h
      cases h
      obtain ⟨hrange, hsectors⟩ :
          start + s.transferred n ≤ s.size ∧ ∀ i < s.transferred n,
              data' i = s.sectors (start + i) :=
        blockread_spec hblock
      have hsize := s.size_lt
      have hmod : ∀ i < s.transferred n, (start + i) % 2 ^ 64 = start + i := fun i hi =>
        Nat.mod_eq_of_lt (by omega)
      refine ⟨?_, rfl, fun d hd i hi => ?_⟩
      · unfold BlockCache.write at hwrite
        split at hwrite
        · cases hwrite
          exact hcoherent'
        · refine writeLoop_entries (fun _ _ _ => False) (fun _ _ h => h)
            (fun _ _ _ h => h.elim) (fun _ _ _ _ _ h => h.elim) (fun j _ hj => ?_)
            (fun l d hl => Or.inl (hcoherent' l d hl)) (hstops c out' hit data' hread hblock) hwrite
          rw [Nat.zero_add, ← hlength] at hj
          rw [hmod j hj]
          exact hsectors j hj
      · cases hd
        rw [hmod i hi]
        exact hsectors i hi

theorem blockwrite_spec (h : s.blockwrite start n io src = some t) :
    start + s.transferred n ≤ s.size ∧ t.cache = s.cache ∧ t.size = s.size ∧
      (∀ i < s.transferred n, t.sectors (start + i) = src i) ∧
      ∀ l, (l < start ∨ start + s.transferred n ≤ l) → t.sectors l = s.sectors l := by
  unfold blockwrite at h
  split at h
  · next hio =>
    cases h
    refine ⟨hio.2, rfl, rfl, fun i hi => ?_, fun l hl => ?_⟩
    · dsimp only
      rw [if_pos (by omega), Nat.add_sub_cancel_left]
    · dsimp only
      rw [if_neg (by omega)]
  · cases h

theorem writeStorageDevice_coherent (hcoherent : s.Coherent)
    (hallowed : s.Allowed (.write start n src io memory))
    (h : s.writeStorageDevice start n src io memory = some t) : t.Coherent := by
  obtain ⟨hlength, hstops⟩ := hallowed
  unfold writeStorageDevice at h
  split at h
  · cases h
    exact hcoherent
  · next u hblock =>
    obtain ⟨c', hwrite, h⟩ := Option.bind_eq_some_iff.mp h
    cases h
    obtain ⟨hrange, hcache, hsize', hnew, hold⟩ := blockwrite_spec hblock
    have hsize := s.size_lt
    have hmod : ∀ i < s.transferred n, (start + i) % 2 ^ 64 = start + i := fun i hi =>
      Nat.mod_eq_of_lt (by omega)
    rw [hcache, hsize'] at hwrite
    unfold BlockCache.write at hwrite
    split at hwrite
    · next hout =>
      rw [← hlength, Nat.mod_eq_of_lt (by omega)] at hout
      omega
    · refine writeLoop_entries
        (fun k i l => ∃ j < k, l = (start + (i + j)) % 2 ^ 64) ?_ ?_ ?_ ?_ ?_
        (hstops (by rw [hblock]; rfl)) hwrite
      · rintro i l ⟨j, hj, -⟩
        exact absurd hj (Nat.not_lt_zero j)
      · rintro k i l ⟨j, hj, rfl⟩
        cases j with
        | zero => exact Or.inl rfl
        | succ j => exact Or.inr ⟨j, by omega, by rw [Nat.add_right_comm, Nat.add_assoc]⟩
      · rintro k i c l hnone ⟨j, hj, rfl⟩
        exact hnone j hj
      · intro j _ hj
        rw [Nat.zero_add, ← hlength] at hj
        rw [hmod j hj]
        exact (hnew j hj).symm
      · intro l d hl
        by_cases hin : start ≤ l ∧ l < start + s.transferred n
        · right
          refine ⟨l - start, by rw [← hlength]; omega, ?_⟩
          rw [Nat.zero_add, Nat.add_sub_cancel' hin.1, Nat.mod_eq_of_lt (by omega)]
        · left
          rw [hold l (by omega)]
          exact hcoherent l d hl

theorem coherent_of_empty (h : ∀ l, s.cache.entries l = none) : s.Coherent := by
  intro l d hl
  rw [h] at hl
  cases hl

/-- In every run whose calls are allowed, the cache stays coherent, and every read that succeeds has
read what is on the device. -/
theorem coherent_of_run (hempty : ∀ l, s.cache.entries l = none) (hrun : Run call Allowed s t) :
    t.Coherent ∧ ∀ start n out io nodes memory u d,
      t.Allowed (.read start n out io nodes memory) →
      t.readStorageDevice start n out io nodes memory = some (u, some d) →
      ∀ i < t.transferred n, d i = t.sectors ((start + i) % 2 ^ 64) := by
  have hcoherent : t.Coherent := by
    apply hrun.preserved (P := Coherent) (coherent_of_empty hempty)
    intro t u c ht hallowed hcall
    cases c with
    | read start n out io nodes memory =>
      obtain ⟨⟨u', d⟩, hread, rfl⟩ := Option.map_eq_some_iff.mp hcall
      exact (readStorageDevice_spec ht hallowed hread).1
    | write start n src io memory => exact writeStorageDevice_coherent ht hallowed hcall
  exact ⟨hcoherent, fun start n out io nodes memory u d hallowed hread =>
    (readStorageDevice_spec hcoherent hallowed hread).2.2 d rfl⟩

/-! ## A device of zeros -/

def plenty : SectorMemory ℕ := ⟨true, true, true, none⟩

def zeros : StorageDevice ℕ := ⟨fun _ => 0, 4, by decide, 0, ⟨fun _ => none, [], 8192⟩⟩

def readOne : Call ℕ := .read 1 1 (fun _ => 9) true (fun _ => true) fun _ => plenty

def writeTwo : Call ℕ := .write 0 2 (fun _ => 7) true fun _ => ⟨false, true, true, none⟩

def writeOne : Call ℕ := .write 1 1 (fun _ => 7) true fun _ => plenty

/-- A sector is read, and then written in the cache and on the device. -/
theorem coherent_of_run_written :
    ∃ t u, call zeros readOne = some t ∧ call t writeOne = some u ∧ u.Coherent := by
  refine ⟨_, _, rfl, rfl, ?_⟩
  have hallowed : zeros.Allowed readOne := by
    refine ⟨rfl, ?_⟩
    rintro c out' hit data hread hblock
    cases hread
    exact trivial
  have hwritten : (Run.next call zeros readOne).Allowed writeOne := ⟨rfl, fun _ => trivial⟩
  exact (coherent_of_run (fun _ => rfl) (.step (.step .refl hallowed rfl) hwritten rfl)).1

/-- A write that runs out of memory leaves an old sector in the cache, and a read returns it. -/
theorem stale_read : ∃ t u d, Run call (fun _ _ => True) zeros t ∧
    t.readStorageDevice 1 1 (fun _ => 9) true (fun _ => true) (fun _ => plenty) = some (u, some d) ∧
    d 0 ≠ t.sectors 1 := by
  refine ⟨_, _, _, .step (.step .refl trivial (c := readOne) rfl) trivial (c := writeTwo) rfl, rfl,
    ?_⟩
  decide

end StorageDevice

end RetroRocket
