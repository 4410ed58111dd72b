import RetroRocket.CacheCoherence
import Mathlib.Data.Set.Card

/-!
# How large the block cache grows

A sector is cached with a node in the queue, and a node is put there by every later hit. Room is
made only for a new sector, by the number of nodes, so the sectors stay below the capacity, and the
nodes do as long as no hit comes when there are enough of them. `lru_count` is the length of the
queue, up to `2 ^ 32`.
-/

namespace RetroRocket

variable {α : Type}

namespace BlockCache

/-- `block_cache_create`. -/
def create (cap : ℕ) : BlockCache α := ⟨fun _ => none, [], cap⟩

/-- What `block_cache_read` does with one sector. -/
def loadSector (c : BlockCache α) (lba : ℕ) (node : Bool) : BlockCache α :=
  if (c.entries lba).isSome then c.lruTouch lba node else c

/-- The loop of `block_cache_invalidate`. -/
def evictAll : ℕ → BlockCache α → Option (BlockCache α)
  | 0, _ => none
  | fuel + 1, c => if 0 < c.lru.length then evictAll fuel c.evictOne else some c

inductive Access (α : Type) where
  | load (lba : ℕ) (node : Bool)
  | store (lba : ℕ) (seg : α) (m : SectorMemory α)
  | invalidate

def access (c : BlockCache α) : Access α → Option (BlockCache α)
  | .load lba node => some (c.loadSector lba node)
  | .store lba seg m => (c.storeSector lba seg m).map (·.1)
  | .invalidate => evictAll (c.lru.length + 1) c

variable {c c' : BlockCache α} {lba l : ℕ} {seg : α} {m : SectorMemory α} {node : Bool} {bound : ℕ}

/-! ## The calls are made of such accesses -/

theorem readLoop_run (start : ℕ) (nodes : ℕ → Bool) (k i : ℕ) (out : ℕ → α) {s : BlockCache α}
    (h : Run access (fun _ _ => True) s c) :
    Run access (fun _ _ => True) s (readLoop start nodes k i c out).1 := by
  induction k generalizing i c out with
  | zero => exact h
  | succ k ih =>
    unfold readLoop
    cases hentry : c.entries ((start + i) % 2 ^ 64) with
    | none => exact h
    | some data =>
      apply ih
      apply h.step (c := .load ((start + i) % 2 ^ 64) (nodes i)) trivial
      rw [access, loadSector, hentry]
      rfl

theorem writeLoop_run {start : ℕ} {src : ℕ → α} {memory : ℕ → SectorMemory α} {k i : ℕ}
    {s : BlockCache α} (h : Run access (fun _ _ => True) s c)
    (hwrite : writeLoop start src memory k i c = some c') : Run access (fun _ _ => True) s c' := by
  induction k generalizing i c with
  | zero =>
    cases hwrite
    exact h
  | succ k ih =>
    obtain ⟨⟨b, more⟩, hstore, hwrite⟩ := Option.bind_eq_some_iff.mp hwrite
    have hrun : Run access (fun _ _ => True) s b := by
      apply h.step (c := .store ((start + i) % 2 ^ 64) (src i) (memory i)) trivial
      rw [access, hstore]
      rfl
    cases more with
    | true => exact ih hrun hwrite
    | false =>
      cases hwrite
      exact hrun

theorem read_run (size start n : ℕ) (nodes : ℕ → Bool) (out : ℕ → α) :
    Run access (fun _ _ => True) c (c.read size start n nodes out).1 := by
  unfold read
  split
  · exact Run.refl
  · exact readLoop_run start nodes _ 0 out Run.refl

theorem write_run {size start n : ℕ} {src : ℕ → α} {memory : ℕ → SectorMemory α}
    (h : c.write size start n src memory = some c') : Run access (fun _ _ => True) c c' := by
  unfold write at h
  split at h
  · cases h
    exact Run.refl
  · exact writeLoop_run Run.refl h

/-! ## Every cached sector has a node -/

def cached (c : BlockCache α) : Set ℕ := { l | (c.entries l).isSome }

structure Listed (c : BlockCache α) : Prop where
  nodes : ∀ l ∈ c.cached, l ∈ c.lru
  count : c.cached.encard ≤ c.cap

theorem listed_create (cap : ℕ) : (create cap : BlockCache α).Listed := by
  constructor
  case nodes => exact fun l hl => absurd hl Bool.false_ne_true
  case count =>
    have hempty : (create cap : BlockCache α).cached = ∅ :=
      Set.eq_empty_of_forall_notMem fun l hl => absurd hl Bool.false_ne_true
    rw [hempty, Set.encard_empty]
    exact bot_le

theorem encard_cached_le (h : ∀ l ∈ c.cached, l ∈ c.lru) : c.cached.encard ≤ c.lru.length := by
  have hsub : c.cached ⊆ (c.lru.toFinset : Set ℕ) := fun l hl => List.mem_toFinset.mpr (h l hl)
  calc
    c.cached.encard ≤ (c.lru.toFinset : Set ℕ).encard := Set.encard_le_encard hsub
    _ = c.lru.toFinset.card := Set.encard_coe_eq_coe_finsetCard _
    _ ≤ c.lru.length := Nat.cast_le.mpr (List.toFinset_card_le _)

theorem cached_setEntry_some (c : BlockCache α) (lba : ℕ) (seg : α) :
    (c.setEntry lba (some seg)).cached = insert lba c.cached := by
  ext l
  change (Function.update c.entries lba (some seg) l).isSome ↔ _
  by_cases hl : l = lba
  · rw [hl, Function.update_self]
    exact ⟨fun _ => Set.mem_insert _ _, fun _ => rfl⟩
  · rw [Function.update_of_ne hl]
    exact ⟨fun h => Set.mem_insert_of_mem lba h, fun h => h.resolve_left hl⟩

theorem cached_lruTouch (c : BlockCache α) (lba : ℕ) (node : Bool) :
    (c.lruTouch lba node).cached = c.cached := by
  rw [cached, lruTouch_entries]
  rfl

theorem length_lruTouch (c : BlockCache α) (lba : ℕ) (node : Bool) :
    (c.lruTouch lba node).lru.length = c.lru.length + node.toNat := by
  cases node with
  | true => exact List.length_append
  | false => rfl

theorem mem_lruTouch (hl : l ∈ c.lru) (lba : ℕ) (node : Bool) : l ∈ (c.lruTouch lba node).lru := by
  cases node with
  | true => exact List.mem_append_left _ hl
  | false => exact hl

theorem Listed.lruTouch (h : c.Listed) (lba : ℕ) (node : Bool) : (c.lruTouch lba node).Listed := by
  constructor
  case nodes =>
    intro l hl
    rw [cached_lruTouch] at hl
    exact mem_lruTouch (h.nodes l hl) lba node
  case count =>
    rw [cached_lruTouch, cap_lruTouch]
    exact h.count

theorem cached_setEntry_of_mem (hl : lba ∈ c.cached) (seg : α) :
    (c.setEntry lba (some seg)).cached = c.cached := by
  rw [cached_setEntry_some]
  exact Set.insert_eq_of_mem hl

theorem Listed.setEntry_of_mem (h : c.Listed) (hl : lba ∈ c.cached) (seg : α) :
    (c.setEntry lba (some seg)).Listed := by
  constructor
  case nodes =>
    rw [cached_setEntry_of_mem hl]
    exact h.nodes
  case count =>
    rw [cached_setEntry_of_mem hl]
    exact h.count

theorem Listed.insert (h : c.Listed) (hroom : c.lru.length < c.cap) (lba : ℕ) (seg : α) :
    ((c.setEntry lba (some seg)).lruTouch lba true).Listed := by
  constructor
  case nodes =>
    intro l hl
    rw [cached_lruTouch, cached_setEntry_some] at hl
    cases hl with
    | inl heq => exact List.mem_append_right _ (List.mem_singleton.mpr heq)
    | inr hl => exact List.mem_append_left _ (h.nodes l hl)
  case count =>
    rw [cached_lruTouch, cached_setEntry_some]
    calc
      (Insert.insert lba c.cached).encard ≤ c.cached.encard + 1 := Set.encard_insert_le _ _
      _ ≤ c.lru.length + 1 := add_le_add_left (encard_cached_le h.nodes) 1
      _ ≤ c.cap := by exact_mod_cast hroom

/-! ## Eviction -/

theorem cached_subset (h : c'.Sub c) : c'.cached ⊆ c.cached := by
  intro l hl
  obtain ⟨d, hd⟩ := Option.isSome_iff_exists.mp hl
  exact Option.isSome_iff_exists.mpr ⟨d, h l d hd⟩

theorem nodes_evictScan (c : BlockCache α) {queue : List ℕ} (h : ∀ l ∈ c.cached, l ∈ queue) :
    ∀ l ∈ (c.evictScan queue).cached, l ∈ (c.evictScan queue).lru := by
  induction queue with
  | nil => exact h
  | cons lba rest ih =>
    unfold evictScan
    split
    · intro l hl
      change (Function.update c.entries lba none l).isSome at hl
      by_cases heq : l = lba
      · rw [heq, Function.update_self] at hl
        cases hl
      · rw [Function.update_of_ne heq] at hl
        exact List.mem_of_ne_of_mem heq (h l hl)
    · next hstale =>
      apply ih
      intro l hl
      apply List.mem_of_ne_of_mem _ (h l hl)
      rintro rfl
      exact hstale hl

theorem Listed.evictOne (h : c.Listed) : c.evictOne.Listed := by
  constructor
  case nodes => exact nodes_evictScan c h.nodes
  case count =>
    have hcap : c.evictOne.cap = c.cap := cap_evictScan c c.lru
    rw [hcap]
    exact (Set.encard_le_encard (cached_subset (sub_evictScan c c.lru))).trans h.count

theorem length_evictOne (c : BlockCache α) : c.evictOne.lru.length ≤ c.lru.length :=
  (length_evictScan c c.lru).trans (Nat.sub_le _ _)

theorem Listed.makeRoom {fuel : ℕ} (h : c.Listed) (hroom : c.makeRoom fuel = some c') :
    c'.Listed ∧ c'.cap = c.cap ∧ c'.lru.length < c.cap := by
  induction fuel generalizing c with
  | zero => cases hroom
  | succ fuel ih =>
    unfold BlockCache.makeRoom at hroom
    split at hroom
    · have hcap : c.evictOne.cap = c.cap := cap_evictScan c c.lru
      rw [← hcap]
      exact ih h.evictOne hroom
    · next hless =>
      cases hroom
      exact ⟨h, rfl, Nat.lt_of_not_le hless⟩

theorem Listed.evictAll {fuel : ℕ} (h : c.Listed) (hall : evictAll fuel c = some c') :
    c'.Listed ∧ c'.cap = c.cap ∧ c'.lru.length ≤ c.lru.length := by
  induction fuel generalizing c with
  | zero => cases hall
  | succ fuel ih =>
    unfold BlockCache.evictAll at hall
    split at hall
    · obtain ⟨hlisted, hcap, hlength⟩ := ih h.evictOne hall
      exact ⟨hlisted, hcap.trans (cap_evictScan c c.lru), hlength.trans (length_evictOne c)⟩
    · cases hall
      exact ⟨h, rfl, Nat.le_refl _⟩

theorem cached_rollBack (c : BlockCache α) (m : SectorMemory α) :
    (c.rollBack m).cached = c.cached := by
  unfold rollBack
  split
  · rfl
  · split
    · next hother => exact cached_setEntry_of_mem hother _
    · rfl

theorem rollBack_lru_cap (c : BlockCache α) (m : SectorMemory α) :
    (c.rollBack m).lru = c.lru ∧ (c.rollBack m).cap = c.cap := by
  unfold rollBack
  split
  · exact ⟨rfl, rfl⟩
  · split <;> exact ⟨rfl, rfl⟩

theorem Listed.rollBack (h : c.Listed) (m : SectorMemory α) : (c.rollBack m).Listed := by
  obtain ⟨hlru, hcap⟩ := rollBack_lru_cap c m
  constructor
  case nodes =>
    rw [cached_rollBack, hlru]
    exact h.nodes
  case count =>
    rw [cached_rollBack, hcap]
    exact h.count

/-! ## The bound -/

/-- The number of cached sectors and the number of nodes are bounded, and each sector has a node. -/
structure Bounded (bound : ℕ) (c : BlockCache α) : Prop where
  listed : c.Listed
  nodes : c.lru.length ≤ bound

/-- A hit that puts a node into the queue comes when there are less than `bound` of them. -/
def HitsBelow (bound : ℕ) (c : BlockCache α) : Access α → Prop
  | .load lba node => lba ∈ c.cached → node = true → c.lru.length < bound
  | .store lba _ m => lba ∈ c.cached → m.node = true → c.lru.length < bound
  | .invalidate => True

theorem bounded_lruTouch_iff (h : c.Listed) (hnodes : c.lru.length ≤ bound)
    (lba : ℕ) (node : Bool) :
    (c.lruTouch lba node).Bounded bound ↔ (node = true → c.lru.length < bound) := by
  have hlength := length_lruTouch c lba node
  constructor
  · intro hbounded hnode
    have hafter := hbounded.nodes
    rw [hlength, hnode] at hafter
    exact hafter
  · intro hroom
    refine ⟨h.lruTouch lba node, ?_⟩
    rw [hlength]
    cases node with
    | true => exact hroom rfl
    | false => exact hnodes

theorem bounded_of_miss (h : c.Listed) (hmiss : ¬ (c.entries lba).isSome) {more : Bool}
    (hbound : c.cap ≤ bound) (hstore : c.storeSector lba seg m = some (c', more)) :
    c'.Bounded bound ∧ c'.cap = c.cap := by
  rw [storeSector, if_neg hmiss] at hstore
  obtain ⟨b, hroom, hstore⟩ := Option.bind_eq_some_iff.mp hstore
  obtain ⟨hlisted, hcap, hlength⟩ := h.makeRoom hroom
  split at hstore
  · cases hstore
    exact ⟨⟨hlisted, by omega⟩, hcap⟩
  · split at hstore
    · cases hstore
      refine ⟨⟨hlisted.insert (hcap ▸ hlength) lba seg, ?_⟩, hcap⟩
      rw [length_lruTouch]
      change b.lru.length + 1 ≤ bound
      omega
    · cases hstore
      obtain ⟨hlru, hcap'⟩ := rollBack_lru_cap b m
      refine ⟨⟨hlisted.rollBack m, ?_⟩, hcap'.trans hcap⟩
      rw [hlru]
      omega

theorem access_bounded_iff {a : Access α} (h : c.Listed) (hbound : c.cap ≤ bound)
    (hnodes : c.lru.length ≤ bound) (haccess : c.access a = some c') :
    (c'.Listed ∧ c'.cap = c.cap) ∧ (c'.Bounded bound ↔ HitsBelow bound c a) := by
  cases a with
  | load lba node =>
    cases haccess
    unfold loadSector HitsBelow
    by_cases hhit : (c.entries lba).isSome
    · rw [if_pos hhit, bounded_lruTouch_iff h hnodes]
      exact ⟨⟨h.lruTouch lba node, cap_lruTouch c lba node⟩, fun hroom _ => hroom,
        fun hroom => hroom hhit⟩
    · rw [if_neg hhit]
      exact ⟨⟨h, rfl⟩, fun _ hin => absurd hin hhit, fun _ => ⟨h, hnodes⟩⟩
  | store lba seg m =>
    obtain ⟨⟨b, more⟩, hstore, rfl⟩ := Option.map_eq_some_iff.mp haccess
    unfold HitsBelow
    by_cases hhit : (c.entries lba).isSome
    · rw [storeSector, if_pos hhit] at hstore
      cases hstore
      have hset := h.setEntry_of_mem hhit seg
      rw [bounded_lruTouch_iff hset hnodes]
      exact ⟨⟨hset.lruTouch lba m.node, cap_lruTouch _ lba m.node⟩, fun hroom _ => hroom,
        fun hroom => hroom hhit⟩
    · obtain ⟨hbounded, hcap⟩ := bounded_of_miss h hhit hbound hstore
      exact ⟨⟨hbounded.listed, hcap⟩, fun _ hin => absurd hin hhit, fun _ => hbounded⟩
  | invalidate =>
    obtain ⟨hlisted, hcap, hlength⟩ := h.evictAll haccess
    exact ⟨⟨hlisted, hcap⟩, fun _ => trivial, fun _ => ⟨hlisted, hlength.trans hnodes⟩⟩

def ListedFor (cap : ℕ) (c : BlockCache α) : Prop := c.Listed ∧ c.cap = cap

/-- The bound holds in every state exactly if no hit comes when it has been reached. -/
theorem bounded_iff_hitsBelow (cap slack : ℕ) (accesses : List (Access α)) :
    AllStates access (Bounded (cap + slack)) (create cap) accesses ↔
      AllSteps access (HitsBelow (cap + slack)) (create cap) accesses := by
  have hcreate : (create cap : BlockCache α).ListedFor cap := ⟨listed_create cap, rfl⟩
  have hempty : (create cap : BlockCache α).Bounded (cap + slack) :=
    ⟨listed_create cap, Nat.zero_le _⟩
  apply allStates_iff_allSteps _ hcreate hempty
  intro c c' a hinv hbounded haccess
  obtain ⟨hlisted, hcap⟩ := hinv
  have hbound : c.cap ≤ cap + slack := hcap ▸ Nat.le_add_right cap slack
  obtain ⟨⟨hlisted', hcap'⟩, hiff⟩ := access_bounded_iff hlisted hbound hbounded.nodes haccess
  exact ⟨⟨hlisted', hcap'.trans hcap⟩, hiff⟩

theorem length_of_hits {f : ℕ → ℕ} {n : ℕ} (hhit : (c.entries lba).isSome)
    (h : AllStates access (fun c => c.Bounded (f c.cap)) c (List.replicate n (.load lba true))) :
    c.lru.length + n ≤ f c.cap := by
  induction n generalizing c with
  | zero => exact Bounded.nodes h
  | succ n ih =>
    have hnext := h.2 (c.lruTouch lba true) (by rw [access, loadSector, if_pos hhit])
    have hlength := ih (by rw [lruTouch_entries]; exact hhit) hnext
    rw [length_lruTouch, cap_lruTouch] at hlength
    change c.lru.length + 1 + n ≤ f c.cap at hlength
    omega

/-- One sector that is read again and again fills any queue. -/
theorem not_bounded_hits : ¬ ∃ f : ℕ → ℕ, ∀ (cap : ℕ) (accesses : List (Access Unit)),
    AllStates access (fun c => c.Bounded (f c.cap)) (create cap) accesses := by
  rintro ⟨f, hf⟩
  have hrun := hf 1 (.store 0 () ⟨true, true, true, none⟩ :: List.replicate (f 1) (.load 0 true))
  have hlength := length_of_hits rfl (hrun.2 _ rfl)
  change 1 + f 1 ≤ f 1 at hlength
  omega

end BlockCache

end RetroRocket
