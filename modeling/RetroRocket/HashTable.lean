import Mathlib.Data.List.Basic
import RetroRocket.RobinHood

/-!
# Hash tables that grow

A table of items with keys, and the number of items that it counts. It is given twice as many
buckets when three quarters of them are used. The items are then stored again in new buckets, and
the loop that does this works on the old ones, so that these may end with other items than they had.
The table can only grow if there is memory for it.
-/

namespace RetroRocket

structure HashTable (α : Type) where
  nbuckets : ℕ
  count : ℕ
  bucket : ℕ → Bucket α

/-- What storing an item leaves: the table, what is in the buckets that the table had before, also
if it has others now, and whether memory ran out. -/
structure Stored (α : Type) where
  table : HashTable α
  memory : ℕ → Bucket α
  oom : Bool

namespace HashTable

open RobinHood

variable {α κ : Type} (key : α → κ) (hashOf : κ → ℕ) (width : ℕ)

/-! ## Operations -/

def empty [Inhabited α] (n : ℕ) : HashTable α := ⟨n, 0, fun _ => ⟨0, 0, default⟩⟩

def growat (n : ℕ) : ℕ := n * 3 / 4

def find [DecidableEq κ] (t : HashTable α) (k : κ) : Option (Option ℕ) :=
  probe (fun item => k == key item) (hashOf k) t.nbuckets t.bucket t.nbuckets
    (hashOf k % t.nbuckets)

def rehash (n : ℕ) (memory new : ℕ → Bucket α) (i : ℕ) : Option ((ℕ → Bucket α) × (ℕ → Bucket α)) :=
  if (memory i).dib = 0 then some (memory, new)
  else do
    let r ← place (fun _ _ => false) width n n new { memory i with dib := 1 } ((memory i).hash % n)
    some (Function.update memory i r.entry, r.bucket)

/-- The table with `n` buckets, and what is in the old ones then. -/
def resize [Inhabited α] (t : HashTable α) (n : ℕ) : Option (HashTable α × (ℕ → Bucket α)) := do
  let (memory, bucket) ← (List.range t.nbuckets).foldlM (fun x i => rehash width n x.1 x.2 i)
    (t.bucket, (empty n).bucket)
  some (⟨n, t.count, bucket⟩, memory)

def insert [DecidableEq κ] (t : HashTable α) (item : α) : Option (HashTable α) := do
  let hash := hashOf (key item)
  let r ← place (fun x y => key x == key y) width t.nbuckets t.nbuckets t.bucket ⟨hash, 1, item⟩
    (hash % t.nbuckets)
  some ⟨t.nbuckets, if r.replaced.isNone then t.count + 1 else t.count, r.bucket⟩

/-- An item is stored; `room` is whether there is memory for a larger table. -/
def set [Inhabited α] [DecidableEq κ] (room : Bool) (t : HashTable α) (item : α) :
    Option (Stored α) :=
  if t.count = growat t.nbuckets then
    if room then do
      let (grown, memory) ← t.resize width (t.nbuckets * 2)
      let added ← grown.insert key hashOf width item
      some ⟨added, memory, false⟩
    else some ⟨t, t.bucket, true⟩
  else do
    let added ← t.insert key hashOf width item
    some ⟨added, added.bucket, false⟩

def change (t : HashTable α) (p : ℕ) (item : α) : HashTable α :=
  { t with bucket := Function.update t.bucket p { t.bucket p with item := item } }

/-! ## Lawful tables -/

/-- Buckets, of which `n` are used and `c` at most are full, with items that are found. -/
structure Sound (n c : ℕ) (b : ℕ → Bucket α) : Prop where
  inside : ∀ i, (b i).Full → i < n
  fullCount : fullCount n b ≤ c
  hash : ∀ i, (b i).Full → (b i).hash = hashOf (key (b i).item)
  spread : Spread n b
  distinct : Distinct key b

structure Lawful (t : HashTable α) : Prop where
  large : 2 ≤ t.nbuckets
  count : t.count ≤ growat t.nbuckets
  sound : Sound key hashOf t.nbuckets t.count t.bucket

variable {key hashOf width} {t : HashTable α} {n c i p : ℕ} {b : ℕ → Bucket α} {item : α} {k : κ}

theorem growat_lt (h : 2 ≤ n) : growat n < n := by
  unfold growat
  omega

theorem growat_double (h : 2 ≤ n) : growat n + 1 ≤ growat (n * 2) := by
  unfold growat
  omega

theorem sound_empty [Inhabited α] (n c m : ℕ) :
    Sound key hashOf n c (empty m : HashTable α).bucket where
  inside _ hi := absurd rfl hi
  fullCount := (fullCount_empty n fun _ hi => hi rfl).le.trans (Nat.zero_le c)
  hash _ hi := absurd rfl hi
  spread _ hi := absurd rfl hi
  distinct _ _ hi := absurd rfl hi

theorem lawful_empty [Inhabited α] (h : 2 ≤ n) : Lawful key hashOf (empty n : HashTable α) where
  large := h
  count := Nat.zero_le _
  sound := sound_empty n 0 n

theorem Sound.mono (h : Sound key hashOf n c b) {m : ℕ} (hm : c ≤ m) : Sound key hashOf n m b :=
  { h with fullCount := h.fullCount.trans hm }

theorem Sound.place (h : Sound key hashOf n c b) (hc : c < n) {same : α → α → Bool}
    (hsame : ∀ x y, same x y → key x = key y) (width : ℕ) {entry : Bucket α}
    (hentry : entry.hash = hashOf (key entry.item))
    (hnew : ∀ j, (b j).Full → key (b j).item ≠ key entry.item) :
    Gives (place same width n n b entry (entry.hash % n)) fun r =>
      Sound key hashOf n (if r.replaced.isNone then c + 1 else c) r.bucket ∧
        (∀ j, (b j).Full → (r.bucket j).Full) ∧
        ∀ P : α → Prop, (∀ j, (b j).Full → P (b j).item) → P entry.item →
          (∀ j, (r.bucket j).Full → P (r.bucket j).item) ∧ P r.entry.item := by
  have hhome : entry.hash % n < n := Nat.mod_lt _ (Nat.zero_lt_of_lt hc)
  obtain ⟨r, hr⟩ := place_isSome same width entry
    (exists_empty (Nat.lt_of_le_of_lt h.fullCount hc) hhome) hhome
  refine ⟨r, hr, ⟨fun i hi => ?_, ?_, ?_, ?_, ?_⟩, fun j hj => place_full hr hj, fun P hb he => ?_⟩
  · by_contra hout
    rw [place_outside hr hhome (Nat.le_of_not_lt hout)] at hi
    exact hout (h.inside i hi)
  · refine (place_fullCount hr).trans ?_
    have hcount := h.fullCount
    split <;> omega
  · exact (place_forall (P := fun hash item => hash = hashOf (key item)) hr h.hash hentry).1
  · exact place_spread hr h.spread (reached_home n b entry.hash)
  · exact place_distinct hr hsame h.distinct hnew
  · exact place_forall (P := fun _ item => P item) hr hb he

theorem Sound.congr {b' : ℕ → Bucket α} (h : Sound key hashOf n c b)
    (hsame : ∀ j, (b' j).dib = (b j).dib ∧ (b' j).hash = (b j).hash ∧
      key (b' j).item = key (b j).item) : Sound key hashOf n c b' := by
  have hfull : ∀ j, (b' j).Full ↔ (b j).Full := by
    intro j
    rw [Bucket.Full, Bucket.Full, (hsame j).1]
  refine ⟨fun i hi => h.inside i ((hfull i).mp hi), ?_, fun i hi => ?_, fun i hi => ?_,
    fun i j hi hj heq => ?_⟩
  · exact (fullCount_le n fun j hj => (hfull j).mp hj).trans h.fullCount
  · rw [(hsame i).2.1, (hsame i).2.2]
    exact h.hash i ((hfull i).mp hi)
  · rw [(hsame i).2.1]
    exact (h.spread i ((hfull i).mp hi)).mono fun j hj => (hfull j).mpr hj
  · rw [(hsame i).2.2, (hsame j).2.2] at heq
    exact h.distinct i j ((hfull i).mp hi) ((hfull j).mp hj) heq

theorem bucket_change_self (t : HashTable α) (p : ℕ) (item : α) :
    (t.change p item).bucket p = { t.bucket p with item := item } := Function.update_self ..

theorem item_change_self (t : HashTable α) (p : ℕ) (item : α) :
    ((t.change p item).bucket p).item = item := congrArg Bucket.item (bucket_change_self t p item)

theorem bucket_change_of_ne {j : ℕ} (hj : j ≠ p) : (t.change p item).bucket j = t.bucket j :=
  Function.update_of_ne hj _ _

theorem full_change {j : ℕ} : ((t.change p item).bucket j).Full ↔ (t.bucket j).Full := by
  by_cases hjp : j = p
  · subst hjp
    rw [bucket_change_self]
    rfl
  · rw [bucket_change_of_ne hjp]

theorem change_same (hkey : key item = key (t.bucket p).item) (j : ℕ) :
    ((t.change p item).bucket j).dib = (t.bucket j).dib ∧
      ((t.change p item).bucket j).hash = (t.bucket j).hash ∧
      key ((t.change p item).bucket j).item = key (t.bucket j).item := by
  by_cases hjp : j = p
  · subst hjp
    rw [bucket_change_self]
    exact ⟨rfl, rfl, hkey⟩
  · rw [bucket_change_of_ne hjp]
    exact ⟨rfl, rfl, rfl⟩

theorem Lawful.change (h : Lawful key hashOf t) (hkey : key item = key (t.bucket p).item) :
    Lawful key hashOf (t.change p item) :=
  ⟨h.large, h.count, h.sound.congr (change_same hkey)⟩

/-! ## Growing -/

/-- The first `c` buckets have been stored again. -/
structure Rehashed (key : α → κ) (hashOf : κ → ℕ) (t : HashTable α) (n c : ℕ)
    (x : (ℕ → Bucket α) × (ℕ → Bucket α)) : Prop where
  rest : ∀ j, c ≤ j → x.1 j = t.bucket j
  sound : Sound key hashOf n (RobinHood.fullCount c t.bucket) x.2
  items : ∀ P : α → Prop, (∀ j < c, (t.bucket j).Full → P (t.bucket j).item) →
    ∀ j, (x.2 j).Full → P (x.2 j).item
  memory : ∀ P : α → Prop, (∀ j, (t.bucket j).Full → P (t.bucket j).item) →
    ∀ j, (t.bucket j).Full → P (x.1 j).item

theorem rehashed_zero [Inhabited α] (t : HashTable α) (n : ℕ) :
    Rehashed key hashOf t n 0 (t.bucket, (empty n).bucket) where
  rest _ _ := rfl
  sound := sound_empty n _ n
  items _ _ _ hj := absurd rfl hj
  memory _ ht := ht

theorem Rehashed.step (width : ℕ) (ht : Sound key hashOf t.nbuckets t.count t.bucket)
    {x : (ℕ → Bucket α) × (ℕ → Bucket α)} (h : Rehashed key hashOf t n c x)
    (hn : RobinHood.fullCount c t.bucket < n) :
    Gives (rehash width n x.1 x.2 c) (Rehashed key hashOf t n (c + 1)) := by
  have hsame : x.1 c = t.bucket c := h.rest c (Nat.le_refl c)
  have hcount := fullCount_succ c t.bucket
  rw [rehash, hsame]
  split
  · next hempty =>
    have hno : ¬ (t.bucket c).Full := not_not.mpr hempty
    rw [if_neg hno, Nat.add_zero] at hcount
    refine Gives.of_some ⟨fun j hj => h.rest j (Nat.le_of_succ_le hj), ?_, fun P hP => ?_, h.memory⟩
    · rw [hcount]
      exact h.sound
    · exact h.items P fun j hj => hP j (Nat.lt_succ_of_lt hj)
  · next hfull =>
    rw [if_pos (show (t.bucket c).Full from hfull)] at hcount
    have hentry : Bucket.hash { t.bucket c with dib := 1 } = hashOf (key (t.bucket c).item) :=
      ht.hash c hfull
    have hnew : ∀ j, (x.2 j).Full → key (x.2 j).item ≠ key (t.bucket c).item :=
      h.items (fun item => key item ≠ key (t.bucket c).item) fun j hj hfull' heq =>
        hj.ne (ht.distinct j c hfull' hfull heq)
    have hnone : ∀ x y : α, false = true → key x = key y := fun _ _ => nofun
    obtain ⟨r, hr, hsound, -, hitems⟩ := h.sound.place hn hnone width hentry hnew
    rw [hr]
    refine Gives.of_some ⟨fun j hj => ?_, ?_, fun P hP => ?_, fun P hP j hj => ?_⟩
    · dsimp only
      rw [Function.update_of_ne (Nat.ne_of_gt hj)]
      exact h.rest j (Nat.le_of_succ_le hj)
    · rw [hcount]
      refine hsound.mono ?_
      split <;> omega
    · exact (hitems P (h.items P fun j hj => hP j (Nat.lt_succ_of_lt hj))
        (hP c (Nat.lt_succ_self c) hfull)).1
    · dsimp only
      by_cases hjc : j = c
      · subst hjc
        rw [Function.update_self]
        have hstored : ∀ i, (x.2 i).Full → P (x.2 i).item := h.items P fun i _ => hP i
        exact (hitems P hstored (hP j hj)).2
      · rw [Function.update_of_ne hjc]
        exact h.memory P hP j hj

theorem Rehashed.run [Inhabited α] (width : ℕ) (ht : Sound key hashOf t.nbuckets t.count t.bucket)
    (hn : t.count < n) (hc : c ≤ t.nbuckets) :
    Gives ((List.range c).foldlM (fun x i => rehash width n x.1 x.2 i) (t.bucket, (empty n).bucket))
      (Rehashed key hashOf t n c) := by
  induction c with
  | zero => exact Gives.of_some (rehashed_zero t n)
  | succ c ih =>
    rw [List.range_succ, List.foldlM_append]
    apply (ih (Nat.le_of_succ_le hc)).bind
    intro x hx
    have hle : RobinHood.fullCount c t.bucket ≤ t.count :=
      (Finset.card_le_card (Finset.filter_subset_filter _
        (Finset.range_subset_range.mpr (Nat.le_of_succ_le hc)))).trans ht.fullCount
    obtain ⟨y, hy, hstep⟩ := hx.step width ht (Nat.lt_of_le_of_lt hle hn)
    rw [List.foldlM_cons, hy]
    exact Gives.of_some hstep

theorem Lawful.resize [Inhabited α] (h : Lawful key hashOf t) (width : ℕ) :
    Gives (t.resize width (t.nbuckets * 2)) fun x =>
      (x.1.nbuckets = t.nbuckets * 2 ∧ x.1.count = t.count) ∧
        Sound key hashOf (t.nbuckets * 2) t.count x.1.bucket ∧
        ∀ P : α → Prop, (∀ j, (t.bucket j).Full → P (t.bucket j).item) →
          (∀ j, (x.1.bucket j).Full → P (x.1.bucket j).item) ∧
            ∀ j, (t.bucket j).Full → P (x.2 j).item := by
  have hlt : t.count < t.nbuckets * 2 := by
    have hgrowat := growat_lt h.large
    have hcount := h.count
    omega
  obtain ⟨x, hx, hrehashed⟩ := Rehashed.run width h.sound hlt (Nat.le_refl t.nbuckets)
  rw [HashTable.resize, hx]
  exact Gives.of_some ⟨⟨rfl, rfl⟩, hrehashed.sound.mono h.sound.fullCount, fun P hP =>
    ⟨hrehashed.items P fun j _ => hP j, hrehashed.memory P hP⟩⟩

/-! ## Storing -/

variable [DecidableEq κ]

theorem Sound.insert (h : Sound key hashOf t.nbuckets t.count t.bucket) (hlarge : 2 ≤ t.nbuckets)
    (hcount : t.count + 1 ≤ growat t.nbuckets) (width : ℕ)
    (hnew : ∀ j, (t.bucket j).Full → key (t.bucket j).item ≠ key item) :
    Gives (t.insert key hashOf width item) fun t' =>
      Lawful key hashOf t' ∧ (∀ j, (t.bucket j).Full → (t'.bucket j).Full) ∧
        ∀ P : α → Prop, (∀ j, (t.bucket j).Full → P (t.bucket j).item) → P item →
          ∀ j, (t'.bucket j).Full → P (t'.bucket j).item := by
  have hgrowat := growat_lt hlarge
  have hentry : Bucket.hash ⟨hashOf (key item), 1, item⟩ = hashOf (key item) := rfl
  have hsame : ∀ x y, (key x == key y) = true → key x = key y :=
    fun _ _ hkeys => beq_iff_eq.mp hkeys
  obtain ⟨r, hr, hsound, hfull, hitems⟩ := h.place (by omega) hsame width hentry hnew
  rw [HashTable.insert]
  dsimp only at hr ⊢
  rw [hr]
  refine Gives.of_some ⟨⟨hlarge, ?_, hsound⟩, hfull, fun P hP hitem => (hitems P hP hitem).1⟩
  dsimp only
  split <;> omega

/-- What storing an item with a new key leaves: every item that is read from a bucket that was full
is the new one or one that was stored before. -/
theorem Lawful.set [Inhabited α] (h : Lawful key hashOf t) (width : ℕ) (room : Bool)
    (hnew : ∀ j, (t.bucket j).Full → key (t.bucket j).item ≠ key item) :
    Gives (t.set key hashOf width room item) fun s =>
      Lawful key hashOf s.table ∧ (s.oom → s.table = t ∧ s.memory = t.bucket) ∧
        ∀ P : α → Prop, (∀ j, (t.bucket j).Full → P (t.bucket j).item) → P item →
          (∀ j, (s.table.bucket j).Full → P (s.table.bucket j).item) ∧
            ∀ j, (t.bucket j).Full → P (s.memory j).item := by
  rw [HashTable.set]
  split
  · next hfull =>
    split
    · obtain ⟨⟨grown, memory⟩, hgrown, ⟨hn, hcount⟩, hsound, hitems⟩ := h.resize width
      dsimp only at hn hcount hsound hitems
      have hlarge := h.large
      have hroom : grown.count + 1 ≤ growat grown.nbuckets := by
        rw [hn, hcount, hfull]
        exact growat_double hlarge
      rw [← hn, ← hcount] at hsound
      obtain ⟨added, hadded, hlawful, -, hstored⟩ :=
        hsound.insert (by omega) hroom width (hitems (fun old => key old ≠ key item) hnew).1
      rw [hgrown, Option.bind_eq_bind, Option.bind_some]
      dsimp only
      rw [hadded]
      refine Gives.of_some ⟨hlawful, nofun, fun P hP hitem => ?_⟩
      obtain ⟨hkept, hold⟩ := hitems P hP
      exact ⟨hstored P hkept hitem, hold⟩
    · exact Gives.of_some ⟨h, fun _ => ⟨rfl, rfl⟩, fun P hP _ => ⟨hP, hP⟩⟩
  · next hfull =>
    have hcount := h.count
    obtain ⟨added, hadded, hlawful, hkept, hstored⟩ := h.sound.insert h.large (by omega) width hnew
    rw [hadded]
    refine Gives.of_some ⟨hlawful, nofun, fun P hP hitem => ?_⟩
    have hafter := hstored P hP hitem
    exact ⟨hafter, fun j hj => hafter j (hkept j hj)⟩

/-- What is stored without running out of memory is stored in the same way where there is memory. -/
theorem set_true [Inhabited α] {room : Bool} {s : Stored α}
    (h : t.set key hashOf width room item = some s) (hoom : s.oom = false) :
    t.set key hashOf width true item = some s := by
  rw [HashTable.set] at h ⊢
  split
  · next hfull =>
    rw [if_pos hfull] at h
    cases room with
    | true => exact h
    | false =>
      obtain rfl := Option.some.inj h
      cases hoom
  · next hfull =>
    rwa [if_neg hfull] at h

theorem oom_set_true [Inhabited α] {s : Stored α} (h : t.set key hashOf width true item = some s) :
    s.oom = false := by
  rw [HashTable.set] at h
  split at h
  · rw [if_pos rfl] at h
    obtain ⟨grown, _, hadd⟩ := Option.bind_eq_some_iff.mp h
    obtain ⟨added, _, hs⟩ := Option.bind_eq_some_iff.mp hadd
    exact congrArg Stored.oom (Option.some.inj hs).symm
  · obtain ⟨added, _, hs⟩ := Option.bind_eq_some_iff.mp h
    exact congrArg Stored.oom (Option.some.inj hs).symm

/-! ## Lookups -/

theorem Lawful.find_isSome (h : Lawful key hashOf t) (k : κ) :
    ∃ found, t.find key hashOf k = some found := by
  have hcount := h.sound.fullCount.trans h.count
  have hgrowat := growat_lt h.large
  have hhome : hashOf k % t.nbuckets < t.nbuckets := Nat.mod_lt _ (by omega)
  exact probe_isSome (exists_empty (Nat.lt_of_le_of_lt hcount hgrowat) hhome) hhome

theorem find_found (h : t.find key hashOf k = some (some p)) :
    (t.bucket p).Full ∧ key (t.bucket p).item = k := by
  obtain ⟨hfull, -, hkey⟩ := probe_found h
  exact ⟨hfull, (beq_iff_eq.mp hkey).symm⟩

theorem find_change (hkey : key item = key (t.bucket p).item) :
    (t.change p item).find key hashOf k = t.find key hashOf k := by
  refine probe_congr fun j => ?_
  obtain ⟨hdib, hhash, hkey⟩ := change_same hkey j
  exact ⟨hdib, hhash, congrArg (k == ·) hkey⟩

theorem Lawful.find_none (h : Lawful key hashOf t) (hfind : t.find key hashOf k = some none)
    (hi : (t.bucket i).Full) : key (t.bucket i).item ≠ k := by
  rintro rfl
  have hhash := h.sound.hash i hi
  have hhome : hashOf (key (t.bucket i).item) % t.nbuckets < t.nbuckets :=
    Nat.mod_lt _ (Nat.zero_lt_of_lt h.large)
  obtain ⟨d, hplace, hrun⟩ := h.sound.spread i hi
  rw [hhash] at hplace hrun
  simp only [← Nat.mod_add_mod (hashOf (key (t.bucket i).item)) t.nbuckets] at hplace hrun
  have hnot := probe_none hfind hrun hhome
  rw [← hplace] at hnot
  exact hnot hi hhash (beq_self_eq_true _)

end HashTable

end RetroRocket
