import Mathlib.Data.Finset.Card
import RetroRocket.BoundedCells

/-!
# Robin Hood hashing

A table with open addressing. An entry that looks for a bucket takes that of one that is nearer to
its home, which then looks for another in its place. Every item is therefore found again from its
home on over buckets that are full. The distances are counted modulo a width. None of the results on
lookups needs them: they only decide which entry is moved.
-/

namespace RetroRocket

/-- A bucket, with the hash of its item and one more than the distance of the item from its home. It
is empty if this is 0. -/
structure Bucket (α : Type) where
  hash : ℕ
  dib : ℕ
  item : α

namespace Bucket

variable {α : Type}

def Full (b : Bucket α) : Prop := b.dib ≠ 0

instance (b : Bucket α) : Decidable b.Full := inferInstanceAs (Decidable (b.dib ≠ 0))

def next (width : ℕ) (b : Bucket α) : Bucket α := { b with dib := (b.dib + 1) % width }

end Bucket

/-- What the loop that stores an entry leaves: the buckets, the entry that it carried last, and the
item that the new one replaced. -/
structure Placed (α : Type) where
  bucket : ℕ → Bucket α
  entry : Bucket α
  replaced : Option α

namespace RobinHood

variable {α : Type} {same : α → α → Bool} {test : α → Bool} {width n fuel hash i j p : ℕ}
  {b : ℕ → Bucket α} {entry : Bucket α} {r : Placed α}

/-! ## Loops -/

/-- The loop that stores an entry, from bucket `i` on. -/
def place (same : α → α → Bool) (width n : ℕ) :
    ℕ → (ℕ → Bucket α) → Bucket α → ℕ → Option (Placed α)
  | 0, _, _, _ => none
  | fuel + 1, b, entry, i =>
    if (b i).dib = 0 then some ⟨Function.update b i entry, entry, none⟩
    else if entry.hash = (b i).hash ∧ same entry.item (b i).item then
      some ⟨Function.update b i { b i with item := entry.item }, entry, some (b i).item⟩
    else if (b i).dib < entry.dib then
      place same width n fuel (Function.update b i entry) ((b i).next width) ((i + 1) % n)
    else place same width n fuel b (entry.next width) ((i + 1) % n)

/-- The loop that looks for an item, from bucket `i` on. -/
def probe (test : α → Bool) (hash n : ℕ) (b : ℕ → Bucket α) : ℕ → ℕ → Option (Option ℕ)
  | 0, _ => none
  | fuel + 1, i =>
    if (b i).dib = 0 then some none
    else if (b i).hash = hash ∧ test (b i).item then some (some i)
    else probe test hash n b fuel ((i + 1) % n)

/-! ## Runs of full buckets -/

/-- Bucket `i` is reached from the home of a hash over full buckets. -/
def Reached (n : ℕ) (b : ℕ → Bucket α) (hash i : ℕ) : Prop :=
  ∃ d, i = (hash + d) % n ∧ ∀ k < d, (b ((hash + k) % n)).Full

def Spread (n : ℕ) (b : ℕ → Bucket α) : Prop := ∀ i, (b i).Full → Reached n b (b i).hash i

theorem reached_home (n : ℕ) (b : ℕ → Bucket α) (hash : ℕ) : Reached n b hash (hash % n) :=
  ⟨0, rfl, fun _ hk => absurd hk (Nat.not_lt_zero _)⟩

theorem Reached.next (h : Reached n b hash i) (hfull : (b i).Full) :
    Reached n b hash ((i + 1) % n) := by
  obtain ⟨d, rfl, hrun⟩ := h
  refine ⟨d + 1, by rw [Nat.mod_add_mod, Nat.add_assoc], fun k hk => ?_⟩
  rcases Nat.lt_succ_iff_lt_or_eq.mp hk with hlt | rfl
  · exact hrun k hlt
  · exact hfull

theorem Reached.mono {b' : ℕ → Bucket α} (h : Reached n b hash i)
    (hfull : ∀ j, (b j).Full → (b' j).Full) : Reached n b' hash i := by
  obtain ⟨d, hi, hrun⟩ := h
  exact ⟨d, hi, fun k hk => hfull _ (hrun k hk)⟩

theorem full_update_of_full {e : Bucket α} (he : e.Full) (hj : (b j).Full) :
    (Function.update b i e j).Full := by
  by_cases hji : j = i
  · subst hji
    rwa [Function.update_self]
  · rwa [Function.update_of_ne hji]

theorem full_of_full_update {e : Bucket α} (hi : (b i).Full) (hj : (Function.update b i e j).Full) :
    (b j).Full := by
  by_cases hji : j = i
  · rwa [hji]
  · rwa [Function.update_of_ne hji] at hj

theorem Spread.update {e : Bucket α} (h : Spread n b) (he : Reached n b e.hash i)
    (hfull : ∀ j, (b j).Full → (Function.update b i e j).Full) :
    Spread n (Function.update b i e) := by
  intro j hj
  by_cases hji : j = i
  · subst hji
    rw [Function.update_self]
    exact he.mono hfull
  · rw [Function.update_of_ne hji] at hj ⊢
    exact (h j hj).mono hfull

/-! ## Storing -/

theorem place_full (h : place same width n fuel b entry i = some r) (hj : (b j).Full) :
    (r.bucket j).Full := by
  induction fuel generalizing b entry i with
  | zero => cases h
  | succ fuel ih =>
    rw [place] at h
    split at h
    · next hempty =>
      obtain rfl := Option.some.inj h
      have hne : j ≠ i := by
        rintro rfl
        exact hj hempty
      dsimp only
      rwa [Function.update_of_ne hne]
    · next hfull =>
      split at h
      · obtain rfl := Option.some.inj h
        exact full_update_of_full hfull hj
      · split at h
        · next hpoor =>
          have hentry : entry.Full := Nat.ne_of_gt (Nat.zero_lt_of_lt hpoor)
          exact ih h (full_update_of_full hentry hj)
        · exact ih h hj

/-- What holds of the items of full buckets and of the entry holds of the items after it, with their
hashes. -/
theorem place_forall {P : ℕ → α → Prop} (h : place same width n fuel b entry i = some r)
    (hb : ∀ j, (b j).Full → P (b j).hash (b j).item) (he : P entry.hash entry.item) :
    (∀ j, (r.bucket j).Full → P (r.bucket j).hash (r.bucket j).item) ∧
      P r.entry.hash r.entry.item := by
  have hupdate : ∀ {b : ℕ → Bucket α} {e : Bucket α} {i : ℕ},
      (∀ j, (b j).Full → P (b j).hash (b j).item) → P e.hash e.item →
      ∀ j, (Function.update b i e j).Full →
        P (Function.update b i e j).hash (Function.update b i e j).item := by
    intro b e i hb he j hj
    by_cases hji : j = i
    · subst hji
      rwa [Function.update_self]
    · rw [Function.update_of_ne hji] at hj ⊢
      exact hb j hj
  induction fuel generalizing b entry i with
  | zero => cases h
  | succ fuel ih =>
    rw [place] at h
    split at h
    · obtain rfl := Option.some.inj h
      exact ⟨hupdate hb he, he⟩
    · next hfull =>
      split at h
      · next hmatch =>
        obtain rfl := Option.some.inj h
        have hold : P (b i).hash entry.item := by
          rw [← hmatch.1]
          exact he
        exact ⟨hupdate (e := { b i with item := entry.item }) hb hold, he⟩
      · split at h
        · exact ih h (hupdate hb he) (hb i hfull)
        · exact ih h hb he

def Distinct {κ : Type} (key : α → κ) (b : ℕ → Bucket α) : Prop :=
  ∀ i j, (b i).Full → (b j).Full → key (b i).item = key (b j).item → i = j

theorem Distinct.update {κ : Type} {key : α → κ} {e : Bucket α} (h : Distinct key b)
    (he : ∀ j, j ≠ i → (b j).Full → key (b j).item ≠ key e.item) :
    Distinct key (Function.update b i e) := by
  intro j k hj hk heq
  by_cases hji : j = i
  · subst hji
    by_contra hne
    rw [Function.update_of_ne (Ne.symm hne)] at hk heq
    rw [Function.update_self] at heq
    exact he k (Ne.symm hne) hk heq.symm
  · rw [Function.update_of_ne hji] at hj heq
    by_cases hki : k = i
    · subst hki
      rw [Function.update_self] at heq
      exact absurd heq (he j hji hj)
    · rw [Function.update_of_ne hki] at hk heq
      exact h j k hj hk heq

theorem place_distinct {κ : Type} {key : α → κ} (h : place same width n fuel b entry i = some r)
    (hsame : ∀ x y, same x y → key x = key y) (hb : Distinct key b)
    (he : ∀ j, (b j).Full → key (b j).item ≠ key entry.item) : Distinct key r.bucket := by
  induction fuel generalizing b entry i with
  | zero => cases h
  | succ fuel ih =>
    rw [place] at h
    split at h
    · obtain rfl := Option.some.inj h
      exact hb.update fun j _ hj => he j hj
    · next hfull =>
      split at h
      · next hmatch => exact absurd (hsame _ _ hmatch.2).symm (he i hfull)
      · split at h
        · refine ih h (hb.update fun j _ hj => he j hj) fun j hj => ?_
          by_cases hji : j = i
          · subst hji
            rw [Function.update_self]
            exact (he j hfull).symm
          · rw [Function.update_of_ne hji] at hj ⊢
            exact fun heq => hji (hb j i hj hfull heq)
        · exact ih h hb he

theorem place_spread (h : place same width n fuel b entry i = some r) (hb : Spread n b)
    (he : Reached n b entry.hash i) : Spread n r.bucket := by
  induction fuel generalizing b entry i with
  | zero => cases h
  | succ fuel ih =>
    rw [place] at h
    split at h
    · next hempty =>
      obtain rfl := Option.some.inj h
      refine hb.update he fun j hj => ?_
      have hne : j ≠ i := by
        rintro rfl
        exact hj hempty
      rwa [Function.update_of_ne hne]
    · next hfull =>
      split at h
      · obtain rfl := Option.some.inj h
        exact hb.update (e := { b i with item := entry.item }) (hb i hfull)
          fun j hj => full_update_of_full (e := { b i with item := entry.item }) hfull hj
      · split at h
        · next hpoor =>
          have hentry : entry.Full := Nat.ne_of_gt (Nat.zero_lt_of_lt hpoor)
          have hkept : ∀ j, (b j).Full → (Function.update b i entry j).Full :=
            fun j hj => full_update_of_full hentry hj
          refine ih h (hb.update he hkept) ?_
          have hcarried : Reached n b (b i).hash ((i + 1) % n) := (hb i hfull).next hfull
          exact hcarried.mono hkept
        · exact ih h hb (he.next hfull)

theorem place_isSome (same : α → α → Bool) (width : ℕ) (entry : Bucket α)
    (hempty : ∃ k < fuel, ¬ (b ((i + k) % n)).Full) (hi : i < n) :
    ∃ r, place same width n fuel b entry i = some r := by
  induction fuel generalizing b entry i with
  | zero =>
    obtain ⟨k, hk, -⟩ := hempty
    exact absurd hk (Nat.not_lt_zero k)
  | succ fuel ih =>
    obtain ⟨k, hk, hk'⟩ := hempty
    rw [place]
    split
    · exact ⟨_, rfl⟩
    · next hfull =>
      have hahead : ∃ k' < fuel,
          (((i + 1) % n + k') % n) ≠ i ∧ ¬ (b (((i + 1) % n + k') % n)).Full := by
        cases k with
        | zero =>
          rw [Nat.add_zero, Nat.mod_eq_of_lt hi] at hk'
          exact absurd hfull hk'
        | succ k =>
          have hplace : ((i + 1) % n + k) % n = (i + (k + 1)) % n := by
            rw [Nat.mod_add_mod, Nat.add_assoc, Nat.add_comm 1 k]
          refine ⟨k, Nat.lt_of_succ_lt_succ hk, ?_, by rwa [hplace]⟩
          intro heq
          rw [← hplace, heq] at hk'
          exact hk' hfull
      obtain ⟨k', hlt, hne, hk''⟩ := hahead
      have hnext : (i + 1) % n < n := Nat.mod_lt _ (Nat.zero_lt_of_lt hi)
      split
      · exact ⟨_, rfl⟩
      · split
        · refine ih _ ⟨k', hlt, ?_⟩ hnext
          rwa [Function.update_of_ne hne]
        · exact ih _ ⟨k', hlt, hk''⟩ hnext

/-! ## Full buckets -/

/-- How many of the first `n` buckets are full. -/
def fullCount (n : ℕ) (b : ℕ → Bucket α) : ℕ := ((Finset.range n).filter fun i => (b i).Full).card

theorem fullCount_le (n : ℕ) {b' : ℕ → Bucket α} (h : ∀ j, (b' j).Full → (b j).Full) :
    fullCount n b' ≤ fullCount n b := by
  refine Finset.card_le_card fun j hj => ?_
  rw [Finset.mem_filter] at hj ⊢
  exact ⟨hj.1, h j hj.2⟩

theorem fullCount_update_le (n : ℕ) (b : ℕ → Bucket α) (i : ℕ) (e : Bucket α) :
    fullCount n (Function.update b i e) ≤ fullCount n b + 1 := by
  refine (Finset.card_le_card fun j hj => ?_).trans (Finset.card_insert_le i _)
  rw [Finset.mem_filter] at hj
  rw [Finset.mem_insert, Finset.mem_filter]
  by_cases hji : j = i
  · exact Or.inl hji
  · rw [Function.update_of_ne hji] at hj
    exact Or.inr hj

theorem fullCount_empty (n : ℕ) {b : ℕ → Bucket α} (h : ∀ i, ¬ (b i).Full) : fullCount n b = 0 := by
  rw [fullCount, Finset.card_eq_zero, Finset.filter_eq_empty_iff]
  exact fun i _ => h i

theorem fullCount_succ (k : ℕ) (b : ℕ → Bucket α) :
    fullCount (k + 1) b = fullCount k b + if (b k).Full then 1 else 0 := by
  rw [fullCount, Finset.range_add_one, Finset.filter_insert]
  split
  · rw [Finset.card_insert_of_notMem fun hk =>
      Finset.notMem_range_self (Finset.mem_of_mem_filter k hk)]
    rfl
  · rfl

theorem exists_empty (h : fullCount n b < n) (hi : i < n) : ∃ k < n, ¬ (b ((i + k) % n)).Full := by
  obtain ⟨j, hj, hempty⟩ : ∃ j < n, ¬ (b j).Full := by
    by_contra hall
    push Not at hall
    have hevery : (Finset.range n).filter (fun i => (b i).Full) = Finset.range n :=
      Finset.filter_true_of_mem fun j hj => hall j (Finset.mem_range.mp hj)
    rw [fullCount, hevery, Finset.card_range] at h
    exact Nat.lt_irrefl n h
  by_cases hij : i ≤ j
  · refine ⟨j - i, by omega, ?_⟩
    rwa [Nat.add_sub_cancel' hij, Nat.mod_eq_of_lt hj]
  · refine ⟨n - i + j, by omega, ?_⟩
    have hplace : i + (n - i + j) = j + n := by omega
    rwa [hplace, Nat.add_mod_right, Nat.mod_eq_of_lt hj]

theorem place_fullCount (h : place same width n fuel b entry i = some r) :
    fullCount n r.bucket ≤ fullCount n b + if r.replaced.isNone then 1 else 0 := by
  induction fuel generalizing b entry i with
  | zero => cases h
  | succ fuel ih =>
    rw [place] at h
    split at h
    · obtain rfl := Option.some.inj h
      exact fullCount_update_le n b i entry
    · next hfull =>
      split at h
      · obtain rfl := Option.some.inj h
        exact fullCount_le n fun j hj => full_of_full_update hfull hj
      · split at h
        · have hsame : fullCount n (Function.update b i entry) ≤ fullCount n b :=
            fullCount_le n fun j hj => full_of_full_update hfull hj
          exact (ih h).trans (Nat.add_le_add_right hsame _)
        · exact ih h

/-- Only the first `n` buckets are used. -/
theorem place_outside (h : place same width n fuel b entry i = some r) (hi : i < n) (hj : n ≤ j) :
    r.bucket j = b j := by
  have hne : ∀ {i}, i < n → j ≠ i := fun hi => (Nat.lt_of_lt_of_le hi hj).ne'
  have hnext : ∀ {i}, i < n → (i + 1) % n < n := fun hi => Nat.mod_lt _ (Nat.zero_lt_of_lt hi)
  induction fuel generalizing b entry i with
  | zero => cases h
  | succ fuel ih =>
    rw [place] at h
    split at h
    · obtain rfl := Option.some.inj h
      exact Function.update_of_ne (hne hi) _ _
    · split at h
      · obtain rfl := Option.some.inj h
        exact Function.update_of_ne (hne hi) _ _
      · split at h
        · rw [ih h (hnext hi), Function.update_of_ne (hne hi)]
        · exact ih h (hnext hi)

/-! ## Lookups -/

theorem probe_isSome (hempty : ∃ k < fuel, ¬ (b ((i + k) % n)).Full) (hi : i < n) :
    ∃ found, probe test hash n b fuel i = some found := by
  induction fuel generalizing i with
  | zero =>
    obtain ⟨k, hk, -⟩ := hempty
    exact absurd hk (Nat.not_lt_zero k)
  | succ fuel ih =>
    obtain ⟨k, hk, hk'⟩ := hempty
    rw [probe]
    split
    · exact ⟨_, rfl⟩
    · next hfull =>
      split
      · exact ⟨_, rfl⟩
      · refine ih ?_ (Nat.mod_lt _ (Nat.zero_lt_of_lt hi))
        cases k with
        | zero =>
          rw [Nat.add_zero, Nat.mod_eq_of_lt hi] at hk'
          exact absurd hfull hk'
        | succ k =>
          refine ⟨k, Nat.lt_of_succ_lt_succ hk, ?_⟩
          rwa [Nat.mod_add_mod, Nat.add_assoc, Nat.add_comm 1 k]

theorem probe_found (h : probe test hash n b fuel i = some (some p)) :
    (b p).Full ∧ (b p).hash = hash ∧ test (b p).item := by
  induction fuel generalizing i with
  | zero => cases h
  | succ fuel ih =>
    rw [probe] at h
    split at h
    · cases h
    · next hfull =>
      split at h
      · next hmatch =>
        obtain rfl := Option.some.inj (Option.some.inj h)
        exact ⟨hfull, hmatch.1, hmatch.2⟩
      · exact ih h

theorem probe_none (h : probe test hash n b fuel i = some none) {d : ℕ}
    (hrun : ∀ k < d, (b ((i + k) % n)).Full) (hi : i < n) (hfull : (b ((i + d) % n)).Full)
    (hhash : (b ((i + d) % n)).hash = hash) : ¬ test (b ((i + d) % n)).item := by
  induction d generalizing fuel i with
  | zero =>
    rw [Nat.add_zero, Nat.mod_eq_of_lt hi] at hfull hhash ⊢
    cases fuel with
    | zero => cases h
    | succ fuel =>
      rw [probe, if_neg hfull] at h
      split at h
      · cases h
      · next hno => exact fun htest => hno ⟨hhash, htest⟩
  | succ d ih =>
    have hstart := hrun 0 (Nat.succ_pos d)
    rw [Nat.add_zero, Nat.mod_eq_of_lt hi] at hstart
    have hshift : ∀ k, ((i + 1) % n + k) % n = (i + (k + 1)) % n := by
      intro k
      rw [Nat.mod_add_mod, Nat.add_assoc, Nat.add_comm 1 k]
    cases fuel with
    | zero => cases h
    | succ fuel =>
      rw [probe, if_neg hstart] at h
      split at h
      · cases h
      · rw [← hshift] at hfull hhash ⊢
        refine ih h (fun k hk => ?_) (Nat.mod_lt _ (Nat.zero_lt_of_lt hi)) hfull hhash
        rw [hshift]
        exact hrun (k + 1) (Nat.succ_lt_succ hk)

theorem probe_congr {b' : ℕ → Bucket α}
    (h : ∀ j, (b' j).dib = (b j).dib ∧ (b' j).hash = (b j).hash ∧
    test (b' j).item = test (b j).item) : probe test hash n b' fuel i = probe test hash
      n b fuel i := by
  induction fuel generalizing i with
  | zero => rfl
  | succ fuel ih =>
    obtain ⟨hdib, hhash, htest⟩ := h i
    rw [probe, probe, hdib, hhash, htest, ih]

end RobinHood

end RetroRocket
