import RetroRocket.ArrayFind

/-!
# The scans of ARRAYFIND

A scan that stores the indices of its matches does so also in the array that it reads: an index is
never stored behind the element that is read. In lawful contexts every integer array has its
elements in a block of its own, and a destination that is added or given another size is one more of
them.
-/

namespace RetroRocket

def matchIndices {α : Type} (p : α → Bool) (l : List α) : List ℕ :=
  (List.range l.length).filter fun i => (l[i]?).any p

def putFrom (xs : List ℤ) (out : ℕ) (indices : List ℕ) : List ℤ :=
  xs.take out ++ indices.map Nat.cast ++ xs.drop (out + indices.length)

section Lists

variable {xs : List ℤ} {out i : ℕ} {indices : List ℕ}

theorem putFrom_nil (xs : List ℤ) (out : ℕ) : putFrom xs out [] = xs := by
  rw [putFrom, List.map_nil, List.append_nil, List.length_nil, Nat.add_zero, List.take_append_drop]

theorem putFrom_cons (h : out < xs.length) :
    putFrom (xs.set out i) (out + 1) indices = putFrom xs out (i :: indices) := by
  have hset : out < (xs.set out (i : ℤ)).length := by rwa [List.length_set]
  have htake : (xs.set out (i : ℤ)).take (out + 1) = xs.take out ++ [(i : ℤ)] := by
    rw [← List.take_append_getElem hset, List.take_set_of_le (Nat.le_refl out),
      List.getElem_set_self]
  have hdrop : (xs.set out (i : ℤ)).drop (out + 1 + indices.length) =
      xs.drop (out + (i :: indices).length) := by
    rw [List.drop_set_of_lt (by omega), List.length_cons, Nat.add_assoc, Nat.add_comm 1]
  rw [putFrom, putFrom, htake, hdrop, List.map_cons, List.append_assoc (xs.take out),
    List.singleton_append]

theorem putFrom_zero (h : indices.length = xs.length) :
    putFrom xs 0 indices = indices.map Nat.cast := by
  rw [putFrom, Nat.zero_add, h, List.drop_length, List.append_nil, List.take_zero, List.nil_append]

theorem length_putFrom (h : out + indices.length ≤ xs.length) :
    (putFrom xs out indices).length = xs.length := by
  rw [putFrom, List.length_append, List.length_append, List.length_take, List.length_map,
    List.length_drop]
  omega

theorem pairwise_matchIndices {α : Type} (f : α → Bool) (l : List α) :
    (matchIndices f l).Pairwise (· < ·) := List.Pairwise.filter _ List.pairwise_lt_range

theorem length_matchIndices_le {α : Type} (f : α → Bool) (l : List α) :
    (matchIndices f l).length ≤ l.length :=
  (List.length_filter_le _ _).trans List.length_range.le

/-- Fewer indices leave zeros behind them. These are the indices that should be there only if there
is but one of these, and it is 0. -/
theorem putFrom_replicate_iff {found again : List ℕ} (hfound : found.Pairwise (· < ·))
    (hle : again.length ≤ found.length) :
    putFrom (List.replicate found.length 0) 0 again = found.map Nat.cast ↔
      again = found ∨ (again = [] ∧ found = [0]) := by
  have hput : putFrom (List.replicate found.length 0) 0 again =
      (again ++ List.replicate (found.length - again.length) 0).map Nat.cast := by
    rw [putFrom, List.take_zero, List.nil_append, Nat.zero_add, List.drop_replicate,
      List.map_append,
      List.map_replicate, Nat.cast_zero]
  rw [hput, (List.map_injective_iff.mpr Nat.cast_injective).eq_iff]
  constructor
  · intro heq
    cases hrest : found.length - again.length with
    | zero =>
      rw [hrest, List.replicate_zero, List.append_nil] at heq
      exact Or.inl heq
    | succ k =>
      rw [hrest, List.replicate_succ] at heq
      rw [← heq] at hfound
      -- a zero comes after the other indices, so that there are none
      obtain ⟨-, hzeros, hbefore⟩ := List.pairwise_append.mp hfound
      have hnone : again = [] := by
        refine List.eq_nil_iff_forall_not_mem.mpr fun a ha => ?_
        exact Nat.not_lt_zero a (hbefore a ha 0 List.mem_cons_self)
      cases k with
      | zero =>
        rw [hnone] at heq
        exact Or.inr ⟨hnone, heq.symm⟩
      | succ k =>
        have hlt := (List.pairwise_cons.mp hzeros).1 0 List.mem_cons_self
        exact absurd hlt (Nat.lt_irrefl 0)
  · rintro (rfl | ⟨rfl, rfl⟩)
    · rw [Nat.sub_self, List.replicate_zero, List.append_nil]
    · rfl

theorem filter_range_eq {α : Type} (f : α → Bool) {l : List α} {m : ℕ} (hm : l.length = m) :
    (List.range m).filter (fun i => (l[i]?).any f) = matchIndices f l := by
  rw [matchIndices, hm]

theorem map_getElem_some {α : Type} (f : α → Bool) {l : List α} {i : ℕ} (hi : i < l.length) :
    (l[i]?).map f = some ((l[i]?).any f) := by
  rw [List.getElem?_eq_getElem hi]
  rfl

end Lists

/-! ## Scans -/

namespace FindCtx

structure SameFrom (w i : ℕ) (s t : FindCtx) : Prop where
  other : ∀ v, v ≠ w → t.blocks v = s.blocks v
  rest : ∀ k, i ≤ k → (t.blocks w)[k]? = (s.blocks w)[k]?

def withBlock (s : FindCtx) (w : ℕ) (xs : List ℤ) : FindCtx :=
  { s with blocks := Function.update s.blocks w xs }

end FindCtx

def Scanned.Steady (cur : Scanned) (w : ℕ) : Prop :=
  ∀ s t i, FindCtx.SameFrom w i s t → cur.hit t i = cur.hit s i

theorem steady_scanInt (needle : ℤ) (cur : IntArray) (w : ℕ) : (scanInt needle cur).Steady w := by
  intro s t i h
  rw [scanInt]
  dsimp only
  by_cases hv : cur.values = w
  · rw [hv, h.rest i (Nat.le_refl i)]
  · rw [h.other _ hv]

namespace FindCtx

variable {s t : FindCtx} {cur : Scanned} {dest : Name} {p : ℕ → Bool} {l : List ℕ} {out q w : ℕ}

theorem countMatches_eq (h : ∀ i < cur.itemcount, cur.hit s i = some (p i)) :
    s.countMatches cur = some ((List.range cur.itemcount).filter p).length := by
  have hloop : ∀ (l : List ℕ) (count : ℕ), (∀ i ∈ l, cur.hit s i = some (p i)) →
      l.foldlM (fun count i => do if ← cur.hit s i then some (count + 1) else some count) count =
        some (count + (l.filter p).length) := by
    intro l
    induction l with
    | nil => exact fun count _ => rfl
    | cons i l ih =>
      intro count hl
      rw [List.foldlM_cons, hl i List.mem_cons_self]
      have hrest : ∀ j ∈ l, cur.hit s j = some (p j) := fun j hj => hl j (List.mem_cons_of_mem i hj)
      cases hi : p i with
      | true =>
        rw [List.filter_cons_of_pos hi, List.length_cons, Nat.add_comm (l.filter p).length,
          ← Nat.add_assoc]
        exact ih (count + 1) hrest
      | false =>
        rw [List.filter_cons_of_neg (by rw [hi]; nofun)]
        exact ih count hrest
  rw [countMatches, hloop _ 0 fun i hi => h i (List.mem_range.mp hi), Nat.zero_add]

structure Target (s : FindCtx) (dest : Name) (q : ℕ) : Prop where
  valid : validVar .int dest = true
  found : s.findIntArray dest = some (some q)
  length : (s.blocks (s.intArrays.bucket q).item.values).length =
    (s.intArrays.bucket q).item.itemcount

theorem Target.set (h : s.Target dest q) (out : ℕ) (value : ℤ) :
    s.basicSetIntArrayVariable dest out value =
      if (s.intArrays.bucket q).item.itemcount ≤ out then
        findError ("Array index " ++ toString out ++ " out of bounds [0.." ++
          toString ((s.intArrays.bucket q).item.itemcount - 1) ++ "]") s
      else some (none, s.withBlock (s.intArrays.bucket q).item.values
        ((s.blocks (s.intArrays.bucket q).item.values).set out value)) := by
  rw [basicSetIntArrayVariable, h.valid, if_neg nofun, h.found]
  change (if _ then _ else if _ then _ else _) = _
  split
  · rfl
  · next hlt =>
    rw [h.length, if_pos (Nat.lt_of_not_le hlt)]
    rfl

theorem withBlock_self (s : FindCtx) (w : ℕ) : s.withBlock w (s.blocks w) = s := by
  rw [withBlock, Function.update_eq_self]

theorem withBlock_withBlock (s : FindCtx) (w : ℕ) (xs ys : List ℤ) :
    (s.withBlock w xs).withBlock w ys = s.withBlock w ys := by
  rw [withBlock, withBlock, withBlock, Function.update_idem]

theorem blocks_withBlock (s : FindCtx) (w : ℕ) (xs : List ℤ) : (s.withBlock w xs).blocks w = xs :=
  Function.update_self ..

theorem Target.withBlock (h : s.Target dest q) (hw : (s.intArrays.bucket q).item.values = w)
    {xs : List ℤ} (hxs : xs.length = (s.blocks w).length) : (s.withBlock w xs).Target dest q where
  valid := h.valid
  found := h.found
  length := by
    change ((s.withBlock w xs).blocks (s.intArrays.bucket q).item.values).length = _
    rw [hw, blocks_withBlock, hxs, ← hw]
    exact h.length

/-- The second scan stores the indices of its matches, unless there are more than the destination
has elements. -/
theorem storeMatches_eq (h : s.Target dest q) (hw : (s.intArrays.bucket q).item.values = w)
    (hsteady : cur.Steady w) (hsorted : l.Pairwise (· < ·)) (hout : ∀ i ∈ l, out ≤ i)
    (hp : ∀ i ∈ l, cur.hit s i = some (p i)) (hle : out ≤ (s.blocks w).length) :
    (out + (l.filter p).length ≤ (s.blocks w).length → storeMatches cur dest l out s =
        some (none, s.withBlock w (putFrom (s.blocks w) out (l.filter p)))) ∧
      ((s.blocks w).length < out + (l.filter p).length →
        ∃ message xs, xs.length = (s.blocks w).length ∧
          storeMatches cur dest l out s = some (some message, s.withBlock w xs)) := by
  induction l generalizing s out with
  | nil =>
    constructor
    · intro _
      rw [List.filter_nil, putFrom_nil, withBlock_self]
      rfl
    · intro hlt
      rw [List.filter_nil, List.length_nil] at hlt
      omega
  | cons i l ih =>
    have hlength := h.length
    rw [hw] at hlength
    obtain ⟨hfirst, hrest⟩ := List.pairwise_cons.mp hsorted
    have hi := hp i List.mem_cons_self
    have hl : ∀ j ∈ l, cur.hit s j = some (p j) := fun j hj => hp j (List.mem_cons_of_mem i hj)
    rw [storeMatches, hi]
    cases hpi : p i with
    | false =>
      rw [List.filter_cons_of_neg (by rw [hpi]; nofun)]
      exact ih h hw hrest (fun j hj => hout j (List.mem_cons_of_mem i hj)) hl hle
    | true =>
      rw [List.filter_cons_of_pos hpi, List.length_cons]
      have hset := h.set out i
      rw [hw, ← hlength] at hset
      change (_ → (s.basicSetIntArrayVariable dest out i >>= _) = _) ∧
        (_ → ∃ message xs, xs.length = (s.blocks w).length ∧
          (s.basicSetIntArrayVariable dest out i >>= _) = some (some message, s.withBlock w xs))
      rw [hset]
      split
      · next hfull =>
        have hself :
            ∀ message, findError message s = findError message (s.withBlock w (s.blocks w)) :=
          fun message => by rw [withBlock_self]
        exact ⟨fun hroom => by omega, fun _ => ⟨_, s.blocks w, rfl, hself _⟩⟩
      · next hroom =>
        have hlt := Nat.lt_of_not_le hroom
        have hxs : ((s.blocks w).set out (i : ℤ)).length = (s.blocks w).length := List.length_set
        -- the elements that are still to be read are behind the one that is written
        have hlater : ∀ j ∈ l, cur.hit (s.withBlock w ((s.blocks w).set out i)) j = some (p j) := by
          intro j hj
          have hij := hfirst j hj
          have hoi := hout i List.mem_cons_self
          rw [hsteady s _ j ⟨fun v hv => Function.update_of_ne hv _ _, fun k hk => ?_⟩, hl j hj]
          rw [blocks_withBlock]
          exact List.getElem?_set_ne (by omega)
        have hafter : ∀ j ∈ l, out + 1 ≤ j := by
          intro j hj
          have hij := hfirst j hj
          have hoi := hout i List.mem_cons_self
          omega
        have hbound : out + 1 ≤ ((s.withBlock w ((s.blocks w).set out i)).blocks w).length := by
          rw [blocks_withBlock, hxs]
          exact hlt
        have hnext := ih (h.withBlock hw hxs) hw hrest hafter hlater hbound
        simp only [blocks_withBlock, hxs, withBlock_withBlock, putFrom_cons hlt] at hnext
        have hsum : out + ((l.filter p).length + 1) = out + 1 + (l.filter p).length := by omega
        rw [hsum]
        exact hnext

theorem set_missing (hvalid : validVar .int dest = true) (hfind : s.findIntArray dest = some none)
    (out : ℕ) (value : ℤ) :
    s.basicSetIntArrayVariable dest out value = findError (noSuchArray dest) s := by
  rw [basicSetIntArrayVariable, hvalid, if_neg Bool.noConfusion, hfind]
  rfl

theorem storeMatches_missing (hvalid : validVar .int dest = true)
    (hfind : s.findIntArray dest = some none) (hp : ∀ i ∈ l, cur.hit s i = some (p i)) (out : ℕ) :
    storeMatches cur dest l out s =
      if l.filter p = [] then some (none, s) else some (some (noSuchArray dest), s) := by
  induction l with
  | nil => rfl
  | cons i l ih =>
    rw [storeMatches, hp i List.mem_cons_self]
    cases hpi : p i with
    | false =>
      rw [List.filter_cons_of_neg (by rw [hpi]; nofun)]
      exact ih fun j hj => hp j (List.mem_cons_of_mem i hj)
    | true =>
      rw [List.filter_cons_of_pos hpi, if_neg (List.cons_ne_nil _ _)]
      change (s.basicSetIntArrayVariable dest out i >>= _) = _
      rw [set_missing hvalid hfind]
      rfl

/-! ## Lawful contexts -/

structure LawfulEntry (s : FindCtx) (e : IntArray) : Prop where
  valid : validVar .int e.varname = true
  length : (s.blocks e.values).length = e.itemcount
  used : e.values < s.used
  small : e.itemcount < 2 ^ 61

/-- The arrays have all their elements, each integer array in a block of its own. The elements are
in memory, so that the bytes of them fit 64 bits. -/
structure Lawful (s : FindCtx) : Prop where
  table : s.intArrays.Lawful IntArray.varname getHash
  entry : ∀ i, (s.intArrays.bucket i).Full → s.LawfulEntry (s.intArrays.bucket i).item
  own : ∀ i j, (s.intArrays.bucket i).Full → (s.intArrays.bucket j).Full →
    (s.intArrays.bucket i).item.values = (s.intArrays.bucket j).item.values → i = j
  doubles : ∀ var l, s.doubleArrays var = some l → l.length < 2 ^ 61
  strings : ∀ var l, s.stringArrays var = some l → l.length < 2 ^ 61

variable {size : ℕ} {memory : FindMemory} {stored : Stored IntArray}

theorem Lawful.find (h : s.Lawful) (var : Name) : ∃ found, s.findIntArray var = some found :=
  h.table.find_isSome var

theorem Lawful.found (h : s.Lawful) {var : Name} (hfind : s.findIntArray var = some (some q)) :
    (s.intArrays.bucket q).Full ∧ (s.intArrays.bucket q).item.varname = var ∧
      s.LawfulEntry (s.intArrays.bucket q).item := by
  obtain ⟨hfull, hname⟩ := HashTable.find_found hfind
  exact ⟨hfull, hname, h.entry q hfull⟩

theorem Lawful.target (h : s.Lawful) (hfind : s.findIntArray dest = some (some q)) :
    s.Target dest q := by
  obtain ⟨hfull, hname, hentry⟩ := h.found hfind
  exact ⟨hname ▸ hentry.valid, hfind, hentry.length⟩

theorem Lawful.withBlock (h : s.Lawful) {xs : List ℤ} (hxs : xs.length = (s.blocks w).length) :
    (s.withBlock w xs).Lawful := by
  refine ⟨h.table, fun i hi => ?_, h.own, h.doubles, h.strings⟩
  obtain ⟨hvalid, hlength, hused, hsmall⟩ := h.entry i hi
  refine ⟨hvalid, ?_, hused, hsmall⟩
  rw [FindCtx.withBlock]
  dsimp only
  by_cases hv : (s.intArrays.bucket i).item.values = w
  · rw [hv, Function.update_self, hxs, ← hv]
    exact hlength
  · rw [Function.update_of_ne hv]
    exact hlength

def withArray (s : FindCtx) (size : ℕ) (table : HashTable IntArray) : FindCtx :=
  { s with
    intArrays := table
    blocks := Function.update s.blocks s.used (List.replicate size 0)
    used := s.used + 1 }

theorem Lawful.withArray (h : s.Lawful) (hfind : s.findIntArray dest = some none)
    (hvalid : validVar .int dest = true) (hsize : size < 2 ^ 61) (room : Bool) :
    Gives (hashmapSet room s.intArrays ⟨dest, size, s.used⟩) fun stored =>
      (s.withArray size stored.table).Lawful ∧
        (∀ i, (stored.table.bucket i).Full → (stored.table.bucket i).item.varname = dest →
          (stored.table.bucket i).item = ⟨dest, size, s.used⟩) ∧
        ∀ i, (s.intArrays.bucket i).Full → (stored.memory i).item = ⟨dest, size, s.used⟩ ∨
          ∃ j, (s.intArrays.bucket j).Full ∧
            (s.intArrays.bucket j).item = (stored.memory i).item := by
  have hnew : ∀ j, (s.intArrays.bucket j).Full →
      (s.intArrays.bucket j).item.varname ≠ (⟨dest, size, s.used⟩ : IntArray).varname :=
    fun j hj => h.table.find_none hfind hj
  obtain ⟨stored, hset, htable, -, hitems⟩ := h.table.set 65536 room hnew
  obtain ⟨hnow, hmemory⟩ := hitems (fun e => e = ⟨dest, size, s.used⟩ ∨
    ∃ j, (s.intArrays.bucket j).Full ∧ (s.intArrays.bucket j).item = e)
    (fun j hj => Or.inr ⟨j, hj, rfl⟩) (Or.inl rfl)
  refine ⟨stored, hset, ⟨htable, fun i hi => ?_, fun i j hi hj heq => ?_, h.doubles, h.strings⟩,
    fun i hi hname => ?_, hmemory⟩
  · rcases hnow i hi with hitem | ⟨j, hj, hitem⟩
    · change LawfulEntry _ (stored.table.bucket i).item
      rw [hitem]
      refine ⟨hvalid, ?_, Nat.lt_succ_self _, hsize⟩
      change (Function.update s.blocks s.used (List.replicate size 0) s.used).length = size
      rw [Function.update_self, List.length_replicate]
    · change LawfulEntry _ (stored.table.bucket i).item
      rw [← hitem]
      obtain ⟨hvalid, hlength, hused, hsmall⟩ := h.entry j hj
      refine ⟨hvalid, ?_, Nat.lt_succ_of_lt hused, hsmall⟩
      change (Function.update s.blocks s.used (List.replicate size 0) _).length = _
      rw [Function.update_of_ne hused.ne]
      exact hlength
  · refine htable.sound.distinct i j hi hj ?_
    change (stored.table.bucket i).item.values = (stored.table.bucket j).item.values at heq
    rcases hnow i hi with hi' | ⟨a, ha, hi'⟩ <;> rcases hnow j hj with hj' | ⟨b, hb, hj'⟩
    · rw [hi', hj']
    · rw [hi', ← hj'] at heq
      exact absurd heq.symm (h.entry b hb).used.ne
    · rw [← hi', hj'] at heq
      exact absurd heq (h.entry a ha).used.ne
    · rw [← hi', ← hj'] at heq ⊢
      rw [h.own a b ha hb heq]
  · rcases hnow i hi with hitem | ⟨j, hj, hitem⟩
    · exact hitem
    · exact absurd (hitem ▸ hname) (hnew j hj)

def resized (s : FindCtx) (q size : ℕ) : FindCtx :=
  let cur := (s.intArrays.bucket q).item
  let elements := (s.blocks cur.values).take size
  { s with
    intArrays := s.intArrays.change q { cur with itemcount := size }
    blocks := Function.update s.blocks cur.values
      (elements ++ List.replicate (size - elements.length) 0) }

theorem Lawful.resized (h : s.Lawful) (hq : (s.intArrays.bucket q).Full) (hsize : size < 2 ^ 61) :
    (s.resized q size).Lawful := by
  have hentry := h.entry q hq
  have helements : ∀ l : List ℤ,
      (l.take size ++ List.replicate (size - (l.take size).length) 0).length = size := by
    intro l
    rw [List.length_append, List.length_replicate, List.length_take]
    omega
  have hvalues : ∀ i, ((s.resized q size).intArrays.bucket i).item.values =
      (s.intArrays.bucket i).item.values := by
    intro i
    rw [FindCtx.resized]
    dsimp only
    by_cases hiq : i = q
    · rw [hiq, HashTable.item_change_self]
    · rw [HashTable.bucket_change_of_ne hiq]
  refine ⟨h.table.change rfl, fun i hi => ?_, fun i j hi hj heq => ?_, h.doubles, h.strings⟩
  · have hi' := HashTable.full_change.mp hi
    by_cases hiq : i = q
    · subst hiq
      have hitem : ((s.resized i size).intArrays.bucket i).item =
          { (s.intArrays.bucket i).item with itemcount := size } := HashTable.item_change_self ..
      rw [hitem]
      refine ⟨hentry.valid, ?_, hentry.used, hsize⟩
      rw [FindCtx.resized]
      dsimp only
      rw [Function.update_self, helements]
    · have hitem : (s.resized q size).intArrays.bucket i = s.intArrays.bucket i :=
        HashTable.bucket_change_of_ne hiq
      rw [hitem]
      obtain ⟨hvalid, hlength, hused, hsmall⟩ := h.entry i hi'
      refine ⟨hvalid, ?_, hused, hsmall⟩
      rw [FindCtx.resized]
      dsimp only
      rw [Function.update_of_ne fun heq => hiq (h.own i q hi' hq heq)]
      exact hlength
  · rw [hvalues, hvalues] at heq
    exact h.own i j (HashTable.full_change.mp hi) (HashTable.full_change.mp hj) heq

theorem Lawful.resized_other (h : s.Lawful) {b : ℕ} (hb : (s.intArrays.bucket b).Full)
    (hq : (s.intArrays.bucket q).Full) (hbq : b ≠ q) (size : ℕ) :
    ((s.resized q size).intArrays.bucket b).item = (s.intArrays.bucket b).item ∧
      (s.resized q size).blocks (s.intArrays.bucket b).item.values =
        s.blocks (s.intArrays.bucket b).item.values :=
  ⟨congrArg Bucket.item (HashTable.bucket_change_of_ne hbq),
    Function.update_of_ne (fun heq => hbq (h.own b q hb hq heq)) _ _⟩

theorem Lawful.resized_self (h : s.Lawful) (hq : (s.intArrays.bucket q).Full) :
    s.resized q (s.intArrays.bucket q).item.itemcount = s := by
  have hlength := (h.entry q hq).length
  have htable : s.intArrays.change q (s.intArrays.bucket q).item = s.intArrays := by
    rw [HashTable.change, Function.update_eq_self]
  have helements : (s.blocks (s.intArrays.bucket q).item.values).take
      (s.intArrays.bucket q).item.itemcount = s.blocks (s.intArrays.bucket q).item.values := by
    rw [← hlength, List.take_length]
  rw [FindCtx.resized, helements, htable, hlength, Nat.sub_self, List.replicate_zero,
    List.append_nil,
    Function.update_eq_self]

/-! ## The destination -/

/-- What `ensure_int_result_array` does. -/
inductive Ensured (s : FindCtx) (dest : Name) (size : ℕ) (memory : FindMemory) :
    Option String × FindCtx × (ℕ → Bucket IntArray) → Prop
  | failed {message : String} {t : FindCtx} {buckets : ℕ → Bucket IntArray} (ht : t.Lawful) :
      Ensured s dest size memory (some message, t, buckets)
  | resized {q : ℕ} (hfind : s.findIntArray dest = some (some q)) :
      Ensured s dest size memory (none, s.resized q size, (s.resized q size).intArrays.bucket)
  | added {stored : Stored IntArray} (hfind : s.findIntArray dest = some none)
      (hvalid : validVar .int dest = true) (hplain : s.basicIntVariableExists dest = false)
      (hset : hashmapSet memory.table s.intArrays ⟨dest, size, s.used⟩ = some stored)
      (hoom : stored.oom = false) :
      Ensured s dest size memory (none, s.withArray size stored.table, stored.memory)

theorem dim_new (hplain : s.basicIntVariableExists dest = false)
    (hfind : s.findIntArray dest = some none) (hvalid : validVar .int dest = true)
    (hsize : 1 ≤ size) (hmemory : memory.name ∧ memory.values)
    (hset : hashmapSet memory.table s.intArrays ⟨dest, size, s.used⟩ = some stored) :
    s.basicDimIntArray dest size memory =
      some (if stored.oom then some (outOfMemory dest) else none, s.withArray size stored.table,
        stored.memory) := by
  have hboth : ¬ (memory.name = false ∨ memory.values = false) := by
    rw [hmemory.1, hmemory.2]
    nofun
  rw [basicDimIntArray, hplain, if_neg nofun, hvalid, if_neg nofun, if_neg (Nat.not_lt.mpr hsize),
    hfind]
  change (if _ then _ else _) = _
  rw [if_neg hboth, hset]
  rfl

theorem ensure_none (hplain : s.basicIntVariableExists dest = false)
    (hfind : s.findIntArray dest = some none) :
    s.ensureIntResultArray dest size memory = s.basicDimIntArray dest size memory := by
  rw [ensureIntResultArray, hplain, if_neg nofun, hfind]
  rfl

theorem Lawful.dim (h : s.Lawful) (dest : Name) (hsmall : size < 2 ^ 61) (memory : FindMemory) :
    Gives (s.basicDimIntArray dest size memory) (s.Ensured dest size memory) := by
  have hfailed : ∀ message, Gives (ensureError message s) (s.Ensured dest size memory) :=
    fun _ => Gives.of_some (.failed h)
  cases hplain : s.basicIntVariableExists dest with
  | true =>
    rw [basicDimIntArray, hplain, if_pos rfl]
    exact hfailed _
  | false =>
    cases hvalid : validVar .int dest with
    | false =>
      rw [basicDimIntArray, hplain, if_neg nofun, hvalid, if_pos rfl]
      exact hfailed _
    | true =>
      by_cases hsize : size < 1
      · rw [basicDimIntArray, hplain, if_neg nofun, hvalid, if_neg nofun, if_pos hsize]
        exact hfailed _
      · obtain ⟨found, hfind⟩ := h.find dest
        cases found with
        | some q =>
          rw [basicDimIntArray, hplain, if_neg nofun, hvalid, if_neg nofun, if_neg hsize, hfind]
          exact hfailed _
        | none =>
          by_cases hmemory : memory.name = false ∨ memory.values = false
          · rw [basicDimIntArray, hplain, if_neg nofun, hvalid, if_neg nofun, if_neg hsize, hfind]
            change Gives (if _ then _ else _) _
            rw [if_pos hmemory]
            exact hfailed _
          · obtain ⟨hname, hvalues⟩ := not_or.mp hmemory
            obtain ⟨stored, hset, hlawful, -⟩ := h.withArray hfind hvalid hsmall memory.table
            rw [dim_new hplain hfind hvalid (Nat.le_of_not_lt hsize)
              ⟨Bool.eq_true_of_not_eq_false hname, Bool.eq_true_of_not_eq_false hvalues⟩ hset]
            refine Gives.of_some ?_
            cases hoom : stored.oom with
            | true => exact .failed hlawful
            | false => exact .added hfind hvalid hplain hset hoom

theorem Lawful.redim (h : s.Lawful) (dest : Name) (size : ℕ) (memory : FindMemory) :
    Gives (s.basicRedimIntArray dest size memory) (s.Ensured dest size memory) := by
  have hfailed : ∀ message, Gives (ensureError message s) (s.Ensured dest size memory) :=
    fun _ => Gives.of_some (.failed h)
  rw [basicRedimIntArray]
  split
  · exact hfailed _
  · obtain ⟨found, hfind⟩ := h.find dest
    rw [hfind]
    cases found with
    | none => exact hfailed _
    | some q =>
      change Gives (if _ then _ else if _ then _ else _) _
      split
      · next hsame =>
        have hself := h.resized_self (h.found hfind).1
        rw [← hsame] at hself
        have hresized : s.Ensured dest size memory (none, s.resized q size, _) := .resized hfind
        rw [hself] at hresized
        exact Gives.of_some hresized
      · split
        · exact hfailed _
        · exact Gives.of_some (.resized hfind)

theorem Lawful.ensure (h : s.Lawful) (dest : Name) (hsmall : size < 2 ^ 61) (memory : FindMemory) :
    Gives (s.ensureIntResultArray dest size memory) (s.Ensured dest size memory) := by
  cases hplain : s.basicIntVariableExists dest with
  | true =>
    rw [ensureIntResultArray, hplain, if_pos rfl]
    exact Gives.of_some (.failed h)
  | false =>
    obtain ⟨found, hfind⟩ := h.find dest
    cases found with
    | none =>
      rw [ensure_none hplain hfind]
      exact h.dim dest hsmall memory
    | some q =>
      rw [ensureIntResultArray, hplain, if_neg nofun, hfind]
      exact h.redim dest size memory

end FindCtx

end RetroRocket
