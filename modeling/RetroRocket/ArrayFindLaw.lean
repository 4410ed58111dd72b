import RetroRocket.ArrayScans

/-!
# What ARRAYFIND finds

The second scan reads the array whose entry is in the bucket of the source by then. This is the
source, unless it is an integer array and the destination is new: the entry of the destination may
take that bucket, or move another entry there. What the statement leaves is then told by the matches
of the array that is read.
-/

namespace RetroRocket

namespace FindCtx

variable {s t : FindCtx} {cur : Scanned} {dest countVar : Name} {p : ℕ → Bool} {l : List ℕ}
  {out q w n size : ℕ} {memory : FindMemory} {stored : Stored IntArray}
  {again : (ℕ → Bucket IntArray) → Scanned}

/-! ## Results -/

def elements (s : FindCtx) (q : ℕ) : List ℤ :=
  (s.blocks (s.intArrays.bucket q).item.values).take (s.intArrays.bucket q).item.itemcount

def intElements (s : FindCtx) (var : Name) : Option (List ℤ) :=
  do (← s.findIntArray var).map s.elements

/-- The count variable has the number of the indices, and the destination holds them, or -1 if there
are none. -/
structure Exact (t : FindCtx) (dest countVar : Name) (indices : List ℕ) : Prop where
  count : ∃ count : BitVec 64, (t.program.vars .int).globals countVar = some ⟨.int count, false⟩ ∧
    count.toInt = indices.length
  elements : t.intElements dest = some (if indices = [] then [-1] else indices.map Nat.cast)

theorem LawfulEntry.elements (h : s.LawfulEntry (s.intArrays.bucket q).item) :
    s.elements q = s.blocks (s.intArrays.bucket q).item.values := by
  rw [FindCtx.elements, ← h.length, List.take_length]

theorem intElements_found (hfind : s.findIntArray dest = some (some q)) :
    s.intElements dest = some (s.elements q) := by
  rw [intElements, hfind]
  rfl

theorem Lawful.withBlock_elements (h : s.Lawful) (hfind : s.findIntArray dest = some (some q))
    {xs : List ℤ} (hxs : xs.length = (s.intArrays.bucket q).item.itemcount) :
    (s.withBlock (s.intArrays.bucket q).item.values xs).Lawful ∧
      (s.withBlock (s.intArrays.bucket q).item.values xs).intElements dest = some xs := by
  obtain ⟨hfull, -, hentry⟩ := h.found hfind
  have hlawful :=
    h.withBlock (w := (s.intArrays.bucket q).item.values) (hxs.trans hentry.length.symm)
  refine ⟨hlawful, ?_⟩
  rw [intElements_found (s := s.withBlock _ xs) hfind, (hlawful.entry q hfull).elements]
  exact congrArg some (blocks_withBlock ..)

theorem Lawful.store (h : s.Lawful) (hfind : s.findIntArray dest = some (some q))
    (hsteady : cur.Steady (s.intArrays.bucket q).item.values)
    (hp : ∀ i < cur.itemcount, cur.hit s i = some (p i)) :
    Gives (storeMatches cur dest (List.range cur.itemcount) 0 s) fun r =>
      r.2.Lawful ∧ r.2.program = s.program ∧
        (r.1 = none ↔ ((List.range cur.itemcount).filter p).length ≤
          (s.intArrays.bucket q).item.itemcount) ∧
        (r.1 = none → r.2.intElements dest =
          some (putFrom (s.elements q) 0 ((List.range cur.itemcount).filter p))) := by
  obtain ⟨hfull, -, hentry⟩ := h.found hfind
  have hrange : ∀ i ∈ List.range cur.itemcount, cur.hit s i = some (p i) :=
    fun i hi => hp i (List.mem_range.mp hi)
  obtain ⟨hdone, hfailed⟩ := storeMatches_eq (h.target hfind) rfl hsteady List.pairwise_lt_range
    (fun i _ => Nat.zero_le i) hrange (Nat.zero_le _)
  rw [Nat.zero_add, hentry.length] at hdone hfailed
  rw [hentry.elements]
  by_cases hle : ((List.range cur.itemcount).filter p).length ≤
    (s.intArrays.bucket q).item.itemcount
  · have hxs : (putFrom (s.blocks (s.intArrays.bucket q).item.values) 0
        ((List.range cur.itemcount).filter p)).length = (s.intArrays.bucket q).item.itemcount := by
      rw [length_putFrom (by rw [Nat.zero_add, hentry.length]; exact hle), hentry.length]
    obtain ⟨hlawful, helements⟩ := h.withBlock_elements hfind hxs
    exact ⟨_, hdone hle, hlawful, rfl, iff_of_true rfl hle, fun _ => helements⟩
  · obtain ⟨message, xs, hxs, hrun⟩ := hfailed (Nat.lt_of_not_le hle)
    exact ⟨_, hrun, (h.withBlock_elements hfind hxs).1, rfl, iff_of_false nofun hle, nofun⟩

/-! ## The count -/

def counted (s : FindCtx) (countVar : Name) (n : ℕ) : FindCtx :=
  { s with program := setGlobalMap .int countVar ⟨.int (BitVec.ofNat 64 n), false⟩ s.program }

theorem Lawful.counted (h : s.Lawful) (countVar : Name) (n : ℕ) :
    (s.counted countVar n).Lawful where
  table := h.table
  entry i hi :=
    have hentry := h.entry i hi
    ⟨hentry.valid, hentry.length, hentry.used, hentry.small⟩
  own := h.own
  doubles := h.doubles
  strings := h.strings

theorem globals_setGlobalMap (name : Name) (new : Variable) (ctx : BasicCtx) :
    ((setGlobalMap .int name new ctx).vars .int).globals =
      Function.update (ctx.vars .int).globals name (some new) := by
  rw [setGlobalMap]
  dsimp only
  rw [Function.update_self]

theorem locals_setGlobalMap (name : Name) (new : Variable) (ctx : BasicCtx) :
    ((setGlobalMap .int name new ctx).vars .int).locals = (ctx.vars .int).locals := by
  rw [setGlobalMap]
  dsimp only
  rw [Function.update_self]

theorem exists_counted (hne : dest ≠ countVar) (n : ℕ) :
    (s.counted countVar n).basicIntVariableExists dest = s.basicIntVariableExists dest := by
  have hfind : ∀ j, findVariable ((setGlobalMap .int countVar ⟨.int (BitVec.ofNat 64 n), false⟩
      s.program).vars .int) dest j = findVariable (s.program.vars .int) dest j := by
    intro j
    induction j with
    | zero => rw [findVariable, findVariable, globals_setGlobalMap, Function.update_of_ne hne]
    | succ j ih => rw [findVariable, findVariable, locals_setGlobalMap, ih]
  exact congrArg Option.isSome (hfind _)

theorem count_counted (s : FindCtx) (countVar : Name) (hn : n < 2 ^ 61) :
    ∃ count : BitVec 64, ((s.counted countVar n).program.vars .int).globals countVar =
      some ⟨.int count, false⟩ ∧ count.toInt = n := by
  refine ⟨BitVec.ofNat 64 n, ?_, ?_⟩
  · rw [FindCtx.counted]
    dsimp only
    rw [globals_setGlobalMap, Function.update_self]
  · rw [BitVec.toInt_eq_toNat_of_lt] <;> rw [BitVec.toNat_ofNat] <;> omega

theorem basicArrayfind_malformed (hvalid : validVar .int countVar = false)
    (hcount : s.countMatches cur = some n) :
    s.basicArrayfind cur again dest countVar memory = findError (malformedName countVar) s := by
  have hset : basicSetIntVariable countVar (BitVec.ofNat 64 n) s.program false false =
      .error (malformedName countVar) := if_pos hvalid
  simp only [basicArrayfind, hcount, Option.bind_eq_bind, Option.bind_some, hset]

theorem basicArrayfind_eq (hvalid : validVar .int countVar = true)
    (hcount : s.countMatches cur = some n) :
    s.basicArrayfind cur again dest countVar memory =
      if n < 1 then (s.counted countVar n).storeNone dest memory
      else (s.counted countVar n).storeFound again dest n memory := by
  have hset : basicSetIntVariable countVar (BitVec.ofNat 64 n) s.program false false =
      .ok (s.counted countVar n).program := basicSetVariable_global s.program hvalid _ false
  simp only [basicArrayfind, hcount, Option.bind_eq_bind, Option.bind_some, hset]
  rfl

/-! ## The destination is written -/

theorem findIntArray_resized (s : FindCtx) (q size : ℕ) (var : Name) :
    (s.resized q size).findIntArray var = s.findIntArray var := HashTable.find_change rfl

theorem Lawful.ready (h : s.Lawful) (hsmall : size < 2 ^ 61) {buckets : ℕ → Bucket IntArray}
    (he : s.Ensured dest size memory (none, t, buckets)) :
    t.Lawful ∧ t.program = s.program ∧ validVar .int dest = true ∧
      ∀ q, t.findIntArray dest = some (some q) → (t.intArrays.bucket q).item.itemcount = size := by
  cases he with
  | @resized q hfind =>
    obtain ⟨hfull, hname, hentry⟩ := h.found hfind
    refine ⟨h.resized hfull hsmall, rfl, hname ▸ hentry.valid, fun q' hq' => ?_⟩
    rw [findIntArray_resized, hfind] at hq'
    obtain rfl := Option.some.inj (Option.some.inj hq')
    exact congrArg IntArray.itemcount (HashTable.item_change_self ..)
  | @added stored hfind hvalid hplain hset hoom =>
    obtain ⟨stored', hset', hlawful, hdest, -⟩ := h.withArray hfind hvalid hsmall memory.table
    obtain rfl := Option.some.inj (hset.symm.trans hset')
    refine ⟨hlawful, rfl, hvalid, fun q hq => ?_⟩
    obtain ⟨hfull, hname, -⟩ := hlawful.found hq
    exact congrArg IntArray.itemcount (hdest q hfull hname)

theorem Lawful.elements_length (h : s.Lawful) (hfind : s.findIntArray dest = some (some q)) :
    (s.elements q).length = (s.intArrays.bucket q).item.itemcount := by
  have hentry := (h.found hfind).2.2
  rw [hentry.elements, hentry.length]

theorem Lawful.storeNone (h : s.Lawful) (dest : Name) (memory : FindMemory) :
    Gives (s.storeNone dest memory) fun r =>
      r.2.Lawful ∧ (r.1 = none → r.2.intElements dest = some [-1] ∧ r.2.program = s.program) := by
  obtain ⟨⟨error, t, buckets⟩, hrun, he⟩ := h.ensure dest (show 1 < 2 ^ 61 by norm_num) memory
  rw [FindCtx.storeNone, hrun]
  cases error with
  | some message =>
    cases he with
    | failed ht => exact Gives.of_some ⟨ht, fun hdone => absurd hdone (Option.some_ne_none _)⟩
  | none =>
    obtain ⟨ht, hprogram, hvalid, hcount⟩ := h.ready (by norm_num) he
    change Gives (t.basicSetIntArrayVariable dest 0 (-1)) _
    obtain ⟨found, hfind⟩ := ht.find dest
    cases found with
    | none =>
      rw [set_missing hvalid hfind]
      exact Gives.of_some ⟨ht, fun hdone => absurd hdone (Option.some_ne_none _)⟩
    | some q =>
      have hentry := (ht.found hfind).2.2
      have hone := hcount q hfind
      obtain ⟨x, hx⟩ := List.length_eq_one_iff.mp (hentry.length.trans hone)
      have hlength : ([-1] : List ℤ).length = (t.intArrays.bucket q).item.itemcount := hone.symm
      obtain ⟨hlawful, helements⟩ := ht.withBlock_elements hfind hlength
      rw [(ht.target hfind).set, hone, if_neg (by decide), hx]
      exact Gives.of_some ⟨hlawful, fun _ => ⟨helements, hprogram⟩⟩

theorem Lawful.storeFound_same (h : s.Lawful) (dest : Name) (memory : FindMemory) {m : ℕ}
    (hfound : ((List.range m).filter p) ≠ []) (hm : m < 2 ^ 61)
    (hagain : ∀ t buckets, s.Ensured dest ((List.range m).filter p).length memory
      (none, t, buckets) → (again buckets).itemcount = m ∧ (∀ w, (again buckets).Steady w) ∧
        ∀ i < m, (again buckets).hit t i = some (p i)) :
    Gives (s.storeFound again dest ((List.range m).filter p).length memory) fun r =>
      r.2.Lawful ∧
        (r.1 = none → r.2.intElements dest = some (((List.range m).filter p).map Nat.cast) ∧
        r.2.program = s.program) := by
  have hle : ((List.range m).filter p).length ≤ m :=
    (List.length_filter_le p _).trans (List.length_range).le
  have hsmall := Nat.lt_of_le_of_lt hle hm
  obtain ⟨⟨error, t, buckets⟩, hrun, he⟩ := h.ensure dest hsmall memory
  rw [FindCtx.storeFound, hrun]
  cases error with
  | some message =>
    cases he with
    | failed ht => exact Gives.of_some ⟨ht, nofun⟩
  | none =>
    obtain ⟨ht, hprogram, hvalid, hcount⟩ := h.ready hsmall he
    obtain ⟨hitemcount, hsteady, hp⟩ := hagain t buckets he
    change Gives (storeMatches (again buckets) dest (List.range (again buckets).itemcount) 0 t) _
    rw [hitemcount]
    obtain ⟨found, hfind⟩ := ht.find dest
    cases found with
    | none =>
      rw [storeMatches_missing hvalid hfind (fun i hi => hp i (List.mem_range.mp hi)),
        if_neg hfound]
      exact Gives.of_some ⟨ht, nofun⟩
    | some q =>
      have hstore := ht.store hfind (hsteady _) (p := p) fun i hi => hp i (hitemcount ▸ hi)
      rw [hitemcount] at hstore
      refine hstore.mono fun r ⟨hlawful, hsame, _, helements⟩ => ⟨hlawful, fun hnone => ?_⟩
      refine ⟨?_, hsame.trans hprogram⟩
      rw [helements hnone, putFrom_zero]
      rw [ht.elements_length hfind, hcount q hfind]

/-! ## The source -/

def sourceIndices (s : FindCtx) (source : Name) (needle : Needle) : List ℕ :=
  match s.findIntArray source with
  | some (some p) => matchIndices (· == needle.int) (s.elements p)
  | _ =>
    match s.doubleArrays source with
    | some l => matchIndices (doubleEq · needle.double) l
    | none =>
      match s.stringArrays source with
      | some l =>
        matchIndices (fun value => BasicExpr.strcmp (value.getD []) needle.string == .eq) l
      | none => []

/-- The indices that are found in the array whose entry is in bucket `p` of the source when the
destination has been added. -/
def indicesAfter (s : FindCtx) (p : ℕ) (needle : ℤ) (size : ℕ) (stored : Stored IntArray) :
    List ℕ :=
  matchIndices (· == needle) ((s.withArray size stored.table).blocks (stored.memory p).item.values)

/-- The second scan finds the indices `again` instead of `found`, but not more of them. It is not
the case either that it finds none and `found` is just 0, which a new array tells anyway. If the
table has lost the entry of the destination, there is none to store. -/
structure WrongScan (dest : Name) (found again : List ℕ) (stored : Stored IntArray) : Prop where
  differ : again ≠ found
  fits : again.length ≤ found.length
  zero : again = [] → found = [0] → hashmapGet stored.table dest = some none
  lost : hashmapGet stored.table dest = some none → again = []

/-- A new destination puts the entry of another array, perhaps its own, in the bucket of the source,
and the matches of that array are others. -/
structure Misread (s : FindCtx) (source dest countVar : Name) (needle : ℤ) (p : ℕ) (found : List ℕ)
    (stored : Stored IntArray) : Prop where
  apart : source ≠ dest ∧ source ≠ countVar ∧ dest ≠ countVar
  bucket : s.findIntArray source = some (some p)
  new : s.findIntArray dest = some none
  valid : validVar .int dest = true ∧ validVar .int countVar = true
  plain : s.basicIntVariableExists dest = false
  indices : matchIndices (· == needle) (s.elements p) = found
  nonempty : found ≠ []
  added : hashmapSet true s.intArrays ⟨dest, found.length, s.used⟩ = some stored
  wrong : WrongScan dest found (s.indicesAfter p needle found.length stored) stored

theorem LawfulEntry.hit {e : IntArray} (h : s.LawfulEntry e) (needle : ℤ) :
    (∀ i < e.itemcount,
        (scanInt needle e).hit s i = some (((s.blocks e.values)[i]?).any (· == needle))) ∧
      (List.range e.itemcount).filter (fun i => ((s.blocks e.values)[i]?).any (· == needle)) =
        matchIndices (· == needle) (s.blocks e.values) :=
  ⟨fun _ hi => map_getElem_some _ (h.length ▸ hi), filter_range_eq _ h.length⟩

theorem Lawful.entry_memory (h : s.Lawful) (hfind : s.findIntArray dest = some none)
    (hvalid : validVar .int dest = true) (hsmall : size < 2 ^ 61) {room : Bool}
    (hset : hashmapSet room s.intArrays ⟨dest, size, s.used⟩ = some stored)
    (hfull : (s.intArrays.bucket q).Full) :
    (s.withArray size stored.table).LawfulEntry (stored.memory q).item := by
  obtain ⟨stored', hset', -, -, hmemory⟩ := h.withArray hfind hvalid hsmall room
  obtain rfl := Option.some.inj (hset.symm.trans hset')
  rcases hmemory q hfull with hitem | ⟨j, hj, hitem⟩
  · rw [hitem]
    refine ⟨hvalid, ?_, Nat.lt_succ_self _, hsmall⟩
    change (Function.update s.blocks s.used (List.replicate size 0) s.used).length = size
    rw [Function.update_self, List.length_replicate]
  · rw [← hitem]
    obtain ⟨hname, hlength, hused, hentry⟩ := h.entry j hj
    refine ⟨hname, ?_, Nat.lt_succ_of_lt hused, hentry⟩
    change (Function.update s.blocks s.used (List.replicate size 0) _).length = _
    rw [Function.update_of_ne hused.ne]
    exact hlength

theorem Lawful.store_new (h : s.Lawful) (hfind : s.findIntArray dest = some none)
    (hvalid : validVar .int dest = true) (hsmall : size < 2 ^ 61) {room : Bool}
    (hset : hashmapSet room s.intArrays ⟨dest, size, s.used⟩ = some stored)
    (hfull : (s.intArrays.bucket q).Full) (needle : ℤ) :
    Gives (storeMatches (scanInt needle (stored.memory q).item) dest
        (List.range (stored.memory q).item.itemcount) 0 (s.withArray size stored.table)) fun r =>
      r.2.Lawful ∧ r.2.program = s.program ∧
        ((s.withArray size stored.table).findIntArray dest = some none →
          (r.1 = none ↔ s.indicesAfter q needle size stored = []) ∧
            (r.1 = none → r.2.intElements dest = none)) ∧
        ∀ d, (s.withArray size stored.table).findIntArray dest = some (some d) →
          (r.1 = none ↔ (s.indicesAfter q needle size stored).length ≤ size) ∧
            (r.1 = none → r.2.intElements dest =
              some (putFrom (List.replicate size 0) 0 (s.indicesAfter q needle size stored))) := by
  obtain ⟨hhit, hindices⟩ := (h.entry_memory hfind hvalid hsmall hset hfull).hit needle
  obtain ⟨stored', hset', ht, hdest, -⟩ := h.withArray hfind hvalid hsmall room
  obtain rfl := Option.some.inj (hset.symm.trans hset')
  obtain ⟨found, hnow⟩ := ht.find dest
  cases found with
  | none =>
    rw [storeMatches_missing hvalid hnow (fun i hi => hhit i (List.mem_range.mp hi)), hindices]
    split
    · next hnone =>
      refine Gives.of_some ⟨ht, rfl, fun _ => ⟨iff_of_true rfl hnone, fun _ => ?_⟩, fun d hd => ?_⟩
      · rw [intElements, hnow]
        rfl
      · exact absurd (hnow.symm.trans hd) nofun
    · next hsome =>
      refine Gives.of_some ⟨ht, rfl, fun _ => ⟨iff_of_false nofun hsome, nofun⟩, fun d hd => ?_⟩
      exact absurd (hnow.symm.trans hd) nofun
  | some d =>
    obtain ⟨hfull', hname, hentry⟩ := ht.found hnow
    have hitem := hdest d hfull' hname
    have hzeros : (s.withArray size stored.table).elements d = List.replicate size 0 := by
      rw [hentry.elements]
      change Function.update s.blocks s.used _ (stored.table.bucket d).item.values = _
      rw [hitem]
      exact Function.update_self ..
    have hcount : ((s.withArray size stored.table).intArrays.bucket d).item.itemcount = size :=
      congrArg IntArray.itemcount hitem
    have hstore := ht.store hnow (steady_scanInt needle (stored.memory q).item _) hhit
    have hitemcount : (scanInt needle (stored.memory q).item).itemcount =
      (stored.memory q).item.itemcount := rfl
    rw [hitemcount, hindices, hzeros, hcount] at hstore
    refine hstore.mono fun r ⟨hlawful, hprogram, hiff, helements⟩ => ?_
    refine ⟨hlawful, hprogram, fun hmissing => absurd (hnow.symm.trans hmissing) nofun,
      fun d' _ => ?_⟩
    exact ⟨hiff, helements⟩

theorem Lawful.store_new_iff (h : s.Lawful) {found : List ℕ}
    (hfind : s.findIntArray dest = some none)
    (hvalid : validVar .int dest = true) (hsmall : found.length < 2 ^ 61) {room : Bool}
    (hset : hashmapSet room s.intArrays ⟨dest, found.length, s.used⟩ = some stored)
    (hfull : (s.intArrays.bucket q).Full) (needle : ℤ) (hsorted : found.Pairwise (· < ·))
    (hfound : found ≠ []) :
    Gives (storeMatches (scanInt needle (stored.memory q).item) dest
        (List.range (stored.memory q).item.itemcount) 0
        (s.withArray found.length stored.table)) fun r =>
      r.2.Lawful ∧ r.2.program = s.program ∧
        ((r.1 = none → r.2.intElements dest = some (found.map Nat.cast)) ↔
          ¬ WrongScan dest found (s.indicesAfter q needle found.length stored) stored) := by
  obtain ⟨stored', hset', ht, -⟩ := h.withArray hfind hvalid hsmall room
  obtain rfl := Option.some.inj (hset.symm.trans hset')
  refine (h.store_new hfind hvalid hsmall hset hfull needle).mono fun r hr => ?_
  obtain ⟨hlawful, hprogram, hmissing, hthere⟩ := hr
  refine ⟨hlawful, hprogram, ?_⟩
  generalize s.indicesAfter q needle found.length stored = again at hmissing hthere ⊢
  obtain ⟨now, hnow⟩ := ht.find dest
  cases now with
  | none =>
    obtain ⟨hiff, helements⟩ := hmissing hnow
    constructor
    · intro hexact hwrong
      have hnone := hiff.mpr (hwrong.lost hnow)
      exact absurd ((helements hnone).symm.trans (hexact hnone)) nofun
    · intro hnot hnone
      have hempty := hiff.mp hnone
      refine absurd ⟨?_, ?_, fun _ _ => hnow, fun _ => hempty⟩ hnot
      · rw [hempty]
        exact hfound.symm
      · rw [hempty]
        exact Nat.zero_le _
  | some d =>
    obtain ⟨hiff, helements⟩ := hthere d hnow
    have hkept : hashmapGet stored.table dest ≠ some none := fun hlost =>
      absurd (hlost.symm.trans hnow) nofun
    constructor
    · intro hexact hwrong
      have hnone := hiff.mpr hwrong.fits
      have hput := Option.some.inj ((helements hnone).symm.trans (hexact hnone))
      rcases (putFrom_replicate_iff hsorted hwrong.fits).mp hput with hsame | ⟨hempty, hone⟩
      · exact hwrong.differ hsame
      · exact hkept (hwrong.zero hempty hone)
    · intro hnot hnone
      have hfits := hiff.mp hnone
      rw [helements hnone]
      refine congrArg some ((putFrom_replicate_iff hsorted hfits).mpr ?_)
      by_contra hother
      obtain ⟨hdiffer, hzero⟩ := not_or.mp hother
      exact hnot ⟨hdiffer, hfits, fun hempty hone => absurd ⟨hempty, hone⟩ hzero,
        fun hlost => absurd hlost hkept⟩

/-! ## The statement -/

theorem Lawful.search_same (h : s.Lawful) (dest countVar : Name) (memory : FindMemory) {m : ℕ}
    (hm : m < 2 ^ 61) (hitemcount : cur.itemcount = m) (hp : ∀ i < m, cur.hit s i = some (p i))
    (hagain : (List.range m).filter p ≠ [] → ∀ t buckets,
      (s.counted countVar ((List.range m).filter p).length).Ensured dest
      ((List.range m).filter p).length
        memory (none, t, buckets) →
      (again buckets).itemcount = m ∧ (∀ w, (again buckets).Steady w) ∧
        ∀ i < m, (again buckets).hit t i = some (p i)) :
    Gives (s.basicArrayfind cur again dest countVar memory) fun r =>
      r.2.Lawful ∧ (r.1 = none → r.2.Exact dest countVar ((List.range m).filter p)) := by
  have hcount : s.countMatches cur = some ((List.range m).filter p).length := by
    rw [countMatches_eq (hitemcount ▸ hp), hitemcount]
  have hsmall : ((List.range m).filter p).length < 2 ^ 61 :=
    Nat.lt_of_le_of_lt ((List.length_filter_le p _).trans List.length_range.le) hm
  cases hvalid : validVar .int countVar with
  | false =>
    rw [basicArrayfind_malformed hvalid hcount]
    exact Gives.of_some ⟨h, nofun⟩
  | true =>
    rw [basicArrayfind_eq hvalid hcount]
    have hcounted := h.counted countVar ((List.range m).filter p).length
    have hexact : ∀ {r : FindCtx},
        r.program = (s.counted countVar ((List.range m).filter p).length).program →
        r.intElements dest = some (if (List.range m).filter p = [] then [-1] else
          ((List.range m).filter p).map Nat.cast) →
              r.Exact dest countVar ((List.range m).filter p) := by
      intro r hprogram helements
      refine ⟨?_, helements⟩
      rw [hprogram]
      exact count_counted s countVar hsmall
    split
    · next hnone =>
      have hnil : (List.range m).filter p = [] := List.eq_nil_of_length_eq_zero (by omega)
      refine (hcounted.storeNone dest memory).mono fun r hr => ⟨hr.1, fun hdone => ?_⟩
      obtain ⟨helements, hprogram⟩ := hr.2 hdone
      refine hexact hprogram ?_
      rw [if_pos hnil]
      exact helements
    · next hsome =>
      have hne : (List.range m).filter p ≠ [] := by
        intro hnil
        rw [hnil] at hsome
        exact hsome Nat.one_pos
      refine (hcounted.storeFound_same dest memory hne hm (hagain hne)).mono fun r hr =>
        ⟨hr.1, fun hdone => ?_⟩
      obtain ⟨helements, hprogram⟩ := hr.2 hdone
      refine hexact hprogram ?_
      rw [if_neg hne]
      exact helements

theorem Lawful.search_list (h : s.Lawful) {α : Type} (f : α → Bool) (l : List α)
    (hl : l.length < 2 ^ 61) (dest countVar : Name) (memory : FindMemory) :
    Gives (s.basicArrayfind ⟨l.length, fun _ i => (l[i]?).map f⟩
        (fun _ => ⟨l.length, fun _ i => (l[i]?).map f⟩) dest countVar memory) fun r =>
      r.2.Lawful ∧ (r.1 = none → r.2.Exact dest countVar (matchIndices f l)) := by
  have hhit : ∀ i < l.length, (l[i]?).map f = some ((l[i]?).any f) :=
    fun i hi => map_getElem_some f hi
  exact h.search_same dest countVar memory hl rfl hhit fun _ _ _ _ =>
    ⟨rfl, fun _ _ _ _ _ => rfl, hhit⟩

theorem Lawful.search_int (h : s.Lawful) {source : Name} {b : ℕ}
    (hb : s.findIntArray source = some (some b)) (hsource : source ≠ dest) (needle : ℤ)
    (countVar : Name) (memory : FindMemory)
    (hthere : matchIndices (· == needle) (s.elements b) ≠ [] → s.findIntArray dest ≠ some none) :
    Gives (s.basicArrayfindInt b needle dest countVar memory) fun r =>
      r.2.Lawful ∧
        (r.1 = none → r.2.Exact dest countVar (matchIndices (· == needle) (s.elements b))) := by
  obtain ⟨hfull, hname, hentry⟩ := h.found hb
  obtain ⟨hhit, hindices⟩ := hentry.hit needle
  rw [hentry.elements] at hthere ⊢
  rw [← hindices] at hthere ⊢
  refine h.search_same dest countVar memory hentry.small rfl hhit fun hne t buckets he => ?_
  cases he with
  | @added stored hfind _ _ _ _ => exact absurd hfind (hthere hne)
  | @resized q hfind =>
    have hbq : b ≠ q := by
      rintro rfl
      exact hsource (hname.symm.trans (h.found hfind).2.1)
    have hlawful := h.counted countVar ((List.range (s.intArrays.bucket b).item.itemcount).filter
      fun i => ((s.blocks (s.intArrays.bucket b).item.values)[i]?).any (· == needle)).length
    obtain ⟨hitem, hblocks⟩ := hlawful.resized_other hfull (h.found hfind).1 hbq _
    rw [hitem]
    refine ⟨rfl, steady_scanInt needle _, fun i hi => ?_⟩
    rw [scanInt]
    dsimp only
    rw [hblocks]
    exact hhit i hi

theorem Lawful.storeFound_new (h : s.Lawful) {found : List ℕ}
    (hfind : s.findIntArray dest = some none)
    (hsmall : found.length < 2 ^ 61) (hfull : (s.intArrays.bucket q).Full) (needle : ℤ)
    (hsorted : found.Pairwise (· < ·)) (hfound : found ≠ []) (memory : FindMemory) :
    Gives (s.storeFound (fun buckets => scanInt needle (buckets q).item) dest found.length
      memory) fun r =>
      r.2.Lawful ∧ (r.1 = none → r.2.program = s.program ∧ validVar .int dest = true ∧
        s.basicIntVariableExists dest = false ∧
        ∃ stored, hashmapSet true s.intArrays ⟨dest, found.length, s.used⟩ = some stored ∧
          (r.2.intElements dest = some (found.map Nat.cast) ↔
            ¬ WrongScan dest found (s.indicesAfter q needle found.length stored) stored)) := by
  obtain ⟨⟨error, t, buckets⟩, hrun, he⟩ :=
    h.ensure dest hsmall memory
  rw [FindCtx.storeFound, hrun]
  cases he with
  | failed ht => exact Gives.of_some ⟨ht, nofun⟩
  | @resized q' hfind' => exact absurd (hfind.symm.trans hfind') nofun
  | @added stored _ hvalid hplain hset hoom =>
    refine (h.store_new_iff hfind hvalid hsmall hset hfull needle hsorted hfound).mono fun r hr =>
      ?_
    obtain ⟨hlawful, hprogram, hiff⟩ := hr
    refine ⟨hlawful, fun hnone =>
      ⟨hprogram, hvalid, hplain, stored, HashTable.set_true hset hoom, ?_⟩⟩
    exact (forall_prop_of_true hnone).symm.trans hiff

theorem Lawful.storeFound_wrong (h : s.Lawful) {found : List ℕ}
    (hfind : s.findIntArray dest = some none)
    (hsmall : found.length < 2 ^ 61) (hfull : (s.intArrays.bucket q).Full) (needle : ℤ)
    (hsorted : found.Pairwise (· < ·)) (hfound : found ≠ []) (hvalid : validVar .int dest = true)
    (hplain : s.basicIntVariableExists dest = false)
    (hset : hashmapSet true s.intArrays ⟨dest, found.length, s.used⟩ = some stored)
    (hwrong : WrongScan dest found (s.indicesAfter q needle found.length stored) stored) :
    ∃ t, s.storeFound (fun buckets => scanInt needle (buckets q).item) dest found.length
        ⟨true, true, true, true⟩ = some (none, t) ∧
            t.intElements dest ≠ some (found.map Nat.cast) := by
  obtain ⟨⟨error, t⟩, hrun, -, -, hiff⟩ :=
    h.store_new_iff hfind hvalid hsmall hset hfull needle hsorted hfound
  have hnot : ¬ (error = none → t.intElements dest = some (found.map Nat.cast)) :=
    fun himp => hiff.mp himp hwrong
  obtain ⟨rfl, helements⟩ := Classical.not_imp.mp hnot
  refine ⟨t, ?_, helements⟩
  rw [FindCtx.storeFound, ensure_none hplain hfind,
    dim_new hplain hfind hvalid (List.length_pos_of_ne_nil hfound) ⟨rfl, rfl⟩ hset,
    HashTable.oom_set_true hset]
  exact hrun

theorem Lawful.first_scan (h : s.Lawful) {source : Name} {b : ℕ} {needle : ℤ} {found : List ℕ}
    (hb : s.findIntArray source = some (some b))
    (hindices : matchIndices (· == needle) (s.elements b) = found) :
    (s.intArrays.bucket b).Full ∧
      s.countMatches (scanInt needle (s.intArrays.bucket b).item) = some found.length ∧
      found.length < 2 ^ 61 ∧ found.Pairwise (· < ·) := by
  obtain ⟨hfull, -, hentry⟩ := h.found hb
  obtain ⟨hhit, hfilter⟩ := hentry.hit needle
  rw [hentry.elements] at hindices
  refine ⟨hfull, ?_, ?_, hindices ▸ pairwise_matchIndices _ _⟩
  · rw [countMatches_eq hhit]
    exact congrArg (fun l => some (List.length l)) (hfilter.trans hindices)
  · refine Nat.lt_of_le_of_lt ?_ hentry.small
    rw [← hindices, ← hentry.length]
    exact length_matchIndices_le _ _

theorem Lawful.search_new (h : s.Lawful) {source : Name} {b : ℕ} {needle : ℤ} {found : List ℕ}
    (hb : s.findIntArray source = some (some b)) (hfind : s.findIntArray dest = some none)
    (hindices : matchIndices (· == needle) (s.elements b) = found) (hfound : found ≠ [])
    (hcount : dest ≠ countVar) (memory : FindMemory) :
    Gives (s.basicArrayfindInt b needle dest countVar memory) fun r =>
      r.2.Lawful ∧ (r.1 = none → (validVar .int dest = true ∧ validVar .int countVar = true) ∧
        s.basicIntVariableExists dest = false ∧
        ∃ stored, hashmapSet true s.intArrays ⟨dest, found.length, s.used⟩ = some stored ∧
          (r.2.Exact dest countVar found ↔
            ¬ WrongScan dest found (s.indicesAfter b needle found.length stored) stored)) := by
  obtain ⟨hfull, hmatches, hsmall, hsorted⟩ := h.first_scan hb hindices
  have hone : ¬ found.length < 1 := Nat.not_lt.mpr (List.length_pos_of_ne_nil hfound)
  rw [basicArrayfindInt]
  cases hvalid : validVar .int countVar with
  | false =>
    rw [basicArrayfind_malformed hvalid hmatches]
    exact Gives.of_some ⟨h, nofun⟩
  | true =>
    rw [basicArrayfind_eq hvalid hmatches, if_neg hone]
    refine ((h.counted countVar found.length).storeFound_new hfind hsmall hfull
      needle hsorted hfound
      memory).mono fun r hr => ⟨hr.1, fun hnone => ?_⟩
    obtain ⟨hprogram, hdest, hplain, stored, hset, hiff⟩ := hr.2 hnone
    rw [exists_counted hcount] at hplain
    refine ⟨⟨hdest, rfl⟩, hplain, stored, hset, ?_⟩
    have hexact : r.2.Exact dest countVar found ↔
        r.2.intElements dest = some (found.map Nat.cast) := by
      constructor
      · intro hexact
        rw [hexact.elements, if_neg hfound]
      · intro helements
        refine ⟨?_, by rw [helements, if_neg hfound]⟩
        rw [hprogram]
        exact count_counted s countVar hsmall
    exact hexact.trans hiff

theorem Misread.search (h : s.Lawful) {source : Name} {b : ℕ} {needle : ℤ} {found : List ℕ}
    (hm : s.Misread source dest countVar needle b found stored) :
    ∃ t, s.basicArrayfindInt b needle dest countVar ⟨true, true, true, true⟩ = some (none, t) ∧
      ¬ t.Exact dest countVar found := by
  obtain ⟨hfull, hmatches, hsmall, hsorted⟩ := h.first_scan hm.bucket hm.indices
  have hone : ¬ found.length < 1 := Nat.not_lt.mpr (List.length_pos_of_ne_nil hm.nonempty)
  have hplain : (s.counted countVar found.length).basicIntVariableExists dest = false := by
    rw [exists_counted hm.apart.2.2]
    exact hm.plain
  obtain ⟨t, hrun, helements⟩ :=
    (h.counted countVar found.length).storeFound_wrong hm.new hsmall hfull needle
      hsorted hm.nonempty
      hm.valid.1 hplain hm.added hm.wrong
  refine ⟨t, ?_, fun hexact => helements ?_⟩
  · rw [basicArrayfindInt, basicArrayfind_eq hm.valid.2 hmatches, if_neg hone]
    exact hrun
  · rw [hexact.elements, if_neg hm.nonempty]

variable {source : Name} {needle : Needle}

theorem arrayfindStatement_int {b : ℕ} (hb : s.findIntArray source = some (some b)) :
    s.arrayfindStatement source needle dest countVar memory =
      checkNames source dest countVar s
        (s.basicArrayfindInt b needle.int dest countVar memory) := by
  rw [arrayfindStatement, hb]
  rfl

theorem checkNames_gives {search : FindResult} {Q : Option String × FindCtx → Prop}
    (herror : ∀ message, Q (some message, s))
    (hsearch : source ≠ dest → source ≠ countVar → dest ≠ countVar → Gives search Q) :
    Gives (checkNames source dest countVar s search) Q := by
  rw [checkNames]
  split
  · exact Gives.of_some (herror _)
  · next hdest =>
    split
    · exact Gives.of_some (herror _)
    · next hcount =>
      obtain ⟨hsource, hcount⟩ := not_or.mp hcount
      exact hsearch hdest hsource hcount

/-- The statement comes to an end. Unless it misreads the source, what it finds without an error is
right. -/
theorem Lawful.arrayfind (h : s.Lawful) (source : Name) (needle : Needle) (dest countVar : Name)
    (memory : FindMemory) :
    Gives (s.arrayfindStatement source needle dest countVar memory) fun r =>
      r.2.Lawful ∧ (r.1 = none →
        (¬ ∃ b found stored, s.Misread source dest countVar needle.int b found stored) →
        r.2.Exact dest countVar (s.sourceIndices source needle)) := by
  obtain ⟨slot, hwhere⟩ := h.find source
  cases slot with
  | some b =>
    have hindices :
        s.sourceIndices source needle = matchIndices (· == needle.int) (s.elements b) := by
      rw [sourceIndices, hwhere]
    rw [arrayfindStatement_int hwhere, hindices]
    refine checkNames_gives (fun _ => ⟨h, nofun⟩) fun hdest hsource hcount => ?_
    by_cases hnew : matchIndices (· == needle.int) (s.elements b) ≠ [] ∧
      s.findIntArray dest = some none
    · refine (h.search_new hwhere hnew.2 rfl hnew.1 hcount memory).mono fun r hr => ⟨hr.1, ?_⟩
      intro hnone hread
      obtain ⟨hvalid, hplain, stored, hset, hiff⟩ := hr.2 hnone
      refine hiff.mpr fun hwrong => ?_
      have hmisread : s.Misread source dest countVar needle.int b _ stored :=
        ⟨⟨hdest, hsource, hcount⟩, hwhere, hnew.2, hvalid, hplain, rfl, hnew.1, hset, hwrong⟩
      exact hread ⟨b, _, stored, hmisread⟩
    · have hthere := fun hsome hfind => hnew ⟨hsome, hfind⟩
      refine (h.search_int hwhere hdest needle.int countVar memory hthere).mono fun r hr => ?_
      exact ⟨hr.1, fun hnone _ => hr.2 hnone⟩
  | none =>
    have hunread : ∀ {t : FindCtx} {indices : List ℕ} {r : Option String × FindCtx},
        r.2.Lawful ∧ (r.1 = none → r.2.Exact dest countVar indices) →
        r.2.Lawful ∧ (r.1 = none →
          (¬ ∃ b found stored, t.Misread source dest countVar needle.int b found stored) →
          r.2.Exact dest countVar indices) := fun hr => ⟨hr.1, fun hnone _ => hr.2 hnone⟩
    rw [arrayfindStatement, hwhere, sourceIndices, hwhere]
    change Gives (match s.doubleArrays source with | some elements => _ | none => _) _
    cases hdouble : s.doubleArrays source with
    | some l =>
      refine checkNames_gives (fun _ => ⟨h, nofun⟩) fun _ _ _ => ?_
      exact (h.search_list (doubleEq · needle.double) l (h.doubles source l hdouble) dest countVar
        memory).mono fun r hr => hunread hr
    | none =>
      dsimp only
      cases hstring : s.stringArrays source with
      | some l =>
        refine checkNames_gives (fun _ => ⟨h, nofun⟩) fun _ _ _ => ?_
        exact (h.search_list (fun value => BasicExpr.strcmp (value.getD []) needle.string == .eq) l
          (h.strings source l hstring) dest countVar memory).mono fun r hr => hunread hr
      | none => exact Gives.of_some ⟨h, nofun⟩

/-! ## Programs -/

theorem lawful_init (program : BasicCtx) : (init program).Lawful where
  table := HashTable.lawful_empty (by omega)
  entry _ hi := absurd rfl hi
  own _ _ hi := absurd rfl hi
  doubles _ _ := nofun
  strings _ _ := nofun

theorem Ensured.lawful {r : Option String × FindCtx × (ℕ → Bucket IntArray)} (h : s.Lawful)
    (hsmall : size < 2 ^ 61) (he : s.Ensured dest size memory r) : r.2.1.Lawful := by
  obtain ⟨error, t, buckets⟩ := r
  cases error with
  | none => exact (h.ready hsmall he).1
  | some message =>
    cases he with
    | failed ht => exact ht

theorem Lawful.set (h : s.Lawful) (var : Name) (index : ℕ) (value : ℤ) :
    Gives (s.basicSetIntArrayVariable var index value) fun r => r.2.Lawful := by
  cases hvalid : validVar .int var with
  | false =>
    rw [basicSetIntArrayVariable, hvalid, if_pos rfl]
    exact Gives.of_some h
  | true =>
    obtain ⟨found, hfind⟩ := h.find var
    cases found with
    | none =>
      rw [set_missing hvalid hfind]
      exact Gives.of_some h
    | some q =>
      rw [(h.target hfind).set]
      split
      · exact Gives.of_some h
      · refine Gives.of_some (h.withBlock ?_)
        exact List.length_set

def Fits : FindCall → Prop
  | .dim _ size _ | .redim _ size _ => size < 2 ^ 61
  | .double _ elements => ∀ l, elements = some l → l.length < 2 ^ 61
  | .string _ elements => ∀ l, elements = some l → l.length < 2 ^ 61
  | _ => True

theorem Lawful.call (h : s.Lawful) {c : FindCall} (hc : Fits c) : Gives (s.call c) Lawful := by
  have hupdate : ∀ {α : Type} {arrays : Name → Option (List α)} {var : Name}
      {elements : Option (List α)}, (∀ var l, arrays var = some l → l.length < 2 ^ 61) →
      (∀ l, elements = some l → l.length < 2 ^ 61) →
      ∀ v l, Function.update arrays var elements v = some l → l.length < 2 ^ 61 := by
    intro α arrays var elements harrays helements v l hl
    by_cases hv : v = var
    · subst hv
      rw [Function.update_self] at hl
      exact helements l hl
    · rw [Function.update_of_ne hv] at hl
      exact harrays v l hl
  have hentry : ∀ {t : FindCtx}, t.blocks = s.blocks → t.used = s.used →
      ∀ i, (s.intArrays.bucket i).Full → t.LawfulEntry (s.intArrays.bucket i).item := by
    intro t hblocks hused i hi
    obtain ⟨hvalid, hlength, hbelow, hsmall⟩ := h.entry i hi
    exact ⟨hvalid, by rwa [hblocks], by rwa [hused], hsmall⟩
  cases c with
  | dim var size memory =>
    obtain ⟨r, hrun, he⟩ := h.dim var hc memory
    exact ⟨_, congrArg (Option.map _) hrun, he.lawful h hc⟩
  | redim var size memory =>
    obtain ⟨r, hrun, he⟩ := h.redim var size memory
    exact ⟨_, congrArg (Option.map _) hrun, he.lawful h hc⟩
  | set var index value =>
    obtain ⟨r, hrun, hr⟩ := h.set var index value
    exact ⟨_, congrArg (Option.map _) hrun, hr⟩
  | arrayfind source needle dest countVar memory =>
    obtain ⟨r, hrun, hr, -⟩ := h.arrayfind source needle dest countVar memory
    exact ⟨_, congrArg (Option.map _) hrun, hr⟩
  | double var elements =>
    exact Gives.of_some ⟨h.table, hentry rfl rfl, h.own, hupdate h.doubles hc, h.strings⟩
  | string var elements =>
    exact Gives.of_some ⟨h.table, hentry rfl rfl, h.own, h.doubles, hupdate h.strings hc⟩
  | plain program => exact Gives.of_some ⟨h.table, hentry rfl rfl, h.own, h.doubles, h.strings⟩

theorem Lawful.run (h : s.Lawful) {calls : List FindCall} (hcalls : ∀ c ∈ calls, Fits c) :
    Gives (calls.foldlM FindCtx.call s) Lawful :=
  Gives.foldlM h fun _ ht c hc => ht.call (hcalls c hc)

/-- In every lawful context the statement comes to an end. What it finds without an error is right,
whatever memory there is, exactly if it does not misread the source. -/
theorem exact_iff_not_misread (h : s.Lawful) (source : Name) (needle : Needle)
    (dest countVar : Name) :
    (∀ memory, ∃ r, s.arrayfindStatement source needle dest countVar memory = some r ∧ r.2.Lawful) ∧
      ((∀ memory t, s.arrayfindStatement source needle dest countVar memory = some (none, t) →
          t.Exact dest countVar (s.sourceIndices source needle)) ↔
        ¬ ∃ b found stored, s.Misread source dest countVar needle.int b found stored) := by
  refine ⟨fun memory => ?_, fun hexact => ?_, fun hread memory t hrun => ?_⟩
  · obtain ⟨r, hrun, hlawful, -⟩ := h.arrayfind source needle dest countVar memory
    exact ⟨r, hrun, hlawful⟩
  · rintro ⟨b, found, stored, hmisread⟩
    obtain ⟨t, hrun, hwrong⟩ := hmisread.search h
    obtain ⟨hdest, hsource, hcount⟩ := hmisread.apart
    have hindices : s.sourceIndices source needle = found := by
      rw [sourceIndices, hmisread.bucket]
      exact hmisread.indices
    refine hwrong (hindices ▸ hexact ⟨true, true, true, true⟩ t ?_)
    rw [arrayfindStatement_int hmisread.bucket, checkNames, if_neg hdest,
      if_neg (not_or.mpr ⟨hsource, hcount⟩)]
    exact hrun
  · obtain ⟨r, hrun', -, hright⟩ := h.arrayfind source needle dest countVar memory
    obtain rfl := Option.some.inj (hrun.symm.trans hrun')
    exact hright rfl hread

/-- `DIM A,1`, `DIM B,2` and `B(1) = 5`. -/
def neighbours : List FindCall :=
  [.dim ['A'] 1 ⟨true, true, true, true⟩, .dim ['B'] 2 ⟨true, true, true, true⟩, .set ['B'] 1 5]

theorem fits_neighbours : ∀ c ∈ neighbours, Fits c := by
  have hone : 1 < 2 ^ 61 := by decide
  have htwo : 2 < 2 ^ 61 := by decide
  exact List.forall_mem_cons.mpr ⟨hone, List.forall_mem_cons.mpr
    ⟨htwo, List.forall_mem_singleton.mpr trivial⟩⟩

theorem exact_iff_not_misread_neighbours : ∃ s, neighbours.foldlM call (init .init) = some s ∧
    (∀ memory, ∃ r, s.arrayfindStatement ['B'] ⟨5, 0, []⟩ ['E'] ['N'] memory = some r ∧
      r.2.Lawful) ∧
      ((∀ memory t, s.arrayfindStatement ['B'] ⟨5, 0, []⟩ ['E'] ['N'] memory = some (none, t) →
          t.Exact ['E'] ['N'] (s.sourceIndices ['B'] ⟨5, 0, []⟩)) ↔
        ¬ ∃ b found stored, s.Misread ['B'] ['E'] ['N'] 5 b found stored) := by
  obtain ⟨s, hrun, hs⟩ := (lawful_init .init).run fits_neighbours
  exact ⟨s, hrun, exact_iff_not_misread hs ['B'] ⟨5, 0, []⟩ ['E'] ['N']⟩

/-- The entries of `B` and of the new array `E` belong in buckets next to each other, and `A` is in
that of `E`: the entry of `E` takes the bucket of `B`. -/
theorem not_exact_displaced : ¬ ∀ (calls : List FindCall) (source : Name) (needle : Needle)
    (dest countVar : Name) (memory : FindMemory) (s t : FindCtx), (∀ c ∈ calls, Fits c) →
    calls.foldlM call (init .init) = some s →
    s.arrayfindStatement source needle dest countVar memory = some (none, t) →
    t.Exact dest countVar (s.sourceIndices source needle) := by
  intro h
  let memory : FindMemory := ⟨true, true, true, true⟩
  have hrun : (neighbours.foldlM call (init .init)).bind (fun s =>
      (s.arrayfindStatement ['B'] ⟨5, 0, []⟩ ['E'] ['N'] memory).bind fun r =>
        some (r.1, r.2.intElements ['E'], s.sourceIndices ['B'] ⟨5, 0, []⟩)) =
      some (none, some [0], [1]) := by decide +kernel
  obtain ⟨s, hs, hsearch⟩ := Option.bind_eq_some_iff.mp hrun
  obtain ⟨⟨error, t⟩, ht, hresult⟩ := Option.bind_eq_some_iff.mp hsearch
  obtain ⟨rfl, hrest⟩ := Prod.mk.inj (Option.some.inj hresult)
  obtain ⟨helements, hindices⟩ := Prod.mk.inj hrest
  have hexact := h neighbours ['B'] ⟨5, 0, []⟩ ['E'] ['N'] memory s t fits_neighbours hs ht
  have hright := helements.symm.trans hexact.elements
  rw [hindices] at hright
  exact absurd hright (by decide)

end FindCtx

end RetroRocket
