import RetroRocket.BasicMaps

/-!
# The maps of a BASIC program are finite maps

A dictionary has for each handle the values that have been set successfully. The maps are read like
it as long as no `MAPSET` runs out of memory for the second copy of a string, which is stored as the
literal `""`, or for the hash map behind an entry that has been changed already, and `MAPKEYS` lists
no key whose length is not that of the name of its array, with which it is stored.
-/

namespace RetroRocket

variable {ρ : Type}

abbrev Dictionary (ρ : Type) := BitVec 64 → Option (CString × ℕ → Option (UpValue ρ))

namespace Dictionary

variable (d : Dictionary ρ)

def set (handle : BitVec 64) (key : CString × ℕ) (value : UpValue ρ) : Dictionary ρ :=
  Function.update d handle ((d handle).map fun values => Function.update values key (some value))

def has (handle : BitVec 64) (key : MapKey) : Except String Bool :=
  match d handle with
  | none => .error "Invalid MAP"
  | some values => .ok (values key.ident).isSome

def get (handle : BitVec 64) (key : MapKey) : Except String (BitVec 64) :=
  match d handle with
  | none => .error "Invalid MAP"
  | some values =>
    match values key.ident with
    | none => .error ("No such MAP key '" ++ key.text.show ++ "'")
    | some (.int i) => .ok i
    | some _ => .error ("MAP key '" ++ key.text.show ++ "' is not INTEGER")

def getr (ofInt : BitVec 64 → ρ) (handle : BitVec 64) (key : MapKey) : Except String ρ :=
  match d handle with
  | none => .error "Invalid MAP"
  | some values =>
    match values key.ident with
    | none => .error ("No such MAP key '" ++ key.text.show ++ "'")
    | some (.int i) => .ok (ofInt i)
    | some (.real r) => .ok r
    | some (.str _ _) => .error ("MAP key '" ++ key.text.show ++ "' is not REAL")

def gets (handle : BitVec 64) (key : MapKey) : Except String (CString × ℕ) :=
  match d handle with
  | none => .error "Invalid MAP"
  | some values =>
    match values key.ident with
    | none => .error ("No such MAP key '" ++ key.text.show ++ "'")
    | some (.str text len) => .ok (text, len)
    | some _ => .error ("MAP key '" ++ key.text.show ++ "' is not STRING")

def settle (new : Dictionary ρ) : Option String → Dictionary ρ
  | none => new
  | some _ => d

/-- What `MAP` leaves: an empty map behind its handle, if it has one. -/
def mapped : Except String (BitVec 64) → Dictionary ρ
  | .ok handle => Function.update d handle (some fun _ => none)
  | .error _ => d

/-- The strings that `MAPKEYS` gives are the keys of the map. -/
def Lists (handle : BitVec 64) (order : List (CString × ℕ)) : Except String (ℕ × List MapKey) → Prop
  | .error message => d handle = none ∧ message = "Invalid MAP"
  | .ok (count, names) => ∃ values, d handle = some values ∧ order.Nodup ∧
      (∀ key, key ∈ order ↔ (values key).isSome) ∧ count = order.length ∧
      (order ≠ [] → names.map MapKey.ident = order)

end Dictionary

namespace MapsCtx

variable {s s' : MapsCtx ρ} {d d' : Dictionary ρ} {handle : BitVec 64} {key : MapKey}
    {value : UpValue ρ}
  {memory : MapsetMemory} {map : BasicMap ρ} {stored : MapValue ρ} {ofInt : BitVec 64 → ρ}

def view (s : MapsCtx ρ) : Dictionary ρ :=
  fun handle => (s.mapByHandle handle).map fun map key => (map.get key).map MapValue.view

def Owned (v : MapValue ρ) : Prop := ∀ len, v ≠ .str .literal len

structure Faithful (ofInt : BitVec 64 → ρ) (x : MapsCtx ρ × Dictionary ρ) : Prop where
  holds : x.1.view = x.2
  owned : ∀ handle map key v, x.1.mapByHandle handle = some map → map.get key = some v → Owned v
  has : ∀ handle key, x.1.maphas handle key = x.2.has handle key
  get : ∀ handle key, x.1.mapget handle key = x.2.get handle key
  getr : ∀ handle key, x.1.mapgetr ofInt handle key = x.2.getr ofInt handle key
  gets : ∀ handle key, x.1.mapgets handle key = x.2.gets handle key

theorem view_handle (hmap : s.mapByHandle handle = some map) :
    s.view handle = some fun key => (map.get key).map MapValue.view := by
  rw [view, hmap]
  rfl

/-! ## Reads -/

theorem maphas_eq (s : MapsCtx ρ) (handle : BitVec 64) (key : MapKey) :
    s.maphas handle key = s.view.has handle key := by
  unfold maphas Dictionary.has view
  cases s.mapByHandle handle with
  | none => rfl
  | some map => exact congrArg Except.ok Option.isSome_map.symm

theorem mapget_eq (s : MapsCtx ρ) (handle : BitVec 64) (key : MapKey) :
    s.mapget handle key = s.view.get handle key := by
  unfold mapget Dictionary.get view
  cases s.mapByHandle handle with
  | none => rfl
  | some map =>
    dsimp only [Option.map_some]
    cases map.get key.ident with
    | none => rfl
    | some v => cases v <;> rfl

theorem mapgetr_eq (ofInt : BitVec 64 → ρ) (s : MapsCtx ρ) (handle : BitVec 64) (key : MapKey) :
    s.mapgetr ofInt handle key = s.view.getr ofInt handle key := by
  unfold mapgetr Dictionary.getr view
  cases s.mapByHandle handle with
  | none => rfl
  | some map =>
    dsimp only [Option.map_some]
    cases map.get key.ident with
    | none => rfl
    | some v => cases v <;> rfl

theorem mapgets_eq (s : MapsCtx ρ) (handle : BitVec 64) (key : MapKey) :
    s.mapgets handle key = s.view.gets handle key := by
  unfold mapgets Dictionary.gets view
  cases s.mapByHandle handle with
  | none => rfl
  | some map =>
    dsimp only [Option.map_some]
    cases map.get key.ident with
    | none => rfl
    | some v => cases v <;> rfl

/-- The keys of a map are as long as the name of the array that they are listed in. -/
def KeysFit (s : MapsCtx ρ) (handle : BitVec 64) (dest : CString) : Prop :=
  ∀ map, s.mapByHandle handle = some map →
    ∀ name ∈ map.names, MapKey.ident ⟨name.1, dest.length⟩ = name

theorem mapkeys_lists_iff {dest : CString} {order : List (CString × ℕ)}
    {r : Except String (ℕ × List MapKey)} (h : s.mapkeys handle dest order = some r) :
    s.view.Lists handle order r ↔ s.KeysFit handle dest := by
  unfold mapkeys at h
  unfold KeysFit
  cases hmap : s.mapByHandle handle with
  | none =>
    rw [hmap] at h
    cases h
    have hnone : s.view handle = none := by
      rw [view, hmap]
      rfl
    exact ⟨fun _ _ hsome => (nomatch hsome), fun _ => ⟨hnone, rfl⟩⟩
  | some map =>
    rw [hmap] at h
    dsimp only at h
    have hview := view_handle hmap
    by_cases hperm : order.Perm map.names
    · rw [if_pos hperm] at h
      have hnodup : order.Nodup := hperm.nodup_iff.mpr map.nodup
      have hmem : ∀ key, key ∈ order ↔ ((map.get key).map MapValue.view).isSome := by
        intro key
        rw [hperm.mem_iff, map.mem_names, Option.isSome_map]
      simp only [Option.some.injEq, forall_eq']
      by_cases hempty : map.names.length = 0
      · rw [if_pos hempty] at h
        cases h
        have hlength : order.length = 0 := hperm.length_eq.trans hempty
        rw [List.length_eq_zero_iff.mp hempty]
        exact ⟨fun _ _ hname => absurd hname List.not_mem_nil, fun _ => ⟨_, hview, hnodup, hmem,
          hlength.symm, fun hne => absurd (List.length_eq_zero_iff.mp hlength) hne⟩⟩
      · rw [if_neg hempty] at h
        cases h
        have hne : order ≠ [] := by
          rintro rfl
          exact hempty hperm.length_eq.symm
        have hnames :
          (order.map fun name => (⟨name.1, dest.length⟩ : MapKey)).map MapKey.ident = order ↔
            ∀ name ∈ map.names, MapKey.ident ⟨name.1, dest.length⟩ = name := by
          rw [List.map_map]
          conv_lhs => rhs; rw [← List.map_id order]
          rw [List.map_inj_left]
          exact forall_congr' fun name => imp_congr_left hperm.mem_iff
        constructor
        · rintro ⟨-, -, -, -, -, hlisted⟩
          exact hnames.mp (hlisted hne)
        · intro hfit
          exact ⟨_, hview, hnodup, hmem, hperm.length_eq.symm, fun _ => hnames.mpr hfit⟩
    · rw [if_neg hperm] at h
      cases h

theorem faithful_iff : Faithful ofInt (s, d) ↔ s.view = d ∧
    ∀ handle map key v, s.mapByHandle handle = some map → map.get key = some v → Owned v := by
  constructor
  · exact fun h => ⟨h.holds, h.owned⟩
  · rintro ⟨rfl, howned⟩
    exact ⟨rfl, howned, maphas_eq s, mapget_eq s, mapgetr_eq ofInt s, mapgets_eq s⟩

/-! ## Changes -/

theorem handle_ne (h : s.mapByHandle handle = some map) : handle ≠ 0 := by
  rintro rfl
  cases h

theorem mapByHandle_setMap (hne : handle ≠ 0) (map : BasicMap ρ) (other : BitVec 64) :
    (s.setMap handle map).mapByHandle other =
      if other = handle then some map else s.mapByHandle other := by
  unfold mapByHandle setMap
  by_cases hother : other = handle
  · rw [if_pos hother, hother, if_neg hne]
    exact Function.update_self _ _ _
  · rw [if_neg hother]
    dsimp only
    rw [Function.update_of_ne hother]

theorem view_setMap (hne : handle ≠ 0) (map : BasicMap ρ) : (s.setMap handle map).view =
    Function.update s.view handle (some fun key => (map.get key).map MapValue.view) := by
  funext other
  rw [view, mapByHandle_setMap hne]
  by_cases hother : other = handle
  · rw [if_pos hother, hother, Function.update_self]
    rfl
  · rw [if_neg hother, Function.update_of_ne hother]
    rfl

theorem faithful_setMap_iff (hs : Faithful ofInt (s, d)) (hne : handle ≠ 0) :
    Faithful ofInt (s.setMap handle map, d') ↔
      Function.update d handle (some fun key => (map.get key).map MapValue.view) = d' ∧
        ∀ key v, map.get key = some v → Owned v := by
  have hholds : s.view = d := hs.holds
  rw [faithful_iff, view_setMap hne, hholds]
  apply and_congr_right'
  constructor
  · intro howned key v hv
    refine howned handle map key v ?_ hv
    rw [mapByHandle_setMap hne, if_pos rfl]
  · intro howned other map' key v hmap' hv
    rw [mapByHandle_setMap hne] at hmap'
    by_cases hother : other = handle
    · rw [if_pos hother] at hmap'
      cases hmap'
      exact howned key v hv
    · rw [if_neg hother] at hmap'
      exact hs.owned other map' key v hmap' hv

theorem faithful_set_iff (hs : Faithful ofInt (s, d)) (hmap : s.mapByHandle handle = some map)
    (key : CString × ℕ) (stored : MapValue ρ) :
    Faithful ofInt (s.setMap handle (map.set key stored), d') ↔
      d.set handle key stored.view = d' ∧ Owned stored := by
  have hholds : s.view = d := hs.holds
  have hset : (some fun k => ((map.set key stored).get k).map MapValue.view) =
      (d handle).map fun values => Function.update values key (some stored.view) := by
    rw [← hholds, view_handle hmap, Option.map_some]
    congr 1
    funext k
    change (Function.update map.get key (some stored) k).map MapValue.view = _
    by_cases hk : k = key
    · rw [hk, Function.update_self, Function.update_self]
      rfl
    · rw [Function.update_of_ne hk, Function.update_of_ne hk]
  rw [faithful_setMap_iff hs (handle_ne hmap), hset]
  apply and_congr_right'
  constructor
  · exact fun howned => howned key stored (Function.update_self _ _ _)
  · intro hstored k v hv
    change Function.update map.get key (some stored) k = some v at hv
    by_cases hk : k = key
    · rw [hk, Function.update_self] at hv
      cases hv
      exact hstored
    · rw [Function.update_of_ne hk] at hv
      exact hs.owned handle map k v hmap hv

theorem set_eq_self_iff {values : CString × ℕ → Option (UpValue ρ)} {key : CString × ℕ}
    (h : d handle = some values) {v : UpValue ρ} :
    d.set handle key v = d ↔ values key = some v := by
  constructor
  · intro heq
    have hat := congrFun heq handle
    rw [Dictionary.set, Function.update_self, h] at hat
    have hkey := congrFun (Option.some.inj hat) key
    dsimp only at hkey
    rw [← hkey, Function.update_self]
  · intro hvalue
    rw [Dictionary.set, h, Option.map_some, ← hvalue, Function.update_eq_self, ← h,
      Function.update_eq_self]

/-! ## Copies -/

theorem copyMapUpValue_ok (h : value.kind = .str → memory.copy = true) :
    ∃ stored, copyMapUpValue memory.copy value = (stored, true) ∧ stored.view = value ∧
      Owned stored := by
  cases value with
  | int i => exact ⟨_, rfl, rfl, fun _ h => nomatch h⟩
  | real r => exact ⟨_, rfl, rfl, fun _ h => nomatch h⟩
  | str text len =>
    rw [h rfl]
    exact ⟨_, rfl, rfl, fun _ h => nomatch h⟩

theorem copyMapUpValue_copied (memory : Bool) (value : UpValue ρ) :
    (copyMapUpValue memory value).2 = true := by
  cases value <;> rfl

theorem copyMapUpValue_literal (h : ¬ (value.kind = .str → memory.copy = true)) :
    copyMapUpValue memory.copy value = (.str .literal 0, true) := by
  cases value with
  | int i => exact absurd (fun h => nomatch h) h
  | real r => exact absurd (fun h => nomatch h) h
  | str text len =>
    have hcopy : memory.copy = false := by
      rw [← Bool.not_eq_true]
      exact fun hcopy => h fun _ => hcopy
    rw [hcopy]
    rfl

theorem not_owned_literal : ¬ Owned (.str .literal 0 : MapValue ρ) := fun h => h 0 rfl

theorem free_of_owned {v : MapValue ρ} (h : Owned v) : v.free = some () := by
  cases v with
  | int i => rfl
  | real r => rfl
  | str ptr len =>
    cases ptr with
    | block text => rfl
    | literal => exact absurd rfl (h len)

/-! ## Statements -/

/-- The statement gets as far as the copy: the map is there, with `old` for the key, the value fits,
and there is memory so far. -/
structure Accepts (s : MapsCtx ρ) (handle : BitVec 64) (key : MapKey) (value : UpValue ρ)
    (memory : MapsetMemory) (old : Option (MapValue ρ)) : Prop where
  map : ∃ map, s.mapByHandle handle = some map ∧ map.get key.ident = old
  dup : value.kind = .str → memory.value = true
  fits : ∀ v, old = some v → replaces v.kind value.kind = true
  name : old = none → memory.name = true

def Supplied (s : MapsCtx ρ) (handle : BitVec 64) (key : MapKey) (value : UpValue ρ)
    (memory : MapsetMemory) : Prop :=
  ∀ old, s.Accepts handle key value memory old → (value.kind = .str → memory.copy = true) ∧
    ∀ v, old = some v → memory.entry = false → v.view = value

/-- The maps next to the dictionary, and what `MAPKEYS` has just listed: its handle, the order of
the entries, and the result. -/
structure MapsRun (ρ : Type) where
  maps : MapsCtx ρ
  dictionary : Dictionary ρ
  listed : Option (BitVec 64 × List (CString × ℕ) × Except String (ℕ × List MapKey))

inductive Call (ρ : Type) where
  | map (id : BitVec 64) (map entry : Bool)
  | mapset (handle : BitVec 64) (key : MapKey) (value : UpValue ρ) (memory : MapsetMemory)
  | mapfree (handle : BitVec 64)
  | mapkeys (handle : BitVec 64) (dest : CString) (order : List (CString × ℕ))

def call (x : MapsRun ρ) : Call ρ → Option (MapsRun ρ)
  | .map id map entry => (x.maps.basicMap id map entry).map fun r =>
    ⟨r.1, x.dictionary.mapped r.2, none⟩
  | .mapset handle key value memory => (x.maps.mapset handle key value memory).map fun r =>
    ⟨r.1, x.dictionary.settle (x.dictionary.set handle key.ident value) r.2, none⟩
  | .mapfree handle =>
    let r := x.maps.mapfree handle
    some ⟨r.1, x.dictionary.settle (Function.update x.dictionary handle none) r.2, none⟩
  | .mapkeys handle dest order => (x.maps.mapkeys handle dest order).map fun r =>
    { x with listed := some (handle, order, r) }

/-- The maps are read like the dictionary, and the keys that were listed are its keys. -/
structure Lawful (ofInt : BitVec 64 → ρ) (x : MapsRun ρ) : Prop where
  faithful : Faithful ofInt (x.maps, x.dictionary)
  lists : ∀ handle order r, x.listed = some (handle, order, r) → x.dictionary.Lists handle order r

def Meets (x : MapsRun ρ) : Call ρ → Prop
  | .mapset handle key value memory => x.maps.Supplied handle key value memory
  | .mapkeys handle dest _ => x.maps.KeysFit handle dest
  | _ => True

theorem faithful_stored_iff (hs : Faithful ofInt (s, d)) (hmap : s.mapByHandle handle = some map)
    (key : MapKey) (value : UpValue ρ) (memory : MapsetMemory) :
    Faithful ofInt (s.setMap handle (map.set key.ident (copyMapUpValue memory.copy value).1),
      d.set handle key.ident value) ↔ (value.kind = .str → memory.copy = true) := by
  rw [faithful_set_iff hs hmap]
  by_cases hcopy : value.kind = .str → memory.copy = true
  · obtain ⟨stored, hstored, hview, howned⟩ := copyMapUpValue_ok hcopy
    rw [hstored, hview]
    exact ⟨fun _ => hcopy, fun _ => ⟨rfl, howned⟩⟩
  · rw [copyMapUpValue_literal hcopy]
    exact ⟨fun h => absurd h.2 not_owned_literal, fun h => absurd h hcopy⟩

theorem faithful_changed_iff {found : MapValue ρ} (hs : Faithful ofInt (s, d))
    (hmap : s.mapByHandle handle = some map) (hget : map.get key.ident = some found)
    (value : UpValue ρ) (memory : MapsetMemory) :
    Faithful ofInt (s.setMap handle (map.set key.ident (copyMapUpValue memory.copy value).1), d) ↔
      (value.kind = .str → memory.copy = true) ∧ found.view = value := by
  have hholds : s.view = d := hs.holds
  have hvalues := hholds ▸ view_handle hmap
  rw [faithful_set_iff hs hmap, set_eq_self_iff hvalues, hget, Option.map_some]
  by_cases hcopy : value.kind = .str → memory.copy = true
  · obtain ⟨stored, hstored, hview, howned⟩ := copyMapUpValue_ok hcopy
    rw [hstored, hview]
    exact ⟨fun h => ⟨hcopy, Option.some.inj h.1⟩, fun h => ⟨congrArg some h.2, howned⟩⟩
  · rw [copyMapUpValue_literal hcopy]
    exact ⟨fun h => absurd h.2 not_owned_literal, fun h => absurd h.1 hcopy⟩

theorem mapset_refused (hno : ∀ old, ¬ s.Accepts handle key value memory old) :
    ∃ message, s.mapset handle key value memory = some (s, some message) := by
  unfold mapset
  cases hmap : s.mapByHandle handle with
  | none => exact ⟨_, rfl⟩
  | some map =>
    dsimp only
    by_cases hdup : value.kind = .str ∧ memory.value = false
    · exact ⟨_, if_pos hdup⟩
    · have hdup' : value.kind = .str → memory.value = true := by
        intro hkind
        rw [← Bool.not_eq_false]
        exact fun hvalue => hdup ⟨hkind, hvalue⟩
      rw [if_neg hdup]
      cases hget : map.get key.ident with
      | some found =>
        by_cases hfits : replaces found.kind value.kind = false
        · exact ⟨_, if_pos hfits⟩
        · rw [Bool.not_eq_false] at hfits
          refine absurd ?_ (hno (some found))
          exact ⟨⟨map, hmap, hget⟩, hdup', fun v hv => Option.some.inj hv ▸ hfits, nofun⟩
      | none =>
        by_cases hname : memory.name = false
        · exact ⟨_, if_pos hname⟩
        · rw [Bool.not_eq_false] at hname
          exact absurd ⟨⟨map, hmap, hget⟩, hdup', nofun, fun _ => hname⟩ (hno none)

theorem Accepts.get {old : Option (MapValue ρ)} (h : s.Accepts handle key value memory old)
    (hmap : s.mapByHandle handle = some map) : map.get key.ident = old := by
  obtain ⟨map', hmap', hget⟩ := h.map
  rw [hmap] at hmap'
  cases hmap'
  exact hget

theorem Accepts.not_dup {old : Option (MapValue ρ)} (h : s.Accepts handle key value memory old) :
    ¬ (value.kind = .str ∧ memory.value = false) := by
  rintro ⟨hkind, hvalue⟩
  rw [h.dup hkind] at hvalue
  cases hvalue

theorem mapset_found {found : MapValue ρ} (hmap : s.mapByHandle handle = some map)
    (h : s.Accepts handle key value memory (some found)) : s.mapset handle key value memory =
      found.free.bind fun _ =>
        some (s.setMap handle (map.set key.ident (copyMapUpValue memory.copy value).1),
          if memory.entry then none else some "Out of memory") := by
  have hfits : replaces found.kind value.kind ≠ false := by
    rw [h.fits found rfl]
    decide
  have hcopied : (copyMapUpValue memory.copy value).2 ≠ false := by
    rw [copyMapUpValue_copied]
    decide
  unfold mapset
  rw [hmap]
  dsimp only
  rw [if_neg h.not_dup, h.get hmap]
  dsimp only
  rw [if_neg hfits, if_neg hcopied]
  cases memory.entry <;> rfl

theorem mapset_new (hmap : s.mapByHandle handle = some map)
    (h : s.Accepts handle key value memory none) : s.mapset handle key value memory =
      if memory.entry then
        some (s.setMap handle (map.set key.ident (copyMapUpValue memory.copy value).1), none)
      else (copyMapUpValue memory.copy value).1.free.bind fun _ =>
        some (s, some "Out of memory") := by
  have hname : memory.name ≠ false := by
    rw [h.name rfl]
    decide
  have hcopied : (copyMapUpValue memory.copy value).2 ≠ false := by
    rw [copyMapUpValue_copied]
    decide
  unfold mapset
  rw [hmap]
  dsimp only
  rw [if_neg h.not_dup, h.get hmap]
  dsimp only
  rw [if_neg hname, if_neg hcopied]
  rfl

theorem mapset_iff {error : Option String} (hs : Faithful ofInt (s, d))
    (h : s.mapset handle key value memory = some (s', error)) :
    Faithful ofInt (s', d.settle (d.set handle key.ident value) error) ↔
      s.Supplied handle key value memory := by
  by_cases haccepts : ∃ old, s.Accepts handle key value memory old
  · obtain ⟨old, haccepts⟩ := haccepts
    obtain ⟨map, hmap, -⟩ := haccepts.map
    have honly : ∀ {old'}, s.Accepts handle key value memory old' → old' = old :=
      fun haccepts' => (haccepts'.get hmap).symm.trans (haccepts.get hmap)
    cases old with
    | some found =>
      have hget := haccepts.get hmap
      have heq := h.symm.trans (mapset_found hmap haccepts)
      rw [free_of_owned (hs.owned handle map key.ident found hmap hget)] at heq
      cases hentry : memory.entry with
      | true =>
        rw [hentry] at heq
        cases heq
        refine (faithful_stored_iff hs hmap key value memory).trans
          ⟨fun hcopy old _ => ?_, fun hsupplied => ?_⟩
        · exact ⟨hcopy, fun v _ hfull => absurd (hentry.symm.trans hfull) (by decide)⟩
        · exact (hsupplied _ haccepts).1
      | false =>
        rw [hentry] at heq
        cases heq
        refine (faithful_changed_iff hs hmap hget value memory).trans ⟨fun hright old hold => ?_,
          fun hsupplied => ?_⟩
        · refine ⟨hright.1, fun v hv _ => ?_⟩
          obtain rfl := Option.some.inj (hv.symm.trans (honly hold))
          exact hright.2
        · obtain ⟨hcopy, hsame⟩ := hsupplied _ haccepts
          exact ⟨hcopy, hsame found rfl hentry⟩
    | none =>
      have hnew : ∀ {old}, s.Accepts handle key value memory old → ∀ v, old ≠ some v :=
        fun hold v hv => nomatch hv.symm.trans (honly hold)
      have heq := h.symm.trans (mapset_new hmap haccepts)
      cases hentry : memory.entry with
      | true =>
        rw [hentry] at heq
        cases heq
        refine (faithful_stored_iff hs hmap key value memory).trans ⟨fun hcopy old hold => ?_,
          fun hsupplied => ?_⟩
        · exact ⟨hcopy, fun v hv => absurd hv (hnew hold v)⟩
        · exact (hsupplied _ haccepts).1
      | false =>
        rw [hentry] at heq
        by_cases hcopy : value.kind = .str → memory.copy = true
        · obtain ⟨stored, hstored, -, howned⟩ := copyMapUpValue_ok hcopy
          rw [hstored, free_of_owned howned] at heq
          cases heq
          exact ⟨fun _ old hold => ⟨hcopy, fun v hv => absurd hv (hnew hold v)⟩, fun _ => hs⟩
        · rw [copyMapUpValue_literal hcopy] at heq
          cases heq
  · have hno : ∀ old, ¬ s.Accepts handle key value memory old := not_exists.mp haccepts
    obtain ⟨message, hrefused⟩ := mapset_refused hno
    cases h.symm.trans hrefused
    exact ⟨fun _ old hold => absurd hold (hno old), fun _ => hs⟩

theorem mapset_isSome (hs : Faithful ofInt (s, d))
    (hsupplied : s.Supplied handle key value memory) :
    (s.mapset handle key value memory).isSome := by
  by_cases haccepts : ∃ old, s.Accepts handle key value memory old
  · obtain ⟨old, haccepts⟩ := haccepts
    obtain ⟨map, hmap, -⟩ := haccepts.map
    cases old with
    | some found =>
      rw [mapset_found hmap haccepts,
        free_of_owned (hs.owned handle map key.ident found hmap (haccepts.get hmap))]
      rfl
    | none =>
      rw [mapset_new hmap haccepts]
      obtain ⟨stored, hstored, -, howned⟩ := copyMapUpValue_ok (hsupplied none haccepts).1
      rw [hstored, free_of_owned howned]
      cases memory.entry <;> rfl
  · obtain ⟨message, hrefused⟩ := mapset_refused (not_exists.mp haccepts)
    rw [hrefused]
    rfl

theorem faithful_of_basicMap {id : BitVec 64} {allocated entry : Bool}
    {r : Except String (BitVec 64)}
    (hs : Faithful ofInt (s, d)) (h : s.basicMap id allocated entry = some (s', r)) :
    Faithful ofInt (s', d.mapped r) := by
  unfold basicMap at h
  split at h
  · cases h
  · next hnew =>
    split at h
    · cases h
      exact hs
    · split at h
      · cases h
        exact hs
      · cases h
        rw [faithful_setMap_iff hs fun hzero => hnew (Or.inl hzero)]
        exact ⟨rfl, fun _ _ hv => nomatch hv⟩

theorem faithful_of_mapfree (hs : Faithful ofInt (s, d)) (handle : BitVec 64) :
    Faithful ofInt ((s.mapfree handle).1,
      d.settle (Function.update d handle none) (s.mapfree handle).2) := by
  unfold mapfree
  by_cases hzero : handle = 0
  · rw [if_pos hzero]
    exact hs
  · rw [if_neg hzero]
    by_cases hnone : (s.maps handle).isNone
    · rw [if_pos hnone]
      exact hs
    · rw [if_neg hnone]
      have hhandle : ∀ other, mapByHandle ⟨Function.update s.maps handle none⟩ other =
          if other = handle then none else s.mapByHandle other := by
        intro other
        unfold mapByHandle
        by_cases hother : other = handle
        · rw [if_pos hother, hother, if_neg hzero]
          exact Function.update_self _ _ _
        · rw [if_neg hother]
          dsimp only
          rw [Function.update_of_ne hother]
      rw [faithful_iff]
      constructor
      · funext other
        change _ = Function.update d handle none other
        rw [view, hhandle]
        by_cases hother : other = handle
        · rw [if_pos hother, hother, Function.update_self]
          rfl
        · rw [if_neg hother, Function.update_of_ne hother]
          exact congrFun hs.holds other
      · intro other map key v hmap hv
        rw [hhandle] at hmap
        by_cases hother : other = handle
        · rw [if_pos hother] at hmap
          cases hmap
        · rw [if_neg hother] at hmap
          exact hs.owned other map key v hmap hv

/-! ## Runs -/

theorem lawful_iff_of_unlisted {x : MapsRun ρ} (h : x.listed = none) :
    Lawful ofInt x ↔ Faithful ofInt (x.maps, x.dictionary) :=
  ⟨Lawful.faithful, fun hx => ⟨hx, fun _ _ _ hlisted => by cases h.symm.trans hlisted⟩⟩

theorem call_iff {x y : MapsRun ρ} {c : Call ρ} (hx : Lawful ofInt x) (h : call x c = some y) :
    Lawful ofInt y ↔ Meets x c := by
  obtain ⟨s, d, listed⟩ := x
  cases c with
  | map id allocated entry =>
    obtain ⟨⟨s', r⟩, hmap, rfl⟩ := Option.map_eq_some_iff.mp h
    rw [lawful_iff_of_unlisted rfl]
    exact ⟨fun _ => trivial, fun _ => faithful_of_basicMap hx.faithful hmap⟩
  | mapset handle key value memory =>
    obtain ⟨⟨s', error⟩, hset, rfl⟩ := Option.map_eq_some_iff.mp h
    rw [lawful_iff_of_unlisted rfl]
    exact mapset_iff hx.faithful hset
  | mapfree handle =>
    cases h
    rw [lawful_iff_of_unlisted rfl]
    exact ⟨fun _ => trivial, fun _ => faithful_of_mapfree hx.faithful handle⟩
  | mapkeys handle dest order =>
    obtain ⟨r, hkeys, rfl⟩ := Option.map_eq_some_iff.mp h
    have hlists : d.Lists handle order r ↔ s.KeysFit handle dest := by
      have hholds : s.view = d := hx.faithful.holds
      rw [← hholds]
      exact mapkeys_lists_iff hkeys
    constructor
    · exact fun hy => hlists.mp (hy.lists handle order r rfl)
    · refine fun hfit => ⟨hx.faithful, fun handle' order' r' hlisted => ?_⟩
      cases hlisted
      exact hlists.mpr hfit

def start : MapsRun ρ := ⟨⟨fun _ => none⟩, fun _ => none, none⟩

theorem lawful_start (ofInt : BitVec 64 → ρ) : Lawful ofInt start := by
  rw [lawful_iff_of_unlisted rfl]
  exact faithful_iff.mpr ⟨funext fun _ => by rw [view, mapByHandle]; split <;> rfl,
    fun _ _ _ _ hmap => by rw [mapByHandle] at hmap; split at hmap <;> cases hmap⟩

/-- In every run the maps are read and listed like the dictionary, and no statement that fails
changes it, exactly if every `MAPSET` gets the memory that it needs once it has accepted the value
and every `MAPKEYS` lists keys of the length that it stores them with. Such a `MAPSET` comes to an
end. -/
theorem lawful_iff_meets (ofInt : BitVec 64 → ρ) (calls : List (Call ρ)) :
    (AllStates call (Lawful ofInt) start calls ↔ AllSteps call Meets start calls) ∧
      ∀ x handle key value memory, Lawful ofInt x → Meets x (.mapset handle key value memory) →
        (call x (.mapset handle key value memory)).isSome := by
  have hstep : ∀ {x y : MapsRun ρ} {c : Call ρ}, True → Lawful ofInt x →
      call x c = some y → True ∧ (Lawful ofInt y ↔ Meets x c) :=
    fun _ hx hcall => ⟨trivial, call_iff hx hcall⟩
  constructor
  · exact allStates_iff_allSteps hstep trivial (lawful_start ofInt) calls
  · intro x handle key value memory hx hmeets
    exact Option.isSome_map.trans (mapset_isSome hx.faithful hmeets)

/-- A string that replaces another one without memory for its second copy is lost with it, and no
error is reported. -/
theorem not_lawful_lost : ¬ ∀ (calls : List (Call ℕ)),
    AllStates call (Lawful BitVec.toNat) start calls := by
  intro h
  let text : CString := ⟨[65], by decide⟩
  have hrun := h [.map 1 true true, .mapset 1 ⟨text, 1⟩ (.str text 1) ⟨true, true, true, true⟩,
    .mapset 1 ⟨text, 1⟩ (.str text 1) ⟨true, true, false, true⟩]
  have hlast := (hrun.2 _ rfl).2 _ rfl
  have hread := (hlast.2 _ rfl).faithful.gets 1 ⟨text, 1⟩
  have hlength : (0 : ℕ) = 1 := congrArg (fun result => (result.toOption.map Prod.snd).getD 0) hread
  exact absurd hlength zero_ne_one

end MapsCtx

end RetroRocket
