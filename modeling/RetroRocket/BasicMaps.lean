import RetroRocket.Run
import RetroRocket.StringHeap

/-!
# The maps of a BASIC program

`MAP`, `MAPSET`, `MAPFREE`, and what reads a map, of `basic/map.c`. The hash map is a finite map
whose entries are scanned in some order, and which may need memory for an entry, also for one that
it has. A key is a string with the length that is reported for it, which its text need not have. The
time stamp counter gives every `MAP` a new number other than 0. To free the literal `""` has no
result.
-/

namespace RetroRocket

/-! ## Values -/

/-- `up_kind`. -/
inductive UpKind where
  | int
  | real
  | str
  deriving DecidableEq

/-- `up_value`, as an expression gives it. -/
inductive UpValue (ρ : Type) where
  | int (i : BitVec 64)
  | real (r : ρ)
  | str (text : CString) (len : ℕ)

/-- The pointer of a string that is stored: a block of the allocator, or the literal `""`. -/
inductive StringPtr where
  | block (text : CString)
  | literal

/-- `up_value`, as a map stores it. -/
inductive MapValue (ρ : Type) where
  | int (i : BitVec 64)
  | real (r : ρ)
  | str (ptr : StringPtr) (len : ℕ)

variable {ρ : Type}

def UpValue.kind : UpValue ρ → UpKind
  | .int _ => .int
  | .real _ => .real
  | .str _ _ => .str

def StringPtr.text : StringPtr → CString
  | .block text => text
  | .literal => ∅

namespace MapValue

def view : MapValue ρ → UpValue ρ
  | .int i => .int i
  | .real r => .real r
  | .str ptr len => .str ptr.text len

def kind (v : MapValue ρ) : UpKind := v.view.kind

/-- `basic_free_map_up_value`. -/
def free : MapValue ρ → Option Unit
  | .str .literal _ => none
  | _ => some ()

end MapValue

/-- `up_make_str`, which never keeps a null pointer. -/
def upMakeStr (ptr : Option CString) (len : ℕ) : MapValue ρ :=
  match ptr with
  | some text => .str (.block text) len
  | none => .str .literal 0

/-- `basic_copy_map_up_value`, with whether it succeeds. `memory` says whether `buddy_strdup`
does. -/
def copyMapUpValue (memory : Bool) : UpValue ρ → MapValue ρ × Bool
  | .int i => (.int i, true)
  | .real r => (.real r, true)
  | .str text len => (upMakeStr (if memory then some text else none) len, true)

/-! ## Maps -/

/-- A string as a statement gets it, with the length that comes with it. -/
structure MapKey where
  text : CString
  length : ℕ

/-- What `map_value_compare` compares of a key: its text, and its length or, where this is 0, that
of the text. -/
def MapKey.ident (key : MapKey) : CString × ℕ :=
  (key.text, if key.length ≠ 0 then key.length else key.text.length)

structure BasicMap (ρ : Type) where
  get : CString × ℕ → Option (MapValue ρ)
  names : List (CString × ℕ)
  nodup : names.Nodup
  mem_names : ∀ key, key ∈ names ↔ (get key).isSome

namespace BasicMap

def empty : BasicMap ρ := ⟨fun _ => none, [], List.nodup_nil, fun _ => ⟨nofun, nofun⟩⟩

/-- `hashmap_set`. -/
def set (map : BasicMap ρ) (key : CString × ℕ) (value : MapValue ρ) : BasicMap ρ where
  get := Function.update map.get key (some value)
  names := if key ∈ map.names then map.names else map.names ++ [key]
  nodup := by
    split
    · exact map.nodup
    · next hnew =>
      rw [← List.concat_eq_append]
      exact List.Nodup.concat hnew map.nodup
  mem_names k := by
    by_cases hk : k = key
    · rw [hk, Function.update_self]
      split
      · next hold => exact ⟨fun _ => rfl, fun _ => hold⟩
      · exact ⟨fun _ => rfl, fun _ => List.mem_append_right _ (List.mem_singleton_self key)⟩
    · rw [Function.update_of_ne hk, ← map.mem_names]
      split
      · exact Iff.rfl
      · rw [List.mem_append, List.mem_singleton]
        exact or_iff_left hk

end BasicMap

/-- `ctx->maps`. -/
structure MapsCtx (ρ : Type) where
  maps : BitVec 64 → Option (BasicMap ρ)

def CString.show (key : CString) : String := String.ofList (key.1.map fun c => Char.ofNat c.toNat)

namespace MapsCtx

variable (s : MapsCtx ρ)

/-- `basic_get_map_by_handle`. -/
def mapByHandle (handle : BitVec 64) : Option (BasicMap ρ) :=
  if handle = 0 then none else s.maps handle

def setMap (handle : BitVec 64) (map : BasicMap ρ) : MapsCtx ρ :=
  ⟨Function.update s.maps handle (some map)⟩

/-! ## Reads -/

/-- `basic_maphas`. -/
def maphas (handle : BitVec 64) (key : MapKey) : Except String Bool :=
  match s.mapByHandle handle with
  | none => .error "Invalid MAP"
  | some map => .ok (map.get key.ident).isSome

/-- `basic_mapget`. -/
def mapget (handle : BitVec 64) (key : MapKey) : Except String (BitVec 64) :=
  match s.mapByHandle handle with
  | none => .error "Invalid MAP"
  | some map =>
    match map.get key.ident with
    | none => .error ("No such MAP key '" ++ key.text.show ++ "'")
    | some (.int i) => .ok i
    | some _ => .error ("MAP key '" ++ key.text.show ++ "' is not INTEGER")

/-- `basic_mapgetr`, with the conversion of an integer. -/
def mapgetr (ofInt : BitVec 64 → ρ) (handle : BitVec 64) (key : MapKey) : Except String ρ :=
  match s.mapByHandle handle with
  | none => .error "Invalid MAP"
  | some map =>
    match map.get key.ident with
    | none => .error ("No such MAP key '" ++ key.text.show ++ "'")
    | some (.int i) => .ok (ofInt i)
    | some (.real r) => .ok r
    | some _ => .error ("MAP key '" ++ key.text.show ++ "' is not REAL")

/-- `basic_mapgets`, with `out_len`. -/
def mapgets (handle : BitVec 64) (key : MapKey) : Except String (CString × ℕ) :=
  match s.mapByHandle handle with
  | none => .error "Invalid MAP"
  | some map =>
    match map.get key.ident with
    | none => .error ("No such MAP key '" ++ key.text.show ++ "'")
    | some (.str ptr len) => .ok (ptr.text, len)
    | some _ => .error ("MAP key '" ++ key.text.show ++ "' is not STRING")

/-- What `mapkeys_statement` hands to the array `dest` and the count variable, where
`hashmap_scan` passes the entries in this order: the text of each name, with the length of the
name of the array. -/
def mapkeys (handle : BitVec 64) (dest : CString) (order : List (CString × ℕ)) :
    Option (Except String (ℕ × List MapKey)) :=
  match s.mapByHandle handle with
  | none => some (.error "Invalid MAP")
  | some map =>
    if order.Perm map.names then
      if map.names.length = 0 then some (.ok (0, [⟨∅, 0⟩]))
      else some (.ok (map.names.length, order.map fun name => ⟨name.1, dest.length⟩))
    else none

/-! ## Statements -/

/-- The memory that `mapset_statement` gets: for the first copy of a string, the name of a new
entry, the second copy, and the hash map, if it has to grow. -/
structure MapsetMemory where
  value : Bool
  name : Bool
  copy : Bool
  entry : Bool

def replaces (old new : UpKind) : Bool :=
  decide (old = new) || decide (old = .int ∧ new = .real) || decide (old = .real ∧ new = .int)

/-- `mapset_statement`, with the error that it prints. -/
def mapset (handle : BitVec 64) (key : MapKey) (value : UpValue ρ) (memory : MapsetMemory) :
    Option (MapsCtx ρ × Option String) :=
  match s.mapByHandle handle with
  | none => some (s, some "Invalid MAP")
  | some map =>
    if value.kind = .str ∧ memory.value = false then some (s, some "Out of memory")
    else
      match map.get key.ident with
      | some found =>
        if replaces found.kind value.kind = false then
          some (s, some ("Type mismatch for MAP key '" ++ key.text.show ++ "'"))
        else do
          found.free
          let (stored, copied) := copyMapUpValue memory.copy value
          let s := s.setMap handle (map.set key.ident stored)
          if copied = false then some (s, some "Out of memory")
          else if memory.entry then some (s, none)
          else some (s, some "Out of memory")
      | none =>
        if memory.name = false then some (s, some "Out of memory")
        else
          let (stored, copied) := copyMapUpValue memory.copy value
          if copied = false then some (s, some "Out of memory")
          else if memory.entry then some (s.setMap handle (map.set key.ident stored), none)
          else do
            stored.free
            some (s, some "Out of memory")

/-- `basic_map`, where `id` is what the time stamp counter gives, with the handle that it returns.
The hash map gets memory for itself and for its entry, or it does not. -/
def basicMap (id : BitVec 64) (map entry : Bool) : Option (MapsCtx ρ × Except String (BitVec 64)) :=
  if id = 0 ∨ (s.maps id).isSome then none
  else if map = false then some (s, .error "Out of memory creating map")
  else if entry = false then some (s, .error "Out of memory setting map entry")
  else some (s.setMap id .empty, .ok id)

/-- `mapfree_statement`. -/
def mapfree (handle : BitVec 64) : MapsCtx ρ × Option String :=
  if handle = 0 then (s, some "Invalid MAP")
  else if (s.maps handle).isNone then (s, some "Invalid MAP")
  else (⟨Function.update s.maps handle none⟩, none)

end MapsCtx

end RetroRocket
