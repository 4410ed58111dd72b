import RetroRocket.ArrayStatements
import RetroRocket.HashTable

/-!
# ARRAYFIND on the table of integer arrays

The statement holds a pointer to the bucket of the source while the destination is put into the same
table. Here the integer arrays are in the buckets of `hashmap.c`, in the order that the hashes of
their names give. A double array is the bits of its values. A string array is its texts, with none
for an element that has not been set. Variables that are no arrays always have memory.
-/

namespace RetroRocket

/-! ## Hashes of names -/

structure SipState where
  v0 : BitVec 64
  v1 : BitVec 64
  v2 : BitVec 64
  v3 : BitVec 64

def sipround (s : SipState) : SipState :=
  let v0 := s.v0 + s.v1
  let v1 := s.v1.rotateLeft 13 ^^^ v0
  let v0 := v0.rotateLeft 32
  let v2 := s.v2 + s.v3
  let v3 := s.v3.rotateLeft 16 ^^^ v2
  let v0 := v0 + v3
  let v3 := v3.rotateLeft 21 ^^^ v0
  let v2 := v2 + v1
  let v1 := v1.rotateLeft 17 ^^^ v2
  let v2 := v2.rotateLeft 32
  ⟨v0, v1, v2, v3⟩

/-- `U8TO64_LE`, and for fewer than eight bytes the low ones. -/
def u8to64Le (bytes : List Byte) : BitVec 64 :=
  bytes.foldr (fun byte word => word <<< 8 ||| byte.setWidth 64) 0

/-- The loop of `SIP64` over whole words, and the bytes that are left. -/
def sipWords (s : SipState) : List Byte → SipState × List Byte
  | a :: b :: c :: d :: e :: f :: g :: h :: rest =>
    let m := u8to64Le [a, b, c, d, e, f, g, h]
    let s := sipround (sipround { s with v3 := s.v3 ^^^ m })
    sipWords { s with v0 := s.v0 ^^^ m } rest
  | left => (s, left)

def sip64 (input : List Byte) (seed0 seed1 : BitVec 64) : BitVec 64 :=
  let start : SipState := ⟨0x736f6d6570736575 ^^^ seed0, 0x646f72616e646f6d ^^^ seed1,
    0x6c7967656e657261 ^^^ seed0, 0x7465646279746573 ^^^ seed1⟩
  let (s, left) := sipWords start input
  let b := BitVec.ofNat 64 input.length <<< 56 ||| u8to64Le left
  let s := sipround (sipround { s with v3 := s.v3 ^^^ b })
  let s := { s with v0 := s.v0 ^^^ b, v2 := s.v2 ^^^ 0xff }
  let s := sipround (sipround (sipround (sipround s)))
  s.v0 ^^^ s.v1 ^^^ s.v2 ^^^ s.v3

example : sip64 [] 0x0706050403020100 0x0f0e0d0c0b0a0908 = 0x726fdb47dd0e0e31 := by decide +kernel

/-- `varmap_hash`, with `SEED0` and `SEED1`. -/
def varmapHash (name : Name) : BitVec 64 :=
  sip64 (name.map fun c => BitVec.ofNat 8 c.toNat) 0x12345678abcdef 0xfedcba9876543210

/-! ## The table -/

/-- `ub_var_int_array`. -/
structure IntArray where
  varname : Name
  itemcount : ℕ
  values : ℕ
  deriving Inhabited

def getHash (name : Name) : ℕ := (varmapHash name <<< 16 >>> 16).toNat

def hashmapGet (t : HashTable IntArray) (var : Name) : Option (Option ℕ) :=
  t.find IntArray.varname getHash var

/-- `hashmap_set`. A distance from home has 16 bits. -/
def hashmapSet (room : Bool) (t : HashTable IntArray) (item : IntArray) :
    Option (Stored IntArray) :=
  t.set IntArray.varname getHash 65536 room item

/-- What the allocations of one statement find: whether there is memory for the name and for the
values of a new array, for a larger table, and for an array of another size. -/
structure FindMemory where
  name : Bool
  values : Bool
  table : Bool
  realloc : Bool

/-- The part of `basic_ctx` that ARRAYFIND works on. The values of an integer array are in a block,
which has a number; `used` blocks have been allocated. -/
structure FindCtx where
  intArrays : HashTable IntArray
  doubleArrays : Name → Option (List ℤ)
  stringArrays : Name → Option (List (Option (List Byte)))
  blocks : ℕ → List ℤ
  used : ℕ
  program : BasicCtx

abbrev FindResult := Option (Option String × FindCtx)

def findError (message : String) (s : FindCtx) : FindResult := some (some message, s)

/-- The result of a statement that may add an array, and what is in the buckets then that the table
had before it. -/
abbrev EnsureResult := Option (Option String × FindCtx × (ℕ → Bucket IntArray))

namespace FindCtx

/-- `find_int_array`: the bucket. -/
def findIntArray (var : Name) (s : FindCtx) : Option (Option ℕ) := hashmapGet s.intArrays var

def basicIntVariableExists (var : Name) (s : FindCtx) : Bool :=
  (findVariable (s.program.vars .int) var s.program.callStackPtr).isSome

def ensureError (message : String) (s : FindCtx) : EnsureResult :=
  some (some message, s, s.intArrays.bucket)

/-! ## The destination -/

/-- `basic_dim_int_array`, for sizes whose bytes fit 64 bits. -/
def basicDimIntArray (var : Name) (size : ℕ) (memory : FindMemory) (s : FindCtx) :
    EnsureResult := do
  if s.basicIntVariableExists var then
    ensureError ("Variable '" ++ String.ofList var ++ "' already exists as non-array type") s
  else if validVar .int var = false then ensureError (malformedName var) s
  else if size < 1 then ensureError (invalidSize size) s
  else
    match ← s.findIntArray var with
    | some _ => ensureError ("Array '" ++ String.ofList var ++ "' already dimensioned") s
    | none =>
      if memory.name = false ∨ memory.values = false then ensureError (outOfMemory var) s
      else
        let stored ← hashmapSet memory.table s.intArrays ⟨var, size, s.used⟩
        let t := { s with
          intArrays := stored.table
          blocks := Function.update s.blocks s.used (List.replicate size 0)
          used := s.used + 1 }
        some (if stored.oom then some (outOfMemory var) else none, t, stored.memory)

/-- `basic_redim_int_array`, for sizes whose bytes fit 64 bits. A block that `buddy_realloc` moves
keeps its number. -/
def basicRedimIntArray (var : Name) (size : ℕ) (memory : FindMemory) (s : FindCtx) :
    EnsureResult := do
  if size < 1 then ensureError (invalidSize size) s
  else
    match ← s.findIntArray var with
    | none => ensureError (noSuchArray var) s
    | some p =>
      let cur := (s.intArrays.bucket p).item
      if size = cur.itemcount then some (none, s, s.intArrays.bucket)
      else if memory.realloc = false then ensureError (outOfMemory var) s
      else
        let elements := (s.blocks cur.values).take size
        let t := { s with
          intArrays := s.intArrays.change p { cur with itemcount := size }
          blocks := Function.update s.blocks cur.values
            (elements ++ List.replicate (size - elements.length) 0) }
        some (none, t, t.intArrays.bucket)

def ensureIntResultArray (var : Name) (size : ℕ) (memory : FindMemory) (s : FindCtx) :
    EnsureResult := do
  if s.basicIntVariableExists var then
    ensureError
      ("Variable '" ++ String.ofList var ++ "' already exists as non-integer array type") s
  else
    match ← s.findIntArray var with
    | none => s.basicDimIntArray var size memory
    | some _ => s.basicRedimIntArray var size memory

def basicSetIntArrayVariable (var : Name) (index : ℕ) (value : ℤ) (s : FindCtx) : FindResult := do
  if validVar .int var = false then findError (malformedName var) s
  else
    match ← s.findIntArray var with
    | none => findError (noSuchArray var) s
    | some p =>
      let cur := (s.intArrays.bucket p).item
      if cur.itemcount ≤ index then
        findError ("Array index " ++ toString index ++ " out of bounds [0.." ++
          toString (cur.itemcount - 1) ++ "]") s
      else if index < (s.blocks cur.values).length then
        some (none, { s with
          blocks := Function.update s.blocks cur.values ((s.blocks cur.values).set index value) })
      else none

/-! ## The scans -/

end FindCtx

/-- What a scan goes over: so many elements, and whether one is the one that is looked for. An
element outside of the array is a fault. -/
structure Scanned where
  itemcount : ℕ
  hit : FindCtx → ℕ → Option Bool

def scanInt (needle : ℤ) (cur : IntArray) : Scanned where
  itemcount := cur.itemcount
  hit s i := ((s.blocks cur.values)[i]?).map (· == needle)

def scanDouble (needle : ℤ) (elements : List ℤ) : Scanned where
  itemcount := elements.length
  hit _ i := (elements[i]?).map (doubleEq · needle)

def scanString (needle : List Byte) (elements : List (Option (List Byte))) : Scanned where
  itemcount := elements.length
  hit _ i := (elements[i]?).map fun value => BasicExpr.strcmp (value.getD []) needle == .eq

namespace FindCtx

def countMatches (cur : Scanned) (s : FindCtx) : Option ℕ :=
  (List.range cur.itemcount).foldlM
    (fun count i => do if ← cur.hit s i then some (count + 1) else some count) 0

def storeMatches (cur : Scanned) (dest : Name) : List ℕ → ℕ → FindCtx → FindResult
  | [], _, s => some (none, s)
  | i :: rest, out, s => do
    if ← cur.hit s i then
      let (error, s) ← s.basicSetIntArrayVariable dest out i
      match error with
      | some message => findError message s
      | none => storeMatches cur dest rest (out + 1) s
    else storeMatches cur dest rest out s

def storeNone (dest : Name) (memory : FindMemory) (s : FindCtx) : FindResult := do
  let (error, s, _) ← s.ensureIntResultArray dest 1 memory
  match error with
  | some message => findError message s
  | none => s.basicSetIntArrayVariable dest 0 (-1)

/-- The destination where there are matches. The array of the second scan depends on what is in the
buckets by then. -/
def storeFound (again : (ℕ → Bucket IntArray) → Scanned) (dest : Name) (found : ℕ)
    (memory : FindMemory) (s : FindCtx) : FindResult := do
  let (error, s, buckets) ← s.ensureIntResultArray dest found memory
  match error with
  | some message => findError message s
  | none => storeMatches (again buckets) dest (List.range (again buckets).itemcount) 0 s

/-- What `basic_arrayfind_int` and its siblings have in common. -/
def basicArrayfind (cur : Scanned) (again : (ℕ → Bucket IntArray) → Scanned) (dest countVar : Name)
    (memory : FindMemory) (s : FindCtx) : FindResult := do
  let found ← s.countMatches cur
  match basicSetIntVariable countVar (BitVec.ofNat 64 found) s.program false false with
  | .error message => findError message s
  | .ok program =>
    let s := { s with program := program }
    if found < 1 then s.storeNone dest memory else s.storeFound again dest found memory

/-- `basic_arrayfind_int`, whose `cur` points into the buckets. -/
def basicArrayfindInt (p : ℕ) (needle : ℤ) (dest countVar : Name)
    (memory : FindMemory) (s : FindCtx) :
    FindResult :=
  s.basicArrayfind (scanInt needle (s.intArrays.bucket p).item)
    (fun buckets => scanInt needle (buckets p).item) dest countVar memory

def basicArrayfindDouble (elements : List ℤ) (needle : ℤ) (dest countVar : Name)
    (memory : FindMemory) (s : FindCtx) : FindResult :=
  s.basicArrayfind (scanDouble needle elements) (fun _ => scanDouble needle elements) dest countVar
    memory

def basicArrayfindString (elements : List (Option (List Byte))) (needle : List Byte)
    (dest countVar : Name) (memory : FindMemory) (s : FindCtx) : FindResult :=
  s.basicArrayfind (scanString needle elements) (fun _ => scanString needle elements) dest countVar
    memory

/-- The checks of the names that `arrayfind_statement` makes. -/
def checkNames (source dest countVar : Name) (s : FindCtx) (search : FindResult) : FindResult :=
  if source = dest then findError "Source and destination arrays must differ" s
  else if source = countVar ∨ dest = countVar then
    findError "Count variable must differ from source and destination" s
  else search

def arrayfindStatement (source : Name) (needle : Needle) (dest countVar : Name)
    (memory : FindMemory) (s : FindCtx) : FindResult := do
  match ← s.findIntArray source with
  | some p =>
    checkNames source dest countVar s (s.basicArrayfindInt p needle.int dest countVar memory)
  | none =>
    match s.doubleArrays source with
    | some elements =>
      checkNames source dest countVar s
        (s.basicArrayfindDouble elements needle.double dest countVar memory)
    | none =>
      match s.stringArrays source with
      | some elements =>
        checkNames source dest countVar s
          (s.basicArrayfindString elements needle.string dest countVar memory)
      | none => findError (noSuchArray source) s

/-! ## Programs -/

inductive FindCall where
  | dim (var : Name) (size : ℕ) (memory : FindMemory)
  | redim (var : Name) (size : ℕ) (memory : FindMemory)
  | set (var : Name) (index : ℕ) (value : ℤ)
  | arrayfind (source : Name) (needle : Needle) (dest countVar : Name) (memory : FindMemory)
  | double (var : Name) (elements : Option (List ℤ))
  | string (var : Name) (elements : Option (List (Option (List Byte))))
  | plain (program : BasicCtx)

def call (s : FindCtx) : FindCall → Option FindCtx
  | .dim var size memory => (s.basicDimIntArray var size memory).map fun r => r.2.1
  | .redim var size memory => (s.basicRedimIntArray var size memory).map fun r => r.2.1
  | .set var index value => (s.basicSetIntArrayVariable var index value).map Prod.snd
  | .arrayfind source needle dest countVar memory =>
    (s.arrayfindStatement source needle dest countVar memory).map Prod.snd
  | .double var elements =>
    some { s with doubleArrays := Function.update s.doubleArrays var elements }
  | .string var elements =>
    some { s with stringArrays := Function.update s.stringArrays var elements }
  | .plain program => some { s with program := program }

def init (program : BasicCtx) : FindCtx where
  intArrays := .empty 16
  doubleArrays _ := none
  stringArrays _ := none
  blocks _ := []
  used := 0
  program := program

end FindCtx

end RetroRocket
