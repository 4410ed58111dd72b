import RetroRocket.Bits
import RetroRocket.OrderedMap

/-!
# The vectors of the ordered map

The nodes of `map.c` are in six parallel vectors of `vector.c`, to each of which a new node is
pushed if no slot is free. A push may need more memory, and each allocation may fail. `free_ix` is
taken to have room for every slot that is given back. A write behind the capacity of its vector has
no result.
-/

namespace RetroRocket

/-- A `vector`, without its data. -/
structure Room where
  count : ℕ
  capacity : ℕ

namespace Room

/-- `vector_grow_formula`. -/
def growFormula (oldCap : ℕ) : ℕ :=
  let next := (oldCap + oldCap / 2) % 2 ^ 64
  let next := if next < 8 then 8 else next
  if next < oldCap then (2 ^ 64 - 1) / 8 else next

/-- The loop of `vector_reserve`. -/
def reserveLoop (wantCap : ℕ) : ℕ → ℕ → Option ℕ
  | 0, _ => none
  | fuel + 1, newCap =>
    if newCap < wantCap then
      let next := growFormula newCap
      if next ≤ newCap then some wantCap else reserveLoop wantCap fuel next
    else some newCap

/-- `vector_reserve`, where `memory` says whether the allocation succeeds. -/
def reserve (v : Room) (wantCap : ℕ) (memory : Bool) : Option (Option Room) :=
  if wantCap ≤ v.capacity then some (some v)
  else do
    let newCap ← reserveLoop wantCap (wantCap + 1) (if v.capacity = 0 then 8 else v.capacity)
    some (if memory then some { v with capacity := newCap } else none)

/-- `vector_push`. -/
def push (v : Room) (memory : Bool) : Option (Option Room) :=
  if v.count = v.capacity then do
    match ← v.reserve (v.count + 1) memory with
    | none => some none
    | some v => some (some { v with count := v.count + 1 })
  else some (some { v with count := v.count + 1 })

end Room

/-- The vectors of a `map_soa`. -/
inductive Column where
  | keys
  | vals
  | left
  | right
  | parent
  | colour
  deriving DecidableEq

/-- In the order in which `soa_push_blank` goes through them. -/
def Column.all : List Column := [.keys, .vals, .left, .right, .parent, .colour]

structure MapVectors (κ ν : Type) where
  keys : ℕ → κ
  vals : ℕ → ν
  links : Links ℕ
  rooms : Column → Room
  freeIx : List ℕ
  count : ℕ

namespace MapVectors

open Links

variable {κ ν : Type} [Zero κ] [Zero ν]

/-- `map_create`, with the capacities that could be allocated. -/
def create (keys : ℕ → κ) (vals : ℕ → ν) (capacity : Column → ℕ) : MapVectors κ ν :=
  ⟨keys, vals, ⟨fun _ _ => none, fun _ => none, fun _ => false, none⟩, fun c =>
    ⟨0, capacity c⟩, [], 0⟩

variable (m : MapVectors κ ν)

def toMap : OrderedMap κ ν :=
  ⟨m.keys, m.vals, m.links, (m.rooms .keys).count, m.freeIx, m.count⟩

def blank (i : ℕ) : Column → MapVectors κ ν
  | .keys => { m with keys := Function.update m.keys i 0 }
  | .vals => { m with vals := Function.update m.vals i 0 }
  | .left => { m with links := m.links.setChild .left i none }
  | .right => { m with links := m.links.setChild .right i none }
  | .parent => { m with links := m.links.setParent i none }
  | .colour => { m with links := m.links.setRed i true }

def pushColumn (memory : Column → Bool) (c : Column) : Option (MapVectors κ ν × Bool) := do
  match ← (m.rooms c).push (memory c) with
  | none => some (m, false)
  | some room =>
    some ({ m.blank (m.rooms c).count c with rooms := Function.update m.rooms c room }, true)

/-- `soa_push_blank`, over the vectors that are left. -/
def soaPushBlank (memory : Column → Bool) :
    List Column → MapVectors κ ν → Option (MapVectors κ ν × Bool)
  | [], m => some (m, true)
  | c :: cs, m => do
    let (m, pushed) ← m.pushColumn memory c
    if pushed then soaPushBlank memory cs m else some (m, false)

def writeNode (i : ℕ) (key : κ) (val : ν) (parent : Option ℕ) : Option (MapVectors κ ν) :=
  if ∀ c ∈ Column.all, i < (m.rooms c).capacity then
    some { m with
      keys := Function.update m.keys i key
      vals := Function.update m.vals i val
      links := m.links.newNode i parent }
  else none

/-- `node_new`: the new node, if there is one. -/
def nodeNew (key : κ) (val : ν) (parent : Option ℕ) (memory : Column → Bool) :
    Option (MapVectors κ ν × Option ℕ) :=
  match m.freeIx with
  | i :: rest => do
    let m ← writeNode { m with freeIx := rest } i key val parent
    some (m, some i)
  | [] => do
    let (m, pushed) ← soaPushBlank memory Column.all m
    if pushed then
      let i := (m.rooms .keys).count - 1
      let m ← m.writeNode i key val parent
      some (m, some i)
    else some (m, none)

variable (cmp : κ → κ → Ordering)

/-- `map_insert` and `map_insert_or_assign`. The result is -1 if there is no memory for the node. -/
def insertWith (assign : ν → ν → ν) (key : κ) (value : ν) (memory : Column → Bool) :
    Option (MapVectors κ ν × ℤ) := do
  let r ← descend (fun i => cmp key (m.keys i)) m.toMap.fuel m.links.root none m.links
  match r with
  | .inl i => some ({ m with vals := Function.update m.vals i (assign (m.vals i) value) }, 0)
  | .inr link => do
    let parent := link.map (·.2)
    match ← m.nodeNew key value parent memory with
    | (m, none) => some (m, -1)
    | (m, some z) => do
      let links ← OrderedMap.insertFixup m.toMap.fuel z (m.toMap.attach cmp key parent z)
      some ({ m with links, count := m.count + 1 }, 1)

/-- `map_erase`. -/
def erase (key : κ) : Option (MapVectors κ ν × ℤ) := do
  let (n, r) ← m.toMap.erase cmp key
  some ({ m with links := n.links, freeIx := n.freeIx, count := n.count }, r)

/-- `map_clear`. -/
def clear : MapVectors κ ν :=
  { m with
    links := m.links.setRoot none
    rooms := fun c => { m.rooms c with count := 0 }
    freeIx := []
    count := 0 }

def exec (memory : Column → Bool) : OrderedMap.Call κ ν → Option (MapVectors κ ν × ℤ)
  | .insert key value => m.insertWith cmp (fun old _ => old) key value memory
  | .insertOrAssign key value => m.insertWith cmp (fun _ new => new) key value memory
  | .erase key => m.erase cmp key
  | .clear => some (m.clear, 0)

end MapVectors

end RetroRocket
