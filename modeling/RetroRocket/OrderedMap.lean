import Mathlib.Logic.Function.Basic
import RetroRocket.RedBlackSearch
import RetroRocket.RedBlackUpdate
import RetroRocket.Run

/-!
# The ordered map

`map.c`, a red-black tree whose nodes are indices into parallel vectors. `NIL` is `none`, and `size`
is the length of the vectors. A slot that has been erased goes to `freeIx`, from whose end the next
new node is taken; the head of the list is that end. No loop goes on for longer than there are
slots.
-/

namespace RetroRocket

structure OrderedMap (κ ν : Type) where
  keys : ℕ → κ
  vals : ℕ → ν
  links : Links ℕ
  size : ℕ
  freeIx : List ℕ
  count : ℕ

namespace OrderedMap

open Links

variable {κ ν : Type}

/-- `map_create`, with what the memory of the vectors holds. -/
def create (keys : ℕ → κ) (vals : ℕ → ν) : OrderedMap κ ν :=
  ⟨keys, vals, ⟨fun _ _ => none, fun _ => none, fun _ => false, none⟩, 0, [], 0⟩

variable (m : OrderedMap κ ν)

/-- `map_clear`. -/
def clear : OrderedMap κ ν :=
  { m with links := m.links.setRoot none, size := 0, freeIx := [], count := 0 }

def fuel : ℕ := m.size + 1

/-- `node_new`: the new node, and the map. -/
def nodeNew (key : κ) (val : ν) (parent : Option ℕ) : ℕ × OrderedMap κ ν :=
  let (i, m) := match m.freeIx with
    | i :: rest => (i, { m with freeIx := rest })
    | [] => (m.size, { m with size := m.size + 1 })
  (i, { m with
    keys := Function.update m.keys i key
    vals := Function.update m.vals i val
    links := m.links.newNode i parent })

def insertFixup (fuel z : ℕ) (s : Links ℕ) : Option (Links ℕ) := do
  let s ← insertLoop (fun _ _ g => some g) fuel z s
  some (s.paint s.root false)

def eraseFixup (fuel : ℕ) (x xParent : Option ℕ) (s : Links ℕ) : Option (Links ℕ) := do
  let (x, s) ← eraseLoop fuel x xParent s
  some (s.paint x false)

variable (cmp : κ → κ → Ordering)

/-- The new node `z` is linked from its parent, on the side that the comparison tells once more. -/
def attach (key : κ) (parent : Option ℕ) (z : ℕ) : Links ℕ :=
  match parent with
  | none => m.links.setRoot (some z)
  | some q =>
    if cmp key (m.keys q) = .lt then m.links.setChild .left q (some z)
    else m.links.setChild .right q (some z)

/-- `map_insert` and `map_insert_or_assign`, which differ in what they do with the value of a key
that is there. The result is 1 if the key is new. -/
def insertWith (assign : ν → ν → ν) (key : κ) (value : ν) : Option (OrderedMap κ ν × ℕ) := do
  let r ← descend (fun i => cmp key (m.keys i)) m.fuel m.links.root none m.links
  match r with
  | .inl i => some ({ m with vals := Function.update m.vals i (assign (m.vals i) value) }, 0)
  | .inr link => do
    let parent := link.map (·.2)
    let (z, m) := m.nodeNew key value parent
    let links ← insertFixup m.fuel z (m.attach cmp key parent z)
    some ({ m with links, count := m.count + 1 }, 1)

/-- `map_insert`. -/
def insert (key : κ) (value : ν) : Option (OrderedMap κ ν × ℕ) :=
  m.insertWith cmp (fun old _ => old) key value

/-- `map_insert_or_assign`. -/
def insertOrAssign (key : κ) (value : ν) : Option (OrderedMap κ ν × ℕ) :=
  m.insertWith cmp (fun _ new => new) key value

def findIndex (key : κ) : Option (Option ℕ) :=
  Links.find (fun i => cmp key (m.keys i)) m.fuel m.links

/-- `map_find`. -/
def find (key : κ) : Option (Option ν) := do
  let i ← m.findIndex cmp key
  some (i.map m.vals)

/-- The fix-up at the end of `map_erase`, where the colour that has gone was black. -/
def repaired (fuel : ℕ) (r : Unlinked ℕ) : Option (Links ℕ) :=
  if r.red then some r.links else eraseFixup fuel r.x r.xParent r.links

/-- `map_erase`. The result is 1 if the key was there. -/
def erase (key : κ) : Option (OrderedMap κ ν × ℕ) := do
  let i ← m.findIndex cmp key
  match i with
  | none => some (m, 0)
  | some z => do
    let r ← m.links.unlink m.fuel z
    let links ← repaired m.fuel r
    some ({ m with
      links := links.paint links.root false
      freeIx := z :: m.freeIx
      count := m.count - 1 }, 1)

def entry (i : ℕ) : κ × ν := (m.keys i, m.vals i)

/-- `map_lower_bound`. -/
def lowerBound (key : κ) : Option (Option (κ × ν)) := do
  let i ← bound (fun i => cmp (m.keys i) key != .lt) m.fuel m.links.root none m.links
  some (i.map m.entry)

/-- `map_upper_bound`. -/
def upperBound (key : κ) : Option (Option (κ × ν)) := do
  let i ← bound (fun i => cmp (m.keys i) key == .gt) m.fuel m.links.root none m.links
  some (i.map m.entry)

inductive Call (κ ν : Type) where
  | insert (key : κ) (value : ν)
  | insertOrAssign (key : κ) (value : ν)
  | erase (key : κ)
  | clear

def exec : Call κ ν → Option (OrderedMap κ ν × ℕ)
  | .insert key value => m.insert cmp key value
  | .insertOrAssign key value => m.insertOrAssign cmp key value
  | .erase key => m.erase cmp key
  | .clear => some (m.clear, 0)

end OrderedMap

end RetroRocket
