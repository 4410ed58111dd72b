import Mathlib.Algebra.Group.Nat.Defs
import RetroRocket.RedBlackSearch
import RetroRocket.RedBlackUpdate
import RetroRocket.Run

/-!
# The memory that a program may touch

The tree of grants of `memory_grants.c`. A node has the first and the last byte of a range, and the
tree is ordered by the first. What the allocator answers to the request for a node is given with the
call; `nodes` are the nodes that it has handed out and that have not been freed, and no loop goes on
for longer than there are nodes.
-/

namespace RetroRocket

structure MemoryGrants where
  links : Links ℕ
  base : ℕ → ℕ
  last : ℕ → ℕ
  nodes : List ℕ

namespace MemoryGrants

open Links

/-- `memory_grants_init`. -/
def init : MemoryGrants := ⟨⟨fun _ _ => none, fun _ => none, fun _ => false, none⟩, id, id, []⟩

variable (g : MemoryGrants)

def fuel : ℕ := g.nodes.length + 1

def compareBase (base i : ℕ) : Ordering := compare base (g.base i)

/-- `z->parent->parent`, once `z` is on the outer side. -/
def grandparent (s : Links ℕ) (z _ : ℕ) : Option ℕ := do
  let p ← s.parent z
  s.parent p

def insertFixup (fuel z : ℕ) (s : Links ℕ) : Option (Links ℕ) := do
  let s ← insertLoop grandparent fuel z s
  let root ← s.root
  some (s.setRed root false)

/-- `memory_grants_add`. `node` is what `buddy_calloc` returns. -/
def add (base length : ℕ) (node : Option ℕ) : Option (MemoryGrants × Bool) :=
  if base = 0 ∨ length = 0 then some (g, false)
  else
    match node with
    | none => some (g, false)
    | some node => do
      let g := { g with
        base := Function.update g.base node base
        last := Function.update g.last node ((base + length - 1) % 2 ^ 64)
        nodes := node :: g.nodes }
      match ← descend (g.compareBase base) g.fuel g.links.root none g.links with
      | .inl _ => some ({ g with nodes := g.nodes.erase node }, false)
      | .inr link => do
        let links := (g.links.newNode node (link.map (·.2))).point link (some node)
        let links ← insertFixup g.fuel node links
        some ({ g with links }, true)

/-- `memory_grants_contains`. -/
def contains (addr length : ℕ) : Option Bool :=
  if addr = 0 ∨ length = 0 then some false
  else do
    let last := (addr + length - 1) % 2 ^ 64
    let node ← find (fun i => if addr < g.base i then .lt else if g.last i < addr then .gt else .eq)
      g.fuel g.links
    match node with
    | none => some false
    | some node => some (last ≤ g.last node)

/-- The sibling `w` of a place below `xParent`, after a red one has been rotated above `xParent`. -/
def deleteSibling (d : Side) (xParent : ℕ) (w : Option ℕ) (s : Links ℕ) :
    Option (Option ℕ × Links ℕ) :=
  if s.isRed w then do
    let w ← w
    let s ← ((s.setRed w false).setRed xParent true).rotate d xParent
    some (s.child d.flip xParent, s)
  else some (w, s)

/-- The loop of `delete_fixup`, which looks for null pointers that are never there. -/
def deleteLoop : ℕ → Option ℕ → Option ℕ → Links ℕ → Option (Option ℕ × Links ℕ)
  | 0, _, _, _ => none
  | _ + 1, x, none, s => some (x, s)
  | fuel + 1, x, some xParent, s =>
    if x = s.root ∨ s.isRed x then some (x, s)
    else do
      let d := s.sideOf xParent x
      let (w, s) ← deleteSibling d xParent (s.child d.flip xParent) s
      match w with
      | none => deleteLoop fuel (some xParent) (s.parent xParent) s
      | some w =>
        if s.isRed (s.child d w) ∨ s.isRed (s.child d.flip w) then do
          let s ← s.eraseFinish d xParent w
          some (s.root, s)
        else deleteLoop fuel (some xParent) (s.parent xParent) (s.setRed w true)

def deleteFixup (fuel : ℕ) (x xParent : Option ℕ) (s : Links ℕ) : Option (Links ℕ) := do
  let (x, s) ← deleteLoop fuel x xParent s
  some (s.paint x false)

/-- `delete_fixup`, where the colour that has gone was black. -/
def repaired (fuel : ℕ) (r : Unlinked ℕ) : Option (Links ℕ) :=
  if r.red then some r.links else deleteFixup fuel r.x r.xParent r.links

/-- `memory_grants_remove`. -/
def remove (base : ℕ) : Option (MemoryGrants × Bool) :=
  if base = 0 then some (g, false)
  else do
    match ← find (g.compareBase base) g.fuel g.links with
    | none => some (g, false)
    | some z => do
      let r ← g.links.unlink g.fuel z
      let links ← repaired g.fuel r
      some ({ g with links, nodes := g.nodes.erase z }, true)

/-- `memory_grants_valid_base`. -/
def validBase (base : ℕ) : Option Bool :=
  if base = 0 then some false
  else (find (g.compareBase base) g.fuel g.links).map Option.isSome

inductive Call where
  | add (base length : ℕ) (node : Option ℕ)
  | remove (base : ℕ)

def exec : Call → Option (MemoryGrants × Bool)
  | .add base length node => g.add base length node
  | .remove base => g.remove base

end MemoryGrants

end RetroRocket
