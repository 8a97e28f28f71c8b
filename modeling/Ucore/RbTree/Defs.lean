import Ucore.Lib.Loop
import Ucore.Lib.BinTree
import Ucore.Lib.Pool

/-!
# The red-black tree of `lib/rb_tree.c`

The functions of `lib/rb_tree.c` over an explicit heap.  A pointer is a value of an arbitrary type
`α`, the heap maps every pointer to the `rb_node` stored there, and every assignment of the source
is one `setRed`, `setParent` or `setChild`.  As in the source, a tree is a pair of sentinels: `nil`
stands for every missing child, and the left child of `root` is the top node.

The macros of the source (`FUNC_ROTATE`, `RB_INSERT_SUB`, `RB_DELETE_FIXUP_SUB`) take the names of
the two child fields as arguments; here they take a direction.  A loop takes its fuel as an
argument.  The function pointer `compare` reads the objects the nodes are embedded in, so it is an
argument of `rbInsert` rather than a field of the tree.
-/

set_option autoImplicit false

namespace Ucore

/-- `struct rb_node`. -/
structure RbNode (α : Type) where
  red : Bool
  parent : α
  left : α
  right : α
  deriving DecidableEq, Repr

/-- The child field of a node in direction `d`. -/
def RbNode.child {α : Type} (n : RbNode α) : Dir → α
  | .left => n.left
  | .right => n.right

/-- A node with its child field in direction `d` overwritten. -/
def RbNode.setChild {α : Type} (n : RbNode α) (d : Dir) (y : α) : RbNode α :=
  match d with
  | .left => { n with left := y }
  | .right => { n with right := y }

/-- The nodes in memory. -/
abbrev RbHeap (α : Type) := α → RbNode α

/-- `struct rb_tree`, with the address it is stored at. -/
structure RbTree (α : Type) where
  addr : α
  nil : α
  root : α
  deriving DecidableEq, Repr

variable {α : Type} [DecidableEq α]

namespace RbHeap

/-- `x->red = c`. -/
def setRed (h : RbHeap α) (x : α) (c : Bool) : RbHeap α :=
  Function.update h x { h x with red := c }

/-- `x->parent = p`. -/
def setParent (h : RbHeap α) (x p : α) : RbHeap α :=
  Function.update h x { h x with parent := p }

/-- `x->left = y` or `x->right = y`. -/
def setChild (h : RbHeap α) (x : α) (d : Dir) (y : α) : RbHeap α :=
  Function.update h x ((h x).setChild d y)

end RbHeap

/-! ## Creation and destruction -/

/-- `rb_tree_create`: the tree, its `nil` and its `root` are three objects, and whatever has been
allocated is given back when a later request fails. -/
def rbTreeCreate (k : Pool α) (h : RbHeap α) : Option (RbTree α) × Pool α × RbHeap α :=
  match k.take with
  | (none, k) => (none, k, h)
  | (some addr, k) =>
    match k.take with
    | (none, k) => (none, k.give addr, h)
    | (some nil, k) =>
      let h := Function.update h nil ⟨false, nil, nil, nil⟩
      match k.take with
      | (none, k) => (none, (k.give nil).give addr, h)
      | (some root, k) =>
        let h := Function.update h root ⟨false, nil, nil, nil⟩
        (some ⟨addr, nil, root⟩, k, h)

/-- `rb_tree_destroy`. -/
def rbTreeDestroy (k : Pool α) (tree : RbTree α) : Pool α :=
  ((k.give tree.root).give tree.nil).give tree.addr

/-! ## Rotation -/

/-- `FUNC_ROTATE(func_name, d, d.other)`. -/
def rbRotate (tree : RbTree α) (d : Dir) (h : RbHeap α) (x : α) : Res (RbHeap α) := do
  let y := (h x).child d.other
  assert (x ≠ tree.root ∧ x ≠ tree.nil ∧ y ≠ tree.nil)
  let h := h.setChild x d.other ((h y).child d)
  let h := if (h y).child d ≠ tree.nil then h.setParent ((h y).child d) x else h
  let h := h.setParent y (h x).parent
  let h :=
    if x = (h (h x).parent).child d then h.setChild (h x).parent d y
    else h.setChild (h x).parent d.other y
  let h := h.setChild y d x
  let h := h.setParent x y
  assert ((h tree.nil).red = false)
  return h

/-! ## Insertion -/

/-- The descent of `rb_insert_binary`: `y` is the last node passed, `x` the next one. -/
def rbDescend (fuel : ℕ) (tree : RbTree α) (compare : α → α → ℤ) (h : RbHeap α) (node : α) :
    Res (α × α) :=
  whileLoop (fun s => decide (s.2 ≠ tree.nil))
    (fun s => .ok (s.2, if compare s.2 node > 0 then (h s.2).left else (h s.2).right)) fuel
    (tree.root, (h tree.root).left)

/-- `rb_insert_binary`. -/
def rbInsertBinary (fuel : ℕ) (tree : RbTree α) (compare : α → α → ℤ) (h : RbHeap α) (node : α) :
    Res (RbHeap α) := do
  let h := (h.setChild node .right tree.nil).setChild node .left tree.nil
  let (y, _) ← rbDescend fuel tree compare h node
  let h := h.setParent node y
  if y = tree.root ∨ compare y node > 0 then
    return h.setChild y .left node
  else
    return h.setChild y .right node

/-- `RB_INSERT_SUB(d, d.other)`: one round of the loop of `rb_insert`. -/
def rbInsertSub (tree : RbTree α) (d : Dir) (h : RbHeap α) (x : α) : Res (RbHeap α × α) := do
  let y := (h (h (h x).parent).parent).child d.other
  if (h y).red then
    let h := h.setRed (h x).parent false
    let h := h.setRed y false
    let h := h.setRed (h (h x).parent).parent true
    return (h, (h (h x).parent).parent)
  else
    let (h, x) ←
      if x = (h (h x).parent).child d.other then do
        let x := (h x).parent
        let h ← rbRotate tree d h x
        pure (h, x)
      else pure (h, x)
    let h := h.setRed (h x).parent false
    let h := h.setRed (h (h x).parent).parent true
    let h ← rbRotate tree d.other h (h (h x).parent).parent
    return (h, x)

/-- The loop of `rb_insert`. -/
def rbInsertFixup (fuel : ℕ) (tree : RbTree α) (h : RbHeap α) (x : α) : Res (RbHeap α × α) :=
  whileLoop (fun s => (s.1 (s.1 s.2).parent).red)
    (fun s =>
      if (s.1 s.2).parent = (s.1 (s.1 (s.1 s.2).parent).parent).left then
        rbInsertSub tree .left s.1 s.2
      else rbInsertSub tree .right s.1 s.2)
    fuel (h, x)

/-- `rb_insert`. -/
def rbInsert (fuel : ℕ) (tree : RbTree α) (compare : α → α → ℤ) (h : RbHeap α) (node : α) :
    Res (RbHeap α) := do
  let h ← rbInsertBinary fuel tree compare h node
  let h := h.setRed node true
  let (h, _) ← rbInsertFixup fuel tree h node
  let h := h.setRed (h tree.root).left false
  assert ((h tree.nil).red = false ∧ (h tree.root).red = false)
  return h

/-! ## Walking and searching -/

/-- `while (y->d != nil) y = y->d`. -/
def rbExtreme (fuel : ℕ) (tree : RbTree α) (d : Dir) (h : RbHeap α) (y : α) : Res α :=
  whileLoop (fun y => decide ((h y).child d ≠ tree.nil)) (fun y => .ok ((h y).child d)) fuel y

/-- `rb_tree_successor`. -/
def rbTreeSuccessor (fuel : ℕ) (tree : RbTree α) (h : RbHeap α) (node : α) : Res α :=
  if (h node).right ≠ tree.nil then rbExtreme fuel tree .left h (h node).right
  else do
    let (_, y) ← whileLoop (fun s => decide (s.1 = (h s.2).right))
      (fun s => .ok (s.2, (h s.2).parent)) fuel (node, (h node).parent)
    if y = tree.root then return tree.nil else return y

/-- `rb_tree_predecessor`.  The loop of the source leaves the function when it meets the root
sentinel; here the guard stops it there, and the test comes after the loop. -/
def rbTreePredecessor (fuel : ℕ) (tree : RbTree α) (h : RbHeap α) (node : α) : Res α :=
  if (h node).left ≠ tree.nil then rbExtreme fuel tree .right h (h node).left
  else do
    let (x, y) ← whileLoop (fun s => decide (s.1 = (h s.2).left ∧ s.2 ≠ tree.root))
      (fun s => .ok (s.2, (h s.2).parent)) fuel (node, (h node).parent)
    if x = (h y).left then return tree.nil else return y

/-- `rb_node_prev`. -/
def rbNodePrev (fuel : ℕ) (tree : RbTree α) (h : RbHeap α) (node : α) : Res (Option α) := do
  let prev ← rbTreePredecessor fuel tree h node
  return if prev ≠ tree.nil then some prev else none

/-- `rb_node_next`. -/
def rbNodeNext (fuel : ℕ) (tree : RbTree α) (h : RbHeap α) (node : α) : Res (Option α) := do
  let next ← rbTreeSuccessor fuel tree h node
  return if next ≠ tree.nil then some next else none

/-- `rb_search`. -/
def rbSearch {κ : Type} (fuel : ℕ) (tree : RbTree α) (compare : α → κ → ℤ) (h : RbHeap α)
    (key : κ) : Res (Option α) := do
  let node ← whileLoop (fun node => decide (node ≠ tree.nil ∧ compare node key ≠ 0))
    (fun node => .ok (if compare node key > 0 then (h node).left else (h node).right)) fuel
    (h tree.root).left
  return if node ≠ tree.nil then some node else none

/-- `rb_node_root`. -/
def rbNodeRoot (tree : RbTree α) (h : RbHeap α) : Option α :=
  if (h tree.root).left ≠ tree.nil then some (h tree.root).left else none

/-- `rb_node_left` and `rb_node_right`. -/
def rbNodeChild (tree : RbTree α) (d : Dir) (h : RbHeap α) (node : α) : Option α :=
  if (h node).child d ≠ tree.nil then some ((h node).child d) else none

/-! ## Deletion -/

/-- `RB_DELETE_FIXUP_SUB(d, d.other)` below its first `if`, where the sibling `w` of `x` is black.
`root` is the copy of the top node the source keeps in a local variable. -/
def rbDeleteFixupBlack (tree : RbTree α) (d : Dir) (root : α) (h : RbHeap α) (x w : α) :
    Res (RbHeap α × α) := do
  if (h ((h w).child d)).red = false ∧ (h ((h w).child d.other)).red = false then
    let h := h.setRed w true
    return (h, (h x).parent)
  else
    let (h, w) ←
      if (h ((h w).child d.other)).red = false then do
        let h := h.setRed ((h w).child d) false
        let h := h.setRed w true
        let h ← rbRotate tree d.other h w
        pure (h, (h (h x).parent).child d.other)
      else pure (h, w)
    let h := h.setRed w (h (h x).parent).red
    let h := h.setRed (h x).parent false
    let h := h.setRed ((h w).child d.other) false
    let h ← rbRotate tree d h (h x).parent
    return (h, root)

/-- `RB_DELETE_FIXUP_SUB(d, d.other)`: one round of the loop of `rb_delete_fixup`. -/
def rbDeleteFixupSub (tree : RbTree α) (d : Dir) (root : α) (h : RbHeap α) (x : α) :
    Res (RbHeap α × α) := do
  let w := (h (h x).parent).child d.other
  if (h w).red then
    let h := h.setRed w false
    let h := h.setRed (h x).parent true
    let h ← rbRotate tree d h (h x).parent
    rbDeleteFixupBlack tree d root h x ((h (h x).parent).child d.other)
  else rbDeleteFixupBlack tree d root h x w

/-- `rb_delete_fixup`. -/
def rbDeleteFixup (fuel : ℕ) (tree : RbTree α) (h : RbHeap α) (node : α) : Res (RbHeap α) := do
  let root := (h tree.root).left
  let (h, x) ← whileLoop (fun s => decide (s.2 ≠ root ∧ (s.1 s.2).red = false))
    (fun s =>
      if s.2 = (s.1 (s.1 s.2).parent).left then rbDeleteFixupSub tree .left root s.1 s.2
      else rbDeleteFixupSub tree .right root s.1 s.2)
    fuel (h, node)
  return h.setRed x false

/-- The lines of `rb_delete` that cut out the node `y`: its only child `x` moves up. -/
def rbCutOut (h : RbHeap α) (y x : α) : RbHeap α :=
  let h := h.setParent x (h y).parent
  if y = (h (h y).parent).left then h.setChild (h y).parent .left x
  else h.setChild (h y).parent .right x

/-- The lines of `rb_delete` that put `y` in the place of `z`. -/
def rbReplace (h : RbHeap α) (z y : α) : RbHeap α :=
  let h :=
    if z = (h (h z).parent).left then h.setChild (h z).parent .left y
    else h.setChild (h z).parent .right y
  let h := h.setParent (h z).right y
  let h := h.setParent (h z).left y
  Function.update h y (h z)

/-- `rb_delete`. -/
def rbDelete (fuel : ℕ) (tree : RbTree α) (h : RbHeap α) (z : α) : Res (RbHeap α) := do
  let y ←
    if (h z).left = tree.nil ∨ (h z).right = tree.nil then pure z
    else rbTreeSuccessor fuel tree h z
  let x := if (h y).left ≠ tree.nil then (h y).left else (h y).right
  assert (y ≠ tree.root ∧ y ≠ tree.nil)
  let h := rbCutOut h y x
  let needFixup := !(h y).red
  let h := if y ≠ z then rbReplace h z y else h
  if needFixup then rbDeleteFixup fuel tree h x else return h

end Ucore
