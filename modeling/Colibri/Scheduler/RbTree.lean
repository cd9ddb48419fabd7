import Colibri.Lib.RedBlack
import Mathlib.Logic.Function.Basic

/-!
# The run queue's red-black tree, as the pointer code has it

Model of `kernel/scheduler/rb_tree.c` and `kernel/include/kernel/scheduler/rb_tree.h`.

* A pointer is a `Ptr`: `none` is `NULL`. `SchedTree.nodes` is the memory of the `rb_node_t`
  blocks: `none` at an address that holds no live node.
* Every dereference is a lookup in `nodes`, so following `NULL` or a freed pointer makes the whole
  operation `none`.
* A `while` or `do … while` loop takes a fuel that bounds its iterations. `SchedTree.size` is a
  ghost counter of the live nodes; each loop starts with one more than that. Running out of fuel is
  `none` as well, so an operation that returns `some` neither faulted nor looped.
* `alloc(sizeof(rb_node_t))` is the address `run` handed to `rbInsert`.
* `entity_key(se)` is `key se`: what the entities' `vruntime` fields hold at the call.
-/

namespace Colibri.Scheduler

open Colibri.Lib

/-- The address of an object in memory. -/
abbrev Addr := Nat

/-- A pointer; `none` is `NULL`. -/
abbrev Ptr := Option Addr

/-- `struct rb_node`. The union of `left`, `right` with `child[2]` is the accessor `child`. -/
structure RbNode (E : Type) where
  left : Ptr
  right : Ptr
  parent : Ptr
  color : Color
  se : E
  deriving DecidableEq, Repr

namespace RbNode

variable {E : Type}

/-- `n->child[dir]`. -/
def child (n : RbNode E) : Dir → Ptr
  | .left => n.left
  | .right => n.right

/-- `n->child[dir] = p`. -/
def setChild (n : RbNode E) (d : Dir) (p : Ptr) : RbNode E :=
  match d with
  | .left => { n with left := p }
  | .right => { n with right := p }

def setParent (n : RbNode E) (p : Ptr) : RbNode E := { n with parent := p }

def setColor (n : RbNode E) (c : Color) : RbNode E := { n with color := c }

def setSe (n : RbNode E) (e : E) : RbNode E := { n with se := e }

end RbNode

/-- `sched_tree_t`, with the memory its nodes live in and the ghost count of live nodes. -/
structure SchedTree (E : Type) where
  root : Ptr
  leftmost : Ptr
  nodes : Addr → Option (RbNode E)
  size : Nat

namespace SchedTree

variable {E : Type}

/-- The zero-initialised tree. -/
def empty : SchedTree E := ⟨none, none, fun _ => none, 0⟩

/-- A write through the pointer `a`. -/
def modify (t : SchedTree E) (a : Addr) (f : RbNode E → RbNode E) : Option (SchedTree E) :=
  (t.nodes a).map fun n => { t with nodes := Function.update t.nodes a (some (f n)) }

/-- `DIR(N)`: `N == N->parent->right ? RIGHT : LEFT`. -/
def dirOf (t : SchedTree E) (n : Addr) : Option Dir := do
  let p ← (← t.nodes n).parent
  return if (← t.nodes p).right = some n then .right else .left

/-- `!n || n->color == BLACK`. -/
def isBlack (t : SchedTree E) (n : Ptr) : Option Bool :=
  match n with
  | none => some true
  | some a => (t.nodes a).map fun n => n.color = .black

/-- `free(n)`. -/
def free (t : SchedTree E) (a : Addr) : SchedTree E :=
  { t with nodes := Function.update t.nodes a none, size := t.size - 1 }

/-- `rotate`. -/
def rotate (t : SchedTree E) (n : Addr) (dir : Dir) : Option (SchedTree E) := do
  let p := (← t.nodes n).parent
  let root ← (← t.nodes n).child dir.flip
  let child := (← t.nodes root).child dir
  let t ← t.modify n (·.setChild dir.flip child)
  let t ← match child with
    | some c => t.modify c (·.setParent (some n))
    | none => some t
  let t ← t.modify root (·.setParent p)
  let t ← match p with
    | some p => do
      let d ← t.dirOf n
      t.modify p (·.setChild d (some root))
    | none => some { t with root := some root }
  let t ← t.modify n (·.setParent (some root))
  t.modify root (·.setChild dir (some n))

/-- The external case of `balance_tree_insert`: the grandparent is rotated away from `dir` and
the two swap colours. -/
def insertExternal (t : SchedTree E) (gp parent : Addr) (dir : Dir) : Option (SchedTree E) := do
  let t ← t.rotate gp dir.flip
  let t ← t.modify gp (·.setColor .red)
  t.modify parent (·.setColor .black)

/-- The `do … while ((parent = n->parent))` loop of `balance_tree_insert`. -/
def balanceInsertLoop : Nat → SchedTree E → Addr → Addr → Option (SchedTree E)
  | 0, _, _, _ => none
  | fuel + 1, t, n, parent => do
    let pn ← t.nodes parent
    if pn.color = .black then
      return t
    match pn.parent with
    | none => t.modify parent (·.setColor .black)
    | some gp =>
      let dir ← t.dirOf parent
      let uncle := (← t.nodes gp).child dir.flip
      if ← t.isBlack uncle then
        if pn.child dir.flip = some n then
          let t ← t.rotate parent dir
          let parent ← (← t.nodes gp).child dir
          t.insertExternal gp parent dir
        else
          t.insertExternal gp parent dir
      else
        let t ← t.modify parent (·.setColor .black)
        let t ← t.modify (← uncle) (·.setColor .black)
        let t ← t.modify gp (·.setColor .red)
        match (← t.nodes gp).parent with
        | none => return t
        | some parent => balanceInsertLoop fuel t gp parent

/-- `balance_tree_insert`. -/
def balanceTreeInsert (t : SchedTree E) (n : Addr) (parent : Ptr) : Option (SchedTree E) :=
  match parent with
  | none => t.modify n (·.setColor .black)
  | some parent => balanceInsertLoop (t.size + 1) t n parent

/-- What `link` of `rb_insert` points to: the root pointer or a child slot. -/
inductive Link where
  | root
  | child (a : Addr) (d : Dir)
  deriving DecidableEq, Repr

/-- `*link`. -/
def readLink (t : SchedTree E) : Link → Option Ptr
  | .root => some t.root
  | .child a d => (t.nodes a).map (·.child d)

/-- `*link = p`. -/
def writeLink (t : SchedTree E) (p : Ptr) : Link → Option (SchedTree E)
  | .root => some { t with root := p }
  | .child a d => t.modify a (·.setChild d p)

variable {K : Type} [LinearOrder K]

/-- The descent of `rb_insert`: `while (*link)`. Equal keys go right. -/
def insertDescend (key : E → K) (k : K) (t : SchedTree E) :
    Nat → Link → Ptr → Bool → Option (Link × Ptr × Bool)
  | 0, _, _, _ => none
  | fuel + 1, link, parent, leftmost => do
    match ← t.readLink link with
    | none => return (link, parent, leftmost)
    | some a =>
      if k < key (← t.nodes a).se then
        insertDescend key k t fuel (.child a .left) (some a) leftmost
      else
        insertDescend key k t fuel (.child a .right) (some a) false

/-- `rb_insert`; `run` is the address `alloc` returned. The new node's `parent` field is not
written before the link is known, so what it holds until then is never read. -/
def rbInsert (key : E → K) (t : SchedTree E) (se : E) (run : Addr) : Option (SchedTree E) := do
  let k := key se
  let t := { t with
    nodes := Function.update t.nodes run (some ⟨none, none, none, .red, se⟩), size := t.size + 1 }
  let (link, parent, leftmost) ← insertDescend key k t (t.size + 1) .root none true
  let t := if leftmost then { t with leftmost := some run } else t
  let t ← t.modify run (·.setParent parent)
  let t ← t.writeLink (some run) link
  t.balanceTreeInsert run parent

/-- Case 6 of `balance_tree_remove`. -/
def removeCase6 (t : SchedTree E) (p s : Addr) (d : Ptr) (dir : Dir) : Option (SchedTree E) := do
  let t ← t.rotate p dir
  let c := (← t.nodes p).color
  let t ← t.modify s (·.setColor c)
  let t ← t.modify p (·.setColor .black)
  t.modify (← d) (·.setColor .black)

/-- Case 3 of `balance_tree_remove`: a red sibling `s` is rotated above `p`, and its child `c` on
the side of `n` becomes the sibling. Returns the tree with the new `s`, `c` and `d`. -/
def removeCase3 (t : SchedTree E) (p s : Addr) (c : Ptr) (dir : Dir) :
    Option (SchedTree E × Addr × Ptr × Ptr) := do
  let t ← t.rotate p dir
  let t ← t.modify p (·.setColor .red)
  let t ← t.modify s (·.setColor .black)
  let s ← c
  let sn ← t.nodes s
  return (t, s, sn.child dir, sn.child dir.flip)

/-- Case 5 of `balance_tree_remove`, which falls through to case 6 with `d = s`, `s = c`. -/
def removeCase5 (t : SchedTree E) (p s : Addr) (c : Ptr) (dir : Dir) : Option (SchedTree E) := do
  let t ← t.rotate s dir.flip
  let c ← c
  let t ← t.modify c (·.setColor .black)
  let t ← t.modify s (·.setColor .red)
  t.removeCase6 p c (some s) dir

/-- The rest of an iteration of `balance_tree_remove`, with a black sibling `s`. `true` is the
`continue` of case 2; the other cases return. -/
def removeBlackSibling (t : SchedTree E) (p s : Addr) (c d : Ptr) (dir : Dir) :
    Option (SchedTree E × Bool) := do
  if ← t.isBlack d then
    if ← t.isBlack c then
      let t ← t.modify s (·.setColor .red)
      if (← t.nodes p).color = .black then
        return (t, true)
      else
        return (← t.modify p (·.setColor .black), false)
    else
      return (← t.removeCase5 p s c dir, false)
  else
    return (← t.removeCase6 p s d dir, false)

/-- The loop of `balance_tree_remove`. The `continue` of case 2 evaluates
`(n = n->parent) && n->parent`; leaving the loop there is case 1, `t->root = n`. -/
def balanceRemoveLoop : Nat → SchedTree E → Addr → Option (SchedTree E)
  | 0, _, _ => none
  | fuel + 1, t, n => do
    let dir ← t.dirOf n
    let p ← (← t.nodes n).parent
    let s ← (← t.nodes p).child dir.flip
    let c := (← t.nodes s).child dir
    let d := (← t.nodes s).child dir.flip
    let (t, s, c, d) ←
      if (← t.nodes s).color = .red then t.removeCase3 p s c dir else some (t, s, c, d)
    match ← t.removeBlackSibling p s c d dir with
    | (t, false) => return t
    | (t, true) =>
      match (← t.nodes n).parent with
      | none => return { t with root := none }
      | some n =>
        match (← t.nodes n).parent with
        | none => return { t with root := some n }
        | some _ => balanceRemoveLoop fuel t n

/-- `balance_tree_remove`. -/
def balanceTreeRemove (t : SchedTree E) (n : Addr) : Option (SchedTree E) :=
  balanceRemoveLoop (t.size + 1) t n

/-- `rightmost`. -/
def rightmost (t : SchedTree E) : Nat → Addr → Option Addr
  | 0, _ => none
  | fuel + 1, sub => do
    match (← t.nodes sub).right with
    | none => return sub
    | some r => rightmost t fuel r

/-- The descent of `rb_remove`: `while (n && n->se != se)`, equal keys to the right. `some none` is
the exit with `n == NULL`. -/
def findLoop [DecidableEq E] (key : E → K) (t : SchedTree E) (se : E) :
    Nat → Ptr → Option Ptr
  | 0, _ => none
  | _ + 1, none => some none
  | fuel + 1, some n => do
    let nd ← t.nodes n
    if nd.se = se then
      return some n
    else if key se < key nd.se then
      findLoop key t se fuel nd.left
    else
      findLoop key t se fuel nd.right

/-- The node `rb_remove` arrives at for `se`. -/
def find [DecidableEq E] (key : E → K) (t : SchedTree E) (se : E) : Option Ptr :=
  t.findLoop key se (t.size + 1) t.root

/-- `rb_remove` for a node `n` with one child: the child's entity moves up and the child goes. -/
def removeChild (t : SchedTree E) (n child : Addr) : Option (SchedTree E) := do
  let dir ← t.dirOf child
  let ce := (← t.nodes child).se
  let t ← t.modify n (·.setSe ce)
  let t ← t.modify n (·.setChild dir none)
  let t := if t.leftmost = some child then { t with leftmost := some n } else t
  return t.free child

/-- The end of `rb_remove` for a leaf `n` that is not the root: a black one is balanced away
first. -/
def unlinkLeaf (t : SchedTree E) (n : Addr) : Option (SchedTree E) := do
  let dir ← t.dirOf n
  if (← t.nodes n).color = .red then
    let t ← t.modify (← (← t.nodes n).parent) (·.setChild dir none)
    return t.free n
  else
    let t ← t.balanceTreeRemove n
    let t ← t.modify (← (← t.nodes n).parent) (·.setChild dir none)
    return t.free n

/-- `rb_remove` for a node `n` without children. -/
def removeLeaf (t : SchedTree E) (n : Addr) : Option (SchedTree E) := do
  let nd ← t.nodes n
  let t := if t.leftmost = some n then { t with leftmost := nd.parent } else t
  if t.root = some n then
    return { t with root := none }.free n
  else
    t.unlinkLeaf n

/-- `rb_remove` for a node `n` with at most one child. -/
def removeOuter (t : SchedTree E) (n : Addr) : Option (SchedTree E) := do
  let nd ← t.nodes n
  match nd.left, nd.right with
  | some l, _ => t.removeChild n l
  | none, some r => t.removeChild n r
  | none, none => t.removeLeaf n

/-- `rb_remove` once its descent has found the node `n`. A node with two children takes over the
entity of its predecessor `sw`, and `sw` is the node that goes. -/
def removeNode (t : SchedTree E) (n : Addr) : Option (SchedTree E) := do
  let nd ← t.nodes n
  match nd.left, nd.right with
  | some l, some _ =>
    let sw ← t.rightmost (t.size + 1) l
    let e := (← t.nodes sw).se
    let t ← t.modify n (·.setSe e)
    t.removeOuter sw
  | _, _ => t.removeOuter n

/-- `rb_remove`. -/
def rbRemove [DecidableEq E] (key : E → K) (t : SchedTree E) (se : E) : Option (SchedTree E) := do
  match ← t.find key se with
  | none => return t
  | some n => t.removeNode n

end SchedTree

end Colibri.Scheduler
