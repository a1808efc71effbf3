/-
Module: LinuxKernel.Lib.PrioTree
Purpose: `lib/prio_tree.c`, the radix priority search tree, on the links of its nodes. A result `none` is a
  `BUG` or a loop that is not done within `rounds`. A heap of nodes holds a tree, as the node at each path;
  each write to the links changes it at one place.
Trusted boundary: human-reviewed spec
Main exports: prioTreeInsert, prioTreeRemove, prioTreeForeach, Holds, Became
-/
import LinuxKernel.Library.PathTree

namespace LinuxKernel.Lib.PrioTree

/-- `BITS_PER_LONG`. -/
def bitsPerLong : Nat := 64

/-- `ULONG_MAX`. -/
def ulongMax : Nat := 2 ^ bitsPerLong - 1

/-- What `get_index` gives for a node: a closed interval of `unsigned long`s. -/
@[ext] structure Interval where
  radixIndex : Nat
  heapIndex : Nat
  ordered : radixIndex ≤ heapIndex
  bounded : heapIndex < 2 ^ bitsPerLong
deriving DecidableEq

/-- The links of all nodes, by address, and the fields of the `struct prio_tree_root`. Address 0 is `NULL`.
A missing child is a link of a node to itself, and so is the parent of the root. `child false` is `left` and
`child true` is `right`. -/
structure Heap where
  child : Bool → Nat → Nat
  parent : Nat → Nat
  prioTreeNode : Nat
  indexBits : Nat

namespace Heap

@[simps parent prioTreeNode indexBits]
def setChild (heap : Heap) (side : Bool) (node value : Nat) : Heap :=
  { heap with child := Function.update heap.child side (Function.update (heap.child side) node value) }

@[simps child prioTreeNode indexBits]
def setParent (heap : Heap) (node value : Nat) : Heap :=
  { heap with parent := Function.update heap.parent node value }

/-- `INIT_PRIO_TREE_NODE(ptr)`. -/
@[simps! prioTreeNode indexBits]
def initNode (heap : Heap) (ptr : Nat) : Heap :=
  ((heap.setParent ptr ptr).setChild true ptr ptr).setChild false ptr ptr

end Heap

/-- `index_bits_to_maxindex[i]` after `prio_tree_init`. -/
def indexBitsToMaxindex (i : Nat) : Nat :=
  if i < bitsPerLong - 1 then (1 <<< (i + 1)) - 1 else ulongMax

/-- `prio_tree_maxindex(bits)`. -/
def prioTreeMaxindex (bits : Nat) : Nat := indexBitsToMaxindex (bits - 1)

/-- The part of `prio_tree_replace` for the child of `old` on one side. -/
def adopt (side : Bool) (old node : Nat) (heap : Heap) : Heap :=
  if heap.child side old = old then heap
  else (heap.setChild side node (heap.child side old)).setParent (heap.child side old) node

/-- The part of `prio_tree_replace` for the link that leads to `old`. -/
def takeLink (old node : Nat) (heap : Heap) : Option Heap :=
  if heap.parent old = old then
    -- `BUG_ON(root->prio_tree_node != old)`
    if heap.prioTreeNode ≠ old then none
    else some { heap.setParent node node with prioTreeNode := node }
  else
    let heap := heap.setParent node (heap.parent old)
    if heap.child false (heap.parent old) = old then some (heap.setChild false (heap.parent old) node)
    else some (heap.setChild true (heap.parent old) node)

/-- `prio_tree_replace(root, old, node)`. -/
def prioTreeReplace (old node : Nat) (heap : Heap) : Option Heap := do
  let heap ← takeLink old node (heap.initNode node)
  some (adopt true old node (adopt false old node heap))

section Operations

-- `get_index(root, node, ..)`, which no operation changes
variable (index : Nat → Interval)

/-! ### Removal -/

/-- The first loop of `prio_tree_remove`, down to a leaf. -/
def removeLeaf : (rounds : Nat) → (cur : Nat) → Heap → Option Nat
  | 0, _, _ => none
  | rounds + 1, cur, heap =>
    if heap.child false cur ≠ cur ∨ heap.child true cur ≠ cur then
      if heap.child false cur = cur then removeLeaf rounds (heap.child true cur) heap
      else if heap.child true cur = cur then removeLeaf rounds (heap.child false cur) heap
      else if (index (heap.child false cur)).heapIndex ≥ (index (heap.child true cur)).heapIndex then
        removeLeaf rounds (heap.child false cur) heap
      else removeLeaf rounds (heap.child true cur) heap
    else some cur

/-- The last loop of `prio_tree_remove`, which moves the nodes on the way to the leaf one place up. -/
def removeUp : (rounds : Nat) → (cur node : Nat) → Heap → Option Heap
  | 0, _, _, _ => none
  | rounds + 1, cur, node, heap =>
    if cur ≠ node then do
      let parent := heap.parent cur
      let heap ← prioTreeReplace parent cur heap
      removeUp rounds parent node heap
    else some heap

/-- `prio_tree_remove(root, node)`. -/
def prioTreeRemove (rounds : Nat) (node : Nat) (heap : Heap) : Option Heap := do
  let cur ← removeLeaf index rounds node heap
  if heap.parent cur = cur then
    -- `BUG_ON(root->prio_tree_node != cur)`, `__INIT_PRIO_TREE_ROOT(root, root->raw)`
    if heap.prioTreeNode ≠ cur then none else some { heap with prioTreeNode := 0, indexBits := 1 }
  else
    let parent := heap.parent cur
    let heap := if heap.child true parent = cur then heap.setChild true parent parent
      else heap.setChild false parent parent
    removeUp rounds cur node heap

/-! ### Insertion -/

/-- The loop of `prio_tree_expand`; the result has the pointers `first` and `last`. -/
def expandLoop (rounds : Nat) : (steps : Nat) → (maxHeapIndex first last : Nat) → Heap →
    Option (Heap × Nat × Nat)
  | 0, _, _, _, _ => none
  | steps + 1, maxHeapIndex, first, last, heap =>
    if maxHeapIndex > prioTreeMaxindex heap.indexBits then
      let heap := { heap with indexBits := heap.indexBits + 1 }
      let top := heap.prioTreeNode
      if top = 0 then expandLoop rounds steps maxHeapIndex first last heap
      else do
        let heap ← prioTreeRemove index rounds top heap
        let heap := heap.initNode top
        if first = 0 then expandLoop rounds steps maxHeapIndex top top heap
        else
          expandLoop rounds steps maxHeapIndex first top ((heap.setChild false last top).setParent top last)
    else some (heap, first, last)

/-- The part of `prio_tree_expand` after the loop, which puts `node` on top. -/
def expandLink (node first last : Nat) (heap : Heap) : Heap :=
  let heap := heap.initNode node
  let (heap, last) := if first ≠ 0 then ((heap.setChild false node first).setParent first node, last)
    else (heap, node)
  let heap := if heap.prioTreeNode ≠ 0 then
    (heap.setChild false last heap.prioTreeNode).setParent heap.prioTreeNode last else heap
  { heap with prioTreeNode := node }

/-- `prio_tree_expand(root, node, max_heap_index)`. -/
def prioTreeExpand (rounds : Nat) (node maxHeapIndex : Nat) (heap : Heap) : Option Heap := do
  let heap := if maxHeapIndex > prioTreeMaxindex heap.indexBits then
    { heap with indexBits := heap.indexBits + 1 } else heap
  let (heap, first, last) ← expandLoop index rounds rounds maxHeapIndex 0 0 heap
  some (expandLink node first last heap)

/-- The test of `prio_tree_insert` for a new node that goes above the current one. -/
def goesAbove (new cur : Interval) : Bool :=
  cur.heapIndex < new.heapIndex || (cur.heapIndex = new.heapIndex && cur.radixIndex > new.radixIndex)

/-- The part of a round of `prio_tree_insert` that lets the new node take the place of the current one; the
result has the nodes `cur` and `node` after it. -/
def insertSwap (cur node : Nat) (heap : Heap) : Option (Heap × Nat × Nat) :=
  if goesAbove (index node) (index cur) then do
    let heap ← prioTreeReplace cur node heap
    some (heap, node, cur)
  else some (heap, cur, node)

/-- The loop of `prio_tree_insert`; the result has the pointer that is returned. -/
def insertLoop : (rounds : Nat) → (cur node mask : Nat) → (sizeFlag : Bool) → (res : Nat) → Heap →
    Option (Heap × Nat)
  | 0, _, _, _, _, _, _ => none
  | rounds + 1, cur, node, mask, sizeFlag, res, heap =>
    -- after the loop comes `BUG()`
    if mask = 0 then none
    else if (index cur).radixIndex = (index node).radixIndex ∧
        (index cur).heapIndex = (index node).heapIndex then
      some (heap, cur)
    else do
      let (heap, cur, node) ← insertSwap index cur node heap
      let key :=
        if sizeFlag then (index node).heapIndex - (index node).radixIndex else (index node).radixIndex
      let side : Bool := key &&& mask ≠ 0
      if heap.child side cur = cur then
        some ((((heap.initNode node).setChild side cur node).setParent node cur), res)
      else
        let mask := mask >>> 1
        if mask = 0 then insertLoop rounds (heap.child side cur) node (1 <<< (bitsPerLong - 1)) true res heap
        else insertLoop rounds (heap.child side cur) node mask sizeFlag res heap

/-- `prio_tree_insert(root, node)`. -/
def prioTreeInsert (rounds : Nat) (node : Nat) (heap : Heap) : Option (Heap × Nat) :=
  let heapIndex := (index node).heapIndex
  if heap.prioTreeNode = 0 ∨ heapIndex > prioTreeMaxindex heap.indexBits then do
    let heap ← prioTreeExpand index rounds node heapIndex heap
    some (heap, node)
  else insertLoop index rounds heap.prioTreeNode node (1 <<< (heap.indexBits - 1)) false node heap

/-! ### Iteration -/

/-- `struct prio_tree_iter`. -/
structure Iter where
  cur : Nat
  mask : Nat
  value : Nat
  sizeLevel : Nat
  rIndex : Nat
  hIndex : Nat

/-- The part of `prio_tree_left` and `prio_tree_right` that goes down to a child. -/
def goDown (iter : Iter) (child value : Nat) (heap : Heap) : Option Iter :=
  let iter := { iter with cur := child, mask := iter.mask >>> 1, value }
  if iter.mask ≠ 0 then
    some (if iter.sizeLevel ≠ 0 then { iter with sizeLevel := iter.sizeLevel + 1 } else iter)
  else if iter.sizeLevel ≠ 0 then
    -- the two `BUG_ON`s for a node below the last bit
    if heap.child false iter.cur ≠ iter.cur ∨ heap.child true iter.cur ≠ iter.cur then none
    else some { iter with sizeLevel := iter.sizeLevel + 1, mask := ulongMax }
  else some { iter with sizeLevel := 1, mask := 1 <<< (bitsPerLong - 1) }

/-- `prio_tree_left(iter, ..)`; the inner `none` is `NULL`. -/
def prioTreeLeft (iter : Iter) (heap : Heap) : Option (Option Iter) :=
  if heap.child false iter.cur = iter.cur then some none
  else if iter.rIndex ≤ (index (heap.child false iter.cur)).heapIndex then
    (goDown iter (heap.child false iter.cur) iter.value heap).map some
  else some none

/-- `prio_tree_right(iter, ..)`. -/
def prioTreeRight (iter : Iter) (heap : Heap) : Option (Option Iter) :=
  if heap.child true iter.cur = iter.cur then some none
  else
    let value := if iter.sizeLevel ≠ 0 then iter.value else iter.value ||| iter.mask
    if iter.hIndex < value then some none
    else if iter.rIndex ≤ (index (heap.child true iter.cur)).heapIndex then
      (goDown iter (heap.child true iter.cur) value heap).map some
    else some none

/-- `prio_tree_parent(iter)`. -/
def prioTreeParent (iter : Iter) (heap : Heap) : Iter :=
  let mask := if iter.mask = ulongMax then 1 else if iter.sizeLevel = 1 then 1
    else (iter.mask <<< 1) % 2 ^ bitsPerLong
  let sizeLevel := if iter.sizeLevel ≠ 0 then iter.sizeLevel - 1 else iter.sizeLevel
  let value := if sizeLevel = 0 ∧ iter.value &&& mask ≠ 0 then iter.value ^^^ mask else iter.value
  { iter with cur := heap.parent iter.cur, mask, sizeLevel, value }

/-- `overlap(iter, r_index, h_index)` for the indices of the current node. -/
def overlap (iter : Iter) : Bool :=
  iter.hIndex ≥ (index iter.cur).radixIndex && iter.rIndex ≤ (index iter.cur).heapIndex

/-- The loop of `prio_tree_first`. -/
def firstLoop : (rounds : Nat) → Iter → Heap → Option (Option Iter)
  | 0, _, _ => none
  | rounds + 1, iter, heap =>
    if overlap index iter then some (some iter)
    else do
      match ← prioTreeLeft index iter heap with
      | some iter => firstLoop rounds iter heap
      | none =>
        match ← prioTreeRight index iter heap with
        | some iter => firstLoop rounds iter heap
        | none => some none

/-- `prio_tree_first(iter)`. -/
def prioTreeFirst (rounds : Nat) (iter : Iter) (heap : Heap) : Option (Option Iter) :=
  -- `INIT_PRIO_TREE_ITER(iter)`
  let iter := { iter with cur := 0, mask := 0, value := 0, sizeLevel := 0 }
  if heap.prioTreeNode = 0 then some none
  else if iter.rIndex > (index heap.prioTreeNode).heapIndex then some none
  else firstLoop index rounds { iter with mask := 1 <<< (heap.indexBits - 1), cur := heap.prioTreeNode } heap

/-- The first loop of `prio_tree_next`, which goes to the left; the result says whether it returns. -/
def leftLoop : (rounds : Nat) → Iter → Heap → Option (Iter × Bool)
  | 0, _, _ => none
  | rounds + 1, iter, heap => do
      match ← prioTreeLeft index iter heap with
      | some iter => if overlap index iter then some (iter, true) else leftLoop rounds iter heap
      | none => some (iter, false)

/-- The inner loop of `prio_tree_next`, which leaves right children. -/
def upLoop : (rounds : Nat) → Iter → Heap → Option Iter
  | 0, _, _ => none
  | rounds + 1, iter, heap =>
    if heap.parent iter.cur ≠ iter.cur ∧ heap.child true (heap.parent iter.cur) = iter.cur then
      upLoop rounds (prioTreeParent iter heap) heap
    else some iter

/-- The second loop of `prio_tree_next`, which looks for a way to the right; the inner `none` is `NULL`. -/
def rightLoop (rounds : Nat) : (steps : Nat) → Iter → Heap → Option (Option Iter)
  | 0, _, _ => none
  | steps + 1, iter, heap => do
      match ← prioTreeRight index iter heap with
      | some iter => some (some iter)
      | none =>
        let iter ← upLoop rounds iter heap
        if heap.parent iter.cur = iter.cur then some none
        else rightLoop rounds steps (prioTreeParent iter heap) heap

/-- The part of `prio_tree_next` that is repeated. -/
def nextLoop (rounds : Nat) : (steps : Nat) → Iter → Heap → Option (Option Iter)
  | 0, _, _ => none
  | steps + 1, iter, heap => do
      let (iter, found) ← leftLoop index rounds iter heap
      if found then some (some iter)
      else
        match ← rightLoop index rounds rounds iter heap with
        | none => some none
        | some iter => if overlap index iter then some (some iter) else nextLoop rounds steps iter heap

/-- `prio_tree_next(iter)`. -/
def prioTreeNext (rounds : Nat) (iter : Iter) (heap : Heap) : Option (Option Iter) :=
  if iter.cur = 0 then prioTreeFirst index rounds iter heap
  else nextLoop index rounds rounds iter heap

/-- The nodes that `prio_tree_next` returns until it returns `NULL`. -/
def foreachLoop (rounds : Nat) : (steps : Nat) → Iter → Heap → Option (List Nat)
  | 0, _, _ => none
  | steps + 1, iter, heap => do
      match ← prioTreeNext index rounds iter heap with
      | none => some []
      | some iter =>
        let rest ← foreachLoop rounds steps iter heap
        some (iter.cur :: rest)

/-- `prio_tree_iter_init`, and `prio_tree_next` until it returns `NULL`. -/
def prioTreeForeach (rounds : Nat) (rIndex hIndex : Nat) (heap : Heap) : Option (List Nat) :=
  foreachLoop index rounds rounds ⟨0, 0, 0, 0, rIndex, hIndex⟩ heap

end Operations

open Library Function List

/-- The heap holds the tree below the node `above`, or as a whole tree. -/
structure Holds (heap : Heap) (above : Option Nat) (place : PathTree Nat) : Prop where
  nonzero : ∀ {path node}, place path = some node → node ≠ 0
  apart : Apart place
  child : ∀ {path node} (side : Bool), place path = some node →
    heap.child side node = (place (side :: path)).getD node
  top : ∀ {node}, place [] = some node → heap.parent node = above.getD node
  parent : ∀ {side path node}, place (side :: path) = some node → place path = some (heap.parent node)

/-- The two heaps have the same links of the node. -/
structure SameLinks (heap heap' : Heap) (node : Nat) : Prop where
  child : ∀ side, heap'.child side node = heap.child side node
  parent : heap'.parent node = heap.parent node

/-- An operation leaves this tree in the heap and does not touch the nodes outside of it. -/
structure Became (heap heap' : Heap) (place : PathTree Nat) : Prop where
  held : Holds heap' none place
  root : heap'.prioTreeNode = (place []).getD 0
  bits : heap'.indexBits = heap.indexBits
  frame : ∀ node, ¬ Placed place node → SameLinks heap heap' node

variable {heap heap' : Heap} {place : PathTree Nat} {path rest : List Bool} {above : Option Nat}
  {node old other : Nat} {side : Bool}

/-! ### Reading links -/

theorem Holds.child_eq_iff (held : Holds heap above place) (placed : place path = some node) :
    heap.child side node = node ↔ place (side :: path) = none := by
  rw [held.child side placed]
  cases below : place (side :: path) with
  | none => simp
  | some child =>
    rw [Option.getD_some]
    refine ⟨fun same => ?_, fun empty => by cases empty⟩
    rw [same] at below
    exact absurd (held.apart _ _ _ below placed) (cons_ne_self _ _)

theorem Holds.child_eq (held : Holds heap above place) (below : place (side :: path) = some other)
    (placed : place path = some node) : heap.child side node = other := by
  rw [held.child side placed, below, Option.getD_some]

theorem Holds.parent_eq (held : Holds heap above place) (below : place (side :: path) = some other)
    (placed : place path = some node) : heap.parent other = node :=
  Option.some_inj.mp ((held.parent below).symm.trans placed)

theorem Holds.parent_eq_self_iff (held : Holds heap none place) (placed : place path = some node) :
    heap.parent node = node ↔ path = [] := by
  cases path with
  | nil => simpa using held.top placed
  | cons side path =>
    refine ⟨fun same => ?_, fun empty => by cases empty⟩
    have up := held.parent placed
    rw [same] at up
    exact absurd (held.apart _ _ _ up placed).symm (cons_ne_self _ _)

theorem Holds.ne (held : Holds heap above place) {path' : List Bool} (placed : place path = some node)
    (placed' : place path' = some other) (ne : path ≠ path') : node ≠ other := by
  rintro rfl
  exact ne (held.apart _ _ _ placed placed')

/-- The link of a parent to a node is on the side that the node stands on. -/
theorem Holds.child_parent_iff (held : Holds heap above place) {step : Bool}
    (placed : place (step :: path) = some node) :
      heap.child side (heap.parent node) = node ↔ side = step := by
  have up := held.parent placed
  constructor
  · intro same
    rw [held.child side up] at same
    cases beside : place (side :: path) with
    | none =>
      rw [beside] at same
      exact absurd same (held.ne up placed (cons_ne_self _ _).symm)
    | some sibling =>
      rw [beside] at same
      exact (cons.inj (held.apart _ _ _ beside (placed.trans (congrArg some same.symm)))).1
  · rintro rfl
    exact held.child_eq placed up

theorem Holds.congr (held : Holds heap above place)
    (same : ∀ node, Placed place node → SameLinks heap heap' node) : Holds heap' above place := by
  refine ⟨held.nonzero, held.apart, fun side placed => ?_, fun placed => ?_, fun placed => ?_⟩
  · rw [(same _ ⟨_, placed⟩).child, held.child side placed]
  · rw [(same _ ⟨_, placed⟩).parent, held.top placed]
  · rw [(same _ ⟨_, placed⟩).parent]
    exact held.parent placed

theorem Holds.of_empty (empty : ∀ node, ¬ Placed place node) : Holds heap above place := by
  have no {path : List Bool} {node : Nat} (placed : place path = some node) :
    False := empty node ⟨path, placed⟩
  exact ⟨fun placed => (no placed).elim, fun _ _ _ placed => (no placed).elim, fun _ placed =>
    (no placed).elim,
    fun placed => (no placed).elim, fun placed => (no placed).elim⟩

theorem SameLinks.trans {heap'' : Heap} (same : SameLinks heap heap' node)
    (same' : SameLinks heap' heap'' node) :
    SameLinks heap heap'' node :=
  ⟨fun side => (same'.child side).trans (same.child side), same'.parent.trans same.parent⟩

@[simp] theorem setChild_child (heap : Heap) (side side' : Bool) (node value other : Nat) :
    (heap.setChild side node value).child side' other =
      if side' = side ∧ other = node then value else heap.child side' other := by
  by_cases same : side' = side
  · subst same
    simp [Heap.setChild, update_apply]
  · simp [Heap.setChild, same]

@[simp] theorem setParent_parent (heap : Heap) (node value other : Nat) :
    (heap.setParent node value).parent other = if other = node then value else heap.parent other := by
  simp only [Heap.setParent, update_apply]

@[simp] theorem initNode_child (heap : Heap) (ptr : Nat) (side : Bool) (other : Nat) :
    (heap.initNode ptr).child side other = if other = ptr then ptr else heap.child side other := by
  cases side <;> simp [Heap.initNode]

@[simp] theorem initNode_parent (heap : Heap) (ptr other : Nat) :
    (heap.initNode ptr).parent other = if other = ptr then ptr else heap.parent other := by
  simp [Heap.initNode]

theorem sameLinks_initNode (ne : other ≠ node) : SameLinks heap (heap.initNode node) other :=
  ⟨fun side => by simp [ne], by simp [ne]⟩

/-! ### A node put at a path -/

/-- The links are those of the tree with the node at the path. -/
structure PutAt (heap heap' : Heap) (place : PathTree Nat) (path : List Bool) (node : Nat) : Prop where
  childNew : ∀ side, heap'.child side node = (place (side :: path)).getD node
  childUp : ∀ {side rest up}, side :: rest = path → place rest = some up → heap'.child side up = node
  childOther : ∀ {side other}, other ≠ node → (∀ rest, side :: rest = path → place rest ≠ some other) →
    heap'.child side other = heap.child side other
  parentTop : path = [] → heap'.parent node = node
  parentNew : ∀ {side rest}, side :: rest = path → place rest = some (heap'.parent node)
  parentChild : ∀ {side child}, place (side :: path) = some child → heap'.parent child = node
  parentOther : ∀ {other}, other ≠ node → (∀ side, place (side :: path) ≠ some other) →
    heap'.parent other = heap.parent other
  root : heap'.prioTreeNode = (update place path (some node) []).getD 0
  bits : heap'.indexBits = heap.indexBits

theorem update_below (place : PathTree Nat) (path : List Bool) (side : Bool) (entry : Option Nat) :
    update place path entry (side :: path) = place (side :: path) :=
  update_of_ne (cons_ne_self _ _) _ _

theorem update_above (place : PathTree Nat) (path : List Bool) (side : Bool) (entry : Option Nat) :
    update place (side :: path) entry path = place path :=
  update_of_ne (cons_ne_self _ _).symm _ _

theorem PutAt.became (put : PutAt heap heap' place path node) (held : Holds heap none place)
    (nonzero : node ≠ 0)
    (fresh : ¬ Placed place node) : Became heap heap' (update place path (some node)) := by
  -- a node of the new tree is the new one at its path, or stood there before
  have cases {q : List Bool} {n : Nat} (placed : update place path (some node) q = some n) :
      (q = path ∧ n = node) ∨ (q ≠ path ∧ n ≠ node ∧ place q = some n) := by
    by_cases here : q = path
    · rw [here, update_self, Option.some_inj] at placed
      exact .inl ⟨here, placed.symm⟩
    · rw [update_of_ne here] at placed
      exact .inr ⟨here, Placed.ne ⟨q, placed⟩ fresh, placed⟩
  refine ⟨⟨fun placed => ?_, fun q q' n placed placed' => ?_, fun {q n} side placed => ?_, fun placed => ?_,
    fun {side q n} placed => ?_⟩, put.root, put.bits, fun n outside => ?_⟩
  · rcases cases placed with ⟨_, rfl⟩ | ⟨_, _, was⟩
    · exact nonzero
    · exact held.nonzero was
  · rcases cases placed with ⟨rfl, rfl⟩ | ⟨_, old, was⟩ <;>
      rcases cases placed' with ⟨rfl, new⟩ | ⟨_, old', was'⟩
    · rfl
    · exact absurd rfl old'
    · exact absurd new old
    · exact held.apart _ _ _ was was'
  · rcases cases placed with ⟨rfl, rfl⟩ | ⟨elsewhere, different, was⟩
    · rw [update_below, put.childNew]
    · by_cases parent : side :: q = path
      · rw [parent, update_self, Option.getD_some, put.childUp parent was]
      · rw [update_of_ne parent, put.childOther different, held.child side was]
        rintro rest same placedRest
        obtain rfl := held.apart _ _ _ placedRest was
        exact parent same
  · rcases cases placed with ⟨empty, rfl⟩ | ⟨elsewhere, different, was⟩
    · rw [put.parentTop empty.symm, Option.getD_none]
    · rw [put.parentOther different, held.top was]
      exact fun side below => cons_ne_nil _ _ (held.apart _ _ _ below was)
  · rcases cases placed with ⟨here, rfl⟩ | ⟨elsewhere, different, was⟩
    · rw [← here, update_above]
      exact put.parentNew here
    · by_cases child : q = path
      · subst child
        rw [update_self, put.parentChild was]
      · rw [update_of_ne child, put.parentOther different, held.parent was]
        intro step below
        have same := held.apart _ _ _ below was
        rw [cons.injEq] at same
        exact child same.2.symm
  · have different := (Placed.ne ⟨path, update_self _ _ _⟩ outside).symm
    constructor
    · refine fun side => put.childOther different fun rest same placed => outside ⟨rest, ?_⟩
      rw [← same, update_above, placed]
    · refine put.parentOther different fun side placed => outside ⟨side :: path, ?_⟩
      rw [update_below, placed]

/-! ### `prio_tree_replace` -/

theorem adopt_child (entry : heap.child side old = (place (side :: path)).getD old)
    (ne : place (side :: path) ≠ some old) (side' : Bool) (other : Nat) :
    (adopt side old node heap).child side' other =
      if side' = side ∧ other = node then (place (side :: path)).getD (heap.child side node)
      else heap.child side' other := by
  rw [adopt, entry]
  cases below : place (side :: path) with
  | none =>
    rw [Option.getD_none, if_pos rfl, Option.getD_none]
    split_ifs with same
    · rw [same.1, same.2]
    · rfl
  | some child =>
    rw [below, ne_eq, Option.some_inj] at ne
    rw [Option.getD_some, if_neg ne, Heap.setParent_child, setChild_child, Option.getD_some]

theorem adopt_parent (entry : heap.child side old = (place (side :: path)).getD old)
    (ne : place (side :: path) ≠ some old) (other : Nat) :
    (adopt side old node heap).parent other =
      if place (side :: path) = some other then node else heap.parent other := by
  rw [adopt, entry]
  cases below : place (side :: path) with
  | none => simp
  | some child =>
    rw [below, ne_eq, Option.some_inj] at ne
    rw [Option.getD_some, if_neg ne, setParent_parent, Heap.setChild_parent]
    by_cases same : other = child
    · rw [if_pos same, if_pos (congrArg some same.symm)]
    · rw [if_neg same, if_neg (fun equal => same (Option.some_inj.mp equal).symm)]

@[simp] theorem adopt_prioTreeNode : (adopt side old node heap).prioTreeNode = heap.prioTreeNode := by
  rw [adopt]
  split <;> rfl

@[simp] theorem adopt_indexBits : (adopt side old node heap).indexBits = heap.indexBits := by
  rw [adopt]
  split <;> rfl

/-- The heap in which the link that led to the old node, at this path, leads to the new one. -/
def relinked (heap : Heap) (old node : Nat) : List Bool → Heap
  | [] => { (heap.initNode node).setParent node node with prioTreeNode := node }
  | side :: _ => ((heap.initNode node).setParent node (heap.parent old)).setChild side (heap.parent old) node

section

variable (held : Holds heap none place)

include held

section

variable (root : heap.prioTreeNode = (place []).getD 0)

include root

theorem takeLink_eq (placed : place path = some old) (fresh : ¬ Placed place node) :
    takeLink old node (heap.initNode node) = some (relinked heap old node path) := by
  have oldNode := Placed.ne ⟨path, placed⟩ fresh
  have oldParent : (heap.initNode node).parent old = heap.parent old := by
    rw [initNode_parent, if_neg oldNode]
  cases path with
  | nil =>
    rw [placed, Option.getD_some] at root
    have top : heap.parent old = old := held.top placed
    rw [takeLink, oldParent, if_pos top, Heap.initNode_prioTreeNode, if_neg (not_not.mpr root), relinked]
  | cons side rest =>
    have up := held.parent placed
    have upNode := Placed.ne ⟨rest, up⟩ fresh
    have upOld : heap.parent old ≠ old := held.ne up placed (cons_ne_self _ _).symm
    have keptParent : ((heap.initNode node).setParent node (heap.parent old)).parent old =
        heap.parent old := by
      rw [setParent_parent, if_neg oldNode, oldParent]
    rw [takeLink, oldParent, if_neg upOld]
    dsimp only
    rw [keptParent, Heap.setParent_child, initNode_child, if_neg upNode]
    simp only [held.child_parent_iff placed]
    cases side <;> rfl

theorem prioTreeReplace_became
    (placed : place path = some old) (nonzero : node ≠ 0) (fresh : ¬ Placed place node) :
    ∃ heap', prioTreeReplace old node heap = some heap' ∧
      Became heap heap' (update place path (some node)) := by
  have other {q : List Bool} {n : Nat} (placed : place q = some n) : n ≠ node := Placed.ne ⟨q, placed⟩ fresh
  have below (side : Bool) : place (side :: path) ≠ some old := fun same =>
    cons_ne_self _ _ (held.apart _ _ _ same placed)
  obtain ⟨heap₁, shape⟩ : ∃ heap₁, heap₁ = relinked heap old node path := ⟨_, rfl⟩
  have new₁ (side : Bool) : heap₁.child side node = node := by
    rw [shape]
    cases path with
    | nil => simp [relinked]
    | cons step rest => simp [relinked]
  have child₁ {side : Bool} {n : Nat} (ne : n ≠ node)
      (outside : ∀ rest, side :: rest = path → place rest ≠ some n) :
      heap₁.child side n = heap.child side n := by
    rw [shape]
    cases path with
    | nil => simp [relinked, ne]
    | cons step rest =>
      have notUp : ¬ (side = step ∧ n = heap.parent old) := by
        rintro ⟨rfl, rfl⟩
        exact outside rest rfl (held.parent placed)
      simp [relinked, notUp, ne]
  have parent₁ {n : Nat} (ne : n ≠ node) : heap₁.parent n = heap.parent n := by
    rw [shape]
    cases path <;> simp [relinked, ne]
  have entry₁ (side : Bool) : heap₁.child side old = (place (side :: path)).getD old := by
    rw [child₁ (other placed), held.child side placed]
    intro rest same up
    subst same
    exact cons_ne_self _ _ (held.apart _ _ _ up placed).symm
  have entry₂ : (adopt false old node heap₁).child true old = (place (true :: path)).getD old := by
    rw [adopt_child (entry₁ false) (below false), if_neg (by simp), entry₁]
  have child₂ (side : Bool) (n : Nat) : (adopt true old node (adopt false old node heap₁)).child side n =
      if n = node then (place (side :: path)).getD node else heap₁.child side n := by
    rw [adopt_child entry₂ (below true), adopt_child (entry₁ false) (below false),
      adopt_child (entry₁ false) (below false)]
    by_cases same : n = node
    · cases side <;> simp [new₁]
    · simp [same]
  have parent₂ (n : Nat) : (adopt true old node (adopt false old node heap₁)).parent n =
      if place (true :: path) = some n then node
      else if place (false :: path) = some n then node else heap₁.parent n := by
    rw [adopt_parent entry₂ (below true), adopt_parent (entry₁ false) (below false)]
  have newParent : (adopt true old node (adopt false old node heap₁)).parent node = heap₁.parent node := by
    rw [parent₂, if_neg fun same => other same rfl, if_neg fun same => other same rfl]
  refine ⟨adopt true old node (adopt false old node heap₁),
    by rw [prioTreeReplace, takeLink_eq held root placed fresh, shape]; rfl, ?_⟩
  refine PutAt.became ⟨fun side => ?_, fun same up => ?_, fun ne outside => ?_, fun empty => ?_,
    fun same => ?_, fun {side n} child => ?_, fun ne outside => ?_, ?_, ?_⟩ held nonzero fresh
  · rw [child₂, if_pos rfl]
  · rw [child₂, if_neg (other up), shape]
    subst same
    simp [relinked, held.parent_eq placed up]
  · rw [child₂, if_neg ne, child₁ ne outside]
  · rw [newParent, shape, empty]
    simp [relinked]
  · rw [newParent, shape]
    subst same
    simpa [relinked] using held.parent placed
  · rw [parent₂]
    cases side with
    | false => rw [if_pos child, ite_self]
    | true => rw [if_pos child]
  · rw [parent₂, if_neg (outside true), if_neg (outside false), parent₁ ne]
  · rw [shape]
    cases path with
    | nil => simp [relinked]
    | cons side rest => simpa [relinked] using root
  · rw [adopt_indexBits, adopt_indexBits, shape]
    cases path <;> rfl

/-! ### Leaves -/

/-- A new leaf below a node. -/
theorem attach_became {cur : Nat}
    (placed : place path = some cur) (empty : ∀ step, place (step :: side :: path) = none)
    (nonzero : node ≠ 0)
    (fresh : ¬ Placed place node) :
    Became heap (((heap.initNode node).setChild side cur node).setParent node cur)
      (update place (side :: path) (some node)) := by
  have different := Placed.ne ⟨path, placed⟩ fresh
  refine PutAt.became ⟨fun step => ?_, fun {step rest up} same placedUp => ?_, fun {step n} new outside => ?_,
    fun same => ?_, fun same => ?_, fun child => ?_, fun new outside => ?_, ?_, ?_⟩ held nonzero fresh
  · rw [empty]
    simp
  · obtain ⟨rfl, rfl⟩ := same
    rw [placed, Option.some_inj] at placedUp
    simp [placedUp]
  · have notCur : ¬ (step = side ∧ n = cur) := by
      rintro ⟨rfl, rfl⟩
      exact outside path rfl placed
    simp [notCur, new]
  · cases same
  · obtain ⟨rfl, rfl⟩ := same
    simpa using placed
  · rw [empty] at child
    cases child
  · simp [new]
  · simpa using root
  · rfl

/-- A leaf is cut off. -/
theorem unlink_became {leaf up : Nat}
    (placed : place (side :: path) = some leaf) (placedUp : place path = some up)
    (empty : ∀ step, place (step :: side :: path) = none) :
    Became heap (heap.setChild side up up) (update place (side :: path) none) := by
  have cases {q : List Bool} {n : Nat} (placed : update place (side :: path) none q = some n) :
      q ≠ side :: path ∧ place q = some n := by
    by_cases here : q = side :: path
    · rw [here, update_self] at placed
      cases placed
    · exact ⟨here, by rwa [update_of_ne here] at placed⟩
  refine ⟨⟨fun placed => held.nonzero (cases placed).2,
    fun q q' n placed placed' => held.apart _ _ _ (cases placed).2 (cases placed').2,
      fun {q n} step here => ?_,
    fun placed => held.top (cases placed).2, fun {step q n} here => ?_⟩, ?_, rfl, fun n outside =>
      ⟨fun step => ?_, rfl⟩⟩
  · obtain ⟨_, was⟩ := cases here
    by_cases parent : step :: q = side :: path
    · obtain ⟨rfl, rfl⟩ := parent
      rw [placedUp, Option.some_inj] at was
      simp [was]
    · rw [update_of_ne parent, setChild_child, if_neg, held.child step was]
      rintro ⟨rfl, rfl⟩
      exact parent (congrArg _ (held.apart _ _ _ was placedUp))
  · obtain ⟨_, was⟩ := cases here
    rw [update_of_ne, held.parent was, Heap.setChild_parent]
    rintro rfl
    rw [empty] at was
    cases was
  · simpa using root
  · rw [setChild_child, if_neg]
    rintro ⟨rfl, rfl⟩
    exact outside ⟨path, by rw [update_above, placedUp]⟩

end

end

/-! ### Chains of left children -/

theorem holds_pushTop : Holds heap above (pushTop node place) ↔
    node ≠ 0 ∧ ¬ Placed place node ∧ heap.parent node = above.getD node ∧ heap.child true node = node ∧
      heap.child false node = (place []).getD node ∧ Holds heap (some node) place := by
  have under (q : List Bool) : pushTop node place (q ++ [false]) = place q := pushTop_concat _ _ _ _
  constructor
  · intro held
    refine ⟨held.nonzero (pushTop_nil node place), ?_, held.top (pushTop_nil node place), ?_, ?_, ?_⟩
    · rintro ⟨q, placed⟩
      rw [← under] at placed
      exact append_ne_nil_of_right_ne_nil _ (cons_ne_nil _ _)
        (held.apart _ _ _ placed (pushTop_nil node place))
    · exact (held.child_eq_iff (pushTop_nil node place)).mpr (pushTop_concat node place [] true)
    · rw [held.child false (pushTop_nil node place)]
      rfl
    · refine ⟨fun placed => held.nonzero ((under _).trans placed), fun q q' n placed placed' => ?_,
        fun side placed => ?_, fun placed => ?_, fun placed => ?_⟩
      · exact append_cancel_right (held.apart _ _ _ ((under q).trans placed) ((under q').trans placed'))
      · rw [held.child side ((under _).trans placed), ← under]
        rfl
      · exact held.parent_eq ((under []).trans placed) (pushTop_nil node place)
      · rw [← under]
        exact held.parent ((under _).trans placed)
  · rintro ⟨nonzero, fresh, top, right, left, held⟩
    have cases {q : List Bool} {n : Nat} (placed : pushTop node place q = some n) :
        (q = [] ∧ n = node) ∨ ∃ rest, q = rest ++ [false] ∧ n ≠ node ∧ place rest = some n := by
      rcases eq_nil_or_concat' q with rfl | ⟨rest, side, rfl⟩
      · exact .inl ⟨rfl, (Option.some_inj.mp placed).symm⟩
      · rw [pushTop_concat] at placed
        cases side with
        | true => cases placed
        | false => exact .inr ⟨rest, rfl, Placed.ne ⟨rest, placed⟩ fresh, placed⟩
    refine ⟨fun placed => ?_, fun q q' n placed placed' => ?_, fun side placed => ?_, fun placed => ?_,
      fun {side q n} placed => ?_⟩
    · rcases cases placed with ⟨_, rfl⟩ | ⟨rest, _, _, was⟩
      · exact nonzero
      · exact held.nonzero was
    · rcases cases placed with ⟨rfl, rfl⟩ | ⟨rest, rfl, old, was⟩ <;>
        rcases cases placed' with ⟨rfl, new⟩ | ⟨rest', rfl, old', was'⟩
      · rfl
      · exact absurd rfl old'
      · exact absurd new old
      · rw [held.apart _ _ _ was was']
    · rcases cases placed with ⟨rfl, rfl⟩ | ⟨rest, rfl, _, was⟩
      · cases side with
        | false =>
          rw [left]
          rfl
        | true =>
          rw [right]
          rfl
      · rw [held.child side was, ← under]
        rfl
    · rcases cases placed with ⟨_, rfl⟩ | ⟨rest, empty, _⟩
      · exact top
      · exact absurd empty.symm (append_ne_nil_of_right_ne_nil _ (cons_ne_nil _ _))
    · rcases cases placed with ⟨empty, _⟩ | ⟨rest, same, _, was⟩
      · cases empty
      · cases rest with
        | nil =>
          rw [nil_append, cons.injEq] at same
          rw [same.2, pushTop_nil, held.top was, Option.getD_some]
        | cons step rest =>
          rw [cons_append, cons.injEq] at same
          rw [same.2, under]
          exact held.parent was

theorem holds_initNode (nonzero : node ≠ 0) : Holds (heap.initNode node) none (pushTop node fun _ => none) :=
  holds_pushTop.mpr ⟨nonzero,
    not_placed_empty, by simp, by simp, by simp, .of_empty fun _ => not_placed_empty⟩

theorem placed_chain {chain : List Nat} :
    Placed (chain.foldr pushTop place) node ↔ node ∈ chain ∨ Placed place node := by
  induction chain with
  | nil => simp
  | cons top chain ih =>
    rw [foldr_cons, placed_pushTop, ih, mem_cons, or_assoc]

theorem placed_chain_empty {chain : List Nat} :
    Placed (chain.foldr pushTop fun _ => none) node ↔ node ∈ chain :=
  placed_chain.trans (or_iff_left not_placed_empty)

/-- The last node of a chain gets a tree as its left subtree. -/
theorem Holds.chain_link {init : List Nat} {last root : Nat}
    (held : Holds heap above ((init ++ [last]).foldr pushTop fun _ => none)) (low : Holds heap none place)
    (placed : place [] = some root) (disjoint : ∀ node ∈ init ++ [last], ¬ Placed place node) :
    Holds ((heap.setChild false last root).setParent root last) above
      ((init ++ [last]).foldr pushTop place) := by
  have lastFresh := disjoint last (by simp)
  have rootLast := Placed.ne ⟨[], placed⟩ lastFresh
  induction init generalizing above with
  | nil =>
    obtain ⟨nonzero, _, top, right, _, _⟩ := holds_pushTop.mp held
    rw [nil_append, foldr_cons, foldr_nil, holds_pushTop]
    refine ⟨nonzero, lastFresh, by simpa [rootLast.symm] using top, by simpa using right,
      by simp [placed], low.nonzero, low.apart, fun {q n} side here => ?_, fun here => ?_,
      fun {side q n} here => ?_⟩
    · have different := Placed.ne ⟨q, here⟩ lastFresh
      rw [Heap.setParent_child, setChild_child, if_neg (fun same => different same.2), low.child side here]
    · rw [placed, Option.some_inj] at here
      simp [here]
    · rw [setParent_parent, if_neg (low.ne here placed (cons_ne_nil _ _))]
      exact low.parent here
  | cons top init ih =>
    obtain ⟨nonzero, fresh, parent, right, left, rest⟩ := holds_pushTop.mp held
    have topFresh := disjoint top (by simp)
    have memberFresh : top ∉ init ++ [last] := mt placed_chain_empty.mpr fresh
    refine holds_pushTop.mpr ⟨nonzero,
      ?_, by simpa [(Placed.ne ⟨[], placed⟩ topFresh).symm] using parent, by simpa using right, ?_,
      ih rest fun node member => disjoint node (mem_cons_of_mem _ member)⟩
    · rw [placed_chain]
      exact not_or.mpr ⟨memberFresh, topFresh⟩
    · rw [Heap.setParent_child, setChild_child, if_neg (fun same => memberFresh (by simp [same.2])), left]
      cases init <;> rfl

end LinuxKernel.Lib.PrioTree
