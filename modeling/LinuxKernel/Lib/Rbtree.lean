/-
Module: LinuxKernel.Lib.Rbtree
Purpose: `lib/rbtree.c` on a heap of nodes with parent links; when such a heap holds a tree, seen whole or
  as a subtree in its context, and what the writes do to that tree. `rb_insert_color` moves a red subtree
  that stands where a black one should up two nodes at a time, `__rb_erase_color` a subtree with one black
  node too few.
Trusted boundary: human-reviewed spec
Main exports: rbInsertColor, rbErase, rbReplaceNode, Rooted, Focus, rbInsertColor_spec, rbEraseColor_spec
-/
import LinuxKernel.Library.RedBlackTree

namespace LinuxKernel.Lib.Rbtree

open Library (Color Side)

/-- The fields of all `struct rb_node`s, by address, and `root->rb_node`. Address 0 is `NULL`. The parent
and the colour are two parts of one word, `rb_parent_color`. -/
structure Heap where
  parent : Nat → Nat
  color : Nat → Color
  child : Side → Nat → Nat
  root : Nat

/-- An access to the node at `pointer`, which must not be `NULL`. -/
def deref (pointer : Nat) : Option Unit := if pointer = 0 then none else some ()

namespace Heap

/-- `rb_set_parent(rb, p)`. -/
@[simps color child root]
def setParent (heap : Heap) (rb p : Nat) : Heap :=
  { heap with parent := Function.update heap.parent rb p }

/-- `rb_set_color(rb, color)`, `rb_set_red(rb)` and `rb_set_black(rb)`. -/
@[simps parent child root]
def setColor (heap : Heap) (rb : Nat) (color : Color) : Heap :=
  { heap with color := Function.update heap.color rb color }

/-- `rb->rb_left = value` or `rb->rb_right = value`. -/
@[simps parent color root]
def setChild (heap : Heap) (rb : Nat) (side : Side) (value : Nat) : Heap :=
  { heap with
    child := Function.update heap.child side (Function.update (heap.child side) rb value) }

/-- Let the node `parent` above `node`, or the root pointer if there is none, point to `new` instead. The
source first tests the child of `parent` on the side `first`. -/
def changeChild (heap : Heap) (first : Side) (node new parent : Nat) : Heap :=
  if parent ≠ 0 then
    if heap.child first parent = node then heap.setChild parent first new
    else heap.setChild parent first.other new
  else { heap with root := new }

end Heap

/-- `__rb_rotate_left(node, root)` for the left side and `__rb_rotate_right(node, root)` for the right
one: the child on the other side takes the place of `node`, which goes down to the given side. -/
def rbRotate (side : Side) (node : Nat) (heap : Heap) : Option Heap := do
  deref node
  let up := heap.child side.other node
  let parent := heap.parent node
  deref up
  let inner := heap.child side up
  let heap := heap.setChild node side.other inner
  let heap := if inner ≠ 0 then heap.setParent inner node else heap
  let heap := heap.setChild up side node
  let heap := heap.setParent up parent
  let heap := heap.changeChild side node up parent
  some (heap.setParent node up)

/-- `__rb_rotate_left(node, root)`. -/
def rbRotateLeft (node : Nat) (heap : Heap) : Option Heap := rbRotate .left node heap

/-- `__rb_rotate_right(node, root)`. -/
def rbRotateRight (node : Nat) (heap : Heap) : Option Heap := rbRotate .right node heap

/-! ### Insertion -/

/-- The pointer `rb_link` that a new node is stored to. -/
inductive Link where
  | root
  | child (parent : Nat) (side : Side)
deriving DecidableEq, Repr

/-- `rb_link_node(node, parent, rb_link)`. -/
def rbLinkNode (node : Nat) (link : Link) (heap : Heap) : Heap :=
  let leaf := ((heap.setColor node .red).setChild node .left 0).setChild node .right 0
  match link with
  | .root => { leaf.setParent node 0 with root := node }
  | .child parent side => (leaf.setParent node parent).setChild parent side node

/-- The part of a round of `rb_insert_color` for an uncle that is not red. `side` is the side of `gparent`
that `parent` is on; the result has the node that the loop goes on with. -/
def insertRotate (side : Side) (node parent gparent : Nat) (heap : Heap) : Option (Heap × Nat) :=
  if heap.child side.other parent = node then do
    let heap ← rbRotate side parent heap
    -- `node` and `parent` change their roles
    let heap := (heap.setColor node .black).setColor gparent .red
    let heap ← rbRotate side.other gparent heap
    some (heap, parent)
  else do
    let heap := (heap.setColor parent .black).setColor gparent .red
    let heap ← rbRotate side.other gparent heap
    some (heap, node)

/-- `rb_insert_color(node, root)`; `none` is an access through `NULL`, or a loop that is not done within
`rounds`. -/
def rbInsertColor : (rounds : Nat) → (node : Nat) → Heap → Option Heap
  | 0, _, _ => none
  | rounds + 1, node, heap => do
      deref node
      let parent := heap.parent node
      if parent ≠ 0 ∧ heap.color parent = .red then do
        let gparent := heap.parent parent
        deref gparent
        let side := if parent = heap.child .left gparent then Side.left else Side.right
        let uncle := heap.child side.other gparent
        if uncle ≠ 0 ∧ heap.color uncle = .red then
          rbInsertColor rounds gparent
            (((heap.setColor uncle .black).setColor parent .black).setColor gparent .red)
        else do
          let (heap, node) ← insertRotate side node parent gparent heap
          rbInsertColor rounds node heap
      else do
        deref heap.root
        some (heap.setColor heap.root .black)

/-! ### Removal -/

/-- `!rb || rb_is_black(rb)`. -/
def isBlack (heap : Heap) (rb : Nat) : Bool := rb = 0 || heap.color rb = .black

/-- The part of a round of `__rb_erase_color` for a red sibling `other`; the result has the sibling
after it. -/
def redSibling (side : Side) (parent other : Nat) (heap : Heap) : Option (Heap × Nat) := do
  deref other
  if heap.color other = .red then do
    let heap ← rbRotate side parent ((heap.setColor other .black).setColor parent .red)
    some (heap, heap.child side.other parent)
  else some (heap, other)

/-- The part of a round of `__rb_erase_color` for a sibling whose far child is black and whose near child
is red; the result has the sibling after it. -/
def blackFarChild (side : Side) (parent other : Nat) (heap : Heap) : Option (Heap × Nat) :=
  if isBlack heap (heap.child side.other other) then do
    let near := heap.child side other
    deref near
    let heap ← rbRotate side.other other ((heap.setColor near .black).setColor other .red)
    some (heap, heap.child side.other parent)
  else some (heap, other)

/-- The end of `__rb_erase_color`. -/
def eraseFinish (node : Nat) (heap : Heap) : Heap :=
  if node ≠ 0 then heap.setColor node .black else heap

/-- The part of a round of `__rb_erase_color` for a sibling whose far child is red, after which the loop
is left. -/
def eraseLast (side : Side) (parent other : Nat) (heap : Heap) : Option Heap := do
  deref other
  let heap := heap.setColor other (heap.color parent)
  let heap := heap.setColor parent .black
  let far := heap.child side.other other
  deref far
  let heap ← rbRotate side parent (heap.setColor far .black)
  some (eraseFinish heap.root heap)

/-- The part of a round of `__rb_erase_color` once the sibling `other` is black; `again` is the rest of
the loop. -/
def eraseBlackSibling (again : (node parent : Nat) → Heap → Option Heap) (side : Side)
    (parent other : Nat) (heap : Heap) : Option Heap := do
  deref other
  if isBlack heap (heap.child .left other) ∧ isBlack heap (heap.child .right other) then
    let heap := heap.setColor other .red
    again parent (heap.parent parent) heap
  else do
    let (heap, other) ← blackFarChild side parent other heap
    eraseLast side parent other heap

/-- `__rb_erase_color(node, parent, root)`. -/
def rbEraseColor : (rounds : Nat) → (node parent : Nat) → Heap → Option Heap
  | 0, _, _, _ => none
  | rounds + 1, node, parent, heap =>
    if isBlack heap node ∧ node ≠ heap.root then do
      deref parent
      let side := if heap.child .left parent = node then Side.left else Side.right
      let (heap, other) ← redSibling side parent (heap.child side.other parent) heap
      eraseBlackSibling (rbEraseColor rounds) side parent other heap
    else some (eraseFinish node heap)

/-- The loop of `rb_erase` that looks for the leftmost node below `node`. -/
def leftmost : (rounds : Nat) → (node : Nat) → Heap → Option Nat
  | 0, _, _ => none
  | rounds + 1, node, heap => do
      deref node
      if heap.child .left node ≠ 0 then leftmost rounds (heap.child .left node) heap else some node

/-- `rb_erase` of a node that has at most the child `child`. -/
def eraseSimple (rounds : Nat) (node child : Nat) (heap : Heap) : Option Heap :=
  let parent := heap.parent node
  let color := heap.color node
  let heap := if child ≠ 0 then heap.setParent child parent else heap
  let heap := heap.changeChild .left node child parent
  if color = .black then rbEraseColor rounds child parent heap else some heap

/-- The part of `rb_erase` that takes `node`, the successor of `old`, out of its place, with the parent of
the child it leaves there. -/
def detachSuccessor (old node child : Nat) (heap : Heap) : Option (Heap × Nat) :=
  let parent := heap.parent node
  if parent = old then some (heap, node)
  else do
    let heap := if child ≠ 0 then heap.setParent child parent else heap
    deref parent
    let heap := heap.setChild parent .left child
    let heap := heap.setChild node .right (heap.child .right old)
    deref (heap.child .right old)
    some (heap.setParent (heap.child .right old) node, parent)

/-- The part of `rb_erase` that puts `node` into the place of `old`, below the parent and above the left
child. -/
def takePlace (old node : Nat) (heap : Heap) : Option Heap := do
  let heap := (heap.setParent node (heap.parent old)).setColor node (heap.color old)
  let heap := heap.setChild node .left (heap.child .left old)
  deref (heap.child .left old)
  some (heap.setParent (heap.child .left old) node)

/-- `rb_erase` of a node that has two children. -/
def eraseInner (rounds : Nat) (old : Nat) (heap : Heap) : Option Heap := do
  let node ← leftmost rounds (heap.child .right old) heap
  let heap := heap.changeChild .left old node (heap.parent old)
  let child := heap.child .right node
  let color := heap.color node
  let (heap, parent) ← detachSuccessor old node child heap
  let heap ← takePlace old node heap
  if color = .black then rbEraseColor rounds child parent heap else some heap

/-- `rb_erase(node, root)`. -/
def rbErase (rounds : Nat) (node : Nat) (heap : Heap) : Option Heap := do
  deref node
  if heap.child .left node = 0 then eraseSimple rounds node (heap.child .right node) heap
  else if heap.child .right node = 0 then eraseSimple rounds node (heap.child .left node) heap
  else eraseInner rounds node heap

/-! ### Replacement -/

/-- `rb_replace_node(victim, new, root)`. -/
def rbReplaceNode (victim new : Nat) (heap : Heap) : Heap :=
  let heap := heap.changeChild .left victim new (heap.parent victim)
  let heap := if heap.child .left victim ≠ 0 then heap.setParent (heap.child .left victim) new else heap
  let heap := if heap.child .right victim ≠ 0 then heap.setParent (heap.child .right victim) new else heap
  let heap := (heap.setParent new (heap.parent victim)).setColor new (heap.color victim)
  (heap.setChild new .left (heap.child .left victim)).setChild new .right (heap.child .right victim)

open Library List Function

/-! ### What a heap holds -/

/-- The address of the root of a tree. -/
def rootPtr : ColorTree Nat → Nat
  | .nil => 0
  | .node _ _ label _ => label

/-- The heap holds the tree below the node `parent`. -/
def Rep (heap : Heap) : (parent : Nat) → ColorTree Nat → Prop
  | _, .nil => True
  | parent, .node color left label right =>
    label ≠ 0 ∧ heap.parent label = parent ∧ heap.color label = color ∧
      heap.child .left label = rootPtr left ∧ heap.child .right label = rootPtr right ∧
      Rep heap label left ∧ Rep heap label right

/-- The node right above a hole, 0 at the root. -/
def parentOf : List (Frame Nat) → Nat
  | [] => 0
  | frame :: _ => frame.label

/-- The heap holds the context, with the pointer `hole` where the subtree is. -/
def RepContext (heap : Heap) : List (Frame Nat) → (hole : Nat) → Prop
  | [], hole => heap.root = hole
  | frame :: rest, hole =>
    frame.label ≠ 0 ∧ heap.parent frame.label = parentOf rest ∧
      heap.color frame.label = frame.color ∧ heap.child frame.side frame.label = hole ∧
      heap.child frame.side.other frame.label = rootPtr frame.sibling ∧
      Rep heap frame.label frame.sibling ∧ RepContext heap rest frame.label

/-- The heap holds exactly this tree, with pairwise different nodes. -/
structure Rooted (heap : Heap) (tree : ColorTree Nat) : Prop where
  rep : Rep heap 0 tree
  root : heap.root = rootPtr tree
  nodup : tree.toList.Nodup

/-- The same, seen from a subtree. -/
structure Focus (heap : Heap) (context : List (Frame Nat)) (tree : ColorTree Nat) : Prop where
  held : RepContext heap context (rootPtr tree)
  rep : Rep heap (parentOf context) tree
  nodup : (tree.toList ++ contextLabels context).Nodup

variable {heap heap' : Heap} {context rest : List (Frame Nat)} {tree near far : ColorTree Nat}
  {side : Side} {color : Color} {label parent : Nat}

@[simp] theorem rootPtr_join (side : Side) (color : Color) (label : Nat) (near far : ColorTree Nat) :
    rootPtr (.join side color label near far) = label := by
  cases side <;> rfl

theorem rep_join : Rep heap parent (.join side color label near far) ↔
    label ≠ 0 ∧ heap.parent label = parent ∧ heap.color label = color ∧
      heap.child side label = rootPtr near ∧ heap.child side.other label = rootPtr far ∧
      Rep heap label near ∧ Rep heap label far := by
  cases side with
  | left => exact Iff.rfl
  | right =>
    rw [ColorTree.join, Rep]
    tauto

theorem rooted_iff_focus : Rooted heap (plug context tree) ↔ Focus heap context tree := by
  have parts : Rep heap 0 (plug context tree) ∧ heap.root = rootPtr (plug context tree) ↔
      RepContext heap context (rootPtr tree) ∧ Rep heap (parentOf context) tree := by
    induction context generalizing tree with
    | nil => exact and_comm
    | cons frame rest ih =>
      rw [plug, ih, rootPtr_join, rep_join, RepContext]
      tauto
  have labels := (plug_perm context tree).nodup_iff
  constructor
  · intro rooted
    obtain ⟨held, rep⟩ := parts.mp ⟨rooted.rep, rooted.root⟩
    exact ⟨held, rep, labels.mp rooted.nodup⟩
  · intro focus
    obtain ⟨rep, root⟩ := parts.mpr ⟨focus.held, focus.rep⟩
    exact ⟨rep, root, labels.mpr focus.nodup⟩

theorem rootPtr_mem (nonzero : rootPtr tree ≠ 0) : rootPtr tree ∈ tree.toList := by
  cases tree with
  | nil => exact absurd rfl nonzero
  | node color left label right => simp [rootPtr, ColorTree.toList]

theorem parentOf_mem (nonzero : parentOf context ≠ 0) : parentOf context ∈ contextLabels context := by
  cases context with
  | nil => exact absurd rfl nonzero
  | cons frame rest => exact mem_cons_self

variable {hole node label' : Nat} {color' : Color} {middle : ColorTree Nat}

/-! ### Writes that leave a part alone -/

/-- The two heaps have the same node at the address. -/
structure SameNode (heap heap' : Heap) (node : Nat) : Prop where
  parent : heap'.parent node = heap.parent node
  color : heap'.color node = heap.color node
  child : ∀ side, heap'.child side node = heap.child side node

theorem Rep.congr (rep : Rep heap parent tree)
    (same : ∀ node ∈ tree.toList, node ≠ 0 → SameNode heap heap' node) : Rep heap' parent tree := by
  induction tree generalizing parent with
  | nil => trivial
  | node color left label right leftHypothesis rightHypothesis =>
    obtain ⟨nonzero, above, colored, toLeft, toRight, repLeft, repRight⟩ := rep
    have here := same label (by simp [ColorTree.toList]) nonzero
    refine ⟨nonzero, here.parent.trans above, here.color.trans colored, (here.child _).trans toLeft,
      (here.child _).trans toRight,
      leftHypothesis repLeft fun node mem => ?_, rightHypothesis repRight fun node mem => ?_⟩
    · exact same node (mem_append_left _ mem)
    · exact same node (mem_append_right _ (mem_cons_of_mem _ mem))

/-- A subtree gets another parent: only the parent link of its root changes. -/
theorem Rep.reparent {parent' : Nat} (rep : Rep heap parent tree) (nodup : tree.toList.Nodup)
    (same : ∀ node ∈ tree.toList, node ≠ 0 → node ≠ rootPtr tree → SameNode heap heap' node)
    (root : rootPtr tree ≠ 0 → heap'.parent (rootPtr tree) = parent' ∧
      heap'.color (rootPtr tree) = heap.color (rootPtr tree) ∧
      ∀ side, heap'.child side (rootPtr tree) = heap.child side (rootPtr tree)) :
    Rep heap' parent' tree := by
  cases tree with
  | nil => trivial
  | node color left label right =>
    obtain ⟨nonzero, above, colored, toLeft, toRight, repLeft, repRight⟩ := rep
    obtain ⟨above', colored', children'⟩ := root nonzero
    rw [ColorTree.toList, nodup_middle, nodup_cons, mem_append, not_or] at nodup
    obtain ⟨⟨notLeft, notRight⟩, -⟩ := nodup
    refine ⟨nonzero, above', colored'.trans colored, (children' _).trans toLeft, (children' _).trans toRight,
      repLeft.congr fun node mem pos => ?_, repRight.congr fun node mem pos => ?_⟩
    · exact same node (mem_append_left _ mem) pos (ne_of_mem_of_not_mem mem notLeft)
    · exact same node (mem_append_right _ (mem_cons_of_mem _ mem)) pos (ne_of_mem_of_not_mem mem notRight)

theorem RepContext.congr (held : RepContext heap context hole)
    (same : ∀ node ∈ contextLabels context, node ≠ 0 → SameNode heap heap' node)
    (root : heap'.root = heap.root) :
    RepContext heap' context hole := by
  induction context generalizing hole with
  | nil => exact root.trans held
  | cons frame rest ih =>
    obtain ⟨nonzero, above, colored, toHole, toSibling, beside, outer⟩ := held
    have here := same frame.label mem_cons_self nonzero
    refine ⟨nonzero, here.parent.trans above, here.color.trans colored, (here.child _).trans toHole,
      (here.child _).trans toSibling,
      beside.congr fun node mem => ?_, ih outer fun node mem => ?_⟩
    · exact same node (mem_cons_of_mem _ (mem_append_left _ mem))
    · exact same node (mem_cons_of_mem _ (mem_append_right _ mem))

/-! ### Single writes -/

@[simp] theorem setParent_parent (heap : Heap) (rb p node : Nat) :
    (heap.setParent rb p).parent node = if node = rb then p else heap.parent node := by
  simp only [Heap.setParent, update_apply]

@[simp] theorem setColor_color (heap : Heap) (rb node : Nat) (color : Color) :
    (heap.setColor rb color).color node = if node = rb then color else heap.color node := by
  simp only [Heap.setColor, update_apply]

@[simp] theorem setChild_child (heap : Heap) (rb node value : Nat) (side side' : Side) :
    (heap.setChild rb side value).child side' node =
      if side' = side ∧ node = rb then value else heap.child side' node := by
  by_cases same : side' = side
  · subst same
    simp [Heap.setChild, update_apply]
  · simp [Heap.setChild, same]

/-- A parent link that is set for a child unless it is `NULL`. -/
def setParentIf (heap : Heap) (rb p : Nat) : Heap := if rb ≠ 0 then heap.setParent rb p else heap

@[simp] theorem setParentIf_color (heap : Heap) (rb p : Nat) :
    (setParentIf heap rb p).color = heap.color := by
  rw [setParentIf]
  split <;> rfl

@[simp] theorem setParentIf_child (heap : Heap) (rb p : Nat) :
    (setParentIf heap rb p).child = heap.child := by
  rw [setParentIf]
  split <;> rfl

@[simp] theorem setParentIf_root (heap : Heap) (rb p : Nat) : (setParentIf heap rb p).root = heap.root := by
  rw [setParentIf]
  split <;> rfl

@[simp] theorem setParentIf_parent (heap : Heap) (rb p node : Nat) :
    (setParentIf heap rb p).parent node = if node = rb ∧ node ≠ 0 then p else heap.parent node := by
  rw [setParentIf]
  by_cases null : rb = 0 <;> grind [setParent_parent]

/-! ### The pointer to a subtree -/

@[simp] theorem changeChild_parent (heap : Heap) (first : Side) (node new parent : Nat) :
    (heap.changeChild first node new parent).parent = heap.parent := by
  rw [Heap.changeChild]
  split_ifs <;> rfl

@[simp] theorem changeChild_color (heap : Heap) (first : Side) (node new parent : Nat) :
    (heap.changeChild first node new parent).color = heap.color := by
  rw [Heap.changeChild]
  split_ifs <;> rfl

theorem changeChild_child {heap : Heap} {first side : Side} {new parent other : Nat} (ne : other ≠ parent) :
    (heap.changeChild first node new parent).child side other = heap.child side other := by
  rw [Heap.changeChild]
  split_ifs <;> simp [ne]

/-- `changeChild` replaces the pointer to the subtree. -/
theorem RepContext.changeChild (held : RepContext heap context node) (nonzero : node ≠ 0)
    (nodup : (node :: contextLabels context).Nodup) (first : Side) (new : Nat) :
    RepContext (heap.changeChild first node new (parentOf context)) context new := by
  cases context with
  | nil => rfl
  | cons frame rest =>
    obtain ⟨pos, above, colored, toHole, toSibling, beside, outer⟩ := held
    rw [contextLabels, nodup_cons, nodup_cons, mem_append, not_or] at nodup
    obtain ⟨outside, ⟨notBeside, notAbove⟩, -⟩ := nodup
    -- The sibling is another node, so the right child pointer is found.
    have changed : heap.changeChild first node new (parentOf (frame :: rest)) =
        heap.setChild frame.label frame.side new := by
      rw [Heap.changeChild, parentOf, if_pos pos]
      rcases Side.eq_or_other frame.side first with rfl | rfl
      · rw [if_pos toHole]
      · have ne : heap.child frame.side.other frame.label ≠ node := by
          rw [toSibling]
          intro same
          have mem : rootPtr frame.sibling ∈ frame.sibling.toList :=
            rootPtr_mem (by rw [same]; exact nonzero)
          rw [same] at mem
          exact outside (mem_cons_of_mem _ (mem_append_left _ mem))
        rw [if_neg ne, Side.other_other]
    have same (other : Nat) (ne : other ≠ frame.label) :
        SameNode heap (heap.setChild frame.label frame.side new) other :=
      ⟨rfl, rfl, fun side => by simp [ne]⟩
    rw [changed]
    refine ⟨pos, above, colored, by simp, by simp [toSibling], beside.congr fun other mem _ => ?_,
      outer.congr (fun other mem _ => ?_) rfl⟩
    · exact same other (ne_of_mem_of_not_mem mem notBeside)
    · exact same other (ne_of_mem_of_not_mem mem notAbove)

/-! ### Recolouring and rotating -/

theorem Focus.recolor (focus : Focus heap context (.join side color label near far)) (color' : Color) :
    Focus (heap.setColor label color') context (.join side color' label near far) := by
  have labels := (join_perm side color label near far).append_right (contextLabels context)
  have labels' := (join_perm side color' label near far).append_right (contextLabels context)
  have nodup := labels.nodup_iff.mp focus.nodup
  rw [append_assoc, cons_append, nodup_middle, nodup_cons] at nodup
  have same (node : Nat) (mem : node ∈ near.toList ++ (far.toList ++ contextLabels context)) :
      SameNode heap (heap.setColor label color') node := by
    refine ⟨rfl, ?_, fun _ => rfl⟩
    rw [setColor_color, if_neg (ne_of_mem_of_not_mem mem nodup.1)]
  obtain ⟨nonzero, above, colored, toNear, toFar, repNear, repFar⟩ := rep_join.mp focus.rep
  have held := focus.held
  rw [rootPtr_join] at held
  refine ⟨?_, rep_join.mpr ⟨nonzero, above, by simp, toNear, toFar, ?_, ?_⟩,
    labels'.nodup_iff.mpr (labels.nodup_iff.mp focus.nodup)⟩
  · rw [rootPtr_join]
    refine held.congr (fun node mem _ => same node ?_) rfl
    exact mem_append_right _ (mem_append_right _ mem)
  · exact repNear.congr fun node mem _ => same node (mem_append_left _ mem)
  · refine repFar.congr fun node mem _ => same node ?_
    exact mem_append_right _ (mem_append_left _ mem)

theorem deref_some {pointer : Nat} (nonzero : pointer ≠ 0) : deref pointer = some () := by
  rw [deref, if_neg nonzero]

/-- The labels of a node with a child on the far side, and of its context. -/
theorem nodup_rotate
    (nodup : ((ColorTree.join side color label near (.join side color' label' middle far)).toList ++
      contextLabels context).Nodup) :
    (label :: label' :: (near.toList ++ (middle.toList ++ (far.toList ++ contextLabels context)))).Nodup := by
  refine (List.Perm.nodup_iff ?_).mp nodup
  refine ((join_perm ..).append_right _).trans ?_
  rw [append_assoc]
  refine perm_middle.trans (.cons _ ?_)
  refine (((join_perm side color' label' middle far).append_right _).append_left _).trans ?_
  rw [append_assoc]
  refine (perm_middle.append_left near.toList).trans ?_
  exact perm_middle

theorem SameNode.trans {heap'' : Heap} (first : SameNode heap heap' node)
    (second : SameNode heap' heap'' node) : SameNode heap heap'' node :=
  ⟨second.parent.trans first.parent, second.color.trans first.color,
    fun side => (second.child side).trans (first.child side)⟩

/-- A node of a subtree is not the one above it. -/
theorem ne_parentOf (nonzero : node ≠ 0) (outside : node ∉ contextLabels context) :
    node ≠ parentOf context := by
  rintro rfl
  exact outside (parentOf_mem nonzero)

theorem ne_rootPtr (nonzero : node ≠ 0) (outside : node ∉ tree.toList) : node ≠ rootPtr tree := by
  rintro rfl
  exact outside (rootPtr_mem nonzero)

theorem rbRotate_eq (nonzero : node ≠ 0) (nonzero' : heap.child side.other node ≠ 0) :
    rbRotate side node heap = some ((((((setParentIf
        (heap.setChild node side.other (heap.child side (heap.child side.other node)))
        (heap.child side (heap.child side.other node)) node).setChild (heap.child side.other node) side
        node).setParent (heap.child side.other node) (heap.parent node)).changeChild side node
        (heap.child side.other node) (heap.parent node)).setParent node (heap.child side.other node))) := by
  rw [rbRotate, deref_some nonzero]
  dsimp only
  rw [deref_some nonzero']
  rfl

/-- A rotation does what it should, wherever the node is. -/
theorem Focus.rotate
    (focus : Focus heap context (.join side color label near (.join side color' label' middle far))) :
    ∃ heap', rbRotate side label heap = some heap' ∧
      Focus heap' context (.join side color' label' (.join side color label near middle) far) := by
  obtain ⟨nonzero, above, colored, toNear, toFar, repNear, repOther⟩ := rep_join.mp focus.rep
  obtain ⟨nonzero', above', colored', toMiddle, toFar', repMiddle, repFar⟩ := rep_join.mp repOther
  rw [rootPtr_join] at toFar
  have held := focus.held
  rw [rootPtr_join] at held
  have nodup := nodup_rotate focus.nodup
  have rotated := rbRotate_eq nonzero (by rwa [toFar])
  rw [toFar, toMiddle, above] at rotated
  obtain ⟨heap₁, step₁⟩ : ∃ heap₁, heap₁ = ((setParentIf
      (heap.setChild label side.other (rootPtr middle)) (rootPtr middle) label).setChild label' side
      label).setParent label' (parentOf context) := ⟨_, rfl⟩
  rw [← step₁] at rotated
  obtain ⟨heap₂, step₂⟩ : ∃ heap₂, heap₂ =
      (heap₁.changeChild side label label' (parentOf context)).setParent label label' := ⟨_, rfl⟩
  rw [← step₂] at rotated
  simp only [nodup_cons, nodup_append', disjoint_append_right, mem_cons, mem_append, not_or] at nodup
  obtain ⟨⟨apart, notNear, notMiddle, notFar, notContext⟩, ⟨notNear', notMiddle', notFar', notContext'⟩, -,
    ⟨nodupMiddle, ⟨-, nodupContext, farContext⟩, middleFar, middleContext⟩, nearMiddle, -, nearContext⟩ :=
      nodup
  have outside {node : Nat} (nonzero : node ≠ 0) (other : node ≠ label) (other' : node ≠ label')
      (notMiddle : node ≠ rootPtr middle) : SameNode heap heap₁ node := by
    subst step₁
    exact ⟨by simp [other', notMiddle], by simp, fun s => by simp [other, other']⟩
  have inside {node : Nat} (other : node ≠ label) (below : node ≠ parentOf context) :
      SameNode heap₁ heap₂ node := by
    subst step₂
    exact ⟨by simp [other], by simp, fun s => changeChild_child below⟩
  have ne : label' ≠ label := Ne.symm apart
  have labelBelow := ne_parentOf nonzero notContext
  have kept := inside ne (ne_parentOf nonzero' notContext')
  have untouched {node : Nat} (nonzero : node ≠ 0) (other : node ≠ label) (other' : node ≠ label')
      (notMiddle : node ∉ middle.toList) (below : node ∉ contextLabels context) :
      SameNode heap heap₂ node :=
    (outside nonzero other other' (ne_rootPtr nonzero notMiddle)).trans
      (inside other (ne_parentOf nonzero below))
  refine ⟨heap₂, rotated, ?_, rep_join.mpr ⟨nonzero', ?_, ?_, ?_, ?_, rep_join.mpr ⟨nonzero, ?_, ?_, ?_, ?_,
    ?_, ?_⟩, ?_⟩, ?_⟩
  · -- the context
    rw [rootPtr_join]
    have held₁ : RepContext heap₁ context label := by
      refine held.congr (fun node member pos => outside pos ?_ ?_ ?_) (by rw [step₁]; simp)
      · exact ne_of_mem_of_not_mem member notContext
      · exact ne_of_mem_of_not_mem member notContext'
      · exact ne_rootPtr pos fun inMiddle => middleContext inMiddle member
    have held₂ := held₁.changeChild nonzero (nodup_cons.mpr ⟨notContext, nodupContext⟩) side label'
    rw [step₂]
    refine held₂.congr (fun node member _ => ?_) rfl
    exact ⟨by simp [ne_of_mem_of_not_mem member notContext], rfl, fun _ => rfl⟩
  · rw [kept.parent, step₁]
    simp
  · rw [kept.color, step₁]
    simpa using colored'
  · rw [kept.child, step₁]
    simp
  · rw [kept.child, step₁]
    simpa [ne] using toFar'
  · rw [step₂]
    simp
  · rw [step₂, step₁]
    simpa using colored
  · rw [step₂, Heap.setParent_child, changeChild_child labelBelow, step₁]
    simpa [apart, (Side.other_ne side).symm] using toNear
  · rw [step₂, Heap.setParent_child, changeChild_child labelBelow, step₁]
    simp
  · refine repNear.congr fun node member pos => untouched pos ?_ ?_ (nearMiddle member) (nearContext member)
    · exact ne_of_mem_of_not_mem member notNear
    · exact ne_of_mem_of_not_mem member notNear'
  · have other {node : Nat} (member : node ∈ middle.toList) :
      node ≠ label := ne_of_mem_of_not_mem member notMiddle
    have other' {node : Nat} (member : node ∈ middle.toList) :
      node ≠ label' := ne_of_mem_of_not_mem member notMiddle'
    refine repMiddle.reparent nodupMiddle (fun node member pos below => ?_) fun nonzeroMiddle => ?_
    · exact (outside pos (other member) (other' member) below).trans
        (inside (other member) (ne_parentOf pos (middleContext member)))
    · have member := rootPtr_mem nonzeroMiddle
      have same := inside (other member) (ne_parentOf nonzeroMiddle (middleContext member))
      rw [same.parent, same.color]
      refine ⟨by simp [step₁, other' member, nonzeroMiddle], by simp [step₁], fun s => ?_⟩
      rw [same.child, step₁]
      simp [other member, other' member]
  · refine repFar.congr fun node member pos =>
      untouched pos ?_ ?_ (fun inMiddle => middleFar inMiddle member) (farContext member)
    · exact ne_of_mem_of_not_mem member notFar
    · exact ne_of_mem_of_not_mem member notFar'
  · rw [toList_rotate]
    exact focus.nodup

variable {height : Nat}

/-! ### Whole trees -/

theorem Rooted.recolor (rooted : Rooted heap (plug context (.join side color label near far)))
    (color' : Color) :
    Rooted (heap.setColor label color') (plug context (.join side color' label near far)) :=
  rooted_iff_focus.mpr ((rooted_iff_focus.mp rooted).recolor color')

theorem Rooted.rotate {label' : Nat} {color' : Color} {middle : ColorTree Nat} (rooted : Rooted heap
      (plug context (.join side color label near (.join side color' label' middle far)))) :
    ∃ heap', rbRotate side label heap = some heap' ∧
      Rooted heap' (plug context (.join side color' label' (.join side color label near middle) far)) := by
  obtain ⟨heap', rotated, focus⟩ := (rooted_iff_focus.mp rooted).rotate
  exact ⟨heap', rotated, rooted_iff_focus.mpr focus⟩

/-- What the node at a place of the tree holds. -/
structure Reads (heap : Heap) (side : Side) (color : Color) (label parent near far : Nat) : Prop where
  nonzero : label ≠ 0
  parent : heap.parent label = parent
  color : heap.color label = color
  near : heap.child side label = near
  far : heap.child side.other label = far

theorem Rooted.read (rooted : Rooted heap (plug context (.join side color label near far))) :
    Reads heap side color label (parentOf context) (rootPtr near) (rootPtr far) := by
  obtain ⟨nonzero, above, colored, toNear, toFar, _, _⟩ := rep_join.mp (rooted_iff_focus.mp rooted).rep
  exact ⟨nonzero, above, colored, toNear, toFar⟩

variable (rooted : Rooted heap (plug (⟨side, color, label, far⟩ :: rest) near))

include rooted

/-- What the node above a subtree holds. -/
theorem Rooted.readParent : Reads heap side color label (parentOf rest) (rootPtr near) (rootPtr far) := by
  have whole : Rooted heap (plug rest (.join side color label near far)) := rooted
  exact whole.read

theorem Rooted.recolorParent (color' : Color) :
    Rooted (heap.setColor label color') (plug (⟨side, color', label, far⟩ :: rest) near) := by
  have whole : Rooted heap (plug rest (.join side color label near far)) := rooted
  exact whole.recolor color'

omit rooted

/-- The colour of the root of a subtree, as the source tests it. -/
theorem Rooted.isBlack_iff (rooted : Rooted heap (plug context tree))
    (balanced : RedBlack tree color height) :
    isBlack heap (rootPtr tree) = true ↔ color = .black := by
  have rep := (rooted_iff_focus.mp rooted).rep
  cases balanced with
  | nil => simp [rootPtr, isBlack]
  | red below below' =>
    obtain ⟨nonzero, _, colored, _⟩ := rep
    simp [rootPtr, isBlack, nonzero, colored]
  | black below below' =>
    obtain ⟨nonzero, _, colored, _⟩ := rep
    simp [rootPtr, isBlack, colored]

theorem not_isBlack (heap : Heap) (rb : Nat) : rb ≠ 0 ∧ heap.color rb = .red ↔ isBlack heap rb = false := by
  rw [isBlack]
  cases heap.color rb <;> simp

include rooted

/-- Different subtrees have different roots. -/
theorem Rooted.root_ne (nonzero : rootPtr near ≠ 0 ∨ rootPtr far ≠ 0) : rootPtr near ≠ rootPtr far := by
  have nodup := (rooted_iff_focus.mp rooted).nodup
  rw [nodup_append] at nodup
  intro same
  have nearMember : rootPtr near ∈ near.toList :=
    rootPtr_mem (by rw [← same, or_self] at nonzero; exact nonzero)
  have farMember : rootPtr far ∈ far.toList := rootPtr_mem (by rw [same, or_self] at nonzero; exact nonzero)
  exact nodup.2.2 _ nearMember _ (mem_cons_of_mem _ (mem_append_left _ farMember)) same

/-- The test of the left child finds the side that the subtree is on. -/
theorem found_side (ne : rootPtr near ≠ rootPtr far) :
    (if heap.child .left label = rootPtr near then Side.left else Side.right) = side := by
  have reads := rooted.readParent
  cases side with
  | left => rw [if_pos reads.near]
  | right =>
    rw [if_neg]
    intro same
    exact ne (same.symm.trans reads.far)

omit rooted

/-- Setting the root black changes nothing in a tree whose root is black. -/
theorem Rooted.blacken (rooted : Rooted heap tree) (balanced : RedBlack tree .black height)
    (nonempty : tree.toList ≠ []) :
    heap.root ≠ 0 ∧ Rooted (heap.setColor heap.root .black) tree := by
  have root := rooted.root
  cases balanced with
  | nil => exact absurd rfl nonempty
  | @black left right label _ _ _ _ _ =>
    have whole : Rooted heap (plug [] (.join .left .black label left right)) := rooted
    rw [root]
    exact ⟨whole.read.nonzero, whole.recolor .black⟩

/-! ### The loop of `rb_insert_color` -/

/-- What the loop leaves. -/
def Recolored (heap' : Heap) (labels : List Nat) : Prop :=
  ∃ tree height, Rooted heap' tree ∧ RedBlack tree .black height ∧ tree.toList = labels

/-- A round with an uncle that is not red leaves a red node below a black one. -/
theorem insertRotate_spec {side' : Side} {parentLabel grandLabel : Nat} {sibling uncle : ColorTree Nat}
    (rooted : Rooted heap (plug (⟨side, .red, parentLabel, sibling⟩ ::
      ⟨side', .black, grandLabel, uncle⟩ :: rest) tree))
    (red : RedBlack tree .red height) (beside : RedBlack sibling .black height)
    (uncleBlack : RedBlack uncle .black height) :
    ∃ heap' node' tree' beside', insertRotate side' (rootPtr tree) parentLabel grandLabel heap =
        some (heap', rootPtr tree') ∧
      Rooted heap' (plug (⟨side', .black, node', beside'⟩ :: rest) tree') ∧
      RedBlack tree' .red height ∧ RedBlack beside' .red height ∧
      (plug (⟨side', .black, node', beside'⟩ :: rest) tree').toList =
        (plug (⟨side, .red, parentLabel, sibling⟩ :: ⟨side', .black, grandLabel, uncle⟩ :: rest)
          tree).toList := by
  have reads := rooted.readParent
  rcases Side.eq_or_other side' side with rfl | rfl
  · -- the node is on the outer side: one rotation at the grandparent
    have nonzero : rootPtr tree ≠ 0 := by
      obtain ⟨label, near, far, rfl, _, _⟩ := red.exists_red .left
      have whole : Rooted heap (plug _ (.join .left .red label near far)) := rooted
      exact whole.read.nonzero
    have different := rooted.root_ne (.inl nonzero)
    have colored := (rooted.recolorParent .black)
    have colored' : Rooted ((heap.setColor parentLabel .black).setColor grandLabel .red)
        (plug rest (.join side.other .red grandLabel uncle
          (.join side.other .black parentLabel sibling tree))) := by
      rw [join_other, join_other]
      exact Rooted.recolorParent (show Rooted _ (plug (⟨side, .black, grandLabel, uncle⟩ :: rest)
        (.join side .black parentLabel tree sibling)) from colored) .red
    obtain ⟨heap', rotated, rooted'⟩ := colored'.rotate
    refine ⟨heap', parentLabel, tree, .join side.other .red grandLabel uncle sibling, ?_, ?_, red,
      uncleBlack.joinRed beside, ?_⟩
    · rw [insertRotate, reads.far, if_neg (fun same => different same.symm)]
      simp only [rotated, Option.bind_eq_bind, Option.bind_some]
    · rw [plug, ← join_other]
      exact rooted'
    · simp only [plug]
      apply plug_toList_congr
      cases side <;> simp [ColorTree.join, Side.other, ColorTree.toList]
  · -- the node is on the inner side: it is rotated to the place of its parent first
    obtain ⟨label, near, far, rfl, blackNear, blackFar⟩ := red.exists_red side'
    have inner : Rooted heap (plug (⟨side', .black, grandLabel, uncle⟩ :: rest)
        (.join side' .red parentLabel sibling (.join side' .red label near far))) := by
      rw [← join_other side' .red parentLabel]
      exact rooted
    obtain ⟨heap₁, rotated₁, rooted₁⟩ := inner.rotate
    have colored := rooted₁.recolor .black
    have colored' : Rooted ((heap₁.setColor label .black).setColor grandLabel .red)
        (plug rest (.join side'.other .red grandLabel uncle
          (.join side'.other .black label far (.join side' .red parentLabel sibling near)))) := by
      rw [join_other side' .red, join_other side' .black]
      exact colored.recolorParent .red
    obtain ⟨heap', rotated, rooted'⟩ := colored'.rotate
    refine ⟨heap', label, .join side' .red parentLabel sibling near,
      .join side'.other .red grandLabel uncle far, ?_, ?_, beside.joinRed blackNear,
      uncleBlack.joinRed blackFar, ?_⟩
    · rw [insertRotate, reads.near, if_pos rfl, rotated₁, rootPtr_join, rootPtr_join]
      simp only [rotated, Option.bind_eq_bind, Option.bind_some]
    · rw [plug, ← join_other]
      exact rooted'
    · simp only [plug]
      apply plug_toList_congr
      cases side' <;> simp [ColorTree.join, Side.other, ColorTree.toList]

theorem rbInsertColor_spec (rounds : Nat) {height : Nat} (rooted : Rooted heap (plug context tree))
    (red : RedBlack tree .red height) (hole : Hole context .black height) (enough : context.length < rounds) :
    ∃ heap', rbInsertColor rounds (rootPtr tree) heap = some heap' ∧
      Recolored heap' (plug context tree).toList := by
  induction rounds generalizing heap context tree height with
  | zero => omega
  | succ rounds ih =>
    obtain ⟨label, near, far, rfl, blackNear, blackFar⟩ := red.exists_red .left
    have reads := rooted.read
    rw [rootPtr_join, rbInsertColor, deref_some reads.nonzero, reads.parent]
    dsimp only
    cases hole with
    | root =>
      have root := rooted.root
      have final : Rooted (heap.setColor label .black) (plug [] (.join .left .black label near far)) :=
        rooted.recolor .black
      refine ⟨heap.setColor label .black, ?_, _, _, final, blackNear.joinBlack blackFar, rfl⟩
      rw [root, plug, rootPtr_join, deref_some reads.nonzero]
      rfl
    | @black side' parentLabel sibling rest _ _ _ beside above =>
      obtain ⟨total, whole⟩ := (Hole.black beside above).fill red
      have nonempty : (plug (⟨side', .black, parentLabel, sibling⟩ :: rest)
          (.join .left .red label near far)).toList ≠ [] := by
        rw [plug_toList]
        simp [ColorTree.join, ColorTree.toList]
      obtain ⟨nonzero, final⟩ := rooted.blacken whole nonempty
      refine ⟨_, ?_, _, total, final, whole, rfl⟩
      have black : heap.color parentLabel = .black := rooted.readParent.color
      rw [parentOf, if_neg (fun both => by rw [black] at both; cases both.2), deref_some nonzero]
      rfl
    | @red side' parentLabel sibling _ _ beside above =>
      cases above with
      | @black side'' grandLabel uncle rest' _ _ uncleColor besideUncle above =>
        have readsParent := rooted.readParent
        have grand : Rooted heap (plug (⟨side'', .black, grandLabel, uncle⟩ :: rest')
          (.join side' .red parentLabel (.join .left .red label near far) sibling)) := rooted
        have readsGrand := grand.readParent
        have different := grand.root_ne (.inl (by rw [rootPtr_join]; exact readsParent.nonzero))
        have found := found_side grand different
        rw [rootPtr_join] at found readsGrand
        rw [parentOf, if_pos ⟨readsParent.nonzero, readsParent.color⟩, readsParent.parent, parentOf,
          deref_some readsGrand.nonzero]
        simp only [eq_comm (a := parentLabel), found, readsGrand.far]
        have besideGrand := grand
        rw [plug_sibling] at besideGrand
        have test := besideGrand.isBlack_iff besideUncle
        cases uncleColor with
        | red =>
          obtain ⟨uncleLabel, nearUncle, farUncle, rfl, blackNearUncle, blackFarUncle⟩ :=
            besideUncle.exists_red .left
          rw [if_pos ((not_isBlack heap _).mpr (by simpa using test))]
          have colored := besideGrand.recolor .black
          rw [← plug_sibling] at colored
          have colored' : Rooted _ (plug (⟨side', .red, parentLabel, sibling⟩ ::
            ⟨side'', .black, grandLabel, .join .left .black uncleLabel nearUncle farUncle⟩ :: rest')
            (.join .left .red label near far)) := colored
          have colored'' : Rooted _ (plug (⟨side'', .black, grandLabel,
            .join .left .black uncleLabel nearUncle farUncle⟩ :: rest')
            (.join side' .black parentLabel (.join .left .red label near far) sibling)) :=
            colored'.recolorParent .black
          have final : Rooted _ (plug rest' (.join side'' .red grandLabel
            (.join side' .black parentLabel (.join .left .red label near far) sibling)
            (.join .left .black uncleLabel nearUncle farUncle))) := colored''.recolorParent .red
          obtain ⟨heap', done, tree', height', rooted', balanced', sequence⟩ := ih final
            ((red.joinBlack beside).joinRed (blackNearUncle.joinBlack blackFarUncle)) above
            (by simp only [length_cons] at enough; omega)
          rw [rootPtr_join] at done
          refine ⟨heap', by rw [rootPtr_join]; exact done, tree', height', rooted', balanced',
            sequence.trans ?_⟩
          exact plug_toList_congr (toList_join_congr (toList_join_congr rfl rfl) (toList_join_congr rfl rfl))
        | black =>
          rw [if_neg (fun both => by simp [(not_isBlack heap _).mp both] at test)]
          obtain ⟨heap₁, node', tree', beside', rotated, rooted', red', redBeside, same⟩ :=
            insertRotate_spec rooted red beside besideUncle
          rw [rootPtr_join] at rotated
          obtain ⟨heap', done, result⟩ := ih rooted' red' (.black redBeside above)
            (by simp only [length_cons] at enough ⊢; omega)
          rw [same] at result
          refine ⟨heap', ?_, result⟩
          simp only [rotated, Option.bind_eq_bind, Option.bind_some, done]

/-! ### Linking a leaf -/

/-- The heap holds a red-black tree. -/
structure IsRbTree (heap : Heap) (tree : ColorTree Nat) : Prop where
  rooted : Rooted heap tree
  balanced : ∃ height, RedBlack tree .black height

/-- Every node of a tree is somewhere in it. -/
theorem exists_plug (side : Side) {label : Nat} (mem : label ∈ tree.toList) :
    ∃ context color near far, tree = plug context (.join side color label near far) := by
  induction tree with
  | nil => cases mem
  | node color left root right leftHypothesis rightHypothesis =>
    rcases mem_append.mp mem with mem | mem
    · obtain ⟨context, color', near, far, rfl⟩ := leftHypothesis mem
      refine ⟨context ++ [⟨.left, color, root, right⟩], color', near, far, ?_⟩
      rw [plug_append]
      rfl
    · rcases mem_cons.mp mem with rfl | mem
      · obtain ⟨near, far, same⟩ := exists_join side
        exact ⟨[], color, near, far, same⟩
      · obtain ⟨context, color', near, far, rfl⟩ := rightHypothesis mem
        refine ⟨context ++ [⟨.right, color, root, left⟩], color', near, far, ?_⟩
        rw [plug_append]
        rfl

theorem Rep.eq_nil (rep : Rep heap parent tree) (null : rootPtr tree = 0) : tree = .nil := by
  cases tree with
  | nil => rfl
  | node color left label right => exact absurd null rep.1

/-- The pointer to the hole of a context. -/
def linkOf : List (Frame Nat) → Link
  | [] => .root
  | frame :: _ => .child frame.label frame.side

theorem rbLinkNode_focus {node : Nat} (focus : Focus heap context .nil) (nonzero : node ≠ 0)
    (fresh : node ∉ contextLabels context) :
    Focus (rbLinkNode node (linkOf context) heap) context (.join .left .red node .nil .nil) := by
  have held := focus.held
  have nodup : (contextLabels context).Nodup := focus.nodup
  cases context with
  | nil =>
    rw [linkOf, rbLinkNode]
    exact ⟨rfl,
      ⟨nonzero, by simp [parentOf], by simp, by simp [rootPtr], by simp [rootPtr], trivial, trivial⟩,
      by simp [ColorTree.join, ColorTree.toList, contextLabels]⟩
  | cons frame rest =>
    obtain ⟨pos, above, colored, toHole, toSibling, beside, outer⟩ := held
    have outside := fresh
    rw [contextLabels, mem_cons, mem_append, not_or, not_or] at outside
    obtain ⟨notParent, notBeside, notAbove⟩ := outside
    rw [contextLabels, nodup_cons, mem_append, not_or] at nodup
    obtain ⟨⟨parentNotBeside, parentNotAbove⟩, _⟩ := nodup
    have ne : frame.label ≠ node := fun same => notParent same.symm
    have same {other : Nat} (notNode : other ≠ node) (notLabel : other ≠ frame.label) :
        SameNode heap (rbLinkNode node (.child frame.label frame.side) heap) other :=
      ⟨by simp [rbLinkNode, notNode], by simp [rbLinkNode, notNode],
        fun side => by simp [rbLinkNode, notNode, notLabel]⟩
    rw [linkOf, rbLinkNode]
    refine ⟨⟨pos, ?_, ?_, ?_, ?_, beside.congr fun other mem _ => same ?_ ?_,
      outer.congr (fun other mem _ => same ?_ ?_) rfl⟩, ⟨nonzero, ?_, ?_, ?_, ?_, trivial, trivial⟩, ?_⟩
    · simpa [ne] using above
    · simpa [ne] using colored
    · simp [rootPtr, ColorTree.join]
    · simpa [ne] using toSibling
    · exact ne_of_mem_of_not_mem mem notBeside
    · exact ne_of_mem_of_not_mem mem parentNotBeside
    · exact ne_of_mem_of_not_mem mem notAbove
    · exact ne_of_mem_of_not_mem mem parentNotAbove
    · simp [parentOf]
    · simp
    · simp [notParent, rootPtr]
    · simp [notParent, rootPtr]
    · exact nodup_cons.mpr ⟨fresh, focus.nodup⟩

/-- The link is free in the tree that the heap holds. -/
def FreeLink (heap : Heap) (tree : ColorTree Nat) : Link → Prop
  | .root => tree = .nil
  | .child parent side => parent ∈ tree.toList ∧ heap.child side parent = 0

/-- The sequence `after` is `before` with the node put at the place of the link: right before the parent
for a left child, right after it for a right one. -/
def LinkedAt (node : Nat) (before after : List Nat) : Link → Prop
  | .root => before = [] ∧ after = [node]
  | .child parent .left => ∃ low high, before = low ++ parent :: high ∧ after = low ++ node :: parent :: high
  | .child parent .right => ∃ low high, before = low ++ parent :: high ∧ after = low ++ parent :: node :: high

theorem exists_context {link : Link} (rooted : Rooted heap tree) (free : FreeLink heap tree link) :
    ∃ context, tree = plug context .nil ∧ link = linkOf context := by
  cases link with
  | root => exact ⟨[], free, rfl⟩
  | child parent side =>
    obtain ⟨mem, null⟩ := free
    obtain ⟨context, color, near, far, rfl⟩ := exists_plug side mem
    obtain ⟨_, _, _, toNear, _, repNear, _⟩ := rep_join.mp (rooted_iff_focus.mp rooted).rep
    obtain rfl := repNear.eq_nil (toNear.symm.trans null)
    exact ⟨⟨side, color, parent, far⟩ :: context, rfl, rfl⟩

theorem linkedAt_plug (context : List (Frame Nat)) (node : Nat) :
    LinkedAt node (plug context .nil).toList (plug context (.join .left .red node .nil .nil)).toList
      (linkOf context) := by
  rw [plug_toList, plug_toList]
  cases context with
  | nil => exact ⟨rfl, rfl⟩
  | cons frame rest =>
    obtain ⟨side, color, label, sibling⟩ := frame
    cases side with
    | left => exact ⟨(around rest).1, sibling.toList ++ (around rest).2, rfl, rfl⟩
    | right =>
      refine ⟨(around rest).1 ++ sibling.toList, (around rest).2, ?_, ?_⟩ <;>
        simp [around, ColorTree.toList, ColorTree.join]

theorem length_context_le (context : List (Frame Nat)) (tree : ColorTree Nat) :
    context.length ≤ (plug context tree).toList.length := by
  rw [(plug_perm context tree).length_eq, length_append]
  induction context with
  | nil => exact Nat.zero_le _
  | cons frame rest ih =>
    rw [contextLabels, length_cons, length_cons, length_append]
    omega

theorem rbInsert_spec (held : IsRbTree heap tree) {link : Link} (free : FreeLink heap tree link) {node : Nat}
    (nonzero : node ≠ 0) (fresh : node ∉ tree.toList) {rounds : Nat} (enough : tree.toList.length < rounds) :
    ∃ heap' tree', rbInsertColor rounds node (rbLinkNode node link heap) = some heap' ∧
      IsRbTree heap' tree' ∧ LinkedAt node tree.toList tree'.toList link := by
  obtain ⟨context, rfl, rfl⟩ := exists_context held.rooted free
  obtain ⟨total, balanced⟩ := held.balanced
  obtain ⟨color, height, below, hole⟩ := balanced.unplug
  cases below
  have outside : node ∉ contextLabels context := fun mem =>
    fresh ((plug_perm context .nil).mem_iff.mpr (mem_append_right _ mem))
  have linked := rbLinkNode_focus (rooted_iff_focus.mp held.rooted) nonzero outside
  obtain ⟨heap', done, tree', height', rooted', balanced', same⟩ := rbInsertColor_spec rounds
    (rooted_iff_focus.mpr linked) (RedBlack.nil.joinRed .nil) hole
    (Nat.lt_of_le_of_lt (length_context_le context .nil) enough)
  refine ⟨heap', tree', done, ⟨rooted', height', balanced'⟩, ?_⟩
  rw [same]
  exact linkedAt_plug context node

open Option

variable {sibling : ColorTree Nat} {color' : Color}

/-- A tree seen from the subtree on the far side of a node. -/
theorem rooted_far : Rooted heap (plug (⟨side.other, color, label, near⟩ :: context) far) ↔
    Rooted heap (plug context (.join side color label near far)) := by
  rw [plug, join_other]

/-- The whole tree is repaired: only the root is still set black. -/
theorem Rooted.finish (rooted : Rooted heap (plug context (.join side color label near far)))
    (hole : Hole context color' height)
    (balanced : RedBlack (.join side color label near far) color' height) :
    Recolored (eraseFinish heap.root heap) (plug context (.join side color label near far)).toList := by
  obtain ⟨total, whole⟩ := hole.fill balanced
  have nonempty : (plug context (.join side color label near far)).toList ≠ [] := by
    rw [plug_toList]
    cases side <;> simp [ColorTree.join, ColorTree.toList]
  obtain ⟨nonzero, final⟩ := rooted.blacken whole nonempty
  rw [eraseFinish, if_pos nonzero]
  exact ⟨_, total, final, whole, rfl⟩

/-- The last round: the far child of the sibling is red. -/
theorem eraseLast_spec {other : Nat} {otherColor : Color}
    (rooted : Rooted heap (plug rest (.join side color label tree (.join side otherColor other near far))))
    (below : RedBlack tree .black height) (belowNear : RedBlack near color' height)
    (belowFar : RedBlack far .red height) (hole : Hole rest color (heightAbove (height + 1) color)) :
    ∃ heap', eraseLast side label other heap = some heap' ∧
      Recolored heap'
        (plug rest (.join side color label tree (.join side otherColor other near far))).toList := by
  obtain ⟨farLabel, near', far', rfl, blackNear, blackFar⟩ := belowFar.exists_red .left
  have reads := rooted.read
  -- the sibling takes the colour of the parent
  have atSibling := rooted_far.mpr rooted
  have readsSibling := atSibling.read
  have colored₁ := atSibling.recolor color
  -- the parent becomes black
  have colored₂ := colored₁.recolorParent .black
  -- the far child becomes black
  have atFar := rooted_far.mpr colored₂
  have readsFar := atFar.read
  have colored₃ := atFar.recolor .black
  have whole := rooted_far.mp (rooted_far.mp colored₃)
  obtain ⟨heap', rotated, rooted'⟩ := whole.rotate
  obtain ⟨tree', total, final, balanced, sequence⟩ :=
    rooted'.finish hole ((below.joinBlack belowNear).joinAny (blackNear.joinBlack blackFar) color)
  refine ⟨eraseFinish heap'.root heap', ?_, tree', total, final, balanced,
    sequence.trans (plug_toList_congr ?_)⟩
  · have toFar : ((heap.setColor other color).setColor label .black).child side.other other = farLabel := by
      simpa using readsSibling.far
    rw [eraseLast, deref_some readsSibling.nonzero, reads.color]
    dsimp only
    rw [toFar, deref_some readsFar.nonzero]
    simp only [bind_eq_bind, bind_some, rotated]
  · rw [toList_rotate side color otherColor]
    exact toList_join_congr rfl (toList_join_congr rfl (toList_join_congr rfl rfl))

/-- If the far child of the black sibling is black and the near one red, the near one takes the place of
the sibling. -/
theorem blackFarChild_spec {other : Nat} {nearColor farColor : Color}
    (rooted : Rooted heap (plug rest (.join side color label tree (.join side .black other near far))))
    (belowNear : RedBlack near nearColor height) (belowFar : RedBlack far farColor height)
    (someRed : ¬(nearColor = .black ∧ farColor = .black)) :
    ∃ heap' other' otherColor near' far' nearColor', blackFarChild side label other heap =
      some (heap', other') ∧
      Rooted heap' (plug rest (.join side color label tree (.join side otherColor other' near' far'))) ∧
      RedBlack near' nearColor' height ∧ RedBlack far' .red height ∧
      (plug rest (.join side color label tree (.join side otherColor other' near' far'))).toList =
        (plug rest (.join side color label tree (.join side .black other near far))).toList := by
  have atSibling := rooted_far.mpr rooted
  have reads := atSibling.read
  have test := (rooted_far.mpr atSibling).isBlack_iff belowFar
  cases farColor with
  | red =>
    refine ⟨heap, other, .black, near, far, nearColor, ?_, rooted, belowNear, belowFar, rfl⟩
    rw [blackFarChild, reads.far, if_neg (by simpa using test)]
  | black =>
    obtain rfl : nearColor = .red := by
      cases nearColor with
      | red => rfl
      | black => exact absurd ⟨rfl, rfl⟩ someRed
    obtain ⟨inner, near₁, near₂, rfl, black₁, black₂⟩ := belowNear.exists_red side.other
    have atNear : Rooted heap (plug (⟨side, .black, other, far⟩ :: ⟨side.other, color, label, tree⟩ :: rest)
      (.join side.other .red inner near₁ near₂)) := atSibling
    have colored := (atNear.recolor .black).recolorParent .red
    rw [rootPtr_join] at reads
    have turned : Rooted ((heap.setColor inner .black).setColor other .red)
        (plug (⟨side.other, color, label, tree⟩ :: rest)
          (.join side.other .red other far (.join side.other .black inner near₁ near₂))) := by
      rw [join_other]
      exact colored
    obtain ⟨heap', rotated, rooted'⟩ := turned.rotate
    have whole : Rooted heap' (plug rest (.join side color label tree
        (.join side .black inner near₂ (.join side.other .red other far near₁)))) := by
      rw [join_other] at rooted'
      exact rooted_far.mp rooted'
    refine ⟨heap', inner, .black, near₂, .join side.other .red other far near₁, .black, ?_, whole, black₂,
      belowFar.joinRed black₁, ?_⟩
    · have sibling := whole.read.far
      rw [rootPtr_join] at sibling
      rw [blackFarChild, reads.far, if_pos (by simpa using test), reads.near]
      simp only [deref_some atNear.read.nonzero, bind_eq_bind, bind_some, rotated, sibling]
    · apply plug_toList_congr
      cases side <;> simp [ColorTree.join, Side.other, ColorTree.toList]

/-- A round with a black sibling either repairs the tree, or makes the sibling red, so that the subtree of
the parent is the one with a black node too few. -/
theorem eraseBlackSibling_spec {other : Nat} (again : (node parent : Nat) → Heap → Option Heap)
    (rooted : Rooted heap (plug rest (.join side color label tree (.join side .black other near far))))
    (below : RedBlack tree .black height)
    (beside : RedBlack (.join side .black other near far) .black (height + 1))
    (hole : Hole rest color (heightAbove (height + 1) color)) :
    (∃ heap', eraseBlackSibling again side label other heap = again label (parentOf rest) heap' ∧
        Rooted heap' (plug rest (.join side color label tree (.join side .red other near far))) ∧
        RedBlack near .black height ∧ RedBlack far .black height) ∨
      ∃ heap', eraseBlackSibling again side label other heap = some heap' ∧ Recolored heap'
        (plug rest (.join side color label tree (.join side .black other near far))).toList := by
  obtain ⟨less, nearColor, farColor, _, sameHeight, belowNear, belowFar⟩ := beside.black_inv
  obtain rfl : height = less := by omega
  have atSibling := rooted_far.mpr rooted
  have reads := atSibling.read
  have atNear : Rooted heap (plug (⟨side, .black, other, far⟩ :: ⟨side.other, color, label, tree⟩ :: rest)
    near) := atSibling
  have nearTest := atNear.isBlack_iff belowNear
  have farTest := (rooted_far.mpr atSibling).isBlack_iff belowFar
  have test : (isBlack heap (heap.child .left other) = true ∧ isBlack heap (heap.child .right other) = true) ↔
      nearColor = .black ∧ farColor = .black := by
    rw [← nearTest, ← farTest, ← reads.near, ← reads.far]
    cases side with
    | left => exact Iff.rfl
    | right => exact and_comm
  rw [eraseBlackSibling, deref_some reads.nonzero]
  by_cases both : nearColor = .black ∧ farColor = .black
  · left
    obtain ⟨rfl, rfl⟩ := both
    refine ⟨heap.setColor other .red, ?_, rooted_far.mp (atSibling.recolor .red), belowNear, belowFar⟩
    simp only [bind_eq_bind, bind_some, if_pos (test.mpr ⟨rfl, rfl⟩), Heap.setColor_parent,
      rooted.read.parent]
  · right
    obtain ⟨heap₁, other', otherColor, near', far', nearColor', turned, rooted', belowNear',
        belowFar', same⟩ :=
      blackFarChild_spec rooted belowNear belowFar both
    obtain ⟨heap', done, result⟩ := eraseLast_spec rooted' below belowNear' belowFar' hole
    rw [same] at result
    refine ⟨heap', ?_, result⟩
    simp only [bind_eq_bind, bind_some, if_neg (fun holds => both (test.mp holds)), turned, done]

/-- After the treatment of a red sibling the sibling is black. -/
theorem redSibling_spec {siblingColor : Color}
    (rooted : Rooted heap (plug (⟨side, color, label, sibling⟩ :: rest) tree))
    (beside : RedBlack sibling siblingColor (height + 1))
    (hole : Hole (⟨side, color, label, sibling⟩ :: rest) .black (height + 1)) :
    ∃ heap' color' other near far rest', redSibling side label (rootPtr sibling) heap = some (heap', other) ∧
      Rooted heap' (plug rest' (.join side color' label tree (.join side .black other near far))) ∧
      RedBlack (.join side .black other near far) .black (height + 1) ∧
      Hole rest' color' (heightAbove (height + 1) color') ∧
      (color' = .black → rest' = rest) ∧
      (plug rest' (.join side color' label tree (.join side .black other near far))).toList =
        (plug (⟨side, color, label, sibling⟩ :: rest) tree).toList := by
  have whole : Rooted heap (plug rest (.join side color label tree sibling)) := rooted
  have atSibling := rooted_far.mpr whole
  cases siblingColor with
  | black =>
    obtain ⟨other, near, far, nearColor, farColor, rfl, belowNear, belowFar⟩ := beside.exists_black side
    have reads := atSibling.read
    have above : Hole rest color (heightAbove (height + 1) color) := by
      cases hole with
      | red _ above | black _ above => exact above
    refine ⟨heap, color, other, near, far, rest, ?_, whole, beside, above, fun _ => rfl, rfl⟩
    rw [rootPtr_join, redSibling, deref_some reads.nonzero, reads.color]
    rfl
  | red =>
    obtain ⟨other, near, far, rfl, belowNear, belowFar⟩ := beside.exists_red side
    obtain ⟨rfl, above⟩ : color = .black ∧ Hole rest .black (height + 1 + 1) := by
      cases hole with
      | red black _ => exact absurd black.red_inv.1 (by decide)
      | black _ above => exact ⟨rfl, above⟩
    have reads := atSibling.read
    have colored := rooted_far.mp ((atSibling.recolor .black).recolorParent .red)
    obtain ⟨heap', rotated, rooted'⟩ := colored.rotate
    obtain ⟨inner, near', far', nearColor, farColor, rfl, _, _⟩ := belowNear.exists_black side
    have lower : Rooted heap' (plug (⟨side, .black, other, far⟩ :: rest)
      (.join side .red label tree (.join side .black inner near' far'))) := rooted'
    refine ⟨heap', .red, inner, near', far', ⟨side, .black, other, far⟩ :: rest, ?_, lower, belowNear,
      .black belowFar above, fun impossible => (by cases impossible), ?_⟩
    · have toInner := lower.read.far
      rw [rootPtr_join] at toInner
      rw [rootPtr_join, redSibling, deref_some reads.nonzero, reads.color]
      simp only [bind_eq_bind, bind_some, if_true, rotated, toInner]
    · simp only [plug]
      apply plug_toList_congr
      exact toList_rotate side .black .red .red .black _ _ _ _ _

/-! ### The loop of `__rb_erase_color` -/

theorem rootPtr_plug_mem (frame : Frame Nat) (rest : List (Frame Nat)) (tree : ColorTree Nat) :
    rootPtr (plug (frame :: rest) tree) ∈ contextLabels (frame :: rest) := by
  induction rest generalizing frame tree with
  | nil =>
    rw [plug, plug, rootPtr_join]
    exact mem_cons_self
  | cons above rest ih =>
    have member := ih above (.join frame.side frame.color frame.label tree frame.sibling)
    exact mem_cons_of_mem _ (mem_append_right _ member)

theorem Rooted.root_ne_zero {frame : Frame Nat} (rooted : Rooted heap (plug (frame :: rest) tree)) :
    rootPtr (plug (frame :: rest) tree) ≠ 0 := by
  have rep := rooted.rep
  have mem : frame.label ∈ (plug (frame :: rest) tree).toList :=
    (plug_perm _ _).mem_iff.mpr (mem_append_right _ mem_cons_self)
  generalize plug (frame :: rest) tree = whole at rep mem
  cases whole with
  | nil => cases mem
  | node color left label right => exact rep.1

theorem Rooted.ne_root {frame : Frame Nat} (rooted : Rooted heap (plug (frame :: rest) tree)) :
    rootPtr tree ≠ heap.root := by
  have focus := rooted_iff_focus.mp rooted
  have member := rootPtr_plug_mem frame rest tree
  rw [rooted.root]
  intro same
  rw [← same] at member
  exact disjoint_of_nodup_append focus.nodup (rootPtr_mem (same ▸ rooted.root_ne_zero)) member

/-- A red subtree is set black, and the loop is left. -/
theorem rbEraseColor_red {above : Nat} (rooted : Rooted heap (plug context (.join side .red label near far)))
    (below : RedBlack near color height) (below' : RedBlack far color' height)
    (hole : Hole context .black (height + 1)) (rounds : Nat) :
    ∃ heap', rbEraseColor (rounds + 1) label above heap = some heap' ∧
      Recolored heap' (plug context (.join side .red label near far)).toList := by
  have reads := rooted.read
  obtain ⟨total, whole⟩ := hole.fill (below.joinBlack below')
  refine ⟨heap.setColor label .black, ?_, _, total, rooted.recolor .black, whole, ?_⟩
  · rw [rbEraseColor, eraseFinish]
    simp [isBlack, reads.nonzero, reads.color]
  · exact plug_toList_congr (toList_join_congr rfl rfl)

theorem rbEraseColor_spec (rounds : Nat) {color : Color} {height : Nat}
    (rooted : Rooted heap (plug context tree))
    (balanced : RedBlack tree color height) (hole : Hole context .black (height + 1))
    (enough : context.length + 1 < rounds) :
      ∃ heap', rbEraseColor rounds (rootPtr tree) (parentOf context) heap = some heap' ∧
      Recolored heap' (plug context tree).toList := by
  induction rounds generalizing heap context tree color height with
  | zero => omega
  | succ rounds ih =>
    cases color with
    | red =>
      obtain ⟨label, near, far, rfl, below, below'⟩ := balanced.exists_red .left
      exact rbEraseColor_red rooted below below' hole rounds
    | black =>
      have black := (rooted.isBlack_iff balanced).mpr rfl
      rw [rbEraseColor]
      cases context with
      | nil =>
        have root : heap.root = rootPtr tree := rooted.root
        rw [if_neg (fun both => both.2 root.symm)]
        refine ⟨_, rfl, tree, height, ?_, balanced, rfl⟩
        rw [eraseFinish]
        cases balanced with
        | nil => exact rooted
        | @black left right label _ _ _ _ _ =>
          have whole : Rooted heap (plug [] (.join .left .black label left right)) := rooted
          rw [rootPtr, if_pos whole.read.nonzero]
          exact whole.recolor .black
      | cons frame rest =>
        obtain ⟨side, color, label, sibling⟩ := frame
        obtain ⟨siblingColor, beside⟩ : ∃ siblingColor, RedBlack sibling siblingColor (height + 1) := by
          cases hole with
          | red beside _ | black beside _ => exact ⟨_, beside⟩
        have nonzero : rootPtr sibling ≠ 0 := by
          have whole : Rooted heap (plug rest (.join side color label tree sibling)) := rooted
          have rep := (rooted_iff_focus.mp (rooted_far.mpr whole)).rep
          cases beside with
          | red | black => exact rep.1
        have reads := rooted.readParent
        have found := found_side rooted (rooted.root_ne (.inr nonzero))
        obtain ⟨heap₁, color', other, near, far, rest', turned, rooted', beside', hole', stays, same⟩ :=
          redSibling_spec rooted beside hole
        rw [if_pos ⟨black, rooted.ne_root⟩, parentOf, deref_some reads.nonzero, found]
        simp only [bind_eq_bind, bind_some, reads.far, turned]
        rcases eraseBlackSibling_spec (rbEraseColor rounds) rooted' balanced beside' hole' with
          ⟨heap₂, step, rooted'', belowNear, belowFar⟩ | ⟨heap', done, result⟩
        · rw [step, ← same]
          have labels : (plug rest' (.join side color' label tree (.join side .red other near far))).toList =
              (plug rest' (.join side color' label tree (.join side .black other near far))).toList :=
            plug_toList_congr (toList_join_congr rfl (toList_join_congr rfl rfl))
          rw [← labels]
          have redBeside : RedBlack (.join side .red other near far) .red height :=
            belowNear.joinRed belowFar
          cases color' with
          | red =>
            obtain ⟨more, rfl⟩ : ∃ more, rounds = more + 1 := ⟨rounds - 1, by omega⟩
            exact rbEraseColor_red rooted'' balanced redBeside hole'.of_red more
          | black =>
            obtain rfl := stays rfl
            rw [length_cons] at enough
            have rest := ih rooted'' (balanced.joinBlack redBeside) hole' (by omega)
            rw [rootPtr_join] at rest
            exact rest
        · rw [same] at result
          exact ⟨heap', done, result⟩

end LinuxKernel.Lib.Rbtree
