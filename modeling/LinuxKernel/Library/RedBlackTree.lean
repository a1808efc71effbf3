/-
Module: LinuxKernel.Library.RedBlackTree
Purpose: Red-black trees as values, with the balance invariant by root colour and black height, the
  contexts in which a subtree stands and what such a context asks of it, and constructors that say on
  which side of a node a subtree is, so that mirrored cases are one case.
Trusted boundary: none
Main exports: ColorTree, plug, RedBlack, Hole, Hole.fill, RedBlack.unplug
-/
import Mathlib

namespace LinuxKernel.Library

open List

inductive Color where
  | red
  | black
deriving DecidableEq, Repr

inductive Side where
  | left
  | right
deriving DecidableEq, Repr

/-- The opposite side. -/
def Side.other : Side → Side
  | .left => .right
  | .right => .left

@[simp] theorem Side.other_other (side : Side) : side.other.other = side := by cases side <;> rfl

@[simp] theorem Side.other_ne (side : Side) : side.other ≠ side := by cases side <;> decide

theorem Side.eq_or_other (side other : Side) : other = side ∨ other = side.other := by
  cases side <;> cases other <;> decide

inductive ColorTree (Label : Type*) where
  | nil
  | node (color : Color) (left : ColorTree Label) (label : Label) (right : ColorTree Label)

/-- A node with the subtree `near` on the given side and `far` on the other one. -/
def ColorTree.join {Label : Type*} (side : Side) (color : Color) (label : Label)
    (near far : ColorTree Label) :
    ColorTree Label :=
  match side with
  | .left => .node color near label far
  | .right => .node color far label near

/-- A node above a subtree: the side on which the subtree is, and what else the node has. -/
structure Frame (Label : Type*) where
  side : Side
  color : Color
  label : Label
  sibling : ColorTree Label

variable {Label : Type*} {tree near far : ColorTree Label} {context rest : List (Frame Label)}
  {color : Color} {height : Nat} {label : Label}

/-- The whole tree around a subtree; the first frame is the nearest node above it. -/
def plug : List (Frame Label) → ColorTree Label → ColorTree Label
  | [], tree => tree
  | frame :: rest, tree => plug rest (.join frame.side frame.color frame.label tree frame.sibling)

/-- The labels in order. -/
def ColorTree.toList : ColorTree Label → List Label
  | .nil => []
  | .node _ left label right => left.toList ++ label :: right.toList

theorem join_other (side : Side) (color : Color) (label : Label) (near far : ColorTree Label) :
    ColorTree.join side.other color label far near = ColorTree.join side color label near far := by
  cases side <;> rfl

/-- Every node can be seen from either side. -/
theorem exists_join (side : Side) {left right : ColorTree Label} :
    ∃ near far, ColorTree.node color left label right = ColorTree.join side color label near far := by
  cases side with
  | left => exact ⟨left, right, rfl⟩
  | right => exact ⟨right, left, rfl⟩

/-- The same context seen from the sibling. -/
theorem plug_sibling (side : Side) (color : Color) (label : Label) (near far : ColorTree Label) :
    plug (⟨side, color, label, far⟩ :: rest) near = plug (⟨side.other, color, label, near⟩ :: rest) far := by
  rw [plug, plug, join_other]

theorem plug_append (inner outer : List (Frame Label)) (tree : ColorTree Label) :
    plug (inner ++ outer) tree = plug outer (plug inner tree) := by
  induction inner generalizing tree with
  | nil => rfl
  | cons frame inner ih => exact ih _

/-! ### Labels -/

/-- The labels of a context. -/
def contextLabels : List (Frame Label) → List Label
  | [] => []
  | frame :: rest => frame.label :: (frame.sibling.toList ++ contextLabels rest)

theorem join_perm (side : Side) (color : Color) (label : Label) (near far : ColorTree Label) :
    (ColorTree.join side color label near far).toList.Perm (near.toList ++ label :: far.toList) := by
  cases side with
  | left => exact .refl _
  | right =>
    refine perm_append_comm.trans ?_
    exact perm_middle.symm

theorem plug_perm (context : List (Frame Label)) (tree : ColorTree Label) :
    (plug context tree).toList.Perm (tree.toList ++ contextLabels context) := by
  induction context generalizing tree with
  | nil => simp [plug, contextLabels]
  | cons frame rest ih =>
    refine (ih _).trans ?_
    rw [contextLabels, ← cons_append, ← append_assoc]
    exact (join_perm _ _ _ _ _).append_right _

/-- The labels before and after the hole of a context. -/
def around : List (Frame Label) → List Label × List Label
  | [] => ([], [])
  | frame :: rest =>
    match frame.side with
    | .left => ((around rest).1, frame.label :: (frame.sibling.toList ++ (around rest).2))
    | .right => ((around rest).1 ++ (frame.sibling.toList ++ [frame.label]), (around rest).2)

theorem plug_toList (context : List (Frame Label)) (tree : ColorTree Label) :
    (plug context tree).toList = (around context).1 ++ (tree.toList ++ (around context).2) := by
  induction context generalizing tree with
  | nil => simp [plug, around]
  | cons frame rest ih =>
    obtain ⟨side, color, label, sibling⟩ := frame
    rw [plug, ih]
    cases side <;> simp [around, ColorTree.join, ColorTree.toList]

/-- The same tree with other labels. -/
def ColorTree.map {Label' : Type*} (rename : Label → Label') : ColorTree Label → ColorTree Label'
  | .nil => .nil
  | .node color left label right => .node color (left.map rename) (rename label) (right.map rename)

variable {Label' : Type*} {rename : Label → Label} {side : Side} {color' : Color}

theorem toList_map (rename : Label → Label') (tree : ColorTree Label) :
    (tree.map rename).toList = tree.toList.map rename := by
  induction tree with
  | nil => rfl
  | node color left label right leftHypothesis rightHypothesis =>
    rw [ColorTree.map, ColorTree.toList, leftHypothesis, rightHypothesis, ColorTree.toList,
      map_append, map_cons]

theorem map_fixed (fixed : ∀ label ∈ tree.toList, rename label = label) : tree.map rename = tree := by
  induction tree with
  | nil => rfl
  | node color left label right leftHypothesis rightHypothesis =>
    have below (other : Label) (mem : other ∈ left.toList ∨ other = label ∨ other ∈ right.toList) :
        rename other = other := by
      refine fixed other ?_
      rwa [ColorTree.toList, mem_append, mem_cons]
    rw [ColorTree.map, below label (.inr (.inl rfl)), leftHypothesis fun other mem => below other (.inl mem),
      rightHypothesis fun other mem => below other (.inr (.inr mem))]

theorem map_join (rename : Label → Label') (side : Side) (color : Color) (label : Label)
    (near far : ColorTree Label) : (ColorTree.join side color label near far).map rename =
      .join side color (rename label) (near.map rename) (far.map rename) := by
  cases side <;> rfl

/-- Labels changed below the hole only. -/
theorem map_plug (fixed : ∀ label ∈ contextLabels context, rename label = label) :
    (plug context tree).map rename = plug context (tree.map rename) := by
  induction context generalizing tree with
  | nil => rfl
  | cons frame rest ih =>
    have outer (other : Label) (mem : other ∈ contextLabels rest) : rename other = other :=
      fixed other (mem_cons_of_mem _ (mem_append_right _ mem))
    have beside (other : Label) (mem : other ∈ frame.sibling.toList) : rename other = other :=
      fixed other (mem_cons_of_mem _ (mem_append_left _ mem))
    rw [plug, ih outer, map_join, map_fixed beside, fixed _ mem_cons_self, plug]

/-- Replacing a subtree by one with the same labels keeps the labels of the whole tree. -/
theorem plug_toList_congr {tree' : ColorTree Label} (same : tree'.toList = tree.toList) :
    (plug context tree').toList = (plug context tree).toList := by
  rw [plug_toList, plug_toList, same]

/-- Colours do not matter for the order, and equal parts can be replaced. -/
theorem toList_join_congr {near' far' : ColorTree Label} (sameNear : near'.toList = near.toList)
    (sameFar : far'.toList = far.toList) :
    (ColorTree.join side color' label near' far').toList =
      (ColorTree.join side color label near far).toList := by
  cases side <;> simp [ColorTree.join, ColorTree.toList, sameNear, sameFar]

/-- A rotation keeps the order. -/
theorem toList_rotate (side : Side) (color color' color₁ color₁' : Color) (label label' : Label)
    (near middle far : ColorTree Label) :
    (ColorTree.join side color₁' label' (ColorTree.join side color₁ label near middle) far).toList =
      (ColorTree.join side color label near (ColorTree.join side color' label' middle far)).toList := by
  cases side <;> simp [ColorTree.join, ColorTree.toList]

/-! ### The balance invariant -/

/-- A red-black tree with the colour of its root and its black height: no red node has a red child,
and all paths down from a node pass the same number of black nodes. -/
inductive RedBlack : ColorTree Label → Color → Nat → Prop where
  | nil : RedBlack .nil .black 0
  | red {left right : ColorTree Label} {label : Label} {height : Nat} (below : RedBlack left .black height)
      (below' : RedBlack right .black height) : RedBlack (.node .red left label right) .red height
  | black {left right : ColorTree Label} {label : Label} {height : Nat} {color color' : Color}
      (below : RedBlack left color height) (below' : RedBlack right color' height) :
      RedBlack (.node .black left label right) .black (height + 1)

/-- The context makes a tree with a black root of every red-black tree with a root of this colour and
this black height. -/
inductive Hole : List (Frame Label) → Color → Nat → Prop where
  | root {height : Nat} : Hole [] .black height
  | red {side : Side} {label : Label} {sibling : ColorTree Label} {rest : List (Frame Label)} {height : Nat}
      (beside : RedBlack sibling .black height) (above : Hole rest .red height) :
      Hole (⟨side, .red, label, sibling⟩ :: rest) .black height
  | black {side : Side} {label : Label} {sibling : ColorTree Label} {rest : List (Frame Label)} {height : Nat}
      {color color' : Color} (beside : RedBlack sibling color' height)
      (above : Hole rest .black (height + 1)) :
      Hole (⟨side, .black, label, sibling⟩ :: rest) color height

theorem RedBlack.map (balanced : RedBlack tree color height) (rename : Label → Label') :
    RedBlack (tree.map rename) color height := by
  induction balanced with
  | nil => exact .nil
  | red _ _ leftHypothesis rightHypothesis => exact .red leftHypothesis rightHypothesis
  | black _ _ leftHypothesis rightHypothesis => exact .black leftHypothesis rightHypothesis

theorem RedBlack.joinRed (below : RedBlack near .black height)
    (below' : RedBlack far .black height) : RedBlack (.join side .red label near far) .red height := by
  cases side with
  | left => exact .red below below'
  | right => exact .red below' below

theorem RedBlack.joinBlack (below : RedBlack near color height) (below' : RedBlack far color' height) :
    RedBlack (.join side .black label near far) .black (height + 1) := by
  cases side with
  | left => exact .black below below'
  | right => exact .black below' below

/-- The subtrees of a red node. -/
theorem RedBlack.red_inv (whole : RedBlack (.join side .red label near far) color height) :
    color = .red ∧ RedBlack near .black height ∧ RedBlack far .black height := by
  cases side with
  | left =>
    cases whole with
    | red below below' => exact ⟨rfl, below, below'⟩
  | right =>
    cases whole with
    | red below below' => exact ⟨rfl, below', below⟩

/-- The subtrees of a black node. -/
theorem RedBlack.black_inv (whole : RedBlack (.join side .black label near far) color height) :
    ∃ less color₁ color₂, color = .black ∧ height = less + 1 ∧ RedBlack near color₁ less ∧
      RedBlack far color₂ less := by
  cases side with
  | left =>
    cases whole with
    | black below below' => exact ⟨_, _, _, rfl, rfl, below, below'⟩
  | right =>
    cases whole with
    | black below below' => exact ⟨_, _, _, rfl, rfl, below', below⟩

/-- A tree with a red root is a node with subtrees that have black roots. -/
theorem RedBlack.exists_red (whole : RedBlack tree .red height) (side : Side) :
    ∃ label near far, tree = .join side .red label near far ∧ RedBlack near .black height ∧
      RedBlack far .black height := by
  cases whole with
  | @red left right label _ below below' =>
    cases side with
    | left => exact ⟨label, left, right, rfl, below, below'⟩
    | right => exact ⟨label, right, left, rfl, below', below⟩

/-- A tree with a black root and some height is a node. -/
theorem RedBlack.exists_black (whole : RedBlack tree .black (height + 1)) (side : Side) :
    ∃ label near far color₁ color₂, tree = .join side .black label near far ∧
      RedBlack near color₁ height ∧ RedBlack far color₂ height := by
  cases whole with
  | @black left right label _ color₁ color₂ below below' =>
    cases side with
    | left => exact ⟨label, left, right, color₁, color₂, rfl, below, below'⟩
    | right => exact ⟨label, right, left, color₂, color₁, rfl, below', below⟩

/-- The black height that a node of the colour has over its subtrees. -/
def heightAbove (height : Nat) : Color → Nat
  | .red => height
  | .black => height + 1

/-- A node with black subtrees may have either colour. -/
theorem RedBlack.joinAny (below : RedBlack near .black height) (below' : RedBlack far .black height)
    (color : Color) : RedBlack (.join side color label near far) color (heightAbove height color) := by
  cases color with
  | red => exact below.joinRed below'
  | black => exact below.joinBlack below'

theorem Hole.fill (hole : Hole context color height) (below : RedBlack tree color height) :
    ∃ total, RedBlack (plug context tree) .black total := by
  induction hole generalizing tree with
  | root => exact ⟨_, below⟩
  | red beside above ih => exact ih (below.joinRed beside)
  | black beside above ih => exact ih (below.joinBlack beside)

/-- Where a red root may stand, a black one may stand. -/
theorem Hole.of_red (hole : Hole context .red height) : Hole context .black height := by
  cases hole with
  | black beside above => exact .black beside above

/-- A hole does not depend on the labels around it. -/
theorem Hole.relabel {path : List (Frame Label)} {sibling : ColorTree Label} {label' : Label}
    (hole : Hole (path ++ ⟨side, color, label, sibling⟩ :: rest) color' height) :
    Hole (path ++ ⟨side, color, label', sibling⟩ :: rest) color' height := by
  induction path generalizing color' height with
  | nil =>
    cases hole with
    | red beside above => exact .red beside above
    | black beside above => exact .black beside above
  | cons frame path ih =>
    cases hole with
    | red beside above => exact .red beside (ih above)
    | black beside above => exact .black beside (ih above)

/-- A subtree of a red-black tree is one, and stands where its like may stand. -/
theorem RedBlack.unplug {total : Nat} (whole : RedBlack (plug context tree) .black total) :
    ∃ color height, RedBlack tree color height ∧ Hole context color height := by
  induction context generalizing tree with
  | nil => exact ⟨.black, total, whole, .root⟩
  | cons frame rest ih =>
    obtain ⟨side, color, label, sibling⟩ := frame
    obtain ⟨color', height, joined, above⟩ := ih whole
    cases color with
    | red =>
      obtain ⟨rfl, below, beside⟩ := joined.red_inv
      exact ⟨.black, height, below, .red beside above⟩
    | black =>
      obtain ⟨less, color₁, color₂, rfl, rfl, below, beside⟩ := joined.black_inv
      exact ⟨color₁, less, below, .black beside above⟩

end LinuxKernel.Library
