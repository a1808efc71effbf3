/-
Module: LinuxKernel.Proofs.RadixTreeInsert
Purpose: Growing and shrinking a radix tree keep the invariant of the root, also when the allocation of a
  node fails on the way. `radix_tree_insert` binds the index when it was free and memory lasts, and in every
  other case changes nothing a lookup or a tag can see.
Trusted boundary: none
Main exports: RootOk, radixTreeExtend_spec, radixTreeShrink_spec, radixTreeInsert_spec
-/
import LinuxKernel.Lib.RadixTree

namespace LinuxKernel.Lib.RadixTree

open Library Nat Bool Function

variable {Item : Type} {root root' lower upper : Root Item} {node : Node (Slot Item)} {mem mem' : Memory Item}

/-! ### What a root holds -/

/-- What the tree holds at an index. -/
def Root.get (root : Root Item) (index : Nat) : Slot Item :=
  if index < 64 ^ root.height then lookupLoop index root.height root.rnode else .null

/-- Whether the item at an index carries the tag. An item in the root itself has its tags there. -/
def Root.tagged (root : Root Item) (tag : Tag) (index : Nat) : Bool :=
  if root.height = 0 then root.tags tag && decide (index = 0)
  else decide (index < 64 ^ root.height) && leafTag index tag root.height root.rnode

/-- The root between two calls. -/
structure RootOk (root : Root Item) : Prop where
  height_le : root.height ≤ maxPath
  shape : Shape root.height root.rnode
  direct_tags : root.height = 0 → ∀ tag, root.tags tag = true → root.rnode.isNull = false
  node_tags : root.height ≠ 0 → ∀ tag, root.tags tag = slotTag tag root.rnode

/-- The two roots hold the same items with the same tags. -/
structure SameMap (root root' : Root Item) : Prop where
  get : ∀ index, root'.get index = root.get index
  tagged : ∀ tag index, root'.tagged tag index = root.tagged tag index
  wait : root'.wait = root.wait

theorem SameMap.refl (root : Root Item) : SameMap root root := ⟨fun _ => rfl, fun _ _ => rfl, rfl⟩

theorem SameMap.trans {middle : Root Item} (first : SameMap root middle)
    (second : SameMap middle root') : SameMap root root' where
  get index := (second.get index).trans (first.get index)
  tagged tag index := (second.tagged tag index).trans (first.tagged tag index)
  wait := second.wait.trans first.wait

variable {index left : Nat} {extended : Bool}

/-- Below the greatest index of its height, the tree is searched. -/
theorem RootOk.get_eq (rootOk : RootOk root) (bounded : index < 2 ^ indexBits) : root.get index =
      if index > radixTreeMaxindex root.height then .null
      else lookupLoop index root.height root.rnode := by
  have within := le_maxindex_iff rootOk.height_le bounded
  rw [Root.get]
  by_cases small : index < 64 ^ root.height
  · rw [if_pos small, if_neg (not_lt.mpr (within.mpr small))]
  · rw [if_neg small, if_pos (Nat.lt_of_not_le fun le => small (within.mp le))]

theorem RootOk.tags_of_null (rootOk : RootOk root) (empty : root.rnode.isNull = true) (tag : Tag) :
    root.tags tag = false := by
  by_cases direct : root.height = 0
  · rw [← not_eq_true]
    intro set
    rw [rootOk.direct_tags direct tag set] at empty
    cases empty
  · rw [rootOk.node_tags direct, isNull_iff.mp empty, slotTag_null]

/-- An item in the root is the whole tree. -/
theorem RootOk.height_of_item {value : Item} (rootOk : RootOk root)
    (top : root.rnode = .item value) : root.height = 0 := by
  have shape := rootOk.shape
  rw [top] at shape
  cases level : root.height with
  | zero => rfl
  | succ height => rw [level] at shape; exact shape.elim

theorem RootOk.node_of_top (rootOk : RootOk root) (top : root.rnode = .node node) :
    ∃ height, root.height = height + 1 ∧ NodeShape height (Shape height) node := by
  have shape := rootOk.shape
  rw [top] at shape
  cases level : root.height with
  | zero => rw [level] at shape; exact shape.elim
  | succ height => rw [level] at shape; exact ⟨height, rfl, shape⟩

/-! ### One level more or less -/

/-- `upper` is `lower` under one more node, which has nothing else in it. -/
structure Lifted (lower upper : Root Item) (node : Node (Slot Item)) : Prop where
  upper_height : upper.height = lower.height + 1
  upper_rnode : upper.rnode = .node node
  upper_tags : upper.tags = lower.tags
  upper_wait : upper.wait = lower.wait
  lower_used : lower.rnode.isNull = false
  node_height : node.height = lower.height + 1
  node_count : node.count = 1
  first_slot : node.slots 0 = lower.rnode
  other_slots : ∀ off < mapSize, off ≠ 0 → node.slots off = .null
  first_tag : ∀ tag, node.tags tag 0 = lower.tags tag
  other_tags : ∀ tag, ∀ off < mapSize, off ≠ 0 → node.tags tag off = false

section Lifted

variable (lifted : Lifted lower upper node)

include lifted

theorem Lifted.get_eq (index : Nat) : upper.get index = lower.get index := by
  rw [Root.get, Root.get, lifted.upper_height, lifted.upper_rnode, lookupLoop_succ]
  by_cases above : index < 64 ^ (lower.height + 1)
  · have zero : digit 64 lower.height index = 0 ↔ index < 64 ^ lower.height :=
      digit_eq_zero_iff (by decide) above
    rw [if_pos above]
    split_ifs with below
    · rw [zero.mpr below, lifted.first_slot]
    · rw [lifted.other_slots _ (digit_lt_mapSize ..) fun first => below (zero.mp first),
        lookupLoop_null]
  · have below : ¬ index < 64 ^ lower.height := fun small =>
      above (Nat.lt_of_lt_of_le small (Nat.pow_le_pow_right (by decide) (Nat.le_succ _)))
    rw [if_neg above, if_neg below]

/-- The tag of an index in the upper root, read in the entry of the added node. -/
theorem Lifted.tagged_eq (tag : Tag) (index : Nat) : upper.tagged tag index = lower.tagged tag index := by
  have notDirect : upper.height ≠ 0 := by rw [lifted.upper_height]; exact succ_ne_zero _
  rw [Root.tagged, Root.tagged, if_neg notDirect, lifted.upper_height, lifted.upper_rnode]
  by_cases above : index < 64 ^ (lower.height + 1)
  · have zero : digit 64 lower.height index = 0 ↔ index < 64 ^ lower.height :=
      digit_eq_zero_iff (by decide) above
    rw [decide_eq_true above, Bool.true_and]
    split_ifs with direct
    · rw [direct] at zero ⊢
      rw [leafTag_one]
      by_cases first : index = 0
      · rw [zero.mpr (by rw [first]; decide), lifted.first_tag, decide_eq_true first, Bool.and_true]
      · rw [decide_eq_false first, Bool.and_false]
        refine lifted.other_tags tag _ (digit_lt_mapSize ..) fun digitZero => first ?_
        simpa using zero.mp digitZero
    · rw [leafTag_succ _ _ _ direct]
      by_cases below : index < 64 ^ lower.height
      · rw [zero.mpr below, lifted.first_slot, decide_eq_true below, Bool.true_and]
      · rw [lifted.other_slots _ (digit_lt_mapSize ..) fun first => below (zero.mp first),
          leafTag_null, decide_eq_false below, Bool.false_and]
  · have below : ¬ index < 64 ^ lower.height := fun small =>
      above (Nat.lt_of_lt_of_le small (Nat.pow_le_pow_right (by decide) (Nat.le_succ _)))
    have later : index ≠ 0 := fun first => below (by rw [first]; exact Nat.pow_pos (by decide))
    rw [decide_eq_false above, decide_eq_false below, decide_eq_false later]
    simp

theorem Lifted.sameMap : SameMap lower upper :=
  ⟨lifted.get_eq, lifted.tagged_eq, lifted.upper_wait⟩

theorem Lifted.sameMap_symm : SameMap upper lower :=
  ⟨fun index => (lifted.get_eq index).symm, fun tag index => (lifted.tagged_eq tag index).symm,
    lifted.upper_wait.symm⟩

/-- The added node's aggregated tags are those of the root. -/
theorem Lifted.anyTagSet_eq (tag : Tag) : anyTagSet node tag = lower.tags tag := by
  cases set : lower.tags tag with
  | true => exact anyTagSet_iff.mpr ⟨0, by decide, (lifted.first_tag tag).trans set⟩
  | false =>
    refine anyTagSet_eq_false.mpr fun off small => ?_
    by_cases first : off = 0
    · rw [first, lifted.first_tag, set]
    · exact lifted.other_tags tag off small first

/-- Only the first entry of the added node is in use. -/
theorem Lifted.count_eq : node.count = countBelow (fun off => !(node.slots off).isNull) mapSize := by
  have moved := countBelow_update (fun _ => false) (fun off => !(node.slots off).isNull)
    (show 0 < mapSize by decide) fun off small other => by
      simp [lifted.other_slots off small other]
  have none : countBelow (fun _ => false) mapSize = 0 := countBelow_eq_zero.mpr fun _ _ => rfl
  rw [none, lifted.first_slot, lifted.lower_used] at moved
  rw [lifted.node_count]
  simpa using moved.symm

/-- Growing keeps the invariant. -/
theorem Lifted.rootOk_upper (rootOk : RootOk lower) (room : lower.height < maxPath) : RootOk upper := by
  have notDirect : upper.height ≠ 0 := by rw [lifted.upper_height]; exact succ_ne_zero _
  refine ⟨by rw [lifted.upper_height]; exact room, ?_, fun direct => absurd direct notDirect, ?_⟩
  · rw [lifted.upper_height, lifted.upper_rnode]
    refine ⟨lifted.node_height, lifted.count_eq, ?_, ?_, ?_⟩
    · intro off small
      by_cases first : off = 0
      · rw [first, lifted.first_slot]
        exact rootOk.shape
      · rw [lifted.other_slots off small first]
        exact shape_null _
    · intro _ tag off small set
      by_cases first : off = 0
      · rw [first, lifted.first_slot]
        exact lifted.lower_used
      · rw [lifted.other_tags tag off small first] at set
        cases set
    · intro inner tag off small
      by_cases first : off = 0
      · rw [first, lifted.first_tag, lifted.first_slot, rootOk.node_tags inner]
      · rw [lifted.other_tags tag off small first, lifted.other_slots off small first, slotTag_null]
  · intro _ tag
    rw [lifted.upper_tags, lifted.upper_rnode, slotTag_node, lifted.anyTagSet_eq]

/-- Shrinking keeps the invariant. -/
theorem Lifted.rootOk_lower (rootOk : RootOk upper) : RootOk lower := by
  have shape : NodeShape lower.height (Shape lower.height) node := by
    have upperShape := rootOk.shape
    rwa [lifted.upper_height, lifted.upper_rnode] at upperShape
  refine ⟨?_, ?_, fun _ _ _ => lifted.lower_used, ?_⟩
  · have bounded := rootOk.height_le
    rw [lifted.upper_height] at bounded
    exact le_of_succ_le bounded
  · rw [← lifted.first_slot]
    exact shape.children 0 (by decide)
  · intro inner tag
    rw [← lifted.first_tag, shape.inner_tags inner tag 0 (by decide), lifted.first_slot]

end Lifted

/-! ### `radix_tree_extend` -/

/-- Where the search for the height ends. -/
theorem extendHeight_spec {index left height : Nat} (bounded : index < 2 ^ indexBits)
    (enough : maxPath ≤ height + left) (heightLe : height ≤ maxPath) :
    height ≤ extendHeight index left height ∧ extendHeight index left height ≤ maxPath ∧
      index < 64 ^ extendHeight index left height ∧
      (extendHeight index left height = height ∨ 64 ^ (extendHeight index left height - 1) ≤ index) := by
  induction left generalizing height with
  | zero =>
    obtain rfl : height = maxPath := by omega
    have wide : 2 ^ indexBits ≤ 64 ^ maxPath := by decide
    exact ⟨le_refl _, le_refl _, lt_of_lt_of_le bounded wide, .inl rfl⟩
  | succ left ih =>
    have within := le_maxindex_iff heightLe bounded
    rw [extendHeight]
    split
    · next beyond =>
        have outside : 64 ^ height ≤ index := Nat.le_of_not_lt fun small =>
          Nat.not_le_of_lt beyond (within.mpr small)
        have lower : height < maxPath := lt_of_le_of_ne heightLe fun top => by
          rw [top] at outside
          exact absurd (lt_of_lt_of_le bounded (by decide)) (not_lt.mpr outside)
        obtain ⟨grows, top, fits, tight⟩ :=
          ih (by omega) lower
        refine ⟨le_of_succ_le grows, top, fits, .inr ?_⟩
        rcases tight with same | tight
        · rw [same]
          exact outside
        · exact tight
    · next inside =>
        exact ⟨Nat.le_refl _, heightLe, within.mp (Nat.le_of_not_lt inside), .inl rfl⟩

/-- One round of the loop puts a node on top. -/
theorem lifted_of_clean (clean : Clean node) (used : root.rnode.isNull = false) : Lifted root
      { root with rnode := .node (extendNode root node), height := root.height + 1 }
      (extendNode root node) where
  upper_height := rfl
  upper_rnode := rfl
  upper_tags := rfl
  upper_wait := rfl
  lower_used := used
  node_height := rfl
  node_count := rfl
  first_slot := by simp only [extendNode, update_self]
  other_slots off small other := by
    simp only [extendNode, update_of_ne other, clean.slots_null off small]
  first_tag tag := by
    cases set : root.tags tag <;> simp [extendNode, set, clean.tags_clear tag 0 (by decide)]
  other_tags tag off small other := by
    cases set : root.tags tag <;> simp [extendNode, set, update_of_ne other, clean.tags_clear tag off small]

section

variable (rootOk : RootOk root)

include rootOk

/-- The loop grows the tree by as many levels as it is asked to, or stops early without memory. -/
theorem extendLoop_spec (memory : MemoryOk mem)
    (used : root.rnode.isNull = false) (room : root.height + left ≤ maxPath)
    (result : extendLoop left root mem = (extended, root', mem')) :
    RootOk root' ∧ MemoryOk mem' ∧ SameMap root root' ∧
      (extended = true → root'.height = root.height + left) := by
  induction left generalizing root mem with
  | zero =>
    cases result
    exact ⟨rootOk, memory, .refl _, fun _ => rfl⟩
  | succ left ih =>
    rw [extendLoop] at result
    rcases alloc : radixTreeNodeAlloc root.wait mem with ⟨node?, mem₁⟩
    obtain ⟨memory₁, clean⟩ := radixTreeNodeAlloc_ok memory alloc
    rw [alloc] at result
    cases node? with
    | none =>
      cases result
      exact ⟨rootOk, memory₁, .refl _, by simp⟩
    | some node =>
      have lifted := lifted_of_clean (clean node rfl) used
      have grown := lifted.rootOk_upper rootOk (by omega)
      obtain ⟨rootOk', memory', same, height⟩ :=
        ih grown memory₁ rfl (by dsimp only; omega) result
      refine ⟨rootOk', memory', lifted.sameMap.trans same, fun success => ?_⟩
      rw [height success]
      exact (add_assoc ..).trans (congrArg _ (add_comm ..))

/-- An empty tree of another height. -/
theorem RootOk.resize_null (empty : root.rnode.isNull = true) {height : Nat}
    (pos : height ≠ 0) (heightLe : height ≤ maxPath) :
    RootOk { root with height } ∧ SameMap root { root with height } := by
  have null := isNull_iff.mp empty
  refine ⟨⟨heightLe, ?_, fun direct => absurd direct pos, ?_⟩, ?_, ?_, rfl⟩
  · rw [null]
    exact shape_null _
  · intro _ tag
    exact (rootOk.tags_of_null empty tag).trans (by rw [null, slotTag_null])
  · intro index
    simp only [Root.get, null, lookupLoop_null, ite_self]
  · intro tag index
    simp only [Root.tagged, null, leafTag_null, Bool.and_false,
      rootOk.tags_of_null empty, Bool.false_and, ite_self]

/-- `radix_tree_extend` keeps what the tree holds and, when it succeeds, makes room for the
index. -/
theorem radixTreeExtend_spec (memory : MemoryOk mem)
    (bounded : index < 2 ^ indexBits) (beyond : index > radixTreeMaxindex root.height)
    (result : radixTreeExtend root index mem = (extended, root', mem')) :
    RootOk root' ∧ MemoryOk mem' ∧ SameMap root root' ∧ (extended = true → index < 64 ^ root'.height) := by
  have lower : root.height < maxPath := by
    refine lt_of_le_of_ne rootOk.height_le fun top => ?_
    have within := (le_maxindex_iff rootOk.height_le bounded).mpr
      (by rw [top]; exact lt_of_lt_of_le bounded (by decide))
    exact Nat.not_le_of_lt beyond within
  obtain ⟨grows, top, fits, _⟩ := @extendHeight_spec _ maxPath (root.height + 1) bounded (by omega) lower
  unfold radixTreeExtend at result
  by_cases empty : root.rnode.isNull = true
  · rw [if_pos empty] at result
    cases result
    obtain ⟨rootOk', same⟩ := rootOk.resize_null empty (by omega) top
    exact ⟨rootOk', memory, same, fun _ => fits⟩
  · rw [if_neg empty] at result
    obtain ⟨rootOk', memory', same, height⟩ := extendLoop_spec rootOk memory
      (eq_false_iff.mpr empty) (by omega) result
    refine ⟨rootOk', memory', same, fun success => ?_⟩
    rw [height success, Nat.add_sub_cancel' (by omega)]
    exact fits

/-! ### `radix_tree_shrink` -/

/-- A top node with its only child in the first entry can be taken off. -/
theorem lifted_of_single (top : root.rnode = .node node)
    (single : node.count = 1) (first : (node.slots 0).isNull = false) :
    Lifted { root with rnode := node.slots 0, height := root.height - 1 } root node := by
  obtain ⟨height, rootHeight, shape⟩ := rootOk.node_of_top top
  have others : ∀ off < mapSize, off ≠ 0 → node.slots off = .null := by
    intro off small other
    have unused := countBelow_eq_one (shape.count_eq.symm.trans single) (by decide)
      (by simp [first]) off small other
    exact isNull_iff.mp (by simpa using unused)
  have otherTags : ∀ tag, ∀ off < mapSize, off ≠ 0 → node.tags tag off = false := by
    intro tag off small other
    by_cases bottom : height = 0
    · rw [← not_eq_true]
      intro set
      have used := shape.leaf_tags bottom tag off small set
      rw [others off small other] at used
      cases used
    · rw [shape.inner_tags bottom tag off small, others off small other, slotTag_null]
  refine ⟨by simp only [rootHeight, Nat.add_sub_cancel], top, rfl, rfl, first, ?_, single, rfl,
    others, ?_, otherTags⟩
  · simp only [rootHeight, Nat.add_sub_cancel, shape.height_eq]
  · intro tag
    show node.tags tag 0 = root.tags tag
    rw [rootOk.node_tags (by rw [rootHeight]; exact succ_ne_zero _), top]
    cases set : node.tags tag 0 with
    | true => exact (anyTagSet_iff.mpr ⟨0, by decide, set⟩).symm
    | false =>
      refine (anyTagSet_eq_false.mpr fun off small => ?_).symm
      by_cases zero : off = 0
      · rw [zero, set]
      · exact otherTags tag off small zero

/-- `radix_tree_shrink` never meets its `BUG_ON`, keeps what the tree holds and frees clean
nodes. -/
theorem radixTreeShrink_spec (memory : MemoryOk mem)
    (used : root.rnode.isNull = false) (height : root.height = left) :
    ∃ root' mem', radixTreeShrink left root mem = some (root', mem') ∧ RootOk root' ∧
      MemoryOk mem' ∧ SameMap root root' := by
  induction left generalizing root mem with
  | zero => exact ⟨root, mem, rfl, rootOk, memory, .refl root⟩
  | succ left ih =>
    have shape := rootOk.shape
    rw [height] at shape
    cases top : root.rnode with
    | null => rw [top] at used; cases used
    | item value => rw [top] at shape; exact shape.elim
    | node node =>
      rw [radixTreeShrink, top]
      dsimp only
      by_cases single : node.count = 1
      · rw [if_neg (fun other => other single)]
        split_ifs with first
        · exact ⟨root, mem, rfl, rootOk, memory, .refl root⟩
        · have lifted := lifted_of_single rootOk top single (eq_false_iff.mpr first)
          obtain ⟨root', mem', result, rootOk', memory', same⟩ :=
            ih (lifted.rootOk_lower rootOk) (memory.free lifted.other_slots lifted.other_tags)
              (eq_false_iff.mpr first) (by simp only [height, Nat.add_sub_cancel])
          exact ⟨root', mem', result, rootOk', memory', lifted.sameMap_symm.trans same⟩
      · rw [if_pos single]
        exact ⟨root, mem, rfl, rootOk, memory, .refl root⟩

end

variable {wait : Bool} {height : Nat} {item : Item} {ret : InsertRet} {slot slot' child : Slot Item}

/-- What an insertion returns and does to what can be read, when the read positions that are the
index are those in `Hit`. -/
inductive InsertOutcome (Hit : Nat → Prop) (index : Nat) (item : Item)
    (before after : Nat → Slot Item) : InsertRet → Prop
  | ok (free : before index = .null) (bound : ∀ position, Hit position →
        after position = .item item)
      (others : ∀ position, ¬ Hit position → after position = before position) :
      InsertOutcome Hit index item before after .ok
  | exists (bound : before index ≠ .null) (same : ∀ position, after position = before position) :
      InsertOutcome Hit index item before after .EEXIST
  | noMemory (free : before index = .null) (same : ∀ position, after position = before position) :
      InsertOutcome Hit index item before after .ENOMEM

/-- What the descent has done to a slot. -/
structure Inserted (index : Nat) (item : Item) (height : Nat) (slot : Slot Item) (ret : InsertRet)
    (slot' : Slot Item) : Prop where
  shape : Shape height slot'
  stays : slot.isNull = false → slot'.isNull = false
  aggregated : ∀ tag, slotTag tag slot' = slotTag tag slot
  tags : ∀ tag position, leafTag position tag height slot' = leafTag position tag height slot
  outcome : InsertOutcome (fun position => position % 64 ^ height = index % 64 ^ height) index item
    (lookupLoop · height slot) (lookupLoop · height slot') ret

/-- Nothing was done for want of memory. -/
theorem Inserted.noMemory (shape : Shape height slot) (free : lookupLoop index height slot = .null) :
    Inserted index item height slot .ENOMEM slot :=
  ⟨shape, id, fun _ => rfl, fun _ _ => rfl, .noMemory free fun _ => rfl⟩

/-- The outcome in a node is that in the child the index leads to. -/
theorem InsertOutcome.lift {node' : Node (Slot Item)}
    (slots : node'.slots = Function.update node.slots (digit 64 height index) child)
    (outcome : InsertOutcome (fun key => key % 64 ^ height = index % 64 ^ height) index
      item (lookupLoop · height (node.slots (digit 64 height index))) (lookupLoop · height child)
      ret) :
    InsertOutcome (fun key => key % 64 ^ (height + 1) = index % 64 ^ (height + 1)) index
      item (lookupLoop · (height + 1) (.node node)) (lookupLoop · (height + 1) (.node node'))
      ret := by
  cases outcome with
  | ok free bound others =>
    have written : ∀ key, lookupLoop key (height + 1) (.node node') =
        if key % 64 ^ (height + 1) = index % 64 ^ (height + 1) then .item item
        else lookupLoop key (height + 1) (.node node) := by
      intro key
      refine lookupLoop_overwrite slots fun key => ?_
      split
      · next hit => exact bound key hit
      · next miss => exact others key miss
    refine .ok ?_ ?_ ?_
    · rw [lookupLoop_succ]
      exact free
    · intro key hit
      rw [written, if_pos hit]
    · intro key miss
      rw [written, if_neg miss]
  | «exists» bound same =>
    refine .exists ?_ fun key => lookupLoop_unchanged slots same
    rw [lookupLoop_succ]
    exact bound
  | noMemory free same =>
    refine .noMemory ?_ fun key => lookupLoop_unchanged slots same
    rw [lookupLoop_succ]
    exact free

/-- The descent through a node. -/
theorem Inserted.link (shape : NodeShape height (Shape height) node)
    (inserted : Inserted index item height (node.slots (digit 64 height index)) ret child) :
    Inserted index item (height + 1) (.node node) ret (.node (node.link (digit 64 height index) child)) := by
  have offLt := digit_lt_mapSize height index
  refine ⟨?_, fun _ => rfl, fun _ => rfl, ?_, inserted.outcome.lift rfl⟩
  · refine shape.replace offLt rfl rfl inserted.shape ?_ ?_ ?_ fun _ _ _ _ => rfl
    · have stays := inserted.stays
      revert stays
      unfold Node.link
      cases (node.slots (digit 64 height index)).isNull <;> cases child.isNull <;> simp
    · intro bottom tag set
      exact inserted.stays (shape.leaf_tags bottom tag _ offLt set)
    · intro inner tag
      exact (shape.inner_tags inner tag _ offLt).trans (inserted.aggregated tag).symm
  · intro tag key
    exact leafTag_unchanged rfl (fun _ => rfl) fun _ => inserted.tags tag

/-- The descent through a node that was just allocated. -/
theorem Inserted.of_clean (clean : Clean node)
    (inserted : Inserted index item (height + 1) (.node { node with height := height + 1 }) ret slot') :
    Inserted index item (height + 1) .null ret slot' := by
  have empty : ∀ key,
      lookupLoop key (height + 1) (.node { node with height := height + 1 }) = .null := by
    intro key
    rw [lookupLoop_succ]
    exact (congrArg _ (clean.slots_null _ (digit_lt_mapSize ..))).trans (lookupLoop_null ..)
  have untagged : ∀ tag, slotTag tag (.node { node with height := height + 1 }) = false :=
    fun tag => anyTagSet_eq_false.mpr (clean.tags_clear tag)
  refine ⟨inserted.shape, by simp, fun tag => ?_, fun tag key => ?_, ?_⟩
  · rw [inserted.aggregated, untagged, slotTag_null]
  · rw [inserted.tags, leafTag_of_slotTag (shape_succ_node.mpr (clean.nodeShape height)) (untagged tag),
      leafTag_null]
  · have outcome := inserted.outcome
    simp only [empty] at outcome
    simpa only [lookupLoop_null] using outcome

/-- One level of the descent, at a node. -/
theorem insertLoop_node (wait : Bool) (index : Nat) (item : Item) (height : Nat)
    (node : Node (Slot Item)) (mem : Memory Item) :
    insertLoop wait index item (height + 1) (.node node) mem =
      match insertLoop wait index item height (node.slots (digit 64 height index)) mem with
      | (ret, child, mem) =>
        (if height = 0 ∧ ret = .ok ∧
            (node.tags 0 (digit 64 height index) || node.tags 1 (digit 64 height index)) then
            .oops
          else ret,
          .node (node.link (digit 64 height index) child), mem) := by
  rw [← offset_succ]
  rfl

/-- One level of the descent, at an empty slot. -/
theorem insertLoop_null (wait : Bool) (index : Nat) (item : Item) (height : Nat) (mem : Memory Item) :
    insertLoop wait index item (height + 1) .null mem = match radixTreeNodeAlloc wait mem with
      | (none, mem) => (.ENOMEM, .null, mem)
      | (some node, mem) =>
        insertLoop wait index item (height + 1) (.node { node with height := height + 1 }) mem := by
  rw [insertLoop]
  rcases radixTreeNodeAlloc wait mem with ⟨_ | node, mem⟩ <;> rfl

/-- The descent at a node, from what it does in the child. -/
theorem insertLoop_node_spec (shape : NodeShape height (Shape height) node) (below : ∀ {ret child mem'},
      insertLoop wait index item height (node.slots (digit 64 height index)) mem = (ret, child, mem') →
      MemoryOk mem' ∧ Inserted index item height (node.slots (digit 64 height index)) ret child)
    (result : insertLoop wait index item (height + 1) (.node node) mem = (ret, slot', mem')) :
    MemoryOk mem' ∧ Inserted index item (height + 1) (.node node) ret slot' := by
  rw [insertLoop_node] at result
  obtain ⟨deeper, childResult⟩ : ∃ deeper,
      insertLoop wait index item height (node.slots (digit 64 height index)) mem = deeper :=
    ⟨_, rfl⟩
  obtain ⟨ret₁, child, mem₁⟩ := deeper
  obtain ⟨memory, inserted⟩ := below childResult
  rw [childResult] at result
  -- A free leaf entry carries no tag, so neither `BUG_ON` is met.
  have noBug : ¬ (height = 0 ∧ ret₁ = .ok ∧
      (node.tags 0 (digit 64 height index) || node.tags 1 (digit 64 height index)) = true) := by
    rintro ⟨rfl, rfl, set⟩
    cases inserted.outcome with
    | ok free =>
      have clear : ∀ tag, node.tags tag (digit 64 0 index) ≠ true := by
        intro tag tagged
        have used := shape.leaf_tags rfl tag _ (digit_lt_mapSize ..) tagged
        rw [show node.slots (digit 64 0 index) = .null from free] at used
        cases used
      simp [clear 0, clear 1] at set
  simp only [if_neg noBug] at result
  cases result
  exact ⟨memory, inserted.link shape⟩

/-- The descent of `radix_tree_insert`. -/
theorem insertLoop_spec (shape : Shape height slot) (memory : MemoryOk mem)
    (result : insertLoop wait index item height slot mem = (ret, slot', mem')) :
    MemoryOk mem' ∧ Inserted index item height slot ret slot' := by
  induction height generalizing slot mem ret slot' mem' with
  | zero =>
    cases slot with
    | null =>
      cases result
      refine ⟨memory, trivial, fun _ => rfl, fun _ => rfl, fun _ _ => rfl, .ok rfl ?_ ?_⟩
      · intro _ _
        rfl
      · intro key miss
        exact absurd (by simp [Nat.mod_one]) miss
    | item value =>
      cases result
      exact ⟨memory, trivial, fun _ => rfl, fun _ => rfl, fun _ _ => rfl,
        .exists (by simp [lookupLoop]) fun _ => rfl⟩
    | node node => exact shape.elim
  | succ height ih =>
    cases slot with
    | item value => exact shape.elim
    | node node =>
      exact insertLoop_node_spec shape (ih (shape.children _ (digit_lt_mapSize ..)) memory) result
    | null =>
      rw [insertLoop_null] at result
      rcases alloc : radixTreeNodeAlloc wait mem with ⟨node?, mem₁⟩
      obtain ⟨memory₁, clean⟩ := radixTreeNodeAlloc_ok memory alloc
      rw [alloc] at result
      cases node? with
      | none =>
        cases result
        exact ⟨memory₁, .noMemory trivial (lookupLoop_null ..)⟩
      | some node =>
        have fresh := (clean node rfl).nodeShape height
        obtain ⟨memory', inserted⟩ := insertLoop_node_spec fresh
          (ih (fresh.children _ (digit_lt_mapSize ..)) memory₁) result
        exact ⟨memory', inserted.of_clean (clean node rfl)⟩

/-! ### At the root -/

/-- Two sequences of reads that agree before and after have the same outcome. -/
theorem InsertOutcome.congr {Hit : Nat → Prop} {before before' after : Nat → Slot Item}
    (outcome : InsertOutcome Hit index item before after ret)
    (same : ∀ key, before key = before' key) :
    InsertOutcome Hit index item before' after ret := by
  obtain rfl : before = before' := funext same
  exact outcome

variable {rnode : Slot Item}

/-- What the descent did, seen from the root. -/
theorem InsertOutcome.atRoot (fits : index < 64 ^ root.height) (outcome : InsertOutcome
      (fun position => position % 64 ^ root.height = index % 64 ^ root.height) index item
      (lookupLoop · root.height root.rnode) (lookupLoop · root.height rnode) ret) :
    InsertOutcome (· = index) index item root.get ({ root with rnode } : Root Item).get ret := by
  have here : root.get index = lookupLoop index root.height root.rnode := if_pos fits
  have same (agree : ∀ position, lookupLoop position root.height rnode =
      lookupLoop position root.height root.rnode) (position : Nat) :
      ({ root with rnode } : Root Item).get position = root.get position := by
    simp only [Root.get, agree]
  cases outcome with
  | ok free bound others =>
    refine .ok (here.trans free) ?_ ?_
    · rintro _ rfl
      exact (if_pos fits).trans (bound _ rfl)
    · intro position other
      simp only [Root.get]
      split
      · next small =>
          refine others position fun hit => other ?_
          rwa [Nat.mod_eq_of_lt small, Nat.mod_eq_of_lt fits] at hit
      · rfl
  | «exists» bound agree => exact .exists (by rw [here]; exact bound) (same agree)
  | noMemory free agree => exact .noMemory (here.trans free) (same agree)

/-- The descent keeps the invariant of the root and its tags. -/
theorem Inserted.atRoot (rootOk : RootOk root)
    (inserted : Inserted index item root.height root.rnode ret rnode) :
    RootOk { root with rnode } ∧
      ∀ tag position, ({ root with rnode } : Root Item).tagged tag position =
        root.tagged tag position := by
  refine ⟨⟨rootOk.height_le, inserted.shape, ?_, ?_⟩, ?_⟩
  · intro direct tag set
    exact inserted.stays (rootOk.direct_tags direct tag set)
  · intro inner tag
    exact (rootOk.node_tags inner tag).trans (inserted.aggregated tag).symm
  · intro tag position
    simp only [Root.tagged, inserted.tags]

/-- What `radix_tree_insert` does in a tree that is high enough. -/
theorem insertDescent_spec (rootOk : RootOk root) (memory : MemoryOk mem) (fits : index < 64 ^ root.height)
    (result : insertLoop root.wait index item root.height root.rnode mem = (ret, rnode, mem')) :
    ¬ (root.height = 0 ∧ ret = .ok ∧ (root.tags 0 || root.tags 1) = true) ∧
      RootOk { root with rnode } ∧ MemoryOk mem' ∧
      (∀ tag key, ({ root with rnode } : Root Item).tagged tag key =
        root.tagged tag key) ∧
      InsertOutcome (· = index) index item root.get ({ root with rnode } : Root Item).get ret := by
  obtain ⟨memory', inserted⟩ := insertLoop_spec rootOk.shape memory result
  obtain ⟨rootOk', tags⟩ := inserted.atRoot rootOk
  refine ⟨?_, rootOk', memory', tags, inserted.outcome.atRoot fits⟩
  rintro ⟨direct, rfl, set⟩
  cases inserted.outcome with
  | ok free =>
    rw [direct] at free
    have empty : root.rnode.isNull = true := by
      rw [show root.rnode = .null from free]
      rfl
    simp [rootOk.tags_of_null empty] at set

theorem radixTreeInsert_spec (rootOk : RootOk root) (memory : MemoryOk mem) (bounded : index < 2 ^ indexBits)
    (result : radixTreeInsert root index item mem = (ret, root', mem')) :
    RootOk root' ∧ MemoryOk mem' ∧ root'.wait = root.wait ∧
      (∀ tag key, root'.tagged tag key = root.tagged tag key) ∧
      InsertOutcome (· = index) index item root.get root'.get ret := by
  unfold radixTreeInsert at result
  obtain ⟨extension, grows⟩ : ∃ extension,
      (if index > radixTreeMaxindex root.height then radixTreeExtend root index mem
        else (true, root, mem)) = extension := ⟨_, rfl⟩
  obtain ⟨extended, root₁, mem₁⟩ := extension
  rw [grows] at result
  have grown : RootOk root₁ ∧ MemoryOk mem₁ ∧ SameMap root root₁ ∧
      (extended = true → index < 64 ^ root₁.height) ∧
      (extended = false → root.get index = .null) := by
    split at grows
    · next beyond =>
        obtain ⟨rootOk₁, memory₁, same, fits⟩ :=
          radixTreeExtend_spec rootOk memory bounded beyond grows
        refine ⟨rootOk₁, memory₁, same, fits, fun _ => ?_⟩
        rw [rootOk.get_eq bounded, if_pos beyond]
    · next inside =>
        cases grows
        exact ⟨rootOk, memory, .refl root, fun _ => (le_maxindex_iff rootOk.height_le bounded).mp
          (Nat.le_of_not_lt inside), by simp⟩
  obtain ⟨rootOk₁, memory₁, same, fits, failed⟩ := grown
  cases extended with
  | false =>
    cases result
    exact ⟨rootOk₁, memory₁, same.wait, same.tagged, .noMemory (failed rfl) same.get⟩
  | true =>
    obtain ⟨descent, descends⟩ : ∃ descent,
        insertLoop root₁.wait index item root₁.height root₁.rnode mem₁ = descent := ⟨_, rfl⟩
    obtain ⟨noBug, rootOk₂, memory₂, tags, outcome⟩ :=
      insertDescent_spec rootOk₁ memory₁ (fits rfl) descends
    simp only [descends, if_neg noBug] at result
    cases result
    exact ⟨rootOk₂, memory₂, same.wait,
      fun tag key => (tags tag key).trans (same.tagged tag key),
      outcome.congr same.get⟩

end LinuxKernel.Lib.RadixTree
