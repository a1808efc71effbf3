/-
Module: LinuxKernel.Proofs.PrioTree
Purpose: The invariant of the priority search tree: a heap by `heap_index`, and every node where the bits of
  its `radix_index` and then of its size lead. `prio_tree_remove`, `prio_tree_expand` and
  `prio_tree_insert` keep it, take out or add just their node, and reach no `BUG`.
Trusted boundary: none
Main exports: TreeAt, Invariant, prioTreeRemove_spec, prioTreeInsert_new
-/
import LinuxKernel.Lib.PrioTree

namespace LinuxKernel.Lib.PrioTree

open Library Function List Nat

/-! ### Keys -/

/-- The order of the heap: larger `heap_index` first, then smaller `radix_index`. -/
def Interval.Above (high low : Interval) : Prop :=
  low.heapIndex < high.heapIndex ∨ (low.heapIndex = high.heapIndex ∧ high.radixIndex < low.radixIndex)

/-- The bit that decides at a level: first the bits of `radix_index`, then those of the size. -/
def bitAt (bits level : Nat) : Nat :=
  if level < bits then bits - 1 - level else 63 - (level - bits) % 64

/-- The side that a key takes at a level. -/
def digit (bits level : Nat) (key : Interval) : Bool :=
  (if level < bits then key.radixIndex else key.heapIndex - key.radixIndex).testBit (bitAt bits level)

variable {a b c : Interval} {bits level : Nat}

theorem Interval.Above.trans (first : a.Above b) (second : b.Above c) : a.Above c := by
  unfold Interval.Above at *
  omega

theorem Interval.Above.irrefl : ¬ a.Above a := by
  unfold Interval.Above
  omega

theorem Interval.Above.heap_le (above : a.Above b) : b.heapIndex ≤ a.heapIndex := by
  unfold Interval.Above at above
  omega

theorem Interval.Above.of_not (ne : a ≠ b) (not : ¬ a.Above b) : b.Above a := by
  unfold Interval.Above at *
  by_contra
  exact ne (Interval.ext (by omega) (by omega))

theorem goesAbove_iff : goesAbove a b = true ↔ a.Above b := by
  simp [goesAbove, Interval.Above]

theorem Interval.radix_lt (bounded : a.heapIndex < 2 ^ bits) : a.radixIndex < 2 ^ bits :=
  lt_of_le_of_lt a.ordered bounded

theorem maxindex_eq (pos : 1 ≤ bits) (most : bits ≤ 64) : prioTreeMaxindex bits = 2 ^ bits - 1 := by
  rw [prioTreeMaxindex, indexBitsToMaxindex, ulongMax, bitsPerLong]
  split_ifs with small
  · rw [Nat.sub_add_cancel pos, Nat.one_shiftLeft]
  · rw [show bits = 64 by omega]

theorem le_maxindex_iff {n : Nat} (pos : 1 ≤ bits) (most : bits ≤ 64) :
    n ≤ prioTreeMaxindex bits ↔ n < 2 ^ bits := by
  rw [maxindex_eq pos most]
  have := Nat.two_pow_pos bits
  omega

variable {j rounds maxHeapIndex : Nat} {ext : List Bool} {chain : List Nat}

theorem size_testBit_eq (same : ∀ other < bits + level, digit bits other a = digit bits other b)
    (high : 64 ≤ level + j) :
    (a.heapIndex - a.radixIndex).testBit j = (b.heapIndex - b.radixIndex).testBit j := by
  by_cases inside : j < 64
  · have := same (bits + (63 - j)) (by omega)
    rwa [digit, digit, if_neg (by omega), if_neg (by omega), bitAt, if_neg (by omega),
      show 63 - (bits + (63 - j) - bits) % 64 = j by omega] at this
  · have power : 2 ^ 64 ≤ 2 ^ j := Nat.pow_le_pow_right (by decide) (by omega)
    have small (key : Interval) : key.heapIndex - key.radixIndex < 2 ^ j :=
      lt_of_le_of_lt (sub_le _ _) (lt_of_lt_of_le key.bounded power)
    rw [testBit_lt_two_pow (small a), testBit_lt_two_pow (small b)]

section

variable (boundedA : a.heapIndex < 2 ^ bits) (boundedB : b.heapIndex < 2 ^ bits)
  (same : ∀ other < level, digit bits other a = digit bits other b)
include boundedA boundedB same

/-- Keys with equal digits at the first levels have equal high bits. -/
theorem radix_testBit_eq (high : bits ≤ level + j) : a.radixIndex.testBit j = b.radixIndex.testBit j := by
  by_cases inside : j < bits
  · have := same (bits - 1 - j) (by omega)
    rwa [digit, digit, if_pos (by omega), if_pos (by omega), bitAt, if_pos (by omega),
      show bits - 1 - (bits - 1 - j) = j by omega] at this
  · have power : 2 ^ bits ≤ 2 ^ j := Nat.pow_le_pow_right (by decide) (by omega)
    rw [testBit_lt_two_pow (lt_of_lt_of_le (Interval.radix_lt boundedA) power),
      testBit_lt_two_pow (lt_of_lt_of_le (Interval.radix_lt boundedB) power)]

theorem radix_eq (deep : bits ≤ level) : a.radixIndex = b.radixIndex :=
  eq_of_testBit_eq fun _ => radix_testBit_eq boundedA boundedB same (by omega)

/-- All the digits determine a key. -/
theorem key_eq (deep : bits + 64 ≤ level) : a = b := by
  have radix := radix_eq boundedA boundedB same (by omega)
  have size : a.heapIndex - a.radixIndex = b.heapIndex - b.radixIndex := eq_of_testBit_eq fun _ =>
    size_testBit_eq (fun other (low : other < bits + 64) => same other (by omega)) (by omega)
  have := a.ordered
  have := b.ordered
  exact Interval.ext radix (by omega)

/-- Of two keys that part at a level, the left one has the smaller radix, or the same and a smaller size. -/
theorem left_right (shallow : level < bits + 64)
    (left : digit bits level a = false) (right : digit bits level b = true) :
    (level < bits ∧ a.radixIndex < b.radixIndex) ∨
      (bits ≤ level ∧ a.radixIndex = b.radixIndex ∧ a.heapIndex < b.heapIndex) := by
  by_cases inside : level < bits
  · rw [digit, if_pos inside, bitAt, if_pos inside] at left right
    exact .inl ⟨inside, lt_of_testBit _ left right fun j above =>
      radix_testBit_eq boundedA boundedB same (by omega)⟩
  · obtain ⟨further, rfl⟩ := Nat.exists_eq_add_of_le (Nat.not_lt.mp inside)
    have radix := radix_eq boundedA boundedB same (by omega)
    rw [digit, if_neg inside, bitAt, if_neg inside] at left right
    have size := lt_of_testBit _ left right fun j above =>
      size_testBit_eq same (by omega)
    exact .inr ⟨by omega, radix, by omega⟩

end

/-- With one more bit, all small keys take the left side first. -/
theorem digit_succ (bounded : a.heapIndex < 2 ^ bits) :
    digit (bits + 1) 0 a = false ∧ ∀ level, digit (bits + 1) (level + 1) a = digit bits level a := by
  constructor
  · exact testBit_lt_two_pow (Interval.radix_lt bounded)
  · intro level
    rw [digit, digit, bitAt, bitAt]
    simp only [Nat.add_lt_add_iff_right, Nat.add_sub_add_right]
    rw [show bits + 1 - 1 - (level + 1) = bits - 1 - level by omega]

/-! ### The invariant -/

/-- A heap by `heap_index`, with every node where the bits of its key lead. -/
abbrev KeyOrdered (index : Nat → Interval) (bits : Nat) (place : PathTree Nat) : Prop :=
  HeapOrdered (fun high low => (index high).Above (index low)) (fun level node =>
    digit bits level (index node)) place

/-- The heap holds the tree, which is ordered for keys with this number of bits. -/
structure TreeAt (index : Nat → Interval) (bits : Nat) (heap : Heap) (place : PathTree Nat) : Prop where
  held : Holds heap none place
  root : heap.prioTreeNode = (place []).getD 0
  ordered : KeyOrdered index bits place
  bounded : ∀ {node}, Placed place node → (index node).heapIndex < 2 ^ bits
  distinct : ∀ {node other}, Placed place node → Placed place other → index node = index other → node = other

/-- The tree has `index_bits` bits. -/
structure Invariant (index : Nat → Interval) (heap : Heap) (place : PathTree Nat) : Prop
    extends TreeAt index heap.indexBits heap place where
  positive : 1 ≤ heap.indexBits
  most : heap.indexBits ≤ 64

variable {index : Nat → Interval} {heap heap' : Heap} {place place' : PathTree Nat} {path : List Bool}
  {node cur : Nat} {side : Bool}

variable (tree : TreeAt index bits heap place)

include tree

/-- No node is below the last bit of the size. -/
theorem TreeAt.depth (placed : place path = some node) : path.length ≤ bits + 64 := by
  cases path with
  | nil => exact zero_le _
  | cons side rest =>
    obtain ⟨high, placedHigh, above⟩ := tree.ordered.order placed
    by_contra deep
    have same := key_eq (tree.bounded ⟨_, placedHigh⟩) (tree.bounded ⟨_, placed⟩)
      ((tree.ordered.select placedHigh).digit_eq (tree.ordered.select placed).2)
      (by simp only [length_cons] at deep; omega)
    simp only [same] at above
    exact Interval.Above.irrefl above

/-- A node with a new key can be put where it fits. -/
theorem TreeAt.put (became : Became heap heap' (update place path (some node)))
    (selected : Selected (fun level node => digit bits level (index node)) node path)
    (low : ∀ side child, place (side :: path) = some child → (index node).Above (index child))
    (high : ∀ side rest, path = side :: rest → ∃ up, place rest = some up ∧ (index up).Above (index node))
    (bounded : (index node).heapIndex < 2 ^ bits)
    (new : ∀ other, Placed place other → index other ≠ index node) :
    TreeAt index bits heap' (update place path (some node)) := by
  have was {n : Nat} (placed : Placed (update place path (some node)) n) : n = node ∨ Placed place n :=
    (tree.held.apart.placed_put.mp placed).imp id And.left
  refine ⟨became.held, became.root, tree.ordered.put selected low high, fun placed => ?_,
    fun placed placed' same => ?_⟩
  · rcases was placed with rfl | before
    · exact bounded
    · exact tree.bounded before
  · rcases was placed with rfl | before <;> rcases was placed' with rfl | before'
    · rfl
    · exact absurd same.symm (new _ before')
    · exact absurd same (new _ before)
    · exact tree.distinct before before' same

/-! ### Removal -/

/-- Each step of the path goes to the child that comes first. -/
def Chosen (index : Nat → Interval) (place : PathTree Nat) (path : List Bool) : List Bool → Prop
  | [] => True
  | side :: ext =>
    (∀ first second, place (side :: (ext ++ path)) = some first →
      place ((!side) :: (ext ++ path)) = some second →
      (index first).Above (index second)) ∧ Chosen index place path ext

omit tree

theorem chosen_concat (rest : Chosen index place (side :: path) ext)
    (here : ∀ first second, place (side :: path) = some first → place ((!side) :: path) = some second →
      (index first).Above (index second)) : Chosen index place path (ext ++ [side]) := by
  induction ext with
  | nil => exact ⟨here, trivial⟩
  | cons step ext ih =>
    rw [cons_append, Chosen, append_assoc]
    exact ⟨rest.1, ih rest.2⟩

/-- A change below the path leaves what is on it. -/
theorem update_of_length {q : List Bool} {top : Option Nat} (short : q.length ≤ ext.length + path.length) :
    update place (side :: (ext ++ path)) top q = place q := by
  rw [update_of_ne]
  rintro rfl
  simp only [length_cons, length_append] at short
  omega

theorem Chosen.congr (chosen : Chosen index place path ext)
    (same : ∀ q, q.length ≤ ext.length + path.length → place' q = place q) :
      Chosen index place' path ext := by
  induction ext with
  | nil => trivial
  | cons side ext ih =>
    refine ⟨fun first second => ?_, ih chosen.2 fun q short => same q ?_⟩
    · have short (step : Bool) : (step :: (ext ++ path)).length ≤ (side :: ext).length + path.length := by
        rw [length_cons, length_cons, length_append]
        omega
      rw [same _ (short _), same _ (short _)]
      exact chosen.1 first second
    · rw [length_cons]
      omega

include tree

theorem TreeAt.selected_of_suffix {q : List Bool} (below : path <:+ q) (placed : place q = some node) :
    Selected (fun level node => digit bits level (index node)) node path := by
  obtain ⟨ext, rfl⟩ := below
  exact (tree.ordered.select placed).of_append

/-- A left child has a smaller radix than the nodes on the right side, or the same and a smaller size. -/
theorem TreeAt.left_right {left right : Nat} {q : List Bool} (placedLeft : place (false :: path) = some left)
    (under : (true :: path) <:+ q) (placedRight : place q = some right) :
    (path.length < bits ∧ (index left).radixIndex < (index right).radixIndex) ∨ (bits ≤ path.length ∧
      (index left).radixIndex = (index right).radixIndex ∧
        (index left).heapIndex < (index right).heapIndex) := by
  have selectLeft := tree.ordered.select placedLeft
  have selectRight := tree.selected_of_suffix under placedRight
  exact PrioTree.left_right (tree.bounded ⟨_, placedLeft⟩) (tree.bounded ⟨_, placedRight⟩)
    (selectLeft.2.digit_eq selectRight.2) (tree.depth placedLeft) selectLeft.1 selectRight.1

/-- The comparison of `prio_tree_remove` finds the child that comes first. -/
theorem TreeAt.children_above {left right : Nat}
    (placedLeft : place (false :: path) = some left) (placedRight : place (true :: path) = some right) :
    ((index left).heapIndex ≥ (index right).heapIndex → (index left).Above (index right)) ∧
      (¬ (index left).heapIndex ≥ (index right).heapIndex → (index right).Above (index left)) := by
  have parts := tree.left_right placedLeft suffix_rfl placedRight
  unfold Interval.Above
  omega

theorem removeLeaf_spec (placed : place path = some cur) (enough : bits + 64 < path.length + rounds) :
    ∃ ext leaf, removeLeaf index rounds cur heap = some leaf ∧ place (ext ++ path) = some leaf ∧
      (∀ side, place (side :: (ext ++ path)) = none) ∧ Chosen index place path ext := by
  induction rounds generalizing path cur with
  | zero => exact absurd (tree.depth placed) (by omega)
  | succ rounds ih =>
    have down {side : Bool} {child : Nat} (below : place (side :: path) = some child)
        (chosen : ∀ other, place ((!side) :: path) = some other → (index child).Above (index other)) :
        ∃ ext leaf, removeLeaf index rounds child heap = some leaf ∧ place (ext ++ path) = some leaf ∧
          (∀ side, place (side :: (ext ++ path)) = none) ∧ Chosen index place path ext := by
      obtain ⟨ext, leaf, found, placedLeaf, empty, rest⟩ := ih below (by rw [length_cons]; omega)
      have path_eq : ext ++ [side] ++ path = ext ++ side :: path := by simp
      refine ⟨ext ++ [side], leaf, found, by rwa [path_eq], by rwa [path_eq], chosen_concat rest ?_⟩
      intro first second placedFirst placedSecond
      rw [below, Option.some_inj] at placedFirst
      exact placedFirst ▸ chosen second placedSecond
    rw [removeLeaf]
    simp only [ne_eq, tree.held.child_eq_iff placed]
    cases left : place (false :: path) with
    | none =>
      cases right : place (true :: path) with
      | none =>
        refine ⟨[], cur, by simp, placed, fun side => ?_, trivial⟩
        cases side <;> assumption
      | some child =>
        rw [tree.held.child_eq right placed]
        exact down right fun other beside => by simp [left] at beside
    | some child =>
      rw [tree.held.child_eq left placed]
      simp only [reduceCtorEq, not_false_eq_true, true_or, if_true, if_false]
      cases right : place (true :: path) with
      | none =>
        exact down left fun other beside => by simp [right] at beside
      | some child' =>
        obtain ⟨larger, smaller⟩ := tree.children_above left right
        rw [if_neg (by simp), tree.held.child_eq right placed]
        split_ifs with compared
        · refine down left fun other beside => ?_
          rw [Bool.not_false, right, Option.some_inj] at beside
          exact beside ▸ larger compared
        · refine down right fun other beside => ?_
          rw [Bool.not_true, left, Option.some_inj] at beside
          exact beside ▸ smaller compared

/-- A node that was taken out of its place, and fits the place right above it. -/
structure Spare (index : Nat → Interval) (bits : Nat) (heap : Heap) (place : PathTree Nat)
    (path ext : List Bool) (cur : Nat) : Prop where
  nonzero : cur ≠ 0
  fresh : ¬ Placed place cur
  bounded : (index cur).heapIndex < 2 ^ bits
  new : ∀ other, Placed place other → index other ≠ index cur
  parent : place (ext ++ path) = some (heap.parent cur)
  below : (index (heap.parent cur)).Above (index cur)
  selected : Selected (fun level node => digit bits level (index node)) cur (ext ++ path)
  children : ∀ side child, place (side :: (ext ++ path)) = some child → (index cur).Above (index child)
  chosen : Chosen index place path ext

omit tree

theorem Spare.replace {ext : List Bool} (tree : TreeAt index bits heap place)
    (spare : Spare index bits heap place path ext cur) :
    ∃ heap', prioTreeReplace (heap.parent cur) cur heap = some heap' ∧
      Became heap heap' (update place (ext ++ path) (some cur)) ∧
      TreeAt index bits heap' (update place (ext ++ path) (some cur)) ∧
      (∀ other, Placed (update place (ext ++ path) (some cur)) other ↔
        other = cur ∨ (Placed place other ∧ heap.parent cur ≠ other)) ∧
      ∀ other, ¬ Placed place other → other ≠ cur → SameLinks heap heap' other := by
  obtain ⟨heap', replaced, became⟩ :=
    prioTreeReplace_became tree.held tree.root spare.parent spare.nonzero spare.fresh
  have nodes (other : Nat) : Placed (update place (ext ++ path) (some cur)) other ↔
      other = cur ∨ (Placed place other ∧ heap.parent cur ≠ other) := by
    rw [tree.held.apart.placed_put, spare.parent, ne_eq, Option.some_inj]
  refine ⟨heap', replaced, became, tree.put became spare.selected spare.children (fun side rest same => ?_)
    spare.bounded spare.new, nodes, fun other outside notCur => became.frame other ?_⟩
  · have placed := spare.parent
    rw [same] at placed
    obtain ⟨up, placedUp, above⟩ := tree.ordered.order placed
    exact ⟨up, placedUp, above.trans spare.below⟩
  · rw [nodes]
    exact not_or.mpr ⟨notCur, fun before => outside before.1⟩

/-- A node that leaves its place to another one, or to none, fits the place above it. -/
theorem TreeAt.spare {old : Nat} {entry : Option Nat} (tree : TreeAt index bits heap place)
    (placed : place (side :: (ext ++ path)) = some old) (chosen : Chosen index place path (side :: ext))
    (fresh : ¬ Placed (update place (side :: (ext ++ path)) entry) old)
    (new : ∀ other, Placed (update place (side :: (ext ++ path)) entry) other → index other ≠ index old)
    (kept : heap'.parent old = heap.parent old)
    (below : ∀ child, entry = some child → (index old).Above (index child)) :
    Spare index bits heap' (update place (side :: (ext ++ path)) entry) path ext old := by
  obtain ⟨high, placedHigh, above⟩ := tree.ordered.order placed
  have up := tree.held.parent placed
  refine ⟨tree.held.nonzero placed, fresh, tree.bounded ⟨_, placed⟩, new, ?_, ?_,
    (tree.ordered.select placed).2, fun step child there => ?_, chosen.2.congr fun _ => update_of_length⟩
  · rw [kept, update_above, up]
  · rw [kept, Option.some_inj.mp (up.symm.trans placedHigh)]
    exact above
  · by_cases same : step = side
    · rw [same, update_self] at there
      exact below child there
    · rw [update_of_ne (by simpa using same), Bool.eq_not.mpr same] at there
      exact chosen.1 old child placed there

/-- The node that was replaced is the next to be moved up. -/
theorem Spare.next (tree : TreeAt index bits heap place)
    (spare : Spare index bits heap place path (side :: ext) cur)
    (became : Became heap heap' (update place (side :: ext ++ path) (some cur))) :
    Spare index bits heap' (update place (side :: ext ++ path) (some cur)) path ext (heap.parent cur) := by
  have placedOld : place (side :: (ext ++ path)) = some (heap.parent cur) := spare.parent
  have fresh : ¬ Placed (update place (side :: ext ++ path) (some cur)) (heap.parent cur) := by
    rw [tree.held.apart.placed_put]
    rintro (same | ⟨_, elsewhere⟩)
    · exact spare.fresh ⟨_, same ▸ placedOld⟩
    · exact elsewhere placedOld
  refine tree.spare placedOld spare.chosen fresh (fun other placed same => ?_)
    (became.frame _ fresh).parent ?_
  · rcases tree.held.apart.placed_put.mp placed with rfl | ⟨before, elsewhere⟩
    · exact spare.new _ ⟨_, placedOld⟩ same.symm
    · exact elsewhere (placedOld.trans (congrArg some (tree.distinct ⟨_, placedOld⟩ before same.symm)))
  · rintro _ ⟨⟩
    exact spare.below

theorem removeUp_succ (ne : cur ≠ node)
    (replaced : prioTreeReplace (heap.parent cur) cur heap = some heap') :
    removeUp (rounds + 1) cur node heap = removeUp rounds (heap.parent cur) node heap' := by
  rw [removeUp, if_pos ne]
  dsimp only
  rw [replaced]
  rfl

include tree

theorem removeUp_spec (spare : Spare index bits heap place path ext cur) (placed : place path = some node)
    (enough : ext.length + 1 < rounds) :
    ∃ heap' place', removeUp rounds cur node heap = some heap' ∧ TreeAt index bits heap' place' ∧
      heap'.indexBits = heap.indexBits ∧
      (∀ other, Placed place' other ↔ (Placed place other ∨ other = cur) ∧ other ≠ node) ∧
      ∀ other, ¬ Placed place other → other ≠ cur → SameLinks heap heap' other := by
  induction ext generalizing heap place cur rounds with
  | nil =>
    have different := (Placed.ne ⟨path, placed⟩ spare.fresh).symm
    obtain ⟨heap₁, replaced, became, tree₁, nodes₁, frame₁⟩ := spare.replace tree
    have last : heap.parent cur = node := Option.some_inj.mp (spare.parent.symm.trans placed)
    obtain ⟨count, rfl⟩ : ∃ count, rounds = count + 2 := ⟨rounds - 2, by rw [length_nil] at enough; omega⟩
    refine ⟨heap₁, _, ?_, tree₁, became.bits, fun other => ?_, frame₁⟩
    · rw [removeUp_succ different replaced, last, removeUp, if_neg (not_not.mpr rfl)]
    · rw [nodes₁, last]
      grind
  | cons side ext ih =>
    have different := (Placed.ne ⟨path, placed⟩ spare.fresh).symm
    obtain ⟨heap₁, replaced, became, tree₁, nodes₁, frame₁⟩ := spare.replace tree
    obtain ⟨count, rfl⟩ : ∃ count, rounds = count + 1 := ⟨rounds - 1, by omega⟩
    have placed₁ : update place (side :: ext ++ path) (some cur) path = some node := by
      rwa [cons_append, update_of_length (le_add_left _ _)]
    have fewer : ext.length + 1 < count := by
      rw [length_cons] at enough
      omega
    have old : Placed place (heap.parent cur) := ⟨_, spare.parent⟩
    obtain ⟨heap', place', done, tree', bits', placed', frame⟩ := ih tree₁
      (spare.next tree became) placed₁ fewer
    refine ⟨heap', place', ?_, tree', bits'.trans became.bits, fun other => ?_,
      fun other outside notCur => ?_⟩
    · rw [removeUp_succ different replaced, done]
    · rw [placed', nodes₁]
      grind
    · refine (frame₁ other outside notCur).trans (frame other ?_ (Placed.ne old outside).symm)
      rw [nodes₁]
      exact not_or.mpr ⟨notCur, fun before => outside before.1⟩

theorem TreeAt.clear (became : Became heap heap' (update place path none))
    (leaf : ∀ side, place (side :: path) = none) : TreeAt index bits heap' (update place path none) := by
  have was {n : Nat} (placed : Placed (update place path none) n) : Placed place n :=
    (tree.held.apart.placed_clear.mp placed).1
  exact ⟨became.held, became.root, tree.ordered.clear leaf, fun placed => tree.bounded (was placed),
    fun placed placed' => tree.distinct (was placed) (was placed')⟩

omit tree

theorem TreeAt.of_empty (empty : ∀ node, ¬ Placed place node) (root : heap.prioTreeNode = (place []).getD 0) :
    TreeAt index bits heap place :=
  ⟨.of_empty empty, root, .of_empty empty, fun placed => (empty _ placed).elim, fun placed =>
    (empty _ placed).elim⟩

include tree

/-- `prio_tree_remove` takes out just its node. `index_bits` only changes when the tree becomes empty. -/
theorem prioTreeRemove_spec (placed : place path = some node) (enough : bits + 65 < rounds) :
    ∃ heap' place', prioTreeRemove index rounds node heap = some heap' ∧ TreeAt index bits heap' place' ∧
      (∀ other, Placed place' other ↔ Placed place other ∧ other ≠ node) ∧
      ((∃ other, Placed place' other) → heap'.indexBits = heap.indexBits) ∧
      (heap'.indexBits = 1 ∨ heap'.indexBits = heap.indexBits) ∧
      ∀ other, ¬ Placed place other → SameLinks heap heap' other := by
  obtain ⟨ext, leaf, found, placedLeaf, empty, chosen⟩ := removeLeaf_spec tree placed
    (show bits + 64 < path.length + rounds by omega)
  have short := tree.depth placedLeaf
  rw [prioTreeRemove, found]
  simp only [Option.bind_eq_bind, Option.bind_some]
  cases shape : ext ++ path with
  | nil =>
    rw [shape] at placedLeaf empty
    obtain ⟨rfl, rfl⟩ := append_eq_nil_iff.mp shape
    obtain rfl : leaf = node := Option.some_inj.mp (placedLeaf.symm.trans placed)
    have root : heap.prioTreeNode = leaf := by rw [tree.root, placed, Option.getD_some]
    rw [if_pos ((tree.held.parent_eq_self_iff placedLeaf).mpr rfl), if_neg (not_not.mpr root)]
    refine ⟨_, fun _ => none, rfl, .of_empty (fun _ => not_placed_empty) rfl, fun other => ?_,
      fun ⟨_, there⟩ => (not_placed_empty there).elim, .inl rfl, fun other _ => ⟨fun _ => rfl, rfl⟩⟩
    refine ⟨fun there => (not_placed_empty there).elim, fun ⟨⟨q, there⟩, ne⟩ => ?_⟩
    rcases eq_nil_or_concat' q with rfl | ⟨rest, side, rfl⟩
    · exact absurd (Option.some_inj.mp (there.symm.trans placed)) ne
    · rw [tree.ordered.none_append (empty side)] at there
      cases there
  | cons side rest =>
    rw [shape] at placedLeaf empty
    have up := tree.held.parent placedLeaf
    have inner : heap.parent leaf ≠ leaf := fun same =>
      cons_ne_nil _ _ ((tree.held.parent_eq_self_iff placedLeaf).mp same)
    have cut : (if heap.child true (heap.parent leaf) = leaf then
        heap.setChild true (heap.parent leaf) (heap.parent leaf)
        else heap.setChild false (heap.parent leaf) (heap.parent leaf)) =
        heap.setChild side (heap.parent leaf) (heap.parent leaf) := by
      simp only [tree.held.child_parent_iff placedLeaf]
      cases side <;> rfl
    rw [if_neg inner, cut]
    have became := unlink_became tree.held tree.root placedLeaf up empty
    have tree₁ := tree.clear became empty
    obtain ⟨heap₁, step₁⟩ : ∃ heap₁, heap₁ = heap.setChild side (heap.parent leaf) (heap.parent leaf) :=
      ⟨_, rfl⟩
    rw [← step₁] at became tree₁ ⊢
    have remaining (other : Nat) : Placed (update place (side :: rest) none) other ↔
        Placed place other ∧ other ≠ leaf := by
      rw [tree.held.apart.placed_clear, placedLeaf, ne_eq, Option.some_inj, ne_comm]
    have same (other : Nat) (outside : ¬ Placed place other) : SameLinks heap heap₁ other :=
      became.frame other fun there => outside ((remaining other).mp there).1
    cases ext with
    | nil =>
      rw [nil_append] at shape
      obtain rfl : leaf = node := by
        rw [shape] at placed
        exact Option.some_inj.mp (placedLeaf.symm.trans placed)
      obtain ⟨count, rfl⟩ : ∃ count, rounds = count + 1 := ⟨rounds - 1, by omega⟩
      refine ⟨heap₁, _, ?_, tree₁, remaining, fun _ => became.bits, .inr became.bits, same⟩
      rw [removeUp, if_neg (not_not.mpr rfl)]
    | cons step ext =>
      rw [cons_append, List.cons.injEq] at shape
      obtain ⟨rfl, rfl⟩ := shape
      have leafPlaced : Placed place leaf := ⟨_, placedLeaf⟩
      have parent₁ : heap₁.parent leaf = heap.parent leaf := by rw [step₁, Heap.setChild_parent]
      have spare := tree.spare placedLeaf chosen (fun there => ((remaining leaf).mp there).2 rfl)
        (fun other there equal => ((remaining other).mp there).2
          (tree.distinct ((remaining other).mp there).1 leafPlaced equal)) parent₁
            (fun _ child => by cases child)
      have placed₁ : update place (step :: (ext ++ path)) none path = some node := by
        rwa [update_of_length (le_add_left _ _)]
      obtain ⟨heap', place', done, tree', bits', placed', frame⟩ := removeUp_spec tree₁ spare placed₁
        (show ext.length + 1 < rounds by simp only [length_cons, length_append] at short; omega)
      have bits := bits'.trans became.bits
      refine ⟨heap', place', done, tree', fun other => ?_, fun _ => bits, .inr bits, fun other outside => ?_⟩
      · rw [placed', remaining]
        grind
      · exact (same other outside).trans (frame other (fun there => outside ((remaining other).mp there).1)
          (Placed.ne leafPlaced outside).symm)

/-! ### Expansion -/

theorem TreeAt.congr (same : ∀ node, Placed place node → SameLinks heap heap' node)
    (root : heap'.prioTreeNode = heap.prioTreeNode) : TreeAt index bits heap' place :=
  ⟨tree.held.congr same, root.trans tree.root, tree.ordered, tree.bounded, tree.distinct⟩

theorem TreeAt.root_above {top low : Nat} (placed : place [] = some top)
    (below : Placed place low) (ne : low ≠ top) : (index top).Above (index low) := by
  obtain ⟨path, placedLow⟩ := below
  cases path with
  | nil => exact absurd (Option.some_inj.mp (placedLow.symm.trans placed)) ne
  | cons side path =>
    rw [← append_nil (side :: path)] at placedLow
    obtain ⟨high, placedHigh, above⟩ :=
      tree.ordered.above_append (fun first second => first.trans second) placedLow
    rwa [← Option.some_inj.mp (placedHigh.symm.trans placed)]

theorem TreeAt.empty_of_root (root : heap.prioTreeNode = 0) : place = fun _ => none := by
  have empty : place [] = none := by
    rw [Option.eq_none_iff_forall_ne_some]
    intro top placed
    rw [tree.root, placed] at root
    exact tree.held.nonzero placed root
  funext path
  have := tree.ordered.none_append empty path
  rwa [append_nil] at this

theorem TreeAt.placed_root (nonempty : heap.prioTreeNode ≠ 0) : place [] = some heap.prioTreeNode := by
  have root := tree.root
  cases top : place [] with
  | none =>
    rw [top] at root
    exact absurd root nonempty
  | some node =>
    rw [top] at root
    rw [root, Option.getD_some]

theorem TreeAt.initNode (fresh : ¬ Placed place node) : TreeAt index bits (heap.initNode node) place :=
  tree.congr (fun _ there => sameLinks_initNode (there.ne fresh)) rfl

/-- The tree does not see a link between nodes outside of it. -/
theorem TreeAt.link {first last : Nat} (freshLast : ¬ Placed place last) (freshFirst : ¬ Placed place first) :
    TreeAt index bits ((heap.setChild false last first).setParent first last) place :=
  tree.congr (fun _ there => ⟨fun side => by simp [there.ne freshLast], by simp [there.ne freshFirst]⟩) rfl

omit tree

/-- A node on top of a tree of small keys. -/
theorem ordered_pushTop (top : Nat) (ordered : KeyOrdered index bits place)
    (bounded : ∀ node, Placed place node → (index node).heapIndex < 2 ^ bits)
    (above : ∀ low, Placed place low → (index top).Above (index low)) :
    KeyOrdered index (bits + 1) (pushTop top place) :=
  ordered.pushTop (fun node placed => digit_succ (bounded node placed)) fun _ placed => above _ ⟨_, placed⟩

theorem ordered_chain (ordered : KeyOrdered index bits place)
    (bounded : ∀ node, Placed place node ∨ node ∈ chain → (index node).heapIndex < 2 ^ bits)
    (sorted : chain.Pairwise fun high low => (index high).Above (index low))
    (above : ∀ top ∈ chain, ∀ low, Placed place low → (index top).Above (index low)) :
    KeyOrdered index (bits + chain.length) (chain.foldr pushTop place) := by
  induction chain with
  | nil => exact ordered
  | cons top chain ih =>
    rw [pairwise_cons] at sorted
    refine ordered_pushTop top (ih (fun other there => bounded other (there.imp_right (mem_cons_of_mem _)))
      sorted.2 fun other mem => above other (mem_cons_of_mem _ mem)) (fun node placed => ?_)
      fun low placed => ?_
    · refine Nat.lt_of_lt_of_le ?_ (Nat.pow_le_pow_right (by decide) (Nat.le_add_right bits chain.length))
      exact bounded node ((placed_chain.mp placed).symm.imp_right (mem_cons_of_mem _))
    · rcases placed_chain.mp placed with mem | placed
      · exact sorted.1 low mem
      · exact above top mem_cons_self low placed

/-- The state of the loop of `prio_tree_expand`: nodes are taken from the top of the tree to a chain of left
children, while `index_bits` grows. -/
structure Expanding (index : Nat → Interval) (bits : Nat) (heap : Heap) (place : PathTree Nat)
    (chain : List Nat)
    (maxHeapIndex : Nat) : Prop where
  tree : TreeAt index bits heap place
  chainHeld : Holds heap none (chain.foldr pushTop fun _ => none)
  fresh : ∀ top ∈ chain, ¬ Placed place top
  sorted : chain.Pairwise fun high low => (index high).Above (index low)
  above : ∀ top ∈ chain, ∀ low, Placed place low → (index top).Above (index low)
  bounded : ∀ top ∈ chain, (index top).heapIndex < 2 ^ bits
  large : (∃ node, Placed place node ∨ node ∈ chain) → 2 ^ (bits + chain.length) ≤ maxHeapIndex
  level : (∃ node, Placed place node) → heap.indexBits = bits + 1 + chain.length
  positive : 1 ≤ heap.indexBits
  most : heap.indexBits ≤ 64

theorem headD_append_singleton (chain : List Nat) (top : Nat) :
    (chain ++ [top]).headD 0 = if chain = [] then top else chain.headD 0 := by
  cases chain <;> simp

section

variable (expanding : Expanding index bits heap place chain maxHeapIndex)

include expanding

theorem Expanding.head_eq_zero_iff : chain.headD 0 = 0 ↔ chain = [] := by
  cases chain with
  | nil => simp
  | cons top chain => simpa using expanding.chainHeld.nonzero (pushTop_nil _ _)

theorem Expanding.small (other : Nat)
    (there : Placed place other ∨ other ∈ chain) : (index other).heapIndex < 2 ^ bits :=
  there.elim expanding.tree.bounded (expanding.bounded other)

/-- One round that takes the root of the tree to the end of the chain. -/
theorem Expanding.step {top : Nat} (enough : 130 ≤ rounds)
    (placed : place [] = some top) (larger : 2 ^ heap.indexBits ≤ maxHeapIndex) (most : heap.indexBits < 64) :
    ∃ heap₁ heap' place', prioTreeRemove index rounds top { heap with indexBits := heap.indexBits + 1 } =
      some heap₁ ∧
      heap' = (if chain.headD 0 = 0 then heap₁.initNode top
        else ((heap₁.initNode top).setChild false (chain.getLastD 0) top).setParent top (chain.getLastD 0)) ∧
      Expanding index bits heap' place' (chain ++ [top]) maxHeapIndex ∧
      ((∃ node, Placed place' node) → heap'.indexBits = heap.indexBits + 1) ∧
      ∀ other, Placed place' other ↔ Placed place other ∧ other ≠ top := by
  have level := expanding.level ⟨top, _, placed⟩
  have tree := expanding.tree
  have rootPlaced : Placed place top := ⟨_, placed⟩
  have grown : TreeAt index bits { heap with indexBits := heap.indexBits + 1 } place :=
    tree.congr (fun _ _ => ⟨fun _ => rfl, rfl⟩) rfl
  obtain ⟨heap₁, place', removed, tree₁, placed', bits₁, bitsOr₁, frame⟩ := prioTreeRemove_spec grown placed
    (show bits + 65 < rounds by omega)
  have topGone : ¬ Placed place' top := fun there => ((placed' top).mp there).2 rfl
  have topNew : top ∉ chain := fun member => expanding.fresh top member rootPlaced
  have tree₂ := tree₁.initNode topGone
  have chain₂ : Holds (heap₁.initNode top) none (chain.foldr pushTop fun _ => none) := by
    refine expanding.chainHeld.congr fun node there => ?_
    have member := placed_chain_empty.mp there
    have same := frame node (expanding.fresh node member)
    exact .trans ⟨same.child, same.parent⟩ (sameLinks_initNode (ne_of_mem_of_not_mem member topNew))
  have nonzero := tree.held.nonzero placed
  obtain ⟨heap', shape⟩ : ∃ heap', heap' = (if chain.headD 0 = 0 then heap₁.initNode top
      else ((heap₁.initNode top).setChild false (chain.getLastD 0) top).setParent top (chain.getLastD 0)) :=
        ⟨_, rfl⟩
  have linked : TreeAt index bits heap' place' ∧ heap'.indexBits = heap₁.indexBits ∧
      Holds heap' none ((chain ++ [top]).foldr pushTop fun _ => none) := by
    rw [foldr_append, shape]
    rcases eq_nil_or_concat' chain with rfl | ⟨init, last, rfl⟩
    · exact ⟨tree₂, rfl, holds_initNode nonzero⟩
    · have lastZero : (init ++ [last]).headD 0 ≠ 0 := fun zero => by
        simpa using expanding.head_eq_zero_iff.mp zero
      have lastGone : ¬ Placed place' last := fun there =>
        expanding.fresh last (by simp) ((placed' last).mp there).1
      rw [if_neg lastZero, getLastD_concat]
      refine ⟨tree₂.link lastGone topGone, rfl, chain₂.chain_link (holds_initNode nonzero)
        (pushTop_nil _ _) fun node member there => topNew ?_⟩
      exact mem_singleton.mp (placed_chain_empty.mp there) ▸ member
  obtain ⟨tree', bits', chain'⟩ := linked
  have before (other : Nat) (there : Placed place' other) : Placed place other := ((placed' other).mp there).1
  refine ⟨heap₁, heap', place', removed, shape,
    ⟨tree', chain', forall_mem_append.mpr ⟨fun other member there => ?_, ?_⟩, ?_,
    forall_mem_append.mpr ⟨fun other member low there => ?_, ?_⟩,
      forall_mem_append.mpr ⟨expanding.bounded, ?_⟩,
    fun _ => ?_, fun some => ?_, ?_, ?_⟩, fun some => ?_, placed'⟩
  · exact expanding.fresh other member (before other there)
  · simpa using topGone
  · rw [pairwise_append]
    refine ⟨expanding.sorted, pairwise_singleton _ _, fun high member low isTop => ?_⟩
    rw [mem_singleton.mp isTop]
    exact expanding.above high member top rootPlaced
  · exact expanding.above other member low (before low there)
  · simpa using fun low there => tree.root_above placed (before low there) ((placed' low).mp there).2
  · simpa using tree.bounded rootPlaced
  · rw [length_append]
    rwa [level, add_right_comm] at larger
  · rw [bits', bits₁ some, length_append, length_singleton]
    dsimp only
    omega
  · dsimp only at bitsOr₁
    omega
  · dsimp only at bitsOr₁
    omega
  · rw [bits', bits₁ some]

theorem expandLoop_spec {steps : Nat} (enough : 130 ≤ rounds)
    (word : maxHeapIndex < 2 ^ 64) (few : 64 - heap.indexBits < steps)
    (fewer : (∃ node, Placed place node) → 64 - heap.indexBits + 64 < steps) :
    ∃ heap' place' chain', expandLoop index rounds steps maxHeapIndex (chain.headD 0)
      (chain.getLastD 0) heap =
        some (heap', chain'.headD 0, chain'.getLastD 0) ∧
      Expanding index bits heap' place' chain' maxHeapIndex ∧ maxHeapIndex < 2 ^ heap'.indexBits ∧
      ∀ other, (Placed place' other ∨ other ∈ chain') ↔ (Placed place other ∨ other ∈ chain) := by
  induction steps generalizing heap place chain with
  | zero => omega
  | succ steps ih =>
    rw [expandLoop]
    by_cases done : maxHeapIndex ≤ prioTreeMaxindex heap.indexBits
    · rw [if_neg (not_lt.mpr done)]
      exact ⟨heap, place, chain, rfl, expanding, (le_maxindex_iff expanding.positive expanding.most).mp done,
        fun _ => Iff.rfl⟩
    · rw [if_pos (not_le.mp done)]
      rw [le_maxindex_iff expanding.positive expanding.most, not_lt] at done
      have most : heap.indexBits < 64 :=
        (Nat.pow_lt_pow_iff_right (by decide)).mp (Nat.lt_of_le_of_lt done word)
      by_cases empty : heap.prioTreeNode = 0
      · rw [if_pos empty]
        have gone (node : Nat) : ¬ Placed place node := by
          rw [expanding.tree.empty_of_root empty]
          exact not_placed_empty
        refine ih ⟨expanding.tree.congr (fun _ _ => ⟨fun _ => rfl, rfl⟩) rfl,
          expanding.chainHeld.congr fun _ _ => ⟨fun _ => rfl, rfl⟩, expanding.fresh, expanding.sorted,
          expanding.above, expanding.bounded, expanding.large, fun ⟨node, there⟩ => (gone node there).elim,
          le_add_left _ _, most⟩ ?_ fun ⟨node, there⟩ => (gone node there).elim
        dsimp only
        omega
      · have placed := expanding.tree.placed_root empty
        have more := fewer ⟨_, _, placed⟩
        obtain ⟨heap₁, heap', place', removed, shape, expanding', bits', placed'⟩ :=
          expanding.step enough placed done most
        obtain ⟨final, place'', chain'', looped, result⟩ := ih expanding' (by omega) fun some => by
          have := bits' some
          omega
        refine ⟨final, place'', chain'', ?_, result.1, result.2.1, fun other => ?_⟩
        · rw [if_neg empty, removed, ← looped, shape, headD_append_singleton, getLastD_concat]
          simp only [expanding.head_eq_zero_iff]
          split_ifs <;> rfl
        · rw [result.2.2, placed', mem_append, mem_singleton]
          have top : Placed place heap.prioTreeNode := ⟨_, placed⟩
          grind

/-- The links that `prio_tree_expand` sets at its end make one tree of the node, the chain and the rest. -/
theorem Expanding.link (nonzero : node ≠ 0) (fresh : ¬ Placed place node) (freshChain : node ∉ chain) :
    Holds (expandLink node (chain.headD 0) (chain.getLastD 0) heap) none
      ((node :: chain).foldr pushTop place) := by
  have tree₂ := expanding.tree.initNode fresh
  have outside : ¬ Placed (chain.foldr pushTop fun _ => none) node := mt placed_chain_empty.mp freshChain
  have chain₂ := expanding.chainHeld.congr fun _ there => sameLinks_initNode (there.ne outside)
  -- the chain below the node
  obtain ⟨heap₃, last, step₃, last₃, chain₃, tree₃⟩ : ∃ heap₃ last, (if chain.headD 0 ≠ 0 then
        (((heap.initNode node).setChild false node (chain.headD 0)).setParent (chain.headD 0) node,
          chain.getLastD 0)
        else (heap.initNode node, node)) = (heap₃, last) ∧ (∃ before, node :: chain = before ++ [last]) ∧
      Holds heap₃ none ((node :: chain).foldr pushTop fun _ => none) ∧ TreeAt index bits heap₃ place := by
    cases chain with
    | nil => exact ⟨_, _, rfl, ⟨[], rfl⟩, holds_initNode nonzero, tree₂⟩
    | cons first rest =>
      have firstNonzero : first ≠ 0 := expanding.chainHeld.nonzero (pushTop_nil _ _)
      refine ⟨_, _, if_pos firstNonzero, ?_, ?_, tree₂.link fresh (expanding.fresh first mem_cons_self)⟩
      · obtain ⟨before, last, same⟩ := (eq_nil_or_concat' (first :: rest)).resolve_left (cons_ne_nil _ _)
        refine ⟨node :: before, ?_⟩
        rw [same, getLastD_concat, cons_append]
      · have single : Holds (heap.initNode node) none (([] ++ [node]).foldr pushTop fun _ => none) :=
          holds_initNode nonzero
        refine single.chain_link chain₂ (pushTop_nil _ _) fun other mem there => ?_
        exact outside (mem_singleton.mp mem ▸ there)
  rw [expandLink]
  dsimp only
  rw [step₃]
  by_cases root : heap₃.prioTreeNode = 0
  · rw [if_neg (not_not.mpr root), tree₃.empty_of_root root]
    exact chain₃.congr fun _ _ => ⟨fun _ => rfl, rfl⟩
  · rw [if_pos root]
    obtain ⟨before, same⟩ := last₃
    rw [same] at chain₃ ⊢
    refine (chain₃.chain_link tree₃.held (tree₃.placed_root root) fun other mem => ?_).congr
      fun _ _ => ⟨fun _ => rfl, rfl⟩
    rw [← same] at mem
    rcases mem_cons.mp mem with rfl | mem
    · exact fresh
    · exact expanding.fresh other mem

end

theorem expandLink_indexBits (node first last : Nat) (heap : Heap) :
    (expandLink node first last heap).indexBits = heap.indexBits := by
  rw [expandLink]
  dsimp only
  split <;> split <;> rfl

/-- The number of bits left for the tree below the chain. -/
theorem Expanding.exists_bits (expanding : Expanding index bits heap place chain maxHeapIndex)
    (bound : maxHeapIndex < 2 ^ heap.indexBits) :
    ∃ below, heap.indexBits = below + chain.length + 1 ∧ KeyOrdered index below place ∧
      ∀ other, Placed place other ∨ other ∈ chain → (index other).heapIndex < 2 ^ below := by
  by_cases some : ∃ node, Placed place node
  · exact ⟨bits, by rw [expanding.level some]; omega, expanding.tree.ordered, expanding.small⟩
  · have positive := expanding.positive
    refine ⟨heap.indexBits - (chain.length + 1), ?_, .of_empty fun node there => some ⟨node, there⟩,
      fun other there => ?_⟩
    · cases chain with
      | nil =>
        rw [length_nil]
        omega
      | cons top rest =>
        have less := (Nat.pow_lt_pow_iff_right (by decide)).mp
          (lt_of_le_of_lt (expanding.large ⟨top, .inr mem_cons_self⟩) bound)
        omega
    · have less := (Nat.pow_lt_pow_iff_right (by decide)).mp
        (lt_of_le_of_lt (expanding.large ⟨other, there⟩) bound)
      exact Nat.lt_of_lt_of_le (expanding.small other there) (Nat.pow_le_pow_right (by decide) (by omega))

/-- The tree that `prio_tree_expand` leaves. -/
theorem Expanding.invariant (expanding : Expanding index bits heap place chain (index node).heapIndex)
    (bound : (index node).heapIndex < 2 ^ heap.indexBits) (nonzero : node ≠ 0)
    (fresh : ¬ Placed place node) (freshChain : node ∉ chain)
    (distinct : ∀ a b, Placed place a ∨ a ∈ chain → Placed place b ∨ b ∈ chain → index a = index b → a = b) :
    Invariant index (expandLink node (chain.headD 0) (chain.getLastD 0) heap)
      ((node :: chain).foldr pushTop place) := by
  obtain ⟨below, levels, ordered, fits⟩ := expanding.exists_bits bound
  have above (low : Nat) (there : Placed place low ∨ low ∈ chain) : (index node).Above (index low) := by
    have large := expanding.large ⟨low, there⟩
    exact .inl (Nat.lt_of_lt_of_le (expanding.small low there)
      (Nat.le_trans (Nat.pow_le_pow_right (by decide) (Nat.le_add_right _ _)) large))
  have nodes {other : Nat} (there : Placed ((node :: chain).foldr pushTop place) other) :
      other = node ∨ Placed place other ∨ other ∈ chain := by
    rw [placed_chain, mem_cons] at there
    tauto
  have chained := ordered_chain ordered fits expanding.sorted expanding.above
  have more : 2 ^ below ≤ 2 ^ (below + chain.length) :=
    Nat.pow_le_pow_right (by decide) (Nat.le_add_right _ _)
  have pushed := ordered_pushTop node chained
    (fun other there => lt_of_lt_of_le (fits other (placed_chain.mp there).symm) more)
    fun other there => above other (placed_chain.mp there).symm
  have whole := expandLink_indexBits node (chain.headD 0) (chain.getLastD 0) heap
  refine ⟨⟨expanding.link nonzero fresh freshChain, rfl, ?_, fun there => ?_,
    fun {a b} there there' same => ?_⟩, ?_, ?_⟩
  · rw [whole, levels]
    exact pushed
  · rw [whole]
    rcases nodes there with rfl | before
    · exact bound
    · exact Nat.lt_of_lt_of_le (fits _ before) (Nat.pow_le_pow_right (by decide) (by omega))
  · have differ {low : Nat} (before : Placed place low ∨ low ∈ chain) : index node ≠ index low := by
      intro equal
      have strict := above low before
      rw [equal] at strict
      exact Interval.Above.irrefl strict
    rcases nodes there with rfl | before <;> rcases nodes there' with rfl | before'
    · rfl
    · exact absurd same (differ before')
    · exact absurd same.symm (differ before)
    · exact distinct a b before before' same
  · rw [whole]
    exact expanding.positive
  · rw [whole]
    exact expanding.most

theorem prioTreeExpand_spec (inv : Invariant index heap place) (nonzero : node ≠ 0) (enough : 130 ≤ rounds)
    (large : (∃ other, Placed place other) → 2 ^ heap.indexBits ≤ (index node).heapIndex) :
    ∃ heap' place', prioTreeExpand index rounds node (index node).heapIndex heap = some heap' ∧
      Invariant index heap' place' ∧ ∀ other, Placed place' other ↔ other = node ∨ Placed place other := by
  obtain ⟨heap₀, start⟩ : ∃ heap₀, heap₀ = (if (index node).heapIndex > prioTreeMaxindex heap.indexBits then
    { heap with indexBits := heap.indexBits + 1 } else heap) := ⟨_, rfl⟩
  have word := (index node).bounded
  have positive := inv.positive
  have most := inv.most
  have grows : heap₀.indexBits = heap.indexBits + 1 ∧ heap.indexBits < 64 ∨
      heap₀.indexBits = heap.indexBits ∧ ¬ ∃ other, Placed place other := by
    by_cases above : (index node).heapIndex > prioTreeMaxindex heap.indexBits
    · have more := not_le.mpr above
      rw [le_maxindex_iff positive most, not_lt] at more
      rw [if_pos above] at start
      rw [start]
      exact .inl ⟨rfl, (Nat.pow_lt_pow_iff_right (by decide)).mp (Nat.lt_of_le_of_lt more word)⟩
    · rw [if_neg above] at start
      rw [start]
      refine .inr ⟨rfl, fun some => above (not_le.mp fun less => ?_)⟩
      exact not_lt.mpr (large some) ((le_maxindex_iff positive most).mp less)
  have same (other : Nat) : SameLinks heap heap₀ other := by
    rw [start]
    split <;> exact ⟨fun _ => rfl, rfl⟩
  have root₀ : heap₀.prioTreeNode = heap.prioTreeNode := by
    rw [start]
    split <;> rfl
  have expanding₀ : Expanding index heap.indexBits heap₀ place [] (index node).heapIndex := by
    refine ⟨inv.congr (fun other _ => same other) root₀, .of_empty fun _ => not_placed_empty,
      fun _ mem => (not_mem_nil mem).elim, .nil, fun _ mem => (not_mem_nil mem).elim,
      fun _ mem => (not_mem_nil mem).elim,
      fun ⟨other, there⟩ => large ⟨other, there.resolve_right not_mem_nil⟩, fun some =>
        ?_, by omega, by omega⟩
    exact (grows.resolve_right fun none => none.2 some).1
  obtain ⟨heap₁, place₁, chain, looped, expanding, bound, nodes⟩ := expandLoop_spec expanding₀ enough word
    (show 64 - heap₀.indexBits < rounds by omega) (fun _ => by omega)
  have fresh : ¬ (Placed place₁ node ∨ node ∈ chain) := by
    rw [nodes]
    rintro (there | mem)
    · exact not_lt.mpr (large ⟨_, there⟩) (inv.bounded there)
    · cases mem
  rw [not_or] at fresh
  refine ⟨expandLink node (chain.headD 0) (chain.getLastD 0) heap₁,
    (node :: chain).foldr pushTop place₁, ?_, ?_,
    fun other => ?_⟩
  · rw [prioTreeExpand]
    rw [← start]
    have looped' : expandLoop index rounds rounds (index node).heapIndex 0 0 heap₀ = _ := looped
    rw [looped']
    rfl
  · have before {other : Nat} (there : Placed place₁ other ∨ other ∈ chain) : Placed place other :=
      ((nodes other).mp there).resolve_right not_mem_nil
    exact expanding.invariant bound nonzero fresh.1 fresh.2 fun _ _ there there' =>
      inv.distinct (before there) (before there')
  · rw [placed_chain, mem_cons, or_assoc, or_comm (a := other ∈ chain), nodes]
    simp

open Option

variable {res mask : Nat} {sizeFlag : Bool}

/-! ### The mask -/

theorem and_two_pow_ne_zero_iff (n k : Nat) : n &&& 2 ^ k ≠ 0 ↔ n.testBit k = true := by
  rw [and_two_pow]
  cases n.testBit k <;> simp

theorem two_pow_shiftRight_one_eq_zero_iff (k : Nat) : 2 ^ k >>> 1 = 0 ↔ k = 0 := by
  cases k with
  | zero => decide
  | succ k =>
    rw [shiftRight_one, pow_succ]
    simp

theorem bitAt_succ_of_zero (zero : bitAt bits level = 0) :
    bitAt bits (level + 1) = 63 ∧ bits ≤ level + 1 := by
  unfold bitAt at *
  split_ifs at * <;> omega

theorem bitAt_succ (nonzero : bitAt bits level ≠ 0) :
    bitAt bits level = bitAt bits (level + 1) + 1 ∧ (bits ≤ level + 1 ↔ bits ≤ level) := by
  unfold bitAt at *
  split_ifs at * <;> omega

/-- The mask and the flag of the loop of `prio_tree_insert` at a level. -/
structure MaskAt (bits level mask : Nat) (sizeFlag : Bool) : Prop where
  mask : mask = 2 ^ bitAt bits level
  flag : sizeFlag = decide (bits ≤ level)

theorem MaskAt.digit (at_ : MaskAt bits level mask sizeFlag) (key : Interval) :
    decide ((if sizeFlag then key.heapIndex - key.radixIndex else key.radixIndex) &&& mask ≠ 0) =
      PrioTree.digit bits level key := by
  rw [at_.mask, at_.flag, PrioTree.digit]
  by_cases inside : level < bits
  · rw [if_neg (by simpa using inside), if_pos inside, Bool.eq_iff_iff, decide_eq_true_iff,
      and_two_pow_ne_zero_iff]
  · rw [if_pos (by simpa using inside), if_neg inside, Bool.eq_iff_iff, decide_eq_true_iff,
      and_two_pow_ne_zero_iff]

theorem MaskAt.next (at_ : MaskAt bits level mask sizeFlag) :
    (mask >>> 1 = 0 → MaskAt bits (level + 1) (1 <<< (bitsPerLong - 1)) true) ∧
      (mask >>> 1 ≠ 0 → MaskAt bits (level + 1) (mask >>> 1) sizeFlag) := by
  rw [at_.mask, at_.flag, ne_eq, two_pow_shiftRight_one_eq_zero_iff]
  constructor
  · intro zero
    obtain ⟨bit, deep⟩ := bitAt_succ_of_zero zero
    exact ⟨by rw [bit]; rfl, by simpa using deep⟩
  · intro nonzero
    obtain ⟨bit, deep⟩ := bitAt_succ nonzero
    refine ⟨?_, by simp [deep]⟩
    rw [bit, Nat.shiftRight_one, Nat.pow_succ, Nat.mul_div_cancel _ (by decide)]

/-! ### An equal interval -/

theorem insertLoop_found (inv : Invariant index heap place) {dup : Nat} {ext : List Bool}
    (placed : place path = some cur) (found : place (ext ++ path) = some dup) (same : index dup = index node)
    (at_ : MaskAt heap.indexBits path.length mask sizeFlag) (enough : ext.length < rounds) :
    insertLoop index rounds cur node mask sizeFlag res heap = some (heap, dup) := by
  induction rounds generalizing ext path cur mask sizeFlag with
  | zero => exact absurd enough (not_lt_zero _)
  | succ rounds ih =>
    have nonzero : mask ≠ 0 := by
      rw [at_.mask]
      exact (Nat.two_pow_pos _).ne'
    rw [insertLoop, if_neg nonzero]
    rcases eq_nil_or_concat' ext with rfl | ⟨before, side, rfl⟩
    · obtain rfl : cur = dup := some_inj.mp (placed.symm.trans found)
      rw [if_pos (by rw [same]; exact ⟨rfl, rfl⟩)]
    · rw [append_assoc] at found
      have deeper : place (before ++ side :: path) = some dup := found
      obtain ⟨child, below⟩ : ∃ child, place (side :: path) = some child := by
        rcases here : place (side :: path) with _ | child
        · rw [inv.ordered.none_append here] at deeper
          cases deeper
        · exact ⟨child, rfl⟩
      obtain ⟨step, rest, shape⟩ : ∃ step rest, before ++ [side] = step :: rest :=
        exists_cons_of_ne_nil (by simp)
      obtain ⟨high, placedHigh, above⟩ : ∃ high, place path = some high ∧ (index high).Above (index dup) := by
        have under : place (step :: rest ++ path) = some dup := by
          rw [← shape]
          simpa using deeper
        exact inv.ordered.above_append (fun first second => first.trans second) under
      obtain rfl : high = cur := some_inj.mp (placedHigh.symm.trans placed)
      rw [same] at above
      have differ : ¬ ((index high).radixIndex = (index node).radixIndex ∧
          (index high).heapIndex = (index node).heapIndex) := fun ⟨radix, heapEq⟩ => by
        rw [Interval.ext radix heapEq] at above
        exact Interval.Above.irrefl above
      have stays : goesAbove (index node) (index high) = false := by
        rw [Bool.eq_false_iff, ne_eq, goesAbove_iff]
        exact fun reverse => Interval.Above.irrefl (above.trans reverse)
      have digits : digit heap.indexBits path.length (index node) = side := by
        rw [← same]
        exact (inv.ordered.select deeper).of_append.1
      rw [if_neg differ, insertSwap, stays]
      simp only [Bool.false_eq_true, if_false, bind_eq_bind, bind_some, at_.digit, digits]
      rw [if_neg (by rw [inv.held.child_eq_iff placed, below]; simp), inv.held.child_eq below placed]
      have fewer : before.length < rounds := by
        rw [length_append, length_singleton] at enough
        omega
      obtain ⟨zero, more⟩ := at_.next
      split_ifs with last
      · exact ih below deeper (zero last) fewer
      · exact ih below deeper (more last) fewer

/-! ### A new interval -/

section

variable (inv : Invariant index heap place) (placed : place path = some cur)
  (selected : Selected (fun level node => digit heap.indexBits level (index node)) node path)
  (new : ∀ other, Placed place other → index other ≠ index node) (nonzero : node ≠ 0)
  (bounded : (index node).heapIndex < 2 ^ heap.indexBits)
include inv placed selected new nonzero bounded

/-- The swap of `prio_tree_insert`: afterwards the first node at the path comes before the one that goes
further down. -/
theorem insertSwap_spec (up : ∀ side rest high, path = side :: rest → place rest = some high →
    (index high).Above (index node)) :
    ∃ heap₁ place₁ top low, insertSwap index cur node heap = some (heap₁, top, low) ∧
      Invariant index heap₁ place₁ ∧ heap₁.indexBits = heap.indexBits ∧ place₁ path = some top ∧
      (index top).Above (index low) ∧ low ≠ 0 ∧ (index low).heapIndex < 2 ^ heap.indexBits ∧
      Selected (fun level node => digit heap.indexBits level (index node)) low path ∧
      (∀ other, Placed place₁ other → index other ≠ index low) ∧
      ∀ other, (other = low ∨ Placed place₁ other) ↔ (other = node ∨ Placed place other) := by
  have curPlaced : Placed place cur := ⟨path, placed⟩
  have fresh : ¬ Placed place node := fun there => new node there rfl
  by_cases above : goesAbove (index node) (index cur) = true
  · rw [goesAbove_iff] at above
    obtain ⟨heap₁, replaced, became⟩ := prioTreeReplace_became inv.held inv.root placed nonzero fresh
    have tree := inv.put became selected (fun side child below => by
        obtain ⟨high, placedHigh, aboveChild⟩ := inv.ordered.order below
        rw [placed, some_inj] at placedHigh
        exact above.trans (placedHigh ▸ aboveChild))
      (fun side rest shape => by
        rw [shape] at placed
        obtain ⟨high, placedHigh, _⟩ := inv.ordered.order placed
        exact ⟨high, placedHigh, up side rest high shape placedHigh⟩) bounded new
    refine ⟨heap₁, _, node, cur, ?_, ⟨became.bits ▸ tree, became.bits ▸ inv.positive,
      became.bits ▸ inv.most⟩, became.bits, Function.update_self _ _ _, above, inv.held.nonzero placed,
      inv.bounded curPlaced, inv.ordered.select placed, fun other there => ?_, fun other => ?_⟩
    · rw [insertSwap, goesAbove_iff.mpr above, replaced]
      rfl
    · rcases inv.held.apart.placed_put.mp there with rfl | ⟨before, elsewhere⟩
      · exact (new cur curPlaced).symm
      · intro same
        exact elsewhere (placed.trans (congrArg some (inv.distinct curPlaced before same.symm)))
    · rw [inv.held.apart.placed_put, placed]
      by_cases isCur : other = cur
      · simp [isCur, curPlaced]
      · simp [isCur, Ne.symm isCur]
  · have stays := above
    rw [goesAbove_iff] at above
    refine ⟨heap, place, cur, node, by rw [insertSwap, if_neg stays], inv, rfl, placed,
      Interval.Above.of_not (Ne.symm (new cur curPlaced)) above, nonzero, bounded, selected, new,
        fun _ => Iff.rfl⟩

theorem insertLoop_spec (up : ∀ side rest high, path = side :: rest → place rest = some high →
    (index high).Above (index node))
    (at_ : MaskAt heap.indexBits path.length mask sizeFlag)
    (enough : heap.indexBits + 64 ≤ path.length + rounds) :
    ∃ heap' place', insertLoop index rounds cur node mask sizeFlag res heap = some (heap', res) ∧
      Invariant index heap' place' ∧ ∀ other, Placed place' other ↔ other = node ∨ Placed place other := by
  induction rounds generalizing heap place path cur node mask sizeFlag with
  | zero =>
    refine absurd ?_ (new cur ⟨path, placed⟩)
    exact key_eq (inv.bounded ⟨path, placed⟩) bounded
      ((inv.ordered.select placed).digit_eq selected) enough
  | succ rounds ih =>
    have differ : ¬ ((index cur).radixIndex = (index node).radixIndex ∧
        (index cur).heapIndex = (index node).heapIndex) := fun ⟨radix, heapEq⟩ =>
      new cur ⟨path, placed⟩ (Interval.ext radix heapEq)
    have maskNonzero : mask ≠ 0 := by
      rw [at_.mask]
      exact (Nat.two_pow_pos _).ne'
    obtain ⟨heap₁, place₁, top, low, swapped, invariant₁, bits₁, placedTop, above, lowNonzero, lowBounded,
      lowSelected, lowNew, nodes⟩ := insertSwap_spec inv placed selected new nonzero bounded up
    rw [← bits₁] at at_ lowBounded lowSelected enough
    have lowFresh : ¬ Placed place₁ low := fun there => lowNew low there rfl
    obtain ⟨side, isSide⟩ : ∃ side, side = digit heap₁.indexBits path.length (index low) := ⟨_, rfl⟩
    rw [insertLoop, if_neg maskNonzero, if_neg differ, swapped]
    simp only [bind_eq_bind, bind_some, at_.digit, ← isSide]
    have selectedBelow :
        Selected (fun level node => digit heap₁.indexBits level (index node)) low (side :: path) :=
      ⟨isSide.symm, lowSelected⟩
    rcases below : place₁ (side :: path) with _ | child
    · rw [if_pos ((invariant₁.held.child_eq_iff placedTop).mpr below)]
      have empty (step : Bool) : place₁ (step :: side :: path) = none := invariant₁.ordered.none_below below
      have became := attach_became invariant₁.held invariant₁.root placedTop empty lowNonzero lowFresh
      have tree := invariant₁.put became selectedBelow
        (fun step child there => by rw [empty] at there; cases there)
        (fun step rest shape => by
          rw [List.cons.injEq] at shape
          exact ⟨top, shape.2 ▸ placedTop, above⟩) lowBounded lowNew
      refine ⟨_, _, rfl,
        ⟨became.bits ▸ tree, became.bits ▸ invariant₁.positive, became.bits ▸ invariant₁.most⟩,
        fun other => ?_⟩
      rw [← nodes, invariant₁.held.apart.placed_put, below]
      simp
    · rw [if_neg (by rw [invariant₁.held.child_eq_iff placedTop, below]; simp),
        invariant₁.held.child_eq below placedTop]
      have deeper : heap₁.indexBits + 64 ≤ (side :: path).length + rounds := by
        rw [length_cons]
        omega
      have upLow (step : Bool) (rest : List Bool) (high : Nat) (shape : side :: path = step :: rest)
          (placedHigh : place₁ rest = some high) : (index high).Above (index low) := by
        rw [List.cons.injEq] at shape
        rw [← shape.2, placedTop, some_inj] at placedHigh
        exact placedHigh ▸ above
      obtain ⟨zero, more⟩ := at_.next
      have recurse {next : Nat} {flag : Bool} (at' : MaskAt heap₁.indexBits (path.length + 1) next flag) :=
        ih invariant₁ below selectedBelow lowNew lowNonzero lowBounded upLow at' deeper
      simp only [nodes] at recurse
      split_ifs with last
      · exact recurse (zero last)
      · exact recurse (more last)

end

/-! ### `prio_tree_insert` -/

theorem maskAt_zero (pos : 1 ≤ bits) : MaskAt bits 0 (1 <<< (bits - 1)) false := by
  refine ⟨?_, ?_⟩
  · rw [bitAt, if_pos (Nat.lt_of_succ_le pos), Nat.sub_zero, Nat.one_shiftLeft]
  · rw [eq_comm, decide_eq_false_iff_not]
    omega

theorem prioTreeInsert_found (inv : Invariant index heap place) {dup : Nat} (found : Placed place dup)
    (same : index dup = index node) (enough : 130 ≤ rounds) :
    prioTreeInsert index rounds node heap = some (heap, dup) := by
  obtain ⟨path, placed⟩ := found
  have nonempty : heap.prioTreeNode ≠ 0 := fun empty => by
    rw [inv.empty_of_root empty] at placed
    cases placed
  have small : (index node).heapIndex ≤ prioTreeMaxindex heap.indexBits := by
    rw [le_maxindex_iff inv.positive inv.most, ← same]
    exact inv.bounded ⟨path, placed⟩
  have depth := inv.depth placed
  have most := inv.most
  rw [prioTreeInsert, if_neg (not_or.mpr ⟨nonempty, not_lt.mpr small⟩)]
  rw [← append_nil path] at placed
  exact insertLoop_found inv (inv.placed_root nonempty) placed same (maskAt_zero inv.positive)
    (by omega)

theorem prioTreeInsert_new (inv : Invariant index heap place) (nonzero : node ≠ 0)
    (new : ∀ other, Placed place other → index other ≠ index node) (enough : 130 ≤ rounds) :
    ∃ heap' place', prioTreeInsert index rounds node heap = some (heap', node) ∧
      Invariant index heap' place' ∧
      ∀ other, Placed place' other ↔ other = node ∨ Placed place other := by
  have most := inv.most
  by_cases expand : heap.prioTreeNode = 0 ∨ (index node).heapIndex > prioTreeMaxindex heap.indexBits
  · obtain ⟨heap', place', expanded, result⟩ :=
      prioTreeExpand_spec inv nonzero enough fun ⟨other, there⟩ => by
      rcases expand with empty | large
      · rw [inv.empty_of_root empty] at there
        exact (not_placed_empty there).elim
      · have less := not_le.mpr large
        rwa [le_maxindex_iff inv.positive inv.most, not_lt] at less
    refine ⟨heap', place', ?_, result⟩
    rw [prioTreeInsert, if_pos expand, expanded]
    rfl
  · rw [prioTreeInsert, if_neg expand]
    rw [not_or, not_lt, le_maxindex_iff inv.positive inv.most] at expand
    exact insertLoop_spec inv (inv.placed_root expand.1) trivial new nonzero expand.2
      (fun side rest high shape => by cases shape) (maskAt_zero inv.positive) (by rw [length_nil]; omega)

end LinuxKernel.Lib.PrioTree
