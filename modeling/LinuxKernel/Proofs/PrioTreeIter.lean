/-
Module: LinuxKernel.Proofs.PrioTreeIter
Purpose: The iteration over the nodes that overlap a query. The fields of an iterator are a function of the
  path it is at; the walk leaves out only subtrees without an overlapping node.
Trusted boundary: none
Main exports: Reached, prioTreeForeach_spec, prioTree_correct
-/
import LinuxKernel.Proofs.PrioTree

namespace LinuxKernel.Lib.PrioTree

open Library List Nat Option

variable {index : Nat → Interval} {heap : Heap} {place : PathTree Nat} {path path' : List Bool}
  {iter iter' : Iter}
  {node cur bits r h rounds steps : Nat} {side : Bool}

/-! ### The fields of the iterator -/

/-- `iter->mask` at a level. -/
def iterMask (bits level : Nat) : Nat := if level = bits + 64 then ulongMax else 2 ^ bitAt bits level

/-- `iter->value` at a path: the bits of `radix_index` that the path decides. -/
def valueOf (bits : Nat) : List Bool → Nat
  | [] => 0
  | side :: path =>
    if side ∧ path.length < bits then valueOf bits path ||| 2 ^ bitAt bits path.length else valueOf bits path

/-- The iterator for the query `[r, h]` is at the node at the path. -/
structure AtPath (heap : Heap) (place : PathTree Nat) (r h : Nat) (iter : Iter) (path : List Bool) :
    Prop where
  placed : place path = some iter.cur
  mask : iter.mask = iterMask heap.indexBits path.length
  value : iter.value = valueOf heap.indexBits path
  level : iter.sizeLevel = path.length + 1 - heap.indexBits
  lower : iter.rIndex = r
  upper : iter.hIndex = h

theorem valueOf_testBit_low {j : Nat} (low : j + path.length < bits) :
    (valueOf bits path).testBit j = false := by
  induction path with
  | nil => exact zero_testBit _
  | cons side path ih =>
    rw [length_cons] at low
    rw [valueOf]
    split_ifs with inside
    · rw [testBit_or, ih (by omega), testBit_two_pow_of_ne, Bool.or_false]
      rw [bitAt, if_pos inside.2]
      omega
    · exact ih (by omega)

/-- The keys at and below a path are not below its value. -/
theorem valueOf_le (selected : Selected (fun level node => digit bits level (index node)) node path) :
    valueOf bits path ≤ (index node).radixIndex := by
  have bits_sub (j : Nat) : (valueOf bits path).testBit j = true →
      (index node).radixIndex.testBit j = true := by
    induction path with
    | nil => simp [valueOf]
    | cons side path ih =>
      rw [valueOf]
      split_ifs with inside
      · rw [testBit_or, Bool.or_eq_true, testBit_two_pow, decide_eq_true_iff]
        rintro (before | rfl)
        · exact ih selected.2 before
        · have here : digit bits path.length (index node) = side := selected.1
          rw [digit, if_pos inside.2, inside.1] at here
          exact here
      · exact ih selected.2
  have same : valueOf bits path &&& (index node).radixIndex = valueOf bits path := by
    refine eq_of_testBit_eq fun j => ?_
    rw [testBit_and]
    cases value : (valueOf bits path).testBit j with
    | false => rw [Bool.false_and]
    | true => rw [bits_sub j value, Bool.and_true]
  exact same ▸ and_le_right

theorem bitAt_lt (pos : 1 ≤ bits) (most : bits ≤ 64) (level : Nat) : bitAt bits level < 64 := by
  rw [bitAt]
  split_ifs <;> omega

theorem two_pow_ne_ulongMax {k : Nat} (small : k < 64) : 2 ^ k ≠ ulongMax := by
  have := Nat.pow_le_pow_right (show 0 < 2 by decide) (show k ≤ 63 by omega)
  have : 2 ^ 63 < ulongMax := by decide
  omega

variable (inv : Invariant index heap place)

include inv

theorem goDown_spec (at_ : AtPath heap place r h iter path) (below : place (side :: path) = some node) :
    ∃ iter', goDown iter node (valueOf heap.indexBits (side :: path)) heap = some iter' ∧
      AtPath heap place r h iter' (side :: path) := by
  have depth := inv.depth below
  rw [length_cons] at depth
  have mask : iter.mask = 2 ^ bitAt heap.indexBits path.length := by
    rw [at_.mask, iterMask, if_neg (by omega)]
  have goes {mask' level' : Nat} (maskEq : mask' = iterMask heap.indexBits (path.length + 1))
      (levelEq : level' = path.length + 1 + 1 - heap.indexBits) :
      AtPath heap place r h ⟨node, mask', valueOf heap.indexBits (side :: path), level',
        iter.rIndex, iter.hIndex⟩
        (side :: path) := ⟨below, maskEq, rfl, levelEq, at_.lower, at_.upper⟩
  rw [goDown, mask, at_.level]
  by_cases zero : bitAt heap.indexBits path.length = 0
  · rw [if_neg (not_not.mpr ((two_pow_shiftRight_one_eq_zero_iff _).mpr zero))]
    obtain ⟨bit, deep⟩ := bitAt_succ_of_zero zero
    by_cases size : path.length + 1 - heap.indexBits = 0
    · rw [if_neg (not_not.mpr size)]
      refine ⟨_, rfl, goes ?_ (by omega)⟩
      rw [iterMask, if_neg (by omega), bit]
      rfl
    · have last : path.length = heap.indexBits + 63 := by
        rw [bitAt] at zero
        split_ifs at zero <;> omega
      have leaf (step : Bool) : heap.child step node = node := by
        rw [inv.held.child_eq_iff below, eq_none_iff_forall_ne_some]
        intro other there
        have := inv.depth there
        rw [length_cons, length_cons] at this
        omega
      rw [if_pos size, leaf, leaf, if_neg (by simp)]
      refine ⟨_, rfl, goes ?_ (by omega)⟩
      rw [iterMask, if_pos (by omega)]
  · rw [if_pos (mt (two_pow_shiftRight_one_eq_zero_iff _).mp zero)]
    obtain ⟨bit, deep⟩ := bitAt_succ zero
    have shifted :
        2 ^ bitAt heap.indexBits path.length >>> 1 = iterMask heap.indexBits (path.length + 1) := by
      have notLast : path.length + 1 ≠ heap.indexBits + 64 := by
        intro last
        rw [bitAt, if_neg (by omega)] at zero
        omega
      rw [iterMask, if_neg notLast, bit, Nat.shiftRight_one, Nat.pow_succ, Nat.mul_div_cancel _ (by decide)]
    split_ifs with size
    · exact ⟨_, rfl, goes shifted (by omega)⟩
    · exact ⟨_, rfl, goes shifted (by omega)⟩

/-- `prio_tree_parent` undoes a step down. -/
theorem prioTreeParent_spec (at_ : AtPath heap place r h iter (side :: path)) :
    AtPath heap place r h (prioTreeParent iter heap) path := by
  have depth := inv.depth at_.placed
  have positive := inv.positive
  have most := inv.most
  have mask := at_.mask
  have level := at_.level
  rw [length_cons] at depth mask level
  have newMask : (if iter.mask = ulongMax then 1 else if iter.sizeLevel = 1 then 1
      else (iter.mask <<< 1) % 2 ^ bitsPerLong) = 2 ^ bitAt heap.indexBits path.length := by
    by_cases last : path.length + 1 = heap.indexBits + 64
    · rw [iterMask, if_pos last] at mask
      rw [if_pos mask, bitAt, if_neg (by omega), show 63 - (path.length - heap.indexBits) % 64 = 0 by omega]
      rfl
    · rw [iterMask, if_neg last] at mask
      rw [mask, if_neg (two_pow_ne_ulongMax (bitAt_lt positive most _))]
      by_cases first : path.length + 1 = heap.indexBits
      · rw [if_pos (by omega), bitAt, if_pos (by omega), show heap.indexBits - 1 - path.length = 0 by omega]
        rfl
      · have nonzero : bitAt heap.indexBits path.length ≠ 0 := by
          rw [bitAt]
          split_ifs <;> omega
        have inside := bitAt_lt positive most path.length
        rw [(bitAt_succ nonzero).1] at inside ⊢
        rw [if_neg (by omega), shiftLeft_eq, ← pow_add, mod_eq_of_lt]
        exact Nat.pow_lt_pow_right (by decide) inside
  have newLevel : (if iter.sizeLevel ≠ 0 then iter.sizeLevel - 1 else iter.sizeLevel) =
      path.length + 1 - heap.indexBits := by
    split_ifs <;> omega
  have newValue : (if path.length + 1 - heap.indexBits = 0 ∧
        iter.value &&& 2 ^ bitAt heap.indexBits path.length ≠ 0 then
        iter.value ^^^ 2 ^ bitAt heap.indexBits path.length else iter.value) =
          valueOf heap.indexBits path := by
    simp only [at_.value, valueOf, and_two_pow_ne_zero_iff]
    by_cases inside : path.length < heap.indexBits
    · have free : (valueOf heap.indexBits path).testBit (bitAt heap.indexBits path.length) = false := by
        refine valueOf_testBit_low ?_
        rw [bitAt, if_pos inside]
        omega
      cases side with
      | false => simp [free]
      | true =>
        have zero : path.length + 1 - heap.indexBits = 0 := by omega
        simp only [inside, zero]
        refine eq_of_testBit_eq fun j => ?_
        by_cases same : bitAt heap.indexBits path.length = j
        · rw [← same, free]
          simp
        · simp [same]
    · have nonzero : path.length + 1 - heap.indexBits ≠ 0 := by omega
      simp only [inside, and_false, if_false, nonzero, false_and]
  simp only [prioTreeParent, newMask, newLevel, newValue]
  refine ⟨inv.held.parent at_.placed, ?_, rfl, rfl, at_.lower, at_.upper⟩
  rw [iterMask, if_neg (by omega)]

/-! ### Steps down -/

/-- The interval overlaps the query `[r, h]`. -/
def Hit (r h : Nat) (key : Interval) : Prop := key.radixIndex ≤ h ∧ r ≤ key.heapIndex

omit inv

/-- The heap order over several steps. -/
theorem TreeAt.heap_le (tree : TreeAt index bits heap place) {low : Nat} (placed : place path = some node)
    (below : path <:+ path') (placedLow : place path' = some low) :
      (index low).heapIndex ≤ (index node).heapIndex := by
  obtain ⟨ext, rfl⟩ := below
  cases ext with
  | nil =>
    rw [nil_append, placed, some_inj] at placedLow
    rw [placedLow]
  | cons step ext =>
    obtain ⟨high, placedHigh, above⟩ :=
      tree.ordered.above_append (fun first second => first.trans second) placedLow
    rw [placed, some_inj] at placedHigh
    exact placedHigh ▸ above.heap_le

/-- The iterator is below the path, or no node there overlaps the query. -/
def Descends (index : Nat → Interval) (heap : Heap) (place : PathTree Nat) (r h : Nat)
    (result : Option (Option Iter))
    (path : List Bool) : Prop :=
  (∃ iter', result = some (some iter') ∧ AtPath heap place r h iter' path ∧ r ≤ (index iter'.cur).heapIndex) ∨
    (result = some none ∧ ∀ q node, path <:+ q → place q = some node → ¬ Hit r h (index node))

include inv

theorem no_hits_of_none (empty : place path = none) (q : List Bool)
    (node : Nat) (below : path <:+ q) (placed : place q = some node) : ¬ Hit r h (index node) := by
  obtain ⟨ext, rfl⟩ := below
  rw [inv.ordered.none_append empty] at placed
  cases placed

section

variable (at_ : AtPath heap place r h iter path)

include at_

/-- Both ways down end alike once the tests before are passed. -/
theorem descends_goDown (below : place (side :: path) = some node) :
    Descends index heap place r h (if iter.rIndex ≤ (index node).heapIndex then
      (goDown iter node (valueOf heap.indexBits (side :: path)) heap).map some else some none)
        (side :: path) := by
  split_ifs with reaches
  · obtain ⟨iter', down, at'⟩ := goDown_spec inv at_ below
    rw [down]
    refine .inl ⟨iter', rfl, at', ?_⟩
    rw [← some_inj.mp (below.symm.trans at'.placed), ← at_.lower]
    exact reaches
  · refine .inr ⟨rfl, fun q low under placed hit => reaches ?_⟩
    rw [at_.lower]
    exact le_trans hit.2 (inv.heap_le below under placed)

theorem prioTreeLeft_spec : Descends index heap place r h (prioTreeLeft index iter heap) (false :: path) := by
  rw [prioTreeLeft]
  cases below : place (false :: path) with
  | none =>
    rw [if_pos ((inv.held.child_eq_iff at_.placed).mpr below)]
    exact .inr ⟨rfl, no_hits_of_none inv below⟩
  | some child =>
    rw [if_neg (by rw [inv.held.child_eq_iff at_.placed, below]; simp),
      inv.held.child_eq below at_.placed, at_.value]
    exact descends_goDown inv at_ below

theorem prioTreeRight_spec :
    Descends index heap place r h (prioTreeRight index iter heap) (true :: path) := by
  rw [prioTreeRight]
  cases below : place (true :: path) with
  | none =>
    rw [if_pos ((inv.held.child_eq_iff at_.placed).mpr below)]
    exact .inr ⟨rfl, no_hits_of_none inv below⟩
  | some child =>
    have depth := inv.depth below
    rw [length_cons] at depth
    have value : (if iter.sizeLevel ≠ 0 then iter.value else iter.value ||| iter.mask) =
        valueOf heap.indexBits (true :: path) := by
      have mask : iter.mask = 2 ^ bitAt heap.indexBits path.length := by
        rw [at_.mask, iterMask, if_neg (by omega)]
      have level := at_.level
      rw [at_.value, mask, valueOf]
      by_cases inside : path.length < heap.indexBits
      · rw [if_neg (by omega), if_pos ⟨rfl, inside⟩]
      · rw [if_pos (by omega), if_neg (fun both => inside both.2)]
    rw [if_neg (by rw [inv.held.child_eq_iff at_.placed, below]; simp),
      inv.held.child_eq below at_.placed]
    simp only [value]
    by_cases beyond : iter.hIndex < valueOf heap.indexBits (true :: path)
    · rw [if_pos beyond]
      refine .inr ⟨rfl, fun q low under placed hit => ?_⟩
      have least := valueOf_le (inv.selected_of_suffix under placed)
      rw [at_.upper] at beyond
      exact absurd hit.1 (by omega)
    · rw [if_neg beyond]
      exact descends_goDown inv at_ below

end

/-! ### The walk -/

/-- The nodes that the walk comes to after the right side of the path. -/
def Right (place : PathTree Nat) (path : List Bool) (node : Nat) : Prop :=
  ∃ q, place q = some node ∧ ((true :: path) <:+ q ∨ Later path q)

/-- The nodes that the walk comes to after the node at the path. -/
def Rest (place : PathTree Nat) (path : List Bool) (node : Nat) : Prop :=
  ∃ q, place q = some node ∧ ((false :: path) <:+ q ∨ (true :: path) <:+ q ∨ Later path q)

/-- The walk has reached a node and left out no overlapping one of `start`. -/
structure Reached (index : Nat → Interval) (place : PathTree Nat) (r h : Nat) (start : Nat → Prop)
    (path : List Bool) (cur : Nat) : Prop where
  here : start cur
  rest : ∀ node, Rest place path node → start node
  hits : ∀ node, start node → Hit r h (index node) → node = cur ∨ Rest place path node

/-- Of the nodes of `start`, only those of `rest` are still to be looked at. -/
structure Narrows (index : Nat → Interval) (r h : Nat) (start rest : Nat → Prop) : Prop where
  within : ∀ node, rest node → start node
  hits : ∀ node, start node → Hit r h (index node) → rest node

omit inv

variable {start start' : Nat → Prop}

theorem Reached.narrows (reached : Reached index place r h start path cur) (miss : ¬ Hit r h (index cur)) :
    Narrows index r h start (Rest place path) := by
  refine ⟨reached.rest, fun node there hit => (reached.hits node there hit).resolve_left ?_⟩
  rintro rfl
  exact miss hit

section

variable (narrows : Narrows index r h start start')

include narrows

theorem Narrows.trans {rest : Nat → Prop} (next : Narrows index r h start' rest) :
    Narrows index r h start rest :=
  ⟨fun node there => narrows.within node (next.within node there),
    fun node there hit => next.hits node (narrows.hits node there hit) hit⟩

theorem Narrows.reached (reached : Reached index place r h start' path cur) :
    Reached index place r h start path cur :=
  ⟨narrows.within _ reached.here, fun node there => narrows.within node (reached.rest node there),
    fun node there hit => reached.hits node (narrows.hits node there hit) hit⟩

theorem Narrows.none (none : ∀ node, start' node → ¬ Hit r h (index node)) (node : Nat) (there : start node) :
    ¬ Hit r h (index node) := fun hit => none node (narrows.hits node there hit) hit

end

theorem not_rest_self (inv : Invariant index heap place) (placed : place path = some node) :
    ¬ Rest place path node := by
  rintro ⟨q, there, under⟩
  obtain rfl := inv.held.apart _ _ _ placed there
  rcases under with left | right | later
  · exact not_succ_le_self _ left.length_le
  · exact not_succ_le_self _ right.length_le
  · exact later.not_suffix suffix_rfl

theorem eq_or_rest {q : List Bool} (placed : place path = some cur) (there : place q = some node)
    (under : path <:+ q) : node = cur ∨ Rest place path node := by
  rcases suffix_iff.mp under with rfl | left | right
  · exact .inl (some_inj.mp (there.symm.trans placed))
  · exact .inr ⟨q, there, .inl left⟩
  · exact .inr ⟨q, there, .inr (.inl right)⟩

/-- Going down to the left, all that comes after the child is still to come. -/
theorem reached_left (placed : place (false :: path) = some node) :
    Reached index place r h (Rest place path) (false :: path) node := by
  refine ⟨⟨_, placed, .inl suffix_rfl⟩, fun low ⟨q, there, under⟩ => ⟨q, there, ?_⟩,
    fun low ⟨q, there, under⟩ _ => ?_⟩
  · rcases under with left | right | beside | later
    · exact .inl ((suffix_cons _ _).trans left)
    · exact .inl ((suffix_cons _ _).trans right)
    · exact .inr (.inl beside)
    · exact .inr (.inr later)
  · rcases under with left | right | later
    · exact eq_or_rest placed there left
    · exact .inr ⟨q, there, .inr (.inr (.inl right))⟩
    · exact .inr ⟨q, there, .inr (.inr (.inr later))⟩

theorem reached_right (placed : place (true :: path) = some node) :
    Reached index place r h (Right place path) (true :: path) node := by
  refine ⟨⟨_, placed, .inl suffix_rfl⟩, fun low ⟨q, there, under⟩ => ⟨q, there, ?_⟩,
    fun low ⟨q, there, under⟩ _ => ?_⟩
  · rcases under with left | right | later
    · exact .inl ((suffix_cons _ _).trans left)
    · exact .inl ((suffix_cons _ _).trans right)
    · exact .inr later
  · rcases under with right | later
    · exact eq_or_rest placed there right
    · exact .inr ⟨q, there, .inr (.inr later)⟩

theorem overlap_iff (at_ : AtPath heap place r h iter path) :
    overlap index iter = true ↔ Hit r h (index iter.cur) := by
  rw [overlap, Bool.and_eq_true, decide_eq_true_iff, decide_eq_true_iff, at_.lower, at_.upper, Hit]

include inv

section

variable (at_ : AtPath heap place r h iter path)

include at_

theorem leftLoop_spec (enough : heap.indexBits + 64 < path.length + rounds) :
    ∃ iter' path' found, leftLoop index rounds iter heap = some (iter', found) ∧
      AtPath heap place r h iter' path' ∧
      if found then Reached index place r h (Rest place path) path' iter'.cur ∧ Hit r h (index iter'.cur)
      else Narrows index r h (Rest place path) (Right place path') := by
  induction rounds generalizing iter path with
  | zero => exact absurd (inv.depth at_.placed) (by omega)
  | succ rounds ih =>
    rw [leftLoop]
    rcases prioTreeLeft_spec inv at_ with ⟨iter₁, down, at₁, _⟩ | ⟨stop, miss⟩
    · rw [down]
      simp only [bind_eq_bind, bind_some]
      have reached : Reached index place r h (Rest place path) (false :: path) iter₁.cur :=
        reached_left at₁.placed
      split_ifs with hit
      · exact ⟨iter₁, _, true, rfl, at₁, reached, (overlap_iff at₁).mp hit⟩
      · rw [overlap_iff at₁] at hit
        obtain ⟨iter', path', found, done, at', result⟩ := ih at₁ (by rw [length_cons]; omega)
        refine ⟨iter', path', found, done, at', ?_⟩
        cases found with
        | true => exact ⟨(reached.narrows hit).reached result.1, result.2⟩
        | false => exact (reached.narrows hit).trans result
    · rw [stop]
      refine ⟨iter, path, false, rfl, at_, fun node ⟨q, there, under⟩ => ⟨q, there, .inr under⟩,
        fun node ⟨q, there, under⟩ hit => ?_⟩
      rcases under with left | under
      · exact absurd hit (miss q node left there)
      · exact ⟨q, there, under⟩

theorem upLoop_spec (enough : path.length < rounds) :
    ∃ iter' path', upLoop rounds iter heap = some iter' ∧ AtPath heap place r h iter' path' ∧
      (path' = [] ∨ ∃ rest, path' = false :: rest) ∧ path'.length ≤ path.length ∧ ∀ q, Later path q ↔
        Later path' q := by
  induction rounds generalizing iter path with
  | zero => exact absurd enough (not_lt_zero _)
  | succ rounds ih =>
    rw [upLoop]
    have top := inv.held.parent_eq_self_iff at_.placed
    cases path with
    | nil =>
      rw [if_neg (fun both => both.1 (top.mpr rfl))]
      exact ⟨iter, [], rfl, at_, .inl rfl, le_refl _, fun _ => Iff.rfl⟩
    | cons side rest =>
      have inner : heap.parent iter.cur ≠ iter.cur := fun same => cons_ne_nil _ _ (top.mp same)
      cases side with
      | false =>
        rw [if_neg (by simp [inv.held.child_parent_iff at_.placed])]
        exact ⟨iter, _, rfl, at_, .inr ⟨rest, rfl⟩, le_refl _, fun _ => Iff.rfl⟩
      | true =>
        rw [if_pos ⟨inner, (inv.held.child_parent_iff at_.placed).mpr rfl⟩]
        obtain ⟨iter', path', done, at', shape, short, later⟩ := ih
          (prioTreeParent_spec inv at_) (by rw [length_cons] at enough; omega)
        exact ⟨iter', path', done, at', shape, by rw [length_cons]; omega, later⟩

theorem rightLoop_spec (enough : path.length < rounds) (few : path.length < steps) :
    (rightLoop index rounds steps iter heap = some none ∧ ∀ node, Right place path node →
      ¬ Hit r h (index node)) ∨
      ∃ iter' path', rightLoop index rounds steps iter heap = some (some iter') ∧
        AtPath heap place r h iter' path' ∧
        Reached index place r h (Right place path) path' iter'.cur := by
  induction steps generalizing iter path with
  | zero => exact absurd few (not_lt_zero _)
  | succ steps ih =>
    rw [rightLoop]
    rcases prioTreeRight_spec inv at_ with ⟨iter₁, down, at₁, _⟩ | ⟨stop, miss⟩
    · rw [down]
      exact .inr ⟨iter₁, _, rfl, at₁, reached_right at₁.placed⟩
    · obtain ⟨iter₁, path₁, climbed, at₁, shape, short, later⟩ := upLoop_spec inv at_ enough
      rw [stop]
      simp only [bind_eq_bind, bind_some, climbed]
      -- what is to come is what comes after the path that the climb ends at
      have only (node : Nat) (there : Right place path node) (hit : Hit r h (index node)) :
          ∃ q, place q = some node ∧ Later path₁ q := by
        obtain ⟨q, placed, right | after⟩ := there
        · exact absurd hit (miss q node right placed)
        · exact ⟨q, placed, (later q).mp after⟩
      rcases shape with rfl | ⟨rest, rfl⟩
      · rw [if_pos ((inv.held.parent_eq_self_iff at₁.placed).mpr rfl)]
        exact .inl ⟨rfl, fun node there hit => (only node there hit).elim fun _ after => after.2⟩
      · rw [if_neg (fun same => cons_ne_nil _ _ ((inv.held.parent_eq_self_iff at₁.placed).mp same))]
        rw [length_cons] at short
        have narrows : Narrows index r h (Right place path) (Right place rest) :=
          ⟨fun node ⟨q, placed, under⟩ => ⟨q, placed, .inr ((later q).mpr under)⟩, only⟩
        rcases ih (prioTreeParent_spec inv at₁) (by omega) (by omega) with
          ⟨done, none⟩ | ⟨iter', path', done, at', reached⟩
        · exact .inl ⟨done, narrows.none none⟩
        · exact .inr ⟨iter', path', done, at', narrows.reached reached⟩

end

/-! ### `prio_tree_next` -/

open Classical in
/-- How many of the stored nodes are in a set. -/
noncomputable def pending (stored : Finset Nat) (start : Nat → Prop) : Nat :=
  (stored.filter start).card

section

variable {stored : Finset Nat} (nodes : ∀ node, Placed place node ↔ node ∈ stored)

include nodes

theorem Reached.pending_lt (placed : place path = some cur)
    (reached : Reached index place r h start path cur) :
    pending stored (Rest place path) < pending stored start := by
  classical
  refine Finset.card_lt_card ⟨fun node there => ?_, fun all => ?_⟩
  · rw [Finset.mem_filter] at there ⊢
    exact ⟨there.1, reached.rest node there.2⟩
  · have here := all (Finset.mem_filter.mpr ⟨(nodes cur).mp ⟨_, placed⟩, reached.here⟩)
    exact not_rest_self inv placed (Finset.mem_filter.mp here).2

/-- The result of `prio_tree_next`: the next overlapping node, or `NULL` if there is none. -/
def Returns (index : Nat → Interval) (heap : Heap) (place : PathTree Nat) (r h : Nat) (start : Nat → Prop)
    (result : Option (Option Iter)) : Prop :=
  (result = some none ∧ ∀ node, start node → ¬ Hit r h (index node)) ∨
    ∃ iter' path', result = some (some iter') ∧ AtPath heap place r h iter' path' ∧
      Reached index place r h start path' iter'.cur ∧ Hit r h (index iter'.cur)

theorem nextLoop_spec (at_ : AtPath heap place r h iter path)
    (enough : 130 ≤ rounds) (few : pending stored (Rest place path) < steps) :
    Returns index heap place r h (Rest place path) (nextLoop index rounds steps iter heap) := by
  induction steps generalizing iter path with
  | zero => exact absurd few (not_lt_zero _)
  | succ steps ih =>
    have most := inv.most
    obtain ⟨iter₁, path₁, found, down, at₁, result⟩ := leftLoop_spec inv at_
      (show heap.indexBits + 64 < path.length + rounds by omega)
    rw [nextLoop, down]
    simp only [bind_eq_bind, bind_some]
    cases found with
    | true => exact .inr ⟨iter₁, path₁, rfl, at₁, result⟩
    | false =>
      have depth := inv.depth at₁.placed
      rcases rightLoop_spec inv at₁ (show path₁.length < rounds by omega)
        (show path₁.length < rounds by omega) with ⟨stop, none⟩ | ⟨iter₂, path₂, across, at₂, reached⟩
      · rw [stop]
        exact .inl ⟨rfl, Narrows.none result none⟩
      · have all := Narrows.reached result reached
        simp only [across, bind_some]
        by_cases hit : overlap index iter₂ = true
        · rw [if_pos hit]
          exact .inr ⟨iter₂, path₂, rfl, at₂, all, (overlap_iff at₂).mp hit⟩
        · rw [if_neg hit]
          rw [overlap_iff at₂] at hit
          have fewer := all.pending_lt inv nodes at₂.placed
          rcases ih at₂ (by omega) with ⟨done, none⟩ | ⟨iter', path', done, at', onward, isHit⟩
          · exact .inl ⟨done, (all.narrows hit).none none⟩
          · exact .inr ⟨iter', path', done, at', (all.narrows hit).reached onward, isHit⟩

/-! ### `prio_tree_first` -/

omit nodes in
/-- Where the left child lies behind the query, so does the whole right side. -/
theorem no_hits_right {left low : Nat} {q : List Bool}
    (placedLeft : place (false :: path) = some left) (beyond : h < (index left).radixIndex)
    (under : (true :: path) <:+ q) (placed : place q = some low) : ¬ Hit r h (index low) := by
  have parts := inv.left_right placedLeft under placed
  intro hit
  have := hit.1
  omega

omit nodes in
theorem firstLoop_spec (at_ : AtPath heap place r h iter path) (reaches : r ≤ (index iter.cur).heapIndex)
    (start : ∀ node, Placed place node → Hit r h (index node) → node = iter.cur ∨ Rest place path node)
    (behind : ¬ Hit r h (index iter.cur) → ∀ q node, place q = some node → Later path q →
      ¬ Hit r h (index node))
    (enough : heap.indexBits + 64 < path.length + rounds) :
    Returns index heap place r h (Placed place) (firstLoop index rounds iter heap) := by
  induction rounds generalizing iter path with
  | zero => exact absurd (inv.depth at_.placed) (by omega)
  | succ rounds ih =>
    rw [firstLoop]
    split_ifs with hit
    · exact .inr ⟨iter, path, rfl, at_, ⟨⟨_, at_.placed⟩, fun node ⟨q, there, _⟩ => ⟨q, there⟩, start⟩,
        (overlap_iff at_).mp hit⟩
    · rw [overlap_iff at_] at hit
      have below (node : Nat) (there : Placed place node) (isHit : Hit r h (index node)) :
          ∃ q, place q = some node ∧ ((false :: path) <:+ q ∨ (true :: path) <:+ q) := by
        rcases start node there isHit with rfl | ⟨q, placed, left | right | later⟩
        · exact absurd isHit hit
        · exact ⟨q, placed, .inl left⟩
        · exact ⟨q, placed, .inr right⟩
        · exact absurd isHit (behind hit q node placed later)
      rcases prioTreeLeft_spec inv at_ with ⟨iter₁, down, at₁, reaches₁⟩ | ⟨stop, missLeft⟩
      · rw [down]
        refine ih at₁ reaches₁ (fun node there isHit => ?_) (fun miss q node placed later isHit => ?_)
          (by rw [length_cons]; omega)
        · obtain ⟨q, placed, left | right⟩ := below node there isHit
          · exact eq_or_rest at₁.placed placed left
          · exact .inr ⟨q, placed, .inr (.inr (.inl right))⟩
        · have beyond : h < (index iter₁.cur).radixIndex := not_le.mp fun least => miss ⟨least, reaches₁⟩
          rcases later with right | later
          · exact no_hits_right inv at₁.placed beyond right placed isHit
          · exact behind hit q node placed later isHit
      · rw [stop]
        rcases prioTreeRight_spec inv at_ with ⟨iter₁, down, at₁, reaches₁⟩ | ⟨stop', missRight⟩
        · rw [down]
          refine ih at₁ reaches₁ (fun node there isHit => ?_)
            (fun _ q node placed later => behind hit q node placed later) (by rw [length_cons]; omega)
          obtain ⟨q, placed, left | right⟩ := below node there isHit
          · exact absurd isHit (missLeft q node left placed)
          · exact eq_or_rest at₁.placed placed right
        · rw [stop']
          refine .inl ⟨rfl, fun node there isHit => ?_⟩
          obtain ⟨q, placed, left | right⟩ := below node there isHit
          · exact missLeft q node left placed isHit
          · exact missRight q node right placed isHit

omit nodes in
theorem prioTreeFirst_spec (lower : iter.rIndex = r) (upper : iter.hIndex = h) (enough : 130 ≤ rounds) :
    Returns index heap place r h (Placed place) (prioTreeFirst index rounds iter heap) := by
  rw [prioTreeFirst]
  dsimp only
  split_ifs with empty beyond
  · rw [inv.empty_of_root empty]
    exact .inl ⟨rfl, fun node there => (not_placed_empty there).elim⟩
  · refine .inl ⟨rfl, fun node ⟨q, there⟩ hit => ?_⟩
    have := inv.heap_le (inv.placed_root empty) (nil_suffix) there
    have := hit.2
    omega
  · have placed := inv.placed_root empty
    have most := inv.most
    have positive := inv.positive
    have at_ : AtPath heap place r h
        { iter with
          cur := heap.prioTreeNode, mask := 1 <<< (heap.indexBits - 1), value := 0, sizeLevel := 0 } [] := by
      refine ⟨placed, (maskAt_zero positive).mask, rfl, ?_, lower, upper⟩
      rw [length_nil]
      dsimp only
      omega
    refine firstLoop_spec inv at_ (by dsimp only; omega)
      (fun node ⟨q, there⟩ _ => ?_) (fun _ _ _ _ later => later.elim) (by rw [length_nil]; omega)
    rcases suffix_iff.mp (nil_suffix (l := q)) with rfl | under
    · exact .inl (some_inj.mp (there.symm.trans placed))
    · exact .inr ⟨q, there, under.imp id .inl⟩

/-! ### All overlapping nodes -/

theorem foreachLoop_spec (enough : stored.card + 130 ≤ rounds)
    (returns : Returns index heap place r h start (prioTreeNext index rounds iter heap))
    (few : pending stored start < steps) :
    ∃ found, foreachLoop index rounds steps iter heap = some found ∧ found.Nodup ∧
      ∀ node, node ∈ found ↔ start node ∧ Hit r h (index node) := by
  induction steps generalizing iter start with
  | zero => exact absurd few (not_lt_zero _)
  | succ steps ih =>
    rw [foreachLoop]
    rcases returns with ⟨stop, none⟩ | ⟨iter', path', next, at', reached, hit⟩
    · refine ⟨[], by rw [stop]; rfl, .nil, fun node => ⟨fun mem => (not_mem_nil mem).elim, fun both => ?_⟩⟩
      exact absurd both.2 (none node both.1)
    · have fewer := reached.pending_lt inv nodes at'.placed
      have again : Returns index heap place r h (Rest place path')
          (prioTreeNext index rounds iter' heap) := by
        rw [prioTreeNext, if_neg (inv.held.nonzero at'.placed)]
        refine nextLoop_spec inv nodes at' (by omega) (lt_of_le_of_lt ?_ (show stored.card < rounds by omega))
        classical exact Finset.card_filter_le _ _
      obtain ⟨found, loop, nodup, members⟩ := ih again (by omega)
      refine ⟨iter'.cur :: found, by rw [next]; simp only [bind_eq_bind, bind_some, loop], ?_, ?_⟩
      · exact nodup.cons fun mem => not_rest_self inv at'.placed ((members _).mp mem).1
      · intro node
        rw [mem_cons, members]
        constructor
        · rintro (rfl | ⟨there, isHit⟩)
          · exact ⟨reached.here, hit⟩
          · exact ⟨reached.rest node there, isHit⟩
        · rintro ⟨there, isHit⟩
          exact (reached.hits node there isHit).imp id fun later => ⟨later, isHit⟩

theorem prioTreeForeach_spec (enough : stored.card + 130 ≤ rounds) :
    ∃ found, prioTreeForeach index rounds r h heap = some found ∧ found.Nodup ∧
      ∀ node, node ∈ found ↔ node ∈ stored ∧ Hit r h (index node) := by
  have returns : Returns index heap place r h (Placed place)
      (prioTreeNext index rounds ⟨0, 0, 0, 0, r, h⟩ heap) := by
    exact prioTreeFirst_spec inv rfl rfl (by omega)
  have most : pending stored (Placed place) < rounds := by
    classical exact lt_of_le_of_lt (Finset.card_filter_le _ _) (by omega)
  obtain ⟨found, loop, nodup, members⟩ := foreachLoop_spec inv nodes enough returns most
  exact ⟨found, loop, nodup, fun node => by rw [members, nodes]⟩

end

/-! ### Sequences of calls -/

theorem prioTreeRemove_invariant (placed : Placed place node) (enough : 130 ≤ rounds) :
    ∃ heap' place', prioTreeRemove index rounds node heap = some heap' ∧ Invariant index heap' place' ∧
      ∀ other, Placed place' other ↔ Placed place other ∧ other ≠ node := by
  obtain ⟨path, there⟩ := placed
  have positive := inv.positive
  have most := inv.most
  obtain ⟨heap', place', removed, tree, members, same, bits, _⟩ :=
    prioTreeRemove_spec inv.toTreeAt there (show heap.indexBits + 65 < rounds by omega)
  refine ⟨heap', place', removed, ⟨?_, by omega, by omega⟩, members⟩
  by_cases empty : ∃ other, Placed place' other
  · rw [same empty]
    exact tree
  · exact .of_empty (fun other placed => empty ⟨other, placed⟩) tree.root

/-- A call on the tree. -/
inductive Op where
  /-- `prio_tree_insert(root, node)` -/
  | insert (node : Nat)
  /-- `prio_tree_remove(root, node)` -/
  | remove (node : Nat)

/-- `prio_tree_insert` is for a node that is not `NULL`, and `prio_tree_remove` for one that is in the
tree. -/
def Op.Allowed (stored : Finset Nat) : Op → Prop
  | .insert node => node ≠ 0
  | .remove node => node ∈ stored

/-- The nodes that are in the tree after a call: `prio_tree_insert` gives back a node of the same interval if
there is one. -/
def Op.stored (index : Nat → Interval) (stored : Finset Nat) : Op → Finset Nat
  | .insert node => if ∃ other ∈ stored, index other = index node then stored else Insert.insert node stored
  | .remove node => stored.erase node

/-- The call as the code does it. -/
def Op.step (index : Nat → Interval) (rounds : Nat) (heap : Heap) : Op → Option Heap
  | .insert node => (prioTreeInsert index rounds node heap).map Prod.fst
  | .remove node => prioTreeRemove index rounds node heap

/-- Every call of the sequence is allowed when it is made. -/
def Op.AllAllowed (index : Nat → Interval) (stored : Finset Nat) : List Op → Prop
  | [] => True
  | op :: ops => op.Allowed stored ∧ AllAllowed index (op.stored index stored) ops

/-- `INIT_PRIO_TREE_ROOT`, whatever the links of the nodes are. -/
def initPrioTreeRoot (links : Heap) : Heap := { links with prioTreeNode := 0, indexBits := 1 }

omit inv

theorem initPrioTreeRoot_invariant (links : Heap) : Invariant index (initPrioTreeRoot links) fun _ => none :=
  ⟨.of_empty (fun _ => not_placed_empty) rfl, le_refl 1, show 1 ≤ 64 by decide⟩

/-- One allowed call does not meet a `BUG_ON`, keeps the invariant, and changes the nodes as it should. -/
theorem Op.step_spec {stored : Finset Nat} {op : Op} (inv : Invariant index heap place)
    (nodes : ∀ node, Placed place node ↔ node ∈ stored) (allowed : op.Allowed stored)
    (enough : 130 ≤ rounds) :
    ∃ heap' place', op.step index rounds heap = some heap' ∧ Invariant index heap' place' ∧
      ∀ node, Placed place' node ↔ node ∈ op.stored index stored := by
  cases op with
  | insert node =>
    by_cases found : ∃ other ∈ stored, index other = index node
    · obtain ⟨dup, mem, same⟩ := id found
      refine ⟨heap, place, ?_, inv, fun other => ?_⟩
      · rw [step, prioTreeInsert_found inv ((nodes dup).mpr mem) same enough, map_some]
      · rw [Op.stored, if_pos found, nodes]
    · obtain ⟨heap', place', inserted, kept, members⟩ := prioTreeInsert_new inv allowed
        (fun other placed same => found ⟨other, (nodes other).mp placed, same⟩) enough
      refine ⟨heap', place', by rw [step, inserted, map_some], kept, fun other => ?_⟩
      rw [Op.stored, if_neg found, Finset.mem_insert, members, nodes]
  | remove node =>
    obtain ⟨heap', place', removed, kept, members⟩ :=
      prioTreeRemove_invariant inv ((nodes node).mpr allowed) enough
    refine ⟨heap', place', removed, kept, fun other => ?_⟩
    rw [Op.stored, Finset.mem_erase, members, nodes, and_comm]

theorem Op.card_stored_le (index : Nat → Interval) (op : Op) (stored : Finset Nat) :
    (op.stored index stored).card ≤ stored.card + 1 := by
  cases op with
  | insert node =>
    rw [Op.stored]
    split_ifs
    · exact le_succ _
    · exact Finset.card_insert_le _ _
  | remove node => exact le_succ_of_le (Finset.card_erase_le)

theorem Op.run_spec {stored : Finset Nat} {ops : List Op} (inv : Invariant index heap place)
    (nodes : ∀ node, Placed place node ↔ node ∈ stored) (allowed : AllAllowed index stored ops)
    (enough : 130 ≤ rounds) :
    ∃ heap' place', ops.foldlM (Op.step index rounds) heap = some heap' ∧ Invariant index heap' place' ∧
      (∀ node, Placed place' node ↔ node ∈ ops.foldl (Op.stored index) stored) ∧
      (ops.foldl (Op.stored index) stored).card ≤ stored.card + ops.length := by
  induction ops generalizing heap place stored with
  | nil => exact ⟨heap, place, rfl, inv, nodes, le_refl _⟩
  | cons op ops ih =>
    obtain ⟨heap₁, place₁, step, kept, members⟩ := op.step_spec inv nodes allowed.1 enough
    obtain ⟨heap', place', run, result, final, card⟩ := ih kept members allowed.2
    refine ⟨heap', place', ?_, result, final, ?_⟩
    · rw [foldlM_cons, step]
      exact run
    · have := op.card_stored_le index stored
      rw [foldl_cons, length_cons]
      omega

/-- The priority search tree is correct over every sequence of calls on it: no `BUG_ON` is met, the tree is
ordered as a heap, each node lies where the bits of its key select, and a query gives each stored node that
overlaps it once, and no other. -/
theorem prioTree_correct (index : Nat → Interval) (links : Heap) (ops : List Op)
    (allowed : Op.AllAllowed index ∅ ops) (rounds : Nat) (enough : ops.length + 130 ≤ rounds) :
    ∃ heap place, ops.foldlM (Op.step index rounds) (initPrioTreeRoot links) = some heap ∧
      Invariant index heap place ∧
      (∀ node, Placed place node ↔ node ∈ ops.foldl (Op.stored index) ∅) ∧
      ∀ r h, ∃ found, prioTreeForeach index rounds r h heap = some found ∧ found.Nodup ∧
        ∀ node, node ∈ found ↔ node ∈ ops.foldl (Op.stored index) ∅ ∧
          (index node).radixIndex ≤ h ∧ r ≤ (index node).heapIndex := by
  obtain ⟨heap, place, run, inv, nodes, card⟩ := Op.run_spec
    (initPrioTreeRoot_invariant links) (fun node => by simp [Placed]) allowed (show 130 ≤ rounds by omega)
  rw [Finset.card_empty] at card
  exact ⟨heap, place, run, inv, nodes, fun r h => prioTreeForeach_spec inv nodes (by omega)⟩

/-- Two intervals that overlap only in part. -/
def twoIntervals (node : Nat) : Interval :=
  if node = 1 then ⟨5, 10, by decide, by decide⟩ else ⟨0, 7, by decide, by decide⟩

theorem prioTree_correct_two :
    ∃ heap place, [Op.insert 1, .insert 2, .remove 1].foldlM (Op.step twoIntervals 133)
        (initPrioTreeRoot ⟨fun _ _ => 0, fun _ => 0, 0, 0⟩) = some heap ∧
      Invariant twoIntervals heap place ∧
      (∀ node, Placed place node ↔
        node ∈ [Op.insert 1, .insert 2, .remove 1].foldl (Op.stored twoIntervals) ∅) ∧
      ∀ r h, ∃ found, prioTreeForeach twoIntervals 133 r h heap = some found ∧ found.Nodup ∧
        ∀ node, node ∈ found ↔ node ∈ [Op.insert 1, .insert 2, .remove 1].foldl (Op.stored twoIntervals) ∅ ∧
          (twoIntervals node).radixIndex ≤ h ∧ r ≤ (twoIntervals node).heapIndex :=
  prioTree_correct twoIntervals ⟨fun _ _ => 0, fun _ => 0, 0, 0⟩ [.insert 1, .insert 2, .remove 1]
    ⟨one_ne_zero, succ_ne_zero 1,
      show 1 ∈ (Op.insert 2).stored twoIntervals ((Op.insert 1).stored twoIntervals ∅) by decide, trivial⟩
    133 (by decide)

end LinuxKernel.Lib.PrioTree
