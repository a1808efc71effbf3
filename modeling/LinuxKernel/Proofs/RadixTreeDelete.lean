/-
Module: LinuxKernel.Proofs.RadixTreeDelete
Purpose: `radix_tree_tag_set` and `radix_tree_tag_clear` change the tag of one index and keep every
  aggregated tag exact. `radix_tree_delete` unbinds the index, frees exactly the nodes that became empty,
  all of them clean, and lowers the tree. The gang lookups return the first items at or above their first
  index.
Trusted boundary: none
Main exports: radixTreeTagSet_spec, radixTreeDelete_spec, radixTreeGangLookup_spec
-/
import LinuxKernel.Proofs.RadixTreeInsert

namespace LinuxKernel.Lib.RadixTree

open Library Function Nat Bool

variable {Item : Type} {root root' : Root Item} {node node' : Node (Slot Item)}
  {index height : Nat} {tag : Tag} {bit : Bool} {slot slot' child : Slot Item}

/-! ### One tag of one index -/

/-- The slot afterwards differs in one tag of one index. -/
structure Retagged (index : Nat) (tag : Tag) (bit : Bool) (height : Nat)
    (slot slot' : Slot Item) : Prop where
  shape : Shape height slot'
  stays : slot'.isNull = slot.isNull
  reads : ∀ position, lookupLoop position height slot' = lookupLoop position height slot
  other_tags : ∀ other, other ≠ tag → ∀ position,
    leafTag position other height slot' = leafTag position other height slot
  other_aggregated : ∀ other, other ≠ tag → slotTag other slot' = slotTag other slot
  tags : height ≠ 0 → ∀ position, leafTag position tag height slot' =
    if position % 64 ^ height = index % 64 ^ height then bit else leafTag position tag height slot

theorem Retagged.item (shape : Shape 0 slot) : Retagged index tag bit 0 slot slot :=
  ⟨shape, rfl, fun _ => rfl, fun _ _ _ => rfl, fun _ _ => rfl, fun above => absurd rfl above⟩

/-- Retagging below a node, with the node's own tag of the entry moved along. -/
theorem Retagged.inNode (shape : NodeShape height (Shape height) node)
    (below : Retagged index tag bit height (node.slots (digit 64 height index)) child)
    (used : (node.slots (digit 64 height index)).isNull = false)
    (sameHeight : node'.height = node.height) (sameCount : node'.count = node.count)
    (slots : node'.slots = update node.slots (digit 64 height index) child)
    (otherTags : ∀ other, other ≠ tag → node'.tags other = node.tags other)
    (otherEntries : ∀ entry, entry ≠ digit 64 height index → node'.tags tag entry = node.tags tag entry)
    (bottom : height = 0 → node'.tags tag (digit 64 height index) = bit)
    (inner : height ≠ 0 → node'.tags tag (digit 64 height index) = slotTag tag child) :
    Retagged index tag bit (height + 1) (.node node) (.node node') := by
  have offLt := digit_lt_mapSize height index
  refine ⟨?_, rfl, fun key => lookupLoop_unchanged slots below.reads, ?_, ?_, ?_⟩
  · refine shape.replace offLt sameHeight slots below.shape ?_ ?_ ?_ ?_
    · rw [sameCount, below.stays]
    · intro _ _ _
      rw [below.stays, used]
    · intro above other
      by_cases same : other = tag
      · rw [same, inner above]
      · rw [otherTags other same, shape.inner_tags above other _ offLt, below.other_aggregated other same]
    · intro other entry _ ne
      by_cases same : other = tag
      · rw [same, otherEntries entry ne]
      · rw [otherTags other same]
  · intro other ne key
    exact leafTag_unchanged slots (fun _ => otherTags other ne)
      fun _ => below.other_tags other ne
  · intro other ne
    simp only [slotTag_node, anyTagSet, otherTags other ne]
  · intro _ key
    refine leafTag_overwrite slots (fun atBottom => ?_) below.tags
    funext entry
    by_cases same : entry = digit 64 height index
    · rw [same, bottom atBottom, update_self]
    · rw [otherEntries entry same, update_of_ne same]

/-! ### The loops -/

theorem used_of_lookup (present : lookupLoop index height slot ≠ .null) : slot.isNull = false := by
  rw [isNull_eq_false]
  rintro rfl
  exact present (lookupLoop_null ..)

theorem tagSetLoop_spec (tag : Tag) (shape : Shape height slot)
    (present : lookupLoop index height slot ≠ .null) :
    ∃ slot', tagSetLoop index tag height slot = some (slot', lookupLoop index height slot) ∧
      Retagged index tag true height slot slot' ∧ (height ≠ 0 → slotTag tag slot' = true) := by
  induction shape using Shape.walk with
  | null => exact absurd (lookupLoop_null ..) present
  | item value => exact ⟨_, rfl, .item trivial, fun above => absurd rfl above⟩
  | node height node shape ih =>
    have offLt := digit_lt_mapSize height index
    rw [lookupLoop_succ] at present ⊢
    have used := used_of_lookup present
    obtain ⟨child, deeper, below, aggregated⟩ :=
      ih _ offLt present
    let node' : Node (Slot Item) := { node with
      slots := update node.slots (digit 64 height index) child
      tags := update node.tags tag (update (node.tags tag) (digit 64 height index) true) }
    have set : node'.tags tag (digit 64 height index) = true := by simp [node']
    refine ⟨.node node', ?_, ?_, fun _ => anyTagSet_iff.mpr ⟨_, offLt, set⟩⟩
    · simp [tagSetLoop, offset_succ, used, deeper, node']
    · refine Retagged.inNode shape below used rfl rfl rfl ?_ ?_ (fun _ => set) ?_
      · intro other ne
        exact update_of_ne ne ..
      · intro entry ne
        simp [node', update_of_ne ne]
      · intro above
        rw [set, aggregated above]

/-- The loops of `radix_tree_tag_clear` when there is no item. -/
theorem tagClearLoop_absent (shape : Shape height slot)
    (absent : lookupLoop index height slot = .null) : tagClearLoop index tag height slot = none := by
  induction shape using Shape.walk with
  | null height => cases height <;> rfl
  | item value => cases absent
  | node height node shape ih =>
    rw [lookupLoop_succ] at absent
    have deeper := ih _ (digit_lt_mapSize ..) absent
    simp [tagClearLoop, offset_succ, deeper]

/-- The loops of `radix_tree_tag_clear` on a present index. The walk up goes on exactly while it
takes the last tag out of a node. -/
theorem tagClearLoop_spec (tag : Tag) (shape : Shape height slot)
    (present : lookupLoop index height slot ≠ .null) :
    ∃ slot' further,
      tagClearLoop index tag height slot = some (lookupLoop index height slot, slot', further) ∧
      Retagged index tag false height slot slot' ∧ (height = 0 → further = true) ∧
      (height ≠ 0 → slotTag tag slot' = (slotTag tag slot && !further)) := by
  induction shape using Shape.walk with
  | null => exact absurd (lookupLoop_null ..) present
  | item value => exact ⟨_, true, rfl, .item trivial, fun _ => rfl, fun above => absurd rfl above⟩
  | node height node shape ih =>
    have offLt := digit_lt_mapSize height index
    rw [lookupLoop_succ] at present ⊢
    have used := used_of_lookup present
    obtain ⟨child, further, deeper, below, atBottom, aggregated⟩ :=
      ih _ offLt present
    by_cases clears : further = true ∧ node.tags tag (digit 64 height index) = true
    · obtain ⟨rfl, set⟩ := clears
      let node' : Node (Slot Item) := { node with
        slots := update node.slots (digit 64 height index) child
        tags := update node.tags tag (update (node.tags tag) (digit 64 height index) false) }
      have clear : node'.tags tag (digit 64 height index) = false := by simp [node']
      refine ⟨.node node', !anyTagSet node' tag, ?_, ?_, by simp, fun _ => ?_⟩
      · simp [tagClearLoop, offset_succ, deeper, set, node']
      · refine Retagged.inNode shape below used rfl rfl rfl ?_ ?_ (fun _ => clear) ?_
        · intro other ne
          exact update_of_ne ne ..
        · intro entry ne
          simp [node', update_of_ne ne]
        · intro above
          rw [clear, aggregated above, Bool.not_true, Bool.and_false]
      · rw [slotTag_node, slotTag_node, anyTagSet_iff.mpr ⟨_, offLt, set⟩, Bool.not_not, Bool.true_and]
    · refine ⟨.node { node with
          slots := update node.slots (digit 64 height index) child }, false,
        ?_, ?_, by simp, fun _ => by simp [anyTagSet]⟩
      · cases further with
        | false => simp [tagClearLoop, offset_succ, deeper]
        | true =>
          have clear : node.tags tag (digit 64 height index) = false := by simpa using clears
          simp [tagClearLoop, offset_succ, deeper, clear]
      · refine Retagged.inNode shape below used rfl rfl rfl (fun _ _ => rfl) (fun _ _ => rfl) ?_ ?_
        · intro bottom
          simpa [atBottom bottom] using clears
        · intro above
          have entry := shape.inner_tags above tag _ offLt
          have childTag := aggregated above
          show node.tags tag (digit 64 height index) = slotTag tag child
          cases further with
          | false => rw [entry, childTag, Bool.not_false, Bool.and_true]
          | true =>
            rw [childTag]
            simpa using clears

/-- The loop of `radix_tree_tag_get` reads the tag; below an unset tag there is none to see. -/
theorem tagGetLoop_spec {sawUnsetTag : Bool} (shape : Shape (height + 1) slot)
    (unset : sawUnsetTag = true → leafTag index tag (height + 1) slot = false) :
    tagGetLoop index tag (height + 1) sawUnsetTag slot = some (leafTag index tag (height + 1) slot) := by
  induction height generalizing slot sawUnsetTag with
  | zero =>
    cases slot with
    | null => rw [leafTag_null]; rfl
    | item value => exact shape.elim
    | node node =>
      rw [leafTag_one] at unset ⊢
      rw [tagGetLoop, offset_succ]
      cases set : node.tags tag (digit 64 0 index) with
      | false => rfl
      | true =>
        have seen : sawUnsetTag = false := by
          rw [← not_eq_true]
          intro saw
          rw [unset saw] at set
          cases set
        simp [seen]
  | succ height ih =>
    cases slot with
    | null => rw [leafTag_null]; rfl
    | item value => exact shape.elim
    | node node =>
      have offLt := digit_lt_mapSize (height + 1) index
      have above : height + 1 ≠ 0 := succ_ne_zero height
      rw [leafTag_succ _ _ _ above] at unset ⊢
      rw [tagGetLoop, offset_succ]
      · refine ih (shape.children _ offLt) fun saw => ?_
        rcases or_eq_true_iff.mp saw with earlier | here
        · exact unset earlier
        · refine leafTag_of_slotTag (shape.children _ offLt) ?_
          rw [← shape.inner_tags above tag _ offLt]
          simpa using here
      · exact succ_ne_zero height

/-! ### At the root -/

/-- A tagged index holds an item. -/
theorem RootOk.get_of_tagged (rootOk : RootOk root) (tagged : root.tagged tag index = true) :
    root.get index ≠ .null := by
  unfold Root.tagged at tagged
  split at tagged
  · next direct =>
      simp only [and_eq_true, decide_eq_true_eq] at tagged
      obtain ⟨set, rfl⟩ := tagged
      rw [Root.get, direct]
      exact isNull_eq_false.mp (rootOk.direct_tags direct tag set)
  · simp only [and_eq_true, decide_eq_true_eq] at tagged
    rw [Root.get, if_pos tagged.1]
    exact lookupLoop_of_leafTag rootOk.shape tagged.2

/-- The root tag is set exactly when some item carries the tag. -/
theorem RootOk.tags_iff (rootOk : RootOk root) :
    root.tags tag = true ↔ ∃ index, root.tagged tag index = true := by
  by_cases direct : root.height = 0
  · simp [Root.tagged, direct]
  · rw [rootOk.node_tags direct, slotTag_iff rootOk.shape]
    simp [Root.tagged, direct]

/-- The root afterwards differs in one tag of one index. -/
structure RootRetagged (index : Nat) (tag : Tag) (bit : Bool) (root root' : Root Item) : Prop where
  rootOk : RootOk root'
  wait : root'.wait = root.wait
  height : root'.height = root.height
  get : ∀ position, root'.get position = root.get position
  tagged : ∀ other position, root'.tagged other position =
    if other = tag ∧ position = index then bit else root.tagged other position

/-- Retagging below the root, with the root's own tag moved along. -/
theorem Retagged.atRoot {tags : Tag → Bool} (rootOk : RootOk root) (fits : index < 64 ^ root.height)
    (below : Retagged index tag bit root.height root.rnode slot')
    (used : root.rnode.isNull = false)
    (otherTags : ∀ other, other ≠ tag → tags other = root.tags other)
    (direct : root.height = 0 → tags tag = bit)
    (inner : root.height ≠ 0 → tags tag = slotTag tag slot') :
    RootRetagged index tag bit root { root with rnode := slot', tags } := by
  refine ⟨⟨rootOk.height_le, below.shape, ?_, ?_⟩, rfl, rfl, ?_, ?_⟩
  · intro _ _ _
    exact below.stays.trans used
  · intro above other
    by_cases same : other = tag
    · rw [same]
      exact inner above
    · exact (otherTags other same).trans
        ((rootOk.node_tags above other).trans (below.other_aggregated other same).symm)
  · intro key
    simp only [Root.get, below.reads]
  · intro other key
    by_cases atTop : root.height = 0
    · have zero : index = 0 := by simpa [atTop] using fits
      by_cases same : other = tag
      · by_cases here : key = 0 <;> simp [Root.tagged, atTop, same, here, zero, direct]
      · simp [Root.tagged, atTop, same, otherTags]
    · by_cases same : other = tag
      · subst same
        by_cases small : key < 64 ^ root.height
        · simp [Root.tagged, atTop, small, below.tags atTop, mod_eq_of_lt small, mod_eq_of_lt fits]
        · have ne : key ≠ index := fun equal => small (equal ▸ fits)
          simp [Root.tagged, atTop, small, ne]
      · simp [Root.tagged, atTop, same, below.other_tags other same]

theorem radixTreeTagSet_spec (tag : Tag) (rootOk : RootOk root) (bounded : index < 2 ^ indexBits)
    (present : root.get index ≠ .null) :
    ∃ root', radixTreeTagSet root index tag = some (root', root.get index) ∧
      RootRetagged index tag true root root' := by
  have reading := rootOk.get_eq bounded
  by_cases beyond : index > radixTreeMaxindex root.height
  · rw [if_pos beyond] at reading
    exact absurd reading present
  · rw [if_neg beyond] at reading
    have fits := (le_maxindex_iff rootOk.height_le bounded).mp (Nat.le_of_not_lt beyond)
    rw [reading] at present ⊢
    obtain ⟨slot', loop, below, aggregated⟩ := tagSetLoop_spec tag rootOk.shape present
    refine ⟨{ root with rnode := slot', tags := update root.tags tag true }, ?_, ?_⟩
    · simp [radixTreeTagSet, beyond, loop, isNull_eq_false.mpr present]
    · refine below.atRoot rootOk fits (used_of_lookup present) ?_ ?_ ?_
      · intro other ne
        exact update_of_ne ne ..
      · intro _
        exact update_self ..
      · intro above
        rw [update_self, aggregated above]

/-- Changing nothing is clearing a tag that is not there. -/
theorem RootRetagged.unchanged (rootOk : RootOk root)
    (untagged : root.tagged tag index = false) : RootRetagged index tag false root root := by
  refine ⟨rootOk, rfl, rfl, fun _ => rfl, fun other key => ?_⟩
  split
  · next here =>
      obtain ⟨rfl, rfl⟩ := here
      exact untagged
  · rfl

theorem RootOk.untagged_of_absent (rootOk : RootOk root) (absent : root.get index = .null)
    (tag : Tag) : root.tagged tag index = false := by
  rw [← not_eq_true]
  exact fun tagged => rootOk.get_of_tagged tagged absent

theorem radixTreeTagClear_spec (tag : Tag) (rootOk : RootOk root) (bounded : index < 2 ^ indexBits) :
    ∃ root', radixTreeTagClear root index tag = (root', root.get index) ∧
      RootRetagged index tag false root root' := by
  have reading := rootOk.get_eq bounded
  by_cases beyond : index > radixTreeMaxindex root.height
  · rw [if_pos beyond] at reading
    exact ⟨root, by rw [radixTreeTagClear, if_pos beyond, reading],
      .unchanged rootOk (rootOk.untagged_of_absent reading tag)⟩
  · rw [if_neg beyond] at reading
    by_cases absent : lookupLoop index root.height root.rnode = .null
    · refine ⟨root, ?_, .unchanged rootOk (rootOk.untagged_of_absent (reading.trans absent) tag)⟩
      rw [radixTreeTagClear, if_neg beyond, tagClearLoop_absent rootOk.shape absent, reading, absent]
    · have fits := (le_maxindex_iff rootOk.height_le bounded).mp (Nat.le_of_not_lt beyond)
      obtain ⟨slot', further, loop, below, atBottom, aggregated⟩ :=
        tagClearLoop_spec tag rootOk.shape absent
      refine ⟨_, by rw [radixTreeTagClear, if_neg beyond, loop, reading], ?_⟩
      refine below.atRoot rootOk fits (used_of_lookup absent) ?_ ?_ ?_
      · intro other ne
        split
        · exact update_of_ne ne ..
        · rfl
      · intro direct
        rw [atBottom direct, if_pos rfl, update_self]
      · intro above
        rw [aggregated above, ← rootOk.node_tags above]
        cases further <;> simp

theorem RootOk.untagged (rootOk : RootOk root) {tag : Tag} (clear : root.tags tag = false) (index : Nat) :
    root.tagged tag index = false := by
  rw [← not_eq_true]
  intro tagged
  rw [rootOk.tags_iff.mpr ⟨index, tagged⟩] at clear
  cases clear

theorem RootOk.rnode_ne_null (rootOk : RootOk root) {tag : Tag} (set : root.tags tag = true) :
    root.rnode ≠ .null := by
  intro top
  have clear := rootOk.tags_of_null (isNull_iff.mpr top) tag
  rw [set] at clear
  cases clear

theorem radixTreeTagGet_spec (tag : Tag) (rootOk : RootOk root) (bounded : index < 2 ^ indexBits) :
    radixTreeTagGet root index tag = some (root.tagged tag index) := by
  unfold radixTreeTagGet
  cases set : root.tags tag with
  | false =>
    rw [rootOk.untagged set]
    rfl
  | true =>
    cases top : root.rnode with
    | null => exact absurd top (rootOk.rnode_ne_null set)
    | item value =>
      simp [Root.tagged, rootOk.height_of_item top, set]
    | node node =>
      obtain ⟨height, rootHeight, shape⟩ := rootOk.node_of_top top
      have within := le_maxindex_iff rootOk.height_le bounded
      rw [rootHeight] at within
      simp only [Root.tagged, rootHeight, top, shape.height_eq]
      by_cases beyond : index > radixTreeMaxindex (height + 1)
      · rw [if_pos beyond, decide_eq_false fun small =>
          Nat.not_le_of_lt beyond (within.mpr small)]
        rfl
      · rw [if_neg beyond, tagGetLoop_spec (shape_succ_node.mpr shape) (by simp),
          decide_eq_true (within.mp (Nat.le_of_not_lt beyond))]
        simp

variable {mem mem' : Memory Item}

/-! ### The walk up -/

theorem NodeShape.clean (shape : NodeShape height (Shape height) node) (empty : node.count = 0) :
    Clean node := by
  have null : ∀ off < mapSize, node.slots off = .null := by
    intro off small
    have unused := countBelow_eq_zero.mp (shape.count_eq.symm.trans empty) off small
    exact isNull_iff.mp (by simpa using unused)
  refine ⟨empty, null, fun tag off small => ?_⟩
  by_cases bottom : height = 0
  · rw [← Bool.not_eq_true]
    intro set
    have used := shape.leaf_tags bottom tag off small set
    rw [null off small] at used
    cases used
  · rw [shape.inner_tags bottom tag off small, null off small, slotTag_null]

/-- What the walk up has done when it leaves a slot. -/
inductive Deleted (index height : Nat) (slot : Slot Item) : DeleteWalk Item → Prop
  | out {slot' : Slot Item} {here : Bool} (shape : Shape height slot')
      (used : slot'.isNull = false)
      (reads : ∀ position, lookupLoop position height slot' =
        if position % 64 ^ height = index % 64 ^ height then .null
        else lookupLoop position height slot)
      (tags : ∀ tag position, leafTag position tag height slot' = leafTag position tag height slot)
      (aggregated : ∀ tag, slotTag tag slot' = slotTag tag slot) :
      Deleted index height slot (.out slot' here)
  | goOn {toFree : Option (Node (Slot Item))}
      (alone : ∀ position, position % 64 ^ height ≠ index % 64 ^ height →
        lookupLoop position height slot = .null)
      (untagged : ∀ tag, slotTag tag slot = false)
      (clean : ∀ node, toFree = some node → Clean node) :
      Deleted index height slot (.goOn toFree)

variable {here : Bool} {toFree : Option (Node (Slot Item))} {middle : Root Item}

/-- The walk went to `out` below this node. -/
theorem Deleted.out_inNode (shape : NodeShape height (Shape height) node)
    (used : (node.slots (digit 64 height index)).isNull = false)
    (below : Deleted index height (node.slots (digit 64 height index)) (.out child here)) :
    Deleted index (height + 1) (.node node) (.out (.node { node with
      slots := update node.slots (digit 64 height index) child }) false) := by
  have offLt := digit_lt_mapSize height index
  cases below with
  | out childShape childUsed reads tags aggregated =>
    refine .out ?_ rfl ?_ ?_ fun _ => rfl
    · refine shape.replace offLt rfl rfl childShape ?_ ?_ ?_ fun _ _ _ _ => rfl
      · rw [used, childUsed]
      · intro _ _ _
        exact childUsed
      · intro above tag
        exact (shape.inner_tags above tag _ offLt).trans (aggregated tag).symm
    · intro key
      exact lookupLoop_overwrite rfl reads
    · intro tag key
      exact leafTag_unchanged rfl (fun _ => rfl) fun _ => tags tag

/-- The node after its entry was cleared. -/
theorem Deleted.clear_inNode (shape : NodeShape height (Shape height) node)
    (used : (node.slots (digit 64 height index)).isNull = false)
    (untagged : ∀ tag, leafTag index tag (height + 1) (.node node) = false)
    (below : Deleted index height (node.slots (digit 64 height index)) (.goOn toFree))
    (cleared : node' = { node with
      slots := update node.slots (digit 64 height index) .null
      count := node.count - 1 }) :
    NodeShape height (Shape height) node' ∧ (∀ key, lookupLoop key (height + 1) (.node node') =
        if key % 64 ^ (height + 1) = index % 64 ^ (height + 1) then .null
        else lookupLoop key (height + 1) (.node node)) ∧
      ∀ tag key, leafTag key tag (height + 1) (.node node') =
        leafTag key tag (height + 1) (.node node) := by
  have offLt := digit_lt_mapSize height index
  cases below with
  | goOn alone childUntagged =>
    subst cleared
    refine ⟨?_, ?_, ?_⟩
    · refine shape.replace offLt rfl rfl (shape_null height) ?_ ?_ ?_ fun _ _ _ _ => rfl
      · have pos : 0 < node.count := by
          rw [shape.count_eq]
          exact countBelow_pos offLt (by simp [used])
        rw [used]
        simp
        omega
      · rintro rfl tag set
        have clear := untagged tag
        rw [leafTag_one, set] at clear
        cases clear
      · intro above tag
        exact (shape.inner_tags above tag _ offLt).trans (childUntagged tag)
    · intro key
      refine lookupLoop_overwrite rfl fun key => ?_
      rw [lookupLoop_null]
      split
      · rfl
      · next miss => exact (alone key miss).symm
    · intro tag key
      refine leafTag_unchanged rfl (fun _ => rfl) fun _ key => ?_
      rw [leafTag_null, leafTag_of_slotTag (shape.children _ offLt) (childUntagged tag)]

/-- One level of the walk up. -/
theorem deleteLoop_node (index height : Nat) (node : Node (Slot Item)) (mem : Memory Item) :
    deleteLoop index (height + 1) (.node node) mem =
      match deleteLoop index height (node.slots (digit 64 height index)) mem with
      | (.out child _, mem) =>
        (.out (.node { node with
          slots := update node.slots (digit 64 height index) child }) false, mem)
      | (.goOn toFree, mem) =>
        let node := { node with
          slots := update node.slots (digit 64 height index) .null
          count := node.count - 1 }
        let mem := match toFree with
          | some child => radixTreeNodeFree child mem
          | none => mem
        if node.count ≠ 0 then (.out (.node node) true, mem) else (.goOn (some node), mem) := by
  rw [← offset_succ]
  rfl

theorem MemoryOk.free_optional (memory : MemoryOk mem) (clean : ∀ node, toFree = some node → Clean node) :
    MemoryOk (match toFree with
      | some child => radixTreeNodeFree child mem
      | none => mem) := by
  cases toFree with
  | none => exact memory
  | some node =>
    exact memory.free (fun off small _ => (clean node rfl).slots_null off small)
      fun tag off small _ => (clean node rfl).tags_clear tag off small

/-- The walk up from a present index whose tags have been cleared. -/
theorem deleteLoop_spec {walk : DeleteWalk Item} (shape : Shape height slot)
    (memory : MemoryOk mem) (present : lookupLoop index height slot ≠ .null)
    (untagged : ∀ tag, leafTag index tag height slot = false)
    (result : deleteLoop index height slot mem = (walk, mem')) :
    MemoryOk mem' ∧ Deleted index height slot walk := by
  induction shape using Shape.walk generalizing walk mem' with
  | null => exact absurd (lookupLoop_null ..) present
  | item value =>
    cases result
    refine ⟨memory, .goOn ?_ (fun _ => rfl) (by simp)⟩
    intro key miss
    exact absurd (by simp [mod_one]) miss
  | node height node shape ih =>
    have offLt := digit_lt_mapSize height index
    rw [lookupLoop_succ] at present
    have used := used_of_lookup present
    have childUntagged : ∀ tag, leafTag index tag height (node.slots (digit 64 height index)) = false := by
      intro tag
      by_cases bottom : height = 0
      · rw [bottom]
        rfl
      · rw [← leafTag_succ _ _ _ bottom]
        exact untagged tag
    rw [deleteLoop_node] at result
    obtain ⟨deeper, childResult⟩ : ∃ deeper,
        deleteLoop index height (node.slots (digit 64 height index)) mem = deeper := ⟨_, rfl⟩
    obtain ⟨childWalk, mem₁⟩ := deeper
    obtain ⟨memory₁, below⟩ :=
      ih _ offLt present childUntagged childResult
    rw [childResult] at result
    cases childWalk with
    | out child here =>
      cases result
      exact ⟨memory₁, below.out_inNode shape used⟩
    | goOn toFree =>
      obtain ⟨shape', reads, tags⟩ := below.clear_inNode shape used untagged rfl
      have freed : ∀ node, toFree = some node → Clean node := by
        cases below with
        | goOn _ _ clean => exact clean
      dsimp only at result
      split at result
      · cases result
        exact ⟨memory₁.free_optional freed, .out shape' rfl reads tags fun _ => rfl⟩
      · next stopped =>
          have clean := shape'.clean (not_not.mp stopped)
          cases result
          refine ⟨memory₁.free_optional freed, .goOn ?_ ?_ ?_⟩
          · intro key miss
            have same := reads key
            rw [if_neg miss] at same
            rw [← same, lookupLoop_succ, clean.slots_null _ (digit_lt_mapSize ..), lookupLoop_null]
          · intro tag
            exact anyTagSet_eq_false.mpr (clean.tags_clear tag)
          · rintro _ ⟨⟩
            exact clean

/-! ### Clearing the tags of the index -/

/-- One round of the loop over the tags. -/
theorem clearLeafTag_spec (tag : Tag) (rootOk : RootOk root) (bounded : index < 2 ^ indexBits)
    (above : root.height ≠ 0) : RootRetagged index tag false root (clearLeafTag index root tag) := by
  unfold clearLeafTag
  split
  · obtain ⟨root', cleared, retagged⟩ := radixTreeTagClear_spec tag rootOk bounded
    rw [cleared]
    exact retagged
  · next untagged => exact .unchanged rootOk (by simp [Root.tagged, above, untagged])

/-- The loop over the tags leaves the index untagged and everything else alone. -/
theorem clearLeafTags_spec (rootOk : RootOk root) (bounded : index < 2 ^ indexBits)
    (above : root.height ≠ 0) :
    RootOk (clearLeafTags root index) ∧ (clearLeafTags root index).wait = root.wait ∧
      (clearLeafTags root index).height = root.height ∧
      (∀ position, (clearLeafTags root index).get position = root.get position) ∧
      ∀ tag position, (clearLeafTags root index).tagged tag position =
        if position = index then false else root.tagged tag position := by
  have first := clearLeafTag_spec 0 rootOk bounded above
  have second := clearLeafTag_spec 1 first.rootOk bounded (by rwa [first.height])
  have rounds : clearLeafTags root index = clearLeafTag index (clearLeafTag index root 0) 1 := by
    rfl
  rw [rounds]
  refine ⟨second.rootOk, second.wait.trans first.wait, second.height.trans first.height, ?_, ?_⟩
  · intro position
    rw [second.get, first.get]
  · intro tag position
    rw [second.tagged, first.tagged]
    obtain rfl | rfl := (by decide : ∀ tag : Tag, tag = 0 ∨ tag = 1) tag
    all_goals by_cases here : position = index <;> simp

/-! ### At the root -/

/-- What a deletion leaves behind. -/
structure RootDeleted (index : Nat) (root root' : Root Item) : Prop where
  rootOk : RootOk root'
  wait : root'.wait = root.wait
  get : ∀ position, root'.get position = if position = index then .null else root.get position
  tagged : ∀ tag position, root'.tagged tag position =
    if position = index then false else root.tagged tag position

section

variable (rootOk : RootOk root)

include rootOk

/-- Deleting nothing. -/
theorem RootDeleted.unchanged (absent : root.get index = .null) : RootDeleted index root root := by
  refine ⟨rootOk, rfl, fun key => ?_, fun tag key => ?_⟩
  · split
    · next here => rw [here, absent]
    · rfl
  · split
    · next here => rw [here, rootOk.untagged_of_absent absent]
    · rfl

/-- A root after a deletion that kept its top node. -/
theorem RootDeleted.out
    (fits : index < 64 ^ root.height) (untagged : ∀ tag, root.tagged tag index = false)
    (deleted : Deleted index root.height root.rnode (.out slot' here)) :
    RootDeleted index root { root with rnode := slot' } := by
  cases deleted with
  | out shape used reads tags aggregated =>
    refine ⟨⟨rootOk.height_le, shape, fun _ _ _ => used, ?_⟩, rfl, ?_, ?_⟩
    · intro inner tag
      exact (rootOk.node_tags inner tag).trans (aggregated tag).symm
    · intro position
      simp only [Root.get, reads]
      by_cases small : position < 64 ^ root.height
      · simp [small, mod_eq_of_lt small, mod_eq_of_lt fits]
      · simp [small]
    · intro tag position
      have same : ({ root with rnode := slot' } : Root Item).tagged tag position =
          root.tagged tag position := by simp [Root.tagged, tags]
      rw [same]
      split
      · next equal => rw [equal, untagged]
      · rfl

/-- A root after its last item was deleted. -/
theorem RootDeleted.emptied (above : root.height ≠ 0) (fits : index < 64 ^ root.height)
    (deleted : Deleted index root.height root.rnode (.goOn toFree)) :
    RootDeleted index root { root with tags := fun _ => false, height := 0, rnode := .null } := by
  cases deleted with
  | goOn alone untagged =>
    have clear : ∀ tag key, root.tagged tag key = false := by
      intro tag key
      simp [Root.tagged, above, leafTag_of_slotTag rootOk.shape (untagged tag)]
    refine ⟨⟨zero_le _, trivial, by simp, by simp⟩, rfl, ?_, ?_⟩
    · intro key
      simp only [Root.get, lookupLoop_null, ite_self]
      split
      · rfl
      · next ne =>
          split
          · next small =>
              refine (alone key fun hit => ne ?_).symm
              rwa [mod_eq_of_lt small, mod_eq_of_lt fits] at hit
          · rfl
    · intro tag key
      rw [clear]
      simp [Root.tagged]

/-- A root after its only item, held in the root itself, was deleted. -/
theorem RootDeleted.direct (direct : root.height = 0) (fits : index < 64 ^ root.height) :
    RootDeleted index root { root with tags := fun _ => false, rnode := .null } := by
  have zero : index = 0 := by simpa [direct] using fits
  refine ⟨⟨rootOk.height_le, shape_null _, by simp, fun inner => absurd direct inner⟩, rfl, ?_, ?_⟩
  · intro key
    by_cases here : key = index <;> simp [Root.get, direct, here]
    simp [← zero, here]
  · intro tag key
    by_cases here : key = index <;> simp [Root.tagged, direct, here]
    simp [← zero, here]

end

/-- A shrunk root holds what was left. -/
theorem RootDeleted.sameMap (deleted : RootDeleted index root middle) (rootOk' : RootOk root')
    (same : SameMap middle root') : RootDeleted index root root' where
  rootOk := rootOk'
  wait := same.wait.trans deleted.wait
  get position := (same.get position).trans (deleted.get position)
  tagged tag position := (same.tagged tag position).trans (deleted.tagged tag position)

/-- Deletion seen through a root that differs in the tags of the index. -/
theorem RootDeleted.untag (deleted : RootDeleted index middle root')
    (wait : middle.wait = root.wait) (get : ∀ key, middle.get key = root.get key)
    (tagged : ∀ tag key, middle.tagged tag key =
      if key = index then false else root.tagged tag key) :
    RootDeleted index root root' := by
  refine ⟨deleted.rootOk, deleted.wait.trans wait, fun key => ?_, fun tag key => ?_⟩
  · rw [deleted.get, get]
  · rw [deleted.tagged, tagged]
    split <;> rfl

theorem deleteNode_spec (rootOk : RootOk root) (memory : MemoryOk mem)
    (above : root.height ≠ 0) (fits : index < 64 ^ root.height)
    (present : root.get index ≠ .null) (untagged : ∀ tag, root.tagged tag index = false)
    (value : Slot Item) :
    ∃ root' mem', (match deleteLoop index root.height root.rnode mem with
        | (.out rnode here, mem) =>
          let root := { root with rnode }
          if here then do
            let (root, mem) ← radixTreeShrink root.height root mem
            some (value, root, mem)
          else some (value, root, mem)
        | (.goOn toFree, mem) =>
          let mem := match toFree with
            | some node => radixTreeNodeFree node mem
            | none => mem
          some (value, { root with tags := fun _ => false, height := 0, rnode := .null }, mem)) =
        some (value, root', mem') ∧ MemoryOk mem' ∧ RootDeleted index root root' := by
  have leafUntagged : ∀ tag, leafTag index tag root.height root.rnode = false := by
    intro tag
    simpa [Root.tagged, above, fits] using untagged tag
  rw [Root.get, if_pos fits] at present
  rcases result : deleteLoop index root.height root.rnode mem with ⟨walk, mem₁⟩
  obtain ⟨memory₁, deleted⟩ := deleteLoop_spec rootOk.shape memory present leafUntagged result
  dsimp only
  cases walk with
  | out rnode here =>
    have out := RootDeleted.out rootOk fits untagged deleted
    cases here with
    | false => exact ⟨_, mem₁, rfl, memory₁, out⟩
    | true =>
      have used : rnode.isNull = false := by
        cases deleted with
        | out _ used => exact used
      obtain ⟨root', mem', shrunk, rootOk', memory', same⟩ :=
        radixTreeShrink_spec out.rootOk memory₁ used rfl
      refine ⟨root', mem', ?_, memory', out.sameMap rootOk' same⟩
      simp only
      rw [shrunk]
      rfl
  | goOn toFree =>
    have freed : ∀ node, toFree = some node → Clean node := by
      cases deleted with
      | goOn _ _ clean => exact clean
    exact ⟨_, _, rfl, memory₁.free_optional freed, .emptied rootOk above fits deleted⟩

theorem radixTreeDelete_spec (rootOk : RootOk root) (memory : MemoryOk mem)
    (bounded : index < 2 ^ indexBits) :
    ∃ root' mem', radixTreeDelete root index mem = some (root.get index, root', mem') ∧
      MemoryOk mem' ∧ RootDeleted index root root' := by
  have reading := rootOk.get_eq bounded
  by_cases beyond : index > radixTreeMaxindex root.height
  · rw [if_pos beyond] at reading
    refine ⟨root, mem, ?_, memory, .unchanged rootOk reading⟩
    rw [radixTreeDelete, if_pos beyond, reading]
  rw [if_neg beyond] at reading
  have fits := (le_maxindex_iff rootOk.height_le bounded).mp (Nat.le_of_not_lt beyond)
  by_cases direct : root.height = 0
  · refine ⟨{ root with tags := fun _ => false, rnode := .null }, mem, ?_, memory, .direct rootOk direct fits⟩
    rw [radixTreeDelete, if_neg beyond, reading, direct]
    rfl
  by_cases absent : lookupLoop index root.height root.rnode = .null
  · refine ⟨root, mem, ?_, memory, .unchanged rootOk (reading.trans absent)⟩
    rw [radixTreeDelete, if_neg direct]
    simp [absent, reading]
  obtain ⟨rootOk₁, wait₁, height₁, get₁, tagged₁⟩ := clearLeafTags_spec rootOk bounded direct
  obtain ⟨root', mem', result, memory', deleted⟩ := deleteNode_spec rootOk₁ memory
    (by rwa [height₁]) (by rwa [height₁]) (by rw [get₁, reading]; exact absent)
    (fun tag => by simp [tagged₁]) (lookupLoop index root.height root.rnode)
  refine ⟨root', mem', ?_, memory', deleted.untag wait₁ get₁ tagged₁⟩
  rw [radixTreeDelete, if_neg beyond, if_neg direct, reading]
  simp only [isNull_eq_false.mpr absent]
  exact result

open List

variable {Item : Type} {root : Root Item} {node : Node (Slot Item)} {slot : Slot Item}
  {index level : Nat} {used wanted : Nat → Bool} {tag : Tag} {maxItems : Nat}

/-- What a slot contributes to the results. -/
def Slot.found (slot : Slot Item) : Option (Slot Item) :=
  if slot.isNull then none else some slot

@[simp] theorem found_null : (Slot.null : Slot Item).found = none := rfl

/-! ### Stepping over entries -/

theorem and_not_mask {shift : Nat} (bounded : index < 2 ^ indexBits) :
    index &&& (ulongMax ^^^ ((1 <<< shift) - 1)) = index / 2 ^ shift * 2 ^ shift := by
  rw [one_shiftLeft, ulongMax]
  refine eq_of_testBit_eq fun bit => ?_
  rw [testBit_mul_two_pow, testBit_div_two_pow]
  by_cases small : bit < indexBits
  · by_cases low : bit < shift
    · simp [low, small]
    · simp [small, Nat.le_of_not_lt low]
  · have clear : index.testBit bit = false := testBit_lt_two_pow
      (Nat.lt_of_lt_of_le bounded (Nat.pow_le_pow_right (by decide) (Nat.le_of_not_lt small)))
    by_cases low : bit < shift
    · simp [low, clear]
    · simp [Nat.sub_add_cancel (Nat.le_of_not_lt low), clear]

/-- The step to the next entry of a level, which wraps after the last index. -/
theorem nextEntry_eq (bounded : index < 2 ^ indexBits) :
    nextEntry (level * mapShift) index = entryEnd 64 level index % 2 ^ indexBits := by
  have scale : 2 ^ (level * mapShift) = 64 ^ level := by
    rw [mul_comm, pow_mul]
    rfl
  rw [nextEntry, and_not_mask bounded, one_shiftLeft, scale, entryEnd, succ_mul]

/-- The step does not go beyond the wrap. -/
theorem entryEnd_le (levelLt : level < maxPath) (bounded : index < 2 ^ indexBits) :
    entryEnd 64 level index ≤ 2 ^ indexBits := by
  have divides : ∀ level < maxPath, 64 ^ level ∣ 2 ^ indexBits := by decide
  obtain ⟨blocks, whole⟩ := divides level levelLt
  rw [entryEnd, whole, mul_comm]
  refine mul_le_mul_left _ (succ_le_of_lt ?_)
  exact Nat.div_lt_of_lt_mul (whole ▸ bounded)

/-- Where the search for an entry in use has ended. -/
inductive Scanned (used : Nat → Bool) (level index : Nat) : Option Nat → Nat → Prop
  | found {index' : Nat} (ordered : index ≤ index') (bounded : index' < 2 ^ indexBits)
      (inUse : used (digit 64 level index') = true)
      (sameNode : index' / 64 ^ (level + 1) = index / 64 ^ (level + 1))
      (unused : ∀ key, index ≤ key → key < index' → used (digit 64 level key) = false) :
      Scanned used level index (some (digit 64 level index')) index'
  | out {next : Nat} (advances : index < stopOf (2 ^ indexBits) next)
      (bounded : stopOf (2 ^ indexBits) next ≤ 2 ^ indexBits)
      (within : stopOf (2 ^ indexBits) next ≤ entryEnd 64 (level + 1) index)
      (unused : ∀ key, index ≤ key → key < stopOf (2 ^ indexBits) next →
        used (digit 64 level key) = false) :
      Scanned used level index none next

/-- Passing the rest of an entry that is not in use. -/
theorem Scanned.step {result : Option Nat} {next : Nat} (unused : used (digit 64 level index) = false)
    (sameNode : entryEnd 64 level index / 64 ^ (level + 1) = index / 64 ^ (level + 1))
    (scanned : Scanned used level (entryEnd 64 level index) result next) :
    Scanned used level index result next := by
  have pos : 0 < 64 := by decide
  have before : index < entryEnd 64 level index := lt_entryEnd pos
  have passed : ∀ key, index ≤ key → key < entryEnd 64 level index → used (digit 64 level key) = false := by
    intro key ordered inside
    rw [digit_eq_of_lt_entryEnd pos ordered inside, unused]
  cases scanned with
  | found ordered bounded inUse same rest =>
    refine .found (le_trans (le_of_lt before) ordered) bounded inUse
      (same.trans sameNode) fun key from_ until_ => ?_
    rcases lt_or_ge key (entryEnd 64 level index) with inside | later
    · exact passed key from_ inside
    · exact rest key later until_
  | out advances bounded within rest =>
    refine .out (lt_trans before advances) bounded ?_ fun key from_ until_ => ?_
    · rwa [entryEnd_congr sameNode] at within
    · rcases lt_or_ge key (entryEnd 64 level index) with inside | later
      · exact passed key from_ inside
      · exact rest key later until_

/-- Leaving at the end of an entry that is not in use. -/
theorem Scanned.outEntry (levelLt : level < maxPath) (bounded : index < 2 ^ indexBits)
    (unused : used (digit 64 level index) = false) :
    Scanned used level index none (entryEnd 64 level index % 2 ^ indexBits) := by
  have pos : 0 < 64 := by decide
  have within := entryEnd_le levelLt bounded
  have stop := stopOf_mod within (zero_lt_of_lt (lt_entryEnd pos))
  refine .out ?_ ?_ ?_ ?_
  · rw [stop]
    exact lt_entryEnd pos
  · rw [stop]
    exact within
  · rw [stop]
    exact entryEnd_le_succ pos
  · intro key ordered inside
    rw [stop] at inside
    rw [digit_eq_of_lt_entryEnd pos ordered inside, unused]

variable {left firstIndex : Nat} {lookup : Nat → Nat → List (Slot Item) × Nat}
  {value : Nat → Option (Slot Item)}

/-- The inner loop of `__lookup` and `__lookup_tag`. -/
theorem scanEntries_spec (levelLt : level < maxPath) (bounded : index < 2 ^ indexBits)
    (entries : digit 64 level index + (left + 1) = mapSize) :
    Scanned used level index (scanEntries used (level * mapShift) (left + 1) (digit 64 level index) index).1
      (scanEntries used (level * mapShift) (left + 1) (digit 64 level index) index).2 := by
  have pos : 0 < 64 := by decide
  induction left generalizing index with
  | zero =>
    rw [scanEntries]
    split
    · next inUse => exact .found (le_refl _) bounded inUse rfl fun key from_ until_ => by omega
    · next unused =>
        have left := Scanned.outEntry levelLt bounded (Bool.eq_false_iff.mpr unused)
        dsimp only
        rw [nextEntry_eq bounded]
        split <;> exact left
  | succ left ih =>
    have room : digit 64 level index + 1 < 64 := by
      rw [mapSize_eq] at entries
      omega
    obtain ⟨nextDigit, sameNode⟩ := digit_entryEnd pos room
    rw [scanEntries]
    split
    · next inUse => exact .found (le_refl _) bounded inUse rfl fun key from_ until_ => by omega
    · next inUse =>
        have unused := Bool.eq_false_iff.mpr inUse
        dsimp only
        rw [nextEntry_eq bounded]
        split
        · exact .outEntry levelLt bounded unused
        · next going =>
            have inside : entryEnd 64 level index < 2 ^ indexBits := by
              refine lt_of_le_of_ne (entryEnd_le levelLt bounded) fun top => going ?_
              rw [top, mod_self]
            rw [mod_eq_of_lt inside, ← nextDigit]
            refine Scanned.step unused sameNode (ih inside ?_)
            omega

/-! ### The bottom level -/

/-- What the bottom level contributes at an index. -/
def grabbed (node : Node (Slot Item)) (wanted : Nat → Bool) (index : Nat) : Option (Slot Item) :=
  if wanted (digit 64 0 index) then (node.slots (digit 64 0 index)).found else none

/-- One round of the loop, as appending what the index contributes. -/
theorem grabItems_succ (left : Nat) (found : List (Slot Item)) :
    grabItems node wanted maxItems (left + 1) (digit 64 0 index) index found =
      let found' := found ++ (grabbed node wanted index).toList
      if grabbed node wanted index ≠ none ∧ found'.length = maxItems then
        (found', (index + 1) % 2 ^ indexBits)
      else grabItems node wanted maxItems left (digit 64 0 index + 1)
        ((index + 1) % 2 ^ indexBits) found' := by
  rw [grabItems]
  cases want : wanted (digit 64 0 index) with
  | false => simp [grabbed, want]
  | true =>
    cases null : (node.slots (digit 64 0 index)).isNull <;> simp [grabbed, want, Slot.found, null]

/-- What one round adds, when the loop ends with it. -/
theorem collected_single {most : Nat} (bounded : index < 2 ^ indexBits) (room : 1 ≤ most) :
    Collected (grabbed node wanted) (2 ^ indexBits) most (entryEnd 64 1 index) index
      (grabbed node wanted index).toList ((index + 1) % 2 ^ indexBits) := by
  have stop : stopOf (2 ^ indexBits) ((index + 1) % 2 ^ indexBits) = index + 1 :=
    stopOf_mod bounded (succ_pos index)
  refine ⟨?_, ?_, ?_, ?_, ?_⟩
  · rw [stop]
    exact lt_succ_self index
  · have here : entryEnd 64 0 index = index + 1 := entryEnd_zero
    rw [stop, ← here]
    exact entryEnd_le_succ (by decide)
  · rw [stop]
    exact bounded
  · rw [stop]
    exact valuesIn_singleton.symm
  · cases grabbed node wanted index with
    | none => exact zero_le _
    | some slot => exact room

/-- The bottom level's loop finds the items of the indices it passes. -/
theorem grabItems_spec (node : Node (Slot Item)) (wanted : Nat → Bool) {found : List (Slot Item)}
    (bounded : index < 2 ^ indexBits) (entries : digit 64 0 index + (left + 1) = mapSize)
    (room : found.length < maxItems) :
    ∃ more next, grabItems node wanted maxItems (left + 1) (digit 64 0 index) index found =
        (found ++ more, next) ∧
      Collected (grabbed node wanted) (2 ^ indexBits) (maxItems - found.length)
        (entryEnd 64 1 index) index more next := by
  have roomLeft : 1 ≤ maxItems - found.length := by omega
  induction left generalizing index found with
  | zero =>
    refine ⟨_, _, ?_, collected_single bounded roomLeft⟩
    rw [grabItems_succ]
    dsimp only
    split <;> rfl
  | succ left ih =>
    rw [grabItems_succ]
    dsimp only
    split
    · exact ⟨_, _, rfl, collected_single bounded roomLeft⟩
    · next goesOn =>
        have digitRoom : digit 64 0 index + 1 < 64 := by
          rw [mapSize_eq] at entries
          omega
        obtain ⟨nextDigit, sameNode⟩ := digit_entryEnd (by decide) digitRoom
        rw [entryEnd_zero] at nextDigit sameNode
        have inside : index + 1 < 2 ^ indexBits := by
          have size : 2 ^ indexBits = 64 * 2 ^ 58 := by decide
          omega
        have roomAfter : (found ++ (grabbed node wanted index).toList).length < maxItems := by
          cases value : grabbed node wanted index with
          | none => simpa using room
          | some slot =>
            have notFull : ¬ (found ++ [slot]).length = maxItems := by
              simpa [value] using goesOn
            simp only [Option.toList_some, length_append, length_singleton] at *
            omega
        rw [mod_eq_of_lt inside, ← nextDigit]
        obtain ⟨more, next, result, collected⟩ := ih inside (by rw [nextDigit]; omega) roomAfter (by omega)
        rw [entryEnd_congr sameNode] at collected
        have single : valuesIn (grabbed node wanted) index (index + 1) =
          (grabbed node wanted index).toList := valuesIn_singleton
        refine ⟨_, next, by rw [result, append_assoc], single ▸ collected.prepend (le_succ index) ?_⟩
        rw [single]
        rw [length_append] at roomAfter ⊢
        omega

/-- The bottom level's loop from the entry of an index on. -/
theorem grabItems_collects (node : Node (Slot Item)) (wanted : Nat → Bool)
    (bounded : index < 2 ^ indexBits) (room : 1 ≤ maxItems) :
    Collected (grabbed node wanted) (2 ^ indexBits) maxItems (entryEnd 64 1 index) index
      (grabItems node wanted maxItems (mapSize - (index &&& mapMask)) (index &&& mapMask) index []).1
      (grabItems node wanted maxItems (mapSize - (index &&& mapMask)) (index &&& mapMask) index []).2 := by
  have entry : index &&& mapMask = digit 64 0 index := by
    rw [← offset_succ]
    simp [offset]
  have small := digit_lt_mapSize 0 index
  have entries : mapSize - digit 64 0 index = (mapSize - digit 64 0 index - 1) + 1 := by omega
  have whole : digit 64 0 index + ((mapSize - digit 64 0 index - 1) + 1) = mapSize := by omega
  have empty : ([] : List (Slot Item)).length < maxItems := room
  rw [entry, entries]
  obtain ⟨more, next, result, collected⟩ := grabItems_spec node wanted bounded whole empty
  rw [result]
  exact collected

/-! ### One call of `__lookup` and `__lookup_tag` -/

section Descent

variable {value childValue : Nat → Option (Slot Item)} {most next next' entry : Nat}
  {found : List (Slot Item)}

/-- A scan that found no entry in use has passed no value. -/
theorem Scanned.collected_out (scanned : Scanned used level index none next)
    (absent : ∀ key, used (digit 64 level key) = false → value key = none) :
    Collected value (2 ^ indexBits) most (entryEnd 64 (level + 1) index) index [] next := by
  cases scanned with
  | out advances bounded within unused =>
    exact .nothing advances within bounded fun key ordered before =>
      absent key (unused key ordered before)

/-- What is found below the entry a scan stopped at. -/
theorem Scanned.collected_found (scanned : Scanned used level index (some entry) next)
    (absent : ∀ key, used (digit 64 level key) = false → value key = none)
    (below : Collected childValue (2 ^ indexBits) most (entryEnd 64 level next) next found next')
    (same : ∀ key, digit 64 level key = entry → childValue key = value key) :
    Collected value (2 ^ indexBits) most (entryEnd 64 (level + 1) index) index found next' := by
  have pos : 0 < 64 := by decide
  cases scanned with
  | found ordered bounded inUse sameNode unused =>
    refine Collected.skip (below.congr ?_ ?_) ordered fun key from_ before =>
      absent key (unused key from_ before)
    · rw [← entryEnd_congr sameNode]
      exact entryEnd_le_succ pos
    · intro key from_ before
      exact same key (digit_eq_of_lt_entryEnd pos from_ before)

/-- The same at the bottom level, where all entries from there on are looked at. -/
theorem Scanned.collected_bottom (scanned : Scanned used 0 index (some entry) next)
    (absent : ∀ key, used (digit 64 0 key) = false → value key = none)
    (below : Collected value (2 ^ indexBits) most (entryEnd 64 1 next) next found next') :
    Collected value (2 ^ indexBits) most (entryEnd 64 1 index) index found next' := by
  cases scanned with
  | found ordered bounded inUse sameNode unused =>
    rw [entryEnd_congr sameNode] at below
    exact below.skip ordered fun key from_ before => absent key (unused key from_ before)

theorem Scanned.next_lt (scanned : Scanned used level index (some entry) next) :
    next < 2 ^ indexBits ∧ entry = digit 64 level next ∧ used entry = true := by
  cases scanned with
  | found _ bounded inUse => exact ⟨bounded, rfl, inUse⟩

end Descent

theorem scanEntries_scans (used : Nat → Bool) (levelLt : level < maxPath) (bounded : index < 2 ^ indexBits) :
    Scanned used level index (scanEntries used (level * mapShift) (mapSize - offset (level + 1) index)
        (offset (level + 1) index) index).1
      (scanEntries used (level * mapShift) (mapSize - offset (level + 1) index)
        (offset (level + 1) index) index).2 := by
  have small := digit_lt_mapSize level index
  have entries : mapSize - digit 64 level index = (mapSize - digit 64 level index - 1) + 1 := by
    omega
  rw [offset_succ, entries]
  exact scanEntries_spec levelLt bounded (by omega)

/-- `__lookup` finds the items of the indices it passes. -/
theorem lookupFrom_spec (shape : NodeShape level (Shape level) node) (levelLt : level < maxPath)
    (bounded : index < 2 ^ indexBits) (room : 1 ≤ maxItems) :
    Collected (fun key => (lookupLoop key (level + 1) (.node node)).found) (2 ^ indexBits) maxItems
      (entryEnd 64 (level + 1) index) index
      (lookupFrom maxItems (level + 1) (.node node) index).1
      (lookupFrom maxItems (level + 1) (.node node) index).2 := by
  induction level generalizing node index with
  | zero =>
    have bottom := grabItems_collects node (fun _ => true) bounded room
    refine bottom.congr (le_refl _) fun key _ _ => ?_
    rw [lookupLoop_succ]
    rfl
  | succ level ih =>
    have scanned := scanEntries_scans (fun i => !(node.slots i).isNull) levelLt bounded
    have absent : ∀ key, (!(node.slots (digit 64 (level + 1) key)).isNull) = false →
        (lookupLoop key (level + 1 + 1) (.node node)).found = none := by
      intro key unused
      have null : node.slots (digit 64 (level + 1) key) = .null :=
        isNull_iff.mp (by simpa using unused)
      rw [lookupLoop_succ, null, lookupLoop_null, found_null]
    rw [lookupFrom]
    · split
      · next next result =>
          rw [result] at scanned
          exact scanned.collected_out absent
      · next entry next result =>
          rw [result] at scanned
          obtain ⟨nextLt, entryEq, inUse⟩ := scanned.next_lt
          have entryLt : entry < mapSize := entryEq ▸ digit_lt_mapSize (level + 1) next
          have childShape := shape.children entry entryLt
          cases childEq : node.slots entry with
          | null => rw [childEq] at inUse; cases inUse
          | item value => rw [childEq] at childShape; exact childShape.elim
          | node child =>
            rw [childEq] at childShape
            refine scanned.collected_found absent (ih childShape (lt_of_succ_lt levelLt) nextLt) ?_
            intro key here
            rw [lookupLoop_succ _ (level + 1), here, childEq]
    · exact succ_ne_zero level

/-- What `__lookup_tag` looks for. -/
def taggedFound (tag : Tag) (height : Nat) (slot : Slot Item) (index : Nat) : Option (Slot Item) :=
  if leafTag index tag height slot then (lookupLoop index height slot).found else none

/-- `__lookup_tag` finds the tagged items of the indices it passes. -/
theorem lookupTagFrom_spec (tag : Tag) (shape : NodeShape level (Shape level) node)
    (levelLt : level < maxPath) (bounded : index < 2 ^ indexBits) (room : 1 ≤ maxItems) :
    Collected (taggedFound tag (level + 1) (.node node)) (2 ^ indexBits) maxItems
      (entryEnd 64 (level + 1) index) index
      (lookupTagFrom tag maxItems (level + 1) (.node node) index).1
      (lookupTagFrom tag maxItems (level + 1) (.node node) index).2 := by
  induction level generalizing node index with
  | zero =>
    have scanned := scanEntries_scans (node.tags tag) levelLt bounded
    have absent : ∀ key, node.tags tag (digit 64 0 key) = false →
        taggedFound tag 1 (.node node) key = none := by
      intro key unset
      rw [taggedFound, leafTag_one, unset]
      rfl
    rw [lookupTagFrom]
    split
    · next next result =>
        rw [result] at scanned
        exact scanned.collected_out absent
    · next entry next result =>
        rw [result] at scanned
        have bottom := grabItems_collects node (node.tags tag) scanned.next_lt.1 room
        refine scanned.collected_bottom absent (bottom.congr (le_refl _) fun key _ _ => ?_)
        rw [taggedFound, leafTag_one, lookupLoop_succ]
        rfl
  | succ level ih =>
    have above : level + 1 ≠ 0 := succ_ne_zero level
    have scanned := scanEntries_scans (node.tags tag) levelLt bounded
    have absent : ∀ key, node.tags tag (digit 64 (level + 1) key) = false →
        taggedFound tag (level + 1 + 1) (.node node) key = none := by
      intro key unset
      have entryLt := digit_lt_mapSize (level + 1) key
      rw [shape.inner_tags above tag _ entryLt] at unset
      rw [taggedFound, leafTag_succ _ _ _ above, leafTag_of_slotTag (shape.children _ entryLt) unset]
      rfl
    rw [lookupTagFrom]
    split
    · next next result =>
        rw [result] at scanned
        exact scanned.collected_out absent
    · next entry next result =>
        rw [result] at scanned
        obtain ⟨nextLt, entryEq, inUse⟩ := scanned.next_lt
        have entryLt : entry < mapSize := entryEq ▸ digit_lt_mapSize (level + 1) next
        have childShape := shape.children entry entryLt
        rw [shape.inner_tags above tag entry entryLt] at inUse
        cases childEq : node.slots entry with
        | null => rw [childEq] at inUse; cases inUse
        | item value => rw [childEq] at childShape; exact childShape.elim
        | node child =>
          rw [childEq] at childShape
          refine scanned.collected_found absent (ih childShape (lt_of_succ_lt levelLt) nextLt) ?_
          intro key here
          rw [taggedFound, taggedFound, lookupLoop_succ _ (level + 1), leafTag_succ _ _ _ above,
            here, childEq]

/-! ### The loop around the calls -/

/-- The `while` loop of the gang lookups returns the first values, if every call finds all the
values of the indices it passes. -/
theorem gangLoop_spec {maxIndex limit curIndex rounds : Nat} {results : List (Slot Item)}
    (calls : ∀ most index, 1 ≤ most → index ≤ maxIndex →
      Collected value (2 ^ indexBits) most limit index (lookup most index).1 (lookup most index).2)
    (beyond : ∀ index, maxIndex < index → index < 2 ^ indexBits → value index = none)
    (enough : 2 ^ indexBits < curIndex + rounds) (reached : firstIndex ≤ curIndex)
    (bounded : curIndex ≤ 2 ^ indexBits) (sofar : results = valuesIn value firstIndex curIndex)
    (room : results.length ≤ maxItems) :
    gangLoop lookup maxIndex maxItems rounds curIndex results =
      some ((valuesIn value firstIndex (2 ^ indexBits)).take maxItems) := by
  induction rounds generalizing curIndex results with
  | zero => omega
  | succ rounds ih =>
    have whole : valuesIn value firstIndex (2 ^ indexBits) =
        results ++ valuesIn value curIndex (2 ^ indexBits) := by
      rw [sofar, valuesIn_append reached bounded]
    rw [gangLoop]
    split
    · next full =>
        rw [whole, take_left' (Nat.le_antisymm room (Nat.le_of_not_lt full))]
    · next notFull =>
        split
        · next past =>
            have nothing : valuesIn value curIndex (2 ^ indexBits) = [] :=
              valuesIn_eq_nil fun key ordered =>
                beyond key (lt_of_lt_of_le past ordered)
            rw [whole, nothing, append_nil, take_of_length_le room]
        · next within =>
            rcases result : lookup (maxItems - results.length) curIndex with ⟨found, next⟩
            have collected := calls (maxItems - results.length) curIndex (by omega) (Nat.le_of_not_lt within)
            rw [result] at collected
            dsimp only at collected ⊢
            have longer : results ++ found = valuesIn value firstIndex (stopOf (2 ^ indexBits) next) := by
              rw [valuesIn_append reached (le_of_lt collected.advances), sofar, collected.found_eq]
            have roomAfter : (results ++ found).length ≤ maxItems := by
              have few := collected.length_le
              rw [length_append]
              omega
            by_cases wrapped : next = 0
            · rw [if_pos wrapped, longer, stopOf, if_pos wrapped, take_of_length_le]
              rwa [longer, stopOf, if_pos wrapped] at roomAfter
            · have stop : stopOf (2 ^ indexBits) next = next := if_neg wrapped
              have advances := collected.advances
              have nextBounded := collected.bounded
              rw [stop] at advances nextBounded longer
              rw [if_neg wrapped]
              exact ih (by omega) (by omega) nextBounded longer roomAfter

/-- The loop over a tree with nodes, whose values are those that the calls look for. -/
theorem gangLoop_node {inner : Nat → Option (Slot Item)} (levelLt : level < maxPath)
    (bounded : firstIndex < 2 ^ indexBits)
    (calls : ∀ most index, 1 ≤ most → index < 2 ^ indexBits →
      Collected inner (2 ^ indexBits) most (entryEnd 64 (level + 1) index) index
        (lookup most index).1 (lookup most index).2)
    (inside : ∀ index, index < 64 ^ (level + 1) → inner index = value index)
    (outside : ∀ index, 64 ^ (level + 1) ≤ index → value index = none) :
    gangLoop lookup (radixTreeMaxindex (level + 1)) maxItems (2 ^ indexBits + 1) firstIndex [] =
      some ((valuesIn value firstIndex (2 ^ indexBits)).take maxItems) := by
  have wide : ∀ height ≤ maxPath, radixTreeMaxindex height < 2 ^ indexBits := by decide
  have found : ∀ most index, 1 ≤ most → index ≤ radixTreeMaxindex (level + 1) →
      Collected value (2 ^ indexBits) most (64 ^ (level + 1)) index (lookup most index).1
        (lookup most index).2 := by
    intro most index room within
    have small := lt_of_le_of_lt within (wide (level + 1) levelLt)
    have fits := (le_maxindex_iff levelLt small).mp within
    have limit : entryEnd 64 (level + 1) index = 64 ^ (level + 1) := by
      rw [entryEnd, div_eq_of_lt fits, Nat.one_mul]
    have collected := calls most index room small
    rw [limit] at collected
    exact collected.congr (le_refl _) fun key _ => inside key
  refine gangLoop_spec found ?_ (by omega) (le_refl _) (le_of_lt bounded) valuesIn_self.symm (zero_le _)
  intro index past small
  refine outside index (Nat.le_of_not_lt fun fits => ?_)
  exact Nat.not_le_of_lt past ((le_maxindex_iff levelLt small).mpr fits)

/-- What a gang lookup of a root that holds one item itself returns. -/
theorem valuesIn_direct (only : ∀ index, 0 < index → value index = none) (room : 1 ≤ maxItems) :
    (valuesIn value firstIndex (2 ^ indexBits)).take maxItems =
      if firstIndex > 0 then [] else (value 0).toList := by
  have rest {start : Nat} (pos : 0 < start) : valuesIn value start (2 ^ indexBits) = [] :=
    valuesIn_eq_nil fun key ordered _ => only key (lt_of_lt_of_le pos ordered)
  split
  · next pos => rw [rest pos, take_nil]
  · next zero =>
      obtain rfl : firstIndex = 0 := by omega
      have one : 0 + 1 ≤ 2 ^ indexBits := by decide
      rw [valuesIn_append (zero_le _) one, rest (by decide), append_nil,
        valuesIn_singleton, take_of_length_le]
      cases value 0 with
      | none => exact zero_le _
      | some slot => exact room

theorem radixTreeGangLookup_spec (rootOk : RootOk root) (bounded : firstIndex < 2 ^ indexBits)
    (room : 1 ≤ maxItems) :
    radixTreeGangLookup root firstIndex maxItems =
      some ((valuesIn (fun index => (root.get index).found) firstIndex (2 ^ indexBits)).take maxItems) := by
  unfold radixTreeGangLookup
  cases top : root.rnode with
  | null =>
    have nothing : valuesIn (fun index => (root.get index).found) firstIndex (2 ^ indexBits) =
        [] := valuesIn_eq_nil fun key _ _ => by simp [Root.get, top]
    rw [nothing, take_nil]
  | item value =>
    have direct := rootOk.height_of_item top
    have only : ∀ index, 0 < index → (root.get index).found = none := by
      intro index pos
      simp [Root.get, direct, ne_of_gt pos]
    rw [valuesIn_direct only room]
    simp [Root.get, direct, top, lookupLoop, Slot.found]
  | node node =>
    obtain ⟨level, rootHeight, shape⟩ := rootOk.node_of_top top
    have levelLt := rootOk.height_le
    rw [rootHeight] at levelLt
    dsimp only
    rw [shape.height_eq]
    refine gangLoop_node levelLt bounded
      (fun most index most1 small => lookupFrom_spec shape levelLt small most1) ?_ ?_
    · intro index fits
      rw [Root.get, rootHeight, if_pos fits, top]
    · intro index beyond
      rw [Root.get, rootHeight, if_neg (not_lt.mpr beyond), found_null]

theorem radixTreeGangLookupTag_spec (tag : Tag) (rootOk : RootOk root)
    (bounded : firstIndex < 2 ^ indexBits) (room : 1 ≤ maxItems) :
    radixTreeGangLookupTag root firstIndex maxItems tag =
      some ((valuesIn (fun index => if root.tagged tag index then (root.get index).found else none)
        firstIndex (2 ^ indexBits)).take maxItems) := by
  unfold radixTreeGangLookupTag
  cases set : root.tags tag with
  | false =>
    have nothing : valuesIn (fun index => if root.tagged tag index then (root.get index).found else none)
        firstIndex (2 ^ indexBits) = [] := valuesIn_eq_nil fun key _ _ => by simp [rootOk.untagged set]
    rw [nothing, take_nil]
    rfl
  | true =>
    simp only [Bool.not_true, Bool.false_eq_true, if_false]
    cases top : root.rnode with
    | null => exact absurd top (rootOk.rnode_ne_null set)
    | item value =>
      have direct := rootOk.height_of_item top
      have only : ∀ index, 0 < index →
          (if root.tagged tag index then (root.get index).found else none) = none := by
        intro index pos
        simp [Root.tagged, direct, ne_of_gt pos]
      rw [valuesIn_direct only room]
      simp [Root.get, Root.tagged, direct, set, top, lookupLoop, Slot.found]
    | node node =>
      obtain ⟨level, rootHeight, shape⟩ := rootOk.node_of_top top
      have levelLt := rootOk.height_le
      rw [rootHeight] at levelLt
      dsimp only
      rw [shape.height_eq]
      refine gangLoop_node levelLt bounded
        (fun most index most1 small => lookupTagFrom_spec tag shape levelLt small most1) ?_ ?_
      · intro index fits
        simp [taggedFound, Root.tagged, Root.get, rootHeight, fits, top]
      · intro index beyond
        simp [Root.tagged, rootHeight, not_lt.mpr beyond]

end LinuxKernel.Lib.RadixTree
