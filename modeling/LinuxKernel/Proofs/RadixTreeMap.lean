/-
Module: LinuxKernel.Proofs.RadixTreeMap
Purpose: The radix tree refines the tagged map, whatever memory does. Growing a tree that is not empty can
  need more nodes than a full preload pool. The search upwards for a hole ends when the index wraps around
  to 0, the search downwards at `LONG_MAX`, where its index does not wrap.
Trusted boundary: none
Main exports: Represents, treeRun_refines_map, treeRun_tags_exact, radixTreeInsert_from_pool_iff, holes_ok_iff
-/
import LinuxKernel.Proofs.RadixTreeDelete

namespace LinuxKernel.Lib.RadixTree

open Library Function List

variable {Item : Type} {st st' : TreeState Item} {map : TaggedMap Item} {root root' : Root Item}
  {mem mem' : Memory Item} {index : Nat} {tag : Tag} {wait : Bool}
  {actions : List (TreeAction Item)} {trace events : List (TreeRet Item)}
  {action : TreeAction Item}

/-! ### The representation -/

/-- The tree holds exactly the map, and its `__GFP_WAIT` bit is as given. -/
structure Represents (wait : Bool) (st : TreeState Item) (map : TaggedMap Item) : Prop where
  wait_eq : st.root.wait = wait
  rootOk : RootOk st.root
  memory : MemoryOk st.mem
  items : ∀ index, st.root.get index = slotOf (map.items index)
  tagged : ∀ tag index, st.root.tagged tag index = map.tagged tag index
  bounded : ∀ index, map.items index ≠ none → index < 2 ^ indexBits

variable {item : Option Item} {maxItems : Nat} {loaded : Bool} {node : Node (Slot Item)}

theorem slotOf_null : slotOf item = .null ↔ item = none := by
  cases item <;> simp [slotOf]

theorem found_slotOf (item : Option Item) : (slotOf item).found = item.map .item := by
  cases item <;> rfl

theorem represents_init (wait : Bool) :
    Represents wait (TreeState.init wait : TreeState Item) TaggedMap.empty where
  wait_eq := rfl
  rootOk := ⟨Nat.zero_le _, trivial, by simp [TreeState.init, Root.init], fun above => absurd rfl above⟩
  memory := ⟨by simp [TreeState.init], by simp [TreeState.init], Nat.zero_le _⟩
  items index := by simp [TreeState.init, Root.init, Root.get, slotOf, TaggedMap.empty]
  tagged tag index := by simp [TreeState.init, Root.init, Root.tagged, TaggedMap.empty]
  bounded index bound := absurd rfl bound

theorem radixTreeLookup_eq (rootOk : RootOk root) (bounded : index < 2 ^ indexBits) :
    radixTreeLookup root index = root.get index := by
  rw [rootOk.get_eq bounded]
  unfold radixTreeLookup
  cases top : root.rnode with
  | null => simp
  | item value =>
    have direct := rootOk.height_of_item top
    rw [direct]
    rfl
  | node node =>
    obtain ⟨level, rootHeight, shape⟩ := rootOk.node_of_top top
    simp only [rootHeight, shape.height_eq]

section

variable (represents : Represents wait st map)

include represents

/-- What the map binds, the tree finds. -/
theorem Represents.lookup (bounded : index < 2 ^ indexBits) :
    radixTreeLookup st.root index = slotOf (map.items index) :=
  (radixTreeLookup_eq represents.rootOk bounded).trans (represents.items index)

/-- The bound items at or above an index, in ascending order. -/
theorem Represents.gangLookup (bounded : index < 2 ^ indexBits) (room : 1 ≤ maxItems) :
    radixTreeGangLookup st.root index maxItems =
      some (((valuesIn map.items index (2 ^ indexBits)).take maxItems).map .item) := by
  have values : (fun index => (st.root.get index).found) = fun index => (map.items index).map .item := by
    funext index
    rw [represents.items, found_slotOf]
  rw [radixTreeGangLookup_spec represents.rootOk bounded room, values, map_take]
  simp only [valuesIn, map_filterMap]

/-- The tagged items at or above an index, in ascending order. -/
theorem Represents.gangLookupTag (tag : Tag) (bounded : index < 2 ^ indexBits) (room : 1 ≤ maxItems) :
    radixTreeGangLookupTag st.root index maxItems tag =
      some (((valuesIn (fun index => if map.tagged tag index then map.items index else none) index
        (2 ^ indexBits)).take maxItems).map .item) := by
  have values : (fun index =>
        if st.root.tagged tag index then (st.root.get index).found else none) =
      fun index => (if map.tagged tag index then map.items index else none).map .item := by
    funext index
    rw [represents.items, represents.tagged, found_slotOf]
    cases map.tagged tag index <;> rfl
  rw [radixTreeGangLookupTag_spec tag represents.rootOk bounded room, values, map_take]
  simp only [valuesIn, map_filterMap]

/-! ### One call -/

/-- A tree without an item at an index has no tags there. -/
theorem Represents.untagged (free : map.items index = none) (tag : Tag) : map.tagged tag index = false := by
  rw [← represents.tagged]
  refine represents.rootOk.untagged_of_absent ?_ tag
  rw [represents.items, free]
  rfl

end

theorem bounded_update {items : Nat → Option Item}
    (bounded : ∀ index, items index ≠ none → index < 2 ^ indexBits)
    (small : index < 2 ^ indexBits) :
    ∀ key, update items index item key ≠ none → key < 2 ^ indexBits := by
  intro key bound
  by_cases here : key = index
  · rw [here]
    exact small
  · rw [update_of_ne here] at bound
    exact bounded key bound

/-- An insertion does to the map what it returns. -/
theorem insert_refines {item : Item} {choices : List CacheChoice} {ret : InsertRet}
    (rep : Represents wait st map) (bounded : index < 2 ^ indexBits)
    (result : radixTreeInsert st.root index item (st.mem.facing choices) = (ret, root, mem)) :
    ∃ map', MapStep map (.insert index item choices) [.insert ret] map' ∧
      Represents wait { root, mem } map' := by
  obtain ⟨rootOk, memory, sameWait, tags, outcome⟩ :=
    radixTreeInsert_spec rep.rootOk (rep.memory.facing choices) bounded result
  -- A call that changes nothing that can be read leaves the same map.
  have unchanged (same : ∀ key, root.get key = st.root.get key) :
      Represents wait { root, mem } map :=
    ⟨sameWait.trans rep.wait_eq, rootOk, memory,
      fun index => (same index).trans (rep.items index),
      fun tag index => (tags tag index).trans (rep.tagged tag index), rep.bounded⟩
  cases outcome with
  | ok free bound others =>
    have free := slotOf_null.mp ((rep.items index).symm.trans free)
    refine ⟨_, .insert free, sameWait.trans rep.wait_eq, rootOk, memory, ?_, ?_,
      bounded_update rep.bounded bounded⟩
    · intro key
      by_cases here : key = index
      · simp only [TaggedMap.rebind, here, update_self, bound index rfl, slotOf]
      · simp only [TaggedMap.rebind, update_of_ne here]
        exact (others key here).trans (rep.items key)
    · intro tag key
      refine (tags tag key).trans ?_
      rw [rep.tagged]
      by_cases here : key = index
      · simp only [TaggedMap.rebind, here, update_self, rep.untagged free]
      · simp only [TaggedMap.rebind, update_of_ne here]
  | «exists» bound same =>
    refine ⟨map, .insertExists fun free => bound ?_, unchanged same⟩
    rw [rep.items, free]
    rfl
  | noMemory free same =>
    exact ⟨map, .insertNoMemory (slotOf_null.mp ((rep.items index).symm.trans free)), unchanged same⟩

/-- A deletion unbinds. -/
theorem RootDeleted.represents (rep : Represents wait st map) (memory : MemoryOk mem)
    (bounded : index < 2 ^ indexBits) (deleted : RootDeleted index st.root root) :
    Represents wait { root, mem } (map.rebind index none) := by
  refine ⟨deleted.wait.trans rep.wait_eq, deleted.rootOk, memory, ?_, ?_,
    bounded_update rep.bounded bounded⟩
  · intro key
    refine (deleted.get key).trans ?_
    by_cases here : key = index <;> simp [TaggedMap.rebind, here, slotOf, rep.items]
  · intro tag key
    refine (deleted.tagged tag key).trans ?_
    by_cases here : key = index <;> simp [TaggedMap.rebind, here, rep.tagged]

/-- Setting and clearing a tag change that tag. -/
theorem RootRetagged.represents {bit : Bool} (rep : Represents wait st map)
    (retagged : RootRetagged index tag bit st.root root) :
    Represents wait { st with root } (map.retag index tag bit) := by
  refine ⟨retagged.wait.trans rep.wait_eq, retagged.rootOk, rep.memory, ?_, ?_,
    rep.bounded⟩
  · intro key
    exact (retagged.get key).trans (rep.items key)
  · intro other key
    refine (retagged.tagged other key).trans ?_
    rw [rep.tagged]
    by_cases same : other = tag
    · subst same
      by_cases here : key = index
      · simp [TaggedMap.retag, here]
      · simp [TaggedMap.retag, here]
    · simp [TaggedMap.retag, same]

/-- The loop of `radix_tree_preload` fills the pool with clean nodes. -/
theorem preloadLoop_spec {missing : Nat} (memory : MemoryOk mem) (room : mem.pool.length + missing ≤ maxPath)
    (result : preloadLoop missing mem = (loaded, mem')) :
    MemoryOk mem' ∧ (loaded = true → mem'.pool.length = mem.pool.length + missing) := by
  induction missing generalizing mem with
  | zero =>
    cases result
    exact ⟨memory, fun _ => rfl⟩
  | succ missing ih =>
    rcases alloc : kmemCacheAlloc mem with ⟨node?, mem₁⟩
    obtain ⟨memory₁, pool, _, clean⟩ := kmemCacheAlloc_ok memory alloc
    rw [preloadLoop, alloc] at result
    cases node? with
    | none =>
      cases result
      exact ⟨memory₁, by simp⟩
    | some node =>
      have filled : MemoryOk { mem₁ with pool := node :: mem₁.pool } := by
        refine ⟨memory₁.cache_clean, forall_mem_cons.mpr ⟨clean node rfl, memory₁.pool_clean⟩, ?_⟩
        simp only [pool, length_cons]
        omega
      obtain ⟨memory', length⟩ := ih filled (by simp only [pool, length_cons]; omega) result
      refine ⟨memory', fun success => ?_⟩
      rw [length success]
      simp only [pool, length_cons]
      omega

theorem radixTreePreload_spec (memory : MemoryOk mem) (result : radixTreePreload mem = (loaded, mem')) :
    MemoryOk mem' ∧ (loaded = true → mem'.pool.length = maxPath) := by
  have bounded := memory.pool_length
  obtain ⟨memory', length⟩ := preloadLoop_spec memory (by omega) result
  refine ⟨memory', fun success => ?_⟩
  rw [length success]
  omega

/-- Every call on the tree is one on the map. -/
theorem treeStep_refines (rep : Represents wait st map) (taken : TreeStep st action events st') :
    ∃ map', MapStep map action events map' ∧ Represents wait st' map' := by
  cases taken with
  | preload result =>
    refine ⟨map, .preload, rep.wait_eq, rep.rootOk, ?_, rep.items,
      rep.tagged, rep.bounded⟩
    exact (radixTreePreload_spec (rep.memory.facing _) result).1
  | insert bounded result => exact insert_refines rep bounded result
  | delete bounded result =>
    obtain ⟨root', mem', returns, memory, deleted⟩ :=
      radixTreeDelete_spec rep.rootOk rep.memory bounded
    rw [result] at returns
    cases returns
    rw [rep.items]
    exact ⟨_, .delete, deleted.represents rep memory bounded⟩
  | deleteOops bounded result =>
    obtain ⟨root', mem', returns, _⟩ :=
      radixTreeDelete_spec rep.rootOk rep.memory bounded
    rw [result] at returns
    cases returns
  | @tagSet _ tag _ _ bounded present result =>
    rw [radixTreeLookup_eq rep.rootOk bounded] at present
    obtain ⟨root', returns, retagged⟩ := radixTreeTagSet_spec tag rep.rootOk bounded present
    rw [result] at returns
    cases returns
    rw [rep.items] at present ⊢
    exact ⟨_, .tagSet fun free => present (slotOf_null.mpr free), retagged.represents rep⟩
  | @tagSetOops _ tag bounded present result =>
    rw [radixTreeLookup_eq rep.rootOk bounded] at present
    obtain ⟨root', returns, _⟩ := radixTreeTagSet_spec tag rep.rootOk bounded present
    rw [result] at returns
    cases returns
  | @tagClear _ tag _ _ bounded result =>
    obtain ⟨root', returns, retagged⟩ := radixTreeTagClear_spec tag rep.rootOk bounded
    rw [result] at returns
    cases returns
    rw [rep.items]
    exact ⟨_, .tagClear, retagged.represents rep⟩

/-! ### Runs -/

/-- Every sequence of calls on the tree is one on the map, which the tree holds at its end. -/
theorem treeRun_represents (run : TreeRun wait actions trace st) :
    ∃ map, MapRun actions trace map ∧ Represents wait st map :=
  run.simulation (represents_init wait) treeStep_refines

/-- The radix tree implements a finite map: a sequence of calls returns what it would on the map,
and afterwards lookups and gang lookups read the map. -/
theorem treeRun_refines_map (run : TreeRun wait actions trace st) :
    ∃ map, MapRun actions trace map ∧
      (∀ index < 2 ^ indexBits, radixTreeLookup st.root index = slotOf (map.items index)) ∧
      ∀ firstIndex < 2 ^ indexBits, ∀ maxItems ≥ 1,
        radixTreeGangLookup st.root firstIndex maxItems =
          some (((valuesIn map.items firstIndex (2 ^ indexBits)).take maxItems).map .item) := by
  obtain ⟨map, mapRun, rep⟩ := treeRun_represents run
  exact ⟨map, mapRun, fun index bounded => rep.lookup bounded,
    fun firstIndex bounded maxItems room => rep.gangLookup bounded room⟩

/-- An item at index 0, and an insertion for which there is no memory to grow the tree. -/
theorem treeRun_refines_map_noMemory :
    ∃ (st : TreeState Nat) (map : TaggedMap Nat),
      TreeRun false [.insert 0 7 [], .insert 100 8 []] [.insert .ok, .insert .ENOMEM] st ∧
      MapRun [.insert 0 7 [], .insert 100 8 []] [.insert .ok, .insert .ENOMEM] map ∧
      ∀ index < 2 ^ indexBits, radixTreeLookup st.root index = slotOf (map.items index) := by
  have run : TreeRun false [.insert 0 7 [], .insert 100 8 []] [.insert .ok, .insert .ENOMEM] _ :=
    .cons (.insert (by decide) rfl) <| .cons (.insert (by decide) rfl) .nil
  obtain ⟨map, mapRun, lookups, _⟩ := treeRun_refines_map run
  exact ⟨_, map, run, mapRun, lookups⟩

/-! ### Aggregated tags -/

theorem NodeIn.shape {height : Nat} {slot : Slot Item} (inside : NodeIn slot node)
    (shape : Shape height slot) :
    ∃ level, NodeShape level (Shape level) node := by
  induction inside generalizing height with
  | here node =>
    cases height with
    | zero => exact shape.elim
    | succ level => exact ⟨level, shape⟩
  | child offLt _ ih =>
    cases height with
    | zero => exact shape.elim
    | succ level => exact ih (shape.children _ offLt)

/-- In a node that is not a leaf, the tag of an entry is set exactly when one is set in the child. -/
theorem NodeShape.tag_iff {level off : Nat} (shape : NodeShape level (Shape level) node)
    (above : 1 < node.height) (tag : Tag) (offLt : off < mapSize) :
    node.tags tag off = true ↔
      ∃ child, node.slots off = .node child ∧ ∃ entry < mapSize, child.tags tag entry = true := by
  rw [shape.height_eq] at above
  rw [shape.inner_tags (by omega) tag off offLt]
  cases node.slots off with
  | null => simp
  | item value => simp [slotTag]
  | node child => simp [anyTagSet_iff]

/-- Tags are exactly aggregated in every reachable tree, freed nodes are clean, a tag reads whether
the item was tagged since its insertion, and a gang lookup finds the tagged items. -/
theorem treeRun_tags_exact (run : TreeRun wait actions trace st) :
    ∃ map, MapRun actions trace map ∧
      (∀ node, NodeIn st.root.rnode node → 1 < node.height → ∀ tag, ∀ off < mapSize,
        (node.tags tag off = true ↔ ∃ child, node.slots off = .node child ∧
          ∃ entry < mapSize, child.tags tag entry = true)) ∧
      (∀ tag, st.root.tags tag = true ↔
        ∃ index < 2 ^ indexBits, map.items index ≠ none ∧ map.tagged tag index = true) ∧
      (∀ node ∈ st.mem.cache, ∀ off < mapSize,
        node.slots off = .null ∧ ∀ tag, node.tags tag off = false) ∧
      (∀ tag, ∀ index < 2 ^ indexBits,
        radixTreeTagGet st.root index tag = some (map.tagged tag index)) ∧
      ∀ tag, ∀ firstIndex < 2 ^ indexBits, ∀ maxItems ≥ 1,
        radixTreeGangLookupTag st.root firstIndex maxItems tag =
          some (((valuesIn (fun index => if map.tagged tag index then map.items index else none)
            firstIndex (2 ^ indexBits)).take maxItems).map .item) := by
  obtain ⟨map, mapRun, rep⟩ := treeRun_represents run
  refine ⟨map, mapRun, ?_, ?_, ?_, ?_, ?_⟩
  · intro node inside above tag off offLt
    obtain ⟨level, shape⟩ := inside.shape rep.rootOk.shape
    exact shape.tag_iff above tag offLt
  · intro tag
    rw [rep.rootOk.tags_iff]
    constructor
    · rintro ⟨index, tagged⟩
      rw [rep.tagged] at tagged
      have bound : map.items index ≠ none := by
        intro free
        rw [rep.untagged free] at tagged
        cases tagged
      exact ⟨index, rep.bounded index bound, bound, tagged⟩
    · rintro ⟨index, _, _, tagged⟩
      exact ⟨index, (rep.tagged tag index).trans tagged⟩
  · intro node freed off offLt
    have clean := rep.memory.cache_clean node freed
    exact ⟨clean.slots_null off offLt, fun tag => clean.tags_clear tag off offLt⟩
  · intro tag index bounded
    rw [radixTreeTagGet_spec tag rep.rootOk bounded, rep.tagged]
  · intro tag firstIndex bounded maxItems room
    exact rep.gangLookupTag tag bounded room

/-- A tree that grew over a tagged item and shrank again. -/
theorem treeRun_tags_exact_shrunk :
    ∃ (st : TreeState Nat) (map : TaggedMap Nat), TreeRun false
        [.insert 0 7 [], .tagSet 0 1, .insert 70 8 (List.replicate 3 .fresh), .delete 70]
        [.insert .ok, .tagSet (.item 7), .insert .ok, .delete (.item 8)] st ∧
      st.mem.cache.length = 3 ∧ MapRun
        [.insert 0 7 [], .tagSet 0 1, .insert 70 8 (List.replicate 3 .fresh), .delete 70]
        [.insert .ok, .tagSet (.item 7), .insert .ok, .delete (.item 8)] map ∧
      ∀ index < 2 ^ indexBits, radixTreeTagGet st.root index 1 = some (map.tagged 1 index) := by
  have run : TreeRun false [.insert 0 7 [], .tagSet 0 1, .insert 70 8 (List.replicate 3 .fresh), .delete 70]
      [.insert .ok, .tagSet (.item 7), .insert .ok, .delete (.item 8)] _ :=
    .cons (.insert (by decide) rfl) <| .cons (.tagSet (by decide) (by rintro ⟨⟩) rfl) <|
      .cons (.insert (by decide) rfl) <| .cons (.delete (by decide) rfl) .nil
  obtain ⟨map, mapRun, _, _, _, tags, _⟩ := treeRun_tags_exact run
  exact ⟨_, map, run, rfl, mapRun, tags 1⟩

open Nat

variable {height : Nat} {item : Item} {ret : InsertRet} {slot slot' : Slot Item}

/-! ### Taking nodes from the pool -/

/-- Whether a piece of code that takes `needed` nodes stays within the pool: it does not call
`kmem_cache_alloc` when the pool is large enough, and it does when it is not. -/
structure Takes (needed : Nat) (mem mem' : Memory Item) : Prop where
  enough : needed ≤ mem.pool.length →
    mem'.calls = mem.calls ∧ mem'.pool.length = mem.pool.length - needed
  short : mem.pool.length < needed → mem.calls < mem'.calls
  calls_le : mem.calls ≤ mem'.calls

theorem Takes.none (mem : Memory Item) : Takes 0 mem mem :=
  ⟨fun _ => ⟨rfl, rfl⟩, fun short => absurd short (not_lt_zero _), le_refl _⟩

/-- What one piece leaves is for the next. -/
theorem Takes.append {first second : Nat} {middle : Memory Item} (taken : Takes first mem middle)
    (rest : Takes second middle mem') : Takes (first + second) mem mem' := by
  refine ⟨fun enough => ?_, fun short => ?_, le_trans taken.calls_le rest.calls_le⟩
  · obtain ⟨calls, pool⟩ := taken.enough (by omega)
    obtain ⟨calls', pool'⟩ := rest.enough (by omega)
    exact ⟨calls'.trans calls, by omega⟩
  · rcases lt_or_ge mem.pool.length first with early | late
    · exact lt_of_lt_of_le (taken.short early) rest.calls_le
    · obtain ⟨calls, pool⟩ := taken.enough late
      have later := rest.short (by omega)
      omega

/-- Running into `kmem_cache_alloc` with an empty pool, whatever comes after it. -/
theorem Takes.of_called {needed : Nat} (empty : mem.pool.length = 0) (called : mem.calls < mem'.calls)
    (pos : 0 < needed) : Takes needed mem mem' :=
  ⟨fun enough => by omega, fun _ => called, le_of_lt called⟩

theorem kmemCacheAlloc_calls (mem : Memory Item) : (kmemCacheAlloc mem).2.calls = mem.calls := by
  unfold kmemCacheAlloc
  split
  · rfl
  · rfl
  · rfl
  · split <;> rfl

/-- One node, for a root without `__GFP_WAIT`; none is given only when the pool is empty. -/
theorem radixTreeNodeAlloc_takes {result : Option (Node (Slot Item))}
    (alloc : radixTreeNodeAlloc false mem = (result, mem')) :
    Takes 1 mem mem' ∧ (result = none → mem.pool.length = 0 ∧ mem.calls < mem'.calls) := by
  unfold radixTreeNodeAlloc at alloc
  cases pooled : mem.pool with
  | nil =>
    rw [pooled] at alloc
    have calls : mem.calls + 1 = mem'.calls :=
      (kmemCacheAlloc_calls _).symm.trans (congrArg (fun given => given.2.calls) alloc)
    exact ⟨.of_called (by simp [pooled]) (by omega) (by decide), fun _ => ⟨rfl, by omega⟩⟩
  | cons node pool =>
    rw [pooled] at alloc
    cases alloc
    refine ⟨⟨fun _ => ⟨rfl, by simp [pooled]⟩, fun short => ?_, le_refl _⟩, by simp⟩
    simp [pooled] at short

/-! ### The descent -/

/-- The number of nodes missing on the path to an index. -/
def missing (index : Nat) : Nat → Slot Item → Nat
  | height + 1, .null => height + 1
  | height + 1, .node node => missing index height (node.slots (digit 64 height index))
  | _, _ => 0

theorem missing_null (index height : Nat) : missing index height (.null : Slot Item) = height := by
  cases height <;> rfl

theorem missing_le (index height : Nat) (slot : Slot Item) : missing index height slot ≤ height := by
  induction height generalizing slot with
  | zero => cases slot <;> exact le_refl _
  | succ height ih =>
    cases slot with
    | null => exact le_refl _
    | item value => exact zero_le _
    | node node => exact le_succ_of_le (ih _)

/-- The descent through a node takes what the descent below it takes. -/
theorem insertLoop_node_mem (index : Nat) (item : Item) (height : Nat) (node : Node (Slot Item))
    (mem : Memory Item) :
    (insertLoop false index item (height + 1) (.node node) mem).2.2 =
      (insertLoop false index item height (node.slots (digit 64 height index)) mem).2.2 := by
  rw [insertLoop_node]

/-- The descent takes the nodes missing on the path. -/
theorem insertLoop_takes (index : Nat) (item : Item) (height : Nat) (slot : Slot Item)
    (memory : MemoryOk mem) :
    Takes (missing index height slot) mem (insertLoop false index item height slot mem).2.2 := by
  induction height generalizing slot mem with
  | zero => cases slot <;> exact .none mem
  | succ height ih =>
    cases slot with
    | item value => exact .none mem
    | node node =>
      rw [insertLoop_node_mem]
      exact ih _ memory
    | null =>
      rcases alloc : radixTreeNodeAlloc false mem with ⟨node?, mem₁⟩
      obtain ⟨memory₁, clean⟩ := radixTreeNodeAlloc_ok memory alloc
      obtain ⟨one, failed⟩ := radixTreeNodeAlloc_takes alloc
      rw [insertLoop_null, alloc]
      cases node? with
      | none =>
        obtain ⟨empty, called⟩ := failed rfl
        exact .of_called empty called (succ_pos height)
      | some node =>
        have below := ih (node.slots (digit 64 height index)) memory₁
        rw [(clean node rfl).slots_null _ (digit_lt_mapSize ..), missing_null] at below
        rw [insertLoop_node_mem, missing_null, add_comm]
        rw [(clean node rfl).slots_null _ (digit_lt_mapSize ..)]
        exact one.append below

/-! ### Growing -/

/-- The loop of `radix_tree_extend` takes a node for each level, and succeeds while the pool
lasts. -/
theorem extendLoop_takes {left : Nat} (wait : root.wait = false) :
    Takes left mem (extendLoop left root mem).2.2 ∧
      (left ≤ mem.pool.length → (extendLoop left root mem).1 = true) := by
  induction left generalizing root mem with
  | zero => exact ⟨.none mem, fun _ => rfl⟩
  | succ left ih =>
    rcases alloc : radixTreeNodeAlloc root.wait mem with ⟨node?, mem₁⟩
    obtain ⟨one, failed⟩ := radixTreeNodeAlloc_takes (wait ▸ alloc)
    rw [extendLoop, alloc]
    cases node? with
    | none =>
      obtain ⟨empty, called⟩ := failed rfl
      exact ⟨.of_called empty called (succ_pos left), fun enough => by omega⟩
    | some node =>
      obtain ⟨rest, succeeds⟩ := @ih
        { root with rnode := .node (extendNode root node), height := root.height + 1 } mem₁ wait
      refine ⟨by rw [add_comm]; exact one.append rest, fun enough => succeeds ?_⟩
      have pool := (one.enough (by omega)).2
      omega

/-- The top node of a tree that has just grown has nothing outside its first entry. -/
theorem extendLoop_top {left : Nat} (memory : MemoryOk mem)
    (result : extendLoop (left + 1) root mem = (true, root', mem')) :
    ∃ top, root'.rnode = .node top ∧ ∀ off < mapSize, off ≠ 0 → top.slots off = .null := by
  induction left generalizing root mem with
  | zero =>
    rcases alloc : radixTreeNodeAlloc root.wait mem with ⟨node?, mem₁⟩
    obtain ⟨_, clean⟩ := radixTreeNodeAlloc_ok memory alloc
    rw [extendLoop, alloc] at result
    cases node? with
    | none => cases result
    | some node =>
      cases result
      refine ⟨_, rfl, fun off small other => ?_⟩
      simp only [extendNode, Function.update_of_ne other, (clean node rfl).slots_null off small]
  | succ left ih =>
    rcases alloc : radixTreeNodeAlloc root.wait mem with ⟨node?, mem₁⟩
    obtain ⟨memory₁, _⟩ := radixTreeNodeAlloc_ok memory alloc
    rw [extendLoop, alloc] at result
    cases node? with
    | none => cases result
    | some node => exact ih memory₁ result

/-! ### The whole insertion -/

/-- The height a tree needs for an index beyond it. -/
def neededHeight (root : Root Item) (index : Nat) : Nat :=
  extendHeight index maxPath (root.height + 1)

/-- The number of nodes an insertion takes. -/
def nodesNeeded (root : Root Item) (index : Nat) : Nat :=
  if index ≤ radixTreeMaxindex root.height then missing index root.height root.rnode
  else if root.rnode.isNull then neededHeight root index
  else (neededHeight root index - root.height) + (neededHeight root index - 1)

theorem neededHeight_spec (rootOk : RootOk root) (bounded : index < 2 ^ indexBits)
    (beyond : index > radixTreeMaxindex root.height) :
    root.height < neededHeight root index ∧ neededHeight root index ≤ maxPath ∧
      64 ^ (neededHeight root index - 1) ≤ index ∧ index < 64 ^ neededHeight root index := by
  have outside : 64 ^ root.height ≤ index := Nat.le_of_not_lt fun small =>
    Nat.not_le_of_lt beyond ((le_maxindex_iff rootOk.height_le bounded).mpr small)
  have lower : root.height < maxPath := lt_of_le_of_ne rootOk.height_le fun top => by
    rw [top] at outside
    exact absurd (lt_of_lt_of_le bounded (by decide)) (not_lt.mpr outside)
  obtain ⟨grows, top, fits, tight⟩ :=
    @extendHeight_spec _ maxPath _ bounded (by omega) lower
  refine ⟨grows, top, ?_, fits⟩
  rcases tight with same | tight
  · rw [neededHeight, same]
    exact outside
  · exact tight

/-- After growing a tree that is not empty, the whole path below the new top is missing. -/
theorem missing_of_grown {top : Node (Slot Item)} (others : ∀ off < mapSize, off ≠ 0 → top.slots off = .null)
    (tight : 64 ^ height ≤ index) (fits : index < 64 ^ (height + 1)) :
    missing index (height + 1) (.node top) = height := by
  have entry : digit 64 height index ≠ 0 := fun zero =>
    not_lt.mpr tight ((digit_eq_zero_iff (by decide) fits).mp zero)
  rw [missing, others _ (digit_lt_mapSize ..) entry, missing_null]

/-- An insertion that had to grow the tree first. -/
theorem radixTreeInsert_mem_of_extend {mem₁ : Memory Item} {root₁ : Root Item} (item : Item)
    (beyond : index > radixTreeMaxindex root.height)
    (extended : radixTreeExtend root index mem = (true, root₁, mem₁)) :
    (radixTreeInsert root index item mem).2.2 =
      (insertLoop root₁.wait index item root₁.height root₁.rnode mem₁).2.2 := by
  simp [radixTreeInsert, beyond, extended]

/-- Growing a tree that is not empty and descending to the new index. -/
theorem radixTreeInsert_takes_grown (rootOk : RootOk root) (memory : MemoryOk mem)
    (wait : root.wait = false) (bounded : index < 2 ^ indexBits) (item : Item)
    (beyond : index > radixTreeMaxindex root.height) (used : root.rnode.isNull = false)
    (full : mem.pool.length = maxPath) :
    Takes ((neededHeight root index - root.height) + (neededHeight root index - 1)) mem
      (radixTreeInsert root index item mem).2.2 := by
  obtain ⟨higher, top, tight, fits⟩ := neededHeight_spec rootOk bounded beyond
  obtain ⟨levels, grows⟩ : ∃ levels, neededHeight root index - root.height = levels + 1 :=
    ⟨neededHeight root index - root.height - 1, by omega⟩
  obtain ⟨taken, succeeds⟩ := extendLoop_takes wait
  rcases result : extendLoop (levels + 1) root mem with ⟨extended, root₁, mem₁⟩
  rw [result] at taken succeeds
  obtain rfl : extended = true := succeeds (by omega)
  obtain ⟨rootOk₁, memory₁, same, height⟩ := extendLoop_spec rootOk memory used (by omega) result
  obtain ⟨topNode, rnode, others⟩ := extendLoop_top memory result
  have height₁ : root₁.height = (neededHeight root index - 1) + 1 := by
    rw [height rfl]
    omega
  have asked : radixTreeExtend root index mem = (true, root₁, mem₁) := by
    rw [radixTreeExtend, used, ← result, ← grows]
    rfl
  have descent := insertLoop_takes index item root₁.height root₁.rnode memory₁
  have path : missing index root₁.height root₁.rnode = neededHeight root index - 1 := by
    rw [height₁, rnode]
    exact missing_of_grown others tight (by rwa [Nat.sub_add_cancel (by omega)])
  rw [path] at descent
  rw [radixTreeInsert_mem_of_extend item beyond asked, same.wait, wait, grows]
  exact taken.append descent

/-- An insertion into a tree without `__GFP_WAIT`, with a full pool, takes the nodes it needs. -/
theorem radixTreeInsert_takes (rootOk : RootOk root) (memory : MemoryOk mem)
    (wait : root.wait = false) (bounded : index < 2 ^ indexBits) (item : Item)
    (full : mem.pool.length = maxPath) :
    Takes (nodesNeeded root index) mem (radixTreeInsert root index item mem).2.2 := by
  unfold nodesNeeded
  by_cases within : index ≤ radixTreeMaxindex root.height
  · rw [if_pos within]
    simpa [radixTreeInsert, not_lt.mpr within, wait] using
      insertLoop_takes index item root.height root.rnode memory
  · have beyond := Nat.lt_of_not_le within
    rw [if_neg within]
    by_cases empty : root.rnode.isNull = true
    · have asked : radixTreeExtend root index mem =
          (true, { root with height := neededHeight root index }, mem) := by
        rw [radixTreeExtend, if_pos empty]
        rfl
      have descent := insertLoop_takes index item (neededHeight root index) root.rnode memory
      rw [radixTreeInsert_mem_of_extend item beyond asked]
      rw [wait]
      rw [isNull_iff.mp empty, missing_null] at descent
      rwa [isNull_iff.mp empty]
    · rw [if_neg empty]
      exact radixTreeInsert_takes_grown rootOk memory wait bounded item beyond
        (Bool.eq_false_iff.mpr empty) full

/-- With a full pool, an insertion into a reachable tree without `__GFP_WAIT` never reaches
`kmem_cache_alloc` exactly when the tree is empty, or high enough already, or the levels to add and
the path below the new top are together no more than `RADIX_TREE_MAX_PATH`. -/
theorem radixTreeInsert_from_pool_iff {st : TreeState Item} {actions : List (TreeAction Item)}
    {trace : List (TreeRet Item)} (choices insertChoices : List CacheChoice)
    (run : TreeRun false actions trace st)
    (preloaded : radixTreePreload (st.mem.facing choices) = (true, mem))
    (bounded : index < 2 ^ indexBits) (item : Item) :
    (radixTreeInsert st.root index item (mem.facing insertChoices)).2.2.calls = mem.calls ↔
      st.root.rnode = .null ∨ index ≤ radixTreeMaxindex st.root.height ∨
        (neededHeight st.root index - st.root.height) + (neededHeight st.root index - 1) ≤
          maxPath := by
  obtain ⟨map, _, rep⟩ := treeRun_represents run
  obtain ⟨memory, filled⟩ := radixTreePreload_spec (rep.memory.facing choices) preloaded
  have full : (mem.facing insertChoices).pool.length = maxPath := filled rfl
  have taken := radixTreeInsert_takes rep.rootOk (memory.facing insertChoices)
    rep.wait_eq bounded item full
  have sameCalls : (mem.facing insertChoices).calls = mem.calls := rfl
  -- The pool holds the nodes needed exactly in the three cases.
  have fits : nodesNeeded st.root index ≤ maxPath ↔
      st.root.rnode = .null ∨ index ≤ radixTreeMaxindex st.root.height ∨
        (neededHeight st.root index - st.root.height) + (neededHeight st.root index - 1) ≤ maxPath := by
    unfold nodesNeeded
    by_cases within : index ≤ radixTreeMaxindex st.root.height
    · have few := Nat.le_trans (missing_le index st.root.height st.root.rnode) rep.rootOk.height_le
      simp [within, few]
    · have few := (neededHeight_spec rep.rootOk bounded (Nat.lt_of_not_le within)).2.1
      by_cases empty : st.root.rnode = .null
      · simp [within, empty, few]
      · simp [within, empty, isNull_eq_false.mpr empty]
  rw [← fits, ← full]
  constructor
  · intro same
    refine Nat.le_of_not_lt fun short => ?_
    have called := taken.short short
    omega
  · intro enough
    exact (taken.enough enough).1

/-- Two levels up, with an item below, the pool is enough. -/
theorem radixTreeInsert_from_pool_iff_two_levels :
    ∃ (st : TreeState Nat) (mem : Memory Nat), TreeRun false [.insert 0 7 []] [.insert .ok] st ∧
      radixTreePreload (st.mem.facing (List.replicate 11 .fresh)) = (true, mem) ∧
      (radixTreeInsert st.root 100 8 (mem.facing [])).2.2.calls = mem.calls := by
  have run : TreeRun false [.insert 0 7 []] [.insert .ok] _ := .snoc .nil (.insert (by decide) rfl)
  exact ⟨_, _, run, rfl, (radixTreeInsert_from_pool_iff (List.replicate 11 .fresh) [] run rfl
    (by decide) 8).mpr (.inr (.inr (by decide)))⟩

/-- After `radix_tree_preload` returned 0 and the pool is full, the addition of an item at `~0UL` to
a tree that holds one at 0 calls `kmem_cache_alloc`, and fails when that fails. -/
theorem radixTreePreload_not_enough :
    ∃ (st : TreeState Nat) (mem : Memory Nat), TreeRun false [.insert 0 7 []] [.insert .ok] st ∧
      radixTreePreload (st.mem.facing (List.replicate 11 .fresh)) = (true, mem) ∧
      mem.pool.length = maxPath ∧
      (radixTreeInsert st.root ulongMax 8 (mem.facing [])).1 = .ENOMEM ∧
      (radixTreeInsert st.root ulongMax 8 (mem.facing [])).2.2.calls = mem.calls + 1 := by
  have run : TreeRun false [.insert 0 7 []] [.insert .ok] _ := .snoc .nil (.insert (by decide) rfl)
  exact ⟨_, _, run, rfl, rfl, rfl, rfl⟩

variable {maxScan steps : Nat}

/-! ### What a search is for -/

/-- The tree has an item under the index. -/
abbrev Present (root : Root Item) (index : Nat) : Prop := (radixTreeLookup root index).isNull = false

/-- The result is the hole of the window that comes before the others; or the window has no hole,
and the result lies outside of it, at least `maxScan` away or at the value for a wrap-around. -/
def HoleResult (root : Root Item) (window : Nat → Prop) (before : Nat → Nat → Prop)
    (maxScan distance wrapped result : Nat) : Prop :=
  window result ∧ ¬ Present root result ∧ (∀ i, window i → before i result → Present root i) ∨
    (∀ i, window i → Present root i) ∧ ¬ window result ∧ (maxScan ≤ distance ∨ result = wrapped)

/-- What is documented of `radix_tree_next_hole`. -/
def NextHoleOk (root : Root Item) (index maxScan : Nat) : Prop :=
  let result := radixTreeNextHole root index maxScan
  HoleResult root (fun i => index ≤ i ∧ i < index + maxScan ∧ i ≤ ulongMax) (· < ·) maxScan
    ((result + 2 ^ indexBits - index) % 2 ^ indexBits) 0 result

/-- What is documented of `radix_tree_prev_hole`. -/
def PrevHoleOk (root : Root Item) (index maxScan : Nat) : Prop :=
  let result := radixTreePrevHole root index maxScan
  HoleResult root (fun i => i ≤ index ∧ index < i + maxScan) (· > ·) maxScan
    ((index + 2 ^ indexBits - result) % 2 ^ indexBits) longMax result

/-! ### The loop -/

/-- How many steps the loop takes through the places it visits. -/
structure HoleScan (root : Root Item) (place : Nat → Nat) (last left steps : Nat) : Prop where
  within : steps ≤ left
  passed : ∀ i < steps, Present root (place i)
  going : ∀ i, 0 < i → i < steps → place i ≠ last
  stops : steps < left → ¬ Present root (place steps) ∨ 0 < steps ∧ place steps = last

theorem holeLoop_scan (root : Root Item) (next place : Nat → Nat) (last left : Nat)
    (moves : ∀ i < left, next (place i) = place (i + 1)) :
    ∃ steps, HoleScan root place last left steps ∧
      holeLoop root next last left (place 0) = place steps := by
  induction left generalizing place with
  | zero => exact ⟨0, ⟨Nat.le_refl _, nofun, nofun, nofun⟩, rfl⟩
  | succ left ih =>
    rw [holeLoop, moves 0 (by omega)]
    split
    · next absent =>
      refine ⟨0, ⟨Nat.zero_le _, nofun, nofun, fun _ => .inl ?_⟩, rfl⟩
      rw [Present, absent]
      exact nofun
    · next present =>
      rw [Bool.not_eq_true] at present
      split
      · next reached =>
        refine ⟨1, ⟨by omega, fun i small => ?_, fun i pos small => by omega,
          fun _ => .inr ⟨by omega, reached⟩⟩, rfl⟩
        obtain rfl : i = 0 := by omega
        exact present
      · next further =>
        obtain ⟨steps, scan, result⟩ :=
          ih (place <| · + 1) fun i small => moves (i + 1) (Nat.succ_lt_succ small)
        refine ⟨steps + 1, ⟨Nat.succ_le_succ scan.within, fun i small => ?_,
          fun i pos small => ?_, fun short => .imp_right (fun ended => ⟨by omega, ended.2⟩)
            (scan.stops (by omega))⟩, result⟩
        · cases i with
          | zero => exact present
          | succ i => exact scan.passed i (by omega)
        · obtain ⟨i, rfl⟩ : ∃ rest, i = rest + 1 := ⟨i - 1, by omega⟩
          cases i with
          | zero => exact further
          | succ i => exact scan.going (i + 1) (by omega) (by omega)

/-! ### Upwards -/

theorem nextHole_ok (root : Root Item) (indexLt : index < 2 ^ indexBits) (scanLt : maxScan < 2 ^ indexBits) :
    NextHoleOk root index maxScan := by
  have largest : ulongMax = 2 ^ indexBits - 1 := rfl
  obtain ⟨steps, scan, result⟩ := holeLoop_scan root (fun index => (index + 1) % 2 ^ indexBits)
    (fun i => (index + i) % 2 ^ indexBits) 0 maxScan fun i _ => Nat.mod_add_mod ..
  have within := scan.within
  have noWrap : index + steps ≤ 2 ^ indexBits := by
    refine Nat.le_of_not_lt fun wraps => scan.going (2 ^ indexBits - index) (by omega) (by omega) ?_
    rw [Nat.add_sub_cancel' (by omega), Nat.mod_self]
  have passed : ∀ i, index ≤ i → i < index + steps → Present root i := by
    intro i above below
    have present := scan.passed (i - index) (by omega)
    rwa [Nat.add_sub_cancel' above, Nat.mod_eq_of_lt (by omega)] at present
  rw [Nat.add_zero, Nat.mod_eq_of_lt indexLt] at result
  rw [NextHoleOk, radixTreeNextHole, result]
  rcases Nat.lt_or_eq_of_le noWrap with inside | wrapped
  · rw [Nat.mod_eq_of_lt inside]
    by_cases all : steps = maxScan
    · refine .inr ⟨fun i window => passed i window.1 (by omega), by omega, .inl ?_⟩
      rw [show index + steps + 2 ^ indexBits - index = steps + 2 ^ indexBits by omega,
        Nat.add_mod_right, Nat.mod_eq_of_lt (by omega)]
      omega
    · have stops := scan.stops (by omega)
      rw [Nat.mod_eq_of_lt inside] at stops
      exact .inl ⟨by omega, stops.resolve_right (by omega),
        fun i window before => passed i window.1 before⟩
  · rw [wrapped, Nat.mod_self]
    exact .inr ⟨fun i window => passed i window.1 (by omega), by omega, .inr rfl⟩

/-! ### Downwards -/

/-- The index after some steps down. -/
theorem down_low (indexLt : index < 2 ^ indexBits) (low : steps ≤ index) :
    (index + 2 ^ indexBits - steps) % 2 ^ indexBits = index - steps := by
  rw [Nat.sub_add_comm low, Nat.add_mod_right, Nat.mod_eq_of_lt (by omega)]

/-- The index after some steps down that went below 0. -/
theorem down_high (high : index < steps) (small : steps < 2 ^ indexBits) :
    (index + 2 ^ indexBits - steps) % 2 ^ indexBits = index + 2 ^ indexBits - steps :=
  Nat.mod_eq_of_lt (by omega)

/-- The search starts above `LONG_MAX` and finds no hole down to it, which is in the window. -/
def StopsOnPresent (root : Root Item) (index maxScan : Nat) : Prop :=
  longMax < index ∧ index < longMax + maxScan ∧ ∀ i, longMax ≤ i → i ≤ index → Present root i

/-- The search finds no hole down to 0 and then one above `LONG_MAX`. -/
def FindsAboveWrap (root : Root Item) (index maxScan : Nat) : Prop :=
  index ≤ longMax ∧ (∀ i ≤ index, Present root i) ∧
    ∃ i, longMax < i ∧ i ≤ ulongMax ∧ index + 2 ^ indexBits < i + maxScan ∧ ¬ Present root i

/-- The scan of `radix_tree_prev_hole`, with what it has passed above 0. -/
structure DownScan (root : Root Item) (index maxScan steps : Nat) : Prop where
  scan : HoleScan root (fun i => (index + 2 ^ indexBits - i) % 2 ^ indexBits) longMax maxScan steps
  passed : ∀ i ≤ index, index < i + steps → Present root i
  result : radixTreePrevHole root index maxScan = (index + 2 ^ indexBits - steps) % 2 ^ indexBits

theorem prevHole_scan (root : Root Item) (indexLt : index < 2 ^ indexBits)
    (scanLt : maxScan < 2 ^ indexBits) : ∃ steps, DownScan root index maxScan steps := by
  have moves : ∀ i < maxScan, ((index + 2 ^ indexBits - i) % 2 ^ indexBits + ulongMax) % 2 ^ indexBits =
      (index + 2 ^ indexBits - (i + 1)) % 2 ^ indexBits := by
    intro i small
    have largest : ulongMax = 2 ^ indexBits - 1 := rfl
    rw [Nat.mod_add_mod, show index + 2 ^ indexBits - i + ulongMax =
      index + 2 ^ indexBits - (i + 1) + 2 ^ indexBits by omega, Nat.add_mod_right]
  obtain ⟨steps, scan, result⟩ := holeLoop_scan root (fun index => (index + ulongMax) % 2 ^ indexBits)
    _ longMax maxScan moves
  rw [down_low indexLt (Nat.zero_le _)] at result
  refine ⟨steps, scan, fun i below notYet => ?_, result⟩
  have present := scan.passed (index - i) (by omega)
  rwa [down_low indexLt (by omega), Nat.sub_sub_self below] at present

variable (down : DownScan root index maxScan steps)

include down

/-- A scan that has not gone below 0 must end on a hole, or have used up its steps. -/
theorem DownScan.ok_iff_low (indexLt : index < 2 ^ indexBits) (low : steps ≤ index) :
    PrevHoleOk root index maxScan ↔ (steps < maxScan → ¬ Present root (index - steps)) := by
  obtain ⟨scan, passed, result⟩ := down
  have within := scan.within
  rw [PrevHoleOk, result, down_low indexLt low, down_low indexLt (by omega)]
  constructor
  · rintro (⟨_, absent, _⟩ | ⟨_, outside, _⟩) more
    · exact absent
    · omega
  · intro hole
    rcases Nat.lt_or_eq_of_le within with more | all
    · exact .inl ⟨by omega, hole more, fun i window after => passed i window.1 (by omega)⟩
    · exact .inr ⟨fun i window => passed i window.1 (by omega), by omega, by omega⟩

/-- A scan that has gone below 0 must have used up its steps, or end at `LONG_MAX`. -/
theorem DownScan.ok_iff_high (scanLt : maxScan < 2 ^ indexBits) (high : index < steps) :
    PrevHoleOk root index maxScan ↔ steps = maxScan ∨ index + 2 ^ indexBits - steps = longMax := by
  obtain ⟨scan, passed, result⟩ := down
  have within := scan.within
  rw [PrevHoleOk, result, down_high high (by omega), Nat.sub_sub_self (by omega),
    Nat.mod_eq_of_lt (by omega)]
  constructor
  · rintro (⟨window, _⟩ | ⟨_, _, far⟩)
    · omega
    · omega
  · intro ended
    exact .inr ⟨fun i window => passed i window.1 (by omega), by omega, by omega⟩

/-- From above `LONG_MAX` the index never goes below it. -/
theorem DownScan.ok_iff_above (indexLt : index < 2 ^ indexBits) (above : longMax < index) :
    PrevHoleOk root index maxScan ↔ ¬ StopsOnPresent root index maxScan := by
  have within := down.scan.within
  have noWrap : steps ≤ index - longMax := by
    refine Nat.le_of_not_lt fun wraps => down.scan.going (index - longMax) (by omega) wraps ?_
    rw [down_low indexLt (by omega)]
    omega
  have stops := down.scan.stops
  rw [down_low indexLt (by omega)] at stops
  rw [down.ok_iff_low indexLt (by omega)]
  constructor
  · rintro hole ⟨_, inWindow, allPresent⟩
    exact hole (by omega) (allPresent _ (by omega) (by omega))
  · intro never more present
    obtain ⟨_, reached⟩ := (stops more).resolve_left (absurd present)
    refine never ⟨above, by omega, fun i least most => ?_⟩
    rcases Nat.lt_or_eq_of_le least with after | rfl
    · exact down.passed i most (by omega)
    · rwa [← reached]

/-- From `LONG_MAX` or below the index comes to `LONG_MAX` around the other end. -/
theorem DownScan.ok_iff_below
    (indexLt : index < 2 ^ indexBits) (scanLt : maxScan < 2 ^ indexBits) (below : index ≤ longMax) :
    PrevHoleOk root index maxScan ↔ ¬ FindsAboveWrap root index maxScan := by
  have within := down.scan.within
  have stops := down.scan.stops
  have largest : ulongMax = 2 ^ indexBits - 1 := rfl
  have half : 2 ^ indexBits = 2 * (longMax + 1) := rfl
  rcases Nat.lt_or_ge index steps with high | low
  · have notBelow : longMax ≤ index + 2 ^ indexBits - steps := by
      refine Nat.le_of_not_lt fun further =>
        down.scan.going (index + 2 ^ indexBits - longMax) (by omega) (by omega) ?_
      rw [down_high (by omega) (by omega)]
      omega
    rw [down_high high (by omega)] at stops
    rw [down.ok_iff_high scanLt high]
    constructor
    · rintro ended ⟨_, _, i, above, most, inScan, absent⟩
      have present := down.scan.passed (index + 2 ^ indexBits - i) (by omega)
      rw [down_high (by omega) (by omega), Nat.sub_sub_self (by omega)] at present
      exact absent present
    · intro never
      by_contra further
      exact never ⟨below, fun i window => down.passed i window (by omega), _, by omega, by omega, by omega,
        (stops (by omega)).resolve_right (by omega)⟩
  · rw [down_low indexLt low] at stops
    rw [down.ok_iff_low indexLt low]
    refine iff_of_true (fun more => (stops more).resolve_right (by omega)) ?_
    rintro ⟨_, allPresent, i, _, most, inScan, _⟩
    exact (stops (by omega)).resolve_right (by omega) (allPresent _ (by omega))

omit down

/-- For every tree the search upwards returns what is documented. The search downwards does unless
it stops at `LONG_MAX` on a present index of its window, or finds its hole after a wrap-around. -/
theorem holes_ok_iff (root : Root Item) (index maxScan : Nat) (indexLt : index < 2 ^ indexBits)
    (scanLt : maxScan < 2 ^ indexBits) :
    NextHoleOk root index maxScan ∧ (PrevHoleOk root index maxScan ↔
      ¬ StopsOnPresent root index maxScan ∧ ¬ FindsAboveWrap root index maxScan) := by
  refine ⟨nextHole_ok root indexLt scanLt, ?_⟩
  obtain ⟨steps, down⟩ := prevHole_scan root indexLt scanLt
  rcases Nat.lt_or_ge longMax index with above | below
  · rw [down.ok_iff_above indexLt above]
    exact (and_iff_left fun finds => Nat.not_le_of_lt above finds.1).symm
  · rw [down.ok_iff_below indexLt scanLt below]
    exact (and_iff_right fun stops => Nat.not_lt_of_le below stops.1).symm

/-- Both searches over three slots, from index 2 in a tree with items under the indices 0 to 3. -/
theorem holes_ok_four_items :
    let slots (n : Nat) : Slot Nat := if n < 4 then .item n else .null
    let root : Root Nat := ⟨1, true, fun _ => false, .node ⟨1, 4, slots, fun _ _ => false⟩⟩
    NextHoleOk root 2 3 ∧ PrevHoleOk root 2 3 := by
  intro slots root
  obtain ⟨next, prev⟩ := holes_ok_iff root 2 3 (by decide) (by decide)
  refine ⟨next, prev.mpr ⟨fun stops => ?_, fun finds => ?_⟩⟩
  · exact absurd stops.1 (by decide)
  · obtain ⟨_, _, i, _, most, inScan, _⟩ := finds
    have largest : ulongMax = 2 ^ indexBits - 1 := rfl
    omega

/-- With items under `LONG_MAX` and `LONG_MAX + 1`, a search of three indices down from the latter
returns `LONG_MAX`, where there is an item, and not the hole below it. With an item under index 0
only, a search of two indices down from there returns the largest index, one step away. -/
theorem prevHole_misses :
    (∃ root : Root Nat, radixTreePrevHole root (longMax + 1) 3 = longMax ∧ Present root longMax ∧
      ¬ Present root (longMax - 1)) ∧
    ∃ root : Root Nat, Present root 0 ∧ radixTreePrevHole root 0 2 = ulongMax ∧
      (0 + 2 ^ indexBits - ulongMax) % 2 ^ indexBits < 2 ∧ ulongMax ≠ longMax := by
  let mem : Memory Nat := { cache := [], pool := [], choices := List.replicate 40 .fresh, calls := 0 }
  let one := radixTreeInsert (Root.init true) longMax 7 mem
  let two := radixTreeInsert one.2.1 (longMax + 1) 8 one.2.2
  refine ⟨⟨two.2.1, ?_⟩, (radixTreeInsert (Root.init true) 0 7 mem).2.1, ?_⟩
  · decide
  · decide

end LinuxKernel.Lib.RadixTree
