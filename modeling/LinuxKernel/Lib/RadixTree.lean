/-
Module: LinuxKernel.Lib.RadixTree
Purpose: `lib/radix-tree.c` for a 64-bit kernel with `CONFIG_BASE_SMALL` off. A pointer in a slot is the
  object it points to; the low bit that marks a node in `root->rnode` is the constructor. A walk back up the
  recorded path is what the recursion does on its way out. What a radix tree is for is a partial map with
  tags; running out of memory is the only freedom a call has.
Trusted boundary: human-reviewed spec
Main exports: radixTreeInsert, radixTreeLookup, radixTreeGangLookup, radixTreeDelete, TreeStep, MapStep, Shape
-/
import LinuxKernel.Library.Runs
import LinuxKernel.Library.BoundedTable
import LinuxKernel.Library.PathTree

namespace LinuxKernel.Lib.RadixTree

open Function (update)

/-- `RADIX_TREE_MAP_SHIFT`. -/
def mapShift : Nat := 6

/-- `RADIX_TREE_MAP_SIZE`. -/
def mapSize : Nat := 1 <<< mapShift

/-- `RADIX_TREE_MAP_MASK`. -/
def mapMask : Nat := mapSize - 1

/-- `RADIX_TREE_INDEX_BITS`, the bits of an `unsigned long`. -/
def indexBits : Nat := 64

/-- `RADIX_TREE_MAX_PATH`. -/
def maxPath : Nat := (indexBits + mapShift - 1) / mapShift

/-- `~0UL`. -/
def ulongMax : Nat := 2 ^ indexBits - 1

/-- `__maxindex(height)`, which fills `height_to_maxindex`. -/
def radixTreeMaxindex (height : Nat) : Nat :=
  let width := height * mapShift
  if width > indexBits then ulongMax
  else if indexBits - width ≥ indexBits then 0
  else ulongMax >>> (indexBits - width)

/-- `(index >> shift) & RADIX_TREE_MAP_MASK` with `shift = (height - 1) * RADIX_TREE_MAP_SHIFT`. -/
def offset (height index : Nat) : Nat :=
  (index >>> ((height - 1) * mapShift)) &&& mapMask

/-- A tag index, below `RADIX_TREE_MAX_TAGS`. -/
abbrev Tag := Fin 2

/-- `struct radix_tree_node`; the entries below `RADIX_TREE_MAP_SIZE` are those that exist. -/
structure Node (Slot : Type) where
  height : Nat
  count : Nat
  slots : Nat → Slot
  tags : Tag → Nat → Bool

/-- What a `void *` slot holds. -/
inductive Slot (Item : Type) where
  | null
  | item (value : Item)
  | node (node : Node (Slot Item))

variable {Item : Type}

/-- The slot is `NULL`. -/
def Slot.isNull : Slot Item → Bool
  | .null => true
  | _ => false

/-- `struct radix_tree_root`: `gfp_mask` is split into its `__GFP_WAIT` bit and the root's tags. -/
structure Root (Item : Type) where
  height : Nat
  wait : Bool
  tags : Tag → Bool
  rnode : Slot Item

/-- `INIT_RADIX_TREE(root, mask)`. -/
def Root.init (wait : Bool) : Root Item :=
  { height := 0, wait, tags := fun _ => false, rnode := .null }

/-- `any_tag_set(node, tag)`. -/
def anyTagSet (node : Node (Slot Item)) (tag : Tag) : Bool :=
  (List.range mapSize).any (node.tags tag)

/-! ### Allocation -/

/-- What `kmem_cache_alloc` does: fail, construct a node, or hand out one that was freed. -/
inductive CacheChoice where
  | fail
  | fresh
  | reuse (position : Nat)
deriving DecidableEq, Repr

/-- The memory the tree takes nodes from: the freed nodes in `radix_tree_node_cachep`, this CPU's
`radix_tree_preloads` (the last one is used first), what `kmem_cache_alloc` is going to do, and
the number of calls `radix_tree_node_alloc` has made to it. -/
structure Memory (Item : Type) where
  cache : List (Node (Slot Item))
  pool : List (Node (Slot Item))
  choices : List CacheChoice
  calls : Nat

/-- `radix_tree_node_ctor`. -/
def constructedNode : Node (Slot Item) :=
  { height := 0, count := 0, slots := fun _ => .null, tags := fun _ _ => false }

/-- `kmem_cache_alloc(radix_tree_node_cachep, gfp_mask)`. -/
def kmemCacheAlloc (mem : Memory Item) : Option (Node (Slot Item)) × Memory Item :=
  match mem.choices with
  | [] => (none, mem)
  | .fail :: choices => (none, { mem with choices })
  | .fresh :: choices => (some constructedNode, { mem with choices })
  | .reuse position :: choices =>
    match mem.cache[position]? with
    | some node =>
      (some node, { mem with choices, cache := mem.cache.eraseIdx position })
    | none => (some constructedNode, { mem with choices })

/-- `radix_tree_node_alloc(root)`, which reads the `__GFP_WAIT` bit of the root. -/
def radixTreeNodeAlloc (wait : Bool) (mem : Memory Item) : Option (Node (Slot Item)) × Memory Item :=
  match wait, mem.pool with
  | false, node :: pool => (some node, { mem with pool })
  | _, _ => kmemCacheAlloc { mem with calls := mem.calls + 1 }

/-- `radix_tree_node_free(node)` with `radix_tree_node_rcu_free`, which scrubs the first slot. No
one can reach the node between the two. -/
def radixTreeNodeFree (node : Node (Slot Item)) (mem : Memory Item) : Memory Item :=
  let scrubbed := { node with
    tags := fun tag => update (node.tags tag) 0 false
    slots := update node.slots 0 .null
    count := 0 }
  { mem with cache := scrubbed :: mem.cache }

/-- `radix_tree_preload(gfp_mask)`: the loop, with the number of nodes missing. -/
def preloadLoop : Nat → Memory Item → Bool × Memory Item
  | 0, mem => (true, mem)
  | missing + 1, mem =>
    match kmemCacheAlloc mem with
    | (none, mem) => (false, mem)
    | (some node, mem) => preloadLoop missing { mem with pool := node :: mem.pool }

/-- `radix_tree_preload(gfp_mask)`: whether it returned 0. -/
def radixTreePreload (mem : Memory Item) : Bool × Memory Item :=
  preloadLoop (maxPath - mem.pool.length) mem

/-! ### Insertion -/

/-- Return values of `radix_tree_insert`. `oops` is a `BUG_ON` or a slot of the wrong kind. -/
inductive InsertRet where
  | ok | EEXIST | ENOMEM | oops
deriving DecidableEq, Repr

/-- `while (index > radix_tree_maxindex(height)) height++`, over the entries of
`height_to_maxindex`. -/
def extendHeight (index : Nat) : Nat → Nat → Nat
  | 0, height => height
  | left + 1, height =>
    if index > radixTreeMaxindex height then extendHeight index left (height + 1) else height

variable (root : Root Item) (index : Nat)

/-- The node that `radix_tree_extend` puts on top of the tree. -/
def extendNode (node : Node (Slot Item)) : Node (Slot Item) :=
  { node with
    slots := update node.slots 0 root.rnode
    -- Propagate the aggregated tag info into the new root
    tags := fun tag =>
      if root.tags tag then update (node.tags tag) 0 true else node.tags tag
    height := root.height + 1
    count := 1 }

/-- The `do ... while (height > root->height)` loop of `radix_tree_extend`. -/
def extendLoop : Nat → Root Item → Memory Item → Bool × Root Item × Memory Item
  | 0, root, mem => (true, root, mem)
  | left + 1, root, mem =>
    match radixTreeNodeAlloc root.wait mem with
    | (none, mem) => (false, root, mem)
    | (some node, mem) =>
      let newheight := root.height + 1
      extendLoop left
        { root with rnode := .node (extendNode root node), height := newheight } mem

/-- `radix_tree_extend(root, index)`: whether it returned 0. -/
def radixTreeExtend (mem : Memory Item) : Bool × Root Item × Memory Item :=
  let height := extendHeight index maxPath (root.height + 1)
  if root.rnode.isNull then (true, { root with height }, mem)
  else extendLoop (height - root.height) root mem

/-- `node->slots[offset] = slot`, with `node->count++` when the slot was empty. -/
def Node.link (node : Node (Slot Item)) (off : Nat) (slot : Slot Item) : Node (Slot Item) :=
  { node with
    slots := update node.slots off slot
    count := if (node.slots off).isNull && !slot.isNull then node.count + 1 else node.count }

/-- The descent of `radix_tree_insert` from a slot at the given height: the slot afterwards. -/
def insertLoop (wait : Bool) (index : Nat) (item : Item) :
    Nat → Slot Item → Memory Item → InsertRet × Slot Item × Memory Item
  | 0, .null, mem => (.ok, .item item, mem)
  | 0, slot, mem => (.EEXIST, slot, mem)
  | height + 1, slot, mem =>
    let (found, mem) := match slot with
      | .node node => (some node, mem)
      | .null =>
        -- Have to add a child node.
        match radixTreeNodeAlloc wait mem with
        | (none, mem) => (none, mem)
        | (some node, mem) => (some { node with height := height + 1 }, mem)
      | .item _ => (none, mem)
    match found with
    | none => (if slot.isNull then .ENOMEM else .oops, slot, mem)
    | some node =>
      let off := offset (height + 1) index
      let (ret, child, mem) := insertLoop wait index item height (node.slots off) mem
      -- BUG_ON(tag_get(node, 0, offset)); BUG_ON(tag_get(node, 1, offset));
      let bug := height = 0 ∧ ret = .ok ∧ (node.tags 0 off || node.tags 1 off)
      (if bug then .oops else ret, .node (node.link off child), mem)

/-- `radix_tree_insert(root, index, item)`. -/
def radixTreeInsert (item : Item) (mem : Memory Item) : InsertRet × Root Item × Memory Item :=
  let (extended, root, mem) :=
    if index > radixTreeMaxindex root.height then radixTreeExtend root index mem
    else (true, root, mem)
  if !extended then (.ENOMEM, root, mem)
  else
    let (ret, rnode, mem) := insertLoop root.wait index item root.height root.rnode mem
    let bug := root.height = 0 ∧ ret = .ok ∧ (root.tags 0 || root.tags 1)
    (if bug then .oops else ret, { root with rnode }, mem)

/-! ### Lookup -/

/-- The `do ... while (height > 0)` loop of `radix_tree_lookup_element`. -/
def lookupLoop : Nat → Slot Item → Slot Item
  | 0, slot => slot
  | height + 1, .node node => lookupLoop height (node.slots (offset (height + 1) index))
  | _ + 1, _ => .null

/-- `radix_tree_lookup(root, index)`. -/
def radixTreeLookup : Slot Item :=
  match root.rnode with
  | .null => .null
  | .item value => if index > 0 then .null else .item value
  | .node node =>
    if index > radixTreeMaxindex node.height then .null
    else lookupLoop index node.height (.node node)

/-! ### Holes -/

/-- `LONG_MAX`. -/
def longMax : Nat := 2 ^ (indexBits - 1) - 1

/-- The loop of the searches for a hole, with the rounds left: the index moves by `next` and the
search ends when it comes to `last`. -/
def holeLoop (next : Nat → Nat) (last : Nat) : Nat → Nat → Nat
  | 0, index => index
  | left + 1, index =>
    if (radixTreeLookup root index).isNull then index
    else if next index = last then next index
    else holeLoop next last left (next index)

/-- `radix_tree_next_hole(root, index, max_scan)`. -/
def radixTreeNextHole (maxScan : Nat) : Nat :=
  holeLoop root (fun index => (index + 1) % 2 ^ indexBits) 0 maxScan index

/-- `radix_tree_prev_hole(root, index, max_scan)`. -/
def radixTreePrevHole (maxScan : Nat) : Nat :=
  holeLoop root (fun index => (index + ulongMax) % 2 ^ indexBits) longMax maxScan index

/-! ### Tags -/

/-- The loop of `radix_tree_tag_set`: the slot afterwards and the item, or `none` for
`BUG_ON(slot == NULL)`. -/
def tagSetLoop (tag : Tag) : Nat → Slot Item → Option (Slot Item × Slot Item)
  | 0, slot => some (slot, slot)
  | height + 1, .node node =>
    let off := offset (height + 1) index
    if (node.slots off).isNull then none
    else do
      let (child, item) ← tagSetLoop tag height (node.slots off)
      some (.node { node with
        slots := update node.slots off child
        tags := update node.tags tag (update (node.tags tag) off true) }, item)
  | _ + 1, _ => none

/-- `radix_tree_tag_set(root, index, tag)`: the root and the return value, `none` for a `BUG_ON`. -/
def radixTreeTagSet (tag : Tag) : Option (Root Item × Slot Item) :=
  if index > radixTreeMaxindex root.height then none
  else do
    let (rnode, slot) ← tagSetLoop index tag root.height root.rnode
    let tags := if slot.isNull then root.tags else update root.tags tag true
    some ({ root with rnode, tags }, slot)

/-- The two loops of `radix_tree_tag_clear` below a slot: the item found, the slot afterwards, and
whether the walk up goes on. `none` when there is no item. -/
def tagClearLoop (tag : Tag) :
    Nat → Slot Item → Option (Slot Item × Slot Item × Bool)
  | 0, .null => none
  | 0, slot => some (slot, slot, true)
  | height + 1, .node node => do
      let off := offset (height + 1) index
      let (slot, child, further) ← tagClearLoop tag height (node.slots off)
      let node := { node with slots := update node.slots off child }
      if !further then some (slot, .node node, false)
      else if !node.tags tag off then some (slot, .node node, false)
      else
        let node := { node with
          tags := update node.tags tag (update (node.tags tag) off false) }
        some (slot, .node node, !anyTagSet node tag)
  | _ + 1, _ => none

/-- `radix_tree_tag_clear(root, index, tag)`: the root and the return value. -/
def radixTreeTagClear (tag : Tag) : Root Item × Slot Item :=
  if index > radixTreeMaxindex root.height then (root, .null)
  else match tagClearLoop index tag root.height root.rnode with
    | none => (root, .null)
    | some (slot, rnode, further) =>
      ({ root with
          rnode := rnode
          tags := if further then update root.tags tag false else root.tags },
        slot)

/-- The loop of `radix_tree_tag_get` with `saw_unset_tag`; `none` for its `BUG_ON` and for a slot of
the wrong kind. -/
def tagGetLoop (tag : Tag) : Nat → Bool → Slot Item → Option Bool
  | 1, sawUnsetTag, .node node =>
    let ret := node.tags tag (offset 1 index)
    if ret && (sawUnsetTag || !ret) then none else some ret
  | height + 1, sawUnsetTag, .node node =>
    let off := offset (height + 1) index
    tagGetLoop tag height (sawUnsetTag || !node.tags tag off) (node.slots off)
  | _, _, .null => some false
  | _, _, _ => none

/-- `radix_tree_tag_get(root, index, tag)`. -/
def radixTreeTagGet (tag : Tag) : Option Bool :=
  if !root.tags tag then some false
  else match root.rnode with
    | .null => some false
    | .item _ => some (index = 0)
    | .node node =>
      if index > radixTreeMaxindex node.height then some false
      else tagGetLoop index tag node.height false (.node node)

/-! ### Gang lookups -/

/-- `index &= ~((1UL << shift) - 1); index += 1UL << shift`. -/
def nextEntry (shift index : Nat) : Nat :=
  ((index &&& (ulongMax ^^^ ((1 <<< shift) - 1))) + (1 <<< shift)) % 2 ^ indexBits

/-- The inner `for (;;)` of `__lookup` and `__lookup_tag`, with the number of entries left: the
entry it stops at, or `none` when it leaves for `out`, and the index. -/
def scanEntries (used : Nat → Bool) (shift : Nat) : Nat → Nat → Nat → Option Nat × Nat
  | 0, _, index => (none, index)
  | left + 1, i, index =>
    if used i then (some i, index)
    else
      let index := nextEntry shift index
      if index = 0 then (none, index) else scanEntries used shift left (i + 1) index

/-- The bottom level's loop: the items found and the index, with the number of entries left. -/
def grabItems (node : Node (Slot Item)) (wanted : Nat → Bool) (maxItems : Nat) :
    Nat → Nat → Nat → List (Slot Item) → List (Slot Item) × Nat
  | 0, _, index, found => (found, index)
  | left + 1, i, index, found =>
    let index := (index + 1) % 2 ^ indexBits
    if wanted i && !(node.slots i).isNull then
      let found := found ++ [node.slots i]
      if found.length = maxItems then (found, index)
      else grabItems node wanted maxItems left (i + 1) index found
    else grabItems node wanted maxItems left (i + 1) index found

/-- `__lookup(slot, results, index, max_items, &next_index)` from the given height on: the results
and the next index. -/
def lookupFrom (maxItems : Nat) :
    Nat → Slot Item → Nat → List (Slot Item) × Nat
  | 1, .node node, index =>
    let i := index &&& mapMask
    grabItems node (fun _ => true) maxItems (mapSize - i) i index []
  | height + 1, .node node, index =>
    let i := offset (height + 1) index
    let shift := height * mapShift
    match scanEntries (fun i => !(node.slots i).isNull) shift (mapSize - i) i index with
    | (none, index) => ([], index)
    | (some i, index) => lookupFrom maxItems height (node.slots i) index
  | _, _, index => ([], index)

/-- `__lookup_tag(slot, results, index, max_items, &next_index, tag)`, which also looks for the
first entry at the bottom level. -/
def lookupTagFrom (tag : Tag) (maxItems : Nat) :
    Nat → Slot Item → Nat → List (Slot Item) × Nat
  | height + 1, .node node, index =>
    let i := offset (height + 1) index
    let shift := height * mapShift
    match scanEntries (node.tags tag) shift (mapSize - i) i index with
    | (none, index) => ([], index)
    | (some i, index) =>
      if height = 0 then
        let j := index &&& mapMask
        grabItems node (node.tags tag) maxItems (mapSize - j) j index []
      else lookupTagFrom tag maxItems height (node.slots i) index
  | _, _, index => ([], index)

/-- The `while (ret < max_items)` loop of the gang lookups, over one call of `__lookup` or
`__lookup_tag`; `none` when the given number of rounds was not enough. -/
def gangLoop (lookup : Nat → Nat → List (Slot Item) × Nat) (maxIndex maxItems : Nat) :
    Nat → Nat → List (Slot Item) → Option (List (Slot Item))
  | 0, _, _ => none
  | rounds + 1, curIndex, results =>
    if ¬ results.length < maxItems then some results
    else if curIndex > maxIndex then some results
    else
      let (found, nextIndex) := lookup (maxItems - results.length) curIndex
      let results := results ++ found
      if nextIndex = 0 then some results
      else gangLoop lookup maxIndex maxItems rounds nextIndex results

/-- `radix_tree_gang_lookup(root, results, first_index, max_items)`: the results. -/
def radixTreeGangLookup (firstIndex maxItems : Nat) : Option (List (Slot Item)) :=
  match root.rnode with
  | .null => some []
  | .item value => some (if firstIndex > 0 then [] else [.item value])
  | .node node =>
    gangLoop (fun maxItems => lookupFrom maxItems node.height (.node node))
      (radixTreeMaxindex node.height) maxItems (2 ^ indexBits + 1) firstIndex []

/-- `radix_tree_gang_lookup_tag(root, results, first_index, max_items, tag)`: the results. -/
def radixTreeGangLookupTag (firstIndex maxItems : Nat) (tag : Tag) : Option (List (Slot Item)) :=
  if !root.tags tag then some []
  else match root.rnode with
    | .null => some []
    | .item value => some (if firstIndex > 0 then [] else [.item value])
    | .node node =>
      gangLoop (fun maxItems => lookupTagFrom tag maxItems node.height (.node node))
        (radixTreeMaxindex node.height) maxItems (2 ^ indexBits + 1) firstIndex []

/-! ### Deletion -/

/-- `radix_tree_shrink(root)`; `none` for its `BUG_ON`. -/
def radixTreeShrink : Nat → Root Item → Memory Item → Option (Root Item × Memory Item)
  | 0, root, mem => some (root, mem)
  | left + 1, root, mem =>
    match root.rnode with
    | .node toFree =>
      if toFree.count ≠ 1 then some (root, mem)
      else if (toFree.slots 0).isNull then some (root, mem)
      else
        radixTreeShrink left
          { root with rnode := toFree.slots 0, height := root.height - 1 }
          (radixTreeNodeFree toFree mem)
    | _ => none

/-- Where the walk up of `radix_tree_delete` is when it leaves a slot: it went to `out`, at this
node or below, with this slot; or the entry is to be cleared, and the node it held to be freed. -/
inductive DeleteWalk (Item : Type) where
  | out (slot : Slot Item) (here : Bool)
  | goOn (toFree : Option (Node (Slot Item)))

/-- `tag_get(pathp->node, tag, pathp->offset)` at the bottom of the path to the index. -/
def leafTag (tag : Tag) : Nat → Slot Item → Bool
  | 1, .node node => node.tags tag (offset 1 index)
  | height + 1, .node node => leafTag tag height (node.slots (offset (height + 1) index))
  | _, _ => false

/-- `if (tag_get(pathp->node, tag, pathp->offset)) radix_tree_tag_clear(root, index, tag)`. -/
def clearLeafTag (root : Root Item) (tag : Tag) : Root Item :=
  if leafTag index tag root.height root.rnode then (radixTreeTagClear root index tag).1 else root

/-- The loop of `radix_tree_delete` over `RADIX_TREE_MAX_TAGS`. -/
def clearLeafTags : Root Item :=
  (List.finRange 2).foldl (clearLeafTag index) root

/-- The `while (pathp->node)` loop of `radix_tree_delete` below a slot. -/
def deleteLoop : Nat → Slot Item → Memory Item → DeleteWalk Item × Memory Item
  | height + 1, .node node, mem =>
    let off := offset (height + 1) index
    match deleteLoop height (node.slots off) mem with
    | (.out child _, mem) =>
      (.out (.node { node with slots := update node.slots off child }) false, mem)
    | (.goOn toFree, mem) =>
      let node := { node with
        slots := update node.slots off .null
        count := node.count - 1 }
      let mem := match toFree with
        | some child => radixTreeNodeFree child mem
        | none => mem
      if node.count ≠ 0 then (.out (.node node) true, mem) else (.goOn (some node), mem)
  | _, _, mem => (.goOn none, mem)

/-- `radix_tree_delete(root, index)`: the item or `NULL`, and the state; `none` for a `BUG_ON`. -/
def radixTreeDelete (mem : Memory Item) : Option (Slot Item × Root Item × Memory Item) :=
  if index > radixTreeMaxindex root.height then some (.null, root, mem)
  else if root.height = 0 then
    some (root.rnode, { root with tags := fun _ => false, rnode := .null }, mem)
  else
    let slot := lookupLoop index root.height root.rnode
    if slot.isNull then some (.null, root, mem)
    else
      let root := clearLeafTags root index
      match deleteLoop index root.height root.rnode mem with
      | (.out rnode here, mem) =>
        let root := { root with rnode }
        if here then do
          let (root, mem) ← radixTreeShrink root.height root mem
          some (slot, root, mem)
        else some (slot, root, mem)
      | (.goOn toFree, mem) =>
        let mem := match toFree with
          | some node => radixTreeNodeFree node mem
          | none => mem
        some (slot, { root with tags := fun _ => false, height := 0, rnode := .null }, mem)

/-! ### Runs -/

/-- A tree and the memory its nodes come from. -/
structure TreeState (Item : Type) where
  root : Root Item
  mem : Memory Item

/-- An empty tree, before any node was allocated. -/
def TreeState.init (wait : Bool) : TreeState Item :=
  { root := Root.init wait, mem := { cache := [], pool := [], choices := [], calls := 0 } }

/-- A call on the tree, with what `kmem_cache_alloc` does during it. -/
inductive TreeAction (Item : Type) where
  | preload (choices : List CacheChoice)
  | insert (index : Nat) (item : Item) (choices : List CacheChoice)
  | delete (index : Nat)
  | tagSet (index : Nat) (tag : Tag)
  | tagClear (index : Nat) (tag : Tag)

/-- What a call returned, or that it stopped at a `BUG_ON`. -/
inductive TreeRet (Item : Type) where
  | preload (loaded : Bool)
  | insert (ret : InsertRet)
  | delete (slot : Slot Item)
  | tagSet (slot : Slot Item)
  | tagClear (slot : Slot Item)
  | oops

/-- The memory while `kmem_cache_alloc` is going to do as given. -/
def Memory.facing (mem : Memory Item) (choices : List CacheChoice) : Memory Item :=
  { mem with choices }

/-- One call on the tree. An index is an `unsigned long`, and a tag is set on a present item only,
which the comment on `radix_tree_tag_set` asks of its callers. -/
inductive TreeStep :
    TreeState Item → TreeAction Item → List (TreeRet Item) → TreeState Item → Prop
  | preload {st : TreeState Item} {choices loaded mem} :
      radixTreePreload (st.mem.facing choices) = (loaded, mem) →
      TreeStep st (.preload choices) [.preload loaded] { st with mem }
  | insert {st : TreeState Item} {index item choices ret root mem} :
      index < 2 ^ indexBits →
      radixTreeInsert st.root index item (st.mem.facing choices) = (ret, root, mem) →
      TreeStep st (.insert index item choices) [.insert ret] { root, mem }
  | delete {st : TreeState Item} {index slot root mem} :
      index < 2 ^ indexBits →
      radixTreeDelete st.root index st.mem = some (slot, root, mem) →
      TreeStep st (.delete index) [.delete slot] { root, mem }
  | deleteOops {st : TreeState Item} {index} :
      index < 2 ^ indexBits →
      radixTreeDelete st.root index st.mem = none →
      TreeStep st (.delete index) [.oops] st
  | tagSet {st : TreeState Item} {index tag root slot} :
      index < 2 ^ indexBits →
      radixTreeLookup st.root index ≠ .null →
      radixTreeTagSet st.root index tag = some (root, slot) →
      TreeStep st (.tagSet index tag) [.tagSet slot] { st with root }
  | tagSetOops {st : TreeState Item} {index tag} :
      index < 2 ^ indexBits →
      radixTreeLookup st.root index ≠ .null →
      radixTreeTagSet st.root index tag = none →
      TreeStep st (.tagSet index tag) [.oops] st
  | tagClear {st : TreeState Item} {index tag root slot} :
      index < 2 ^ indexBits →
      radixTreeTagClear st.root index tag = (root, slot) →
      TreeStep st (.tagClear index tag) [.tagClear slot] { st with root }

/-- A sequence of calls on an initially empty tree. -/
abbrev TreeRun (wait : Bool) :
    List (TreeAction Item) → List (TreeRet Item) → TreeState Item → Prop :=
  Library.Run TreeStep (TreeState.init wait)

/-- The items by index, and which indices carry a tag. -/
structure TaggedMap (Item : Type) where
  items : Nat → Option Item
  tagged : Tag → Nat → Bool

/-- No items. -/
def TaggedMap.empty : TaggedMap Item where
  items := fun _ => none
  tagged := fun _ _ => false

/-- The map with an index bound to an item, or unbound, and without tags. -/
def TaggedMap.rebind (map : TaggedMap Item) (index : Nat) (item : Option Item) :
    TaggedMap Item where
  items := Function.update map.items index item
  tagged := fun tag => Function.update (map.tagged tag) index false

/-- The map with one tag of an index set or cleared. -/
def TaggedMap.retag (map : TaggedMap Item) (index : Nat) (tag : Tag) (bit : Bool) : TaggedMap Item :=
  { map with
    tagged := Function.update map.tagged tag (Function.update (map.tagged tag) index bit) }

/-- The pointer that stands for an item or its absence. -/
def slotOf : Option Item → Slot Item
  | none => .null
  | some value => .item value

/-- What a call may return, and the map after it. -/
inductive MapStep :
    TaggedMap Item → TreeAction Item → List (TreeRet Item) → TaggedMap Item → Prop
  | preload {map : TaggedMap Item} {choices loaded} :
      MapStep map (.preload choices) [.preload loaded] map
  | insert {map : TaggedMap Item} {index item choices} (free : map.items index = none) :
      MapStep map (.insert index item choices) [.insert .ok] (map.rebind index (some item))
  | insertExists {map : TaggedMap Item} {index item choices} (bound : map.items index ≠ none) :
      MapStep map (.insert index item choices) [.insert .EEXIST] map
  | insertNoMemory {map : TaggedMap Item} {index item choices} (free : map.items index = none) :
      MapStep map (.insert index item choices) [.insert .ENOMEM] map
  | delete {map : TaggedMap Item} {index} :
      MapStep map (.delete index) [.delete (slotOf (map.items index))] (map.rebind index none)
  | tagSet {map : TaggedMap Item} {index tag} (bound : map.items index ≠ none) :
      MapStep map (.tagSet index tag) [.tagSet (slotOf (map.items index))]
        (map.retag index tag true)
  | tagClear {map : TaggedMap Item} {index tag} :
      MapStep map (.tagClear index tag) [.tagClear (slotOf (map.items index))]
        (map.retag index tag false)

/-- A sequence of calls on an initially empty map. -/
abbrev MapRun : List (TreeAction Item) → List (TreeRet Item) → TaggedMap Item → Prop :=
  Library.Run MapStep TaggedMap.empty

/-- The node is the one a slot points to, or one below it. -/
inductive NodeIn : Slot Item → Node (Slot Item) → Prop
  | here (node : Node (Slot Item)) : NodeIn (.node node) node
  | child {parent node : Node (Slot Item)} {off : Nat} (offLt : off < mapSize)
      (inChild : NodeIn (parent.slots off) node) : NodeIn (.node parent) node

open Library Function List Nat

/-! ### Index arithmetic -/

theorem mapSize_eq : mapSize = 64 := rfl

/-- The entry of an index at a height is its digit in base `RADIX_TREE_MAP_SIZE`. -/
theorem offset_succ (height index : Nat) : offset (height + 1) index = digit 64 height index := by
  have mask : mapMask = 2 ^ 6 - 1 := rfl
  have scale : 2 ^ (height * mapShift) = 64 ^ height := by
    rw [mul_comm, pow_mul]
    rfl
  rw [offset, Nat.add_sub_cancel, Nat.shiftRight_eq_div_pow, scale, mask, and_two_pow_sub_one_eq_mod, digit]

theorem digit_lt_mapSize (height index : Nat) : digit 64 height index < mapSize :=
  digit_lt (by decide)

variable {height index off position : Nat} {slot child : Slot Item}
  {node node' : Node (Slot Item)} {tag : Tag} {mem mem' : Memory Item}
  {result : Option (Node (Slot Item))}

/-- A tree holds the indices below `64 ^ height`, as far as an `unsigned long` goes. -/
theorem le_maxindex_iff (heightLe : height ≤ maxPath) (bounded : index < 2 ^ indexBits) :
    index ≤ radixTreeMaxindex height ↔ index < 64 ^ height := by
  have table : ∀ height < maxPath, radixTreeMaxindex height + 1 = 64 ^ height := by decide
  rcases lt_or_eq_of_le heightLe with small | rfl
  · rw [← table height small]
    omega
  · have top : radixTreeMaxindex maxPath + 1 = 2 ^ indexBits := by decide
    have wide : 2 ^ indexBits ≤ 64 ^ maxPath := by decide
    omega

/-! ### Slots -/

@[simp] theorem isNull_null : (Slot.null : Slot Item).isNull = true := rfl

@[simp] theorem isNull_item (value : Item) : (Slot.item value).isNull = false := rfl

@[simp] theorem isNull_node (node : Node (Slot Item)) : (Slot.node node).isNull = false := rfl

theorem isNull_iff : slot.isNull = true ↔ slot = .null := by
  cases slot <;> simp

theorem isNull_eq_false : slot.isNull = false ↔ slot ≠ .null := by
  cases slot <;> simp

theorem anyTagSet_iff : anyTagSet node tag = true ↔ ∃ off < mapSize, node.tags tag off = true := by
  simp only [anyTagSet, any_eq_true, mem_range]

theorem anyTagSet_eq_false : anyTagSet node tag = false ↔ ∀ off < mapSize, node.tags tag off = false := by
  simp only [anyTagSet, any_eq_false, mem_range, Bool.not_eq_true]

/-- `any_tag_set` of the node a slot points to. -/
def slotTag (tag : Tag) : Slot Item → Bool
  | .node node => anyTagSet node tag
  | _ => false

@[simp] theorem slotTag_null (tag : Tag) : slotTag tag (Slot.null : Slot Item) = false := rfl

@[simp] theorem slotTag_node (tag : Tag) (node : Node (Slot Item)) :
    slotTag tag (.node node) = anyTagSet node tag := rfl

/-! ### Shape -/

/-- A node in which no slot and no tag is in use. -/
structure Clean (node : Node (Slot Item)) : Prop where
  count_eq : node.count = 0
  slots_null : ∀ off < mapSize, node.slots off = .null
  tags_clear : ∀ tag, ∀ off < mapSize, node.tags tag off = false

/-- A node `height + 1` levels above the items. -/
structure NodeShape (height : Nat) (Child : Slot Item → Prop) (node : Node (Slot Item)) : Prop where
  height_eq : node.height = height + 1
  count_eq : node.count = countBelow (fun off => !(node.slots off).isNull) mapSize
  children : ∀ off < mapSize, Child (node.slots off)
  leaf_tags : height = 0 → ∀ tag, ∀ off < mapSize,
    node.tags tag off = true → (node.slots off).isNull = false
  inner_tags : height ≠ 0 → ∀ tag, ∀ off < mapSize, node.tags tag off = slotTag tag (node.slots off)

/-- What a slot may hold, the given number of levels above the items. -/
def Shape : Nat → Slot Item → Prop
  | 0, .node _ => False
  | 0, _ => True
  | _ + 1, .null => True
  | _ + 1, .item _ => False
  | height + 1, .node node => NodeShape height (Shape height) node

@[simp] theorem shape_null (height : Nat) : Shape height (Slot.null : Slot Item) := by
  cases height <;> trivial

/-- Induction down a tree: a slot is empty, an item, or a node with slots one level lower. -/
theorem Shape.walk {motive : (height : Nat) → (slot : Slot Item) → Shape height slot → Prop}
    (null : ∀ height, motive height .null (shape_null height))
    (item : ∀ value, motive 0 (.item value) trivial)
    (node : ∀ height node (shape : NodeShape height (Shape height) node),
      (∀ off small, motive height (node.slots off) (shape.children off small)) → motive (height + 1)
        (.node node) shape)
    (shape : Shape height slot) : motive height slot shape := by
  induction height generalizing slot with
  | zero =>
    cases slot with
    | null => exact null 0
    | item value => exact item value
    | node node => exact shape.elim
  | succ height ih =>
    cases slot with
    | null => exact null _
    | item value => exact shape.elim
    | node below => exact node height below shape fun off small => ih (shape.children off small)

@[simp] theorem shape_succ_node :
    Shape (height + 1) (.node node) ↔ NodeShape height (Shape height) node := Iff.rfl

/-- A clean node is an empty tree of any height. -/
theorem Clean.nodeShape (clean : Clean node) (height : Nat) :
    NodeShape height (Shape height) { node with height := height + 1 } where
  height_eq := rfl
  count_eq := by
    rw [clean.count_eq, eq_comm, countBelow_eq_zero]
    intro off small
    simp [clean.slots_null off small]
  children := by
    intro off small
    rw [clean.slots_null off small]
    exact shape_null height
  leaf_tags := by
    intro _ tag off small set
    rw [clean.tags_clear tag off small] at set
    cases set
  inner_tags := by
    intro _ tag off small
    rw [clean.tags_clear tag off small,
      show node.slots off = .null from clean.slots_null off small, slotTag_null]

/-- Putting another child in one entry, with the count and the entry's tags moved along. -/
theorem NodeShape.replace {height off : Nat} {node node' : Node (Slot Item)} {child : Slot Item}
    (shape : NodeShape height (Shape height) node) (offLt : off < mapSize)
    (sameHeight : node'.height = node.height)
    (slots : node'.slots = update node.slots off child)
    (childShape : Shape height child)
    (count : node'.count + (!(node.slots off).isNull).toNat = node.count + (!child.isNull).toNat)
    (leaf : height = 0 → ∀ tag, node'.tags tag off = true → child.isNull = false)
    (inner : height ≠ 0 → ∀ tag, node'.tags tag off = slotTag tag child)
    (others : ∀ tag, ∀ entry < mapSize, entry ≠ off → node'.tags tag entry = node.tags tag entry) :
    NodeShape height (Shape height) node' := by
  have here : node'.slots off = child := by rw [slots, update_self]
  have there : ∀ entry, entry ≠ off → node'.slots entry = node.slots entry := by
    intro entry ne
    rw [slots, update_of_ne ne]
  refine ⟨sameHeight.trans shape.height_eq, ?_, ?_, ?_, ?_⟩
  · have moved : countBelow (fun entry => !(node'.slots entry).isNull) mapSize +
        (!(node.slots off).isNull).toNat =
        countBelow (fun entry => !(node.slots entry).isNull) mapSize + (!(node'.slots off).isNull).toNat :=
      countBelow_update (fun entry => !(node.slots entry).isNull) _ offLt
        fun entry _ ne => by simp only [there entry ne]
    rw [here, ← shape.count_eq] at moved
    omega
  · intro entry small
    rcases eq_or_ne entry off with rfl | same
    · exact here ▸ childShape
    · rw [there entry same]
      exact shape.children entry small
  · intro bottom tag entry small set
    rcases eq_or_ne entry off with rfl | same
    · rw [here]
      exact leaf bottom tag set
    · rw [others tag entry small same] at set
      rw [there entry same]
      exact shape.leaf_tags bottom tag entry small set
  · intro above tag entry small
    rcases eq_or_ne entry off with rfl | same
    · rw [here]
      exact inner above tag
    · rw [others tag entry small same, there entry same]
      exact shape.inner_tags above tag entry small

/-! ### What a lookup reads -/

@[simp] theorem lookupLoop_null (index height : Nat) :
    lookupLoop index height (.null : Slot Item) = .null := by
  cases height <;> rfl

theorem lookupLoop_succ (index height : Nat) (node : Node (Slot Item)) :
    lookupLoop index (height + 1) (.node node) =
      lookupLoop index height (node.slots (digit 64 height index)) := by
  rw [lookupLoop, offset_succ]

theorem lookupLoop_replace (slots : node'.slots = update node.slots off child) :
    lookupLoop index (height + 1) (.node node') =
      if digit 64 height index = off then lookupLoop index height child
      else lookupLoop index (height + 1) (.node node) := by
  rw [lookupLoop_succ, lookupLoop_succ, slots, update_apply]
  split <;> rfl

/-- Overwriting what the child reads at one index overwrites what the node reads there. -/
theorem lookupLoop_overwrite {value : Slot Item}
    (slots : node'.slots = update node.slots (digit 64 height index) child)
    (below : ∀ key, lookupLoop key height child =
      if key % 64 ^ height = index % 64 ^ height then value
      else lookupLoop key height (node.slots (digit 64 height index))) :
    lookupLoop key (height + 1) (.node node') =
      if key % 64 ^ (height + 1) = index % 64 ^ (height + 1) then value
      else lookupLoop key (height + 1) (.node node) := by
  rw [lookupLoop_replace slots]
  simp only [mod_pow_succ_eq_iff (show 0 < 64 by decide)]
  by_cases entry : digit 64 height key = digit 64 height index
  · simp only [entry, true_and, if_true, below, lookupLoop_succ]
  · simp only [entry, false_and, if_false]

/-- Replacing a child by one that reads the same changes no lookup. -/
theorem lookupLoop_unchanged (slots : node'.slots = update node.slots off child)
    (below : ∀ key, lookupLoop key height child = lookupLoop key height (node.slots off)) :
    lookupLoop key (height + 1) (.node node') = lookupLoop key (height + 1) (.node node) := by
  rw [lookupLoop_replace slots]
  split
  · next entry => rw [below, lookupLoop_succ, entry]
  · rfl

/-! ### What a tag reads -/

@[simp] theorem leafTag_null (index : Nat) (tag : Tag) (height : Nat) :
    leafTag index tag height (.null : Slot Item) = false := by
  cases height with
  | zero => rfl
  | succ height => cases height <;> rfl

theorem leafTag_one (index : Nat) (tag : Tag) (node : Node (Slot Item)) :
    leafTag index tag 1 (.node node) = node.tags tag (digit 64 0 index) := by
  rw [leafTag, offset_succ]

theorem leafTag_succ (index : Nat) (tag : Tag) (node : Node (Slot Item)) (above : height ≠ 0) :
    leafTag index tag (height + 1) (.node node) =
      leafTag index tag height (node.slots (digit 64 height index)) := by
  cases height with
  | zero => exact absurd rfl above
  | succ height =>
    rw [leafTag, offset_succ]
    exact succ_ne_zero height

/-- A tag reads only the digits below its height. -/
theorem leafTag_congr {other : Nat} (tag : Tag) (slot : Slot Item)
    (same : index % 64 ^ height = other % 64 ^ height) :
    leafTag index tag height slot = leafTag other tag height slot := by
  induction height generalizing slot with
  | zero => rfl
  | succ height ih =>
    obtain ⟨entry, below⟩ := (mod_pow_succ_eq_iff (by decide)).mp same
    cases slot with
    | null => rw [leafTag_null, leafTag_null]
    | item value => cases height <;> rfl
    | node node =>
      by_cases bottom : height = 0
      · subst bottom
        rw [leafTag_one, leafTag_one, entry]
      · rw [leafTag_succ _ _ _ bottom, leafTag_succ _ _ _ bottom, entry]
        exact ih _ below

/-- A tagged index holds an item. -/
theorem lookupLoop_of_leafTag (shape : Shape height slot) (tagged : leafTag index tag height slot = true) :
    lookupLoop index height slot ≠ .null := by
  induction shape using Shape.walk with
  | null => rw [leafTag_null] at tagged; cases tagged
  | item => cases tagged
  | node height node shape ih =>
    rw [lookupLoop_succ]
    by_cases bottom : height = 0
    · subst bottom
      rw [leafTag_one] at tagged
      exact isNull_eq_false.mp (shape.leaf_tags rfl tag _ (digit_lt_mapSize ..) tagged)
    · rw [leafTag_succ _ _ _ bottom] at tagged
      exact ih _ (digit_lt_mapSize ..) tagged

/-- The aggregated tag of a slot is set exactly when an item below it carries the tag. -/
theorem slotTag_iff (shape : Shape height slot) :
    slotTag tag slot = true ↔ ∃ index < 64 ^ height, leafTag index tag height slot = true := by
  induction shape using Shape.walk with
  | null => simp
  | item => simp [slotTag, leafTag]
  | node height node shape ih =>
    rw [slotTag_node, anyTagSet_iff]
    by_cases bottom : height = 0
    · subst bottom
      constructor
      · rintro ⟨off, offLt, set⟩
        have low : off < 64 := offLt
        refine ⟨off, by simpa using low, ?_⟩
        rw [leafTag_one]
        simpa [digit, mod_eq_of_lt low] using set
      · rintro ⟨index, _, set⟩
        rw [leafTag_one] at set
        exact ⟨_, digit_lt_mapSize .., set⟩
    · simp only [leafTag_succ _ _ _ bottom]
      constructor
      · rintro ⟨off, offLt, set⟩
        rw [shape.inner_tags bottom tag off offLt] at set
        obtain ⟨low, lowLt, tagged⟩ := (ih off offLt).mp set
        obtain ⟨bounded, entry, below⟩ := digit_compose offLt lowLt
        refine ⟨_, bounded, ?_⟩
        rw [mapSize_eq] at entry below ⊢
        rwa [entry, leafTag_congr tag _ (below.trans (mod_eq_of_lt lowLt).symm)]
      · rintro ⟨index, _, tagged⟩
        have entryLt := digit_lt_mapSize height index
        refine ⟨_, entryLt, ?_⟩
        rw [shape.inner_tags bottom tag _ entryLt]
        refine (ih _ entryLt).mpr ⟨index % 64 ^ height, Nat.mod_lt _ (Nat.pow_pos (by decide)), ?_⟩
        rwa [leafTag_congr tag _ (mod_mod _ _)]

/-- Nothing below a slot without the aggregated tag carries the tag. -/
theorem leafTag_of_slotTag (shape : Shape height slot) (clear : slotTag tag slot = false) :
    leafTag index tag height slot = false := by
  rw [← Bool.not_eq_true]
  intro tagged
  have set := (slotTag_iff shape).mpr ⟨index % 64 ^ height,
    Nat.mod_lt _ (Nat.pow_pos (by decide)), by rwa [leafTag_congr tag _ (Nat.mod_mod _ _)]⟩
  rw [clear] at set
  cases set

/-- Overwriting the tag of one index in the child, and in the entry at the bottom level, overwrites
it in the node. -/
theorem leafTag_overwrite {bit : Bool} (slots : node'.slots = update node.slots (digit 64 height index) child)
    (bottom : height = 0 → node'.tags tag = update (node.tags tag) (digit 64 height index) bit)
    (below : height ≠ 0 → ∀ key, leafTag key tag height child =
      if key % 64 ^ height = index % 64 ^ height then bit
      else leafTag key tag height (node.slots (digit 64 height index))) :
    leafTag key tag (height + 1) (.node node') =
      if key % 64 ^ (height + 1) = index % 64 ^ (height + 1) then bit
      else leafTag key tag (height + 1) (.node node) := by
  simp only [mod_pow_succ_eq_iff (show 0 < 64 by decide)]
  by_cases atBottom : height = 0
  · subst atBottom
    rw [leafTag_one, leafTag_one, bottom rfl, update_apply]
    simp [mod_one]
  · rw [leafTag_succ _ _ _ atBottom, leafTag_succ _ _ _ atBottom, slots, update_apply]
    by_cases entry : digit 64 height key = digit 64 height index
    · simp only [entry, true_and, if_true, below atBottom]
    · simp only [entry, false_and, if_false]

/-- Replacing a child by one with the same tags, leaving the node's own, changes no tag. -/
theorem leafTag_unchanged (slots : node'.slots = update node.slots off child)
    (bottom : height = 0 → node'.tags tag = node.tags tag)
    (below : height ≠ 0 → ∀ key, leafTag key tag height child =
      leafTag key tag height (node.slots off)) :
    leafTag key tag (height + 1) (.node node') = leafTag key tag (height + 1) (.node node) := by
  by_cases atBottom : height = 0
  · subst atBottom
    rw [leafTag_one, leafTag_one, bottom rfl]
  · rw [leafTag_succ _ _ _ atBottom, leafTag_succ _ _ _ atBottom, slots, update_apply]
    split
    · next entry => rw [below atBottom, entry]
    · rfl

/-! ### Memory -/

/-- Every node that can be handed out is clean, and the pool is not overfull. -/
structure MemoryOk (mem : Memory Item) : Prop where
  cache_clean : ∀ node ∈ mem.cache, Clean node
  pool_clean : ∀ node ∈ mem.pool, Clean node
  pool_length : mem.pool.length ≤ maxPath

theorem clean_constructedNode : Clean (constructedNode : Node (Slot Item)) :=
  ⟨rfl, fun _ _ => rfl, fun _ _ _ => rfl⟩

theorem MemoryOk.facing (memory : MemoryOk mem) (choices : List CacheChoice) :
    MemoryOk (mem.facing choices) :=
  { memory with }

/-- `kmem_cache_alloc` hands out clean nodes and leaves the pool alone. -/
theorem kmemCacheAlloc_ok (memory : MemoryOk mem) (alloc : kmemCacheAlloc mem = (result, mem')) :
    MemoryOk mem' ∧ mem'.pool = mem.pool ∧ mem'.calls = mem.calls ∧
      ∀ node, result = some node → Clean node := by
  unfold kmemCacheAlloc at alloc
  split at alloc
  · cases alloc
    exact ⟨memory, rfl, rfl, by simp⟩
  · cases alloc
    exact ⟨{ memory with }, rfl, rfl, by simp⟩
  · cases alloc
    refine ⟨{ memory with }, rfl, rfl, ?_⟩
    rintro node ⟨⟩
    exact clean_constructedNode
  · split at alloc
    · next node found =>
        cases alloc
        refine ⟨⟨fun other member => memory.cache_clean other (mem_of_mem_eraseIdx member),
          memory.pool_clean, memory.pool_length⟩, rfl, rfl, ?_⟩
        rintro node ⟨⟩
        exact memory.cache_clean node (mem_of_getElem? found)
    · cases alloc
      refine ⟨{ memory with }, rfl, rfl, ?_⟩
      rintro node ⟨⟩
      exact clean_constructedNode

/-- So does `radix_tree_node_alloc`. -/
theorem radixTreeNodeAlloc_ok {wait : Bool} (memory : MemoryOk mem)
    (alloc : radixTreeNodeAlloc wait mem = (result, mem')) :
    MemoryOk mem' ∧ ∀ node, result = some node → Clean node := by
  unfold radixTreeNodeAlloc at alloc
  split at alloc
  · next node pool pooled =>
      cases alloc
      have inPool : node ∈ mem.pool := by simp [pooled]
      refine ⟨⟨memory.cache_clean, fun other member => memory.pool_clean other ?_, ?_⟩, ?_⟩
      · simp [pooled, member]
      · have bounded := memory.pool_length
        rw [pooled] at bounded
        exact le_of_succ_le bounded
      · rintro node ⟨⟩
        exact memory.pool_clean node inPool
  · have counted : MemoryOk { mem with calls := mem.calls + 1 } :=
      { memory with }
    obtain ⟨kept, _, _, clean⟩ := kmemCacheAlloc_ok counted alloc
    exact ⟨kept, clean⟩

/-- A node with nothing outside its first entry goes back clean. -/
theorem MemoryOk.free (memory : MemoryOk mem) (slots : ∀ off < mapSize, off ≠ 0 → node.slots off = .null)
    (tags : ∀ tag, ∀ off < mapSize, off ≠ 0 → node.tags tag off = false) :
    MemoryOk (radixTreeNodeFree node mem) := by
  refine ⟨?_, memory.pool_clean, memory.pool_length⟩
  intro other member
  rcases mem_cons.mp member with rfl | old
  · refine ⟨rfl, fun off small => ?_, fun tag off small => ?_⟩
    · by_cases first : off = 0
      · simp only [first, update_self]
      · simp only [update_of_ne first, slots off small first]
    · by_cases first : off = 0
      · simp only [first, update_self]
      · simp only [update_of_ne first, tags tag off small first]
  · exact memory.cache_clean other old

end LinuxKernel.Lib.RadixTree
