/-
Module: LinuxKernel.Lib.Idr
Purpose: The id allocator of `lib/idr.c` for a 64-bit kernel. A pointer in `ary` is the object it points to,
  and what a loop does on its way back up the path `pa` is what the recursion does on its way out. What an
  idr is for is a map from ids to pointers, in which an allocation takes the smallest free id from a
  starting id on.
Trusted boundary: human-reviewed spec
Main exports: Handle, idrGetNewAbove, idrRemove, IdrStep, Handle.Exact, IdMapStep, RoomyRun
-/
import LinuxKernel.Library.Runs
import LinuxKernel.Library.BoundedTable

namespace LinuxKernel.Lib.Idr

open Function (update)

/-! ### `include/linux/idr.h` -/

/-- `IDR_BITS`. -/
def idrBits : Nat := 6

/-- `IDR_SIZE`. -/
def idrSize : Nat := 1 <<< idrBits

/-- `IDR_MASK`. -/
def idrMask : Nat := (1 <<< idrBits) - 1

/-- `MAX_ID_SHIFT`. -/
def maxIdShift : Nat := 31

/-- `MAX_ID_BIT`. -/
def maxIdBit : Nat := 1 <<< maxIdShift

/-- `MAX_ID_MASK`. -/
def maxIdMask : Nat := maxIdBit - 1

/-- `MAX_LEVEL`. -/
def maxLevel : Nat := (maxIdShift + idrBits - 1) / idrBits

/-- `IDR_FREE_MAX`. -/
def idrFreeMax : Nat := maxLevel + maxLevel

/-- `struct idr_layer`; the entries below `IDR_SIZE` are those that exist. A zero bit of `bitmap`
means "space here". -/
structure Layer (Entry : Type) where
  bitmap : Nat → Bool
  ary : Nat → Entry
  count : Nat
  layer : Nat

/-- What a pointer in `ary` points to: at the bottom what the user stored, which may be `NULL`. -/
inductive Entry (Item : Type) where
  | null
  | user (item : Item)
  | layer (layer : Layer (Entry Item))

variable {Item : Type}

/-- The pointer is `NULL`. -/
def Entry.isNull : Entry Item → Bool
  | .null => true
  | _ => false

/-- The pointer a user passes in, `none` for `NULL`. -/
def Entry.ofUser : Option Item → Entry Item
  | none => .null
  | some item => .user item

/-- `struct idr`; `id_free_cnt` is the length of the free list, with which it changes under
`idp->lock`. -/
structure Handle (Item : Type) where
  top : Entry Item
  idFree : List (Layer (Entry Item))
  layers : Nat

/-- `IDR_INIT`. -/
def Handle.init : Handle Item := { top := .null, idFree := [], layers := 0 }

/-- An `int` is kept as its 32 bits; this is the sum or shift of two, cut to them. -/
def wrap (value : Nat) : Nat := value % 2 ^ 32

/-- `id >= bound` for an `int` and a bound that is not negative. -/
def intGe (id bound : Nat) : Bool := id < 2 ^ 31 && bound ≤ id

/-! ### The free list -/

/-- What `kmem_cache_zalloc` hands out. -/
def zeroedLayer : Layer (Entry Item) :=
  { bitmap := fun _ => false, ary := fun _ => .null, count := 0, layer := 0 }

/-- `get_from_free_list(idp)`. The list runs through `ary[0]`, which is `NULL` afterwards. -/
def getFromFreeList :
    List (Layer (Entry Item)) → Option (Layer (Entry Item) × List (Layer (Entry Item)))
  | [] => none
  | p :: rest => some ({ p with ary := update p.ary 0 .null }, rest)

/-- `__move_to_free_list(idp, p)`. -/
def moveToFreeList (free : List (Layer (Entry Item))) (p : Layer (Entry Item)) :
    List (Layer (Entry Item)) :=
  p :: free

/-- The loop of `idr_pre_get`, with the number of layers missing and of those that memory has. -/
def preGetLoop : Nat → Nat → List (Layer (Entry Item)) → Bool × List (Layer (Entry Item))
  | 0, _, free => (true, free)
  | _ + 1, 0, free => (false, free)
  | missing + 1, available + 1, free =>
    preGetLoop missing available (moveToFreeList free zeroedLayer)

variable (idp : Handle Item)

/-- `idr_pre_get(idp, gfp_mask)`: whether it returned 1. -/
def idrPreGet (available : Nat) : Bool × Handle Item :=
  let (filled, free) := preGetLoop (idrFreeMax - idp.idFree.length) available idp.idFree
  (filled, { idp with idFree := free })

/-! ### The search for a free id -/

/-- `p->bitmap == IDR_FULL`. -/
def Layer.isFull (p : Layer (Entry Item)) : Bool :=
  (List.range idrSize).all p.bitmap

/-- `find_next_bit(&bm, IDR_SIZE, n)`, with the number of bits left. -/
def findNextBit (bm : Nat → Bool) : Nat → Nat → Nat
  | 0, n => n
  | left + 1, n => if bm n then n else findNextBit bm left (n + 1)

/-- `(id >> (IDR_BITS*l)) & IDR_MASK`. -/
def entryOf (l id : Nat) : Nat := (id >>> (idrBits * l)) &&& idrMask

/-- Where the loop of `sub_alloc` is when it leaves a layer. -/
inductive SubAlloc where
  /-- The id that is returned. -/
  | found (id : Nat)
  /-- `return -1`. -/
  | noLayer
  /-- `return IDR_NOMORE_SPACE`. -/
  | noMoreSpace
  /-- `return IDR_NEED_TO_GROW`. -/
  | needToGrow (id : Nat)
  /-- No space in this layer: back to the previous one, with `oid` and the next `id`. -/
  | climb (oid id : Nat)
  /-- `goto restart`. -/
  | restart (id : Nat)
  /-- A `BUG_ON`, an entry of the wrong kind, or too many rounds of a loop. -/
  | oops
deriving DecidableEq, Repr

/-- `p->ary[m]`, which is created if it is missing: the layer below and `p` afterwards. -/
def layerBelow (p : Layer (Entry Item)) (l m : Nat) (free : List (Layer (Entry Item))) :
    Except SubAlloc (Layer (Entry Item) × Layer (Entry Item) × List (Layer (Entry Item))) :=
  match p.ary m with
  | .layer child => .ok (child, p, free)
  | .user _ => .error .oops
  | .null =>
    match getFromFreeList free with
    | none => .error .noLayer
    | some (new, free) =>
      let new := { new with layer := l - 1 }
      .ok (new, { p with
        ary := update p.ary m (.layer new)
        count := p.count + 1 }, free)

/-- What the loop of `sub_alloc` does from a layer `l` levels above the leaves, with what it does
from the layer below, until it leaves the layer upwards. -/
def subAllocLayer (layers : Nat) (below : Layer (Entry Item) → Nat → List (Layer (Entry Item)) →
      SubAlloc × Layer (Entry Item) × List (Layer (Entry Item))) (l : Nat) :
    Nat → Layer (Entry Item) → Nat → List (Layer (Entry Item)) →
      SubAlloc × Layer (Entry Item) × List (Layer (Entry Item))
  | 0, p, _, free => (.oops, p, free)
  | rounds + 1, p, id, free =>
    let n := entryOf l id
    let m := findNextBit (fun i => !p.bitmap i) (idrSize - n) n
    if m = idrSize then
      -- no space available go back to previous layer.
      (.climb id (wrap ((id ||| ((1 <<< (idrBits * (l + 1))) - 1)) + 1)), p, free)
    else
      let sh := idrBits * l
      let id := if m ≠ n then wrap (((id >>> sh) ^^^ n ^^^ m) <<< sh) else id
      if id ≥ maxIdBit then (.noMoreSpace, p, free)
      else if l = 0 then (.found id, p, free)
      else match layerBelow p l m free with
        | .error ret => (ret, p, free)
        | .ok (child, p, free) =>
          let (ret, child, free) := below child id free
          let p := { p with ary := update p.ary m (.layer child) }
          match ret with
          | .climb oid id =>
            let sh := idrBits * (l + 1)
            -- if already at the top layer, we need to grow
            if intGe id (1 <<< (layers * idrBits)) then (.needToGrow id, p, free)
            else if oid >>> sh = id >>> sh then
              subAllocLayer layers below l rounds p id free
            else (.restart id, p, free)
          | ret => (ret, p, free)

/-- The loop of `sub_alloc` from a layer on, until it leaves the layer upwards. An entry of the
layer is looked at only after those before it. -/
def subAllocFrom (layers : Nat) :
    Nat → Layer (Entry Item) → Nat → List (Layer (Entry Item)) →
      SubAlloc × Layer (Entry Item) × List (Layer (Entry Item))
  | 0 => subAllocLayer layers (fun p _ free => (.oops, p, free)) 0 (idrSize + 1)
  | l + 1 => subAllocLayer layers (subAllocFrom layers l) (l + 1) (idrSize + 1)

/-- `sub_alloc(idp, &id, pa)` on the layer at the top, with the number of restarts left. -/
def subAlloc (layers : Nat) :
    Nat → Layer (Entry Item) → Nat → List (Layer (Entry Item)) →
      SubAlloc × Layer (Entry Item) × List (Layer (Entry Item))
  | 0, p, _, free => (.oops, p, free)
  | restarts + 1, p, id, free =>
    match subAllocFrom layers (layers - 1) p id free with
    | (.climb _ id, p, free) =>
      -- BUG_ON(!p): there is no layer above the top
      if intGe id (1 <<< (layers * idrBits)) then (.needToGrow id, p, free)
      else (.oops, p, free)
    | (.restart id, p, free) => subAlloc layers restarts p id free
    | (ret, p, free) => (ret, p, free)

/-! ### Growing the tree -/

/-- The `for` loop of `idr_get_empty_slot` that tears down the layers it has built. -/
def tearDown : Nat → Layer (Entry Item) → List (Layer (Entry Item)) → List (Layer (Entry Item))
  | 0, _, free => free
  | built + 1, new, free =>
    let free := moveToFreeList free { new with
      ary := update new.ary 0 .null
      bitmap := fun _ => false
      count := 0 }
    match new.ary 0 with
    | .layer p => tearDown built p free
    | _ => free

/-- The `while` loop of `idr_get_empty_slot`, with the number of rounds left and of layers built:
the new top and number of layers, or `none` for `return -1`. -/
def buildUp (id : Nat) :
    Nat → Nat → Nat → Layer (Entry Item) → List (Layer (Entry Item)) →
      Option (Layer (Entry Item) × Nat) × List (Layer (Entry Item))
  | 0, _, layers, p, free => (some (p, layers), free)
  | rounds + 1, built, layers, p, free =>
    if layers < maxLevel - 1 ∧ intGe id (1 <<< (layers * idrBits)) then
      let layers := layers + 1
      if p.count = 0 then
        -- special case: grow the tree by moving the top node upwards.
        buildUp id rounds built layers { p with layer := p.layer + 1 } free
      else match getFromFreeList free with
        | none => (none, tearDown built p free)
        | some (new, free) =>
          buildUp id rounds (built + 1) layers
            { new with
              ary := update new.ary 0 (.layer p)
              count := 1
              layer := layers - 1
              bitmap := if p.isFull then update new.bitmap 0 true else new.bitmap }
            free
    else (some (p, layers), free)

/-- The layer to begin with in `idr_get_empty_slot`: the top, or one from the free list. -/
def firstLayer : Option (Layer (Entry Item) × Nat × List (Layer (Entry Item))) :=
  match idp.top with
  | .layer p => some (p, idp.layers, idp.idFree)
  | _ =>
    match getFromFreeList idp.idFree with
    | none => none
    | some (p, free) => some ({ p with layer := 0 }, 1, free)

/-- `idr_get_empty_slot(idp, starting_id, pa)`, with the number of times it may go to `build_up`. -/
def idrGetEmptySlot : Nat → Handle Item → Nat → SubAlloc × Handle Item
  | 0, idp, _ => (.oops, idp)
  | rounds + 1, idp, id =>
    match firstLayer idp with
    | none => (.noLayer, idp)
    | some (p, layers, free) =>
      match buildUp id maxLevel 0 layers p free with
      | (none, free) => (.noLayer, { idp with idFree := free })
      | (some (p, layers), free) =>
        let (v, p, free) := subAlloc layers (2 ^ 32) p id free
        let idp := { top := .layer p, idFree := free, layers }
        match v with
        | .needToGrow id => idrGetEmptySlot rounds idp id
        | v => (v, idp)

/-! ### Allocation -/

/-- `rcu_assign_pointer(pa[0]->ary[id & IDR_MASK], ptr)`, `pa[0]->count++` and
`idr_mark_full(pa, id)` on the path of the id from the given height on: the entry afterwards, and
whether the loop of `idr_mark_full` goes on to the layer above. -/
def install (id : Nat) (ptr : Entry Item) : Nat → Entry Item → Entry Item × Bool
  | 1, .layer p =>
    let n := id &&& idrMask
    let p := { p with
      ary := update p.ary n ptr
      count := p.count + 1
      bitmap := update p.bitmap n true }
    (.layer p, p.isFull)
  | height + 1, .layer p =>
    let n := entryOf height id
    let (child, goOn) := install id ptr height (p.ary n)
    let p := { p with ary := update p.ary n child }
    if goOn then
      let p := { p with bitmap := update p.bitmap n true }
      (.layer p, p.isFull)
    else (.layer p, false)
  | _, entry => (entry, false)

/-- What `idr_get_new_above` returns, or that it stopped at a `BUG_ON`. -/
inductive GetRet where
  | ok (id : Nat)
  | EAGAIN
  | ENOSPC
  | oops
deriving DecidableEq, Repr

/-- `idr_get_new_above(idp, ptr, starting_id, &id)` with `idr_get_new_above_int`. -/
def idrGetNewAbove (ptr : Option Item) (startingId : Nat) : GetRet × Handle Item :=
  match idrGetEmptySlot (2 ^ 32) idp startingId with
  | (.found id, idp) =>
    (.ok id, { idp with top := (install id (.ofUser ptr) idp.layers idp.top).1 })
  | (.noLayer, idp) => (.EAGAIN, idp)
  | (.noMoreSpace, idp) => (.ENOSPC, idp)
  | (_, idp) => (.oops, idp)

/-! ### Removal -/

/-- `sub_remove` on the path of the id from the given height on: whether the id was allocated, and
the entry afterwards, which is `NULL` when its last user has gone. -/
def subRemove (id : Nat) : Nat → Entry Item → Bool × Entry Item
  | 1, .layer p =>
    let n := id &&& idrMask
    if p.bitmap n then
      let p := { p with
        bitmap := update p.bitmap n false
        ary := update p.ary n .null
        count := p.count - 1 }
      (true, if p.count = 0 then .null else .layer p)
    else (false, .layer p)
  | height + 1, .layer p =>
    let n := entryOf height id
    let (removed, child) := subRemove id height (p.ary n)
    let p := { p with
      bitmap := update p.bitmap n false
      ary := update p.ary n child }
    if removed && child.isNull then
      let p := { p with count := p.count - 1 }
      (true, if p.count = 0 then .null else .layer p)
    else (removed, .layer p)
  | _, entry => (false, entry)

/-- `while (idp->id_free_cnt >= IDR_FREE_MAX)` of `idr_remove`. -/
def trimFreeList : List (Layer (Entry Item)) → List (Layer (Entry Item))
  | [] => []
  | p :: rest => if (p :: rest).length ≥ idrFreeMax then trimFreeList rest else p :: rest

/-- The attempt of `idr_remove` to shrink the tree. -/
def shrinkTop : Handle Item :=
  match idp.top with
  | .layer top =>
    if top.count = 1 ∧ idp.layers > 1 ∧ !(top.ary 0).isNull then
      { idp with top := top.ary 0, layers := idp.layers - 1 }
    else idp
  | _ => idp

/-- `idr_remove(idp, id)`. -/
def idrRemove (id : Nat) : Handle Item :=
  let id := id &&& maxIdMask
  let (removed, top) := subRemove id idp.layers idp.top
  let idp := { idp with
    top := top
    layers := if removed && top.isNull then 0 else idp.layers }
  let idp := shrinkTop idp
  { idp with idFree := trimFreeList idp.idFree }

/-! ### Lookup and replacement -/

/-- The loop of `idr_find` over the given number of layers; `none` for its `BUG_ON`. -/
def findLoop (id : Nat) : Nat → Entry Item → Option (Entry Item)
  | 0, entry => some entry
  | n + 1, .layer p => if p.layer ≠ n then none else findLoop id n (p.ary (entryOf n id))
  | _ + 1, .null => some .null
  | _ + 1, .user _ => none

/-- `idr_find(idp, id)`. -/
def idrFind (id : Nat) : Option (Entry Item) :=
  match idp.top with
  | .layer p =>
    let id := id &&& maxIdMask
    if id ≥ 1 <<< ((p.layer + 1) * idrBits) then some .null
    else findLoop id (p.layer + 1) (.layer p)
  | _ => some .null

/-- What `idr_replace` returns. -/
inductive ReplaceRet (Item : Type) where
  | old (ptr : Entry Item)
  | EINVAL
  | ENOENT

/-- The descent of `idr_replace` from the given height on: the pointer replaced and the entry
afterwards, or `none` when the id is not allocated. -/
def replaceLoop (id : Nat) (ptr : Entry Item) : Nat → Entry Item → Option (Entry Item × Entry Item)
  | 1, .layer p =>
    let n := id &&& idrMask
    if p.bitmap n then
      some (p.ary n, .layer { p with ary := update p.ary n ptr })
    else none
  | height + 1, .layer p => do
      let n := entryOf height id
      let (old, child) ← replaceLoop id ptr height (p.ary n)
      some (old, .layer { p with ary := update p.ary n child })
  | _, _ => none

/-- `idr_replace(idp, ptr, id)`. -/
def idrReplace (ptr : Option Item) (id : Nat) : ReplaceRet Item × Handle Item :=
  match idp.top with
  | .layer p =>
    let id := id &&& maxIdMask
    if id ≥ 1 <<< ((p.layer + 1) * idrBits) then (.EINVAL, idp)
    else match replaceLoop id (.ofUser ptr) (p.layer + 1) (.layer p) with
      | some (old, top) => (.old old, { idp with top })
      | none => (.ENOENT, idp)
  | _ => (.EINVAL, idp)

/-! ### Runs -/

/-- A call on the idr; `idr_pre_get` with the number of layers that memory has for it. -/
inductive IdrAction (Item : Type) where
  | preGet (available : Nat)
  | getNewAbove (ptr : Option Item) (startingId : Nat)
  | remove (id : Nat)
  | replace (ptr : Option Item) (id : Nat)

/-- What a call returned. -/
inductive IdrRet (Item : Type) where
  | preGet (filled : Bool)
  | getNewAbove (ret : GetRet)
  | remove
  | replace (ret : ReplaceRet Item)

/-- One call. Ids passed in are not negative. -/
inductive IdrStep : Handle Item → IdrAction Item → List (IdrRet Item) → Handle Item → Prop
  | preGet {idp idp' : Handle Item} {available filled} :
      idrPreGet idp available = (filled, idp') →
      IdrStep idp (.preGet available) [.preGet filled] idp'
  | getNewAbove {idp idp' : Handle Item} {ptr startingId ret} :
      startingId < maxIdBit →
      idrGetNewAbove idp ptr startingId = (ret, idp') →
      IdrStep idp (.getNewAbove ptr startingId) [.getNewAbove ret] idp'
  | remove {idp : Handle Item} {id} :
      id < maxIdBit →
      IdrStep idp (.remove id) [.remove] (idrRemove idp id)
  | replace {idp idp' : Handle Item} {ptr id ret} :
      id < maxIdBit →
      idrReplace idp ptr id = (ret, idp') →
      IdrStep idp (.replace ptr id) [.replace ret] idp'

/-- A sequence of calls on an idr that was just initialised. -/
abbrev IdrRun : List (IdrAction Item) → List (IdrRet Item) → Handle Item → Prop :=
  Library.Run IdrStep Handle.init

/-! ### The layers -/

/-- Whether the bit of the id is set in the leaf on its path, from the given height on. -/
def taken (id : Nat) : Nat → Entry Item → Bool
  | 1, .layer p => p.bitmap (entryOf 0 id)
  | height + 1, .layer p => taken id height (p.ary (entryOf height id))
  | _, _ => false

/-- Whether the tree has the id allocated. -/
def Handle.inUse (idp : Handle Item) (id : Nat) : Bool :=
  decide (id < 2 ^ (idrBits * idp.layers)) && taken id idp.layers idp.top

/-- The layer stands the given number of levels above the leaves, in the tree below an entry whose
layer stands as many as given first. -/
inductive LayerAt : Nat → Entry Item → Nat → Layer (Entry Item) → Prop
  | here (level : Nat) (p : Layer (Entry Item)) : LayerAt level (.layer p) level p
  | child {level depth n : Nat} {p q : Layer (Entry Item)} (nLt : n < idrSize)
      (inChild : LayerAt level (p.ary n) depth q) : LayerAt (level + 1) (.layer p) depth q

/-- Every id of the tree below an entry is allocated, the entry's layer standing the given number
of levels above the leaves. -/
def Full : Nat → Entry Item → Prop
  | 0, .layer p => ∀ n < idrSize, p.bitmap n = true
  | level + 1, .layer p => ∀ n < idrSize, Full level (p.ary n)
  | _, _ => False

/-- The fields of a layer the given number of levels above the leaves say what is below it. -/
structure LayerExact (depth : Nat) (q : Layer (Entry Item)) : Prop where
  layer_eq : q.layer = depth
  count_leaf : depth = 0 → q.count = Library.countBelow q.bitmap idrSize
  count_inner : depth ≠ 0 → q.count = Library.countBelow (fun n => !(q.ary n).isNull) idrSize
  bit_iff_full : depth ≠ 0 → ∀ n < idrSize, q.bitmap n = true ↔ Full (depth - 1) (q.ary n)

/-- The fields of every layer are exact, and `layers` is the height of the tree. -/
structure Handle.Exact (idp : Handle Item) : Prop where
  layers_exact : ∀ depth q, LayerAt (idp.layers - 1) idp.top depth q → LayerExact depth q
  height_exact : ∀ p, idp.top = .layer p → idp.layers = p.layer + 1
  height_empty : idp.top = .null → idp.layers = 0
  top_not_user : ∀ item, idp.top ≠ .user item

/-- The calls that take no layer from the free list. -/
def IdrAction.quiet : IdrAction Item → Prop
  | .getNewAbove .. => False
  | _ => True

/-! ### The map -/

/-- The allocated ids with the pointers stored, `some none` being an id stored with `NULL`. -/
abbrev IdMap (Item : Type) := Nat → Option (Option Item)

/-- The pointer that is found for an id. -/
def IdMap.find (map : IdMap Item) (id : Nat) : Entry Item :=
  .ofUser (map id).join

/-- What a call may return, and the map after it. -/
inductive IdMapStep : IdMap Item → IdrAction Item → List (IdrRet Item) → IdMap Item → Prop
  | preGet {map : IdMap Item} {available filled} :
      IdMapStep map (.preGet available) [.preGet filled] map
  | getNewAbove {map : IdMap Item} {ptr startingId id} (above : startingId ≤ id)
      (free : map id = none)
      (smallest : ∀ other, startingId ≤ other → other < id → map other ≠ none) :
      IdMapStep map (.getNewAbove ptr startingId) [.getNewAbove (.ok id)]
        (Function.update map id (some ptr))
  | getAgain {map : IdMap Item} {ptr startingId} :
      IdMapStep map (.getNewAbove ptr startingId) [.getNewAbove .EAGAIN] map
  | getNoSpace {map : IdMap Item} {ptr startingId}
      (full : ∀ id, startingId ≤ id → id < maxIdBit → map id ≠ none) :
      IdMapStep map (.getNewAbove ptr startingId) [.getNewAbove .ENOSPC] map
  | remove {map : IdMap Item} {id} :
      IdMapStep map (.remove id) [.remove] (Function.update map id none)
  | replace {map : IdMap Item} {ptr old id} (allocated : map id = some old) :
      IdMapStep map (.replace ptr id) [.replace (.old (.ofUser old))]
        (Function.update map id (some ptr))
  | replaceInvalid {map : IdMap Item} {ptr id} (free : map id = none) :
      IdMapStep map (.replace ptr id) [.replace .EINVAL] map
  | replaceAbsent {map : IdMap Item} {ptr id} (free : map id = none) :
      IdMapStep map (.replace ptr id) [.replace .ENOENT] map

/-- A sequence of calls on a map without ids. -/
abbrev IdMapRun : List (IdrAction Item) → List (IdrRet Item) → IdMap Item → Prop :=
  Library.Run IdMapStep fun _ => none

/-- The calls for which the tree has room: an allocation with a free id, from the starting id on,
among those that the tallest tree can hold; and a removal of an id that the tree covers, as every
allocated id is. -/
def Roomy (idp : Handle Item) : IdrAction Item → Prop
  | .getNewAbove _ startingId =>
    ∃ id, startingId ≤ id ∧ id < 2 ^ (idrBits * (maxLevel - 1)) ∧ idp.inUse id = false
  | .remove id => id < 2 ^ (idrBits * idp.layers)
  | _ => True

/-- A sequence of such calls. -/
abbrev RoomyRun : List (IdrAction Item) → List (IdrRet Item) → Handle Item → Prop :=
  Library.Run (fun idp action events idp' => Roomy idp action ∧ IdrStep idp action events idp')
    Handle.init

end LinuxKernel.Lib.Idr
