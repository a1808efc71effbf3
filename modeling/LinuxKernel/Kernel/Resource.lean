/-
Module: LinuxKernel.Kernel.Resource
Purpose: The resource tree of `kernel/resource.c` as a heap of linked nodes; a pointer to a pointer is a
  `Slot`. A call is `none` when its fuel is used up or a null pointer is followed. Every call changes the
  tree by one of four edits: a node is attached in a gap, takes over a run of siblings, is unlinked, or has
  its range changed; all four keep the tree in order.
Trusted boundary: human-reviewed spec
Main exports: requestResourceNolock, insertResourceNolock, adjustResource, reserveRegionWithSplit, call, Shape
-/
import Mathlib

namespace LinuxKernel.Kernel.ResourceTree

open Function (update)

/-- The fields of the `struct resource` at each address. -/
structure Heap where
  start : Nat → Nat
  end_ : Nat → Nat
  flags : Nat → Nat
  parent : Nat → Option Nat
  child : Nat → Option Nat
  sibling : Nat → Option Nat

/-- The places that a `struct resource **` points to. -/
inductive Slot where
  | child (node : Nat)
  | sibling (node : Nat)
deriving DecidableEq, Repr

variable (fuel width : Nat) (heap : Heap)

/-- `*p`. -/
def Heap.read : Slot → Option Nat
  | .child node => heap.child node
  | .sibling node => heap.sibling node

/-- `*p = value`. -/
def Heap.write (p : Slot) (value : Option Nat) : Heap :=
  match p with
  | .child node => { heap with child := update heap.child node value }
  | .sibling node => { heap with sibling := update heap.sibling node value }

/-- `IORESOURCE_BUSY`. -/
def ioresourceBusy : Nat := 0x80000000

/-- `res->flags & IORESOURCE_BUSY`. -/
def Heap.busy (res : Nat) : Bool := heap.flags res &&& ioresourceBusy ≠ 0

/-- `EBUSY`. -/
def ebusy : Int := 16

/-- `EINVAL`. -/
def einval : Int := 22

/-- A descriptor that was set to zero, with its range and its flags. -/
def Heap.init (res start end_ flags : Nat) : Heap where
  start := update heap.start res start
  end_ := update heap.end_ res end_
  flags := update heap.flags res flags
  parent := update heap.parent res none
  child := update heap.child res none
  sibling := update heap.sibling res none

/-- `start + size - 1` in a `resource_size_t` of the given width. -/
def regionEnd (start size : Nat) : Nat := (start + size + (2 ^ width - 1)) % 2 ^ width

/-! ### Requesting and releasing -/

/-- The loop of `__request_resource`. -/
def requestLoop (root new : Nat) : Nat → Slot → Option (Option Nat × Heap)
  | 0, _ => none
  | fuel + 1, p =>
    let linked :=
      let heap' := { heap with sibling := update heap.sibling new (heap.read p) }.write p (some new)
      some (none, { heap' with parent := update heap'.parent new (some root) })
    match heap.read p with
    | none => linked
    | some tmp =>
      if heap.start tmp > heap.end_ new then linked
      else if heap.end_ tmp < heap.start new then requestLoop root new fuel (.sibling tmp)
      else some (some tmp, heap)

/-- `__request_resource(root, new)`: the conflict, if any, and the heap. -/
def requestResourceNolock (root new : Nat) : Option (Option Nat × Heap) :=
  if heap.end_ new < heap.start new then some (some root, heap)
  else if heap.start new < heap.start root then some (some root, heap)
  else if heap.end_ new > heap.end_ root then some (some root, heap)
  else requestLoop heap root new fuel (.child root)

/-- The loop of `__release_resource`. -/
def releaseLoop (old : Nat) : Nat → Slot → Option (Int × Heap)
  | 0, _ => none
  | fuel + 1, p =>
    match heap.read p with
    | none => some (-einval, heap)
    | some tmp =>
      if tmp = old then
        let heap' := heap.write p (heap.sibling tmp)
        some (0, { heap' with parent := update heap'.parent old none })
      else releaseLoop old fuel (.sibling tmp)

/-- `__release_resource(old)`. -/
def releaseResourceNolock (old : Nat) : Option (Int × Heap) := do
  let parent ← heap.parent old
  releaseLoop heap old fuel (.child parent)

/-! ### Inserting -/

/-- How the first loop of `__insert_resource` ends: with a return, or at a break. -/
inductive Descent where
  | done (conflict : Option Nat) (heap : Heap)
  | broke (parent first : Nat)

/-- The first loop of `__insert_resource`. -/
def insertDescend (new : Nat) : Nat → Nat → Option Descent
  | 0, _ => none
  | turns + 1, parent => do
      let (first, heap') ← requestResourceNolock fuel heap parent new
      match first with
      | none => some (.done none heap')
      | some first =>
        if first = parent then some (.done (some first) heap')
        else if heap.start first > heap.start new ∨ heap.end_ first < heap.end_ new then
          some (.broke parent first)
        else if heap.start first = heap.start new ∧ heap.end_ first = heap.end_ new then
          some (.broke parent first)
        else insertDescend new turns first

/-- The second loop of `__insert_resource`: a partial overlap, or the last resource inside the new one. -/
def overlapLoop (new : Nat) : Nat → Nat → Option (Except Nat Nat)
  | 0, _ => none
  | fuel + 1, next =>
    if heap.start next < heap.start new ∨ heap.end_ next > heap.end_ new then some (.error next)
    else
      match heap.sibling next with
      | none => some (.ok next)
      | some sibling =>
        if heap.start sibling > heap.end_ new then some (.ok next)
        else overlapLoop new fuel sibling

/-- `for (next = first; next; next = next->sibling) next->parent = new;` -/
def adoptLoop (new : Nat) : Nat → Option Nat → Heap → Option Heap
  | 0, _, _ => none
  | _ + 1, none, heap => some heap
  | fuel + 1, some next, heap =>
    adoptLoop new fuel (heap.sibling next) { heap with parent := update heap.parent next (some new) }

/-- `while (next->sibling != target) next = next->sibling;` -/
def findPrevious (target : Nat) : Nat → Nat → Option Nat
  | 0, _ => none
  | fuel + 1, next =>
    if heap.sibling next = some target then some next
    else do
      let sibling ← heap.sibling next
      findPrevious target fuel sibling

/-- `__insert_resource(parent, new)`. -/
def insertResourceNolock (parent new : Nat) : Option (Option Nat × Heap) := do
  match ← insertDescend fuel heap new fuel parent with
  | .done conflict heap' => some (conflict, heap')
  | .broke parent first =>
    match ← overlapLoop heap new fuel first with
    | .error next => some (some next, heap)
    | .ok next =>
      let heap₁ : Heap :=
        { heap with
          parent := update heap.parent new (some parent)
          sibling := update heap.sibling new (heap.sibling next)
          child := update heap.child new (some first) }
      let heap₂ ← adoptLoop new fuel (some first) (heap₁.write (.sibling next) none)
      if heap₂.child parent = some first then some (none, heap₂.write (.child parent) (some new))
      else do
        let next ← heap₂.child parent
        let next ← findPrevious heap₂ first fuel next
        some (none, heap₂.write (.sibling next) (some new))

/-! ### Adjusting -/

/-- The loop of `adjust_resource` over the children. -/
def childrenInside (start end_ : Nat) : Nat → Option Nat → Option Bool
  | 0, _ => none
  | _ + 1, none => some true
  | fuel + 1, some tmp =>
    if heap.start tmp < start ∨ heap.end_ tmp > end_ then some false
    else childrenInside start end_ fuel (heap.sibling tmp)

/-- The end of the resource before `res`, if there is one, is not before `start`. -/
def previousOverlaps (parent res start : Nat) : Option Bool := do
  let tmp ← heap.child parent
  if tmp ≠ res then do
    let tmp ← findPrevious heap res fuel tmp
    some (start ≤ heap.end_ tmp)
  else some false

/-- `adjust_resource(res, start, size)`. -/
def adjustResource (res start size : Nat) : Option (Int × Heap) := do
  let parent ← heap.parent res
  let end_ := regionEnd width start size
  if start < heap.start parent ∨ end_ > heap.end_ parent then some (-ebusy, heap)
  else if (← childrenInside heap start end_ fuel (heap.child res)) = false then some (-ebusy, heap)
  else if ∃ sibling ∈ heap.sibling res, heap.start sibling ≤ end_ then some (-ebusy, heap)
  else if (← previousOverlaps fuel heap parent res start) = true then some (-ebusy, heap)
  else some (0, { heap with start := update heap.start res start, end_ := update heap.end_ res end_ })

/-! ### Reserving what is free -/

/-- `__reserve_region_with_split(root, start, end, name)`. The list `free` has the descriptors that
  `kzalloc` may return, the next one first; what `kfree` takes back is as it was before. -/
def reserveRegionWithSplit (root : Nat) : Nat → Heap → List Nat → Nat → Nat → Option (Heap × List Nat)
  | 0, _, _, _, _ => none
  | _ + 1, heap, [], _, _ => some (heap, [])
  | fuel + 1, heap, res :: free, start, end_ => do
      let (conflict, heap') ← requestResourceNolock fuel (heap.init res start end_ ioresourceBusy) root res
      match conflict with
      | none => some (heap', free)
      | some conflict =>
        if heap.start conflict ≤ start ∧ heap.end_ conflict ≥ end_ then some (heap, res :: free)
        else do
          let before := if heap.start conflict > start then
              reserveRegionWithSplit root fuel heap (res :: free) start (heap.start conflict - 1)
            else some (heap, res :: free)
          let (heap₁, free₁) ← before
          if heap₁.end_ conflict < end_ then
            reserveRegionWithSplit root fuel heap₁ free₁ (heap₁.end_ conflict + 1) end_
          else some (heap₁, free₁)

/-! ### Regions -/

/-- The loop of `__request_region`; `before` is the heap without the new resource. -/
def regionLoop (before heap : Heap) (res : Nat) : Nat → Nat → Option (Option Nat × Heap)
  | 0, _ => none
  | turns + 1, parent => do
      let (conflict, heap') ← requestResourceNolock fuel heap parent res
      match conflict with
      | none => some (some res, heap')
      | some conflict =>
        if conflict ≠ parent ∧ !heap.busy conflict then regionLoop before heap res turns conflict
        else some (none, before)

/-- `__request_region(parent, start, n, name, flags)`, where `res` is what `kzalloc` returns. -/
def requestRegion (parent res start n flags : Nat) : Option (Option Nat × Heap) :=
  regionLoop fuel heap (heap.init res start (regionEnd width start n) (ioresourceBusy ||| flags))
    res fuel parent

/-- The loop of `__release_region`: whether a resource was released. -/
def releaseRegionLoop (start end_ : Nat) : Nat → Slot → Option (Bool × Heap)
  | 0, _ => none
  | fuel + 1, p =>
    match heap.read p with
    | none => some (false, heap)
    | some res =>
      if heap.start res ≤ start ∧ heap.end_ res ≥ end_ then
        if !heap.busy res then releaseRegionLoop start end_ fuel (.child res)
        else if heap.start res ≠ start ∨ heap.end_ res ≠ end_ then some (false, heap)
        else some (true, heap.write p (heap.sibling res))
      else releaseRegionLoop start end_ fuel (.sibling res)

/-- `__release_region(parent, start, n)`. -/
def releaseRegion (parent start n : Nat) : Option (Bool × Heap) :=
  releaseRegionLoop heap start (regionEnd width start n) fuel (.child parent)

/-! ### The calls -/

/-- The calls, and the set-up of a descriptor by a caller. -/
inductive Action where
  | init (res start end_ flags : Nat)
  | requestResource (root new : Nat)
  | insertResource (parent new : Nat)
  | releaseResource (old : Nat)
  | adjustResource (res start size : Nat)
  | requestRegion (parent res start n flags : Nat)
  | releaseRegion (parent start n : Nat)
deriving DecidableEq, Repr

/-- One call: whether it succeeds, and the heap. -/
def call : Action → Option (Bool × Heap)
  | .init res start end_ flags => some (true, heap.init res start end_ flags)
  | .requestResource root new => do
      let (conflict, heap') ← requestResourceNolock fuel heap root new
      some (conflict.isNone, heap')
  | .insertResource parent new => do
      let (conflict, heap') ← insertResourceNolock fuel heap parent new
      some (conflict.isNone, heap')
  | .releaseResource old => do
      let (retval, heap') ← releaseResourceNolock fuel heap old
      some (retval = 0, heap')
  | .adjustResource res start size => do
      let (result, heap') ← LinuxKernel.Kernel.ResourceTree.adjustResource fuel width heap res start size
      some (result = 0, heap')
  | .requestRegion parent res start n flags => do
      let (region, heap') ← LinuxKernel.Kernel.ResourceTree.requestRegion fuel width heap parent
        res start n flags
      some (region.isSome, heap')
  | .releaseRegion parent start n =>
    LinuxKernel.Kernel.ResourceTree.releaseRegion fuel width heap parent start n

open Function List

variable {heap heap' : Heap} {ptr mid last value : Option Nat} {l l' pre post run : List Nat}
  {n c p new old root : Nat}

/-! ### Sibling lists -/

/-- The nodes of the list are linked by `sibling`, from one pointer to another. -/
def Segment (heap : Heap) : Option Nat → List Nat → Option Nat → Prop
  | ptr, [], last => ptr = last
  | ptr, c :: l, last => ptr = some c ∧ Segment heap (heap.sibling c) l last

theorem segment_append : Segment heap ptr (l ++ l') last ↔ ∃ mid, Segment heap ptr l mid ∧
    Segment heap mid l' last := by
  induction l generalizing ptr with
  | nil => exact ⟨fun segment => ⟨ptr, rfl, segment⟩, fun ⟨_, same, segment⟩ => same ▸ segment⟩
  | cons c l ih =>
    rw [cons_append, Segment, ih]
    constructor
    · rintro ⟨head, mid, first, second⟩
      exact ⟨mid, ⟨head, first⟩, second⟩
    · rintro ⟨mid, ⟨head, first⟩, second⟩
      exact ⟨head, mid, first, second⟩

theorem Segment.frame (segment : Segment heap ptr l last) (same : ∀ c ∈ l, heap'.sibling c = heap.sibling c) :
    Segment heap' ptr l last := by
  induction l generalizing ptr with
  | nil => exact segment
  | cons c l ih =>
    refine ⟨segment.1, ?_⟩
    rw [same c mem_cons_self]
    exact ih segment.2 fun c mem => same c (mem_cons_of_mem _ mem)

theorem Segment.unique (first : Segment heap ptr l none) (second : Segment heap ptr l' none) : l = l' := by
  induction l generalizing ptr l' with
  | nil =>
    cases l' with
    | nil => rfl
    | cons c l' => exact absurd (first.symm.trans second.1) nofun
  | cons c l ih =>
    cases l' with
    | nil => exact absurd (second.symm.trans first.1) nofun
    | cons c' l' =>
      obtain rfl := Option.some.inj (first.1.symm.trans second.1)
      rw [ih first.2 second.2]

theorem Segment.head (segment : Segment heap ptr l none) : ptr = l.head? := by
  cases l with
  | nil => exact segment
  | cons c l => exact segment.1

/-- The pointer to the place behind the nodes `pre` of the list of children of `p`. -/
def slotAfter (p : Nat) (pre : List Nat) : Slot :=
  match pre.getLast? with
  | none => .child p
  | some q => .sibling q

@[simp]
theorem slotAfter_nil : slotAfter p [] = .child p := rfl

@[simp]
theorem slotAfter_concat : slotAfter p (pre ++ [c]) = .sibling c := by
  rw [slotAfter, getLast?_concat]

theorem Segment.read (segment : Segment heap (heap.child p) pre mid) : heap.read (slotAfter p pre) = mid := by
  rcases eq_nil_or_concat' pre with rfl | ⟨pre', q, rfl⟩
  · exact segment
  · obtain ⟨_, -, -, last⟩ := segment_append.mp segment
    rw [slotAfter_concat]
    exact last

@[simp]
theorem write_start (slot : Slot) : (heap.write slot value).start = heap.start := by cases slot <;> rfl

@[simp]
theorem write_end (slot : Slot) : (heap.write slot value).end_ = heap.end_ := by cases slot <;> rfl

@[simp]
theorem write_flags (slot : Slot) : (heap.write slot value).flags = heap.flags := by cases slot <;> rfl

@[simp]
theorem write_parent (slot : Slot) : (heap.write slot value).parent = heap.parent := by cases slot <;> rfl

theorem write_child (other : n ≠ p) : (heap.write (slotAfter p pre) value).child n = heap.child n := by
  rcases eq_nil_or_concat' pre with rfl | ⟨pre', q, rfl⟩
  · exact update_of_ne other _ _
  · rw [slotAfter_concat]
    rfl

theorem write_sibling (other : c ∉ pre) :
    (heap.write (slotAfter p pre) value).sibling c = heap.sibling c := by
  rcases eq_nil_or_concat' pre with rfl | ⟨pre', q, rfl⟩
  · rfl
  · rw [slotAfter_concat]
    exact update_of_ne (fun same => other (by simp [same])) _ _

/-- A write behind `pre` makes the list go on at the new value. -/
theorem Segment.write (segment : Segment heap (heap.child p) pre mid) (distinct : pre.Nodup) :
    Segment (heap.write (slotAfter p pre) value)
      ((heap.write (slotAfter p pre) value).child p) pre value := by
  rcases eq_nil_or_concat' pre with rfl | ⟨pre', q, rfl⟩
  · exact update_self _ _ _
  · obtain ⟨mid', first, second⟩ := segment_append.mp segment
    have fresh : q ∉ pre' := fun mem => (nodup_append.mp distinct).2.2 q mem q mem_cons_self rfl
    rw [slotAfter_concat]
    refine segment_append.mpr ⟨mid', first.frame fun c mem => ?_, second.1, ?_⟩
    · have other : c ≠ q := fun same => fresh (same ▸ mem)
      exact update_of_ne other _ _
    · exact update_self _ _ _

/-! ### Trees -/

/-- The node is in the list of children. -/
def ChildOf (heap : Heap) (n c : Nat) : Prop := ∃ l, Segment heap (heap.child n) l none ∧ c ∈ l

/-- The node is in the tree below `top`. -/
inductive InTree (heap : Heap) (top : Nat) : Nat → Prop
  | top : InTree heap top top
  | child {n c : Nat} (above : InTree heap top n) (child : ChildOf heap n c) : InTree heap top c

/-- The parent pointer of a child, and its range inside the range of its parent. -/
structure Under (heap : Heap) (n c : Nat) : Prop where
  parent : heap.parent c = some n
  low : heap.start n ≤ heap.start c
  nonempty : heap.start c ≤ heap.end_ c
  high : heap.end_ c ≤ heap.end_ n

/-- A finite tree of resources: its nodes, their children, and a rank that grows downwards. -/
structure Shape (heap : Heap) (top : Nat) (nodes : Set Nat) (kids : Nat → List Nat) (rank : Nat → Nat)
    (bound : Nat) : Prop where
  top_mem : top ∈ nodes
  chain : ∀ n ∈ nodes, Segment heap (heap.child n) (kids n) none
  mem : ∀ n ∈ nodes, ∀ c ∈ kids n, c ∈ nodes ∧ c ≠ top
  under : ∀ n ∈ nodes, ∀ c ∈ kids n, Under heap n c
  deeper : ∀ n ∈ nodes, ∀ c ∈ kids n, rank n < rank c
  sorted : ∀ n ∈ nodes, (kids n).Pairwise fun a b => heap.end_ a < heap.start b
  bounded : ∀ n ∈ nodes, rank n ≤ bound

variable {top : Nat} {nodes nodes' : Set Nat} {kids kids' : Nat → List Nat} {rank rank' : Nat → Nat}
  {bound bound' : Nat}

variable (shape : Shape heap top nodes kids rank bound)

include shape

theorem Shape.childOf_iff (node : n ∈ nodes) : ChildOf heap n c ↔ c ∈ kids n := by
  constructor
  · rintro ⟨l, segment, mem⟩
    rwa [segment.unique (shape.chain n node)] at mem
  · exact fun mem => ⟨kids n, shape.chain n node, mem⟩

theorem Shape.reach (inTree : InTree heap top n) : n ∈ nodes := by
  induction inTree with
  | top => exact shape.top_mem
  | child _ child ih =>
    exact (shape.mem _ ih _ ((shape.childOf_iff ih).mp child)).1

/-- The nodes of a tree may be taken to be those that are reached from its top. -/
theorem Shape.canonical : Shape heap top {n | InTree heap top n} kids rank bound where
  top_mem := .top
  chain n node := shape.chain n (shape.reach node)
  mem n node c member :=
    ⟨.child node ((shape.childOf_iff (shape.reach node)).mpr member),
      (shape.mem n (shape.reach node) c member).2⟩
  under n node := shape.under n (shape.reach node)
  deeper n node := shape.deeper n (shape.reach node)
  sorted n node := shape.sorted n (shape.reach node)
  bounded n node := shape.bounded n (shape.reach node)

/-- Two nodes do not share a child. -/
theorem Shape.kids_apart {m : Nat} (first : n ∈ nodes) (second : m ∈ nodes)
    (inFirst : c ∈ kids n) (inSecond : c ∈ kids m) : n = m :=
  Option.some.inj ((shape.under n first c inFirst).parent.symm.trans (shape.under m second c inSecond).parent)

theorem Shape.nodup (node : n ∈ nodes) : (kids n).Nodup := by
  refine (List.Pairwise.and_mem.mp (shape.sorted n node)).imp fun ⟨first, _, before⟩ same => ?_
  subst same
  have := (shape.under n node _ first).nonempty
  omega

/-- Only the fields of the nodes of the tree matter. -/
theorem Shape.frame
    (same : ∀ n ∈ nodes, heap'.start n = heap.start n ∧ heap'.end_ n = heap.end_ n ∧
      heap'.parent n = heap.parent n ∧
      heap'.child n = heap.child n ∧ heap'.sibling n = heap.sibling n) :
    Shape heap' top nodes kids rank bound where
  top_mem := shape.top_mem
  chain n node := by
    rw [(same n node).2.2.2.1]
    exact (shape.chain n node).frame fun c member => (same c (shape.mem n node c member).1).2.2.2.2
  mem := shape.mem
  under n node c member := by
    obtain ⟨parent, low, nonempty, high⟩ := shape.under n node c member
    obtain ⟨start, end_, -, -, -⟩ := same n node
    obtain ⟨start', end', parent', -, -⟩ := same c (shape.mem n node c member).1
    exact ⟨parent'.trans parent, by omega, by omega, by omega⟩
  deeper := shape.deeper
  sorted n node := by
    refine (List.Pairwise.and_mem.mp (shape.sorted n node)).imp fun {a b} ⟨first, second, before⟩ => ?_
    rw [(same a (shape.mem n node a first).1).2.1, (same b (shape.mem n node b second).1).1]
    exact before
  bounded := shape.bounded

omit shape

theorem Shape.single (leaf : heap.child new = none) : Shape heap new {new} (fun _ => []) (fun _ => 0) 0 where
  top_mem := rfl
  chain n node := by
    rw [Set.mem_singleton_iff.mp node]
    exact leaf
  mem _ _ _ member := absurd member not_mem_nil
  under _ _ _ member := absurd member not_mem_nil
  deeper _ _ _ member := absurd member not_mem_nil
  sorted _ _ := .nil
  bounded _ _ := Nat.le_refl _

/-- The nodes below `top` make a finite tree that is in order. -/
def Sound (heap : Heap) (top : Nat) : Prop := ∃ nodes kids rank bound, Shape heap top nodes kids rank bound

/-! ### A new child -/

/-- The range of a resource is not empty and lies inside another. -/
def Fits (heap : Heap) (p new : Nat) : Prop :=
  heap.start new ≤ heap.end_ new ∧ heap.start p ≤ heap.start new ∧ heap.end_ new ≤ heap.end_ p

/-- A node with nodes below it comes between two children of `p`, perhaps in the place of some: what is to
  be shown of the heap for the tree to stay in order. -/
theorem Shape.insertion (inner : Set Nat) (lists : Nat → List Nat) (rank' : Nat → Nat) (bound' : Nat)
    (shape : Shape heap top nodes kids rank bound) (node : p ∈ nodes) (sub : (pre ++ post).Sublist (kids p))
    (fits : Fits heap p new) (before : ∀ c ∈ pre, heap.end_ c < heap.start new)
    (after : ∀ c ∈ post, heap.end_ new < heap.start c) (startEq : heap'.start = heap.start)
    (endEq : heap'.end_ = heap.end_) (chain : Segment heap' (heap'.child p) (pre ++ new :: post) none)
    (parentNew : heap'.parent new = some p) (parentOld : ∀ c ∈ pre ++ post, heap'.parent c = heap.parent c)
    (outer : ∀ n ∈ nodes, n ≠ p → heap'.child n = heap.child n ∧
      ∀ c ∈ kids n, heap'.sibling c = heap.sibling c ∧ heap'.parent c = heap.parent c)
    (newInner : new ∈ inner) (apart : ∀ n ∈ nodes, n ∉ inner)
    (below : ∀ n ∈ inner, Segment heap' (heap'.child n) (lists n) none ∧ rank' n ≤ bound' ∧
      ((lists n).Pairwise fun a b => heap.end_ a < heap.start b) ∧
      ∀ c ∈ lists n, c ∈ nodes ∪ inner ∧ c ≠ top ∧ Under heap' n c ∧ rank' n < rank' c)
    (ranks : ∀ n ∈ nodes, rank' n ≤ bound' ∧ ∀ c ∈ kids n, rank' n < rank' c)
    (rankNew : rank' p < rank' new) :
    ∃ all, Shape heap' top (nodes ∪ inner) all rank' bound' ∧ all p = pre ++ new :: post ∧
      (∀ n ∈ inner, all n = lists n) ∧ ∀ n ∈ nodes, n ≠ p → all n = kids n := by
  classical
  obtain ⟨all, atP, atInner, atOuter⟩ : ∃ all : Nat → List Nat, all p = pre ++ new :: post ∧
      (∀ n ∈ inner, all n = lists n) ∧ ∀ n ∈ nodes, n ≠ p → all n = kids n := by
    refine ⟨fun n => if n = p then pre ++ new :: post else if n ∈ inner then lists n else kids n, if_pos rfl,
      fun n inside => ?_, fun n outside old => ?_⟩
    · have old : n ≠ p := fun same => apart p node (same ▸ inside)
      exact (if_neg old).trans (if_pos inside)
    · exact (if_neg old).trans (if_neg (apart n outside))
  have three (n : Nat) (mem : n ∈ nodes ∪ inner) : n = p ∨ (n ∈ nodes ∧ n ≠ p) ∨ n ∈ inner := by
    rcases mem with outside | inside
    · by_cases same : n = p
      · exact .inl same
      · exact .inr (.inl ⟨outside, same⟩)
    · exact .inr (.inr inside)
  have kept (n c : Nat) (node : n ∈ nodes) (kid : c ∈ kids n) (same : heap'.parent c = heap.parent c) :
      c ∈ nodes ∪ inner ∧ c ≠ top ∧ Under heap' n c ∧ rank' n < rank' c := by
    obtain ⟨inside, notTop⟩ := shape.mem n node c kid
    obtain ⟨parent, low, nonempty, high⟩ := shape.under n node c kid
    exact ⟨.inl inside, notTop,
      ⟨same.trans parent, by rwa [startEq], by rwa [startEq, endEq], by rwa [endEq]⟩,
      (ranks n node).2 c kid⟩
  have kidOf (n : Nat) (mem : n ∈ nodes ∪ inner) (c : Nat) (kid : c ∈ all n) :
      c ∈ nodes ∪ inner ∧ c ≠ top ∧ Under heap' n c ∧ rank' n < rank' c := by
    rcases three n mem with rfl | ⟨outside, old⟩ | inside
    · have own : c = new ∨ c ∈ pre ++ post := by
        rw [atP] at kid
        simp only [mem_append, mem_cons] at kid ⊢
        tauto
      rcases own with rfl | old
      · obtain ⟨nonempty, low, high⟩ := fits
        exact ⟨.inr newInner, fun same => apart c (same ▸ shape.top_mem) newInner,
          ⟨parentNew, by rwa [startEq], by rwa [startEq, endEq], by rwa [endEq]⟩, rankNew⟩
      · exact kept n c node (sub.subset old) (parentOld c old)
    · rw [atOuter n outside old] at kid
      exact kept n c outside kid ((outer n outside old).2 c kid).2
    · rw [atInner n inside] at kid
      exact (below n inside).2.2.2 c kid
  refine ⟨all, ⟨.inl shape.top_mem, ?_, fun n mem c kid => ?_, fun n mem c kid => (kidOf n mem c kid).2.2.1,
    fun n mem c kid => (kidOf n mem c kid).2.2.2, ?_, ?_⟩, atP, atInner, atOuter⟩
  · intro n mem
    rcases three n mem with rfl | ⟨outside, old⟩ | inside
    · rwa [atP]
    · rw [atOuter n outside old, (outer n outside old).1]
      exact (shape.chain n outside).frame fun c kid => ((outer n outside old).2 c kid).1
    · rw [atInner n inside]
      exact (below n inside).1
  · obtain ⟨inside, notTop, -⟩ := kidOf n mem c kid
    exact ⟨inside, notTop⟩
  · intro n mem
    rw [startEq, endEq]
    rcases three n mem with rfl | ⟨outside, old⟩ | inside
    · rw [atP]
      obtain ⟨early, late, cross⟩ := pairwise_append.mp ((shape.sorted n node).sublist sub)
      refine pairwise_append.mpr ⟨early, pairwise_cons.mpr ⟨after, late⟩, fun a inPre b rest => ?_⟩
      rcases mem_cons.mp rest with rfl | inPost
      · exact before a inPre
      · exact cross a inPre b inPost
    · rw [atOuter n outside old]
      exact shape.sorted n outside
    · rw [atInner n inside]
      exact (below n inside).2.2.1
  · intro n mem
    rcases mem with outside | inside
    · exact (ranks n outside).1
    · exact (below n inside).2.1

/-! ### Attaching a node in a gap -/

/-- The heap after the writes of `__request_resource`. -/
def attached (heap : Heap) (p : Nat) (pre post : List Nat) (new : Nat) : Heap :=
  let heap' := { heap with sibling := update heap.sibling new post.head? }.write (slotAfter p pre) (some new)
  { heap' with parent := update heap'.parent new (some p) }

theorem attached_sibling (fresh : new ∉ pre) : (attached heap p pre post new).sibling new = post.head? :=
  (write_sibling fresh).trans (update_self _ _ _)

theorem attached_sibling_of_ne (other : c ≠ new) (outside : c ∉ pre) :
    (attached heap p pre post new).sibling c = heap.sibling c :=
  (write_sibling outside).trans (update_of_ne other _ _)

theorem attached_parent : (attached heap p pre post new).parent = update heap.parent new (some p) := by
  unfold attached
  simp

theorem attached_chain (segment : Segment heap (heap.child p) (pre ++ post) none)
    (distinct : (pre ++ post).Nodup)
    (fresh : new ∉ pre ++ post) :
    Segment (attached heap p pre post new) ((attached heap p pre post new).child p)
      (pre ++ new :: post) none := by
  obtain ⟨mid, first, second⟩ := segment_append.mp segment
  obtain ⟨distinctPre, -, apart⟩ := nodup_append.mp distinct
  have freshPre : new ∉ pre := fun mem => fresh (mem_append_left _ mem)
  have ends : mid = post.head? := second.head
  have kept : Segment { heap with sibling := update heap.sibling new post.head? } (heap.child p) pre mid := by
    refine first.frame fun c mem => ?_
    have other : c ≠ new := fun same => freshPre (same ▸ mem)
    exact update_of_ne other _ _
  refine segment_append.mpr ⟨some new, (kept.write distinctPre).frame fun _ _ => rfl, rfl, ?_⟩
  rw [attached_sibling freshPre, ← ends]
  refine second.frame fun c mem => attached_sibling_of_ne ?_ fun early => apart c early c mem rfl
  rintro rfl
  exact fresh (mem_append_right _ mem)

include shape

theorem Shape.attach (other : Shape heap new nodes' kids' rank' bound')
    (apart : ∀ n ∈ nodes, n ∉ nodes') (node : p ∈ nodes) (split : kids p = pre ++ post)
    (fits : Fits heap p new)
    (before : ∀ c ∈ pre, heap.end_ c < heap.start new) (after : ∀ c ∈ post, heap.end_ new < heap.start c) :
    ∃ all rank bound, Shape (attached heap p pre post new) top (nodes ∪ nodes') all rank bound ∧
      all p = pre ++ new :: post ∧ (∀ n ∈ nodes', all n = kids' n) ∧ ∀ n ∈ nodes, n ≠ p → all n = kids n := by
  classical
  have old (n : Nat) (node : n ∈ nodes) (c : Nat) (kid : c ∈ kids n) : c ≠ new := fun same =>
    apart new (same ▸ (shape.mem n node c kid).1) other.top_mem
  have ofPre (c : Nat) (mem : c ∈ pre) : c ∈ kids p := by
    rw [split]
    exact mem_append_left _ mem
  have startEq : (attached heap p pre post new).start = heap.start := write_start _
  have endEq : (attached heap p pre post new).end_ = heap.end_ := write_end _
  have parentOld (c : Nat) (old : c ≠ new) : (attached heap p pre post new).parent c = heap.parent c := by
    rw [attached_parent, update_of_ne old]
  have childOld (n : Nat) (old : n ≠ p) : (attached heap p pre post new).child n = heap.child n :=
    write_child old
  refine (shape.insertion nodes' kids' (fun n => if n ∈ nodes' then rank' n + rank p + 1 else rank n)
    (bound + bound' + 1) node (split ▸ List.Sublist.refl _) fits before after startEq endEq
    (attached_chain (split ▸ shape.chain p node) (split ▸ shape.nodup node) ?_) ?_ (fun c mem => ?_)
    (fun n outer notP => ⟨childOld n notP, fun c kid => ⟨?_, parentOld c (old n outer c kid)⟩⟩)
      other.top_mem apart
    (fun n inner => ?_) (fun n outer => ?_) ?_).imp fun _ found => ⟨_, _, found⟩
  · rw [← split]
    exact fun mem => old p node new mem rfl
  · rw [attached_parent, update_self]
  · exact parentOld c (old p node c (split ▸ mem))
  · refine attached_sibling_of_ne (old n outer c kid) fun early => ?_
    exact notP (shape.kids_apart outer node kid (ofPre c early))
  · have notP : n ≠ p := fun same => apart p node (same ▸ inner)
    have bounded := other.bounded n inner
    have boundedP := shape.bounded p node
    rw [childOld n notP, if_pos inner]
    refine ⟨(other.chain n inner).frame fun c kid => ?_, by omega, other.sorted n inner, fun c kid => ?_⟩
    · refine attached_sibling_of_ne (other.mem n inner c kid).2 fun early => ?_
      exact apart c (shape.mem p node c (ofPre c early)).1 (other.mem n inner c kid).1
    · obtain ⟨inside, notNew⟩ := other.mem n inner c kid
      obtain ⟨parent, low, nonempty, high⟩ := other.under n inner c kid
      have deeper := other.deeper n inner c kid
      refine ⟨.inr inside, fun same => apart c (same ▸ shape.top_mem) inside,
        ⟨(parentOld c notNew).trans parent,
        by rwa [startEq], by rwa [startEq, endEq], by rwa [endEq]⟩, ?_⟩
      rw [if_pos inside]
      omega
  · have bounded := shape.bounded n outer
    rw [if_neg (apart n outer)]
    refine ⟨by omega, fun c kid => ?_⟩
    rw [if_neg (apart c (shape.mem n outer c kid).1)]
    exact shape.deeper n outer c kid
  · rw [if_neg (apart p node), if_pos other.top_mem]
    omega

/-! ### Unlinking a node -/

theorem Shape.unlink (node : p ∈ nodes)
    (split : kids p = pre ++ old :: post) (startEq : heap'.start = heap.start)
    (endEq : heap'.end_ = heap.end_)
    (childEq : heap'.child = (heap.write (slotAfter p pre) (heap.sibling old)).child)
    (siblingEq : heap'.sibling = (heap.write (slotAfter p pre) (heap.sibling old)).sibling)
    (parentEq : ∀ c ≠ old, heap'.parent c = heap.parent c) : Sound heap' top := by
  have distinct := shape.nodup node
  have segment := shape.chain p node
  rw [split] at distinct segment
  obtain ⟨mid, first, rfl, second⟩ := segment_append.mp segment
  obtain ⟨distinctPre, distinctRest, apart⟩ := nodup_append.mp distinct
  obtain ⟨lists, atP, atOther⟩ :
      ∃ lists : Nat → List Nat, lists p = pre ++ post ∧ ∀ n ≠ p, lists n = kids n :=
    ⟨update kids p (pre ++ post), update_self _ _ _, fun n other => update_of_ne other _ _⟩
  have sub (n : Nat) : (lists n).Sublist (kids n) := by
    by_cases same : n = p
    · rw [same, atP, split]
      exact (sublist_cons_self _ _).append_left _
    · rw [atOther n same]
  have stays (n c : Nat) (mem : n ∈ nodes) (kid : c ∈ lists n) : c ≠ old := by
    rintro rfl
    by_cases same : n = p
    · rw [same, atP] at kid
      rcases mem_append.mp kid with early | late
      · exact apart c early c mem_cons_self rfl
      · exact (nodup_cons.mp distinctRest).1 late
    · rw [atOther n same] at kid
      exact same (shape.kids_apart mem node kid (by rw [split]; simp))
  refine ⟨nodes, lists, rank, bound, shape.top_mem, fun n mem => ?_, fun n mem c kid => ?_,
    fun n mem c kid => ?_, fun n mem c kid => ?_, fun n mem => ?_, shape.bounded⟩
  · refine Segment.frame ?_ fun c _ => congrFun siblingEq c
    rw [childEq]
    by_cases same : n = p
    · subst same
      rw [atP]
      refine segment_append.mpr ⟨_, first.write distinctPre, second.frame fun c late =>
        write_sibling fun early => ?_⟩
      exact apart c early c (mem_cons_of_mem _ late) rfl
    · rw [atOther n same, write_child same]
      refine (shape.chain n mem).frame fun c kid => write_sibling fun early => ?_
      exact same (shape.kids_apart mem node kid (split ▸ mem_append_left _ early))
  · exact shape.mem n mem c ((sub n).subset kid)
  · obtain ⟨parent, low, nonempty, high⟩ := shape.under n mem c ((sub n).subset kid)
    exact ⟨(parentEq c (stays n c mem kid)).trans
      parent, by rwa [startEq], by rwa [startEq, endEq], by rwa [endEq]⟩
  · exact shape.deeper n mem c ((sub n).subset kid)
  · rw [startEq, endEq]
    exact (shape.sorted n mem).sublist (sub n)

/-! ### Changing a range -/

theorem Shape.resize {res start end_ : Nat} (node : p ∈ nodes)
    (split : kids p = pre ++ res :: post) (low : heap.start p ≤ start) (nonempty : start ≤ end_)
    (high : end_ ≤ heap.end_ p) (before : ∀ c ∈ pre, heap.end_ c < start)
    (after : ∀ c ∈ post, end_ < heap.start c)
    (inside : ∀ c ∈ kids res, start ≤ heap.start c ∧ heap.end_ c ≤ end_) :
    Sound { heap with start := update heap.start res start, end_ := update heap.end_ res end_ } top := by
  have resKid : res ∈ kids p := by rw [split]; simp
  have startOld (c : Nat) (old : c ≠ res) :
    update heap.start res start c = heap.start c := update_of_ne old _ _
  have endOld (c : Nat) (old : c ≠ res) : update heap.end_ res end_ c = heap.end_ c := update_of_ne old _ _
  refine ⟨nodes, kids, rank, bound, shape.top_mem, fun n mem => ?_, shape.mem, fun n mem c kid => ?_,
    shape.deeper, fun n mem => ?_, shape.bounded⟩
  · exact (shape.chain n mem).frame fun _ _ => rfl
  · have under := shape.under n mem c kid
    have deeper := shape.deeper n mem c kid
    have ranges : update heap.start res start n ≤ update heap.start res start c ∧
        update heap.start res start c ≤ update heap.end_ res end_ c ∧
        update heap.end_ res end_ c ≤ update heap.end_ res end_ n := by
      by_cases own : c = res
      · subst own
        obtain rfl := shape.kids_apart mem node kid resKid
        have other : n ≠ c := by
          rintro rfl
          exact Nat.lt_irrefl _ deeper
        rw [startOld n other, endOld n other, update_self, update_self]
        exact ⟨low, nonempty, high⟩
      · rw [startOld c own, endOld c own]
        by_cases parent : n = res
        · subst parent
          rw [update_self, update_self]
          exact ⟨(inside c kid).1, under.nonempty, (inside c kid).2⟩
        · rw [startOld n parent, endOld n parent]
          exact ⟨under.low, under.nonempty, under.high⟩
    exact ⟨under.parent, ranges.1, ranges.2.1, ranges.2.2⟩
  · have sorted := shape.sorted n mem
    have distinct := shape.nodup mem
    have kept (l : List Nat) (foreign : ∀ c ∈ l, c ≠ res) (sorted : l.Pairwise fun a b =>
      heap.end_ a < heap.start b) :
        l.Pairwise fun a b => update heap.end_ res end_ a < update heap.start res start b := by
      refine (List.Pairwise.and_mem.mp sorted).imp fun {a b} ⟨first, second, ordered⟩ => ?_
      rwa [endOld a (foreign a first), startOld b (foreign b second)]
    dsimp only
    by_cases same : n = p
    · subst same
      rw [split] at sorted distinct ⊢
      obtain ⟨early, rest, cross⟩ := pairwise_append.mp sorted
      obtain ⟨-, distinctRest, apart⟩ := nodup_append.mp distinct
      have oldPre (c : Nat) (mem : c ∈ pre) : c ≠ res := apart c mem res mem_cons_self
      have oldPost (c : Nat) (mem : c ∈ post) : c ≠ res := by
        rintro rfl
        exact (nodup_cons.mp distinctRest).1 mem
      refine pairwise_append.mpr ⟨kept pre oldPre early, pairwise_cons.mpr ⟨fun b inPost => ?_,
        kept post oldPost (pairwise_cons.mp rest).2⟩, fun a inPre b inRest => ?_⟩
      · rw [update_self, startOld b (oldPost b inPost)]
        exact after b inPost
      · rw [endOld a (oldPre a inPre)]
        rcases mem_cons.mp inRest with rfl | inPost
        · rw [update_self]
          exact before a inPre
        · rw [startOld b (oldPost b inPost)]
          exact cross a inPre b inRest
    · refine kept (kids n) (fun c kid own => ?_) sorted
      exact same (shape.kids_apart mem node kid (own ▸ resKid))

/-! ### Taking over a run of siblings -/

/-- The heap when the siblings `run`, which end with `last`, are cut off and `new` points to them. -/
def runCut (heap : Heap) (p : Nat) (run : List Nat) (last new : Nat) : Heap :=
  ({ heap with
    parent := update heap.parent new (some p)
    sibling := update heap.sibling new (heap.sibling last)
    child := update heap.child new run.head? } : Heap).write (.sibling last) none

/-- The heap when the nodes of `run` are the children of `new`. -/
def runMoved (heap : Heap) (p : Nat) (run : List Nat) (last new : Nat) : Heap :=
  { runCut heap p run last new with
    parent := fun c => if c ∈ run then some new else (runCut heap p run last new).parent c }

/-- The heap after all writes of `__insert_resource`. -/
def adopted (heap : Heap) (p : Nat) (pre run : List Nat) (last new : Nat) : Heap :=
  (runMoved heap p run last new).write (slotAfter p pre) (some new)

section Adopt

variable {run' : List Nat} {last' : Nat}

omit shape

theorem runMoved_sibling (notLast : c ≠ last') (old : c ≠ new) :
    (runMoved heap p run last' new).sibling c = heap.sibling c :=
  (update_of_ne notLast _ _).trans (update_of_ne old _ _)

theorem runMoved_child (old : n ≠ new) : (runMoved heap p run last' new).child n = heap.child n :=
  update_of_ne old _ _

theorem runMoved_chain (ends : run = run' ++ [last']) (segment : Segment heap run.head? run mid)
    (distinct : run.Nodup) (fresh : new ∉ run) :
    Segment (runMoved heap p run last' new) ((runMoved heap p run last' new).child new) run none := by
  subst ends
  obtain ⟨mid', first, second, -⟩ := segment_append.mp segment
  have other (c : Nat) (mem : c ∈ run') : c ≠ last' := fun same =>
    (nodup_append.mp distinct).2.2 c mem last' mem_cons_self same
  have child : (runMoved heap p (run' ++ [last']) last' new).child new = (run' ++ [last']).head? :=
    update_self _ _ _
  rw [child]
  refine segment_append.mpr ⟨mid', first.frame fun c mem => ?_, second, update_self _ _ _⟩
  exact runMoved_sibling (other c mem) fun same => fresh (same ▸ mem_append_left _ mem)

/-- The siblings before the run still lead to it. -/
theorem runMoved_before (run : List Nat) (segment : Segment heap (heap.child p) pre mid) (other : p ≠ new)
    (notLast : last' ∉ pre)
    (fresh : new ∉ pre) :
    Segment (runMoved heap p run last' new) ((runMoved heap p run last' new).child p) pre mid := by
  rw [runMoved_child other]
  refine segment.frame fun c mem => runMoved_sibling ?_ ?_
  · exact fun same => notLast (same ▸ mem)
  · exact fun same => fresh (same ▸ mem)

theorem adopted_chains (ends : run = run' ++ [last'])
    (segment : Segment heap (heap.child p) (pre ++ (run ++ post)) none)
    (distinct : (pre ++ (run ++ post)).Nodup) (fresh : new ∉ pre ++ (run ++ post))
    (other : p ≠ new) :
    let heap' := adopted heap p pre run last' new
    Segment heap' (heap'.child p) (pre ++ new :: post) none ∧
      Segment heap' (heap'.child new) run none := by
  obtain ⟨mid, inPre, rest⟩ := segment_append.mp segment
  obtain ⟨mid', inRun, inPost⟩ := segment_append.mp rest
  obtain ⟨-, -, -, lastSibling⟩ := segment_append.mp (ends ▸ inRun)
  obtain ⟨distinctPre, distinctRest, apart⟩ := nodup_append.mp distinct
  obtain ⟨distinctRun, -, apartPost⟩ := nodup_append.mp distinctRest
  have lastRun : last' ∈ run := by simp [ends]
  have ofRun (c : Nat) (mem : c ∈ run) : c ∈ run ++ post := mem_append_left _ mem
  have old (c : Nat) (mem : c ∈ pre ++ (run ++ post)) : c ≠ new := fun same => fresh (same ▸ mem)
  have notPre (c : Nat) (mem : c ∈ run ++ post) : c ∉ pre := fun early => apart c early c mem rfl
  have head : mid = run.head? := by
    rw [rest.head, ends]
    cases run' <;> rfl
  intro heap'
  constructor
  · have newPre : new ∉ pre := fun mem => old new (mem_append_left _ mem) rfl
    have kept := runMoved_before run inPre other (notPre last' (ofRun last' lastRun)) newPre
    refine segment_append.mpr ⟨some new, kept.write distinctPre, rfl, ?_⟩
    have lastNew : new ≠ last' := (old last' (mem_append_right _ (ofRun last' lastRun))).symm
    have sibling : heap'.sibling new = mid' :=
      (write_sibling newPre).trans ((update_of_ne lastNew _ _).trans ((update_self _ _ _).trans lastSibling))
    rw [sibling]
    refine inPost.frame fun c mem => ?_
    have notLast : c ≠ last' := fun same => apartPost last' lastRun c mem same.symm
    exact (write_sibling (notPre c (mem_append_right _ mem))).trans
      (runMoved_sibling notLast (old c (mem_append_right _ (mem_append_right _ mem))))
  · have child : heap'.child new =
        (runMoved heap p run last' new).child new := write_child other.symm
    rw [child]
    refine (runMoved_chain ends (head ▸ inRun) distinctRun fun mem => ?_).frame fun c mem =>
      write_sibling (notPre c (ofRun c mem))
    exact fresh (mem_append_right _ (ofRun new mem))

theorem Shape.adopt (shape : Shape heap top nodes kids rank bound) (node : p ∈ nodes) (fresh : new ∉ nodes)
    (ends : run = run' ++ [last']) (split : kids p = pre ++ (run ++ post)) (fits : Fits heap p new)
    (before : ∀ c ∈ pre, heap.end_ c < heap.start new) (after : ∀ c ∈ post, heap.end_ new < heap.start c)
    (inside : ∀ c ∈ run, heap.start new ≤ heap.start c ∧ heap.end_ c ≤ heap.end_ new) :
    Sound (adopted heap p pre run last' new) top := by
  let heap' := adopted heap p pre run last' new
  change Sound heap' top
  have other : p ≠ new := fun same => fresh (same ▸ node)
  have old (n : Nat) (node : n ∈ nodes) (c : Nat) (kid : c ∈ kids n) : c ≠ new := fun same =>
    fresh (same ▸ (shape.mem n node c kid).1)
  have startEq : heap'.start = heap.start := write_start _
  have endEq : heap'.end_ = heap.end_ := write_end _
  have parentEq (c : Nat) : heap'.parent c =
      if c ∈ run then some new else update heap.parent new (some p) c := congrFun (write_parent _) c
  have parentOld (c : Nat) (notRun : c ∉ run) (old : c ≠ new) :
      heap'.parent c = heap.parent c := by
    rw [parentEq, if_neg notRun, update_of_ne old]
  have distinct := shape.nodup node
  have sorted := shape.sorted p node
  have segment := shape.chain p node
  have oldP := old p node
  have memP := shape.mem p node
  have foreign (n c : Nat) (outer : n ∈ nodes) (notP : n ≠ p) (kid : c ∈ kids n) :
      c ∉ pre ++ (run ++ post) := fun inP => notP (shape.kids_apart outer node kid (split ▸ inP))
  have sub : (pre ++ post).Sublist (kids p) := by
    rw [split]
    exact (sublist_append_right _ _).append_left _
  rw [split] at distinct sorted segment oldP memP
  have runKid (c : Nat) (mem : c ∈ run) : c ∈ pre ++ (run ++ post) :=
    mem_append_right _ (mem_append_left _ mem)
  obtain ⟨chainP, chainNew⟩ := adopted_chains ends segment distinct (fun mem => oldP new mem rfl) other
  refine (shape.insertion {new} (fun _ => run) (fun n => if n = new then 2 * rank p + 1 else 2 * rank n)
    (2 * bound + 1) node sub fits before after startEq endEq chainP ?_ (fun c mem => ?_)
    (fun n outer notP => ⟨?_, fun c kid => ⟨?_, ?_⟩⟩) rfl (fun n outer inner => ?_) (fun n inner => ?_)
    (fun n outer => ?_) ?_).elim fun _ found => ⟨_, _, _, _, found.1⟩
  · rw [parentEq, if_neg fun mem => oldP new (runKid new mem) rfl, update_self]
  · refine parentOld c (fun inRun => ?_) (old p node c (sub.subset mem))
    obtain ⟨-, distinctRest, apart⟩ := nodup_append.mp distinct
    rcases mem_append.mp mem with early | late
    · exact apart c early c (mem_append_left _ inRun) rfl
    · exact (nodup_append.mp distinctRest).2.2 c inRun c late rfl
  · exact (write_child notP).trans (runMoved_child fun same => fresh (same ▸ outer))
  · have away := foreign n c outer notP kid
    have notLast : c ≠ last' := fun same => away (same ▸ runKid last' (by simp [ends]))
    exact (write_sibling fun early => away (mem_append_left _ early)).trans
      (runMoved_sibling notLast (old n outer c kid))
  · exact parentOld c (fun inRun => foreign n c outer notP kid (runKid c inRun)) (old n outer c kid)
  · exact fresh (Set.mem_singleton_iff.mp inner ▸ outer)
  · obtain rfl := Set.mem_singleton_iff.mp inner
    have bounded := shape.bounded p node
    rw [if_pos rfl]
    refine ⟨chainNew, by omega, (pairwise_append.mp (pairwise_append.mp sorted).2.1).1, fun c kid => ?_⟩
    obtain ⟨inTree, notTop⟩ := memP c (runKid c kid)
    have deeper := shape.deeper p node c (split ▸ runKid c kid)
    have nonempty := (shape.under p node c (split ▸ runKid c kid)).nonempty
    obtain ⟨low, high⟩ := inside c kid
    refine ⟨.inl inTree, notTop, ⟨?_, by rwa [startEq], by rwa [startEq, endEq], by rwa [endEq]⟩, ?_⟩
    · rw [parentEq, if_pos kid]
    · rw [if_neg (oldP c (runKid c kid))]
      omega
  · have notNew : n ≠ new := fun same => fresh (same ▸ outer)
    have bounded := shape.bounded n outer
    rw [if_neg notNew]
    refine ⟨by omega, fun c kid => ?_⟩
    have deeper := shape.deeper n outer c kid
    rw [if_neg (old n outer c kid)]
    omega
  · rw [if_neg other, if_pos rfl]
    omega

end Adopt

end LinuxKernel.Kernel.ResourceTree
