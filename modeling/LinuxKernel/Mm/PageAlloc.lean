/-
Module: LinuxKernel.Mm.PageAlloc
Purpose: The zone buddy allocator of `mm/page_alloc.c`, and the runs of its calls with the set of pages
  handed out. Both calls are sequences of two moves: taking one listed block off the lists, and listing one
  block whose buddy is not listed. The lists are thus the tiling of the free pages by maximal blocks.
Trusted boundary: human-reviewed spec
Main exports: freeOnePage, rmqueueSmallest, ZoneStep, ZoneExact, zoneRun_exact
-/
import LinuxKernel.Library.DyadicTiling
import LinuxKernel.Library.Runs

namespace LinuxKernel.Mm.PageAlloc

open Library (Run block)

/-- The migrate types, `MIGRATE_UNMOVABLE` to `MIGRATE_ISOLATE`. -/
inductive MigrateType where
  | unmovable
  | reclaimable
  | movable
  | reserve
  | isolate
deriving DecidableEq, Repr

instance : Fintype MigrateType where
  elems := {.unmovable, .reclaimable, .movable, .reserve, .isolate}
  complete := by
    intro migratetype
    cases migratetype <;> decide

/-- What the allocator reads of the memory map and never writes: `MAX_ORDER` of the configuration,
which page frames exist, and the node and zone each belongs to. -/
structure MemMap where
  maxOrder : Nat
  pfnValidWithin : Nat → Bool
  pageZoneId : Nat → Nat

/-- The part of `struct page` that the allocator uses: the flag `PG_buddy` and the field
`private`. -/
structure Page where
  buddy : Bool
  priv : Nat
deriving DecidableEq, Repr

/-- `struct zone`: the lists and counts of `free_area`, and the pages of the memory map. A page is
named by its page frame number. -/
structure Zone where
  zoneId : Nat
  freeList : Nat → MigrateType → List Nat
  nrFree : Nat → Int
  page : Nat → Page

namespace Zone

/-- `set_page_order(page, order)`. -/
def setPageOrder (zone : Zone) (page order : Nat) : Zone :=
  { zone with page := Function.update zone.page page ⟨true, order⟩ }

/-- `rmv_page_order(page)`. -/
def rmvPageOrder (zone : Zone) (page : Nat) : Zone :=
  { zone with page := Function.update zone.page page ⟨false, 0⟩ }

/-- `list_add(&page->lru, &zone->free_area[order].free_list[migratetype])`. -/
def listAdd (zone : Zone) (page order : Nat) (migratetype : MigrateType) : Zone :=
  { zone with
    freeList := fun o t =>
      if o = order ∧ t = migratetype then page :: zone.freeList o t else zone.freeList o t }

/-- `list_del(&page->lru)`, which takes the page off whichever list it is on. -/
def listDel (zone : Zone) (page : Nat) : Zone :=
  { zone with freeList := fun o t => (zone.freeList o t).erase page }

/-- `zone->free_area[order].nr_free += change`. -/
def addNrFree (zone : Zone) (order : Nat) (change : Int) : Zone :=
  { zone with nrFree := Function.update zone.nrFree order (zone.nrFree order + change) }

end Zone

/-! ### Freeing -/

/-- `__page_find_buddy(page, page_idx, order)`. -/
def pageFindBuddy (page pageIdx order : Nat) : Nat :=
  let buddyIdx := pageIdx ^^^ 2 ^ order
  page + buddyIdx - pageIdx

/-- `__find_combined_index(page_idx, order)`. -/
def findCombinedIndex (pageIdx order : Nat) : Nat := Nat.ldiff pageIdx (2 ^ order)

/-- `page_is_buddy(page, buddy, order)`. -/
def pageIsBuddy (map : MemMap) (zone : Zone) (page buddy order : Nat) : Bool :=
  if !map.pfnValidWithin buddy then false
  else if map.pageZoneId page ≠ map.pageZoneId buddy then false
  else (zone.page buddy).buddy && (zone.page buddy).priv == order

/-- The loop of `__free_one_page`, which has `remaining` orders to go up to `MAX_ORDER - 1`: the zone,
the page and the order it leaves. -/
def mergeBuddies (map : MemMap) : (remaining : Nat) → Zone → (page pageIdx order : Nat) →
    Zone × Nat × Nat
  | 0, zone, page, _, order => (zone, page, order)
  | remaining + 1, zone, page, pageIdx, order =>
    let buddy := pageFindBuddy page pageIdx order
    if !pageIsBuddy map zone page buddy order then (zone, page, order)
    else
      let merged := ((zone.listDel buddy).addNrFree order (-1)).rmvPageOrder buddy
      let combinedIdx := findCombinedIndex pageIdx order
      mergeBuddies map remaining merged (page + combinedIdx - pageIdx) combinedIdx (order + 1)

/-- `__free_one_page(page, zone, order, migratetype)`. -/
def freeOnePage (map : MemMap) (zone : Zone) (page order : Nat) (migratetype : MigrateType) : Zone :=
  let pageIdx := page % 2 ^ map.maxOrder
  let (merged, head, top) := mergeBuddies map (map.maxOrder - 1 - order) zone page pageIdx order
  ((merged.setPageOrder head top).listAdd head top migratetype).addNrFree top 1

/-! ### Allocating -/

/-- `expand(zone, page, low, high, area, migratetype)`; before and after each round `size` is
`1 << high` for the `high` of that moment. -/
def expand (zone : Zone) (page low : Nat) (migratetype : MigrateType) : (high : Nat) → Zone
  | 0 => zone
  | high + 1 =>
    if high + 1 > low then
      let size := 2 ^ high
      let split := ((zone.listAdd (page + size) high migratetype).addNrFree high 1).setPageOrder
        (page + size) high
      expand split page low migratetype high
    else zone

/-- The loop of `__rmqueue_smallest` from `currentOrder` on, with `remaining` orders to look at. -/
def rmqueueFrom (zone : Zone) (order : Nat) (migratetype : MigrateType) :
    (remaining currentOrder : Nat) → Zone × Option Nat
  | 0, _ => (zone, none)
  | remaining + 1, currentOrder =>
    match zone.freeList currentOrder migratetype with
    | [] => rmqueueFrom zone order migratetype remaining (currentOrder + 1)
    | page :: _ =>
      let taken := ((zone.listDel page).rmvPageOrder page).addNrFree currentOrder (-1)
      (expand taken page order migratetype currentOrder, some page)

/-- `__rmqueue_smallest(zone, order, migratetype)`. -/
def rmqueueSmallest (map : MemMap) (zone : Zone) (order : Nat) (migratetype : MigrateType) :
    Zone × Option Nat :=
  rmqueueFrom zone order migratetype (map.maxOrder - order) order

/-! ### Runs -/

/-- A zone and the pages of it that are handed out. -/
structure ZoneState where
  zone : Zone
  allocated : Set Nat

/-- The calls on a zone. -/
inductive ZoneAction where
  | rmqueueSmallest (order : Nat) (migratetype : MigrateType)
  | freeOnePage (page order : Nat) (migratetype : MigrateType)
deriving DecidableEq, Repr

/-- One call. Blocks are given back only when every page of them is handed out; the block need not be
one that a single call handed out. -/
inductive ZoneStep (map : MemMap) :
    ZoneState → ZoneAction → List (Option Nat) → ZoneState → Prop where
  | handOut {zone zone' : Zone} {allocated : Set Nat} {order page : Nat} {migratetype : MigrateType}
      (result : rmqueueSmallest map zone order migratetype = (zone', some page)) :
      ZoneStep map ⟨zone, allocated⟩ (.rmqueueSmallest order migratetype) [some page]
        ⟨zone', allocated ∪ block order page⟩
  | exhausted {zone zone' : Zone} {allocated : Set Nat} {order : Nat} {migratetype : MigrateType}
      (result : rmqueueSmallest map zone order migratetype = (zone', none)) :
      ZoneStep map ⟨zone, allocated⟩ (.rmqueueSmallest order migratetype) [none] ⟨zone', allocated⟩
  | giveBack {zone : Zone} {allocated : Set Nat} {page order : Nat} {migratetype : MigrateType}
      (bounded : order < map.maxOrder) (aligned : 2 ^ order ∣ page)
      (handedOut : block order page ⊆ allocated) :
      ZoneStep map ⟨zone, allocated⟩ (.freeOnePage page order migratetype) []
        ⟨freeOnePage map zone page order migratetype, allocated \ block order page⟩

/-- Runs of calls on one zone. -/
abbrev ZoneRun (map : MemMap) :
    ZoneState → List ZoneAction → List (Option Nat) → ZoneState → Prop :=
  Run (ZoneStep map)

/-- The page frame exists and belongs to the zone. -/
def InZone (map : MemMap) (zone : Zone) (page : Nat) : Prop :=
  map.pfnValidWithin page = true ∧ map.pageZoneId page = zone.zoneId

/-- The lists, counts and page flags of a zone describe exactly the pages that are not handed out, in
blocks that are coalesced as far as possible. -/
structure ZoneExact (map : MemMap) (zone : Zone) (allocated : Set Nat) : Prop where
  /-- A listed block has an order below `MAX_ORDER` and starts at a multiple of its size. -/
  aligned : ∀ {order migratetype page}, page ∈ zone.freeList order migratetype →
    order < map.maxOrder ∧ 2 ^ order ∣ page
  /-- No list has a block twice. -/
  nodup : ∀ order migratetype, (zone.freeList order migratetype).Nodup
  /-- Different entries of the lists are disjoint blocks. -/
  disjoint : ∀ {order migratetype page order' migratetype' page'},
    page ∈ zone.freeList order migratetype → page' ∈ zone.freeList order' migratetype' →
    (order, migratetype, page) ≠ (order', migratetype', page') →
    Disjoint (block order page) (block order' page')
  /-- A listed block has no page that is handed out. -/
  free : ∀ {order migratetype page}, page ∈ zone.freeList order migratetype →
    Disjoint (block order page) allocated
  /-- The pages of the zone are those handed out and those of the listed blocks. -/
  cover : ∀ page, InZone map zone page ↔ page ∈ allocated ∨
    ∃ order migratetype head, head ∈ zone.freeList order migratetype ∧ page ∈ block order head
  /-- `nr_free` counts the blocks of its order. -/
  counted : ∀ order, zone.nrFree order =
    ((∑ migratetype, (zone.freeList order migratetype).length : Nat) : Int)
  /-- `PG_buddy` is set on the heads of the listed blocks and on no other page of the zone. -/
  flagged : ∀ {page}, InZone map zone page → ((zone.page page).buddy = true ↔
    ∃ order migratetype, page ∈ zone.freeList order migratetype)
  /-- The head of a listed block has its order. -/
  ordered : ∀ {order migratetype page}, page ∈ zone.freeList order migratetype →
    (zone.page page).priv = order
  /-- Below the largest order no block is listed together with its buddy, on whatever lists. -/
  coalesced : ∀ {order migratetype migratetype' page}, order + 1 < map.maxOrder →
    page ∈ zone.freeList order migratetype → page ^^^ 2 ^ order ∉ zone.freeList order migratetype'

open Library Function Nat List Set

variable {map : MemMap} {zone : Zone} {allocated : Set Nat} {order page : Nat} {migratetype : MigrateType}

/-! ### Taking a block off the lists and listing one -/

/-- Take the block at `page` off the lists. -/
def take (zone : Zone) (page order : Nat) : Zone :=
  ((zone.listDel page).addNrFree order (-1)).rmvPageOrder page

/-- List the block at `page`. -/
def put (zone : Zone) (page order : Nat) (migratetype : MigrateType) : Zone :=
  ((zone.setPageOrder page order).listAdd page order migratetype).addNrFree order 1

variable {order' page' : Nat} {migratetype' : MigrateType}

variable (exact : ZoneExact map zone allocated)

include exact

/-- A page heads at most one listed block. -/
theorem ZoneExact.listed_unique (listed : page ∈ zone.freeList order migratetype)
    (listed' : page ∈ zone.freeList order' migratetype') :
    order = order' ∧ migratetype = migratetype' := by
  by_contra ne
  have apart := exact.disjoint listed listed' (by
    rintro ⟨⟩
    exact ne ⟨rfl, rfl⟩)
  exact disjoint_left.mp apart (start_mem_block order page) (start_mem_block order' page)

theorem ZoneExact.listed_inZone (listed : page ∈ zone.freeList order migratetype) : InZone map zone page :=
  (exact.cover page).mpr (.inr ⟨order, migratetype, page, listed, start_mem_block order page⟩)

/-- A page that is handed out heads no listed block. -/
theorem ZoneExact.not_listed (handedOut : page ∈ allocated) :
    page ∉ zone.freeList order migratetype := fun listed =>
  disjoint_left.mp (exact.free listed) (start_mem_block order page) handedOut

theorem ZoneExact.mem_take : page' ∈ (take zone page order).freeList order' migratetype' ↔
      page' ≠ page ∧ page' ∈ zone.freeList order' migratetype' :=
  (exact.nodup order' migratetype').mem_erase_iff

omit exact

theorem mem_put : page' ∈ (put zone page order migratetype).freeList order' migratetype' ↔
      (order', migratetype', page') = (order, migratetype, page) ∨
        page' ∈ zone.freeList order' migratetype' := by
  change page' ∈ (if order' = order ∧ migratetype' = migratetype then _ else _) ↔ _
  split
  case isTrue same =>
      rw [same.1, same.2]
      simp only [mem_cons, Prod.mk.injEq, true_and]
      exact Iff.rfl
  case isFalse ne =>
      have other : ¬(order', migratetype', page') = (order, migratetype, page) := by
        rintro ⟨⟩
        exact ne ⟨rfl, rfl⟩
      simp only [other, false_or]
      exact Iff.rfl

/-- Taking a block off the lists shortens the lists of its order by one. -/
theorem ZoneExact.length_take (exact : ZoneExact map zone alloc)
    (listed : page ∈ zone.freeList order migratetype) (order' : Nat) :
    ((∑ type, ((take zone page order).freeList order' type).length : Nat) : Int) +
        (if order' = order then 1 else 0) =
      ((∑ type, (zone.freeList order' type).length : Nat) : Int) := by
  have lengths (type : MigrateType) : (zone.freeList order' type).length =
      ((take zone page order).freeList order' type).length +
        if type = migratetype then (if order' = order then 1 else 0) else 0 := by
    change _ = ((zone.freeList order' type).erase page).length + _
    by_cases here : page ∈ zone.freeList order' type
    · obtain ⟨rfl, rfl⟩ := exact.listed_unique here listed
      rw [if_pos rfl, if_pos rfl, length_erase_add_one here]
    · rw [erase_of_not_mem here]
      split_ifs with sameType sameOrder
      · exact absurd (sameType ▸ sameOrder ▸ listed) here
      all_goals rfl
  rw [Finset.sum_congr rfl (fun type _ => lengths type), Finset.sum_add_distrib,
    Finset.sum_ite_eq', if_pos (Finset.mem_univ migratetype)]
  push_cast
  rfl

/-- Listing a block makes the lists of its order longer by one. -/
theorem length_put (order' : Nat) :
    ((∑ type, ((put zone page order migratetype).freeList order' type).length : Nat) : Int) =
      ((∑ type, (zone.freeList order' type).length : Nat) : Int) + (if order' = order then 1 else 0) := by
  have lengths (type : MigrateType) : ((put zone page order migratetype).freeList order' type).length =
        (zone.freeList order' type).length +
          if type = migratetype then (if order' = order then 1 else 0) else 0 := by
    change (if order' = order ∧ type = migratetype then page :: zone.freeList order' type
      else zone.freeList order' type).length = _
    by_cases sameOrder : order' = order <;> by_cases sameType : type = migratetype <;>
      simp [sameOrder, sameType]
  rw [Finset.sum_congr rfl (fun type _ => lengths type), Finset.sum_add_distrib,
    Finset.sum_ite_eq', if_pos (Finset.mem_univ migratetype)]
  push_cast
  rfl

include exact

/-- Taking a listed block off the lists hands its pages out. -/
theorem ZoneExact.take (listed : page ∈ zone.freeList order migratetype) :
    ZoneExact map (take zone page order) (allocated ∪ block order page) where
  aligned member := exact.aligned (exact.mem_take.mp member).2
  nodup order' type := (exact.nodup order' type).erase page
  disjoint member member' different :=
    exact.disjoint (exact.mem_take.mp member).2 (exact.mem_take.mp member').2 different
  free member := by
    obtain ⟨other, member⟩ := exact.mem_take.mp member
    rw [disjoint_union_right]
    refine ⟨exact.free member, exact.disjoint member listed ?_⟩
    rintro ⟨⟩
    exact other rfl
  cover number := by
    change InZone map zone number ↔ _
    rw [exact.cover number, mem_union, or_assoc]
    refine or_congr_right ⟨?_, ?_⟩
    · rintro ⟨order', type, head, member, inside⟩
      by_cases same : head = page
      · subst same
        obtain ⟨rfl, rfl⟩ := exact.listed_unique member listed
        exact .inl inside
      · exact .inr ⟨order', type, head, exact.mem_take.mpr ⟨same, member⟩, inside⟩
    · rintro (inside | ⟨order', type, head, member, inside⟩)
      · exact ⟨order, migratetype, page, listed, inside⟩
      · exact ⟨order', type, head, (exact.mem_take.mp member).2, inside⟩
  counted order' := by
    have shorter := exact.length_take listed order'
    have before := exact.counted order'
    change update zone.nrFree order (zone.nrFree order + -1) order' = _
    by_cases same : order' = order
    · subst same
      rw [update_self]
      omega
    · rw [update_of_ne same]
      omega
  flagged := by
    intro number inside
    change (update zone.page page ⟨false, 0⟩ number).buddy = true ↔ _
    by_cases same : number = page
    · subst same
      simp only [update_self, Bool.false_eq_true, false_iff, not_exists]
      intro order' type member
      exact (exact.mem_take.mp member).1 rfl
    · rw [update_of_ne same, exact.flagged inside]
      refine exists_congr fun order' => exists_congr fun type => ?_
      rw [exact.mem_take, and_iff_right same]
  ordered := by
    intro order' type number member
    obtain ⟨other, member⟩ := exact.mem_take.mp member
    change (update zone.page page ⟨false, 0⟩ number).priv = order'
    rw [update_of_ne other]
    exact exact.ordered member
  coalesced bounded member member' :=
    exact.coalesced bounded (exact.mem_take.mp member).2 (exact.mem_take.mp member').2

/-- Listing an aligned block of handed out pages whose buddy is not listed takes its pages back. -/
theorem ZoneExact.put (migratetype : MigrateType)
    (bounded : order < map.maxOrder) (aligned : 2 ^ order ∣ page)
    (handedOut : block order page ⊆ allocated)
    (alone : order + 1 < map.maxOrder → ∀ type, page ^^^ 2 ^ order ∉ zone.freeList order type) :
    ZoneExact map (put zone page order migratetype) (allocated \ block order page) where
  aligned member := by
    rcases mem_put.mp member with same | member
    · cases same
      exact ⟨bounded, aligned⟩
    · exact exact.aligned member
  nodup order' type := by
    change (if order' = order ∧ type = migratetype then _ else _ : List Nat).Nodup
    split
    · refine nodup_cons.mpr ⟨?_, exact.nodup order' type⟩
      exact exact.not_listed (handedOut (start_mem_block order page))
    · exact exact.nodup order' type
  disjoint member mem' different := by
    have apart {order' : Nat} {type : MigrateType} {number : Nat}
        (member : number ∈ zone.freeList order' type) :
        Disjoint (block order page) (block order' number) :=
      ((exact.free member).mono_right handedOut).symm
    rcases mem_put.mp member with same | member
    · rcases mem_put.mp mem' with same' | mem'
      · exact absurd (same.trans same'.symm) different
      · cases same
        exact apart mem'
    · rcases mem_put.mp mem' with same' | mem'
      · cases same'
        exact (apart member).symm
      · exact exact.disjoint member mem' different
  free member := by
    rcases mem_put.mp member with same | member
    · cases same
      exact disjoint_sdiff_right
    · exact (exact.free member).mono_right sdiff_subset
  cover number := by
    change InZone map zone number ↔ _
    rw [exact.cover number]
    by_cases inBlock : number ∈ block order page
    · refine iff_of_true (.inl (handedOut inBlock)) (.inr ?_)
      exact ⟨order, migratetype, page, mem_put.mpr (.inl rfl), inBlock⟩
    · rw [mem_sdiff, and_iff_left inBlock]
      refine or_congr_right ⟨?_, ?_⟩
      · rintro ⟨order', type, head, member, inside⟩
        exact ⟨order', type, head, mem_put.mpr (.inr member), inside⟩
      · rintro ⟨order', type, head, member, inside⟩
        rcases mem_put.mp member with same | member
        · cases same
          exact absurd inside inBlock
        · exact ⟨order', type, head, member, inside⟩
  counted order' := by
    have before := exact.counted order'
    rw [length_put]
    change update zone.nrFree order (zone.nrFree order + 1) order' = _
    by_cases same : order' = order
    · subst same
      rw [update_self, if_pos rfl, before]
    · rw [update_of_ne same, if_neg same, before, add_zero]
  flagged := by
    intro number inside
    change (update zone.page page ⟨true, order⟩ number).buddy = true ↔ _
    by_cases same : number = page
    · subst same
      rw [update_self]
      exact iff_of_true rfl ⟨order, migratetype, mem_put.mpr (.inl rfl)⟩
    · rw [update_of_ne same, exact.flagged inside]
      refine exists_congr fun order' => exists_congr fun type => ?_
      simp [mem_put, same]
  ordered := by
    intro order' type number member
    change (update zone.page page ⟨true, order⟩ number).priv = order'
    rcases mem_put.mp member with same | older
    · cases same
      rw [update_self]
    · have other : number ≠ page := by
        rintro rfl
        exact exact.not_listed (handedOut (start_mem_block order number)) older
      rw [update_of_ne other]
      exact exact.ordered older
  coalesced := by
    intro order' type type' number below member mem'
    rcases mem_put.mp member with same | member
    · cases same
      rcases mem_put.mp mem' with same' | mem'
      · have apart := block_disjoint_buddy aligned
        rw [(Prod.mk.inj (Prod.mk.inj same').2).2] at apart
        exact disjoint_left.mp apart (start_mem_block order page) (start_mem_block order page)
      · exact alone below _ mem'
    · rcases mem_put.mp mem' with same' | mem'
      · obtain ⟨rfl, rest⟩ := Prod.mk.inj same'
        refine alone below type ?_
        rwa [← (Prod.mk.inj rest).2, Nat.xor_assoc, Nat.xor_self, Nat.xor_zero]
      · exact exact.coalesced below member mem'

/-! ### Freeing -/

/-- For a handed out block, `page_is_buddy` finds out whether its buddy is listed. -/
theorem pageIsBuddy_iff (handedOut : page ∈ allocated)
    (buddy : Nat) : pageIsBuddy map zone page buddy order = true ↔
      ∃ type, buddy ∈ zone.freeList order type := by
  have home : map.pageZoneId page = zone.zoneId := ((exact.cover page).mpr (.inl handedOut)).2
  constructor
  · intro isBuddy
    rw [pageIsBuddy, home] at isBuddy
    split_ifs at isBuddy with missing foreign
    rw [Bool.and_eq_true, beq_iff_eq] at isBuddy
    have inside : InZone map zone buddy :=
      ⟨by simpa using missing, (not_not.mp foreign).symm⟩
    obtain ⟨order', type, listed⟩ := (exact.flagged inside).mp isBuddy.1
    have sameOrder : order' = order := (exact.ordered listed).symm.trans isBuddy.2
    exact ⟨type, sameOrder ▸ listed⟩
  · rintro ⟨type, listed⟩
    have inside := exact.listed_inZone listed
    have flag := (exact.flagged inside).mpr ⟨order, type, listed⟩
    simp [pageIsBuddy, inside.1, inside.2, home, flag, exact.ordered listed]

omit exact

/-- The loop of `__free_one_page` followed by the listing of what it leaves. -/
theorem mergeBuddies_exact (migratetype : MigrateType) (remaining : Nat) {pageIdx : Nat}
    (exact : ZoneExact map zone allocated) (last : order + remaining + 1 = map.maxOrder)
    (aligned : 2 ^ order ∣ page)
    (handedOut : block order page ⊆ allocated) (indexed : pageIdx = page % 2 ^ map.maxOrder) :
    ZoneExact map (let (merged, head, top) := mergeBuddies map remaining zone page pageIdx order
      PageAlloc.put merged head top migratetype) (allocated \ block order page) := by
  induction remaining generalizing zone allocated page pageIdx order with
  | zero => exact exact.put migratetype (by omega) aligned handedOut (by omega)
  | succ remaining ih =>
    obtain ⟨buddyAt, combinedAt⟩ := buddy_of_remainder aligned (show order < map.maxOrder by omega)
    have found : pageFindBuddy page pageIdx order = page ^^^ 2 ^ order := by
      rw [indexed]
      exact buddyAt
    rw [mergeBuddies, found]
    dsimp only
    by_cases merges : pageIsBuddy map zone page (page ^^^ 2 ^ order) order = true
    · obtain ⟨type, listed⟩ :=
        (pageIsBuddy_iff exact (handedOut (start_mem_block order page)) _).mp merges
      have combined : page + findCombinedIndex pageIdx order - pageIdx = ldiff page (2 ^ order) := by
        rw [indexed]
        exact combinedAt
      have whole := block_union_buddy aligned
      -- The buddy leaves the lists, so all of the enclosing block is now handed out.
      have taken := ih (exact.take listed) (by omega) (combined_aligned aligned)
        (by rw [whole]; exact union_subset_union_left _ handedOut)
        (show findCombinedIndex pageIdx order = _ by
          rw [indexed, findCombinedIndex, ldiff_mod_two_pow])
      have pages : (allocated ∪ block order (page ^^^ 2 ^ order)) \
          block (order + 1) (ldiff page (2 ^ order)) = allocated \ block order page := by
        rw [whole]
        ext number
        have separate : number ∈ block order (page ^^^ 2 ^ order) → number ∉ allocated :=
          fun inside => disjoint_left.mp (exact.free listed) inside
        simp only [mem_sdiff, mem_union]
        tauto
      rw [merges, combined, ← pages]
      exact taken
    · rw [Bool.not_eq_true] at merges
      have alone (type : MigrateType) : page ^^^ 2 ^ order ∉ zone.freeList order type := by
        intro listed
        have isBuddy :=
          (pageIsBuddy_iff exact (handedOut (start_mem_block order page)) _).mpr ⟨type, listed⟩
        rw [merges] at isBuddy
        cases isBuddy
      have below : order < map.maxOrder := by omega
      rw [merges]
      exact exact.put migratetype below aligned handedOut fun _ => alone

theorem freeOnePage_exact (exact : ZoneExact map zone alloc) (migratetype : MigrateType)
    (bounded : order < map.maxOrder) (aligned : 2 ^ order ∣ page)
    (handedOut : block order page ⊆ alloc) :
    ZoneExact map (freeOnePage map zone page order migratetype) (alloc \ block order page) :=
  mergeBuddies_exact migratetype (map.maxOrder - 1 - order) exact (by omega) aligned handedOut rfl

/-! ### Allocating -/

/-- Splitting a handed out block down to order `low` takes back all but its first `2 ^ low` pages. -/
theorem expand_exact (migratetype : MigrateType) {low : Nat} (high : Nat)
    (exact : ZoneExact map zone allocated)
    (below : low ≤ high) (bounded : high < map.maxOrder) (aligned : 2 ^ high ∣ page)
    (handedOut : block high page ⊆ allocated) :
    ZoneExact map (expand zone page low migratetype high)
      (allocated \ (block high page \ block low page)) := by
  induction high generalizing zone allocated with
  | zero =>
    rw [le_zero.mp below, sdiff_self, sdiff_empty]
    exact exact
  | succ high ih =>
    rw [expand]
    by_cases splits : high + 1 > low
    · rw [if_pos splits]
      have halves := block_succ high page
      have half : 2 ^ high ∣ page := (Dvd.intro _ (pow_succ ..).symm).trans aligned
      rw [halves, union_subset_iff] at handedOut
      have alone (type : MigrateType) : (page + 2 ^ high) ^^^ 2 ^ high ∉ zone.freeList high type := by
        rw [upper_xor aligned]
        exact exact.not_listed (handedOut.1 (start_mem_block high page))
      have listed : ZoneExact map (PageAlloc.put zone (page + 2 ^ high) high migratetype) _ :=
        exact.put migratetype (by omega) (Nat.dvd_add half (Nat.dvd_refl _)) handedOut.2 fun _ => alone
      have lower : block high page ⊆ allocated \ block high (page + 2 ^ high) :=
        subset_sdiff.mpr ⟨handedOut.1, block_disjoint_next high page⟩
      have rest := ih listed (by omega) (by omega) half lower
      have pages : (allocated \ block high (page + 2 ^ high)) \ (block high page \ block low page) =
          allocated \ (block (high + 1) page \ block low page) := by
        rw [halves]
        ext number
        have nested : number ∈ block low page → number ∈ block high page :=
          fun inside => block_mono (by omega) page inside
        have separate : number ∈ block high page → number ∉ block high (page + 2 ^ high) :=
          fun inside => disjoint_left.mp (block_disjoint_next high page) inside
        simp only [mem_sdiff, mem_union]
        tauto
      rw [pages] at rest
      exact rest
    · have same : low = high + 1 := by omega
      rw [if_neg splits, same, sdiff_self, sdiff_empty]
      exact exact

/-- What a call of `__rmqueue_smallest` hands out: an aligned block of pages none of which was handed
out, after which the zone is exact again. -/
structure HandOut (map : MemMap) (allocated : Set Nat) (order page : Nat) (zone' : Zone) : Prop where
  aligned : 2 ^ order ∣ page
  fresh : Disjoint (block order page) allocated
  exact : ZoneExact map zone' (allocated ∪ block order page)

/-- What a call of `__rmqueue_smallest` does with either result. -/
def RmqueueSpec (map : MemMap) (zone : Zone) (allocated : Set Nat) (order : Nat) (zone' : Zone) :
    Option Nat → Prop
  | none => zone' = zone
  | some page => HandOut map allocated order page zone'

include exact

theorem rmqueueFrom_spec (remaining : Nat) {currentOrder : Nat} (enough : order ≤ currentOrder) {zone' : Zone}
    {result : Option Nat}
    (found : rmqueueFrom zone order migratetype remaining currentOrder = (zone', result)) :
    RmqueueSpec map zone allocated order zone' result := by
  induction remaining generalizing currentOrder with
  | zero =>
    cases found
    rfl
  | succ remaining ih =>
    rw [rmqueueFrom] at found
    cases list : zone.freeList currentOrder migratetype with
    | nil =>
      rw [list] at found
      exact ih (le_succ_of_le enough) found
    | cons head tail =>
      rw [list] at found
      cases found
      have listed : head ∈ zone.freeList currentOrder migratetype := by
        rw [list]
        exact mem_cons_self
      obtain ⟨bounded, aligned⟩ := exact.aligned listed
      have split := expand_exact migratetype currentOrder (exact.take listed) enough bounded
        aligned subset_union_right
      have nested := block_mono enough head
      have pages : (allocated ∪ block currentOrder head) \
          (block currentOrder head \ block order head) = allocated ∪ block order head := by
        ext number
        have separate : number ∈ block currentOrder head → number ∉ allocated :=
          fun inside => disjoint_left.mp (exact.free listed) inside
        simp only [mem_sdiff, mem_union]
        tauto
      rw [pages] at split
      exact ⟨(pow_dvd_pow 2 enough).trans aligned, (exact.free listed).mono_left nested, split⟩

/-- A call of `__rmqueue_smallest` hands out a block, or finds none and leaves the zone as it is. -/
theorem rmqueueSmallest_spec {zone' : Zone}
    {result : Option Nat} (called : rmqueueSmallest map zone order migratetype = (zone', result)) :
    RmqueueSpec map zone allocated order zone' result :=
  rmqueueFrom_spec exact _ (le_refl order) called

/-! ### Runs -/

/-- The state of a zone is exact. -/
def ExactState (map : MemMap) (state : ZoneState) : Prop :=
  ZoneExact map state.zone state.allocated

omit exact

theorem zoneStep_exact {before after : ZoneState} {action : ZoneAction} {events : List (Option Nat)}
    (exact : ExactState map before) (taken : ZoneStep map before action events after) :
    ExactState map after := by
  cases taken with
  | handOut result =>
    have handed : HandOut _ _ _ _ _ := rmqueueSmallest_spec exact result
    exact handed.exact
  | exhausted result =>
    obtain rfl : _ = _ := rmqueueSmallest_spec exact result
    exact exact
  | giveBack bounded aligned handedOut => exact freeOnePage_exact exact _ bounded aligned handedOut

/-- A zone as it is set up at boot: no block is listed and every page of the zone counts as handed
out until it is first freed. -/
theorem zoneExact_boot (zone : Zone) (empty : ∀ order migratetype, zone.freeList order migratetype = [])
    (zero : ∀ order, zone.nrFree order = 0)
    (clear : ∀ page, InZone map zone page → (zone.page page).buddy = false) :
    ZoneExact map zone {page | InZone map zone page} where
  aligned member := by simp [empty] at member
  nodup order migratetype := by simp [empty]
  disjoint member := by simp [empty] at member
  free member := by simp [empty] at member
  cover page := by simp [empty]
  counted order := by simp [empty, zero]
  flagged inside := by simp [empty, clear _ inside]
  ordered member := by simp [empty] at member
  coalesced _ member := by simp [empty] at member

/-- Over every run of allocations and frees the lists, counts and flags of the zone stay exact, and
no page is handed out while it is handed out already. -/
theorem zoneRun_exact (map : MemMap) (start last : ZoneState) (actions : List ZoneAction)
    (trace : List (Option Nat)) (initially : ZoneExact map start.zone start.allocated)
    (run : ZoneRun map start actions trace last) :
    ZoneExact map last.zone last.allocated ∧ ∀ order migratetype zone' page,
        rmqueueSmallest map last.zone order migratetype = (zone', some page) →
        2 ^ order ∣ page ∧ Disjoint (block order page) last.allocated := by
  have exact : ExactState map last := run.invariant initially zoneStep_exact
  refine ⟨exact, ?_⟩
  intro order migratetype zone' page called
  have handed : HandOut map last.allocated order page zone' := rmqueueSmallest_spec exact called
  exact ⟨handed.aligned, handed.fresh⟩

/-- A memory map of four pages, all of zone 0. -/
def fourPages : MemMap where
  maxOrder := 11
  pfnValidWithin page := decide (page < 4)
  pageZoneId _ := 0

/-- Its zone at boot. -/
def fourPagesZone : Zone where
  zoneId := 0
  freeList _ _ := []
  nrFree _ := 0
  page _ := ⟨false, 0⟩

/-- Two frees that coalesce on different lists, and an allocation that splits the block twice. -/
theorem fourPages_run :
    ∃ last, ZoneRun fourPages ⟨fourPagesZone, {page | InZone fourPages fourPagesZone page}⟩
        [.freeOnePage 0 1 .movable, .freeOnePage 2 1 .reserve, .rmqueueSmallest 0 .reserve] [some 0] last ∧
      last.zone.freeList 0 .reserve = [1] ∧ last.zone.freeList 1 .reserve = [2] := by
  have low : block 1 0 ⊆ {page | InZone fourPages fourPagesZone page} := by
    intro number mem
    rw [mem_block] at mem
    exact ⟨decide_eq_true (by omega), rfl⟩
  have high : block 1 2 ⊆ {page | InZone fourPages fourPagesZone page} \ block 1 0 := by
    intro number mem
    rw [mem_block] at mem
    refine ⟨⟨decide_eq_true (by omega), rfl⟩, ?_⟩
    rw [mem_block]
    omega
  exact ⟨_, .cons (.giveBack (by decide) (by decide) low) <| .cons (.giveBack (by decide) (by decide) high) <|
    .cons (.handOut (Prod.ext rfl (show _ = some 0 by decide +kernel)))
      .nil, by decide +kernel, by decide +kernel⟩

theorem fourPages_exact : ZoneExact fourPages fourPagesZone {page | InZone fourPages fourPagesZone page} :=
  zoneExact_boot _ (fun _ _ => rfl) (fun _ => rfl) fun _ _ => rfl

theorem zoneRun_exact_four :
    ∃ last, ZoneRun fourPages ⟨fourPagesZone, {page | InZone fourPages fourPagesZone page}⟩
        [.freeOnePage 0 1 .movable, .freeOnePage 2 1 .reserve, .rmqueueSmallest 0 .reserve]
        [some 0] last ∧
      last.zone.freeList 0 .reserve = [1] ∧ last.zone.freeList 1 .reserve = [2] ∧
      ZoneExact fourPages last.zone last.allocated := by
  obtain ⟨last, run, page, pair⟩ := fourPages_run
  exact ⟨last, run, page, pair, (zoneRun_exact _ _ _ _ _ fourPages_exact run).1⟩

/-! ### The lists as a tiling -/

/-- The pages of the zone that are not handed out. -/
def freePages (map : MemMap) (zone : Zone) (allocated : Set Nat) : Set Nat :=
  {page | InZone map zone page ∧ page ∉ allocated}

/-- The blocks that are on one of the lists of an order, as ranges. -/
def listedChunks (zone : Zone) (order : Nat) : Set Nat :=
  {index | ∃ type, index * 2 ^ order ∈ zone.freeList order type}

/-- The listed blocks cut the free pages into ranges. -/
theorem ZoneExact.tiling (exact : ZoneExact map zone allocated) :
    Tiling (map.maxOrder - 1) (freePages map zone allocated) (listedChunks zone) where
  bounded := by
    rintro order index ⟨type, listed⟩
    exact le_sub_one_of_lt (exact.aligned listed).1
  sound := by
    rintro order number ⟨type, listed⟩
    have inside : number ∈ block order (number / 2 ^ order * 2 ^ order) := by
      rw [block_eq_chunkRange]
      rfl
    exact ⟨(exact.cover number).mpr (.inr ⟨order, type, _, listed, inside⟩),
      disjoint_left.mp (exact.free listed) inside⟩
  cover := by
    rintro number ⟨inZone, notOut⟩
    obtain ⟨order, type, head, listed, inside⟩ := ((exact.cover number).mp inZone).resolve_left notOut
    obtain ⟨index, rfl⟩ := dvd_iff_exists_eq_mul_left.mp (exact.aligned listed).2
    rw [block_eq_chunkRange] at inside
    rw [← show _ = index from inside] at listed
    exact ⟨order, type, listed⟩
  unique := by
    rintro number order order' ⟨type, listed⟩ ⟨type', listed'⟩
    by_contra ne
    have apart := exact.disjoint listed listed' (fun same => ne (Prod.mk.inj same).1)
    rw [block_eq_chunkRange, block_eq_chunkRange] at apart
    exact disjoint_left.mp apart rfl rfl

/-- No block is listed together with its buddy. -/
theorem ZoneExact.single (exact : ZoneExact map zone allocated) :
    ∀ order < map.maxOrder - 1, ∀ index, ¬ Pair (listedChunks zone) order index := by
  rintro order below index ⟨⟨type, low⟩, type', high⟩
  have buddy := @exact.coalesced order type type' _ (by omega) low
  rw [xor_two_pow_mul, if_pos (mul_mod_right 2 index)] at buddy
  exact buddy high

theorem rmqueueFrom_none {remaining currentOrder : Nat} :
    (rmqueueFrom zone order migratetype remaining currentOrder).2 = none ↔
      ∀ larger, currentOrder ≤ larger → larger < currentOrder + remaining →
        zone.freeList larger migratetype = [] := by
  induction remaining generalizing currentOrder with
  | zero =>
    rw [rmqueueFrom]
    grind
  | succ remaining ih =>
    rw [rmqueueFrom]
    cases list : zone.freeList currentOrder migratetype <;> grind

/-- In every reachable state the lists hold exactly the largest blocks of free pages, so they depend on the
pages that are handed out alone; and `__rmqueue_smallest` fails for all types exactly if no block of the
order is free as a whole. -/
theorem zoneRun_maximal (map : MemMap) (start last : ZoneState) (actions : List ZoneAction)
    (trace : List (Option Nat))
    (initially : ZoneExact map start.zone start.allocated) (run : ZoneRun map start actions trace last) :
    listedChunks last.zone = maximalChunks (map.maxOrder - 1) (freePages map last.zone last.allocated) ∧
      ∀ order < map.maxOrder, (∀ migratetype, (rmqueueSmallest map last.zone order migratetype).2 = none) ↔
        ∀ index, ¬ RangeFree (freePages map last.zone last.allocated) order index := by
  have exact : ExactState map last := run.invariant initially zoneStep_exact
  refine ⟨exact.tiling.eq_maximal exact.single, fun order bounded => ?_⟩
  simp only [rmqueueSmallest, rmqueueFrom_none]
  constructor
  · intro empty index free
    obtain ⟨larger, above, type, listed⟩ :=
      exact.tiling.within_chunk exact.single (le_sub_one_of_lt bounded) free
    have := (exact.aligned listed).1
    rw [empty type larger above (by omega)] at listed
    exact not_mem_nil listed
  · intro none type larger above below
    refine eq_nil_iff_forall_not_mem.mpr fun page listed => ?_
    obtain ⟨index, rfl⟩ := dvd_iff_exists_eq_mul_left.mp (exact.aligned listed).2
    refine none (index * 2 ^ (larger - order)) (RangeFree.of_larger above ?_)
    rw [mul_two_pow_div]
    exact exact.tiling.rangeFree ⟨type, listed⟩

theorem zoneRun_maximal_four : ∃ last : ZoneState, last.zone.freeList 0 .reserve = [1] ∧
    last.zone.freeList 1 .reserve = [2] ∧
    listedChunks last.zone = maximalChunks 10 (freePages fourPages last.zone last.allocated) := by
  obtain ⟨last, run, page, pair⟩ := fourPages_run
  exact ⟨last, page, pair, (zoneRun_maximal fourPages _ last _ _ fourPages_exact run).1⟩

end LinuxKernel.Mm.PageAlloc
