/-
Module: LinuxKernel.Fs.ExtentMap
Purpose: The extent map tree of `fs/btrfs/extent_map.c`, as a map from file offsets to disk positions. The
  search descends a tree of any shape and then moves with `rb_next` and `rb_prev`; a change may rebalance
  the tree in any way that keeps its order.
Trusted boundary: human-reviewed spec
Main exports: TreeStep, Sound, lookup_spec, extentMap_correct
-/
import LinuxKernel.Library.Runs

namespace LinuxKernel.Fs.Btrfs

/-- The bits of `flags`. -/
structure Flags where
  pinned : Bool
  compressed : Bool
  vacancy : Bool
  prealloc : Bool
deriving DecidableEq, Repr

/-- `struct extent_map`; the numbers are `u64`. -/
structure ExtentMap where
  start : Nat
  len : Nat
  blockStart : Nat
  blockLen : Nat
  flags : Flags
  bdev : Nat
deriving DecidableEq, Repr

/-- `EXTENT_MAP_LAST_BYTE`, `EXTENT_MAP_HOLE`, `EXTENT_MAP_INLINE` and `EXTENT_MAP_DELALLOC`. -/
def lastByte : Nat := 2 ^ 64 - 4
def hole : Nat := 2 ^ 64 - 3
def inline : Nat := 2 ^ 64 - 2
def delalloc : Nat := 2 ^ 64 - 1

/-- `range_end`: a sum of `u64` that does not wrap. -/
def rangeEnd (start len : Nat) : Nat :=
  if (start + len) % 2 ^ 64 < start then 2 ^ 64 - 1 else (start + len) % 2 ^ 64

/-- `extent_map_end`. -/
def extentMapEnd (em : ExtentMap) : Nat := rangeEnd em.start em.len

/-- `extent_map_block_end`. -/
def extentMapBlockEnd (em : ExtentMap) : Nat := rangeEnd em.blockStart em.blockLen

/-- The tree of `struct extent_map_tree`. -/
inductive Tree where
  | leaf
  | node (left : Tree) (em : ExtentMap) (right : Tree)
deriving Repr

/-- The order of `rb_next`. -/
def Tree.toList : Tree → List ExtentMap
  | .leaf => []
  | .node left em right => left.toList ++ em :: right.toList

/-- A node of the tree with the nodes before it, the nearest first, and those behind it. -/
structure Cursor where
  before : List ExtentMap
  em : ExtentMap
  after : List ExtentMap
deriving DecidableEq, Repr

/-- The whole tree around a node. -/
def Cursor.toList (cursor : Cursor) : List ExtentMap := cursor.before.reverse ++ cursor.em :: cursor.after

/-- Where the descent ends: at a node that has the offset, or at an empty place, with the last node on the
way there. -/
inductive Descent where
  | hit (cursor : Cursor)
  | miss (before after : List ExtentMap) (last : Option Cursor)
deriving DecidableEq, Repr

/-- The loop over `n` of `__tree_search` and of `tree_insert`. -/
def descend (offset : Nat) : Tree → List ExtentMap → List ExtentMap → Option Cursor → Descent
  | .leaf, before, after, last => .miss before after last
  | .node left em right, before, after, _ =>
    let cursor : Cursor := { before := left.toList.reverse ++ before, em, after := right.toList ++ after }
    if offset < em.start then descend offset left before (em :: cursor.after) (some cursor)
    else if offset ≥ extentMapEnd em then descend offset right (em :: cursor.before) after (some cursor)
    else .hit cursor

/-- The loop with `rb_next` behind `if (prev_ret)`. -/
def searchNext (offset : Nat) (before : List ExtentMap) : List ExtentMap → Option Cursor
  | [] => none
  | em :: after =>
    if offset ≥ extentMapEnd em then searchNext offset (em :: before) after else some { before, em, after }

/-- The loop with `rb_prev` behind `if (next_ret)`. -/
def searchPrev (offset : Nat) (after : List ExtentMap) : List ExtentMap → Option Cursor
  | [] => none
  | em :: before =>
    if offset < em.start then searchPrev offset (em :: after) before else some { before, em, after }

/-- The condition under which `lookup_extent_mapping` returns an extent. -/
def meets (start len : Nat) (em : ExtentMap) : Bool := rangeEnd start len > em.start ∧ start < extentMapEnd em

/-- `lookup_extent_mapping`, with `__tree_search`. -/
def lookupExtentMapping (tree : Tree) (start len : Nat) : Option Cursor :=
  match descend start tree [] [] none with
  | .hit cursor => if meets start len cursor.em then some cursor else none
  | .miss _ _ last =>
    let prev := last.bind fun cursor => searchNext start cursor.before (cursor.em :: cursor.after)
    let next := last.bind fun cursor => searchPrev start cursor.after (cursor.em :: cursor.before)
    (prev.filter fun cursor => meets start len cursor.em).or (next.filter fun cursor =>
      meets start len cursor.em)

/-- `mergable_maps`. -/
def mergableMaps (prev next : ExtentMap) : Bool :=
  ¬ prev.flags.pinned ∧ ¬ prev.flags.compressed ∧ extentMapEnd prev = next.start ∧ prev.flags = next.flags ∧
    prev.bdev = next.bdev ∧
    ((next.blockStart = hole ∧ prev.blockStart = hole) ∨
      (next.blockStart = inline ∧ prev.blockStart = inline) ∨
      (next.blockStart = delalloc ∧ prev.blockStart = delalloc) ∨
      (next.blockStart < lastByte - 1 ∧ next.blockStart = extentMapBlockEnd prev))

/-- The merge with `rb_prev`. -/
def mergePrev (cursor : Cursor) : Cursor :=
  match cursor.before with
  | [] => cursor
  | merge :: before =>
    if cursor.em.start ≠ 0 ∧ mergableMaps merge cursor.em then
      { before
        em := { cursor.em with
          start := merge.start
          len := (cursor.em.len + merge.len) % 2 ^ 64
          blockLen := (cursor.em.blockLen + merge.blockLen) % 2 ^ 64
          blockStart := merge.blockStart }
        after := cursor.after }
    else cursor

/-- The merge with `rb_next`. -/
def mergeNext (cursor : Cursor) : Cursor :=
  match cursor.after with
  | [] => cursor
  | merge :: after =>
    if mergableMaps cursor.em merge then
      { before := cursor.before
        em := { cursor.em with
          len := (cursor.em.len + merge.len) % 2 ^ 64
          blockLen := (cursor.em.blockLen + merge.len) % 2 ^ 64 }
        after }
    else cursor

/-- `add_extent_mapping`: the nodes afterwards, or `none` for `-EEXIST`. -/
def addExtentMapping (tree : Tree) (em : ExtentMap) : Option (List ExtentMap) :=
  match lookupExtentMapping tree em.start em.len with
  | some _ => none
  | none =>
    match descend em.start tree [] [] none with
    | .hit _ => none
    | .miss before after _ => some (mergeNext (mergePrev { before, em, after })).toList

/-- `unpin_extent_cache`. -/
def unpinExtentCache (tree : Tree) (start len : Nat) : List ExtentMap :=
  match lookupExtentMapping tree start len with
  | none => tree.toList
  | some cursor =>
    let em := { cursor.em with flags := { cursor.em.flags with pinned := false } }
    (mergeNext (mergePrev { cursor with em })).toList

/-- `remove_extent_mapping` of a node of the tree. -/
def removeExtentMapping (tree : Tree) (em : ExtentMap) : List ExtentMap := tree.toList.erase em

/-- Calls that change the tree. -/
inductive Action where
  | add (em : ExtentMap)
  | unpin (start len : Nat)
  | remove (em : ExtentMap)
deriving DecidableEq, Repr

/-- One call. -/
def TreeStep (tree : Tree) (action : Action) (_ : List Unit) (after : Tree) : Prop :=
  match action with
  | .add em => after.toList = (addExtentMapping tree em).getD tree.toList
  | .unpin start len => after.toList = unpinExtentCache tree start len
  | .remove em => em ∈ tree.toList ∧ after.toList = removeExtentMapping tree em

open Library List Option

variable {em prev next : ExtentMap} {list left right before after : List ExtentMap} {offset start len : Nat}

/-! ### The map from offsets to disk positions -/

/-- The end of an extent. -/
def ExtentMap.stop (em : ExtentMap) : Nat := em.start + em.len

/-- The extent has the offset. -/
def ExtentMap.has (em : ExtentMap) (offset : Nat) : Bool := em.start ≤ offset ∧ offset < em.stop

/-- An extent that is not empty, does not wrap, and takes as much of the disk as of the file unless it is
compressed. -/
structure ExtentMap.Valid (em : ExtentMap) : Prop where
  nonempty : 0 < em.len
  inside : em.stop < 2 ^ 64
  blockStart : em.blockStart < 2 ^ 64
  blockLen : em.blockLen < 2 ^ 64
  whole : em.flags.compressed = false → em.blockStart < lastByte → em.blockLen = em.len

/-- Sorted and disjoint extents. -/
structure Sound (list : List ExtentMap) : Prop where
  ordered : list.Pairwise (·.stop ≤ ·.start)
  valid : ∀ em ∈ list, em.Valid

/-- The device, the position on it, and the flags up to `EXTENT_FLAG_PINNED`. Compressed extents and those
  that are not on the disk have one position. -/
def place (em : ExtentMap) (offset : Nat) : Nat × Nat × Flags :=
  (em.bdev,
    if em.flags.compressed ∨ lastByte ≤ em.blockStart then em.blockStart
    else em.blockStart + (offset - em.start),
    { em.flags with pinned := false })

/-- The translation of an offset. -/
def translate (list : List ExtentMap) (offset : Nat) : Option (Nat × Nat × Flags) :=
  (list.find? (·.has offset)).map (place · offset)

theorem has_iff : em.has offset = true ↔ em.start ≤ offset ∧ offset < em.stop := decide_eq_true_iff

theorem translate_append :
    translate (left ++ right) offset = (translate left offset).or (translate right offset) := by
  simp only [translate, find?_append]
  cases left.find? (·.has offset) <;> rfl

theorem translate_cons :
    translate (em :: right) offset = if em.has offset then some (place em offset)
      else translate right offset := by
  simp only [translate, find?_cons]
  cases em.has offset <;> rfl

theorem translate_eq_none (nobody : ∀ em ∈ list, ¬ em.has offset) : translate list offset = none := by
  rw [translate, find?_eq_none.mpr nobody]
  rfl

theorem rangeEnd_eq (inside : start + len < 2 ^ 64) : rangeEnd start len = start + len := by
  rw [rangeEnd, Nat.mod_eq_of_lt inside, if_neg (by omega)]

theorem ExtentMap.Valid.end_eq (valid : em.Valid) : extentMapEnd em = em.stop := rangeEnd_eq valid.inside

theorem ExtentMap.Valid.lt (valid : em.Valid) : em.start < em.stop := Nat.lt_add_of_pos_right valid.nonempty

theorem sound_append : Sound (left ++ right) ↔ Sound left ∧ Sound right ∧ ∀ one ∈ left, ∀ other ∈ right,
    one.stop ≤ other.start := by
  constructor
  · rintro ⟨ordered, valid⟩
    obtain ⟨first, second, across⟩ := pairwise_append.mp ordered
    exact ⟨⟨first, fun em mem => valid em (mem_append_left _ mem)⟩,
      ⟨second, fun em mem => valid em (mem_append_right _ mem)⟩, across⟩
  · rintro ⟨first, second, across⟩
    refine ⟨pairwise_append.mpr ⟨first.ordered, second.ordered, across⟩, fun em mem => ?_⟩
    exact (mem_append.mp mem).elim (first.valid em) (second.valid em)

theorem sound_cons : Sound (em :: right) ↔ em.Valid ∧ Sound right ∧ ∀ other ∈ right,
    em.stop ≤ other.start := by
  constructor
  · rintro ⟨ordered, valid⟩
    obtain ⟨across, second⟩ := pairwise_cons.mp ordered
    exact ⟨valid em mem_cons_self, ⟨second, fun em mem => valid em (mem_cons_of_mem _ mem)⟩, across⟩
  · rintro ⟨first, second, across⟩
    exact ⟨pairwise_cons.mpr ⟨across, second.ordered⟩, forall_mem_cons.mpr ⟨first, second.valid⟩⟩

/-! ### Searching -/

/-- The last node before an empty place is one of its neighbours. -/
def LastNode (before after : List ExtentMap) (last : Option Cursor) : Prop :=
  (before = [] ∧ after = [] ∧ last = none) ∨
    (∃ em rest, after = em :: rest ∧ last = some ⟨before, em, rest⟩) ∨
    ∃ em rest, before = em :: rest ∧ last = some ⟨rest, em, after⟩

/-- What a descent finds. -/
def Finds (list : List ExtentMap) (offset : Nat) : Descent → Prop
  | .hit cursor => cursor.toList = list ∧ cursor.em.start ≤ offset ∧ offset < cursor.em.stop
  | .miss before after last =>
    before.reverse ++ after = list ∧ (∀ em ∈ before, em.stop ≤ offset) ∧ (∀ em ∈ after, offset < em.start) ∧
      LastNode before after last

theorem descend_spec (tree : Tree) {last : Option Cursor}
    (sound : Sound (before.reverse ++ (tree.toList ++ after)))
    (low : ∀ em ∈ before, em.stop ≤ offset) (high : ∀ em ∈ after, offset < em.start)
    (lastNode : tree = .leaf → LastNode before after last) :
    Finds (before.reverse ++ (tree.toList ++ after)) offset (descend offset tree before after last) := by
  induction tree generalizing before after last with
  | leaf => exact ⟨rfl, low, high, lastNode rfl⟩
  | node leftTree em rightTree leftIh rightIh =>
    obtain ⟨-, inner, -⟩ := sound_append.mp sound
    simp only [Tree.toList, append_assoc, cons_append] at inner sound ⊢
    obtain ⟨-, fromEm, leftEm⟩ := sound_append.mp inner
    obtain ⟨valid, -, emRight⟩ := sound_cons.mp fromEm
    have startStop := valid.lt
    simp only [descend, valid.end_eq]
    split_ifs with less notLess
    · refine leftIh sound low (forall_mem_cons.mpr ⟨less, fun other mem => ?_⟩) fun leaf =>
        .inr (.inl ⟨em, _, rfl, by rw [leaf]; rfl⟩)
      have := emRight other mem
      omega
    · have same : before.reverse ++ (leftTree.toList ++ em :: (rightTree.toList ++ after)) =
          (em :: (leftTree.toList.reverse ++ before)).reverse ++ (rightTree.toList ++ after) := by simp
      rw [same] at sound ⊢
      refine rightIh sound (forall_mem_cons.mpr ⟨notLess, forall_mem_append.mpr ⟨fun other mem => ?_, low⟩⟩)
        high
        fun leaf => .inr (.inr ⟨em, _, rfl, by rw [leaf]; rfl⟩)
      have := leftEm other (mem_reverse.mp mem) em mem_cons_self
      omega
    · exact ⟨by simp [Cursor.toList], Nat.not_lt.mp less, Nat.not_le.mp notLess⟩

variable {tree : Tree}

theorem descend_finds (sound : Sound tree.toList) (offset : Nat) :
    Finds tree.toList offset (descend offset tree [] [] none) := by
  have spec := @descend_spec [] [] offset tree none (by simpa using sound) (by simp) (by simp) fun _ =>
    .inl ⟨rfl, rfl, rfl⟩
  simpa using spec

theorem meets_iff (valid : em.Valid) :
    meets start len em = true ↔ em.start < rangeEnd start len ∧ start < em.stop := by
  rw [meets, decide_eq_true_iff, valid.end_eq]

theorem meets_eq_false (valid : em.Valid) :
    meets start len em = false ↔ rangeEnd start len ≤ em.start ∨ em.stop ≤ start := by
  rw [← Bool.not_eq_true, meets_iff valid]
  omega

/-- From an extent on that the range does not reach. -/
theorem meets_behind (sound : Sound (em :: after)) (high : rangeEnd start len ≤ em.start) :
    ∀ other ∈ em :: after, meets start len other = false := by
  obtain ⟨valid, rest, behind⟩ := sound_cons.mp sound
  refine forall_mem_cons.mpr ⟨(meets_eq_false valid).mpr (.inl high), fun other mem => ?_⟩
  have := behind other mem
  have := valid.lt
  exact (meets_eq_false (rest.valid other mem)).mpr (.inl (by omega))

/-- From the last node of a descent, the two loops come to the neighbours of the empty place. -/
theorem neighbours {last : Option Cursor} (sound : Sound (before.reverse ++ after))
    (low : ∀ em ∈ before, em.stop ≤ start)
    (high : ∀ em ∈ after, start < em.start) (lastNode : LastNode before after last) :
    (last.bind fun cursor => searchNext start cursor.before (cursor.em :: cursor.after)) =
        after.head?.map (⟨before, ·, after.tail⟩) ∧
      (last.bind fun cursor => searchPrev start cursor.after (cursor.em :: cursor.before)) =
        before.head?.map (⟨before.tail, ·, after⟩) := by
  obtain ⟨soundBefore, soundAfter, -⟩ := sound_append.mp sound
  have next : searchNext start before after = after.head?.map (⟨before, ·, after.tail⟩) := by
    cases after with
    | nil => rfl
    | cons em after =>
      have valid := soundAfter.valid em mem_cons_self
      have := valid.lt
      have := high em mem_cons_self
      rw [searchNext, valid.end_eq, if_neg (by omega)]
      rfl
  have prev : searchPrev start after before = before.head?.map (⟨before.tail, ·, after⟩) := by
    cases before with
    | nil => rfl
    | cons em before =>
      have := (soundBefore.valid em (by simp)).lt
      have := low em mem_cons_self
      rw [searchPrev, if_neg (by omega)]
      rfl
  rcases lastNode with ⟨rfl, rfl, rfl⟩ | ⟨em, rest, rfl, rfl⟩ | ⟨em, rest, rfl, rfl⟩
  · exact ⟨rfl, rfl⟩
  · refine ⟨next, ?_⟩
    rw [bind_some, searchPrev, if_pos (high em mem_cons_self)]
    exact prev
  · refine ⟨?_, prev⟩
    rw [bind_some, searchNext, (soundBefore.valid em (by simp)).end_eq, if_pos (low em mem_cons_self)]
    exact next

/-- A lookup finds the first extent of the range. -/
theorem lookup_spec (sound : Sound tree.toList) (start len : Nat) :
    match lookupExtentMapping tree start len with
    | some cursor =>
      cursor.toList = tree.toList ∧ meets start len cursor.em = true ∧ ∀ em ∈ cursor.before, em.stop ≤ start
    | none => ∀ em ∈ tree.toList, meets start len em = false := by
  have finds := descend_finds sound start
  rw [lookupExtentMapping]
  generalize tree.toList = list at sound finds ⊢
  generalize descend start tree [] [] none = descent at finds
  cases descent with
  | hit cursor =>
    obtain ⟨rfl, low, high⟩ := finds
    obtain ⟨soundBefore, soundAfter, across⟩ := sound_append.mp sound
    have valid := (sound_cons.mp soundAfter).1
    have beforeStop : ∀ em ∈ cursor.before, em.stop ≤ start := fun em mem =>
      Nat.le_trans (across em (mem_reverse.mpr mem) cursor.em mem_cons_self) low
    dsimp only
    cases found : meets start len cursor.em with
    | true => exact ⟨rfl, found, beforeStop⟩
    | false =>
      refine forall_mem_append.mpr ⟨fun em mem => ?_, meets_behind soundAfter ?_⟩
      · exact (meets_eq_false (soundBefore.valid em mem)).mpr (.inr (beforeStop em (mem_reverse.mp mem)))
      · exact ((meets_eq_false valid).mp found).resolve_right (Nat.not_le.mpr high)
  | miss before after last =>
    obtain ⟨rfl, low, high, lastNode⟩ := finds
    obtain ⟨nextEq, prevEq⟩ := neighbours sound low high lastNode
    obtain ⟨soundBefore, soundAfter, -⟩ := sound_append.mp sound
    have lowMeets : ∀ em ∈ before, meets start len em = false := fun em mem =>
      (meets_eq_false (soundBefore.valid em (mem_reverse.mpr mem))).mpr (.inr (low em mem))
    have noPrev : ((before.head?.map fun em => (⟨before.tail, em, after⟩ : Cursor)).filter
        fun cursor => meets start len cursor.em) = none := by
      cases before with
      | nil => rfl
      | cons em before => simp [lowMeets em mem_cons_self]
    dsimp only
    rw [nextEq, prevEq, noPrev]
    cases after with
    | nil =>
      intro em mem
      rw [append_nil, mem_reverse] at mem
      exact lowMeets em mem
    | cons em after =>
      have valid := (sound_cons.mp soundAfter).1
      simp only [head?_cons, map_some, filter_some]
      cases found : meets start len em with
      | true => exact ⟨rfl, found, low⟩
      | false =>
        refine forall_mem_append.mpr ⟨fun other mem => lowMeets other (mem_reverse.mp mem),
          meets_behind soundAfter (((meets_eq_false valid).mp found).resolve_right ?_)⟩
        have := high em mem_cons_self
        have := valid.lt
        omega

/-! ### Merging -/

/-- An extent in place of two that may be merged. -/
theorem join_spec (validPrev : prev.Valid) (validNext : next.Valid) (mergable : mergableMaps prev next = true)
    (start : em.start = prev.start) (len : em.len = (prev.len + next.len) % 2 ^ 64)
    (blockStart : em.blockStart = prev.blockStart)
    (flags : em.flags = prev.flags) (bdev : em.bdev = prev.bdev) (blockLen : em.blockLen < 2 ^ 64)
    (whole : prev.blockLen = prev.len → next.blockLen = next.len → em.blockLen = em.len) :
    em.Valid ∧ em.stop = next.stop ∧ prev.stop = next.start ∧
      (∀ offset, place em offset = place prev offset) ∧
      ∀ offset, next.start ≤ offset → place em offset = place next offset := by
  rw [mergableMaps, decide_eq_true_iff, validPrev.end_eq] at mergable
  obtain ⟨-, plain, adjacent, sameFlags, sameBdev, positions⟩ := mergable
  have plain : prev.flags.compressed = false := by simpa using plain
  have insideNext := validNext.inside
  have blockStartPrev := validPrev.blockStart
  simp only [ExtentMap.stop] at adjacent insideNext ⊢
  have disk : (lastByte ≤ prev.blockStart ∧ next.blockStart = prev.blockStart) ∨
      (prev.blockStart < lastByte ∧ next.blockStart < lastByte ∧
        next.blockStart = prev.blockStart + prev.len) := by
    simp only [extentMapBlockEnd, rangeEnd, hole, inline, delalloc, lastByte] at positions ⊢
    by_cases special : 2 ^ 64 - 4 ≤ prev.blockStart
    · left
      refine ⟨special, ?_⟩
      split_ifs at positions <;> omega
    · right
      have := validPrev.whole plain (by simp only [lastByte]; omega)
      split_ifs at positions <;> omega
  refine ⟨⟨?_, ?_, ?_, blockLen, ?_⟩, ?_, adjacent, fun offset => ?_, fun offset le => ?_⟩
  · have := validPrev.nonempty
    omega
  · simp only [ExtentMap.stop]
    omega
  · omega
  · intro _ onDisk
    rcases disk with special | ⟨low, nextLow, -⟩
    · omega
    · exact whole (validPrev.whole plain low) (validNext.whole (sameFlags ▸ plain) nextLow)
  · omega
  · simp only [place, start, blockStart, flags, bdev]
  · simp only [place, blockStart, flags, bdev, ← sameFlags, ← sameBdev, plain, Bool.false_eq_true, false_or]
    rcases disk with ⟨special, same⟩ | ⟨low, nextLow, same⟩
    · rw [if_pos special, same, if_pos special]
    · rw [if_neg (Nat.not_le.mpr low), if_neg (Nat.not_le.mpr nextLow)]
      congr 2
      omega

/-- The list with an extent in place of two. -/
theorem Sound.join (sound : Sound (left ++ prev :: next :: right)) (mergable : mergableMaps prev next = true)
    (start : em.start = prev.start) (len : em.len = (prev.len + next.len) % 2 ^ 64)
    (blockStart : em.blockStart = prev.blockStart)
    (flags : em.flags = prev.flags) (bdev : em.bdev = prev.bdev) (blockLen : em.blockLen < 2 ^ 64)
    (whole : prev.blockLen = prev.len → next.blockLen = next.len → em.blockLen = em.len) :
    Sound (left ++ em :: right) ∧
      ∀ offset, translate (left ++ em :: right) offset =
        translate (left ++ prev :: next :: right) offset := by
  obtain ⟨soundLeft, soundPair, across⟩ := sound_append.mp sound
  obtain ⟨validPrev, soundNext, behindPrev⟩ := sound_cons.mp soundPair
  obtain ⟨validNext, soundRight, behindNext⟩ := sound_cons.mp soundNext
  obtain ⟨valid, stop, adjacent, placePrev, placeNext⟩ :=
    join_spec validPrev validNext mergable start len blockStart flags bdev blockLen whole
  refine ⟨sound_append.mpr ⟨soundLeft, sound_cons.mpr ⟨valid, soundRight, by rwa [stop]⟩, fun one mem => ?_⟩,
    fun offset => ?_⟩
  · rw [forall_mem_cons, start]
    exact ⟨across one mem prev mem_cons_self, fun other later =>
      across one mem other (mem_cons_of_mem _ (mem_cons_of_mem _ later))⟩
  · rw [translate_append, translate_append, translate_cons, translate_cons, translate_cons]
    have := validPrev.lt
    have := validNext.lt
    congr 1
    by_cases here : em.has offset
    · rw [if_pos here]
      rw [has_iff] at here
      by_cases first : prev.has offset
      · rw [if_pos first, placePrev]
      · have second : next.start ≤ offset := by
          rw [has_iff] at first
          omega
        rw [if_neg first, if_pos (has_iff.mpr ⟨second, by omega⟩), placeNext offset second]
    · rw [if_neg here, if_neg, if_neg]
      all_goals rw [has_iff] at here ⊢; omega

/-- Merging keeps the translation. -/
theorem mergePrev_spec {cursor : Cursor} (sound : Sound cursor.toList) :
    Sound (mergePrev cursor).toList ∧ ∀ offset, translate (mergePrev cursor).toList offset =
      translate cursor.toList offset := by
  obtain ⟨before, em, after⟩ := cursor
  cases before with
  | nil => exact ⟨sound, fun _ => rfl⟩
  | cons merge before =>
    simp only [mergePrev]
    split_ifs with both
    · obtain ⟨-, mergable⟩ := both
      have same := mergable
      rw [mergableMaps, decide_eq_true_iff] at same
      simp only [Cursor.toList, reverse_cons, append_assoc] at sound ⊢
      refine sound.join mergable rfl ?_ rfl same.2.2.2.1.symm same.2.2.2.2.1.symm
        (Nat.mod_lt _ (Nat.two_pow_pos 64)) ?_
      · rw [Nat.add_comm]
      · intro first second
        rw [first, second]
    · exact ⟨sound, fun _ => rfl⟩

theorem mergeNext_spec {cursor : Cursor} (sound : Sound cursor.toList) :
    Sound (mergeNext cursor).toList ∧ ∀ offset, translate (mergeNext cursor).toList offset =
      translate cursor.toList offset := by
  obtain ⟨before, em, after⟩ := cursor
  cases after with
  | nil => exact ⟨sound, fun _ => rfl⟩
  | cons merge after =>
    simp only [mergeNext]
    split_ifs with mergable
    · refine sound.join mergable rfl rfl rfl rfl rfl (Nat.mod_lt _ (Nat.two_pow_pos 64)) fun first _ => ?_
      rw [first]
    · exact ⟨sound, fun _ => rfl⟩

/-! ### Calls -/

/-- Two extents share an offset. -/
def Overlap (one other : ExtentMap) : Prop := one.start < other.stop ∧ other.start < one.stop

/-- A new extent: `-EEXIST` exactly when it overlaps one of the tree. -/
theorem add_spec (sound : Sound tree.toList) (valid : em.Valid) : match addExtentMapping tree em with
    | none => ∃ other ∈ tree.toList, Overlap em other
    | some list => (∀ other ∈ tree.toList, ¬ Overlap em other) ∧ Sound list ∧
        ∀ offset, translate list offset = if em.has offset then some (place em offset)
          else translate tree.toList offset := by
  have lookup := lookup_spec sound em.start em.len
  have finds := descend_finds sound em.start
  have overlap_iff {other : ExtentMap} (validOther : other.Valid) :
      meets em.start em.len other = true ↔ Overlap em other := by
    rw [meets_iff validOther, rangeEnd_eq valid.inside, and_comm]
    rfl
  rw [addExtentMapping]
  generalize tree.toList = list at sound lookup finds ⊢
  cases found : lookupExtentMapping tree em.start em.len with
  | some cursor =>
    rw [found] at lookup
    obtain ⟨rfl, meet, -⟩ := lookup
    have mem : cursor.em ∈ cursor.toList := by simp [Cursor.toList]
    exact ⟨cursor.em, mem, (overlap_iff (sound.valid _ mem)).mp meet⟩
  | none =>
    rw [found] at lookup
    have apart : ∀ other ∈ list, ¬ Overlap em other := fun other mem => by
      rw [← overlap_iff (sound.valid other mem), lookup other mem]
      exact Bool.false_ne_true
    have startStop := valid.lt
    generalize descend em.start tree [] [] none = descent at finds
    cases descent with
    | hit cursor =>
      obtain ⟨rfl, low, high⟩ := finds
      have mem : cursor.em ∈ cursor.toList := by simp [Cursor.toList]
      exact absurd ⟨high, by omega⟩ (apart cursor.em mem)
    | miss before after last =>
      obtain ⟨rfl, low, high, -⟩ := finds
      obtain ⟨soundBefore, soundAfter, across⟩ := sound_append.mp sound
      have behind : ∀ other ∈ after, em.stop ≤ other.start := by
        intro other mem
        have := high other mem
        have := (soundAfter.valid other mem).lt
        have := apart other (mem_append_right _ mem)
        simp only [Overlap] at this
        omega
      have inserted : Sound (Cursor.mk before em after).toList := by
        exact sound_append.mpr ⟨soundBefore, sound_cons.mpr ⟨valid, soundAfter, behind⟩, fun one mem =>
          forall_mem_cons.mpr ⟨low one (mem_reverse.mp mem), across one mem⟩⟩
      obtain ⟨soundPrev, samePrev⟩ := mergePrev_spec inserted
      obtain ⟨soundNext, sameNext⟩ := mergeNext_spec soundPrev
      refine ⟨apart, soundNext, fun offset => ?_⟩
      rw [sameNext, samePrev, Cursor.toList, translate_append, translate_append, translate_cons]
      by_cases here : em.has offset
      · rw [if_pos here, if_pos here, translate_eq_none]
        · rfl
        · intro other mem
          have := low other (mem_reverse.mp mem)
          rw [has_iff] at here ⊢
          omega
      · rw [if_neg here, if_neg here]

/-- Unpinning keeps the translation. -/
theorem unpin_spec (sound : Sound tree.toList) (start len : Nat) : Sound (unpinExtentCache tree start len) ∧
      ∀ offset, translate (unpinExtentCache tree start len) offset = translate tree.toList offset := by
  have lookup := lookup_spec sound start len
  rw [unpinExtentCache]
  cases found : lookupExtentMapping tree start len with
  | none => exact ⟨sound, fun _ => rfl⟩
  | some cursor =>
    rw [found] at lookup
    obtain ⟨same, -, -⟩ := lookup
    rw [← same] at sound ⊢
    obtain ⟨before, em, after⟩ := cursor
    dsimp only
    obtain ⟨em', em'Eq⟩ : ∃ em' : ExtentMap, em' = { em with flags := { em.flags with pinned := false } } :=
      ⟨_, rfl⟩
    rw [← em'Eq]
    have unpinned : Sound (Cursor.mk before em' after).toList := by
      obtain ⟨soundBefore, soundAfter, across⟩ := sound_append.mp sound
      obtain ⟨valid, soundRest, behind⟩ := sound_cons.mp soundAfter
      rw [em'Eq]
      refine sound_append.mpr ⟨soundBefore, sound_cons.mpr ⟨?_, soundRest, behind⟩, fun one mem => ?_⟩
      · exact { valid with }
      · exact forall_mem_cons.mpr (forall_mem_cons.mp (across one mem))
    obtain ⟨soundPrev, samePrev⟩ := mergePrev_spec unpinned
    obtain ⟨soundNext, sameNext⟩ := mergeNext_spec soundPrev
    refine ⟨soundNext, fun offset => ?_⟩
    rw [sameNext, samePrev, Cursor.toList, Cursor.toList, translate_append, translate_append,
      translate_cons, translate_cons,
      em'Eq]
    rfl

theorem remove_spec (sound : Sound tree.toList) (mem : em ∈ tree.toList) :
    Sound (removeExtentMapping tree em) ∧ ∀ offset, translate (removeExtentMapping tree em) offset =
      if em.has offset then none else translate tree.toList offset := by
  rw [removeExtentMapping]
  obtain ⟨left, right, absent, split, erased⟩ := exists_erase_eq mem
  rw [split] at sound
  rw [erased, split]
  obtain ⟨soundLeft, soundEm, across⟩ := sound_append.mp sound
  obtain ⟨valid, soundRight, behind⟩ := sound_cons.mp soundEm
  refine ⟨sound_append.mpr ⟨soundLeft, soundRight, fun one first other second =>
    across one first other (mem_cons_of_mem _ second)⟩, fun offset => ?_⟩
  rw [translate_append, translate_append, translate_cons]
  by_cases here : em.has offset
  · rw [if_pos here, translate_eq_none, translate_eq_none]
    · rfl
    · intro other mem
      have := behind other mem
      rw [has_iff] at here ⊢
      omega
    · intro other mem
      have := across other mem em mem_cons_self
      rw [has_iff] at here ⊢
      omega
  · rw [if_neg here, if_neg here]

/-- A run keeps the extents sorted and disjoint. -/
theorem Sound.run {actions : List Action} {trace : List Unit}
    (run : Run TreeStep .leaf actions trace tree) (valid : ∀ em, .add em ∈ actions → em.Valid) :
      Sound tree.toList := by
  induction run with
  | nil => exact ⟨.nil, nofun⟩
  | @snoc _ _ _ middle _ action _ taken ih =>
    have sound := ih fun em mem => valid em (mem_append_left _ mem)
    cases action with
    | add em =>
      have spec := add_spec sound (valid em (by simp))
      rw [TreeStep] at taken
      cases result : addExtentMapping middle em with
      | none =>
        rw [result] at taken
        rw [taken]
        exact sound
      | some list =>
        rw [result] at spec taken
        rw [taken]
        exact spec.2.1
    | unpin start len =>
      rw [taken]
      exact (unpin_spec sound start len).1
    | remove em =>
      rw [taken.2]
      exact (remove_spec sound taken.1).1

/-- The tree after any calls: the extents are sorted and disjoint; a new extent that overlaps one is
  refused, and else its offsets are added; unpinning changes no translation, whatever it merges; removing an
  extent removes its offsets; a lookup of a range that is not empty returns the lowest extent that
  intersects it. -/
theorem extentMap_correct {tree : Tree} {actions : List Action} {trace : List Unit}
    (run : Run TreeStep .leaf actions trace tree)
    (valid : ∀ em, .add em ∈ actions → em.Valid) :
    tree.toList.Pairwise (·.stop ≤ ·.start) ∧
      (∀ em : ExtentMap, em.Valid → match addExtentMapping tree em with
        | none => ∃ other ∈ tree.toList, Overlap em other
        | some list => (∀ other ∈ tree.toList, ¬ Overlap em other) ∧
            ∀ offset, translate list offset = if em.has offset then some (place em offset)
              else translate tree.toList offset) ∧
      (∀ start len offset, translate (unpinExtentCache tree start len) offset =
        translate tree.toList offset) ∧
      (∀ em ∈ tree.toList, ∀ offset, translate (removeExtentMapping tree em) offset =
        if em.has offset then none else translate tree.toList offset) ∧
      ∀ start len, start < 2 ^ 64 → 0 < len → len < 2 ^ 64 → match lookupExtentMapping tree start len with
        | some cursor =>
          cursor.toList = tree.toList ∧ (cursor.em.start < start + len ∧ start < cursor.em.stop) ∧
            ∀ em ∈ cursor.before, ¬ (em.start < start + len ∧ start < em.stop)
        | none => ∀ em ∈ tree.toList, ¬ (em.start < start + len ∧ start < em.stop) := by
  have sound := Sound.run run valid
  refine ⟨sound.ordered, fun em validEm => ?_, fun start len => (unpin_spec sound start len).2,
    fun em mem => (remove_spec sound mem).2, fun start len startLt positive lenLt => ?_⟩
  · have spec := add_spec sound validEm
    cases result : addExtentMapping tree em with
    | none =>
      rw [result] at spec
      exact spec
    | some list =>
      rw [result] at spec
      exact ⟨spec.1, spec.2.2⟩
  · have spec := lookup_spec sound start len
    have reaches {em : ExtentMap} (validEm : em.Valid) :
        meets start len em = true ↔ em.start < start + len ∧ start < em.stop := by
      rw [meets_iff validEm, rangeEnd]
      have := validEm.inside
      have := validEm.lt
      split_ifs <;> omega
    cases result : lookupExtentMapping tree start len with
    | none =>
      rw [result] at spec
      intro em mem
      rw [← reaches (sound.valid em mem), spec em mem]
      exact Bool.false_ne_true
    | some cursor =>
      rw [result] at spec
      obtain ⟨same, meet, low⟩ := spec
      have mem : cursor.em ∈ tree.toList := by simp [← same, Cursor.toList]
      refine ⟨same, (reaches (sound.valid _ mem)).mp meet, fun em before both => ?_⟩
      have := low em before
      omega

/-- A second extent is merged with the one before it. -/
theorem extentMap_correct_merges :
    let flags : Flags := ⟨false, false, false, false⟩
    addExtentMapping (.node .leaf ⟨0, 8, 16, 8, flags, 0⟩ .leaf) ⟨8, 8, 24, 8, flags, 0⟩ =
        some [⟨0, 16, 16, 16, flags, 0⟩] ∧
      ∀ offset, translate [⟨0, 16, 16, 16, flags, 0⟩] offset =
        if ExtentMap.has ⟨8, 8, 24, 8, flags, 0⟩ offset then some (place ⟨8, 8, 24, 8, flags, 0⟩ offset)
        else translate (Tree.node .leaf ⟨0, 8, 16, 8, flags, 0⟩ .leaf).toList offset := by
  intro flags
  have first : TreeStep .leaf (.add ⟨0, 8, 16, 8, flags, 0⟩) []
    (.node .leaf ⟨0, 8, 16, 8, flags, 0⟩ .leaf) := rfl
  have merged : addExtentMapping (.node .leaf ⟨0, 8, 16, 8, flags, 0⟩ .leaf) ⟨8, 8, 24, 8, flags, 0⟩ =
      some [⟨0, 16, 16, 16, flags, 0⟩] := by decide
  have run : Run TreeStep .leaf [.add ⟨0, 8, 16, 8, flags, 0⟩] []
      (.node .leaf ⟨0, 8, 16, 8, flags, 0⟩ .leaf) :=
    .cons first .nil
  have valid : ∀ em, .add em ∈ [Action.add ⟨0, 8, 16, 8, flags, 0⟩] → em.Valid := by
    intro em mem
    obtain rfl : em = ⟨0, 8, 16, 8, flags, 0⟩ := by simpa using mem
    exact ⟨by decide, by decide, by decide, by decide, fun _ _ => rfl⟩
  have validNext : ExtentMap.Valid ⟨8, 8, 24, 8, flags, 0⟩ :=
    ⟨by decide, by decide, by decide, by decide, fun _ _ => rfl⟩
  have spec := (extentMap_correct run valid).2.1 ⟨8, 8, 24, 8, flags, 0⟩ validNext
  exact ⟨merged, spec.2⟩

/-- An extent that is not compressed and takes more of the disk than of the file is merged with the next one
  all the same, whose offsets are then translated otherwise; and a lookup of an empty range returns the
  extent around it. -/
theorem extentMap_unequal_blocks :
    let flags : Flags := ⟨false, false, false, false⟩
    addExtentMapping .leaf ⟨0, 4096, 0, 8192, flags, 0⟩ = some [⟨0, 4096, 0, 8192, flags, 0⟩] ∧
      (∃ list, addExtentMapping (.node .leaf ⟨0, 4096, 0, 8192, flags, 0⟩ .leaf) ⟨4096, 4096, 8192,
        4096, flags, 0⟩ =
        some list ∧ translate list 4096 ≠ some (place ⟨4096, 4096, 8192, 4096, flags, 0⟩ 4096)) ∧
      lookupExtentMapping (.node .leaf ⟨0, 4096, 0, 8192, flags, 0⟩ .leaf) 1 0 =
        some ⟨[], ⟨0, 4096, 0, 8192, flags, 0⟩, []⟩ := by
  refine ⟨by decide, ⟨[⟨0, 8192, 0, 12288, ⟨false, false, false, false⟩, 0⟩], ?_⟩, by decide⟩
  exact ⟨by decide, by decide⟩

end LinuxKernel.Fs.Btrfs
