/-
Module: LinuxKernel.Proofs.IdrSearch
Purpose: What the tree of an idr looks like between two calls, and what `install`, `sub_remove` and
  `idr_replace` do on the path of an id. `sub_alloc` finds the smallest free id from a starting id on among
  those the tree covers, or asks for a taller tree; on its way it may create empty layers.
Trusted boundary: none
Main exports: Shape, install_spec, subRemove_spec, subAlloc_spec
-/
import LinuxKernel.Library.PathTree
import LinuxKernel.Lib.Idr

namespace LinuxKernel.Lib.Idr

open Library Function Nat

variable {Item : Type} {p p' : Layer (Entry Item)} {entry entry' child : Entry Item} {id level height n : Nat}

/-! ### Ids -/

theorem idrSize_eq : idrSize = 64 := rfl

theorem pow_idrBits (level : Nat) : 2 ^ (idrBits * level) = 64 ^ level := by
  rw [Nat.pow_mul]
  rfl

theorem entryOf_eq (level id : Nat) : entryOf level id = digit 64 level id := by
  have mask : idrMask = 2 ^ 6 - 1 := rfl
  rw [entryOf, shiftRight_eq_div_pow, pow_idrBits, mask, and_two_pow_sub_one_eq_mod, digit]

theorem and_idrMask (id : Nat) : id &&& idrMask = digit 64 0 id := by
  rw [← entryOf_eq]
  simp [entryOf]

theorem digit_lt_idrSize (level id : Nat) : digit 64 level id < idrSize :=
  digit_lt (by decide)

theorem shift_idrBits (level : Nat) : 1 <<< (level * idrBits) = 64 ^ level := by
  rw [one_shiftLeft, Nat.mul_comm, pow_idrBits]

/-! ### Entries -/

@[simp] theorem isNull_null : (Entry.null : Entry Item).isNull = true := rfl

@[simp] theorem isNull_layer (p : Layer (Entry Item)) : (Entry.layer p).isNull = false := rfl

theorem isNull_iff : entry.isNull = true ↔ entry = .null := by
  cases entry <;> simp [Entry.isNull]

theorem isNull_eq_false : entry.isNull = false ↔ entry ≠ .null := by
  cases entry <;> simp [Entry.isNull]

theorem isFull_iff : p.isFull = true ↔ ∀ n < idrSize, p.bitmap n = true := by
  simp only [Layer.isFull, List.all_eq_true, List.mem_range]

theorem isFull_eq_false : p.isFull = false ↔ ∃ n < idrSize, p.bitmap n = false := by
  simp only [Layer.isFull, List.all_eq_false, List.mem_range, Bool.not_eq_true]

/-- The entry points to a layer whose bitmap is full. -/
def entryFull : Entry Item → Bool
  | .layer p => p.isFull
  | _ => false

@[simp] theorem entryFull_null : entryFull (Entry.null : Entry Item) = false := rfl

@[simp] theorem entryFull_layer (p : Layer (Entry Item)) : entryFull (.layer p) = p.isFull := rfl

/-! ### Shape -/

/-- What `count` counts: set bits in a leaf, children in the layers above. -/
def counted (level : Nat) (p : Layer (Entry Item)) (n : Nat) : Bool :=
  if level = 0 then p.bitmap n else !(p.ary n).isNull

/-- A layer the given number of levels above the leaves. -/
structure LayerShape (level : Nat) (Child : Entry Item → Prop) (p : Layer (Entry Item)) :
    Prop where
  layer_eq : p.layer = level
  count_eq : p.count = countBelow (counted level p) idrSize
  children : ∀ n < idrSize, Child (p.ary n)
  leaf_unused : level = 0 → ∀ n < idrSize, p.bitmap n = false → p.ary n = .null
  inner_full : level ≠ 0 → ∀ n < idrSize, p.bitmap n = entryFull (p.ary n)

/-- What an entry may hold with the given number of layers from it down. -/
def Shape : Nat → Entry Item → Prop
  | 0, .layer _ => False
  | 0, _ => True
  | _ + 1, .null => True
  | _ + 1, .user _ => False
  | level + 1, .layer p => LayerShape level (Shape level) p

@[simp] theorem shape_null (height : Nat) : Shape height (Entry.null : Entry Item) := by
  cases height <;> trivial

@[simp] theorem shape_succ_layer : Shape (level + 1) (.layer p) ↔ LayerShape level (Shape level) p :=
  Iff.rfl

/-- Induction down a tree: an entry is empty, a leaf, or a layer with entries one level lower. -/
theorem Shape.walk {motive : (entry : Entry Item) → (level : Nat) → Shape (level + 1) entry → Prop}
    (null : ∀ level, motive .null level trivial)
    (leaf : ∀ {p} (shape : LayerShape 0 (Shape 0) p), motive (.layer p) 0 shape)
    (inner : ∀ level p (_ : level + 1 ≠ 0) (shape : LayerShape (level + 1) (Shape (level + 1)) p),
      (∀ n small, motive (p.ary n) level (shape.children n small)) → motive (.layer p) (level + 1) shape)
    (shape : Shape (level + 1) entry) : motive entry level shape := by
  induction level generalizing entry with
  | zero =>
    cases entry with
    | null => exact null _
    | user item => exact shape.elim
    | layer p => exact leaf shape
  | succ level ih =>
    cases entry with
    | null => exact null _
    | user item => exact shape.elim
    | layer p => exact inner level p (succ_ne_zero level) shape fun n small => ih (shape.children n small)

theorem shape_ofUser (ptr : Option Item) : Shape 0 (Entry.ofUser ptr) := by
  cases ptr <;> trivial

/-- A layer with no bit set and nothing in it. -/
structure Clean (p : Layer (Entry Item)) : Prop where
  count_eq : p.count = 0
  ary_null : ∀ n < idrSize, p.ary n = .null
  bitmap_clear : ∀ n < idrSize, p.bitmap n = false

/-- A layer off the free list, its link taken out and its level set. -/
theorem Clean.unlinked (clean : Clean p) (level : Nat) :
    Clean { p with ary := update p.ary 0 .null, layer := level } where
  count_eq := clean.count_eq
  ary_null n small := by
    by_cases first : n = 0
    · simp only [first, update_self]
    · simp only [update_of_ne first, clean.ary_null n small]
  bitmap_clear := clean.bitmap_clear

theorem Clean.isFull_eq (clean : Clean p) : p.isFull = false :=
  isFull_eq_false.mpr ⟨0, by decide, clean.bitmap_clear 0 (by decide)⟩

/-- A clean layer is an empty tree at any level. -/
theorem Clean.shape (clean : Clean p) (layerEq : p.layer = level) : LayerShape level (Shape level) p where
  layer_eq := layerEq
  count_eq := by
    rw [clean.count_eq, eq_comm, countBelow_eq_zero]
    intro n small
    simp [counted, clean.bitmap_clear n small, clean.ary_null n small]
  children := by
    intro n small
    rw [clean.ary_null n small]
    exact shape_null level
  leaf_unused _ n small _ := clean.ary_null n small
  inner_full := by
    intro _ n small
    rw [clean.bitmap_clear n small, clean.ary_null n small, entryFull_null]

theorem LayerShape.clean (shape : LayerShape level (Shape level) p) (empty : p.count = 0) : Clean p := by
  have none := countBelow_eq_zero.mp (shape.count_eq.symm.trans empty)
  by_cases leaf : level = 0
  · have clear : ∀ n < idrSize, p.bitmap n = false := by
      intro n small
      simpa [counted, leaf] using none n small
    exact ⟨empty, fun n small => shape.leaf_unused leaf n small (clear n small), clear⟩
  · have null : ∀ n < idrSize, p.ary n = .null := by
      intro n small
      exact isNull_iff.mp (by simpa [counted, leaf] using none n small)
    refine ⟨empty, null, fun n small => ?_⟩
    rw [shape.inner_full leaf n small, null n small, entryFull_null]

/-- Putting something else in one entry, with its bit and the count moved along. -/
theorem LayerShape.replace (shape : LayerShape level (Shape level) p) (nLt : n < idrSize)
    (sameLayer : p'.layer = p.layer) (ary : p'.ary = update p.ary n child)
    (childShape : Shape level child)
    (otherBits : ∀ entry < idrSize, entry ≠ n → p'.bitmap entry = p.bitmap entry)
    (count : p'.count + (counted level p n).toNat = p.count + (counted level p' n).toNat)
    (leaf : level = 0 → p'.bitmap n = false → child = .null)
    (inner : level ≠ 0 → p'.bitmap n = entryFull child) :
    LayerShape level (Shape level) p' := by
  have here : p'.ary n = child := by rw [ary, update_self]
  have there : ∀ entry, entry ≠ n → p'.ary entry = p.ary entry := by
    intro entry ne
    rw [ary, update_of_ne ne]
  refine ⟨sameLayer.trans shape.layer_eq, ?_, ?_, ?_, ?_⟩
  · have moved := countBelow_update (counted level p) (counted level p') nLt fun entry small ne => by
        simp only [counted, there entry ne, otherBits entry small ne]
    rw [← shape.count_eq] at moved
    omega
  · intro entry small
    rcases eq_or_ne entry n with rfl | same
    · exact here ▸ childShape
    · rw [there entry same]
      exact shape.children entry small
  · intro atBottom entry small clear
    rcases eq_or_ne entry n with rfl | same
    · rw [here]
      exact leaf atBottom clear
    · rw [otherBits entry small same] at clear
      rw [there entry same]
      exact shape.leaf_unused atBottom entry small clear
  · intro above entry small
    rcases eq_or_ne entry n with rfl | same
    · rw [here]
      exact inner above
    · rw [otherBits entry small same, there entry same]
      exact shape.inner_full above entry small

/-! ### What a lookup reads -/

/-- What is stored on the path of an id, from the given height on. -/
def lookup (id : Nat) : Nat → Entry Item → Entry Item
  | 0, entry => entry
  | height + 1, .layer p => lookup id height (p.ary (digit 64 height id))
  | _ + 1, _ => .null

@[simp] theorem lookup_null (id height : Nat) : lookup id height (.null : Entry Item) = .null := by
  cases height <;> rfl

theorem lookup_succ (id height : Nat) (p : Layer (Entry Item)) :
    lookup id (height + 1) (.layer p) = lookup id height (p.ary (digit 64 height id)) := rfl

variable {position : Nat}

/-- Overwriting what the child reads at one id overwrites what the layer reads there. -/
theorem lookup_overwrite {value : Entry Item} (ary : p'.ary = update p.ary (digit 64 height id) child)
    (below : ∀ key, lookup key height child =
      if key % 64 ^ height = id % 64 ^ height then value
      else lookup key height (p.ary (digit 64 height id))) :
    lookup key (height + 1) (.layer p') =
      if key % 64 ^ (height + 1) = id % 64 ^ (height + 1) then value
      else lookup key (height + 1) (.layer p) := by
  rw [lookup_succ, lookup_succ, ary, update_apply]
  simp only [mod_pow_succ_eq_iff (show 0 < 64 by decide)]
  by_cases entry : digit 64 height key = digit 64 height id
  · simp only [entry, true_and, if_true, below]
  · simp only [entry, false_and, if_false]

/-- Replacing a child by one that reads the same changes no lookup. -/
theorem lookup_unchanged (ary : p'.ary = update p.ary n child)
    (below : ∀ key, lookup key height child = lookup key height (p.ary n)) :
    lookup key (height + 1) (.layer p') = lookup key (height + 1) (.layer p) := by
  rw [lookup_succ, lookup_succ, ary, update_apply]
  split
  · next entry => rw [below, entry]
  · rfl

/-! ### What a bit reads -/

@[simp] theorem taken_null (id height : Nat) : taken id height (.null : Entry Item) = false := by
  cases height with
  | zero => rfl
  | succ height => cases height <;> rfl

theorem taken_one (id : Nat) (p : Layer (Entry Item)) : taken id 1 (.layer p) = p.bitmap (digit 64 0 id) := by
  rw [taken, entryOf_eq]

theorem taken_succ (id : Nat) (p : Layer (Entry Item)) (above : height ≠ 0) :
    taken id (height + 1) (.layer p) = taken id height (p.ary (digit 64 height id)) := by
  cases height with
  | zero => exact absurd rfl above
  | succ height =>
    rw [taken, entryOf_eq]
    exact succ_ne_zero height

/-- A bit is read through the digits below its height only. -/
theorem taken_congr {other : Nat} (entry : Entry Item) (same : id % 64 ^ height = other % 64 ^ height) :
    taken id height entry = taken other height entry := by
  induction height generalizing entry with
  | zero => rfl
  | succ height ih =>
    obtain ⟨digits, below⟩ := (mod_pow_succ_eq_iff (by decide)).mp same
    cases entry with
    | null => rw [taken_null, taken_null]
    | user item => cases height <;> rfl
    | layer p =>
      by_cases leaf : height = 0
      · subst leaf
        rw [taken_one, taken_one, digits]
      · rw [taken_succ _ _ leaf, taken_succ _ _ leaf, digits]
        exact ih _ below

theorem Clean.taken (clean : Clean p) : taken id (level + 1) (.layer p) = false := by
  by_cases leaf : level = 0
  · subst leaf
    rw [taken_one, clean.bitmap_clear _ (digit_lt_idrSize ..)]
  · rw [taken_succ _ _ leaf, clean.ary_null _ (digit_lt_idrSize ..), taken_null]

/-- Nothing is stored below a clean layer. -/
theorem Clean.lookup (clean : Clean p) : lookup id (level + 1) (.layer p) = .null := by
  rw [lookup_succ, clean.ary_null _ (digit_lt_idrSize ..), lookup_null]

/-- An id whose bit is clear has nothing stored. -/
theorem lookup_of_not_taken (shape : Shape (level + 1) entry)
    (free : taken id (level + 1) entry = false) : lookup id (level + 1) entry = .null := by
  induction shape using Shape.walk with
  | null level => cases level <;> rfl
  | leaf shape =>
    rw [taken_one] at free
    exact shape.leaf_unused rfl _ (digit_lt_idrSize ..) free
  | inner level p above shape ih =>
    rw [taken_succ _ _ above] at free
    exact ih _ (digit_lt_idrSize ..) free

/-- A full bitmap stands for a tree in which every id is taken. -/
theorem entryFull_iff (shape : Shape (level + 1) entry) :
    entryFull entry = true ↔ ∀ id, taken id (level + 1) entry = true := by
  induction shape using Shape.walk with
  | null => simp
  | leaf shape =>
    simp only [entryFull_layer, isFull_iff, Nat.zero_add, taken_one]
    constructor
    · intro full id
      exact full _ (digit_lt_idrSize ..)
    · intro full n small
      have low : n < 64 := small
      simpa [digit, mod_eq_of_lt low] using full n
  | inner level p above shape ih =>
    simp only [entryFull_layer, isFull_iff, taken_succ _ _ above]
    constructor
    · intro full id
      have small := digit_lt_idrSize (level + 1) id
      have bit := full _ small
      rw [shape.inner_full above _ small] at bit
      exact (ih _ small).mp bit id
    · intro full n small
      rw [shape.inner_full above n small, ih n small]
      intro id
      have lowLt : id % 64 ^ (level + 1) < 64 ^ (level + 1) :=
        mod_lt id (Nat.pow_pos (by decide))
      obtain ⟨_, entry, below⟩ := digit_compose small lowLt
      rw [idrSize_eq] at entry below
      have bit := full (n * 64 ^ (level + 1) + id % 64 ^ (level + 1))
      rwa [entry, taken_congr _ below] at bit

theorem entryFull_eq_false (shape : Shape (level + 1) entry)
    (free : taken id (level + 1) entry = false) : entryFull entry = false := by
  rw [← Bool.not_eq_true]
  intro full
  rw [(entryFull_iff shape).mp full id] at free
  cases free

/-- Overwriting the bit of one id in the child, or in the layer itself if it is a leaf, overwrites
it in the layer. -/
theorem taken_overwrite {bit : Bool} (ary : p'.ary = update p.ary (digit 64 level id) child)
    (leaf : level = 0 → p'.bitmap = update p.bitmap (digit 64 level id) bit)
    (below : level ≠ 0 → ∀ key, taken key level child =
      if key % 64 ^ level = id % 64 ^ level then bit
      else taken key level (p.ary (digit 64 level id))) :
    taken key (level + 1) (.layer p') = if key % 64 ^ (level + 1) = id % 64 ^ (level + 1) then bit
      else taken key (level + 1) (.layer p) := by
  simp only [mod_pow_succ_eq_iff (show 0 < 64 by decide)]
  by_cases atBottom : level = 0
  · subst atBottom
    rw [taken_one, taken_one, leaf rfl, update_apply]
    simp [mod_one]
  · rw [taken_succ _ _ atBottom, taken_succ _ _ atBottom, ary, update_apply]
    by_cases entry : digit 64 level key = digit 64 level id
    · simp only [entry, true_and, if_true, below atBottom]
    · simp only [entry, false_and, if_false]

/-- Replacing a child by one with the same bits, leaving those of a leaf, changes no bit. -/
theorem taken_unchanged (ary : p'.ary = update p.ary n child) (leaf : level = 0 → p'.bitmap = p.bitmap)
    (below : level ≠ 0 → ∀ key, taken key level child = taken key level (p.ary n)) :
    taken key (level + 1) (.layer p') = taken key (level + 1) (.layer p) := by
  by_cases atBottom : level = 0
  · subst atBottom
    rw [taken_one, taken_one, leaf rfl]
  · rw [taken_succ _ _ atBottom, taken_succ _ _ atBottom, ary, update_apply]
    split
    · next entry => rw [below atBottom, entry]
    · rfl

/-! ### Storing a pointer -/

/-- Every layer on the path of the id is there. -/
def Path (id : Nat) : Nat → Entry Item → Prop
  | 0, _ => True
  | height + 1, .layer p => Path id height (p.ary (digit 64 height id))
  | _ + 1, _ => False

/-- What storing a pointer at an id does. -/
structure Installed (id : Nat) (ptr : Option Item) (height : Nat) (entry entry' : Entry Item) :
    Prop where
  shape : Shape height entry'
  bits : ∀ position, taken position height entry' =
    if position % 64 ^ height = id % 64 ^ height then true else taken position height entry
  reads : ∀ position, lookup position height entry' =
    if position % 64 ^ height = id % 64 ^ height then .ofUser ptr
    else lookup position height entry

theorem install_one (id : Nat) (ptr : Entry Item) (p : Layer (Entry Item)) : install id ptr 1 (.layer p) =
      let p := { p with
        ary := update p.ary (digit 64 0 id) ptr
        count := p.count + 1
        bitmap := update p.bitmap (digit 64 0 id) true }
      (.layer p, p.isFull) := by
  rw [install, and_idrMask]

theorem install_succ (id : Nat) (ptr : Entry Item) (p : Layer (Entry Item)) (level : Nat) :
    install id ptr (level + 2) (.layer p) =
      let (child, goOn) := install id ptr (level + 1) (p.ary (digit 64 (level + 1) id))
      let p := { p with ary := update p.ary (digit 64 (level + 1) id) child }
      if goOn then
        let p := { p with bitmap := update p.bitmap (digit 64 (level + 1) id) true }
        (.layer p, p.isFull)
      else (.layer p, false) := by
  rw [install, entryOf_eq]
  exact succ_ne_zero level

/-- `install` on the path of a free id whose layers are all there. The loop of `idr_mark_full` goes
on exactly when the layer is full. -/
theorem install_spec (ptr : Option Item) (shape : Shape (level + 1) entry)
    (path : Path id (level + 1) entry) (free : taken id (level + 1) entry = false) :
    Installed id ptr (level + 1) entry (install id (.ofUser ptr) (level + 1) entry).1 ∧
      (install id (.ofUser ptr) (level + 1) entry).1.isNull = false ∧
      (install id (.ofUser ptr) (level + 1) entry).2 =
        entryFull (install id (.ofUser ptr) (level + 1) entry).1 := by
  induction shape using Shape.walk with
  | null => exact path.elim
  | leaf shape =>
    have nLt := digit_lt_idrSize 0 id
    rw [taken_one] at free
    rw [install_one]
    refine ⟨⟨?_, fun key => ?_, fun key => ?_⟩, rfl, rfl⟩
    · refine shape.replace nLt rfl rfl (shape_ofUser ptr) ?_ ?_ ?_ fun above => absurd rfl above
      · intro entry _ ne
        exact update_of_ne ne ..
      · simp [counted, free]
      · simp
    · exact taken_overwrite rfl (fun _ => rfl) fun above => absurd rfl above
    · exact lookup_overwrite rfl fun key => by simp [lookup, mod_one]
  | inner level p above shape ih =>
    have nLt := digit_lt_idrSize (level + 1) id
    rw [taken_succ _ _ above] at free
    obtain ⟨installed, nonnull, goesOn⟩ :=
      ih _ nLt path free
    have deeper : Path id (level + 1) (p.ary (digit 64 (level + 1) id)) := path
    have used : (p.ary (digit 64 (level + 1) id)).isNull = false := by
      rw [isNull_eq_false]
      intro null
      rw [null] at deeper
      exact deeper.elim
    have clear : p.bitmap (digit 64 (level + 1) id) = false := by
      rw [shape.inner_full above _ nLt]
      exact entryFull_eq_false (shape.children _ nLt) free
    rw [install_succ]
    generalize install id (.ofUser ptr) (level + 1) (p.ary (digit 64 (level + 1) id)) =
      result at installed nonnull goesOn
    obtain ⟨child, goOn⟩ := result
    cases goOn with
    | true =>
      refine ⟨⟨?_, fun key => ?_, fun key => ?_⟩, rfl, rfl⟩
      · refine shape.replace nLt rfl rfl installed.shape ?_ ?_ (fun leaf => absurd leaf above) fun _ => ?_
        · intro entry _ ne
          exact update_of_ne ne ..
        · simp [counted, used, nonnull]
        · rw [← goesOn]
          exact update_self ..
      · exact taken_overwrite rfl (fun leaf => absurd leaf above) fun _ => installed.bits
      · exact lookup_overwrite rfl installed.reads
    | false =>
      refine ⟨⟨?_, fun key => ?_, fun key => ?_⟩, rfl, ?_⟩
      · refine shape.replace nLt rfl rfl installed.shape (fun _ _ _ => rfl) ?_
          (fun leaf => absurd leaf above) fun _ => ?_
        · simp [counted, used, nonnull]
        · rw [← goesOn]
          exact clear
      · exact taken_overwrite rfl (fun leaf => absurd leaf above) fun _ => installed.bits
      · exact lookup_overwrite rfl installed.reads
      · exact (isFull_eq_false.mpr ⟨_, nLt, clear⟩).symm

/-! ### Removing an id -/

/-- What removing an id does, allocated or not. -/
structure Removed (id height : Nat) (entry : Entry Item) (removed : Bool) (entry' : Entry Item) :
    Prop where
  shape : Shape height entry'
  removed_eq : removed = taken id height entry
  bits : ∀ position, taken position height entry' =
    if position % 64 ^ height = id % 64 ^ height then false else taken position height entry
  reads : ∀ position, lookup position height entry' =
    if position % 64 ^ height = id % 64 ^ height then .null else lookup position height entry
  stays : removed = false → entry'.isNull = entry.isNull

/-- A layer that counts nothing any more may go. -/
theorem Removed.drop_empty {removed : Bool}
    (result : Removed id (level + 1) entry removed (.layer p)) (was : removed = true) :
    Removed id (level + 1) entry removed (if p.count = 0 then .null else .layer p) := by
  split_ifs with empty
  · have clean := LayerShape.clean result.shape empty
    refine ⟨trivial, result.removed_eq, fun key => ?_, fun key => ?_, by simp [was]⟩
    · rw [← result.bits, taken_null, clean.taken]
    · rw [← result.reads, lookup_null, clean.lookup]
  · exact result

/-- Nothing to remove below an empty entry. -/
theorem Removed.null : Removed id (level + 1) (.null : Entry Item) false .null where
  shape := trivial
  removed_eq := by simp
  bits position := by simp
  reads position := by simp
  stays _ := rfl

theorem subRemove_one (id : Nat) (p : Layer (Entry Item)) : subRemove id 1 (.layer p) =
      if p.bitmap (digit 64 0 id) then
        let p := { p with
          bitmap := update p.bitmap (digit 64 0 id) false
          ary := update p.ary (digit 64 0 id) .null
          count := p.count - 1 }
        (true, if p.count = 0 then .null else .layer p)
      else (false, .layer p) := by
  rw [subRemove, and_idrMask]

theorem subRemove_succ (id : Nat) (p : Layer (Entry Item)) (level : Nat) :
    subRemove id (level + 2) (.layer p) =
      let (removed, child) := subRemove id (level + 1) (p.ary (digit 64 (level + 1) id))
      let p := { p with
        bitmap := update p.bitmap (digit 64 (level + 1) id) false
        ary := update p.ary (digit 64 (level + 1) id) child }
      if removed && child.isNull then
        let p := { p with count := p.count - 1 }
        (true, if p.count = 0 then .null else .layer p)
      else (removed, .layer p) := by
  rw [subRemove, entryOf_eq]
  exact succ_ne_zero level

theorem subRemove_leaf (shape : LayerShape 0 (Shape 0) p) :
    Removed id 1 (.layer p) (subRemove id 1 (.layer p)).1 (subRemove id 1 (.layer p)).2 := by
  have nLt := digit_lt_idrSize 0 id
  rw [subRemove_one]
  cases bit : p.bitmap (digit 64 0 id) with
  | false =>
    have free : taken id 1 (.layer p) = false := by rw [taken_one, bit]
    simp only [Bool.false_eq_true, if_false]
    refine ⟨shape, free.symm, fun key => ?_, fun key => ?_, fun _ => rfl⟩
    · split
      · next same => rw [taken_congr _ same, free]
      · rfl
    · split
      · next same =>
          refine lookup_of_not_taken (shape_succ_layer.mpr shape) ?_
          rw [taken_congr _ same, free]
      · rfl
  | true =>
    simp only [if_true]
    have after : Shape 1 (.layer { p with
        bitmap := update p.bitmap (digit 64 0 id) false
        ary := update p.ary (digit 64 0 id) .null
        count := p.count - 1 }) := by
      have pos : 0 < p.count := by
        rw [shape.count_eq]
        exact countBelow_pos nLt (by simp [counted, bit])
      refine shape.replace nLt rfl rfl trivial ?_ ?_ (fun _ _ => rfl) fun above => absurd rfl above
      · intro entry _ ne
        exact update_of_ne ne ..
      · simp [counted, bit]
        omega
    refine Removed.drop_empty ⟨after, by rw [taken_one, bit], fun key => ?_,
      fun key => ?_, by simp⟩ rfl
    · exact taken_overwrite rfl (fun _ => rfl) fun above => absurd rfl above
    · exact lookup_overwrite rfl fun key => by simp [mod_one]

/-- `sub_remove` on the path of an id, allocated or not. -/
theorem subRemove_spec (shape : Shape (level + 1) entry) :
    Removed id (level + 1) entry (subRemove id (level + 1) entry).1 (subRemove id (level + 1) entry).2 := by
  induction shape using Shape.walk with
  | null level => cases level <;> exact .null
  | leaf shape => exact subRemove_leaf shape
  | inner level p above shape ih =>
    have nLt := digit_lt_idrSize (level + 1) id
    have below := ih _ nLt
    rw [subRemove_succ]
    generalize subRemove id (level + 1) (p.ary (digit 64 (level + 1) id)) = result at below
    obtain ⟨removed, child⟩ := result
    dsimp only at below ⊢
    have gone : taken id (level + 1) child = false := by rw [below.bits, if_pos rfl]
    have notFull : entryFull child = false := entryFull_eq_false below.shape gone
    have same : removed = taken id (level + 2) (.layer p) := by
      rw [below.removed_eq, taken_succ _ _ above]
    -- The layer after the walk, whatever its count becomes.
    have after (count : Nat) (moved : count + (!(p.ary (digit 64 (level + 1) id)).isNull).toNat =
          p.count + (!child.isNull).toNat) :
        LayerShape (level + 1) (Shape (level + 1)) { p with
          bitmap := update p.bitmap (digit 64 (level + 1) id) false
          ary := update p.ary (digit 64 (level + 1) id) child
          count := count } := by
      refine shape.replace nLt rfl rfl below.shape ?_ ?_ (fun leaf => absurd leaf above) fun _ => ?_
      · intro entry _ ne
        exact update_of_ne ne ..
      · simpa [counted] using moved
      · rw [notFull]
        exact update_self ..
    cases removed with
    | false =>
      have stays := below.stays rfl
      refine ⟨after p.count (by rw [stays]), same, fun key => ?_,
        fun key => lookup_overwrite rfl below.reads, fun _ => rfl⟩
      exact taken_overwrite rfl (fun leaf => absurd leaf above) fun _ => below.bits
    | true =>
      have used : (p.ary (digit 64 (level + 1) id)).isNull = false := by
        rw [isNull_eq_false]
        intro null
        have taken := below.removed_eq
        rw [null, taken_null] at taken
        cases taken
      have pos : 0 < p.count := by
        rw [shape.count_eq]
        exact countBelow_pos nLt (by simp [counted, used])
      cases null : child.isNull with
      | true =>
        refine Removed.drop_empty ⟨after (p.count - 1) ?_, same, fun key => ?_,
          fun key => lookup_overwrite rfl below.reads, by simp⟩ rfl
        · rw [used, null]
          simp
          omega
        · exact taken_overwrite rfl (fun leaf => absurd leaf above) fun _ => below.bits
      | false =>
        refine ⟨after p.count (by rw [used, null]), same, fun key => ?_,
          fun key => lookup_overwrite rfl below.reads, by simp⟩
        exact taken_overwrite rfl (fun leaf => absurd leaf above) fun _ => below.bits

/-! ### Replacing a pointer -/

theorem replaceLoop_one (id : Nat) (ptr : Entry Item) (p : Layer (Entry Item)) :
    replaceLoop id ptr 1 (.layer p) = if p.bitmap (digit 64 0 id) then
        some (p.ary (digit 64 0 id), .layer { p with ary := update p.ary (digit 64 0 id) ptr })
      else none := by
  rw [replaceLoop, and_idrMask]

theorem replaceLoop_succ (id : Nat) (ptr : Entry Item) (p : Layer (Entry Item)) (level : Nat) :
    replaceLoop id ptr (level + 2) (.layer p) =
      (replaceLoop id ptr (level + 1) (p.ary (digit 64 (level + 1) id))).map fun result =>
        (result.1, .layer { p with
          ary := update p.ary (digit 64 (level + 1) id) result.2 }) := by
  rw [replaceLoop, entryOf_eq]
  · cases replaceLoop id ptr (level + 1) (p.ary (digit 64 (level + 1) id)) <;> rfl
  · exact succ_ne_zero level

/-- What replacing the pointer of an allocated id does. -/
structure Replaced (id : Nat) (ptr : Option Item) (height : Nat) (entry entry' : Entry Item) :
    Prop where
  shape : Shape height entry'
  stays : entry'.isNull = entry.isNull
  full : entryFull entry' = entryFull entry
  bits : ∀ position, taken position height entry' = taken position height entry
  reads : ∀ position, lookup position height entry' =
    if position % 64 ^ height = id % 64 ^ height then .ofUser ptr
    else lookup position height entry

theorem replaceLoop_spec (ptr : Option Item) (shape : Shape (level + 1) entry)
    (alloc : taken id (level + 1) entry = true) :
    ∃ entry', replaceLoop id (.ofUser ptr) (level + 1) entry = some (lookup id (level + 1) entry, entry') ∧
      Replaced id ptr (level + 1) entry entry' := by
  induction shape using Shape.walk with
  | null => rw [taken_null] at alloc; cases alloc
  | leaf shape =>
    have nLt := digit_lt_idrSize 0 id
    rw [taken_one] at alloc
    refine ⟨_, (replaceLoop_one ..).trans (if_pos alloc), ?_, rfl, rfl,
      fun key => ?_, fun key => ?_⟩
    · refine shape.replace nLt rfl rfl (shape_ofUser ptr) (fun _ _ _ => rfl) ?_ ?_
        fun above => absurd rfl above
      · simp [counted]
      · simp [alloc]
    · exact taken_unchanged rfl (fun _ => rfl) fun above => absurd rfl above
    · exact lookup_overwrite rfl fun key => by simp [lookup, mod_one]
  | inner level p above shape ih =>
    have nLt := digit_lt_idrSize (level + 1) id
    rw [taken_succ _ _ above] at alloc
    obtain ⟨child, result, below⟩ := ih _ nLt alloc
    refine ⟨_, (replaceLoop_succ ..).trans (congrArg _ result), ?_, rfl, rfl,
      fun key => ?_, fun key => lookup_overwrite rfl below.reads⟩
    · refine shape.replace nLt rfl rfl below.shape (fun _ _ _ => rfl) ?_
        (fun leaf => absurd leaf above) fun _ => ?_
      · simp [counted, below.stays]
      · rw [below.full]
        exact shape.inner_full above _ nLt
    · exact taken_unchanged rfl (fun _ => rfl) fun _ => below.bits

/-- The descent of `idr_replace` to an id that is not allocated. -/
theorem replaceLoop_none (ptr : Entry Item) (shape : Shape (level + 1) entry)
    (free : taken id (level + 1) entry = false) : replaceLoop id ptr (level + 1) entry = none := by
  induction shape using Shape.walk with
  | null level => cases level <;> rfl
  | leaf shape =>
    rw [taken_one] at free
    rw [replaceLoop_one, free]
    rfl
  | inner level p above shape ih =>
    rw [taken_succ _ _ above] at free
    rw [replaceLoop_succ, ih _ (digit_lt_idrSize ..) free]
    rfl

variable {Item : Type} {p p' p'' : Layer (Entry Item)} {free free' : List (Layer (Entry Item))}
  {id level n m : Nat}

/-! ### Ids as 32 bits -/

/-- Setting all low bits of an id and adding one. -/
theorem or_low_bits (id bits : Nat) : (id ||| (2 ^ bits - 1)) + 1 = (id / 2 ^ bits + 1) * 2 ^ bits := by
  have pos : 0 < 2 ^ bits := Nat.two_pow_pos bits
  have set : id ||| (2 ^ bits - 1) = 2 ^ bits * (id / 2 ^ bits) + (2 ^ bits - 1) := by
    refine eq_of_testBit_eq fun key => ?_
    rw [testBit_two_pow_mul_add _ (sub_one_lt_of_lt pos), testBit_or, testBit_two_pow_sub_one]
    by_cases low : key < bits
    · simp [low]
    · simp only [low, decide_false, Bool.or_false, if_false, testBit_div_two_pow]
      rw [Nat.sub_add_cancel (Nat.le_of_not_lt low)]
  rw [succ_mul, mul_comm]
  omega

/-- Two exclusive ors replace the low six bits. -/
theorem xor_low_bits (quotient : Nat) (small : m < 64) :
    quotient ^^^ quotient % 64 ^^^ m = quotient / 64 * 64 + m := by
  rw [mul_comm]
  refine eq_of_testBit_eq fun key => ?_
  rw [show 64 = 2 ^ 6 by rfl, testBit_two_pow_mul_add _ small, testBit_xor,
    testBit_xor, testBit_mod_two_pow, testBit_div_two_pow]
  by_cases low : key < 6
  · simp [low]
  · have high : m.testBit key = false :=
      testBit_lt_two_pow (lt_of_lt_of_le small (Nat.pow_le_pow_right Nat.two_pos (Nat.le_of_not_lt low)))
    simp only [low, decide_false, Bool.false_and, Bool.xor_false, high, if_false]
    rw [Nat.sub_add_cancel (Nat.le_of_not_lt low)]

/-- Up to five layers divide the ids evenly. -/
theorem entryEnd_le_maxIdBit (inTree : level ≤ 5) (bounded : id < 2 ^ 31) :
    entryEnd 64 level id ≤ 2 ^ 31 := by
  have split : 2 ^ 31 = 2 ^ (31 - 6 * level) * 64 ^ level := by
    rw [← pow_idrBits, ← Nat.pow_add]
    congr 1
    unfold idrBits
    omega
  rw [split]
  refine Nat.mul_le_mul_right _ (succ_le_of_lt ?_)
  rw [Nat.div_lt_iff_lt_mul (Nat.pow_pos (by decide)), ← split]
  exact bounded

variable {next first second layers restarts : Nat}

/-- The ids of a layer are not negative if one of them is not. -/
theorem lt_of_inLayer (inTree : level ≤ 5) (bounded : id < 2 ^ 31)
    (inLayer : next / 64 ^ level = id / 64 ^ level) : next < 2 ^ 31 := by
  refine lt_of_lt_of_le ?_ (entryEnd_le_maxIdBit inTree bounded)
  rw [← entryEnd_congr inLayer]
  exact lt_entryEnd (by decide)

/-- The first id after those of an entry is still an `unsigned`. -/
theorem entryEnd_lt_wrap (inTree : level ≤ 5) (bounded : id ≤ 2 ^ 31) : entryEnd 64 level id < 2 ^ 32 := by
  have size : 64 ^ level ≤ 64 ^ 5 := Nat.pow_le_pow_right (by decide) inTree
  have start : id / 64 ^ level * 64 ^ level ≤ id := div_mul_le_self ..
  rw [entryEnd, succ_mul]
  omega

/-- The id with which `sub_alloc` leaves a layer upwards. -/
theorem climb_eq (inTree : level + 1 ≤ 5) (bounded : id ≤ 2 ^ 31) :
    wrap ((id ||| ((1 <<< (idrBits * (level + 1))) - 1)) + 1) = entryEnd 64 (level + 1) id := by
  rw [one_shiftLeft, or_low_bits, pow_idrBits]
  exact mod_eq_of_lt (entryEnd_lt_wrap inTree bounded)

/-- The id after `sub_alloc` has moved to another entry of a layer. -/
theorem move_eq (inTree : level + 1 ≤ 5) (bounded : id ≤ 2 ^ 31) (small : m < 64) :
    wrap (((id >>> (idrBits * level)) ^^^ digit 64 level id ^^^ m) <<< (idrBits * level)) =
      entryStart 64 level id m := by
  have before : entryStart 64 level id m < 2 ^ 32 :=
    lt_trans (entryStart_lt_entryEnd small) (entryEnd_lt_wrap inTree bounded)
  rw [shiftRight_eq_div_pow, shiftLeft_eq, pow_idrBits, digit, xor_low_bits _ small, ← div_pow_succ]
  exact mod_eq_of_lt before

/-- What holds of the id in the round of a layer after the bit has been found. -/
structure Moved (level id m next : Nat) : Prop where
  forward : id ≤ next
  entry : digit 64 level next = m
  inLayer : next / 64 ^ (level + 1) = id / 64 ^ (level + 1)
  before : ∀ position, id ≤ position → position < next →
    digit 64 level id ≤ digit 64 level position ∧ digit 64 level position < m

theorem moved (inTree : level + 1 ≤ 5) (bounded : id ≤ 2 ^ 31) (ordered : digit 64 level id ≤ m)
    (small : m < 64) :
    Moved level id m (if m ≠ digit 64 level id then
      wrap (((id >>> (idrBits * level)) ^^^ digit 64 level id ^^^ m) <<< (idrBits * level))
      else id) := by
  by_cases same : m = digit 64 level id
  · rw [if_neg (not_not_intro same)]
    refine ⟨le_refl _, same.symm, rfl, fun key above below => ?_⟩
    exact absurd above (Nat.not_le_of_lt below)
  · have later : digit 64 level id < m := lt_of_le_of_ne ordered (Ne.symm same)
    rw [if_pos same, move_eq inTree bounded small]
    obtain ⟨entry, inLayer⟩ := @digit_entryStart _ _ _ m small
    refine ⟨?_, entry, inLayer, fun key above below => ⟨?_, ?_⟩⟩
    · exact le_trans (le_of_lt (lt_entryEnd (by decide))) (entryEnd_le_entryStart later)
    · exact digit_le_of_lt_entryEnd (by decide) above (lt_trans below (entryStart_lt_entryEnd small))
    · exact digit_lt_of_lt_entryStart small above below

theorem findNextBit_eq (bm : Nat → Bool) (left n : Nat) : findNextBit bm left n = findNextLoop bm left n := by
  induction left generalizing n with
  | zero => rfl
  | succ left ih => rw [findNextBit, findNextLoop, ih]

/-- The search for a clear bit of a layer, from an entry on. -/
theorem findClear_isNext (bitmap : Nat → Bool) (small : n < idrSize) :
    IsNext (fun i => !bitmap i) idrSize n (findNextBit (fun i => !bitmap i) (idrSize - n) n) := by
  have next := findNext_isNext (fun i => !bitmap i) idrSize n
  rwa [findNext, if_pos small, ← findNextBit_eq] at next

/-! ### What the search keeps -/

/-- A layer that reads as another one. -/
structure Kept (level : Nat) (p p' : Layer (Entry Item)) : Prop where
  shape : LayerShape level (Shape level) p'
  bits : ∀ position, taken position (level + 1) (.layer p') = taken position (level + 1) (.layer p)
  reads : ∀ position,
    lookup position (level + 1) (.layer p') = lookup position (level + 1) (.layer p)

theorem Kept.refl (shape : LayerShape level (Shape level) p) : Kept level p p :=
  ⟨shape, fun _ => rfl, fun _ => rfl⟩

theorem Kept.trans (first : Kept level p p') (second : Kept level p' p'') : Kept level p p'' where
  shape := second.shape
  bits position := (second.bits position).trans (first.bits position)
  reads position := (second.reads position).trans (first.reads position)

/-- Every id of an interval is taken, as far as the layer and those below it can tell. -/
def Exhausted (level : Nat) (p : Layer (Entry Item)) (first last : Nat) : Prop :=
  ∀ position, first ≤ position → position < last → taken position (level + 1) (.layer p) = true

theorem Exhausted.append {third : Nat} (low : Exhausted level p first second)
    (high : Exhausted level p second third) : Exhausted level p first third := by
  intro key above below
  rcases lt_or_ge key second with before | after
  · exact low key above before
  · exact high key after below

theorem Exhausted.of_kept (kept : Kept level p p') (all : Exhausted level p' first second) :
    Exhausted level p first second := by
  intro key above below
  rw [← kept.bits]
  exact all key above below

/-- A bit set in a layer stands for ids that are all taken. -/
theorem taken_of_bitmap (shape : LayerShape level (Shape level) p)
    (bit : p.bitmap (digit 64 level id) = true) : taken id (level + 1) (.layer p) = true := by
  cases level with
  | zero => rw [taken_one, bit]
  | succ level =>
    have above : level + 1 ≠ 0 := succ_ne_zero level
    have small := digit_lt_idrSize (level + 1) id
    rw [shape.inner_full above _ small] at bit
    rw [taken_succ _ _ above]
    exact (entryFull_iff (shape.children _ small)).mp bit id

/-- Every id before the next one to look at is taken, and no layer has been created. -/
structure Passed (level id : Nat) (p : Layer (Entry Item)) (free free' : List (Layer (Entry Item)))
    (next : Nat) : Prop where
  forward : id < next
  inside : next ≤ entryEnd 64 (level + 1) id
  all : Exhausted level p id next
  free_eq : free' = free

/-- Where the loop is when it leaves a layer, and what the layer and the free list are then. -/
def Outcome (layers level id : Nat) (p : Layer (Entry Item)) (free : List (Layer (Entry Item)))
    (p' : Layer (Entry Item)) (free' : List (Layer (Entry Item))) : SubAlloc → Prop
  | .found found =>
    id ≤ found ∧ found < entryEnd 64 (level + 1) id ∧
      taken found (level + 1) (.layer p) = false ∧ Exhausted level p id found ∧
      Path found (level + 1) (.layer p')
  | .noLayer => free.length < level
  | .climb oid next =>
    next = entryEnd 64 (level + 1) id ∧ oid / 64 ^ (level + 1) = id / 64 ^ (level + 1) ∧
      Passed level id p free free' next
  | .needToGrow next => Passed level id p free free' next ∧ intGe next (64 ^ layers) = true
  | .restart next => Passed level id p free free' next ∧ intGe next (64 ^ layers) = false
  | .noMoreSpace => False
  | .oops => False

/-- What the search from a layer on does. -/
structure Searched (layers level id : Nat) (p : Layer (Entry Item)) (free : List (Layer (Entry Item)))
    (result : SubAlloc × Layer (Entry Item) × List (Layer (Entry Item))) : Prop where
  kept : Kept level p result.2.1
  clean : ∀ q ∈ result.2.2, Clean q
  outcome : Outcome layers level id p free result.2.1 result.2.2 result.1

/-! ### The layer below -/

/-- The layer below an entry without its bit, which may have been created. -/
structure ChildLayer (level m : Nat) (p : Layer (Entry Item)) (free : List (Layer (Entry Item)))
    (child p' : Layer (Entry Item)) (free' : List (Layer (Entry Item))) : Prop where
  shape : LayerShape level (Shape level) child
  kept : Kept (level + 1) p p'
  child_eq : p'.ary m = .layer child
  clean : ∀ q ∈ free', Clean q
  old_or_empty : free' = free ∨ free.length = free'.length + 1 ∧
    ∀ position, taken position (level + 1) (.layer child) = false

theorem layerBelow_spec (shape : LayerShape (level + 1) (Shape (level + 1)) p) (mLt : m < idrSize)
    (clean : ∀ q ∈ free, Clean q) :
    (∃ child p' free', layerBelow p (level + 1) m free = .ok (child, p', free') ∧
        ChildLayer level m p free child p' free') ∨
      layerBelow p (level + 1) m free = .error .noLayer ∧ free = [] := by
  have childShape := shape.children m mLt
  rw [layerBelow]
  cases child : p.ary m with
  | layer q =>
    rw [child] at childShape
    exact .inl ⟨q, p, free, rfl, childShape, .refl shape, child, clean, .inl rfl⟩
  | user item =>
    rw [child] at childShape
    exact childShape.elim
  | null =>
    cases free with
    | nil => exact .inr ⟨rfl, rfl⟩
    | cons q rest =>
      have above : level + 1 ≠ 0 := succ_ne_zero level
      have new := (clean q List.mem_cons_self).unlinked level
      have newShape := new.shape rfl
      refine .inl ⟨_, _, rest, rfl, newShape, ⟨?_, fun key => ?_, fun key => ?_⟩,
        update_self .., fun q member => clean q (List.mem_cons_of_mem _ member),
        .inr ⟨rfl, fun key => new.taken⟩⟩
      · refine shape.replace mLt rfl rfl newShape (fun _ _ _ => rfl) ?_
          (fun leaf => absurd leaf above) fun _ => ?_
        · simp [counted, child]
        · rw [shape.inner_full above m mLt, child]
          exact new.isFull_eq.symm
      · refine taken_unchanged rfl (fun _ => rfl) fun _ key => ?_
        rw [child, taken_null]
        exact new.taken
      · refine lookup_unchanged rfl fun key => ?_
        rw [child]
        exact new.lookup

/-- Putting back the layer below after the search in it. -/
theorem Kept.putBack {child child' : Layer (Entry Item)}
    (shape : LayerShape (level + 1) (Shape (level + 1)) p) (mLt : m < idrSize)
    (childEq : p.ary m = .layer child) (kept : Kept level child child') :
    Kept (level + 1) p { p with ary := update p.ary m (.layer child') } := by
  have above : level + 1 ≠ 0 := succ_ne_zero level
  have childShape := shape.children m mLt
  rw [childEq] at childShape
  refine ⟨?_, fun key => ?_, fun key => ?_⟩
  · refine shape.replace mLt rfl rfl kept.shape (fun _ _ _ => rfl) ?_ (fun leaf => absurd leaf above)
      fun _ => ?_
    · simp [counted, childEq]
    · rw [shape.inner_full above m mLt, childEq, Bool.eq_iff_iff, entryFull_iff childShape,
        entryFull_iff (shape_succ_layer.mpr kept.shape)]
      exact forall_congr' fun key => by rw [kept.bits]
  · refine taken_unchanged rfl (fun _ => rfl) fun _ key => ?_
    rw [childEq, kept.bits]
  · refine lookup_unchanged rfl fun key => ?_
    rw [childEq, kept.reads]

/-! ### The search in a layer -/

theorem Moved.lt_entryEnd (move : Moved level id m next) : next < entryEnd 64 (level + 1) id := by
  rw [← entryEnd_congr move.inLayer]
  exact Library.lt_entryEnd (by decide)

/-- The first clear bit of a layer from the id's entry on, and the id of that entry. -/
theorem firstClear_spec (shape : LayerShape level (Shape level) p) (inTree : level + 1 ≤ 5)
    (bounded : id ≤ 2 ^ 31) :
    ∃ m next, findNextBit (fun i => !p.bitmap i) (idrSize - digit 64 level id) (digit 64 level id) = m ∧
      (if m ≠ digit 64 level id then
        wrap (((id >>> (idrBits * level)) ^^^ digit 64 level id ^^^ m) <<< (idrBits * level))
        else id) = next ∧
      (m = idrSize ∧ Exhausted level p id (entryEnd 64 (level + 1) id) ∨
        m ≠ idrSize ∧ m < idrSize ∧ p.bitmap m = false ∧ digit 64 level id ≤ m ∧
          Moved level id m next ∧ Exhausted level p id next) := by
  have next := findClear_isNext p.bitmap (digit_lt_idrSize level id)
  have lower := next.offset_le (le_of_lt (digit_lt_idrSize level id))
  refine ⟨_, _, rfl, rfl, ?_⟩
  generalize findNextBit (fun i => !p.bitmap i) (idrSize - digit 64 level id) (digit 64 level id) =
    m at next lower ⊢
  have skipped (key : Nat) (above : digit 64 level id ≤ key) (below : key < m) :
      p.bitmap key = true := by
    simpa using next.skipped key above below
  by_cases atEnd : m = idrSize
  · refine .inl ⟨atEnd, fun key above below => taken_of_bitmap shape (skipped _ ?_ ?_)⟩
    · exact digit_le_of_lt_entryEnd (by decide) above below
    · rw [atEnd]
      exact digit_lt_idrSize ..
  · have small : m < idrSize := lt_of_le_of_ne next.le_size atEnd
    have clear : p.bitmap m = false := by simpa using next.passes small
    have move := moved inTree bounded lower small
    refine .inr ⟨atEnd, small, clear, lower, move, fun key above below => ?_⟩
    obtain ⟨after, before⟩ := move.before key above below
    exact taken_of_bitmap shape (skipped _ after before)

/-- Nothing left in a layer: the search leaves it. -/
theorem Searched.climb (shape : LayerShape level (Shape level) p) (clean : ∀ q ∈ free, Clean q)
    (all : Exhausted level p id (entryEnd 64 (level + 1) id)) :
    Searched layers level id p free (.climb id (entryEnd 64 (level + 1) id), p, free) :=
  ⟨.refl shape, clean, rfl, rfl, lt_entryEnd (by decide), le_refl _, all, rfl⟩

/-- The search in a leaf. -/
theorem subAllocFrom_leaf (shape : LayerShape 0 (Shape 0) p) (clean : ∀ q ∈ free, Clean q)
    (bounded : id < 2 ^ 31) :
    Searched layers 0 id p free (subAllocFrom layers 0 p id free) := by
  have inTree : 0 + 1 ≤ 5 := by decide
  obtain ⟨m, next, found, moving, atEnd | ⟨inside, small, clear, _, move, skipped⟩⟩ :=
    firstClear_spec shape inTree (le_of_lt bounded)
  · obtain ⟨atEnd, all⟩ := atEnd
    rw [subAllocFrom, subAllocLayer]
    simp only [entryOf_eq, found, if_pos atEnd, climb_eq inTree (le_of_lt bounded)]
    exact .climb shape clean all
  · have before := move.lt_entryEnd
    have bit : taken next 1 (.layer p) = false := by rw [taken_one, move.entry, clear]
    have inRange : ¬next ≥ maxIdBit :=
      Nat.not_le_of_lt (lt_of_inLayer inTree bounded move.inLayer)
    rw [subAllocFrom, subAllocLayer]
    simp only [entryOf_eq, found, if_neg inside, moving, if_neg inRange]
    exact ⟨.refl shape, clean, move.forward, before, bit, skipped, trivial⟩

section Descent

/-! The search goes on in the layer below entry `m`, from the id `next`. -/

variable {layers next : Nat} {child child' : Layer (Entry Item)}
  {rest rest' : List (Layer (Entry Item))} (link : ChildLayer level m p free child p' rest)
  (mLt : m < idrSize) (move : Moved (level + 1) id m next)
  (skipped : Exhausted (level + 1) p id next)

include link move in
/-- The ids of the entry read through the layer below. -/
theorem taken_entered {key : Nat} (after : next ≤ key) (inside : key < entryEnd 64 (level + 1) next) :
    taken key (level + 2) (.layer p) = taken key (level + 1) (.layer child) := by
  rw [← link.kept.bits, taken_succ _ _ (succ_ne_zero level),
    digit_eq_of_lt_entryEnd (by decide) after inside, move.entry, link.child_eq]

include link mLt in
theorem kept_entered (kept : Kept level child child') :
    Kept (level + 1) p { p' with ary := update p'.ary m (.layer child') } :=
  link.kept.trans (.putBack link.kept.shape mLt link.child_eq kept)

include move in
theorem entryEnd_entered : entryEnd 64 (level + 1) next ≤ entryEnd 64 (level + 2) id := by
  rw [← entryEnd_congr move.inLayer]
  exact entryEnd_le_succ (by decide)

include link move skipped in
/-- A layer below in which ids are taken was there before. -/
theorem Passed.entered {last : Nat} (below : Passed level next child rest rest' last) :
    Passed (level + 1) id p free rest' last where
  forward := lt_of_le_of_lt move.forward below.forward
  inside := le_trans below.inside (entryEnd_entered move)
  all := skipped.append fun key after before => by
    rw [taken_entered link move after (lt_of_lt_of_le before below.inside)]
    exact below.all key after before
  free_eq := by
    rcases link.old_or_empty with same | ⟨_, empty⟩
    · exact below.free_eq.trans same
    · have first := below.all next (le_refl _) below.forward
      rw [empty] at first
      cases first

include link mLt move skipped in
theorem Searched.found_entered {found : Nat}
    (below : Searched layers level next child rest (.found found, child', rest')) :
    Searched layers (level + 1) id p free
      (.found found, { p' with ary := update p'.ary m (.layer child') }, rest') := by
  obtain ⟨forward, before, bit, between, path⟩ := below.outcome
  refine ⟨kept_entered link mLt below.kept, below.clean, le_trans move.forward forward,
    lt_of_lt_of_le before (entryEnd_entered move), ?_, ?_, ?_⟩
  · rw [taken_entered link move forward before, bit]
  · refine skipped.append fun key after inside => ?_
    rw [taken_entered link move after (lt_trans inside before)]
    exact between key after inside
  · have entry : digit 64 (level + 1) found = m := by
      rw [digit_eq_of_lt_entryEnd (by decide) forward before, move.entry]
    simpa [Path, entry] using path

include link mLt in
theorem Searched.noLayer_entered (below : Searched layers level next child rest (.noLayer, child', rest')) :
    Searched layers (level + 1) id p free
      (.noLayer, { p' with ary := update p'.ary m (.layer child') }, rest') := by
  have short : rest.length < level := below.outcome
  refine ⟨kept_entered link mLt below.kept, below.clean, ?_⟩
  show free.length < level + 1
  rcases link.old_or_empty with same | ⟨oneMore, _⟩
  · rw [← same]
    exact lt_succ_of_lt short
  · rw [oneMore]
    exact succ_lt_succ short

end Descent

theorem Passed.resume {next last : Nat} {left : List (Layer (Entry Item))}
    (kept : Kept level p p') (passed : Passed level id p free free next)
    (inLayer : next / 64 ^ (level + 1) = id / 64 ^ (level + 1))
    (rest : Passed level next p' free left last) : Passed level id p free left last where
  forward := lt_trans passed.forward rest.forward
  inside := entryEnd_congr inLayer ▸ rest.inside
  all := passed.all.append (rest.all.of_kept kept)
  free_eq := rest.free_eq

/-- The search goes on in the same layer, from a later id. -/
theorem Searched.resume {layers next : Nat}
    {result : SubAlloc × Layer (Entry Item) × List (Layer (Entry Item))}
    (kept : Kept level p p') (passed : Passed level id p free free next)
    (inLayer : next / 64 ^ (level + 1) = id / 64 ^ (level + 1))
    (rest : Searched layers level next p' free result) : Searched layers level id p free result := by
  obtain ⟨ret, q, left⟩ := result
  have outcome := rest.outcome
  refine ⟨kept.trans rest.kept, rest.clean, ?_⟩
  cases ret with
  | found found =>
    obtain ⟨above, before, bit, between, path⟩ := outcome
    refine ⟨le_trans (le_of_lt passed.forward) above,
      entryEnd_congr inLayer ▸ before, ?_, passed.all.append (between.of_kept kept), path⟩
    rw [← kept.bits, bit]
  | noLayer | noMoreSpace | oops => exact outcome
  | climb oid last =>
    obtain ⟨lastEq, quotient, further⟩ := outcome
    exact ⟨lastEq.trans (entryEnd_congr inLayer), quotient.trans inLayer, passed.resume kept inLayer further⟩
  | needToGrow last | restart last => exact ⟨passed.resume kept inLayer outcome.1, outcome.2⟩

/-- Whether an id that left an entry is still in the layer decides between going on and
restarting. -/
theorem entryEnd_inLayer {oid : Nat} (sameEntry : oid / 64 ^ level = id / 64 ^ level)
    (same : oid >>> (idrBits * (level + 1)) = entryEnd 64 level id >>> (idrBits * (level + 1))) :
    entryEnd 64 level id / 64 ^ (level + 1) = id / 64 ^ (level + 1) := by
  rw [shiftRight_eq_div_pow, shiftRight_eq_div_pow, pow_idrBits] at same
  rw [← same, div_pow_succ, sameEntry, ← div_pow_succ]

/-- The next entry, if it is in the same layer, has a larger digit. -/
theorem digit_entryEnd_lt (inLayer : entryEnd 64 level id / 64 ^ (level + 1) =
    id / 64 ^ (level + 1)) : digit 64 level id < digit 64 level (entryEnd 64 level id) := by
  have next := div_add_mod (entryEnd 64 level id / 64 ^ level) 64
  rw [div_pow_succ, div_pow_succ] at inLayer
  rw [inLayer, entryEnd_div (by decide)] at next
  unfold digit
  rw [entryEnd_div (by decide)]
  omega

/-- The loop of `sub_alloc` in a layer above the leaves, with what it does in the layer below. Every
further round begins at a larger entry, which bounds their number. -/
theorem subAllocLayer_inner {rounds : Nat} {below : Layer (Entry Item) → Nat → List (Layer (Entry Item)) →
      SubAlloc × Layer (Entry Item) × List (Layer (Entry Item))} (inTree : level + 2 ≤ 5)
    (belowSpec : ∀ {child id free}, LayerShape level (Shape level) child → (∀ q ∈ free, Clean q) →
      id < 2 ^ 31 → Searched layers level id child free (below child id free))
    (shape : LayerShape (level + 1) (Shape (level + 1)) p) (clean : ∀ q ∈ free, Clean q)
    (bounded : id < 2 ^ 31) (enough : 64 < rounds + digit 64 (level + 1) id) :
    Searched layers (level + 1) id p free (subAllocLayer layers below (level + 1) rounds p id free) := by
  induction rounds generalizing p id free with
  | zero =>
    have small : digit 64 (level + 1) id < 64 := digit_lt_idrSize ..
    omega
  | succ rounds ih =>
    have inInt := le_of_lt bounded
    obtain ⟨m, next, found, moving, atEnd | ⟨inside, small, clear, lower, move, skipped⟩⟩ :=
      firstClear_spec shape inTree inInt
    · obtain ⟨atEnd, all⟩ := atEnd
      rw [subAllocLayer]
      simp only [entryOf_eq, found, if_pos atEnd, climb_eq inTree inInt]
      exact .climb shape clean all
    · have nextLt := lt_of_inLayer inTree bounded move.inLayer
      have inRange : ¬next ≥ maxIdBit := Nat.not_le_of_lt nextLt
      rw [subAllocLayer]
      simp only [entryOf_eq, found, if_neg inside, moving, if_neg inRange, if_neg (succ_ne_zero level)]
      rcases layerBelow_spec shape small clean with ⟨child, p', rest, created, link⟩ | ⟨failed, rfl⟩
      · rw [created]
        dsimp only
        have searched := belowSpec link.shape link.clean nextLt
        generalize below child next rest = result at searched
        obtain ⟨ret, child', rest'⟩ := result
        cases ret with
        | found j => exact .found_entered link small move skipped searched
        | noLayer => exact .noLayer_entered link small searched
        | noMoreSpace | oops => exact searched.outcome.elim
        | needToGrow last | restart last =>
          exact ⟨kept_entered link small searched.kept, searched.clean,
            searched.outcome.1.entered link move skipped, searched.outcome.2⟩
        | climb oid last =>
          obtain ⟨lastEq, sameEntry, below⟩ := searched.outcome
          subst lastEq
          have kept := kept_entered link small searched.kept
          have passed := below.entered link move skipped
          rw [shift_idrBits]
          dsimp only
          split
          · next beyond => exact ⟨kept, searched.clean, passed, beyond⟩
          · next within =>
            split
            · next stays =>
              have inLayer := entryEnd_inLayer sameEntry stays
              have larger := digit_entryEnd_lt inLayer
              rw [move.entry] at larger
              obtain rfl : rest' = free := passed.free_eq
              refine .resume kept passed (inLayer.trans move.inLayer) ?_
              refine ih kept.shape clean ?_ (by omega)
              exact lt_of_inLayer inTree bounded (inLayer.trans move.inLayer)
            · exact ⟨kept, searched.clean, passed, by simpa using within⟩
      · rw [failed]
        exact ⟨.refl shape, clean, succ_pos level⟩

theorem subAllocFrom_spec (inTree : level + 1 ≤ 5) (shape : LayerShape level (Shape level) p)
    (clean : ∀ q ∈ free, Clean q) (bounded : id < 2 ^ 31) :
    Searched layers level id p free (subAllocFrom layers level p id free) := by
  induction level generalizing p id free with
  | zero => exact subAllocFrom_leaf shape clean bounded
  | succ level ih =>
    refine subAllocLayer_inner inTree (fun shape clean bounded => ?_) shape clean bounded ?_
    · exact ih (le_of_succ_le inTree) shape clean bounded
    · rw [idrSize_eq]
      omega

/-! ### The search from the top -/

/-- An id that is negative as an `int` is refused at the top. -/
theorem subAllocFrom_negative (inTree : level + 1 ≤ 5) (shape : LayerShape level (Shape level) p) :
    subAllocFrom layers level p (2 ^ 31) free = (.noMoreSpace, p, free) ∨
      ∃ oid next, subAllocFrom layers level p (2 ^ 31) free = (.climb oid next, p, free) ∧ 2 ^ 31 ≤ next := by
  have same : ∃ below, subAllocFrom layers level p (2 ^ 31) free =
      subAllocLayer layers below level (idrSize + 1) p (2 ^ 31) free := by
    cases level with
    | zero | succ level => exact ⟨_, rfl⟩
  obtain ⟨below, same⟩ := same
  rw [same, subAllocLayer]
  obtain ⟨m, next, found, moving, ⟨atEnd, _⟩ | ⟨inside, _, _, _, move, _⟩⟩ :=
    firstClear_spec shape inTree (le_refl _)
  · simp only [entryOf_eq, found, if_pos atEnd, climb_eq inTree (le_refl _)]
    exact .inr ⟨_, _, rfl, le_of_lt (lt_entryEnd (by decide))⟩
  · have beyond : next ≥ maxIdBit := move.forward
    simp only [entryOf_eq, found, if_neg inside, moving, if_pos beyond]
    exact .inl trivial

/-- What `sub_alloc` returns. -/
def TopOutcome (level id : Nat) (p : Layer (Entry Item)) (free : List (Layer (Entry Item)))
    (p' : Layer (Entry Item)) (free' : List (Layer (Entry Item))) : SubAlloc → Prop
  | .found found =>
    id ≤ found ∧ found < 2 ^ 31 ∧ (id < 64 ^ (level + 1) → found < 64 ^ (level + 1)) ∧
      taken found (level + 1) (.layer p) = false ∧ Exhausted level p id found ∧
      Path found (level + 1) (.layer p')
  | .noLayer => free.length < level
  | .needToGrow next =>
    id < next ∧ next < 2 ^ 31 ∧ 64 ^ (level + 1) ≤ next ∧
      (id < 64 ^ (level + 1) → next = 64 ^ (level + 1)) ∧ Exhausted level p id next ∧
      free' = free
  | .noMoreSpace => 64 ^ (level + 1) ≤ id
  | .oops => 64 ^ (level + 1) ≤ id
  | .climb .. => False
  | .restart .. => False

/-- What `sub_alloc` does. -/
structure SearchedTop (level id : Nat) (p : Layer (Entry Item)) (free : List (Layer (Entry Item)))
    (result : SubAlloc × Layer (Entry Item) × List (Layer (Entry Item))) : Prop where
  kept : Kept level p result.2.1
  clean : ∀ q ∈ result.2.2, Clean q
  outcome : TopOutcome level id p free result.2.1 result.2.2 result.1

/-- The ids before the end of the id's own tree. -/
theorem entryEnd_of_lt (small : id < 64 ^ level) : entryEnd 64 level id = 64 ^ level := by
  rw [entryEnd, div_eq_of_lt small, Nat.one_mul]

/-- The tree ends at or before the end of any id's entry. -/
theorem pow_le_entryEnd : 64 ^ level ≤ entryEnd 64 level id := by
  rw [entryEnd, succ_mul]
  exact Nat.le_add_left ..

theorem pow_le_maxIdBit (inTree : level ≤ 5) : 64 ^ level ≤ 2 ^ 30 :=
  Nat.pow_le_pow_right (n := 64) (by decide) inTree

theorem intGe_iff {bound : Nat} : intGe id bound = true ↔ id < 2 ^ 31 ∧ bound ≤ id := by
  simp only [intGe, Bool.and_eq_true, decide_eq_true_eq]

/-- Ids run out in a tree of the id's own only where the tree ends. -/
theorem Passed.beyond {next : Nat} (inTree : level + 1 ≤ 5)
    (passed : Passed level id p free free' next) (negative : 2 ^ 31 ≤ next) :
    64 ^ (level + 1) ≤ id := by
  rcases lt_or_ge id (64 ^ (level + 1)) with small | large
  · have inside := passed.inside
    have size := pow_le_maxIdBit inTree
    rw [entryEnd_of_lt small] at inside
    omega
  · exact large

/-- The search has come to the end of the tree. -/
theorem SearchedTop.grow (kept : Kept level p p') (clean : ∀ q ∈ free', Clean q)
    (passed : Passed level id p free free' next) (atEnd : intGe next (64 ^ (level + 1)) = true) :
    SearchedTop level id p free (.needToGrow next, p', free') := by
  obtain ⟨nextLt, beyond⟩ := intGe_iff.mp atEnd
  refine ⟨kept, clean, passed.forward, nextLt, beyond, fun small => ?_, passed.all, passed.free_eq⟩
  refine le_antisymm ?_ beyond
  rw [← entryEnd_of_lt small]
  exact passed.inside

/-- The search starts again at the top, from a later id of the tree. -/
theorem SearchedTop.restart {result : SubAlloc × Layer (Entry Item) × List (Layer (Entry Item))}
    (kept : Kept level p p') (passed : Passed level id p free free next)
    (within : next < 64 ^ (level + 1)) (rest : SearchedTop level next p' free result) :
      SearchedTop level id p free result := by
  obtain ⟨ret, q, left⟩ := result
  have outcome := rest.outcome
  refine ⟨kept.trans rest.kept, rest.clean, ?_⟩
  cases ret with
  | found found =>
    obtain ⟨above, bounded, inTree, bit, between, path⟩ := outcome
    refine ⟨le_trans (le_of_lt passed.forward) above, bounded, fun _ => inTree within, ?_,
      passed.all.append (between.of_kept kept), path⟩
    rw [← kept.bits, bit]
  | noLayer => exact outcome
  | needToGrow last =>
    obtain ⟨above, bounded, beyond, ends, between, same⟩ := outcome
    exact ⟨lt_trans passed.forward above, bounded, beyond, fun _ => ends within,
      passed.all.append (between.of_kept kept), same⟩
  | noMoreSpace | oops => exact absurd within (Nat.not_lt_of_le outcome)
  | climb oid last | restart last => exact outcome.elim

/-- `sub_alloc` from an id that is negative as an `int`. -/
theorem subAlloc_negative (free : List (Layer (Entry Item))) (inTree : level + 1 ≤ 5)
    (shape : LayerShape level (Shape level) p) (enough : 0 < restarts) :
    subAlloc (level + 1) restarts p (2 ^ 31) free = (.noMoreSpace, p, free) ∨
      subAlloc (level + 1) restarts p (2 ^ 31) free = (.oops, p, free) := by
  obtain ⟨restarts, rfl⟩ := exists_eq_succ_of_ne_zero (ne_of_gt enough)
  rw [subAlloc, Nat.add_sub_cancel]
  rcases subAllocFrom_negative inTree shape with refused | ⟨oid, next, climbs, negative⟩
  · exact .inl (by rw [refused])
  · have notAbove : ¬intGe next (1 <<< ((level + 1) * idrBits)) = true := by
      rw [intGe_iff]
      omega
    exact .inr (by rw [climbs]; exact if_neg notAbove)

/-- `sub_alloc`, with more restarts left than there are ids from the starting id on. -/
theorem subAlloc_spec (inTree : level + 1 ≤ 5) (shape : LayerShape level (Shape level) p)
    (clean : ∀ q ∈ free, Clean q) (bounded : id < 2 ^ 31) (enough : 2 ^ 31 < restarts + id) :
    SearchedTop level id p free (subAlloc (level + 1) restarts p id free) := by
  induction restarts generalizing p id free with
  | zero => omega
  | succ restarts ih =>
    have searched : Searched (level + 1) level id p free _ :=
      subAllocFrom_spec inTree shape clean bounded
    rw [subAlloc, Nat.add_sub_cancel]
    generalize subAllocFrom (level + 1) level p id free = result at searched
    obtain ⟨ret, p', free'⟩ := result
    obtain ⟨kept, clean', outcome⟩ := searched
    cases ret with
    | found found =>
      obtain ⟨above, before, bit, between, path⟩ := outcome
      refine ⟨kept, clean', above,
        lt_of_lt_of_le before (entryEnd_le_maxIdBit inTree bounded), fun small => ?_, bit,
        between, path⟩
      rwa [entryEnd_of_lt small] at before
    | noLayer => exact ⟨kept, clean', outcome⟩
    | noMoreSpace | oops => exact outcome.elim
    | needToGrow next => exact .grow kept clean' outcome.1 outcome.2
    | climb oid next =>
      obtain ⟨nextEq, _, passed⟩ := outcome
      dsimp only at kept clean' passed ⊢
      rw [shift_idrBits]
      split
      · next atEnd => exact .grow kept clean' passed atEnd
      · next notAbove =>
        rw [intGe_iff] at notAbove
        have top : 64 ^ (level + 1) ≤ entryEnd 64 (level + 1) id := pow_le_entryEnd
        exact ⟨kept, clean', passed.beyond inTree (by omega)⟩
    | restart next =>
      obtain ⟨passed, within⟩ := outcome
      dsimp only at kept clean' passed ⊢
      rw [← Bool.not_eq_true, intGe_iff] at within
      have upper := le_trans passed.inside (entryEnd_le_maxIdBit inTree bounded)
      have onward := passed.forward
      obtain rfl := passed.free_eq
      rcases eq_or_lt_of_le upper with negative | nextLt
      · subst negative
        have large := passed.beyond inTree (le_refl _)
        have more : 0 < restarts := by omega
        rcases subAlloc_negative free' inTree kept.shape more with refused | bug
        · rw [refused]
          exact ⟨kept, clean', large⟩
        · rw [bug]
          exact ⟨kept, clean', large⟩
      · refine .restart kept passed (by omega) ?_
        exact ih kept.shape clean' nextLt (by omega)

end LinuxKernel.Lib.Idr
