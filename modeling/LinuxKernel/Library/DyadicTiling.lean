/-
Module: LinuxKernel.Library.DyadicTiling
Purpose: Blocks of `2 ^ order` consecutive numbers that start at a multiple of their size, their buddies,
  and sets of numbers cut into such blocks, the chunks. A tiling in which no two halves of one larger range
  are both chunks is the tiling by maximal ranges, so it depends on the set alone.
Trusted boundary: none
Main exports: block, buddy_cases, maximalChunks, Tiling, Tiling.eq_maximal, runStarts
-/
import Mathlib

namespace LinuxKernel.Library

open Nat

/-- The `2 ^ order` consecutive numbers from `start` on. -/
def block (order start : Nat) : Set Nat := {number | start ≤ number ∧ number < start + 2 ^ order}

variable {order start : Nat}

theorem mem_block {number : Nat} :
    number ∈ block order start ↔ start ≤ number ∧ number < start + 2 ^ order := Iff.rfl

theorem start_mem_block (order start : Nat) : start ∈ block order start :=
  ⟨Nat.le_refl _, Nat.lt_add_of_pos_right (Nat.two_pow_pos order)⟩

/-- A block is its lower half and its upper half. -/
theorem block_succ (order start : Nat) :
    block (order + 1) start = block order start ∪ block order (start + 2 ^ order) := by
  ext number
  simp only [Set.mem_union, mem_block]
  omega

theorem block_mono {order' : Nat} (smaller : order ≤ order') (start : Nat) :
    block order start ⊆ block order' start := by
  intro number member
  have := Nat.pow_le_pow_right Nat.two_pos smaller
  rw [mem_block] at member ⊢
  omega

theorem block_disjoint_next (order start : Nat) :
    Disjoint (block order start) (block order (start + 2 ^ order)) := by
  rw [Set.disjoint_left]
  intro number lower upper
  rw [mem_block] at lower upper
  omega

/-! ### Buddies -/

/-- Flipping bit `order` of the start of an aligned block moves it up or down by its size, depending
on which half of the enclosing block it is. -/
theorem xor_two_pow_mul (order index : Nat) :
    (index * 2 ^ order) ^^^ 2 ^ order = (if index % 2 = 0 then index + 1 else index - 1) * 2 ^ order := by
  have single : 2 ^ order = 1 <<< order := by rw [one_shiftLeft]
  have flipped : index ^^^ 1 = if index % 2 = 0 then index + 1 else index - 1 := by
    split
    case isTrue even => exact xor_one_of_even (even_iff.mpr even)
    case isFalse odd => exact xor_one_of_odd (odd_iff.mpr (by omega))
  calc (index * 2 ^ order) ^^^ 2 ^ order = (index <<< order) ^^^ (1 <<< order) := by
        rw [shiftLeft_eq, ← single]
    _ = (index ^^^ 1) <<< order := (shiftLeft_xor_distrib).symm
    _ = _ := by rw [flipped, shiftLeft_eq]

/-- Clearing bit `order` of the start of an aligned block gives the start of the enclosing block. -/
theorem ldiff_two_pow_mul (order index : Nat) :
    ldiff (index * 2 ^ order) (2 ^ order) = index / 2 * 2 ^ (order + 1) := by
  apply eq_of_testBit_eq
  intro bit
  rw [testBit_ldiff, ← shiftLeft_eq, ← shiftLeft_eq, testBit_shiftLeft, testBit_shiftLeft, testBit_div_two]
  rcases Nat.lt_trichotomy bit order with below | rfl | above
  · simp [Nat.not_le.mpr below, Nat.not_le.mpr (lt_succ_of_lt below)]
  · simp
  · obtain ⟨rest, rfl⟩ := Nat.exists_eq_add_of_lt above
    have shifted : order + rest + 1 - order = rest + 1 := by omega
    simp [shifted, Nat.le_of_lt above, Nat.ne_of_lt above]

section

variable (aligned : 2 ^ order ∣ start)

include aligned

/-- An aligned block is the lower half of the enclosing block and its buddy the upper half, or the
other way round. -/
theorem buddy_cases : (start ^^^ 2 ^ order = start + 2 ^ order ∧ ldiff start (2 ^ order) = start ∧
        2 ^ (order + 1) ∣ start) ∨
      (start = (start ^^^ 2 ^ order) + 2 ^ order ∧ ldiff start (2 ^ order) = start ^^^ 2 ^ order ∧
        2 ^ (order + 1) ∣ start ^^^ 2 ^ order) := by
  obtain ⟨index, rfl⟩ := aligned
  rw [mul_comm, xor_two_pow_mul, ldiff_two_pow_mul]
  by_cases even : index % 2 = 0
  · left
    obtain ⟨half, rfl⟩ := dvd_of_mod_eq_zero even
    rw [if_pos even, Nat.mul_div_cancel_left half Nat.two_pos]
    refine ⟨by ring, by ring, half, by ring⟩
  · right
    obtain ⟨half, rfl⟩ : ∃ half, index = 2 * half + 1 := ⟨index / 2, by omega⟩
    rw [if_neg even, Nat.add_sub_cancel, show (2 * half + 1) / 2 = half by omega]
    refine ⟨by ring, by ring, half, by ring⟩

/-- A block and its buddy make up the enclosing block. -/
theorem block_union_buddy : block (order + 1) (ldiff start (2 ^ order)) =
      block order start ∪ block order (start ^^^ 2 ^ order) := by
  rcases buddy_cases aligned with ⟨upper, combined, _⟩ | ⟨lower, combined, _⟩
  · rw [combined, block_succ, upper]
  · rw [combined, block_succ, ← lower, Set.union_comm]

theorem block_disjoint_buddy : Disjoint (block order start) (block order (start ^^^ 2 ^ order)) := by
  rcases buddy_cases aligned with ⟨upper, _, _⟩ | ⟨lower, _, _⟩
  · rw [upper]
    exact block_disjoint_next order start
  · have next := (block_disjoint_next order (start ^^^ 2 ^ order)).symm
    rwa [← lower] at next

theorem combined_aligned : 2 ^ (order + 1) ∣ ldiff start (2 ^ order) := by
  rcases buddy_cases aligned with ⟨_, combined, divides⟩ | ⟨_, combined, divides⟩
  · rwa [combined]
  · rwa [combined]

end

/-- The buddy of the upper half is the lower half. -/
theorem upper_xor (aligned : 2 ^ (order + 1) ∣ start) : (start + 2 ^ order) ^^^ 2 ^ order = start := by
  obtain ⟨index, rfl⟩ := aligned
  have shape : 2 ^ (order + 1) * index + 2 ^ order = (2 * index + 1) * 2 ^ order := by ring
  rw [shape, xor_two_pow_mul, if_neg (by omega), Nat.add_sub_cancel]
  ring

/-- The buddy and the enclosing block may be computed within any window of `2 ^ bits` numbers: the
offset from the start of the block is the same. -/
theorem buddy_of_remainder {bits : Nat} (aligned : 2 ^ order ∣ start) (fits : order < bits) :
    start + (start % 2 ^ bits ^^^ 2 ^ order) - start % 2 ^ bits = start ^^^ 2 ^ order ∧
      start + ldiff (start % 2 ^ bits) (2 ^ order) - start % 2 ^ bits = ldiff start (2 ^ order) := by
  obtain ⟨index, rfl⟩ := aligned
  obtain ⟨rest, rfl⟩ : ∃ rest, bits = order + (rest + 1) := ⟨bits - order - 1, by omega⟩
  have remainder : 2 ^ order * index % 2 ^ (order + (rest + 1)) = index % 2 ^ (rest + 1) * 2 ^ order := by
    rw [pow_add, mul_mod_mul_left, mul_comm]
  have parity : index % 2 ^ (rest + 1) % 2 = index % 2 :=
    mod_mod_of_dvd index (Dvd.intro_left (2 ^ rest) rfl)
  rw [remainder, mul_comm (2 ^ order), xor_two_pow_mul, xor_two_pow_mul, ldiff_two_pow_mul,
    ldiff_two_pow_mul, parity, ← Nat.add_mul, ← Nat.sub_mul]
  constructor
  · congr 1
    split <;> omega
  · have halved (whole : Nat) : whole / 2 * 2 ^ (order + 1) = whole / 2 * 2 * 2 ^ order := by ring
    rw [halved, halved, ← Nat.add_mul, ← Nat.sub_mul]
    congr 1
    omega

/-- Clearing the low bits rounds down to a multiple of a power of two. -/
theorem ldiff_mask (number bits : Nat) : ldiff number (2 ^ bits - 1) = number / 2 ^ bits * 2 ^ bits := by
  apply eq_of_testBit_eq
  intro bit
  rw [← shiftRight_eq_div_pow, ← shiftLeft_eq]
  by_cases below : bit < bits
  · simp [below]
  · have above : bits ≤ bit := Nat.not_lt.mp below
    simp [above]

/-- The first multiple of a power of two from a number on. -/
theorem isLeast_align (number bits : Nat) :
    IsLeast {aligned | number ≤ aligned ∧ 2 ^ bits ∣ aligned}
      (ldiff (number + (2 ^ bits - 1)) (2 ^ bits - 1)) := by
  rw [ldiff_mask]
  have positive := Nat.two_pow_pos bits
  refine ⟨⟨?_, Nat.dvd_mul_left _ _⟩, ?_⟩
  · have rounded := Nat.div_add_mod' (number + (2 ^ bits - 1)) (2 ^ bits)
    have rest := Nat.mod_lt (number + (2 ^ bits - 1)) positive
    omega
  · rintro _ ⟨above, factor, rfl⟩
    rw [Nat.mul_comm _ factor] at above ⊢
    refine Nat.mul_le_mul_right _ (Nat.le_of_lt_succ ((Nat.div_lt_iff_lt_mul positive).mpr ?_))
    rw [Nat.succ_mul]
    omega

/-- Clearing a bit commutes with taking the remainder by a power of two. -/
theorem ldiff_mod_two_pow (number mask bits : Nat) :
    ldiff (number % 2 ^ bits) mask = ldiff number mask % 2 ^ bits := by
  apply eq_of_testBit_eq
  intro bit
  simp only [testBit_ldiff, testBit_mod_two_pow, Bool.and_assoc]

open Set

/-- The numbers of the range of `2 ^ order` numbers with the given index. -/
def chunkRange (order index : Nat) : Set Nat := {number | number / 2 ^ order = index}

/-- The whole range belongs to the set. -/
def RangeFree (free : Set Nat) (order index : Nat) : Prop := chunkRange order index ⊆ free

/-- The ranges of an order up to `top` that lie in the set and in no larger such range. -/
def maximalChunks (top : Nat) (free : Set Nat) (order : Nat) : Set Nat :=
  {index | order ≤ top ∧ RangeFree free order index ∧
    ∀ larger, order < larger → larger ≤ top → ¬RangeFree free larger (index / 2 ^ (larger - order))}

/-- The chunks of each order, of orders up to `top`, cut the set into disjoint ranges. -/
structure Tiling (top : Nat) (free : Set Nat) (chunks : Nat → Set Nat) : Prop where
  bounded : ∀ {order index}, index ∈ chunks order → order ≤ top
  sound : ∀ {order number}, number / 2 ^ order ∈ chunks order → number ∈ free
  cover : ∀ {number}, number ∈ free → ∃ order, number / 2 ^ order ∈ chunks order
  unique : ∀ {number order order'}, number / 2 ^ order ∈ chunks order →
    number / 2 ^ order' ∈ chunks order' → order = order'

/-- Both halves of the range `index` of order `order + 1` are chunks. -/
def Pair (chunks : Nat → Set Nat) (order index : Nat) : Prop :=
  2 * index ∈ chunks order ∧ 2 * index + 1 ∈ chunks order

variable {top : Nat} {free : Set Nat} {chunks : Nat → Set Nat}

/-! ### Ranges -/

theorem div_two_pow_succ (number order : Nat) : number / 2 ^ (order + 1) = number / 2 ^ order / 2 := by
  rw [Nat.pow_succ, Nat.div_div_eq_div_mul]

variable {order larger index order' index' number first count : Nat}

theorem div_two_pow_div (enough : order ≤ larger) (number : Nat) :
    number / 2 ^ order / 2 ^ (larger - order) = number / 2 ^ larger := by
  rw [Nat.div_div_eq_div_mul, ← Nat.pow_add, Nat.add_sub_cancel' enough]

theorem mul_two_pow_div (index order : Nat) : index * 2 ^ order / 2 ^ order = index :=
  Nat.mul_div_cancel index (Nat.two_pow_pos order)

theorem RangeFree.of_larger (enough : order ≤ larger)
    (whole : RangeFree free larger (index / 2 ^ (larger - order))) : RangeFree free order index := by
  intro number mem
  obtain rfl : number / 2 ^ order = index := mem
  rw [div_two_pow_div enough] at whole
  exact whole rfl

theorem block_eq_chunkRange (order index : Nat) :
    block order (index * 2 ^ order) = chunkRange order index := by
  ext number
  rw [mem_block, chunkRange, mem_ofPred_eq, Nat.div_eq_iff (Nat.two_pow_pos order)]
  have := Nat.two_pow_pos order
  omega

/-- A chunk of the tiling lies in the set. -/
theorem Tiling.rangeFree (tiling : Tiling top free chunks) (mem : index ∈ chunks order) :
    RangeFree free order index := by
  intro number inside
  obtain rfl : number / 2 ^ order = index := inside
  exact tiling.sound mem

/-! ### Tilings without pairs -/

/-- In a tiling without pairs, a range of the set lies within one chunk. -/
theorem Tiling.within_chunk (tiling : Tiling top free chunks)
    (single : ∀ order < top, ∀ index, ¬Pair chunks order index) :
    ∀ {order index : Nat}, order ≤ top → RangeFree free order index →
      ∃ larger, order ≤ larger ∧ index / 2 ^ (larger - order) ∈ chunks larger := by
  intro order
  induction order with
  | zero =>
    intro index _ whole
    obtain ⟨larger, mem⟩ := tiling.cover (whole (show index / 2 ^ 0 = index by simp))
    exact ⟨larger, zero_le _, by simpa using mem⟩
  | succ order ih =>
    intro index bounded whole
    have half (half : Nat) (inside : half / 2 = index) : half ∈ chunks order ∨
          ∃ larger, order + 1 ≤ larger ∧ index / 2 ^ (larger - (order + 1)) ∈ chunks larger := by
      have halfFree : RangeFree free order half := by
        refine RangeFree.of_larger (le_succ order) ?_
        rwa [Nat.succ_sub (Nat.le_refl order), Nat.sub_self, Nat.pow_one, inside]
      obtain ⟨larger, enough, mem⟩ := ih (by omega) halfFree
      rcases eq_or_lt_of_le enough with rfl | more
      · rw [Nat.sub_self, Nat.pow_zero, Nat.div_one] at mem
        exact .inl mem
      · obtain ⟨extra, rfl⟩ := Nat.exists_eq_add_of_le more
        refine .inr ⟨order + 1 + extra, more, ?_⟩
        have shift : order + 1 + extra - order = 1 + extra := by omega
        rw [shift, Nat.pow_add, ← Nat.div_div_eq_div_mul, inside] at mem
        rwa [Nat.add_sub_cancel_left]
    rcases half (2 * index) (by omega) with lower | found
    · rcases half (2 * index + 1) (by omega) with upper | found
      · exact absurd ⟨lower, upper⟩ (single order bounded index)
      · exact found
    · exact found

/-- A tiling without pairs is the tiling by maximal ranges. -/
theorem Tiling.eq_maximal (tiling : Tiling top free chunks)
    (single : ∀ order < top, ∀ index, ¬Pair chunks order index) :
    chunks = maximalChunks top free := by
  funext order
  ext index
  constructor
  · intro mem
    refine ⟨tiling.bounded mem, tiling.rangeFree mem, ?_⟩
    intro larger more bounded whole
    obtain ⟨largest, enough, found⟩ := tiling.within_chunk single bounded whole
    have here : index * 2 ^ order / 2 ^ order ∈ chunks order := by rwa [mul_two_pow_div]
    have there : index * 2 ^ order / 2 ^ largest ∈ chunks largest := by
      rw [← div_two_pow_div (le_of_lt (lt_of_lt_of_le more enough)), mul_two_pow_div]
      rw [Nat.div_div_eq_div_mul, ← Nat.pow_add] at found
      rwa [show largest - order = larger - order + (largest - larger) by omega]
    have same := tiling.unique here there
    omega
  · rintro ⟨bounded, whole, maximal⟩
    obtain ⟨larger, enough, mem⟩ := tiling.within_chunk single bounded whole
    rcases eq_or_lt_of_le enough with rfl | more
    · rwa [Nat.sub_self, Nat.pow_zero, Nat.div_one] at mem
    · exact absurd (tiling.rangeFree mem) (maximal larger more (tiling.bounded mem))

/-- The maximal ranges of any set tile it. -/
theorem maximal_tiling (top : Nat) (free : Set Nat) : Tiling top free (maximalChunks top free) where
  bounded member := member.1
  sound member := member.2.1 rfl
  cover := by
    classical
    intro number member
    -- The chunk of a number is the largest of the ranges around it that lie in the set.
    let around (order : Nat) : Prop := RangeFree free order (number / 2 ^ order)
    have least : around 0 := by
      intro other same
      simp only [chunkRange, Nat.pow_zero, Nat.div_one] at same
      rwa [same]
    refine ⟨Nat.findGreatest around top, Nat.findGreatest_le top,
      Nat.findGreatest_spec (Nat.zero_le top) least, ?_⟩
    intro larger more bounded whole
    rw [div_two_pow_div (Nat.le_of_lt more)] at whole
    exact Nat.findGreatest_is_greatest more bounded whole
  unique := by
    have ordered {number order order' : Nat} (member : number / 2 ^ order ∈ maximalChunks top free order)
        (mem' : number / 2 ^ order' ∈ maximalChunks top free order') : ¬order < order' := by
      intro less
      refine member.2.2 order' less mem'.1 ?_
      rw [div_two_pow_div (Nat.le_of_lt less)]
      exact mem'.2.1
    intro number order order' member mem'
    have := ordered member mem'
    have := ordered mem' member
    omega

theorem maximal_single (top : Nat) (free : Set Nat) :
    ∀ order < top, ∀ index, ¬Pair (maximalChunks top free) order index := by
  rintro order bounded index ⟨lower, upper⟩
  refine lower.2.2 (order + 1) (lt_succ_self order) bounded ?_
  intro number inside
  rw [chunkRange, mem_ofPred_eq, Nat.add_sub_cancel_left, div_two_pow_succ] at inside
  have halves : number / 2 ^ order = 2 * index ∨ number / 2 ^ order = 2 * index + 1 := by omega
  rcases halves with half | half
  · exact lower.2.1 half
  · exact upper.2.1 half

/-! ### Changing a tiling -/

/-- One more chunk. -/
def insertChunk (chunks : Nat → Set Nat) (order index : Nat) : Nat → Set Nat :=
  Function.update chunks order (insert index (chunks order))

/-- One chunk less. -/
def eraseChunk (chunks : Nat → Set Nat) (order index : Nat) : Nat → Set Nat :=
  Function.update chunks order (chunks order \ {index})

theorem mem_insertChunk : index' ∈ insertChunk chunks order index order' ↔
      (order' = order ∧ index' = index) ∨ index' ∈ chunks order' := by
  rw [insertChunk]
  by_cases same : order' = order
  · subst same
    simp
  · simp [same]

theorem mem_eraseChunk : index' ∈ eraseChunk chunks order index order' ↔
      index' ∈ chunks order' ∧ ¬(order' = order ∧ index' = index) := by
  rw [eraseChunk]
  by_cases same : order' = order
  · subst same
    simp
  · simp [same]

theorem Tiling.insert (tiling : Tiling top free chunks) (bounded : order ≤ top)
    (fresh : Disjoint (chunkRange order index) free) :
    Tiling top (free ∪ chunkRange order index) (insertChunk chunks order index) where
  bounded member := by
    rcases mem_insertChunk.mp member with ⟨rfl, _⟩ | member
    · exact bounded
    · exact tiling.bounded member
  sound member := by
    rcases mem_insertChunk.mp member with ⟨rfl, same⟩ | member
    · exact .inr same
    · exact .inl (tiling.sound member)
  cover := by
    rintro number (member | member)
    · obtain ⟨order', found⟩ := tiling.cover member
      exact ⟨order', mem_insertChunk.mpr (.inr found)⟩
    · exact ⟨order, mem_insertChunk.mpr (.inl ⟨rfl, member⟩)⟩
  unique := by
    intro number order₁ order₂ member₁ member₂
    have apart {order' : Nat} (same : number / 2 ^ order = index)
        (member : number / 2 ^ order' ∈ chunks order') : False :=
      disjoint_left.mp fresh same (tiling.sound member)
    rcases mem_insertChunk.mp member₁ with ⟨rfl, same₁⟩ | older₁
    · rcases mem_insertChunk.mp member₂ with ⟨rfl, _⟩ | older₂
      · rfl
      · exact (apart same₁ older₂).elim
    · rcases mem_insertChunk.mp member₂ with ⟨rfl, same₂⟩ | older₂
      · exact (apart same₂ older₁).elim
      · exact tiling.unique older₁ older₂

theorem Tiling.erase (tiling : Tiling top free chunks) (listed : index ∈ chunks order) :
    Tiling top (free \ chunkRange order index) (eraseChunk chunks order index) where
  bounded member := tiling.bounded (mem_eraseChunk.mp member).1
  sound := by
    intro order' number member
    obtain ⟨older, other⟩ := mem_eraseChunk.mp member
    refine ⟨tiling.sound older, fun inside => other ?_⟩
    obtain rfl : number / 2 ^ order = index := inside
    exact ⟨tiling.unique older listed, by rw [tiling.unique older listed]⟩
  cover := by
    rintro number ⟨member, outside⟩
    obtain ⟨order', found⟩ := tiling.cover member
    refine ⟨order', mem_eraseChunk.mpr ⟨found, ?_⟩⟩
    rintro ⟨rfl, same⟩
    exact outside same
  unique member member' :=
    tiling.unique (mem_eraseChunk.mp member).1 (mem_eraseChunk.mp member').1

theorem chunkRange_succ (order index : Nat) : chunkRange (order + 1) index =
    chunkRange order (2 * index) ∪ chunkRange order (2 * index + 1) := by
  ext number
  simp only [chunkRange, mem_union, mem_ofPred_eq, div_two_pow_succ]
  omega

theorem chunkRange_disjoint (different : index ≠ index') :
    Disjoint (chunkRange order index) (chunkRange order index') := by
  rw [disjoint_left]
  intro number mem mem'
  exact different (mem.symm.trans mem')

/-- Replace a chunk by its halves. -/
def splitChunk (chunks : Nat → Set Nat) (order index : Nat) : Nat → Set Nat :=
  insertChunk (insertChunk (eraseChunk chunks (order + 1) index) order (2 * index)) order
    (2 * index + 1)

/-- Replace both halves of a range by the range. -/
def mergeChunks (chunks : Nat → Set Nat) (order index : Nat) : Nat → Set Nat :=
  insertChunk (eraseChunk (eraseChunk chunks order (2 * index)) order (2 * index + 1)) (order + 1) index

theorem Tiling.split (tiling : Tiling top free chunks) (listed : index ∈ chunks (order + 1)) :
    Tiling top free (splitChunk chunks order index) := by
  have bounded := tiling.bounded listed
  have whole := tiling.rangeFree listed
  have halves := chunkRange_succ order index
  have apart : Disjoint (chunkRange order (2 * index + 1)) (chunkRange order (2 * index)) :=
    chunkRange_disjoint (by omega)
  have lower := (tiling.erase listed).insert (by omega) (show Disjoint (chunkRange order (2 * index)) _ by
      rw [halves]
      exact disjoint_sdiff_right.mono_left subset_union_left)
  have upper := lower.insert (by omega) (show Disjoint (chunkRange order (2 * index + 1)) _ by
      rw [halves, disjoint_union_right]
      exact ⟨disjoint_sdiff_right.mono_left subset_union_right, apart⟩)
  have same : free \ chunkRange (order + 1) index ∪ chunkRange order (2 * index) ∪
      chunkRange order (2 * index + 1) = free := by
    rw [union_assoc, ← halves, sdiff_union_of_subset whole]
  rwa [same] at upper

theorem Tiling.merge (tiling : Tiling top free chunks) (bounded : order < top)
    (pair : Pair chunks order index) : Tiling top free (mergeChunks chunks order index) := by
  have whole : chunkRange (order + 1) index ⊆ free := by
    rw [chunkRange_succ, union_subset_iff]
    exact ⟨tiling.rangeFree pair.1, tiling.rangeFree pair.2⟩
  have still : 2 * index + 1 ∈ eraseChunk chunks order (2 * index) order :=
    mem_eraseChunk.mpr ⟨pair.2, by omega⟩
  have erased := (tiling.erase pair.1).erase still
  rw [Set.sdiff_sdiff, ← chunkRange_succ] at erased
  have merged := erased.insert (by omega) disjoint_sdiff_right
  rwa [sdiff_union_of_subset whole] at merged

/-! ### Where pairs can be -/

/-- Every pair of the chunks is around the number. -/
def PairsAround (top : Nat) (chunks : Nat → Set Nat) (number : Nat) : Prop :=
  ∀ order < top, ∀ index, Pair chunks order index → number / 2 ^ (order + 1) = index

/-- Splitting the chunk of a number makes a pair around the number only. -/
theorem PairsAround.split (around : PairsAround top chunks number) (bounded : order < top) :
    PairsAround top (splitChunk chunks order (number / 2 ^ (order + 1))) number := by
  rintro order' below index ⟨lower, upper⟩
  simp only [splitChunk, mem_insertChunk, mem_eraseChunk] at lower upper
  rcases lower with ⟨rfl, half⟩ | ⟨rfl, half⟩ | ⟨lower, _⟩
  · omega
  · omega
  · rcases upper with ⟨rfl, half⟩ | ⟨rfl, half⟩ | ⟨upper, _⟩
    · omega
    · omega
    · exact around order' below index ⟨lower, upper⟩

/-- Taking away the chunk of a number leaves no pair. -/
theorem PairsAround.erase (tiling : Tiling top free chunks)
    (around : PairsAround top chunks number) (listed : number / 2 ^ order ∈ chunks order) :
    ∀ order' < top, ∀ index, ¬Pair (eraseChunk chunks order (number / 2 ^ order)) order' index := by
  rintro order' below index ⟨lower, upper⟩
  obtain ⟨lower, notLower⟩ := mem_eraseChunk.mp lower
  obtain ⟨upper, notUpper⟩ := mem_eraseChunk.mp upper
  have here := around order' below index ⟨lower, upper⟩
  rw [div_two_pow_succ] at here
  have halves : number / 2 ^ order' = 2 * index ∨ number / 2 ^ order' = 2 * index + 1 := by omega
  have mem : number / 2 ^ order' ∈ chunks order' := by
    rcases halves with half | half
    · rwa [half]
    · rwa [half]
  obtain rfl := tiling.unique mem listed
  rcases halves with half | half
  · exact notLower ⟨rfl, half.symm⟩
  · exact notUpper ⟨rfl, half.symm⟩

/-- The only pair there may be is at the given order around the number. -/
def PairOnly (top : Nat) (chunks : Nat → Set Nat) (number order : Nat) : Prop :=
  ∀ order' < top, ∀ index, Pair chunks order' index → order' = order ∧ number / 2 ^ (order + 1) = index

/-- Merging the only pair leaves no pair but one with the new chunk. -/
theorem PairOnly.merge (only : PairOnly top chunks number order) :
    PairOnly top (mergeChunks chunks order (number / 2 ^ (order + 1))) number (order + 1) := by
  rintro order' below index ⟨lower, upper⟩
  have halved := div_two_pow_succ number (order + 1)
  simp only [mergeChunks, mem_insertChunk, mem_eraseChunk] at lower upper
  rcases lower with ⟨rfl, half⟩ | ⟨⟨lower, notLower⟩, _⟩
  · exact ⟨rfl, by omega⟩
  · rcases upper with ⟨rfl, half⟩ | ⟨⟨upper, _⟩, _⟩
    · exact ⟨rfl, by omega⟩
    · obtain ⟨rfl, same⟩ := only order' below index ⟨lower, upper⟩
      exact absurd ⟨rfl, by rw [same]⟩ notLower

/-- Adding a single number to a tiling without pairs makes no pair but one with that number. -/
theorem pairOnly_insert (single : ∀ order < top, ∀ index, ¬Pair chunks order index) (number : Nat) :
    PairOnly top (insertChunk chunks 0 number) number 0 := by
  rintro order' below index ⟨lower, upper⟩
  rw [mem_insertChunk] at lower upper
  rcases lower with ⟨rfl, half⟩ | lower
  · exact ⟨rfl, by omega⟩
  · rcases upper with ⟨rfl, half⟩ | upper
    · exact ⟨rfl, by omega⟩
    · exact absurd ⟨lower, upper⟩ (single order' below index)

/-! ### Runs of consecutive members -/

/-- The first members of the runs of consecutive members. -/
def runStarts (free : Set Nat) : Set Nat := {number ∈ free | number = 0 ∨ number - 1 ∉ free}

theorem runStarts_empty : runStarts ∅ = ∅ := by
  ext number
  simp [runStarts]

theorem runStarts_finite (finite : free.Finite) : (runStarts free).Finite :=
  finite.subset fun _ mem => mem.1

/-- A new interval starts a run unless the number before it is a member, and continues into the run
that the number behind it started, if that is a member. -/
theorem mem_runStarts_union (positive : 0 < count) (fresh : Disjoint (Set.Ico first (first + count)) free) :
    number ∈ runStarts (free ∪ Set.Ico first (first + count)) ↔
      (number ∈ runStarts free ∧ number ≠ first + count) ∨
        (number = first ∧ ¬(first ≠ 0 ∧ first - 1 ∈ free)) := by
  have outside {other : Nat} (low : first ≤ other) (high : other < first + count) : other ∉ free :=
    disjoint_left.mp fresh ⟨low, high⟩
  simp only [runStarts, mem_ofPred_eq, mem_union, mem_Ico]
  by_cases inside : first ≤ number ∧ number < first + count
  · have notFree := outside inside.1 inside.2
    by_cases start : number = first
    · subst start
      have before : ¬(number ≤ number - 1 ∧ number - 1 < number + count) ∨ number = 0 := by omega
      grind
    · have previous : first ≤ number - 1 ∧ number - 1 < first + count := by omega
      have nonzero : number ≠ 0 := by omega
      grind
  · have notFirst : number ≠ first := by omega
    by_cases behind : number = first + count
    · have previous : first ≤ number - 1 ∧ number - 1 < first + count := by omega
      have nonzero : number ≠ 0 := by omega
      grind
    · have previous : ¬(first ≤ number - 1 ∧ number - 1 < first + count) ∨ number = 0 := by omega
      grind

/-- How a new interval changes the number of runs. -/
theorem ncard_runStarts_union {left right : Bool} (finite : free.Finite) (positive : 0 < count)
    (fresh : Disjoint (Set.Ico first (first + count)) free)
    (before : left = true ↔ first ≠ 0 ∧ first - 1 ∈ free)
    (behind : right = true ↔ first + count ∈ free) :
    ((runStarts (free ∪ Set.Ico first (first + count))).ncard : Int) =
      (runStarts free).ncard + (if left then 0 else 1) - (if right then 1 else 0) := by
  have finiteStarts := runStarts_finite finite
  have continued : first + count ∈ runStarts free ↔ right = true := by
    rw [behind]
    refine ⟨fun member => member.1, fun member => ⟨member, .inr ?_⟩⟩
    exact disjoint_left.mp fresh ⟨by omega, by omega⟩
  have notStart : first ∉ runStarts free := fun member =>
    disjoint_left.mp fresh ⟨le_refl _, by omega⟩ member.1
  have without : ((runStarts free \ {first + count}).ncard : Int) =
      (runStarts free).ncard - (if right then 1 else 0) := by
    cases right with
    | true =>
      have member := continued.mpr rfl
      have smaller := ncard_sdiff_singleton_add_one member finiteStarts
      rw [if_pos rfl]
      omega
    | false =>
      have absent : first + count ∉ runStarts free := fun member =>
        Bool.false_ne_true (continued.mp member)
      rw [sdiff_singleton_eq_self absent, if_neg (by simp), sub_zero]
  have shape : runStarts (free ∪ Set.Ico first (first + count)) =
      if left then runStarts free \ {first + count}
      else insert first (runStarts free \ {first + count}) := by
    ext number
    rw [mem_runStarts_union positive fresh, ← before]
    cases left with
    | true => simp
    | false => simp [or_comm]
  rw [shape]
  cases left with
  | true =>
    rw [if_pos rfl, if_pos rfl]
    omega
  | false =>
    rw [if_neg (by simp), if_neg (by simp),
      ncard_insert_of_notMem (fun member => notStart member.1) (finiteStarts.subset sdiff_subset)]
    omega

end LinuxKernel.Library
