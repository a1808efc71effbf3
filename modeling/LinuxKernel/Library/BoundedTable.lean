/-
Module: LinuxKernel.Library.BoundedTable
Purpose: The search upwards for the first entry of a table that passes a test, and how the number of such
  entries moves when one changes. Searching a partial map piece by piece: what one call of a search that may
  stop early has found. A search that has passed the last key reports the next one as 0.
Trusted boundary: none
Main exports: findNext, IsNext, countBelow, countBelow_update, valuesIn, stopOf, Collected
-/
import Mathlib

namespace LinuxKernel.Library

variable {test : Nat → Bool} {size offset found : Nat}

/-- At most the given number of tests, from one index on. -/
def findNextLoop (test : Nat → Bool) : Nat → Nat → Nat
  | 0, i => i
  | count + 1, i => if test i then i else findNextLoop test count (i + 1)

/-- The first index from `offset` on and below `size` that passes the test, or `size`. -/
def findNext (test : Nat → Bool) (size offset : Nat) : Nat :=
  if offset < size then findNextLoop test (size - offset) offset else size

/-- What such a search has found. -/
structure IsNext (test : Nat → Bool) (size offset found : Nat) : Prop where
  le_size : found ≤ size
  offset_le : offset ≤ size → offset ≤ found
  skipped : ∀ i, offset ≤ i → i < found → test i = false
  passes : found < size → test found = true

theorem findNextLoop_isNext : ∀ (count i : Nat), IsNext test (i + count) i (findNextLoop test count i)
  | 0, i => ⟨Nat.le_refl _, fun _ => Nat.le_refl _,
      fun j low high => absurd (Nat.lt_of_le_of_lt low high) (Nat.lt_irrefl _),
      fun inside => absurd inside (Nat.lt_irrefl _)⟩
  | count + 1, i => by
      rw [findNextLoop]
      split_ifs with here
      · exact ⟨by omega, fun _ => Nat.le_refl _, fun j low high => by omega, fun _ => here⟩
      · have rest := findNextLoop_isNext count (i + 1)
        rw [Nat.add_right_comm] at rest
        have further := rest.offset_le (by omega)
        refine ⟨rest.le_size, fun _ => by omega, ?_, rest.passes⟩
        intro j low high
        rcases Nat.eq_or_lt_of_le low with rfl | above
        · exact Bool.eq_false_iff.mpr here
        · exact rest.skipped j above high

theorem findNext_isNext (test : Nat → Bool) (size offset : Nat) :
    IsNext test size offset (findNext test size offset) := by
  unfold findNext
  split_ifs with inside
  · have looped := @findNextLoop_isNext test (size - offset) offset
    rwa [Nat.add_sub_cancel' (Nat.le_of_lt inside)] at looped
  · exact ⟨Nat.le_refl _, fun low => low, fun i low high => by omega,
      fun below => absurd below (Nat.lt_irrefl _)⟩

open Function Nat List

variable {other : Nat → Bool} {bound entry : Nat}

/-- The number of entries below the bound that satisfy the test. -/
def countBelow (test : Nat → Bool) (bound : Nat) : Nat :=
  (List.range bound).countP test

theorem countBelow_succ : countBelow test (bound + 1) = countBelow test bound + (test bound).toNat := by
  rw [countBelow, range_succ, countP_append, countP_singleton]
  cases test bound <;> rfl

theorem countBelow_congr (same : ∀ entry < bound, test entry = other entry) :
    countBelow test bound = countBelow other bound := by
  induction bound with
  | zero => rfl
  | succ bound ih =>
    rw [countBelow_succ, countBelow_succ, same bound (lt_succ_self _),
      ih fun entry small => same entry (lt_succ_of_lt small)]

/-- Changing one entry moves the count by that entry alone. -/
theorem countBelow_update (test other : Nat → Bool) (small : entry < bound)
    (same : ∀ key < bound, key ≠ entry → other key = test key) :
    countBelow other bound + (test entry).toNat = countBelow test bound + (other entry).toNat := by
  induction bound with
  | zero => exact absurd small (not_lt_zero _)
  | succ bound ih =>
    rw [countBelow_succ, countBelow_succ]
    by_cases last : entry = bound
    · subst last
      rw [countBelow_congr fun key below =>
        same key (Nat.lt_succ_of_lt below) (Nat.ne_of_lt below)]
      omega
    · have earlier := ih (by omega) fun key below =>
        same key (lt_succ_of_lt below)
      rw [same bound (lt_succ_self _) (Ne.symm last)]
      omega

theorem countBelow_eq_zero : countBelow test bound = 0 ↔ ∀ entry < bound, test entry = false := by
  rw [countBelow, countP_eq_zero]
  simp only [mem_range, Bool.not_eq_true]

theorem countBelow_pos (small : entry < bound) (holds : test entry = true) : 0 < countBelow test bound :=
  countP_pos_iff.mpr ⟨entry, mem_range.mpr small, holds⟩

/-- When the count is one, no entry but the known one satisfies the test. -/
theorem countBelow_eq_one (one : countBelow test bound = 1) (small : entry < bound)
    (holds : test entry = true) :
    ∀ key < bound, key ≠ entry → test key = false := by
  have without : countBelow (update test entry false) bound + (test entry).toNat =
      countBelow test bound + (update test entry false entry).toNat :=
    countBelow_update _ _ small fun key _ ne => update_of_ne ne ..
  rw [one, holds] at without
  have none : countBelow (update test entry false) bound = 0 := by simpa using without
  intro key below ne
  simpa [update_of_ne ne] using countBelow_eq_zero.mp none key below

variable {Value : Type*} {value other : Nat → Option Value} {start middle stop : Nat}

/-- The values of the keys from `start` up to, but not including, `stop`, in ascending order. -/
def valuesIn (value : Nat → Option Value) (start stop : Nat) : List Value :=
  (List.range' start (stop - start)).filterMap value

theorem valuesIn_append (before : start ≤ middle) (after : middle ≤ stop) :
    valuesIn value start stop = valuesIn value start middle ++ valuesIn value middle stop := by
  have lengths : stop - start = (middle - start) + (stop - middle) := by omega
  have resumes : start + (middle - start) = middle := by omega
  rw [valuesIn, lengths, ← range'_append_1, filterMap_append, resumes]
  rfl

theorem valuesIn_eq_nil (absent : ∀ key, start ≤ key → key < stop → value key = none) :
    valuesIn value start stop = [] := by
  refine filterMap_eq_nil_iff.mpr fun key member => ?_
  have range := mem_range'_1.mp member
  exact absent key range.1 (by omega)

theorem valuesIn_congr (same : ∀ key, start ≤ key → key < stop → value key = other key) :
    valuesIn value start stop = valuesIn other start stop := by
  refine filterMap_congr fun key member => ?_
  have range := mem_range'_1.mp member
  exact same key range.1 (by omega)

theorem valuesIn_self : valuesIn value start start = [] := by
  simp [valuesIn]

theorem valuesIn_singleton : valuesIn value start (start + 1) = (value start).toList := by
  rw [valuesIn]
  cases found : value start <;> simp [found]

/-- The key a search has reached, when 0 stands for having passed the last. -/
def stopOf (size next : Nat) : Nat := if next = 0 then size else next

theorem stopOf_mod {size : Nat} (reached : stop ≤ size) (positive : 0 < stop) :
    stopOf size (stop % size) = stop := by
  unfold stopOf
  rcases lt_or_eq_of_le reached with inside | rfl
  · rw [mod_eq_of_lt inside, if_neg (ne_of_gt positive)]
  · rw [mod_self, if_pos rfl]

/-- A search from `start` for at most `most` values has found all those of the keys it passed, and
it has not gone beyond `limit`. -/
structure Collected (value : Nat → Option Value) (size most limit start : Nat) (found : List Value)
    (next : Nat) : Prop where
  advances : start < stopOf size next
  within : stopOf size next ≤ limit
  bounded : stopOf size next ≤ size
  found_eq : found = valuesIn value start (stopOf size next)
  length_le : found.length ≤ most

variable {size most limit next : Nat} {found : List Value}

/-- What was found before a search goes in front of what it finds. -/
theorem Collected.prepend {rest : Nat} (collected : Collected value size rest limit middle found next)
    (before : start ≤ middle) (room : (valuesIn value start middle).length + rest ≤ most) :
    Collected value size most limit start (valuesIn value start middle ++ found) next where
  advances := lt_of_le_of_lt before collected.advances
  within := collected.within
  bounded := collected.bounded
  found_eq := by
    rw [valuesIn_append before (le_of_lt collected.advances), ← collected.found_eq]
  length_le := by
    rw [length_append]
    exact Nat.le_trans (Nat.add_le_add_left collected.length_le _) room

/-- Keys without a value may be passed before the search. -/
theorem Collected.skip (collected : Collected value size most limit middle found next)
    (before : start ≤ middle) (absent : ∀ key, start ≤ key → key < middle → value key = none) :
    Collected value size most limit start found next := by
  have empty : valuesIn value start middle = [] := valuesIn_eq_nil absent
  have prepended : Collected value size most limit start (valuesIn value start middle ++ found)
      next := collected.prepend before (by rw [empty]; simp)
  rwa [empty] at prepended

theorem Collected.nothing (advances : start < stopOf size next) (within : stopOf size next ≤ limit)
    (bounded : stopOf size next ≤ size)
    (absent : ∀ key, start ≤ key → key < stopOf size next → value key = none) :
    Collected value size most limit start [] next :=
  ⟨advances, within, bounded, (valuesIn_eq_nil absent).symm, zero_le _⟩

/-- Only the values of the keys it can pass matter to a search. -/
theorem Collected.congr {wider : Nat} (collected : Collected value size most limit start found next)
    (limits : limit ≤ wider)
    (same : ∀ key, start ≤ key → key < limit → value key = other key) :
    Collected other size most wider start found next where
  advances := collected.advances
  within := le_trans collected.within limits
  bounded := collected.bounded
  found_eq := collected.found_eq.trans (valuesIn_congr fun key ordered before =>
    same key ordered (lt_of_lt_of_le before collected.within))
  length_le := collected.length_le

end LinuxKernel.Library
