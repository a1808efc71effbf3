/-
Module: LinuxKernel.Lib.IommuHelper
Purpose: The area allocator of `lib/iommu-helper.c` on a bitmap: two loops with `goto again`. Sums of
  `unsigned long` are taken not to wrap. It is a first fit among the areas that end before the last bit of
  the map; an area that ends with the map is refused.
Trusted boundary: human-reviewed spec
Main exports: iommuAreaAlloc, Usable, iommuAreaAlloc_spec, iommuAreaAlloc_firstFit_iff
-/
import LinuxKernel.Library.BoundedTable
import LinuxKernel.Library.DyadicTiling

namespace LinuxKernel.Lib.IommuHelper

open Library Nat

/-- `find_next_zero_area`; -1 is `none`. -/
def findNextZeroArea (map : Nat → Bool) (size nr alignMask : Nat) : (fuel start : Nat) → Option (Option Nat)
  | 0, _ => none
  | fuel + 1, start =>
    let index := findNext (fun i => !map i) size start
    -- align allocation
    let index := Nat.ldiff (index + alignMask) alignMask
    let end_ := index + nr
    if end_ ≥ size then some none
    else
      let i := findNext map end_ index
      if i < end_ then findNextZeroArea map size nr alignMask fuel (i + 1) else some (some index)

/-- `iommu_area_reserve`; an `unsigned int` becomes the `int` that `len` is. -/
def iommuAreaReserve (map : Nat → Bool) (i nr : Nat) : Nat → Bool :=
  let len := Int.bmod nr (2 ^ 32)
  let end_ := ((i + len) % 2 ^ 64).toNat
  (List.range' i (end_ - i)).foldl (Function.update · · true) map

/-- `iommu_is_span_boundary`; its `index` is an `unsigned int`. -/
def iommuIsSpanBoundary (index nr shift boundarySize : Nat) : Bool :=
  let shift := (shift + index % 2 ^ 32) &&& (boundarySize - 1)
  shift + nr > boundarySize

/-- `iommu_area_alloc`: the index, and the map after the call. -/
def iommuAreaAlloc (map : Nat → Bool) (size nr shift boundarySize alignMask : Nat) :
    (fuel start : Nat) → Option (Option Nat × (Nat → Bool))
  | 0, _ => none
  | fuel + 1, start => do
    match ← findNextZeroArea map size nr alignMask (fuel + 1) start with
    | none => return (none, map)
    | some index =>
      if iommuIsSpanBoundary index nr shift boundarySize then
        iommuAreaAlloc map size nr shift boundarySize alignMask fuel (index + 1)
      else return (some index, iommuAreaReserve map index nr)

/-- An aligned area of free bits from the index on that ends at `stop` or before. -/
structure Area (map : Nat → Bool) (nr order stop index : Nat) : Prop where
  aligned : 2 ^ order ∣ index
  inside : index + nr ≤ stop
  free : ∀ i, index ≤ i → i < index + nr → map i = false

/-- What a search from `start` on returns: the least index that passes, or -1 if there is none. -/
def Finds (passes : Nat → Prop) (start : Nat) : Option Nat → Prop
  | some index => IsLeast {index | start ≤ index ∧ passes index} index
  | none => ∀ index ≥ start, ¬ passes index

variable {map : Nat → Bool} {size nr order fuel start start' : Nat} {passes : Nat → Prop} {ret : Option Nat}

/-- Indices that do not pass may be left out. -/
theorem Finds.skip (finds : Finds passes start' ret) (further : start ≤ start')
    (skipped : ∀ index ≥ start, passes index → start' ≤ index) : Finds passes start ret := by
  cases ret with
  | none => exact fun index above pass => finds index (skipped index above pass) pass
  | some index =>
    exact ⟨⟨le_trans further finds.1.1, finds.1.2⟩, fun other there =>
      finds.2 ⟨skipped other there.1 there.2, there.2⟩⟩

/-- `find_next_zero_area` finds the first area that ends before the last bit. -/
theorem findNextZeroArea_spec (positive : 1 ≤ nr) (enough : size - start < fuel) :
    ∃ ret, findNextZeroArea map size nr (2 ^ order - 1) fuel start = some ret ∧
      Finds (Area map nr order (size - 1)) start ret := by
  induction fuel generalizing start with
  | zero => exact absurd enough (not_lt_zero _)
  | succ fuel ih =>
    rw [findNextZeroArea]
    have zero := findNext_isNext (fun i => !map i) size start
    have past : size < start → findNext (fun i => !map i) size start = size := fun past => if_neg (by omega)
    generalize findNext (fun i => !map i) size start = first at zero past ⊢
    have up := isLeast_align first order
    dsimp only
    generalize ldiff (first + (2 ^ order - 1)) (2 ^ order - 1) = index at up ⊢
    have set := findNext_isNext map (index + nr) index
    generalize findNext map (index + nr) index = i at set ⊢
    have above := up.1.1
    have start_le := zero.offset_le
    -- no area starts before the index
    have least : ∀ other ≥ start, Area map nr order (size - 1) other → index ≤ other := by
      intro other after area
      refine up.2 ⟨not_lt.mp fun before => ?_, area.aligned⟩
      have := zero.skipped other after before
      rw [area.free other (le_refl _) (by omega)] at this
      cases this
    split_ifs with outside taken
    · refine ⟨none, rfl, fun other after area => ?_⟩
      have := least other after area
      have := area.inside
      omega
    · have offset := set.offset_le (le_add_right _ _)
      obtain ⟨ret, done, finds⟩ := @ih (i + 1) (by omega)
      refine ⟨ret, done, finds.skip (by omega) fun other after area => Nat.not_le.mp fun before => ?_⟩
      have := least other after area
      have bit := set.passes taken
      rw [area.free i (by omega) (by omega)] at bit
      cases bit
    · refine ⟨some index, rfl, ⟨by omega, up.1.2, by omega, fun j low high => ?_⟩,
        fun other there => least other there.1 there.2⟩
      exact set.skipped j low (by omega)

variable {shift bound : Nat}

/-- An area that does not cross a boundary. -/
def Usable (map : Nat → Bool) (nr shift bound order stop index : Nat) : Prop :=
  Area map nr order stop index ∧ (shift + index) % 2 ^ bound + nr ≤ 2 ^ bound

theorem iommuIsSpanBoundary_iff {index : Nat} (word : index < 2 ^ 32) :
    iommuIsSpanBoundary index nr shift (2 ^ bound) = true ↔
      ¬ (shift + index) % 2 ^ bound + nr ≤ 2 ^ bound := by
  rw [iommuIsSpanBoundary, mod_eq_of_lt word, and_two_pow_sub_one_eq_mod, decide_eq_true_iff]
  exact not_le.symm

/-- The map with the bits of the area at `ret` set as well. -/
def reserved (map : Nat → Bool) (nr : Nat) (ret : Option Nat) : Nat → Bool :=
  ret.elim map fun index i => map i || decide (index ≤ i ∧ i < index + nr)

theorem foldl_update (i rounds : Nat) : (List.range' i rounds).foldl (Function.update · · true) map =
    fun j => map j || decide (i ≤ j ∧ j < i + rounds) := by
  induction rounds generalizing i map with
  | zero =>
    funext j
    rw [decide_eq_false (by omega), Bool.or_false]
    rfl
  | succ rounds ih =>
    rw [List.range'_succ, List.foldl_cons, ih]
    funext j
    rcases eq_or_ne j i with rfl | other
    · simp
    · rw [Function.update_of_ne other]
      congr 1
      exact decide_eq_decide.mpr (by omega)

theorem iommuAreaReserve_eq {i : Nat} (int : nr < 2 ^ 31) (word : i + nr < 2 ^ 64) :
    iommuAreaReserve map i nr = reserved map nr (some i) := by
  have len : Int.bmod nr (2 ^ 32) = nr := Int.bmod_eq_of_le (by omega) (by omega)
  have stop : (((i : Int) + nr) % 2 ^ 64).toNat - i = nr := by omega
  rw [iommuAreaReserve, len, stop, foldl_update]
  rfl

/-- `iommu_area_alloc` finds the first usable area that ends before the last bit. -/
theorem iommuAreaAlloc_spec (positive : 1 ≤ nr) (int : nr < 2 ^ 31) (word : size ≤ 2 ^ 32)
    (enough : size - start < fuel) :
    ∃ ret, iommuAreaAlloc map size nr shift (2 ^ bound)
      (2 ^ order - 1) fuel start = some (ret, reserved map nr ret) ∧
      Finds (Usable map nr shift bound order (size - 1)) start ret := by
  induction fuel generalizing start with
  | zero => exact absurd enough (not_lt_zero _)
  | succ fuel ih =>
    obtain ⟨ret, found, finds⟩ := @findNextZeroArea_spec map size nr order (fuel + 1) start positive enough
    rw [iommuAreaAlloc, found]
    cases ret with
    | none => exact ⟨none, rfl, fun index above usable => finds index above usable.1⟩
    | some index =>
      obtain ⟨⟨above, area⟩, least⟩ := finds
      have inside := area.inside
      have crosses := @iommuIsSpanBoundary_iff nr shift bound index (by omega)
      dsimp only [Option.bind_eq_bind, Option.bind_some]
      split_ifs with crossing
      · obtain ⟨ret, done, finds⟩ := @ih (index + 1) (by omega)
        refine ⟨ret, done, finds.skip (by omega) fun other after usable => ?_⟩
        refine lt_of_le_of_ne (least ⟨after, usable.1⟩) ?_
        rintro rfl
        exact crosses.mp crossing usable.2
      · rw [iommuAreaReserve_eq int (by omega)]
        exact ⟨some index, rfl, ⟨above, area, not_not.mp (mt crosses.mpr crossing)⟩,
          fun other there => least ⟨there.1, there.2.1⟩⟩

/-- Both loops end, and `iommu_area_alloc` is a first fit exactly if the area at the very end of the map is
not the only one that can be used. -/
theorem iommuAreaAlloc_firstFit_iff (map : Nat → Bool) (size start nr shift bound order fuel : Nat)
    (positive : 1 ≤ nr) (int : nr < 2 ^ 31) (word : size ≤ 2 ^ 32) (enough : size < fuel) :
    ∃ ret map', iommuAreaAlloc map size nr shift (2 ^ bound) (2 ^ order - 1) fuel start = some (ret, map') ∧
      (Finds (Usable map nr shift bound order size) start ret ∧ map' = reserved map nr ret ↔
        (start ≤ size - nr ∧ Usable map nr shift bound order size (size - nr) →
          ∃ index, start ≤ index ∧ index + nr < size ∧ Usable map nr shift bound order size index)) := by
  obtain ⟨ret, done, finds⟩ :=
    @iommuAreaAlloc_spec map size nr order fuel start shift bound positive int word (by omega)
  refine ⟨ret, _, done, ?_⟩
  rw [and_iff_left rfl]
  have shorter {index : Nat} : Usable map nr shift bound order (size - 1) index ↔
      index + nr < size ∧ Usable map nr shift bound order size index := by
    constructor
    · rintro ⟨⟨aligned, inside, free⟩, fits⟩
      exact ⟨by omega, ⟨aligned, by omega, free⟩, fits⟩
    · rintro ⟨inside, ⟨aligned, _, free⟩, fits⟩
      exact ⟨⟨aligned, by omega, free⟩, fits⟩
  cases ret with
  | some index =>
    obtain ⟨⟨above, usable⟩, least⟩ := finds
    obtain ⟨inside, usable⟩ := shorter.mp usable
    refine iff_of_true ⟨⟨above, usable⟩, fun other there => ?_⟩ fun _ => ⟨index, above, inside, usable⟩
    by_cases early : other + nr < size
    · exact least ⟨there.1, shorter.mpr ⟨early, there.2⟩⟩
    · omega
  | none =>
    constructor
    · intro none last
      exact absurd last.2 (none _ last.1)
    · intro other index above usable
      have inside := usable.1.inside
      by_cases early : index + nr < size
      · exact finds index above (shorter.mpr ⟨early, usable⟩)
      · obtain rfl : index = size - nr := by omega
        obtain ⟨index, above, early, usable⟩ := other ⟨above, usable⟩
        exact finds index above (shorter.mpr ⟨early, usable⟩)

/-- A map of one free bit. -/
theorem iommuAreaAlloc_last_refused : iommuAreaAlloc (fun _ => false) 1 1 0 (2 ^ 4) (2 ^ 0 - 1) 2 0 =
      some (none, fun _ => false) ∧ Usable (fun _ => false) 1 0 4 0 1 0 :=
  ⟨rfl, ⟨⟨0, rfl⟩, le_refl 1, fun _ _ _ => rfl⟩, by decide⟩

theorem iommuAreaAlloc_firstFit_two :
    ∃ ret map', iommuAreaAlloc (fun _ => false) 2 1 0 (2 ^ 4) (2 ^ 0 - 1) 3 0 =
      some (ret, map') ∧ Finds (Usable (fun _ => false) 1 0 4 0 2) 0 ret := by
  obtain ⟨ret, map', done, iff⟩ :=
    iommuAreaAlloc_firstFit_iff (fun _ => false) 2 0 1 0 4 0 3 (by decide) (by decide)
    (by decide) (by decide)
  refine ⟨ret, map', done, (iff.mpr fun _ => ⟨0, ?_⟩).1⟩
  exact ⟨le_refl 0, by decide, ⟨⟨0, rfl⟩, by decide, fun _ _ _ => rfl⟩, by decide⟩

end LinuxKernel.Lib.IommuHelper
