/-
Module: LinuxKernel.Library.IntervalList
Purpose: Lists of labelled closed integer intervals in ascending order without overlaps: what such a list
  says about a point, and how replacing the part that touches one region changes it. An `IntervalView` reads
  the bounds and the label of a value.
Trusted boundary: none
Main exports: IntervalView, Ordered.covers_iff, Ordered.clip, Ordered.splice
-/
import Mathlib

namespace LinuxKernel.Library

open List

/-! ### Lists related element by element -/

section Forall

variable {α β : Type*} {R : α → α → Prop} {R' : β → β → Prop} {S : α → β → Prop} {l : List α} {out : List β}

/-- Every element of the second list comes from one of the first. -/
theorem exists_of_forall₂ (related : List.Forall₂ S l out) : ∀ y ∈ out, ∃ x ∈ l, S x y := by
  induction related with
  | nil => simp
  | cons first _ ih =>
    simp only [mem_cons]
    rintro y (rfl | mem)
    · exact ⟨_, .inl rfl, first⟩
    · obtain ⟨x, source, holds⟩ := ih y mem
      exact ⟨x, .inr source, holds⟩

/-- What holds of any two elements in order carries over to the related elements. -/
theorem pairwise_of_forall₂ (carries : ∀ {x x' y y'}, R x x' → S x y → S x' y' → R' y y')
    (related : List.Forall₂ S l out) (pairs : l.Pairwise R) : out.Pairwise R' := by
  induction related with
  | nil => exact .nil
  | cons first others ih =>
    obtain ⟨head, tail⟩ := pairwise_cons.mp pairs
    refine pairwise_cons.mpr ⟨fun y mem => ?_, ih tail⟩
    obtain ⟨x, source, holds⟩ := exists_of_forall₂ others y mem
    exact carries (head x source) first holds

end Forall

/-! ### Labelled intervals -/

/-- How to read a value as a labelled closed interval. -/
structure IntervalView (α τ : Type*) where
  lo : α → Int
  hi : α → Int
  label : α → τ

namespace IntervalView

variable {α τ : Type*} (view : IntervalView α τ)

/-- The point lies in the interval. -/
def Contains (x : α) (point : Int) : Prop :=
  view.lo x ≤ point ∧ point ≤ view.hi x

/-- Some interval of the list contains the point and carries the label. -/
def Covers (l : List α) (point : Int) (t : τ) : Prop :=
  ∃ x ∈ l, view.label x = t ∧ view.Contains x point

/-- Non-empty intervals, each entirely before the next. -/
structure Ordered (l : List α) : Prop where
  nonempty : ∀ x ∈ l, view.lo x ≤ view.hi x
  sorted : l.Pairwise fun x y => view.hi x < view.lo y

variable {view} {l left right : List α} {point low high : Int} {t : τ}

@[simp]
theorem covers_nil : ¬ view.Covers [] point t := by
  simp [Covers]

theorem covers_append :
    view.Covers (left ++ right) point t ↔ view.Covers left point t ∨ view.Covers right point t := by
  simp only [Covers, mem_append, or_and_right, exists_or]

theorem covers_cons {x : α} : view.Covers (x :: l) point t ↔
      (view.label x = t ∧ view.Contains x point) ∨ view.Covers l point t := by
  simp only [Covers, mem_cons, or_and_right, exists_or, exists_eq_left]

/-- An interval without the point can be dropped from the middle of a list. -/
theorem covers_drop {x : α} (outside : ¬ view.Contains x point) :
    view.Covers (left ++ x :: right) point t ↔ view.Covers (left ++ right) point t := by
  simp [covers_append, covers_cons, outside]

/-- No interval of the list contains a point that all of them lie below. -/
theorem not_covers_of_hi_lt (below : ∀ x ∈ l, view.hi x < point) : ¬ view.Covers l point t := by
  rintro ⟨x, mem, -, -, inside⟩
  have := below x mem
  omega

/-- No interval of the list contains a point that all of them lie above. -/
theorem not_covers_of_lt_lo (above : ∀ x ∈ l, point < view.lo x) : ¬ view.Covers l point t := by
  rintro ⟨x, mem, -, inside, -⟩
  have := above x mem
  omega

/-- Changing intervals away from a point does not change what covers the point. -/
theorem covers_congr {out : List α} (same : List.Forall₂ (fun x y => view.label y = view.label x ∧
      (view.Contains y point ↔ view.Contains x point)) l out) :
    view.Covers out point t ↔ view.Covers l point t := by
  induction same with
  | nil => simp
  | cons first _ ih =>
    rw [covers_cons, covers_cons, ih, first.1, first.2]

namespace Ordered

theorem sublist (ordered : view.Ordered l) (sub : left.Sublist l) : view.Ordered left :=
  ⟨fun x mem => ordered.nonempty x (sub.subset mem), ordered.sorted.sublist sub⟩

/-- In an ordered list the intervals before one end before it starts. -/
theorem hi_lt_lo {x : α} (ordered : view.Ordered (left ++ x :: right)) :
    ∀ y ∈ left, view.hi y < view.lo x := by
  intro y mem
  exact (pairwise_append.mp ordered.sorted).2.2 y mem x mem_cons_self

/-- In an ordered list the intervals behind one start after it ends. -/
theorem lo_gt_hi {x : α} (ordered : view.Ordered (left ++ x :: right)) : ∀ y ∈ right, view.hi x < view.lo y :=
  (pairwise_cons.mp (pairwise_append.mp ordered.sorted).2.1).1

/-- The interval that contains a point decides its label. -/
theorem covers_iff {x : α} (ordered : view.Ordered (left ++ x :: right)) (inside : view.Contains x point) :
    view.Covers (left ++ x :: right) point t ↔ t = view.label x := by
  have noLeft : ¬ view.Covers left point t := by
    apply not_covers_of_hi_lt
    intro y mem
    have := ordered.hi_lt_lo y mem
    exact Int.lt_of_lt_of_le this inside.1
  have noRight : ¬ view.Covers right point t := by
    apply not_covers_of_lt_lo
    intro y mem
    have := ordered.lo_gt_hi y mem
    exact Int.lt_of_le_of_lt inside.2 this
  simp [covers_append, covers_cons, noLeft, noRight, inside, eq_comm]

theorem label_unique {other : τ} (ordered : view.Ordered l) (first : view.Covers l point t)
    (second : view.Covers l point other) : t = other := by
  obtain ⟨x, mem, rfl, inside⟩ := first
  obtain ⟨left, right, rfl⟩ := append_of_mem mem
  exact ((ordered.covers_iff inside).mp second).symm

/-- Shrinking intervals, none of them to nothing, keeps a list ordered. -/
theorem clip {out : List α} (ordered : view.Ordered l)
    (clipped : List.Forall₂ (fun x y => view.lo x ≤ view.lo y ∧ view.lo y ≤ view.hi y ∧
      view.hi y ≤ view.hi x) l out) : view.Ordered out := by
  constructor
  · intro y mem
    obtain ⟨x, -, -, nonempty, -⟩ := exists_of_forall₂ clipped y mem
    exact nonempty
  · refine pairwise_of_forall₂ ?_ clipped ordered.sorted
    intro x x' y y' apart first second
    omega

/-- Put a list that lies in the region `[low, high]` between one below it and one above it. -/
theorem splice {middle : List α} (leftOrdered : view.Ordered left)
    (middleOrdered : view.Ordered middle) (rightOrdered : view.Ordered right)
    (below : ∀ x ∈ left, view.hi x < low) (above : ∀ x ∈ right, high < view.lo x)
    (within : ∀ x ∈ middle, low ≤ view.lo x ∧ view.hi x ≤ high) (region : low ≤ high) :
    view.Ordered (left ++ middle ++ right) := by
  constructor
  · simp only [mem_append]
    rintro x ((mem | mem) | mem)
    · exact leftOrdered.nonempty x mem
    · exact middleOrdered.nonempty x mem
    · exact rightOrdered.nonempty x mem
  · refine pairwise_append.mpr ⟨pairwise_append.mpr
      ⟨leftOrdered.sorted, middleOrdered.sorted, ?_⟩, rightOrdered.sorted, ?_⟩
    · intro x leftMember y middleMember
      have := below x leftMember
      have := within y middleMember
      omega
    · simp only [mem_append]
      rintro x (mem | mem) y rightMember
      · have := below x mem
        have := above y rightMember
        omega
      · have := within x mem
        have := above y rightMember
        omega

end Ordered

end IntervalView

end LinuxKernel.Library
