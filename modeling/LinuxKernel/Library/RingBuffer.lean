/-
Module: LinuxKernel.Library.RingBuffer
Purpose: A ring buffer written and read in two pieces, and the history it holds: the entries of a sequence
  between two counters that are never more than the size of the ring apart. Writing past the upper counter
  keeps them, and reading from the lower one gives them back.
Trusted boundary: none
Main exports: ringWrite, ringRead, Contents, Contents.write, Contents.read
-/
import Mathlib

namespace LinuxKernel.Library

open List Nat

variable {α : Type*} {memory : Nat → α} {size start low high len : Nat} {data history : List α}

/-- Copy the list into the memory, from the given position on. -/
def blit (memory : Nat → α) (start : Nat) (data : List α) (position : Nat) : α :=
  if start ≤ position then (data[position - start]?).getD (memory position) else memory position

/-- Write a list at a position of the ring: up to its end, and the rest at its beginning. -/
def ringWrite (memory : Nat → α) (size start : Nat) (data : List α) : Nat → α :=
  let l := min data.length (size - start % size)
  blit (blit memory (start % size) (data.take l)) 0 (data.drop l)

/-- Read from a position of the ring: up to its end, and the rest from its beginning. -/
def ringRead (memory : Nat → α) (size start len : Nat) : List α :=
  let l := min len (size - start % size)
  (List.range l).map (fun i => memory (start % size + i)) ++ (List.range (len - l)).map memory

theorem ring_position (inside : len < size) : (start + len) % size =
      if start % size + len < size then start % size + len else start % size + len - size := by
  rw [add_mod_eq_ite, mod_eq_of_lt inside]
  split_ifs <;> omega

/-- The two pieces together: every position of the ring gets its entry of the list, if there is one. -/
theorem ringWrite_apply (fits : data.length ≤ size) {i : Nat} (inside : i < size) :
    ringWrite memory size start data ((start + i) % size) =
      (data[i]?).getD (memory ((start + i) % size)) := by
  have below := Nat.mod_lt start (Nat.zero_lt_of_lt inside)
  rw [ringWrite, ring_position inside, blit, if_pos (Nat.zero_le _), Nat.sub_zero, getElem?_drop]
  by_cases first : start % size + i < size
  · have none : data[min data.length (size - start % size) + (start % size + i)]? = none := by
      rw [getElem?_eq_none_iff]
      omega
    rw [if_pos first, none, Option.getD_none, blit, if_pos (Nat.le_add_right _ _), Nat.add_sub_cancel_left,
      getElem?_take]
    by_cases short : i < data.length
    · rw [if_pos (by omega)]
    · rw [if_neg (by omega), getElem?_eq_none (Nat.not_lt.mp short)]
  · rw [if_neg first]
    by_cases short : i < data.length
    · have same : min data.length (size - start % size) + (start % size + i - size) = i := by omega
      rw [same, getElem?_eq_getElem short, Option.getD_some, Option.getD_some]
    · have none : data[min data.length (size - start % size) + (start % size + i - size)]? = none := by
        rw [getElem?_eq_none_iff]
        omega
      rw [none, Option.getD_none, getElem?_eq_none (Nat.not_lt.mp short), Option.getD_none, blit,
        if_neg (by omega)]

/-- The two pieces together, in the order of the ring. -/
theorem ringRead_eq (fits : len ≤ size) :
    ringRead memory size start len = (List.range len).map fun i => memory ((start + i) % size) := by
  rcases Nat.eq_zero_or_pos size with rfl | positive
  · rw [le_zero.mp fits]
    rfl
  have below := mod_lt start positive
  rw [ringRead]
  have whole : len = min len (size - start % size) + (len - min len (size - start % size)) := by omega
  conv_rhs => rw [whole, range_add, map_append, map_map]
  congr 1
  · refine map_congr_left fun i member => ?_
    have := mem_range.mp member
    rw [ring_position (by omega), if_pos (by omega)]
  · refine map_congr_left fun i member => ?_
    have := mem_range.mp member
    rw [Function.comp_apply, ring_position (by omega), if_neg (by omega)]
    congr 1
    omega

/-- The ring holds the entries of the history from `low` up to `high`. -/
def Contents (memory : Nat → α) (size : Nat) (history : List α) (low high : Nat) : Prop :=
  ∀ i, low ≤ i → i < high → history[i]? = some (memory (i % size))

/-- Writing at the upper counter keeps what the ring holds. -/
theorem Contents.write (contents : Contents memory size history low high)
    (room : high + data.length ≤ low + size) :
    Contents (ringWrite memory size high data) size history low high := by
  intro i above below
  -- the position of `i` lies behind the data in the order of the ring
  have around : (high + (i + size - high)) % size = i % size := by
    rw [show high + (i + size - high) = i + size by omega, add_mod_right]
  rw [contents i above below, ← around, ringWrite_apply (by omega) (by omega),
    getElem?_eq_none (by omega), Option.getD_none]

/-- What was written at the upper counter becomes part of the history. -/
theorem Contents.extend (contents : Contents memory size history low history.length)
    (written : ∀ i < data.length, data[i]? = some (memory ((history.length + i) % size))) :
    Contents memory size (history ++ data) low (history.length + data.length) := by
  intro i above below
  by_cases old : i < history.length
  · rw [getElem?_append_left old]
    exact contents i above old
  · rw [getElem?_append_right (Nat.not_lt.mp old), written _ (by omega),
      Nat.add_sub_cancel' (Nat.not_lt.mp old)]

/-- Reading at the lower counter gives the history from there on. -/
theorem Contents.read (contents : Contents memory size history low high) (within : low + len ≤ high)
    (fits : len ≤ size) : ringRead memory size low len = (history.drop low).take len := by
  rw [ringRead_eq fits]
  refine ext_getElem? fun i => ?_
  rw [getElem?_take, getElem?_map, getElem?_drop]
  split_ifs with inside
  · rw [getElem?_range inside, Option.map_some, contents (low + i) (by omega) (by omega)]
  · rw [getElem?_eq_none (by rw [length_range]; omega), Option.map_none]

end LinuxKernel.Library
