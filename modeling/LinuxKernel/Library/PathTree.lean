/-
Module: LinuxKernel.Library.PathTree
Purpose: The digits of a key as the path it takes down a tree with a fixed number of entries a node. Binary
  trees as partial maps from paths to nodes, which are ordered downwards by a relation and stand where their
  digits lead. `Later` is the order of a walk that visits a node before the nodes below it, and the left
  ones of those first.
Trusted boundary: none
Main exports: digit, digit_compose, entryEnd, entryStart, PathTree, HeapOrdered, HeapOrdered.put, Later
-/
import Mathlib

namespace LinuxKernel.Library

open Nat

variable {base level key other : Nat}

/-- The entry a key takes at a level, the lowest level being 0. -/
def digit (base level key : Nat) : Nat := key / base ^ level % base

theorem digit_lt (pos : 0 < base) : digit base level key < base :=
  mod_lt _ pos

/-- Agreeing below `level + 1` is agreeing on the entry at `level` and below it. -/
theorem mod_pow_succ_eq_iff (pos : 0 < base) : key % base ^ (level + 1) = other % base ^ (level + 1) ↔
      digit base level key = digit base level other ∧ key % base ^ level = other % base ^ level := by
  unfold digit
  constructor
  · intro same
    have below : key % base ^ level = other % base ^ level := by
      have divides : base ^ level ∣ base ^ (level + 1) := pow_dvd_pow _ (le_succ _)
      rw [← mod_mod_of_dvd key divides, same, mod_mod_of_dvd other divides]
    rw [mod_pow_succ, mod_pow_succ, below] at same
    exact ⟨Nat.eq_of_mul_eq_mul_left (Nat.pow_pos pos) (Nat.add_left_cancel same), below⟩
  · rintro ⟨entry, below⟩
    rw [mod_pow_succ, mod_pow_succ, entry, below]

/-- Among the keys of a tree, those in the first entry of the top level are the small ones. -/
theorem digit_eq_zero_iff (pos : 0 < base) (bounded : key < base ^ (level + 1)) :
    digit base level key = 0 ↔ key < base ^ level := by
  have small : key / base ^ level < base :=
    Nat.div_lt_of_lt_mul (by rwa [← Nat.pow_succ])
  rw [digit, mod_eq_of_lt small, Nat.div_eq_zero_iff]
  have := Nat.pow_pos (n := level) pos
  omega

variable {entry : Nat}

/-- Every entry of the top level, with every path below it, is taken by a key. -/
theorem digit_compose {low : Nat} (entryLt : entry < base) (lowLt : low < base ^ level) :
    entry * base ^ level + low < base ^ (level + 1) ∧ digit base level (entry * base ^ level + low) = entry ∧
      (entry * base ^ level + low) % base ^ level = low := by
  have pos : 0 < base ^ level := zero_lt_of_lt lowLt
  have quotient : (entry * base ^ level + low) / base ^ level = entry := by
    rw [mul_comm, mul_add_div pos, div_eq_of_lt lowLt, add_zero]
  refine ⟨?_, ?_, ?_⟩
  · calc entry * base ^ level + low < entry * base ^ level + base ^ level := by omega
      _ = (entry + 1) * base ^ level := (succ_mul ..).symm
      _ ≤ base * base ^ level := mul_le_mul_right _ entryLt
      _ = base ^ (level + 1) := (pow_succ').symm
  · rw [digit, quotient, mod_eq_of_lt entryLt]
  · rw [mul_comm, mul_add_mod, mod_eq_of_lt lowLt]

/-! ### The keys of one entry -/

/-- The first key after those that share the key's entry at a level and all entries above. -/
def entryEnd (base level key : Nat) : Nat := (key / base ^ level + 1) * base ^ level

theorem lt_entryEnd (pos : 0 < base) : key < entryEnd base level key := by
  rw [entryEnd, mul_comm]
  exact lt_mul_div_succ key (Nat.pow_pos pos)

theorem entryEnd_zero : entryEnd base 0 key = key + 1 := by
  simp [entryEnd]

theorem div_pow_succ : key / base ^ (level + 1) = key / base ^ level / base := by
  rw [Nat.pow_succ, Nat.div_div_eq_div_mul]

/-- From a key to the end of its entry, the quotient does not change. -/
theorem div_eq_of_lt_entryEnd (pos : 0 < base) (ordered : key ≤ other)
    (before : other < entryEnd base level key) : other / base ^ level = key / base ^ level := by
  refine Nat.le_antisymm (le_of_lt_succ ?_) (Nat.div_le_div_right ordered)
  exact (Nat.div_lt_iff_lt_mul (Nat.pow_pos pos)).mpr before

/-- The keys from a key to the end of its entry take the same entry. -/
theorem digit_eq_of_lt_entryEnd (pos : 0 < base) (ordered : key ≤ other)
    (before : other < entryEnd base level key) : digit base level other = digit base level key := by
  rw [digit, digit, div_eq_of_lt_entryEnd pos ordered before]

theorem entryEnd_div (pos : 0 < base) : entryEnd base level key / base ^ level = key / base ^ level + 1 :=
  Nat.mul_div_cancel _ (Nat.pow_pos pos)

/-- The quotient of a key by the base, one step on, unless the digit is the last one. -/
theorem succ_div_mod {quotient : Nat} (room : quotient % base + 1 < base) :
    (quotient + 1) % base = quotient % base + 1 ∧ (quotient + 1) / base = quotient / base := by
  have one : 1 % base = 1 := mod_eq_of_lt (by omega)
  rw [add_mod_eq_ite, Nat.add_div (by omega), one, if_neg (by omega), if_neg (by omega),
    div_eq_of_lt (a := 1) (by omega)]
  exact ⟨rfl, rfl⟩

/-- After an entry that is not the last, the next entry of the same node begins. -/
theorem digit_entryEnd (pos : 0 < base) (room : digit base level key + 1 < base) :
    digit base level (entryEnd base level key) = digit base level key + 1 ∧
      entryEnd base level key / base ^ (level + 1) = key / base ^ (level + 1) := by
  unfold digit at room ⊢
  rw [div_pow_succ, div_pow_succ, entryEnd_div pos]
  exact succ_div_mod room

/-- After the last entry, the node's own entry one level up ends. -/
theorem entryEnd_of_last (last : digit base level key + 1 = base) :
    entryEnd base level key = entryEnd base (level + 1) key := by
  unfold digit at last
  have split := div_add_mod (key / base ^ level) base
  rw [entryEnd, entryEnd, div_pow_succ]
  have step : key / base ^ level + 1 = (key / base ^ level / base + 1) * base := by
    rw [succ_mul, mul_comm]
    omega
  rw [step, mul_assoc, pow_succ']

theorem entryEnd_le_succ (pos : 0 < base) : entryEnd base level key ≤ entryEnd base (level + 1) key := by
  have small : digit base level key < base := digit_lt pos
  rcases lt_or_eq_of_le (succ_le_of_lt small) with room | last
  · have same := (digit_entryEnd pos room).2
    refine le_of_lt ?_
    calc entryEnd base level key < entryEnd base (level + 1) (entryEnd base level key) := lt_entryEnd pos
      _ = entryEnd base (level + 1) key := by rw [entryEnd, same, entryEnd]
  · exact le_of_eq (entryEnd_of_last last)

/-- Keys with the same quotient share the end of their entry. -/
theorem entryEnd_congr (same : other / base ^ level = key / base ^ level) :
    entryEnd base level other = entryEnd base level key := by
  rw [entryEnd, same, entryEnd]

/-- From a key to the end of its node's own entry, the digits do not go down. -/
theorem digit_le_of_lt_entryEnd (pos : 0 < base) (ordered : key ≤ other)
    (before : other < entryEnd base (level + 1) key) :
    digit base level key ≤ digit base level other := by
  have same := div_eq_of_lt_entryEnd pos ordered before
  rw [div_pow_succ, div_pow_succ] at same
  have quotients : key / base ^ level ≤ other / base ^ level := Nat.div_le_div_right ordered
  have first := div_add_mod (key / base ^ level) base
  have second := div_add_mod (other / base ^ level) base
  rw [same] at second
  unfold digit
  omega

/-- The first key of another entry of the same node. -/
def entryStart (base level key entry : Nat) : Nat :=
  (key / base ^ (level + 1) * base + entry) * base ^ level

theorem entryStart_div (pos : 0 < base) :
    entryStart base level key entry / base ^ level = key / base ^ (level + 1) * base + entry :=
  Nat.mul_div_cancel _ (Nat.pow_pos pos)

/-- The first key of an entry takes that entry, in the same node. -/
theorem digit_entryStart {entry : Nat} (entryLt : entry < base) :
    digit base level (entryStart base level key entry) = entry ∧
      entryStart base level key entry / base ^ (level + 1) = key / base ^ (level + 1) := by
  have pos : 0 < base := zero_lt_of_lt entryLt
  have quotient : entryStart base level key entry / base ^ (level + 1) = key / base ^ (level + 1) := by
    rw [div_pow_succ, entryStart_div pos, mul_comm, mul_add_div pos, div_eq_of_lt entryLt, add_zero]
  refine ⟨?_, quotient⟩
  rw [digit, entryStart_div pos, mul_comm, mul_add_mod, mod_eq_of_lt entryLt]

/-- A later entry begins after the key's own entry. -/
theorem entryEnd_le_entryStart (later : digit base level key < entry) :
    entryEnd base level key ≤ entryStart base level key entry := by
  have split := div_add_mod (key / base ^ level) base
  unfold digit at later
  rw [entryStart, div_pow_succ]
  refine mul_le_mul_right _ ?_
  rw [mul_comm]
  omega

/-- An entry of the node begins before the node's own entry ends. -/
theorem entryStart_lt_entryEnd (entryLt : entry < base) :
    entryStart base level key entry < entryEnd base (level + 1) key := by
  have pos : 0 < base := zero_lt_of_lt entryLt
  rw [← entryEnd_congr (digit_entryStart entryLt).2]
  exact lt_entryEnd pos

/-- The keys from a key to the first of a later entry take the entries before that one. -/
theorem digit_lt_of_lt_entryStart (entryLt : entry < base) (ordered : key ≤ other)
    (before : other < entryStart base level key entry) : digit base level other < entry := by
  have pos : 0 < base := zero_lt_of_lt entryLt
  have same := div_eq_of_lt_entryEnd pos ordered (lt_trans before (entryStart_lt_entryEnd entryLt))
  have quotient : other / base ^ level < key / base ^ (level + 1) * base + entry :=
    (Nat.div_lt_iff_lt_mul (Nat.pow_pos pos)).mpr before
  have split := div_add_mod (other / base ^ level) base
  rw [← same, div_pow_succ, mul_comm] at quotient
  unfold digit
  omega

open Function List Option

/-- The node at each path. The head of a path is its last step; `false` is the left side. -/
abbrev PathTree (Node : Type*) := List Bool → Option Node

variable {Node : Type*} {above : Node → Node → Prop} {digit digit' : Nat → Node → Bool}
  {place : PathTree Node} {node other : Node} {side : Bool} {path rest : List Bool}

/-- The node is somewhere in the tree. -/
def Placed (place : PathTree Node) (node : Node) : Prop := ∃ path, place path = some node

theorem Placed.ne (placed : Placed place node) (fresh : ¬ Placed place other) : node ≠ other := by
  rintro rfl
  exact fresh placed

theorem not_placed_empty : ¬ Placed (fun _ => none) node := by
  rintro ⟨path, placed⟩
  cases placed

/-- No node stands at two paths. -/
def Apart (place : PathTree Node) : Prop :=
  ∀ path path' node, place path = some node → place path' = some node → path = path'

theorem Apart.elsewhere_iff (apart : Apart place) :
    (∃ q, q ≠ path ∧ place q = some node) ↔ Placed place node ∧ place path ≠ some node := by
  constructor
  · rintro ⟨q, different, placed⟩
    exact ⟨⟨q, placed⟩, fun here => different (apart _ _ _ placed here)⟩
  · rintro ⟨⟨q, placed⟩, notHere⟩
    refine ⟨q, ?_, placed⟩
    rintro rfl
    exact notHere placed

theorem Apart.placed_put (apart : Apart place) : Placed (update place path (some node)) other ↔
    other = node ∨ (Placed place other ∧ place path ≠ some other) := by
  rw [← apart.elsewhere_iff]
  constructor
  · rintro ⟨q, placed⟩
    by_cases here : q = path
    · rw [here, update_self, some_inj] at placed
      exact .inl placed.symm
    · exact .inr ⟨q, here, by rwa [update_of_ne here] at placed⟩
  · rintro (rfl | ⟨q, elsewhere, placed⟩)
    · exact ⟨path, update_self _ _ _⟩
    · exact ⟨q, by rwa [update_of_ne elsewhere]⟩

/-- The nodes after a path is cleared. -/
theorem Apart.placed_clear (apart : Apart place) : Placed (update place path none) other ↔
    Placed place other ∧ place path ≠ some other := by
  rw [← apart.elsewhere_iff]
  constructor
  · rintro ⟨q, placed⟩
    by_cases here : q = path
    · rw [here, update_self] at placed
      cases placed
    · exact ⟨q, here, by rwa [update_of_ne here] at placed⟩
  · rintro ⟨q, elsewhere, placed⟩
    exact ⟨q, by rwa [update_of_ne elsewhere]⟩

/-- The digits of the node lead along the path. -/
def Selected (digit : Nat → Node → Bool) (node : Node) : List Bool → Prop
  | [] => True
  | side :: path => digit path.length node = side ∧ Selected digit node path

variable {ext q : List Bool}

theorem Selected.of_append (selected : Selected digit node (ext ++ path)) : Selected digit node path := by
  induction ext with
  | nil => exact selected
  | cons side ext ih => exact ih selected.2

/-- Nodes that fit the same path agree on its digits. -/
theorem Selected.digit_eq (selected : Selected digit node path) (selected' : Selected digit other path) :
    ∀ level < path.length, digit level node = digit level other := by
  induction path with
  | nil => exact fun level low => absurd low (Nat.not_lt_zero _)
  | cons side path ih =>
    intro level low
    rcases Nat.lt_succ_iff_lt_or_eq.mp low with low | rfl
    · exact ih selected.2 selected'.2 level low
    · rw [selected.1, selected'.1]

/-- The digits after the first one lead along the rest of a path. -/
theorem selected_concat (shift : ∀ level, digit' (level + 1) node = digit level node) :
    Selected digit' node (path ++ [side]) ↔ digit' 0 node = side ∧ Selected digit node path := by
  induction path with
  | nil => simp [Selected]
  | cons step path ih =>
    rw [cons_append, Selected, Selected, length_append, length_singleton, shift]
    tauto

/-! ### Order -/

/-- Every node below another one comes after it, and stands where its digits lead. -/
structure HeapOrdered (above : Node → Node → Prop) (digit : Nat → Node → Bool) (place : PathTree Node) :
    Prop where
  order : ∀ {side path low}, place (side :: path) = some low → ∃ high, place path = some high ∧ above high low
  select : ∀ {path node}, place path = some node → Selected digit node path

theorem HeapOrdered.of_empty (empty : ∀ node, ¬ Placed place node) : HeapOrdered above digit place :=
  ⟨fun placed => (empty _ ⟨_, placed⟩).elim, fun placed => (empty _ ⟨_, placed⟩).elim⟩

variable (ordered : HeapOrdered above digit place)

include ordered

theorem HeapOrdered.above_append
    (trans : ∀ {a b c}, above a b → above b c → above a c) {step : Bool} {low : Node}
    (placed : place (step :: ext ++ path) = some low) : ∃ high, place path = some high ∧ above high low := by
  induction ext generalizing step low with
  | nil => exact ordered.order placed
  | cons next ext ih =>
    obtain ⟨middle, placedMiddle, aboveLow⟩ := ordered.order placed
    obtain ⟨high, placedHigh, aboveMiddle⟩ := ih placedMiddle
    exact ⟨high, placedHigh, trans aboveMiddle aboveLow⟩

theorem HeapOrdered.none_below (empty : place path = none) : place (side :: path) = none := by
  rw [eq_none_iff_forall_ne_some]
  intro low placed
  obtain ⟨high, placedHigh, _⟩ := ordered.order placed
  rw [empty] at placedHigh
  cases placedHigh

theorem HeapOrdered.none_append (empty : place path = none)
    (ext : List Bool) : place (ext ++ path) = none := by
  induction ext with
  | nil => exact empty
  | cons side ext ih => exact ordered.none_below ih

/-- A node may stand at a path if it is above the nodes below it and below the one above it. -/
theorem HeapOrdered.put (selected : Selected digit node path)
    (low : ∀ side child, place (side :: path) = some child → above node child)
    (high : ∀ side rest, path = side :: rest → ∃ up, place rest = some up ∧ above up node) :
    HeapOrdered above digit (update place path (some node)) := by
  constructor
  · intro side q child placed
    by_cases here : side :: q = path
    · subst here
      rw [update_self, some_inj] at placed
      subst placed
      obtain ⟨up, placedUp, aboveNode⟩ := high side q rfl
      exact ⟨up, by rwa [update_of_ne (cons_ne_self _ _).symm], aboveNode⟩
    · rw [update_of_ne here] at placed
      by_cases parent : q = path
      · subst parent
        exact ⟨node, update_self _ _ _, low side child placed⟩
      · rw [update_of_ne parent]
        exact ordered.order placed
  · intro q child placed
    by_cases here : q = path
    · subst here
      rw [update_self, some_inj] at placed
      exact placed ▸ selected
    · rw [update_of_ne here] at placed
      exact ordered.select placed

/-- A leaf can be taken away. -/
theorem HeapOrdered.clear (leaf : ∀ side, place (side :: path) = none) :
    HeapOrdered above digit (update place path none) := by
  have was {q : List Bool} {child : Node} (placed : update place path none q = some child) :
      place q = some child := by
    by_cases here : q = path
    · rw [here, update_self] at placed
      cases placed
    · rwa [update_of_ne here] at placed
  constructor
  · intro side q child placed
    obtain ⟨high, placedHigh, aboveChild⟩ := ordered.order (was placed)
    refine ⟨high, ?_, aboveChild⟩
    rw [update_of_ne, placedHigh]
    rintro rfl
    have gone := leaf side
    rw [was placed] at gone
    cases gone
  · exact fun placed => ordered.select (was placed)

/-! ### A node on top -/

/-- The tree with the node on top and the former tree as the left subtree. -/
def pushTop (node : Node) (place : PathTree Node) : PathTree Node := fun path =>
  match path.getLast? with
  | none => some node
  | some side => if side then none else place path.dropLast

omit ordered

@[simp] theorem pushTop_nil (node : Node) (place : PathTree Node) : pushTop node place [] = some node := rfl

@[simp] theorem pushTop_concat (node : Node) (place : PathTree Node) (path : List Bool) (side : Bool) :
    pushTop node place (path ++ [side]) = if side then none else place path := by
  rw [pushTop, getLast?_append, dropLast_concat]
  rfl

theorem placed_pushTop : Placed (pushTop node place) other ↔ other = node ∨ Placed place other := by
  constructor
  · rintro ⟨path, placed⟩
    rcases eq_nil_or_concat' path with rfl | ⟨rest, side, rfl⟩
    · exact .inl (some_inj.mp placed).symm
    · rw [pushTop_concat] at placed
      cases side with
      | false => exact .inr ⟨rest, placed⟩
      | true => cases placed
  · rintro (rfl | ⟨path, placed⟩)
    · exact ⟨[], rfl⟩
    · exact ⟨path ++ [false], by rwa [pushTop_concat]⟩

theorem HeapOrdered.pushTop (ordered : HeapOrdered above digit place) (shift : ∀ other, Placed place other →
      digit' 0 other = false ∧ ∀ level, digit' (level + 1) other = digit level other)
    (top : ∀ root, place [] = some root → above node root) :
    HeapOrdered above digit' (pushTop node place) := by
  have below {step : Bool} {rest : List Bool} {low : Node}
      (placed : Library.pushTop node place (rest ++ [step]) = some low) : step = false ∧
        place rest = some low := by
    rw [pushTop_concat] at placed
    cases step with
    | false => exact ⟨rfl, placed⟩
    | true => cases placed
  constructor
  · intro side path low placed
    rcases eq_nil_or_concat' path with rfl | ⟨rest, step, rfl⟩
    · exact ⟨node, rfl, top low (@below _ [] low placed).2⟩
    · obtain ⟨rfl, under⟩ := @below _ (side :: rest) _ placed
      obtain ⟨high, placedHigh, aboveLow⟩ := ordered.order under
      exact ⟨high, by rwa [pushTop_concat], aboveLow⟩
  · intro path low placed
    rcases eq_nil_or_concat' path with rfl | ⟨rest, step, rfl⟩
    · trivial
    · obtain ⟨rfl, under⟩ := below placed
      obtain ⟨first, further⟩ := shift low ⟨rest, under⟩
      exact (selected_concat further).mpr ⟨first, ordered.select under⟩

/-! ### The order of a walk -/

/-- The path `q` is not below `path`, and visited after it: it goes to the right where `path` goes to the
left. -/
def Later : (path q : List Bool) → Prop
  | [], _ => False
  | false :: rest, q => (true :: rest) <:+ q ∨ Later rest q
  | true :: rest, q => Later rest q

/-- A later path parts from this one, so it is not below it. -/
theorem Later.not_suffix (later : Later path q) : ¬ path <:+ q := by
  induction path with
  | nil => exact later.elim
  | cons side rest ih =>
    intro below
    cases side with
    | true => exact ih later ((suffix_cons _ _).trans below)
    | false =>
      rcases later with right | later
      · have := suffix_of_suffix_length_le right below (Nat.le_refl _)
        cases this.eq_of_length rfl
      · exact ih later ((suffix_cons _ _).trans below)

/-- The paths below a path are the path itself and those below its two sides. -/
theorem suffix_iff : path <:+ q ↔ q = path ∨ (false :: path) <:+ q ∨ (true :: path) <:+ q := by
  constructor
  · rintro ⟨ext, rfl⟩
    rcases eq_nil_or_concat' ext with rfl | ⟨ext, side, rfl⟩
    · exact .inl rfl
    · refine .inr ?_
      rw [append_assoc]
      cases side with
      | false => exact .inl (suffix_append _ _)
      | true => exact .inr (suffix_append _ _)
  · rintro (rfl | left | right)
    · exact suffix_refl _
    · exact (suffix_cons _ _).trans left
    · exact (suffix_cons _ _).trans right

end LinuxKernel.Library
