/-
Module: LinuxKernel.Proofs.IdrRuns
Purpose: `idr_get_empty_slot` grows the tree without changing an id and finds the smallest free id that the
  tallest tree can hold. The idr is a map from ids to pointers as long as its calls have room in a tree of
  `MAX_LEVEL - 1` layers. `sub_remove` reads only the digits of the id that the present height has.
Trusted boundary: none
Main exports: IdrOk, idrRun_layers_exact, roomyRun_refines_map, removesOnly_of_no_alias
-/
import LinuxKernel.Proofs.IdrSearch

namespace LinuxKernel.Lib.Idr

open Library Function List

variable {Item : Type} {p p' : Layer (Entry Item)} {free free' : List (Layer (Entry Item))}
  {entry entry' entry'' : Entry Item} {id level height layers layers' layers'' : Nat}
  {idp idp' : Handle Item}

/-! ### The ids of a tree -/

/-- Whether a tree with the given number of layers has the id allocated. -/
def usedAt (layers : Nat) (entry : Entry Item) (id : Nat) : Bool :=
  decide (id < 64 ^ layers) && taken id layers entry

/-- What a tree with the given number of layers has stored for the id. -/
def storedAt (layers : Nat) (entry : Entry Item) (id : Nat) : Entry Item :=
  if id < 64 ^ layers then lookup id layers entry else .null

theorem Handle.inUse_eq (idp : Handle Item) (id : Nat) : idp.inUse id = usedAt idp.layers idp.top id := by
  rw [Handle.inUse, pow_idrBits, usedAt]

theorem usedAt_of_lt (small : id < 64 ^ layers) : usedAt layers entry id = taken id layers entry := by
  rw [usedAt, decide_eq_true small, Bool.true_and]

theorem usedAt_of_ge (large : 64 ^ layers ≤ id) : usedAt layers entry id = false := by
  rw [usedAt, decide_eq_false (Nat.not_lt_of_le large), Bool.false_and]

theorem storedAt_of_lt (small : id < 64 ^ layers) : storedAt layers entry id = lookup id layers entry :=
  if_pos small

theorem storedAt_of_ge (large : 64 ^ layers ≤ id) : storedAt layers entry id = .null :=
  if_neg (Nat.not_lt_of_le large)

/-- Two trees, of any heights, with the same ids. -/
structure SameIds (layers : Nat) (entry : Entry Item) (layers' : Nat) (entry' : Entry Item) :
    Prop where
  used : ∀ id, usedAt layers' entry' id = usedAt layers entry id
  stored : ∀ id, storedAt layers' entry' id = storedAt layers entry id

theorem SameIds.of_each (same : ∀ id, usedAt layers' entry' id = usedAt layers entry id ∧
    storedAt layers' entry' id = storedAt layers entry id) : SameIds layers entry layers' entry' :=
  ⟨fun id => (same id).1, fun id => (same id).2⟩

theorem SameIds.refl : SameIds layers entry layers entry := ⟨fun _ => rfl, fun _ => rfl⟩

theorem SameIds.symm (same : SameIds layers entry layers' entry') : SameIds layers' entry' layers entry :=
  ⟨fun id => (same.used id).symm, fun id => (same.stored id).symm⟩

theorem SameIds.trans (first : SameIds layers entry layers' entry')
    (second : SameIds layers' entry' layers'' entry'') :
    SameIds layers entry layers'' entry'' :=
  ⟨fun id => (second.used id).trans (first.used id), fun id => (second.stored id).trans (first.stored id)⟩

theorem SameIds.of_kept (kept : Kept level p p') :
    SameIds (level + 1) (.layer p) (level + 1) (.layer p') where
  used id := by rw [usedAt, usedAt, kept.bits]
  stored id := by rw [storedAt, storedAt, kept.reads]

/-- Trees without ids. -/
theorem SameIds.empty (noBits : ∀ id, taken id layers entry = false)
    (noBits' : ∀ id, taken id layers' entry' = false)
    (nothing : ∀ id, lookup id layers entry = .null)
    (nothing' : ∀ id, lookup id layers' entry' = .null) :
    SameIds layers entry layers' entry' where
  used id := by rw [usedAt, usedAt, noBits, noBits', Bool.and_false, Bool.and_false]
  stored id := by rw [storedAt, storedAt, nothing, nothing', ite_self, ite_self]

/-- A layer with nothing but its first entry is that entry, one layer taller. -/
theorem SameIds.lift (pos : height ≠ 0) (first : p.ary 0 = entry)
    (others : ∀ n < idrSize, n ≠ 0 → p.ary n = .null) :
    SameIds height entry (height + 1) (.layer p) := by
  subst first
  have taller : 64 ^ height ≤ 64 ^ (height + 1) :=
    Nat.pow_le_pow_right (by decide) (Nat.le_succ height)
  -- What the first entry does not cover lies in another entry, or outside both.
  have outside : ∀ id, 64 ^ height ≤ id → id < 64 ^ (height + 1) → p.ary (digit 64 height id) = .null := by
    intro id large small
    refine others _ (digit_lt_idrSize ..) fun zero => ?_
    rw [digit_eq_zero_iff (by decide) small] at zero
    omega
  refine .of_each fun id => ?_
  rcases Nat.lt_or_ge id (64 ^ (height + 1)) with below | above
  · rw [usedAt_of_lt below, storedAt_of_lt below, taken_succ _ _ pos, lookup_succ]
    rcases Nat.lt_or_ge id (64 ^ height) with small | large
    · rw [usedAt_of_lt small, storedAt_of_lt small, (digit_eq_zero_iff (by decide) below).mpr small]
      exact ⟨rfl, rfl⟩
    · rw [usedAt_of_ge large, storedAt_of_ge large, outside id large below, taken_null, lookup_null]
      exact ⟨rfl, rfl⟩
  · have large := Nat.le_trans taller above
    rw [usedAt_of_ge large, storedAt_of_ge large, usedAt_of_ge above, storedAt_of_ge above]
    exact ⟨rfl, rfl⟩

/-! ### Building up -/

/-- Layers on top of each other with nothing but their first entry. -/
def Tower : Nat → Layer (Entry Item) → Prop
  | 0, _ => True
  | built + 1, p =>
    (∀ n < idrSize, n ≠ 0 → p.ary n = .null) ∧ ∃ q, p.ary 0 = .layer q ∧ Tower built q

/-- The layers that are torn down go back clean. -/
theorem tearDown_clean {built : Nat} (tower : Tower built p) (clean : ∀ q ∈ free, Clean q) :
    ∀ q ∈ tearDown built p free, Clean q := by
  induction built generalizing p free with
  | zero => exact clean
  | succ built ih =>
    obtain ⟨others, q, first, rest⟩ := tower
    rw [tearDown, first]
    refine ih rest (forall_mem_cons.mpr ⟨⟨rfl, fun n small => ?_, fun _ _ => rfl⟩, clean⟩)
    by_cases same : n = 0
    · simp only [same, update_self]
    · simp only [update_of_ne same, others n small same]

/-- A taller tree with the same ids, for which at most as many layers have been taken as it has
grown. -/
structure Grown (layers : Nat) (entry : Entry Item) (free : List (Layer (Entry Item)))
    (level : Nat) (p : Layer (Entry Item)) (free' : List (Layer (Entry Item))) : Prop where
  shape : LayerShape level (Shape level) p
  inTree : level + 1 ≤ 5
  same : SameIds layers entry (level + 1) (.layer p)
  clean : ∀ q ∈ free', Clean q
  budget : free.length + layers ≤ free'.length + (level + 1)

theorem Grown.refl (shape : LayerShape level (Shape level) p) (inTree : level + 1 ≤ 5)
    (clean : ∀ q ∈ free, Clean q) : Grown (level + 1) (.layer p) free level p free :=
  ⟨shape, inTree, .refl, clean, Nat.le_refl _⟩

theorem Grown.trans {level' : Nat} {free'' : List (Layer (Entry Item))}
    (first : Grown layers entry free level p free')
    (second : Grown (level + 1) (.layer p) free' level' p' free'') :
    Grown layers entry free level' p' free'' where
  shape := second.shape
  inTree := second.inTree
  same := first.same.trans second.same
  clean := second.clean
  budget := Nat.le_trans first.budget second.budget

/-- An empty top moves upwards. -/
theorem Grown.moveUp (shape : LayerShape level (Shape level) p) (inTree : level + 2 ≤ 5)
    (clean : ∀ q ∈ free, Clean q) (empty : p.count = 0) :
    Grown (level + 1) (.layer p) free (level + 1) { p with layer := p.layer + 1 } free := by
  have before := shape.clean empty
  have after : Clean { p with layer := p.layer + 1 } :=
    { before with }
  refine ⟨after.shape (congrArg (· + 1) shape.layer_eq), inTree, ?_, clean, Nat.le_succ _⟩
  exact .empty (fun _ => before.taken) (fun _ => after.taken) (fun _ => before.lookup) fun _ => after.lookup

theorem Grown.addTop {q : Layer (Entry Item)} {rest : List (Layer (Entry Item))}
    (shape : LayerShape level (Shape level) p) (inTree : level + 2 ≤ 5)
    (clean : ∀ r ∈ q :: rest, Clean r) :
    Grown (level + 1) (.layer p) (q :: rest) (level + 1) { q with
        ary := update (update q.ary 0 .null) 0 (.layer p)
        count := 1
        layer := level + 1
        bitmap := if p.isFull then update q.bitmap 0 true else q.bitmap } rest := by
  have above : level + 1 ≠ 0 := Nat.succ_ne_zero level
  have new := (clean q mem_cons_self).unlinked (level + 1)
  have newShape := new.shape rfl
  have zeroLt : 0 < idrSize := by decide
  refine ⟨?_, inTree, ?_, fun r mem => clean r (mem_cons_of_mem _ mem), ?_⟩
  · refine newShape.replace zeroLt rfl rfl shape ?_ ?_ (fun leaf => absurd leaf above) fun _ => ?_
    · intro n _ ne
      cases p.isFull with
      | true => exact update_of_ne ne ..
      | false => rfl
    · simp [counted, (clean q mem_cons_self).count_eq]
    · cases full : p.isFull with
      | true => simp [full]
      | false => simpa [full] using new.bitmap_clear 0 zeroLt
  · refine .lift above (by simp) fun n small ne => ?_
    simp only [update_of_ne ne]
    exact (clean q mem_cons_self).ary_null n small
  · simp
    omega

/-- The loop that makes the tree tall enough for the id, if the layers it needs are there. -/
theorem buildUp_spec {rounds built : Nat} (shape : LayerShape level (Shape level) p)
    (inTree : level + 1 ≤ 5) (clean : ∀ q ∈ free, Clean q) (tower : Tower built p)
    (enough : 5 ≤ level + 1 + rounds) (bounded : id < 2 ^ 31) :
    (∃ level' p' free', buildUp id rounds built (level + 1) p free = (some (p', level' + 1), free') ∧
        Grown (level + 1) (.layer p) free level' p' free' ∧
        (id < 64 ^ (level' + 1) ∨ level' + 1 = 5)) ∨
      ∃ free', buildUp id rounds built (level + 1) p free = (none, free') ∧
        (∀ q ∈ free', Clean q) ∧ free.length + (level + 1) < 5 := by
  induction rounds generalizing level built p free with
  | zero => exact .inl ⟨level, p, free, rfl, .refl shape inTree clean, .inr (by omega)⟩
  | succ rounds ih =>
    rw [buildUp, shift_idrBits]
    have maxLayers : maxLevel - 1 = 5 := rfl
    by_cases short : level + 1 < maxLevel - 1 ∧ intGe id (64 ^ (level + 1)) = true
    · rw [if_pos short]
      have taller : level + 2 ≤ 5 := by omega
      by_cases empty : p.count = 0
      · rw [if_pos empty]
        have step := Grown.moveUp shape taller clean empty
        have tower' : Tower built { p with layer := p.layer + 1 } := by
          cases built <;> exact tower
        rcases ih step.shape taller clean tower' (by omega) with
          ⟨level', p', free', result, grown, reaches⟩ | ⟨free', result, clean', budget⟩
        · exact .inl ⟨level', p', free', result, step.trans grown, reaches⟩
        · exact .inr ⟨free', result, clean', by omega⟩
      · rw [if_neg empty]
        cases free with
        | nil =>
          refine .inr ⟨_, rfl, tearDown_clean tower clean, ?_⟩
          simp only [length_nil]
          omega
        | cons q rest =>
          have step := Grown.addTop shape taller clean
          have tower' : Tower (built + 1) { q with
              ary := update (update q.ary 0 .null) 0 (.layer p)
              count := 1
              layer := level + 1
              bitmap := if p.isFull then update q.bitmap 0 true else q.bitmap } := by
            refine ⟨fun n small ne => ?_, p, by simp, tower⟩
            simp only [update_of_ne ne]
            exact (clean q mem_cons_self).ary_null n small
          rcases ih step.shape taller step.clean tower' (by omega) with
            ⟨level', p', free', result, grown, reaches⟩ | ⟨free', result, clean', budget⟩
          · exact .inl ⟨level', p', free', result, step.trans grown, reaches⟩
          · exact .inr ⟨free', result, clean', by simp only [length_cons]; omega⟩
    · rw [if_neg short]
      refine .inl ⟨level, p, free, rfl, .refl shape inTree clean, ?_⟩
      rw [intGe_iff] at short
      omega

/-! ### The slot -/

/-- What holds of an idr between two calls. -/
structure IdrOk (idp : Handle Item) : Prop where
  shape : Shape idp.layers idp.top
  inTree : idp.layers ≤ 5
  top_null : idp.top.isNull = true ↔ idp.layers = 0
  clean : ∀ q ∈ idp.idFree, Clean q

theorem Grown.searched (grown : Grown layers entry free level p free') (bounded : id < 2 ^ 31) :
    SearchedTop level id p free' (subAlloc (level + 1) (2 ^ 32) p id free') :=
  subAlloc_spec grown.inTree grown.shape grown.clean bounded (by omega)

theorem firstLayer_spec (ok : IdrOk idp) : (∃ level p free, firstLayer idp = some (p, level + 1, free) ∧
        Grown idp.layers idp.top idp.idFree level p free) ∨
      firstLayer idp = none ∧ idp.idFree.length + idp.layers = 0 := by
  obtain ⟨top, idFree, layers⟩ := idp
  obtain ⟨shape, inTree, topNull, clean⟩ := ok
  cases top with
  | layer p =>
    cases layers with
    | zero => exact shape.elim
    | succ level => exact .inl ⟨level, p, idFree, rfl, .refl shape inTree clean⟩
  | user item =>
    have empty : layers ≠ 0 := fun zero => Bool.false_ne_true (topNull.mpr zero)
    cases layers with
    | zero => exact absurd rfl empty
    | succ level => exact shape.elim
  | null =>
    obtain rfl : layers = 0 := topNull.mp rfl
    cases idFree with
    | nil => exact .inr ⟨rfl, rfl⟩
    | cons q rest =>
      have new := (clean q mem_cons_self).unlinked 0
      refine .inl ⟨0, _, rest, rfl, new.shape rfl, by decide, ?_,
        fun r mem => clean r (mem_cons_of_mem _ mem), Nat.le_refl _⟩
      exact .empty (fun _ => rfl) (fun _ => new.taken) (fun _ => rfl) fun _ => new.lookup

/-- The ids passed by the search are used, as far as the tallest tree covers them. -/
theorem used_of_exhausted {last : Nat} (reaches : id < 64 ^ (level + 1) ∨ level + 1 = 5)
    (inside : id < 64 ^ (level + 1) → last ≤ 64 ^ (level + 1)) (all : Exhausted level p id last) :
    ∀ key, id ≤ key → key < last → key < 64 ^ 5 →
      usedAt (level + 1) (.layer p) key = true := by
  intro key above before bounded
  have small : key < 64 ^ (level + 1) := by
    rcases reaches with covered | tallest
    · exact Nat.lt_of_lt_of_le before (inside covered)
    · rwa [tallest]
  rw [usedAt_of_lt small]
  exact all key above before

/-- From beyond the tree there is no id that the tallest tree covers. -/
theorem used_of_beyond (reaches : id < 64 ^ (level + 1) ∨ level + 1 = 5) (beyond : 64 ^ (level + 1) ≤ id) :
    ∀ key, id ≤ key → key < 64 ^ 5 → usedAt layers entry key = true := by
  intro key above small
  rcases reaches with covered | tallest
  · exact absurd covered (Nat.not_lt_of_le beyond)
  · rw [tallest] at beyond
    exact absurd (Nat.le_trans beyond above) (Nat.not_le_of_lt small)

/-- What `idr_get_empty_slot` returns, `idp'` being the idr it leaves. -/
def SlotOutcome (idp : Handle Item) (id : Nat) (idp' : Handle Item) : SubAlloc → Prop
  | .found found =>
    id ≤ found ∧ found < 2 ^ 31 ∧ (found < 64 ^ 5 → found < 64 ^ idp'.layers) ∧
      idp'.layers ≠ 0 ∧ taken found idp'.layers idp'.top = false ∧
      Path found idp'.layers idp'.top ∧
      ∀ position, id ≤ position → position < found → position < 64 ^ 5 →
        usedAt idp.layers idp.top position = true
  | .noLayer => idp.idFree.length + idp.layers < 9
  | .noMoreSpace =>
    ∀ position, id ≤ position → position < 64 ^ 5 → usedAt idp.layers idp.top position = true
  | .oops =>
    ∀ position, id ≤ position → position < 64 ^ 5 → usedAt idp.layers idp.top position = true
  | _ => False

/-- What `idr_get_empty_slot` does. -/
structure EmptySlot (idp : Handle Item) (id : Nat) (result : SubAlloc × Handle Item) : Prop where
  ok : IdrOk result.2
  same : SameIds idp.layers idp.top result.2.layers result.2.top
  outcome : SlotOutcome idp id result.2 result.1

/-- Going to `build_up` again, after all ids before the next one. -/
theorem EmptySlot.again {next : Nat} {result : SubAlloc × Handle Item}
    (same : SameIds idp.layers idp.top idp'.layers idp'.top) (forward : id ≤ next)
    (budget : idp.idFree.length + idp.layers ≤ idp'.idFree.length + idp'.layers)
    (passed : ∀ key, id ≤ key → key < next → key < 64 ^ 5 →
      usedAt idp.layers idp.top key = true)
    (rest : EmptySlot idp' next result) : EmptySlot idp id result := by
  obtain ⟨ret, after⟩ := result
  have outcome := rest.outcome
  -- The ids used before and after the next one.
  have join : ∀ bound, (∀ key, next ≤ key → key < bound → key < 64 ^ 5 →
      usedAt idp'.layers idp'.top key = true) → ∀ key, id ≤ key → key < bound →
      key < 64 ^ 5 → usedAt idp.layers idp.top key = true := by
    intro bound later key above before small
    rcases Nat.lt_or_ge key next with earlier | reached
    · exact passed key above earlier small
    · rw [← same.used]
      exact later key reached before small
  refine ⟨rest.ok, same.trans rest.same, ?_⟩
  cases ret with
  | found found =>
    obtain ⟨above, bounded, inTree, nonempty, bit, path, later⟩ := outcome
    exact ⟨Nat.le_trans forward above, bounded, inTree, nonempty, bit, path, join _ later⟩
  | noLayer => exact Nat.lt_of_le_of_lt budget outcome
  | noMoreSpace | oops =>
    intro key above small
    exact join _ (fun other reached _ => outcome other reached) key above small small
  | needToGrow last | climb oid last | restart last => exact outcome.elim

/-- `idr_get_empty_slot`, with more rounds left than there are ids from the starting id on. -/
theorem idrGetEmptySlot_spec {rounds : Nat} (ok : IdrOk idp) (bounded : id < 2 ^ 31)
    (enough : 2 ^ 31 < rounds + id) : EmptySlot idp id (idrGetEmptySlot rounds idp id) := by
  induction rounds generalizing idp id with
  | zero => omega
  | succ rounds ih =>
    rw [idrGetEmptySlot]
    rcases firstLayer_spec ok with ⟨level, p, free, first, begun⟩ | ⟨none, budget⟩
    · rw [first]
      dsimp only
      have rounds : 5 ≤ level + 1 + maxLevel := by
        have six : maxLevel = 6 := rfl
        omega
      have noTower : Tower 0 p := trivial
      rcases buildUp_spec begun.shape begun.inTree begun.clean noTower rounds bounded with
        ⟨level', p', free', result, higher, reaches⟩ | ⟨free', failed, clean', short⟩
      · rw [result]
        dsimp only
        have grown := begun.trans higher
        have searched := grown.searched bounded
        generalize subAlloc (level' + 1) (2 ^ 32) p' id free' = found at searched
        obtain ⟨v, q, left⟩ := found
        have kept : Kept level' p' q := searched.kept
        have ok' : IdrOk { top := .layer q, idFree := left, layers := level' + 1 } :=
          ⟨kept.shape, grown.inTree, by simp, searched.clean⟩
        have same := grown.same.trans (.of_kept kept)
        cases v with
        | found j =>
          obtain ⟨above, small, inTree, bit, between, path⟩ := searched.outcome
          refine ⟨ok', same, above, small, fun bounded => ?_, Nat.succ_ne_zero _, ?_, path, ?_⟩
          · rcases reaches with covered | tallest
            · exact inTree covered
            · rwa [tallest]
          · rw [kept.bits, bit]
          · intro key reached before bounded
            rw [← grown.same.used]
            exact used_of_exhausted reaches (fun covered => Nat.le_of_lt (inTree covered)) between
              key reached before bounded
        | noLayer =>
          have few : free'.length < level' := searched.outcome
          have budget := grown.budget
          have inTree := grown.inTree
          exact ⟨ok', same, by show _ < 9; omega⟩
        | noMoreSpace | oops => exact ⟨ok', same, used_of_beyond reaches searched.outcome⟩
        | needToGrow next =>
          obtain ⟨forward, nextLt, beyond, ends, between, sameFree⟩ := searched.outcome
          refine .again same (Nat.le_of_lt forward) ?_ ?_ (ih ok' nextLt (by omega))
          · rw [show left = free' from sameFree]
            exact grown.budget
          · intro key reached before bounded
            rw [← grown.same.used]
            exact used_of_exhausted reaches (fun covered => Nat.le_of_eq (ends covered)) between
              key reached before bounded
        | climb oid next | restart next => exact searched.outcome.elim
      · rw [failed]
        have budget := begun.budget
        exact ⟨{ ok with clean := clean' }, .refl, by show _ < 9; omega⟩
    · rw [none]
      exact ⟨ok, .refl, by show _ < 9; omega⟩

open Nat

variable {bit : Bool} {value : Entry Item}

/-! ### Overwriting an id -/

/-- Two trees, of any heights, with the same ids but one. -/
structure Overwritten (id : Nat) (bit : Bool) (value : Entry Item) (layers : Nat)
    (entry : Entry Item) (layers' : Nat) (entry' : Entry Item) : Prop where
  used : ∀ position, usedAt layers' entry' position =
    if position = id then bit else usedAt layers entry position
  stored : ∀ position, storedAt layers' entry' position =
    if position = id then value else storedAt layers entry position

theorem Overwritten.of_same (same : SameIds layers entry layers' entry')
    (written : Overwritten id bit value layers' entry' layers'' entry'') :
    Overwritten id bit value layers entry layers'' entry'' where
  used position := by rw [written.used, same.used]
  stored position := by rw [written.stored, same.stored]

theorem Overwritten.to_same (written : Overwritten id bit value layers entry layers' entry')
    (same : SameIds layers' entry' layers'' entry'') :
    Overwritten id bit value layers entry layers'' entry'' where
  used position := by rw [same.used, written.used]
  stored position := by rw [same.stored, written.stored]

theorem Overwritten.of_path (covered : id < 64 ^ layers) (bits : ∀ key, taken key layers entry' =
      if key % 64 ^ layers = id % 64 ^ layers then bit else taken key layers entry)
    (reads : ∀ key, lookup key layers entry' =
      if key % 64 ^ layers = id % 64 ^ layers then value else lookup key layers entry) :
    Overwritten id bit value layers entry layers entry' := by
  constructor
  · intro key
    rcases lt_or_ge key (64 ^ layers) with small | large
    · rw [usedAt_of_lt small, usedAt_of_lt small, bits, mod_eq_of_lt small, mod_eq_of_lt covered]
    · rw [usedAt_of_ge large, usedAt_of_ge large, if_neg (by omega)]
  · intro key
    rcases lt_or_ge key (64 ^ layers) with small | large
    · rw [storedAt_of_lt small, storedAt_of_lt small, reads, mod_eq_of_lt small, mod_eq_of_lt covered]
    · rw [storedAt_of_ge large, storedAt_of_ge large, if_neg (by omega)]

/-! ### `idr_pre_get` -/

theorem zeroedLayer_clean : Clean (zeroedLayer : Layer (Entry Item)) :=
  ⟨rfl, fun _ _ => rfl, fun _ _ => rfl⟩

theorem preGetLoop_spec (missing available : Nat) (clean : ∀ q ∈ free, Clean q) :
    (∀ q ∈ (preGetLoop missing available free).2, Clean q) ∧
      free.length ≤ (preGetLoop missing available free).2.length ∧
      ((preGetLoop missing available free).1 = true →
        (preGetLoop missing available free).2.length = free.length + missing) := by
  induction missing generalizing available free with
  | zero => exact ⟨clean, le_refl _, fun _ => rfl⟩
  | succ missing ih =>
    cases available with
    | zero => exact ⟨clean, le_refl _, fun filled => absurd filled Bool.false_ne_true⟩
    | succ available =>
      have clean' : ∀ q ∈ moveToFreeList free zeroedLayer, Clean q :=
        List.forall_mem_cons.mpr ⟨zeroedLayer_clean, clean⟩
      obtain ⟨allClean, longer, filled⟩ := ih available clean'
      have length : (moveToFreeList free zeroedLayer).length = free.length + 1 := rfl
      refine ⟨allClean, by rw [preGetLoop]; omega, fun success => ?_⟩
      rw [preGetLoop] at success ⊢
      have total := filled success
      omega

/-- `idr_pre_get` only fills the free list. -/
theorem idrPreGet_spec {available : Nat} {filled : Bool} (ok : IdrOk idp)
    (call : idrPreGet idp available = (filled, idp')) :
    IdrOk idp' ∧ idp'.top = idp.top ∧ idp'.layers = idp.layers ∧
      idp.idFree.length ≤ idp'.idFree.length ∧ (filled = true → idrFreeMax ≤ idp'.idFree.length) := by
  obtain ⟨clean, longer, full⟩ :=
    preGetLoop_spec (idrFreeMax - idp.idFree.length) available ok.clean
  cases call
  refine ⟨{ ok with clean }, rfl, rfl, longer, fun success => ?_⟩
  have total := full success
  dsimp only
  omega

/-! ### `idr_get_new_above` -/

/-- What `idr_get_new_above` returns, `idp'` being the idr it leaves. -/
def GetOutcome (idp : Handle Item) (ptr : Option Item) (id : Nat) (idp' : Handle Item) : GetRet → Prop
  | .ok found =>
    id ≤ found ∧ (∀ position, id ≤ position → position < found → position < 64 ^ 5 →
        usedAt idp.layers idp.top position = true) ∧
      (found < 64 ^ 5 → usedAt idp.layers idp.top found = false ∧
        Overwritten found true (.ofUser ptr) idp.layers idp.top idp'.layers idp'.top)
  | .EAGAIN =>
    SameIds idp.layers idp.top idp'.layers idp'.top ∧ idp.idFree.length + idp.layers < 9
  | _ =>
    SameIds idp.layers idp.top idp'.layers idp'.top ∧
      ∀ position, id ≤ position → position < 64 ^ 5 → usedAt idp.layers idp.top position = true

/-- Storing the pointer in the slot that was found. -/
theorem IdrOk.install {found : Nat} (ok : IdrOk idp) (ptr : Option Item)
    (nonempty : idp.layers ≠ 0) (bit : taken found idp.layers idp.top = false)
    (path : Path found idp.layers idp.top) :
    IdrOk { idp with top := (install found (.ofUser ptr) idp.layers idp.top).1 } ∧
      Installed found ptr idp.layers idp.top (install found (.ofUser ptr) idp.layers idp.top).1 := by
  obtain ⟨top, idFree, layers⟩ := idp
  obtain ⟨level, rfl⟩ := exists_eq_succ_of_ne_zero nonempty
  obtain ⟨installed, nonnull, _⟩ := install_spec ptr ok.shape path bit
  refine ⟨⟨installed.shape, ok.inTree, ?_, ok.clean⟩, installed⟩
  rw [nonnull]
  simp

variable {ptr : Option Item} {action : IdrAction Item} {events trace : List (IdrRet Item)}
  {actions : List (IdrAction Item)}

/-- `idr_get_new_above`, whatever the starting id. -/
theorem idrGetNewAbove_spec {ret : GetRet} (ok : IdrOk idp) (bounded : id < maxIdBit)
    (call : idrGetNewAbove idp ptr id = (ret, idp')) :
    IdrOk idp' ∧ GetOutcome idp ptr id idp' ret := by
  have inInt : id < 2 ^ 31 := bounded
  have slot : EmptySlot idp id (idrGetEmptySlot (2 ^ 32) idp id) :=
    idrGetEmptySlot_spec ok inInt (by omega)
  rw [idrGetNewAbove] at call
  generalize idrGetEmptySlot (2 ^ 32) idp id = result at slot call
  obtain ⟨v, after⟩ := result
  obtain ⟨ok', same, outcome⟩ := slot
  cases v with
  | found found =>
    cases call
    obtain ⟨above, _, inTree, nonempty, clear, path, passed⟩ := outcome
    obtain ⟨stored, installed⟩ := ok'.install ptr nonempty clear path
    refine ⟨stored, above, passed, fun small => ?_⟩
    have covered := inTree small
    refine ⟨?_, .of_same same (.of_path covered installed.bits installed.reads)⟩
    rw [← same.used, usedAt_of_lt covered]
    exact clear
  | noLayer | noMoreSpace | oops =>
    cases call
    exact ⟨ok', same, outcome⟩
  | needToGrow next | climb oid next | restart next => exact outcome.elim

/-! ### `idr_remove` -/

theorem and_maxIdMask (bounded : id < maxIdBit) : id &&& maxIdMask = id := by
  have mask : maxIdMask = 2 ^ 31 - 1 := rfl
  rw [mask, and_two_pow_sub_one_eq_mod]
  exact mod_eq_of_lt bounded

theorem trimFreeList_spec (free : List (Layer (Entry Item))) : (∀ q ∈ trimFreeList free, q ∈ free) ∧
      min free.length (idrFreeMax - 1) ≤ (trimFreeList free).length := by
  induction free with
  | nil => exact ⟨fun q mem => mem, min_le_left ..⟩
  | cons p rest ih =>
    obtain ⟨subset, enough⟩ := ih
    rw [trimFreeList]
    split
    · next long =>
      refine ⟨fun q mem => List.mem_cons_of_mem _ (subset q mem), ?_⟩
      rw [List.length_cons] at long ⊢
      omega
    · exact ⟨fun q mem => mem, min_le_left ..⟩

/-- Shrinking the tree changes no id. -/
theorem shrinkTop_spec (ok : IdrOk idp) : IdrOk (shrinkTop idp) ∧ (shrinkTop idp).idFree = idp.idFree ∧
      SameIds idp.layers idp.top (shrinkTop idp).layers (shrinkTop idp).top := by
  obtain ⟨top, idFree, layers⟩ := idp
  cases top with
  | null | user item => exact ⟨ok, rfl, .refl⟩
  | layer top =>
    rw [shrinkTop]
    dsimp only
    split
    · next shrinks =>
      obtain ⟨one, tall, used⟩ := shrinks
      obtain ⟨level, rfl⟩ : ∃ level, layers = level + 2 := ⟨layers - 2, by omega⟩
      have above : level + 1 ≠ 0 := succ_ne_zero level
      have shape : LayerShape (level + 1) (Shape (level + 1)) top := ok.shape
      have zeroLt : 0 < idrSize := by decide
      have first : counted (level + 1) top 0 = true := by simpa [counted] using used
      have others : ∀ n < idrSize, n ≠ 0 → top.ary n = .null := by
        intro n small ne
        have unused := countBelow_eq_one (shape.count_eq.symm.trans one) zeroLt first n small ne
        exact isNull_iff.mp (by simpa [counted] using unused)
      refine ⟨⟨shape.children 0 zeroLt, le_of_succ_le ok.inTree, ?_, ok.clean⟩, rfl,
        (SameIds.lift above rfl others).symm⟩
      simpa using used
    · exact ⟨ok, rfl, .refl⟩

/-- The tree after `sub_remove`, with `layers` cleared when nothing is left. -/
theorem removeTop_spec (ok : IdrOk idp) (id : Nat) : let (removed, top) := subRemove id idp.layers idp.top
    let after : Handle Item := { idp with
      top := top
      layers := if removed && top.isNull then 0 else idp.layers }
    IdrOk after ∧ (id < 64 ^ idp.layers →
        Overwritten id false .null idp.layers idp.top after.layers after.top) := by
  obtain ⟨top, idFree, layers⟩ := idp
  cases layers with
  | zero =>
    have null : top = .null := isNull_iff.mp (ok.top_null.mpr rfl)
    subst null
    refine ⟨ok, fun covered => .of_path covered ?_ ?_⟩
    · simp
    · simp
  | succ level =>
    have result : Removed id (level + 1) top (subRemove id (level + 1) top).1
      (subRemove id (level + 1) top).2 := subRemove_spec ok.shape
    dsimp only
    generalize subRemove id (level + 1) top = pair at result
    obtain ⟨removed, top'⟩ := pair
    have written : id < 64 ^ (level + 1) → Overwritten id false .null (level + 1) top (level + 1) top' :=
      fun covered => .of_path covered result.bits result.reads
    cases removed with
    | false =>
      refine ⟨⟨result.shape, ok.inTree, ?_, ok.clean⟩, written⟩
      rw [result.stays rfl]
      exact ok.top_null
    | true =>
      cases null : top'.isNull with
      | false =>
        refine ⟨⟨result.shape, ok.inTree, ?_, ok.clean⟩, written⟩
        simp [null]
      | true =>
        obtain rfl := isNull_iff.mp null
        refine ⟨⟨trivial, zero_le _, by simp, ok.clean⟩, fun covered => ?_⟩
        exact (written covered).to_same (.empty (by simp) (by simp) (by simp) (by simp))

/-- `idr_remove`, of an id that is allocated or not. -/
theorem idrRemove_spec (ok : IdrOk idp) (bounded : id < maxIdBit) : IdrOk (idrRemove idp id) ∧
      (id < 64 ^ idp.layers → Overwritten id false .null idp.layers idp.top
        (idrRemove idp id).layers (idrRemove idp id).top) ∧
      min idp.idFree.length (idrFreeMax - 1) ≤ (idrRemove idp id).idFree.length := by
  rw [idrRemove, and_maxIdMask bounded]
  have middle := removeTop_spec ok id
  obtain ⟨ok', written⟩ := middle
  dsimp only at ok' written ⊢
  obtain ⟨ok'', sameFree, same⟩ := shrinkTop_spec ok'
  obtain ⟨subset, enough⟩ := trimFreeList_spec idp.idFree
  rw [sameFree]
  refine ⟨{ ok'' with clean := fun q mem => ?_ },
    fun covered => (written covered).to_same same, enough⟩
  exact ok.clean q (subset q mem)

/-! ### `idr_find` and `idr_replace` -/

/-- The loop of `idr_find` meets no layer at the wrong level. -/
theorem findLoop_spec {height : Nat} (shape : Shape height entry) :
    findLoop id height entry = some (lookup id height entry) := by
  induction height generalizing entry with
  | zero => rfl
  | succ level ih =>
    cases entry with
    | null => rfl
    | user item => exact shape.elim
    | layer p =>
      rw [findLoop, if_neg (not_not_intro shape.layer_eq), entryOf_eq]
      exact ih (shape.children _ (digit_lt_idrSize ..))

/-- The height of the tree, as `idr_find` and `idr_replace` read it off the top. -/
theorem IdrOk.height_eq (ok : IdrOk idp) (top : idp.top = .layer p) : p.layer + 1 = idp.layers := by
  have shape := ok.shape
  rw [top] at shape
  generalize idp.layers = layers at shape
  cases layers with
  | zero => exact shape.elim
  | succ level => exact congrArg (· + 1) shape.layer_eq

/-- Without a layer at the top there are no ids. -/
theorem IdrOk.top_eq (ok : IdrOk idp) : (∃ p, idp.top = .layer p) ∨ idp.top = .null ∧ idp.layers = 0 := by
  obtain ⟨shape, inTree, topNull, clean⟩ := ok
  cases top : idp.top with
  | layer p => exact .inl ⟨p, rfl⟩
  | null =>
    rw [top] at topNull
    exact .inr ⟨rfl, topNull.mp rfl⟩
  | user item =>
    rw [top] at shape topNull
    cases layers : idp.layers with
    | zero => exact absurd (topNull.mpr layers) Bool.false_ne_true
    | succ level =>
      rw [layers] at shape
      exact shape.elim

theorem idrFind_spec (ok : IdrOk idp) (bounded : id < maxIdBit) :
    idrFind idp id = some (storedAt idp.layers idp.top id) := by
  rw [idrFind]
  rcases ok.top_eq with ⟨p, top⟩ | ⟨top, empty⟩
  · have shape := ok.shape
    rw [top] at shape
    rw [top]
    dsimp only
    rw [and_maxIdMask bounded, shift_idrBits, ok.height_eq top]
    split
    · next beyond => rw [storedAt_of_ge beyond]
    · next covered => rw [storedAt_of_lt (Nat.lt_of_not_le covered), findLoop_spec shape]
  · rw [top, storedAt]
    simp

/-- What `idr_replace` returns, `idp'` being the idr it leaves. -/
def ReplaceOutcome (idp : Handle Item) (ptr : Option Item) (id : Nat) (idp' : Handle Item) :
    ReplaceRet Item → Prop
  | .old old =>
    usedAt idp.layers idp.top id = true ∧ old = storedAt idp.layers idp.top id ∧
      Overwritten id true (.ofUser ptr) idp.layers idp.top idp'.layers idp'.top
  | _ => usedAt idp.layers idp.top id = false ∧ idp' = idp

/-- `idr_replace`, which uses no layer of the free list. -/
theorem idrReplace_spec {ret : ReplaceRet Item} (ok : IdrOk idp) (bounded : id < maxIdBit)
    (call : idrReplace idp ptr id = (ret, idp')) :
    IdrOk idp' ∧ idp'.idFree = idp.idFree ∧ ReplaceOutcome idp ptr id idp' ret := by
  rw [idrReplace] at call
  rcases ok.top_eq with ⟨p, top⟩ | ⟨top, empty⟩
  · rw [top] at call
    dsimp only at call
    rw [and_maxIdMask bounded, shift_idrBits, ok.height_eq top, ← top] at call
    split at call
    · next beyond =>
      cases call
      exact ⟨ok, rfl, usedAt_of_ge beyond, rfl⟩
    · next inside =>
      have covered := Nat.lt_of_not_le inside
      obtain ⟨level, layers⟩ : ∃ level, idp.layers = level + 1 := ⟨p.layer, (ok.height_eq top).symm⟩
      have shape := ok.shape
      rw [layers] at shape
      cases bit : taken id (level + 1) idp.top with
      | true =>
        obtain ⟨top', result, replaced⟩ := replaceLoop_spec ptr shape bit
        rw [← layers] at result replaced bit
        rw [result] at call
        cases call
        refine ⟨⟨replaced.shape, ok.inTree, ?_, ok.clean⟩, rfl, ?_, ?_, ?_⟩
        · rw [replaced.stays]
          exact ok.top_null
        · rw [usedAt_of_lt covered, bit]
        · rw [storedAt_of_lt covered]
        · refine .of_path covered (fun key => ?_) replaced.reads
          rw [replaced.bits]
          split
          · next same => rw [taken_congr _ same, bit]
          · rfl
      | false =>
        have absent := replaceLoop_none (.ofUser ptr) shape bit
        rw [← layers] at absent bit
        rw [absent] at call
        cases call
        exact ⟨ok, rfl, by rw [usedAt_of_lt covered, bit], rfl⟩
  · rw [top] at call
    cases call
    exact ⟨ok, rfl, by rw [top, usedAt, taken_null, Bool.and_false], rfl⟩

/-! ### Runs -/

theorem IdrOk.init : IdrOk (Handle.init : Handle Item) :=
  ⟨trivial, zero_le _, ⟨fun _ => rfl, fun _ => rfl⟩, nofun⟩

/-- Every call keeps the invariant. -/
theorem IdrStep.ok (ok : IdrOk idp) (step : IdrStep idp action events idp') : IdrOk idp' := by
  cases step with
  | preGet call => exact (idrPreGet_spec ok call).1
  | getNewAbove bounded call => exact (idrGetNewAbove_spec ok bounded call).1
  | remove bounded => exact (idrRemove_spec ok bounded).1
  | replace bounded call => exact (idrReplace_spec ok bounded call).1

theorem IdrRun.ok (run : IdrRun actions trace idp) : IdrOk idp :=
  Run.invariant run IdrOk.init fun ok step => IdrStep.ok ok step

/-- A full bitmap says that every id below is allocated. -/
theorem full_iff (shape : Shape (level + 1) entry) : Full level entry ↔ entryFull entry = true := by
  induction shape using Shape.walk with
  | null => simp [Full]
  | leaf shape => rw [Full, entryFull_layer, isFull_iff]
  | inner level p above shape ih =>
    rw [entryFull_layer, isFull_iff]
    refine forall₂_congr fun n small => ?_
    rw [ih n small, shape.inner_full above n small]

theorem LayerAt.shape {depth : Nat} {q : Layer (Entry Item)} (inTree : LayerAt level entry depth q)
    (shape : Shape (level + 1) entry) : LayerShape depth (Shape depth) q := by
  induction inTree with
  | here level p => exact shape
  | child small _ ih => exact ih (shape.children _ small)

theorem LayerShape.exact (shape : LayerShape level (Shape level) p) : LayerExact level p where
  layer_eq := shape.layer_eq
  count_leaf leaf := by
    rw [shape.count_eq]
    exact countBelow_congr fun n _ => by simp [counted, leaf]
  count_inner above := by
    rw [shape.count_eq]
    exact countBelow_congr fun n _ => by simp [counted, above]
  bit_iff_full above n small := by
    obtain ⟨level, rfl⟩ := exists_eq_succ_of_ne_zero above
    rw [shape.inner_full above n small]
    exact (full_iff (shape.children n small)).symm

theorem IdrOk.exact (ok : IdrOk idp) : idp.Exact where
  layers_exact depth q inTree := by
    rcases ok.top_eq with ⟨p, top⟩ | ⟨top, _⟩
    · have height : idp.layers - 1 + 1 = idp.layers := by
        rw [← ok.height_eq top]
        rfl
      exact (inTree.shape (height ▸ ok.shape)).exact
    · rw [top] at inTree
      generalize idp.layers - 1 = level at inTree
      cases inTree
  height_exact p top := (ok.height_eq top).symm
  height_empty top := ok.top_null.mp (isNull_iff.mpr top)
  top_not_user item user := by
    rcases ok.top_eq with ⟨p, top⟩ | ⟨top, _⟩
    all_goals
      rw [user] at top
      cases top

/-- Calls that take no layer leave enough on the free list. -/
theorem IdrStep.quiet_budget (ok : IdrOk idp) (step : IdrStep idp action events idp')
    (quiet : action.quiet) (enough : 9 ≤ idp.idFree.length) : 9 ≤ idp'.idFree.length := by
  cases step with
  | preGet call => exact le_trans enough (idrPreGet_spec ok call).2.2.2.1
  | getNewAbove => exact quiet.elim
  | remove bounded =>
    have left := (idrRemove_spec ok bounded).2.2
    have most : idrFreeMax - 1 = 11 := rfl
    omega
  | replace bounded call =>
    rw [(idrReplace_spec ok bounded call).2.1]
    exact enough

/-- An idr with enough layers for an allocation, whatever has been returned so far. -/
def Stocked (_ : List (IdrRet Item)) (idp : Handle Item) : Prop := IdrOk idp ∧ 9 ≤ idp.idFree.length

theorem Stocked.run (run : Run IdrStep idp actions trace idp')
    (quiet : ∀ action ∈ actions, action.quiet) (stocked : Stocked [] idp) : Stocked trace idp' :=
  Run.invariant_of_actions run quiet stocked fun quiet kept step =>
    ⟨IdrStep.ok kept.1 step, step.quiet_budget kept.1 quiet kept.2⟩

/-- With enough layers on the free list an allocation does not ask for more. -/
theorem idrGetNewAbove_ne_again (ok : IdrOk idp) (ptr : Option Item) (bounded : id < maxIdBit)
    (enough : 9 ≤ idp.idFree.length) : (idrGetNewAbove idp ptr id).1 ≠ .EAGAIN := by
  intro again
  have call : idrGetNewAbove idp ptr id = (.EAGAIN, (idrGetNewAbove idp ptr id).2) :=
    Prod.ext again rfl
  obtain ⟨_, _, budget⟩ := idrGetNewAbove_spec ok bounded call
  omega

/-- In every run the fields of every layer are exact, and after an `idr_pre_get` that succeeded the
next `idr_get_new_above`, with whatever other calls between the two, does not return `-EAGAIN`. -/
theorem idrRun_layers_exact {actions : List (IdrAction Item)} {trace : List (IdrRet Item)}
    (run : IdrRun actions trace idp) :
    idp.Exact ∧ ∀ {available reserved later laterTrace last ptr startingId},
        idrPreGet idp available = (true, reserved) →
        Run IdrStep reserved later laterTrace last → (∀ action ∈ later, action.quiet) →
        startingId < maxIdBit → (idrGetNewAbove last ptr startingId).1 ≠ .EAGAIN := by
  have ok := IdrRun.ok run
  refine ⟨ok.exact, fun reserve between quiet bounded => ?_⟩
  obtain ⟨reservedOk, _, _, _, filled⟩ := idrPreGet_spec ok reserve
  have twelve : idrFreeMax = 12 := rfl
  have enough : 9 ≤ _ := le_trans (by omega) (filled rfl)
  obtain ⟨lastOk, left⟩ := Stocked.run between quiet ⟨reservedOk, enough⟩
  exact idrGetNewAbove_ne_again lastOk _ bounded left

/-- A tree of two layers, and a second allocation after another `idr_pre_get`. -/
theorem idrRun_layers_exact_two_layers :
    ∃ idp : Handle Nat, IdrRun [.preGet 12, .getNewAbove (some 7) 200]
        [.preGet true, .getNewAbove (.ok 200)] idp ∧ idp.layers = 2 ∧ idp.Exact ∧
      (idrGetNewAbove (idrPreGet idp 12).2 (some 8) 0).1 ≠ .EAGAIN := by
  have run : IdrRun [.preGet 12, .getNewAbove (some 7) 200] [.preGet true, .getNewAbove (.ok 200)]
      (idrGetNewAbove (idrPreGet Handle.init 12).2 (some 7) 200).2 :=
    .cons (.preGet rfl) (.cons (.getNewAbove (by decide) rfl) .nil)
  obtain ⟨fields, enough⟩ := idrRun_layers_exact run
  refine ⟨_, run, rfl, fields, ?_⟩
  exact enough (rfl : idrPreGet _ 12 = (true, _)) .nil (fun _ mem => by cases mem) (by decide)

open Option

variable {map : IdMap Item} {actions : List (IdrAction Item)} {trace events : List (IdrRet Item)}

/-- The idr holds the map. -/
structure RepresentsIds (idp : Handle Item) (map : IdMap Item) : Prop where
  ok : IdrOk idp
  used : ∀ id, usedAt idp.layers idp.top id = (map id).isSome
  stored : ∀ id, storedAt idp.layers idp.top id = map.find id

theorem RepresentsIds.init : RepresentsIds (Handle.init : Handle Item) fun _ => none where
  ok := .init
  used id := by rw [Handle.init, usedAt, taken_null, Bool.and_false, isSome_none]
  stored id := by
    rw [Handle.init, storedAt, lookup_null, ite_self]
    rfl

theorem RepresentsIds.same (rep : RepresentsIds idp map) (ok : IdrOk idp')
    (same : SameIds idp.layers idp.top idp'.layers idp'.top) : RepresentsIds idp' map where
  ok := ok
  used id := (same.used id).trans (rep.used id)
  stored id := (same.stored id).trans (rep.stored id)

theorem RepresentsIds.update (rep : RepresentsIds idp map) (entry : Option (Option Item))
    (ok : IdrOk idp') (written : Overwritten id entry.isSome (.ofUser entry.join) idp.layers idp.top
      idp'.layers idp'.top) : RepresentsIds idp' (update map id entry) where
  ok := ok
  used position := by
    rw [written.used, update_apply, rep.used]
    split <;> rfl
  stored position := by
    rw [written.stored, IdMap.find, update_apply, rep.stored]
    split <;> rfl

theorem RepresentsIds.free_iff (rep : RepresentsIds idp map) :
    usedAt idp.layers idp.top id = false ↔ map id = none := by
  rw [rep.used, isSome_eq_false_iff, isNone_iff_eq_none]

variable {startingId : Nat}

/-- The free id of an allocation that has room. -/
theorem Roomy.exists_free (roomy : Roomy idp (.getNewAbove ptr startingId)) :
    ∃ id, startingId ≤ id ∧ id < 64 ^ 5 ∧ usedAt idp.layers idp.top id = false := by
  obtain ⟨id, above, small, free⟩ := roomy
  rw [Handle.inUse_eq] at free
  exact ⟨id, above, small, free⟩

/-- An allocation that has room is one on the map. -/
theorem getNewAbove_refines {ret : GetRet} (rep : RepresentsIds idp map)
    (bounded : startingId < maxIdBit) (roomy : Roomy idp (.getNewAbove ptr startingId))
    (call : idrGetNewAbove idp ptr startingId = (ret, idp')) :
    ∃ map', IdMapStep map (.getNewAbove ptr startingId) [.getNewAbove ret] map' ∧
      RepresentsIds idp' map' := by
  obtain ⟨room, above, small, free⟩ := roomy.exists_free
  obtain ⟨ok', outcome⟩ := idrGetNewAbove_spec rep.ok bounded call
  cases ret with
  | ok found =>
    obtain ⟨reached, passed, stored⟩ := outcome
    have notAfter : found ≤ room := by
      refine Nat.le_of_not_lt fun after => ?_
      rw [passed room above after small] at free
      cases free
    obtain ⟨unused, written⟩ := stored (Nat.lt_of_le_of_lt notAfter small)
    refine ⟨_, .getNewAbove reached (rep.free_iff.mp unused) fun other starts before => ?_,
      rep.update (some ptr) ok' written⟩
    rw [Ne, ← rep.free_iff, passed other starts before (by omega)]
    exact Bool.noConfusion
  | EAGAIN => exact ⟨map, .getAgain, rep.same ok' outcome.1⟩
  | ENOSPC | oops =>
    rw [outcome.2 room above small] at free
    cases free

/-- Every call that has room is one on the map. -/
theorem idrStep_refines (rep : RepresentsIds idp map)
    (step : Roomy idp action ∧ IdrStep idp action events idp') :
    ∃ map', IdMapStep map action events map' ∧ RepresentsIds idp' map' := by
  obtain ⟨roomy, taken⟩ := step
  cases taken with
  | preGet call =>
    obtain ⟨ok', top, layers, _⟩ := idrPreGet_spec rep.ok call
    refine ⟨map, .preGet, rep.same ok' ?_⟩
    rw [top, layers]
    exact .refl
  | getNewAbove bounded call => exact getNewAbove_refines rep bounded roomy call
  | @remove id bounded =>
    obtain ⟨ok', written, _⟩ := idrRemove_spec rep.ok bounded
    have covered : id < 64 ^ idp.layers := by
      rw [← pow_idrBits]
      exact roomy
    exact ⟨_, .remove, rep.update none ok' (written covered)⟩
  | @replace _ ptr _ ret bounded call =>
    obtain ⟨ok', _, outcome⟩ := idrReplace_spec rep.ok bounded call
    cases ret with
    | old old =>
      obtain ⟨used, rfl, written⟩ := outcome
      rw [rep.used, isSome_iff_exists] at used
      obtain ⟨stored, present⟩ := used
      rw [rep.stored, IdMap.find, present]
      exact ⟨_, .replace present, rep.update (some ptr) ok' written⟩
    | EINVAL =>
      obtain ⟨unused, rfl⟩ := outcome
      exact ⟨map, .replaceInvalid (rep.free_iff.mp unused), rep⟩
    | ENOENT =>
      obtain ⟨unused, rfl⟩ := outcome
      exact ⟨map, .replaceAbsent (rep.free_iff.mp unused), rep⟩

/-- As long as every allocation has room, a sequence of calls returns what it would on the map: an
allocation takes the smallest free id from the starting id on, changes nothing else, and fails for
want of an id only when there is none. Afterwards the allocated ids and what `idr_find` returns are
those of the map. -/
theorem roomyRun_refines_map (run : RoomyRun actions trace idp) :
    ∃ map, IdMapRun actions trace map ∧ (∀ id, idp.inUse id = (map id).isSome) ∧
      ∀ id < maxIdBit, idrFind idp id = some (map.find id) := by
  obtain ⟨map, mapRun, rep⟩ := run.simulation RepresentsIds.init idrStep_refines
  refine ⟨map, mapRun, fun id => ?_, fun id bounded => ?_⟩
  · rw [Handle.inUse_eq, rep.used]
  · rw [idrFind_spec rep.ok bounded, rep.stored]

/-- An id that is allocated and removed again. -/
theorem roomyRun_refines_map_removed :
    ∃ (idp : Handle Nat) (map : IdMap Nat), RoomyRun [.preGet 12, .getNewAbove (some 7) 5, .remove 5]
        [.preGet true, .getNewAbove (.ok 5), .remove] idp ∧
      IdMapRun [.preGet 12, .getNewAbove (some 7) 5, .remove 5]
        [.preGet true, .getNewAbove (.ok 5), .remove] map ∧
      ∀ id < maxIdBit, idrFind idp id = some (map.find id) := by
  have run : RoomyRun [.preGet 12, .getNewAbove (some 7) 5, .remove 5]
      [.preGet true, .getNewAbove (.ok 5), .remove]
      (idrRemove (idrGetNewAbove (idrPreGet Handle.init 12).2 (some 7) 5).2 5) :=
    .cons ⟨trivial, .preGet rfl⟩ <| .cons ⟨⟨5, Nat.le_refl 5, by decide, rfl⟩,
      .getNewAbove (by decide) rfl⟩ <|
      .cons ⟨show 5 < 2 ^ 6 by decide, .remove (by decide)⟩ .nil
  obtain ⟨map, mapRun, _, finds⟩ := roomyRun_refines_map run
  exact ⟨_, map, run, mapRun, finds⟩

/-- An allocation from `2 ^ 30` on returns that id, which was free, but stores the pointer under
id 0: a lookup of the id finds nothing, and one of id 0 finds something new. -/
theorem idrGetNewAbove_stores_elsewhere :
    ∃ idp idp' : Handle Nat, IdrRun [.preGet 12] [.preGet true] idp ∧ 2 ^ 30 ≤ maxIdMask ∧
      idrGetNewAbove idp (some 7) (2 ^ 30) = (.ok (2 ^ 30), idp') ∧
      idrFind idp' (2 ^ 30) = some .null ∧
      idrFind idp 0 = some .null ∧ idrFind idp' 0 ≠ some .null := by
  let idp : Handle Nat := (idrPreGet Handle.init 12).2
  let result := idrGetNewAbove idp (some 7) (2 ^ 30)
  have returned : result.1 = .ok (2 ^ 30) := by decide +kernel
  have lost : (idrFind result.2 (2 ^ 30)).map Entry.isNull = some true := by decide +kernel
  have changed : (idrFind result.2 0).map Entry.isNull = some false := by decide +kernel
  obtain ⟨entry, found, null⟩ := map_eq_some_iff.mp lost
  refine ⟨idp, result.2, .snoc .nil (.preGet rfl), by decide, ?_, ?_, rfl, ?_⟩
  · rw [← returned]
  · rw [found, isNull_iff.mp null]
  · intro same
    rw [same] at changed
    cases changed

variable {Item : Type} {entry : Entry Item} {id level : Nat} {idp : Handle Item}
  {free : List (Layer (Entry Item))} {actions : List (IdrAction Item)} {trace : List (IdrRet Item)}

/-- Whatever calls follow, they return the same on both. -/
def SameOutcomes (idp idp' : Handle Item) : Prop :=
  ∀ actions trace, (∃ after, Run IdrStep idp actions trace after) ↔
    ∃ after, Run IdrStep idp' actions trace after

/-- `idr_remove` removes the id, as masked, and nothing else; and when the id is not allocated, no
lookup and no later call can tell that it was called. The id is the bit pattern of any `int`. -/
def RemovesOnly (idp : Handle Item) (id : Nat) : Prop :=
  (idp.inUse (id &&& maxIdMask) = false →
    (∀ other, idrFind (idrRemove idp id) other = idrFind idp other) ∧
      SameOutcomes (idrRemove idp id) idp) ∧
  (idp.inUse (id &&& maxIdMask) = true →
    (∀ other, (idrRemove idp id).inUse other = (idp.inUse other && other != id &&& maxIdMask)) ∧
      ∀ other, other &&& maxIdMask ≠ id &&& maxIdMask →
        idrFind (idrRemove idp id) other = idrFind idp other)

/-! ### Nothing to remove -/

/-- On the path of an id that is not allocated every full bit is clear already. -/
theorem subRemove_absent (shape : Shape (level + 1) entry) (absent : taken id (level + 1) entry = false) :
    subRemove id (level + 1) entry = (false, entry) := by
  induction shape using Shape.walk with
  | null level => cases level <;> rfl
  | leaf shape =>
    rw [taken_one] at absent
    simp [subRemove_one, absent]
  | inner level p above shape ih =>
    have nLt := digit_lt_idrSize (level + 1) id
    have child := shape.children _ nLt
    rw [taken_succ _ _ above] at absent
    have clear : p.bitmap (digit 64 (level + 1) id) = false := by
      rw [shape.inner_full above _ nLt, entryFull_eq_false child absent]
    rw [subRemove_succ, ih _ nLt absent]
    simp [← clear]

theorem trimFreeList_short (short : free.length < idrFreeMax) : trimFreeList free = free := by
  cases free with
  | nil => rfl
  | cons p rest => rw [trimFreeList, if_neg (Nat.not_le_of_lt short)]

/-- With nothing allocated under the digits read, no layer to trim and no top layer to drop,
`idr_remove` leaves the idr as it is. -/
theorem idrRemove_absent (ok : IdrOk idp) (absent : taken (id &&& maxIdMask) idp.layers idp.top = false)
    (short : idp.idFree.length < idrFreeMax) (settled : shrinkTop idp = idp) :
    idrRemove idp id = idp := by
  have same : subRemove (id &&& maxIdMask) idp.layers idp.top = (false, idp.top) := by
    rcases ok.top_eq with ⟨p, top⟩ | ⟨top, empty⟩
    · have height := ok.height_eq top
      have shape := ok.shape
      rw [← height] at shape absent ⊢
      exact subRemove_absent shape absent
    · rw [top, empty, subRemove]
      all_goals simp
  rw [idrRemove, same]
  simp only [Bool.false_and, Bool.false_eq_true, if_false, settled, trimFreeList_short short]

/-! ### Any id -/

theorem masked_lt (id : Nat) : id &&& maxIdMask < maxIdBit :=
  lt_of_le_of_lt and_le_right (by decide)

theorem idrRemove_masked (idp : Handle Item) (id : Nat) :
    idrRemove idp (id &&& maxIdMask) = idrRemove idp id := by
  rw [idrRemove, idrRemove, Nat.and_assoc, Nat.and_self]

theorem idrFind_masked (ok : IdrOk idp) (id : Nat) :
    idrFind idp id = some (storedAt idp.layers idp.top (id &&& maxIdMask)) := by
  rw [← idrFind_spec ok (masked_lt id), idrFind, idrFind, Nat.and_assoc, Nat.and_self]

/-- An allocated id is the only one that goes. -/
theorem idrRemove_present (ok : IdrOk idp) (used : idp.inUse (id &&& maxIdMask) = true) :
    (∀ other, (idrRemove idp id).inUse other = (idp.inUse other && other != id &&& maxIdMask)) ∧
      ∀ other, other &&& maxIdMask ≠ id &&& maxIdMask →
        idrFind (idrRemove idp id) other = idrFind idp other := by
  have covered : id &&& maxIdMask < 64 ^ idp.layers := by
    rw [Handle.inUse, Bool.and_eq_true, decide_eq_true_iff, pow_idrBits] at used
    exact used.1
  obtain ⟨ok', written, _⟩ := idrRemove_spec ok (masked_lt id)
  have written := written covered
  rw [idrRemove_masked] at ok' written
  refine ⟨fun other => ?_, fun other different => ?_⟩
  · rw [Handle.inUse_eq, Handle.inUse_eq, written.used]
    split
    · next same => simp [same]
    · next different => simp [different]
  · rw [idrFind_masked ok', idrFind_masked ok, written.stored, if_neg different]

/-- In every state reached, `idr_remove` removes only what it is asked to when the id is allocated;
and when it is not, provided that the id which the tree's height makes of it is not allocated
either, that the free list is not full, and that no failed allocation has left a top layer with
one child. -/
theorem removesOnly_of_no_alias (run : IdrRun actions trace idp) (id : Nat)
    (noAlias : idp.inUse (id &&& maxIdMask) = false →
      idp.inUse ((id &&& maxIdMask) % 2 ^ (idrBits * idp.layers)) = false ∧
        idp.idFree.length < idrFreeMax ∧ shrinkTop idp = idp) :
    RemovesOnly idp id := by
  refine ⟨fun unused => ?_, idrRemove_present run.ok⟩
  obtain ⟨free, short, settled⟩ := noAlias unused
  rw [Handle.inUse, pow_idrBits, decide_eq_true (mod_lt _ (Nat.pow_pos (by decide))), Bool.true_and,
    taken_congr idp.top (mod_mod _ _)] at free
  rw [idrRemove_absent run.ok free short settled]
  exact ⟨fun _ => rfl, fun _ _ => Iff.rfl⟩

theorem run_reserved : IdrRun [.preGet 12] [.preGet true] (idrPreGet (Handle.init : Handle Nat) 12).2 :=
  .snoc .nil (.preGet rfl)

theorem run_one_id : IdrRun [.preGet 12, .getNewAbove (some 7) 5] [.preGet true, .getNewAbove (.ok 5)]
    (idrGetNewAbove (idrPreGet (Handle.init : Handle Nat) 12).2 (some 7) 5).2 :=
  run_reserved.snoc (.getNewAbove (by decide) rfl)

/-- Removing the free id 6 next to the allocated id 5. -/
theorem removesOnly_next_to_allocated :
    ∃ idp : Handle Nat, IdrRun [.preGet 12, .getNewAbove (some 7) 5]
      [.preGet true, .getNewAbove (.ok 5)] idp ∧
      idp.inUse 6 = false ∧ RemovesOnly idp 6 :=
  ⟨_, run_one_id, by decide +kernel, removesOnly_of_no_alias run_one_id 6 fun _ =>
    ⟨by decide +kernel, by decide +kernel, rfl⟩⟩

/-- What allocations return, one after the other. -/
def getNewResults (ptr : Option Item) : Handle Item → List Nat → List GetRet
  | _, [] => []
  | idp, id :: rest =>
    let (ret, idp) := idrGetNewAbove idp ptr id
    ret :: getNewResults ptr idp rest

/-- With id 5 as the only one in a tree of one layer, removing id 69 removes id 5. On the idr of a
first `idr_pre_get`, removing id 0 takes one of the twelve layers, which a later allocation lacks.
After an allocation that failed for want of a second layer, removing the free id 1 makes the next
attempt fail again. -/
theorem idrRemove_removes_more :
    (∃ idp : Handle Nat, IdrRun [.preGet 12, .getNewAbove (some 7) 5]
      [.preGet true, .getNewAbove (.ok 5)] idp ∧
      idp.inUse 69 = false ∧ idp.inUse 5 = true ∧ (idrRemove idp 69).inUse 5 = false ∧
        idrFind (idrRemove idp 69) 5 ≠ idrFind idp 5) ∧
    (∃ idp : Handle Nat, IdrRun [.preGet 12] [.preGet true] idp ∧ idp.inUse 0 = false ∧
      getNewResults (some 7) (idrRemove idp 0) ((List.range 11).map (64 * ·)) ≠
        getNewResults (some 7) idp ((List.range 11).map (64 * ·))) ∧
    ∃ idp : Handle Nat, IdrRun [.preGet 2, .getNewAbove (some 7) 0, .getNewAbove (some 7) 64]
        [.preGet false, .getNewAbove (.ok 0), .getNewAbove .EAGAIN] idp ∧ idp.inUse 1 = false ∧
      getNewResults (some 7) (idrPreGet (idrRemove idp 1) 1).2 [64] ≠
        getNewResults (some 7) (idrPreGet idp 1).2 [64] := by
  refine ⟨⟨_, run_one_id, ?_, ?_, ?_, ?_⟩, ⟨_, run_reserved, ?_, ?_⟩,
    ⟨_, .cons (.preGet rfl) <| .cons (.getNewAbove (by decide) rfl) <| .cons
      (.getNewAbove (by decide) rfl) .nil,
      ?_, ?_⟩⟩
  · decide +kernel
  · decide +kernel
  · decide +kernel
  · intro same
    have changed := congrArg (Option.map Entry.isNull) same
    revert changed
    decide +kernel
  · decide +kernel
  · decide +kernel
  · decide +kernel
  · decide +kernel

end LinuxKernel.Lib.Idr
