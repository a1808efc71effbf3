/-
Module: LinuxKernel.Library.Runs
Purpose: Finite runs of a labelled transition system whose steps emit events, the rule for invariants, and
  forward simulation. Paths along a relation, and what one more edge does to its cycles. Functions that run
  with fuel; a loop whose body gives a result or the next state.
Trusted boundary: none
Main exports: Run, Run.invariant, Run.simulation, Path, cycle_of_new_edge, loop, Ends
-/
import Mathlib

namespace LinuxKernel.Library

open List

variable {State Action Event : Type*} {step : State → Action → List Event → State → Prop}

/-- `Run step start actions trace last`: taking the steps named by `actions` one after the other
from `start` ends in `last` and emits `trace`. -/
inductive Run (step : State → Action → List Event → State → Prop) (start : State) :
    List Action → List Event → State → Prop where
  | nil : Run step start [] [] start
  | snoc {actions : List Action} {trace events : List Event} {middle last : State}
      {action : Action} (before : Run step start actions trace middle)
      (taken : step middle action events last) :
      Run step start (actions ++ [action]) (trace ++ events) last

variable {start last : State} {trace : List Event} {actions : List Action}

theorem Run.cons {action : Action} {events rest : List Event} {middle : State}
    (taken : step start action events middle)
    (after : Run step middle actions rest last) (emitted : trace = events ++ rest := by rfl) :
    Run step start (action :: actions) trace last := by
  subst emitted
  induction after with
  | nil => simpa using Run.nil.snoc taken
  | snoc _ next ih => simpa using ih.snoc next

theorem Run.singleton_inv {action : Action} (run : Run step start [action] trace last) :
    step start action trace last := by
  generalize shape : [action] = actions at run
  cases run with
  | nil => cases shape
  | @snoc actions _ _ _ _ other before taken =>
    have split : [] ++ [action] = actions ++ [other] := shape
    obtain ⟨rfl, same⟩ := append_inj' split rfl
    obtain rfl : action = other := singleton_injective same
    generalize empty : ([] : List Action) = none at before
    cases before with
    | nil => exact taken
    | snoc => simp at empty

/-- A run of two action sequences splits at the state between them. -/
theorem Run.append_inv {first second : List Action} (run : Run step start (first ++ second) trace last) :
    ∃ middle past future, Run step start first past middle ∧
      Run step middle second future last ∧ trace = past ++ future := by
  generalize shape : first ++ second = actions at run
  induction run generalizing second with
  | nil =>
    obtain ⟨rfl, rfl⟩ := append_eq_nil_iff.mp shape
    exact ⟨start, [], [], .nil, .nil, rfl⟩
  | @snoc _ _ events _ last action before taken ih =>
    rcases eq_nil_or_concat second with rfl | ⟨front, final, rfl⟩
    · rw [append_nil] at shape
      subst shape
      exact ⟨last, _, [], .snoc before taken, .nil, (append_nil _).symm⟩
    · rw [concat_eq_append, ← append_assoc] at shape
      obtain ⟨prior, same⟩ := append_inj' shape rfl
      obtain rfl : final = action := singleton_injective same
      obtain ⟨between, past, future, left, right, rfl⟩ := ih prior
      refine ⟨between, past, future ++ events, left, ?_, append_assoc ..⟩
      rw [concat_eq_append]
      exact .snoc right taken

section

variable (run : Run step start actions trace last)

include run

/-- An invariant of the start state that every step preserves holds in every reachable state. -/
theorem Run.invariant {Invariant : State → Prop} (initially : Invariant start)
    (preserved : ∀ {before after : State} {action : Action} {events : List Event},
      Invariant before → step before action events after → Invariant after) :
    Invariant last := by
  induction run with
  | nil => exact initially
  | snoc _ taken ih => exact preserved ih taken

/-- The same rule for a run all of whose actions satisfy a side condition, for an invariant that
also speaks about the events emitted so far. -/
theorem Run.invariant_of_actions {Allowed : Action → Prop} {Invariant : List Event → State → Prop}
    (allowed : ∀ action ∈ actions, Allowed action)
    (initially : Invariant [] start)
    (preserved : ∀ {before after : State} {action : Action} {past events : List Event},
      Allowed action → Invariant past before → step before action events after →
        Invariant (past ++ events) after) :
    Invariant trace last := by
  induction run with
  | nil => exact initially
  | snoc _ taken ih =>
    refine preserved (allowed _ (by simp)) (ih ?_) taken
    intro action member
    exact allowed action (mem_append_left _ member)

/-- Forward simulation: if every step of one system is matched by one of another that takes the same
action and emits the same events, so is every run. -/
theorem Run.simulation {Other : Type*} {otherStep : Other → Action → List Event → Other → Prop}
    {otherStart : Other} {Related : State → Other → Prop}
    (initially : Related start otherStart)
    (matched : ∀ {before after : State} {action : Action} {events : List Event} {other : Other},
      Related before other → step before action events after →
        ∃ other', otherStep other action events other' ∧ Related after other') :
    ∃ other, Run otherStep otherStart actions trace other ∧ Related last other := by
  induction run with
  | nil => exact ⟨otherStart, .nil, initially⟩
  | snoc _ taken ih =>
    obtain ⟨other, otherRun, related⟩ := ih
    obtain ⟨other', otherTaken, related'⟩ := matched related taken
    exact ⟨other', .snoc otherRun otherTaken, related'⟩

end

variable {α : Type*} {R S : α → α → Prop} {a b c source target : α} {m n : Nat}

/-- `Path R n a b`: `n` edges of `R` lead from `a` to `b`. -/
inductive Path (R : α → α → Prop) : Nat → α → α → Prop where
  | nil (a : α) : Path R 0 a a
  | cons {n : Nat} {a b c : α} : R a b → Path R n b c → Path R (n + 1) a c

theorem Path.eq_of_zero (path : Path R 0 a b) : a = b := by
  cases path
  rfl

theorem Path.mono (sub : ∀ {a b}, R a b → S a b) (path : Path R n a b) : Path S n a b := by
  induction path with
  | nil a => exact .nil a
  | cons edge _ ih => exact .cons (sub edge) ih

/-- Along one more edge, a path either keeps to the old relation, or it can be cut before the first
and behind the last use of the new edge. -/
theorem Path.of_new_edge (sub : ∀ {a b}, S a b → R a b ∨ (a = source ∧ b = target)) (path : Path S n a b) :
    Path R n a b ∨ ∃ before after, before + after < n ∧ Path R before a source ∧ Path R after target b := by
  induction path with
  | nil a => exact .inl (.nil a)
  | @cons n a b c edge _ ih =>
    rcases sub edge with old | ⟨rfl, rfl⟩
    · rcases ih with rest | ⟨before, after, fewer, first, last⟩
      · exact .inl (.cons old rest)
      · exact .inr ⟨before + 1, after, by omega, .cons old first, last⟩
    · rcases ih with rest | ⟨before, after, fewer, first, last⟩
      · exact .inr ⟨0, n, by omega, .nil _, rest⟩
      · exact .inr ⟨0, after, by omega, .nil _, last⟩

/-- Successive values of a function along the relation make a path. -/
theorem Path.of_succ {f : Nat → α} (edges : ∀ i, i < n → R (f (m + i)) (f (m + i + 1))) :
    Path R n (f m) (f (m + n)) := by
  induction n generalizing m with
  | zero => exact .nil _
  | succ n ih =>
    have first := edges 0 (Nat.succ_pos n)
    have rest := ih (m := m + 1) fun i less => by
      have := edges (i + 1) (by omega)
      rwa [Nat.add_right_comm m 1 i]
    rw [Nat.add_right_comm m 1 n] at rest
    exact .cons first rest

theorem Path.append (first : Path R m a b) (second : Path R n b c) : Path R (m + n) a c := by
  induction first with
  | nil => simpa using second
  | @cons m a b d edge _ ih =>
    rw [Nat.add_right_comm]
    exact .cons edge (ih second)

/-- A cycle along one more edge is an old one, or the old relation already led from the target of
the new edge back to its source in fewer edges. -/
theorem cycle_of_new_edge (sub : ∀ {a b}, S a b → R a b ∨ (a = source ∧ b = target)) (cycle : Path S n a a) :
    Path R n a a ∨ ∃ length, length < n ∧ Path R length target source := by
  rcases cycle.of_new_edge sub with old | ⟨before, after, fewer, first, last⟩
  · exact .inl old
  · exact .inr ⟨after + before, by omega, last.append first⟩

variable {α β γ : Type*}

/-! ### Fuel -/

section Fuel

variable {f : Nat → Option α} {g h : Nat → Option β} {first : α} {value : β}

/-- With enough fuel the function returns the value. -/
def Gives (f : Nat → Option α) (value : α) : Prop := ∃ least, ∀ fuel ≥ least, f fuel = some value

theorem Gives.const : Gives (fun _ => some value) value := ⟨0, fun _ _ => rfl⟩

theorem Gives.of_eq (same : ∀ fuel, g fuel = some value) : Gives g value := ⟨0, fun fuel _ => same fuel⟩

/-- A function that has its value as soon as two others have theirs. -/
theorem Gives.both {k : Nat → Option γ} {result : γ} (one : Gives f first) (two : Gives g value)
    (step : ∀ fuel, f fuel = some first → g fuel = some value → k fuel = some result) : Gives k result := by
  obtain ⟨least, one⟩ := one
  obtain ⟨least', two⟩ := two
  exact ⟨max least least', fun fuel enough => step fuel (one fuel (Nat.le_trans (Nat.le_max_left ..) enough))
    (two fuel (Nat.le_trans (Nat.le_max_right ..) enough))⟩

/-- A function that goes on with another one as soon as a first one has its value. -/
theorem Gives.trans (before : Gives f first) (rest : Gives g value)
    (step : ∀ fuel, f fuel = some first → h fuel = g fuel) :
    Gives h value :=
  before.both rest fun fuel found => (step fuel found).trans

/-- One function after another, with the same fuel. -/
theorem Gives.bind {k : Nat → α → Option β} (before : Gives f first) (rest : Gives (k · first) value) :
    Gives (fun fuel => (f fuel).bind (k fuel)) value :=
  before.trans rest fun fuel found => by rw [found, Option.bind_some]

theorem Gives.of_succ : Gives (fun fuel => g (fuel + 1)) value → Gives g value := by
  rintro ⟨least, gives⟩
  refine ⟨least + 1, fun fuel enough => ?_⟩
  obtain ⟨fuel, rfl⟩ := Nat.exists_eq_add_of_le' enough
  exact gives (fuel + least) (Nat.le_add_left ..)

theorem Gives.round (rest : Gives g value) (step : ∀ fuel, h (fuel + 1) = g fuel) : Gives h value :=
  .of_succ (funext step ▸ rest)

/-- A round of a loop that starts with a function of its own fuel. -/
theorem Gives.turn {more : Nat → Nat} (before : Gives f first) (later : ∀ fuel, fuel ≤ more fuel)
    (rest : Gives g value)
    (step : ∀ fuel, f (more (fuel + 1)) = some first → h (fuel + 1) = g fuel) : Gives h value := by
  obtain ⟨least, before⟩ := before
  have reached : Gives (fun fuel => f (more (fuel + 1))) first :=
    ⟨least, fun fuel enough => before _ (Nat.le_trans enough (Nat.le_of_succ_le (later (fuel + 1))))⟩
  exact .of_succ (reached.trans rest step)

theorem Gives.unique {other : β} (one : Gives g value) (two : Gives g other) : value = other := by
  obtain ⟨least, one⟩ := one
  obtain ⟨least', two⟩ := two
  exact Option.some.inj
    ((one (max least least') (Nat.le_max_left ..)).symm.trans (two _ (Nat.le_max_right ..)))

end Fuel

/-! ### Loops -/

variable {step : α → β ⊕ α} {state state' : α} {result : β}

/-- The loop, for as many rounds as there is fuel. -/
def loop (step : α → β ⊕ α) : Nat → α → Option β
  | 0, _ => none
  | fuel + 1, state =>
    match step state with
    | .inl result => some result
    | .inr next => loop step fuel next

/-- Some rounds lead from a state to another one. -/
def Leads (step : α → β ⊕ α) : α → α → Prop := Relation.ReflTransGen fun state next => step state = .inr next

/-- The loop ends with a result. -/
def Ends (step : α → β ⊕ α) (state : α) (result : β) : Prop := ∃ last, Leads step state last ∧
    step last = .inl result

theorem Ends.of_leads (leads : Leads step state state') :
    Ends step state' result → Ends step state result := by
  rintro ⟨last, rest, gives⟩
  exact ⟨last, leads.trans rest, gives⟩

/-- What no round changes is the same behind all of them. -/
theorem Leads.same {γ : Type*} {f : α → γ} (keeps : ∀ state next, step state = .inr next → f next = f state)
    (leads : Leads step state state') : f state' = f state := by
  induction leads with
  | refl => rfl
  | tail _ round ih => rw [keeps _ _ round, ih]

/-- With enough fuel a loop that ends gives its result. -/
theorem Ends.loop : Ends step state result → Gives (fun fuel => loop step fuel state) result := by
  rintro ⟨last, leads, gives⟩
  induction leads using Relation.ReflTransGen.head_induction_on with
  | refl => exact Gives.const.round fun fuel => by rw [Library.loop, gives]
  | head round _ ih => exact ih.round fun fuel => by rw [Library.loop, round]

end LinuxKernel.Library
