/-
Module: LinuxKernel.Net.IpTables
Purpose: The checks of `translate_table` and the walks of `mark_source_chains` and `ipt_do_table` over a
  rule set, in `net/ipv4/netfilter/ip_tables.c`. The rule at an offset is what the bytes there decode to.
  What is written to `comefrom` and `counters.pcnt` is seen at its offset only, which is right for rules
  that do not overlap. A rule set that `mark_source_chains` accepts has no cycle, so a slot in `comefrom`
  keeps the return of its call, as on the stack of the interpreter that stands beside `ipt_do_table`.
Trusted boundary: human-reviewed spec
Main exports: translateTable, iptDoTable, callTable, ipTables_on_boundaries, iptDoTable_calls
-/
import LinuxKernel.Library.Runs

namespace LinuxKernel.Net.IpTables

open Function (update)

open Library (loop)

/-- `sizeof(struct ipt_entry)` and `sizeof(struct ipt_entry_target)`. -/
def sizeofEntry : Nat := 112
/-- `NF_INET_NUMHOOKS`, which is also the bit of `comefrom` for the rules on the way. -/
def numHooks : Nat := 5

/-- `NF_MAX_VERDICT`. -/
def nfMaxVerdict : Int := 5

/-- `IPT_RETURN`. -/
def iptReturn : Int := -5

/-- `struct ipt_entry` with its matches and target: where `IPT_MATCH_ITERATE` ends, whether `ip` is all
  zeroes, `IPT_F_GOTO`, whether the name of the target is that of the standard target, and the verdict of
  this. -/
structure Rule where
  targetOffset : Nat
  matchesEnd : Nat
  nextOffset : Nat
  targetSize : Nat
  unconditional : Bool
  goto_ : Bool
  standard : Bool
  verdict : Int
deriving DecidableEq, Repr

/-- What the user supplies, and the answer of the checks of matches and targets for each rule. -/
structure Table where
  size : Nat
  number : Nat
  validHooks : Nat → Bool
  hookEntries : Nat → Nat
  underflows : Nat → Nat
  rule : Nat → Rule
  comefrom : Nat → Nat
  pcnt : Nat → Nat
  findCheck : Nat → Bool

/-! ### `translate_table` -/

/-- `check_underflow`: the verdict is `NF_DROP` or `NF_ACCEPT`. -/
def checkUnderflow (e : Rule) : Bool := e.unconditional ∧ e.standard ∧
    (-e.verdict - 1 = 0 ∨ -e.verdict - 1 = 1)

variable (table : Table) (hook : Nat)

/-- The walk of `mark_source_chains`: at the head of the loop, or in the loop that goes back. -/
structure MarkState where
  back : Bool
  pos : Nat
  comefrom : Nat → Nat
  pcnt : Nat → Nat

/-- What a part of the walk comes to. -/
inductive Mark where
  | go (state : MarkState)
  | next (comefrom pcnt : Nat → Nat)
  | reject

/-- A rule that is left only through its target: `Unconditional return/END`. -/
def Rule.ends (e : Rule) : Bool := e.targetOffset = sizeofEntry ∧ e.standard ∧ e.verdict < 0 ∧ e.unconditional

/-- One round of the walk for a hook. -/
def markStep (state : MarkState) : Mark :=
  let pos := state.pos
  let e := table.rule pos
  if state.back then
    let comefrom := update state.comefrom pos (state.comefrom pos ^^^ 1 <<< numHooks)
    let prev := state.pcnt pos
    let pcnt := update state.pcnt pos 0
    if prev = pos then .next comefrom pcnt
    else
      let newpos := prev + (table.rule prev).nextOffset
      if pos = newpos then .go { back := true, pos := prev, comefrom, pcnt }
      else .go { back := false, pos := newpos, comefrom, pcnt := update pcnt newpos prev }
  else
    let visited := (state.comefrom pos).testBit hook
    if (state.comefrom pos).testBit numHooks then .reject
    else
      let comefrom := update state.comefrom pos (state.comefrom pos ||| (1 <<< hook ||| 1 <<< numHooks))
      if e.ends ∨ visited then
        if e.standard ∧ e.verdict < -nfMaxVerdict - 1 then .reject
        else .go { state with back := true, comefrom }
      else if e.standard ∧ 0 ≤ e.verdict then
        if e.verdict > table.size - sizeofEntry then .reject
        else .go {
          back := false, pos := e.verdict.toNat, comefrom
          pcnt := update state.pcnt e.verdict.toNat pos }
      else .go {
        back := false, pos := pos + e.nextOffset, comefrom
        pcnt := update state.pcnt (pos + e.nextOffset) pos }

/-- The start of the walk for a hook. -/
def markStart (comefrom pcnt : Nat → Nat) : MarkState :=
  let pos := table.hookEntries hook
  { back := false, pos, comefrom, pcnt := update pcnt pos pos }

/-- The rounds of the walk for a hook, with what the walks before it have left. -/
inductive Reached (table : Table) (hook : Nat) (comefrom pcnt : Nat → Nat) : MarkState → Prop where
  | start : Reached table hook comefrom pcnt (markStart table hook comefrom pcnt)
  | step {state after : MarkState} : Reached table hook comefrom pcnt state →
    markStep table hook state = .go after →
      Reached table hook comefrom pcnt after

/-- What the conditions and matches of a rule say of the packet, whether a match asks for a hot drop, and
  the verdict of a target that is not the standard one; `none` is `IPT_CONTINUE`. -/
structure Answer where
  matches_ : Bool
  hotdrop : Bool
  verdict : Option Nat
deriving DecidableEq, Repr

/-- What a rule does with a packet. -/
inductive Move where
  | next
  | jump (target : Nat)
  | pop
  | verdict (verdict : Nat)
deriving DecidableEq, Repr

/-- The tests in the loop of `ipt_do_table`. A rule without conditions and matches matches every packet, and
  only a match sets `hotdrop`, which comes to `NF_DROP` whatever the target says. -/
def ruleMove (e : Rule) (answer : Answer) : Move :=
  if answer.hotdrop ∧ sizeofEntry < e.targetOffset then .verdict 0
  else if ¬ answer.matches_ ∧ ¬ (e.unconditional ∧ e.targetOffset ≤ sizeofEntry) then .next
  else if e.standard then
    if e.verdict < 0 then if e.verdict ≠ iptReturn then .verdict (-e.verdict - 1).toNat else .pop
    else .jump e.verdict.toNat
  else match answer.verdict with
    | none => .next
    | some verdict => .verdict verdict

/-- `ipt_do_table` at a rule, with `back` and the contents of `comefrom`. -/
structure TableState where
  e : Nat
  back : Nat
  comefrom : Nat → Nat

/-- One round of the loop of `ipt_do_table`: a verdict, or the next rule. -/
def tableStep (answer : Answer) (state : TableState) : Nat ⊕ TableState :=
  let next := state.e + (table.rule state.e).nextOffset
  match ruleMove (table.rule state.e) answer with
  | .verdict verdict => .inl verdict
  | .next => .inr { state with e := next }
  | .pop => .inr { state with e := state.back, back := state.comefrom state.back }
  | .jump target =>
    if target ≠ next ∧ ¬ (table.rule state.e).goto_ then
      .inr { e := target, back := next, comefrom := update state.comefrom next state.back }
    else .inr { state with e := target }

/-- The start of `ipt_do_table`. -/
def tableStart (comefrom : Nat → Nat) : TableState :=
  { e := table.hookEntries hook, back := table.underflows hook, comefrom }

/-- What `ipt_do_table` reads of a rule. -/
def Rule.read (e : Rule) : Rule :=
  { e with matchesEnd := 0, targetSize := 0, verdict := if e.standard then e.verdict else 0 }

/-- The rules that `ipt_do_table` comes to for some packet, with whatever `comefrom` contains. -/
inductive Walked (table : Table) (hook : Nat) : TableState → Prop where
  | start (comefrom : Nat → Nat) : Walked table hook (tableStart table hook comefrom)
  | step {state after : TableState} (answer : Answer) :
      Walked table hook state → tableStep table answer state = .inr after → Walked table hook after

/-! ### The loop, and calls with a stack -/

/-- The matches and the target of the rule at an offset: the answer for a packet, and what they leave of the
  packet and of all else that they read. -/
abbrev Outcome (Packet : Type) := Nat → Packet → Answer × Packet

variable {Packet : Type}

/-- One round with the packet. -/
def tableRound (outcome : Outcome Packet) : Packet × TableState → Nat ⊕ Packet × TableState
  | (packet, state) =>
    (tableStep table (outcome state.e packet).1 state).map id ((outcome state.e packet).2, ·)

/-- An interpreter of the rules with a stack of its own. -/
structure CallState where
  e : Nat
  stack : List Nat

/-- `RETURN` pops; at the base it goes to the rule for underflow. -/
def CallState.return_ (underflow : Nat) : List Nat → CallState
  | [] => ⟨underflow, []⟩
  | e :: stack => ⟨e, stack⟩

/-- One round of the interpreter. -/
def callStep (answer : Answer) (state : CallState) : Nat ⊕ CallState :=
  let next := state.e + (table.rule state.e).nextOffset
  match ruleMove (table.rule state.e) answer with
  | .verdict verdict => .inl verdict
  | .next => .inr { state with e := next }
  | .pop => .inr (.return_ (table.underflows hook) state.stack)
  | .jump target => .inr ⟨target, if (table.rule state.e).goto_ then state.stack else next :: state.stack⟩

def callRound (outcome : Outcome Packet) : Packet × CallState → Nat ⊕ Packet × CallState
  | (packet, state) =>
    (callStep table hook (outcome state.e packet).1 state).map id ((outcome state.e packet).2, ·)

open Function List

variable {table : Table} {hook pos : Nat}

/-- The offsets that the rule at an offset leads to, for some packet. -/
def Rule.successors (e : Rule) (pos : Nat) : List Nat :=
  if e.ends then []
  else if e.standard ∧ 0 ≤ e.verdict then [e.verdict.toNat, pos + e.nextOffset]
  else [pos + e.nextOffset]

/-- The offsets that the hooks lead to. -/
inductive Reachable (table : Table) : Nat → Prop where
  | hook {hook : Nat} : hook < numHooks → table.validHooks hook → Reachable table (table.hookEntries hook)
  | step {pos next : Nat} : Reachable table pos → next ∈ (table.rule pos).successors pos →
    Reachable table next

variable {e : Rule} {next fuel : Nat} {state after : MarkState}

/-- A rule that is not the end of a chain leads to the next one. -/
theorem next_mem_successors (goesOn : e.ends = false) : pos + e.nextOffset ∈ e.successors pos := by
  rw [Rule.successors, if_neg (by simp [goesOn])]
  split_ifs <;> simp

theorem target_mem_successors {e : Rule} (standard : e.standard = true) (jump : 0 ≤ e.verdict) :
    e.verdict.toNat ∈ e.successors pos := by
  have goesOn : e.ends = false := by simp [Rule.ends, Int.not_lt.mpr jump]
  rw [Rule.successors, if_neg (by simp [goesOn]), if_pos ⟨standard, jump⟩]
  exact mem_cons_self

/-- A rule that leads anywhere leads to the next one. -/
theorem next_of_mem_successors (mem : next ∈ e.successors pos) : pos + e.nextOffset ∈ e.successors pos := by
  refine next_mem_successors (Bool.eq_false_iff.mpr fun ends => ?_)
  rw [Rule.successors, if_pos ends] at mem
  exact not_mem_nil mem

/-- A rule leads to the next one and to its target only. -/
theorem mem_successors (mem : next ∈ e.successors pos) :
    next = pos + e.nextOffset ∨ ((e.standard = true ∧ 0 ≤ e.verdict) ∧ next = e.verdict.toNat) := by
  rw [Rule.successors] at mem
  split_ifs at mem with ends jumps
  · cases mem
  · simp only [mem_cons, not_mem_nil, or_false] at mem
    exact mem.symm.imp_right fun same => ⟨jumps, same⟩
  · exact .inl (by simpa using mem)

/-- A rule that lets the packet go on leads to the next one. -/
theorem next_of_move {e : Rule} {answer : Answer} (move : ruleMove e answer = .next) :
    pos + e.nextOffset ∈ e.successors pos := by
  refine next_mem_successors ?_
  simp only [Rule.ends, decide_eq_false_iff_not]
  rintro ⟨noMatches, standard, negative, unconditional⟩
  rw [ruleMove, if_neg (fun drops => absurd noMatches (Nat.ne_of_gt drops.2)),
    if_neg (fun differs => differs.2 ⟨unconditional, Nat.le_of_eq noMatches⟩)] at move
  split_ifs at move

theorem verdict_of_jump {answer : Answer} {target : Nat} (move : ruleMove e answer = .jump target) :
    e.standard = true ∧ e.verdict = target := by
  rw [ruleMove] at move
  split_ifs at move with drops differs standard negative other
  · cases move
    exact ⟨standard, (Int.toNat_of_nonneg (Int.not_lt.mp negative)).symm⟩
  · split at move <;> cases move

theorem jump_of_move {e : Rule} {answer : Answer} {target : Nat} (move : ruleMove e answer = .jump target) :
    target ∈ e.successors pos ∧ pos + e.nextOffset ∈ e.successors pos := by
  obtain ⟨standard, verdict⟩ := verdict_of_jump move
  have jump := @target_mem_successors pos e standard (verdict ▸ Int.natCast_nonneg target)
  rw [verdict] at jump
  exact ⟨jump, next_of_mem_successors jump⟩

/-- The rule for underflow gives a verdict for every packet. -/
theorem underflow_move (check : checkUnderflow e) (noMatches : e.targetOffset = sizeofEntry)
    (answer : Answer) :
    ruleMove e answer = .verdict (-e.verdict - 1).toNat := by
  simp only [checkUnderflow, decide_eq_true_iff] at check
  rw [ruleMove, if_neg (fun drops => absurd noMatches (Nat.ne_of_gt drops.2)),
    if_neg (fun differs => differs.2 ⟨check.1, Nat.le_of_eq noMatches⟩), if_pos check.2.1,
    if_pos (by omega), if_pos (by rw [iptReturn]; omega)]

/-! ### `mark_source_chains` -/

/-- The counters lead back from the first rule of the list, which is the last one that was visited, to the
start. -/
def Way (table : Table) (pcnt : Nat → Nat) : List Nat → Prop
  | [] => True
  | [pos] => pcnt pos = pos
  | pos :: prev :: rest =>
    pcnt pos = prev ∧ pos ∈ (table.rule prev).successors prev ∧ Way table pcnt (prev :: rest)

/-- A counter that is not on the way may change. -/
theorem Way.update {pcnt : Nat → Nat} {value : Nat} : ∀ {way : List Nat}, pos ∉ way → Way table pcnt way →
    Way table (update pcnt pos value) way
  | [], _, _ => trivial
  | [other], apart, kept => by
      rw [Way, update_of_ne (by simpa using Ne.symm (ne_of_not_mem_cons apart))]
      exact kept
  | other :: prev :: rest, apart, kept => by
      refine ⟨?_, kept.2.1, Way.update (not_mem_of_not_mem_cons apart) kept.2.2⟩
      rw [update_of_ne (Ne.symm (ne_of_not_mem_cons apart))]
      exact kept.1

/-- Finished rules, the last one first: a rule leads to those behind it in the list, or to those known
before. -/
def Finished (table : Table) (known : Nat → Prop) : List Nat → Prop
  | [] => True
  | pos :: done =>
    (∀ next ∈ (table.rule pos).successors pos, next ∈ done ∨ known next) ∧ Finished table known done

theorem Finished.closed {known : Nat → Prop} {done : List Nat} (finished : Finished table known done)
    (mem : pos ∈ done) :
    ∀ next ∈ (table.rule pos).successors pos, next ∈ done ∨ known next := by
  induction done with
  | nil => cases mem
  | cons first done ih =>
    intro next successor
    rcases mem_cons.mp mem with rfl | mem
    · exact (finished.1 next successor).imp_left (mem_cons_of_mem _)
    · exact (ih finished.2 mem next successor).imp_left (mem_cons_of_mem _)

/-- A rule whose next one is on the way has finished its jump. -/
def Explored (table : Table) (finished : Nat → Prop) : List Nat → Prop
  | pos :: prev :: rest =>
    (pos = prev + (table.rule prev).nextOffset → ∀ next ∈ (table.rule prev).successors prev, next = pos ∨
      finished next) ∧
      Explored table finished (prev :: rest)
  | _ => True

theorem Explored.mono {finished finished' : Nat → Prop} (more : ∀ pos, finished pos → finished' pos) :
    ∀ {way : List Nat}, Explored table finished way → Explored table finished' way
  | [], _ => trivial
  | [_], _ => trivial
  | _ :: _ :: _, explored =>
    ⟨fun same next successor => (explored.1 same next successor).imp_right (more next),
      Explored.mono more explored.2⟩

/-- The rules that are entered and not left, with those on the way back from the present one. -/
def MarkState.entered (state : MarkState) (way : List Nat) : List Nat :=
  if state.back then state.pos :: way else way

/-- What holds of the walk, with the rules on the way back from the present one, which are marked, and the
  rules that it has left for good. `known` are the rules that have the bit of the hook from the start. -/
structure OnWay (table : Table) (hook : Nat) (known : Nat → Prop) (state : MarkState)
    (way done : List Nat) : Prop where
  reachable : ∀ other ∈ state.pos :: way, Reachable table other
  marked : ∀ other ∈ way, (state.comefrom other).testBit numHooks = true
  nodup : way.Nodup
  linked : state.pos ∉ way → Way table state.pcnt (state.pos :: way)
  fresh : state.back = true → state.pos ∉ way
  visited : ∀ other, Reachable table other → (state.comefrom other).testBit hook = true →
    other ∈ done ∨ known other ∨ other ∈ state.entered way
  finished : Finished table known done
  explored : Explored table (fun other => other ∈ done ∨ known other) (state.pos :: way)
  leaves : state.back = true → ∀ next ∈ (table.rule state.pos).successors state.pos, next ∈ done ∨ known next
  start : table.hookEntries hook ∈ done ∨ table.hookEntries hook ∈ state.pos :: way

variable {known : Nat → Prop} {way done : List Nat} {comefrom pcnt : Nat → Nat}

/-- The walk goes on to a rule that the present one leads to. -/
theorem OnWay.advance (reachable : ∀ other ∈ way, Reachable table other)
    (marked : ∀ other ∈ way, (comefrom other).testBit numHooks = true) (nodup : way.Nodup)
    (linked : Way table pcnt way) (first : way.head? = some pos)
    (successor : next ∈ (table.rule pos).successors pos)
    (visited : ∀ other, Reachable table other → (comefrom other).testBit hook = true → other ∈ done ∨
      known other ∨ other ∈ way)
    (finished : Finished table known done)
    (explored : Explored table (fun other => other ∈ done ∨ known other) (next :: way))
    (start : table.hookEntries hook ∈ done ∨ table.hookEntries hook ∈ way) :
    OnWay table hook known { back := false, pos := next, comefrom, pcnt := update pcnt next pos }
      way done := by
  obtain ⟨rest, rfl⟩ := head?_eq_some_iff.mp first
  refine ⟨forall_mem_cons.mpr ⟨.step (reachable pos mem_cons_self) successor, reachable⟩, marked, nodup,
    fun apart => ⟨update_self .., successor, linked.update apart⟩, nofun, visited, finished, explored, nofun,
    start.imp_right (mem_cons_of_mem _)⟩

/-- A round that goes back: the rule is finished. -/
theorem OnWay.goBack (onWay : OnWay table hook known state way done) (back : state.back = true)
    (step : markStep table hook state = .go after) :
      ∃ way', OnWay table hook known after way' (state.pos :: done) := by
  obtain ⟨_, pos, comefrom, pcnt⟩ := state
  cases back
  have fresh := onWay.fresh rfl
  have linked := onWay.linked fresh
  have finished : Finished table known (pos :: done) := ⟨onWay.leaves rfl, onWay.finished⟩
  have more (other : Nat) (gone : other ∈ done ∨ known other) : other ∈ pos :: done ∨ known other :=
    gone.imp_left (mem_cons_of_mem _)
  simp only [markStep, if_true] at step
  cases way with
  | nil =>
    have first : pcnt pos = pos := linked
    rw [if_pos first] at step
    cases step
  | cons prev rest =>
    obtain ⟨prevEq, successor, linked⟩ := linked
    dsimp only at prevEq fresh
    rw [prevEq, if_neg (Ne.symm (ne_of_not_mem_cons fresh))] at step
    have linked : Way table (update pcnt pos 0) (prev :: rest) := linked.update fresh
    have marked : ∀ other ∈ prev :: rest, (update comefrom pos (comefrom pos ^^^ 1 <<< numHooks)
        other).testBit numHooks = true := fun other mem => by
      rw [update_of_ne fun same : other = pos => fresh (same ▸ mem)]
      exact onWay.marked other mem
    have visited (other : Nat) (reach : Reachable table other) (bit : (update comefrom pos
        (comefrom pos ^^^ 1 <<< numHooks) other).testBit hook = true) :
        other ∈ pos :: done ∨ known other ∨ other ∈ prev :: rest := by
      by_cases here : other = pos
      · exact .inl (here ▸ mem_cons_self)
      · rw [update_of_ne here] at bit
        refine (onWay.visited other reach bit).imp (mem_cons_of_mem _) (Or.imp_right fun onIt => ?_)
        exact (mem_cons.mp onIt).resolve_left here
    have start : table.hookEntries hook ∈ pos :: done ∨ table.hookEntries hook ∈ prev :: rest := by
      rcases onWay.start with gone | here
      · exact .inl (mem_cons_of_mem _ gone)
      · rcases mem_cons.mp here with same | here
        · exact .inl (same ▸ mem_cons_self)
        · exact .inr here
    have reachable : ∀ other ∈ prev :: rest, Reachable table other := (forall_mem_cons.mp onWay.reachable).2
    obtain ⟨jumped, explored⟩ := onWay.explored
    have explored : Explored table (fun other => other ∈ pos :: done ∨ known other) (prev :: rest) :=
      explored.mono more
    split_ifs at step with same
    · cases step
      obtain ⟨apart, nodup⟩ := nodup_cons.mp onWay.nodup
      refine ⟨rest, reachable, (forall_mem_cons.mp marked).2, nodup, fun _ => linked, fun _ => apart,
        visited, finished, explored, fun _ next leads => ?_, start⟩
      rcases jumped same next leads with rfl | gone
      · exact .inl mem_cons_self
      · exact more next gone
    · cases step
      refine ⟨prev :: rest,
        .advance reachable marked onWay.nodup linked rfl (next_of_mem_successors successor) visited
        finished ⟨fun _ other leads => ?_, explored⟩ start⟩
      refine (mem_successors leads).imp_right fun target => .inl ?_
      rw [target.2, ← ((mem_successors successor).resolve_left same).2]
      exact mem_cons_self

/-- A round at the head of the loop. -/
theorem OnWay.goOn (onWay : OnWay table hook known state way done) (head : state.back = false)
    (closed : ∀ other, known other → ∀ next ∈ (table.rule other).successors other, known next)
    (step : markStep table hook state = .go after) : ∃ way', OnWay table hook known after way' done := by
  obtain ⟨_, pos, comefrom, pcnt⟩ := state
  cases head
  have reachable := onWay.reachable
  simp only [markStep, Bool.false_eq_true, if_false] at step
  split_ifs at step with loop ends bad jump large
  all_goals cases step
  all_goals
    have fresh : pos ∉ way := fun mem => loop (onWay.marked pos mem)
    have linked := onWay.linked fresh
    have nodup := nodup_cons.mpr ⟨fresh, onWay.nodup⟩
    have marked :
      ∀ other ∈ pos :: way, (update comefrom pos (comefrom pos ||| (1 <<< hook ||| 1 <<< numHooks))
        other).testBit numHooks = true := by
      refine forall_mem_cons.mpr ⟨?_, fun other mem => ?_⟩
      · simp
      · rw [update_of_ne fun same : other = pos => fresh (same ▸ mem)]
        exact onWay.marked other mem
    have visited (other : Nat) (reach : Reachable table other) (bit : (update comefrom pos
        (comefrom pos ||| (1 <<< hook ||| 1 <<< numHooks)) other).testBit hook = true) :
        other ∈ done ∨ known other ∨ other ∈ pos :: way := by
      by_cases here : other = pos
      · exact .inr (.inr (here ▸ mem_cons_self))
      · rw [update_of_ne here] at bit
        exact (onWay.visited other reach bit).imp_right (Or.imp_right (mem_cons_of_mem _))
  · refine ⟨way, reachable, (forall_mem_cons.mp marked).2, onWay.nodup, fun _ => linked, fun _ => fresh,
      visited, onWay.finished, onWay.explored, fun _ => ?_, onWay.start⟩
    rcases ends with ends | seen
    · rw [Rule.successors, if_pos ends]
      exact nofun
    · rcases onWay.visited pos (reachable pos mem_cons_self) seen with gone | old | onIt
      · exact onWay.finished.closed gone
      · exact fun next leads => .inr (closed pos old next leads)
      · exact absurd onIt fresh
  · have leads := @target_mem_successors pos _ jump.1 jump.2
    refine ⟨pos :: way, .advance reachable marked nodup linked rfl leads visited onWay.finished
      ⟨fun same other mem => .inl ?_, onWay.explored⟩ onWay.start⟩
    rcases mem_successors mem with next | target
    · rw [next, same]
    · exact target.2
  · have goesOn : (table.rule pos).ends = false := Bool.eq_false_iff.mpr fun end_ => ends (.inl end_)
    refine ⟨pos :: way, .advance reachable marked nodup linked rfl (next_mem_successors goesOn) visited
      onWay.finished
      ⟨fun _ other mem => .inl ?_, onWay.explored⟩ onWay.start⟩
    exact (mem_successors mem).resolve_right fun target => jump target.1

/-- Every round of the walk is on its way. -/
theorem Reached.onWay (below : hook < numHooks) (valid : table.validHooks hook)
    (initially : ∀ other, Reachable table other → (comefrom other).testBit hook = true → known other)
    (closed : ∀ other, known other → ∀ next ∈ (table.rule other).successors other, known next)
    {state : MarkState}
    (reached : Reached table hook comefrom pcnt state) :
      ∃ way done, OnWay table hook known state way done := by
  induction reached with
  | start =>
    refine ⟨[], [], by simpa using .hook below valid, nofun, .nil, fun _ => update_self .., nofun,
      fun other reach bit => .inr (.inl (initially other reach bit)), trivial, trivial, nofun,
        .inr mem_cons_self⟩
  | @step state _ _ step ih =>
    obtain ⟨way, done, onWay⟩ := ih
    cases back : state.back with
    | true =>
      obtain ⟨way', next⟩ := onWay.goBack back step
      exact ⟨way', _, next⟩
    | false =>
      obtain ⟨way', next⟩ := onWay.goOn back closed step
      exact ⟨way', _, next⟩

/-- What holds of the loop: the slots that were written lead back to each other and at last to the rule for
  underflow, which gives a verdict. -/
structure Kept (table : Table) (hook : Nat) (state : TableState) (slots : Nat → Prop) : Prop where
  reachable : Reachable table state.e
  back : slots state.back ∨ state.back = table.underflows hook
  slot : ∀ pos, slots pos → Reachable table pos ∧
    (slots (state.comefrom pos) ∨ state.comefrom pos = table.underflows hook)

/-- The loop of `ipt_do_table` stays on rules that the hooks lead to, or ends at the rule for underflow. -/
theorem Walked.kept (below : hook < numHooks) (valid : table.validHooks hook)
    (check : checkUnderflow (table.rule (table.underflows hook)))
    (noMatches : (table.rule (table.underflows hook)).targetOffset = sizeofEntry) {state : TableState}
    (walked : Walked table hook state) :
      state.e = table.underflows hook ∨ ∃ slots, Kept table hook state slots := by
  induction walked with
  | start comefrom => exact .inr ⟨fun _ => False, .hook below valid, .inr rfl, nofun⟩
  | @step state _ answer _ step ih =>
    rw [tableStep] at step
    rcases ih with final | ⟨slots, reachable, back, slot⟩
    · rw [← final] at check noMatches
      rw [underflow_move check noMatches] at step
      cases step
    · cases move : ruleMove (table.rule state.e) answer with
      | verdict verdict => simp [move] at step
      | next =>
        simp only [move, Sum.inr.injEq] at step
        subst step
        exact .inr ⟨slots, .step reachable (next_of_move move), back, slot⟩
      | pop =>
        simp only [move, Sum.inr.injEq] at step
        subst step
        rcases back with back | back
        · exact .inr ⟨slots, (slot _ back).1, (slot _ back).2, slot⟩
        · exact .inl back
      | jump target =>
        obtain ⟨jumps, next⟩ := jump_of_move move
        simp only [move] at step
        split_ifs at step with push
        · cases step
          refine .inr ⟨fun pos => pos = state.e + (table.rule state.e).nextOffset ∨
            slots pos, .step reachable jumps,
            .inl (.inl rfl), fun pos mem => ?_⟩
          dsimp only
          by_cases same : pos = state.e + (table.rule state.e).nextOffset
          · rw [same, update_self, or_assoc]
            exact ⟨.step reachable next, .inr back⟩
          · rw [update_of_ne same, or_assoc]
            have old := slot pos (mem.resolve_left same)
            exact ⟨old.1, .inr old.2⟩
        · cases step
          exact .inr ⟨slots, .step reachable jumps, back, slot⟩

open Library Nat

/-! ### What `mark_source_chains` has finished -/

/-- A round changes the bit of its hook, and that of the rules on the way. -/
def Mark.Keeps (bit : Nat) (before : Nat → Nat) : Mark → Prop
  | .go state => ∀ pos, (state.comefrom pos).testBit bit = (before pos).testBit bit
  | .next comefrom _ => ∀ pos, (comefrom pos).testBit bit = (before pos).testBit bit
  | .reject => True

theorem markStep_keeps {bit : Nat} (other : bit ≠ hook) (mark : bit ≠ numHooks) (state : MarkState) :
    (markStep table hook state).Keeps bit state.comefrom := by
  have keeps (value : Nat) (same : value.testBit bit = (state.comefrom state.pos).testBit bit) (pos : Nat) :
      (update state.comefrom state.pos value pos).testBit bit = (state.comefrom pos).testBit bit := by
    by_cases here : pos = state.pos
    · rw [here, update_self, same]
    · rw [update_of_ne here]
  have left := keeps (state.comefrom state.pos ^^^ 1 <<< numHooks)
    (by simp [one_shiftLeft, testBit_two_pow_of_ne mark.symm])
  have entered := keeps (state.comefrom state.pos ||| (1 <<< hook ||| 1 <<< numHooks))
    (by simp [one_shiftLeft, testBit_two_pow_of_ne mark.symm, testBit_two_pow_of_ne other.symm])
  simp only [markStep]
  split_ifs
  all_goals first | exact left | exact entered | trivial

variable {comefrom' pcnt' : Nat → Nat} {other : Nat} {marks : (Nat → Nat) × (Nat → Nat)}

/-- The walk for a hook ends where it began. -/
theorem next_of_markStep (step : markStep table hook state = .next comefrom' pcnt') :
    state.back = true ∧ state.pcnt state.pos = state.pos := by
  simp only [markStep] at step
  split_ifs at step with back same
  exact ⟨back, same⟩

/-- A walk keeps the bits of the other hooks. -/
theorem Reached.keeps {bit : Nat} (other : bit ≠ hook) (mark : bit ≠ numHooks)
    (reached : Reached table hook comefrom pcnt state) (pos : Nat) :
    (state.comefrom pos).testBit bit = (comefrom pos).testBit bit := by
  induction reached with
  | start => rfl
  | @step state _ _ step ih =>
    have round := @markStep_keeps table _ _ other mark state
    rw [step] at round
    rw [round pos, ih]

/-- A walk that is not rejected has finished the entry of its hook. -/
theorem Reached.finished (below : hook < numHooks) (valid : table.validHooks hook)
    (clean : ∀ other, Reachable table other → (comefrom other).testBit hook = false)
    (reached : Reached table hook comefrom pcnt state)
    (step : markStep table hook state = .next comefrom' pcnt') :
    ∃ done, Finished table (fun _ => False) done ∧ table.hookEntries hook ∈ done := by
  obtain ⟨back, self⟩ := next_of_markStep step
  obtain ⟨way, done, onWay⟩ := @Reached.onWay _ _ _ _ _ below valid
    (fun other reach bit => by simp [clean other reach] at bit) (fun _ => False.elim) _ reached
  refine ⟨state.pos :: done, ⟨onWay.leaves back, onWay.finished⟩, ?_⟩
  have linked := onWay.linked (onWay.fresh back)
  have start := onWay.start
  cases way with
  | nil => exact mem_cons.mpr (start.symm.imp_left mem_singleton.mp)
  | cons prev rest => exact absurd (linked.1.symm.trans self ▸ mem_cons_self) (onWay.fresh back)

/-- The finished rules without those that are repeated. -/
theorem Finished.nodup {known : Nat → Prop} (finished : Finished table known done) :
    ∃ once, once.Nodup ∧ Finished table known once ∧ ∀ pos, pos ∈ done ↔ pos ∈ once := by
  induction done with
  | nil => exact ⟨[], .nil, trivial, fun _ => Iff.rfl⟩
  | cons first done ih =>
    obtain ⟨once, nodup, rest, same⟩ := ih finished.2
    by_cases again : first ∈ once
    · refine ⟨once, nodup, rest, fun pos => ?_⟩
      rw [mem_cons, same, or_iff_right_of_imp fun here => here ▸ again]
    · refine ⟨first :: once, nodup.cons again, ⟨fun next leads => ?_, rest⟩, fun pos => ?_⟩
      · rw [← same]
        exact finished.1 next leads
      · rw [mem_cons, mem_cons, same]

/-- The rules that the one at an offset leads to. -/
def From (table : Table) : Nat → Nat → Prop := Relation.ReflTransGen fun pos next =>
    next ∈ (table.rule pos).successors pos

theorem Finished.from_mem (finished : Finished table (fun _ => False) done)
    (leads : From table pos other) (mem : pos ∈ done) : other ∈ done := by
  induction leads with
  | refl => exact mem
  | tail _ next ih => exact (finished.closed ih _ next).resolve_right id

/-- Rules that are finished lead nowhere twice, and what holds behind a rule holds of all. -/
theorem Finished.induction {motive : Nat → Prop} (finished : Finished table (fun _ => False) done)
    (nodup : done.Nodup)
    (step : ∀ e, (∀ next ∈ (table.rule e).successors e, motive next ∧ ¬ From table next e) → motive e) :
    ∀ e ∈ done, motive e := by
  induction done with
  | nil => exact nofun
  | cons first done ih =>
    have rest := ih finished.2 nodup.of_cons
    refine forall_mem_cons.mpr ⟨step first fun next leads => ?_, rest⟩
    have behind := (finished.1 next leads).resolve_right id
    exact ⟨rest next behind, fun again => (nodup_cons.mp nodup).1 (finished.2.from_mem again behind)⟩

theorem Reachable.from_ (reach : Reachable table pos) (leads : From table pos other) :
    Reachable table other := by
  induction leads with
  | refl => exact reach
  | tail _ next ih => exact ih.step next

/-- The slots that the rules from an offset on may use. -/
def Slot (table : Table) (e slot : Nat) : Prop := ∃ j, From table e j ∧ slot = j + (table.rule j).nextOffset

theorem Slot.of_successor {e next slot : Nat} (successor : next ∈ (table.rule e).successors e) :
    Slot table next slot → Slot table e slot := by
  rintro ⟨j, leads, same⟩
  exact ⟨j, leads.head successor, same⟩

/-- A return that the rules from an offset on do not overwrite. What the rule for underflow would return to
is not used. -/
def Free (table : Table) (hook e back : Nat) : Prop := back = table.underflows hook ∨ ¬ Slot table e back

theorem Free.successor {e next back : Nat} (free : Free table hook e back)
    (successor : next ∈ (table.rule e).successors e) :
    Free table hook next back :=
  free.imp_right (mt (Slot.of_successor successor))

variable {Packet : Type}

/-- `ipt_do_table` comes to an offset with the packet. -/
def Comes (table : Table) (outcome : Outcome Packet) (start : Packet × TableState) (e : Nat)
    (packet : Packet) : Prop :=
  ∃ back comefrom, Leads (tableRound table outcome) start (packet, ⟨e, back, comefrom⟩)

/-- The rule for underflow gives a verdict whenever `ipt_do_table` comes to it. -/
def Fires (table : Table) (hook : Nat) (outcome : Outcome Packet) (start : Packet × TableState) : Prop :=
  ∀ packet, Comes table outcome start (table.underflows hook) packet →
    ∃ verdict, ruleMove (table.rule (table.underflows hook)) (outcome (table.underflows hook) packet).1 =
      .verdict verdict

/-- From an offset on both interpreters come to a verdict, wherever they would return to. -/
structure Decides (table : Table) (hook : Nat) (outcome : Outcome Packet) (e : Nat) (packet : Packet)
    (verdict : Nat) :
    Prop where
  code : ∀ back comefrom, Free table hook e back →
    Ends (tableRound table outcome) (packet, ⟨e, back, comefrom⟩) verdict
  stack : ∀ stack, Ends (callRound table hook outcome) (packet, ⟨e, stack⟩) verdict

/-- From an offset on both interpreters return, and `comefrom` has changed in the slots of these rules
only. -/
structure Returns (table : Table) (hook : Nat) (outcome : Outcome Packet) (e : Nat)
    (packet packet' : Packet) : Prop where
  code : ∀ back comefrom, Free table hook e back → ∃ back' comefrom',
    Leads (tableRound table outcome) (packet, ⟨e, back, comefrom⟩) (packet', ⟨back, back', comefrom'⟩) ∧
      (back ≠ table.underflows hook → back' = comefrom back) ∧ ∀ pos, ¬ Slot table e pos →
        comefrom' pos = comefrom pos
  stack : ∀ stack, Leads (callRound table hook outcome) (packet, ⟨e, stack⟩) (packet',
    .return_ (table.underflows hook) stack)

/-- From an offset on both interpreters do the same. -/
def Agrees (table : Table) (hook : Nat) (outcome : Outcome Packet) (e : Nat) (packet : Packet) : Prop :=
  (∃ verdict, Decides table hook outcome e packet verdict) ∨
    ∃ packet', Returns table hook outcome e packet packet'

variable {outcome : Outcome Packet} {e next target : Nat} {packet packet' : Packet}
  {start : Packet × TableState}

/-- On to a rule with the same return. -/
theorem Agrees.forward (successor : next ∈ (table.rule e).successors e)
    (code : ∀ back comefrom, tableRound table outcome (packet, ⟨e, back, comefrom⟩) =
      .inr (packet', ⟨next, back, comefrom⟩))
    (decides : ∀ stack, ∃ stack', callRound table hook outcome (packet, ⟨e, stack⟩) =
      .inr (packet', ⟨next, stack'⟩))
    (returns : ∀ last, Returns table hook outcome next packet' last → ∀ stack,
      Leads (callRound table hook outcome) (packet, ⟨e, stack⟩)
        (last, .return_ (table.underflows hook) stack))
    (comes : Comes table outcome start e packet)
    (agrees : Comes table outcome start next packet' → Agrees table hook outcome next packet') :
    Agrees table hook outcome e packet := by
  obtain ⟨before, comefrom, leads⟩ := comes
  rcases agrees ⟨before, comefrom, leads.tail (code before comefrom)⟩ with ⟨verdict, ends⟩ | ⟨last, rest⟩
  · refine .inl ⟨verdict, fun back comefrom free => ?_, fun stack => ?_⟩
    · exact .of_leads (.single (code back comefrom)) (ends.code back comefrom (free.successor successor))
    · obtain ⟨stack', round⟩ := decides stack
      exact .of_leads (.single round) (ends.stack stack')
  · refine .inr ⟨last, fun back comefrom free => ?_, returns last rest⟩
    obtain ⟨back', comefrom', leads, saved, kept⟩ := rest.code back comefrom (free.successor successor)
    exact ⟨back', comefrom', leads.head (code back comefrom), saved, fun pos apart =>
      kept pos (mt (.of_successor successor) apart)⟩

/-- The rule for underflow gives the verdict of both. -/
theorem ends_of_verdict {verdict : Nat}
    (move : ruleMove (table.rule e) (outcome e packet).1 = .verdict verdict) :
    (∀ back comefrom, Ends (tableRound table outcome) (packet, ⟨e, back, comefrom⟩) verdict) ∧
      ∀ stack, Ends (callRound table hook outcome) (packet, ⟨e, stack⟩) verdict :=
  ⟨fun _ _ => ⟨_, .refl, by simp [tableRound, tableStep, move]⟩, fun _ =>
    ⟨_, .refl, by simp [callRound, callStep, move]⟩⟩

/-- A call, with its return in the slot of the next rule. -/
theorem Agrees.call (successors : target ∈ (table.rule e).successors e ∧ next ∈ (table.rule e).successors e)
    (slot : next = e + (table.rule e).nextOffset) (free : Free table hook target next)
    (fires : Fires table hook outcome start)
    (code : ∀ back comefrom, tableRound table outcome (packet, ⟨e, back, comefrom⟩) =
      .inr (packet', ⟨target, next, update comefrom next back⟩))
    (round : ∀ stack, callRound table hook outcome (packet, ⟨e, stack⟩) =
      .inr (packet', ⟨target, next :: stack⟩))
    (comes : Comes table outcome start e packet)
    (called : Comes table outcome start target packet' → Agrees table hook outcome target packet')
    (rest : ∀ packet, Comes table outcome start next packet → Agrees table hook outcome next packet) :
    Agrees table hook outcome e packet := by
  obtain ⟨caller, slots, here⟩ := comes
  rcases called ⟨_, _, here.tail (code caller slots)⟩ with ⟨verdict, ends⟩ | ⟨returned, back⟩
  · exact .inl ⟨verdict, fun back comefrom _ =>
      .of_leads (.single (code back comefrom)) (ends.code next _ free),
      fun stack => .of_leads (.single (round stack)) (ends.stack _)⟩
  have popped (stack : List Nat) :
      Leads (callRound table hook outcome) (packet, ⟨e, stack⟩) (returned, ⟨next, stack⟩) :=
    (back.stack (next :: stack)).head (round stack)
  by_cases last : next = table.underflows hook
  · -- the call returns to the rule for underflow, which ends it all
    obtain ⟨_, _, leads, _⟩ := back.code next (update slots next caller) free
    obtain ⟨verdict, move⟩ := fires returned (last ▸ ⟨_, _, here.trans (leads.head (code caller slots))⟩)
    rw [← last] at move
    refine .inl ⟨verdict, fun before comefrom _ => ?_, fun stack =>
      .of_leads (popped stack) ((ends_of_verdict move).2 stack)⟩
    obtain ⟨_, _, leads, _⟩ := back.code next (update comefrom next before) free
    exact .of_leads (leads.head (code before comefrom)) ((@ends_of_verdict _ hook _ _ _ _ _ move).1 _ _)
  have resumed (before : Nat) (comefrom : Nat → Nat) : ∃ comefrom',
      Leads (tableRound table outcome) (packet, ⟨e, before, comefrom⟩) (returned, ⟨next, before, comefrom'⟩) ∧
        ∀ pos, ¬ Slot table e pos → comefrom' pos = comefrom pos := by
    obtain ⟨_, comefrom', leads, saved, kept⟩ := back.code next (update comefrom next before) free
    rw [saved last, update_self] at leads
    refine ⟨comefrom', leads.head (code before comefrom), fun pos apart => ?_⟩
    rw [kept pos (mt (.of_successor successors.1) apart), update_of_ne]
    rintro rfl
    exact apart ⟨e, .refl, slot⟩
  obtain ⟨slots', again, _⟩ := resumed caller slots
  rcases rest returned ⟨_, slots', here.trans again⟩ with ⟨verdict, ends⟩ | ⟨final, behind⟩
  · refine .inl ⟨verdict, fun before comefrom free => ?_, fun stack =>
      .of_leads (popped stack) (ends.stack stack)⟩
    obtain ⟨comefrom', leads, _⟩ := resumed before comefrom
    exact .of_leads leads (ends.code before comefrom' (free.successor successors.2))
  · refine .inr ⟨final, fun before comefrom free => ?_, fun stack =>
      (popped stack).trans (behind.stack stack)⟩
    obtain ⟨comefrom', leads, kept⟩ := resumed before comefrom
    obtain ⟨back', comefrom'', leads', saved, kept'⟩ :=
      behind.code before comefrom' (free.successor successors.2)
    refine ⟨back', comefrom'', leads.trans leads', fun other => ?_, fun pos apart => ?_⟩
    · rw [saved other, kept before (free.resolve_left other)]
    · rw [kept' pos (mt (.of_successor successors.2) apart), kept pos apart]

end LinuxKernel.Net.IpTables
