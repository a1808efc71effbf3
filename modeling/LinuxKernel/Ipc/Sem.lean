/-
Module: LinuxKernel.Ipc.Sem
Purpose: The System V semaphore sets of `ipc/sem.c`. `tryAtomicSemop_cases` is the one description of
  `try_atomic_semop`; from it, the restart rule of `update_queue` leaves only entries that have to sleep.
  The adjustment of a process is minus the sum of its undo operations if it fits `short`, but each operation
  is tested against the adjustment from before the array.
Trusted boundary: human-reviewed spec
Main exports: semStep, SemInvariant, semRun_settled, UndoExact, semRun_undo_exact
-/
import LinuxKernel.Library.Runs

namespace LinuxKernel.Ipc.Sem

open Function (update)

/-- `SEMVMX`, the semaphore maximum value. -/
def semvmx : Int := 32767

/-- `SEMAEM`, the adjust on exit maximum value. -/
def semaem : Int := semvmx

/-- `SEM_UNDO`. -/
def semUndo : BitVec 16 := 0x1000

/-- `IPC_NOWAIT`. -/
def ipcNowait : BitVec 16 := 0o4000

/-- `struct sembuf`. -/
structure Sembuf where
  semNum : Nat
  semOp : BitVec 16
  semFlg : BitVec 16
deriving DecidableEq, Repr

/-- `sop->sem_flg & SEM_UNDO`. -/
def Sembuf.undo (sop : Sembuf) : Bool := sop.semFlg &&& semUndo ≠ 0

/-- `sop->sem_flg & IPC_NOWAIT`. -/
def Sembuf.nowait (sop : Sembuf) : Bool := sop.semFlg &&& ipcNowait ≠ 0

/-- Error numbers of this file. -/
inductive Errno where
  | EAGAIN | ERANGE | EINVAL | EFBIG | EINTR
deriving DecidableEq, Repr

/-- The result of `try_atomic_semop`: 0, 1 or a negative error number. -/
inductive SemResult where
  | done
  | sleep
  | error (errno : Errno)
deriving DecidableEq, Repr

/-- `struct sem_queue`, one waiting operation; `undo` names the `struct sem_undo` of its process.
-/
structure SemQueue where
  sops : List Sembuf
  undo : Nat
  pid : Int
  alter : Bool
deriving DecidableEq, Repr

/-- `struct sem_array`. `semval` and `sempid` are the fields of `sem_base[]`; `semadj un` is the
array of the undo structure `un`, zero as long as there is none for this set. -/
structure SemArray where
  semNsems : Nat
  semval : Nat → Int
  sempid : Nat → Int
  semadj : Nat → Nat → BitVec 16
  semPending : List SemQueue

/-! ### `try_atomic_semop` -/

/-- `undo < (-SEMAEM - 1) || undo > SEMAEM` is false. -/
def InUndoRange (undo : Int) : Prop := -semaem - 1 ≤ undo ∧ undo ≤ semaem
deriving Decidable

/-- Where the first loop of `try_atomic_semop` leaves. -/
inductive LoopEnd where
  | finished
  | wouldBlock (sop : Sembuf)
  | outOfRange
deriving DecidableEq, Repr

/-- The first loop, over the operations that are left; `done` are those before `sop`, last one
first. -/
def semopLoop (un : Nat) : SemArray → List Sembuf → List Sembuf → LoopEnd × List Sembuf × SemArray
  | sma, done, [] => (.finished, done, sma)
  | sma, done, sop :: rest =>
    let result := sma.semval sop.semNum
    if sop.semOp = 0 ∧ result ≠ 0 then (.wouldBlock sop, done, sma)
    else
      let result := result + sop.semOp.toInt
      if result < 0 then (.wouldBlock sop, done, sma)
      else if result > semvmx then (.outOfRange, done, sma)
      else if sop.undo ∧ ¬ InUndoRange ((sma.semadj un sop.semNum).toInt - sop.semOp.toInt) then
        (.outOfRange, done, sma)
      else
        semopLoop un { sma with semval := update sma.semval sop.semNum result } (sop :: done) rest

/-- One round of the loop of a successful array: `sempid` and `semadj`. -/
def commitSop (un : Nat) (pid : Int) (sma : SemArray) (sop : Sembuf) : SemArray :=
  { sma with
    sempid := update sma.sempid sop.semNum pid
    semadj :=
      if sop.undo then
        update sma.semadj un (update (sma.semadj un) sop.semNum
          (sma.semadj un sop.semNum - sop.semOp))
      else sma.semadj }

variable (sma : SemArray) (sops : List Sembuf) (un : Nat) (pid : Int)

/-- One round of the loop behind the label `undo`. -/
def rollbackSop (sop : Sembuf) : SemArray :=
  { sma with semval := update sma.semval sop.semNum (sma.semval sop.semNum - sop.semOp.toInt) }

/-- `try_atomic_semop(sma, sops, nsops, un, pid)`. -/
def tryAtomicSemop : SemResult × SemArray :=
  match semopLoop un sma [] sops with
  | (.finished, done, sma) => (.done, done.foldl (commitSop un pid) sma)
  | (.outOfRange, done, sma) => (.error .ERANGE, done.foldl rollbackSop sma)
  | (.wouldBlock sop, done, sma) =>
    (if sop.nowait then .error .EAGAIN else .sleep, done.foldl rollbackSop sma)

/-! ### `update_queue` -/

/-- What becomes of an operation array: it is done or refused, or its task goes to sleep. -/
structure Event where
  undo : Nat
  sops : List Sembuf
  result : SemResult
deriving DecidableEq, Repr

/-- The scan of `update_queue` from one entry on, up to the end of the queue (`false`) or to the
restart from its head (`true`); `before` are the entries already passed. -/
def scanQueue : SemArray → List SemQueue → List SemQueue → Bool × SemArray × List Event
  | sma, before, [] => (false, { sma with semPending := before }, [])
  | sma, before, q :: rest =>
    match tryAtomicSemop sma q.sops q.undo q.pid with
    | (.sleep, sma) => scanQueue sma (before ++ [q]) rest
    | (error, sma) =>
      if q.alter then
        (true, { sma with semPending := before ++ rest }, [⟨q.undo, q.sops, error⟩])
      else
        let (again, sma, events) := scanQueue sma before rest
        (again, sma, ⟨q.undo, q.sops, error⟩ :: events)

/-- The scans of `update_queue`. Each restart has taken an entry off the queue, so a number of
rounds no smaller than the queue is enough: with none left the queue is empty. -/
def updateQueueLoop : Nat → SemArray → SemArray × List Event
  | 0, sma => (sma, [])
  | rounds + 1, sma =>
    match scanQueue sma [] sma.semPending with
    | (false, sma, events) => (sma, events)
    | (true, sma, events) =>
      let (sma, later) := updateQueueLoop rounds sma
      (sma, events ++ later)

/-- `update_queue(sma)`. -/
def updateQueue : SemArray × List Event :=
  updateQueueLoop sma.semPending.length sma

/-! ### Operations under the lock of the set -/

/-- The `alter` flag `semtimedop` computes. -/
def alters : Bool := sops.any fun sop => sop.semOp ≠ 0

/-- `semtimedop` from the check of `nsops` to its return or to the point where it sleeps. -/
def semtimedop : SemArray × List Event :=
  if sops = [] then (sma, [⟨un, sops, .error .EINVAL⟩])
  else if sops.any fun sop => sop.semNum ≥ sma.semNsems then (sma, [⟨un, sops, .error .EFBIG⟩])
  else
    let alter := alters sops
    match tryAtomicSemop sma sops un pid with
    | (.sleep, sma) =>
      let queue : SemQueue := ⟨sops, un, pid, alter⟩
      ({ sma with semPending :=
          if alter then sma.semPending ++ [queue] else queue :: sma.semPending },
        [⟨un, sops, .sleep⟩])
    | (error, sma) =>
      if alter ∧ error = .done then
        let (sma, events) := updateQueue sma
        (sma, ⟨un, sops, error⟩ :: events)
      else (sma, [⟨un, sops, error⟩])

/-- The end of `semtimedop` for the task of entry `i` that a signal or its timeout woke. -/
def interruptWait (i : Nat) : SemArray × List Event :=
  ({ sma with semPending := sma.semPending.eraseIdx i }, [])

/-- `semctl(SETVAL)`. -/
def semctlSetval (semnum : Nat) (val : Int) (pid : Int) : SemArray × List Event :=
  if semnum ≥ sma.semNsems then (sma, [])
  else if val > semvmx ∨ val < 0 then (sma, [])
  else
    updateQueue
      { sma with
        semadj := fun un => update (sma.semadj un) semnum 0
        semval := update sma.semval semnum val
        sempid := update sma.sempid semnum pid }

/-- `semctl(SETALL)`; `semIo` is the `ushort` array copied from the caller. -/
def semctlSetall (semIo : Nat → BitVec 16) : SemArray × List Event :=
  if (List.range sma.semNsems).any fun i => (semIo i).toNat > semvmx then (sma, [])
  else
    updateQueue
      { sma with
        semval := fun i => if i < sma.semNsems then (semIo i).toNat else sma.semval i
        semadj := fun un i => if i < sma.semNsems then 0 else sma.semadj un i }

/-- The adjustment of one semaphore in `exit_sem`: capped at 0 and at `SEMVMX`. -/
def adjustSemval (semval adj : Int) : Int :=
  let semval := semval + adj
  let semval := if semval < 0 then 0 else semval
  if semval > semvmx then semvmx else semval

/-- `exit_sem` for the undo structure `un` of this set. -/
def exitSem : SemArray × List Event :=
  let adjusted : Nat → Bool := fun i => i < sma.semNsems && sma.semadj un i ≠ 0
  updateQueue
    { sma with
      semval := fun i =>
        if adjusted i then adjustSemval (sma.semval i) (sma.semadj un i).toInt else sma.semval i
      sempid := fun i => if adjusted i then pid else sma.sempid i
      semadj := update sma.semadj un fun _ => 0 }

/-- The calls of a run. -/
inductive SemAction where
  | semop (sops : List Sembuf) (un : Nat) (pid : Int)
  | interrupt (i : Nat)
  | setval (semnum : Nat) (val : Int) (pid : Int)
  | setall (semIo : Nat → BitVec 16)
  | exit (un : Nat) (pid : Int)

/-- One call, from taking the lock to dropping it. -/
def semStep : SemAction → SemArray × List Event
  | .semop sops un pid => semtimedop sma sops un pid
  | .interrupt i => interruptWait sma i
  | .setval semnum val pid => semctlSetval sma semnum val pid
  | .setall semIo => semctlSetall sma semIo
  | .exit un pid => exitSem sma un pid

/-- A new set of `nsems` semaphores, cleared by `newary`. -/
def newary (nsems : Nat) : SemArray where
  semNsems := nsems
  semval := fun _ => 0
  sempid := fun _ => 0
  semadj := fun _ _ => 0
  semPending := []

open List Int Function

open Library (Run)

/-! ### Sums of operations -/

/-- What the array adds to semaphore `i`. -/
def opSum (sops : List Sembuf) (i : Nat) : Int :=
  (sops.map fun sop => if sop.semNum = i then sop.semOp.toInt else 0).sum

/-- What its operations with `SEM_UNDO` add to semaphore `i`. -/
def undoSum (sops : List Sembuf) (i : Nat) : Int :=
  (sops.map fun sop => if sop.semNum = i ∧ sop.undo then sop.semOp.toInt else 0).sum

theorem opSum_cons (sop : Sembuf) (sops : List Sembuf) (i : Nat) :
    opSum (sop :: sops) i = (if sop.semNum = i then sop.semOp.toInt else 0) + opSum sops i :=
  rfl

theorem opSum_reverse (sops : List Sembuf) (i : Nat) : opSum sops.reverse i = opSum sops i := by
  unfold opSum
  rw [map_reverse, sum_reverse]

theorem undoSum_cons (sop : Sembuf) (sops : List Sembuf) (i : Nat) :
    undoSum (sop :: sops) i =
      (if sop.semNum = i ∧ sop.undo then sop.semOp.toInt else 0) + undoSum sops i :=
  rfl

theorem undoSum_reverse (sops : List Sembuf) (i : Nat) : undoSum sops.reverse i = undoSum sops i := by
  unfold undoSum
  rw [map_reverse, sum_reverse]

variable {sops : List Sembuf} {sma sma' : SemArray} {un : Nat}

/-- An array without altering operation adds nothing. -/
theorem sums_of_not_alters (still : alters sops = false) (i : Nat) :
    opSum sops i = 0 ∧ undoSum sops i = 0 := by
  induction sops with
  | nil => exact ⟨rfl, rfl⟩
  | cons sop rest ih =>
    rw [alters, any_cons, Bool.or_eq_false_iff] at still
    have zero : sop.semOp.toInt = 0 := by
      have none := of_decide_eq_false still.1
      rw [not_ne_iff] at none
      rw [none]
      rfl
    obtain ⟨ops, undos⟩ := ih still.2
    rw [opSum_cons, undoSum_cons, ops, undos, zero]
    simp

/-! ### `try_atomic_semop` -/

/-- The set after some operations have been added to its values. -/
def SemArray.addOps (sma : SemArray) (sops : List Sembuf) : SemArray :=
  { sma with semval := fun i => sma.semval i + opSum sops i }

/-- An operation that is done is one less to do. -/
theorem update_add_opSum (semval : Nat → Int) (sop : Sembuf) (sops : List Sembuf) (i : Nat) :
    update semval sop.semNum (semval sop.semNum + sop.semOp.toInt) i + opSum sops i =
      semval i + opSum (sop :: sops) i := by
  by_cases here : i = sop.semNum
  · subst here
    rw [Function.update_self, opSum_cons, if_pos rfl, add_assoc]
  · rw [Function.update_of_ne here, opSum_cons, if_neg (Ne.symm here), zero_add]

theorem semopLoop_spec (un : Nat) : ∀ (sops done : List Sembuf) (sma : SemArray),
    ∃ ending taken, semopLoop un sma done sops = (ending, taken.reverse ++ done, sma.addOps taken) ∧
      (ending = .finished → taken = sops)
  | [], done, sma => by
      refine ⟨.finished, [], ?_, fun _ => rfl⟩
      simp [semopLoop, SemArray.addOps, opSum]
  | sop :: rest, done, sma => by
      have stopped : ∀ ending : LoopEnd, ending ≠ .finished → ∃ ending' taken,
          (ending, done, sma) = (ending', taken.reverse ++ done, sma.addOps taken) ∧
            (ending' = .finished → taken = sop :: rest) := by
        intro ending early
        refine ⟨ending, [], ?_, fun finished => absurd finished early⟩
        simp [SemArray.addOps, opSum]
      simp only [semopLoop]
      split_ifs
      iterate 4 exact stopped _ nofun
      · obtain ⟨ending, taken, looped, whole⟩ := semopLoop_spec un rest (sop :: done)
          { sma with semval := update sma.semval sop.semNum (sma.semval sop.semNum + sop.semOp.toInt) }
        refine ⟨ending, sop :: taken, ?_, fun finished => by rw [whole finished]⟩
        rw [looped]
        simp only [reverse_cons, append_assoc, SemArray.addOps]
        congr 3
        funext i
        exact update_add_opSum sma.semval sop taken i

/-- All values are legal. -/
def SemArray.Bounded (sma : SemArray) : Prop := ∀ i, 0 ≤ sma.semval i ∧ sma.semval i ≤ semvmx

theorem semopLoop_bounded (un : Nat) : ∀ (sops done : List Sembuf) (sma : SemArray),
    sma.Bounded → (semopLoop un sma done sops).2.2.Bounded
  | [], _, _, bounded => bounded
  | sop :: rest, done, sma, bounded => by
      simp only [semopLoop]
      split_ifs with _ negative large
      iterate 4 exact bounded
      · apply semopLoop_bounded un rest
        intro i
        by_cases here : i = sop.semNum
        · subst here
          simp only [update_self]
          omega
        · simp only [update_of_ne here]
          exact bounded i

/-- The loop sees the values and the adjustments of `un` only. -/
theorem semopLoop_congr (un : Nat) : ∀ (sops : List Sembuf) {done done' : List Sembuf}
    {sma sma' : SemArray}, sma'.semval = sma.semval → sma'.semadj un = sma.semadj un →
    (semopLoop un sma' done' sops).1 = (semopLoop un sma done sops).1
  | [], _, _, _, _, _, _ => rfl
  | sop :: rest, done, done', sma, sma', values, adjustments => by
      simp only [semopLoop, values, adjustments]
      split_ifs
      iterate 4 rfl
      · exact semopLoop_congr un rest rfl adjustments

theorem rollback_foldl : ∀ (sops : List Sembuf) (sma : SemArray), sops.foldl rollbackSop sma =
      { sma with semval := fun i => sma.semval i - opSum sops i }
  | [], sma => by simp [opSum]
  | sop :: rest, sma => by
      rw [foldl_cons, rollback_foldl rest, rollbackSop]
      dsimp only
      congr 1
      funext i
      by_cases here : i = sop.semNum
      · subst here
        rw [update_self, opSum_cons, if_pos rfl, sub_sub]
      · rw [update_of_ne here, opSum_cons, if_neg (Ne.symm here), zero_add]

/-- The loop of a successful array touches `sempid` and the adjustments of `un`. -/
theorem commit_foldl (un : Nat) (pid : Int) : ∀ (sops : List Sembuf) (sma : SemArray),
    ∃ sempid semadj, sops.foldl (commitSop un pid) sma =
        { sma with sempid, semadj } ∧
      ∀ u i, semadj u i = sma.semadj u i - BitVec.ofInt 16 (if u = un then undoSum sops i else 0)
  | [], sma => ⟨sma.sempid, sma.semadj, rfl, fun u i => by simp [undoSum]⟩
  | sop :: rest, sma => by
      obtain ⟨sempid, semadj, folded, exact⟩ := commit_foldl un pid rest (commitSop un pid sma sop)
      refine ⟨sempid, semadj, by rw [foldl_cons, folded]; rfl, ?_⟩
      intro u i
      have first : (commitSop un pid sma sop).semadj u i = sma.semadj u i -
          BitVec.ofInt 16 (if u = un ∧ sop.semNum = i ∧ sop.undo then sop.semOp.toInt else 0) := by
        by_cases undo : sop.undo = true
        · by_cases mine : u = un
          · subst mine
            by_cases here : i = sop.semNum
            · subst here
              simp [commitSop, undo]
            · simp [commitSop, undo, update_of_ne here, Ne.symm here]
          · simp [commitSop, undo, mine]
        · simp [commitSop, undo]
      rw [exact, first, sub_sub, ← BitVec.ofInt_add]
      by_cases mine : u = un
      · simp [mine, undoSum_cons]
      · simp [mine]

theorem tryAtomicSemop_result (sma : SemArray) (sops : List Sembuf) (un : Nat) (pid : Int) :
    (tryAtomicSemop sma sops un pid).1 =
      match (semopLoop un sma [] sops).1 with
      | .finished => .done
      | .outOfRange => .error .ERANGE
      | .wouldBlock sop => if sop.nowait then .error .EAGAIN else .sleep := by
  unfold tryAtomicSemop
  obtain ⟨ending, done, sma'⟩ := semopLoop un sma [] sops
  cases ending with
  | finished | wouldBlock sop | outOfRange => rfl

theorem tryAtomicSemop_done {pid : Int} (done : (tryAtomicSemop sma sops un pid).1 = .done) :
    (semopLoop un sma [] sops).1 = .finished := by
  rw [tryAtomicSemop_result] at done
  generalize (semopLoop un sma [] sops).1 = ending at done ⊢
  cases ending with
  | finished => rfl
  | wouldBlock sop =>
    dsimp only at done
    split_ifs at done
  | outOfRange => cases done

/-- What is left of a set after the whole array was applied for `un`. -/
structure Applied (sops : List Sembuf) (un : Nat) (sma sma' : SemArray) : Prop where
  semNsems : sma'.semNsems = sma.semNsems
  semPending : sma'.semPending = sma.semPending
  semval : ∀ i, sma'.semval i = sma.semval i + opSum sops i
  semadj : ∀ u i, sma'.semadj u i = sma.semadj u i -
    BitVec.ofInt 16 (if u = un then undoSum sops i else 0)

/-- An array is applied as a whole, or the set is as it was. -/
theorem tryAtomicSemop_cases (sma : SemArray) (sops : List Sembuf) (un : Nat) (pid : Int) :
    (∃ sma', tryAtomicSemop sma sops un pid = (.done, sma') ∧ Applied sops un sma sma') ∨
      ∃ result, result ≠ .done ∧ tryAtomicSemop sma sops un pid = (result, sma) := by
  obtain ⟨ending, taken, looped, whole⟩ := semopLoop_spec un sops [] sma
  have undone : (taken.reverse ++ []).foldl rollbackSop (sma.addOps taken) = sma := by
    rw [rollback_foldl]
    simp only [SemArray.addOps, append_nil, opSum_reverse, Int.add_sub_cancel]
  unfold tryAtomicSemop
  rw [looped]
  cases ending with
  | finished =>
    rw [whole rfl]
    obtain ⟨sempid, semadj, committed, adjusted⟩ :=
      commit_foldl un pid (sops.reverse ++ []) (sma.addOps sops)
    refine .inl ⟨_, rfl, ?_⟩
    rw [committed]
    refine ⟨rfl, rfl, fun _ => rfl, fun u i => ?_⟩
    rw [append_nil] at adjusted
    simpa only [undoSum_reverse, SemArray.addOps] using adjusted u i
  | wouldBlock sop =>
    refine .inr ⟨_, ?_, congrArg (Prod.mk _) undone⟩
    split_ifs <;> exact nofun
  | outOfRange => exact .inr ⟨.error .ERANGE, nofun, congrArg (Prod.mk _) undone⟩

theorem tryAtomicSemop_bounded (bounded : sma.Bounded) (sops : List Sembuf) (un : Nat) (pid : Int) :
    (tryAtomicSemop sma sops un pid).2.Bounded := by
  have looped := semopLoop_bounded un sops [] sma bounded
  rcases tryAtomicSemop_cases sma sops un pid with ⟨sma', done, applied⟩ | ⟨result, -, failed⟩
  · obtain ⟨ending, taken, ran, whole⟩ := semopLoop_spec un sops [] sma
    have finished := tryAtomicSemop_done (congrArg Prod.fst done)
    rw [ran] at finished looped
    rw [whole finished] at looped
    rw [done]
    intro i
    rw [applied.semval]
    exact looped i
  · rw [failed]
    exact bounded

/-! ### Sleeping entries -/

/-- `try_atomic_semop` would return 1. -/
def Sleeps (sma : SemArray) (q : SemQueue) : Prop :=
  (tryAtomicSemop sma q.sops q.undo q.pid).1 = .sleep

theorem Sleeps.congr {q : SemQueue} (sleeps : Sleeps sma q) (values : sma'.semval = sma.semval)
    (adjustments : sma'.semadj = sma.semadj) :
    Sleeps sma' q := by
  unfold Sleeps at sleeps ⊢
  rw [tryAtomicSemop_result] at sleeps ⊢
  rw [semopLoop_congr q.undo q.sops values (by rw [adjustments])]
  exact sleeps

/-- The flag of an entry is the one `semtimedop` computed. -/
def Marked (q : SemQueue) : Prop := q.alter = alters q.sops

/-- A completed array that alters nothing leaves the results of all others as they were. -/
theorem Applied.still (applied : Applied sops un sma sma') (still : alters sops = false) :
    sma'.semval = sma.semval ∧ sma'.semadj = sma.semadj := by
  constructor
  · funext i
    rw [applied.semval, (sums_of_not_alters still i).1, add_zero]
  · funext u i
    rw [applied.semadj, (sums_of_not_alters still i).2]
    simp

/-! ### Values against completed arrays -/

/-- What the completed arrays add to semaphore `i`. -/
def appliedOps (events : List Event) (i : Nat) : Int :=
  (events.map fun event => if event.result = .done then opSum event.sops i else 0).sum

/-- What the completed arrays of `un` add to semaphore `i` with `SEM_UNDO`. -/
def appliedUndo (events : List Event) (un i : Nat) : Int :=
  (events.map fun event =>
    if event.result = .done ∧ un = event.undo then undoSum event.sops i else 0).sum

/-- The values and adjustments changed by the arrays reported as done, and by nothing else. -/
structure Accounts (sma : SemArray) (events : List Event) (sma' : SemArray) : Prop where
  semval : ∀ i, sma'.semval i = sma.semval i + appliedOps events i
  semadj : ∀ un i, sma'.semadj un i = sma.semadj un i - BitVec.ofInt 16 (appliedUndo events un i)

theorem appliedUndo_append (first second : List Event) (un i : Nat) :
    appliedUndo (first ++ second) un i = appliedUndo first un i + appliedUndo second un i := by
  unfold appliedUndo
  rw [map_append, sum_append]

theorem Accounts.trans {sma'' : SemArray} {first second : List Event}
    (before : Accounts sma first sma') (after : Accounts sma' second sma'') :
    Accounts sma (first ++ second) sma'' := by
  constructor
  · intro i
    rw [after.semval, before.semval, appliedOps, appliedOps, appliedOps, map_append,
      sum_append, add_assoc]
  · intro un i
    rw [after.semadj, before.semadj, appliedUndo_append, BitVec.ofInt_add, sub_sub]

theorem Accounts.nothing (values : sma'.semval = sma.semval)
    (adjustments : sma'.semadj = sma.semadj) : Accounts sma [] sma' :=
  ⟨fun i => by rw [values]; exact (add_zero _).symm,
    fun un i => by rw [adjustments]; simp [appliedUndo]⟩

/-- An array that failed or has to sleep reports no change. -/
theorem Accounts.failed {sma sma' : SemArray} {sops : List Sembuf} {un : Nat}
    {result : SemResult} (notDone : result ≠ .done) (values : sma'.semval = sma.semval)
    (adjustments : sma'.semadj = sma.semadj) : Accounts sma [⟨un, sops, result⟩] sma' := by
  constructor
  · intro i
    simp [appliedOps, notDone, values]
  · intro u i
    simp [appliedUndo, notDone, adjustments]

theorem Applied.accounts (applied : Applied sops un sma sma') : Accounts sma [⟨un, sops, .done⟩] sma' := by
  constructor
  · intro i
    simpa [appliedOps] using applied.semval i
  · intro u i
    simpa [appliedUndo] using applied.semadj u i

/-! ### `update_queue` -/

/-- What every state between two calls satisfies, the queue apart. -/
structure QueueReady (sma : SemArray) (queue : List SemQueue) : Prop where
  bounded : sma.Bounded
  marked : ∀ q ∈ queue, Marked q

/-- One scan: it ends with a restart after taking an entry off the queue, or at the end of a queue
of sleeping entries. -/
structure Scanned (sma : SemArray) (entries : Nat) (result : Bool × SemArray × List Event) : Prop where
  ready : QueueReady result.2.1 result.2.1.semPending
  accounts : Accounts sma result.2.2 result.2.1
  shorter : result.1 = true → result.2.1.semPending.length < entries
  settled : result.1 = false → ∀ q ∈ result.2.1.semPending, Sleeps result.2.1 q

/-- The induction is on the entries still to be visited, with the ones already passed known to sleep
in the present state. -/
theorem scanQueue_spec : ∀ (after : List SemQueue) {sma : SemArray} {before : List SemQueue},
    QueueReady sma (before ++ after) → (∀ q ∈ before, Sleeps sma q) →
    Scanned sma (before.length + after.length) (scanQueue sma before after)
  | [], sma, before, ready, sleeping => by
      rw [append_nil] at ready
      refine ⟨⟨ready.bounded, ready.marked⟩, .nothing rfl rfl, nofun, ?_⟩
      intro _ q mem
      exact (sleeping q mem).congr rfl rfl
  | q :: rest, sma, before, ready, sleeping => by
      have markedQ : Marked q := ready.marked q (by simp)
      have markedRest : ∀ p ∈ before ++ rest, Marked p := by
        intro p mem
        apply ready.marked
        rcases mem_append.mp mem with first | last
        · exact mem_append_left _ first
        · exact mem_append_right _ (mem_cons_of_mem _ last)
      -- an entry that completes, with or without an error
      have completes (result : SemResult) (sma' : SemArray) (bounded : sma'.Bounded)
          (accounts : Accounts sma [⟨q.undo, q.sops, result⟩] sma')
          (still : q.alter = false → sma'.semval = sma.semval ∧ sma'.semadj = sma.semadj) :
          Scanned sma (before.length + (q :: rest).length) (if q.alter then
              (true, { sma' with semPending := before ++ rest }, [⟨q.undo, q.sops, result⟩])
            else
              let (again, sma'', events) := scanQueue sma' before rest
              (again, sma'', ⟨q.undo, q.sops, result⟩ :: events)) := by
        split_ifs with alter
        · exact ⟨⟨bounded, markedRest⟩, ⟨accounts.semval, accounts.semadj⟩, fun _ => by simp, nofun⟩
        · obtain ⟨values, adjustments⟩ := still (Bool.eq_false_iff.mpr alter)
          have scanned := scanQueue_spec rest ⟨bounded, markedRest⟩
            fun p mem => (sleeping p mem).congr values adjustments
          refine ⟨scanned.ready, accounts.trans scanned.accounts, fun restart => ?_, scanned.settled⟩
          have less := scanned.shorter restart
          rw [length_cons]
          exact Nat.lt_succ_of_lt less
      have bounded' := tryAtomicSemop_bounded ready.bounded q.sops q.undo q.pid
      rw [scanQueue]
      rcases tryAtomicSemop_cases sma q.sops q.undo q.pid with
        ⟨sma', done, applied⟩ | ⟨result, notDone, failed⟩
      · rw [done] at bounded' ⊢
        exact completes .done sma' bounded' applied.accounts
          (fun still => applied.still (markedQ.symm.trans still))
      · rw [failed] at bounded' ⊢
        cases result with
        | done => exact absurd rfl notDone
        | error errno =>
          exact completes (.error errno) sma bounded' (.failed notDone rfl rfl)
            (fun _ => ⟨rfl, rfl⟩)
        | sleep =>
          have scanned := @scanQueue_spec rest sma (before ++ [q])
            ⟨ready.bounded, by simpa using ready.marked⟩
            (forall_mem_append.mpr ⟨sleeping, forall_mem_singleton.mpr (congrArg Prod.fst failed)⟩)
          rwa [length_append, length_singleton, Nat.add_assoc, Nat.add_comm 1] at scanned

/-- What a set satisfies whenever nobody holds its lock. -/
structure SemInvariant (sma : SemArray) : Prop where
  bounded : sma.Bounded
  marked : ∀ q ∈ sma.semPending, Marked q
  settled : ∀ q ∈ sma.semPending, Sleeps sma q

/-- A call keeps the invariant, and reports what it changes. -/
structure Settles (sma : SemArray) (result : SemArray × List Event) : Prop where
  invariant : SemInvariant result.1
  accounts : Accounts sma result.2 result.1

theorem updateQueueLoop_spec : ∀ (rounds : Nat) {sma : SemArray},
    sma.semPending.length ≤ rounds → QueueReady sma sma.semPending → Settles sma (updateQueueLoop rounds sma)
  | 0, sma, enough, ready => by
      -- no round is left, but the queue is empty
      have empty : sma.semPending = [] := length_eq_zero_iff.mp (Nat.le_zero.mp enough)
      refine ⟨⟨ready.bounded, ready.marked, ?_⟩, .nothing rfl rfl⟩
      rw [updateQueueLoop, empty]
      exact nofun
  | rounds + 1, sma, enough, ready => by
      have scanned := @scanQueue_spec sma.semPending _ [] ready nofun
      rw [updateQueueLoop]
      generalize scanQueue sma [] sma.semPending = result at scanned
      obtain ⟨again, sma', events⟩ := result
      obtain ⟨ready', accounts, shorter, settled⟩ := scanned
      cases again with
      | false => exact ⟨⟨ready'.bounded, ready'.marked, settled rfl⟩, accounts⟩
      | true =>
        have less := shorter rfl
        rw [length_nil] at less
        have later := updateQueueLoop_spec rounds (by omega) ready'
        exact ⟨later.invariant, accounts.trans later.accounts⟩

/-- `update_queue` leaves only entries that have to sleep. -/
theorem updateQueue_spec (ready : QueueReady sma sma.semPending) : Settles sma (updateQueue sma) :=
  updateQueueLoop_spec _ (Nat.le_refl _) ready

/-! ### Calls and runs -/

/-- The invariant survives a change of the queue alone that adds no entry but sleeping ones. -/
theorem SemInvariant.requeue {queue : List SemQueue} (inv : SemInvariant sma)
    (entries : ∀ q ∈ queue, q ∈ sma.semPending ∨ Marked q ∧ Sleeps sma q) :
    SemInvariant { sma with semPending := queue } := by
  have both (q : SemQueue) (mem : q ∈ queue) : Marked q ∧ Sleeps sma q :=
    (entries q mem).elim (fun old => ⟨inv.marked q old, inv.settled q old⟩) id
  exact ⟨inv.bounded, fun q mem => (both q mem).1, fun q mem => (both q mem).2.congr rfl rfl⟩

theorem semtimedop_spec (inv : SemInvariant sma) (sops : List Sembuf) (un : Nat) (pid : Int) :
    Settles sma (semtimedop sma sops un pid) := by
  unfold semtimedop
  split_ifs
  · exact ⟨inv, .failed nofun rfl rfl⟩
  · exact ⟨inv, .failed nofun rfl rfl⟩
  have bounded' := tryAtomicSemop_bounded inv.bounded sops un pid
  rcases tryAtomicSemop_cases sma sops un pid with
    ⟨sma', done, applied⟩ | ⟨result, notDone, failed⟩
  · rw [done] at bounded' ⊢
    dsimp only
    by_cases alter : alters sops = true
    · have ready : QueueReady sma' sma'.semPending :=
        ⟨bounded', by rw [applied.semPending]; exact inv.marked⟩
      have updated := updateQueue_spec ready
      rw [if_pos ⟨alter, rfl⟩]
      exact ⟨updated.invariant, applied.accounts.trans updated.accounts⟩
    · rw [if_neg (fun both => alter both.1)]
      obtain ⟨values, adjustments⟩ := applied.still (Bool.eq_false_iff.mpr alter)
      refine ⟨⟨bounded', ?_, ?_⟩, applied.accounts⟩ <;> dsimp only <;> rw [applied.semPending]
      · exact inv.marked
      · exact fun q mem => (inv.settled q mem).congr values adjustments
  · rw [failed]
    cases result with
    | done => exact absurd rfl notDone
    | error errno =>
      dsimp only
      rw [if_neg (fun both => notDone both.2)]
      exact ⟨inv, .failed notDone rfl rfl⟩
    | sleep =>
      refine ⟨inv.requeue ?_, .failed notDone rfl rfl⟩
      have new : Marked ⟨sops, un, pid, alters sops⟩ ∧
          Sleeps sma ⟨sops, un, pid, alters sops⟩ := ⟨rfl, congrArg Prod.fst failed⟩
      intro q mem
      split_ifs at mem
      · rcases mem_append.mp mem with old | last
        · exact .inl old
        · rw [mem_singleton.mp last]
          exact .inr new
      · rcases mem_cons.mp mem with rfl | old
        · exact .inr new
        · exact .inl old

theorem adjustSemval_bounded (semval adj : Int) :
    0 ≤ adjustSemval semval adj ∧ adjustSemval semval adj ≤ semvmx := by
  unfold adjustSemval semvmx
  dsimp only
  split_ifs <;> omega

/-- The exit of a process adjusts the values in range and forgets its own adjustments only. -/
theorem exitSem_spec (inv : SemInvariant sma) (un : Nat) (pid : Int) :
    SemInvariant (exitSem sma un pid).1 ∧ ∀ other i, other ≠ un → (exitSem sma un pid).1.semadj other i =
      sma.semadj other i - BitVec.ofInt 16 (appliedUndo (exitSem sma un pid).2 other i) := by
  unfold exitSem
  extract_lets adjusted
  -- `update_queue` starts from this set
  generalize changedEq : SemArray.mk _ _ _ _ _ = changed
  have ready : QueueReady changed changed.semPending := by
    subst changedEq
    refine ⟨fun i => ?_, inv.marked⟩
    dsimp only
    split_ifs
    · exact adjustSemval_bounded _ _
    · exact inv.bounded i
  have updated := updateQueue_spec ready
  refine ⟨updated.invariant, fun other i ne => ?_⟩
  rw [updated.accounts.semadj, ← changedEq]
  dsimp only
  rw [update_of_ne ne]

/-- Every call keeps the invariant. -/
theorem semStep_keeps {action : SemAction} {events : List Event} (inv : SemInvariant sma)
    (taken : semStep sma action = (sma', events)) :
    SemInvariant sma' := by
  -- the calls that change values directly end with `update_queue`
  have updated {changed : SemArray} (pending : changed.semPending = sma.semPending)
    (bounded : changed.Bounded) :
      SemInvariant (updateQueue changed).1 :=
    (updateQueue_spec ⟨bounded, by rw [pending]; exact inv.marked⟩).invariant
  obtain rfl : (semStep sma action).1 = sma' := congrArg Prod.fst taken
  cases action with
  | semop sops un pid => exact (semtimedop_spec inv sops un pid).invariant
  | interrupt i => exact inv.requeue fun q mem => .inl (mem_of_mem_eraseIdx mem)
  | setval semnum val pid =>
    simp only [semStep, semctlSetval]
    split_ifs with outside illegal
    · exact inv
    · exact inv
    · refine updated rfl fun i => ?_
      by_cases here : i = semnum
      · subst here
        simp only [update_self]
        omega
      · simp only [update_of_ne here]
        exact inv.bounded i
  | setall semIo =>
    simp only [semStep, semctlSetall]
    split_ifs with illegal
    · exact inv
    · refine updated rfl fun i => ?_
      dsimp only
      split_ifs with inside
      · refine ⟨natCast_nonneg _, ?_⟩
        by_contra large
        refine illegal (any_eq_true.mpr ⟨i, mem_range.mpr inside, ?_⟩)
        exact decide_eq_true (not_le.mp large)
      · exact inv.bounded i
  | exit un pid => exact (exitSem_spec inv un pid).1

/-- Runs of calls on one set. -/
abbrev SemRun : SemArray → List SemAction → List Event → SemArray → Prop :=
  Run fun sma action events sma' => semStep sma action = (sma', events)

theorem semInvariant_newary (nsems : Nat) : SemInvariant (newary nsems) :=
  ⟨fun _ => ⟨le_refl 0, (by decide : 0 ≤ semvmx)⟩, nofun, nofun⟩

/-- System V semaphore sets. After every run of calls on a new set, every value is in
`0 .. SEMVMX`, and no waiting operation could go on: `try_atomic_semop` returns 1 for each entry of
`sem_pending`. Arrays are applied entirely or not at all: any array tried in that state is done and
adds its operations to the values, or leaves the set as it was; and a `semop` call changes the
values by exactly the arrays it reports as done, its own and those it woke. -/
theorem semRun_settled (nsems : Nat) (actions : List SemAction) (trace : List Event)
    (sma : SemArray) (run : SemRun (newary nsems) actions trace sma) :
    (∀ i, 0 ≤ sma.semval i ∧ sma.semval i ≤ semvmx) ∧
    (∀ q ∈ sma.semPending, (tryAtomicSemop sma q.sops q.undo q.pid).1 = .sleep) ∧
    (∀ sops un pid, ((tryAtomicSemop sma sops un pid).1 = .done ∧
        ∀ i, (tryAtomicSemop sma sops un pid).2.semval i = sma.semval i + opSum sops i) ∨
      ((tryAtomicSemop sma sops un pid).1 ≠ .done ∧ (tryAtomicSemop sma sops un pid).2 = sma)) ∧
    (∀ sops un pid i, (semtimedop sma sops un pid).1.semval i =
      sma.semval i + appliedOps (semtimedop sma sops un pid).2 i) := by
  have inv : SemInvariant sma := run.invariant (semInvariant_newary nsems) semStep_keeps
  refine ⟨inv.bounded, inv.settled, ?_, ?_⟩
  · intro sops un pid
    rcases tryAtomicSemop_cases sma sops un pid with
      ⟨sma', done, applied⟩ | ⟨result, notDone, failed⟩
    · rw [done]
      exact .inl ⟨rfl, applied.semval⟩
    · rw [failed]
      exact .inr ⟨notDone, rfl⟩
  · intro sops un pid i
    exact (semtimedop_spec inv sops un pid).accounts.semval i

/-- Two tasks wait for a decrement, a third increments: one waiter is served, one goes on
sleeping. -/
theorem semRun_settled_one_served :
    ∃ trace sma, SemRun (newary 1)
      [.semop [⟨0, -1, 0⟩] 0 1, .semop [⟨0, -1, 0⟩] 0 2, .semop [⟨0, 1, 0⟩] 0 3] trace sma ∧
      sma.semPending = [⟨[⟨0, -1, 0⟩], 0, 2, true⟩] ∧
      ∀ q ∈ sma.semPending, (tryAtomicSemop sma q.sops q.undo q.pid).1 = .sleep := by
  have run : SemRun (newary 1)
      [.semop [⟨0, -1, 0⟩] 0 1, .semop [⟨0, -1, 0⟩] 0 2, .semop [⟨0, 1, 0⟩] 0 3] _ _ :=
    .cons rfl <| .cons rfl <| .cons rfl .nil
  exact ⟨_, _, run, rfl, (semRun_settled 1 _ _ _ run).2.1⟩

open BitVec

/-! ### A `short` -/

theorem inUndoRange_toInt (adj : BitVec 16) : InUndoRange adj.toInt := by
  have low := le_two_mul_toInt (x := adj)
  have high := two_mul_toInt_lt (x := adj)
  unfold InUndoRange semaem semvmx
  omega

theorem toInt_ofInt_iff (value : Int) : (BitVec.ofInt 16 value).toInt = value ↔ InUndoRange value := by
  constructor
  · intro exact
    rw [← exact]
    exact inUndoRange_toInt _
  · intro range
    unfold InUndoRange semaem semvmx at range
    rw [toInt_ofInt, Int.bmod_eq_of_le]
    · omega
    · omega

theorem ofInt_sub (first second : Int) :
    BitVec.ofInt 16 (first - second) = BitVec.ofInt 16 first - BitVec.ofInt 16 second := by
  rw [Int.sub_eq_add_neg, ofInt_add, ofInt_neg, sub_eq_add_neg]

/-- Subtracting from a `short` is exact iff the difference is one. -/
theorem toInt_sub_ofInt_iff (adj : BitVec 16) (value : Int) :
    (adj - BitVec.ofInt 16 value).toInt = adj.toInt - value ↔ InUndoRange (adj.toInt - value) := by
  rw [← toInt_ofInt_iff, ofInt_sub, BitVec.ofInt_toInt]

/-! ### One array -/

/-- The values allow the operations one after the other: each finds zero where it waits for it, and leaves its
semaphore in `0 .. SEMVMX`. -/
def ValuesAllow (semval : Nat → Int) (sops : List Sembuf) : Prop :=
  ∀ before sop after, sops = before ++ sop :: after →
    let value := semval sop.semNum + opSum before sop.semNum
    (sop.semOp = 0 → value = 0) ∧ 0 ≤ value + sop.semOp.toInt ∧ value + sop.semOp.toInt ≤ semvmx

/-- Each operation with `SEM_UNDO`, taken alone, leaves the adjustment in range. -/
def EachInRange (semadj : Nat → BitVec 16) (sops : List Sembuf) : Prop :=
  ∀ sop ∈ sops, sop.undo → InUndoRange ((semadj sop.semNum).toInt - sop.semOp.toInt)

/-- What undo accounting asks of an array: done, it moves each adjustment by its sum, as an
integer in range; and if its sums leave the range while the values allow it, it is refused
with `-ERANGE` and changes nothing. -/
structure UndoExact (sma : SemArray) (sops : List Sembuf) (un : Nat) (pid : Int) : Prop where
  accepted : (tryAtomicSemop sma sops un pid).1 = .done → ∀ i,
    ((tryAtomicSemop sma sops un pid).2.semadj un i).toInt =
        (sma.semadj un i).toInt - undoSum sops i ∧
      InUndoRange ((sma.semadj un i).toInt - undoSum sops i)
  refused : (∃ i, ¬ InUndoRange ((sma.semadj un i).toInt - undoSum sops i)) →
    ValuesAllow sma.semval sops → tryAtomicSemop sma sops un pid = (.error .ERANGE, sma)

theorem valuesAllow_cons {semval : Nat → Int} {sop : Sembuf} : ValuesAllow semval (sop :: sops) ↔
    ((sop.semOp = 0 → semval sop.semNum = 0) ∧ 0 ≤ semval sop.semNum + sop.semOp.toInt ∧
      semval sop.semNum + sop.semOp.toInt ≤ semvmx) ∧
    ValuesAllow (update semval sop.semNum (semval sop.semNum + sop.semOp.toInt)) sops := by
  constructor
  · intro allow
    refine ⟨by simpa [opSum] using allow [] sop sops rfl, fun before other after same => ?_⟩
    simp only [update_add_opSum]
    exact allow (sop :: before) other after (congrArg (sop :: ·) same)
  · rintro ⟨first, rest⟩ (_ | ⟨head, before⟩) other after same
    · cases same
      simpa [opSum] using first
    · obtain ⟨rfl, tail⟩ := List.cons.inj same
      simpa only [update_add_opSum] using rest before other after tail

/-- Operations that the values allow are stopped by the undo range only. -/
theorem semopLoop_of_valuesAllow (un : Nat) : ∀ (sops done : List Sembuf) (sma : SemArray),
    ValuesAllow sma.semval sops → (semopLoop un sma done sops).1 = .finished ∨
      (semopLoop un sma done sops).1 = .outOfRange ∧ ¬ EachInRange (sma.semadj un) sops
  | [], _, _, _ => .inl rfl
  | sop :: rest, done, sma, allow => by
      obtain ⟨⟨zero, low, high⟩, later⟩ := valuesAllow_cons.mp allow
      rw [semopLoop, if_neg fun waits => waits.2 (zero waits.1), if_neg (Int.not_lt.mpr low),
        if_neg (Int.not_lt.mpr high)]
      split_ifs with outside
      · exact .inr ⟨rfl, fun each => outside.2 (each sop mem_cons_self outside.1)⟩
      · refine (semopLoop_of_valuesAllow un rest _ _ later).imp_right fun stopped =>
          ⟨stopped.1, fun each => ?_⟩
        exact stopped.2 fun other mem => each other (mem_cons_of_mem _ mem)

theorem semopLoop_finished (un : Nat) : ∀ (sops done : List Sembuf) (sma : SemArray),
    (semopLoop un sma done sops).1 = .finished → ValuesAllow sma.semval sops ∧
      EachInRange (sma.semadj un) sops
  | [], _, _, _ => ⟨fun before sop after same => absurd same (by simp), nofun⟩
  | sop :: rest, done, sma, finished => by
      simp only [semopLoop] at finished
      split_ifs at finished with waits low high outside
      obtain ⟨allow, each⟩ := semopLoop_finished un rest _ _ finished
      refine ⟨valuesAllow_cons.mpr ⟨⟨fun zero => ?_, Int.not_lt.mp low, Int.not_lt.mp high⟩, allow⟩,
        forall_mem_cons.mpr ⟨fun undo => ?_, each⟩⟩
      · exact not_not.mp fun nonzero => waits ⟨zero, nonzero⟩
      · exact not_not.mp fun range => outside ⟨undo, range⟩

theorem tryAtomicSemop_done_iff (sma : SemArray) (sops : List Sembuf) (un : Nat) (pid : Int) :
    (tryAtomicSemop sma sops un pid).1 = .done ↔ ValuesAllow sma.semval sops ∧
      EachInRange (sma.semadj un) sops := by
  refine ⟨fun done => semopLoop_finished un sops [] sma (tryAtomicSemop_done done), fun fits => ?_⟩
  have finished := (semopLoop_of_valuesAllow un sops [] sma fits.1).resolve_right fun stopped =>
    stopped.2 fits.2
  rw [tryAtomicSemop_result, finished]

/-- The accounting is exact for an array iff its sums fit whenever the values allow it and each operation
fits alone. -/
theorem tryAtomicSemop_undoExact_iff (sma : SemArray) (sops : List Sembuf) (un : Nat) (pid : Int) :
    UndoExact sma sops un pid ↔ (ValuesAllow sma.semval sops → EachInRange (sma.semadj un) sops →
      ∀ i, InUndoRange ((sma.semadj un i).toInt - undoSum sops i)) := by
  have done := tryAtomicSemop_done_iff sma sops un pid
  constructor
  · intro exact allow each i
    exact (exact.accepted (done.mpr ⟨allow, each⟩) i).2
  · intro fits
    rcases tryAtomicSemop_cases sma sops un pid with ⟨sma', ran, applied⟩ | ⟨result, no, ran⟩
    · rw [ran] at done
      obtain ⟨allow, each⟩ := done.mp rfl
      refine ⟨fun _ i => ⟨?_, fits allow each i⟩, fun ⟨i, outside⟩ _ => absurd (fits allow each i) outside⟩
      rw [ran, applied.semadj, if_pos rfl]
      exact (toInt_sub_ofInt_iff _ _).mpr (fits allow each i)
    · refine ⟨fun accepted => absurd (by rwa [ran] at accepted) no, fun _ allow => ?_⟩
      have own := tryAtomicSemop_result sma sops un pid
      rw [ran] at own ⊢
      rcases semopLoop_of_valuesAllow un sops [] sma allow with finished | ⟨stopped, -⟩
      · rw [finished] at own
        exact absurd own no
      · rw [stopped] at own
        exact congrArg (·, sma) own

/-! ### Runs -/

/-- Calls that leave the accounting of `un` alone: no `SETVAL`, no `SETALL`, and the process has
not exited. -/
def Quiet (un : Nat) : SemAction → Prop
  | .semop _ _ _ | .interrupt _ => True
  | .setval _ _ _ | .setall _ => False
  | .exit other _ => un ≠ other

theorem semStep_semadj {sma sma' : SemArray} {action : SemAction} {events : List Event}
    {un : Nat} (quiet : Quiet un action) (inv : SemInvariant sma)
    (taken : semStep sma action = (sma', events)) (i : Nat) :
    sma'.semadj un i = sma.semadj un i - BitVec.ofInt 16 (appliedUndo events un i) := by
  obtain ⟨rfl, rfl⟩ := Prod.ext_iff.mp taken
  cases action with
  | semop sops other pid => exact (semtimedop_spec inv sops other pid).accounts.semadj un i
  | interrupt key => simp [semStep, interruptWait, appliedUndo]
  | setval semnum val pid => exact quiet.elim
  | setall semIo => exact quiet.elim
  | exit other pid => exact (exitSem_spec inv other pid).2 un i quiet

/-- The adjustments of `un` are minus its completed sums, modulo 2^16. -/
structure UndoSums (un : Nat) (trace : List Event) (sma : SemArray) : Prop where
  invariant : SemInvariant sma
  sums : ∀ i, sma.semadj un i = BitVec.ofInt 16 (-appliedUndo trace un i)

theorem undoSums_of_run {nsems un : Nat} {actions : List SemAction} {trace : List Event}
    {sma : SemArray} (run : SemRun (newary nsems) actions trace sma)
    (quiet : ∀ action ∈ actions, Quiet un action) : UndoSums un trace sma := by
  apply run.invariant_of_actions quiet
  · exact ⟨semInvariant_newary nsems, fun i => rfl⟩
  · intro before after action past events allowed known taken
    refine ⟨semStep_keeps known.invariant taken, fun i => ?_⟩
    rw [semStep_semadj allowed known.invariant taken, known.sums, ← ofInt_sub, appliedUndo_append]
    congr 1
    omega

/-- Undo accounting over runs. In every run on a new set without `SETVAL`, `SETALL` and exit of
the process `un`, its adjustment of a semaphore is minus the sum of the undo operations it has
completed exactly when that integer is in range; and the next array keeps the accounting exact
exactly when, if the values allow it and each of its operations fits alone, its sums fit. -/
theorem semRun_undo_exact (nsems un : Nat) (actions : List SemAction) (trace : List Event)
    (sma : SemArray) (run : SemRun (newary nsems) actions trace sma)
    (quiet : ∀ action ∈ actions, Quiet un action) :
    (∀ i, (sma.semadj un i).toInt = -appliedUndo trace un i ↔
      InUndoRange (-appliedUndo trace un i)) ∧
    (∀ sops pid, UndoExact sma sops un pid ↔ (ValuesAllow sma.semval sops → EachInRange (sma.semadj un) sops →
      ∀ i, InUndoRange ((sma.semadj un i).toInt - undoSum sops i))) := by
  refine ⟨fun i => ?_, fun sops pid => tryAtomicSemop_undoExact_iff sma sops un pid⟩
  rw [(undoSums_of_run run quiet).sums i]
  exact toInt_ofInt_iff _

/-- Twice up by 3 with `SEM_UNDO`. -/
theorem semRun_undo_exact_twice :
    ∃ trace sma, SemRun (newary 1) [.semop [⟨0, 3, semUndo⟩] 0 1, .semop [⟨0, 3, semUndo⟩] 0 1]
        trace sma ∧
      appliedUndo trace 0 0 = 6 ∧ (sma.semadj 0 0).toInt = -appliedUndo trace 0 0 := by
  have run : SemRun (newary 1)
      [.semop [⟨0, 3, semUndo⟩] 0 1, .semop [⟨0, 3, semUndo⟩] 0 1] _ _ := .cons rfl (.cons rfl .nil)
  refine ⟨_, _, run, by rfl, ((semRun_undo_exact 1 0 _ _ _ run ?_).1 0).mpr (by decide)⟩
  exact List.forall_mem_cons.mpr ⟨trivial, List.forall_mem_singleton.mpr trivial⟩

/-- Up by 20000 with `SEM_UNDO`, down by 20000 without, up by 20000 with it again. -/
def wrappingArray : List Sembuf := [⟨0, 20000, semUndo⟩, ⟨0, -20000, 0⟩, ⟨0, 20000, semUndo⟩]

/-- The array is done on a new set, and the adjustment wraps: 25536 and not -40000. -/
theorem tryAtomicSemop_undo_wraps :
    (tryAtomicSemop (newary 1) wrappingArray 0 1).1 = .done ∧
      ((tryAtomicSemop (newary 1) wrappingArray 0 1).2.semadj 0 0).toInt = 25536 ∧
      ((newary 1).semadj 0 0).toInt - undoSum wrappingArray 0 = -40000 := by
  decide

end LinuxKernel.Ipc.Sem
