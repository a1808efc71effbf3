/-
Module: LinuxKernel.Lib.Rwsem
Purpose: The read/write semaphores of `lib/rwsem-spinlock.c`. Each function runs under `wait_lock`, hence is
  one step. Beside the semaphore the system keeps who holds it: a waiter holds it from the moment its `task`
  is set to null.
Trusted boundary: human-reviewed spec
Main exports: step, RwsemStep, Sound, rwsem_correct
-/
import LinuxKernel.Library.Runs

namespace LinuxKernel.Lib.Rwsem

variable {Task : Type*}

/-- `RWSEM_WAITING_FOR_READ` and `RWSEM_WAITING_FOR_WRITE`. -/
inductive Kind where
  | read
  | write
deriving DecidableEq, Repr

/-- `struct rwsem_waiter` -/
structure Waiter (Task : Type*) where
  task : Task
  kind : Kind
deriving DecidableEq, Repr

/-- The value that an `__s32` has. -/
def s32 (value : Int) : Int := value.bmod (2 ^ 32)

/-- `struct rw_semaphore` -/
structure RwSemaphore (Task : Type*) where
  activity : Int
  waitList : List (Waiter Task)
deriving DecidableEq, Repr

/-- `__init_rwsem` -/
def initRwsem : RwSemaphore Task := { activity := 0, waitList := [] }

/-- The loop behind `dont_wake_writers`: the readers at the front, and what is left of the list. -/
def wakeReaders : List (Waiter Task) → List (Waiter Task) × List (Waiter Task)
  | [] => ([], [])
  | waiter :: rest =>
    match waiter.kind with
    | .read => (waiter :: (wakeReaders rest).1, (wakeReaders rest).2)
    | .write => ([], waiter :: rest)

variable (sem : RwSemaphore Task)

/-- `__rwsem_do_wake`, which is called for a list that is not empty, with the waiters it wakes. -/
def rwsemDoWake (wakewrite : Bool) : RwSemaphore Task × List (Waiter Task) :=
  match sem.waitList with
  | [] => (sem, [])
  | waiter :: rest =>
    match waiter.kind, wakewrite with
    | .write, false => (sem, [])
    | .write, true => ({ activity := -1, waitList := rest }, [waiter])
    | .read, _ =>
      let (woken, left) := wakeReaders (waiter :: rest)
      ({ activity := s32 (sem.activity + woken.length), waitList := left }, woken)

/-- `__rwsem_wake_one_writer`, which does not look at the flags of the waiter. -/
def rwsemWakeOneWriter : RwSemaphore Task × List (Waiter Task) :=
  ({ activity := -1, waitList := sem.waitList.tail }, sem.waitList.head?.toList)

/-- The test of `__down_read` and `__down_read_trylock`, and the grant. -/
def tryRead : Option (RwSemaphore Task) :=
  if 0 ≤ sem.activity ∧ sem.waitList = [] then some { sem with activity := s32 (sem.activity + 1) } else none

/-- The test of `__down_write_nested` and `__down_write_trylock`, and the grant. -/
def tryWrite : Option (RwSemaphore Task) :=
  if sem.activity = 0 ∧ sem.waitList = [] then some { sem with activity := -1 } else none

/-- `list_add_tail(&waiter.list, &sem->wait_list)` -/
def enqueue (waiter : Waiter Task) : RwSemaphore Task :=
  { sem with waitList := sem.waitList ++ [waiter] }

/-- `__up_read` -/
def upRead : RwSemaphore Task × List (Waiter Task) :=
  let sem := { sem with activity := s32 (sem.activity - 1) }
  if sem.activity = 0 ∧ sem.waitList ≠ [] then rwsemWakeOneWriter sem else (sem, [])

/-- `__up_write` -/
def upWrite : RwSemaphore Task × List (Waiter Task) :=
  let sem := { sem with activity := 0 }
  if sem.waitList ≠ [] then rwsemDoWake sem true else (sem, [])

/-- `__downgrade_write` -/
def downgradeWrite : RwSemaphore Task × List (Waiter Task) :=
  let sem := { sem with activity := 1 }
  if sem.waitList ≠ [] then rwsemDoWake sem false else (sem, [])

/-! ### The tasks -/

/-- The semaphore and those that hold it. -/
structure System (Task : Type*) where
  sem : RwSemaphore Task
  held : List (Waiter Task)
deriving DecidableEq, Repr

/-- A call of a task: a lock of the kind, which waits or only tries, a release, or the downgrade. -/
inductive Action (Task : Type*) where
  | down (waiter : Waiter Task)
  | tryDown (waiter : Waiter Task)
  | up (waiter : Waiter Task)
  | downgrade (task : Task)

/-- What becomes of the requests. -/
inductive Event (Task : Type*) where
  | granted (waiter : Waiter Task)
  | refused (waiter : Waiter Task)
  | queued (waiter : Waiter Task)
  | woken (waiter : Waiter Task)
deriving DecidableEq, Repr

/-- The immediate grant. -/
def tryLock : Kind → Option (RwSemaphore Task)
  | .read => tryRead sem
  | .write => tryWrite sem

/-- The end of a call that wakes waiters. -/
def wakeUp (held : List (Waiter Task)) (result : RwSemaphore Task × List (Waiter Task)) :
    System Task × List (Event Task) :=
  ({ sem := result.1, held := held ++ result.2 }, result.2.map .woken)

/-- One call. A task releases only what it holds, and it makes no call while it waits. -/
def step [DecidableEq Task] (system : System Task) : Action Task → Option (System Task × List (Event Task))
  | .down waiter =>
    if ∃ other ∈ system.sem.waitList, other.task = waiter.task then none
    else match tryLock system.sem waiter.kind with
      | some sem => some ({ sem, held := system.held ++ [waiter] }, [.granted waiter])
      | none => some ({ system with sem := enqueue system.sem waiter }, [.queued waiter])
  | .tryDown waiter =>
    if ∃ other ∈ system.sem.waitList, other.task = waiter.task then none
    else match tryLock system.sem waiter.kind with
      | some sem => some ({ sem, held := system.held ++ [waiter] }, [.granted waiter])
      | none => some (system, [.refused waiter])
  | .up waiter =>
    if waiter ∈ system.held ∧ ∀ other ∈ system.sem.waitList, other.task ≠ waiter.task then
      match waiter.kind with
      | .read => some (wakeUp (system.held.erase waiter) (upRead system.sem))
      | .write => some (wakeUp (system.held.erase waiter) (upWrite system.sem))
    else none
  | .downgrade task =>
    if { task, kind := .write } ∈ system.held ∧ ∀ other ∈ system.sem.waitList, other.task ≠ task then
      some (wakeUp (system.held.erase { task, kind := .write } ++ [{ task, kind := .read }])
        (downgradeWrite system.sem))
    else none

/-- One step of the system, with its events. No more tasks hold the semaphore than `activity` can count. -/
def RwsemStep [DecidableEq Task] (system : System Task) (action : Action Task) (events : List (Event Task))
    (system' : System Task) : Prop :=
  step system action = some (system', events) ∧ system'.held.length < 2 ^ 31

open Library List Option

variable {sem} {sem' : RwSemaphore Task} {held : List (Waiter Task)} {waiter : Waiter Task}

theorem s32_eq {n : Nat} (few : n < 2 ^ 31) : s32 n = n := Int.bmod_eq_of_le (by omega) (by omega)

/-- What holds of the semaphore between two calls. -/
structure Sound (sem : RwSemaphore Task) (held : List (Waiter Task)) : Prop where
  exclusive : (sem.activity = -1 ∧ ∃ writer, held = [writer] ∧ writer.kind = .write) ∨
    (sem.activity = held.length ∧ ∀ holder ∈ held, holder.kind = .read)
  idle : sem.activity = 0 → sem.waitList = []
  front : 0 < sem.activity → ∀ first ∈ sem.waitList.head?, first.kind = .write

/-! ### Waking -/

theorem wakeReaders_spec (list : List (Waiter Task)) :
    (wakeReaders list).1 ++ (wakeReaders list).2 = list ∧
      (∀ waiter ∈ (wakeReaders list).1, waiter.kind = .read) ∧
      ∀ first ∈ (wakeReaders list).2.head?, first.kind = .write := by
  induction list with
  | nil => simp [wakeReaders]
  | cons waiter rest ih =>
    obtain ⟨parts, readers, front⟩ := ih
    cases kind : waiter.kind with
    | read =>
      simp only [wakeReaders, kind]
      exact ⟨congrArg (waiter :: ·) parts, forall_mem_cons.mpr ⟨kind, readers⟩, front⟩
    | write => simp [wakeReaders, kind]

/-- Whoever is woken comes from the front of the list. -/
theorem rwsemDoWake_parts (sem : RwSemaphore Task) (wakewrite : Bool) :
    (rwsemDoWake sem wakewrite).2 ++ (rwsemDoWake sem wakewrite).1.waitList = sem.waitList := by
  obtain ⟨activity, list⟩ := sem
  cases list with
  | nil => rfl
  | cons first rest =>
    cases kind : first.kind with
    | read =>
      simp only [rwsemDoWake, kind]
      exact (wakeReaders_spec (first :: rest)).1
    | write => cases wakewrite <;> simp [rwsemDoWake, kind]

theorem upRead_parts (sem : RwSemaphore Task) : (upRead sem).2 ++ (upRead sem).1.waitList = sem.waitList := by
  obtain ⟨activity, list⟩ := sem
  simp only [upRead, rwsemWakeOneWriter]
  split_ifs
  · cases list <;> simp
  · rfl

theorem upWrite_parts (sem : RwSemaphore Task) :
    (upWrite sem).2 ++ (upWrite sem).1.waitList = sem.waitList := by
  simp only [upWrite]
  split_ifs
  · exact rwsemDoWake_parts _ _
  · rfl

theorem downgradeWrite_parts (sem : RwSemaphore Task) :
    (downgradeWrite sem).2 ++ (downgradeWrite sem).1.waitList = sem.waitList := by
  simp only [downgradeWrite]
  split_ifs
  · exact rwsemDoWake_parts _ _
  · rfl

variable {list held' : List (Waiter Task)} {trace : List (Event Task)}

/-- Readers join those that hold the semaphore for reading. -/
theorem Sound.of_wakeReaders {activity : Int} (count : activity = held.length)
    (readers : ∀ holder ∈ held, holder.kind = .read) (someone : held ++ (wakeReaders list).1 ≠ [])
    (few : (held ++ (wakeReaders list).1).length < 2 ^ 31) :
    Sound { activity := s32 (activity + (wakeReaders list).1.length), waitList := (wakeReaders list).2 }
      (held ++ (wakeReaders list).1) := by
  obtain ⟨-, woken, front⟩ := wakeReaders_spec list
  have exact := s32_eq few
  rw [length_append, Int.natCast_add, ← count] at exact
  rw [exact]
  refine ⟨.inr ⟨by simp [count], forall_mem_append.mpr ⟨readers, woken⟩⟩, fun zero => ?_, fun _ => front⟩
  have positive := length_pos_iff.mpr someone
  rw [length_append] at positive
  dsimp only at zero
  omega

theorem Sound.of_writer (writer : waiter.kind = .write) :
    Sound { activity := -1, waitList := list } [waiter] :=
  ⟨.inl ⟨rfl, waiter, rfl, writer⟩, nofun, nofun⟩

/-! ### The calls -/

theorem Sound.tryLock (sound : Sound sem held) (few : (held ++ [waiter]).length < 2 ^ 31)
    (granted : Rwsem.tryLock sem waiter.kind = some sem') :
    Sound sem' (held ++ [waiter]) ∧ sem'.waitList = sem.waitList := by
  obtain ⟨exclusive, -, -⟩ := sound
  cases kind : waiter.kind with
  | read =>
    simp only [Rwsem.tryLock, kind, tryRead] at granted
    split_ifs at granted with free
    obtain rfl := some.inj granted
    rcases exclusive with ⟨writing, -⟩ | ⟨count, readers⟩
    · exact absurd free.1 (by omega)
    · refine ⟨⟨.inr ⟨?_, forall_mem_append.mpr ⟨readers, forall_mem_singleton.mpr kind⟩⟩, fun zero => free.2,
        fun _ first mem => ?_⟩, rfl⟩
      · have exact := s32_eq few
        rw [length_append, length_singleton, Int.natCast_add, ← count, Int.natCast_one] at exact
        simp only [exact, length_append, length_singleton]
        omega
      · simp [free.2] at mem
  | write =>
    simp only [Rwsem.tryLock, kind, tryWrite] at granted
    split_ifs at granted with free
    obtain rfl := some.inj granted
    rcases exclusive with ⟨writing, -⟩ | ⟨count, -⟩
    · exact absurd free.1 (by omega)
    · obtain rfl : held = [] := length_eq_zero_iff.mp (by omega)
      exact ⟨.of_writer kind, rfl⟩

/-- Whoever has to wait does not wait for a free semaphore, nor does a reader wait first behind readers. -/
theorem Sound.enqueue (sound : Sound sem held) (busy : Rwsem.tryLock sem waiter.kind = none) :
    Sound (enqueue sem waiter) held := by
  obtain ⟨exclusive, idle, front⟩ := sound
  refine ⟨exclusive, fun zero => ?_, fun pos first mem => ?_⟩
  · have empty := idle zero
    cases kind : waiter.kind with
    | read => simp [Rwsem.tryLock, kind, tryRead, show sem.activity = 0 from zero, empty] at busy
    | write => simp [Rwsem.tryLock, kind, tryWrite, show sem.activity = 0 from zero, empty] at busy
  · cases list : sem.waitList with
    | nil =>
      obtain rfl : waiter = first := by simpa [Rwsem.enqueue, list] using mem
      cases kind : waiter.kind with
      | read =>
        have free : 0 ≤ sem.activity := Int.le_of_lt pos
        simp [Rwsem.tryLock, kind, tryRead, list, free] at busy
      | write => rfl
    | cons head rest => exact front pos first (by simpa [Rwsem.enqueue, list] using mem)

/-- A writer holds the semaphore alone. -/
theorem Sound.held_eq (sound : Sound sem held) (holds : waiter ∈ held) (kind : waiter.kind = .write) :
    held = [waiter] := by
  rcases sound.exclusive with ⟨-, writer, shape, -⟩ | ⟨-, readers⟩
  · rw [shape] at holds
    rw [shape, mem_singleton.mp holds]
  · have read := readers waiter holds
    rw [kind] at read
    cases read

/-! ### The order -/

/-- The waiter that the event puts into the list. -/
def Event.queuedWaiter : Event Task → Option (Waiter Task)
  | .queued waiter => some waiter
  | _ => none

/-- The waiter that the event takes from the list. -/
def Event.wokenWaiter : Event Task → Option (Waiter Task)
  | .woken waiter => some waiter
  | _ => none

/-- The list holds those that were queued and not yet woken, in the order in which they came. -/
def Fair (trace : List (Event Task)) (system : System Task) : Prop :=
  trace.filterMap Event.queuedWaiter = trace.filterMap Event.wokenWaiter ++ system.sem.waitList

theorem Fair.wakeUp {result : RwSemaphore Task × List (Waiter Task)}
    (fair : Fair trace { sem, held }) (parts : result.2 ++ result.1.waitList = sem.waitList) :
    Fair (trace ++ (wakeUp held' result).2) (wakeUp held' result).1 := by
  have queued : (result.2.map Event.woken).filterMap Event.queuedWaiter = [] := by
    rw [filterMap_map]
    exact filterMap_eq_nil_iff.mpr fun _ _ => rfl
  have woken : (result.2.map Event.woken).filterMap Event.wokenWaiter = result.2 := by
    rw [filterMap_map]
    exact filterMap_some
  simp only [Fair, Rwsem.wakeUp, filterMap_append, queued, woken, append_nil, append_assoc, parts]
  exact fair

/-- An event that neither queues nor wakes. -/
theorem Fair.quiet {event : Event Task} (fair : Fair trace { sem, held })
    (queued : event.queuedWaiter = none) (woken : event.wokenWaiter = none)
    (list : sem'.waitList = sem.waitList) : Fair (trace ++ [event]) { sem := sem', held := held' } := by
  simp only [Fair, filterMap_append, filterMap_cons, queued, woken, filterMap_nil, append_nil, list]
  exact fair

/-! ### The releases -/

variable [DecidableEq Task]

theorem Sound.upRead (sound : Sound sem held) (holds : waiter ∈ held) (kind : waiter.kind = .read)
    (few : (held.erase waiter ++ (upRead sem).2).length < 2 ^ 31) :
    Sound (upRead sem).1 (held.erase waiter ++ (upRead sem).2) := by
  obtain ⟨exclusive, idle, front⟩ := sound
  rcases exclusive with ⟨-, writer, rfl, write⟩ | ⟨count, readers⟩
  · rw [mem_singleton.mp holds, write] at kind
    cases kind
  have length := length_erase_of_mem holds
  have positive := length_pos_of_mem holds
  rw [length_append] at few
  have exact := s32_eq (show (held.erase waiter).length < 2 ^ 31 by omega)
  rw [show ((held.erase waiter).length : Int) = sem.activity - 1 by omega] at exact
  simp only [Rwsem.upRead, exact]
  split_ifs with last
  · obtain ⟨first, rest, list⟩ := exists_cons_of_ne_nil last.2
    have nobody : held.erase waiter = [] := length_eq_zero_iff.mp (by omega)
    rw [nobody]
    simp only [list]
    exact .of_writer (front (by omega) first (by rw [list]; rfl))
  · rw [append_nil]
    refine ⟨.inr ⟨?_, fun holder mem => readers holder (mem_of_mem_erase mem)⟩, fun zero => ?_, fun _ => ?_⟩
    · dsimp only
      omega
    · exact not_not.mp fun list => last ⟨zero, list⟩
    · exact front (by omega)

theorem Sound.upWrite (sound : Sound sem held) (holds : waiter ∈ held) (kind : waiter.kind = .write)
    (few : (held.erase waiter ++ (upWrite sem).2).length < 2 ^ 31) :
    Sound (upWrite sem).1 (held.erase waiter ++ (upWrite sem).2) := by
  rw [sound.held_eq holds kind, erase_cons_head] at few ⊢
  obtain ⟨activity, list⟩ := sem
  cases list with
  | nil => exact ⟨.inr ⟨rfl, nofun⟩, fun _ => rfl, nofun⟩
  | cons first rest =>
    cases first_kind : first.kind with
    | read =>
      simp only [Rwsem.upWrite, rwsemDoWake, first_kind] at few ⊢
      exact .of_wakeReaders rfl nofun (by simp [wakeReaders, first_kind]) few
    | write =>
      simp only [Rwsem.upWrite, rwsemDoWake, first_kind]
      exact .of_writer first_kind

theorem Sound.downgradeWrite {task : Task} (sound : Sound sem held) (holds : ⟨task, .write⟩ ∈ held)
    (few : (held.erase ⟨task, .write⟩ ++ [(⟨task, .read⟩ : Waiter Task)] ++ (downgradeWrite sem).2).length <
      2 ^ 31) :
    Sound (downgradeWrite sem).1 (held.erase ⟨task, .write⟩ ++ [⟨task, .read⟩] ++
      (downgradeWrite sem).2) := by
  rw [sound.held_eq holds rfl, erase_cons_head] at few ⊢
  have reader : ∀ holder ∈ [(⟨task, .read⟩ : Waiter Task)], holder.kind = .read := by simp
  obtain ⟨activity, list⟩ := sem
  cases list with
  | nil => exact ⟨.inr ⟨rfl, by simp [Rwsem.downgradeWrite]⟩, nofun, nofun⟩
  | cons first rest =>
    cases kind : first.kind with
    | read =>
      simp only [Rwsem.downgradeWrite, rwsemDoWake, kind] at few ⊢
      exact .of_wakeReaders rfl reader (by simp) few
    | write =>
      simp only [Rwsem.downgradeWrite, rwsemDoWake, kind]
      exact ⟨.inr ⟨rfl, by simp⟩, nofun, fun _ mem same => by cases same; exact kind⟩

/-! ### The runs -/

/-- A call keeps the invariant and the order. -/
theorem Sound.step {system system' : System Task} {action : Action Task} {trace events : List (Event Task)}
    (sound : Sound system.sem system.held) (fair : Fair trace system)
    (taken : RwsemStep system action events system') :
    Sound system'.sem system'.held ∧ Fair (trace ++ events) system' := by
  obtain ⟨sem, held⟩ := system
  obtain ⟨taken, few⟩ := taken
  have immediate {waiter : Waiter Task} {sem' : RwSemaphore Task} (few : (held ++ [waiter]).length < 2 ^ 31)
      (granted : Rwsem.tryLock sem waiter.kind = some sem') :
      Sound sem' (held ++ [waiter]) ∧
        Fair (trace ++ [.granted waiter]) { sem := sem', held := held ++ [waiter] } := by
    obtain ⟨sound', list⟩ := sound.tryLock few granted
    exact ⟨sound', fair.quiet rfl rfl list⟩
  cases action <;> simp only [Rwsem.step] at taken <;> split_ifs at taken with holds
  -- `down`, `tryDown`, `up` and `downgrade`
  · split at taken <;> cases taken
    · next granted => exact immediate few granted
    · next busy =>
        refine ⟨sound.enqueue busy, ?_⟩
        rw [Fair, filterMap_append, filterMap_append, fair]
        simp only [append_assoc]
        rfl
  · split at taken <;> cases taken
    · next granted => exact immediate few granted
    · exact ⟨sound, fair.quiet rfl rfl rfl⟩
  · split at taken <;> cases taken
    · next kind => exact ⟨sound.upRead holds.1 kind few, fair.wakeUp (upRead_parts sem)⟩
    · next kind => exact ⟨sound.upWrite holds.1 kind few, fair.wakeUp (upWrite_parts sem)⟩
  · cases taken
    exact ⟨sound.downgradeWrite holds.1 few, fair.wakeUp (downgradeWrite_parts sem)⟩

/-- In every interleaving one writer or some readers hold the semaphore, and `activity` says which; waiters
  are woken in the order in which they came; nobody waits for a free semaphore; and while readers hold it,
  so that `__up_read` may be called, the first waiter is a writer. -/
theorem rwsem_correct {actions : List (Action Task)} {trace : List (Event Task)} {last : System Task}
    (run : Run RwsemStep { sem := initRwsem, held := [] } actions trace last) :
    ((last.sem.activity = -1 ∧ ∃ writer, last.held = [writer] ∧ writer.kind = .write) ∨
      (last.sem.activity = last.held.length ∧ ∀ holder ∈ last.held, holder.kind = .read)) ∧
    trace.filterMap Event.queuedWaiter = trace.filterMap Event.wokenWaiter ++ last.sem.waitList ∧
    (last.sem.activity = 0 → last.sem.waitList = []) ∧
    (0 < last.sem.activity → ∀ first ∈ last.sem.waitList.head?, first.kind = .write) := by
  have inv : Sound last.sem last.held ∧ Fair trace last := by
    induction run with
    | nil => exact ⟨⟨.inr ⟨rfl, nofun⟩, fun _ => rfl, nofun⟩, rfl⟩
    | snoc _ taken ih => exact ih.1.step ih.2 taken
  exact ⟨inv.1.exclusive, inv.2, inv.1.idle, inv.1.front⟩

/-- A reader holds the semaphore, a writer and a second reader wait, and the release wakes the writer. -/
theorem rwsem_correct_handover :
    ∃ (trace : List (Event Nat)) (last : System Nat), Run RwsemStep { sem := initRwsem, held := [] }
        [.down ⟨0, .read⟩, .down ⟨1, .write⟩, .down ⟨2, .read⟩, .up ⟨0, .read⟩] trace last ∧
      last.held = [⟨1, .write⟩] ∧ last.sem.waitList = [⟨2, .read⟩] ∧
      trace.filterMap Event.queuedWaiter = trace.filterMap Event.wokenWaiter ++ last.sem.waitList := by
  have run : Run RwsemStep { sem := initRwsem, held := [] }
      [.down ⟨0, .read⟩, .down ⟨1, .write⟩, .down ⟨2, .read⟩, .up ⟨(0 : Nat), .read⟩] _ _ :=
    .cons ⟨rfl, by decide⟩ <| .cons ⟨rfl, by decide⟩ <| .cons ⟨rfl, by decide⟩ <| .cons ⟨rfl, by decide⟩ .nil
  exact ⟨_, _, run, rfl, rfl, (rwsem_correct run).2.1⟩

end LinuxKernel.Lib.Rwsem
