/-
Module: LinuxKernel.Proofs.PosixLockRuns
Purpose: Invariants of every run of POSIX lock requests, unlocks and interrupted waits: locks of different
  owners never conflict, and a parked waiter still conflicts with the lock it is parked on. As long as each
  owner waits for at most one lock, no cycle of up to `MAX_DEADLK_ITERATIONS + 2` owners forms. Thirteen
  owners can deadlock: the walk of `posix_locks_deadlock` gives up before it gets back to the requester.
Trusted boundary: none
Main exports: NoConflict, TableInv, lockRun_safe, WaitsFor, singleWaitRun_no_short_cycle
-/
import LinuxKernel.Proofs.PosixLockUpdate

namespace LinuxKernel.Fs.Locks

section

open Library List Bool Function

/-- No two POSIX locks of different owners overlap with one of them a write lock. -/
def NoConflict (locks : List FileLock) : Prop :=
  ∀ a ∈ locks, ∀ b ∈ locks, a.flFlags.posix = true → b.flFlags.posix = true →
    posixSameOwner a.flOwner b.flOwner = false →
    locksOverlap a.toRequest b.toRequest = true → a.flType ≠ .wrlck ∧ b.flType ≠ .wrlck

/-- Every waiter linked on a lock's `fl_block` conflicts with that lock. -/
def WaitersConflict (locks : List FileLock) : Prop :=
  ∀ fl ∈ locks, ∀ waiter ∈ fl.flBlock, posixLocksConflict waiter.toRequest fl.toRequest = true

/-- The invariant of the lock table. -/
structure TableInv (table : LockTable) : Prop where
  wellFormed : ∀ inode, WellFormed (table.iFlock inode)
  noConflict : ∀ inode, NoConflict (table.iFlock inode)
  waiters : ∀ inode, WaitersConflict (table.iFlock inode)

/-! ### Conflicts -/

theorem posixLocksConflict_iff {caller sys : Request} :
    posixLocksConflict caller sys = true ↔ sys.flFlags.posix = true ∧
      posixSameOwner caller.flOwner sys.flOwner = false ∧ locksOverlap caller sys = true ∧
      (sys.flType = .wrlck ∨ caller.flType = .wrlck) := by
  unfold posixLocksConflict
  split
  case isTrue skipped =>
    simp only [or_eq_true, not_eq_true'] at skipped
    rcases skipped with notPosix | same
    · simp [notPosix]
    · simp [same]
  case isFalse compared =>
    split
    case isTrue apart => simp_all
    case isFalse overlap => simp_all [locksConflict]

theorem locksOverlap_iff {fl1 fl2 : Request} :
    locksOverlap fl1 fl2 = true ↔ fl2.flStart ≤ fl1.flEnd ∧ fl1.flStart ≤ fl2.flEnd := by
  simp [locksOverlap]

theorem posixSameOwner_false_iff {a b : LockOwner} :
    posixSameOwner a b = false ↔ ownerKey a ≠ ownerKey b := by
  rw [← not_eq_true, posixSameOwner_iff]

theorem shared_point {a b : FileLock} (overlap : locksOverlap a.toRequest b.toRequest = true)
    (rangeA : a.flStart ≤ a.flEnd) (rangeB : b.flStart ≤ b.flEnd) :
    ∃ point, lockView.Contains a point ∧ lockView.Contains b point := by
  rw [locksOverlap_iff] at overlap
  refine ⟨max a.flStart b.flStart, ⟨?_, ?_⟩, ⟨?_, ?_⟩⟩ <;> simp only [lockView] <;> omega

/-- Locks that share a byte overlap. -/
theorem overlap_of_point {a b : Request} {point : Int} (inA : a.flStart ≤ point ∧ point ≤ a.flEnd)
    (inB : b.flStart ≤ point ∧ point ≤ b.flEnd) : locksOverlap a b = true := by
  rw [locksOverlap_iff]
  omega

variable {fl blocker : FileLock} {table : LockTable} {inode : Nat} {request : Request}
  {actions : List LockAction} {trace : List Ret}

theorem Grown.conflict {grown : FileLock} (grows : Grown fl grown) {waiter : Request}
    (conflict : posixLocksConflict waiter fl.toRequest = true) :
    posixLocksConflict waiter grown.toRequest = true := by
  rw [posixLocksConflict_iff] at conflict ⊢
  rw [locksOverlap_iff] at conflict ⊢
  have low := grows.low
  have high := grows.high
  rw [grows.same]
  exact ⟨conflict.1, conflict.2.1, by dsimp only; omega, conflict.2.2.2⟩

/-! ### Steps -/

section Steps

variable {request : Request} {pre own own' post : List FileLock}

/-- A lock of the owner after the call conflicts with no other owner's lock if neither the request
nor the old locks did. -/
theorem Updated.no_conflict_other (updated : Updated request own own')
    (grouping : Grouping request pre own post) (wf : WellFormed (pre ++ own ++ post))
    (old : NoConflict (pre ++ own ++ post))
    (granted : ∀ fl ∈ pre ++ own ++ post, request.flType ≠ .unlck →
      posixLocksConflict request fl.toRequest = false)
    {a b : FileLock} (inOwn : a ∈ own') (other : b ∈ pre ∨ b ∈ post)
    (posix : b.flFlags.posix = true)
    (overlap : locksOverlap a.toRequest b.toRequest = true) :
    a.flType ≠ .wrlck ∧ b.flType ≠ .wrlck := by
  have onList : b ∈ pre ++ own ++ post := by
    rcases other with inPre | inPost <;> simp [*]
  have otherKey : ownerKey b.flOwner ≠ ownerKey request.flOwner := by
    rcases other with inPre | inPost
    · exact grouping.before b inPre posix
    · exact (grouping.after b inPost).2
  obtain ⟨point, inA, inB⟩ := shared_point overlap
    (updated.group.ordered.nonempty a inOwn) (wf.ranges b onList posix).1.ordered
  have covered := (updated.covers point a.flType).mp ⟨a, inOwn, rfl, inA⟩
  split at covered
  case isTrue inRange =>
    -- the byte was requested, and the request conflicts with nothing
    have noConflict := granted b onList covered.2
    rw [← not_eq_true, posixLocksConflict_iff] at noConflict
    rw [covered.1]
    refine ⟨fun write => noConflict ⟨posix, ?_, overlap_of_point inRange inB, .inr write⟩,
      fun write => noConflict ⟨posix, ?_, overlap_of_point inRange inB, .inl write⟩⟩
    all_goals exact posixSameOwner_false_iff.mpr otherKey.symm
  case isFalse =>
    obtain ⟨source, inSource, sameType, inside⟩ := covered
    rw [← sameType]
    refine old source (by simp [inSource]) b onList (grouping.group.posix source inSource) posix
      (posixSameOwner_false_iff.mpr ?_) (overlap_of_point inside inB)
    rw [grouping.group.owner source inSource]
    exact otherKey.symm

theorem locksOverlap_comm (fl1 fl2 : Request) : locksOverlap fl1 fl2 = locksOverlap fl2 fl1 :=
  and_comm _ _

theorem Updated.noConflict (updated : Updated request own own')
    (grouping : Grouping request pre own post) (wf : WellFormed (pre ++ own ++ post))
    (old : NoConflict (pre ++ own ++ post))
    (granted : ∀ fl ∈ pre ++ own ++ post, request.flType ≠ .unlck →
      posixLocksConflict request fl.toRequest = false) :
    NoConflict (pre ++ own' ++ post) := by
  have place : ∀ fl ∈ pre ++ own' ++ post, fl ∈ own' ∨ fl ∈ pre ∨ fl ∈ post := by
    intro fl mem
    simp only [mem_append] at mem
    rcases mem with (inPre | inOwn) | inPost
    · exact .inr (.inl inPre)
    · exact .inl inOwn
    · exact .inr (.inr inPost)
  intro a aMember b bMember aPosix bPosix differ overlap
  rcases place a aMember with aOwn | aOther <;> rcases place b bMember with bOwn | bOther
  · rw [posixSameOwner_false_iff, updated.group.owner a aOwn, updated.group.owner b bOwn] at differ
    exact absurd rfl differ
  · exact updated.no_conflict_other grouping wf old granted aOwn bOther bPosix overlap
  · rw [locksOverlap_comm] at overlap
    exact (updated.no_conflict_other grouping wf old granted bOwn aOther aPosix overlap).symm
  · refine old a ?_ b ?_ aPosix bPosix differ overlap
    · rcases aOther with inPre | inPost <;> simp [*]
    · rcases bOther with inPre | inPost <;> simp [*]

/-- Every waiter that stays linked still conflicts. -/
theorem Updated.waitersConflict (updated : Updated request own own')
    (old : WaitersConflict (pre ++ own ++ post)) : WaitersConflict (pre ++ own' ++ post) := by
  intro fl mem waiter linked
  simp only [mem_append] at mem
  rcases mem with (inPre | inOwn) | inPost
  · exact old fl (by simp [inPre]) waiter linked
  · rcases updated.waiters fl inOwn with woken | ⟨source, inSource, grown⟩
    · rw [woken] at linked
      cases linked
    · refine grown.conflict (old source (by simp [inSource]) waiter ?_)
      rw [grown.same] at linked
      exact linked
  · exact old fl (by simp [inPost]) waiter linked

end Steps

/-! ### Steps that only move waiters -/

section Waiters

variable {locks locks' : List FileLock}

theorem WellFormed.congr (wf : WellFormed locks)
    (same : locks'.map FileLock.toRequest = locks.map FileLock.toRequest) : WellFormed locks' := by
  have pairs : ∀ R : Request → Request → Prop, locks.Pairwise (fun a b => R a.toRequest b.toRequest) →
      locks'.Pairwise fun a b => R a.toRequest b.toRequest := by
    intro R holds
    rw [← pairwise_map, same, pairwise_map]
    exact holds
  have source : ∀ fl ∈ locks', ∃ old ∈ locks, old.toRequest = fl.toRequest := by
    intro fl mem
    have : fl.toRequest ∈ locks.map FileLock.toRequest := same ▸ mem_map_of_mem mem
    exact mem_map.mp this
  constructor
  case posixLast => exact pairs (fun a b => a.flFlags.posix → b.flFlags.posix) wf.posixLast
  case grouped =>
    intro a fl b triple posix owner
    have mapped : ([a, fl, b].map FileLock.toRequest).Sublist (locks.map FileLock.toRequest) :=
      same ▸ triple.map _
    obtain ⟨old, oldSub, sameTriple⟩ := sublist_map_iff.mp mapped
    obtain ⟨a', tail, rfl, sameA, sameTriple⟩ := map_eq_cons_iff.mp sameTriple.symm
    obtain ⟨fl', tail, rfl, sameFl, sameTriple⟩ := map_eq_cons_iff.mp sameTriple
    obtain ⟨b', tail, rfl, sameB, sameTriple⟩ := map_eq_cons_iff.mp sameTriple
    obtain rfl := map_eq_nil_iff.mp sameTriple
    rw [← sameA] at posix owner ⊢
    rw [← sameB] at owner
    rw [← sameFl]
    exact wf.grouped a' fl' b' oldSub posix owner
  case sorted =>
    exact pairs (fun a b => a.flFlags.posix → posixSameOwner a.flOwner b.flOwner →
      a.flEnd < b.flStart) wf.sorted
  case ranges =>
    intro fl mem posix
    obtain ⟨old, oldMember, sameRequest⟩ := source fl mem
    rw [← sameRequest] at posix ⊢
    exact wf.ranges old oldMember posix
  case addresses =>
    have addresses : ∀ l : List FileLock, l.map (fun fl => fl.addr) =
        (l.map FileLock.toRequest).map fun request => request.addr := by
      intro l
      rw [map_map]
      rfl
    rw [addresses, same, ← addresses]
    exact wf.addresses

theorem NoConflict.congr (noConflict : NoConflict locks)
    (same : locks'.map FileLock.toRequest = locks.map FileLock.toRequest) : NoConflict locks' := by
  have source : ∀ fl ∈ locks', ∃ old ∈ locks, old.toRequest = fl.toRequest := by
    intro fl mem
    have : fl.toRequest ∈ locks.map FileLock.toRequest := same ▸ mem_map_of_mem mem
    exact mem_map.mp this
  intro a aMember b bMember aPosix bPosix differ overlap
  obtain ⟨a', aOld, sameA⟩ := source a aMember
  obtain ⟨b', bOld, sameB⟩ := source b bMember
  rw [← sameA] at aPosix differ overlap ⊢
  rw [← sameB] at bPosix differ overlap ⊢
  exact noConflict a' aOld b' bOld aPosix bPosix differ overlap

end Waiters

/-- A lock of an inode's list after parking a request: the blocker with one more waiter, or an old
lock. -/
theorem mem_locksInsertBlock {other : Nat} (nodup : ((table.iFlock inode).map fun fl => fl.addr).Nodup)
    (onList : blocker ∈ table.iFlock inode)
    (mem : fl ∈ (locksInsertBlock table inode blocker request).iFlock other) :
    fl ∈ table.iFlock other ∨ (other = inode ∧ fl = { blocker with
      flBlock := blocker.flBlock ++ [{ request with flNext := ⟨inode, blocker.addr⟩ }] }) := by
  by_cases same : other = inode
  swap
  · simp only [locksInsertBlock, update_of_ne same] at mem
    exact .inl mem
  · subst same
    simp only [locksInsertBlock, update_self] at mem
    obtain ⟨old, oldMember, rfl⟩ := mem_map.mp mem
    split
    case isTrue sameAddr =>
      obtain rfl : old = blocker := inj_on_of_nodup_map nodup oldMember onList sameAddr
      exact .inr ⟨rfl, rfl⟩
    case isFalse => exact .inl oldMember

/-- Parking a request on a lock it conflicts with keeps the invariant. -/
theorem TableInv.park (inv : TableInv table) (onList : blocker ∈ table.iFlock inode)
    (conflict : posixLocksConflict request blocker.toRequest = true) :
    TableInv (locksInsertBlock table inode blocker request) := by
  have granted := locksInsertBlock_granted table inode blocker request
  refine ⟨fun other => (inv.wellFormed other).congr (granted other),
    fun other => (inv.noConflict other).congr (granted other), fun other fl mem waiter linked => ?_⟩
  rcases mem_locksInsertBlock (inv.wellFormed inode).addresses onList mem with
    old | ⟨rfl, rfl⟩
  · exact inv.waiters other fl old waiter linked
  · rcases mem_append.mp linked with earlier | new
    · exact inv.waiters other blocker onList waiter earlier
    · obtain rfl := mem_singleton.mp new
      exact conflict

/-- Interrupting a waiter keeps the invariant. -/
theorem TableInv.interrupt (inv : TableInv table) (addr : Nat) : TableInv (locksDeleteBlock table addr) := by
  have granted : ∀ inode, ((locksDeleteBlock table addr).iFlock inode).map FileLock.toRequest =
      (table.iFlock inode).map FileLock.toRequest := by
    intro inode
    rw [locksDeleteBlock, map_map]
    rfl
  refine ⟨fun inode => (inv.wellFormed inode).congr (granted inode),
    fun inode => (inv.noConflict inode).congr (granted inode), fun inode fl mem waiter linked => ?_⟩
  obtain ⟨old, oldMember, rfl⟩ := mem_map.mp mem
  exact inv.waiters inode old oldMember waiter (mem_filter.mp linked).1

/-- Every step of the lock table keeps the invariant. -/
theorem TableInv.step {table next : LockTable} {action : LockAction} {events : List Ret}
    (inv : TableInv table) (taken : LockStep table action events next) : TableInv next := by
  cases taken with
  | interrupt => exact inv.interrupt _
  | @lock inode request newFl newFl2 admissible =>
    rcases posixLockFile_cases table inode request newFl newFl2 rfl with
      ⟨fl, onList, -, conflict, ⟨sameTable, -⟩ | ⟨-, -, parked⟩⟩ |
      ⟨granted, ⟨-, sameTable⟩ | ⟨-, needed, _, rfl, -, changed⟩⟩
    · rw [sameTable]
      exact inv
    · rw [parked]
      exact inv.park onList conflict
    · rw [sameTable]
      exact inv
    · have wf := inv.wellFormed inode
      have noConflict := inv.noConflict inode
      have waiters := inv.waiters inode
      obtain ⟨pre, own, post, isList, grouping, ⟨-, own', isNew, updated, wf'⟩ | ⟨-, same⟩⟩ :=
        applyRequest_spec table.blockedList wf admissible.posix admissible.range
          (admissible.freshLocks needed)
      · rw [isList] at wf noConflict waiters granted
        have here : WellFormed (pre ++ own' ++ post) ∧ NoConflict (pre ++ own' ++ post) ∧
            WaitersConflict (pre ++ own' ++ post) :=
          ⟨wf', updated.noConflict grouping wf noConflict granted, updated.waitersConflict waiters⟩
        have everywhere : ∀ other, (posixLockFile table inode request newFl newFl2).table.iFlock
            other = if other = inode then pre ++ own' ++ post else table.iFlock other := by
          intro other
          rw [changed, isNew]
          exact update_apply ..
        refine ⟨fun other => ?_, fun other => ?_, fun other => ?_⟩ <;> rw [everywhere other] <;> split
        · exact here.1
        · exact inv.wellFormed other
        · exact here.2.1
        · exact inv.noConflict other
        · exact here.2.2
        · exact inv.waiters other
      · rw [changed, same]
        simpa only [update_eq_self] using inv

theorem TableInv.empty : TableInv LockTable.empty := by
  refine ⟨fun _ => ⟨.nil, ?_, .nil, by simp [LockTable.empty], .nil⟩, fun _ => ?_, fun _ => ?_⟩
  · intro a fl b triple
    cases triple
  · intro a mem
    cases mem
  · intro fl mem
    cases mem

theorem LockRun.tableInv (run : LockRun actions trace table) : TableInv table :=
  run.invariant TableInv.empty fun inv taken => inv.step taken

/-- In every state that any run of requests, unlocks and interrupted waits reaches, POSIX locks of
different owners do not conflict, and every waiter still linked on a lock still conflicts with
it. -/
theorem lockRun_safe {actions : List LockAction} {trace : List Ret} {table : LockTable}
    (run : LockRun actions trace table) (inode : Nat) :
    NoConflict (table.iFlock inode) ∧ WaitersConflict (table.iFlock inode) :=
  ⟨(LockRun.tableInv run).noConflict inode, (LockRun.tableInv run).waiters inode⟩

/-! ### Runs on given actions -/

/-- The table after an action. -/
def LockAction.apply (table : LockTable) : LockAction → LockTable
  | .lock inode request newFl newFl2 =>
    (posixLockFile table inode request newFl newFl2).table
  | .interrupt addr => locksDeleteBlock table addr

/-- A check for the promises of the callers and the allocator. -/
def LockAction.check (table : LockTable) : LockAction → Bool
  | .lock inode request newFl newFl2 =>
    request.flFlags.posix &&
    decide (0 ≤ request.flStart ∧ request.flStart ≤ request.flEnd ∧ request.flEnd ≤ offsetMax) &&
    table.blockedList.all (fun waiter => waiter.addr ≠ request.addr) &&
    (table.iFlock inode).all (fun fl => newFl ≠ some fl.addr ∧ newFl2 ≠ some fl.addr) &&
    (newFl.isNone || newFl ≠ newFl2)
  | .interrupt _ => true

/-- Every action passes the check where it is taken. -/
def checkRun : LockTable → List LockAction → Bool
  | _, [] => true
  | table, action :: actions => action.check table && checkRun (action.apply table) actions

theorem LockAction.step_of_check {action : LockAction} (passes : action.check table = true) :
    ∃ events, LockStep table action events (action.apply table) := by
  cases action with
  | interrupt addr => exact ⟨[], .interrupt⟩
  | lock inode request newFl newFl2 =>
    simp only [check, and_eq_true, decide_eq_true_eq, all_eq_true, or_eq_true] at passes
    obtain ⟨⟨⟨⟨posix, range⟩, notParked⟩, unused⟩, distinct⟩ := passes
    refine ⟨_, .lock ⟨posix, ⟨range.1, range.2.1, range.2.2⟩, notParked, ?_, ?_⟩⟩
    · rintro addr new fl mem rfl
      exact new.elim (unused fl mem).1 (unused fl mem).2
    · rintro addr rfl isSecond
      rcases distinct with none | differ
      · cases none
      · exact differ isSecond.symm

theorem lockRun_of_check {done : List LockAction} (before : LockRun done trace table)
    (passes : checkRun table actions = true) :
    ∃ trace, LockRun (done ++ actions) trace (actions.foldl LockAction.apply table) := by
  induction actions generalizing done trace table with
  | nil => exact ⟨trace, by simpa using before⟩
  | cons action actions ih =>
    simp only [checkRun, and_eq_true] at passes
    obtain ⟨events, taken⟩ := LockAction.step_of_check passes.1
    have longer := ih (before.snoc taken) passes.2
    simpa using longer

/-- A request of the process with the given `files_struct`. -/
def processRequest (addr files : Nat) (flFlags : LockFlags) (flType : LockType)
    (flStart flEnd : Int) : Request :=
  { addr, flOwner := .files files 0, flFlags, flType, flStart, flEnd }

/-- One owner locks the bytes 0 to 9 for writing; another waits for a read lock on 5 to 7. -/
def parkedActions : List LockAction :=
  [.lock 0 (processRequest 1 1 {} .wrlck 0 9) (some 10) (some 11),
   .lock 0 (processRequest 2 2 { sleep := true } .rdlck 5 7) (some 12) (some 13)]

theorem lockRun_safe_parked :
    ∃ trace table, LockRun parkedActions trace table ∧ (∃ fl ∈ table.iFlock 0, fl.flBlock ≠ []) ∧
      NoConflict (table.iFlock 0) ∧ WaitersConflict (table.iFlock 0) := by
  have passes : checkRun LockTable.empty parkedActions = true := by decide
  obtain ⟨trace, run⟩ := lockRun_of_check .nil passes
  exact ⟨trace, _, run, by decide, lockRun_safe run 0⟩

end

open Library Function List

/-- The waiter is linked on some lock of the list. -/
def Parked (locks : List FileLock) (waiter : Waiter) : Prop :=
  ∃ fl ∈ locks, waiter ∈ fl.flBlock

/-- Every waiter points to the lock it is linked on. -/
def PointsBack (locks : List FileLock) : Prop :=
  ∀ fl ∈ locks, ∀ waiter ∈ fl.flBlock, waiter.flNext.addr = fl.addr

/-- The wait queues of a list before a call. -/
structure Queues (locks : List FileLock) (blocked : List Waiter) : Prop where
  listed : ∀ waiter, Parked locks waiter → waiter ∈ blocked
  pointsBack : PointsBack locks
  unique : ∀ waiter ∈ blocked, ∀ other ∈ blocked, waiter.addr = other.addr → waiter = other

/-- Of the old `blocked_list` exactly the waiters are left that did not lose their place. -/
def Synced (old : List FileLock) (blocked : List Waiter) (locks : List FileLock)
    (left : List Waiter) : Prop :=
  ∀ waiter, waiter ∈ left ↔ waiter ∈ blocked ∧ (Parked old waiter → Parked locks waiter)

section Lists

variable {old locks locks' first second : List FileLock} {blocked left woken : List Waiter}
  {fl : FileLock} {waiter : Waiter}

theorem parked_append : Parked (first ++ second) waiter ↔ Parked first waiter ∨ Parked second waiter := by
  simp only [Parked, mem_append, or_and_right, exists_or]

theorem parked_cons : Parked (fl :: locks) waiter ↔ waiter ∈ fl.flBlock ∨ Parked locks waiter := by
  simp only [Parked, mem_cons, or_and_right, exists_or, exists_eq_left]

theorem not_parked_of_empty (empty : ∀ fl ∈ locks, fl.flBlock = []) : ¬ Parked locks waiter := by
  rintro ⟨fl, mem, linked⟩
  rw [empty fl mem] at linked
  cases linked

/-- Waking waiters and taking them off the list of their lock keeps the two in step. -/
theorem Synced.wake (synced : Synced old blocked locks left) (queues : Queues old blocked)
    (split : ∀ waiter, Parked locks waiter ↔ Parked locks' waiter ∨ waiter ∈ woken)
    (apart : ∀ waiter ∈ woken, ¬ Parked locks' waiter)
    (fromOld : ∀ waiter ∈ woken, Parked old waiter) :
    Synced old blocked locks' (unlinkWaiters woken left) := by
  intro waiter
  have kept : waiter ∈ blocked →
      ((woken.all fun other => other.addr ≠ waiter.addr) = true ↔ waiter ∉ woken) := by
    intro onList
    simp only [all_eq_true, decide_eq_true_eq]
    constructor
    · exact fun differ isWoken => differ waiter isWoken rfl
    · intro notWoken other isWoken same
      have := queues.unique other (queues.listed other (fromOld other isWoken)) waiter onList same
      exact notWoken (this ▸ isWoken)
  rw [unlinkWaiters, mem_filter, synced waiter]
  constructor
  · rintro ⟨⟨onList, stays⟩, notWoken⟩
    refine ⟨onList, fun wasParked => ?_⟩
    exact ((split waiter).mp (stays wasParked)).resolve_right ((kept onList).mp notWoken)
  · rintro ⟨onList, stays⟩
    refine ⟨⟨onList, fun wasParked => (split waiter).mpr (.inl (stays wasParked))⟩, ?_⟩
    exact (kept onList).mpr fun isWoken => apart waiter isWoken (stays (fromOld waiter isWoken))

theorem Synced.congr (synced : Synced old blocked locks left)
    (same : ∀ waiter, Parked locks waiter ↔ Parked locks' waiter) :
    Synced old blocked locks' left := by
  intro waiter
  rw [synced waiter, same waiter]

/-- A waiter of one lock is parked on no other lock. -/
theorem PointsBack.apart (pointsBack : PointsBack (first ++ fl :: second))
    (nodup : ((first ++ fl :: second).map fun fl => fl.addr).Nodup)
    (linked : waiter ∈ fl.flBlock) : ¬ Parked (first ++ second) waiter := by
  rintro ⟨other, mem, alsoLinked⟩
  have here := pointsBack fl (by simp) waiter linked
  have there := pointsBack other (by
    rcases mem_append.mp mem with inFirst | inSecond <;> simp [*]) waiter alsoLinked
  simp only [map_append, map_cons, nodup_append, nodup_cons, mem_map, mem_cons] at nodup
  rcases mem_append.mp mem with inFirst | inSecond
  · exact nodup.2.2 other.addr ⟨other, inFirst, rfl⟩ fl.addr (.inl rfl) (there.symm.trans here)
  · exact nodup.2.1.1 ⟨other, inSecond, there.symm.trans here⟩

theorem Synced.resize (synced : Synced old blocked locks left) (queues : Queues old blocked)
    (nodup : (locks.map fun fl => fl.addr).Nodup) (pointsBack : PointsBack locks)
    (fromOld : ∀ waiter, Parked locks waiter → Parked old waiter)
    (addr : Option Nat) (resize : FileLock → FileLock) :
    Synced old blocked (resizeLock addr resize locks) (wakeLock addr locks left) := by
  unfold wakeLock
  split
  case h_1 fl found =>
    have isAddr : addr = some fl.addr := by simpa using find?_some found
    obtain ⟨first, second, rfl⟩ := append_of_mem (mem_of_find?_eq_some found)
    subst isAddr
    rw [resizeLock_middle resize nodup]
    refine synced.wake queues ?_ ?_ ?_
    · intro waiter
      simp only [parked_append, parked_cons]
      tauto
    · intro waiter linked
      have := pointsBack.apart nodup linked
      simpa only [parked_append, parked_cons, not_mem_nil, false_or] using this
    · intro waiter linked
      exact fromOld waiter ⟨fl, by simp, linked⟩
  case h_2 missing =>
    rw [resizeLock_eq_self]
    · exact synced
    · intro fl mem isAddr
      have := find?_eq_none.mp missing fl mem
      exact this (by simpa using isAddr)

end Lists

/-! ### The loop and the part behind it -/

section Calls

variable {request : Request} {own post : List FileLock} {blocked : List Waiter} {w next : Walk}
  {kept granted rest : List FileLock} {fl : FileLock}

/-- A waiter on the list during the loop was there before, on the lock at the same address. -/
theorem WalkInv.parked_old (inv : WalkInv request own blocked w kept granted rest) :
    ∀ fl ∈ w.done ++ (rest ++ post), ∀ waiter ∈ fl.flBlock,
      ∃ old ∈ own ++ post, old.addr = fl.addr ∧ waiter ∈ old.flBlock := by
  intro fl mem waiter linked
  rw [← append_assoc] at mem
  rcases mem_append.mp mem with visited | foreign
  · obtain ⟨old, inOwn, sameAddr, empty | grown⟩ := inv.origin fl visited
    · rw [empty] at linked
      cases linked
    · rw [grown.same] at linked
      exact ⟨old, mem_append_left _ inOwn, sameAddr, linked⟩
  · exact ⟨fl, mem_append_right _ foreign, rfl, linked⟩

theorem WalkInv.pointsBack (inv : WalkInv request own blocked w kept granted rest)
    (queues : Queues (own ++ post) blocked) : PointsBack (w.done ++ (rest ++ post)) := by
  intro fl mem waiter linked
  obtain ⟨old, source, sameAddr, wasLinked⟩ := inv.parked_old fl mem waiter linked
  rw [← sameAddr]
  exact queues.pointsBack old source waiter wasLinked

variable {locks : List FileLock} {newFl newFl2 : Option Nat}

theorem parked_writeRequest {waiter : Waiter} :
    Parked (writeRequest request locks) waiter ↔ Parked locks waiter := by
  simp only [Parked, writeRequest, mem_map, exists_exists_and_eq_and]
  refine exists_congr fun fl => and_congr_right fun _ => ?_
  split <;> rfl

/-- Every iteration keeps `blocked_list` in step. -/
theorem WalkInv.synced_step (inv : WalkInv request own blocked w kept granted (fl :: rest))
    (queues : Queues (own ++ post) blocked)
    (nodup : ((own ++ post).map fun fl => fl.addr).Nodup) (taken : WalkStep w fl next)
    (synced : Synced (own ++ post) blocked (w.done ++ (fl :: rest ++ post)) w.blocked) :
    Synced (own ++ post) blocked (next.done ++ (rest ++ post)) next.blocked := by
  have allNodup := inv.all_nodup nodup
  have pointsBack := inv.pointsBack queues
  -- taking the lock at hand off the list and waking its waiters
  have remove : Synced (own ++ post) blocked (w.done ++ (rest ++ post)) (locksWakeUpBlocks fl w.blocked) := by
    refine synced.wake queues ?_ (fun waiter => pointsBack.apart allNodup) ?_
    · intro waiter
      simp only [parked_append, parked_cons]
      tauto
    · intro waiter linked
      obtain ⟨old, source, -, wasLinked⟩ := inv.parked_old fl (by simp) waiter linked
      exact ⟨old, source, wasLinked⟩
  cases taken with
  | pass => exact synced.congr fun waiter => by simp
  | passLeft =>
    exact synced.congr fun waiter => by simp
  | mergeFirst =>
    exact synced.congr fun waiter => by
      simp [parked_append, parked_cons, mergedLock]
  | mergeAgain =>
    exact remove.congr fun waiter => by simp only [parked_append, parked_writeRequest]
  | delete => exact remove
  | replace =>
    exact remove.congr fun waiter => by
      simp [parked_append, parked_cons, replacedLock]

theorem WalkStop.blocked_eq {remaining : List FileLock} (stop : WalkStop next remaining w) :
    w.blocked = next.blocked := by
  cases stop <;> rfl

theorem PointsBack.resize (pointsBack : PointsBack locks) (addr : Option Nat) (resize : FileLock → FileLock) :
    PointsBack (resizeLock addr resize locks) := by
  intro fl mem waiter linked
  rcases mem_resizeLock mem with woken | ⟨old, -⟩
  · rw [woken] at linked
    cases linked
  · exact pointsBack fl old waiter linked

/-- The part behind the loop keeps `blocked_list` in step. -/
theorem finish_synced {old : List FileLock} (queues : Queues old blocked)
    (synced : Synced old blocked (w.done ++ w.rest) w.blocked)
    (nodup : ((w.done ++ w.rest).map fun fl => fl.addr).Nodup)
    (pointsBack : PointsBack (w.done ++ w.rest))
    (fromOld : ∀ waiter, Parked (w.done ++ w.rest) waiter → Parked old waiter)
    (fresh : FreshLocks (w.done ++ w.rest) newFl newFl2) :
    Synced old blocked (finish w newFl newFl2).2.1 (finish w newFl newFl2).2.2 := by
  rcases finish_shape w newFl newFl2 with
    same | ⟨pieces, left, locks, resized, copies, isLocks, isResized, same⟩
  · rw [same]
    exact synced
  have noPiece : ∀ fl ∈ pieces, fl.flBlock = [] := by
    rcases copies with rfl | rfl
    · simp
    · exact fun fl mem => (mem_copyRight mem).2
  have noNew : ∀ fl ∈ insertNew w newFl, fl.flBlock = [] := fun fl mem =>
    (mem_insertNew mem).2
  have sameParked : ∀ waiter, Parked (w.done ++ w.rest) waiter ↔ Parked locks waiter := by
    intro waiter
    simp only [isLocks, parked_append, not_parked_of_empty noPiece, not_parked_of_empty noNew, or_false]
  have allNodup : (locks.map fun fl => fl.addr).Nodup := by
    rw [isLocks]
    exact inserted_nodup pieces nodup fresh copies
  have allPointsBack : PointsBack locks := by
    rw [isLocks]
    intro fl mem waiter linked
    simp only [mem_append] at mem
    rcases mem with ((inDone | isPiece) | isNew) | inRest
    · exact pointsBack fl (by simp [inDone]) waiter linked
    · rw [noPiece fl isPiece] at linked
      cases linked
    · rw [noNew fl isNew] at linked
      cases linked
    · exact pointsBack fl (by simp [inRest]) waiter linked
  have allOld : ∀ waiter, Parked locks waiter → Parked old waiter := fun waiter parked =>
    fromOld waiter ((sameParked waiter).mpr parked)
  have cutRight := (synced.congr sameParked).resize queues allNodup allPointsBack allOld w.right
    fun fl => { fl with flStart := w.request.flEnd + 1 }
  rw [← isResized] at cutRight
  have resizedNodup : (resized.map fun fl => fl.addr).Nodup := by
    rw [isResized, resizeLock_addresses _ (by intro; rfl)]
    exact allNodup
  have resizedPointsBack : PointsBack resized := isResized ▸ allPointsBack.resize _ _
  have resizedOld : ∀ waiter, Parked resized waiter → Parked old waiter := by
    rintro waiter ⟨fl, mem, linked⟩
    rw [isResized] at mem
    rcases mem_resizeLock mem with woken | ⟨source, -⟩
    · rw [woken] at linked
      cases linked
    · exact allOld waiter ⟨fl, source, linked⟩
  rw [same]
  exact cutRight.resize queues resizedNodup resizedPointsBack resizedOld left _

/-- A request keeps `blocked_list` in step with the `fl_block` lists. -/
theorem applyRequest_synced (wf : WellFormed locks) (posix : request.flFlags.posix = true)
    (range : LockRange request) (fresh : FreshLocks locks newFl newFl2)
    (queues : Queues locks blocked) :
    Synced locks blocked (applyRequest request newFl newFl2 locks blocked).2.1
      (applyRequest request newFl newFl2 locks blocked).2.2 := by
  obtain ⟨pre, own, post, rfl, grouping, isPre, isRest⟩ := wf.split request
  have others := fun fl mem => (grouping.after fl mem).2
  have tailSub : (own ++ post).Sublist (pre ++ own ++ post) := by
    rw [append_assoc]
    exact sublist_append_right _ _
  have nodup := wf.addresses.sublist (tailSub.map _)
  have tailQueues : Queues (own ++ post) blocked :=
    ⟨fun waiter ⟨fl, mem, linked⟩ => queues.listed waiter ⟨fl, tailSub.subset mem, linked⟩,
      fun fl mem => queues.pointsBack fl (tailSub.subset mem), queues.unique⟩
  obtain ⟨last, kept, granted, rest, inv, synced, stop⟩ := walk_ends blocked grouping.group range
    posix others (fun w remaining => Synced (own ++ post) blocked (w.done ++ remaining) w.blocked)
    (fun waiter => by simp [Walk.start])
    fun inv taken synced => inv.synced_step tailQueues nodup taken synced
  have applied : (applyRequest request newFl newFl2 (pre ++ own ++ post) blocked).2 =
      (pre ++ (finish (walk (Walk.start request blocked) (own ++ post)) newFl newFl2).2.1,
        (finish (walk (Walk.start request blocked) (own ++ post)) newFl newFl2).2.2) := by
    simp only [applyRequest, isPre, isRest]
  obtain ⟨sameDone, sameRest⟩ := stop.lists
  have sameBlocked := stop.blocked_eq
  generalize walk (Walk.start request blocked) (own ++ post) = w at applied sameDone sameRest sameBlocked
  have tail : Synced (own ++ post) blocked (finish w newFl newFl2).2.1 (finish w newFl newFl2).2.2 := by
    refine finish_synced tailQueues ?_ ?_ ?_ ?_ ?_ <;> rw [sameDone, sameRest]
    · rw [sameBlocked]
      exact synced
    · exact inv.all_nodup nodup
    · exact inv.pointsBack tailQueues
    · rintro waiter ⟨fl, mem, linked⟩
      obtain ⟨old, source, -, wasLinked⟩ := inv.parked_old fl mem waiter linked
      exact ⟨old, source, wasLinked⟩
    · exact inv.all_fresh (fresh.sublist tailSub)
  rw [applied]
  -- the locks before the group keep their waiters
  intro waiter
  have preSplit : ∀ l, Parked (pre ++ l) waiter ↔ Parked pre waiter ∨ Parked l waiter := fun l =>
    parked_append
  rw [tail waiter, append_assoc, preSplit, preSplit]
  refine and_congr_right fun _ => ⟨fun stays wasParked => wasParked.imp id stays, ?_⟩
  intro stays wasParked
  refine (stays (.inr wasParked)).resolve_left ?_
  rintro ⟨other, inPre, alsoLinked⟩
  obtain ⟨fl, inTail, linked⟩ := wasParked
  have nodupAll := wf.addresses
  rw [append_assoc, map_append, nodup_append] at nodupAll
  have here := queues.pointsBack fl (tailSub.subset inTail) waiter linked
  have there := queues.pointsBack other (by simp [inPre]) waiter alsoLinked
  exact nodupAll.2.2 other.addr (mem_map_of_mem inPre) fl.addr (mem_map_of_mem inTail) (there.symm.trans here)

end Calls

/-! ### The table -/

/-- The requests on `blocked_list` are those parked on some lock, each with one place and with
`fl_next` pointing to its lock. -/
structure Linked (table : LockTable) : Prop where
  parked : ∀ waiter, waiter ∈ table.blockedList ↔ ∃ inode, Parked (table.iFlock inode) waiter
  next : ∀ inode, ∀ fl ∈ table.iFlock inode, ∀ waiter ∈ fl.flBlock,
    waiter.flNext = ⟨inode, fl.addr⟩
  unique : ∀ waiter ∈ table.blockedList, ∀ other ∈ table.blockedList,
    waiter.addr = other.addr → waiter = other

variable {table : LockTable} {inode other : Nat} {waiter : Waiter} {blocker : FileLock} {request : Request}

theorem Linked.queues (linked : Linked table) (inode : Nat) :
    Queues (table.iFlock inode) table.blockedList where
  listed waiter parked := (linked.parked waiter).mpr ⟨inode, parked⟩
  pointsBack fl mem waiter isLinked := by rw [linked.next inode fl mem waiter isLinked]
  unique := linked.unique

/-- A waiter has its place on one inode. -/
theorem Linked.inode_unique (linked : Linked table) (here : Parked (table.iFlock inode) waiter)
    (there : Parked (table.iFlock other) waiter) : inode = other := by
  obtain ⟨fl, mem, isLinked⟩ := here
  obtain ⟨fl', mem', isLinked'⟩ := there
  have first := linked.next inode fl mem waiter isLinked
  have second := linked.next other fl' mem' waiter isLinked'
  exact congrArg LockPtr.inode (first.symm.trans second)

/-- The blocker gets one more waiter and everything else stays. -/
theorem parked_locksInsertBlock (nodup : ((table.iFlock inode).map fun fl => fl.addr).Nodup)
    (onList : blocker ∈ table.iFlock inode) :
    Parked ((locksInsertBlock table inode blocker request).iFlock other) waiter ↔
      Parked (table.iFlock other) waiter ∨
        (other = inode ∧ waiter = { request with flNext := ⟨inode, blocker.addr⟩ }) := by
  constructor
  · rintro ⟨fl, mem, linked⟩
    rcases mem_locksInsertBlock nodup onList mem with old | ⟨rfl, rfl⟩
    · exact .inl ⟨fl, old, linked⟩
    · rcases mem_append.mp linked with earlier | new
      · exact .inl ⟨blocker, onList, earlier⟩
      · exact .inr ⟨rfl, mem_singleton.mp new⟩
  · rintro (⟨fl, mem, linked⟩ | ⟨rfl, rfl⟩)
    · by_cases same : other = inode
      · subst same
        simp only [locksInsertBlock, update_self]
        refine ⟨_, mem_map_of_mem mem, ?_⟩
        split
        · exact mem_append_left _ linked
        · exact linked
      · refine ⟨fl, ?_, linked⟩
        simp only [locksInsertBlock, update_of_ne same]
        exact mem
    · simp only [locksInsertBlock, update_self]
      refine ⟨_, mem_map_of_mem onList, ?_⟩
      simp

theorem Linked.park (linked : Linked table) (nodup : ((table.iFlock inode).map fun fl => fl.addr).Nodup)
    (onList : blocker ∈ table.iFlock inode)
    (notParked : ∀ waiter ∈ table.blockedList, waiter.addr ≠ request.addr) :
    Linked (locksInsertBlock table inode blocker request) := by
  have isList : (locksInsertBlock table inode blocker request).blockedList =
      { request with flNext := ⟨inode, blocker.addr⟩ } :: table.blockedList := rfl
  refine ⟨fun waiter => ?_, ?_, ?_⟩
  · rw [isList, mem_cons, linked.parked waiter]
    simp only [parked_locksInsertBlock nodup onList, exists_or, exists_eq_left]
    exact or_comm
  · intro other fl mem waiter isLinked
    rcases mem_locksInsertBlock nodup onList mem with old | ⟨rfl, rfl⟩
    · exact linked.next other fl old waiter isLinked
    · rcases mem_append.mp isLinked with earlier | new
      · exact linked.next other blocker onList waiter earlier
      · obtain rfl := mem_singleton.mp new
        rfl
  · rw [isList]
    simp only [mem_cons]
    rintro waiter (rfl | first) other (rfl | second) same
    · rfl
    · exact absurd same.symm (notParked other second)
    · exact absurd same (notParked waiter first)
    · exact linked.unique waiter first other second same

/-- Interrupting a waiter takes it off both lists. -/
theorem Linked.interrupt (linked : Linked table) (addr : Nat) : Linked (locksDeleteBlock table addr) := by
  refine ⟨fun waiter => ?_, ?_, ?_⟩
  · rw [locksDeleteBlock, mem_filter, linked.parked waiter, ← exists_and_right]
    refine exists_congr fun inode => ⟨?_, ?_⟩
    · rintro ⟨⟨fl, mem, isLinked⟩, other⟩
      exact ⟨_, mem_map_of_mem mem, mem_filter.mpr ⟨isLinked, other⟩⟩
    · rintro ⟨fl, mem, isLinked⟩
      obtain ⟨old, source, rfl⟩ := mem_map.mp mem
      obtain ⟨isLinked, other⟩ := mem_filter.mp isLinked
      exact ⟨⟨old, source, isLinked⟩, other⟩
  · intro inode fl mem waiter isLinked
    obtain ⟨old, source, rfl⟩ := mem_map.mp mem
    exact linked.next inode old source waiter (mem_filter.mp isLinked).1
  · intro waiter first other second
    exact linked.unique waiter (mem_filter.mp first).1 other (mem_filter.mp second).1

/-- A waiter parked after a request was parked before on the lock at the same address. -/
theorem Updated.parked_old {pre own own' post : List FileLock}
    (updated : Updated request own own') {fl : FileLock} (mem : fl ∈ pre ++ own' ++ post)
    (linked : waiter ∈ fl.flBlock) :
    ∃ old ∈ pre ++ own ++ post, old.addr = fl.addr ∧ old.flOwner = fl.flOwner ∧ waiter ∈ old.flBlock := by
  simp only [mem_append] at mem
  rcases mem with (inPre | inOwn) | inPost
  · exact ⟨fl, by simp [inPre], rfl, rfl, linked⟩
  · rcases updated.waiters fl inOwn with woken | ⟨old, source, grown⟩
    · rw [woken] at linked
      cases linked
    · rw [grown.same] at linked ⊢
      exact ⟨old, by simp [source], rfl, rfl, linked⟩
  · exact ⟨fl, by simp [inPost], rfl, rfl, linked⟩

theorem Linked.step {table next : LockTable} {action : LockAction} {events : List Ret}
    (linked : Linked table) (inv : TableInv table) (taken : LockStep table action events next) :
    Linked next := by
  cases taken with
  | interrupt => exact linked.interrupt _
  | @lock inode request newFl newFl2 admissible =>
    rcases posixLockFile_cases table inode request newFl newFl2 rfl with
      ⟨fl, onList, -, -, ⟨sameTable, -⟩ | ⟨-, -, parked⟩⟩ |
      ⟨-, ⟨-, sameTable⟩ | ⟨-, needed, _, rfl, -, changed⟩⟩
    · rw [sameTable]
      exact linked
    · rw [parked]
      exact linked.park (inv.wellFormed inode).addresses onList admissible.notParked
    · rw [sameTable]
      exact linked
    · have synced := applyRequest_synced (inv.wellFormed inode) admissible.posix
        admissible.range (admissible.freshLocks needed) (linked.queues inode)
      obtain ⟨pre, own, post, isList, grouping, ⟨-, own', isNew, updated, -⟩ | ⟨-, same⟩⟩ :=
        applyRequest_spec table.blockedList (inv.wellFormed inode) admissible.posix
          admissible.range (admissible.freshLocks needed)
      swap
      · rw [changed, same]
        simpa only [update_eq_self] using linked
      rw [changed, isNew]
      rw [isNew] at synced
      have stillParked : ∀ waiter, Parked (pre ++ own' ++ post) waiter →
          Parked (table.iFlock inode) waiter := by
        rintro waiter ⟨fl, mem, isLinked⟩
        obtain ⟨old, source, -, -, wasLinked⟩ := updated.parked_old mem isLinked
        exact ⟨old, isList ▸ source, wasLinked⟩
      refine ⟨fun waiter => ?_, ?_, ?_⟩
      · dsimp only
        rw [synced waiter, linked.parked waiter]
        constructor
        · rintro ⟨⟨other, parked⟩, stays⟩
          by_cases same : other = inode
          · subst same
            exact ⟨other, by rw [update_self]; exact stays parked⟩
          · exact ⟨other, by rw [update_of_ne same]; exact parked⟩
        · rintro ⟨other, parked⟩
          by_cases same : other = inode
          · subst same
            rw [update_self] at parked
            exact ⟨⟨other, stillParked waiter parked⟩, fun _ => parked⟩
          · rw [update_of_ne same] at parked
            exact ⟨⟨other, parked⟩, fun here => absurd (linked.inode_unique parked here) same⟩
      · intro other fl mem waiter isLinked
        dsimp only at mem
        by_cases same : other = inode
        · subst same
          rw [update_self] at mem
          obtain ⟨old, source, sameAddr, -, wasLinked⟩ := updated.parked_old mem isLinked
          rw [← sameAddr]
          exact linked.next other old (isList ▸ source) waiter wasLinked
        · rw [update_of_ne same] at mem
          exact linked.next other fl mem waiter isLinked
      · intro waiter first other second
        exact linked.unique waiter ((synced waiter).mp first).1 other ((synced other).mp second).1

/-- In every reachable state the queues are linked. -/
theorem LockRun.linked {actions : List LockAction} {trace : List Ret}
    (run : LockRun actions trace table) : Linked table := by
  have empty : Linked LockTable.empty := by
    refine ⟨fun waiter => ?_, ?_, ?_⟩
    · simp [LockTable.empty, Parked]
    · intro inode fl mem
      cases mem
    · intro waiter mem
      cases mem
  induction run with
  | nil => exact empty
  | snoc before taken ih =>
    exact ih.step (LockRun.tableInv before) taken

/-- A blocked request of the first owner is queued on a lock of the second. -/
def WaitsFor (table : LockTable) (first second : LockOwner) : Prop :=
  ∃ inode, ∃ fl ∈ table.iFlock inode, ∃ waiter ∈ fl.flBlock,
    ownerKey waiter.flOwner = first ∧ ownerKey fl.flOwner = second

/-- Each owner waits for at most one lock. -/
def OneWaitPerOwner (table : LockTable) : Prop :=
  ∀ waiter ∈ table.blockedList, ∀ other ∈ table.blockedList,
    posixSameOwner waiter.flOwner other.flOwner = true → waiter = other

/-- A step of the lock table that leaves no owner with two waits. -/
def SingleWaitStep (table : LockTable) (action : LockAction) (events : List Ret)
    (next : LockTable) : Prop :=
  LockStep table action events next ∧ OneWaitPerOwner next

/-- Runs in which each owner waits for at most one lock at a time. -/
abbrev SingleWaitRun := Library.Run SingleWaitStep LockTable.empty

variable {actions : List LockAction} {trace : List Ret}

theorem SingleWaitRun.lockRun (run : SingleWaitRun actions trace table) : LockRun actions trace table := by
  induction run with
  | nil => exact .nil
  | snoc _ taken ih => exact .snoc ih taken.1

/-! ### The walk follows the relation -/

section Walk

variable {caller : Request} {blockFl : FileLock}

/-- The lock that the walk goes to from a lock is the one its owner waits for. -/
theorem whatOwnerIsWaitingFor_of_waitsFor (linked : Linked table) (inv : TableInv table)
    (single : OneWaitPerOwner table) {second : LockOwner}
    (waits : WaitsFor table (ownerKey blockFl.flOwner) second) :
    ∃ next, whatOwnerIsWaitingFor table blockFl = some next ∧ ownerKey next.flOwner = second := by
  obtain ⟨inode, fl, mem, waiter, isLinked, owner, rfl⟩ := waits
  refine ⟨fl, ?_, rfl⟩
  have onList : waiter ∈ table.blockedList :=
    (linked.parked waiter).mpr ⟨inode, fl, mem, isLinked⟩
  have found : table.blockedList.find?
      (fun waiter => posixSameOwner waiter.flOwner blockFl.flOwner) = some waiter := by
    cases search : table.blockedList.find? (fun waiter => posixSameOwner waiter.flOwner blockFl.flOwner) with
    | none =>
      exact absurd (posixSameOwner_iff.mpr owner) (find?_eq_none.mp search waiter onList)
    | some other =>
      have sameOwner : posixSameOwner other.flOwner blockFl.flOwner = true := by
        simpa using find?_some search
      exact congrArg some (single other (mem_of_find?_eq_some search) waiter onList
        (posixSameOwner_iff.mpr ((posixSameOwner_iff.mp sameOwner).trans owner.symm)))
  have pointsTo : table.deref waiter.flNext = some fl := by
    rw [linked.next inode fl mem waiter isLinked, LockTable.deref]
    have nodup := (inv.wellFormed inode).addresses
    cases search : (table.iFlock inode).find? (fun other => other.addr = fl.addr) with
    | none => exact absurd (by simp) (find?_eq_none.mp search fl mem)
    | some other =>
      have sameAddr : other.addr = fl.addr := by simpa using find?_some search
      exact congrArg some (inj_on_of_nodup_map nodup (mem_of_find?_eq_some search) mem sameAddr)
  simp [whatOwnerIsWaitingFor, found, pointsTo]

/-- The walk finds the caller at the end of every path of the waits-for relation it has enough
iterations for. -/
theorem deadlockWalk_of_path (linked : Linked table) (inv : TableInv table)
    (single : OneWaitPerOwner table) {length left : Nat} (enough : length < left)
    {source : LockOwner} (isSource : ownerKey blockFl.flOwner = source)
    (path : Path (WaitsFor table) (length + 1) source (ownerKey caller.flOwner)) :
    deadlockWalk table caller left blockFl = true := by
  induction length generalizing left blockFl source with
  | zero =>
    obtain ⟨left, rfl⟩ := Nat.exists_eq_add_of_lt enough
    cases path with
    | cons edge rest =>
      cases rest
      obtain ⟨next, found, isCaller⟩ :=
        whatOwnerIsWaitingFor_of_waitsFor linked inv single (isSource ▸ edge)
      simp [deadlockWalk, found, posixSameOwner_iff.mpr isCaller.symm]
  | succ length ih =>
    obtain ⟨left, rfl⟩ : ∃ n, left = n + 1 := ⟨left - 1, by omega⟩
    cases path with
    | cons edge rest =>
      obtain ⟨next, found, isNext⟩ :=
        whatOwnerIsWaitingFor_of_waitsFor linked inv single (isSource ▸ edge)
      have further := ih (by omega : length < left) isNext rest
      simp [deadlockWalk, found, further]

end Walk

/-! ### No short cycle forms -/

/-- No cycle of at most `MAX_DEADLK_ITERATIONS + 2` owners. -/
def NoShortCycle (table : LockTable) : Prop :=
  ∀ (length : Nat) (owner : LockOwner), 0 < length → length ≤ maxDeadlkIterations + 2 →
    ¬ Path (WaitsFor table) length owner owner

theorem NoShortCycle.of_fewer {next : LockTable} (old : NoShortCycle table)
    (fewer : ∀ {first second}, WaitsFor next first second → WaitsFor table first second) :
    NoShortCycle next :=
  fun length owner positive short cycle => old length owner positive short (cycle.mono fewer)

/-- Parking a request adds one edge to the waits-for relation. -/
theorem waitsFor_locksInsertBlock (nodup : ((table.iFlock inode).map fun fl => fl.addr).Nodup)
    (onList : blocker ∈ table.iFlock inode) {first second : LockOwner}
    (waits : WaitsFor (locksInsertBlock table inode blocker request) first second) :
    WaitsFor table first second ∨ (first = ownerKey request.flOwner ∧ second = ownerKey blocker.flOwner) := by
  obtain ⟨other, fl, mem, waiter, isLinked, isFirst, isSecond⟩ := waits
  rcases mem_locksInsertBlock nodup onList mem with old | ⟨rfl, rfl⟩
  · exact .inl ⟨other, fl, old, waiter, isLinked, isFirst, isSecond⟩
  · rcases mem_append.mp isLinked with earlier | new
    · exact .inl ⟨other, blocker, onList, waiter, earlier, isFirst, isSecond⟩
    · obtain rfl := mem_singleton.mp new
      exact .inr ⟨isFirst.symm, isSecond.symm⟩

/-- The walk refuses to close a short cycle. -/
theorem NoShortCycle.park (old : NoShortCycle table) (linked : Linked table)
    (inv : TableInv table) (single : OneWaitPerOwner table)
    (onList : blocker ∈ table.iFlock inode)
    (conflict : posixLocksConflict request blocker.toRequest = true)
    (noDeadlock : posixLocksDeadlock table request blocker = false) :
    NoShortCycle (locksInsertBlock table inode blocker request) := by
  intro length owner positive short cycle
  rcases cycle_of_new_edge (waitsFor_locksInsertBlock (inv.wellFormed inode).addresses onList) cycle with
    before | ⟨fewer, less, back⟩
  · exact old length owner positive short before
  · cases fewer with
    | zero =>
      have differ := (posixLocksConflict_iff.mp conflict).2.1
      rw [posixSameOwner_false_iff] at differ
      exact differ back.eq_of_zero.symm
    | succ fewer =>
      have found : deadlockWalk table request (maxDeadlkIterations + 1) blocker = true :=
        deadlockWalk_of_path linked inv single (by omega) rfl back
      rw [posixLocksDeadlock, found] at noDeadlock
      cases noDeadlock

/-- Every step keeps the relation free of short cycles. -/
theorem NoShortCycle.step {table next : LockTable} {action : LockAction} {events : List Ret}
    (old : NoShortCycle table) (linked : Linked table) (inv : TableInv table)
    (single : OneWaitPerOwner table) (taken : LockStep table action events next) :
    NoShortCycle next := by
  cases taken with
  | interrupt =>
    refine old.of_fewer ?_
    rintro first second ⟨inode, fl, mem, waiter, isLinked, owners⟩
    obtain ⟨source, sourceMember, rfl⟩ := mem_map.mp mem
    exact ⟨inode, source, sourceMember, waiter, (mem_filter.mp isLinked).1, owners⟩
  | @lock inode request newFl newFl2 admissible =>
    rcases posixLockFile_cases table inode request newFl newFl2 rfl with
      ⟨fl, onList, -, conflict, ⟨sameTable, -⟩ | ⟨-, noDeadlock, parked⟩⟩ |
      ⟨-, ⟨-, sameTable⟩ | ⟨-, needed, _, rfl, -, changed⟩⟩
    · rw [sameTable]
      exact old
    · rw [parked]
      exact old.park linked inv single onList conflict noDeadlock
    · rw [sameTable]
      exact old
    · obtain ⟨pre, own, post, isList, grouping, ⟨-, own', isNew, updated, -⟩ | ⟨-, same⟩⟩ :=
        applyRequest_spec table.blockedList (inv.wellFormed inode) admissible.posix
          admissible.range (admissible.freshLocks needed)
      swap
      · rw [changed, same]
        simpa only [update_eq_self] using old
      rw [changed, isNew]
      refine old.of_fewer ?_
      rintro first second ⟨other, fl, mem, waiter, isLinked, isFirst, isSecond⟩
      dsimp only at mem
      by_cases same : other = inode
      · subst same
        rw [update_self] at mem
        obtain ⟨source, sourceMember, -, sameOwner, wasLinked⟩ :=
          updated.parked_old mem isLinked
        exact ⟨other, source, isList ▸ sourceMember, waiter, wasLinked, isFirst, sameOwner ▸ isSecond⟩
      · rw [update_of_ne same] at mem
        exact ⟨other, fl, mem, waiter, isLinked, isFirst, isSecond⟩

theorem SingleWaitRun.single (run : SingleWaitRun actions trace table) : OneWaitPerOwner table := by
  cases run with
  | nil =>
    intro waiter mem
    cases mem
  | snoc _ taken => exact taken.2

theorem SingleWaitRun.noShortCycle (run : SingleWaitRun actions trace table) : NoShortCycle table := by
  induction run with
  | nil =>
    intro length owner positive short cycle
    cases cycle with
    | nil => cases positive
    | cons edge _ =>
      obtain ⟨inode, fl, mem, -⟩ := edge
      cases mem
  | snoc before taken ih =>
    have reached := SingleWaitRun.lockRun before
    exact ih.step (LockRun.linked reached) (LockRun.tableInv reached) (SingleWaitRun.single before) taken.1

/-- In every run in which each owner waits for at most one lock at a time, the waits-for relation
has no cycle of up to twelve owners, because a sleeping request whose blocker leads back to its
owner in up to eleven waits is refused with `-EDEADLK`. -/
theorem singleWaitRun_no_short_cycle {actions : List LockAction} {trace : List Ret}
    {table : LockTable} (run : SingleWaitRun actions trace table) :
    (∀ length owner, 0 < length → length ≤ maxDeadlkIterations + 2 →
      ¬ Path (WaitsFor table) length owner owner) ∧
    (∀ inode request newFl newFl2 fl length, request.flType ≠ .unlck →
      request.flFlags.sleep = true →
      (table.iFlock inode).find? (fun fl => posixLocksConflict request fl.toRequest) = some fl →
      length ≤ maxDeadlkIterations + 1 →
      Path (WaitsFor table) length (ownerKey fl.flOwner) (ownerKey request.flOwner) →
      (posixLockFile table inode request newFl newFl2).ret = .EDEADLK) := by
  have reached := SingleWaitRun.lockRun run
  refine ⟨SingleWaitRun.noShortCycle run, ?_⟩
  intro inode request newFl newFl2 fl length locking sleeps first short back
  have deadlock : posixLocksDeadlock table request fl = true := by
    cases length with
    | zero =>
      have conflict : posixLocksConflict request fl.toRequest = true := by
        simpa using find?_some first
      have differ := (posixLocksConflict_iff.mp conflict).2.1
      rw [posixSameOwner_false_iff] at differ
      exact absurd back.eq_of_zero.symm differ
    | succ length =>
      exact deadlockWalk_of_path (LockRun.linked reached) (LockRun.tableInv reached)
        (SingleWaitRun.single run) short rfl back
  simp [posixLockFile, locking, first, sleeps, deadlock]

/-! ### Thirteen owners -/

/-- A check that a run meets the promises of the callers and leaves no owner with two waits. -/
def checkSingleRun : LockTable → List LockAction → Bool
  | _, [] => true
  | table, action :: actions =>
    action.check table &&
    (action.apply table).blockedList.all (fun waiter =>
      (action.apply table).blockedList.all fun other =>
        !posixSameOwner waiter.flOwner other.flOwner || waiter = other) &&
    checkSingleRun (action.apply table) actions

theorem singleWaitRun_of_check {done : List LockAction} (before : SingleWaitRun done trace table)
    (passes : checkSingleRun table actions = true) :
    ∃ trace, SingleWaitRun (done ++ actions) trace (actions.foldl LockAction.apply table) := by
  induction actions generalizing done trace table with
  | nil => exact ⟨trace, by simpa using before⟩
  | cons action actions ih =>
    simp only [checkSingleRun, Bool.and_eq_true, all_eq_true, Bool.or_eq_true, decide_eq_true_eq] at passes
    obtain ⟨events, taken⟩ := LockAction.step_of_check passes.1.1
    have single : OneWaitPerOwner (action.apply table) := by
      intro waiter first other second same
      rcases passes.1.2 waiter first other second with differ | equal
      · rw [same] at differ
        cases differ
      · exact equal
    have longer := ih (before.snoc ⟨taken, single⟩) passes.2
    simpa using longer

/-- Thirteen processes lock one byte each, and then each waits for the byte of the next one. -/
def thirteenActions : List LockAction :=
  (List.range 13).map (fun i =>
    .lock 0 (processRequest (100 + i) i {} .wrlck i i) (some (200 + i)) (some (300 + i))) ++
  (List.range 13).map (fun i =>
    .lock 0 (processRequest (400 + i) i { sleep := true } .wrlck ((i + 1) % 13 : Nat)
      ((i + 1) % 13 : Nat)) (some (500 + i)) (some (600 + i)))

theorem thirteenActions_pass : checkSingleRun LockTable.empty thirteenActions = true := by
  decide

/-- Each of the thirteen waits for the next, and the last for the first. -/
theorem thirteenActions_wait : ∀ i < 13,
    ∃ fl ∈ (thirteenActions.foldl LockAction.apply LockTable.empty).iFlock 0,
      ∃ waiter ∈ fl.flBlock, ownerKey waiter.flOwner = .files (i % 13) 0 ∧
        ownerKey fl.flOwner = .files ((i + 1) % 13) 0 := by
  decide

/-- A run in which each owner waits for at most one lock reaches a cycle of thirteen owners: the
walk gives up after `MAX_DEADLK_ITERATIONS + 1` comparisons, one wait short of the requester. -/
theorem singleWaitRun_long_cycle :
    ∃ actions trace table, SingleWaitRun actions trace table ∧
      ∃ length owner, 0 < length ∧ Path (WaitsFor table) length owner owner := by
  obtain ⟨trace, run⟩ := singleWaitRun_of_check .nil thirteenActions_pass
  refine ⟨_, trace, _, run, 13, .files 0 0, by decide, ?_⟩
  have around : Path (WaitsFor (thirteenActions.foldl LockAction.apply LockTable.empty)) 13
      (.files (0 % 13) 0) (.files ((0 + 13) % 13) 0) := by
    refine Path.of_succ (f := fun i => LockOwner.files (i % 13) 0) (m := 0) ?_
    intro i less
    rw [Nat.zero_add]
    exact ⟨0, thirteenActions_wait i less⟩
  exact around

/-- The theorem applied where one process waits for another. -/
theorem singleWaitRun_no_short_cycle_parked :
    ∃ trace table, SingleWaitRun parkedActions trace table ∧
      (∃ waiter, waiter ∈ table.blockedList) ∧
      ∀ length owner, 0 < length → length ≤ maxDeadlkIterations + 2 →
        ¬ Path (WaitsFor table) length owner owner := by
  have passes : checkSingleRun LockTable.empty parkedActions = true := by decide
  obtain ⟨trace, run⟩ := singleWaitRun_of_check .nil passes
  refine ⟨trace, _, run, ?_, (singleWaitRun_no_short_cycle run).1⟩
  exact exists_mem_of_ne_nil _ (by decide)

end LinuxKernel.Fs.Locks
