/-
Module: LinuxKernel.Fs.Locks
Purpose: The POSIX byte-range locks of `fs/locks.c`. A pointer to a lock is its address, and a write through
  it rewrites the lock there. Every call holds the kernel lock, so a call is one step. Then the invariant of
  the loop over the locks of one owner: overriding the locks still in place with the request as grown so far
  gives what overriding the original locks with the original request gives.
Trusted boundary: human-reviewed spec
Main exports: LockTable, posixLocksDeadlock, posixLockFile, LockStep, WalkInv, WalkInv.step
-/
import LinuxKernel.Library.Runs
import LinuxKernel.Library.IntervalList

namespace LinuxKernel.Fs.Locks

/-- `F_RDLCK`, `F_WRLCK`, `F_UNLCK`. -/
inductive LockType where
  | rdlck | wrlck | unlck
deriving DecidableEq, Repr

/-- The fields `posix_same_owner` reads. Locks of the in-kernel lock manager have `fl_lmops =
&nlmsvc_lock_operations`, the only table with an `fl_compare_owner`, and an `nlm_host` as
`fl_owner`; for all others `fl_owner` is some other kernel object, such as the `files_struct` of
the process. -/
inductive LockOwner where
  | files (object flPid : Nat)
  | lockd (host flPid : Nat)
deriving DecidableEq, Repr

/-- `posix_same_owner(fl1, fl2)`. Two kernel objects of different kinds have different addresses,
so `fl1->fl_owner == fl2->fl_owner` is false between the two kinds. -/
def posixSameOwner : LockOwner → LockOwner → Bool
  -- fl2->fl_lmops == fl1->fl_lmops && nlmsvc_same_owner(fl1, fl2)
  | .lockd host pid, .lockd host' pid' => host = host' && pid = pid'
  | .lockd _ _, .files _ _ => false
  | .files object _, .files object' _ => object = object'
  | .files _ _, .lockd _ _ => false

/-- The bits of `fl_flags` this file tests: `FL_POSIX`, `FL_ACCESS`, `FL_EXISTS`, `FL_SLEEP`. -/
structure LockFlags where
  posix : Bool := true
  access : Bool := false
  exist : Bool := false
  sleep : Bool := false
deriving DecidableEq, Repr

/-- The largest `loff_t`. -/
def offsetMax : Int := 2 ^ 63 - 1

/-- A `struct file_lock` without its links. Offsets are signed; the source only forms `start - 1`
of an offset that is not negative and `end + 1` of an offset below another one. -/
structure Request where
  addr : Nat
  flOwner : LockOwner
  flFlags : LockFlags
  flType : LockType
  flStart : Int
  flEnd : Int
deriving DecidableEq, Repr

/-- A pointer to a granted lock: the inode whose list it is on, and its address. -/
structure LockPtr where
  inode : Nat
  addr : Nat
deriving DecidableEq, Repr

/-- A parked request with its `fl_next`, the lock it waits for. -/
structure Waiter extends Request where
  flNext : LockPtr
deriving DecidableEq, Repr

/-- A lock on an inode's list, with its `fl_block` list of waiters in the order they blocked. -/
structure FileLock extends Request where
  flBlock : List Waiter
deriving DecidableEq, Repr

/-- `i_flock` of every inode, and the global `blocked_list`, latest first. -/
structure LockTable where
  iFlock : Nat → List FileLock
  blockedList : List Waiter

/-- No locks and no waiters. -/
def LockTable.empty : LockTable := { iFlock := fun _ => [], blockedList := [] }

variable (table : LockTable)

/-- The lock a pointer points to. -/
def LockTable.deref (ptr : LockPtr) : Option FileLock :=
  (table.iFlock ptr.inode).find? fun fl => fl.addr = ptr.addr

/-- `locks_overlap(fl1, fl2)`. -/
def locksOverlap (fl1 fl2 : Request) : Bool :=
  fl1.flEnd ≥ fl2.flStart && fl2.flEnd ≥ fl1.flStart

/-- `locks_conflict(caller_fl, sys_fl)`. -/
def locksConflict (caller sys : Request) : Bool :=
  sys.flType = .wrlck || caller.flType = .wrlck

/-- `posix_locks_conflict(caller_fl, sys_fl)`. -/
def posixLocksConflict (caller sys : Request) : Bool :=
  if !sys.flFlags.posix || posixSameOwner caller.flOwner sys.flOwner then false
  else if !locksOverlap caller sys then false
  else locksConflict caller sys

/-! ### Waiters -/

/-- Unlink waiters from `blocked_list`. -/
def unlinkWaiters (waiters : List Waiter) (blocked : List Waiter) : List Waiter :=
  blocked.filter fun waiter => waiters.all fun woken => woken.addr ≠ waiter.addr

/-- `locks_wake_up_blocks(blocker)` on `blocked_list`: `__locks_delete_block` for every waiter of
the blocker. The caller empties the blocker's own list. -/
def locksWakeUpBlocks (blocker : FileLock) (blocked : List Waiter) : List Waiter :=
  unlinkWaiters blocker.flBlock blocked

/-- `locks_insert_block(blocker, waiter)`: last on the blocker's list, first on `blocked_list`. -/
def locksInsertBlock (inode : Nat) (blocker : FileLock) (request : Request) : LockTable :=
  let waiter : Waiter := { request with flNext := ⟨inode, blocker.addr⟩ }
  { iFlock := Function.update table.iFlock inode <| (table.iFlock inode).map fun fl =>
      if fl.addr = blocker.addr then { fl with flBlock := fl.flBlock ++ [waiter] } else fl
    blockedList := waiter :: table.blockedList }

/-- `locks_delete_block(waiter)`, when a sleeper is interrupted. -/
def locksDeleteBlock (addr : Nat) : LockTable :=
  { iFlock := fun inode => (table.iFlock inode).map fun fl =>
      { fl with flBlock := fl.flBlock.filter fun waiter => waiter.addr ≠ addr }
    blockedList := table.blockedList.filter fun waiter => waiter.addr ≠ addr }

/-- `MAX_DEADLK_ITERATIONS`. -/
def maxDeadlkIterations : Nat := 10

/-- `what_owner_is_waiting_for(block_fl)`: `fl_next` of the first blocked request of the owner. -/
def whatOwnerIsWaitingFor (blockFl : FileLock) : Option FileLock := do
  let waiter ← table.blockedList.find? fun waiter => posixSameOwner waiter.flOwner blockFl.flOwner
  table.deref waiter.flNext

/-- The loop of `posix_locks_deadlock`, with the number of comparisons left before
`i++ > MAX_DEADLK_ITERATIONS` gives up. -/
def deadlockWalk (caller : Request) : Nat → FileLock → Bool
  | 0, _ => false
  | left + 1, blockFl =>
    match whatOwnerIsWaitingFor table blockFl with
    | none => false
    | some next =>
      if posixSameOwner caller.flOwner next.flOwner then true
      else deadlockWalk caller left next

/-- `posix_locks_deadlock(caller_fl, block_fl)`. -/
def posixLocksDeadlock (caller : Request) (blockFl : FileLock) : Bool :=
  deadlockWalk table caller (maxDeadlkIterations + 1) blockFl

/-! ### `__posix_lock_file` -/

/-- Return values. -/
inductive Ret where
  | ok | EAGAIN | EDEADLK | ENOLCK | ENOENT | FILE_LOCK_DEFERRED
deriving DecidableEq, Repr

/-- The locals of the loop over the locks of one owner. `done` are the locks passed since the
first of them, `rest` those from `*before` on. `request` is the object `request` points to: the
caller's, or after `request = fl` the lock on the list with the same address. -/
structure Walk where
  done : List FileLock
  rest : List FileLock
  request : Request
  added : Bool
  left : Option Nat
  right : Option Nat
  blocked : List Waiter

/-- The locals before the loop. -/
def Walk.start (request : Request) (blocked : List Waiter) : Walk :=
  { done := [], rest := [], request, added := false, left := none, right := none,
    blocked }

/-- A write through `request` when it points to a lock of the list. -/
def writeRequest (request : Request) (locks : List FileLock) : List FileLock :=
  locks.map fun fl =>
    if fl.addr = request.addr then { fl with flStart := request.flStart, flEnd := request.flEnd } else fl

/-- The loop `while ((fl = *before) && posix_same_owner(request, fl))` of `__posix_lock_file`.
The last argument is the list from `*before` on. -/
def walk (w : Walk) : List FileLock → Walk
  | [] => { w with rest := [] }
  | fl :: rest =>
    let request := w.request
    if !posixSameOwner request.flOwner fl.flOwner then { w with rest := fl :: rest }
    else if request.flType = fl.flType then
      if fl.flEnd < request.flStart - 1 then walk { w with done := w.done ++ [fl] } rest
      else if fl.flStart - 1 > request.flEnd then { w with rest := fl :: rest }
      else
        -- one lock from the lower start to the higher end of both
        let start := if fl.flStart > request.flStart then request.flStart else fl.flStart
        let stop := if fl.flEnd < request.flEnd then request.flEnd else fl.flEnd
        let request' := { request with flStart := start, flEnd := stop }
        if w.added then
          walk { w with
            done := writeRequest request' w.done
            request := request'
            blocked := locksWakeUpBlocks fl w.blocked } rest
        else
          let fl' := { fl with flStart := start, flEnd := stop }
          walk { w with done := w.done ++ [fl'], request := fl'.toRequest, added := true } rest
    else
      if fl.flEnd < request.flStart then walk { w with done := w.done ++ [fl] } rest
      else if fl.flStart > request.flEnd then { w with rest := fl :: rest }
      else
        let w := if request.flType = .unlck then { w with added := true } else w
        let w := if fl.flStart < request.flStart then { w with left := some fl.addr } else w
        if fl.flEnd > request.flEnd then { w with right := some fl.addr, rest := fl :: rest }
        else if fl.flStart ≥ request.flStart then
          if w.added then walk { w with blocked := locksWakeUpBlocks fl w.blocked } rest
          else
            -- replace the old lock with the new one
            let fl' := { fl with
              flStart := request.flStart, flEnd := request.flEnd, flType := request.flType, flBlock := [] }
            walk { w with
              done := w.done ++ [fl']
              request := fl'.toRequest
              added := true
              blocked := locksWakeUpBlocks fl w.blocked } rest
        else walk { w with done := w.done ++ [fl] } rest

/-- Change the range of the lock at an address, if there is one, and empty its `fl_block`. -/
def resizeLock (addr : Option Nat) (resize : FileLock → FileLock) (locks : List FileLock) : List FileLock :=
  locks.map fun fl => if addr = some fl.addr then { resize fl with flBlock := [] } else fl

/-- `locks_wake_up_blocks` of the lock at an address, if there is one, on `blocked_list`. -/
def wakeLock (addr : Option Nat) (locks : List FileLock) (blocked : List Waiter) : List Waiter :=
  match locks.find? fun fl => addr = some fl.addr with
  | some fl => locksWakeUpBlocks fl blocked
  | none => blocked

/-- `locks_copy_lock(new_fl2, right)`. -/
def copyRight (w : Walk) (newFl2 : Option Nat) : List FileLock :=
  match w.rest.find? fun fl => w.right = some fl.addr, newFl2 with
  | some fl, some addr => [{ fl with addr, flBlock := [] }]
  | _, _ => []

/-- `locks_copy_lock(new_fl, request)` when no lock of the list holds the request yet. -/
def insertNew (w : Walk) (newFl : Option Nat) : List FileLock :=
  match newFl with
  | some addr => if w.added then [] else [{ w.request with addr, flBlock := [] }]
  | none => []

/-- The part of `__posix_lock_file` behind the loop: the return value, the locks from the first
one of the owner on, and `blocked_list`. -/
def finish (w : Walk) (newFl newFl2 : Option Nat) : Ret × List FileLock × List Waiter :=
  if w.right.isSome ∧ w.left = w.right ∧ newFl2 = none then
    (.ENOLCK, w.done ++ w.rest, w.blocked)
  else if w.added = false ∧ w.request.flType = .unlck then
    (if w.request.flFlags.exist then .ENOENT else .ok, w.done ++ w.rest, w.blocked)
  else if w.added = false ∧ newFl = none then
    (.ENOLCK, w.done ++ w.rest, w.blocked)
  else
    -- The new lock breaks the old one in two pieces, so we have to use the second new lock.
    let split := w.right.isSome ∧ w.left = w.right
    let pieces := if split then copyRight w newFl2 else []
    let left := if split then newFl2 else w.left
    let locks := w.done ++ pieces ++ insertNew w newFl ++ w.rest
    let resized := resizeLock w.right (fun fl => { fl with flStart := w.request.flEnd + 1 }) locks
    (.ok, resizeLock left (fun fl => { fl with flEnd := w.request.flStart - 1 }) resized,
      wakeLock left resized (wakeLock w.right locks w.blocked))

/-- The result of a call: the return value, the new table, and the lock copied to `conflock`. -/
structure LockResult where
  ret : Ret
  table : LockTable
  conflock : Option FileLock

/-- The change of an inode's list by a request that conflicts with no other owner. -/
def applyRequest (request : Request) (newFl newFl2 : Option Nat) (locks : List FileLock)
    (blocked : List Waiter) : Ret × List FileLock × List Waiter :=
  -- First skip locks owned by other processes.
  let others := locks.takeWhile fun fl =>
    !fl.flFlags.posix || !posixSameOwner request.flOwner fl.flOwner
  let own := locks.dropWhile fun fl =>
    !fl.flFlags.posix || !posixSameOwner request.flOwner fl.flOwner
  let w := walk (Walk.start request blocked) own
  let (ret, locks', blocked') := finish w newFl newFl2
  (ret, others ++ locks', blocked')

/-- `__posix_lock_file(inode, request, conflock)`. `newFl` and `newFl2` are the addresses the two
calls of `locks_alloc_lock` return, `none` when they fail. -/
def posixLockFile (inode : Nat) (request : Request) (newFl newFl2 : Option Nat) : LockResult :=
  -- In some cases we can be sure, that no new locks will be needed
  let needed := !request.flFlags.access &&
    (request.flType ≠ .unlck || request.flStart ≠ 0 || request.flEnd ≠ offsetMax)
  let newFl := if needed then newFl else none
  let newFl2 := if needed then newFl2 else none
  let conflict := if request.flType = .unlck then none else
    (table.iFlock inode).find? fun fl => posixLocksConflict request fl.toRequest
  match conflict with
  | some fl =>
    if !request.flFlags.sleep then ⟨.EAGAIN, table, some fl⟩
    else if posixLocksDeadlock table request fl then ⟨.EDEADLK, table, some fl⟩
    else ⟨.FILE_LOCK_DEFERRED, locksInsertBlock table inode fl request, some fl⟩
  | none =>
    if request.flFlags.access then ⟨.ok, table, none⟩
    else
      let (ret, locks, blocked) :=
        applyRequest request newFl newFl2 (table.iFlock inode) table.blockedList
      ⟨ret, { iFlock := Function.update table.iFlock inode locks, blockedList := blocked }, none⟩

/-! ### Well-formed lists and runs -/

/-- The range of a lock: offsets, and not empty. -/
structure LockRange (request : Request) : Prop where
  nonneg : 0 ≤ request.flStart
  ordered : request.flStart ≤ request.flEnd
  bounded : request.flEnd ≤ offsetMax

/-- A well-formed inode list: leases and flocks stand before the POSIX locks, between two POSIX
locks of one owner stands no lock of another, and the locks of an owner are sorted by start and
pairwise disjoint. -/
structure WellFormed (locks : List FileLock) : Prop where
  posixLast : locks.Pairwise fun a b => a.flFlags.posix → b.flFlags.posix
  grouped : ∀ a fl b, [a, fl, b].Sublist locks → a.flFlags.posix →
    posixSameOwner a.flOwner b.flOwner → posixSameOwner a.flOwner fl.flOwner
  sorted : locks.Pairwise fun a b =>
    a.flFlags.posix → posixSameOwner a.flOwner b.flOwner → a.flEnd < b.flStart
  ranges : ∀ fl ∈ locks, fl.flFlags.posix → LockRange fl.toRequest ∧ fl.flType ≠ .unlck
  addresses : (locks.map fun fl => fl.addr).Nodup

/-- What the callers of `__posix_lock_file` and the slab allocator promise: the request is a POSIX
request for a range of offsets, its `file_lock` is not parked already, and the two allocated locks
are different and not in use on this inode. -/
structure Admissible (table : LockTable) (inode : Nat) (request : Request)
    (newFl newFl2 : Option Nat) : Prop where
  posix : request.flFlags.posix
  range : LockRange request
  notParked : ∀ waiter ∈ table.blockedList, waiter.addr ≠ request.addr
  unused : ∀ addr, newFl = some addr ∨ newFl2 = some addr →
    ∀ fl ∈ table.iFlock inode, fl.addr ≠ addr
  distinct : ∀ addr, newFl = some addr → newFl2 ≠ some addr

/-- The two things that happen to the lock table: a call of `posix_lock_file` (a first attempt, a
retry after a wakeup or an unlock) and a sleeper that is interrupted. -/
inductive LockAction where
  | lock (inode : Nat) (request : Request) (newFl newFl2 : Option Nat)
  | interrupt (addr : Nat)

/-- One atomic step of the lock table, with the value a call returns. -/
inductive LockStep : LockTable → LockAction → List Ret → LockTable → Prop where
  | lock {table inode request newFl newFl2} :
      Admissible table inode request newFl newFl2 →
      LockStep table (.lock inode request newFl newFl2)
        [(posixLockFile table inode request newFl newFl2).ret]
        (posixLockFile table inode request newFl newFl2).table
  | interrupt {table addr} :
      LockStep table (.interrupt addr) [] (locksDeleteBlock table addr)

/-- Runs of the lock table from the empty one. -/
abbrev LockRun := Library.Run LockStep LockTable.empty

open Library List

/-! ### Owners -/

/-- What `posix_same_owner` compares of an owner. -/
def ownerKey : LockOwner → LockOwner
  | .files object _ => .files object 0
  | .lockd host pid => .lockd host pid

/-- `posix_same_owner` is an equivalence: the two keys are equal. -/
theorem posixSameOwner_iff {a b : LockOwner} : posixSameOwner a b = true ↔ ownerKey a = ownerKey b := by
  cases a <;> cases b <;> simp [posixSameOwner, ownerKey]

/-- A lock as a labelled interval of offsets. -/
def lockView : IntervalView FileLock LockType where
  lo fl := fl.flStart
  hi fl := fl.flEnd
  label fl := fl.flType

/-! ### The iterations of the loop -/

/-- The request after merging with a lock of its type. -/
def mergedRequest (request : Request) (fl : FileLock) : Request :=
  { request with
    flStart := min request.flStart fl.flStart
    flEnd := max request.flEnd fl.flEnd }

/-- The first lock the request merges with. -/
def mergedLock (request : Request) (fl : FileLock) : FileLock :=
  { fl with
    flStart := min request.flStart fl.flStart
    flEnd := max request.flEnd fl.flEnd }

/-- The old lock that the request replaces. -/
def replacedLock (request : Request) (fl : FileLock) : FileLock :=
  { fl with
    flStart := request.flStart, flEnd := request.flEnd, flType := request.flType, flBlock := [] }

/-- An iteration at lock `fl` after which the loop goes on with the next lock. -/
inductive WalkStep (w : Walk) (fl : FileLock) : Walk → Prop where
  | pass (before : fl.flEnd < w.request.flStart)
      (apart : w.request.flType = fl.flType → fl.flEnd < w.request.flStart - 1) :
      WalkStep w fl { w with done := w.done ++ [fl] }
  | mergeAgain (sameType : w.request.flType = fl.flType)
      (reachesDown : w.request.flStart - 1 ≤ fl.flEnd) (reachesUp : fl.flStart - 1 ≤ w.request.flEnd)
      (added : w.added = true) :
      WalkStep w fl { w with
        done := writeRequest (mergedRequest w.request fl) w.done
        request := mergedRequest w.request fl
        blocked := locksWakeUpBlocks fl w.blocked }
  | mergeFirst (sameType : w.request.flType = fl.flType)
      (reachesDown : w.request.flStart - 1 ≤ fl.flEnd) (reachesUp : fl.flStart - 1 ≤ w.request.flEnd)
      (notAdded : w.added = false) :
      WalkStep w fl { w with
        done := w.done ++ [mergedLock w.request fl]
        request := (mergedLock w.request fl).toRequest
        added := true }
  | delete (otherType : w.request.flType ≠ fl.flType) (low : w.request.flStart ≤ fl.flStart)
      (high : fl.flEnd ≤ w.request.flEnd) (added : w.added = true ∨ w.request.flType = .unlck) :
      WalkStep w fl { w with added := true, blocked := locksWakeUpBlocks fl w.blocked }
  | replace (otherType : w.request.flType ≠ fl.flType) (low : w.request.flStart ≤ fl.flStart)
      (high : fl.flEnd ≤ w.request.flEnd) (notAdded : w.added = false)
      (locking : w.request.flType ≠ .unlck) :
      WalkStep w fl { w with
        done := w.done ++ [replacedLock w.request fl]
        request := (replacedLock w.request fl).toRequest
        added := true
        blocked := locksWakeUpBlocks fl w.blocked }
  | passLeft (otherType : w.request.flType ≠ fl.flType) (low : fl.flStart < w.request.flStart)
      (overlap : w.request.flStart ≤ fl.flEnd) (high : fl.flEnd ≤ w.request.flEnd) :
      WalkStep w fl { w with
        done := w.done ++ [fl]
        left := some fl.addr
        added := w.added || w.request.flType = .unlck }

/-- The ways the loop stops, with the list from `*before` on at that point. -/
inductive WalkStop (w : Walk) : List FileLock → Walk → Prop where
  | exhausted {rest : List FileLock}
      (others : ∀ fl ∈ rest.head?, posixSameOwner w.request.flOwner fl.flOwner = false) :
      WalkStop w rest { w with rest }
  | beyond {fl : FileLock} {rest : List FileLock}
      (owned : posixSameOwner w.request.flOwner fl.flOwner = true)
      (after : w.request.flEnd < fl.flStart)
      (apart : w.request.flType = fl.flType → w.request.flEnd + 1 < fl.flStart) :
      WalkStop w (fl :: rest) { w with rest := fl :: rest }
  | right {fl : FileLock} {rest : List FileLock}
      (owned : posixSameOwner w.request.flOwner fl.flOwner = true)
      (otherType : w.request.flType ≠ fl.flType)
      (low : fl.flStart ≤ w.request.flEnd) (high : w.request.flEnd < fl.flEnd) :
      WalkStop w (fl :: rest) { w with
        added := w.added || w.request.flType = .unlck
        left := if fl.flStart < w.request.flStart then some fl.addr else w.left
        right := some fl.addr
        rest := fl :: rest }

/-- One iteration of the loop either goes on or stops. -/
theorem walk_cons (w : Walk) (fl : FileLock) (rest : List FileLock) :
    (∃ next, WalkStep w fl next ∧ posixSameOwner w.request.flOwner fl.flOwner = true ∧
      walk w (fl :: rest) = walk next rest) ∨
    WalkStop w (fl :: rest) (walk w (fl :: rest)) := by
  have lower : (if fl.flStart > w.request.flStart then w.request.flStart else fl.flStart) =
      min w.request.flStart fl.flStart := by grind
  have upper : (if fl.flEnd < w.request.flEnd then w.request.flEnd else fl.flEnd) =
      max w.request.flEnd fl.flEnd := by grind
  rw [walk]
  by_cases owned : posixSameOwner w.request.flOwner fl.flOwner = true
  swap
  · simp only [owned]
    exact .inr (.exhausted (by simpa using owned))
  by_cases sameType : w.request.flType = fl.flType
  · by_cases before : fl.flEnd < w.request.flStart - 1
    · refine .inl ⟨_, .pass (by omega) (fun _ => before), owned, ?_⟩
      simp [owned, sameType, before]
    by_cases after : fl.flStart - 1 > w.request.flEnd
    · simp only [owned, sameType, before, after]
      exact .inr (.beyond owned (by omega) (fun _ => by omega))
    by_cases added : w.added = true
    · refine .inl ⟨_, .mergeAgain sameType (by omega) (by omega) added, owned, ?_⟩
      simp only [owned, sameType, before, after, lower, upper, added, mergedRequest]
      simp
    · refine .inl ⟨_, .mergeFirst sameType (by omega) (by omega) (by simpa using added), owned, ?_⟩
      simp [owned, sameType, before, after, lower, upper, added, mergedLock]
  · by_cases before : fl.flEnd < w.request.flStart
    · refine .inl ⟨_, .pass before (fun same => absurd same sameType), owned, ?_⟩
      simp [owned, sameType, before]
    by_cases after : fl.flStart > w.request.flEnd
    · simp only [owned, sameType, before, after]
      exact .inr (.beyond owned after (fun same => absurd same sameType))
    simp only [owned]
    by_cases right : fl.flEnd > w.request.flEnd
    · have stop := @WalkStop.right w _ rest owned sameType (Int.not_lt.mp after) right
      right
      convert stop using 1
      split_ifs <;> simp_all
    by_cases left : fl.flStart < w.request.flStart
    · refine .inl ⟨_, .passLeft sameType left (by omega) (by omega), trivial, ?_⟩
      split_ifs <;> first | omega | simp_all
    by_cases added : w.added = true ∨ w.request.flType = .unlck
    · refine .inl ⟨_, .delete sameType (by omega) (by omega) added, trivial, ?_⟩
      split_ifs <;> first | omega | simp_all
    · obtain ⟨notAdded, locking⟩ := not_or.mp added
      refine .inl ⟨_, .replace sameType (by omega) (by omega) (by simpa using notAdded) locking, trivial, ?_⟩
      split_ifs <;> first | omega | simp_all [replacedLock]

/-- The rule of the loop: what every iteration that goes on preserves holds where it stops. -/
theorem walk_rule (Invariant : Walk → List FileLock → Prop)
    (step : ∀ {w next : Walk} {fl : FileLock} {rest : List FileLock}, Invariant w (fl :: rest) →
      posixSameOwner w.request.flOwner fl.flOwner = true → WalkStep w fl next → Invariant next rest)
    {w : Walk} {rest : List FileLock} (initially : Invariant w rest) :
    ∃ last remaining, Invariant last remaining ∧ WalkStop last remaining (walk w rest) := by
  induction rest generalizing w with
  | nil => exact ⟨w, [], initially, .exhausted (by simp)⟩
  | cons fl rest ih =>
    rcases walk_cons w fl rest with ⟨next, taken, owned, unfolded⟩ | stop
    · rw [unfolded]
      exact ih (step initially owned taken)
    · exact ⟨w, fl :: rest, initially, stop⟩

/-! ### The invariant of the loop -/

/-- The locks of the request's owner on a well-formed list. -/
structure OwnGroup (request : Request) (own : List FileLock) : Prop where
  ordered : lockView.Ordered own
  posix : ∀ fl ∈ own, fl.flFlags.posix = true
  owner : ∀ fl ∈ own, ownerKey fl.flOwner = ownerKey request.flOwner
  locking : ∀ fl ∈ own, fl.flType ≠ .unlck
  bounds : ∀ fl ∈ own, 0 ≤ fl.flStart ∧ fl.flEnd ≤ offsetMax
  addresses : (own.map fun fl => fl.addr).Nodup

/-- No two neighbouring locks of one type that could be one lock. -/
def Merged (own : List FileLock) : Prop :=
  own.Pairwise fun a b => a.flType = b.flType → a.flEnd + 1 < b.flStart

/-- A lock that merging made larger: everything else of it is as before. -/
structure Grown (fl grown : FileLock) : Prop where
  same : grown = { fl with flStart := grown.flStart, flEnd := grown.flEnd }
  low : grown.flStart ≤ fl.flStart
  high : fl.flEnd ≤ grown.flEnd

/-- The part of the invariant of the loop about ranges. `own` are the locks of the owner before
the call and `rest` those not visited yet; of the visited ones `kept` are in place as they were. -/
structure WalkRange (request : Request) (own : List FileLock) (w : Walk)
    (kept rest : List FileLock) : Prop where
  sublist : (kept ++ rest).Sublist own
  sameType : w.request.flType = request.flType
  low : w.request.flStart ≤ request.flStart
  high : request.flEnd ≤ w.request.flEnd
  wide : w.request.flStart ≤ w.request.flEnd
  bounds : 0 ≤ w.request.flStart ∧ w.request.flEnd ≤ offsetMax
  noRight : w.right = none
  /-- What is kept starts below the request, and overlaps it only if it is `left`. -/
  below : ∀ fl ∈ kept, fl.flStart < w.request.flStart ∧ fl.flEnd ≤ w.request.flEnd ∧
    (fl.flEnd < w.request.flStart ∨ w.left = some fl.addr)
  left : ∀ addr, w.left = some addr → ∃ fl ∈ kept, fl.addr = addr ∧ w.request.flStart ≤ fl.flEnd
  apart : ∀ fl ∈ kept, fl.flType = request.flType → fl.flEnd < request.flStart - 1
  mergedBelow : Merged own →
    ∀ fl ∈ kept, fl.flType = request.flType → fl.flEnd + 1 < w.request.flStart
  /-- Outside the request the kept and the unvisited locks say what the old ones said. -/
  outside : ∀ point t, point < w.request.flStart ∨ w.request.flEnd < point →
    (lockView.Covers own point t ↔ lockView.Covers (kept ++ rest) point t)
  /-- Where the request has grown, the old locks were of its type. -/
  inside : ∀ point t, w.request.flStart ≤ point → point ≤ w.request.flEnd →
    point < request.flStart ∨ request.flEnd < point →
    (lockView.Covers own point t ↔ t = request.flType)

/-- The invariant of the loop. `granted` is the lock that holds the request, if there is one
already. -/
structure WalkInv (request : Request) (own : List FileLock) (blocked : List Waiter) (w : Walk)
    (kept granted rest : List FileLock) : Prop extends WalkRange request own w kept rest where
  done : w.done = kept ++ granted
  sameOwner : ownerKey w.request.flOwner = ownerKey request.flOwner
  posix : w.request.flFlags.posix = true
  held : (granted = [] ∧ w.request = request ∧ (w.added = true → request.flType = .unlck)) ∨
    (w.added = true ∧ request.flType ≠ .unlck ∧ (∀ fl ∈ rest, w.request.flStart ≤ fl.flStart) ∧
      ∃ fl, granted = [fl] ∧ fl.toRequest = w.request)
  /-- Until something has been modified nothing is lost; afterwards no unvisited lock starts below
  the request, so that the loop cannot find one to split. -/
  intact : (w.done ++ rest = own ∧ w.blocked = blocked) ∨
    ∀ fl ∈ rest, w.request.flStart ≤ fl.flStart
  fresh : w.added = false → w.done ++ rest = own ∧ w.blocked = blocked
  unlockLeft : request.flType = .unlck → w.added = false → w.left = none
  addresses : ((w.done ++ rest).map fun fl => fl.addr).Nodup
  origin : ∀ fl ∈ w.done ++ rest, ∃ old ∈ own, old.addr = fl.addr ∧ (fl.flBlock = [] ∨ Grown old fl)

section Steps

variable {request : Request} {own : List FileLock} {blocked : List Waiter} {w next : Walk}
  {kept granted rest : List FileLock} {fl : FileLock}

theorem WalkRange.ordered (inv : WalkRange request own w kept rest)
    (group : OwnGroup request own) : lockView.Ordered (kept ++ rest) :=
  group.ordered.sublist inv.sublist

section

variable (inv : WalkRange request own w kept (fl :: rest))

include inv

theorem WalkRange.mem_own : fl ∈ own :=
  inv.sublist.subset (by simp)

section

variable (group : OwnGroup request own)

include group

/-- The kept locks end before the lock at hand. -/
theorem WalkRange.kept_before : ∀ x ∈ kept, x.flEnd < fl.flStart :=
  (inv.ordered group).hi_lt_lo

/-- The unvisited locks start behind the lock at hand. -/
theorem WalkRange.rest_behind : ∀ x ∈ rest, fl.flEnd < x.flStart :=
  (inv.ordered group).lo_gt_hi

theorem WalkRange.rest_above {bound : Int} (low : bound ≤ fl.flStart) : ∀ x ∈ rest, bound ≤ x.flStart := by
  intro x mem
  have := inv.rest_behind group x mem
  have : fl.flStart ≤ fl.flEnd := group.ordered.nonempty fl inv.mem_own
  omega

/-- Visit a lock that starts below the request and stays as it is. -/
theorem WalkRange.keep (sameRequest : next.request = w.request)
    (noRight : next.right = none) (lower : fl.flStart < w.request.flStart)
    (high : fl.flEnd ≤ w.request.flEnd)
    (leftIs : fl.flEnd < w.request.flStart ∧ next.left = w.left ∨
      w.request.flStart ≤ fl.flEnd ∧ next.left = some fl.addr)
    (apart : w.request.flType = fl.flType → fl.flEnd < w.request.flStart - 1) :
    WalkRange request own next (kept ++ [fl]) rest := by
  have before := inv.kept_before group
  have keptSplit : (kept ++ [fl]) ++ rest = kept ++ fl :: rest := by simp
  have low := inv.low
  cases next
  dsimp only at sameRequest noRight leftIs
  subst sameRequest
  refine { inv with
    sublist := keptSplit ▸ inv.sublist, noRight, below := ?below, left := ?left, apart := ?apart
    mergedBelow := ?mergedBelow, outside := keptSplit ▸ inv.outside }
  case below =>
    simp only [mem_append, mem_singleton]
    rintro x (mem | rfl)
    · have := before x mem
      exact ⟨(inv.below x mem).1, (inv.below x mem).2.1, .inl (by omega)⟩
    · exact ⟨lower, high, leftIs.imp And.left And.right⟩
  case left =>
    intro addr isLeft
    rcases leftIs with ⟨-, same⟩ | ⟨overlap, new⟩
    · obtain ⟨x, mem, found⟩ := inv.left addr (same ▸ isLeft)
      exact ⟨x, mem_append_left _ mem, found⟩
    · cases new.symm.trans isLeft
      exact ⟨fl, by simp, rfl, overlap⟩
  case apart =>
    simp only [mem_append, mem_singleton]
    rintro x (mem | rfl) ofType
    · exact inv.apart x mem ofType
    · have := apart (by rw [inv.sameType, ofType])
      omega
  case mergedBelow =>
    simp only [mem_append, mem_singleton]
    rintro merged x (mem | rfl) ofType
    · exact inv.mergedBelow merged x mem ofType
    · have := apart (by rw [inv.sameType, ofType])
      omega

/-- Visit a lock that the request covers, or that it merges with and grows over. -/
theorem WalkRange.absorb (sameType : next.request.flType = w.request.flType)
    (sameLeft : next.left = w.left) (noRight : next.right = none)
    (covered : next.request.flStart ≤ fl.flStart ∧ fl.flEnd ≤ next.request.flEnd)
    (grown : (next.request.flStart = w.request.flStart ∧ next.request.flEnd = w.request.flEnd) ∨
      (w.request.flType = fl.flType ∧ w.request.flStart - 1 ≤ fl.flEnd ∧ fl.flStart - 1 ≤ w.request.flEnd ∧
        next.request.flStart = min w.request.flStart fl.flStart ∧
        next.request.flEnd = max w.request.flEnd fl.flEnd)) :
    WalkRange request own next kept rest := by
  have before := inv.kept_before group
  have nonempty : fl.flStart ≤ fl.flEnd := group.ordered.nonempty fl inv.mem_own
  have bounds := group.bounds fl inv.mem_own
  have oldBounds := inv.bounds
  have low := inv.low
  have high := inv.high
  constructor
  case sublist =>
    exact (List.Sublist.append_left (sublist_cons_self fl rest) kept).trans inv.sublist
  case sameType => rw [sameType, inv.sameType]
  case low => omega
  case high => omega
  case wide => omega
  case bounds => omega
  case noRight => exact noRight
  case below =>
    intro x mem
    have := before x mem
    have : x.flStart ≤ x.flEnd := (inv.ordered group).nonempty x (by simp [mem])
    obtain ⟨lower, upper, ends | isLeft⟩ := inv.below x mem
    · exact ⟨by omega, by omega, .inl (by omega)⟩
    · exact ⟨by omega, by omega, .inr (sameLeft ▸ isLeft)⟩
  case left =>
    intro addr isLeft
    obtain ⟨x, mem, sameAddr, overlap⟩ := inv.left addr (sameLeft ▸ isLeft)
    exact ⟨x, mem, sameAddr, by omega⟩
  case apart => exact inv.apart
  case mergedBelow =>
    intro merged x mem ofType
    have ends := inv.mergedBelow merged x mem ofType
    rcases grown with ⟨sameStart, -⟩ | ⟨merges, -, -, start, -⟩
    · omega
    · have pair := (pairwise_append.mp (merged.sublist inv.sublist)).2.2 x mem fl
        mem_cons_self (by rw [ofType, ← merges, inv.sameType])
      omega
  case outside =>
    intro point t away
    have outsideFl : ¬ lockView.Contains fl point := by
      rintro ⟨lower, upper⟩
      change fl.flStart ≤ point at lower
      change point ≤ fl.flEnd at upper
      omega
    rw [inv.outside point t (by omega), IntervalView.covers_drop outsideFl]
  case inside =>
    intro point t lower upper away
    by_cases old : w.request.flStart ≤ point ∧ point ≤ w.request.flEnd
    · exact inv.inside point t old.1 old.2 away
    · -- the request grew over this point, so it lies in the lock it merged with
      rcases grown with ⟨sameStart, sameEnd⟩ | ⟨merges, down, up, start, stop⟩
      · omega
      · have inFl : lockView.Contains fl point := by
          change fl.flStart ≤ point ∧ point ≤ fl.flEnd
          omega
        rw [inv.outside point t (by omega), (inv.ordered group).covers_iff inFl]
        change t = fl.flType ↔ _
        rw [← merges, inv.sameType]

end

end

section

variable (inv : WalkInv request own blocked w kept granted (fl :: rest))

include inv

/-- A lock that starts below the request is met only while the request is not granted yet. -/
theorem WalkInv.granted_nil (lower : fl.flStart < w.request.flStart) :
    granted = [] ∧ w.request = request ∧ (w.added = true → request.flType = .unlck) := by
  rcases inv.held with none | ⟨-, -, above, -⟩
  · exact none
  · have := above fl mem_cons_self
    omega

/-- Visit a lock that starts below the request and stays as it is. -/
theorem WalkInv.keep (range : WalkRange request own next (kept ++ [fl]) rest)
    (lower : fl.flStart < w.request.flStart) (done : next.done = w.done ++ [fl])
    (sameRequest : next.request = w.request) (sameBlocked : next.blocked = w.blocked)
    (added : next.added = (w.added || w.request.flType = .unlck) ∨
      next.added = w.added ∧ next.left = w.left) :
    WalkInv request own blocked next (kept ++ [fl]) [] rest := by
  obtain ⟨rfl, isRequest, unlocking⟩ := inv.granted_nil lower
  have split : next.done ++ rest = w.done ++ fl :: rest := by simp [done]
  cases next
  dsimp only at sameRequest sameBlocked split
  subst sameRequest sameBlocked
  refine { range, inv with
    done := done.trans (by simp [inv.done]), held := ?_, intact := ?_, fresh := ?_, unlockLeft := ?_
    addresses := split ▸ inv.addresses, origin := split ▸ inv.origin }
  · refine .inl ⟨rfl, isRequest, fun isAdded => ?_⟩
    rcases added with set | ⟨same, -⟩
    · rw [set, Bool.or_eq_true, decide_eq_true_eq, inv.sameType] at isAdded
      exact isAdded.elim unlocking id
    · exact unlocking (same ▸ isAdded)
  · rw [split]
    exact inv.intact.imp_right fun above x mem => above x (mem_cons_of_mem _ mem)
  · rw [split]
    intro notAdded
    apply inv.fresh
    rcases added with set | ⟨same, -⟩
    · exact (Bool.or_eq_false_iff.mp (set ▸ notAdded)).1
    · exact same ▸ notAdded
  · intro unlock notAdded
    rcases added with set | ⟨same, sameLeft⟩
    · have notUnlock := (Bool.or_eq_false_iff.mp (set ▸ notAdded)).2
      exact absurd (inv.sameType.trans unlock) (of_decide_eq_false notUnlock)
    · rw [sameLeft]
      exact inv.unlockLeft unlock (same ▸ notAdded)

/-- Delete the lock at hand, which the request covers. -/
theorem WalkInv.delete (group : OwnGroup request own) (low : w.request.flStart ≤ fl.flStart)
    (high : fl.flEnd ≤ w.request.flEnd) (added : w.added = true ∨ w.request.flType = .unlck)
    (woken : List Waiter) :
    WalkInv request own blocked { w with added := true, blocked := woken } kept granted rest := by
  have above := inv.rest_above group low
  have sub : (w.done ++ rest).Sublist (w.done ++ fl :: rest) :=
    List.Sublist.append_left (sublist_cons_self fl rest) _
  have range : WalkRange request own { w with added := true, blocked := woken } kept rest :=
    inv.toWalkRange.absorb group rfl rfl inv.noRight ⟨low, high⟩ (.inl ⟨rfl, rfl⟩)
  refine { range, inv with
    held := ?_, intact := .inr above, fresh := nofun, unlockLeft := fun _ => nofun
    addresses := inv.addresses.sublist (sub.map _)
    origin := fun x mem => inv.origin x (sub.subset mem) }
  rcases inv.held with ⟨none, same, unlocking⟩ | ⟨isAdded, locking, -, grant⟩
  · refine .inl ⟨none, same, fun _ => added.elim unlocking fun isUnlock => ?_⟩
    rw [← inv.sameType, isUnlock]
  · exact .inr ⟨rfl, locking, above, grant⟩

/-- The lock at hand takes over the request, which was not granted yet. -/
theorem WalkInv.grant (group : OwnGroup request own) {lock : FileLock} {woken : List Waiter}
    (notAdded : w.added = false) (locking : request.flType ≠ .unlck)
    (range : WalkRange request own
      { w with done := w.done ++ [lock], request := lock.toRequest, added := true, blocked := woken }
      kept rest)
    (sameOwner : lock.flOwner = fl.flOwner) (sameFlags : lock.flFlags = fl.flFlags)
    (sameAddr : lock.addr = fl.addr)
    (covers : lock.flStart ≤ fl.flStart) (waiters : lock.flBlock = [] ∨ Grown fl lock) :
    WalkInv request own blocked
      { w with done := w.done ++ [lock], request := lock.toRequest, added := true, blocked := woken }
      kept [lock] rest := by
  have above := inv.rest_above group covers
  have grantedNil : granted = [] := by
    rcases inv.held with ⟨none, -⟩ | ⟨isAdded, -⟩
    · exact none
    · rw [notAdded] at isAdded
      cases isAdded
  refine { range with
    done := by simp [inv.done, grantedNil], sameOwner := sameOwner ▸ group.owner fl inv.mem_own
    posix := sameFlags ▸ group.posix fl inv.mem_own, held := .inr ⟨rfl, locking, above, lock, rfl, rfl⟩
    intact := .inr above, fresh := nofun, unlockLeft := fun unlock => absurd unlock locking
    addresses := ?_, origin := ?_ }
  · simpa [sameAddr] using inv.addresses
  · simp only [mem_append, mem_singleton]
    rintro x ((mem | rfl) | mem)
    · exact inv.origin x (by simp [mem])
    · exact ⟨fl, inv.mem_own, sameAddr.symm, waiters⟩
    · exact inv.origin x (by simp [mem])

end

theorem writeRequest_addresses (request : Request) (locks : List FileLock) :
    (writeRequest request locks).map (fun fl => fl.addr) = locks.map fun fl => fl.addr := by
  rw [writeRequest, map_map]
  apply map_congr_left
  intro fl _
  dsimp only [Function.comp]
  split <;> rfl

/-- A write through `request` changes only the lock `request` points to. -/
theorem writeRequest_eq_self {request : Request} {locks : List FileLock}
    (elsewhere : ∀ fl ∈ locks, fl.addr ≠ request.addr) : writeRequest request locks = locks := by
  conv_rhs => rw [← map_id locks]
  apply map_congr_left
  intro fl mem
  rw [if_neg (elsewhere fl mem), id]

/-- Merge the lock at hand into the lock that holds the request. -/
theorem WalkInv.mergeAgain (inv : WalkInv request own blocked w kept granted (fl :: rest))
    (group : OwnGroup request own) (sameType : w.request.flType = fl.flType)
    (reachesDown : w.request.flStart - 1 ≤ fl.flEnd) (reachesUp : fl.flStart - 1 ≤ w.request.flEnd)
    (added : w.added = true) (woken : List Waiter) :
    ∃ lock, WalkInv request own blocked { w with
        done := writeRequest (mergedRequest w.request fl) w.done
        request := mergedRequest w.request fl
        blocked := woken } kept [lock] rest := by
  have locking : fl.flType ≠ .unlck := group.locking fl inv.mem_own
  have above := inv.rest_above group (Int.min_le_right w.request.flStart _)
  rcases inv.held with ⟨-, -, unlocking⟩ | ⟨-, stillLocking, -, lock, rfl, isRequest⟩
  · exact absurd (sameType.symm.trans (inv.sameType.trans (unlocking added))) locking
  have lockAddr : lock.addr = w.request.addr := congrArg Request.addr isRequest
  -- `request` points to `lock`, the last of the locks passed so far
  have written : writeRequest (mergedRequest w.request fl) w.done =
      kept ++ [mergedLock fl.toRequest lock] := by
    have elsewhere : ∀ x ∈ kept, x.addr ≠ (mergedRequest w.request fl).addr := by
      intro x mem same
      have nodup := inv.addresses
      rw [inv.done] at nodup
      simp only [append_assoc, map_append, nodup_append] at nodup
      exact nodup.2.2 x.addr (mem_map_of_mem mem) lock.addr (by simp) (same.trans lockAddr.symm)
    rw [inv.done, writeRequest, map_append, ← writeRequest, writeRequest_eq_self elsewhere,
      map_singleton, if_pos (show lock.addr = (mergedRequest w.request fl).addr from lockAddr)]
    have start : lock.flStart = w.request.flStart := congrArg Request.flStart isRequest
    have stop : lock.flEnd = w.request.flEnd := congrArg Request.flEnd isRequest
    simp only [mergedRequest, mergedLock, start, stop, Int.min_comm, Int.max_comm]
  refine ⟨mergedLock fl.toRequest lock, ?_⟩
  have range : WalkRange request own { w with
        done := writeRequest (mergedRequest w.request fl) w.done
        request := mergedRequest w.request fl
        blocked := woken } kept rest :=
    inv.toWalkRange.absorb group rfl rfl inv.noRight ⟨Int.min_le_right _ _, Int.le_max_right _ _⟩
      (.inr ⟨sameType, reachesDown, reachesUp, rfl, rfl⟩)
  refine { range, inv with
    done := written, held := ?_, intact := .inr above, fresh := ?_,
    unlockLeft := fun unlock => absurd unlock stillLocking, addresses := ?_, origin := ?_ }
  · refine .inr ⟨added, stillLocking, above, _, rfl, ?_⟩
    rw [mergedLock, mergedRequest, ← isRequest, Int.min_comm, Int.max_comm]
  · intro notAdded
    exact absurd (added.symm.trans notAdded) (by decide)
  · rw [map_append, writeRequest_addresses, ← map_append]
    exact inv.addresses.sublist ((List.Sublist.append_left (sublist_cons_self fl rest) _).map _)
  · rw [written]
    simp only [mem_append, mem_singleton]
    rintro x ((mem | rfl) | mem)
    · exact inv.origin x (by simp [inv.done, mem])
    · obtain ⟨old, oldMember, oldAddr, waiters⟩ := inv.origin lock (by simp [inv.done])
      refine ⟨old, oldMember, oldAddr, waiters.imp id fun grown => ?_⟩
      exact ⟨by rw [mergedLock, grown.same], by have := grown.low; simp only [mergedLock]; omega,
        by have := grown.high; simp only [mergedLock]; omega⟩
    · exact inv.origin x (by simp [mem])

/-- Every iteration that goes on preserves the invariant. -/
theorem WalkInv.step (inv : WalkInv request own blocked w kept granted (fl :: rest))
    (group : OwnGroup request own) (taken : WalkStep w fl next) :
    ∃ kept granted, WalkInv request own blocked next kept granted rest := by
  have nonempty : fl.flStart ≤ fl.flEnd := group.ordered.nonempty fl inv.mem_own
  have locking := group.locking fl inv.mem_own
  cases taken with
  | pass before apart =>
    have lower : fl.flStart < w.request.flStart := by omega
    exact ⟨_, _, inv.keep (inv.toWalkRange.keep group rfl inv.noRight lower
      (by have := inv.wide; omega) (.inl ⟨before, rfl⟩) apart) lower rfl rfl rfl (.inr ⟨rfl, rfl⟩)⟩
  | passLeft otherType low overlap high =>
    exact ⟨_, _, inv.keep (inv.toWalkRange.keep group rfl inv.noRight low high
      (.inr ⟨overlap, rfl⟩) fun same => absurd same otherType) low rfl rfl rfl (.inl rfl)⟩
  | mergeAgain sameType reachesDown reachesUp added =>
    obtain ⟨lock, merged⟩ := inv.mergeAgain group sameType reachesDown reachesUp added _
    exact ⟨_, _, merged⟩
  | mergeFirst sameType reachesDown reachesUp notAdded =>
    refine ⟨_, _, inv.grant group notAdded ?_ (inv.toWalkRange.absorb group sameType.symm rfl
      inv.noRight ⟨Int.min_le_right _ _, Int.le_max_right _ _⟩
      (.inr ⟨sameType, reachesDown, reachesUp, rfl, rfl⟩)) rfl rfl rfl (Int.min_le_right _ _)
      (.inr ⟨rfl, Int.min_le_right _ _, Int.le_max_right _ _⟩)⟩
    rwa [← inv.sameType, sameType]
  | delete otherType low high added =>
    exact ⟨_, _, inv.delete group low high added _⟩
  | replace otherType low high notAdded locking =>
    exact ⟨_, _, inv.grant group notAdded (inv.sameType ▸ locking)
      (inv.toWalkRange.absorb group rfl rfl inv.noRight ⟨low, high⟩ (.inl ⟨rfl, rfl⟩))
      rfl rfl rfl low (.inl rfl)⟩

/-- The loop ends with the invariant established, on the locks of the owner it did not visit. A
further invariant may be carried along. -/
theorem walk_ends {post : List FileLock} (blocked : List Waiter) (group : OwnGroup request own)
    (range : LockRange request) (posix : request.flFlags.posix = true)
    (others : ∀ fl ∈ post, ownerKey fl.flOwner ≠ ownerKey request.flOwner)
    (Extra : Walk → List FileLock → Prop) (extra : Extra (Walk.start request blocked) (own ++ post))
    (preserved : ∀ {w next : Walk} {kept granted rest : List FileLock} {fl : FileLock},
      WalkInv request own blocked w kept granted (fl :: rest) → WalkStep w fl next →
      Extra w (fl :: rest ++ post) → Extra next (rest ++ post)) :
    ∃ last kept granted rest, WalkInv request own blocked last kept granted rest ∧ Extra last (rest ++ post) ∧
      WalkStop last (rest ++ post) (walk (Walk.start request blocked) (own ++ post)) := by
  have initially : WalkInv request own blocked (Walk.start request blocked) [] [] own := by
    refine ⟨⟨List.Sublist.refl _, rfl, Int.le_refl _, Int.le_refl _, range.ordered,
      ⟨range.nonneg, range.bounded⟩,
      rfl, by simp, by simp [Walk.start], by simp, by simp, fun _ _ _ => Iff.rfl, ?_⟩, rfl, rfl, posix,
      .inl ⟨rfl, rfl, by simp [Walk.start]⟩, .inl ⟨rfl, rfl⟩, fun _ => ⟨rfl, rfl⟩, fun _ _ => rfl,
        group.addresses,
      fun fl mem => ⟨fl, mem, rfl, .inr ⟨rfl, Int.le_refl _, Int.le_refl _⟩⟩⟩
    intro point t low high away
    dsimp only [Walk.start] at low high
    omega
  obtain ⟨last, remaining, ⟨kept, granted, rest, rfl, inv, holds⟩, stop⟩ := walk_rule
    (fun w remaining => ∃ kept granted rest, remaining = rest ++ post ∧
      WalkInv request own blocked w kept granted rest ∧ Extra w remaining)
    (by
      rintro w next fl tail ⟨kept, granted, rest, shape, inv, holds⟩ owned taken
      cases rest with
      | nil =>
        have foreign := others fl (by rw [← nil_append post, ← shape]; simp)
        rw [posixSameOwner_iff, inv.sameOwner] at owned
        exact absurd owned.symm foreign
      | cons first rest =>
        obtain ⟨rfl, rfl⟩ := cons_eq_cons.mp shape
        obtain ⟨kept, granted, stepped⟩ := inv.step group taken
        exact ⟨kept, granted, rest, rfl, stepped, preserved inv taken holds⟩)
    ⟨[], [], own, rfl, initially, extra⟩
  exact ⟨last, kept, granted, rest, inv, holds, stop⟩

end Steps

end LinuxKernel.Fs.Locks
