/-
Module: LinuxKernel.Proofs.PosixLockFinish
Purpose: What `__posix_lock_file` makes of the locks of one owner behind its loop. After a
  successful call they are a front part cut off below the request, the lock that holds the
  request, and a back part cut off above it; a failing call leaves them as they were.
Trusted boundary: none
Main exports: Spliced, FinishSpec, finish_spec
-/
import LinuxKernel.Fs.Locks

namespace LinuxKernel.Fs.Locks

open Library List

/-! ### Cutting locks off -/

/-- `new` is the part of `old` below an offset. -/
structure ClipBelow (limit : Int) (old new : FileLock) : Prop where
  owner : new.flOwner = old.flOwner
  flags : new.flFlags = old.flFlags
  type : new.flType = old.flType
  start : new.flStart = old.flStart
  stop : new.flEnd = min old.flEnd (limit - 1)

/-- `new` is the part of `old` above an offset. -/
structure ClipAbove (limit : Int) (old new : FileLock) : Prop where
  owner : new.flOwner = old.flOwner
  flags : new.flFlags = old.flFlags
  type : new.flType = old.flType
  start : new.flStart = max old.flStart (limit + 1)
  stop : new.flEnd = old.flEnd

theorem resizeLock_append (addr : Option Nat) (resize : FileLock → FileLock) (first second : List FileLock) :
    resizeLock addr resize (first ++ second) =
      resizeLock addr resize first ++ resizeLock addr resize second :=
  map_append

variable {addr : Option Nat} {resize : FileLock → FileLock} {front tail : List FileLock}

theorem resizeLock_eq_self {locks : List FileLock} (elsewhere : ∀ fl ∈ locks, addr ≠ some fl.addr) :
    resizeLock addr resize locks = locks := by
  conv_rhs => rw [← map_id locks]
  apply map_congr_left
  intro fl mem
  rw [if_neg (elsewhere fl mem), id]

theorem resizeLock_none (resize : FileLock → FileLock) (locks : List FileLock) :
    resizeLock none resize locks = locks :=
  resizeLock_eq_self (by simp)

/-- Resizing a lock of the first part leaves the second part alone. -/
theorem resizeLock_front (nodup : ((front ++ tail).map fun fl => fl.addr).Nodup)
    (inFront : ∀ target, addr = some target → ∃ fl ∈ front, fl.addr = target) :
    resizeLock addr resize (front ++ tail) = resizeLock addr resize front ++ tail := by
  have inTail : resizeLock addr resize tail = tail := by
    apply resizeLock_eq_self
    intro fl mem same
    obtain ⟨x, source, sameAddr⟩ := inFront fl.addr same
    rw [map_append, nodup_append] at nodup
    exact nodup.2.2 x.addr (mem_map_of_mem source) fl.addr (mem_map_of_mem mem) sameAddr
  rw [resizeLock_append, inTail]

theorem resizeLock_middle (resize : FileLock → FileLock) {fl : FileLock}
    (nodup : ((front ++ fl :: tail).map fun fl => fl.addr).Nodup) :
    resizeLock (some fl.addr) resize (front ++ fl :: tail) =
      front ++ { resize fl with flBlock := [] } :: tail := by
  simp only [map_append, map_cons, nodup_append, nodup_cons, mem_map, mem_cons] at nodup
  have inFront : resizeLock (some fl.addr) resize front = front := by
    apply resizeLock_eq_self
    intro x mem same
    exact nodup.2.2 x.addr ⟨x, mem, rfl⟩ fl.addr (.inl rfl) (Option.some.inj same).symm
  have inTail : resizeLock (some fl.addr) resize tail = tail := by
    apply resizeLock_eq_self
    intro x mem same
    exact nodup.2.1.1 ⟨x, mem, (Option.some.inj same).symm⟩
  rw [resizeLock_append, inFront]
  change front ++ (if _ then _ else _) :: resizeLock (some fl.addr) resize tail = _
  rw [if_pos rfl, inTail]

theorem resizeLock_addresses (addr : Option Nat) (sameAddr : ∀ fl, (resize fl).addr = fl.addr)
    (locks : List FileLock) :
    (resizeLock addr resize locks).map (fun fl => fl.addr) = locks.map fun fl => fl.addr := by
  rw [resizeLock, map_map]
  apply map_congr_left
  intro fl _
  dsimp only [Function.comp]
  split
  · exact sameAddr fl
  · rfl

/-! ### The result of a successful call -/

/-- The locks of the owner after a successful call: `below` and `above` are old locks, cut off at
the range `[start, stop]` that the request has grown to. -/
structure Spliced (request : Request) (own : List FileLock) (start stop : Int)
    (below above front middle back : List FileLock) : Prop where
  low : start ≤ request.flStart
  high : request.flEnd ≤ stop
  bounds : 0 ≤ start ∧ stop ≤ offsetMax
  belowSublist : below.Sublist own
  aboveSublist : above.Sublist own
  belowStart : ∀ fl ∈ below, fl.flStart < start
  aboveEnd : ∀ fl ∈ above, stop < fl.flEnd
  /-- A lock that reaches beyond both ends of the range is in both parts. -/
  splitBelow : ∀ fl ∈ above, fl.flStart < start → fl ∈ below
  splitAbove : ∀ fl ∈ below, stop < fl.flEnd → fl ∈ above
  clipBelow : List.Forall₂ (ClipBelow start) below front
  clipAbove : List.Forall₂ (ClipAbove stop) above back
  granted : (request.flType = .unlck ∧ middle = [] ∧
      start = request.flStart ∧ stop = request.flEnd) ∨
    (request.flType ≠ .unlck ∧ ∃ fl, middle = [fl] ∧ fl.flStart = start ∧ fl.flEnd = stop ∧
      fl.flType = request.flType ∧ fl.flFlags.posix = true ∧
      ownerKey fl.flOwner = ownerKey request.flOwner)
  outside : ∀ point t, point < start ∨ stop < point →
    (lockView.Covers own point t ↔ lockView.Covers (below ++ above) point t)
  inside : ∀ point t, start ≤ point → point ≤ stop →
    point < request.flStart ∨ request.flEnd < point →
    (lockView.Covers own point t ↔ t = request.flType)
  apartBelow : ∀ fl ∈ below, fl.flType = request.flType → fl.flEnd < request.flStart - 1
  apartAbove : ∀ fl ∈ above, fl.flType = request.flType → stop + 1 < fl.flStart
  mergedBelow : Merged own → ∀ fl ∈ below, fl.flType = request.flType → fl.flEnd + 1 < start

/-- The lock that holds a granted request, none if the request unlocks. -/
abbrev Granted (request : Request) (start stop : Int) (middle : List FileLock) : Prop :=
  (request.flType = .unlck ∧ middle = [] ∧ start = request.flStart ∧ stop = request.flEnd) ∨
  (request.flType ≠ .unlck ∧ ∃ fl, middle = [fl] ∧ fl.flStart = start ∧ fl.flEnd = stop ∧
    fl.flType = request.flType ∧ fl.flFlags.posix = true ∧ ownerKey fl.flOwner = ownerKey request.flOwner)

section Finish

variable {request : Request} {own post : List FileLock} {blocked : List Waiter} {last w : Walk}
  {kept granted rest : List FileLock} {newFl newFl2 : Option Nat}

variable (inv : WalkInv request own blocked last kept granted rest)

include inv

/-- Cutting `left` off cuts all kept locks off below the request. -/
theorem WalkInv.clip_kept : List.Forall₂ (ClipBelow last.request.flStart) kept
      (resizeLock last.left (fun fl => { fl with flEnd := last.request.flStart - 1 }) kept) := by
  rw [resizeLock, forall₂_map_right_iff, forall₂_same]
  intro fl mem
  split
  case isTrue isLeft =>
    obtain ⟨x, source, sameAddr, overlap⟩ := inv.left fl.addr isLeft
    have nodup := inv.addresses
    rw [inv.done, append_assoc, map_append, nodup_append] at nodup
    obtain rfl : x = fl := inj_on_of_nodup_map nodup.1 source mem sameAddr
    exact ⟨rfl, rfl, rfl, rfl, by dsimp only; omega⟩
  case isFalse notLeft =>
    rcases (inv.below fl mem).2.2 with ends | isLeft
    · exact ⟨rfl, rfl, rfl, rfl, by omega⟩
    · exact absurd isLeft notLeft

/-- Where the loop stopped, and why. -/
theorem WalkStop.outcome (group : OwnGroup request own)
    (others : ∀ fl ∈ post, ownerKey fl.flOwner ≠ ownerKey request.flOwner)
    (stop : WalkStop last (rest ++ post) w) :
    (w = { last with rest := rest ++ post } ∧ ∀ fl ∈ rest, last.request.flEnd < fl.flStart ∧
      (fl.flType = request.flType → last.request.flEnd + 1 < fl.flStart)) ∨
    ∃ right tail, rest = right :: tail ∧ request.flType ≠ right.flType ∧
      right.flStart ≤ last.request.flEnd ∧ last.request.flEnd < right.flEnd ∧
      w = { last with
        added := last.added || request.flType = .unlck
        left := if right.flStart < last.request.flStart then some right.addr else last.left
        right := some right.addr
        rest := rest ++ post } := by
  have sameOwner := inv.sameOwner
  have foreign : ∀ fl ∈ post, posixSameOwner last.request.flOwner fl.flOwner ≠ true := by
    intro fl mem owned
    rw [posixSameOwner_iff, sameOwner] at owned
    exact others fl mem owned.symm
  generalize shape : rest ++ post = remaining at stop
  cases stop with
  | exhausted notOwned =>
    refine .inl ⟨rfl, ?_⟩
    cases rest with
    | nil => simp
    | cons fl tail =>
      have := notOwned fl (by simp [← shape])
      have owned := group.owner fl inv.mem_own
      rw [← sameOwner, eq_comm, ← posixSameOwner_iff, this] at owned
      cases owned
  | @beyond _ _ _ after apart =>
    refine .inl ⟨rfl, ?_⟩
    cases rest with
    | nil => simp
    | cons first rest =>
      obtain ⟨rfl, -⟩ := cons_eq_cons.mp shape
      have behind := inv.rest_behind group
      have nonempty : first.flStart ≤ first.flEnd := group.ordered.nonempty first inv.mem_own
      simp only [mem_cons]
      rintro x (rfl | mem)
      · exact ⟨after, fun ofType => apart (by rw [inv.sameType, ofType])⟩
      · have := behind x mem
        exact ⟨by omega, fun _ => by omega⟩
  | @right fl _ owned otherType low high =>
    cases rest with
    | nil => exact absurd owned (foreign fl (by rw [nil_append] at shape; simp [shape]))
    | cons first rest =>
      obtain ⟨rfl, -⟩ := cons_eq_cons.mp shape
      refine .inr ⟨first, rest, rfl, inv.sameType ▸ otherType, low, high, ?_⟩
      rw [inv.sameType]

/-- The lock that holds the request: one of the list already, or the new one. -/
theorem WalkInv.middle (sameRequest : w.request = last.request)
    (added : w.added = last.added ∨ w.added = (last.added || request.flType = .unlck))
    (locks : ¬ (w.added = false ∧ w.request.flType = .unlck))
    (allocated : ¬ (w.added = false ∧ newFl = none)) :
    Granted request last.request.flStart last.request.flEnd (granted ++ insertNew w newFl) := by
  have sameType := inv.sameType
  have posix := inv.posix
  rcases inv.held with ⟨rfl, isRequest, unlocking⟩ | ⟨isAdded, locking, -, fl, rfl, isRequest⟩
  · by_cases isAdded : w.added = true
    · have isUnlock : request.flType = .unlck := by
        rcases added with same | same
        · exact unlocking (same ▸ isAdded)
        · rw [same, Bool.or_eq_true, decide_eq_true_eq] at isAdded
          exact isAdded.elim unlocking id
      refine .inl ⟨isUnlock, ?_, by rw [isRequest], by rw [isRequest]⟩
      cases newFl <;> simp [insertNew, isAdded]
    · have notAdded : w.added = false := by simpa using isAdded
      obtain ⟨addr, rfl⟩ := Option.ne_none_iff_exists'.mp fun none => allocated ⟨notAdded, none⟩
      refine .inr ⟨fun isUnlock => locks ⟨notAdded, ?_⟩,
        { last.request with addr, flBlock := [] }, ?_, rfl, rfl, sameType, posix,
        inv.sameOwner⟩
      · rw [sameRequest, sameType, isUnlock]
      · simp [insertNew, notAdded, sameRequest]
  · have stillAdded : w.added = true := by
      rcases added with same | same <;> simp [same, isAdded]
    refine .inr ⟨locking, fl, ?_, congrArg Request.flStart isRequest,
      congrArg Request.flEnd isRequest, ?_, ?_, ?_⟩
    · cases newFl <;> simp [insertNew, stillAdded]
    · rw [isRequest, sameType]
    · rw [isRequest, posix]
    · rw [isRequest, inv.sameOwner]

/-- The allocator returned two different locks that are not in use. -/
structure FreshLocks (locks : List FileLock) (newFl newFl2 : Option Nat) : Prop where
  unused : ∀ addr, newFl = some addr ∨ newFl2 = some addr → ∀ fl ∈ locks, fl.addr ≠ addr
  distinct : ∀ addr, newFl = some addr → newFl2 ≠ some addr

variable {locks front back tail : List FileLock} {fl right : FileLock} {limit : Int}
  {resize : FileLock → FileLock}

omit inv

theorem FreshLocks.sublist {some : List FileLock} (fresh : FreshLocks locks newFl newFl2)
    (sub : some.Sublist locks) :
    FreshLocks some newFl newFl2 :=
  ⟨fun addr new fl mem => fresh.unused addr new fl (sub.subset mem), fresh.distinct⟩

theorem mem_insertNew (mem : fl ∈ insertNew w newFl) : newFl = some fl.addr ∧ fl.flBlock = [] := by
  cases newFl with
  | none => simp [insertNew] at mem
  | some addr =>
    rw [insertNew] at mem
    split at mem
    · simp at mem
    · obtain rfl := mem_singleton.mp mem
      exact ⟨rfl, rfl⟩

theorem mem_copyRight (mem : fl ∈ copyRight w newFl2) : newFl2 = some fl.addr ∧ fl.flBlock = [] := by
  unfold copyRight at mem
  split at mem
  · obtain rfl := mem_singleton.mp mem
    exact ⟨rfl, rfl⟩
  · simp at mem

theorem inserted_nodup (pieces : List FileLock) (nodup : ((w.done ++ w.rest).map fun fl => fl.addr).Nodup)
    (fresh : FreshLocks (w.done ++ w.rest) newFl newFl2)
    (copies : pieces = [] ∨ pieces = copyRight w newFl2) :
    ((w.done ++ pieces ++ insertNew w newFl ++ w.rest).map fun fl => fl.addr).Nodup := by
  obtain ⟨pieceAddr, pieceNodup⟩ :
      (∀ fl ∈ pieces, newFl2 = some fl.addr) ∧ (pieces.map fun fl => fl.addr).Nodup := by
    rcases copies with rfl | rfl
    · simp
    · refine ⟨fun fl mem => (mem_copyRight mem).1, ?_⟩
      unfold copyRight
      split <;> simp
  have reorder : (w.done ++ pieces ++ insertNew w newFl ++ w.rest).Perm
      ((w.done ++ w.rest) ++ (pieces ++ insertNew w newFl)) := by
    simp only [append_assoc]
    apply List.Perm.append_left
    rw [← append_assoc]
    exact perm_append_comm
  have insertNodup : ((insertNew w newFl).map fun fl => fl.addr).Nodup := by
    unfold insertNew
    split
    · split <;> simp
    · simp
  rw [(reorder.map _).nodup_iff, map_append, nodup_append]
  refine ⟨nodup, ?_, ?_⟩
  · rw [map_append, nodup_append]
    refine ⟨pieceNodup, insertNodup, ?_⟩
    simp only [mem_map]
    rintro _ ⟨piece, inPieces, rfl⟩ _ ⟨inserted, inInserted, rfl⟩ same
    exact fresh.distinct _ (mem_insertNew inInserted).1 (same ▸ pieceAddr piece inPieces)
  · simp only [mem_map, mem_append]
    rintro _ ⟨old, isOld, rfl⟩ _ ⟨new, isNew | isNew, rfl⟩
    · exact fresh.unused _ (.inr (pieceAddr new isNew)) old (mem_append.mpr isOld)
    · exact fresh.unused _ (.inl (mem_insertNew isNew).1) old (mem_append.mpr isOld)

/-- The ranges of the result, from the invariant and the way the locks were cut off. -/
theorem WalkRange.spliced {middle below : List FileLock} (inv : WalkRange request own last kept rest)
    (belowIs : below = kept ∨ ∃ right tail, rest = right :: tail ∧ below = kept ++ [right] ∧
      right.flStart < last.request.flStart ∧ right.flType ≠ request.flType)
    (above : ∀ fl ∈ rest, last.request.flEnd < fl.flEnd ∧ (fl.flStart < last.request.flStart → fl ∈ below) ∧
      (fl.flType = request.flType → last.request.flEnd + 1 < fl.flStart))
    (clipBelow : List.Forall₂ (ClipBelow last.request.flStart) below front)
    (clipAbove : List.Forall₂ (ClipAbove last.request.flEnd) rest back)
    (granted : Granted request last.request.flStart last.request.flEnd middle) :
    Spliced request own last.request.flStart last.request.flEnd below rest front middle back := by
  have splitCases : ∀ fl ∈ below, fl ∈ kept ∨
      (fl ∈ rest ∧ fl.flStart < last.request.flStart ∧ fl.flType ≠ request.flType) := by
    rcases belowIs with rfl | ⟨right, tail, rfl, rfl, lower, otherType⟩
    · exact fun fl mem => .inl mem
    · exact forall_mem_append.mpr ⟨fun fl => .inl,
        forall_mem_singleton.mpr (.inr ⟨by simp, lower, otherType⟩)⟩
  have sub : below.Sublist (kept ++ rest) := by
    rcases belowIs with rfl | ⟨right, tail, rfl, rfl, -⟩
    · exact sublist_append_left _ _
    · exact List.Sublist.append_left (by simp) _
  refine { inv with clipBelow, clipAbove, granted
                    belowSublist := sub.trans inv.sublist
                    aboveSublist := (sublist_append_right _ _).trans inv.sublist
                    aboveEnd := fun fl mem => (above fl mem).1
                    splitBelow := fun fl mem => (above fl mem).2.1
                    apartAbove := fun fl mem => (above fl mem).2.2
                    belowStart := ?belowStart, splitAbove := ?splitAbove, outside := ?outside
                    apartBelow := ?apartBelow, mergedBelow := ?mergedBelow }
  case belowStart =>
    intro fl mem
    rcases splitCases fl mem with inKept | ⟨-, lower, -⟩
    · exact (inv.below fl inKept).1
    · exact lower
  case splitAbove =>
    intro fl mem ends
    rcases splitCases fl mem with inKept | ⟨inRest, -⟩
    · have := (inv.below fl inKept).2.1
      omega
    · exact inRest
  case outside =>
    intro point t away
    rw [inv.outside point t away]
    constructor
    · rintro ⟨x, mem, found⟩
      refine ⟨x, ?_, found⟩
      rcases mem_append.mp mem with inKept | inRest
      · rcases belowIs with rfl | ⟨_, _, _, rfl, _⟩ <;> simp [inKept]
      · simp [inRest]
    · rintro ⟨x, mem, found⟩
      refine ⟨x, ?_, found⟩
      rcases mem_append.mp mem with inBelow | inRest
      · exact sub.subset inBelow
      · simp [inRest]
  case apartBelow =>
    intro fl mem ofType
    rcases splitCases fl mem with inKept | ⟨-, -, otherType⟩
    · exact inv.apart fl inKept ofType
    · exact absurd ofType otherType
  case mergedBelow =>
    intro merged fl mem ofType
    rcases splitCases fl mem with inKept | ⟨-, -, otherType⟩
    · exact inv.mergedBelow merged fl inKept ofType
    · exact absurd ofType otherType

include inv

/-- The addresses on the list during the loop are addresses of the old list. -/
theorem WalkInv.all_nodup (nodup : ((own ++ post).map fun fl => fl.addr).Nodup) :
    ((last.done ++ (rest ++ post)).map fun fl => fl.addr).Nodup := by
  rw [← append_assoc, map_append, nodup_append]
  rw [map_append, nodup_append] at nodup
  refine ⟨inv.addresses, nodup.2.1, ?_⟩
  intro addr mem other foreign
  obtain ⟨fl, source, rfl⟩ := mem_map.mp mem
  obtain ⟨old, oldMember, sameAddr, -⟩ := inv.origin fl source
  rw [← sameAddr]
  exact nodup.2.2 old.addr (mem_map_of_mem oldMember) other foreign

theorem WalkInv.all_fresh (fresh : FreshLocks (own ++ post) newFl newFl2) :
    FreshLocks (last.done ++ (rest ++ post)) newFl newFl2 := by
  refine ⟨fun addr new fl mem => ?_, fresh.distinct⟩
  rw [← append_assoc] at mem
  rcases mem_append.mp mem with onList | foreign
  · obtain ⟨old, oldMember, sameAddr, -⟩ := inv.origin fl onList
    rw [← sameAddr]
    exact fresh.unused addr new old (mem_append_left _ oldMember)
  · exact fresh.unused addr new fl (mem_append_right _ foreign)

omit inv

/-- Locks that lie above the request need not be cut off. -/
theorem clipAbove_self (above : ∀ fl ∈ locks, limit < fl.flStart) :
    List.Forall₂ (ClipAbove limit) locks locks := by
  rw [forall₂_same]
  intro fl mem
  have := above fl mem
  exact ⟨rfl, rfl, rfl, by omega, rfl⟩

/-- Locks that lie below the request need not be cut off. -/
theorem clipBelow_self (below : ∀ fl ∈ locks, fl.flEnd < limit) :
    List.Forall₂ (ClipBelow limit) locks locks := by
  rw [forall₂_same]
  intro fl mem
  have := below fl mem
  exact ⟨rfl, rfl, rfl, rfl, by omega⟩

include inv

/-- The list after a call that neither fails nor splits a lock in two. -/
theorem WalkInv.finish_unsplit
    (nodup : ((last.done ++ insertNew w newFl ++ (rest ++ post)).map fun fl => fl.addr).Nodup)
    {right : Option Nat} (sameAddr : ∀ fl, (resize fl).addr = fl.addr)
    (resized : resizeLock right resize (last.done ++ insertNew w newFl ++ (rest ++ post)) =
      last.done ++ insertNew w newFl ++ (back ++ post)) :
    resizeLock last.left (fun fl => { fl with flEnd := last.request.flStart - 1 })
      (resizeLock right resize (last.done ++ insertNew w newFl ++ (rest ++ post))) =
    resizeLock last.left (fun fl => { fl with flEnd := last.request.flStart - 1 }) kept ++
      (granted ++ insertNew w newFl) ++ back ++ post := by
  rw [← resizeLock_addresses right sameAddr, resized] at nodup
  rw [resized]
  simp only [inv.done, append_assoc] at nodup ⊢
  rw [resizeLock_front nodup]
  intro target isLeft
  obtain ⟨fl, mem, found, -⟩ := inv.left target isLeft
  exact ⟨fl, mem, found⟩

/-- What the part behind the loop returns: the locks of the owner with the request spliced in, or
an error and everything as it was. -/
def FinishSpec (request : Request) (own post : List FileLock) (blocked : List Waiter)
    (result : Ret × List FileLock × List Waiter) : Prop :=
  (result.1 = .ok ∧ ∃ start stop below above front middle back,
    result.2.1 = front ++ middle ++ back ++ post ∧
    Spliced request own start stop below above front middle back) ∨
  (result.1 ≠ .ok ∧ result.2 = (own ++ post, blocked))

/-- Nothing has been modified before an error return. -/
theorem WalkInv.unchanged (notAdded : last.added = false) :
    (last.done ++ (rest ++ post), last.blocked) = (own ++ post, blocked) := by
  obtain ⟨same, sameBlocked⟩ := inv.fresh notAdded
  rw [← append_assoc, same, sameBlocked]

/-- The loop stopped without a lock to cut off above the request. -/
theorem WalkInv.finish_plain
    (group : OwnGroup request own) (nodup : ((own ++ post).map fun fl => fl.addr).Nodup)
    (fresh : FreshLocks (own ++ post) newFl newFl2)
    (above : ∀ fl ∈ rest, last.request.flEnd < fl.flStart ∧
      (fl.flType = request.flType → last.request.flEnd + 1 < fl.flStart))
    (isLast : w = { last with rest := rest ++ post }) :
    FinishSpec request own post blocked (finish w newFl newFl2) := by
  have clipAbove := clipAbove_self fun fl mem => (above fl mem).1
  have above : ∀ fl ∈ rest, last.request.flEnd < fl.flEnd ∧ (fl.flStart < last.request.flStart → fl ∈ kept) ∧
      (fl.flType = request.flType → last.request.flEnd + 1 < fl.flStart) := by
    intro fl mem
    have : fl.flStart ≤ fl.flEnd := (inv.ordered group).nonempty fl (by simp [mem])
    have := inv.wide
    obtain ⟨after, apart⟩ := above fl mem
    exact ⟨by omega, fun lower => by omega, apart⟩
  have noRight : w.right = none := by rw [isLast]; exact inv.noRight
  have sameAdded : w.added = last.added := by rw [isLast]
  have sameType : w.request.flType = request.flType := by rw [isLast]; exact inv.sameType
  unfold finish
  rw [if_neg (by simp [noRight])]
  by_cases idle : w.added = false ∧ w.request.flType = .unlck
  · rw [if_pos idle]
    have notAdded : last.added = false := sameAdded ▸ idle.1
    have isUnlock : request.flType = .unlck := sameType ▸ idle.2
    split_ifs with mustExist
    · refine .inr ⟨by simp, ?_⟩
      rw [isLast]
      exact inv.unchanged notAdded
    · rcases inv.held with ⟨rfl, same, -⟩ | ⟨isAdded, -⟩
      swap
      · rw [notAdded] at isAdded
        cases isAdded
      have noLeft := inv.unlockLeft isUnlock notAdded
      have below : ∀ fl ∈ kept, fl.flEnd < last.request.flStart := by
        intro fl mem
        exact (inv.below fl mem).2.2.resolve_right (by simp [noLeft])
      refine .inl ⟨rfl, _, _, _, _, kept, [], rest, ?_,
        inv.toWalkRange.spliced (.inl rfl) above (clipBelow_self below) clipAbove
          (.inl ⟨isUnlock, rfl, by rw [same], by rw [same]⟩)⟩
      simp [isLast, inv.done]
  rw [if_neg idle]
  split_ifs with failed
  · refine .inr ⟨by simp, ?_⟩
    rw [isLast]
    exact inv.unchanged (sameAdded ▸ failed.1)
  have inserted := inserted_nodup (w := w) []
    (by rw [isLast]; exact inv.all_nodup nodup) (by rw [isLast]; exact inv.all_fresh fresh)
    (.inl rfl)
  refine .inl ⟨rfl, _, _, _, _, _, _, _, ?_,
    inv.toWalkRange.spliced (.inl rfl) above inv.clip_kept clipAbove
      (inv.middle (by rw [isLast]) (.inl sameAdded) idle failed)⟩
  simp only [noRight, Option.isSome_none, Bool.false_eq_true, false_and, if_false]
  simp only [isLast, append_nil] at inserted ⊢
  exact inv.finish_unsplit inserted (fun _ => rfl) (resizeLock_none _ _)

omit inv

/-- The locks from the one that reaches above the request on, after cutting it off. -/
theorem WalkInv.clip_right (inv : WalkInv request own blocked last kept granted (right :: tail))
    (group : OwnGroup request own) (low : right.flStart ≤ last.request.flEnd)
    (high : last.request.flEnd < right.flEnd) :
    List.Forall₂ (ClipAbove last.request.flEnd) (right :: tail)
      ({ right with flStart := last.request.flEnd + 1, flBlock := [] } :: tail) := by
  refine .cons ⟨rfl, rfl, rfl, by dsimp only; omega, rfl⟩ (clipAbove_self ?_)
  intro fl mem
  have := inv.rest_behind group fl mem
  omega

/-- `left` is never the lock at hand. -/
theorem WalkInv.left_ne (inv : WalkInv request own blocked last kept granted (right :: tail)) :
    last.left ≠ some right.addr := by
  intro isLeft
  obtain ⟨x, mem, sameAddr, -⟩ := inv.left _ isLeft
  have nodup := inv.addresses
  rw [inv.done, append_assoc, map_append, nodup_append] at nodup
  exact nodup.2.2 x.addr (mem_map_of_mem mem) right.addr (mem_map_of_mem (by simp)) sameAddr

theorem resizeLock_two {first second : FileLock} {between : List FileLock}
    {lower upper : FileLock → FileLock} (sameAddr : ∀ fl, (upper fl).addr = fl.addr)
    (nodup : ((front ++ first :: (between ++ second :: tail)).map fun fl => fl.addr).Nodup) :
    resizeLock (some first.addr) lower
      (resizeLock (some second.addr) upper (front ++ first :: (between ++ second :: tail))) =
    front ++ { lower first with flBlock := [] } ::
      (between ++ { upper second with flBlock := [] } :: tail) := by
  have regroup : ∀ {x : FileLock}, front ++ first :: (between ++ x :: tail) =
      (front ++ first :: between) ++ x :: tail := by simp
  have resized : resizeLock (some second.addr) upper (front ++ first :: (between ++ second :: tail)) =
      front ++ first :: (between ++ { upper second with flBlock := [] } :: tail) := by
    rw [regroup] at nodup ⊢
    rw [resizeLock_middle upper nodup, regroup]
  rw [← resizeLock_addresses (some second.addr) sameAddr, resized] at nodup
  rw [resized]
  exact resizeLock_middle lower nodup

/-- The loop stopped at a lock that reaches above the request. -/
theorem WalkInv.finish_right (inv : WalkInv request own blocked last kept granted (right :: tail))
    (group : OwnGroup request own) (range : LockRange request)
    (nodup : ((own ++ post).map fun fl => fl.addr).Nodup)
    (fresh : FreshLocks (own ++ post) newFl newFl2) (otherType : request.flType ≠ right.flType)
    (low : right.flStart ≤ last.request.flEnd) (high : last.request.flEnd < right.flEnd)
    (isLast : w = { last with
        added := last.added || request.flType = .unlck
        left := if right.flStart < last.request.flStart then some right.addr else last.left
        right := some right.addr
        rest := (right :: tail) ++ post }) :
    FinishSpec request own post blocked (finish w newFl newFl2) := by
  have above : ∀ fl ∈ right :: tail, last.request.flEnd < fl.flEnd ∧
    (fl.flStart < last.request.flStart → fl = right) ∧
      (fl.flType = request.flType → last.request.flEnd + 1 < fl.flStart) := by
    refine forall_mem_cons.mpr ⟨⟨high, fun _ => rfl, fun ofType => absurd ofType.symm otherType⟩,
      fun fl inTail => ?_⟩
    have := inv.rest_behind group fl inTail
    have : fl.flStart ≤ fl.flEnd := (inv.ordered group).nonempty fl (by simp [inTail])
    have := inv.wide
    exact ⟨by omega, fun lower => by omega, fun _ => by omega⟩
  have isRight : w.right = some right.addr := by rw [isLast]
  have sameAdded : w.added = (last.added || request.flType = .unlck) := by rw [isLast]
  have sameType : w.request.flType = request.flType := by rw [isLast]; exact inv.sameType
  have inserted := fun pieces => inserted_nodup (w := w) pieces
    (by rw [isLast]; exact inv.all_nodup nodup) (by rw [isLast]; exact inv.all_fresh fresh)
  have notIdle : ¬ (w.added = false ∧ w.request.flType = .unlck) := by
    rintro ⟨notAdded, isUnlock⟩
    rw [sameAdded, ← sameType, isUnlock] at notAdded
    simp at notAdded
  have clipAbove := inv.clip_right group low high
  have unchanged (failed : w.added = false) : (w.done ++ w.rest, w.blocked) = (own ++ post, blocked) := by
    rw [sameAdded] at failed
    rw [isLast]
    exact inv.unchanged (Bool.or_eq_false_iff.mp failed).1
  unfold finish
  by_cases splits : right.flStart < last.request.flStart
  · -- the lock at hand reaches beyond both ends of the request
    have isLeft : w.left = some right.addr := by rw [isLast]; exact if_pos splits
    obtain ⟨rfl, isRequest, -⟩ := inv.granted_nil splits
    have isSplit : w.right.isSome = true ∧ w.left = w.right := by simp [isRight, isLeft]
    cases newFl2 with
    | none =>
      rw [if_pos ⟨isSplit.1, isSplit.2, rfl⟩]
      refine .inr ⟨by simp, ?_⟩
      rcases inv.intact with ⟨same, sameBlocked⟩ | above
      · rw [isLast, ← same, ← sameBlocked, append_assoc]
      · have := above right mem_cons_self
        omega
    | some addr =>
      rw [if_neg (by simp), if_neg notIdle]
      split_ifs with failed
      · exact .inr ⟨by simp, unchanged failed.1⟩
      have found : w.rest.find? (fun fl => w.right = some fl.addr) = some right := by
        simp [isLast]
      have pieces : copyRight w (some addr) = [{ right with addr, flBlock := [] }] := by
        simp only [copyRight, found]
      have below : ∀ fl ∈ kept, fl.flEnd < last.request.flStart := by
        intro fl mem
        have := inv.kept_before group fl mem
        omega
      have wide := range.ordered
      have lowRequest := inv.low
      have highRequest := inv.high
      refine .inl ⟨rfl, _, _, _, _,
        kept ++ [{ right with addr, flEnd := last.request.flStart - 1, flBlock := [] }],
        [] ++ insertNew w newFl,
        { right with flStart := last.request.flEnd + 1, flBlock := [] } :: tail, ?_,
        inv.toWalkRange.spliced (.inr ⟨right, tail, rfl, rfl, splits, otherType.symm⟩) (fun fl mem =>
          ?_) ?_ clipAbove
          (inv.middle (by rw [isLast]) (.inr sameAdded) notIdle failed)⟩
      · have nodup' := inserted _ (.inr rfl)
        rw [pieces] at nodup'
        simp only [isSplit, pieces]
        simp only [isLast, inv.done, append_assoc] at nodup' ⊢
        exact resizeLock_two (by intro; rfl) nodup'
      · obtain ⟨ends, only, apart⟩ := above fl mem
        exact ⟨ends, fun lower => by simp [only lower], apart⟩
      · refine rel_append (clipBelow_self below) (.cons ⟨rfl, rfl, rfl, rfl, ?_⟩ .nil)
        dsimp only
        omega
  · have sameLeft : w.left = last.left := by rw [isLast]; exact if_neg splits
    have notSplit : ¬ (w.right.isSome = true ∧ w.left = w.right) := by
      rintro ⟨-, same⟩
      rw [sameLeft, isRight] at same
      exact inv.left_ne same
    rw [if_neg fun condition => notSplit ⟨condition.1, condition.2.1⟩, if_neg notIdle]
    split_ifs with failed
    · exact .inr ⟨by simp, unchanged failed.1⟩
    refine .inl ⟨rfl, _, _, _, _, _, _, _, ?_, inv.toWalkRange.spliced (.inl rfl) (fun fl mem => ?_)
      inv.clip_kept clipAbove (inv.middle (by rw [isLast]) (.inr sameAdded) notIdle failed)⟩
    · have nodup' := inserted [] (.inl rfl)
      dsimp only
      rw [if_neg notSplit, if_neg notSplit, sameLeft]
      simp only [isLast, append_nil] at nodup' ⊢
      exact inv.finish_unsplit nodup' (by intro; rfl) (resizeLock_middle _ nodup')
    · obtain ⟨ends, only, apart⟩ := above fl mem
      exact ⟨ends, fun lower => absurd (only lower ▸ lower) splits, apart⟩

include inv

/-- The part behind the loop meets its specification wherever the loop stopped. -/
theorem finish_spec (group : OwnGroup request own) (range : LockRange request)
    (others : ∀ fl ∈ post, ownerKey fl.flOwner ≠ ownerKey request.flOwner)
    (nodup : ((own ++ post).map fun fl => fl.addr).Nodup)
    (fresh : FreshLocks (own ++ post) newFl newFl2) (stop : WalkStop last (rest ++ post) w) :
    FinishSpec request own post blocked (finish w newFl newFl2) := by
  rcases stop.outcome inv group others with ⟨isLast, above⟩ | ⟨right, tail, rfl, otherType, low, high, isLast⟩
  · exact inv.finish_plain group nodup fresh above isLast
  · exact inv.finish_right group range nodup fresh otherType low high isLast

omit inv

theorem WalkStop.lists {remaining : List FileLock} (stop : WalkStop last remaining w) :
    w.done = last.done ∧ w.rest = remaining := by
  cases stop <;> exact ⟨rfl, rfl⟩

/-- The two shapes of the result: the list behind the loop as it is, or with new locks inserted and
`left` and `right` cut off. -/
theorem finish_shape (w : Walk) (newFl newFl2 : Option Nat) :
    (finish w newFl newFl2).2 = (w.done ++ w.rest, w.blocked) ∨
    ∃ pieces left locks resized, (pieces = [] ∨ pieces = copyRight w newFl2) ∧
      locks = w.done ++ pieces ++ insertNew w newFl ++ w.rest ∧
      resized = resizeLock w.right (fun fl => { fl with flStart := w.request.flEnd + 1 }) locks ∧
      (finish w newFl newFl2).2 =
        (resizeLock left (fun fl => { fl with flEnd := w.request.flStart - 1 }) resized,
        wakeLock left resized (wakeLock w.right locks w.blocked)) := by
  unfold finish
  split
  · exact .inl rfl
  split
  · exact .inl rfl
  split
  · exact .inl rfl
  refine .inr ⟨_, _, _, _, ?_, rfl, rfl, rfl⟩
  split <;> simp

/-- A lock that is resized loses its waiters. -/
theorem mem_resizeLock {addr : Option Nat} (mem : fl ∈ resizeLock addr resize locks) :
    fl.flBlock = [] ∨ fl ∈ locks ∧ addr ≠ some fl.addr := by
  obtain ⟨old, source, rfl⟩ := mem_map.mp mem
  split
  case isTrue => exact .inl rfl
  case isFalse elsewhere => exact .inr ⟨source, elsewhere⟩

/-- Every lock of the result has lost its waiters or was on the list behind the loop. -/
theorem finish_waiters : ∀ fl ∈ (finish w newFl newFl2).2.1, fl.flBlock = [] ∨ fl ∈ w.done ++ w.rest := by
  intro fl mem
  rcases finish_shape w newFl newFl2 with same | ⟨pieces, left, locks, resized, copies, rfl, rfl, same⟩
  · rw [same] at mem
    exact .inr mem
  rw [same] at mem
  rcases mem_resizeLock mem with woken | ⟨mem, -⟩
  · exact .inl woken
  rcases mem_resizeLock mem with woken | ⟨mem, -⟩
  · exact .inl woken
  simp only [mem_append] at mem
  rcases mem with ((inDone | isCopy) | isNew) | inRest
  · exact .inr (mem_append_left _ inDone)
  · rcases copies with rfl | rfl
    · simp at isCopy
    · exact .inl (mem_copyRight isCopy).2
  · exact .inl (mem_insertNew isNew).2
  · exact .inr (mem_append_right _ inRest)

/-- The locks of the result have distinct addresses: old ones and new ones. -/
theorem finish_addresses (nodup : ((w.done ++ w.rest).map fun fl => fl.addr).Nodup)
    (fresh : FreshLocks (w.done ++ w.rest) newFl newFl2) :
    ((finish w newFl newFl2).2.1.map fun fl => fl.addr).Nodup ∧
    ∀ fl ∈ (finish w newFl newFl2).2.1, fl.addr ∈ ((w.done ++ w.rest).map fun fl => fl.addr) ∨
        newFl = some fl.addr ∨ newFl2 = some fl.addr := by
  rcases finish_shape w newFl newFl2 with same | ⟨pieces, left, locks, resized, copies, rfl, rfl, same⟩
  · rw [same]
    exact ⟨nodup, fun fl mem => .inl (mem_map_of_mem mem)⟩
  have addresses : (finish w newFl newFl2).2.1.map (fun fl => fl.addr) =
      (w.done ++ pieces ++ insertNew w newFl ++ w.rest).map fun fl => fl.addr := by
    rw [same, resizeLock_addresses _ (by intro; rfl), resizeLock_addresses _ (by intro; rfl)]
  rw [addresses]
  refine ⟨inserted_nodup _ nodup fresh copies, fun fl mem => ?_⟩
  have inNew : fl.addr ∈ (w.done ++ pieces ++ insertNew w newFl ++ w.rest).map fun fl => fl.addr := by
    rw [← addresses]
    exact mem_map_of_mem mem
  obtain ⟨source, found, sameAddr⟩ := mem_map.mp inNew
  rw [← sameAddr]
  simp only [mem_append] at found
  rcases found with ((inDone | isCopy) | isNew) | inRest
  · exact .inl (mem_map_of_mem (mem_append_left _ inDone))
  · rcases copies with rfl | rfl
    · simp at isCopy
    · exact .inr (.inr (mem_copyRight isCopy).1)
  · exact .inr (.inl (mem_insertNew isNew).1)
  · exact .inl (mem_map_of_mem (mem_append_right _ inRest))

end Finish

end LinuxKernel.Fs.Locks
