/-
Module: LinuxKernel.Proofs.PosixLockUpdate
Purpose: `__posix_lock_file` as an update of the map from owners and bytes to lock types: a granted
  request changes the map exactly on its own owner and range and keeps the list well-formed, and a
  refused one leaves every granted lock as it was.
Trusted boundary: none
Main exports: typeAt, applyRequest_spec, posixLockFile_updates_pointwise
-/
import LinuxKernel.Proofs.PosixLockFinish

namespace LinuxKernel.Fs.Locks

open Library Function List

/-! ### What a spliced list says -/

/-- The lock ends at or next to the range of the request, or within it. -/
def Touches (request : Request) (fl : FileLock) : Prop :=
  fl.flStart ≤ request.flEnd + 1 ∧ request.flStart - 1 ≤ fl.flEnd

section Spliced

variable {request : Request} {own below above front middle back : List FileLock}
  {start stop : Int} (spliced : Spliced request own start stop below above front middle back)

include spliced

/-- The front part lies below the request. -/
theorem Spliced.front_below : ∀ fl ∈ front, fl.flEnd < start := by
  intro fl mem
  obtain ⟨old, -, clipped⟩ := exists_of_forall₂ spliced.clipBelow fl mem
  have := clipped.stop
  omega

/-- The back part lies above the request. -/
theorem Spliced.back_above : ∀ fl ∈ back, stop < fl.flStart := by
  intro fl mem
  obtain ⟨old, -, clipped⟩ := exists_of_forall₂ spliced.clipAbove fl mem
  have := clipped.start
  omega

section

variable (group : OwnGroup request own)

include group

/-- The locks of the front part with the old locks they are cut from. -/
theorem Spliced.front_sources :
    List.Forall₂ (fun old new => (old ∈ own ∧ old.flStart < start ∧ old.flStart ≤ old.flEnd ∧
      (old.flType = request.flType → old.flEnd < request.flStart - 1)) ∧
      ClipBelow start old new) below front := by
  refine (forall₂_and_left _ _).mpr ⟨fun old mem => ?_, spliced.clipBelow⟩
  have inOwn := spliced.belowSublist.subset mem
  exact ⟨inOwn, spliced.belowStart old mem, group.ordered.nonempty old inOwn,
    spliced.apartBelow old mem⟩

/-- The locks of the back part with the old locks they are cut from. -/
theorem Spliced.back_sources :
    List.Forall₂ (fun old new => (old ∈ own ∧ stop < old.flEnd ∧ old.flStart ≤ old.flEnd ∧
      (old.flType = request.flType → stop + 1 < old.flStart)) ∧
      ClipAbove stop old new) above back := by
  refine (forall₂_and_left _ _).mpr ⟨fun old mem => ?_, spliced.clipAbove⟩
  have inOwn := spliced.aboveSublist.subset mem
  exact ⟨inOwn, spliced.aboveEnd old mem, group.ordered.nonempty old inOwn, spliced.apartAbove old mem⟩

theorem Spliced.sides_ordered : lockView.Ordered front ∧ lockView.Ordered back := by
  refine ⟨(group.ordered.sublist spliced.belowSublist).clip ((spliced.front_sources group).imp ?_),
    (group.ordered.sublist spliced.aboveSublist).clip ((spliced.back_sources group).imp ?_)⟩
  all_goals
    rintro old new ⟨⟨-, outside, nonempty, -⟩, clipped⟩
    have newStart := clipped.start
    have newStop := clipped.stop
    change old.flStart ≤ new.flStart ∧ new.flStart ≤ new.flEnd ∧ new.flEnd ≤ old.flEnd
    omega

end

/-- The lock that holds the request fills exactly the range between the two parts. -/
theorem Spliced.mem_middle : ∀ fl ∈ middle, fl.flStart = start ∧ fl.flEnd = stop ∧
    fl.flType = request.flType ∧
    request.flType ≠ .unlck ∧ fl.flFlags.posix = true ∧ ownerKey fl.flOwner = ownerKey request.flOwner := by
  rcases spliced.granted with ⟨-, rfl, -⟩ | ⟨locking, x, rfl, sameStart, sameStop, ofType, holder⟩
  · nofun
  · intro fl mem
    obtain rfl := mem_singleton.mp mem
    exact ⟨sameStart, sameStop, ofType, locking, holder⟩

theorem Spliced.middle_pairwise (R : FileLock → FileLock → Prop) : middle.Pairwise R := by
  rcases spliced.granted with ⟨-, rfl, -⟩ | ⟨-, fl, rfl, -⟩
  · exact .nil
  · exact pairwise_singleton _ _

theorem Spliced.wide (range : LockRange request) : start ≤ stop := by
  have := spliced.low
  have := spliced.high
  have := range.ordered
  omega

/-- The result is again sorted and disjoint. -/
theorem Spliced.ordered (group : OwnGroup request own) (range : LockRange request) :
    lockView.Ordered (front ++ middle ++ back) := by
  have wide := spliced.wide range
  have within : ∀ fl ∈ middle, start ≤ fl.flStart ∧ fl.flEnd ≤ stop ∧ fl.flStart ≤ fl.flEnd := by
    intro fl mem
    have := spliced.mem_middle fl mem
    omega
  obtain ⟨frontOrdered, backOrdered⟩ := spliced.sides_ordered group
  exact frontOrdered.splice ⟨fun fl mem => (within fl mem).2.2, spliced.middle_pairwise _⟩
    backOrdered spliced.front_below spliced.back_above
    (fun fl mem => ⟨(within fl mem).1, (within fl mem).2.1⟩) wide

variable {point : Int} {t : LockType}

theorem Spliced.not_covers_front (low : start ≤ point) : ¬ lockView.Covers front point t :=
  IntervalView.not_covers_of_hi_lt fun fl mem => Int.lt_of_lt_of_le (spliced.front_below fl mem) low

theorem Spliced.not_covers_back (high : point ≤ stop) : ¬ lockView.Covers back point t :=
  IntervalView.not_covers_of_lt_lo fun fl mem => Int.lt_of_le_of_lt high (spliced.back_above fl mem)

/-- Within the range the request has grown to, the lock that holds the request decides. -/
theorem Spliced.covers_within (low : start ≤ point) (high : point ≤ stop) :
    lockView.Covers (front ++ middle ++ back) point t ↔ t = request.flType ∧ request.flType ≠ .unlck := by
  simp only [IntervalView.covers_append, spliced.not_covers_front low, spliced.not_covers_back high,
    false_or, or_false]
  rcases spliced.granted with ⟨unlock, rfl, -⟩ | ⟨locking, fl, rfl, rfl, rfl, ofType, -⟩
  · simp [unlock]
  · rw [IntervalView.covers_cons]
    change (fl.flType = t ∧ fl.flStart ≤ point ∧ point ≤ fl.flEnd) ∨ _ ↔ _
    simp [ofType, low, high, locking, eq_comm]

/-- Outside that range nothing changes. -/
theorem Spliced.covers_outside (wide : start ≤ stop) (away : point < start ∨ stop < point) :
    lockView.Covers (front ++ middle ++ back) point t ↔ lockView.Covers own point t := by
  have noMiddle : ¬ lockView.Covers middle point t := by
    rintro ⟨fl, mem, -, low, high⟩
    have within := spliced.mem_middle fl mem
    change fl.flStart ≤ point at low
    change point ≤ fl.flEnd at high
    omega
  rw [spliced.outside point t away]
  simp only [IntervalView.covers_append, noMiddle, or_false]
  -- a part reaches the point if the lock that it is cut from does
  have same {olds news : List FileLock} (clips : Forall₂ (fun old new => new.flType = old.flType ∧
      (new.flStart ≤ point ∧ point ≤ new.flEnd ↔ old.flStart ≤ point ∧ point ≤ old.flEnd)) olds news) :
      lockView.Covers news point t ↔ lockView.Covers olds point t := IntervalView.covers_congr clips
  rcases away with lower | upper
  · have frontSame := same (spliced.clipBelow.imp fun old new clipped => ⟨clipped.type, by
      have := clipped.start
      have := clipped.stop
      omega⟩)
    rw [frontSame, or_iff_left (spliced.not_covers_back (by omega)), or_iff_left_of_imp]
    rintro ⟨fl, mem, ofType, low, high⟩
    change fl.flStart ≤ point at low
    exact ⟨fl, spliced.splitBelow fl mem (by omega), ofType, low, high⟩
  · have backSame := same (spliced.clipAbove.imp fun old new clipped => ⟨clipped.type, by
      have := clipped.start
      have := clipped.stop
      omega⟩)
    rw [backSame, or_iff_right (spliced.not_covers_front (by omega)), or_iff_right_of_imp]
    rintro ⟨fl, mem, ofType, low, high⟩
    change point ≤ fl.flEnd at high
    exact ⟨fl, spliced.splitAbove fl mem (by omega), ofType, low, high⟩

/-- The result is the old map, overridden by the request on its range. -/
theorem Spliced.covers_iff (range : LockRange request) (point : Int) (t : LockType) :
    lockView.Covers (front ++ middle ++ back) point t ↔
      if request.flStart ≤ point ∧ point ≤ request.flEnd then
        t = request.flType ∧ request.flType ≠ .unlck
      else lockView.Covers own point t := by
  have low := spliced.low
  have high := spliced.high
  split
  case isTrue inRange =>
    exact spliced.covers_within (by omega) (by omega)
  case isFalse outOfRange =>
    by_cases within : start ≤ point ∧ point ≤ stop
    · rw [spliced.covers_within within.1 within.2, spliced.inside point t within.1 within.2 (by omega)]
      refine and_iff_left_of_imp fun _ unlock => ?_
      rcases spliced.granted with ⟨-, -, sameStart, sameStop⟩ | ⟨locking, -⟩
      · omega
      · exact locking unlock
    · exact spliced.covers_outside (spliced.wide range) (by omega)

/-- The locks of the result are locks of the owner. -/
theorem Spliced.group (group : OwnGroup request own) (range : LockRange request)
    (addresses : ((front ++ middle ++ back).map fun fl => fl.addr).Nodup) :
    OwnGroup request (front ++ middle ++ back) := by
  have each : ∀ fl ∈ front ++ middle ++ back, fl.flFlags.posix = true ∧
      ownerKey fl.flOwner = ownerKey request.flOwner ∧ fl.flType ≠ .unlck ∧
      0 ≤ fl.flStart ∧ fl.flEnd ≤ offsetMax := by
    have bounds := spliced.bounds
    -- a part of an old lock
    have part {old fl : FileLock} (inOwn : old ∈ own) (flags : fl.flFlags = old.flFlags)
        (owner : fl.flOwner = old.flOwner) (type : fl.flType = old.flType) (low : old.flStart ≤ fl.flStart)
        (high : fl.flEnd ≤ old.flEnd) : fl.flFlags.posix = true ∧
          ownerKey fl.flOwner = ownerKey request.flOwner ∧
        fl.flType ≠ .unlck ∧ 0 ≤ fl.flStart ∧ fl.flEnd ≤ offsetMax :=
      ⟨flags ▸ group.posix old inOwn, owner ▸ group.owner old inOwn, type ▸ group.locking old inOwn,
        Int.le_trans (group.bounds old inOwn).1 low, Int.le_trans high (group.bounds old inOwn).2⟩
    simp only [mem_append]
    rintro fl ((inFront | inMiddle) | inBack)
    · obtain ⟨old, -, ⟨inOwn, -⟩, clipped⟩ := exists_of_forall₂ (spliced.front_sources group) fl inFront
      have := clipped.stop
      exact part inOwn clipped.flags clipped.owner clipped.type (Int.le_of_eq clipped.start.symm) (by omega)
    · obtain ⟨rfl, rfl, ofType, locking, posix, owner⟩ := spliced.mem_middle fl inMiddle
      exact ⟨posix, owner, ofType ▸ locking, bounds.1, bounds.2⟩
    · obtain ⟨old, -, ⟨inOwn, -⟩, clipped⟩ := exists_of_forall₂ (spliced.back_sources group) fl inBack
      have := clipped.start
      exact part inOwn clipped.flags clipped.owner clipped.type (by omega) (Int.le_of_eq clipped.stop)
  exact ⟨spliced.ordered group range, fun fl mem => (each fl mem).1,
    fun fl mem => (each fl mem).2.1, fun fl mem => (each fl mem).2.2.1,
    fun fl mem => (each fl mem).2.2.2, addresses⟩

/-- A relation between any two locks of the result in order. -/
theorem Spliced.pairwise {R : FileLock → FileLock → Prop} (inFront : front.Pairwise R)
    (inBack : back.Pairwise R)
    (frontMiddle : ∀ a ∈ front, ∀ b ∈ middle, R a b)
    (middleBack : ∀ a ∈ middle, ∀ b ∈ back, R a b)
    (frontBack : ∀ a ∈ front, ∀ b ∈ back, R a b) : (front ++ middle ++ back).Pairwise R := by
  refine pairwise_append.mpr
    ⟨pairwise_append.mpr ⟨inFront, spliced.middle_pairwise R, frontMiddle⟩, inBack, ?_⟩
  simp only [mem_append]
  rintro a (mem | mem) b inBack
  · exact frontBack a mem b inBack
  · exact middleBack a mem b inBack

/-- There is a gap between a lock of the front part and one of the back part. -/
theorem Spliced.front_back_gap (wide : start ≤ stop) : ∀ a ∈ front, ∀ b ∈ back, a.flEnd + 1 < b.flStart := by
  intro a inFront b inBack
  have := spliced.front_below a inFront
  have := spliced.back_above b inBack
  omega

/-- There is a gap between the lock that holds the request and a lock of its type behind it. -/
theorem Spliced.middle_back_gap (group : OwnGroup request own) :
    ∀ a ∈ middle, ∀ b ∈ back, a.flType = b.flType → a.flEnd + 1 < b.flStart := by
  intro a inMiddle b inBack sameType
  obtain ⟨old, -, ⟨-, -, -, apart⟩, clipped⟩ :=
    exists_of_forall₂ (spliced.back_sources group) b inBack
  have newStart := clipped.start
  obtain ⟨-, sameStop, ofType, -⟩ := spliced.mem_middle a inMiddle
  have := apart (by rw [← clipped.type, ← sameType, ofType])
  omega

/-- A list on which neighbouring locks of one type were merged stays one. -/
theorem Spliced.merged (group : OwnGroup request own) (range : LockRange request) (merged : Merged own) :
    Merged (front ++ middle ++ back) := by
  have wide := spliced.wide range
  refine spliced.pairwise (pairwise_of_forall₂ ?_ spliced.clipBelow (merged.sublist spliced.belowSublist))
    (pairwise_of_forall₂ ?_ spliced.clipAbove (merged.sublist spliced.aboveSublist)) ?_
      (spliced.middle_back_gap group)
    fun a inFront b inBack _ => spliced.front_back_gap wide a inFront b inBack
  -- the parts of two locks stay as far apart
  iterate 2
    intro old old' new new' apart first second sameType
    have := apart (by rw [← first.type, ← second.type, sameType])
    have := first.stop
    have := second.start
    omega
  · intro a inFront b inMiddle sameType
    obtain ⟨old, inBelow, clipped⟩ := exists_of_forall₂ spliced.clipBelow a inFront
    have newStop := clipped.stop
    obtain ⟨sameStart, -, ofType, -⟩ := spliced.mem_middle b inMiddle
    have := spliced.mergedBelow merged old inBelow (by rw [← clipped.type, sameType, ofType])
    omega

/-- No two locks of one type that touch the requested range touch each other. -/
theorem Spliced.mergedAround (group : OwnGroup request own) (range : LockRange request) :
    (front ++ middle ++ back).Pairwise fun a b => Touches request a → Touches request b →
      a.flType = b.flType → a.flEnd + 1 < b.flStart := by
  have wide := spliced.wide range
  have low := spliced.low
  have high := spliced.high
  have frontBelow := spliced.front_below
  have backAbove := spliced.back_above
  obtain ⟨frontOrdered, backOrdered⟩ := spliced.sides_ordered group
  refine spliced.pairwise ?_ ?_ ?_
    (fun a inMiddle b inBack _ _ => spliced.middle_back_gap group a inMiddle b inBack)
    fun a inFront b inBack _ _ _ => spliced.front_back_gap wide a inFront b inBack
  · -- only the last lock of the front part reaches up to the request
    refine frontOrdered.sorted.imp_of_mem ?_
    intro a b _ inFront apart touchesA _ _
    have : b.flStart ≤ b.flEnd := frontOrdered.nonempty b inFront
    have := frontBelow b inFront
    have := touchesA.2
    change a.flEnd < b.flStart at apart
    omega
  · -- only the first lock of the back part reaches down to it
    refine backOrdered.sorted.imp_of_mem ?_
    intro a b inBack _ apart _ touchesB _
    have : a.flStart ≤ a.flEnd := backOrdered.nonempty a inBack
    have := backAbove a inBack
    have := touchesB.1
    change a.flEnd < b.flStart at apart
    omega
  · intro a inFront b inMiddle touchesA _ sameType
    obtain ⟨old, -, ⟨-, -, -, apart⟩, clipped⟩ :=
      exists_of_forall₂ (spliced.front_sources group) a inFront
    obtain ⟨-, -, ofType, -⟩ := spliced.mem_middle b inMiddle
    have := apart (by rw [← clipped.type, sameType, ofType])
    have := clipped.stop
    have := touchesA.2
    omega

end Spliced

/-! ### The locks of an owner on a well-formed list -/

/-- A well-formed list around the locks of the request's owner. -/
structure Grouping (request : Request) (pre own post : List FileLock) : Prop where
  group : OwnGroup request own
  before : ∀ fl ∈ pre, fl.flFlags.posix = true → ownerKey fl.flOwner ≠ ownerKey request.flOwner
  after : ∀ fl ∈ post, fl.flFlags.posix = true ∧ ownerKey fl.flOwner ≠ ownerKey request.flOwner
  nonempty : post ≠ [] → own ≠ []

variable {α : Type*} {locks own : List FileLock} {request : Request} {newFl newFl2 : Option Nat}
  {owner : LockOwner} {point : Int}

/-- Of two elements of three parts in order, the first is in the first part, or the second in the last, or
both are in the middle. -/
theorem pairwise_parts (first second third : List α) : (first ++ second ++ third).Pairwise fun a b =>
    a ∈ first ∨ (a ∈ second ∧ b ∈ second) ∨ b ∈ third := by
  refine pairwise_append.mpr ⟨pairwise_append.mpr ⟨?_, ?_, fun a mem _ _ => .inl mem⟩, ?_,
    fun _ _ b mem => .inr (.inr mem)⟩
  · exact pairwise_of_forall_mem_list fun a mem _ _ => .inl mem
  · exact pairwise_of_forall_mem_list fun a mem b mem' => .inr (.inl ⟨mem, mem'⟩)
  · exact pairwise_of_forall_mem_list fun _ _ b mem => .inr (.inr mem)

/-- The two loops of `__posix_lock_file` find the locks of the owner. -/
theorem WellFormed.split (wf : WellFormed locks) (request : Request) :
    ∃ pre own post, locks = pre ++ own ++ post ∧ Grouping request pre own post ∧ locks.takeWhile (fun fl =>
        !fl.flFlags.posix || !posixSameOwner request.flOwner fl.flOwner) = pre ∧
      locks.dropWhile (fun fl =>
        !fl.flFlags.posix || !posixSameOwner request.flOwner fl.flOwner) = own ++ post := by
  set foreign := fun fl : FileLock => !fl.flFlags.posix || !posixSameOwner request.flOwner fl.flOwner
  generalize isPre : locks.takeWhile foreign = pre
  generalize isRest : locks.dropWhile foreign = rest
  have whole : locks = pre ++ rest := by
    rw [← isPre, ← isRest, takeWhile_append_dropWhile]
  have before : ∀ fl ∈ pre, fl.flFlags.posix = true → ownerKey fl.flOwner ≠ ownerKey request.flOwner := by
    intro fl mem posix same
    rw [← isPre] at mem
    have holds := mem_takeWhile_imp mem
    simp [foreign, posix, posixSameOwner_iff.mpr same.symm] at holds
  cases rest with
  | nil =>
    refine ⟨pre, [], [], by simpa using whole, ⟨?_, before, by simp, by simp⟩, rfl, rfl⟩
    exact ⟨⟨by simp, .nil⟩, by simp, by simp, by simp, by simp, by simp⟩
  | cons first tail =>
    have found : first.flFlags.posix = true ∧ ownerKey first.flOwner = ownerKey request.flOwner := by
      have stopped := head?_dropWhile_not foreign locks
      rw [isRest] at stopped
      simp only [foreign, Bool.or_eq_false_iff, Bool.not_eq_false'] at stopped
      exact ⟨stopped.1, (posixSameOwner_iff.mp stopped.2).symm⟩
    have posix : ∀ fl ∈ first :: tail, fl.flFlags.posix = true := by
      have pairs := wf.posixLast
      rw [whole] at pairs
      have inRest := (pairwise_append.mp pairs).2.1
      simp only [mem_cons]
      rintro fl (rfl | mem)
      · exact found.1
      · exact (pairwise_cons.mp inRest).1 fl mem found.1
    let same := fun fl : FileLock => decide (ownerKey fl.flOwner = ownerKey request.flOwner)
    have own : ∀ fl ∈ (first :: tail).takeWhile same, ownerKey fl.flOwner = ownerKey request.flOwner := by
      intro fl mem
      have holds : same fl = true := mem_takeWhile_imp mem
      exact of_decide_eq_true holds
    have isSplit : (first :: tail).takeWhile same ++ (first :: tail).dropWhile same =
        first :: tail := takeWhile_append_dropWhile
    have firstOwn : first ∈ (first :: tail).takeWhile same := by
      simp [same, found.2]
    have sub : ((first :: tail).takeWhile same).Sublist locks := by
      rw [whole]
      exact (takeWhile_sublist _).trans (sublist_append_right _ _)
    refine ⟨pre, (first :: tail).takeWhile same, (first :: tail).dropWhile same, ?_,
      ⟨?_, before, ?_, ?_⟩, rfl, isSplit.symm⟩
    · rw [append_assoc, isSplit, whole]
    · have ranges : ∀ fl ∈ (first :: tail).takeWhile same,
          LockRange fl.toRequest ∧ fl.flType ≠ .unlck := fun fl mem =>
        wf.ranges fl (sub.subset mem) (posix fl ((takeWhile_sublist _).subset mem))
      refine ⟨⟨fun fl mem => (ranges fl mem).1.ordered, ?_⟩,
        fun fl mem => posix fl ((takeWhile_sublist _).subset mem), own,
        fun fl mem => (ranges fl mem).2,
        fun fl mem => ⟨(ranges fl mem).1.nonneg, (ranges fl mem).1.bounded⟩,
        wf.addresses.sublist (sub.map _)⟩
      refine (wf.sorted.sublist sub).imp_of_mem ?_
      intro a b aMember bMember apart
      exact apart (posix a ((takeWhile_sublist _).subset aMember))
        (posixSameOwner_iff.mpr ((own a aMember).trans (own b bMember).symm))
    · intro fl mem
      refine ⟨posix fl ((dropWhile_sublist _).subset mem), fun isOwn => ?_⟩
      -- the first lock behind the group separates a later lock of the owner from the group
      generalize isPost : (first :: tail).dropWhile same = post at mem isSplit
      cases post with
      | nil => cases mem
      | cons foreign later =>
        have notOwn : ownerKey foreign.flOwner ≠ ownerKey request.flOwner := by
          have stopped := head?_dropWhile_not same (first :: tail)
          rw [isPost] at stopped
          exact of_decide_eq_false stopped
        rcases mem_cons.mp mem with rfl | inLater
        · exact notOwn isOwn
        · have triple : [first, foreign, fl].Sublist locks := by
            rw [whole, ← isSplit, ← append_assoc]
            exact (singleton_sublist.mpr (mem_append_right _ firstOwn)).append
              (.cons_cons _ (singleton_sublist.mpr inLater))
          have grouped := wf.grouped first foreign fl triple found.1
            (posixSameOwner_iff.mpr (found.2.trans isOwn.symm))
          exact notOwn ((posixSameOwner_iff.mp grouped).symm.trans found.2)
    · intro _ empty
      rw [empty] at firstOwn
      cases firstOwn

section Replace

variable {request : Request} {pre own own' post : List FileLock}

/-- What holds of the locks of each owner in order stays if it holds of the new locks. -/
theorem Grouping.pairwise {R : FileLock → FileLock → Prop} (grouping : Grouping request pre own post)
    (group : OwnGroup request own') (new : own.Pairwise R → own'.Pairwise R)
    (pairs : (pre ++ own ++ post).Pairwise
      fun a b => a.flFlags.posix → posixSameOwner a.flOwner b.flOwner → R a b) :
    (pre ++ own' ++ post).Pairwise fun a b => a.flFlags.posix →
      posixSameOwner a.flOwner b.flOwner → R a b := by
  have old := pairwise_append.mp pairs
  have oldFront := pairwise_append.mp old.1
  have oldOwn : own.Pairwise R := oldFront.2.1.imp_of_mem fun aMember bMember apart =>
    apart (grouping.group.posix _ aMember) (posixSameOwner_iff.mpr
      ((grouping.group.owner _ aMember).trans (grouping.group.owner _ bMember).symm))
  refine pairwise_append.mpr ⟨pairwise_append.mpr ⟨oldFront.1, ?_, ?_⟩, old.2.1, ?_⟩
  · exact (new oldOwn).imp fun apart _ _ => apart
  · intro a inPre b inOwn posix same
    exact absurd ((posixSameOwner_iff.mp same).trans (group.owner b inOwn)) (grouping.before a inPre posix)
  · simp only [mem_append]
    rintro a (inPre | inOwn) b inPost posix same
    · exact old.2.2 a (by simp [inPre]) b inPost posix same
    · exact absurd ((posixSameOwner_iff.mp same).symm.trans (group.owner a inOwn)) (grouping.after b inPost).2

/-- Other locks of the same owner in the place of the old ones keep the list well-formed. -/
theorem WellFormed.replace (wf : WellFormed (pre ++ own ++ post))
    (grouping : Grouping request pre own post) (group : OwnGroup request own')
    (addresses : ((pre ++ own' ++ post).map fun fl => fl.addr).Nodup) :
    WellFormed (pre ++ own' ++ post) := by
  have sub : (pre ++ post).Sublist (pre ++ own ++ post) :=
    (sublist_append_left pre own).append_right post
  constructor
  case posixLast =>
    have old := pairwise_append.mp (wf.posixLast.sublist sub)
    refine pairwise_append.mpr ⟨pairwise_append.mpr ⟨old.1, ?_, ?_⟩, old.2.1, ?_⟩
    · exact List.Pairwise.imp_of_mem (fun _ bMember _ _ => group.posix _ bMember) group.ordered.sorted
    · exact fun a _ b bMember _ => group.posix b bMember
    · exact fun a _ b bMember _ => (grouping.after b bMember).1
  case sorted => exact grouping.pairwise group (fun _ => group.ordered.sorted) wf.sorted
  case ranges =>
    simp only [mem_append]
    rintro fl ((inPre | inOwn) | inPost) posix
    · exact wf.ranges fl (by simp [inPre]) posix
    · have bounds := group.bounds fl inOwn
      exact ⟨⟨bounds.1, group.ordered.nonempty fl inOwn, bounds.2⟩, group.locking fl inOwn⟩
    · exact wf.ranges fl (by simp [inPost]) posix
  case addresses => exact addresses
  case grouped =>
    intro a fl b triple posix same
    have sameKey := posixSameOwner_iff.mp same
    have apart : pre.Disjoint (own' ++ post) :=
      disjoint_of_nodup_append (append_assoc pre own' post ▸ Nodup.of_map _ addresses)
    have pairs := (pairwise_parts pre own' post).sublist triple
    simp only [pairwise_cons, mem_cons, not_mem_nil, or_false, forall_eq_or_imp, forall_eq] at pairs
    obtain ⟨⟨before, -⟩, behind, -⟩ := pairs
    have notPost : ∀ c ∈ post, ownerKey c.flOwner ≠ ownerKey request.flOwner := fun c inPost =>
      (grouping.after c inPost).2
    by_cases isOwn : ownerKey a.flOwner = ownerKey request.flOwner
    · -- both ends are locks of the owner, and so is what stands between them
      have notPre : a ∉ pre := fun inPre => grouping.before a inPre posix isOwn
      have notLast : b ∉ post := fun inPost => notPost b inPost (sameKey.symm.trans isOwn)
      have inOwn : fl ∈ own' := by
        rcases before.resolve_left notPre with ⟨-, inOwn⟩ | inPost
        · exact inOwn
        · rcases behind with inPre | ⟨inOwn, -⟩ | inLast
          · exact absurd (mem_append_right _ inPost) (apart inPre)
          · exact inOwn
          · exact absurd inLast notLast
      exact posixSameOwner_iff.mpr (isOwn.trans (group.owner fl inOwn).symm)
    · have notOwn : a ∉ own' := fun inOwn => isOwn (group.owner a inOwn)
      have notOwn' : b ∉ own' := fun inOwn => isOwn (sameKey.trans (group.owner b inOwn))
      by_cases inOwn : fl ∈ own'
      · -- an old lock of the owner stood between the two
        have inPre : a ∈ pre := before.resolve_right fun other =>
          other.elim (notOwn ·.1) fun inPost => notPost fl inPost (group.owner fl inOwn)
        have inPost : b ∈ post :=
          (behind.resolve_left fun inPre => apart inPre (mem_append_left _ inOwn)).resolve_left
          (notOwn' ·.2)
        obtain ⟨old, isOld⟩ := exists_mem_of_ne_nil own (grouping.nonempty (ne_nil_of_mem inPost))
        have between :=
          wf.grouped a old b (((singleton_sublist.mpr inPre).append (singleton_sublist.mpr isOld)).append
          (singleton_sublist.mpr inPost)) posix same
        exact absurd ((posixSameOwner_iff.mp between).trans (grouping.group.owner old isOld)) isOwn
      · -- the three stood there before
        have old := triple.filter (· ∉ own')
        have none : own'.filter (· ∉ own') = [] := by simp
        rw [filter_append, filter_append, none, append_nil] at old
        simp only [filter_cons, notOwn, inOwn, notOwn', not_false_eq_true, decide_true, if_true,
          filter_nil] at old
        exact wf.grouped a fl b ((old.trans (filter_sublist.append filter_sublist)).trans sub) posix same

end Replace

/-! ### The effect of a request on an inode's list -/

/-- What a successful call makes of the locks of the owner. -/
structure Updated (request : Request) (own own' : List FileLock) : Prop where
  group : OwnGroup request own'
  covers : ∀ point t, lockView.Covers own' point t ↔
    if request.flStart ≤ point ∧ point ≤ request.flEnd then
      t = request.flType ∧ request.flType ≠ .unlck
    else lockView.Covers own point t
  mergedAround : own'.Pairwise fun a b => Touches request a → Touches request b →
    a.flType = b.flType → a.flEnd + 1 < b.flStart
  merged : Merged own → Merged own'
  waiters : ∀ fl ∈ own', fl.flBlock = [] ∨ ∃ old ∈ own, Grown old fl

/-- A request that conflicts with no other owner either replaces the locks of its owner, or fails
and changes nothing. -/
theorem applyRequest_spec (blocked : List Waiter) (wf : WellFormed locks)
    (posix : request.flFlags.posix = true) (range : LockRange request)
    (fresh : FreshLocks locks newFl newFl2) :
    ∃ pre own post, locks = pre ++ own ++ post ∧ Grouping request pre own post ∧
      (((applyRequest request newFl newFl2 locks blocked).1 = .ok ∧
        ∃ own', (applyRequest request newFl newFl2 locks blocked).2.1 = pre ++ own' ++ post ∧
          Updated request own own' ∧ WellFormed (pre ++ own' ++ post)) ∨
      ((applyRequest request newFl newFl2 locks blocked).1 ≠ .ok ∧
        (applyRequest request newFl newFl2 locks blocked).2 = (locks, blocked))) := by
  obtain ⟨pre, own, post, rfl, grouping, isPre, isRest⟩ := wf.split request
  refine ⟨pre, own, post, rfl, grouping, ?_⟩
  have others := fun fl mem => (grouping.after fl mem).2
  have tailSub : (own ++ post).Sublist (pre ++ own ++ post) := by
    rw [append_assoc]
    exact sublist_append_right _ _
  have nodup := wf.addresses.sublist (tailSub.map _)
  obtain ⟨last, kept, granted, rest, inv, -, stop⟩ := walk_ends blocked grouping.group
    range posix others (fun _ _ => True) trivial fun _ _ _ => trivial
  have spec := finish_spec inv grouping.group range others nodup (fresh.sublist tailSub) stop
  have applied : applyRequest request newFl newFl2 (pre ++ own ++ post) blocked =
      ((finish (walk (Walk.start request blocked) (own ++ post)) newFl newFl2).1,
        pre ++ (finish (walk (Walk.start request blocked) (own ++ post)) newFl newFl2).2.1,
        (finish (walk (Walk.start request blocked) (own ++ post)) newFl newFl2).2.2) := by
    simp only [applyRequest, isPre, isRest]
  rw [applied]
  obtain ⟨sameDone, sameRest⟩ := stop.lists
  have wholeNodup := inv.all_nodup nodup
  have wholeFresh := inv.all_fresh (fresh.sublist tailSub)
  rw [← sameDone, ← sameRest] at wholeNodup wholeFresh
  obtain ⟨newNodup, newAddresses⟩ := finish_addresses wholeNodup wholeFresh
  rcases spec with ⟨ok, start, stop, below, above, front, middle, back, isList, spliced⟩ | ⟨failed, unchanged⟩
  swap
  · refine .inr ⟨failed, ?_⟩
    rw [unchanged, append_assoc]
  have ownNodup : ((front ++ middle ++ back).map fun fl => fl.addr).Nodup := by
    rw [isList, map_append] at newNodup
    exact (nodup_append.mp newNodup).1
  have group := spliced.group grouping.group range ownNodup
  refine .inl ⟨ok, front ++ middle ++ back, by rw [isList]; simp, ?_, ?_⟩
  · refine ⟨group, spliced.covers_iff range, spliced.mergedAround grouping.group range,
      spliced.merged grouping.group range, ?_⟩
    intro fl mem
    rcases finish_waiters fl (by rw [isList]; exact mem_append_left _ mem) with
      woken | onList
    · exact .inl woken
    · rw [sameDone, sameRest, ← append_assoc] at onList
      rcases mem_append.mp onList with visited | foreign
      · obtain ⟨old, inOwn, -, waiters⟩ := inv.origin fl visited
        exact waiters.imp id fun grown => ⟨old, inOwn, grown⟩
      · exact absurd (group.owner fl mem) (others fl foreign)
  · refine wf.replace grouping group ?_
    rw [append_assoc, ← isList, map_append, nodup_append]
    have oldNodup := wf.addresses
    rw [append_assoc, map_append, nodup_append] at oldNodup
    refine ⟨oldNodup.1, newNodup, ?_⟩
    intro addr inPre other inNew same
    obtain ⟨fl, mem, rfl⟩ := mem_map.mp inPre
    obtain ⟨new, newMember, rfl⟩ := mem_map.mp inNew
    rcases newAddresses new newMember with old | isNew
    · obtain ⟨x, found, sameAddr⟩ := mem_map.mp old
      rw [sameDone, sameRest, ← append_assoc] at found
      rw [← sameAddr] at same
      rcases mem_append.mp found with visited | foreign
      · obtain ⟨source, inOwn, sourceAddr, -⟩ := inv.origin x visited
        exact oldNodup.2.2 fl.addr inPre source.addr (mem_map_of_mem (by simp [inOwn]))
          (same.trans sourceAddr.symm)
      · exact oldNodup.2.2 fl.addr inPre x.addr (mem_map_of_mem (by simp [foreign])) same
    · exact fresh.unused new.addr isNew fl (by simp [mem]) same

/-- The cases of `__posix_lock_file`: a conflict, a probe that finds none, or the change of the
inode's list. -/
theorem posixLockFile_cases (table : LockTable) (inode : Nat) (request : Request)
    (newFl newFl2 : Option Nat) {result : LockResult}
    (called : posixLockFile table inode request newFl newFl2 = result) :
    (∃ fl ∈ table.iFlock inode, request.flType ≠ .unlck ∧ posixLocksConflict request fl.toRequest = true ∧
      ((result.table = table ∧ result.ret ≠ .ok) ∨
      (result.ret = .FILE_LOCK_DEFERRED ∧ posixLocksDeadlock table request fl = false ∧
        result.table = locksInsertBlock table inode fl request))) ∨
    ((∀ fl ∈ table.iFlock inode, request.flType ≠ .unlck → posixLocksConflict request fl.toRequest = false) ∧
      ((request.flFlags.access = true ∧ result.table = table) ∨
      (request.flFlags.access = false ∧ ∃ needed : Bool, ∃ applied,
        applied = applyRequest request (if needed then newFl else none) (if needed then newFl2 else none)
          (table.iFlock inode) table.blockedList ∧ result.ret = applied.1 ∧
        result.table =
          { iFlock := update table.iFlock inode applied.2.1, blockedList := applied.2.2 }))) := by
  subst called
  unfold posixLockFile
  generalize isConflict : (if request.flType = .unlck then none else
    (table.iFlock inode).find? fun fl => posixLocksConflict request fl.toRequest) = conflict
  cases conflict with
  | some fl =>
    split at isConflict
    · cases isConflict
    refine .inl ⟨fl, mem_of_find?_eq_some isConflict, by assumption,
      by simpa using find?_some isConflict, ?_⟩
    dsimp only
    split
    · exact .inl ⟨rfl, by simp⟩
    · split
      · exact .inl ⟨rfl, by simp⟩
      case isFalse noDeadlock => exact .inr ⟨rfl, by simpa using noDeadlock, rfl⟩
  | none =>
    refine .inr ⟨fun fl mem locking => ?_, ?_⟩
    · rw [if_neg locking] at isConflict
      exact Bool.eq_false_iff.mpr (find?_eq_none.mp isConflict fl mem)
    · dsimp only
      split
      case isTrue access => exact .inl ⟨access, rfl⟩
      case isFalse change => exact .inr ⟨by simpa using change, _, _, rfl, rfl, rfl⟩

/-- The allocator's promise, also when nothing is allocated. -/
theorem Admissible.freshLocks {table : LockTable} {inode : Nat}
    (admissible : Admissible table inode request newFl newFl2) (needed : Bool) :
    FreshLocks (table.iFlock inode) (if needed then newFl else none) (if needed then newFl2 else none) := by
  cases needed with
  | false => exact ⟨by simp, by simp⟩
  | true => exact ⟨admissible.unused, admissible.distinct⟩

/-! ### The map from owners and bytes to lock types -/

/-- The POSIX locks of an owner. -/
def ownLocks (locks : List FileLock) (owner : LockOwner) : List FileLock :=
  locks.filter fun fl => fl.flFlags.posix && posixSameOwner owner fl.flOwner

/-- The type of the lock an owner holds on a byte, `unlck` if there is none. -/
def typeAt (locks : List FileLock) (owner : LockOwner) (point : Int) : LockType :=
  match (ownLocks locks owner).find? fun fl => fl.flStart ≤ point ∧ point ≤ fl.flEnd with
  | some fl => fl.flType
  | none => .unlck

/-- In an ordered list the first lock found on a byte is the only one. -/
theorem typeAt_of_covers {t : LockType} (isOwn : ownLocks locks owner = own)
    (ordered : lockView.Ordered own) (covers : lockView.Covers own point t) :
      typeAt locks owner point = t := by
  subst isOwn
  unfold typeAt
  split
  case h_1 fl found =>
    have inside : fl.flStart ≤ point ∧ point ≤ fl.flEnd := by simpa using find?_some found
    exact ordered.label_unique ⟨fl, mem_of_find?_eq_some found, rfl, inside⟩ covers
  case h_2 missing =>
    obtain ⟨fl, mem, -, inside⟩ := covers
    have outside := find?_eq_none.mp missing fl mem
    rw [decide_eq_true_eq] at outside
    exact absurd inside outside

theorem typeAt_of_not_covers (isOwn : ownLocks locks owner = own)
    (uncovered : ∀ t, ¬ lockView.Covers own point t) :
    typeAt locks owner point = .unlck := by
  subst isOwn
  unfold typeAt
  split
  case h_1 fl found =>
    have inside : fl.flStart ≤ point ∧ point ≤ fl.flEnd := by simpa using find?_some found
    exact absurd ⟨fl, mem_of_find?_eq_some found, rfl, inside⟩ (uncovered fl.flType)
  case h_2 => rfl

section Update

variable {request : Request} {pre own own' post : List FileLock} {owner : LockOwner}

theorem ownLocks_append {first second : List FileLock} :
    ownLocks (first ++ second) owner = ownLocks first owner ++ ownLocks second owner := filter_append _ _

theorem ownLocks_eq_nil (foreign : ∀ fl ∈ locks, fl.flFlags.posix = true →
    ownerKey fl.flOwner ≠ ownerKey owner) :
    ownLocks locks owner = [] := by
  refine filter_eq_nil_iff.mpr fun fl mem => ?_
  rw [Bool.and_eq_true, posixSameOwner_iff]
  exact fun ⟨posix, isOwn⟩ => foreign fl mem posix isOwn.symm

theorem OwnGroup.ownLocks_self (group : OwnGroup request own) (before : ∀ fl ∈ pre, fl.flFlags.posix = true →
      ownerKey fl.flOwner ≠ ownerKey request.flOwner)
    (after : ∀ fl ∈ post, ownerKey fl.flOwner ≠ ownerKey request.flOwner)
    (same : ownerKey owner = ownerKey request.flOwner) :
    ownLocks (pre ++ own ++ post) owner = own := by
  rw [← same] at before after
  rw [ownLocks_append, ownLocks_append, ownLocks_eq_nil before, ownLocks_eq_nil fun fl mem _ => after fl mem,
    nil_append, append_nil]
  refine filter_eq_self.mpr fun fl mem => ?_
  rw [Bool.and_eq_true, posixSameOwner_iff, same]
  exact ⟨group.posix fl mem, (group.owner fl mem).symm⟩

theorem OwnGroup.ownLocks_other (group : OwnGroup request own)
    (other : ownerKey owner ≠ ownerKey request.flOwner) :
    ownLocks (pre ++ own ++ post) owner = ownLocks (pre ++ post) owner := by
  have inOwn : ownLocks own owner = [] :=
    ownLocks_eq_nil fun fl mem _ isOwn => other (isOwn.symm.trans (group.owner fl mem))
  rw [ownLocks_append, ownLocks_append, ownLocks_append, inOwn, append_nil]

/-- A successful call overrides the map on the owner and range of the request. -/
theorem Updated.typeAt_eq (updated : Updated request own own')
    (grouping : Grouping request pre own post) (owner : LockOwner) (point : Int) :
    typeAt (pre ++ own' ++ post) owner point =
      if posixSameOwner owner request.flOwner ∧ request.flStart ≤ point ∧ point ≤ request.flEnd then
        request.flType
      else typeAt (pre ++ own ++ post) owner point := by
  have after := fun fl mem => (grouping.after fl mem).2
  by_cases same : ownerKey owner = ownerKey request.flOwner
  swap
  · rw [if_neg fun condition => same (posixSameOwner_iff.mp condition.1)]
    unfold typeAt
    rw [updated.group.ownLocks_other same, grouping.group.ownLocks_other same]
  have isNew := updated.group.ownLocks_self grouping.before after same
  have isOld := grouping.group.ownLocks_self grouping.before after same
  have covers := updated.covers point
  by_cases inRange : request.flStart ≤ point ∧ point ≤ request.flEnd
  · rw [if_pos ⟨posixSameOwner_iff.mpr same, inRange⟩]
    simp only [if_pos inRange] at covers
    by_cases unlock : request.flType = .unlck
    · rw [unlock]
      exact typeAt_of_not_covers isNew fun t covered => ((covers t).mp covered).2 unlock
    · exact typeAt_of_covers isNew updated.group.ordered ((covers _).mpr ⟨rfl, unlock⟩)
  · rw [if_neg fun condition => inRange condition.2]
    simp only [if_neg inRange] at covers
    by_cases covered : ∃ t, lockView.Covers own point t
    · obtain ⟨t, covered⟩ := covered
      rw [typeAt_of_covers isOld grouping.group.ordered covered]
      exact typeAt_of_covers isNew updated.group.ordered ((covers t).mpr covered)
    · have none := not_exists.mp covered
      rw [typeAt_of_not_covers isOld none]
      exact typeAt_of_not_covers isNew fun t found => none t ((covers t).mp found)

/-- No two neighbouring locks of one owner and one type that could be one lock. -/
def MergedLocks (locks : List FileLock) : Prop :=
  locks.Pairwise fun a b => a.flFlags.posix → posixSameOwner a.flOwner b.flOwner →
    a.flType = b.flType → a.flEnd + 1 < b.flStart

/-- No two locks of the request's owner with one type that touch the requested range and could be
one lock. -/
def MergedAround (request : Request) (locks : List FileLock) : Prop :=
  (ownLocks locks request.flOwner).Pairwise fun a b => Touches request a → Touches request b →
    a.flType = b.flType → a.flEnd + 1 < b.flStart

end Update

/-- Parking a request on a lock leaves the granted locks as they are. -/
theorem locksInsertBlock_granted (table : LockTable) (inode : Nat) (blocker : FileLock)
    (request : Request) (other : Nat) :
    ((locksInsertBlock table inode blocker request).iFlock other).map FileLock.toRequest =
      (table.iFlock other).map FileLock.toRequest := by
  by_cases same : other = inode
  · subst same
    simp only [locksInsertBlock, update_self, map_map]
    apply map_congr_left
    intro fl _
    dsimp only [comp]
    split <;> rfl
  · simp [locksInsertBlock, update_of_ne same]

/-- `__posix_lock_file` is a pointwise update. A request that it grants (and that is not a mere
probe with `FL_ACCESS`) sets the type of exactly the bytes of its range for exactly its owner,
leaves the list well-formed and merges what touches the range; every other call leaves the granted
locks exactly as they were. -/
theorem posixLockFile_updates_pointwise (table : LockTable) (inode : Nat) (request : Request)
    (newFl newFl2 : Option Nat) (wf : WellFormed (table.iFlock inode))
    (admissible : Admissible table inode request newFl newFl2) :
    ((posixLockFile table inode request newFl newFl2).ret = .ok → request.flFlags.access = false →
      (∀ owner point,
        typeAt ((posixLockFile table inode request newFl newFl2).table.iFlock inode) owner point =
          if posixSameOwner owner request.flOwner ∧
              request.flStart ≤ point ∧ point ≤ request.flEnd then request.flType
          else typeAt (table.iFlock inode) owner point) ∧
      WellFormed ((posixLockFile table inode request newFl newFl2).table.iFlock inode) ∧
      MergedAround request ((posixLockFile table inode request newFl newFl2).table.iFlock inode) ∧
      (MergedLocks (table.iFlock inode) →
        MergedLocks ((posixLockFile table inode request newFl newFl2).table.iFlock inode))) ∧
    ((posixLockFile table inode request newFl newFl2).ret ≠ .ok ∨ request.flFlags.access = true →
      ((posixLockFile table inode request newFl newFl2).table.iFlock inode).map
        FileLock.toRequest = (table.iFlock inode).map FileLock.toRequest) := by
  rcases posixLockFile_cases table inode request newFl newFl2 rfl with
    ⟨fl, -, -, -, ⟨sameTable, failed⟩ | ⟨deferred, -, parked⟩⟩ |
    ⟨-, ⟨access, sameTable⟩ | ⟨change, needed, _, rfl, ret, changed⟩⟩
  · exact ⟨fun ok => absurd ok failed, fun _ => by rw [sameTable]⟩
  · refine ⟨fun ok => ?_, fun _ => by rw [parked, locksInsertBlock_granted]⟩
    rw [deferred] at ok
    cases ok
  · refine ⟨fun _ noAccess => ?_, fun _ => by rw [sameTable]⟩
    rw [access] at noAccess
    cases noAccess
  · obtain ⟨pre, own, post, isList, grouping, ⟨ok, own', isNew, updated, wf'⟩ | ⟨failed, same⟩⟩ :=
      applyRequest_spec table.blockedList wf admissible.posix admissible.range (admissible.freshLocks needed)
    · rw [ret, changed, ok, change]
      simp only [update_self, isNew]
      refine ⟨fun _ _ => ⟨?_, wf', ?_, ?_⟩, by simp⟩
      · rw [isList]
        exact updated.typeAt_eq grouping
      · rw [MergedAround, updated.group.ownLocks_self grouping.before
          (fun fl mem => (grouping.after fl mem).2) rfl]
        exact updated.mergedAround
      · rw [isList]
        exact grouping.pairwise updated.group updated.merged
    · refine ⟨fun ok => absurd (ret.symm.trans ok) failed, fun _ => ?_⟩
      rw [changed, same]
      simp

/-- A table with one write lock on the bytes 0 to 9. -/
def oneLockTable : LockTable where
  iFlock inode := if inode = 0 then
    [{ addr := 10, flOwner := .files 1 100, flFlags := {}, flType := .wrlck, flStart := 0,
       flEnd := 9, flBlock := [] }] else []
  blockedList := []

/-- Its owner asks for a read lock on the bytes 3 to 5. -/
def innerRequest : Request :=
  { addr := 20, flOwner := .files 1 100, flFlags := {}, flType := .rdlck, flStart := 3, flEnd := 5 }

theorem oneLockTable_wellFormed : WellFormed (oneLockTable.iFlock 0) := by
  refine ⟨pairwise_singleton _ _, ?_, pairwise_singleton _ _, ?_, nodup_singleton _⟩
  · intro a fl b triple
    have := triple.length_le
    simp [oneLockTable] at this
  · intro fl mem _
    obtain rfl := mem_singleton.mp mem
    exact ⟨⟨by decide, by decide, by decide⟩, by decide⟩

theorem innerRequest_admissible : Admissible oneLockTable 0 innerRequest (some 11) (some 12) := by
  refine ⟨rfl, ⟨by decide, by decide, by decide⟩, by simp [oneLockTable], ?_, by simp⟩
  intro addr new fl mem
  obtain rfl := mem_singleton.mp mem
  rcases new with new | new <;> cases new <;> decide

/-- The write lock is split around the read lock. -/
theorem posixLockFile_updates_pointwise_split :
    (posixLockFile oneLockTable 0 innerRequest (some 11) (some 12)).ret = .ok ∧
    (∀ point, typeAt ((posixLockFile oneLockTable 0 innerRequest (some 11) (some 12)).table.iFlock 0)
      (.files 1 100) point = if 3 ≤ point ∧ point ≤ 5 then .rdlck
        else typeAt (oneLockTable.iFlock 0) (.files 1 100) point) := by
  have ok : (posixLockFile oneLockTable 0 innerRequest (some 11) (some 12)).ret = .ok := by decide
  refine ⟨ok, fun point => ?_⟩
  have updated := ((posixLockFile_updates_pointwise oneLockTable 0 innerRequest (some 11) (some 12)
    oneLockTable_wellFormed innerRequest_admissible).1 ok rfl).1 (.files 1 100) point
  simpa [innerRequest, posixSameOwner] using updated

/-- A probe with `FL_ACCESS` is answered with 0 without taking the lock. -/
theorem posixLockFile_probe_not_pointwise :
    ∃ table inode request newFl newFl2, WellFormed (table.iFlock inode) ∧
      Admissible table inode request newFl newFl2 ∧
      (posixLockFile table inode request newFl newFl2).ret = .ok ∧
      ∃ owner point,
        typeAt ((posixLockFile table inode request newFl newFl2).table.iFlock inode) owner point ≠
          if posixSameOwner owner request.flOwner ∧
              request.flStart ≤ point ∧ point ≤ request.flEnd then request.flType
          else typeAt (table.iFlock inode) owner point := by
  refine ⟨oneLockTable, 0, { innerRequest with flFlags := { access := true } }, none, none,
    oneLockTable_wellFormed, ?_, by decide, .files 1 100, 4, by decide⟩
  exact ⟨rfl, ⟨by decide, by decide, by decide⟩, by simp [oneLockTable], by simp, by simp⟩

end LinuxKernel.Fs.Locks
