/-
Module: LinuxKernel.Kernel.Timer
Purpose: The per-CPU timer wheel of `kernel/timer.c` on a 64-bit machine without `CONFIG_BASE_SMALL`. The
  base lock is dropped around every callback, so the steps are the critical sections. `now` is a natural
  number whose residue modulo 2^64 is `timer_jiffies`. `Placed` says which buckets may hold a timer:
  insertion establishes `Settled`, the strict form, and the cascades at the start of a tick turn `Placed`
  back into it, so a tick moves exactly the timers due at it to the work list.
Trusted boundary: human-reviewed spec
Main exports: internalAddTimer, cascade, TimerRun, Settled, timer_expires_exactly_when_due
-/
import LinuxKernel.Library.Runs

namespace LinuxKernel.Kernel.Timer

/-- `TVN_BITS`. -/
def tvnBits : Nat := 6
/-- `TVR_BITS`. -/
def tvrBits : Nat := 8
/-- `TVN_SIZE`; `x & TVN_MASK` is written `x % tvnSize`. -/
def tvnSize : Nat := 2 ^ tvnBits
/-- `TVR_SIZE`; `x & TVR_MASK` is written `x % tvrSize`. -/
def tvrSize : Nat := 2 ^ tvrBits

/-- The part of `struct timer_list` the wheel uses; `addr` is the address of the object. -/
structure TimerList where
  addr : Nat
  expires : BitVec 64
deriving DecidableEq, Repr

/-- The address of one list head of the wheel: `tv1.vec + i`, or `vec + i` of one of the four
`struct tvec`, where `tvn 0` is `tv2` and `tvn 3` is `tv5`. -/
inductive Vec where
  | tv1 (i : Nat)
  | tvn (n i : Nat)
deriving DecidableEq, Repr

/-- `struct tvec_base`, with the `work_list` of the `__run_timers` in progress (empty when none
is). -/
structure TvecBase where
  timerJiffies : BitVec 64
  vec : Vec → List TimerList
  workList : List TimerList

/-- `init_timers_cpu`: all lists empty, `timer_jiffies = jiffies`. -/
def initTimersCpu (jiffies : BitVec 64) : TvecBase :=
  { timerJiffies := jiffies, vec := fun _ => [], workList := [] }

/-- `(value >> (TVR_BITS + n * TVN_BITS)) & TVN_MASK`. -/
def tvnIndex (value : BitVec 64) (n : Nat) : Nat :=
  (value >>> (tvrBits + n * tvnBits)).toNat % tvnSize

/-- The list head `internal_add_timer` selects for a timer with this expiry. -/
def internalAddVec (timerJiffies expires : BitVec 64) : Vec :=
  let idx := expires - timerJiffies
  if idx.toNat < tvrSize then
    .tv1 (expires.toNat % tvrSize)
  else if idx.toNat < 2 ^ (tvrBits + tvnBits) then
    .tvn 0 (tvnIndex expires 0)
  else if idx.toNat < 2 ^ (tvrBits + 2 * tvnBits) then
    .tvn 1 (tvnIndex expires 1)
  else if idx.toNat < 2 ^ (tvrBits + 3 * tvnBits) then
    .tvn 2 (tvnIndex expires 2)
  else if idx.toInt < 0 then
    -- a timer with expires == jiffies, or one set to go off in the past
    .tv1 (timerJiffies.toNat % tvrSize)
  else
    -- a timeout larger than 0xffffffff uses the maximum timeout
    let expires := if idx.toNat > 0xffffffff then 0xffffffff#64 + timerJiffies else expires
    .tvn 3 (tvnIndex expires 3)

/-- `internal_add_timer(base, timer)`; timers are FIFO. -/
def internalAddTimer (base : TvecBase) (timer : TimerList) : TvecBase :=
  let vec := internalAddVec base.timerJiffies timer.expires
  { base with vec := Function.update base.vec vec (base.vec vec ++ [timer]) }

/-- `detach_timer`: `__list_del` takes the timer out of whichever list it is on. -/
def detachTimer (base : TvecBase) (addr : Nat) : TvecBase :=
  { base with
    vec := fun v => (base.vec v).filter fun timer => timer.addr ≠ addr
    workList := base.workList.filter fun timer => timer.addr ≠ addr }

/-- `cascade(base, tv, index)` for `tv` the `n`-th `struct tvec`; returns `index`. -/
def cascade (base : TvecBase) (n index : Nat) : TvecBase × Nat :=
  let tvList := base.vec (.tvn n index)
  let base := { base with vec := Function.update base.vec (.tvn n index) [] }
  (tvList.foldl internalAddTimer base, index)

/-- The chain `!cascade(..tv2, INDEX(0)) && !cascade(..tv3, INDEX(1)) && ..` from the `n`-th
`struct tvec` on, `left` of them: a cascade that returns 0 goes on to the next. `INDEX(N)` is
`tvnIndex base->timer_jiffies N`. -/
def cascadeChain : (left n : Nat) → TvecBase → TvecBase
  | 0, _, base => base
  | left + 1, n, base =>
    let (base, index) := cascade base n (tvnIndex base.timerJiffies n)
    if index ≠ 0 then base else cascadeChain left (n + 1) base

/-- The `if (!index && ...)` of `__run_timers`: `tv2` to `tv5`. -/
def cascadeTimers (base : TvecBase) (index : Nat) : TvecBase :=
  if index ≠ 0 then base else cascadeChain 4 0 base

/-- The head of one iteration of `__run_timers`: cascade, `++timer_jiffies`, move the due list of
`tv1` to `work_list`. -/
def runTimersHead (base : TvecBase) : TvecBase :=
  let index := base.timerJiffies.toNat % tvrSize
  let base := cascadeTimers base index
  { timerJiffies := base.timerJiffies + 1
    vec := Function.update base.vec (.tv1 index) []
    workList := base.vec (.tv1 index) }

/-- `timer_pending(timer)`: the timer is on some list. -/
def Pending (base : TvecBase) (addr : Nat) : Prop :=
  (∃ v, ∃ timer ∈ base.vec v, timer.addr = addr) ∨ ∃ timer ∈ base.workList, timer.addr = addr

/-- `time_after_eq(a, b)`. -/
def timeAfterEq (a b : BitVec 64) : Prop := 0 ≤ (a - b).toInt

instance (a b : BitVec 64) : Decidable (timeAfterEq a b) :=
  inferInstanceAs (Decidable (0 ≤ (a - b).toInt))

/-- The critical sections of the base lock. -/
inductive Action where
  /-- `internal_add_timer` from `add_timer` or `mod_timer`. -/
  | add (timer : TimerList)
  /-- `detach_timer` from `del_timer` or `mod_timer`. -/
  | detach (addr : Nat)
  /-- `__run_timers` passes its loop test with this value of `jiffies` and starts a tick. -/
  | tick (jiffies : BitVec 64)
  /-- `__run_timers` detaches the first timer of `work_list` and calls its function. -/
  | expire
deriving DecidableEq, Repr

/-- What can be seen from outside: the tick an iteration processes, and the timers it runs. -/
inductive Event where
  | tick (jiffies : BitVec 64)
  | expired (addr : Nat)
deriving DecidableEq, Repr

/-- One critical section and the events it emits. A timer is only added while it is not pending:
`add_timer` has `BUG_ON(timer_pending(timer))`, `mod_timer` detaches first. -/
inductive Step : TvecBase → Action → List Event → TvecBase → Prop where
  | add {base : TvecBase} {timer : TimerList} (idle : ¬ Pending base timer.addr) :
      Step base (.add timer) [] (internalAddTimer base timer)
  | detach {base : TvecBase} {addr : Nat} :
      Step base (.detach addr) [] (detachTimer base addr)
  | tick {base : TvecBase} {jiffies : BitVec 64} (drained : base.workList = [])
      (due : timeAfterEq jiffies base.timerJiffies) :
      Step base (.tick jiffies) [.tick base.timerJiffies] (runTimersHead base)
  | expire {base : TvecBase} {timer : TimerList} {rest : List TimerList}
      (first : base.workList = timer :: rest) :
      Step base .expire [.expired timer.addr] { base with workList := rest }

/-- A sequence of critical sections with the events of all of them. -/
abbrev TimerRun (start : TvecBase) : List Action → List Event → TvecBase → Prop :=
  Library.Run Step start

open List Nat

/-! ### Following one timer through the lists -/

/-- The entries of a list that are the timer at `addr`. -/
def occurrences (addr : Nat) (timers : List TimerList) : List TimerList :=
  timers.filter fun timer => timer.addr = addr

@[simp] theorem occurrences_nil (addr : Nat) : occurrences addr [] = [] := rfl

theorem occurrences_append (addr : Nat) (first second : List TimerList) :
    occurrences addr (first ++ second) = occurrences addr first ++ occurrences addr second :=
  filter_append ..

variable {addr n index now due level other start count : Nat} {base : TvecBase}
  {timer : TimerList} {v : Vec} {past trace : List Event}

theorem occurrences_eq_nil {timers : List TimerList} :
    occurrences addr timers = [] ↔ ∀ timer ∈ timers, timer.addr ≠ addr := by
  simp [occurrences]

/-- No list of the wheel holds the timer at `addr`. -/
def Absent (base : TvecBase) (addr : Nat) : Prop :=
  ∀ v, occurrences addr (base.vec v) = []

/-- The wheel holds `timer` exactly once, on the list `v`. -/
structure SitsAt (base : TvecBase) (timer : TimerList) (v : Vec) : Prop where
  here : occurrences timer.addr (base.vec v) = [timer]
  elsewhere : ∀ u, u ≠ v → occurrences timer.addr (base.vec u) = []

theorem not_pending_iff : ¬ Pending base addr ↔ Absent base addr ∧ occurrences addr base.workList = [] := by
  simp only [Absent, occurrences_eq_nil]
  constructor
  · intro idle
    exact ⟨fun v timer mem same => idle (Or.inl ⟨v, timer, mem, same⟩),
      fun timer mem same => idle (Or.inr ⟨timer, mem, same⟩)⟩
  · rintro ⟨absent, drained⟩ (⟨v, timer, mem, same⟩ | ⟨timer, mem, same⟩)
    · exact absent v timer mem same
    · exact drained timer mem same

theorem SitsAt.pending (sits : SitsAt base timer v) : Pending base timer.addr := by
  have mem : timer ∈ occurrences timer.addr (base.vec v) := by
    rw [sits.here]
    exact mem_singleton.mpr rfl
  exact Or.inl ⟨v, timer, (mem_filter.mp mem).1, rfl⟩

@[simp] theorem internalAddTimer_timerJiffies (base : TvecBase) (timer : TimerList) :
    (internalAddTimer base timer).timerJiffies = base.timerJiffies := rfl

@[simp] theorem internalAddTimer_workList (base : TvecBase) (timer : TimerList) :
    (internalAddTimer base timer).workList = base.workList := rfl

theorem occurrences_internalAddTimer (base : TvecBase) (timer : TimerList) (addr : Nat) (v : Vec) :
    occurrences addr ((internalAddTimer base timer).vec v) =
      occurrences addr (base.vec v) ++ (occurrences addr [timer]).filter fun added =>
        internalAddVec base.timerJiffies added.expires = v := by
  by_cases target : internalAddVec base.timerJiffies timer.expires = v
  · subst target
    by_cases same : timer.addr = addr <;> simp [internalAddTimer, occurrences, same]
  · have other : v ≠ internalAddVec base.timerJiffies timer.expires := fun h => target h.symm
    by_cases same : timer.addr = addr <;> simp [internalAddTimer, occurrences, target, other]

theorem foldl_internalAddTimer_timerJiffies (timers : List TimerList) (base : TvecBase) :
    (timers.foldl internalAddTimer base).timerJiffies = base.timerJiffies := by
  induction timers generalizing base with
  | nil => rfl
  | cons timer timers ih => rw [foldl_cons, ih]; rfl

/-- Re-adding a whole list puts each of its timers on the list its expiry selects. -/
theorem occurrences_foldl_internalAddTimer (addr : Nat) (v : Vec) (timers : List TimerList)
    (base : TvecBase) :
    occurrences addr ((timers.foldl internalAddTimer base).vec v) =
      occurrences addr (base.vec v) ++ (occurrences addr timers).filter fun added =>
        internalAddVec base.timerJiffies added.expires = v := by
  induction timers generalizing base with
  | nil => simp
  | cons timer timers ih =>
    rw [foldl_cons, ih, occurrences_internalAddTimer,
      internalAddTimer_timerJiffies, append_assoc, ← filter_append,
      ← occurrences_append, singleton_append]

@[simp] theorem cascade_timerJiffies (base : TvecBase) (n index : Nat) :
    (cascade base n index).1.timerJiffies = base.timerJiffies :=
  foldl_internalAddTimer_timerJiffies ..

theorem occurrences_cascade (base : TvecBase) (n index addr : Nat) (v : Vec) :
    occurrences addr ((cascade base n index).1.vec v) =
      (if v = .tvn n index then [] else occurrences addr (base.vec v)) ++
        (occurrences addr (base.vec (.tvn n index))).filter fun moved =>
          internalAddVec base.timerJiffies moved.expires = v := by
  rw [cascade, occurrences_foldl_internalAddTimer]
  by_cases same : v = .tvn n index
  · simp [same]
  · simp [same]

theorem occurrences_internalAddTimer_of_ne (other : timer.addr ≠ addr) :
    occurrences addr ((internalAddTimer base timer).vec v) = occurrences addr (base.vec v) := by
  rw [occurrences_internalAddTimer]
  simp [occurrences, other]

theorem internalAddTimer_sitsAt_self (absent : Absent base timer.addr) :
    SitsAt (internalAddTimer base timer) timer (internalAddVec base.timerJiffies timer.expires) := by
  refine ⟨?_, ?_⟩
  · rw [occurrences_internalAddTimer, absent]
    simp [occurrences]
  · intro u away
    rw [occurrences_internalAddTimer, absent]
    simp [occurrences, Ne.symm away]

theorem cascade_absent (n index : Nat) (absent : Absent base addr) :
    Absent (cascade base n index).1 addr := by
  intro v
  rw [occurrences_cascade, absent v, absent]
  simp

/-- A timer on the cascaded list moves to the list its expiry selects now. -/
theorem cascade_sitsAt_moved (sits : SitsAt base timer (.tvn n index)) : SitsAt (cascade base n index).1 timer
      (internalAddVec base.timerJiffies timer.expires) := by
  refine ⟨?_, ?_⟩
  · rw [occurrences_cascade, sits.here]
    split_ifs with same
    · simp
    · rw [sits.elsewhere _ same]
      simp
  · intro u away
    rw [occurrences_cascade, sits.here]
    split_ifs with same
    · simp [Ne.symm away]
    · rw [sits.elsewhere _ same]
      simp [Ne.symm away]

theorem cascade_sitsAt_kept (sits : SitsAt base timer v) (away : v ≠ .tvn n index) :
    SitsAt (cascade base n index).1 timer v := by
  have emptied : occurrences timer.addr (base.vec (.tvn n index)) = [] :=
    sits.elsewhere _ (Ne.symm away)
  refine ⟨?_, ?_⟩
  · rw [occurrences_cascade, if_neg away, emptied, sits.here]
    rfl
  · intro u other
    rw [occurrences_cascade, emptied]
    split_ifs with same
    · rfl
    · rw [sits.elsewhere u other]
      rfl

/-! ### Which buckets a timer may be in -/

/-- Bucket `i` of the `n`-th higher wheel is cascaded at tick `at_`. -/
def CascadedAt (n i at_ : Nat) : Prop :=
  at_ % 2 ^ (tvrBits + n * tvnBits) = 0 ∧ at_ / 2 ^ (tvrBits + n * tvnBits) % tvnSize = i

/-- A timer due at `due` may be in bucket `v` before tick `now` is processed. -/
def Placed (now due : Nat) (timer : TimerList) : Vec → Prop
  | .tv1 i => now ≤ due ∧ due < now + tvrSize ∧ i = due % tvrSize
  | .tvn n i => n < 4 ∧ timer.expires = BitVec.ofNat 64 due ∧ due < now + 2 ^ 63 ∧
      ∃ at_, now ≤ at_ ∧ at_ ≤ due ∧ CascadedAt n i at_

/-- The same after the cascades of tick `now`: the next cascade of the bucket is later. -/
def Settled (now due : Nat) (timer : TimerList) : Vec → Prop
  | .tv1 i => now ≤ due ∧ due < now + tvrSize ∧ i = due % tvrSize
  | .tvn n i => n < 4 ∧ timer.expires = BitVec.ofNat 64 due ∧ due < now + 2 ^ 63 ∧
      ∃ at_, now < at_ ∧ at_ ≤ due ∧ CascadedAt n i at_

theorem Settled.placed (settled : Settled now due timer v) : Placed now due timer v := by
  cases v with
  | tv1 i => exact settled
  | tvn n i =>
    obtain ⟨level, expires, near, at_, later, before, cascaded⟩ := settled
    exact ⟨level, expires, near, at_, le_of_lt later, before, cascaded⟩

theorem Placed.now_le_due (placed : Placed now due timer v) : now ≤ due := by
  cases v with
  | tv1 i => exact placed.1
  | tvn n i =>
    obtain ⟨_, _, _, at_, later, before, _⟩ := placed
    exact le_trans later before

theorem tvnIndex_ofNat (level : n < 4) (value : Nat) :
    tvnIndex (BitVec.ofNat 64 value) n = value / 2 ^ (tvrBits + n * tvnBits) % tvnSize := by
  simp only [tvnIndex, BitVec.toNat_ushiftRight, BitVec.toNat_ofNat, tvrBits, tvnBits, tvnSize]
  interval_cases n <;> omega

/-- The start of the aligned block of ticks that holds `value` is a cascade of its bucket. -/
theorem cascadedAt_block (n value : Nat) : CascadedAt n (value / 2 ^ (tvrBits + n * tvnBits) % tvnSize)
      (value / 2 ^ (tvrBits + n * tvnBits) * 2 ^ (tvrBits + n * tvnBits)) := by
  refine ⟨Nat.mul_mod_left _ _, ?_⟩
  rw [Nat.mul_div_cancel _ (Nat.two_pow_pos _)]

/-- A delay of at least one block puts the timer in a bucket cascaded strictly later. `target` is
the expiry the bucket is computed from, the timer's own or the capped one. -/
theorem settled_of_block {target : Nat} (level : n < 4)
    (expires : timer.expires = BitVec.ofNat 64 due) (near : due < now + 2 ^ 63)
    (far : now + 2 ^ (tvrBits + n * tvnBits) ≤ target) (capped : target ≤ due) :
    Settled now due timer (.tvn n (tvnIndex (BitVec.ofNat 64 target) n)) := by
  rw [tvnIndex_ofNat level]
  have blockLe := Nat.div_mul_le_self target (2 ^ (tvrBits + n * tvnBits))
  have blockLt := Nat.lt_div_mul_add (a := target) (Nat.two_pow_pos (tvrBits + n * tvnBits))
  exact ⟨level, expires, near, _, by omega, by omega, cascadedAt_block n target⟩

theorem toNat_ofNat_sub_ofNat (later : now ≤ due) (near : due < now + 2 ^ 63) :
    (BitVec.ofNat 64 due - BitVec.ofNat 64 now).toNat = due - now := by
  rw [BitVec.toNat_sub, BitVec.toNat_ofNat, BitVec.toNat_ofNat]
  omega

/-- Insertion of a timer that is not in the past. -/
theorem internalAddVec_settled (expires : timer.expires = BitVec.ofNat 64 due) (later : now ≤ due)
    (near : due < now + 2 ^ 63) :
    Settled now due timer (internalAddVec (BitVec.ofNat 64 now) timer.expires) := by
  have delay := toNat_ofNat_sub_ofNat later near
  have nonneg : ¬ (BitVec.ofNat 64 due - BitVec.ofNat 64 now).toInt < 0 := by
    rw [BitVec.toInt_eq_toNat_cond]
    omega
  rw [expires, internalAddVec]
  split_ifs with short level0 level1 level2 capped
  · refine ⟨later, by omega, ?_⟩
    rw [BitVec.toNat_ofNat]
    simp only [tvrSize, tvrBits]
    omega
  iterate 3
    exact settled_of_block (by decide) expires near
      (by simp only [tvrBits, tvnBits, tvrSize] at *; omega) (le_refl _)
  · have parked : 0xffffffff#64 + BitVec.ofNat 64 now = BitVec.ofNat 64 (now + 0xffffffff) := by
      rw [BitVec.add_comm, BitVec.ofNat_add]
    rw [parked]
    exact settled_of_block (by decide) expires near (by simp only [tvrBits, tvnBits]; omega) (by omega)
  · exact settled_of_block (by decide) expires near (by simp only [tvrBits] at *; omega) (le_refl _)

/-- Insertion of a timer in the past: it is due at the next tick processed. -/
theorem internalAddVec_past (past : (timer.expires - BitVec.ofNat 64 now).toInt < 0) :
    Settled now now timer (internalAddVec (BitVec.ofNat 64 now) timer.expires) := by
  have huge : 2 ^ 63 ≤ (timer.expires - BitVec.ofNat 64 now).toNat := by
    rw [BitVec.toInt_eq_toNat_cond] at past
    omega
  have onTv1 : internalAddVec (BitVec.ofNat 64 now) timer.expires = .tv1 (now % tvrSize) := by
    rw [internalAddVec]
    simp only [past, if_true, tvrSize, tvrBits, tvnBits]
    rw [if_neg (by omega), if_neg (by omega), if_neg (by omega), if_neg (by omega), BitVec.toNat_ofNat]
    congr 1
    omega
  rw [onTv1]
  refine ⟨le_refl _, ?_, rfl⟩
  simp only [tvrSize, tvrBits]
  omega

/-! ### The cascades of one tick -/

/-- After the cascades of the wheels below `level`: the timer is settled, or still waits in a
bucket of a wheel not cascaded yet. -/
def Cascading (level now due : Nat) (timer : TimerList) (v : Vec) : Prop :=
  Settled now due timer v ∨ (Placed now due timer v ∧ ∃ n i, v = .tvn n i ∧ level ≤ n)

theorem Cascading.placed (cascading : Cascading level now due timer v) : Placed now due timer v := by
  rcases cascading with settled | ⟨placed, -⟩
  · exact settled.placed
  · exact placed

/-- A bucket that waits in a wheel whose turn cannot come at `now` is settled. -/
theorem Placed.settled_of_not_cascadedAt {i : Nat} (placed : Placed now due timer (.tvn n i))
    (notNow : ¬ CascadedAt n i now) :
    Settled now due timer (.tvn n i) := by
  obtain ⟨level, expires, near, at_, later, before, cascaded⟩ := placed
  have strictly : now ≠ at_ := by
    rintro rfl
    exact notNow cascaded
  exact ⟨level, expires, near, at_, by omega, before, cascaded⟩

theorem Cascading.settled_of_unaligned (cascading : Cascading level now due timer v)
    (unaligned : now % 2 ^ (tvrBits + level * tvnBits) ≠ 0) : Settled now due timer v := by
  rcases cascading with settled | ⟨placed, n, i, rfl, above⟩
  · exact settled
  · refine placed.settled_of_not_cascadedAt ?_
    rintro ⟨aligned, -⟩
    refine unaligned (mod_eq_zero_of_dvd ?_)
    have smaller : tvrBits + level * tvnBits ≤ tvrBits + n * tvnBits :=
      Nat.add_le_add_left (Nat.mul_le_mul_right _ above) _
    exact dvd_trans (pow_dvd_pow 2 smaller) (dvd_of_mod_eq_zero aligned)

/-- Cascading the bucket of the wheel `level` whose turn it is. -/
theorem cascade_cascading (clock : base.timerJiffies = BitVec.ofNat 64 now) (isLevel : level < 4)
    (sits : SitsAt base timer v) (cascading : Cascading level now due timer v) :
    ∃ u, SitsAt (cascade base level (tvnIndex base.timerJiffies level)).1 timer u ∧
      Cascading (level + 1) now due timer u := by
  by_cases turn : v = .tvn level (tvnIndex base.timerJiffies level)
  · have placed := cascading.placed
    have later := placed.now_le_due
    subst turn
    obtain ⟨-, expires, near, -⟩ := placed
    refine ⟨_, cascade_sitsAt_moved sits, Or.inl ?_⟩
    rw [clock]
    exact internalAddVec_settled expires later near
  · refine ⟨v, cascade_sitsAt_kept sits turn, ?_⟩
    rcases cascading with settled | ⟨placed, n, i, rfl, above⟩
    · exact Or.inl settled
    · by_cases same : n = level
      · subst same
        refine Or.inl (placed.settled_of_not_cascadedAt ?_)
        rintro ⟨-, bucket⟩
        refine turn ?_
        rw [clock, tvnIndex_ofNat isLevel, bucket]
      · exact Or.inr ⟨placed, n, i, rfl, by omega⟩

/-- The chain goes on to the next wheel exactly when the clock is aligned to it. -/
theorem aligned_succ (isLevel : level < 4) (aligned : now % 2 ^ (tvrBits + level * tvnBits) = 0) :
    now % 2 ^ (tvrBits + (level + 1) * tvnBits) = 0 ↔ tvnIndex (BitVec.ofNat 64 now) level = 0 := by
  have split : 2 ^ (tvrBits + (level + 1) * tvnBits) = 2 ^ (tvrBits + level * tvnBits) * tvnSize := by
    rw [tvnSize, ← pow_add, succ_mul, add_assoc]
  rw [tvnIndex_ofNat isLevel, split, mod_mul, aligned]
  simp

/-- The chain of cascades settles the timer, whichever cascade ends it. -/
theorem cascadeChain_settled : ∀ (left level : Nat) {base : TvecBase} {v : Vec}, left + level = 4 →
      base.timerJiffies = BitVec.ofNat 64 now → now % 2 ^ (tvrBits + level * tvnBits) = 0 →
      SitsAt base timer v → Cascading level now due timer v →
      ∃ u, SitsAt (cascadeChain left level base) timer u ∧ Settled now due timer u
  | 0, level, base, v, levels, _, _, sits, cascading => by
      refine ⟨v, sits, ?_⟩
      rcases cascading with settled | ⟨placed, n, i, rfl, above⟩
      · exact settled
      · have := placed.1
        omega
  | left + 1, level, base, v, levels, clock, aligned, sits, cascading => by
      have isLevel : level < 4 := by omega
      obtain ⟨u, sits', cascading'⟩ := cascade_cascading clock isLevel sits cascading
      have onward := aligned_succ isLevel aligned
      rw [← clock] at onward
      rw [cascadeChain]
      by_cases stop : tvnIndex base.timerJiffies level = 0
      · have continued := cascadeChain_settled left (level + 1) (by omega)
          ((cascade_timerJiffies ..).trans clock) (onward.mpr stop) sits' cascading'
        simpa [cascade, stop] using continued
      · have settled := cascading'.settled_of_unaligned (mt onward.mp stop)
        simpa [cascade, stop] using ⟨u, sits', settled⟩

theorem cascadeTimers_settled (clock : base.timerJiffies = BitVec.ofNat 64 now)
    (sits : SitsAt base timer v) (placed : Placed now due timer v) :
    ∃ u, SitsAt (cascadeTimers base (now % tvrSize)) timer u ∧ Settled now due timer u := by
  have started : Cascading 0 now due timer v := by
    cases v with
    | tv1 i => exact Or.inl placed
    | tvn n i => exact Or.inr ⟨placed, n, i, rfl, zero_le n⟩
  rw [cascadeTimers]
  split_ifs with unaligned
  · exact ⟨v, sits, started.settled_of_unaligned unaligned⟩
  · exact cascadeChain_settled 4 0 rfl clock (not_not.mp unaligned) sits started

theorem cascadeChain_absent : ∀ {left level : Nat} {base : TvecBase}, Absent base addr →
      Absent (cascadeChain left level base) addr
  | 0, _, _, absent => absent
  | left + 1, level, base, absent => by
      rw [cascadeChain]
      have cascaded := cascade_absent level (tvnIndex base.timerJiffies level) absent
      dsimp only
      split_ifs
      · exact cascaded
      · exact cascadeChain_absent cascaded

theorem cascadeChain_timerJiffies : ∀ (left level : Nat) (base : TvecBase),
      (cascadeChain left level base).timerJiffies = base.timerJiffies
  | 0, _, _ => rfl
  | left + 1, level, base => by
      rw [cascadeChain]
      dsimp only
      split_ifs
      · exact cascade_timerJiffies ..
      · exact (cascadeChain_timerJiffies ..).trans (cascade_timerJiffies ..)

theorem cascadeTimers_timerJiffies (base : TvecBase) (index : Nat) :
    (cascadeTimers base index).timerJiffies = base.timerJiffies := by
  rw [cascadeTimers]
  split_ifs
  · rfl
  · exact cascadeChain_timerJiffies ..

/-! ### One tick -/

theorem runTimersHead_clock (clock : base.timerJiffies = BitVec.ofNat 64 now) :
    (runTimersHead base).timerJiffies = BitVec.ofNat 64 (now + 1) := by
  rw [BitVec.ofNat_add, ← clock]
  exact congrArg (· + 1) (cascadeTimers_timerJiffies ..)

theorem index_of_clock (clock : base.timerJiffies = BitVec.ofNat 64 now) :
    base.timerJiffies.toNat % tvrSize = now % tvrSize := by
  rw [clock, BitVec.toNat_ofNat]
  simp only [tvrSize, tvrBits]
  omega

theorem runTimersHead_absent (absent : Absent base addr) :
    Absent (runTimersHead base) addr ∧ occurrences addr (runTimersHead base).workList = [] := by
  have cascaded : ∀ index, Absent (cascadeTimers base index) addr := by
    intro index
    rw [cascadeTimers]
    split_ifs
    · exact absent
    · exact cascadeChain_absent absent
  refine ⟨?_, cascaded _ _⟩
  intro v
  by_cases emptied : v = .tv1 (base.timerJiffies.toNat % tvrSize)
  · simp [runTimersHead, emptied]
  · simpa [runTimersHead, emptied] using cascaded _ v

theorem runTimersHead_due (clock : base.timerJiffies = BitVec.ofNat 64 now)
    (sits : SitsAt base timer v) (placed : Placed now now timer v) :
    Absent (runTimersHead base) timer.addr ∧
      occurrences timer.addr (runTimersHead base).workList = [timer] := by
  obtain ⟨u, sits', settled⟩ := cascadeTimers_settled clock sits placed
  have onTv1 : u = .tv1 (now % tvrSize) := by
    cases u with
    | tv1 i => rw [settled.2.2]
    | tvn n i =>
      obtain ⟨_, _, _, at_, later, before, _⟩ := settled
      omega
  subst onTv1
  simp only [runTimersHead, index_of_clock clock]
  refine ⟨?_, sits'.here⟩
  intro w
  by_cases emptied : w = .tv1 (now % tvrSize)
  · simp [emptied]
  · simpa [emptied] using sits'.elsewhere w emptied

theorem runTimersHead_queued (clock : base.timerJiffies = BitVec.ofNat 64 now)
    (sits : SitsAt base timer v) (placed : Placed now due timer v) (early : now < due) :
    ∃ u, SitsAt (runTimersHead base) timer u ∧ Placed (now + 1) due timer u ∧
      occurrences timer.addr (runTimersHead base).workList = [] := by
  obtain ⟨u, sits', settled⟩ := cascadeTimers_settled clock sits placed
  have kept : u ≠ .tv1 (now % tvrSize) := by
    rintro rfl
    obtain ⟨_, near, bucket⟩ := settled
    simp only [tvrSize, tvrBits] at near bucket
    omega
  have remains : Placed (now + 1) due timer u := by
    cases u with
    | tv1 i => exact ⟨early, by have := settled.2.1; omega, settled.2.2⟩
    | tvn n i =>
      obtain ⟨level, expires, near, at_, later, before, cascaded⟩ := settled
      exact ⟨level, expires, by omega, at_, later, before, cascaded⟩
  refine ⟨u, ?_, remains, ?_⟩
  · simp only [runTimersHead, index_of_clock clock]
    refine ⟨by simpa [kept] using sits'.here, ?_⟩
    intro w away
    by_cases emptied : w = .tv1 (now % tvrSize)
    · simp [emptied]
    · simpa [emptied] using sits'.elsewhere w away
  · simp only [runTimersHead, index_of_clock clock]
    exact sits'.elsewhere _ (Ne.symm kept)

/-! ### Whole runs -/

/-- The tick an event starts. -/
def Event.tick? : Event → Option (BitVec 64)
  | .tick jiffies => some jiffies
  | .expired _ => none

/-- The ticks processed in a trace, in order. -/
def ticks (trace : List Event) : List (BitVec 64) := trace.filterMap Event.tick?

/-- How often the timer at `addr` ran in a trace. -/
def expirations (addr : Nat) (trace : List Event) : Nat := trace.count (.expired addr)

/-- The action adds or detaches the timer at `addr`. -/
def Action.Touches (addr : Nat) : Action → Prop
  | .add timer => timer.addr = addr
  | .detach other => other = addr
  | .tick _ | .expire => False

/-- The number of ticks processed before the due one, for a timer inserted at `timerJiffies`. An
expiry counts as past when `(signed long)(expires - timer_jiffies) < 0`. -/
def delay (timerJiffies expires : BitVec 64) : Nat :=
  if (expires - timerJiffies).toInt < 0 then 0 else (expires - timerJiffies).toNat

/-- `max(expires, timer_jiffies)` in the same order. -/
def dueTick (timerJiffies expires : BitVec 64) : BitVec 64 :=
  if (expires - timerJiffies).toInt < 0 then timerJiffies else expires

theorem occurrences_filter_of_ne (away : other ≠ addr) (timers : List TimerList) :
    occurrences addr (timers.filter fun timer => timer.addr ≠ other) = occurrences addr timers := by
  rw [occurrences, filter_filter]
  refine filter_congr fun timer _ => ?_
  by_cases same : timer.addr = addr
  · simp [same, Ne.symm away]
  · simp [same]

/-- The trace shows one expiration of the timer, during the iteration that is the `count`-th
since insertion and processes tick `due`. -/
def RanOnceAt (addr count : Nat) (due : BitVec 64) (trace : List Event) : Prop :=
  ∃ past future, trace = past ++ .expired addr :: future ∧ (ticks past).length = count ∧
    (ticks past).getLast? = some due ∧ expirations addr past = 0 ∧ expirations addr future = 0

/-- Where the timer is after `past`, when it was inserted at tick `start` and is due at `due`. -/
inductive Whereabouts (start due : Nat) (timer : TimerList) (past : List Event)
    (base : TvecBase) : Prop where
  | queued {v : Vec} (sits : SitsAt base timer v)
      (placed : Placed (start + (ticks past).length) due timer v)
      (notRunning : occurrences timer.addr base.workList = [])
      (never : expirations timer.addr past = 0)
  | running (absent : Absent base timer.addr)
      (first : occurrences timer.addr base.workList = [timer])
      (now : start + (ticks past).length = due + 1)
      (never : expirations timer.addr past = 0)
  | done (absent : Absent base timer.addr)
      (notRunning : occurrences timer.addr base.workList = [])
      (later : due < start + (ticks past).length)
      (ran : RanOnceAt timer.addr (due + 1 - start) (BitVec.ofNat 64 due) past)

/-- The invariant of the runs that follow an insertion. -/
structure Tracked (start due : Nat) (timer : TimerList) (past : List Event) (base : TvecBase) : Prop where
  clock : base.timerJiffies = BitVec.ofNat 64 (start + (ticks past).length)
  lastTick : ∀ tick, (ticks past).getLast? = some tick → tick + 1 = base.timerJiffies
  whereabouts : Whereabouts start due timer past base

theorem ticks_append (first second : List Event) : ticks (first ++ second) = ticks first ++ ticks second :=
  filterMap_append

theorem RanOnceAt.snoc {addr count : Nat} {due : BitVec 64} {trace events : List Event}
    (ran : RanOnceAt addr count due trace) (silent : expirations addr events = 0) :
    RanOnceAt addr count due (trace ++ events) := by
  obtain ⟨past, future, rfl, counted, last, before, after⟩ := ran
  refine ⟨past, future ++ events, by simp, counted, last, before, ?_⟩
  rw [expirations, count_append]
  exact Nat.add_eq_zero_iff.mpr ⟨after, silent⟩

section

variable (whereabouts : Whereabouts start due timer past base)

include whereabouts

/-- A critical section that keeps the lists of this timer, and is neither a tick nor an expiration of the
timer. -/
theorem Whereabouts.quiet {after : TvecBase} {events : List Event} (noTick : ticks events = [])
    (silent : expirations timer.addr events = 0)
    (same : ∀ v, occurrences timer.addr (after.vec v) = occurrences timer.addr (base.vec v))
    (work : occurrences timer.addr after.workList = occurrences timer.addr base.workList) :
    Whereabouts start due timer (past ++ events) after := by
  have counted : ticks (past ++ events) = ticks past := by rw [ticks_append, noTick, append_nil]
  have never (none : expirations timer.addr past = 0) : expirations timer.addr (past ++ events) = 0 := by
    rw [expirations, count_append]
    exact Nat.add_eq_zero_iff.mpr ⟨none, silent⟩
  cases whereabouts with
  | queued sits placed notRunning none =>
    exact .queued ⟨(same _).trans sits.here, fun u away => (same u).trans (sits.elsewhere u away)⟩
      (by rwa [counted])
      (work.trans notRunning) (never none)
  | running absent first now none =>
    exact .running (fun v => (same v).trans (absent v)) (work.trans first) (by rwa [counted]) (never none)
  | done absent notRunning later ran =>
    exact .done (fun v => (same v).trans (absent v)) (work.trans notRunning) (by rwa [counted])
      (ran.snoc silent)

theorem Whereabouts.tick (clock : base.timerJiffies = BitVec.ofNat 64 (start + (ticks past).length))
    (drained : base.workList = []) :
    Whereabouts start due timer (past ++ [.tick base.timerJiffies]) (runTimersHead base) := by
  have counted : (ticks (past ++ [.tick base.timerJiffies])).length =
      (ticks past).length + 1 := by simp [ticks, Event.tick?]
  have silent : expirations timer.addr (past ++ [.tick base.timerJiffies]) =
      expirations timer.addr past := by simp [expirations]
  cases whereabouts with
  | queued sits placed notRunning never =>
    rcases eq_or_lt_of_le placed.now_le_due with now | early
    · rw [now] at clock placed
      obtain ⟨absent, first⟩ := runTimersHead_due clock sits placed
      exact .running absent first (by omega) (silent.trans never)
    · obtain ⟨v, sits, placed, idle⟩ := runTimersHead_queued clock sits placed early
      refine .queued sits ?_ idle (silent.trans never)
      rwa [counted]
  | running absent first now never => simp [drained] at first
  | done absent notRunning later ran =>
    obtain ⟨absent, idle⟩ := runTimersHead_absent absent
    exact .done absent idle (by omega) (ran.snoc (by simp [expirations]))

theorem Whereabouts.expire {expired : TimerList} {rest : List TimerList}
    (lastTick : ∀ tick, (ticks past).getLast? = some tick → tick + 1 = base.timerJiffies)
    (clock : base.timerJiffies = BitVec.ofNat 64 (start + (ticks past).length))
    (inTime : start ≤ due) (first : base.workList = expired :: rest) :
    Whereabouts start due timer (past ++ [.expired expired.addr]) { base with workList := rest } := by
  by_cases same : expired.addr = timer.addr
  · have here : occurrences timer.addr base.workList =
        expired :: occurrences timer.addr rest := by simp [first, occurrences, same]
    cases whereabouts with
    | queued _ _ notRunning => simp [here] at notRunning
    | done _ notRunning => simp [here] at notRunning
    | running absent only now never =>
      rw [here, List.cons.injEq] at only
      refine .done absent only.2 (by rw [ticks_append, length_append]; omega) ?_
      refine ⟨past, [], by rw [same], by omega, ?_, never, rfl⟩
      have some : (ticks past) ≠ [] := by
        intro none
        rw [none, length_nil] at now
        omega
      rw [getLast?_eq_getLast_of_ne_nil some, Option.some.injEq]
      have last := lastTick _ (getLast?_eq_getLast_of_ne_nil some)
      rw [clock, now, BitVec.ofNat_add] at last
      exact (BitVec.add_left_inj _).mp last
  · exact whereabouts.quiet rfl (by simp [expirations, same]) (fun _ => rfl)
      (by simp [first, occurrences, same])

end

theorem Tracked.step {start due : Nat} {timer : TimerList} {past events : List Event}
    {base after : TvecBase} {action : Action} (inTime : start ≤ due)
    (apart : ¬ action.Touches timer.addr) (tracked : Tracked start due timer past base)
    (taken : Step base action events after) : Tracked start due timer (past ++ events) after := by
  obtain ⟨clock, lastTick, whereabouts⟩ := tracked
  cases taken with
  | add idle =>
    rw [← append_nil past] at clock lastTick
    exact ⟨clock, lastTick, whereabouts.quiet rfl rfl (fun _ => occurrences_internalAddTimer_of_ne apart) rfl⟩
  | detach =>
    rw [← append_nil past] at clock lastTick
    exact ⟨clock, lastTick, whereabouts.quiet rfl rfl (fun _ => occurrences_filter_of_ne apart _)
      (occurrences_filter_of_ne apart _)⟩
  | tick drained due =>
    refine ⟨?_, ?_, whereabouts.tick clock drained⟩
    · rw [runTimersHead_clock clock]
      simp [ticks, Event.tick?, add_assoc]
    · intro tick last
      obtain rfl : base.timerJiffies = tick := by
        simpa [ticks, Event.tick?] using last
      rw [runTimersHead_clock clock, BitVec.ofNat_add _ 1, clock]
      rfl
  | expire first =>
    have counted (addr : Nat) : ticks past = ticks (past ++ [.expired addr]) := by simp [ticks, Event.tick?]
    exact ⟨counted _ ▸ clock, counted _ ▸ lastTick, whereabouts.expire lastTick clock inTime first⟩

/-- In the events `trace` that follow the insertion of `timer` at `inserted`, after which the wheel is
in state `base`, the timer runs exactly when it is due: an expiration of the timer falls into the
iteration of its due tick, there is at most one, the timer stays queued until that iteration
begins, and once it is over the timer has run. -/
structure RunsExactlyWhenDue (inserted : BitVec 64) (timer : TimerList) (trace : List Event)
    (base : TvecBase) : Prop where
  atDueTick : ∀ past future, trace = past ++ .expired timer.addr :: future →
    (ticks past).length = delay inserted timer.expires + 1 ∧
      (ticks past).getLast? = some (dueTick inserted timer.expires)
  notTwice : expirations timer.addr trace ≤ 1
  queuedBefore : (ticks trace).length ≤ delay inserted timer.expires →
    Pending base timer.addr ∧ expirations timer.addr trace = 0
  ranAfter : delay inserted timer.expires < (ticks trace).length →
    base.workList = [] ∨ delay inserted timer.expires + 1 < (ticks trace).length →
      expirations timer.addr trace = 1

theorem RanOnceAt.expirations_eq_one {due : BitVec 64} (ran : RanOnceAt addr count due trace) :
    expirations addr trace = 1 := by
  obtain ⟨past, future, rfl, -, -, before, after⟩ := ran
  rw [expirations] at *
  rw [count_append, count_cons_self, before, after]

theorem expirations_eq_zero :
    expirations addr trace = 0 ↔ ∀ past future, trace ≠ past ++ .expired addr :: future := by
  rw [expirations, count_eq_zero, mem_iff_append]
  simp

/-- A single expiration is found at one position only. -/
theorem RanOnceAt.position {due : BitVec 64} {future : List Event}
    (ran : RanOnceAt addr count due trace) (here : trace = past ++ .expired addr :: future) :
    (ticks past).length = count ∧ (ticks past).getLast? = some due := by
  obtain ⟨past', future', shape, counted, last, before, after⟩ := ran
  rw [here, append_eq_append_iff] at shape
  rcases shape with ⟨between, rfl, tail⟩ | ⟨between, rfl, tail⟩
  · cases between with
    | nil =>
      rw [append_nil] at counted last
      exact ⟨counted, last⟩
    | cons event between =>
      rw [cons_append, List.cons.injEq] at tail
      rw [← tail.1] at before
      exact absurd rfl (expirations_eq_zero.mp before past between)
  · cases between with
    | nil => simpa using ⟨counted, last⟩
    | cons event between =>
      rw [cons_append, List.cons.injEq] at tail
      rw [tail.2] at after
      exact absurd rfl (expirations_eq_zero.mp after between future)

theorem Tracked.runsExactlyWhenDue {inserted : BitVec 64} (tracked : Tracked start due timer trace base)
    (delayed : due = start + delay inserted timer.expires)
    (dueAt : BitVec.ofNat 64 due = dueTick inserted timer.expires) :
    RunsExactlyWhenDue inserted timer trace base := by
  cases tracked.whereabouts with
  | queued sits placed notRunning never =>
    have inTime := placed.now_le_due
    refine ⟨?_, by omega, fun _ => ⟨sits.pending, never⟩, fun late => by omega⟩
    intro past future here
    exact absurd here (expirations_eq_zero.mp never past future)
  | running absent first now never =>
    refine ⟨?_, by omega, fun early => by omega, ?_⟩
    · intro past future here
      exact absurd here (expirations_eq_zero.mp never past future)
    · rintro - (drained | later)
      · simp [drained] at first
      · omega
  | done absent notRunning later ran =>
    refine ⟨?_, ran.expirations_eq_one.le, fun early => by omega, fun _ _ => ran.expirations_eq_one⟩
    intro past future here
    have position := ran.position here
    rw [dueAt] at position
    exact ⟨by omega, position.2⟩

theorem ofNat_toNat_add_sub (timerJiffies expires : BitVec 64) :
    BitVec.ofNat 64 (timerJiffies.toNat + (expires - timerJiffies).toNat) = expires := by
  rw [BitVec.ofNat_add, BitVec.ofNat_toNat, BitVec.ofNat_toNat]
  simp

/-- The wheel places a timer inserted while idle according to its due tick. -/
theorem tracked_of_insertion (idle : ¬ Pending base timer.addr) : Tracked base.timerJiffies.toNat
      (base.timerJiffies.toNat + delay base.timerJiffies timer.expires) timer []
      (internalAddTimer base timer) := by
  obtain ⟨absent, notRunning⟩ := not_pending_iff.mp idle
  have clock : base.timerJiffies = BitVec.ofNat 64 base.timerJiffies.toNat := by simp
  have sits := internalAddTimer_sitsAt_self absent
  refine ⟨by simp [ticks], by simp [ticks], .queued sits (Settled.placed ?_) notRunning rfl⟩
  rw [delay]
  split_ifs with past
  · rw [clock] at past
    have settled := internalAddVec_past past
    rwa [← clock] at settled
  · have near : (timer.expires - base.timerJiffies).toNat < 2 ^ 63 := by
      rw [BitVec.toInt_eq_toNat_cond] at past
      omega
    have expires : timer.expires = BitVec.ofNat 64
        (base.timerJiffies.toNat + (timer.expires - base.timerJiffies).toNat) :=
      (ofNat_toNat_add_sub ..).symm
    have settled := internalAddVec_settled expires (le_add_right _ _) (by omega)
    rwa [← clock] at settled

theorem dueTick_eq (timerJiffies expires : BitVec 64) :
    BitVec.ofNat 64 (timerJiffies.toNat + delay timerJiffies expires) = dueTick timerJiffies expires := by
  rw [delay, dueTick]
  split_ifs
  · simp
  · exact ofNat_toNat_add_sub ..

/-- Timer wheel exactness. In every run from an empty base, a timer that is added and then neither
detached nor added again runs exactly in the iteration of `__run_timers` that processes its due
tick, `max(expires, timer_jiffies)` at insertion, for all 64-bit values of both. -/
theorem timer_expires_exactly_when_due {start : BitVec 64} {history rest : List Action}
    {timer : TimerList} {trace : List Event} {base : TvecBase}
    (run : TimerRun (initTimersCpu start) (history ++ .add timer :: rest) trace base)
    (undisturbed : ∀ action ∈ rest, ¬ action.Touches timer.addr) :
    ∃ inserted past future, TimerRun (initTimersCpu start) history past inserted ∧
      trace = past ++ future ∧
      RunsExactlyWhenDue inserted.timerJiffies timer future base := by
  obtain ⟨inserted, past, future, before, after, rfl⟩ := run.append_inv
  rw [← singleton_append] at after
  obtain ⟨added, none, future, insertion, after, rfl⟩ := after.append_inv
  cases insertion.singleton_inv with
  | add idle =>
    refine ⟨inserted, past, future, before, rfl, ?_⟩
    have tracked := after.invariant_of_actions undisturbed (tracked_of_insertion idle)
      (Tracked.step (le_add_right _ _))
    exact tracked.runsExactlyWhenDue rfl (dueTick_eq _ _)

/-- Added at tick 5, due at tick 6, and run when `jiffies` has reached 6. -/
theorem timer_expires_exactly_when_due_sample :
    ∃ trace base, TimerRun (initTimersCpu 5)
        ([] ++ .add ⟨1, 6⟩ :: [.tick 6, .tick 6, .expire]) trace base ∧
      (∀ action ∈ [Action.tick 6, .tick 6, .expire], ¬ action.Touches 1) ∧
      ∃ inserted past future, TimerRun (initTimersCpu 5) [] past inserted ∧ trace = past ++ future ∧
        RunsExactlyWhenDue inserted.timerJiffies ⟨1, 6⟩ future base := by
  have idle : ¬ Pending (initTimersCpu 5) 1 := by simp [Pending, initTimersCpu]
  have run : TimerRun (initTimersCpu 5) ([] ++ .add ⟨1, 6⟩ :: [.tick 6, .tick 6, .expire]) _ _ :=
    .cons (.add idle) <| .cons (.tick rfl (by decide)) <| .cons (.tick (by decide) (by decide)) <|
      .cons (.expire rfl) .nil
  have undisturbed : ∀ action ∈ [Action.tick 6, .tick 6, .expire], ¬ action.Touches 1 := by
    simp [Action.Touches]
  exact ⟨_, _, run, undisturbed, timer_expires_exactly_when_due run undisturbed⟩

end LinuxKernel.Kernel.Timer
