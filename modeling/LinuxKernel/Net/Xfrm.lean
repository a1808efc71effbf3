/-
Module: LinuxKernel.Net.Xfrm
Purpose: The IPsec anti-replay window of `net/xfrm/xfrm_state.c`, and the two critical sections of
  `xfrm_input`, between which the lock is dropped for the cryptography, so that the sections of several
  packets interleave. `Tracks` reads the bitmap back as the set of numbers accepted so far; the check tests
  the low 32 bits of the window while the update shifts for the whole of it.
Trusted boundary: human-reviewed spec
Main exports: receiveAll, InputStep, receiveAll_antiReplay_iff, xfrmInput_delivers_once
-/
import LinuxKernel.Library.Runs

namespace LinuxKernel.Net.Xfrm

/-- The receive side of `struct xfrm_replay_state`. -/
structure XfrmReplayState where
  seq : BitVec 32
  bitmap : BitVec 32
deriving DecidableEq, Repr

/-- The counters of `struct xfrm_stats` the check increments. -/
structure XfrmStats where
  replayWindow : BitVec 32
  replay : BitVec 32
deriving DecidableEq, Repr

/-- The fields of `struct xfrm_state` the two functions use; `replayWindow` is the `u8`
`props.replay_window`. -/
structure XfrmState where
  replay : XfrmReplayState
  replayWindow : BitVec 8
  stats : XfrmStats
deriving DecidableEq, Repr

/-- Error numbers returned by the check. -/
inductive Errno where
  | EINVAL
deriving DecidableEq, Repr

/-- What the C language leaves undefined: a shift of a 32-bit word by 32 or more. -/
inductive Fault where
  | shift (count : BitVec 32)
deriving DecidableEq, Repr

/-- `value << count` on a `u32`. -/
def shiftLeft (value count : BitVec 32) : Except Fault (BitVec 32) :=
  if count.toNat < 32 then .ok (value <<< count.toNat) else .error (.shift count)

/-- `min_t(unsigned int, x->props.replay_window, sizeof(x->replay.bitmap) * 8)`. -/
def windowSize (replayWindow : BitVec 8) : Nat := min replayWindow.toNat 32

/-- `xfrm_replay_check(x, skb, net_seq)`; `seq` is in host order. -/
def xfrmReplayCheck (x : XfrmState) (seq : BitVec 32) :
    Except Fault (Except Errno Unit × XfrmState) := do
  if seq = 0 then return (.error .EINVAL, x)
  if seq > x.replay.seq then return (.ok (), x)
  let diff := x.replay.seq - seq
  if diff.toNat ≥ windowSize x.replayWindow then
    return (.error .EINVAL,
      { x with stats := { x.stats with replayWindow := x.stats.replayWindow + 1 } })
  let bit ← shiftLeft 1 diff
  if x.replay.bitmap &&& bit ≠ 0 then
    return (.error .EINVAL, { x with stats := { x.stats with replay := x.stats.replay + 1 } })
  return (.ok (), x)

/-- `xfrm_replay_advance(x, net_seq)`. -/
def xfrmReplayAdvance (x : XfrmState) (seq : BitVec 32) : Except Fault XfrmState := do
  if seq > x.replay.seq then
    let diff := seq - x.replay.seq
    if diff.toNat < x.replayWindow.toNat then
      let shifted ← shiftLeft x.replay.bitmap diff
      return { x with replay := { bitmap := shifted ||| 1, seq } }
    else
      return { x with replay := { bitmap := 1, seq } }
  else
    let diff := x.replay.seq - seq
    let bit ← shiftLeft 1 diff
    return { x with replay := { x.replay with bitmap := x.replay.bitmap ||| bit } }

/-- One packet: the check and, when it returns 0, the update. The result says whether the packet
was accepted. -/
def receive (x : XfrmState) (seq : BitVec 32) : Except Fault (Bool × XfrmState) := do
  let (ret, x) ← xfrmReplayCheck x seq
  match ret with
  | .ok () => return (true, ← xfrmReplayAdvance x seq)
  | .error _ => return (false, x)

/-- Packets in the order of their arrival, with the decision taken for each. -/
def receiveAll (x : XfrmState) :
    List (BitVec 32) → Except Fault (List (BitVec 32 × Bool) × XfrmState)
  | [] => .ok ([], x)
  | seq :: rest => do
      let (accepted, x) ← receive x seq
      let (log, x) ← receiveAll x rest
      return ((seq, accepted) :: log, x)

/-- A new state: `xfrm_state_alloc` clears everything. -/
def fresh (replayWindow : BitVec 8) : XfrmState :=
  { replay := ⟨0, 0⟩, replayWindow, stats := ⟨0, 0⟩ }

/-- The first section, up to `spin_unlock`: whether the packet goes on to `x->type->input`. `valid` stands for
the tests of `km.state` and of the encapsulation, `expired` for `xfrm_state_check_expire`. -/
def checkSection (x : XfrmState) (seq : BitVec 32)
    (valid expired : Bool) : Except Fault (Bool × XfrmState) := do
  if ¬ valid then return (false, x)
  if x.replayWindow ≠ 0 then
    match ← xfrmReplayCheck x seq with
    | (.ok (), x) => return (!expired, x)
    | (.error _, x) => return (false, x)
  else return (!expired, x)

/-- `xfrm_replay_advance` on a machine where a shift by 32 or more gives the word `wild`. -/
def replayAdvanceOn (x : XfrmState) (seq wild : BitVec 32) : XfrmState :=
  match xfrmReplayAdvance x seq with
  | .ok x => x
  | .error _ =>
    if seq > x.replay.seq then { x with replay := { bitmap := wild ||| 1, seq } }
    else { x with replay := { x.replay with bitmap := x.replay.bitmap ||| wild } }

/-- The second section, from the label `resume`; `authentic` says that `nexthdr` is positive. -/
def resumeSection (x : XfrmState) (seq : BitVec 32) (authentic : Bool) (wild : BitVec 32) : XfrmState :=
  if ¬ authentic then x
  else if x.replayWindow ≠ 0 then replayAdvanceOn x seq wild
  else x

/-- The SA, and the numbers of the packets that are between the two sections (`seq.input` of each). -/
structure InputState where
  x : XfrmState
  inFlight : List (BitVec 32)
deriving DecidableEq, Repr

/-- A section of one packet. `forwarded` says that nothing after the second section drops it. -/
inductive InputAction where
  | check (seq : BitVec 32) (valid expired : Bool)
  | resume (seq : BitVec 32) (authentic forwarded : Bool) (wild : BitVec 32)
deriving DecidableEq, Repr

/-- The sections are taken one at a time. The events are the numbers of the packets delivered. -/
inductive InputStep : InputState → InputAction → List (BitVec 32) → InputState → Prop where
  | check {s : InputState} {seq : BitVec 32} {valid expired passed : Bool} {x : XfrmState}
      (result : checkSection s.x seq valid expired = .ok (passed, x)) :
      InputStep s (.check seq valid expired) [] ⟨x, if passed then seq :: s.inFlight else s.inFlight⟩
  | resume {s : InputState} {seq wild : BitVec 32} {authentic forwarded : Bool} (waiting : seq ∈ s.inFlight) :
      InputStep s (.resume seq authentic forwarded wild) (if authentic && forwarded then [seq] else [])
        ⟨resumeSection s.x seq authentic wild, s.inFlight.erase seq⟩

open List

/-! ### One packet -/

/-- The bitmap is the set `past` of accepted numbers as far as the window reaches. -/
structure Tracks (past : List (BitVec 32)) (x : XfrmState) : Prop where
  nodup : past.Nodup
  nonzero : 0 ∉ past
  bounded : ∀ n ∈ past, n ≤ x.replay.seq
  top : x.replay.seq = 0 ∨ x.replay.seq ∈ past
  bit : ∀ n : BitVec 32, n ≠ 0 → n ≤ x.replay.seq →
    (x.replay.seq - n).toNat < windowSize x.replayWindow →
    (x.replay.bitmap.getLsbD (x.replay.seq - n).toNat = true ↔ n ∈ past)

/-- `seq` does not overtake `top` by a distance inside the window but outside the bitmap. -/
def JumpFits (replayWindow : BitVec 8) (top seq : BitVec 32) : Prop :=
  top < seq → (seq - top).toNat < 32 ∨ replayWindow.toNat ≤ (seq - top).toNat
deriving Decidable

/-- The highest number after `seq` was seen. -/
def higher (top seq : BitVec 32) : BitVec 32 := if top < seq then seq else top

theorem tracks_fresh (replayWindow : BitVec 8) : Tracks [] (fresh replayWindow) where
  nodup := nodup_nil
  nonzero := not_mem_nil
  bounded := nofun
  top := .inl rfl
  bit := by
    intro n nonzero bound _
    exact absurd (BitVec.le_zero_iff.mp bound) nonzero

theorem windowSize_le (replayWindow : BitVec 8) : windowSize replayWindow ≤ 32 :=
  Nat.min_le_right _ _

theorem shiftLeft_of_lt {value count : BitVec 32} (small : count.toNat < 32) :
    shiftLeft value count = .ok (value <<< count.toNat) := if_pos small

/-- `x->replay.bitmap & (1U << diff)`. -/
theorem and_bit_ne_zero {bitmap : BitVec 32} {count : Nat} (small : count < 32) :
    bitmap &&& (1 : BitVec 32) <<< count ≠ 0 ↔ bitmap.getLsbD count = true := by
  have set : BitVec.twoPow 32 count ≠ 0#32 := fun zero => by
    simpa [small] using congrArg (fun value => value.getLsbD count) zero
  rw [show (1 : BitVec 32) <<< count = .twoPow 32 count from (BitVec.twoPow_eq 32 count).symm,
    BitVec.and_twoPow]
  split_ifs with bit
  · simp [bit, set]
  · simp [bit]

variable {past : List (BitVec 32)} {x : XfrmState} {seq : BitVec 32}

/-- The check accepts what is above the top, and below it what is inside the window and new. -/
theorem xfrmReplayCheck_tracks (tracks : Tracks past x) (seq : BitVec 32) :
    ∃ ret x', xfrmReplayCheck x seq = .ok (ret, x') ∧ x'.replay = x.replay ∧
      x'.replayWindow = x.replayWindow ∧
      (ret = .ok () ↔ seq ≠ 0 ∧ (x.replay.seq < seq ∨
        (x.replay.seq - seq).toNat < windowSize x.replayWindow ∧ seq ∉ past)) := by
  unfold xfrmReplayCheck
  dsimp only
  split_ifs with zero above outside
  · exact ⟨_, _, rfl, rfl, rfl, nofun, fun accepted => absurd zero accepted.1⟩
  · exact ⟨_, _, rfl, rfl, rfl, fun _ => ⟨zero, .inl above⟩, fun _ => rfl⟩
  · refine ⟨_, _, rfl, rfl, rfl, nofun, ?_⟩
    rintro ⟨-, high | ⟨close, -⟩⟩
    · exact absurd high above
    · exact absurd close (Nat.not_lt.mpr outside)
  · have inside := Nat.not_le.mp outside
    have small := Nat.lt_of_lt_of_le inside (windowSize_le _)
    have meaning := tracks.bit seq zero (BitVec.not_lt.mp above) inside
    rw [← and_bit_ne_zero small] at meaning
    simp only [shiftLeft_of_lt small, bind, Except.bind]
    split_ifs with replayed
    · refine ⟨_, _, rfl, rfl, rfl, nofun, ?_⟩
      rintro ⟨-, high | ⟨-, new⟩⟩
      · exact absurd high above
      · exact absurd (meaning.mp replayed) new
    · exact ⟨_, _, rfl, rfl, rfl, fun _ => ⟨zero, .inr ⟨inside, mt meaning.mpr replayed⟩⟩, fun _ => rfl⟩

/-- What an update has to establish to have accepted `seq`. -/
theorem Tracks.accept {x' : XfrmState} (tracks : Tracks past x) (nonzero : seq ≠ 0)
    (new : seq ∉ past) (raised : x.replay.seq ≤ x'.replay.seq) (bound : seq ≤ x'.replay.seq)
    (top : x'.replay.seq = seq ∨ x'.replay.seq = x.replay.seq)
    (bit : ∀ n : BitVec 32, n ≠ 0 → n ≤ x'.replay.seq →
      (x'.replay.seq - n).toNat < windowSize x'.replayWindow →
      (x'.replay.bitmap.getLsbD (x'.replay.seq - n).toNat = true ↔ n ∈ past ∨ n = seq)) :
    Tracks (past ++ [seq]) x' := by
  refine ⟨?_, ?_, ?_, ?_, ?_⟩
  · rw [← concat_eq_append]
    exact tracks.nodup.concat new
  · rw [mem_append, mem_singleton, not_or]
    exact ⟨tracks.nonzero, nonzero.symm⟩
  · exact forall_mem_append.mpr ⟨fun n old => BitVec.le_trans (tracks.bounded n old) raised,
      forall_mem_singleton.mpr bound⟩
  · rcases top with same | same
    · exact .inr (mem_append_right _ (mem_singleton.mpr same))
    · rw [same]
      exact tracks.top.imp_right (mem_append_left _)
  · intro n pos low close
    rw [bit n pos low close, mem_append, mem_singleton]

theorem getLsbD_one_of_pos {d : Nat} (pos : 0 < d) : (1 : BitVec 32).getLsbD d = false := by
  simp [Nat.ne_of_gt pos]

/-- Moving the top: the old numbers keep their distance from it, or fall out of the window. -/
theorem Tracks.advance_top (tracks : Tracks past x) (above : x.replay.seq < seq)
    (fits : JumpFits x.replayWindow x.replay.seq seq) :
    ∃ x', xfrmReplayAdvance x seq = .ok x' ∧ x'.replay.seq = seq ∧
      x'.replayWindow = x.replayWindow ∧ Tracks (past ++ [seq]) x' := by
  have fresh : seq ∉ past := fun mem => BitVec.not_lt.mpr (tracks.bounded seq mem) above
  have nonzero : seq ≠ 0 := by bv_omega
  have accept : ∀ bitmap : BitVec 32, bitmap.getLsbD 0 = true →
      (∀ n : BitVec 32, n ≠ 0 → n < seq → (seq - n).toNat < windowSize x.replayWindow →
        (bitmap.getLsbD (seq - n).toNat = true ↔ n ∈ past)) →
      Tracks (past ++ [seq]) { x with replay := { bitmap, seq } } := by
    intro bitmap first rest
    refine tracks.accept nonzero fresh (BitVec.le_of_lt above) (BitVec.le_refl seq) (.inl rfl) ?_
    intro n pos bound inside
    by_cases same : n = seq
    · subst same
      simp [first]
    · have strict : n < seq := by bv_omega
      rw [rest n pos strict inside, or_iff_left same]
  unfold xfrmReplayAdvance
  rw [if_pos above]
  by_cases inside : (seq - x.replay.seq).toNat < x.replayWindow.toNat
  · have small : (seq - x.replay.seq).toNat < 32 :=
      (fits above).resolve_right (Nat.not_le.mpr inside)
    simp only [if_pos inside, shiftLeft_of_lt small]
    refine ⟨_, rfl, rfl, rfl, accept _ (by simp) ?_⟩
    intro n pos strict close
    have low := Nat.lt_of_lt_of_le close (windowSize_le x.replayWindow)
    rw [BitVec.getLsbD_or, getLsbD_one_of_pos (by bv_omega), Bool.or_false,
      BitVec.getLsbD_shiftLeft, decide_eq_true low, Bool.true_and]
    by_cases old : n ≤ x.replay.seq
    · -- the distance grew by the shift
      have distance : (seq - n).toNat - (seq - x.replay.seq).toNat = (x.replay.seq - n).toNat := by
        bv_omega
      have notBelow : ¬ (seq - n).toNat < (seq - x.replay.seq).toNat := by bv_omega
      rw [distance, decide_eq_false notBelow]
      exact tracks.bit n pos old (by bv_omega)
    · have between : (seq - n).toNat < (seq - x.replay.seq).toNat := by bv_omega
      rw [decide_eq_true between]
      exact ⟨nofun, fun mem => absurd (tracks.bounded n mem) old⟩
  · rw [if_neg inside]
    refine ⟨_, rfl, rfl, rfl, accept 1 (by decide) ?_⟩
    intro n pos strict close
    have narrow : windowSize x.replayWindow ≤ x.replayWindow.toNat := Nat.min_le_left _ _
    rw [getLsbD_one_of_pos (by bv_omega)]
    refine ⟨nofun, fun mem => ?_⟩
    have old := tracks.bounded n mem
    bv_omega

/-- Filling a gap below the top. -/
theorem Tracks.advance_gap (tracks : Tracks past x) (nonzero : seq ≠ 0)
    (below : ¬ x.replay.seq < seq) (new : seq ∉ past)
    (inside : (x.replay.seq - seq).toNat < windowSize x.replayWindow) :
    ∃ x', xfrmReplayAdvance x seq = .ok x' ∧ x'.replay.seq = x.replay.seq ∧
      x'.replayWindow = x.replayWindow ∧ Tracks (past ++ [seq]) x' := by
  have small := Nat.lt_of_lt_of_le inside (windowSize_le _)
  have bound := BitVec.not_lt.mp below
  unfold xfrmReplayAdvance
  rw [if_neg below]
  simp only [shiftLeft_of_lt small]
  refine ⟨_, rfl, rfl, rfl, tracks.accept nonzero new (BitVec.le_refl _) bound (.inr rfl) ?_⟩
  intro n pos low close
  have shifted : (1 : BitVec 32) <<< (x.replay.seq - seq).toNat =
      BitVec.twoPow 32 (x.replay.seq - seq).toNat := (BitVec.twoPow_eq 32 _).symm
  have single : (x.replay.seq - seq).toNat = (x.replay.seq - n).toNat ↔ n = seq := by bv_omega
  rw [BitVec.getLsbD_or, Bool.or_eq_true, tracks.bit n pos low close, shifted,
    BitVec.getLsbD_twoPow, Bool.and_eq_true, decide_eq_true_eq, decide_eq_true_eq, single,
    and_iff_right small]

/-- One packet whose jump fits: accepted exactly when it is new and not too old. -/
theorem receive_tracks (tracks : Tracks past x) (fits : JumpFits x.replayWindow x.replay.seq seq) :
    ∃ accepted x', receive x seq = .ok (accepted, x') ∧ x'.replayWindow = x.replayWindow ∧
      x'.replay.seq = higher x.replay.seq seq ∧
      Tracks (if accepted then past ++ [seq] else past) x' ∧
      (seq ≠ 0 → seq ∉ past → (x.replay.seq - seq).toNat < windowSize x.replayWindow → accepted = true) := by
  obtain ⟨ret, x', checked, sameReplay, sameWindow, verdict⟩ := xfrmReplayCheck_tracks tracks seq
  obtain ⟨replay, window, stats⟩ := x'
  dsimp only at sameReplay sameWindow
  subst sameReplay sameWindow
  have tracks' : Tracks past ⟨x.replay, x.replayWindow, stats⟩ := { tracks with }
  simp only [receive, checked, bind, Except.bind]
  cases ret with
  | ok done =>
    obtain ⟨nonzero, reason⟩ := verdict.mp rfl
    by_cases high : x.replay.seq < seq
    · obtain ⟨x'', advanced, newTop, window, tracks''⟩ := tracks'.advance_top high fits
      refine ⟨true, x'', by simp only [advanced]; rfl, window, ?_, tracks'', fun _ _ _ => rfl⟩
      rw [newTop, higher, if_pos high]
    · obtain ⟨inside, new⟩ := reason.resolve_left high
      obtain ⟨x'', advanced, sameTop, window, tracks''⟩ := tracks'.advance_gap nonzero
        high new inside
      refine ⟨true, x'', by simp only [advanced]; rfl, window, ?_, tracks'', fun _ _ _ => rfl⟩
      rw [sameTop, higher, if_neg high]
  | error code =>
    refine ⟨false, _, rfl, rfl, ?_, tracks', ?_⟩
    · have refused : ¬ x.replay.seq < seq := by
        intro high
        cases verdict.mpr ⟨by bv_omega, .inl high⟩
      rw [higher, if_neg refused]
    · intro nonzero new inside
      cases verdict.mpr ⟨nonzero, .inr ⟨inside, new⟩⟩

/-- A jump between the two bounds reaches the undefined shift. -/
theorem receive_undefined (unfit : ¬ JumpFits x.replayWindow x.replay.seq seq) :
    receive x seq = .error (.shift (seq - x.replay.seq)) := by
  unfold JumpFits at unfit
  rw [Classical.not_imp, not_or] at unfit
  obtain ⟨above, wide, inside⟩ := unfit
  have checked : xfrmReplayCheck x seq = .ok (.ok (), x) := by
    rw [xfrmReplayCheck, if_neg (by bv_omega), if_pos above]
    rfl
  have shifted : shiftLeft x.replay.bitmap (seq - x.replay.seq) =
      .error (.shift (seq - x.replay.seq)) := if_neg wide
  have advanced : xfrmReplayAdvance x seq = .error (.shift (seq - x.replay.seq)) := by
    rw [xfrmReplayAdvance, if_pos above]
    simp only [if_pos (Nat.not_le.mp inside), shifted, bind, Except.bind]
  simp only [receive, checked, advanced, bind, Except.bind]

/-! ### Any order of arrival -/

/-- The accepted numbers of a log. -/
def acceptedOf (log : List (BitVec 32 × Bool)) : List (BitVec 32) :=
  (log.filter Prod.snd).map Prod.fst

/-- What anti-replay promises about a log that follows the accepted numbers `past`. -/
structure AntiReplay (replayWindow : BitVec 8) (past : List (BitVec 32))
    (log : List (BitVec 32 × Bool)) : Prop where
  /-- No number is accepted twice. -/
  once : (past ++ acceptedOf log).Nodup
  /-- A new non-zero number close enough below the highest accepted one is accepted. -/
  complete : ∀ {before after : List (BitVec 32 × Bool)} {seq top : BitVec 32} {accepted : Bool},
    log = before ++ (seq, accepted) :: after → seq ≠ 0 → seq ∉ past ++ acceptedOf before →
    top ∈ past ++ acceptedOf before → (∀ n ∈ past ++ acceptedOf before, n ≤ top) → seq ≤ top →
    (top - seq).toNat < min replayWindow.toNat 32 → accepted = true

/-- Every arrival fits the highest number that arrived before it. -/
def jumpsFit (replayWindow : BitVec 8) : BitVec 32 → List (BitVec 32) → Bool
  | _, [] => true
  | top, seq :: rest =>
    decide (JumpFits replayWindow top seq) && jumpsFit replayWindow (higher top seq) rest

theorem acceptedOf_cons (seq : BitVec 32) (accepted : Bool) (log : List (BitVec 32 × Bool)) :
    acceptedOf ((seq, accepted) :: log) = (if accepted then [seq] else []) ++ acceptedOf log := by
  cases accepted <;> rfl

/-- One more arrival in front of a log. -/
theorem AntiReplay.cons {replayWindow : BitVec 8} {log : List (BitVec 32 × Bool)} {accepted : Bool}
    (rest : AntiReplay replayWindow (if accepted then past ++ [seq] else past) log)
    (first : ∀ top ∈ past, (∀ n ∈ past, n ≤ top) → seq ≠ 0 → seq ∉ past → seq ≤ top →
      (top - seq).toNat < windowSize replayWindow → accepted = true) :
    AntiReplay replayWindow past ((seq, accepted) :: log) := by
  have shift : ∀ some : List (BitVec 32 × Bool), past ++ acceptedOf ((seq, accepted) :: some) =
      (if accepted then past ++ [seq] else past) ++ acceptedOf some := by
    intro some
    rw [acceptedOf_cons]
    cases accepted <;> simp
  refine ⟨by rw [shift]; exact rest.once, ?_⟩
  intro before after seq' top accepted' split nonzero new mem highest bound inside
  cases before with
  | nil =>
    obtain ⟨same, -⟩ := List.cons.inj split
    obtain ⟨rfl, rfl⟩ := Prod.mk.inj same
    rw [acceptedOf, filter_nil, map_nil, append_nil] at new mem highest
    exact first top mem highest nonzero new bound inside
  | cons head before =>
    obtain ⟨rfl, later⟩ := List.cons.inj split
    rw [shift] at new mem highest
    exact rest.complete later nonzero new mem highest bound inside

theorem receiveAll_tracks : ∀ (seqs past : List (BitVec 32)) (x : XfrmState), Tracks past x →
    jumpsFit x.replayWindow x.replay.seq seqs = true →
    ∃ log x', receiveAll x seqs = .ok (log, x') ∧ AntiReplay x.replayWindow past log
  | [], past, x, tracks, _ => by
      refine ⟨[], x, rfl, ?_, ?_⟩
      · rw [acceptedOf, filter_nil, map_nil, append_nil]
        exact tracks.nodup
      · intro before after seq top accepted split
        exact absurd split.symm (append_ne_nil_of_right_ne_nil _ (cons_ne_nil _ _))
  | seq :: rest, past, x, tracks, fit => by
      rw [jumpsFit, Bool.and_eq_true, decide_eq_true_eq] at fit
      obtain ⟨accepted, x', received, window, newTop, tracks', complete⟩ :=
        receive_tracks tracks fit.1
      obtain ⟨log, x'', later, promised⟩ := receiveAll_tracks rest _ x' tracks'
        (by rw [window, newTop]; exact fit.2)
      refine ⟨(seq, accepted) :: log, x'', ?_, ?_⟩
      · simp only [receiveAll, received, later, bind, Except.bind]
        rfl
      · rw [window] at promised
        refine promised.cons ?_
        intro top mem highest nonzero new bound inside
        -- the highest accepted number is the one the state keeps
        have same : x.replay.seq = top := by
          rcases tracks.top with zero | known
          · have low := tracks.bounded top mem
            rw [zero] at low ⊢
            exact (BitVec.le_zero_iff.mp low).symm
          · exact BitVec.le_antisymm (highest _ known) (tracks.bounded top mem)
        subst same
        exact complete nonzero new inside

theorem receiveAll_undefined : ∀ (seqs past : List (BitVec 32)) (x : XfrmState), Tracks past x →
    jumpsFit x.replayWindow x.replay.seq seqs = false →
    ∃ fault, receiveAll x seqs = .error fault
  | [], _, _, _, unfit => by cases unfit
  | seq :: rest, past, x, tracks, unfit => by
      by_cases fits : JumpFits x.replayWindow x.replay.seq seq
      · obtain ⟨accepted, x', received, window, newTop, tracks', -⟩ := receive_tracks tracks fits
        rw [jumpsFit, decide_eq_true fits] at unfit
        obtain ⟨fault, later⟩ := receiveAll_undefined rest _ x' tracks' (by rw [window, newTop]; exact unfit)
        exact ⟨fault, by simp only [receiveAll, received, later, bind, Except.bind]⟩
      · refine ⟨.shift (seq - x.replay.seq), ?_⟩
        simp only [receiveAll, receive_undefined fits, bind, Except.bind]

/-- Anti-replay, for every value of `replay_window` and every order of arrival at a new state:
all shifts are by less than 32, no number is accepted twice and no new number less than
`min(replay_window, 32)` below the highest accepted one is refused, exactly when no arrival
overtakes the highest number before it by 32 or more and yet by less than `replay_window`. -/
theorem receiveAll_antiReplay_iff (replayWindow : BitVec 8) (seqs : List (BitVec 32)) :
    (∃ log x, receiveAll (fresh replayWindow) seqs = .ok (log, x) ∧
      AntiReplay replayWindow [] log) ↔ jumpsFit replayWindow 0 seqs = true := by
  constructor
  · rintro ⟨log, x, received, -⟩
    by_contra unfit
    obtain ⟨fault, failed⟩ := receiveAll_undefined seqs [] _ (tracks_fresh replayWindow)
      (Bool.eq_false_iff.mpr unfit)
    rw [received] at failed
    cases failed
  · intro fit
    exact receiveAll_tracks seqs [] _ (tracks_fresh replayWindow) fit

/-- With `replay_window` 64, the numbers 1 and 33 already shift the bitmap by 32. -/
theorem receiveAll_shifts_too_far : receiveAll (fresh 64) [1, 33] = .error (.shift 32) := by
  rfl

open Library BitVec Prod

/-! ### The window -/

/-- The check refuses the number: it is marked, or below the window. -/
structure Blocked (x : XfrmState) (seq : BitVec 32) : Prop where
  bound : seq ≤ x.replay.seq
  marked : (x.replay.seq - seq).toNat < windowSize x.replayWindow →
    x.replay.bitmap.getLsbD (x.replay.seq - seq).toNat = true

variable {x' : XfrmState}

theorem xfrmReplayCheck_not_blocked {ret : Except Errno Unit}
    (checked : xfrmReplayCheck x seq = .ok (ret, x')) :
    x'.replay = x.replay ∧ x'.replayWindow = x.replayWindow ∧ (ret = .ok () → ¬ Blocked x seq) := by
  unfold xfrmReplayCheck at checked
  dsimp only at checked
  split_ifs at checked with zero above outside
  · cases checked
    exact ⟨rfl, rfl, nofun⟩
  · cases checked
    exact ⟨rfl, rfl, fun _ blocked => BitVec.not_lt.mpr blocked.bound above⟩
  · cases checked
    exact ⟨rfl, rfl, nofun⟩
  · have inside := Nat.not_le.mp outside
    have small := Nat.lt_of_lt_of_le inside (windowSize_le _)
    simp only [shiftLeft_of_lt small, bind, Except.bind] at checked
    split_ifs at checked with replayed <;> cases checked
    · exact ⟨rfl, rfl, nofun⟩
    · exact ⟨rfl, rfl, fun _ blocked => replayed ((and_bit_ne_zero small).mpr (blocked.marked inside))⟩

/-- The update for a number above the top. -/
theorem advance_above (narrow : x.replayWindow.toNat ≤ 32) (above : seq > x.replay.seq) :
    xfrmReplayAdvance x seq = .ok { x with replay := {
      bitmap := if (seq - x.replay.seq).toNat < x.replayWindow.toNat then
        x.replay.bitmap <<< (seq - x.replay.seq).toNat ||| 1 else 1
      seq := seq } } := by
  rw [xfrmReplayAdvance]
  dsimp only
  split_ifs with inside
  · rw [shiftLeft_of_lt (Nat.lt_of_lt_of_le inside narrow)]
    rfl
  · rfl

/-- The update for a number below the top only adds to the bitmap, the mark of the number if it has one. -/
theorem replayAdvanceOn_below (wild : BitVec 32) (below : ¬ seq > x.replay.seq) :
    ∃ added, replayAdvanceOn x seq wild =
      { x with replay := { x.replay with bitmap := x.replay.bitmap ||| added } } ∧
      ((x.replay.seq - seq).toNat < 32 → added.getLsbD (x.replay.seq - seq).toNat = true) := by
  rw [replayAdvanceOn, xfrmReplayAdvance, if_neg below]
  dsimp only
  by_cases small : (x.replay.seq - seq).toNat < 32
  · refine ⟨(1 : BitVec 32) <<< (x.replay.seq - seq).toNat, ?_, fun _ => ?_⟩
    · rw [shiftLeft_of_lt small]
      rfl
    · rw [getLsbD_shiftLeft, decide_eq_true small]
      simp
  · refine ⟨wild, ?_, fun inside => absurd inside small⟩
    have undefined : shiftLeft 1 (x.replay.seq - seq) = .error (.shift (x.replay.seq - seq)) := if_neg small
    rw [undefined]
    exact if_neg below

/-- The update blocks its number, and every number that was blocked stays so. -/
theorem replayAdvanceOn_blocked {x : XfrmState} {seq wild : BitVec 32} (narrow : x.replayWindow.toNat ≤ 32) :
    (replayAdvanceOn x seq wild).replayWindow = x.replayWindow ∧ Blocked (replayAdvanceOn x seq wild) seq ∧
      ∀ n, Blocked x n → Blocked (replayAdvanceOn x seq wild) n := by
  have size : windowSize x.replayWindow = x.replayWindow.toNat := Nat.min_eq_left narrow
  by_cases above : seq > x.replay.seq
  · rw [replayAdvanceOn, advance_above narrow above]
    refine ⟨rfl, ⟨BitVec.le_refl _, fun _ => ?_⟩, fun n blocked => ⟨?_, fun inside => ?_⟩⟩
    · split_ifs <;> simp
    · have bound := blocked.bound
      bv_omega
    · dsimp only at inside ⊢
      rw [size] at inside
      have bound := blocked.bound
      -- the distance to the top grew by the shift
      have distance : (seq - n).toNat - (seq - x.replay.seq).toNat = (x.replay.seq - n).toNat := by bv_omega
      have notBelow : ¬ (seq - n).toNat < (seq - x.replay.seq).toNat := by bv_omega
      have old := blocked.marked (by rw [size]; omega)
      have low : (seq - n).toNat < 32 := Nat.lt_of_lt_of_le inside narrow
      rw [if_pos (by omega), getLsbD_or, getLsbD_shiftLeft, decide_eq_true low,
        decide_eq_false notBelow, distance, old]
      rfl
  · obtain ⟨added, advanced, marks⟩ := replayAdvanceOn_below wild above
    rw [advanced]
    refine ⟨rfl, ⟨BitVec.not_lt.mp above, fun inside => ?_⟩, fun n blocked =>
      ⟨blocked.bound, fun inside => ?_⟩⟩
    · rw [getLsbD_or, marks (Nat.lt_of_lt_of_le inside (windowSize_le _)), Bool.or_true]
    · rw [getLsbD_or, blocked.marked inside, Bool.true_or]

/-! ### Packets in flight -/

theorem checkSection_inv {valid expired passed : Bool} (window : x.replayWindow ≠ 0)
    (result : checkSection x seq valid expired = .ok (passed, x')) :
    x'.replay = x.replay ∧ x'.replayWindow = x.replayWindow ∧ (passed = true → ¬ Blocked x seq) := by
  rw [checkSection] at result
  cases valid with
  | false =>
    cases result
    exact ⟨rfl, rfl, nofun⟩
  | true =>
    simp only [if_pos window] at result
    cases checked : xfrmReplayCheck x seq with
    | error fault => rw [checked] at result; cases result
    | ok outcome =>
      obtain ⟨ret, middle⟩ := outcome
      obtain ⟨sameReplay, sameWindow, refused⟩ := xfrmReplayCheck_not_blocked checked
      rw [checked] at result
      cases ret with
      | ok done =>
        cases result
        exact ⟨sameReplay, sameWindow, fun _ => refused rfl⟩
      | error code =>
        cases result
        exact ⟨sameReplay, sameWindow, nofun⟩

/-- A packet takes the first section while no other packet with its number is in flight. -/
def Alone (s : InputState) : InputAction → Prop
  | .check seq _ _ => seq ∉ s.inFlight
  | .resume .. => True

/-- The steps that meet the condition. -/
def AloneStep (s : InputState) (action : InputAction) (events : List (BitVec 32)) (s' : InputState) : Prop :=
  InputStep s action events s' ∧ Alone s action

/-- Every delivered number is blocked, and none of them is in flight any more. -/
structure InputInvariant (past : List (BitVec 32)) (s : InputState) : Prop where
  positive : s.x.replayWindow ≠ 0
  narrow : s.x.replayWindow.toNat ≤ 32
  nodup : (s.inFlight ++ past).Nodup
  blocked : ∀ n ∈ past, Blocked s.x n

theorem InputInvariant.step {past events : List (BitVec 32)} {s s' : InputState} {action : InputAction}
    (inv : InputInvariant past s) (taken : InputStep s action events s') (alone : Alone s action) :
    InputInvariant (past ++ events) s' := by
  cases taken with
  | @check seq _ _ passed x result =>
    obtain ⟨sameReplay, sameWindow, refused⟩ := checkSection_inv inv.positive result
    have blocked : ∀ n ∈ past, Blocked x n := by
      intro n mem
      obtain ⟨bound, marked⟩ := inv.blocked n mem
      constructor
      · rwa [sameReplay]
      · rwa [sameReplay, sameWindow]
    rw [append_nil]
    refine ⟨sameWindow ▸ inv.positive, sameWindow ▸ inv.narrow, ?_, blocked⟩
    cases passed with
    | false => exact inv.nodup
    | true =>
      have new : seq ∉ past := fun mem => refused rfl (inv.blocked seq mem)
      exact nodup_cons.mpr ⟨fun mem => (mem_append.mp mem).elim alone new, inv.nodup⟩
  | @resume seq wild authentic forwarded waiting =>
    have shorter : (s.inFlight.erase seq ++ past).Nodup :=
      inv.nodup.sublist (erase_sublist.append (List.Sublist.refl _))
    cases authentic with
    | false =>
      simp only [Bool.false_and, Bool.false_eq_true, if_false, append_nil]
      exact ⟨inv.positive, inv.narrow, shorter, inv.blocked⟩
    | true =>
      have advanced : resumeSection s.x seq true wild = replayAdvanceOn s.x seq wild :=
        if_pos inv.positive
      obtain ⟨sameWindow, own, kept⟩ := replayAdvanceOn_blocked inv.narrow
      rw [advanced]
      refine ⟨sameWindow ▸ inv.positive, sameWindow ▸ inv.narrow, ?_,
        forall_mem_append.mpr ⟨fun n old => kept n (inv.blocked n old), ?_⟩⟩
      · cases forwarded with
        | false => rwa [Bool.and_false, if_neg Bool.false_ne_true, append_nil]
        | true =>
          have order : (s.inFlight ++ past).Perm (s.inFlight.erase seq ++ (past ++ [seq])) :=
            calc (s.inFlight ++ past).Perm (seq :: (s.inFlight.erase seq ++ past)) :=
                  (perm_cons_erase waiting).append_right past
              _ |>.Perm ((s.inFlight.erase seq ++ past) ++ [seq]) := (perm_append_singleton _ _).symm
              _ = s.inFlight.erase seq ++ (past ++ [seq]) := append_assoc ..
          exact order.nodup_iff.mp inv.nodup
      · cases forwarded with
        | false => exact nofun
        | true => exact forall_mem_singleton.mpr own

/-- In every interleaving in which each packet takes the first section while no other packet with its number
is in flight, no number is delivered twice. -/
theorem xfrmInput_delivers_once (x : XfrmState) (positive : 1 ≤ x.replayWindow.toNat)
    (narrow : x.replayWindow.toNat ≤ 32) {actions : List InputAction} {delivered : List (BitVec 32)}
    {last : InputState} (run : Run AloneStep ⟨x, []⟩ actions delivered last) : delivered.Nodup := by
  have start : InputInvariant [] ⟨x, []⟩ := by
    refine ⟨?_, narrow, nodup_nil, nofun⟩
    rintro zero
    rw [zero] at positive
    exact absurd positive (by decide)
  have final : InputInvariant delivered last := run.invariant_of_actions (fun _ _ => trivial) start
    fun (_ : True) inv taken => inv.step taken.1 taken.2
  exact (nodup_append.mp final.nodup).2.1

/-- The packet takes the first section of a new SA: it is not refused. -/
theorem check_fresh {inFlight : List (BitVec 32)} :
    InputStep ⟨fresh 32, inFlight⟩ (.check 1 true false) [] ⟨fresh 32, 1 :: inFlight⟩ :=
  @InputStep.check _ 1 _ _ true _ rfl

/-- The packets 1 and 2 are in flight together and arrive out of order, and a replay of 1 is refused. -/
theorem xfrmInput_delivers_once_replay :
    ∃ last, Run AloneStep ⟨fresh 32, []⟩ [.check 1 true false, .check 2 true false, .resume 2 true true 0,
        .resume 1 true true 0, .check 1 true false] [2, 1] last ∧
      last.inFlight = [] ∧ last.x.stats.replay = 1 ∧ [(2 : BitVec 32), 1].Nodup := by
  have run : Run AloneStep ⟨fresh 32, []⟩ [.check 1 true false, .check 2 true false, .resume 2 true true 0,
      .resume 1 true true 0, .check 1 true false] [2, 1] _ :=
    .cons ⟨check_fresh, not_mem_nil⟩ <| .cons ⟨@InputStep.check _ 2 _ _ true _ rfl,
      show (2 : BitVec 32) ∉ [1] by decide⟩ <|
      .cons ⟨@InputStep.resume _ 2 0 _ _ (by decide), trivial⟩ <|
      .cons ⟨@InputStep.resume _ 1 0 _ _ (by decide), trivial⟩ <|
      .cons ⟨@InputStep.check _ 1 _ _ false _ rfl, not_mem_nil⟩ .nil
  exact ⟨_, run, rfl, rfl, xfrmInput_delivers_once (fresh 32) (by decide) (by decide) run⟩

/-- Two packets with the number 1 are checked before either is delivered. -/
theorem xfrmInput_delivers_twice :
    ∃ last, Run InputStep ⟨fresh 32, []⟩
      [.check 1 true false, .check 1 true false, .resume 1 true true 0, .resume 1 true true 0] [1, 1] last :=
  ⟨_, .cons check_fresh <| .cons check_fresh <| .cons (.resume (mem_cons_self ..)) <| .cons
    (.resume (mem_cons_self ..)) .nil⟩

end LinuxKernel.Net.Xfrm
