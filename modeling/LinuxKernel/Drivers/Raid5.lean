/-
Module: LinuxKernel.Drivers.Raid5
Purpose: The address mapping of `drivers/md/raid5.c` for RAID levels 4, 5 and 6, and its inverse with the
  check it makes at its end: a bijection that keeps data off the parity disks. The two `switch` statements
  over the layouts stay two separate case analyses.
Trusted boundary: human-reviewed spec
Main exports: raid5ComputeSector, computeBlocknr, raid5ComputeSector_bijective
-/
import Mathlib

namespace LinuxKernel.Drivers.Raid5

/-- `conf->level`. -/
inductive Level where
  | raid4 | raid5 | raid6
deriving DecidableEq, Repr

/-- The layouts of `drivers/md/raid5.h`; `ALGORITHM_PARITY_N_6` is `ALGORITHM_PARITY_N`. -/
inductive Algorithm where
  | leftAsymmetric | rightAsymmetric | leftSymmetric | rightSymmetric | parity0 | parityN
  | rotatingZeroRestart | rotatingNRestart | rotatingNContinue
  | leftAsymmetric6 | rightAsymmetric6 | leftSymmetric6 | rightSymmetric6 | parity0_6
deriving DecidableEq, Repr

/-- The number of a layout in the superblock. -/
def Algorithm.layout : Algorithm → Nat
  | .leftAsymmetric => 0
  | .rightAsymmetric => 1
  | .leftSymmetric => 2
  | .rightSymmetric => 3
  | .parity0 => 4
  | .parityN => 5
  | .rotatingZeroRestart => 8
  | .rotatingNRestart => 9
  | .rotatingNContinue => 10
  | .leftAsymmetric6 => 16
  | .rightAsymmetric6 => 17
  | .leftSymmetric6 => 18
  | .rightSymmetric6 => 19
  | .parity0_6 => 20

/-- `algorithm_valid_raid5(layout)`. -/
def algorithmValidRaid5 (layout : Nat) : Bool := layout ≤ 5

/-- `algorithm_valid_raid6(layout)`. -/
def algorithmValidRaid6 (layout : Nat) : Bool :=
  layout ≤ 5 || (8 ≤ layout && layout ≤ 10) || (16 ≤ layout && layout ≤ 20)

/-- The fields of `raid5_conf_t` the mapping reads; those with `prev` in their name are the geometry
before a reshape. -/
structure Raid5Conf where
  level : Level
  algorithm : Algorithm
  prevAlgo : Algorithm
  chunkSectors : Nat
  prevChunkSectors : Nat
  raidDisks : Nat
  previousRaidDisks : Nat
  maxDegraded : Nat
deriving DecidableEq, Repr

/-- The fields of `struct stripe_head` the mapping sets and reads; `disks` is set by
`init_stripe`. -/
structure StripeHead where
  sector : Nat
  pdIdx : Int
  qdIdx : Int
  ddfLayout : Bool
  disks : Nat
deriving DecidableEq, Repr

/-- `previous ? conf->prev_algo : conf->algorithm`. -/
def Raid5Conf.algo (conf : Raid5Conf) (previous : Bool) : Algorithm :=
  if previous then conf.prevAlgo else conf.algorithm

/-- `previous ? conf->prev_chunk_sectors : conf->chunk_sectors`. -/
def Raid5Conf.sectorsPerChunk (conf : Raid5Conf) (previous : Bool) : Nat :=
  if previous then conf.prevChunkSectors else conf.chunkSectors

/-- `previous ? conf->previous_raid_disks : conf->raid_disks`. -/
def Raid5Conf.disks (conf : Raid5Conf) (previous : Bool) : Nat :=
  if previous then conf.previousRaidDisks else conf.raidDisks

/-- What the `switch (conf->level)` of `raid5_compute_sector` computes. -/
structure Placement where
  ddIdx : Int
  pdIdx : Int
  qdIdx : Int
  ddfLayout : Bool
deriving DecidableEq, Repr

/-- The initial value `~0` of `pd_idx` and `qd_idx`. -/
def noDisk : Int := -1

/-- RAID5 with restart: the data of a stripe goes around the parity disk. -/
def placeRestart (pdIdx ddIdx qdIdx : Int) : Placement :=
  ⟨if ddIdx ≥ pdIdx then ddIdx + 1 else ddIdx, pdIdx, qdIdx, false⟩

/-- RAID6 with restart: `Q D D D P` or `D D P Q D`. -/
def placeRestart6 (raidDisks : Nat) (pdIdx ddIdx : Int) (ddfLayout : Bool) : Placement :=
  if pdIdx = raidDisks - 1 then ⟨ddIdx + 1, pdIdx, 0, ddfLayout⟩
  else ⟨if ddIdx ≥ pdIdx then ddIdx + 2 else ddIdx, pdIdx, pdIdx + 1, ddfLayout⟩

/-- `raid_disks - 1 - sector_div(stripe2, raid_disks)`. -/
def parityLeft (raidDisks stripe : Nat) : Int := raidDisks - 1 - (stripe % raidDisks : Nat)

/-- The `switch (conf->level)` of `raid5_compute_sector`; `none` is `BUG()`. The operands of `%` are
not negative, so the rounding of the division does not matter. -/
def placeData (level : Level) (algorithm : Algorithm) (raidDisks dataDisks stripe : Nat)
    (ddIdx : Int) : Option Placement :=
  match level with
  | .raid4 => some ⟨ddIdx, dataDisks, noDisk, false⟩
  | .raid5 =>
    match algorithm with
    | .leftAsymmetric =>
      some (placeRestart (dataDisks - (stripe % raidDisks : Nat)) ddIdx noDisk)
    | .rightAsymmetric => some (placeRestart (stripe % raidDisks : Nat) ddIdx noDisk)
    | .leftSymmetric =>
      let pdIdx : Int := dataDisks - (stripe % raidDisks : Nat)
      some ⟨(pdIdx + 1 + ddIdx) % raidDisks, pdIdx, noDisk, false⟩
    | .rightSymmetric =>
      let pdIdx : Int := (stripe % raidDisks : Nat)
      some ⟨(pdIdx + 1 + ddIdx) % raidDisks, pdIdx, noDisk, false⟩
    | .parity0 => some ⟨ddIdx + 1, 0, noDisk, false⟩
    | .parityN => some ⟨ddIdx, dataDisks, noDisk, false⟩
    | _ => none
  | .raid6 =>
    match algorithm with
    | .leftAsymmetric =>
      some (placeRestart6 raidDisks (parityLeft raidDisks stripe) ddIdx false)
    | .rightAsymmetric => some (placeRestart6 raidDisks (stripe % raidDisks : Nat) ddIdx false)
    | .leftSymmetric =>
      let pdIdx := parityLeft raidDisks stripe
      some ⟨(pdIdx + 2 + ddIdx) % raidDisks, pdIdx, (pdIdx + 1) % raidDisks, false⟩
    | .rightSymmetric =>
      let pdIdx : Int := (stripe % raidDisks : Nat)
      some ⟨(pdIdx + 2 + ddIdx) % raidDisks, pdIdx, (pdIdx + 1) % raidDisks, false⟩
    | .parity0 => some ⟨ddIdx + 2, 0, 1, false⟩
    | .parityN => some ⟨ddIdx, dataDisks, dataDisks + 1, false⟩
    | .rotatingZeroRestart =>
      some (placeRestart6 raidDisks (stripe % raidDisks : Nat) ddIdx true)
    | .rotatingNRestart =>
      some (placeRestart6 raidDisks (parityLeft raidDisks ((stripe + 1) % 2 ^ 64)) ddIdx true)
    | .rotatingNContinue =>
      let pdIdx := parityLeft raidDisks stripe
      some ⟨(pdIdx + 1 + ddIdx) % raidDisks, pdIdx, (pdIdx + raidDisks - 1) % raidDisks, true⟩
    | .leftAsymmetric6 =>
      some (placeRestart (dataDisks - (stripe % (raidDisks - 1) : Nat)) ddIdx (raidDisks - 1))
    | .rightAsymmetric6 =>
      some (placeRestart (stripe % (raidDisks - 1) : Nat) ddIdx (raidDisks - 1))
    | .leftSymmetric6 =>
      let pdIdx : Int := dataDisks - (stripe % (raidDisks - 1) : Nat)
      some ⟨(pdIdx + 1 + ddIdx) % (raidDisks - 1), pdIdx, raidDisks - 1, false⟩
    | .rightSymmetric6 =>
      let pdIdx : Int := (stripe % (raidDisks - 1) : Nat)
      some ⟨(pdIdx + 1 + ddIdx) % (raidDisks - 1), pdIdx, raidDisks - 1, false⟩
    | .parity0_6 => some ⟨ddIdx + 1, 0, raidDisks - 1, false⟩

/-- `raid5_compute_sector(conf, r_sector, previous, &dd_idx, sh)`: the disk, and the stripe with the
returned device sector. -/
def raid5ComputeSector (conf : Raid5Conf) (rSector : Nat) (previous : Bool) :
    Option (Int × StripeHead) := do
  let sectorsPerChunk := conf.sectorsPerChunk previous
  let raidDisks := conf.disks previous
  let dataDisks := raidDisks - conf.maxDegraded
  let chunkOffset := rSector % sectorsPerChunk
  let chunkNumber := rSector / sectorsPerChunk
  let stripe := chunkNumber / dataDisks
  let placed ← placeData conf.level (conf.algo previous) raidDisks dataDisks stripe
    (chunkNumber % dataDisks : Nat)
  return (placed.ddIdx,
    { sector := (stripe * sectorsPerChunk + chunkOffset) % 2 ^ 64
      pdIdx := placed.pdIdx
      qdIdx := placed.qdIdx
      ddfLayout := placed.ddfLayout
      disks := raidDisks })

/-! ### The inverse -/

/-- The index of a disk counted from behind the parity: `i < pd_idx` wraps around. -/
def unrotate (raidDisks : Int) (pdIdx parities i : Int) : Int :=
  (if i < pdIdx then i + raidDisks else i) - (pdIdx + parities)

/-- The `switch (conf->level)` of `compute_blocknr`, for a disk `i` that holds no parity; `none` is
`BUG()`. -/
def unplaceData (level : Level) (algorithm : Algorithm) (raidDisks dataDisks : Nat)
    (pdIdx i : Int) : Option Int :=
  match level with
  | .raid4 => some i
  | .raid5 =>
    match algorithm with
    | .leftAsymmetric | .rightAsymmetric => some (if i > pdIdx then i - 1 else i)
    | .leftSymmetric | .rightSymmetric => some (unrotate raidDisks pdIdx 1 i)
    | .parity0 => some (i - 1)
    | .parityN => some i
    | _ => none
  | .raid6 =>
    match algorithm with
    | .leftAsymmetric | .rightAsymmetric | .rotatingZeroRestart | .rotatingNRestart =>
      some (if pdIdx = raidDisks - 1 then i - 1 else if i > pdIdx then i - 2 else i)
    | .leftSymmetric | .rightSymmetric =>
      some (if pdIdx = raidDisks - 1 then i - 1 else unrotate raidDisks pdIdx 2 i)
    | .parity0 => some (i - 2)
    | .parityN => some i
    | .rotatingNContinue =>
      some (if pdIdx = 0 then i - 1 else unrotate raidDisks pdIdx 1 i)
    | .leftAsymmetric6 | .rightAsymmetric6 => some (if i > pdIdx then i - 1 else i)
    | .leftSymmetric6 | .rightSymmetric6 => some (unrotate (dataDisks + 1) pdIdx 1 i)
    | .parity0_6 => some (i - 1)

/-- How `compute_blocknr` ends. -/
inductive Blocknr where
  /-- `return 0` for a parity disk. -/
  | parity
  /-- `return 0` behind the message `compute_blocknr: map not correct`. -/
  | mapNotCorrect
  | sector (rSector : Nat)
deriving DecidableEq, Repr

/-- `compute_blocknr(sh, i, previous)`; `none` is `BUG()`. -/
def computeBlocknr (conf : Raid5Conf) (sh : StripeHead) (i : Int) (previous : Bool) :
    Option Blocknr := do
  let dataDisks := sh.disks - conf.maxDegraded
  let sectorsPerChunk := conf.sectorsPerChunk previous
  let chunkOffset := sh.sector % sectorsPerChunk
  let stripe := sh.sector / sectorsPerChunk
  if i = sh.pdIdx ∨ conf.level = .raid6 ∧ i = sh.qdIdx then return .parity
  let data ← unplaceData conf.level (conf.algo previous) sh.disks dataDisks sh.pdIdx i
  let chunkNumber := ((stripe * dataDisks + data) % 2 ^ 64).toNat
  let rSector := (chunkNumber * sectorsPerChunk + chunkOffset) % 2 ^ 64
  let (dummy1, sh2) ← raid5ComputeSector conf rSector previous
  if sh2.sector ≠ sh.sector ∨ dummy1 ≠ i ∨ sh2.pdIdx ≠ sh.pdIdx ∨ sh2.qdIdx ≠ sh.qdIdx then
    return .mapNotCorrect
  return .sector rSector

/-- Geometries `setup_conf` and the reshape checks let through: a layout of the level, a chunk that
is not empty, and the least number of disks (with one disk a RAID4 or RAID5 array has no sector at
all). -/
structure Raid5Conf.Admitted (conf : Raid5Conf) (previous : Bool) : Prop where
  algorithm5 : conf.level = .raid5 → algorithmValidRaid5 (conf.algo previous).layout = true
  algorithm6 : conf.level = .raid6 → algorithmValidRaid6 (conf.algo previous).layout = true
  chunk : 0 < conf.sectorsPerChunk previous
  disks6 : conf.level = .raid6 → 4 ≤ conf.disks previous
  disks : 2 ≤ conf.disks previous
  maxDegraded : conf.maxDegraded = if conf.level = .raid6 then 2 else 1

open Nat Option Int

/-! ### One stripe -/

/-- A remainder of a number that wraps at most once. -/
theorem emod_wrap {x n : Int} (nonneg : 0 ≤ x) (bound : x < 2 * n) : x % n = if x < n then x else x - n := by
  split_ifs with below
  · exact emod_eq_of_lt nonneg below
  · rw [← sub_emod_right]
    exact emod_eq_of_lt (by omega) (by omega)

/-- Data and parity are on different disks of the array, and the inverse finds the index of the data
again. -/
structure PlacedWell (level : Level) (algorithm : Algorithm) (raidDisks dataDisks : Nat)
    (index : Int) (placed : Placement) : Prop where
  data : 0 ≤ placed.ddIdx ∧ placed.ddIdx < raidDisks
  parity : 0 ≤ placed.pdIdx ∧ placed.pdIdx < raidDisks
  second : level = .raid6 → 0 ≤ placed.qdIdx
  second_lt : placed.qdIdx < raidDisks
  data_ne_parity : placed.ddIdx ≠ placed.pdIdx
  data_ne_second : placed.ddIdx ≠ placed.qdIdx
  parity_ne_second : placed.pdIdx ≠ placed.qdIdx
  unplaced : unplaceData level algorithm raidDisks dataDisks placed.pdIdx placed.ddIdx = some index

section Stripe

variable {raidDisks dataDisks : Nat} {index pdIdx qdIdx : Int} {level : Level} {algorithm : Algorithm}
  {ddfLayout : Bool}

section

variable (nonneg : 0 ≤ index) (small : index < dataDisks)

include nonneg small

theorem placeRestart6_sound (parity : 0 ≤ pdIdx ∧ pdIdx < raidDisks) (disks : dataDisks + 2 = raidDisks)
    (inverse : ∀ i, unplaceData .raid6 algorithm raidDisks dataDisks pdIdx i =
      some (if pdIdx = raidDisks - 1 then i - 1 else if i > pdIdx then i - 2 else i)) :
    PlacedWell .raid6 algorithm raidDisks dataDisks index
      (placeRestart6 raidDisks pdIdx index ddfLayout) := by
  unfold placeRestart6
  by_cases last : pdIdx = raidDisks - 1
  · rw [if_pos last]
    refine ⟨?_, parity, fun _ => Int.le_refl 0, ?_, ?_, ?_,
      ?_, by rw [inverse, if_pos last, Int.add_sub_cancel]⟩
    all_goals
      dsimp only
      omega
  · rw [if_neg last]
    refine ⟨?_, parity, fun _ => ?_, ?_, ?_, ?_, ?_, (inverse _).trans (congrArg some ?_)⟩
    all_goals
      dsimp only
      omega

variable (second : level = .raid6 → 0 ≤ qdIdx) (second_lt : qdIdx < raidDisks) (disks : dataDisks < raidDisks)
  (apart : qdIdx < 0 ∨ dataDisks < qdIdx)

include second second_lt disks apart

theorem placeRestart_sound (parity : 0 ≤ pdIdx ∧ pdIdx ≤ dataDisks)
    (inverse : ∀ i, unplaceData level algorithm raidDisks dataDisks pdIdx i =
      some (if i > pdIdx then i - 1 else i)) :
    PlacedWell level algorithm raidDisks dataDisks index (placeRestart pdIdx index qdIdx) := by
  unfold placeRestart
  refine ⟨?_, ?_, second, second_lt, ?_, ?_, ?_, (inverse _).trans (congrArg some ?_)⟩
  all_goals
    dsimp only
    omega

/-- Parity behind the data, which stays where it is. -/
theorem placeBehind_sound (inverse : ∀ i,
    unplaceData level algorithm raidDisks dataDisks dataDisks i = some i) :
    PlacedWell level algorithm raidDisks dataDisks index ⟨index, dataDisks, qdIdx, ddfLayout⟩ := by
  refine ⟨?_, ?_, second, second_lt, ?_, ?_, ?_, inverse index⟩
  all_goals
    dsimp only
    omega

end

section

variable (second : level = .raid6 → 0 ≤ qdIdx) (second_lt : qdIdx < raidDisks)
  (parity_ne_second : pdIdx ≠ qdIdx)

include second second_lt parity_ne_second

/-- Data behind the parity, wrapping around `modulus` disks. -/
theorem placeContinue_sound {modulus : Nat} (parities : Nat) (nonneg : 0 ≤ index)
    (small : index + parities < modulus)
    (parity : 0 ≤ pdIdx ∧ pdIdx < modulus) (one : 1 ≤ parities) (disks : modulus ≤ raidDisks)
    (apart : qdIdx < 0 ∨ modulus ≤ qdIdx ∨ (pdIdx + parities + index) % modulus ≠ qdIdx)
    (inverse : ∀ i : Int, 0 ≤ i → i < modulus → i ≠ pdIdx → i ≠ qdIdx →
      unplaceData level algorithm raidDisks dataDisks pdIdx i = some (unrotate modulus pdIdx parities i)) :
    PlacedWell level algorithm raidDisks dataDisks index
      ⟨(pdIdx + parities + index) % modulus, pdIdx, qdIdx, ddfLayout⟩ := by
  have wrapped : (pdIdx + parities + index) % modulus =
      if pdIdx + parities + index < modulus then pdIdx + parities + index
      else pdIdx + parities + index - modulus := emod_wrap (by omega) (by omega)
  have different : (pdIdx + parities + index) % modulus ≠ pdIdx := by omega
  have data_ne_second : (pdIdx + parities + index) % modulus ≠ qdIdx := by omega
  refine ⟨?_, ?_, second, second_lt, different, data_ne_second, parity_ne_second,
    (inverse _ (by omega) (by omega) different data_ne_second).trans (congrArg some ?_)⟩
  · dsimp only
    omega
  · dsimp only
    omega
  · unfold unrotate
    omega

/-- Parity that does not move: the data starts behind the first `skip` disks. -/
theorem placeFixed_sound {skip : Int} (data : 0 ≤ index + skip ∧ index + skip < raidDisks)
    (parity : 0 ≤ pdIdx ∧ pdIdx < raidDisks) (data_ne_parity : index + skip ≠ pdIdx)
    (data_ne_second : index + skip ≠ qdIdx)
    (inverse : ∀ i, unplaceData level algorithm raidDisks dataDisks pdIdx i = some (i - skip)) :
    PlacedWell level algorithm raidDisks dataDisks index ⟨index + skip, pdIdx, qdIdx, ddfLayout⟩ :=
  ⟨data, parity, second, second_lt, data_ne_parity, data_ne_second, parity_ne_second, by
    rw [inverse]
    exact congrArg some (Int.add_sub_cancel index skip)⟩

end

/-- Every layout of a level places every chunk of a stripe well. -/
theorem placeData_sound (stripe : Nat) (valid5 : level = .raid5 → algorithmValidRaid5 algorithm.layout = true)
    (disks : raidDisks = dataDisks + if level = .raid6 then 2 else 1)
    (enough : level = .raid6 → 2 ≤ dataDisks) (nonneg : 0 ≤ index) (small : index < dataDisks) :
    ∃ placed, placeData level algorithm raidDisks dataDisks stripe index = some placed ∧
      PlacedWell level algorithm raidDisks dataDisks index placed := by
  have rotates : ∀ modulus : Nat, 0 < modulus → stripe % modulus < modulus := fun modulus =>
    mod_lt stripe
  have noQ : noDisk < 0 := by decide
  cases level with
  | raid4 =>
    rw [if_neg nofun] at disks
    exact ⟨_, rfl, placeBehind_sound nonneg small nofun (by omega) (by omega) (.inl noQ) fun _ => rfl⟩
  | raid5 =>
    rw [if_neg nofun] at disks
    have rotation := rotates raidDisks (by omega)
    cases algorithm with
    | leftAsymmetric | rightAsymmetric =>
      exact ⟨_, rfl, placeRestart_sound nonneg small nofun (by omega) (by omega) (.inl noQ)
        (by omega) fun _ => rfl⟩
    | leftSymmetric | rightSymmetric =>
      exact ⟨_, rfl, placeContinue_sound (by nofun) (by omega) (by omega) 1 nonneg (by omega)
        (by omega) (by omega)
        (by omega) (.inl noQ) fun _ _ _ _ _ => rfl⟩
    | parity0 =>
      exact ⟨_, rfl, placeFixed_sound (by nofun) (by omega) (by omega) (by omega) (by omega)
        (by omega) (by omega)
        fun _ => rfl⟩
    | parityN =>
      exact ⟨_, rfl, placeBehind_sound nonneg small nofun (by omega) (by omega) (.inl noQ) fun _ => rfl⟩
    | _ => exact absurd (valid5 rfl) (by decide)
  | raid6 =>
    rw [if_pos rfl] at disks
    have left : ∀ number : Nat, 0 ≤ parityLeft raidDisks number ∧
        parityLeft raidDisks number < raidDisks := by
      intro number
      have := mod_lt number (show 0 < raidDisks by omega)
      unfold parityLeft
      omega
    have right := rotates raidDisks (by omega)
    have inner := rotates (raidDisks - 1) (by omega)
    -- parity and Q next to it, the data behind them
    have continues : ∀ (algorithm : Algorithm) (pdIdx : Int), 0 ≤ pdIdx → pdIdx < raidDisks →
        (∀ i, unplaceData .raid6 algorithm raidDisks dataDisks pdIdx i =
          some (if pdIdx = raidDisks - 1 then i - 1 else unrotate raidDisks pdIdx 2 i)) →
        PlacedWell .raid6 algorithm raidDisks dataDisks index
          ⟨(pdIdx + 2 + index) % raidDisks, pdIdx, (pdIdx + 1) % raidDisks, false⟩ := by
      intro algorithm pdIdx low high inverse
      have q := emod_wrap (x := pdIdx + 1) (n := raidDisks) (by omega) (by omega)
      have d := emod_wrap (x := pdIdx + 2 + index) (n := raidDisks) (by omega) (by omega)
      refine placeContinue_sound (by omega) (by omega) (by omega) 2 nonneg (by omega) ⟨low, high⟩
        (by omega) (by omega)
        (.inr (.inr (show (pdIdx + 2 + index) % raidDisks ≠ _ by omega)))
        fun i nonnegI smallI notP notQ => (inverse i).trans (congrArg some ?_)
      unfold unrotate
      omega
    -- RAID5 with continuation on all disks but the last, which holds Q
    have continues6 : ∀ (algorithm : Algorithm) (pdIdx : Int), 0 ≤ pdIdx → pdIdx ≤ dataDisks →
        (∀ i, unplaceData .raid6 algorithm raidDisks dataDisks pdIdx i =
          some (unrotate (dataDisks + 1 : Nat) pdIdx 1 i)) →
        PlacedWell .raid6 algorithm raidDisks dataDisks index
          ⟨(pdIdx + 1 + index) % (raidDisks - 1), pdIdx, raidDisks - 1, false⟩ := by
      intro algorithm pdIdx low high inverse
      rw [show (raidDisks : Int) - 1 = (dataDisks + 1 : Nat) by omega]
      exact placeContinue_sound (by omega) (by omega) (by omega) 1 nonneg (by omega) (by omega)
        (by omega) (by omega)
        (.inr (.inl (Int.le_refl _))) fun i _ _ _ _ => inverse i
    cases algorithm with
    | leftAsymmetric | rotatingNRestart =>
      exact ⟨_, rfl, placeRestart6_sound nonneg small (left _) disks.symm fun _ => rfl⟩
    | rightAsymmetric | rotatingZeroRestart =>
      exact ⟨_, rfl, placeRestart6_sound nonneg small (by omega) disks.symm fun _ => rfl⟩
    | leftSymmetric =>
      exact ⟨_, rfl, continues _ _ (left stripe).1 (left stripe).2 (fun _ => rfl)⟩
    | rightSymmetric =>
      exact ⟨_, rfl, continues _ _ (by omega) (by omega) (fun _ => rfl)⟩
    | parity0 | parity0_6 =>
      exact ⟨_, rfl, placeFixed_sound (by omega) (by omega) (by omega) (by omega) (by omega)
        (by omega) (by omega) (fun _ => rfl)⟩
    | parityN =>
      exact ⟨_, rfl, placeBehind_sound nonneg small (by omega) (by omega) (by omega) (by omega) fun _ => rfl⟩
    | rotatingNContinue =>
      obtain ⟨low, high⟩ := left stripe
      refine ⟨_, rfl, ?_⟩
      generalize parityLeft raidDisks stripe = pdIdx at low high
      have q := emod_wrap (x := pdIdx + raidDisks - 1) (n := raidDisks) (by omega) (by omega)
      have d := emod_wrap (x := pdIdx + 1 + index) (n := raidDisks) (by omega) (by omega)
      refine placeContinue_sound (by omega) (by omega) (by omega) 1 nonneg (by omega) ⟨low, high⟩
        (by omega) (by omega)
        (.inr (.inr (show (pdIdx + 1 + index) % raidDisks ≠ _ by omega)))
        fun i nonnegI smallI notP notQ => congrArg some ?_
      unfold unrotate
      omega
    | leftAsymmetric6 | rightAsymmetric6 =>
      exact ⟨_, rfl, placeRestart_sound nonneg small (by omega) (by omega) (by omega) (by omega)
        (by omega) fun _ => rfl⟩
    | leftSymmetric6 | rightSymmetric6 =>
      exact ⟨_, rfl, continues6 _ _ (by omega) (by omega) (fun _ => rfl)⟩

/-- The parity disks of a stripe do not depend on the chunk. -/
theorem placeData_parity (level : Level) (algorithm : Algorithm) (stripe : Nat) (i j : Int) :
    (placeData level algorithm raidDisks dataDisks stripe i).map ({ · with ddIdx := 0 }) =
      (placeData level algorithm raidDisks dataDisks stripe j).map ({ · with ddIdx := 0 }) := by
  cases level with
  | raid4 => rfl
  | raid5 => cases algorithm <;> rfl
  | raid6 =>
    cases algorithm with
    | leftAsymmetric | rightAsymmetric | rotatingZeroRestart | rotatingNRestart =>
      simp only [placeData, placeRestart6, map_some]
      split_ifs
      all_goals rfl
    | _ => rfl

end Stripe

/-! ### Sectors -/

section Sectors

variable {conf : Raid5Conf} {previous : Bool} {r : Nat}

/-- The disks that hold data in a stripe. -/
def Raid5Conf.dataDisks (conf : Raid5Conf) (previous : Bool) : Nat :=
  conf.disks previous - conf.maxDegraded

/-- The stripe of an array sector. -/
def Raid5Conf.stripeOf (conf : Raid5Conf) (previous : Bool) (r : Nat) : Nat :=
  r / conf.sectorsPerChunk previous / conf.dataDisks previous

/-- The index of its chunk among the chunks of the stripe. -/
def Raid5Conf.indexOf (conf : Raid5Conf) (previous : Bool) (r : Nat) : Nat :=
  r / conf.sectorsPerChunk previous % conf.dataDisks previous

/-- Its sector on the disk. -/
def Raid5Conf.deviceSector (conf : Raid5Conf) (previous : Bool) (r : Nat) : Nat :=
  conf.stripeOf previous r * conf.sectorsPerChunk previous + r % conf.sectorsPerChunk previous

theorem dataDisks_add (admitted : conf.Admitted previous) :
    conf.disks previous = conf.dataDisks previous + if conf.level = .raid6 then 2 else 1 := by
  have atLeast := admitted.disks
  have degraded := admitted.maxDegraded
  unfold Raid5Conf.dataDisks
  split_ifs at degraded ⊢ with six
  · omega
  · omega

theorem dataDisks_pos (admitted : conf.Admitted previous) : 0 < conf.dataDisks previous := by
  have total := dataDisks_add admitted
  have atLeast := admitted.disks
  split_ifs at total with six
  · have := admitted.disks6 six
    omega
  · omega

theorem deviceSector_le (r : Nat) : conf.deviceSector previous r ≤ r := by
  have fewer : conf.stripeOf previous r * conf.sectorsPerChunk previous ≤
      r / conf.sectorsPerChunk previous * conf.sectorsPerChunk previous :=
    mul_le_mul_right _ (div_le_self _ _)
  have whole := div_add_mod' r (conf.sectorsPerChunk previous)
  unfold Raid5Conf.deviceSector
  omega

theorem deviceSector_div (admitted : conf.Admitted previous) (r : Nat) :
    conf.deviceSector previous r / conf.sectorsPerChunk previous = conf.stripeOf previous r := by
  unfold Raid5Conf.deviceSector
  rw [Nat.mul_comm, Nat.mul_add_div admitted.chunk,
    Nat.div_eq_of_lt (Nat.mod_lt _ admitted.chunk), Nat.add_zero]

theorem deviceSector_mod (r : Nat) : conf.deviceSector previous r % conf.sectorsPerChunk previous =
      r % conf.sectorsPerChunk previous := by
  unfold Raid5Conf.deviceSector
  rw [Nat.mul_comm, Nat.mul_add_mod, Nat.mod_mod]

/-- Stripe, index and offset make up the sector again. -/
theorem sector_reassembled (r : Nat) :
    (conf.stripeOf previous r * conf.dataDisks previous + conf.indexOf previous r) *
      conf.sectorsPerChunk previous + r % conf.sectorsPerChunk previous = r := by
  unfold Raid5Conf.stripeOf Raid5Conf.indexOf
  rw [div_add_mod', div_add_mod']

/-- Where an array sector goes in an admitted geometry. -/
theorem raid5ComputeSector_spec (admitted : conf.Admitted previous) (small : r < 2 ^ 64) : ∃ placed,
      placeData conf.level (conf.algo previous) (conf.disks previous) (conf.dataDisks previous)
        (conf.stripeOf previous r) (conf.indexOf previous r) = some placed ∧
      PlacedWell conf.level (conf.algo previous) (conf.disks previous) (conf.dataDisks previous)
        (conf.indexOf previous r) placed ∧
      raid5ComputeSector conf r previous = some (placed.ddIdx,
        ⟨conf.deviceSector previous r, placed.pdIdx, placed.qdIdx, placed.ddfLayout,
          conf.disks previous⟩) := by
  have index : conf.indexOf previous r < conf.dataDisks previous :=
    mod_lt _ (dataDisks_pos admitted)
  obtain ⟨placed, found, well⟩ := placeData_sound (conf.stripeOf previous r) admitted.algorithm5
    (dataDisks_add admitted)
    (fun six => by
      have total := dataDisks_add admitted
      have := admitted.disks6 six
      rw [if_pos six] at total
      omega)
    (natCast_nonneg (conf.indexOf previous r)) (Int.ofNat_lt.mpr index)
  refine ⟨placed, found, well, ?_⟩
  have fits : conf.deviceSector previous r % 2 ^ 64 = conf.deviceSector previous r :=
    Nat.mod_eq_of_lt (Nat.lt_of_le_of_lt (deviceSector_le r) small)
  have computed : raid5ComputeSector conf r previous =
      (placeData conf.level (conf.algo previous) (conf.disks previous) (conf.dataDisks previous)
        (conf.stripeOf previous r) (conf.indexOf previous r)).bind fun placed =>
          some (placed.ddIdx, ⟨conf.deviceSector previous r % 2 ^ 64, placed.pdIdx, placed.qdIdx,
            placed.ddfLayout, conf.disks previous⟩) := rfl
  rw [computed, found, fits]
  rfl

/-- The inverse takes the disk and the stripe of an array sector back to it; the check at its end
passes. -/
theorem computeBlocknr_computeSector (admitted : conf.Admitted previous) (small : r < 2 ^ 64)
    {ddIdx : Int} {sh : StripeHead}
    (computed : raid5ComputeSector conf r previous = some (ddIdx, sh)) :
    computeBlocknr conf sh ddIdx previous = some (.sector r) := by
  obtain ⟨placed, found, well, spec⟩ := raid5ComputeSector_spec admitted small
  have same := spec.symm.trans computed
  cases same
  have data : ¬ (placed.ddIdx = placed.pdIdx ∨ conf.level = .raid6 ∧ placed.ddIdx = placed.qdIdx) := by
    rintro (parity | ⟨-, second⟩)
    · exact well.data_ne_parity parity
    · exact well.data_ne_second second
  have whole := @sector_reassembled conf previous r
  have chunk : (((conf.stripeOf previous r : Int) * (conf.dataDisks previous : Int) +
      (conf.indexOf previous r : Int)) % 2 ^ 64).toNat =
        conf.stripeOf previous r * conf.dataDisks previous + conf.indexOf previous r := by
    have bound : conf.stripeOf previous r * conf.dataDisks previous + conf.indexOf previous r ≤ r := by
      calc conf.stripeOf previous r * conf.dataDisks previous + conf.indexOf previous r
          ≤ (conf.stripeOf previous r * conf.dataDisks previous + conf.indexOf previous r) *
              conf.sectorsPerChunk previous := Nat.le_mul_of_pos_right _ admitted.chunk
        _ ≤ r := by omega
    rw [← natCast_mul, ← natCast_add, emod_eq_of_lt (natCast_nonneg _) (by omega), toNat_natCast]
  unfold computeBlocknr
  rw [if_neg data, deviceSector_div admitted, deviceSector_mod]
  have unplaced := well.unplaced
  have disks : conf.disks previous - conf.maxDegraded = conf.dataDisks previous := rfl
  simp only [disks, unplaced, bind, Option.bind, chunk, whole, mod_eq_of_lt small, spec]
  rw [if_neg (by simp)]
  rfl

end Sectors

/-- The mapping of RAID levels 4, 5 and 6 is a bijection: for every admitted geometry (level, layout,
chunk size, number of disks, before or after a reshape) and every array sector, data and parity are
on different disks of the array, `compute_blocknr` maps the disk and the stripe back to the sector,
and distinct array sectors go to distinct pairs of disk and device sector. -/
theorem raid5ComputeSector_bijective (conf : Raid5Conf) (previous : Bool)
    (admitted : conf.Admitted previous) :
    (∀ r < 2 ^ 64, ∃ ddIdx sh, raid5ComputeSector conf r previous = some (ddIdx, sh) ∧
      (0 ≤ ddIdx ∧ ddIdx < conf.disks previous) ∧
      (0 ≤ sh.pdIdx ∧ sh.pdIdx < conf.disks previous) ∧
      ((conf.level = .raid6 → 0 ≤ sh.qdIdx) ∧ sh.qdIdx < conf.disks previous) ∧
      ddIdx ≠ sh.pdIdx ∧ ddIdx ≠ sh.qdIdx ∧
      computeBlocknr conf sh ddIdx previous = some (.sector r)) ∧
    (∀ r < 2 ^ 64, ∀ r' < 2 ^ 64, ∀ ddIdx sh sh',
      raid5ComputeSector conf r previous = some (ddIdx, sh) →
      raid5ComputeSector conf r' previous = some (ddIdx, sh') → sh.sector = sh'.sector →
      r = r') := by
  constructor
  · intro r small
    obtain ⟨placed, -, well, spec⟩ := raid5ComputeSector_spec admitted small
    exact ⟨_, _, spec, well.data, well.parity, ⟨well.second, well.second_lt⟩,
      well.data_ne_parity, well.data_ne_second, computeBlocknr_computeSector admitted small spec⟩
  · intro r small r' small' ddIdx sh sh' computed computed' sameSector
    have back := computeBlocknr_computeSector admitted small computed
    have back' := computeBlocknr_computeSector admitted small' computed'
    obtain ⟨⟨_, _, _, _⟩, found, -, spec⟩ := raid5ComputeSector_spec admitted small
    obtain ⟨⟨_, _, _, _⟩, found', -, spec'⟩ := raid5ComputeSector_spec admitted small'
    cases spec.symm.trans computed
    cases spec'.symm.trans computed'
    dsimp only at sameSector back back'
    -- the device sector gives the stripe, and the stripe everything but the data disk
    have stripe : conf.stripeOf previous r = conf.stripeOf previous r' := by
      rw [← deviceSector_div admitted, sameSector, deviceSector_div admitted]
    have independent := @placeData_parity (conf.disks previous) (conf.dataDisks previous)
      conf.level (conf.algo previous) (conf.stripeOf previous r) (conf.indexOf previous r)
      (conf.indexOf previous r')
    rw [found, stripe, found'] at independent
    cases independent
    rw [sameSector, back'] at back
    exact (Blocknr.sector.inj (some.inj back)).symm

/-- A RAID6 array of five disks, left symmetric, with chunks of 128 sectors. -/
def sampleConf : Raid5Conf where
  level := .raid6
  algorithm := .leftSymmetric
  prevAlgo := .leftSymmetric
  chunkSectors := 128
  prevChunkSectors := 128
  raidDisks := 5
  previousRaidDisks := 5
  maxDegraded := 2

theorem raid5ComputeSector_bijective_sample :
    sampleConf.Admitted false ∧ ∃ ddIdx sh,
      raid5ComputeSector sampleConf 1000 false = some (ddIdx, sh) ∧
        computeBlocknr sampleConf sh ddIdx false = some (.sector 1000) := by
  have admitted : sampleConf.Admitted false :=
    ⟨nofun, fun _ => by decide, by decide, fun _ => by decide, by decide, by decide⟩
  obtain ⟨ddIdx, sh, computed, -, -, -, -, -, back⟩ :=
    (raid5ComputeSector_bijective sampleConf false admitted).1 1000 (by decide)
  exact ⟨admitted, ddIdx, sh, computed, back⟩

end LinuxKernel.Drivers.Raid5
