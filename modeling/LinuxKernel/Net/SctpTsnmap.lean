/-
Module: LinuxKernel.Net.SctpTsnmap
Purpose: The SCTP map of received transmission sequence numbers, `net/sctp/tsnmap.c`. What it is for is the
  set of all numbers received or skipped since the association began, as positions from the initial one, so
  that they do not wrap; `Tracks` reads a map back as that set. Growth copies whole words up to
  `max_tsn_seen - base_tsn` and so may leave the last bit behind.
Trusted boundary: human-reviewed spec
Main exports: SctpTsnmap, TsnStep, TsnSetStep, Tracks, tsnmapRun_refines
-/
import LinuxKernel.Library.BoundedTable
import LinuxKernel.Library.Runs

namespace LinuxKernel.Net.Sctp

open Library (findNext)

/-- `BITS_PER_LONG`. -/
def bitsPerLong : Nat := 64

/-- `SCTP_TSN_MAP_INITIAL`. -/
def sctpTsnMapInitial : Nat := bitsPerLong

/-- `SCTP_TSN_MAP_INCREMENT`. -/
def sctpTsnMapIncrement : Nat := sctpTsnMapInitial

/-- `SCTP_TSN_MAP_SIZE`. -/
def sctpTsnMapSize : Nat := 4096

/-- `SCTP_MAX_GABS`. -/
def sctpMaxGabs : Nat := 16

/-- `TSN_lt(s, t)`. -/
def tsnLt (s t : BitVec 32) : Bool := (s - t).msb

/-- `TSN_lte(s, t)`. -/
def tsnLte (s t : BitVec 32) : Bool := s = t || (s - t).msb

/-- Conversion to `__u16`. -/
def toU16 (value : BitVec 32) : Nat := value.toNat % 2 ^ 16

/-- `struct sctp_tsnmap`; `tsnMap i` is bit `i` of the array, which has `len` bits. -/
structure SctpTsnmap where
  tsnMap : Nat → Bool
  baseTsn : BitVec 32
  cumulativeTsnAckPoint : BitVec 32
  maxTsnSeen : BitVec 32
  len : Nat

/-- `sctp_tsnmap_init` with `len` bits. -/
def sctpTsnmapInit (len : Nat) (initialTsn : BitVec 32) : SctpTsnmap where
  tsnMap := fun _ => false
  baseTsn := initialTsn
  cumulativeTsnAckPoint := initialTsn - 1
  maxTsnSeen := initialTsn - 1
  len := len

variable (map : SctpTsnmap)

/-- `sctp_tsnmap_has_gap(map)`. -/
def sctpTsnmapHasGap : Bool := map.cumulativeTsnAckPoint ≠ map.maxTsnSeen

/-- `sctp_tsnmap_check(map, tsn)`: 0 not seen, positive seen, negative too large to track. -/
def sctpTsnmapCheck (tsn : BitVec 32) : Int :=
  if tsnLte tsn map.cumulativeTsnAckPoint then 1
  else if !tsnLt tsn (map.baseTsn + BitVec.ofNat 32 sctpTsnMapSize) then -1
  else
    let gap := (tsn - map.baseTsn).toNat
    if gap < map.len && map.tsnMap gap then 1 else 0

/-- `bitmap_shift_right(map, map, shift, bits)`. -/
def bitmapShiftRight (map : Nat → Bool) (shift bits : Nat) : Nat → Bool :=
  fun i => i + shift < bits && map (i + shift)

/-- `BITS_TO_LONGS(nbits)` for an `int`, computed in `unsigned long`. -/
def bitsToLongs (nbits : BitVec 32) : Nat := (nbits.signExtend 64 + 64 - 1).toNat / bitsPerLong

/-- `bitmap_copy` of `nbits` bits onto a cleared array: whole words are copied. -/
def bitmapCopy (map : Nat → Bool) (nbits : BitVec 32) : Nat → Bool :=
  fun i => i < bitsToLongs nbits * bitsPerLong && map i

/-- `ALIGN(value, BITS_PER_LONG)`. -/
def alignLong (value : Nat) : Nat := (value + bitsPerLong - 1) / bitsPerLong * bitsPerLong

/-- `sctp_tsnmap_grow(map, gap)`; `allocated` is the success of `kzalloc`, `none` is the result 0.
-/
def sctpTsnmapGrow (gap : Nat) (allocated : Bool) : Option SctpTsnmap :=
  if gap ≥ sctpTsnMapSize then none
  else
    let inc := alignLong (gap - map.len) + sctpTsnMapIncrement
    let len := min ((map.len + inc) % 2 ^ 16) sctpTsnMapSize
    if allocated then
      some { map with
        tsnMap := bitmapCopy map.tsnMap (map.maxTsnSeen - map.baseTsn)
        len := len }
    else none

/-- `sctp_tsnmap_update(map)`. -/
def sctpTsnmapUpdate : SctpTsnmap :=
  let len := toU16 (map.maxTsnSeen - map.cumulativeTsnAckPoint)
  let zeroBit := findNext (fun i => !map.tsnMap i) len 0
  if zeroBit = 0 then map
  else
    { map with
      baseTsn := map.baseTsn + BitVec.ofNat 32 zeroBit
      cumulativeTsnAckPoint := map.cumulativeTsnAckPoint + BitVec.ofNat 32 zeroBit
      tsnMap := bitmapShiftRight map.tsnMap zeroBit map.len }

/-- `-ENOMEM`. -/
def enomem : Int := -12

/-- `sctp_tsnmap_mark` once the map is long enough. -/
def recordTsn (tsn : BitVec 32) (gap : Nat) : SctpTsnmap :=
  if !sctpTsnmapHasGap map && gap = 0 then
    { map with
      maxTsnSeen := map.maxTsnSeen + 1
      cumulativeTsnAckPoint := map.cumulativeTsnAckPoint + 1
      baseTsn := map.baseTsn + 1 }
  else
    sctpTsnmapUpdate
      { map with
        maxTsnSeen := if tsnLt map.maxTsnSeen tsn then tsn else map.maxTsnSeen
        tsnMap := fun i => i = gap || map.tsnMap i }

/-- `sctp_tsnmap_mark(map, tsn)`. -/
def sctpTsnmapMark (tsn : BitVec 32) (allocated : Bool) : Int × SctpTsnmap :=
  if tsnLt tsn map.baseTsn then (0, map)
  else
    let gap := toU16 (tsn - map.baseTsn)
    if gap ≥ map.len then
      match sctpTsnmapGrow map gap allocated with
      | some map => (0, recordTsn map tsn gap)
      | none => (enomem, map)
    else (0, recordTsn map tsn gap)

/-- `sctp_tsnmap_skip(map, tsn)`. -/
def sctpTsnmapSkip (tsn : BitVec 32) : SctpTsnmap :=
  if tsnLt tsn map.baseTsn then map
  else if !tsnLt tsn (map.baseTsn + BitVec.ofNat 32 sctpTsnMapSize) then map
  else
    let maxTsnSeen := if tsnLt map.maxTsnSeen tsn then tsn else map.maxTsnSeen
    let gap := tsn - map.baseTsn + 1
    let moved : SctpTsnmap :=
      { map with
        maxTsnSeen := maxTsnSeen
        baseTsn := map.baseTsn + gap
        cumulativeTsnAckPoint := map.cumulativeTsnAckPoint + gap }
    if gap.toNat ≥ map.len then { moved with tsnMap := fun _ => false }
    else
      sctpTsnmapUpdate
        { moved with tsnMap := bitmapShiftRight map.tsnMap gap.toNat map.len }

/-- `sctp_tsnmap_renege(map, tsn)`. -/
def sctpTsnmapRenege (tsn : BitVec 32) : SctpTsnmap :=
  if tsnLt tsn map.baseTsn then map
  else if !tsnLt tsn (map.baseTsn + BitVec.ofNat 32 map.len) then map
  else
    let gap := (tsn - map.baseTsn).toNat
    { map with tsnMap := fun i => i ≠ gap && map.tsnMap i }

/-! ### Gap ack blocks -/

/-- `sctp_tsnmap_find_gap_ack(map, off, len, &start, &end)` with both results 0 before. -/
def sctpTsnmapFindGapAck (map : Nat → Bool) (off len : Nat) : Nat × Nat :=
  let i := findNext map len off
  let start := if i < len then i else 0
  if start ≠ 0 then
    let j := findNext (fun k => !map k) len i
    (start, if j < len then j - 1 else 0)
  else (start, 0)

/-- `sctp_tsnmap_next_gap_ack(map, iter, &start, &end)`: the block and the new `iter->start`. -/
def sctpTsnmapNextGapAck (iterStart : BitVec 32) : Option ((Nat × Nat) × BitVec 32) :=
  if tsnLte map.maxTsnSeen iterStart then none
  else
    let offset := toU16 (iterStart - map.baseTsn)
    let (start, stop) := sctpTsnmapFindGapAck map.tsnMap offset map.len
    -- the block ends at the end of the map
    let stop := if start ≠ 0 ∧ stop = 0 then map.len - 1 else stop
    if stop ≠ 0 then
      some ((start + 1, stop + 1), map.cumulativeTsnAckPoint + BitVec.ofNat 32 (stop + 1) + 1)
    else none

/-- The loop of `sctp_tsnmap_num_gabs`, for at most `most` blocks. -/
def gabsFrom : Nat → BitVec 32 → List (Nat × Nat)
  | 0, _ => []
  | most + 1, iterStart =>
    match sctpTsnmapNextGapAck map iterStart with
    | some (block, next) => block :: gabsFrom most next
    | none => []

/-- `sctp_tsnmap_num_gabs(map, gabs)`: the blocks written to `gabs`, as offsets from the cumulative
ack point. -/
def sctpTsnmapNumGabs : List (Nat × Nat) :=
  if sctpTsnmapHasGap map then gabsFrom map sctpMaxGabs (map.cumulativeTsnAckPoint + 1) else []

/-! ### Runs -/

/-- The calls on a map; a mark also says whether an allocation would succeed. -/
inductive TsnAction where
  | mark (tsn : BitVec 32) (allocated : Bool)
  | skip (tsn : BitVec 32)
  | renege (tsn : BitVec 32)
deriving DecidableEq, Repr

/-- One call, with the value `sctp_tsnmap_mark` returns; only numbers the check found new are
marked. -/
inductive TsnStep : SctpTsnmap → TsnAction → List Int → SctpTsnmap → Prop where
  | mark {map map' : SctpTsnmap} {tsn : BitVec 32} {allocated : Bool} {ret : Int}
      (new : sctpTsnmapCheck map tsn = 0)
      (marked : sctpTsnmapMark map tsn allocated = (ret, map')) :
      TsnStep map (.mark tsn allocated) [ret] map'
  | skip (map : SctpTsnmap) (tsn : BitVec 32) :
      TsnStep map (.skip tsn) [] (sctpTsnmapSkip map tsn)
  | renege (map : SctpTsnmap) (tsn : BitVec 32) :
      TsnStep map (.renege tsn) [] (sctpTsnmapRenege map tsn)

open Library (Run)

/-- `missing` is the end of the contiguous received or skipped prefix. -/
structure PrefixEnd (seen : Set Nat) (missing : Nat) : Prop where
  before : ∀ p < missing, p ∈ seen
  absent : missing ∉ seen

/-- How far `tsn` is ahead of the first missing number. -/
def ahead (initialTsn : BitVec 32) (missing : Nat) (tsn : BitVec 32) : Nat :=
  (tsn - (initialTsn + BitVec.ofNat 32 missing)).toNat

/-- The position `tsn` stands for. -/
def position (initialTsn : BitVec 32) (missing : Nat) (tsn : BitVec 32) : Nat :=
  missing + ahead initialTsn missing tsn

/-- The calls on the set. A mark may be refused for want of memory; numbers too far ahead are not
skipped, and numbers behind the prefix are not reneged. -/
inductive TsnSetStep (initialTsn : BitVec 32) :
    Set Nat → TsnAction → List Int → Set Nat → Prop where
  | marked {seen : Set Nat} {missing : Nat} {tsn : BitVec 32} {allocated : Bool}
      (ended : PrefixEnd seen missing) (new : position initialTsn missing tsn ∉ seen) :
      TsnSetStep initialTsn seen (.mark tsn allocated) [0]
        (insert (position initialTsn missing tsn) seen)
  | refused (seen : Set Nat) (tsn : BitVec 32) :
      TsnSetStep initialTsn seen (.mark tsn false) [enomem] seen
  | skipped {seen : Set Nat} {missing : Nat} {tsn : BitVec 32}
      (ended : PrefixEnd seen missing) (near : ahead initialTsn missing tsn < sctpTsnMapSize) :
      TsnSetStep initialTsn seen (.skip tsn) [] (seen ∪ {p | p ≤ position initialTsn missing tsn})
  | skipIgnored {seen : Set Nat} {missing : Nat} {tsn : BitVec 32}
      (ended : PrefixEnd seen missing) (far : sctpTsnMapSize ≤ ahead initialTsn missing tsn) :
      TsnSetStep initialTsn seen (.skip tsn) [] seen
  | reneged {seen : Set Nat} {missing : Nat} {tsn : BitVec 32}
      (ended : PrefixEnd seen missing) (above : ahead initialTsn missing tsn < 2 ^ 31) :
      TsnSetStep initialTsn seen (.renege tsn) [] (seen \ {position initialTsn missing tsn})
  | renegeIgnored {seen : Set Nat} {missing : Nat} {tsn : BitVec 32}
      (ended : PrefixEnd seen missing) (behind : 2 ^ 31 ≤ ahead initialTsn missing tsn) :
      TsnSetStep initialTsn seen (.renege tsn) [] seen

/-- The maximal runs of the set above its prefix, in ascending order, as offsets from the last
position of the prefix. -/
structure MaximalRuns (seen : Set Nat) (missing : Nat) (blocks : List (Nat × Nat)) : Prop where
  nonempty : ∀ block ∈ blocks, 1 ≤ block.1 ∧ block.1 ≤ block.2
  apart : blocks.Pairwise fun block next => block.2 + 1 < next.1
  covers : ∀ i, missing + i ∈ seen ↔ ∃ block ∈ blocks, block.1 ≤ i + 1 ∧ i + 1 ≤ block.2

/-- A mark that makes the map grow does not find the bit of `max_tsn_seen` set as the first of a
word. -/
def Lossless (map : SctpTsnmap) : TsnAction → Prop
  | .mark tsn _ => map.len ≤ toU16 (tsn - map.baseTsn) →
      (map.maxTsnSeen - map.baseTsn).toNat % bitsPerLong = 0 →
      map.tsnMap (map.maxTsnSeen - map.baseTsn).toNat = false
  | .skip _ | .renege _ => True

instance (map : SctpTsnmap) : (action : TsnAction) → Decidable (Lossless map action)
  | .mark _ _ => inferInstanceAs (Decidable (_ → _ → _))
  | .skip _ => inferInstanceAs (Decidable True)
  | .renege _ => inferInstanceAs (Decidable True)

/-- Runs all of whose marks are such. -/
abbrev LosslessRun : SctpTsnmap → List TsnAction → List Int → SctpTsnmap → Prop :=
  Run fun map action events map' => TsnStep map action events map' ∧ Lossless map action

open Nat List Set

open Library (findNext_isNext)

variable {initialTsn tsn : BitVec 32} {seen : Set Nat} {missing span : Nat} {map : SctpTsnmap}

/-- The map holds the set from position `missing` on; all its bits lie in the `span` numbers up to
`max_tsn_seen`. -/
structure Tracks (initialTsn : BitVec 32) (seen : Set Nat) (missing span : Nat)
    (map : SctpTsnmap) : Prop where
  base : map.baseTsn = initialTsn + BitVec.ofNat 32 missing
  cumulative : map.cumulativeTsnAckPoint = map.baseTsn - 1
  highest : map.maxTsnSeen = map.baseTsn - 1 + BitVec.ofNat 32 span
  span_le : span ≤ map.len
  len_le : map.len ≤ sctpTsnMapSize
  within : ∀ {i}, map.tsnMap i = true → i < span
  bits : ∀ i, map.tsnMap i = true ↔ missing + i ∈ seen
  before : ∀ p < missing, p ∈ seen

/-- Between two calls the first number of the map is missing. -/
structure Settled (initialTsn : BitVec 32) (seen : Set Nat) (missing span : Nat)
    (map : SctpTsnmap) : Prop extends Tracks initialTsn seen missing span map where
  first : map.tsnMap 0 = false

theorem Settled.prefixEnd (settled : Settled initialTsn seen missing span map) : PrefixEnd seen missing := by
  refine ⟨settled.before, fun present => ?_⟩
  have set := (settled.bits 0).mpr present
  rw [settled.first] at set
  cases set

theorem Tracks.ahead_eq (tracks : Tracks initialTsn seen missing span map) :
    ahead initialTsn missing tsn = (tsn - map.baseTsn).toNat := by
  rw [ahead, tracks.base]

/-! ### Serial numbers -/

variable {base : BitVec 32} {map' : SctpTsnmap} {bits : Nat → Bool} {off len : Nat}

theorem tsnLt_base_iff : tsnLt tsn base = false ↔ (tsn - base).toNat < 2 ^ 31 := by
  rw [tsnLt, BitVec.msb_eq_decide, decide_eq_false_iff_not, not_le]

/-- A number that is not behind the base is in front of a bound iff its distance is. -/
theorem tsnLt_bound_iff {bound : Nat} (small : bound ≤ 4096) (above : (tsn - base).toNat < 2 ^ 31) :
    tsnLt tsn (base + BitVec.ofNat 32 bound) = true ↔ (tsn - base).toNat < bound := by
  rw [tsnLt, BitVec.msb_eq_decide, decide_eq_true_eq]
  bv_omega

variable (tracks : Tracks initialTsn seen missing span map)

include tracks

/-- The highest number against one at a known distance. -/
theorem Tracks.highest_lt_iff (near : (tsn - map.baseTsn).toNat < 4096) :
    tsnLt map.maxTsnSeen tsn = true ↔ span < (tsn - map.baseTsn).toNat + 1 := by
  have small := le_trans tracks.span_le tracks.len_le
  unfold sctpTsnMapSize at small
  rw [tsnLt, BitVec.msb_eq_decide, decide_eq_true_eq, tracks.highest]
  bv_omega

/-- `max_tsn_seen` after a number at a known distance. -/
theorem Tracks.highest_eq
    (near : (tsn - map.baseTsn).toNat < 4096) : (if tsnLt map.maxTsnSeen tsn then tsn else map.maxTsnSeen) =
      map.baseTsn - 1 + BitVec.ofNat 32 (max span ((tsn - map.baseTsn).toNat + 1)) := by
  have grows := tracks.highest_lt_iff near
  split
  case isTrue higher =>
    rw [grows] at higher
    bv_omega
  case isFalse stays =>
    rw [grows] at stays
    rw [max_eq_left (by omega), tracks.highest]

theorem Tracks.clear {i : Nat} (beyond : span ≤ i) : map.tsnMap i = false :=
  Bool.eq_false_iff.mpr fun set => absurd (tracks.within set) (not_lt.mpr beyond)

theorem Tracks.and_bit (i : Nat) : (decide (i < map.len) && map.tsnMap i) = map.tsnMap i := by
  by_cases set : map.tsnMap i = true
  · rw [decide_eq_true (lt_of_lt_of_le (tracks.within set) tracks.span_le), Bool.true_and]
  · rw [Bool.eq_false_iff.mpr set, Bool.and_false]

omit tracks

theorem sctpTsnMapSize_le : sctpTsnMapSize ≤ 4096 := le_refl _

/-! ### The cumulative ack point -/

include tracks

theorem update_tracks :
    ∃ missing' span', Settled initialTsn seen missing' span' (sctpTsnmapUpdate map) := by
  have small := le_trans tracks.span_le tracks.len_le
  unfold sctpTsnMapSize at small
  have length : toU16 (map.maxTsnSeen - map.cumulativeTsnAckPoint) = span := by
    rw [toU16, tracks.highest, tracks.cumulative]
    bv_omega
  have found := findNext_isNext (fun i => !map.tsnMap i) span 0
  unfold sctpTsnmapUpdate
  simp only [length]
  generalize findNext (fun i => !map.tsnMap i) span 0 = zeroBit at found
  have clear : map.tsnMap zeroBit = false := by
    rcases lt_or_eq_of_le found.le_size with inside | atEnd
    · simpa using found.passes inside
    · exact tracks.clear (le_of_eq atEnd.symm)
  have filled : ∀ i < zeroBit, map.tsnMap i = true := by
    intro i below
    simpa using found.skipped i (zero_le i) below
  split_ifs with none
  · exact ⟨missing, span, tracks, none ▸ clear⟩
  · have le := found.le_size
    refine ⟨missing + zeroBit, span - zeroBit, ⟨?_, ?_, ?_, ?_, tracks.len_le, ?_, ?_, ?_⟩, ?_⟩
    · rw [tracks.base, BitVec.ofNat_add, BitVec.add_assoc]
    · rw [tracks.cumulative]
      bv_omega
    · rw [tracks.highest]
      bv_omega
    · have := tracks.span_le
      dsimp only
      omega
    · intro i set
      simp only [bitmapShiftRight, Bool.and_eq_true] at set
      have := tracks.within set.2
      omega
    · intro i
      have present := tracks.bits (i + zeroBit)
      rw [← Nat.add_assoc, Nat.add_right_comm, Nat.add_right_comm] at present
      rw [Nat.add_right_comm, ← present]
      simp only [bitmapShiftRight, tracks.and_bit]
    · intro p below
      by_cases old : p < missing
      · exact tracks.before p old
      · have set := (tracks.bits (p - missing)).mp (filled _ (by omega))
        rwa [Nat.add_sub_cancel' (Nat.not_lt.mp old)] at set
    · simp only [bitmapShiftRight, Nat.zero_add, clear, Bool.and_false]

/-! ### Growing -/

/-- All set bits survive the copy if the last one does. -/
theorem bitmapCopy_eq (safe : (map.maxTsnSeen - map.baseTsn).toNat % bitsPerLong = 0 →
      map.tsnMap (map.maxTsnSeen - map.baseTsn).toNat = false) :
    bitmapCopy map.tsnMap (map.maxTsnSeen - map.baseTsn) = map.tsnMap := by
  have small := le_trans tracks.span_le tracks.len_le
  unfold sctpTsnMapSize at small
  funext i
  by_cases set : map.tsnMap i = true
  · have inside := tracks.within set
    have last : (map.maxTsnSeen - map.baseTsn).toNat = span - 1 := by
      rw [tracks.highest]
      bv_omega
    have words : bitsToLongs (map.maxTsnSeen - map.baseTsn) = (span - 1 + 63) / 64 := by
      have nonneg : (map.maxTsnSeen - map.baseTsn).msb = false := by
        rw [BitVec.msb_eq_decide, last]
        simp
        omega
      rw [bitsToLongs, BitVec.signExtend_eq_setWidth_of_msb_false nonneg]
      congr 1
      bv_omega
    rw [last] at safe
    have ne : (span - 1) % 64 = 0 → i ≠ span - 1 := by
      rintro aligned rfl
      rw [safe aligned] at set
      cases set
    have copied : i < bitsToLongs (map.maxTsnSeen - map.baseTsn) * bitsPerLong := by
      rw [bitsPerLong]
      omega
    rw [bitmapCopy, decide_eq_true copied, Bool.true_and]
  · rw [bitmapCopy, Bool.eq_false_iff.mpr set, Bool.and_false]

omit tracks

theorem grow_tracks (settled : Settled initialTsn seen missing span map) {gap : Nat}
    (short : map.len ≤ gap) (near : gap < sctpTsnMapSize)
    (safe : (map.maxTsnSeen - map.baseTsn).toNat % bitsPerLong = 0 →
      map.tsnMap (map.maxTsnSeen - map.baseTsn).toNat = false) (alloc : Bool) :
    (alloc = false ∧ sctpTsnmapGrow map gap alloc = none) ∨
      ∃ map', sctpTsnmapGrow map gap alloc = some map' ∧ gap < map'.len ∧
        map'.baseTsn = map.baseTsn ∧ Settled initialTsn seen missing span map' := by
  unfold sctpTsnmapGrow
  rw [if_neg (not_le.mpr near)]
  cases alloc with
  | false => exact .inl ⟨rfl, rfl⟩
  | true =>
    have copy := bitmapCopy_eq settled.toTracks safe
    have enough : gap < min ((map.len + (alignLong (gap - map.len) + sctpTsnMapIncrement)) %
        2 ^ 16) sctpTsnMapSize := by
      unfold alignLong sctpTsnMapIncrement sctpTsnMapInitial bitsPerLong
      unfold sctpTsnMapSize at near ⊢
      omega
    refine .inr ⟨_, rfl, enough, rfl, ⟨settled.base, settled.cumulative, settled.highest, ?_,
      min_le_right _ _, ?_, ?_, settled.before⟩, ?_⟩
    · exact le_of_lt (lt_of_le_of_lt settled.span_le (lt_of_le_of_lt short enough))
    · rw [copy]
      exact settled.within
    · rw [copy]
      exact settled.bits
    · rw [copy]
      exact settled.first

/-! ### The calls -/

include tracks

/-- The check in terms of the distance from the base. -/
theorem check_eq (tsn : BitVec 32) :
    sctpTsnmapCheck map tsn = if tsnLte tsn map.cumulativeTsnAckPoint then 1
      else if (tsn - map.baseTsn).toNat < sctpTsnMapSize then
        if map.tsnMap (tsn - map.baseTsn).toNat then 1 else 0
      else -1 := by
  unfold sctpTsnmapCheck
  by_cases behind : tsnLte tsn map.cumulativeTsnAckPoint = true
  · rw [if_pos behind, if_pos behind]
  have above : (tsn - map.baseTsn).toNat < 2 ^ 31 := by
    rw [tracks.cumulative, tsnLte, Bool.or_eq_true, not_or, Bool.not_eq_true,
      BitVec.msb_eq_decide, decide_eq_false_iff_not, decide_eq_true_eq] at behind
    bv_omega
  have bound := tsnLt_bound_iff sctpTsnMapSize_le above
  by_cases near : (tsn - map.baseTsn).toNat < sctpTsnMapSize
  · rw [bound.mpr near, if_pos near]
    simp only [Bool.not_true, Bool.false_eq_true, if_false, tracks.and_bit]
  · rw [Bool.eq_false_iff.mpr (mt bound.mp near), if_neg near]
    rfl

/-- Numbers the check finds new. -/
theorem check_eq_zero (new : sctpTsnmapCheck map tsn = 0) :
    (tsn - map.baseTsn).toNat < sctpTsnMapSize ∧ map.tsnMap (tsn - map.baseTsn).toNat = false := by
  rw [check_eq tracks] at new
  by_cases near : (tsn - map.baseTsn).toNat < sctpTsnMapSize
  · refine ⟨near, Bool.eq_false_iff.mpr fun set => ?_⟩
    rw [if_pos near, if_pos set, ite_self] at new
    cases new
  · split_ifs at new
    · cases new

omit tracks

variable (settled : Settled initialTsn seen missing span map)

include settled

theorem record_tracks (inside : (tsn - map.baseTsn).toNat < map.len) : ∃ missing' span', Settled initialTsn
      (insert (missing + (tsn - map.baseTsn).toNat) seen) missing' span'
      (recordTsn map tsn (tsn - map.baseTsn).toNat) := by
  have small := le_trans settled.span_le settled.len_le
  have near := lt_of_lt_of_le inside settled.len_le
  unfold sctpTsnMapSize at small near
  unfold recordTsn
  by_cases simple : (!sctpTsnmapHasGap map && decide ((tsn - map.baseTsn).toNat = 0)) = true
  · rw [if_pos simple]
    -- no gap and the next expected number: the map is all zero and stays so
    rw [Bool.and_eq_true, decide_eq_true_eq, Bool.not_eq_true', sctpTsnmapHasGap,
      decide_eq_false_iff_not, settled.cumulative, settled.highest] at simple
    have empty : span = 0 := by bv_omega
    have none : ∀ i, map.tsnMap i = false := fun i => settled.clear (by omega)
    refine ⟨missing + 1, 0, ⟨?_, ?_, ?_, zero_le _, settled.len_le, ?_, ?_, ?_⟩, none 0⟩
    · rw [settled.base, BitVec.ofNat_add, BitVec.add_assoc]
      rfl
    · rw [settled.cumulative]
      bv_omega
    · rw [settled.highest]
      bv_omega
    · intro i set
      rw [none i] at set
      cases set
    · intro i
      have present := settled.bits (1 + i)
      rw [← Nat.add_assoc] at present
      rw [mem_insert_iff, or_iff_right (by omega), ← present, none, none]
    · intro p below
      by_cases old : p < missing
      · exact mem_insert_of_mem _ (settled.before p old)
      · exact mem_insert_iff.mpr (.inl (by omega))
  · rw [if_neg simple]
    apply @update_tracks _ _ _ (max span ((tsn - map.baseTsn).toNat + 1))
    refine ⟨settled.base, settled.cumulative, ?_, ?_, settled.len_le, ?_, ?_, ?_⟩
    · exact settled.highest_eq near
    · exact max_le settled.span_le inside
    · intro i set
      simp only [Bool.or_eq_true, decide_eq_true_eq] at set
      rcases set with rfl | old
      · omega
      · have := settled.within old
        omega
    · intro i
      simp only [Bool.or_eq_true, decide_eq_true_eq]
      rw [settled.bits, mem_insert_iff, Nat.add_left_cancel_iff]
    · intro p below
      exact mem_insert_of_mem _ (settled.before p below)

/-- A mark of a new number adds it to the set, or is refused when the map cannot grow. -/
theorem mark_refines {allocated : Bool} {ret : Int} (new : sctpTsnmapCheck map tsn = 0)
    (marked : sctpTsnmapMark map tsn allocated = (ret, map'))
    (safe : Lossless map (.mark tsn allocated)) :
    ∃ seen' missing' span', TsnSetStep initialTsn seen (.mark tsn allocated) [ret] seen' ∧
      Settled initialTsn seen' missing' span' map' := by
  obtain ⟨near, absent⟩ := check_eq_zero settled.toTracks new
  have notBehind : tsnLt tsn map.baseTsn = false := by
    rw [tsnLt_base_iff]
    unfold sctpTsnMapSize at near
    omega
  have gap : toU16 (tsn - map.baseTsn) = (tsn - map.baseTsn).toNat := by
    unfold sctpTsnMapSize at near
    rw [toU16, mod_eq_of_lt (by omega)]
  have place : position initialTsn missing tsn = missing + (tsn - map.baseTsn).toNat := by
    rw [position, settled.ahead_eq]
  have fresh : position initialTsn missing tsn ∉ seen := by
    rw [place, ← settled.bits, absent]
    exact nofun
  have step : TsnSetStep initialTsn seen (.mark tsn allocated) [0] _ :=
    .marked settled.prefixEnd fresh
  rw [place] at step
  unfold sctpTsnmapMark at marked
  rw [notBehind] at marked
  simp only [Bool.false_eq_true, if_false, gap] at marked
  split_ifs at marked with short
  · rcases grow_tracks settled short near (safe (by rwa [gap])) allocated with
      ⟨rfl, failed⟩ | ⟨grown, succeeded, room, sameBase, settled'⟩
    · rw [failed] at marked
      cases marked
      exact ⟨seen, missing, span, .refused seen tsn, settled⟩
    · rw [succeeded] at marked
      cases marked
      rw [← sameBase] at room step ⊢
      obtain ⟨missing', span', after⟩ := record_tracks settled' room
      exact ⟨_, missing', span', step, after⟩
  · cases marked
    obtain ⟨missing', span', after⟩ := record_tracks settled (not_le.mp short)
    exact ⟨_, missing', span', step, after⟩

theorem skip_refines (tsn : BitVec 32) :
    ∃ seen' missing' span', TsnSetStep initialTsn seen (.skip tsn) [] seen' ∧
      Settled initialTsn seen' missing' span' (sctpTsnmapSkip map tsn) := by
  have ignored (far : sctpTsnMapSize ≤ (tsn - map.baseTsn).toNat) :
      TsnSetStep initialTsn seen (.skip tsn) [] seen :=
    .skipIgnored settled.prefixEnd (by rwa [settled.ahead_eq])
  unfold sctpTsnmapSkip
  by_cases behind : tsnLt tsn map.baseTsn = true
  · rw [if_pos behind]
    refine ⟨seen, missing, span, ignored ?_, settled⟩
    have far := mt tsnLt_base_iff.mpr (by rw [behind]; exact nofun)
    unfold sctpTsnMapSize
    omega
  rw [if_neg behind]
  have above := tsnLt_base_iff.mp (Bool.eq_false_iff.mpr behind)
  by_cases near : (tsn - map.baseTsn).toNat < sctpTsnMapSize
  swap
  · have bound := mt (tsnLt_bound_iff sctpTsnMapSize_le above).mp near
    rw [if_pos (by rw [Bool.eq_false_iff.mpr bound]; rfl)]
    exact ⟨seen, missing, span, ignored (not_lt.mp near), settled⟩
  rw [if_neg (by rw [(tsnLt_bound_iff sctpTsnMapSize_le above).mpr near]; exact nofun)]
  have step : TsnSetStep initialTsn seen (.skip tsn) []
      (seen ∪ {p | p ≤ missing + (tsn - map.baseTsn).toNat}) := by
    have skipped : TsnSetStep initialTsn seen (.skip tsn) [] _ :=
      .skipped settled.prefixEnd (by rwa [settled.ahead_eq])
    rwa [position, settled.ahead_eq] at skipped
  have gap : (tsn - map.baseTsn + 1).toNat = (tsn - map.baseTsn).toNat + 1 := by bv_omega
  -- the moved map holds the numbers above `tsn`, whichever way its bits are computed
  have moved : ∀ bits : Nat → Bool, (∀ i, bits i = map.tsnMap (i + ((tsn - map.baseTsn).toNat + 1))) →
      Tracks initialTsn (seen ∪ {p | p ≤ missing + (tsn - map.baseTsn).toNat})
        (missing + ((tsn - map.baseTsn).toNat + 1)) (span - ((tsn - map.baseTsn).toNat + 1))
        { map with
          maxTsnSeen := if tsnLt map.maxTsnSeen tsn then tsn else map.maxTsnSeen
          baseTsn := map.baseTsn + (tsn - map.baseTsn + 1)
          cumulativeTsnAckPoint := map.cumulativeTsnAckPoint + (tsn - map.baseTsn + 1)
          tsnMap := bits } := by
    intro bits shifted
    refine ⟨?_, ?_, ?_, ?_, settled.len_le, ?_, ?_, ?_⟩
    · rw [settled.base]
      bv_omega
    · rw [settled.cumulative]
      bv_omega
    · dsimp only
      rw [settled.highest_eq near]
      bv_omega
    · have := settled.span_le
      dsimp only
      omega
    · intro i set
      dsimp only at set
      rw [shifted] at set
      have := settled.within set
      omega
    · intro i
      dsimp only
      rw [shifted, settled.bits, mem_union, or_iff_left]
      · rw [Nat.add_assoc, Nat.add_comm i]
      · simp only [mem_ofPred_eq]
        omega
    · intro p below
      exact .inr (show p ≤ _ by omega)
  dsimp only
  rw [gap]
  by_cases whole : (tsn - map.baseTsn).toNat + 1 ≥ map.len
  · rw [if_pos whole]
    have := settled.span_le
    exact ⟨_, _, _, step, moved (fun _ => false) (fun i => (settled.clear (by omega)).symm), rfl⟩
  · rw [if_neg whole]
    obtain ⟨missing', span', after⟩ := update_tracks
      (moved (bitmapShiftRight map.tsnMap ((tsn - map.baseTsn).toNat + 1) map.len) fun i => settled.and_bit _)
    exact ⟨_, missing', span', step, after⟩

theorem renege_refines (tsn : BitVec 32) : ∃ seen', TsnSetStep initialTsn seen (.renege tsn) [] seen' ∧
      Settled initialTsn seen' missing span (sctpTsnmapRenege map tsn) := by
  have small := settled.len_le
  unfold sctpTsnmapRenege
  by_cases behind : tsnLt tsn map.baseTsn = true
  · rw [if_pos behind]
    have far := mt tsnLt_base_iff.mpr (by rw [behind]; exact nofun)
    exact ⟨seen, .renegeIgnored settled.prefixEnd (by rw [settled.ahead_eq]; omega), settled⟩
  rw [if_neg behind]
  have above := tsnLt_base_iff.mp (Bool.eq_false_iff.mpr behind)
  have step : TsnSetStep initialTsn seen (.renege tsn) [] (seen \ {missing + (tsn - map.baseTsn).toNat}) := by
    have reneged : TsnSetStep initialTsn seen (.renege tsn) [] _ :=
      .reneged settled.prefixEnd (by rwa [settled.ahead_eq])
    rwa [position, settled.ahead_eq] at reneged
  refine ⟨_, step, ?_⟩
  by_cases inside : (tsn - map.baseTsn).toNat < map.len
  · rw [if_neg (by rw [(tsnLt_bound_iff small above).mpr inside]; exact nofun)]
    refine ⟨⟨settled.base, settled.cumulative, settled.highest, settled.span_le,
      settled.len_le, ?_, ?_, ?_⟩, ?_⟩
    · intro i set
      simp only [Bool.and_eq_true] at set
      exact settled.within set.2
    · intro i
      simp only [Bool.and_eq_true, decide_eq_true_eq]
      rw [settled.bits, mem_sdiff, mem_singleton_iff, Nat.add_left_cancel_iff, and_comm]
    · intro p below
      exact ⟨settled.before p below, fun same => by
        rw [mem_singleton_iff] at same
        omega⟩
    · simp only [settled.first, Bool.and_false]
  · -- beyond the map nothing was recorded
    rw [if_pos (by
      rw [Bool.eq_false_iff.mpr (mt (tsnLt_bound_iff small above).mp inside)]
      rfl)]
    have absent : missing + (tsn - map.baseTsn).toNat ∉ seen := by
      rw [← settled.bits]
      intro set
      exact inside (lt_of_lt_of_le (settled.within set) settled.span_le)
    have same : seen \ {missing + (tsn - map.baseTsn).toNat} = seen := by
      refine ext fun p => ⟨fun mem => mem.1, fun mem => ⟨mem, ?_⟩⟩
      rintro rfl
      exact absent mem
    rw [same]
    exact settled

/-! ### What a map answers -/

theorem check_pos_iff (tsn : BitVec 32) : 0 < sctpTsnmapCheck map tsn ↔
      tsnLte tsn map.cumulativeTsnAckPoint = true ∨ position initialTsn missing tsn ∈ seen := by
  rw [position, settled.ahead_eq, ← settled.bits, check_eq settled.toTracks]
  by_cases behind : tsnLte tsn map.cumulativeTsnAckPoint = true
  · rw [if_pos behind]
    exact ⟨fun _ => .inl behind, fun _ => Int.zero_lt_one⟩
  rw [if_neg behind, or_iff_right behind]
  by_cases set : map.tsnMap (tsn - map.baseTsn).toNat = true
  · have near := lt_of_lt_of_le (settled.within set) (le_trans settled.span_le settled.len_le)
    rw [if_pos near, if_pos set]
    exact ⟨fun _ => set, fun _ => Int.zero_lt_one⟩
  · refine ⟨fun positive => ?_, fun wrong => absurd wrong set⟩
    split_ifs at positive
    · exact absurd positive (Int.lt_irrefl 0)
    · exact absurd positive (by decide)

/-- The runs of set bits above an index whose bit is clear. -/
structure RunsFrom (bits : Nat → Bool) (off : Nat) (blocks : List (Nat × Nat)) : Prop where
  nonempty : ∀ block ∈ blocks, off + 1 < block.1 ∧ block.1 ≤ block.2
  apart : blocks.Pairwise fun block next => block.2 + 1 < next.1
  covers : ∀ i, off ≤ i → (bits i = true ↔ ∃ block ∈ blocks, block.1 ≤ i + 1 ∧ i + 1 ≤ block.2)

omit settled

theorem findGapAck_none (none : findNext bits len off = len) :
    sctpTsnmapFindGapAck bits off len = (0, 0) := by
  simp [sctpTsnmapFindGapAck, none]

theorem findGapAck_some {start stop : Nat} (first : findNext bits len off = start)
    (inside : start < len) (nonzero : start ≠ 0)
    (ended : findNext (fun k => !bits k) len start = stop) :
    sctpTsnmapFindGapAck bits off len = (start, if stop < len then stop - 1 else 0) := by
  simp [sctpTsnmapFindGapAck, first, inside, nonzero, ended]

include settled

/-- One block: from the first set bit to the bit before the next clear one. -/
theorem nextGapAck_cases (low : off ≤ map.len) (clear : map.tsnMap off = false) :
    (sctpTsnmapNextGapAck map (map.baseTsn + BitVec.ofNat 32 off) = none ∧
      ∀ i, off ≤ i → map.tsnMap i = false) ∨
    ∃ start stop, sctpTsnmapNextGapAck map (map.baseTsn + BitVec.ofNat 32 off) =
        some ((start + 1, stop), map.baseTsn + BitVec.ofNat 32 stop) ∧
      off < start ∧ start < stop ∧ stop ≤ map.len ∧ map.tsnMap stop = false ∧
      (∀ i, off ≤ i → i < start → map.tsnMap i = false) ∧
      ∀ i, start ≤ i → i < stop → map.tsnMap i = true := by
  have small := settled.len_le
  have spanLe := settled.span_le
  unfold sctpTsnMapSize at small
  have offset : toU16 (map.baseTsn + BitVec.ofNat 32 off - map.baseTsn) = off := by
    rw [toU16]
    bv_omega
  have passed : tsnLte map.maxTsnSeen (map.baseTsn + BitVec.ofNat 32 off) = true ↔ span ≤ off + 1 := by
    rw [tsnLte, Bool.or_eq_true, decide_eq_true_eq, BitVec.msb_eq_decide, decide_eq_true_eq, settled.highest]
    bv_omega
  unfold sctpTsnmapNextGapAck
  by_cases done : span ≤ off + 1
  · rw [if_pos (passed.mpr done)]
    refine .inl ⟨rfl, fun i above => ?_⟩
    rcases eq_or_lt_of_le above with rfl | further
    · exact clear
    · exact settled.clear (by omega)
  rw [if_neg (mt passed.mp done)]
  simp only [offset]
  have found := findNext_isNext map.tsnMap map.len off
  generalize first : findNext map.tsnMap map.len off = start at found
  rcases lt_or_eq_of_le found.le_size with inside | nothing
  · have further : off < start := by
      refine lt_of_le_of_ne (found.offset_le low) ?_
      rintro rfl
      rw [found.passes inside] at clear
      cases clear
    have nonzero : start ≠ 0 := by omega
    have ended := findNext_isNext (fun k => !map.tsnMap k) map.len start
    generalize second : findNext (fun k => !map.tsnMap k) map.len start = stop at ended
    have further' : start < stop := by
      refine lt_of_le_of_ne (ended.offset_le (le_of_lt inside)) ?_
      rintro rfl
      have off := ended.passes inside
      rw [found.passes inside] at off
      cases off
    have clear' : map.tsnMap stop = false := by
      rcases lt_or_eq_of_le ended.le_size with before | atEnd
      · simpa using ended.passes before
      · exact settled.clear (by omega)
    -- a block that reaches the end of the map is cut there
    have last : (if start ≠ 0 ∧ (if stop < map.len then stop - 1 else 0) = 0 then map.len - 1
        else if stop < map.len then stop - 1 else 0) = stop - 1 := by
      rcases lt_or_eq_of_le ended.le_size with before | atEnd
      · rw [if_pos before, if_neg (fun both => by omega)]
      · rw [if_neg (not_lt.mpr (le_of_eq atEnd.symm)), if_pos ⟨nonzero, rfl⟩, atEnd]
    refine .inr ⟨start, stop, ?_, further, further', ended.le_size, clear', found.skipped, ?_⟩
    · rw [findGapAck_some first inside nonzero second]
      rw [last, if_pos (by omega), Nat.sub_add_cancel (by omega), settled.cumulative]
      congr 2
      bv_omega
    · intro i above below
      simpa using ended.skipped i above below
  · rw [findGapAck_none (first.trans nothing)]
    refine .inl ⟨by simp, fun i above => ?_⟩
    by_cases inside : i < start
    · exact found.skipped i above inside
    · exact settled.clear (by omega)

theorem gabsFrom_runs : ∀ (most off : Nat), off ≤ map.len → map.tsnMap off = false → map.len - off ≤ most →
      RunsFrom map.tsnMap off (gabsFrom map (most + 1) (map.baseTsn + BitVec.ofNat 32 off))
  | most, off, low, clear, enough => by
      rw [gabsFrom]
      rcases nextGapAck_cases settled low clear with
        ⟨ended, none⟩ | ⟨start, stop, next, further, further', high, clear', skipped, run⟩
      · rw [ended]
        refine ⟨nofun, List.Pairwise.nil, fun i above => ?_⟩
        simp [none i above]
      · rw [next]
        dsimp only
        cases most with
        | zero => omega
        | succ most =>
          have rest := gabsFrom_runs most stop high clear' (by omega)
          refine ⟨?_, ?_, ?_⟩
          · intro block mem
            rcases mem_cons.mp mem with rfl | later
            · omega
            · have := rest.nonempty block later
              exact ⟨by omega, this.2⟩
          · exact pairwise_cons.mpr ⟨fun block later => (rest.nonempty block later).1, rest.apart⟩
          · intro i above
            simp only [mem_cons, exists_eq_or_imp]
            by_cases behind : i < stop
            · have noLater : ¬ ∃ block ∈ gabsFrom map (most + 1)
                  (map.baseTsn + BitVec.ofNat 32 stop), block.1 ≤ i + 1 ∧ i + 1 ≤ block.2 := by
                rintro ⟨block, later, first, -⟩
                have := (rest.nonempty block later).1
                omega
              rw [or_iff_left noLater]
              by_cases early : i < start
              · rw [skipped i above early]
                exact ⟨nofun, fun inside => by omega⟩
              · rw [run i (not_lt.mp early) behind]
                exact ⟨fun _ => by omega, fun _ => rfl⟩
            · rw [rest.covers i (not_lt.mp behind), or_iff_right (by omega)]

omit settled

/-- Fewer rounds give the first blocks. -/
theorem gabsFrom_take : ∀ (most more : Nat) (iterStart : BitVec 32),
    gabsFrom map most iterStart = (gabsFrom map (most + more) iterStart).take most
  | 0, more, iterStart => by rw [take_zero]; rfl
  | most + 1, more, iterStart => by
      rw [Nat.add_right_comm, gabsFrom, gabsFrom]
      cases sctpTsnmapNextGapAck map iterStart with
      | none => rfl
      | some found =>
        dsimp only
        rw [take_succ_cons, ← gabsFrom_take most more]

include settled

theorem numGabs_runs : ∃ blocks, MaximalRuns seen missing blocks ∧
      sctpTsnmapNumGabs map = blocks.take sctpMaxGabs := by
  have runs := gabsFrom_runs settled (sctpMaxGabs + map.len) 0 (zero_le _) settled.first (by omega)
  have start : map.cumulativeTsnAckPoint + 1 = map.baseTsn + BitVec.ofNat 32 0 := by
    rw [settled.cumulative]
    bv_omega
  rw [← start] at runs
  refine ⟨_, ⟨fun block mem => ?_, runs.apart, fun i => ?_⟩, ?_⟩
  · have := runs.nonempty block mem
    exact ⟨by omega, this.2⟩
  · rw [← settled.bits, runs.covers i (zero_le i)]
  · unfold sctpTsnmapNumGabs
    by_cases gap : sctpTsnmapHasGap map = true
    · rw [if_pos gap, gabsFrom_take sctpMaxGabs (map.len + 1), Nat.add_assoc]
    · -- without a gap there is nothing above the ack point
      rw [if_neg gap, gabsFrom, sctpTsnmapNextGapAck]
      rw [sctpTsnmapHasGap, decide_eq_true_eq, not_ne_iff] at gap
      have passed : tsnLte map.maxTsnSeen (map.cumulativeTsnAckPoint + 1) = true := by
        rw [tsnLte, Bool.or_eq_true, BitVec.msb_eq_decide, decide_eq_true_eq, decide_eq_true_eq]
        bv_omega
      rw [if_pos passed]
      rfl

/-! ### Runs -/

theorem tsnStep_refines {action : TsnAction} {events : List Int} (taken : TsnStep map action events map')
    (safe : Lossless map action) :
    ∃ seen' missing' span', TsnSetStep initialTsn seen action events seen' ∧
      Settled initialTsn seen' missing' span' map' := by
  cases taken with
  | mark new marked => exact mark_refines settled new marked safe
  | skip tsn => exact skip_refines settled tsn
  | renege tsn =>
    obtain ⟨seen', step, after⟩ := renege_refines settled tsn
    exact ⟨seen', missing, span, step, after⟩

omit settled

/-- A new map holds the empty set. -/
theorem settled_init (initialTsn : BitVec 32) :
    Settled initialTsn ∅ 0 0 (sctpTsnmapInit sctpTsnMapInitial initialTsn) where
  base := (BitVec.add_zero _).symm
  cumulative := rfl
  highest := (BitVec.add_zero _).symm
  span_le := zero_le _
  len_le := (by decide : sctpTsnMapInitial ≤ sctpTsnMapSize)
  within := nofun
  bits := fun i => ⟨nofun, nofun⟩
  before := nofun
  first := rfl

/-- The map between two calls. -/
def Refines (initialTsn : BitVec 32) (map : SctpTsnmap) (seen : Set Nat) : Prop :=
  ∃ missing span, Settled initialTsn seen missing span map

/-- The TSN map refines the set of received numbers. For every initial number and every run of
marks of new numbers, skips and reneges in which no growth meets the bit of `max_tsn_seen` set as
the first of a word, the same calls with the same results are a run of the set; the cumulative ack
point is the end of its contiguous prefix; the check is positive exactly for numbers at or before
that point and for members; and the gap ack blocks are the first of its maximal runs. -/
theorem tsnmapRun_refines (initialTsn : BitVec 32) (actions : List TsnAction) (trace : List Int)
    (map : SctpTsnmap)
    (run : LosslessRun (sctpTsnmapInit sctpTsnMapInitial initialTsn) actions trace map) :
    ∃ seen missing, Run (TsnSetStep initialTsn) ∅ actions trace seen ∧ PrefixEnd seen missing ∧
      map.cumulativeTsnAckPoint = initialTsn + BitVec.ofNat 32 missing - 1 ∧
      (∀ tsn, 0 < sctpTsnmapCheck map tsn ↔
        tsnLte tsn map.cumulativeTsnAckPoint = true ∨ position initialTsn missing tsn ∈ seen) ∧
      ∃ blocks, MaximalRuns seen missing blocks ∧
        sctpTsnmapNumGabs map = blocks.take sctpMaxGabs := by
  have start : Refines initialTsn (sctpTsnmapInit sctpTsnMapInitial initialTsn) ∅ :=
    ⟨0, 0, settled_init initialTsn⟩
  obtain ⟨seen, setRun, missing, span, settled⟩ := run.simulation start (by
    rintro before after action events seen ⟨missing, span, settled⟩ ⟨taken, safe⟩
    obtain ⟨seen', missing', span', step, settled'⟩ := tsnStep_refines settled taken safe
    exact ⟨seen', step, missing', span', settled'⟩)
  refine ⟨seen, missing, setRun, settled.prefixEnd, ?_, check_pos_iff settled, numGabs_runs settled⟩
  rw [settled.cumulative, settled.base]

/-- The initial number, which is the last before the wrap, and two numbers behind it: two blocks
above a prefix of one. -/
theorem tsnmapRun_refines_blocks :
    ∃ map, LosslessRun (sctpTsnmapInit sctpTsnMapInitial 0xffffffff)
        [.mark 0xffffffff true, .mark 2 true, .mark 4 true] [0, 0, 0] map ∧
      map.cumulativeTsnAckPoint = 0xffffffff ∧
      sctpTsnmapNumGabs map = [(3, 3), (5, 5)] ∧
      ∃ seen missing, PrefixEnd seen missing ∧
        map.cumulativeTsnAckPoint = 0xffffffff + BitVec.ofNat 32 missing - 1 := by
  have run : LosslessRun (sctpTsnmapInit sctpTsnMapInitial 0xffffffff)
      [.mark 0xffffffff true, .mark 2 true, .mark 4 true] [0, 0, 0] _ :=
    .cons ⟨.mark (by decide) rfl, by decide⟩ <| .cons ⟨.mark (by decide) rfl, by decide⟩ <|
      .cons ⟨.mark (by decide) rfl, by decide⟩ .nil
  obtain ⟨seen, missing, -, ended, ackPoint, -, -⟩ := tsnmapRun_refines _ _ _ _ run
  exact ⟨_, run, by decide, by decide, seen, missing, ended, ackPoint⟩

/-- Number 64 ahead, then number 128 ahead: the second growth copies one word, and the first number
is forgotten. -/
theorem mark_forgets_highest :
    let map := (sctpTsnmapMark (sctpTsnmapInit sctpTsnMapInitial 1) 65 true).2
    sctpTsnmapCheck map 65 = 1 ∧ sctpTsnmapCheck map 129 = 0 ∧ (sctpTsnmapMark map 129 true).1 = 0 ∧
      sctpTsnmapCheck (sctpTsnmapMark map 129 true).2 65 = 0 := by
  decide

end LinuxKernel.Net.Sctp
