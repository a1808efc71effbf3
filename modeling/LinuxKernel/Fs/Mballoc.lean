/-
Module: LinuxKernel.Fs.Mballoc
Purpose: The in-core buddy data of an ext4 block group, `fs/ext4/mballoc.c`. The block bitmap determines
  them: a chunk is a maximal aligned range of free blocks, and every bitmap and counter follows from the
  chunks.
Trusted boundary: human-reviewed spec
Main exports: mbFreeBlocks, mbMarkUsed, MbStep, Canonical, mbRun_canonical
-/
import LinuxKernel.Library.Runs
import LinuxKernel.Library.DyadicTiling

namespace LinuxKernel.Fs.Mballoc

open Library (Run)

/-- A pointer to a bitmap: `EXT4_MB_BITMAP(e4b)`, or `EXT4_MB_BUDDY(e4b)` plus a number of bytes. -/
inductive BitmapPtr where
  | bitmap
  | buddy (offset : Nat)
deriving DecidableEq, Repr

/-- `struct ext4_buddy` with the `struct ext4_group_info` it points to. The two bitmap blocks are given
by their bits; in the block bitmap a set bit is a block in use. -/
structure Ext4Buddy where
  bdBitmap : Nat → Bool
  bdBuddy : Nat → Bool
  bbFirstFree : Int
  bbFree : Int
  bbFragments : Int
  bbLargestFreeOrder : Int
  bbCounters : Nat → Int

variable (blkbits : Nat) (e4b : Ext4Buddy)

/-- `mb_test_bit(bit, addr)`. -/
def mbTestBit (bit : Nat) : BitmapPtr → Bool
  | .bitmap => e4b.bdBitmap bit
  | .buddy offset => e4b.bdBuddy (offset * 8 + bit)

/-- Write a bit: `mb_set_bit(bit, addr)` for `true` and `mb_clear_bit(bit, addr)` for `false`. -/
def mbWriteBit (bit : Nat) (value : Bool) : BitmapPtr → Ext4Buddy
  | .bitmap => { e4b with bdBitmap := Function.update e4b.bdBitmap bit value }
  | .buddy offset => { e4b with bdBuddy := Function.update e4b.bdBuddy (offset * 8 + bit) value }

/-- `e4b->bd_info->bb_counters[order] += change`. -/
def addCounter (order : Nat) (change : Int) : Ext4Buddy :=
  { e4b with bbCounters := Function.update e4b.bbCounters order (e4b.bbCounters order + change) }

/-! ### The layout set up by `ext4_mb_init` -/

/-- The variable `offset` of the loop of `ext4_mb_init` when it stores the entry of `order`. -/
def initOffset : (order : Nat) → Nat
  | 0 => 0
  | 1 => 0
  | order + 2 => initOffset (order + 1) + 2 ^ (blkbits - (order + 1))

/-- `s_mb_offsets[order]`, an `unsigned short`. -/
def sMbOffsets (order : Nat) : Nat := initOffset blkbits order % 2 ^ 16

/-- `s_mb_maxs[order]`. -/
def sMbMaxs : (order : Nat) → Nat
  | 0 => 2 ^ blkbits * 8
  | order + 1 => 2 ^ blkbits * 4 / 2 ^ order

/-- `mb_find_buddy(e4b, order, &max)`. -/
def mbFindBuddy (order : Nat) : Option (BitmapPtr × Nat) :=
  if order > blkbits + 1 then none
  else if order = 0 then some (.bitmap, 2 ^ (blkbits + 3))
  else some (.buddy (sMbOffsets blkbits order), sMbMaxs blkbits order)

/-! ### Searching and setting bits -/

/-- The loop of `mb_find_order_for_block`, with `remaining` orders to look at. -/
def findOrderFrom : (remaining order block bb : Nat) → Nat
  | 0, _, _, _ => 0
  | remaining + 1, order, block, bb =>
    if !mbTestBit e4b (block / 2) (.buddy bb) then order
    else findOrderFrom remaining (order + 1) (block / 2) (bb + 2 ^ (blkbits - order))

/-- `mb_find_order_for_block(e4b, block)`; `none` is `BUG_ON`. -/
def mbFindOrderForBlock (block : Nat) : Option Nat :=
  if block ≥ 2 ^ (blkbits + 3) then none
  else some (findOrderFrom blkbits e4b (blkbits + 1) 1 block 0)

/-- The loop of `mb_set_bits` up to bit `stop`; every round but those that write a whole word moves one
bit on, so `stop - cur` rounds are enough. -/
def setBitsFrom (bm : Nat → Bool) (stop : Nat) : (rounds cur : Nat) → (Nat → Bool)
  | 0, _ => bm
  | rounds + 1, cur =>
    if cur < stop then
      if cur % 32 = 0 ∧ stop - cur ≥ 32 then
        let addr := cur / 8
        setBitsFrom (fun bit => if addr * 8 ≤ bit ∧ bit < addr * 8 + 32 then true else bm bit) stop
          rounds (cur + 32)
      else setBitsFrom (Function.update bm cur true) stop rounds (cur + 1)
    else bm

/-- `mb_set_bits(bm, cur, len)`. -/
def mbSetBits (bm : Nat → Bool) (cur len : Nat) : Nat → Bool := setBitsFrom bm (cur + len) len cur

/-- The loop of `mb_set_largest_free_order` from order `i` down. -/
def largestFreeFrom (counters : Nat → Int) : (i : Nat) → Int
  | 0 => if counters 0 > 0 then 0 else -1
  | i + 1 => if counters (i + 1) > 0 then i + 1 else largestFreeFrom counters i

/-- `mb_set_largest_free_order(sb, grp)`. -/
def mbSetLargestFreeOrder : Ext4Buddy :=
  { e4b with bbLargestFreeOrder := largestFreeFrom e4b.bbCounters (blkbits + 1) }

/-! ### Freeing -/

/-- The inner loop of `mb_free_blocks` on the chunk `block` of `order`, whose bitmap is `buddy`. The
orders bound the number of rounds; `none` would be a loop that goes on. -/
def coalesce : (rounds : Nat) → Ext4Buddy → (block order : Nat) → BitmapPtr → Option Ext4Buddy
  | 0, _, _, _, _ => none
  | rounds + 1, e4b, block, order, buddy =>
    let block := block / 2 * 2
    if mbTestBit e4b block buddy || mbTestBit e4b (block + 1) buddy then some e4b
    else
      match mbFindBuddy blkbits (order + 1) with
      | none => some e4b
      | some (buddy2, _) =>
        let e4b := if order > 0
          then mbWriteBit (mbWriteBit e4b block true buddy) (block + 1) true buddy else e4b
        let e4b := addCounter (addCounter e4b order (-1)) order (-1)
        let e4b := addCounter e4b (order + 1) 1
        coalesce rounds (mbWriteBit e4b (block / 2) false buddy2) (block / 2) (order + 1) buddy2

/-- One round of the outer loop of `mb_free_blocks`. A block that is already free is only reported. -/
def freeBlock (block : Nat) : Option Ext4Buddy :=
  coalesce blkbits (blkbits + 2) (addCounter (mbWriteBit e4b block false .bitmap) 0 1) block 0 .bitmap

/-- The outer loop of `mb_free_blocks`. -/
def freeBlocksFrom : (count : Nat) → Ext4Buddy → (first : Nat) → Option Ext4Buddy
  | 0, e4b, _ => some e4b
  | count + 1, e4b, first =>
    match freeBlock blkbits e4b first with
    | none => none
    | some e4b => freeBlocksFrom count e4b (first + 1)

/-- Whether the block before `first` is free. -/
def freeBefore (first : Nat) : Bool :=
  first ≠ 0 && !mbTestBit e4b (first - 1) .bitmap

/-- Whether the block `next` behind a range is in the group and free. -/
def freeBehind (next : Nat) : Bool :=
  next < sMbMaxs blkbits 0 && !mbTestBit e4b next .bitmap

/-- The counters that `mb_free_blocks` updates before its loop. -/
def freeCounters (first count : Nat) : Ext4Buddy :=
  let block := freeBefore e4b first
  let max := freeBehind blkbits e4b (first + count)
  { e4b with
    bbFree := e4b.bbFree + count
    bbFirstFree := if (first : Int) < e4b.bbFirstFree then first else e4b.bbFirstFree
    bbFragments :=
      if block && max then e4b.bbFragments - 1
      else if !block && !max then e4b.bbFragments + 1 else e4b.bbFragments }

/-- `mb_free_blocks(inode, e4b, first, count)`; `none` is `BUG_ON`. -/
def mbFreeBlocks (first count : Nat) : Option Ext4Buddy :=
  if first + count > 2 ^ blkbits * 8 then none
  else (freeBlocksFrom blkbits count (freeCounters blkbits e4b first count) first).map
    (mbSetLargestFreeOrder blkbits)

/-! ### Marking used -/

/-- The loop of `mb_mark_used`; `none` is `BUG_ON`, or a loop that is not done within `rounds`. -/
def markUsedFrom : (rounds : Nat) → Ext4Buddy → (start len ret : Nat) → Option (Ext4Buddy × Nat)
  | 0, _, _, _, _ => none
  | rounds + 1, e4b, start, len, ret =>
    if len = 0 then some (e4b, ret)
    else
      match mbFindOrderForBlock blkbits e4b start with
      | none => none
      | some ord =>
        match mbFindBuddy blkbits ord with
        | none => none
        | some (buddy, max) =>
          if start / 2 ^ ord * 2 ^ ord = start ∧ len ≥ 2 ^ ord then
            -- the whole chunk may be allocated at once
            if start / 2 ^ ord ≥ max then none
            else
              let e4b := addCounter (mbWriteBit e4b (start / 2 ^ ord) true buddy) ord (-1)
              markUsedFrom rounds e4b (start + 2 ^ ord) (len - 2 ^ ord) ret
          else
            let ret := if ret = 0 then len ||| (ord <<< 16) else ret
            match ord with
            | 0 => none
            | half + 1 =>
              -- we have to split large buddy
              let e4b := addCounter (mbWriteBit e4b (start / 2 ^ ord) true buddy) ord (-1)
              let cur := start / 2 ^ half / 2 * 2
              match mbFindBuddy blkbits half with
              | none => none
              | some (buddy, _) =>
                let e4b := mbWriteBit (mbWriteBit e4b cur false buddy) (cur + 1) false buddy
                let e4b := addCounter (addCounter e4b half 1) half 1
                markUsedFrom rounds e4b start len ret

/-- The counters that `mb_mark_used` updates before its loop. -/
def markCounters (start len : Nat) : Ext4Buddy :=
  let mlen := freeBefore e4b start
  let max := freeBehind blkbits e4b (start + len)
  { e4b with
    bbFree := e4b.bbFree - len
    bbFirstFree := if e4b.bbFirstFree = start then e4b.bbFirstFree + len else e4b.bbFirstFree
    bbFragments :=
      if mlen && max then e4b.bbFragments + 1
      else if !mlen && !max then e4b.bbFragments - 1 else e4b.bbFragments }

/-- The number of rounds that `mb_mark_used` is given: for every block of the extent one for each order
a chunk can be split down, and the one that takes the block. -/
def markRounds (len : Nat) : Nat := (len + 1) * (blkbits + 3)

/-- `mb_mark_used(e4b, ex)` with the value it returns; `none` is `BUG_ON`. -/
def mbMarkUsed (feStart feLen : Nat) : Option (Ext4Buddy × Nat) :=
  if feStart + feLen > 2 ^ blkbits * 8 then none
  else
    match markUsedFrom blkbits (markRounds blkbits feLen) (markCounters blkbits e4b feStart feLen)
        feStart feLen 0 with
    | none => none
    | some (e4b, ret) =>
      let e4b := mbSetLargestFreeOrder blkbits e4b
      some ({ e4b with bdBitmap := mbSetBits e4b.bdBitmap feStart feLen }, ret)

/-! ### Runs -/

/-- The calls on the buddy data of one group. -/
inductive MbAction where
  | markUsed (feStart feLen : Nat)
  | freeBlocks (first count : Nat)
deriving DecidableEq, Repr

/-- The blocks that a call is about. -/
def MbAction.blocks : MbAction → Nat × Nat
  | .markUsed feStart feLen => (feStart, feLen)
  | .freeBlocks first count => (first, count)

/-- An extent that is marked used is free before, and a range that is freed is in use; both lie in the
group. -/
def Allowed : MbAction → Prop
  | .markUsed feStart feLen => feStart + feLen ≤ 2 ^ (blkbits + 3) ∧
      ∀ block, feStart ≤ block → block < feStart + feLen → e4b.bdBitmap block = false
  | .freeBlocks first count => first + count ≤ 2 ^ (blkbits + 3) ∧
      ∀ block, first ≤ block → block < first + count → e4b.bdBitmap block = true

/-- What a call returns and does to the buddy data; `none` is `BUG_ON`. -/
def mbCall : MbAction → Option (Ext4Buddy × List Nat)
  | .markUsed feStart feLen =>
    (mbMarkUsed blkbits e4b feStart feLen).map fun (e4b, ret) => (e4b, [ret])
  | .freeBlocks first count => (mbFreeBlocks blkbits e4b first count).map fun e4b => (e4b, [])

/-- One call. -/
def MbStep (action : MbAction) (events : List Nat) (e4b' : Ext4Buddy) : Prop :=
  Allowed blkbits e4b action ∧ mbCall blkbits e4b action = some (e4b', events)

/-- Runs of calls on one group. -/
abbrev MbRun : Ext4Buddy → List MbAction → List Nat → Ext4Buddy → Prop :=
  Run (MbStep blkbits)

open Library

/-- The free blocks of the group. -/
def freeBlocks (blkbits : Nat) (e4b : Ext4Buddy) : Set Nat :=
  {block | block < 2 ^ (blkbits + 3) ∧ e4b.bdBitmap block = false}

/-- The aligned ranges of `2 ^ order` free blocks that are part of no larger one of an order up to
`blkbits + 1`. -/
def chunksOf (blkbits : Nat) (e4b : Ext4Buddy) (order : Nat) : Set Nat :=
  maximalChunks (blkbits + 1) (freeBlocks blkbits e4b) order

/-- The largest order that has a chunk, or -1. -/
def IsLargestOrder (blkbits : Nat) (chunks : Nat → Set Nat) (order : Int) : Prop :=
  (order = -1 ∧ ∀ k ≤ blkbits + 1, chunks k = ∅) ∨
    ∃ largest ≤ blkbits + 1, order = largest ∧ (chunks largest).Nonempty ∧
      ∀ k ≤ blkbits + 1, largest < k → chunks k = ∅

/-- The buddy data are those that the block bitmap determines. -/
structure Canonical (blkbits : Nat) (e4b : Ext4Buddy) : Prop where
  /-- A bit of the buddy bitmap of an order from 1 up is clear exactly for the chunks of the order. -/
  buddies : ∀ order buddy max, order ≠ 0 → mbFindBuddy blkbits order = some (buddy, max) →
    ∀ index < max, (mbTestBit e4b index buddy = false ↔ index ∈ chunksOf blkbits e4b order)
  /-- `bb_counters` counts the chunks of each order. -/
  counters : ∀ order ≤ blkbits + 1, e4b.bbCounters order = (chunksOf blkbits e4b order).ncard
  /-- `bb_free` counts the free blocks. -/
  free : e4b.bbFree = (freeBlocks blkbits e4b).ncard
  /-- `bb_fragments` counts the runs of free blocks. -/
  fragments : e4b.bbFragments = (runStarts (freeBlocks blkbits e4b)).ncard
  /-- `bb_largest_free_order` is the largest order that has a chunk. -/
  largest : IsLargestOrder blkbits (chunksOf blkbits e4b) e4b.bbLargestFreeOrder
  /-- No block before `bb_first_free` is free. -/
  firstFree : ∀ block ∈ freeBlocks blkbits e4b, e4b.bbFirstFree ≤ block

theorem IsLargestOrder.unique {blkbits : Nat} {chunks : Nat → Set Nat} {order order' : Int}
    (largest : IsLargestOrder blkbits chunks order) (largest' : IsLargestOrder blkbits chunks order') :
    order = order' := by
  rcases largest with ⟨rfl, empty⟩ | ⟨k, bounded, rfl, some, none⟩ <;>
    rcases largest' with ⟨rfl, empty'⟩ | ⟨k', bounded', rfl, some', none'⟩
  · rfl
  · exact absurd (empty k' bounded') some'.ne_empty
  · exact absurd (empty' k bounded) some.ne_empty
  · rcases Nat.lt_trichotomy k k' with less | rfl | more
    · exact absurd (none k' bounded' less) some'.ne_empty
    · rfl
    · exact absurd (none' k bounded more) some.ne_empty

/-- Two groups have the same buddy bitmaps and counters. -/
structure SameBuddies (blkbits : Nat) (e4b other : Ext4Buddy) : Prop where
  buddies : ∀ order buddy max, order ≠ 0 → mbFindBuddy blkbits order = some (buddy, max) →
    ∀ index < max, mbTestBit e4b index buddy = mbTestBit other index buddy
  counters : ∀ order ≤ blkbits + 1, e4b.bbCounters order = other.bbCounters order
  free : e4b.bbFree = other.bbFree
  fragments : e4b.bbFragments = other.bbFragments
  largest : e4b.bbLargestFreeOrder = other.bbLargestFreeOrder

/-- Canonical buddy data with the same block bitmap are the same. -/
theorem Canonical.determined {blkbits : Nat} {e4b other : Ext4Buddy} (canonical : Canonical blkbits e4b)
    (canonical' : Canonical blkbits other)
    (same : ∀ block < 2 ^ (blkbits + 3), e4b.bdBitmap block = other.bdBitmap block) :
    SameBuddies blkbits e4b other := by
  have blocks : freeBlocks blkbits e4b = freeBlocks blkbits other := by
    ext block
    refine and_congr_right fun bounded => ?_
    rw [same block bounded]
  have chunks : chunksOf blkbits e4b = chunksOf blkbits other := by
    funext order
    rw [chunksOf, chunksOf, blocks]
  constructor
  case buddies =>
    intro order buddy max pos found index bounded
    have here := canonical.buddies order buddy max pos found index bounded
    have there := canonical'.buddies order buddy max pos found index bounded
    rw [chunks, ← there] at here
    exact Bool.eq_iff_iff.mpr (by simpa using not_congr here)
  case counters =>
    intro order bounded
    rw [canonical.counters order bounded, canonical'.counters order bounded, chunks]
  case free => rw [canonical.free, canonical'.free, blocks]
  case fragments => rw [canonical.fragments, canonical'.fragments, blocks]
  case largest => exact canonical.largest.unique (chunks ▸ canonical'.largest)

open Function

/-! ### The layout -/

variable {order index : Nat} {e4b' : Ext4Buddy}

/-- The offsets are the sizes of the bitmaps of the smaller orders. -/
theorem initOffset_add (blkbits : Nat) (pos : 1 ≤ order) (bounded : order ≤ blkbits + 1) :
    initOffset blkbits order + 2 ^ (blkbits + 1 - order) = 2 ^ blkbits := by
  induction order with
  | zero => omega
  | succ order ih =>
    cases order with
    | zero => simp [initOffset]
    | succ order =>
      have before := ih (by omega) (by omega)
      rw [initOffset]
      rw [show blkbits + 1 - (order + 1) = blkbits - (order + 1) + 1 by omega] at before
      rw [show blkbits + 1 - (order + 1 + 1) = blkbits - (order + 1) by omega]
      omega

section Layout

variable {blkbits : Nat} (small : blkbits ≤ 15)
include small

variable {order : Nat}

/-- The offsets fit into `unsigned short`. -/
theorem sMbOffsets_eq (bounded : order ≤ blkbits + 1) :
    sMbOffsets blkbits order = initOffset blkbits order := by
  apply Nat.mod_eq_of_lt
  cases order with
  | zero => simp [initOffset]
  | succ order =>
    have total := initOffset_add blkbits (by omega) bounded
    have powers := Nat.pow_le_pow_right Nat.two_pos small
    have := Nat.two_pow_pos (blkbits + 1 - (order + 1))
    omega

/-- Different bits of the buddy bitmaps have different places in the block. -/
theorem place_injective {order' index index' : Nat} (pos : 1 ≤ order)
    (positive' : 1 ≤ order') (bounded : order ≤ blkbits + 1) (bounded' : order' ≤ blkbits + 1)
    (inside : index < 2 ^ (blkbits + 3 - order)) (inside' : index' < 2 ^ (blkbits + 3 - order'))
    (same : sMbOffsets blkbits order * 8 + index = sMbOffsets blkbits order' * 8 + index') :
    order = order' ∧ index = index' := by
  rw [sMbOffsets_eq small bounded, sMbOffsets_eq small bounded'] at same
  -- The bitmap of a larger order begins behind that of a smaller one.
  have apart {low high lowIndex : Nat} (less : low < high) (pos : 1 ≤ low)
      (bounded : high ≤ blkbits + 1) (inside : lowIndex < 2 ^ (blkbits + 3 - low)) :
      initOffset blkbits low * 8 + lowIndex < initOffset blkbits high * 8 := by
    have lowTotal := initOffset_add blkbits pos (by omega)
    have highTotal := initOffset_add blkbits (by omega) bounded
    have powers := Nat.pow_le_pow_right Nat.two_pos (show blkbits + 1 - high ≤ blkbits - low by omega)
    rw [show blkbits + 3 - low = blkbits - low + 3 by omega, Nat.pow_add] at inside
    rw [show blkbits + 1 - low = blkbits - low + 1 by omega] at lowTotal
    omega
  rcases Nat.lt_trichotomy order order' with less | rfl | more
  · have := apart less pos bounded' inside
    omega
  · exact ⟨rfl, by omega⟩
  · have := apart more positive' bounded inside'
    omega

end Layout

theorem sMbMaxs_eq {blkbits : Nat} (bounded : order ≤ blkbits + 1) :
    sMbMaxs blkbits order = 2 ^ (blkbits + 3 - order) := by
  cases order with
  | zero => rw [sMbMaxs, Nat.sub_zero, Nat.pow_add]
  | succ order =>
    rw [sMbMaxs, show 2 ^ blkbits * 4 = 2 ^ (blkbits + 2) by rw [Nat.pow_add],
      Nat.pow_div (by omega) Nat.two_pos]
    congr 1
    omega

/-- The bitmap of an order. -/
def levelPtr (blkbits : Nat) : (order : Nat) → BitmapPtr
  | 0 => .bitmap
  | order + 1 => .buddy (sMbOffsets blkbits (order + 1))

theorem mbFindBuddy_eq {blkbits : Nat} (bounded : order ≤ blkbits + 1) :
    mbFindBuddy blkbits order = some (levelPtr blkbits order, 2 ^ (blkbits + 3 - order)) := by
  rw [mbFindBuddy, if_neg (by omega)]
  cases order with
  | zero => rfl
  | succ order => rw [if_neg (by omega), sMbMaxs_eq bounded, levelPtr]

theorem mbFindBuddy_none (blkbits : Nat) : mbFindBuddy blkbits (blkbits + 2) = none := by
  rw [mbFindBuddy, if_pos (by omega)]

/-- Bit `index` of the bitmap of an order. -/
def bitAt (blkbits : Nat) (e4b : Ext4Buddy) (order index : Nat) : Bool :=
  mbTestBit e4b index (levelPtr blkbits order)

/-- Writing a bit changes that bit of that order only. -/
theorem bitAt_write {blkbits : Nat} (small : blkbits ≤ 15) (e4b : Ext4Buddy) {order' index' : Nat}
    {value : Bool} (bounded : order ≤ blkbits + 1) (bounded' : order' ≤ blkbits + 1)
    (inside : index < 2 ^ (blkbits + 3 - order)) (inside' : index' < 2 ^ (blkbits + 3 - order')) :
    bitAt blkbits (mbWriteBit e4b index value (levelPtr blkbits order)) order' index' =
      if order' = order ∧ index' = index then value else bitAt blkbits e4b order' index' := by
  cases order with
  | zero =>
    cases order' with
    | zero => simp [bitAt, levelPtr, mbWriteBit, mbTestBit, update_apply]
    | succ order' => simp [bitAt, levelPtr, mbWriteBit, mbTestBit]
  | succ order =>
    cases order' with
    | zero => simp [bitAt, levelPtr, mbWriteBit, mbTestBit]
    | succ order' =>
      simp only [bitAt, levelPtr, mbWriteBit, mbTestBit, update_apply]
      refine if_congr ⟨fun same => ?_, ?_⟩ rfl rfl
      · exact place_injective small (by omega) (by omega) bounded' bounded inside' inside same
      · rintro ⟨same, rfl⟩
        rw [same]

/-! ### Bitmaps and counters of a set of chunks -/

/-- The buddy bitmaps and the counters describe the chunks. -/
structure Reflects (blkbits : Nat) (e4b : Ext4Buddy) (chunks : Nat → Set Nat) : Prop where
  bounded : ∀ {order index}, index ∈ chunks order →
    order ≤ blkbits + 1 ∧ index < 2 ^ (blkbits + 3 - order)
  bits : ∀ {order index}, 1 ≤ order → order ≤ blkbits + 1 → index < 2 ^ (blkbits + 3 - order) →
    (bitAt blkbits e4b order index = false ↔ index ∈ chunks order)
  counters : ∀ {order}, order ≤ blkbits + 1 → e4b.bbCounters order = (chunks order).ncard

/-- The totals that the loops do not touch. -/
structure SameTotals (e4b e4b' : Ext4Buddy) : Prop where
  firstFree : e4b'.bbFirstFree = e4b.bbFirstFree
  free : e4b'.bbFree = e4b.bbFree
  fragments : e4b'.bbFragments = e4b.bbFragments

theorem SameTotals.refl (e4b : Ext4Buddy) : SameTotals e4b e4b := ⟨rfl, rfl, rfl⟩

theorem SameTotals.trans {e4b middle : Ext4Buddy} (first : SameTotals e4b middle)
    (second : SameTotals middle e4b') : SameTotals e4b e4b' :=
  ⟨second.firstFree.trans first.firstFree, second.free.trans first.free,
    second.fragments.trans first.fragments⟩

/-- Remove one chunk from the bitmaps and counters. -/
def dropChunk (blkbits : Nat) (e4b : Ext4Buddy) (order index : Nat) : Ext4Buddy :=
  addCounter (mbWriteBit e4b index true (levelPtr blkbits order)) order (-1)

/-- Add one chunk to the bitmaps and counters. -/
def addChunk (blkbits : Nat) (e4b : Ext4Buddy) (order index : Nat) : Ext4Buddy :=
  addCounter (mbWriteBit e4b index false (levelPtr blkbits order)) order 1

variable {blkbits : Nat} {e4b : Ext4Buddy} {chunks : Nat → Set Nat} {free : Set Nat}

/-- Only the buddy bitmaps and the counters matter. -/
theorem Reflects.congr (reflects : Reflects blkbits e4b chunks)
    (buddies : e4b'.bdBuddy = e4b.bdBuddy) (counters : e4b'.bbCounters = e4b.bbCounters) :
    Reflects blkbits e4b' chunks where
  bounded := reflects.bounded
  bits := by
    intro order index pos bounded inside
    rw [← reflects.bits pos bounded inside]
    cases order with
    | zero => omega
    | succ order => rw [bitAt, bitAt, levelPtr, mbTestBit, mbTestBit, buddies]
  counters bounded := by rw [counters, reflects.counters bounded]

theorem Reflects.finite (reflects : Reflects blkbits e4b chunks) (order : Nat) : (chunks order).Finite :=
  (Set.finite_lt_nat (2 ^ (blkbits + 3 - order))).subset fun _ mem => (reflects.bounded mem).2

theorem addCounter_apply (e4b : Ext4Buddy) (order order' : Nat) (change : Int) :
    (addCounter e4b order change).bbCounters order' =
      e4b.bbCounters order' + if order' = order then change else 0 := by
  rw [addCounter]
  by_cases same : order' = order
  · subst same
    simp
  · simp [same]

@[simp] theorem mbWriteBit_bbCounters (e4b : Ext4Buddy) (bit : Nat) (value : Bool)
    (addr : BitmapPtr) : (mbWriteBit e4b bit value addr).bbCounters = e4b.bbCounters := by
  cases addr <;> rfl

theorem bitAt_addCounter (e4b : Ext4Buddy) (order index order' : Nat) (change : Int) :
    bitAt blkbits (addCounter e4b order' change) order index = bitAt blkbits e4b order index := by
  cases order <;> rfl

theorem sameTotals_write (e4b : Ext4Buddy) (bit : Nat) (value : Bool) (addr : BitmapPtr)
    (order : Nat) (change : Int) :
      SameTotals e4b (addCounter (mbWriteBit e4b bit value addr) order change) := by
  cases addr <;> exact ⟨rfl, rfl, rfl⟩

section

variable (small : blkbits ≤ 15) (reflects : Reflects blkbits e4b chunks)
include small reflects

theorem Reflects.erase (listed : index ∈ chunks order) :
    Reflects blkbits (dropChunk blkbits e4b order index) (eraseChunk chunks order index) where
  bounded member := reflects.bounded (mem_eraseChunk.mp member).1
  bits := by
    intro order' index' pos bounded inside
    have here := reflects.bounded listed
    rw [dropChunk, bitAt_addCounter, bitAt_write small e4b here.1 bounded here.2 inside, mem_eraseChunk,
      ← reflects.bits pos bounded inside]
    split
    case isTrue same => simp [same]
    case isFalse ne => simp [ne]
  counters := by
    intro order' bounded
    rw [dropChunk, addCounter_apply, mbWriteBit_bbCounters, reflects.counters bounded, eraseChunk]
    by_cases same : order' = order
    · subst same
      have smaller := Set.ncard_sdiff_singleton_add_one listed (reflects.finite order')
      rw [update_self]
      omega
    · rw [if_neg same, update_of_ne same, add_zero]

theorem Reflects.insert (bounded : order ≤ blkbits + 1) (inside : index < 2 ^ (blkbits + 3 - order))
    (fresh : index ∉ chunks order) :
    Reflects blkbits (addChunk blkbits e4b order index) (insertChunk chunks order index) where
  bounded member := by
    rcases mem_insertChunk.mp member with ⟨rfl, rfl⟩ | member
    · exact ⟨bounded, inside⟩
    · exact reflects.bounded member
  bits := by
    intro order' index' pos bounded' inside'
    rw [addChunk, bitAt_addCounter, bitAt_write small e4b bounded bounded' inside inside',
      mem_insertChunk, ← reflects.bits pos bounded' inside']
    split
    case isTrue same => simp [same]
    case isFalse ne => simp [ne]
  counters := by
    intro order' bounded'
    rw [addChunk, addCounter_apply, mbWriteBit_bbCounters, reflects.counters bounded', insertChunk]
    by_cases same : order' = order
    · subst same
      rw [if_pos rfl, update_self, Set.ncard_insert_of_notMem fresh (reflects.finite order')]
      rfl
    · rw [if_neg same, update_of_ne same, add_zero]

theorem Reflects.split (tiling : Tiling (blkbits + 1) free chunks) {half : Nat}
    (listed : index ∈ chunks (half + 1)) :
    Reflects blkbits (addChunk blkbits (addChunk blkbits (dropChunk blkbits e4b (half + 1) index)
      half (2 * index)) half (2 * index + 1)) (splitChunk chunks half index) := by
  obtain ⟨bounded, inside⟩ := reflects.bounded listed
  have halfInside : 2 * index + 1 < 2 ^ (blkbits + 3 - half) := by
    rw [show blkbits + 3 - half = blkbits + 3 - (half + 1) + 1 by omega]
    omega
  -- No half of the chunk is a chunk as well.
  have fresh (child : Nat) (inChunk : child / 2 = index) : child ∉ chunks half := by
    intro mem
    have below : child * 2 ^ half / 2 ^ half ∈ chunks half := by rwa [mul_two_pow_div]
    have above : child * 2 ^ half / 2 ^ (half + 1) ∈ chunks (half + 1) := by
      rwa [div_two_pow_succ, mul_two_pow_div, inChunk]
    have := tiling.unique below above
    omega
  have erased := reflects.erase small listed
  have lower := erased.insert small (by omega) (by omega)
    (fun mem => fresh (2 * index) (by omega) (mem_eraseChunk.mp mem).1)
  refine lower.insert small (by omega) halfInside fun mem => ?_
  rcases mem_insertChunk.mp mem with ⟨_, same⟩ | mem
  · omega
  · exact fresh (2 * index + 1) (by omega) (mem_eraseChunk.mp mem).1

theorem Reflects.merge (tiling : Tiling (blkbits + 1) free chunks) (below : order < blkbits + 1)
    (pair : Pair chunks order index) :
    Reflects blkbits (addChunk blkbits (dropChunk blkbits (dropChunk blkbits e4b order (2 * index))
      order (2 * index + 1)) (order + 1) index) (mergeChunks chunks order index) := by
  have still : 2 * index + 1 ∈ eraseChunk chunks order (2 * index) order :=
    mem_eraseChunk.mpr ⟨pair.2, by omega⟩
  have inside := (reflects.bounded pair.2).2
  rw [show blkbits + 3 - order = blkbits + 3 - (order + 1) + 1 by omega] at inside
  refine ((reflects.erase small pair.1).erase small still).insert small (by omega) (by omega) ?_
  intro mem
  have above := (mem_eraseChunk.mp (mem_eraseChunk.mp mem).1).1
  have here : 2 * index * 2 ^ order / 2 ^ order ∈ chunks order := by
    rw [mul_two_pow_div]
    exact pair.1
  have there : 2 * index * 2 ^ order / 2 ^ (order + 1) ∈ chunks (order + 1) := by
    rwa [div_two_pow_succ, mul_two_pow_div, Nat.mul_div_cancel_left index Nat.two_pos]
  have := tiling.unique here there
  omega

end

open Set Nat Bool

/-- No two halves of one range are both chunks. -/
def Single (blkbits : Nat) (chunks : Nat → Set Nat) : Prop :=
  ∀ order < blkbits + 1, ∀ index, ¬Pair chunks order index

/-! ### The order of the chunk of a block -/

variable {start order len rounds half index number first count : Nat} {action : MbAction}

theorem findOrderFrom_spec (small : blkbits ≤ 15) (reflects : Reflects blkbits e4b chunks)
    (inside : start < 2 ^ (blkbits + 3)) (remaining : Nat) :
    ∀ {order found : Nat}, order + 1 + remaining = blkbits + 2 →
      findOrderFrom blkbits e4b remaining (order + 1) (start / 2 ^ order)
        (initOffset blkbits (order + 1)) = found →
      (found = 0 ∧ ∀ larger, order < larger → larger ≤ blkbits + 1 → start / 2 ^ larger ∉ chunks larger) ∨
        start / 2 ^ found ∈ chunks found := by
  induction remaining with
  | zero =>
    intro order found last result
    exact .inl ⟨result.symm, by omega⟩
  | succ remaining ih =>
    intro order found last result
    have here : start / 2 ^ (order + 1) < 2 ^ (blkbits + 3 - (order + 1)) := by
      rw [Nat.div_lt_iff_lt_mul (Nat.two_pow_pos _), ← Nat.pow_add]
      rwa [Nat.sub_add_cancel (by omega)]
    have bit := reflects.bits (by omega) (by omega) here
    rw [bitAt, levelPtr, sMbOffsets_eq small (by omega)] at bit
    rw [findOrderFrom, ← div_two_pow_succ] at result
    cases value : mbTestBit e4b (start / 2 ^ (order + 1)) (.buddy (initOffset blkbits (order + 1))) with
    | false =>
      rw [value] at result
      exact .inr (result ▸ bit.mp value)
    | true =>
      rw [value] at result
      have absent : start / 2 ^ (order + 1) ∉ chunks (order + 1) := by
        rw [← bit, value]
        simp
      refine (ih (by omega) result).imp_left fun ⟨missing, others⟩ => ⟨missing, fun larger more bounded => ?_⟩
      by_cases same : larger = order + 1
      · rwa [same]
      · exact others larger (by omega) bounded

theorem mbFindOrderForBlock_spec (small : blkbits ≤ 15) (reflects : Reflects blkbits e4b chunks)
    (tiling : Tiling (blkbits + 1) free chunks) (mem : start ∈ free)
    (inside : start < 2 ^ (blkbits + 3)) :
    ∃ order, mbFindOrderForBlock blkbits e4b start = some order ∧ start / 2 ^ order ∈ chunks order := by
  refine ⟨_, by rw [mbFindOrderForBlock, if_neg (by omega)], ?_⟩
  have found := @findOrderFrom_spec _ _ _ _ small reflects inside (blkbits + 1) 0 _ (by omega) rfl
  rw [Nat.pow_zero, Nat.div_one] at found
  rcases found with ⟨none, others⟩ | found
  · obtain ⟨order, listed⟩ := tiling.cover mem
    have zero : order = 0 := by
      by_contra pos
      exact others order (by omega) (tiling.bounded listed) listed
    subst zero
    rw [show findOrderFrom blkbits e4b (blkbits + 1) 1 start 0 = 0 from none]
    exact listed
  · exact found

/-! ### Marking used -/

/-- What the loop of `mb_mark_used` leaves. -/
structure Marked (blkbits : Nat) (e4b e4b' : Ext4Buddy) (free : Set Nat) (start len : Nat) : Prop where
  totals : SameTotals e4b e4b'
  bitmap : ∀ block, block ∉ Set.Ico start (start + len) → e4b'.bdBitmap block = e4b.bdBitmap block
  settled : Reflects blkbits e4b' (maximalChunks (blkbits + 1) (free \ Set.Ico start (start + len)))

/-- What holds before each round of `mb_mark_used`: pairs are only around the next block, and `rounds`
rounds are enough. -/
structure Marking (blkbits : Nat) (e4b : Ext4Buddy) (chunks : Nat → Set Nat) (free : Set Nat)
    (start len rounds : Nat) : Prop where
  reflects : Reflects blkbits e4b chunks
  tiling : Tiling (blkbits + 1) free chunks
  around : PairsAround (blkbits + 1) chunks start
  single : len = 0 → Single blkbits chunks
  taken : Set.Ico start (start + len) ⊆ free
  group : free ⊆ Set.Iio (2 ^ (blkbits + 3))
  clear : ∀ block ∈ free, e4b.bdBitmap block = false
  enough : ∀ order ≤ blkbits + 1, (order = 0 ∨ start / 2 ^ order ∈ chunks order) →
    len * (blkbits + 3) + order < rounds

theorem mbWriteBit_addCounter (e4b : Ext4Buddy) (order bit : Nat) (change : Int) (value : Bool)
    (addr : BitmapPtr) : mbWriteBit (addCounter e4b order change) bit value addr =
      addCounter (mbWriteBit e4b bit value addr) order change := by
  cases addr <;> rfl

theorem dropChunk_bdBitmap (e4b : Ext4Buddy) (order index : Nat) :
    (dropChunk blkbits e4b order index).bdBitmap =
      if order = 0 then update e4b.bdBitmap index true else e4b.bdBitmap := by
  cases order <;> rfl

theorem addChunk_bdBitmap (e4b : Ext4Buddy) (order index : Nat) :
    (addChunk blkbits e4b order index).bdBitmap =
      if order = 0 then update e4b.bdBitmap index false else e4b.bdBitmap := by
  cases order <;> rfl

theorem sameTotals_dropChunk (e4b : Ext4Buddy) (order index : Nat) :
    SameTotals e4b (dropChunk blkbits e4b order index) := sameTotals_write ..

theorem sameTotals_addChunk (e4b : Ext4Buddy) (order index : Nat) :
    SameTotals e4b (addChunk blkbits e4b order index) := sameTotals_write ..

/-- A range that starts at a multiple of its size. -/
theorem chunkRange_aligned (aligned : start / 2 ^ order * 2 ^ order = start) :
    chunkRange order (start / 2 ^ order) = Set.Ico start (start + 2 ^ order) := by
  ext number
  rw [chunkRange, mem_ofPred_eq, mem_Ico, Nat.div_eq_iff (Nat.two_pow_pos order)]
  have := Nat.two_pow_pos order
  omega

/-- The next block begins a chunk that is taken whole. -/
theorem Marking.takeWhole (small : blkbits ≤ 15)
    (marking : Marking blkbits e4b chunks free start len (rounds + 1))
    (listed : start / 2 ^ order ∈ chunks order) (aligned : start / 2 ^ order * 2 ^ order = start)
    (fits : 2 ^ order ≤ len) :
    Marking blkbits (dropChunk blkbits e4b order (start / 2 ^ order))
      (eraseChunk chunks order (start / 2 ^ order)) (free \ Set.Ico start (start + 2 ^ order))
      (start + 2 ^ order) (len - 2 ^ order) rounds := by
  have positive := Nat.two_pow_pos order
  have none := PairsAround.erase marking.tiling marking.around listed
  have progress := marking.enough order (marking.tiling.bounded listed) (.inr listed)
  have tiling := marking.tiling.erase listed
  rw [chunkRange_aligned aligned] at tiling
  refine ⟨marking.reflects.erase small listed, tiling,
    fun order' below index pair => absurd pair (none order' below index), fun _ => none, ?_,
    sdiff_subset.trans marking.group, ?_, ?_⟩
  · rintro block ⟨low, high⟩
    refine ⟨marking.taken ⟨by omega, by omega⟩, ?_⟩
    rw [mem_Ico]
    omega
  · rintro block ⟨mem, outside⟩
    rw [dropChunk_bdBitmap]
    split
    case isTrue zero =>
        subst zero
        rw [update_of_ne, marking.clear block mem]
        rintro rfl
        exact outside ⟨by omega, by omega⟩
    case isFalse => exact marking.clear block mem
  · intro order' bounded _
    have less : (len - 2 ^ order + 1) * (blkbits + 3) ≤ len * (blkbits + 3) :=
      Nat.mul_le_mul_right _ (by omega)
    rw [Nat.add_mul] at less
    omega

/-- Both halves of a chunk of order 1 are free, so clearing their bits changes nothing. -/
theorem splitChunk_bdBitmap (tiling : Tiling (blkbits + 1) free chunks)
    (clear : ∀ block ∈ free, e4b.bdBitmap block = false) (listed : index ∈ chunks (half + 1)) :
    (addChunk blkbits (addChunk blkbits (dropChunk blkbits e4b (half + 1) index) half (2 * index))
      half (2 * index + 1)).bdBitmap = e4b.bdBitmap := by
  rw [addChunk_bdBitmap, addChunk_bdBitmap, dropChunk_bdBitmap, if_neg (succ_ne_zero half)]
  cases half with
  | zero =>
    have child (block : Nat) (inChunk : block / 2 = index) : e4b.bdBitmap block = false := by
      refine clear block (tiling.rangeFree listed ?_)
      rw [chunkRange, mem_ofPred_eq, pow_one, inChunk]
    have lower := child (2 * index) (by omega)
    have upper := child (2 * index + 1) (by omega)
    rw [if_pos rfl, if_pos rfl, ← lower, update_eq_self, lower, ← upper, update_eq_self]
  | succ half => rw [if_neg (succ_ne_zero half), if_neg (succ_ne_zero half)]

/-- The chunk of the next block is split. -/
theorem Marking.split (small : blkbits ≤ 15)
    (marking : Marking blkbits e4b chunks free start len (rounds + 1)) (more : len ≠ 0)
    (listed : start / 2 ^ (half + 1) ∈ chunks (half + 1)) :
    Marking blkbits
      (addChunk blkbits (addChunk blkbits (dropChunk blkbits e4b (half + 1) (start / 2 ^ (half + 1)))
        half (2 * (start / 2 ^ (half + 1)))) half (2 * (start / 2 ^ (half + 1)) + 1))
      (splitChunk chunks half (start / 2 ^ (half + 1))) free start len rounds := by
  have bounded := marking.tiling.bounded listed
  have tiling := marking.tiling.split listed
  have progress := marking.enough (half + 1) bounded (.inr listed)
  refine ⟨marking.reflects.split small marking.tiling listed, tiling,
    marking.around.split (by omega), fun zero => absurd zero more, marking.taken, marking.group, ?_, ?_⟩
  · rw [splitChunk_bdBitmap marking.tiling marking.clear listed]
    exact marking.clear
  · intro order' _ here
    have now : start / 2 ^ half ∈ splitChunk chunks half (start / 2 ^ (half + 1)) half := by
      simp only [splitChunk, mem_insertChunk]
      have halved := div_two_pow_succ start half
      rcases mod_two_eq_zero_or_one (start / 2 ^ half) with even | odd
      · exact .inr (.inl ⟨trivial, by omega⟩)
      · exact .inl ⟨trivial, by omega⟩
    rcases here with rfl | here
    · omega
    · rw [tiling.unique here now]
      omega

theorem markUsedFrom_spec (small : blkbits ≤ 15) (rounds ret : Nat)
    (marking : Marking blkbits e4b chunks free start len rounds) :
    ∃ e4b' ret', markUsedFrom blkbits rounds e4b start len ret = some (e4b', ret') ∧
      Marked blkbits e4b e4b' free start len := by
  induction rounds generalizing e4b chunks free start len ret with
  | zero =>
    have := marking.enough 0 (by omega) (.inl rfl)
    omega
  | succ rounds ih =>
    rw [markUsedFrom]
    by_cases done : len = 0
    · subst done
      refine ⟨e4b, ret, by rw [if_pos rfl], .refl e4b, fun _ _ => rfl, ?_⟩
      rw [show Set.Ico start (start + 0) = ∅ from Set.Ico_self start, sdiff_empty,
        ← marking.tiling.eq_maximal (marking.single rfl)]
      exact marking.reflects
    · have startFree : start ∈ free := marking.taken ⟨le_refl _, by omega⟩
      obtain ⟨order, found, listed⟩ := mbFindOrderForBlock_spec small marking.reflects marking.tiling
        startFree (marking.group startFree)
      obtain ⟨bounded, inside⟩ := marking.reflects.bounded listed
      have positive := Nat.two_pow_pos order
      rw [if_neg done, found]
      dsimp only
      rw [mbFindBuddy_eq bounded]
      dsimp only
      by_cases whole : start / 2 ^ order * 2 ^ order = start ∧ len ≥ 2 ^ order
      · rw [if_pos whole, if_neg (by omega)]
        obtain ⟨e4b', ret', rest, marked⟩ :=
          ih ret (marking.takeWhole small listed whole.1 whole.2)
        refine ⟨e4b', ret', rest, (sameTotals_dropChunk ..).trans marked.totals, ?_, ?_⟩
        · intro block outside
          rw [mem_Ico] at outside
          rw [marked.bitmap block (by rw [mem_Ico]; omega), dropChunk_bdBitmap]
          split
          case isTrue zero =>
              subst zero
              rw [update_of_ne]
              omega
          case isFalse => rfl
        · have blocks : free \ Set.Ico start (start + len) = (free \ Set.Ico start (start + 2 ^ order)) \
                Set.Ico (start + 2 ^ order) (start + 2 ^ order + (len - 2 ^ order)) := by
            rw [Set.sdiff_sdiff]
            congr 1
            ext block
            simp only [mem_union, mem_Ico]
            omega
          rw [blocks]
          exact marked.settled
      · rw [if_neg whole]
        cases order with
        | zero =>
          omega
        | succ half =>
          dsimp only
          rw [mbFindBuddy_eq (by omega), ← div_two_pow_succ, mul_comm _ 2]
          obtain ⟨e4b', ret', rest, marked⟩ := ih
            (if ret = 0 then len ||| ((half + 1) <<< 16) else ret) (marking.split small done listed)
          have same := splitChunk_bdBitmap marking.tiling marking.clear listed
          refine ⟨e4b', ret', ?_, ?_, ?_, marked.settled⟩
          · rw [← rest]
            simp only [addChunk, dropChunk, mbWriteBit_addCounter]
          · exact ((sameTotals_dropChunk ..).trans ((sameTotals_addChunk ..).trans
              (sameTotals_addChunk ..))).trans marked.totals
          · intro block outside
            rw [marked.bitmap block outside, same]

/-! ### Freeing -/

/-- The block bitmap is clear exactly for the free blocks. -/
def ClearFor (blkbits : Nat) (e4b : Ext4Buddy) (free : Set Nat) : Prop :=
  ∀ block < 2 ^ (blkbits + 3), (e4b.bdBitmap block = false ↔ block ∈ free)

/-- The two bits that `mb_free_blocks` tests around a chunk say whether both halves of the enclosing
range are chunks. -/
theorem pair_iff_bits (reflects : Reflects blkbits e4b chunks)
    (tiling : Tiling (blkbits + 1) free chunks) (clear : ClearFor blkbits e4b free)
    (listed : number / 2 ^ order ∈ chunks order) :
    (bitAt blkbits e4b order (2 * (number / 2 ^ (order + 1))) ||
        bitAt blkbits e4b order (2 * (number / 2 ^ (order + 1)) + 1)) = false ↔
      Pair chunks order (number / 2 ^ (order + 1)) := by
  obtain ⟨bounded, inside⟩ := reflects.bounded listed
  have halved := div_two_pow_succ number order
  have upper : 2 * (number / 2 ^ (order + 1)) + 1 < 2 ^ (blkbits + 3 - order) := by
    have even : 2 ^ (blkbits + 3 - order) = 2 ^ (blkbits + 2 - order) * 2 := by
      rw [show blkbits + 3 - order = blkbits + 2 - order + 1 by omega, pow_succ]
    omega
  have bit (half : Nat) (near : half / 2 = number / 2 ^ (order + 1))
      (bounded' : half < 2 ^ (blkbits + 3 - order)) :
      bitAt blkbits e4b order half = false ↔ half ∈ chunks order := by
    by_cases zero : order = 0
    · -- The block bitmap shows every free block; one beside a chunk of order 0 is such a chunk.
      subst zero
      rw [Nat.pow_zero, Nat.div_one] at listed
      refine (clear half bounded').trans ⟨fun mem => ?_, fun mem => ?_⟩
      · obtain ⟨order', found⟩ := tiling.cover mem
        by_cases zero' : order' = 0
        · subst zero'
          rwa [Nat.pow_zero, Nat.div_one] at found
        · have same : half / 2 ^ order' = number / 2 ^ order' := by
            rw [show order' = 1 + (order' - 1) by omega, Nat.pow_add, ← Nat.div_div_eq_div_mul,
              ← Nat.div_div_eq_div_mul, Nat.pow_one, near]
            rfl
          rw [same] at found
          have here : number / 2 ^ 0 ∈ chunks 0 := by rwa [Nat.pow_zero, Nat.div_one]
          exact absurd (tiling.unique found here) zero'
      · refine tiling.rangeFree mem ?_
        rw [chunkRange, mem_ofPred_eq, Nat.pow_zero, Nat.div_one]
    · exact reflects.bits (by omega) bounded bounded'
  rw [or_eq_false_iff, bit _ (by omega) (by omega), bit _ (by omega) upper]
  exact Iff.rfl

/-- What a merging round of `mb_free_blocks` does. At order 0 it leaves the bits alone. -/
def mergeRound (blkbits : Nat) (e4b : Ext4Buddy) (order index : Nat) : Ext4Buddy :=
  let buddy := levelPtr blkbits order
  let e4b := if order > 0
    then mbWriteBit (mbWriteBit e4b (2 * index) true buddy) (2 * index + 1) true buddy else e4b
  let e4b := addCounter (addCounter e4b order (-1)) order (-1)
  mbWriteBit (addCounter e4b (order + 1) 1) index false (levelPtr blkbits (order + 1))

theorem mergeRound_bdBitmap (order index : Nat) :
    (mergeRound blkbits e4b order index).bdBitmap = e4b.bdBitmap := by
  cases order <;> rfl

theorem sameTotals_mergeRound (order index : Nat) : SameTotals e4b (mergeRound blkbits e4b order index) := by
  cases order <;> exact ⟨rfl, rfl, rfl⟩

section

variable (small : blkbits ≤ 15)

include small

theorem mergeRound_reflects (reflects : Reflects blkbits e4b chunks)
    (tiling : Tiling (blkbits + 1) free chunks) (below : order < blkbits + 1)
    (pair : Pair chunks order index) :
    Reflects blkbits (mergeRound blkbits e4b order index) (mergeChunks chunks order index) := by
  refine (reflects.merge small tiling below pair).congr ?_ ?_
  · cases order <;> rfl
  · cases order <;> rfl

theorem coalesce_spec (rounds : Nat) (reflects : Reflects blkbits e4b chunks)
    (tiling : Tiling (blkbits + 1) free chunks) (only : PairOnly (blkbits + 1) chunks number order)
    (listed : number / 2 ^ order ∈ chunks order) (clear : ClearFor blkbits e4b free)
    (enough : blkbits + 1 < order + rounds) :
    ∃ e4b', coalesce blkbits rounds e4b (number / 2 ^ order) order (levelPtr blkbits order) = some e4b' ∧
      SameTotals e4b e4b' ∧ e4b'.bdBitmap = e4b.bdBitmap ∧
      Reflects blkbits e4b' (maximalChunks (blkbits + 1) free) := by
  induction rounds generalizing e4b chunks order with
  | zero =>
    have := tiling.bounded listed
    omega
  | succ rounds ih =>
    have bounded := tiling.bounded listed
    have test := pair_iff_bits reflects tiling clear listed
    have settled (none : ∀ order' < blkbits + 1, ∀ index, ¬Pair chunks order' index) :
        Reflects blkbits e4b (maximalChunks (blkbits + 1) free) := by
      rw [← tiling.eq_maximal none]
      exact reflects
    rw [coalesce, ← div_two_pow_succ, mul_comm _ 2]
    rw [← bitAt, ← bitAt]
    by_cases pair : Pair chunks order (number / 2 ^ (order + 1))
    · rw [test.mpr pair]
      by_cases top : order = blkbits + 1
      · refine ⟨e4b, ?_, .refl e4b, rfl, settled ?_⟩
        · rw [top, mbFindBuddy_none]
          rfl
        · intro order' below index other
          have := (only order' below index other).1
          omega
      · have below : order < blkbits + 1 := by omega
        have now : number / 2 ^ (order + 1) ∈
            mergeChunks chunks order (number / 2 ^ (order + 1)) (order + 1) :=
          mem_insertChunk.mpr (.inl ⟨rfl, rfl⟩)
        obtain ⟨e4b', rest, totals, bitmap, reflects'⟩ := ih
          (mergeRound_reflects small reflects tiling below pair) (tiling.merge below pair) only.merge
          now (fun block inside => by rw [mergeRound_bdBitmap]; exact clear block inside) (by omega)
        rw [mergeRound_bdBitmap] at bitmap
        refine ⟨e4b', ?_, (sameTotals_mergeRound order _).trans totals, bitmap, reflects'⟩
        rw [mbFindBuddy_eq (by omega), Nat.mul_div_cancel_left _ Nat.two_pos]
        exact rest
    · have set := eq_true_of_not_eq_false (fun clear => pair (test.mp clear))
      rw [set]
      refine ⟨e4b, rfl, .refl e4b, rfl, settled ?_⟩
      intro order' below index other
      obtain ⟨rfl, same⟩ := only order' below index other
      rw [same] at pair
      exact pair other

theorem freeBlock_spec (reflects : Reflects blkbits e4b (maximalChunks (blkbits + 1) free))
    (clear : ClearFor blkbits e4b free) {block : Nat} (inside : block < 2 ^ (blkbits + 3))
    (used : block ∉ free) :
    ∃ e4b', freeBlock blkbits e4b block = some e4b' ∧ SameTotals e4b e4b' ∧
      ClearFor blkbits e4b' (free ∪ {block}) ∧
      Reflects blkbits e4b' (maximalChunks (blkbits + 1) (free ∪ {block})) := by
  have alone : chunkRange 0 block = {block} := by
    ext number
    rw [chunkRange, mem_ofPred_eq, Nat.pow_zero, Nat.div_one, mem_singleton_iff]
  have tiling := maximal_tiling (blkbits + 1) free
  have fresh : block ∉ maximalChunks (blkbits + 1) free 0 := fun mem =>
    used (tiling.rangeFree mem (by rw [alone]; rfl))
  have added := tiling.insert (by omega)
    (show Disjoint (chunkRange 0 block) free by rw [alone]; exact disjoint_singleton_left.mpr used)
  rw [alone] at added
  have here : block / 2 ^ 0 ∈ insertChunk (maximalChunks (blkbits + 1) free) 0 block 0 := by
    rw [Nat.pow_zero, Nat.div_one]
    exact mem_insertChunk.mpr (.inl ⟨rfl, rfl⟩)
  have clear' : ClearFor blkbits (addChunk blkbits e4b 0 block) (free ∪ {block}) := by
    intro other bounded
    rw [addChunk_bdBitmap, if_pos rfl]
    by_cases same : other = block
    · subst same
      simp
    · rw [update_of_ne same, clear other bounded]
      simp [same]
  obtain ⟨e4b', done, totals, bitmap, reflects'⟩ := coalesce_spec small (blkbits + 2)
    (reflects.insert small (by omega) inside fresh) added
    (pairOnly_insert (maximal_single (blkbits + 1) free) block) here clear' (by omega)
  rw [Nat.pow_zero, Nat.div_one] at done
  exact ⟨e4b', done, (sameTotals_addChunk ..).trans totals, fun other bounded =>
    bitmap ▸ clear' other bounded, reflects'⟩

theorem freeBlocksFrom_spec (count : Nat)
    (reflects : Reflects blkbits e4b (maximalChunks (blkbits + 1) free)) (clear : ClearFor blkbits e4b free)
    (inside : first + count ≤ 2 ^ (blkbits + 3)) (used : Disjoint (Set.Ico first (first + count)) free) :
    ∃ e4b', freeBlocksFrom blkbits count e4b first = some e4b' ∧ SameTotals e4b e4b' ∧
      ClearFor blkbits e4b' (free ∪ Set.Ico first (first + count)) ∧
      Reflects blkbits e4b' (maximalChunks (blkbits + 1) (free ∪ Set.Ico first (first + count))) := by
  induction count generalizing e4b free first with
  | zero =>
    rw [show Set.Ico first (first + 0) = ∅ from Set.Ico_self first, union_empty]
    exact ⟨e4b, rfl, .refl e4b, clear, reflects⟩
  | succ count ih =>
    obtain ⟨middle, done, totals, clear', reflects'⟩ := freeBlock_spec small reflects clear (by omega)
      (disjoint_left.mp used ⟨le_refl _, by omega⟩)
    have shape : Set.Ico first (first + (count + 1)) = {first} ∪ Set.Ico (first + 1) (first + 1 + count) := by
      ext block
      simp only [mem_union, mem_singleton_iff, mem_Ico]
      omega
    have used' : Disjoint (Set.Ico (first + 1) (first + 1 + count)) (free ∪ {first}) := by
      rw [disjoint_union_right]
      refine ⟨used.mono_left (by rw [shape]; exact subset_union_right), ?_⟩
      rw [disjoint_singleton_right, mem_Ico]
      omega
    obtain ⟨e4b', rest, totals', clear'', reflects''⟩ :=
      ih reflects' clear' (by omega) used'
    rw [union_assoc, ← shape] at clear'' reflects''
    exact ⟨e4b', by rw [freeBlocksFrom, done]; exact rest, totals.trans totals', clear'', reflects''⟩

end

/-! ### The whole calls -/

/-- `mb_set_bits` sets the bits of the range and no other. -/
theorem setBitsFrom_spec (stop : Nat) (rounds : Nat) : ∀ {bm : Nat → Bool} {cur : Nat},
    stop ≤ cur + rounds → ∀ bit, setBitsFrom bm stop rounds cur bit =
      if cur ≤ bit ∧ bit < stop then true else bm bit := by
  induction rounds with
  | zero =>
    intro bm cur enough bit
    rw [setBitsFrom, if_neg (by omega)]
  | succ rounds ih =>
    intro bm cur enough bit
    rw [setBitsFrom]
    by_cases more : cur < stop
    · rw [if_pos more]
      by_cases word : cur % 32 = 0 ∧ stop - cur ≥ 32
      · rw [if_pos word, ih (by omega)]
        split_ifs <;> first | rfl | omega
      · rw [if_neg word, ih (by omega)]
        by_cases same : bit = cur
        · subst same
          rw [update_self, if_neg (by omega), if_pos (by omega)]
        · rw [update_of_ne same]
          exact if_congr (by omega) rfl rfl
    · rw [if_neg more, if_neg (by omega)]

theorem largestFreeFrom_spec {counters : Nat → Int} (top : Nat)
    (counted : ∀ order ≤ top, counters order > 0 ↔ (chunks order).Nonempty) :
    (largestFreeFrom counters top = -1 ∧ ∀ k ≤ top, chunks k = ∅) ∨
      ∃ largest ≤ top, largestFreeFrom counters top = largest ∧ (chunks largest).Nonempty ∧
        ∀ k ≤ top, largest < k → chunks k = ∅ := by
  induction top with
  | zero =>
    rw [largestFreeFrom]
    split_ifs with some
    · exact .inr ⟨0, le_refl 0, rfl, (counted 0 (le_refl 0)).mp some, by omega⟩
    · refine .inl ⟨rfl, fun k bounded => ?_⟩
      rw [counted 0 (le_refl 0), not_nonempty_iff_eq_empty] at some
      rwa [le_zero.mp bounded]
  | succ top ih =>
    rw [largestFreeFrom]
    split_ifs with some
    · refine .inr ⟨top + 1, le_refl _, by push_cast; rfl, (counted _ (le_refl _)).mp some, ?_⟩
      omega
    · rw [counted _ (le_refl _), not_nonempty_iff_eq_empty] at some
      rcases ih (fun order bounded => counted order (by omega)) with
        ⟨none, empty⟩ | ⟨largest, bounded, same, found, above⟩
      · refine .inl ⟨none, fun k bounded => ?_⟩
        by_cases last : k = top + 1
        · rwa [last]
        · exact empty k (by omega)
      · refine .inr ⟨largest, by omega, same, found, fun k bounded more => ?_⟩
        by_cases last : k = top + 1
        · rwa [last]
        · exact above k (by omega) more

theorem freeBlocks_group (blkbits : Nat) (e4b : Ext4Buddy) :
    freeBlocks blkbits e4b ⊆ Set.Iio (2 ^ (blkbits + 3)) := fun _ mem => mem.1

theorem freeBlocks_finite (blkbits : Nat) (e4b : Ext4Buddy) : (freeBlocks blkbits e4b).Finite :=
  (finite_Iio _).subset (freeBlocks_group blkbits e4b)

theorem clearFor_freeBlocks (blkbits : Nat) (e4b : Ext4Buddy) :
    ClearFor blkbits e4b (freeBlocks blkbits e4b) := fun _ bounded =>
  ⟨fun clear => ⟨bounded, clear⟩, fun mem => mem.2⟩

/-- Canonical buddy data describe the maximal chunks of the free blocks. -/
theorem Canonical.reflects (canonical : Canonical blkbits e4b) :
    Reflects blkbits e4b (maximalChunks (blkbits + 1) (freeBlocks blkbits e4b)) where
  bounded := by
    rintro order index ⟨bounded, whole, _⟩
    have first := freeBlocks_group blkbits e4b (whole (mul_two_pow_div index order))
    refine ⟨bounded, ?_⟩
    rw [← Nat.sub_add_cancel (show order ≤ blkbits + 3 by omega), Nat.pow_add] at first
    exact Nat.lt_of_mul_lt_mul_right first
  bits pos bounded inside :=
    canonical.buddies _ _ _ (by omega) (mbFindBuddy_eq bounded) _ inside
  counters bounded := canonical.counters _ bounded

/-- Buddy data that describe the maximal chunks of the free blocks, with the right totals, are
canonical. -/
theorem Reflects.canonical
    (reflects : Reflects blkbits e4b (maximalChunks (blkbits + 1) (freeBlocks blkbits e4b)))
    (counted : e4b.bbFree = (freeBlocks blkbits e4b).ncard)
    (fragments : e4b.bbFragments = (runStarts (freeBlocks blkbits e4b)).ncard)
    (firstFree : ∀ block ∈ freeBlocks blkbits e4b, e4b.bbFirstFree ≤ block)
    (largest : e4b.bbLargestFreeOrder = largestFreeFrom e4b.bbCounters (blkbits + 1)) :
    Canonical blkbits e4b where
  buddies := by
    intro order buddy max nonzero found index inside
    have bounded : order ≤ blkbits + 1 := by
      by_contra large
      rw [mbFindBuddy, if_pos (by omega)] at found
      cases found
    rw [mbFindBuddy_eq bounded] at found
    cases found
    exact reflects.bits (by omega) bounded inside
  counters _ bounded := reflects.counters bounded
  free := counted
  fragments := fragments
  largest := by
    rw [largest]
    refine largestFreeFrom_spec (blkbits + 1) fun order bounded => ?_
    rw [reflects.counters bounded, gt_iff_lt, Int.natCast_pos, ncard_pos (reflects.finite order)]
    exact Iff.rfl
  firstFree := firstFree

theorem freeBefore_iff (inside : first ≤ 2 ^ (blkbits + 3)) :
    freeBefore e4b first = true ↔ first ≠ 0 ∧ first - 1 ∈ freeBlocks blkbits e4b := by
  rw [freeBefore, and_eq_true, decide_eq_true_eq, not_eq_true']
  refine and_congr_right fun nonzero => ⟨fun clear => ⟨?_, clear⟩, fun mem => mem.2⟩
  omega

theorem freeBehind_iff {next : Nat} : freeBehind blkbits e4b next = true ↔ next ∈ freeBlocks blkbits e4b := by
  rw [freeBehind, sMbMaxs_eq (zero_le _), and_eq_true, decide_eq_true_eq, not_eq_true']
  exact Iff.rfl

theorem group_size (blkbits : Nat) : 2 ^ blkbits * 8 = 2 ^ (blkbits + 3) := by rw [Nat.pow_add]

theorem ncard_union_Ico (finite : free.Finite) (fresh : Disjoint (Set.Ico first (first + count)) free) :
    (free ∪ Set.Ico first (first + count)).ncard = free.ncard + count := by
  rw [ncard_union_eq fresh.symm finite (finite_Ico _ _), ncard_Ico_nat, Nat.add_sub_cancel_left]

section

variable (small : blkbits ≤ 15)

include small

/-- Freeing a range that is not empty keeps the buddy data canonical. -/
theorem mbFreeBlocks_canonical (canonical : Canonical blkbits e4b)
    (pos : 0 < count) (inside : first + count ≤ 2 ^ (blkbits + 3))
    (used : ∀ block, first ≤ block → block < first + count → e4b.bdBitmap block = true) :
    ∃ e4b', mbFreeBlocks blkbits e4b first count = some e4b' ∧ Canonical blkbits e4b' := by
  have fresh : Disjoint (Set.Ico first (first + count)) (freeBlocks blkbits e4b) := by
    rw [disjoint_left]
    rintro block ⟨low, high⟩ mem
    have clear := mem.2
    rw [used block low high] at clear
    cases clear
  have start : Reflects blkbits (freeCounters blkbits e4b first count) _ :=
    canonical.reflects.congr rfl rfl
  obtain ⟨e4b', freed, totals, clear, reflects⟩ :=
    freeBlocksFrom_spec small count start (clearFor_freeBlocks blkbits e4b) inside fresh
  have blocks : freeBlocks blkbits e4b' = freeBlocks blkbits e4b ∪ Set.Ico first (first + count) := by
    ext block
    refine ⟨fun mem => (clear block mem.1).mp mem.2, fun mem => ?_⟩
    have bounded : block < 2 ^ (blkbits + 3) := by
      rcases mem with mem | ⟨_, high⟩
      · exact mem.1
      · omega
    exact ⟨bounded, (clear block bounded).mpr mem⟩
  have blocks' : freeBlocks blkbits (mbSetLargestFreeOrder blkbits e4b') = _ := blocks
  have finite := freeBlocks_finite blkbits e4b
  refine ⟨mbSetLargestFreeOrder blkbits e4b', ?_, Reflects.canonical ?_ ?_ ?_ ?_ rfl⟩
  · rw [mbFreeBlocks, group_size, if_neg (by omega), freed]
    rfl
  · rw [blocks']
    exact reflects.congr rfl rfl
  · rw [blocks', ncard_union_Ico finite fresh]
    push_cast
    rw [← canonical.free]
    exact totals.free
  · rw [blocks', ncard_runStarts_union finite pos fresh (freeBefore_iff (by omega)) freeBehind_iff,
      ← canonical.fragments]
    refine totals.fragments.trans ?_
    rw [freeCounters]
    cases freeBefore e4b first <;> cases freeBehind blkbits e4b (first + count) <;> simp
  · rw [blocks']
    intro block mem
    refine totals.firstFree.le.trans ?_
    change (if first < e4b.bbFirstFree then (first : Int) else e4b.bbFirstFree) ≤ block
    rcases mem with mem | ⟨low, _⟩
    · have := canonical.firstFree block mem
      omega
    · omega

/-- Marking a free extent that is not empty used keeps the buddy data canonical. -/
theorem mbMarkUsed_canonical (canonical : Canonical blkbits e4b)
    (pos : 0 < len) (inside : start + len ≤ 2 ^ (blkbits + 3))
    (unused : ∀ block, start ≤ block → block < start + len → e4b.bdBitmap block = false) :
    ∃ e4b' ret, mbMarkUsed blkbits e4b start len = some (e4b', ret) ∧ Canonical blkbits e4b' := by
  have taken : Set.Ico start (start + len) ⊆ freeBlocks blkbits e4b := by
    rintro block ⟨low, high⟩
    exact ⟨by omega, unused block low high⟩
  have single := maximal_single (blkbits + 1) (freeBlocks blkbits e4b)
  have marking : Marking blkbits (markCounters blkbits e4b start len)
      (maximalChunks (blkbits + 1) (freeBlocks blkbits e4b)) (freeBlocks blkbits e4b) start len
      (markRounds blkbits len) := by
    refine ⟨canonical.reflects.congr rfl rfl, maximal_tiling _ _,
      fun order below index pair => absurd pair (single order below index), fun _ => single, taken,
      freeBlocks_group blkbits e4b, fun block mem => mem.2, ?_⟩
    intro order bounded _
    rw [markRounds, add_mul]
    omega
  obtain ⟨e4b', ret, marked, totals, bitmap, reflects⟩ :=
    markUsedFrom_spec small (markRounds blkbits len) 0 marking
  let final : Ext4Buddy :=
    { mbSetLargestFreeOrder blkbits e4b' with bdBitmap := mbSetBits e4b'.bdBitmap start len }
  have bits (block : Nat) : final.bdBitmap block =
      if start ≤ block ∧ block < start + len then true else e4b.bdBitmap block := by
    refine (setBitsFrom_spec (start + len) len (by omega) block).trans ?_
    split
    case isTrue => rfl
    case isFalse outside => exact bitmap block outside
  have blocks : freeBlocks blkbits final = freeBlocks blkbits e4b \ Set.Ico start (start + len) := by
    ext block
    change block < _ ∧ final.bdBitmap block = false ↔ (block < _ ∧ _) ∧ ¬(start ≤ block ∧ _)
    rw [bits block]
    split
    case isTrue within => simp [within.1, within.2]
    case isFalse outside => simp [outside]
  have fresh : Disjoint (Set.Ico start (start + len)) (freeBlocks blkbits final) := by
    rw [blocks]
    exact disjoint_sdiff_right
  have before : freeBlocks blkbits final ∪ Set.Ico start (start + len) = freeBlocks blkbits e4b := by
    rw [blocks, sdiff_union_of_subset taken]
  have finite := freeBlocks_finite blkbits final
  refine ⟨final, ret, ?_, Reflects.canonical ?_ ?_ ?_ ?_ rfl⟩
  · rw [mbMarkUsed, group_size, if_neg (by omega), marked]
    rfl
  · rw [blocks]
    exact reflects.congr rfl rfl
  · have count := ncard_union_Ico finite fresh
    rw [before] at count
    have counted := canonical.free
    refine totals.free.trans ?_
    change e4b.bbFree - len = _
    omega
  · have left : freeBefore e4b start = true ↔ start ≠ 0 ∧ start - 1 ∈ freeBlocks blkbits final := by
      rw [freeBefore_iff (show start ≤ 2 ^ (blkbits + 3) by omega), blocks]
      refine and_congr_right fun nonzero => (and_iff_left ?_).symm
      rw [mem_Ico]
      omega
    have right : freeBehind blkbits e4b (start + len) = true ↔ start + len ∈ freeBlocks blkbits final := by
      rw [freeBehind_iff, blocks]
      refine (and_iff_left ?_).symm
      rw [mem_Ico]
      omega
    have count := ncard_runStarts_union finite pos fresh left right
    rw [before, ← canonical.fragments] at count
    refine totals.fragments.trans ?_
    rw [markCounters]
    revert count
    cases freeBefore e4b start <;> cases freeBehind blkbits e4b (start + len) <;> simp <;> omega
  · rw [blocks]
    rintro block ⟨mem, outside⟩
    have above := canonical.firstFree block mem
    rw [mem_Ico] at outside
    refine totals.firstFree.le.trans ?_
    change (if e4b.bbFirstFree = start then e4b.bbFirstFree + len else e4b.bbFirstFree) ≤ block
    omega

/-! ### Runs -/

/-- A call on a range that is not empty succeeds and keeps the buddy data canonical. -/
theorem mbCall_canonical (canonical : Canonical blkbits e4b)
    (allowed : Allowed blkbits e4b action) (pos : 0 < action.blocks.2) :
    ∃ e4b' events, mbCall blkbits e4b action = some (e4b', events) ∧ Canonical blkbits e4b' := by
  cases action with
  | markUsed start len =>
    obtain ⟨e4b', ret, called, canonical'⟩ :=
      mbMarkUsed_canonical small canonical (show 0 < len from pos) allowed.1 allowed.2
    exact ⟨e4b', [ret], by rw [mbCall, called]; rfl, canonical'⟩
  | freeBlocks first count =>
    obtain ⟨e4b', called, canonical'⟩ :=
      mbFreeBlocks_canonical small canonical (show 0 < count from pos) allowed.1 allowed.2
    exact ⟨e4b', [], by rw [mbCall, called]; rfl, canonical'⟩

theorem mbStep_canonical {e4b' : Ext4Buddy} {events : List Nat}
    (pos : 0 < action.blocks.2) (canonical : Canonical blkbits e4b)
    (taken : MbStep blkbits e4b action events e4b') : Canonical blkbits e4b' := by
  obtain ⟨next, events', called, canonical'⟩ := mbCall_canonical small canonical taken.1 pos
  rw [taken.2] at called
  cases called
  exact canonical'

end

/-- Over every run of calls on ranges that are not empty the buddy data stay those that the block bitmap
determines, however the bitmap came about, and no further such call fails. -/
theorem mbRun_canonical (blkbits : Nat) (small : blkbits ≤ 15) (start last : Ext4Buddy)
    (actions : List MbAction) (trace : List Nat) (initially : Canonical blkbits start)
    (positive : ∀ action ∈ actions, 0 < action.blocks.2)
    (run : MbRun blkbits start actions trace last) :
    Canonical blkbits last ∧ (∀ other, Canonical blkbits other →
        (∀ block < 2 ^ (blkbits + 3), last.bdBitmap block = other.bdBitmap block) →
        SameBuddies blkbits last other) ∧
      ∀ action, Allowed blkbits last action → 0 < action.blocks.2 →
        ∃ next events, mbCall blkbits last action = some (next, events) := by
  have canonical : (fun (_ : List Nat) => Canonical blkbits) trace last :=
    run.invariant_of_actions positive initially fun allowed => mbStep_canonical small allowed
  refine ⟨canonical, fun other canonical' => Canonical.determined canonical canonical', ?_⟩
  intro action allowed nonempty
  obtain ⟨next, events, called, _⟩ := mbCall_canonical small canonical allowed nonempty
  exact ⟨next, events, called⟩

/-- A group of blocks of 1024 bytes all of which are in use. -/
def fullGroup : Ext4Buddy where
  bdBitmap _ := true
  bdBuddy _ := true
  bbFirstFree := 0
  bbFree := 0
  bbFragments := 0
  bbLargestFreeOrder := -1
  bbCounters _ := 0

theorem freeBlocks_fullGroup : freeBlocks 10 fullGroup = ∅ := by
  ext block
  simp [freeBlocks, fullGroup]

theorem chunksOf_fullGroup (order : Nat) : chunksOf 10 fullGroup order = ∅ := by
  rw [chunksOf, freeBlocks_fullGroup]
  ext index
  rw [mem_empty_iff_false, iff_false]
  rintro ⟨_, whole, _⟩
  exact whole (mul_two_pow_div index order)

theorem fullGroup_canonical : Canonical 10 fullGroup where
  buddies := by
    intro order buddy max _ _ index _
    rw [chunksOf_fullGroup]
    cases buddy <;> simp [mbTestBit, fullGroup]
  counters order _ := by
    rw [chunksOf_fullGroup, ncard_empty]
    rfl
  free := by
    rw [freeBlocks_fullGroup, ncard_empty]
    rfl
  fragments := by
    rw [freeBlocks_fullGroup, runStarts_empty, ncard_empty]
    rfl
  largest := .inl ⟨rfl, fun order _ => chunksOf_fullGroup order⟩
  firstFree := by
    rw [freeBlocks_fullGroup]
    intro block mem
    cases mem

/-- Freeing two blocks of a full group. -/
theorem mbRun_canonical_full :
    ∃ trace last, MbRun 10 fullGroup [.freeBlocks 4 2] trace last ∧ Canonical 10 last := by
  have allowed : Allowed 10 fullGroup (.freeBlocks 4 2) := ⟨by decide, fun _ _ _ => rfl⟩
  obtain ⟨next, events, called⟩ := (mbRun_canonical 10 (by decide) fullGroup fullGroup [] []
    fullGroup_canonical (by simp) .nil).2.2 (.freeBlocks 4 2) allowed (by decide)
  have run : MbRun 10 fullGroup [.freeBlocks 4 2] _ _ := .snoc .nil ⟨allowed, called⟩
  exact ⟨_, _, run, (mbRun_canonical 10 (by decide) _ _ _ _ fullGroup_canonical (by decide) run).1⟩

/-- Freeing no block at all between two blocks in use counts one fragment of free blocks more. -/
theorem mbFreeBlocks_empty_counts_fragment :
    ∃ last, Canonical 10 fullGroup ∧ MbRun 10 fullGroup [.freeBlocks 4 0] [] last ∧
      freeBlocks 10 last = ∅ ∧ last.bbFragments = 1 ∧ ¬Canonical 10 last := by
  have allowed : Allowed 10 fullGroup (.freeBlocks 4 0) := ⟨by decide, fun _ _ _ => rfl⟩
  have run : MbRun 10 fullGroup [.freeBlocks 4 0] [] _ := .snoc .nil ⟨allowed, rfl⟩
  refine ⟨_, fullGroup_canonical, run, freeBlocks_fullGroup, rfl, fun canonical => ?_⟩
  have none : freeBlocks 10 (mbSetLargestFreeOrder 10 (freeCounters 10 fullGroup 4 0)) = ∅ :=
    freeBlocks_fullGroup
  have fragments := canonical.fragments
  rw [none, runStarts_empty, ncard_empty] at fragments
  exact absurd fragments (by decide)

end LinuxKernel.Fs.Mballoc
