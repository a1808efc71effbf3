/-
Module: LinuxKernel.Mm.Percpu
Purpose: The area map of a chunk of `mm/percpu.c`. The list `map` is the used part of the array
  `chunk->map`; an entry is positive for a free area and negative for an allocated one. A result `none` is a
  `BUG_ON`. Every edit replaces neighbouring entries by others of the same total length: `EntryAt.replace`.
Trusted boundary: human-reviewed spec
Main exports: pcpuAllocArea, pcpuFreeArea, AreaMap, pcpu_area_map
-/
import LinuxKernel.Library.Runs
import LinuxKernel.Library.DyadicTiling

namespace LinuxKernel.Mm.Percpu

/-- The fields of `struct pcpu_chunk` that describe the area map; `map_used` is the length of `map`. -/
structure Chunk where
  freeSize : Int
  contigHint : Int
  mapAlloc : Nat
  map : List Int
deriving DecidableEq, Repr

/-- `PCPU_DFL_MAP_ALLOC`. -/
def pcpuDflMapAlloc : Nat := 16

/-- `sizeof(int)`. -/
def sizeofInt : Nat := 4

/-- The new chunk of `alloc_pcpu_chunk()`. -/
def allocPcpuChunk (unitSize : Nat) : Chunk :=
  { freeSize := unitSize, contigHint := unitSize, mapAlloc := pcpuDflMapAlloc, map := [(unitSize : Int)] }

/-- The chunks that `pcpu_setup_first_chunk(ai)` makes of the first unit: `schunk`, and `dchunk` if there is
one. -/
def pcpuSetupFirstChunk (staticSize reservedSize dynSize : Nat) : Chunk × Option Chunk :=
  let freeSize := if reservedSize ≠ 0 then reservedSize else dynSize
  let schunk : Chunk :=
    { freeSize, contigHint := freeSize, mapAlloc := 2
      map := -(staticSize : Int) :: if freeSize ≠ 0 then [(freeSize : Int)] else [] }
  let dchunk : Chunk :=
    { freeSize := dynSize, contigHint := dynSize, mapAlloc := 2
      map := [-((staticSize + reservedSize : Nat) : Int), (dynSize : Int)] }
  (schunk, if reservedSize ≠ 0 ∧ dynSize ≠ 0 then some dchunk else none)

variable (chunk : Chunk)

/-- `chunk->map[i]`. -/
def Chunk.entry (i : Nat) : Int := chunk.map[i]?.getD 0

/-- `ALIGN(x, a)`. -/
def align (x a : Nat) : Nat := Nat.ldiff (x + (a - 1)) (a - 1)

/-! ### The length of the array -/

/-- The loop of `pcpu_need_to_extend`. -/
def extendLoop (target newAlloc : Nat) : Nat :=
  if newAlloc < target ∧ 0 < newAlloc then extendLoop target (newAlloc * 2) else newAlloc
termination_by target - newAlloc
decreasing_by omega

/-- `pcpu_need_to_extend(chunk)`. -/
def pcpuNeedToExtend : Nat :=
  if chunk.mapAlloc ≥ chunk.map.length + 2 then 0 else extendLoop (chunk.map.length + 2) pcpuDflMapAlloc

/-- `pcpu_extend_area_map(chunk, new_alloc)` when its allocation does not fail. -/
def pcpuExtendAreaMap (newAlloc : Nat) : Chunk :=
  if newAlloc ≤ chunk.mapAlloc then chunk else { chunk with mapAlloc := newAlloc }

/-! ### Allocation -/

/-- `pcpu_split_block(chunk, i, head, tail)`. -/
def pcpuSplitBlock (i : Nat) (head tail : Int) : Option Chunk :=
  let nrExtra := (if head ≠ 0 then 1 else 0) + (if tail ≠ 0 then 1 else 0)
  if chunk.mapAlloc < chunk.map.length + nrExtra then none
  else
    -- `memmove`: of the entries that come in, only the first is read before it is written
    let map := chunk.map.take i ++ List.replicate nrExtra (chunk.entry i) ++ chunk.map.drop i
    let (map, i) :=
      if head ≠ 0 then ((map.set (i + 1) (map[i]?.getD 0 - head)).set i head, i + 1) else (map, i)
    let map := if tail ≠ 0 then (map.set i (map[i]?.getD 0 - tail)).set (i + 1) tail else map
    some { chunk with map }

/-- The part of `pcpu_alloc_area` that merges a small head, or the head behind a free block, with the block
before: the chunk, `off` and `head`. -/
def mergeHead (i off head : Nat) : Chunk × Nat × Nat :=
  if head ≠ 0 ∧ (head < sizeofInt ∨ chunk.entry (i - 1) > 0) then
    let chunk :=
      if chunk.entry (i - 1) > 0 then { chunk with map := chunk.map.set (i - 1) (chunk.entry (i - 1) + head) }
      else
        { chunk with
          map := chunk.map.set (i - 1) (chunk.entry (i - 1) - head), freeSize := chunk.freeSize - head }
    ({ chunk with map := chunk.map.set i (chunk.entry i - head) }, off + head, 0)
  else (chunk, off, head)

/-- The split of `pcpu_alloc_area`: the chunk, `i`, `off` and `max_contig`. -/
def splitIfWarranted (i off head : Nat) (tail maxContig : Int) : Option (Chunk × Nat × Nat × Int) :=
  if head ≠ 0 ∨ tail ≠ 0 then do
    let chunk ← pcpuSplitBlock chunk i head tail
    let (i, off, maxContig) :=
      if head ≠ 0 then (i + 1, off + head, max (chunk.entry i) maxContig) else (i, off, maxContig)
    some (chunk, i, off, if tail ≠ 0 then max (chunk.entry (i + 1)) maxContig else maxContig)
  else some (chunk, i, off, maxContig)

/-- What `pcpu_alloc_area` does with the first block that fits. -/
def allocFrom (i off head size : Nat) (maxContig : Int) (isLast : Bool) : Option (Int × Chunk) := do
  let (chunk, off, head) := mergeHead chunk i off head
  -- a small tail is kept
  let tail := chunk.entry i - head - size
  let tail := if tail < sizeofInt then 0 else tail
  let (chunk, i, off, maxContig) ← splitIfWarranted chunk i off head tail maxContig
  some (off,
    { chunk with
      contigHint := if isLast then maxContig else max chunk.contigHint maxContig
      freeSize := chunk.freeSize - chunk.entry i
      map := chunk.map.set i (-chunk.entry i) })

/-- The loop of `pcpu_alloc_area`; `rest` are the entries from `i` on. `pcpu_alloc` passes at most
`PCPU_MIN_UNIT_SIZE`, 64 KiB, and an alignment of at most `PAGE_SIZE`, so that `head + size` is far below
the range of an `int`. -/
def allocLoop (size alignment : Nat) : (rest : List Int) → (i off : Nat) → (maxContig : Int) →
    Option (Int × Chunk)
  | [], _, _, maxContig => some (-1, { chunk with contigHint := maxContig })
  | block :: rest, i, off, maxContig =>
    let head := align off alignment - off
    if i = 0 ∧ head ≠ 0 then none
    else if block < 0 then allocLoop size alignment rest (i + 1) (off + block.natAbs) maxContig
    else if block < head + size then
      allocLoop size alignment rest (i + 1) (off + block.natAbs) (max block maxContig)
    else allocFrom chunk i off head size maxContig (i + 1 = chunk.map.length)

/-- `pcpu_alloc_area(chunk, size, align)`: the offset, or -1. -/
def pcpuAllocArea (size alignment : Nat) : Option (Int × Chunk) :=
  allocLoop chunk size alignment chunk.map 0 0 0

/-! ### Freeing -/

/-- The loop of `pcpu_free_area`, with the check after it. -/
def findArea (freeme : Nat) : (rest : List Int) → (i off : Nat) → Option Nat
  | [], _, _ => none
  | block :: rest, i, off =>
    if off = freeme then some i else findArea freeme rest (i + 1) (off + block.natAbs)

/-- The merge with the block before: the map and `i`. -/
def mergePrevious (map : List Int) (i : Nat) : List Int × Nat :=
  if 0 < i ∧ map[i - 1]?.getD 0 ≥ 0 then
    ((map.set (i - 1) (map[i - 1]?.getD 0 + map[i]?.getD 0)).eraseIdx i, i - 1)
  else (map, i)

/-- The merge with the block after. -/
def mergeNext (map : List Int) (i : Nat) : List Int :=
  if i + 1 < map.length ∧ map[i + 1]?.getD 0 ≥ 0 then
    (map.set i (map[i]?.getD 0 + map[i + 1]?.getD 0)).eraseIdx (i + 1)
  else map

/-- `pcpu_free_area(chunk, freeme)`. -/
def pcpuFreeArea (freeme : Nat) : Option Chunk := do
  let i ← findArea freeme chunk.map 0 0
  if chunk.entry i > 0 then none
  else
    let freeSize := chunk.freeSize + -chunk.entry i
    let (map, i) := mergePrevious (chunk.map.set i (-chunk.entry i)) i
    let map := mergeNext map i
    some { chunk with map, freeSize, contigHint := max (map[i]?.getD 0) chunk.contigHint }

/-! ### A chunk and its users -/

/-- A chunk, and the areas that are allocated from it with the sizes asked for. -/
structure Pool where
  chunk : Chunk
  live : List (Nat × Nat)
deriving DecidableEq, Repr

/-- The calls; the array is extended first when `pcpu_need_to_extend` asks for it. -/
inductive Action where
  | alloc (size alignment : Nat)
  | free (off size : Nat)
deriving DecidableEq, Repr

/-- The chunk when `pcpu_alloc_area` is called. -/
def extended : Chunk :=
  if pcpuNeedToExtend chunk ≠ 0 then pcpuExtendAreaMap chunk (pcpuNeedToExtend chunk) else chunk

/-- One call. -/
def step (pool : Pool) : Action → Option Pool
  | .alloc size alignment => do
      let (off, chunk) ← pcpuAllocArea (extended pool.chunk) size alignment
      some ⟨chunk, if off ≥ 0 then (off.toNat, size) :: pool.live else pool.live⟩
  | .free off size => do
      let chunk ← pcpuFreeArea pool.chunk off
      some ⟨chunk, pool.live.erase (off, size)⟩

open Library List Option Int

variable {unitSize size alignment off : Nat} {low mid mid' high map : List Int} {x y : Int}
  {chunk chunk' : Chunk}

/-! ### Alignment -/

variable {k span : Nat} {a b maxContig : Int} {pool : Pool}

/-- `ALIGN` for a power of two. -/
theorem align_spec (power : alignment = 2 ^ k) (x : Nat) :
    alignment ∣ align x alignment ∧ x ≤ align x alignment ∧ align 0 alignment = 0 ∧
      (alignment ∣ x → align x alignment = x) := by
  subst power
  have least (n : Nat) := isLeast_align n k
  have below (n : Nat) (divides : 2 ^ k ∣ n) : align n (2 ^ k) ≤ n := (least n).2 ⟨Nat.le_refl n, divides⟩
  refine ⟨(least x).1.2, (least x).1.1, Nat.le_zero.mp (below 0 (Nat.dvd_zero _)), fun divides => ?_⟩
  exact Nat.le_antisymm (below x divides) (least x).1.1

/-! ### Lengths and entries -/

/-- The length of the areas of a map. -/
def total (map : List Int) : Nat := (map.map Int.natAbs).sum

/-- The length of the free areas of a map. -/
def freeSum (map : List Int) : Int := (map.map fun x => max x 0).sum

@[simp]
theorem total_nil : total [] = 0 := rfl

@[simp]
theorem total_cons : total (x :: map) = x.natAbs + total map := sum_cons

@[simp]
theorem total_append : total (low ++ high) = total low + total high := by
  rw [total, map_append, sum_append]
  rfl

@[simp]
theorem freeSum_nil : freeSum [] = 0 := rfl

@[simp]
theorem freeSum_cons : freeSum (x :: map) = max x 0 + freeSum map := sum_cons

@[simp]
theorem freeSum_append : freeSum (low ++ high) = freeSum low + freeSum high := by
  rw [freeSum, map_append, sum_append]
  rfl

/-- The entry is in the map, and its area begins at the offset. -/
def EntryAt (map : List Int) (off : Nat) (x : Int) : Prop := ∃ low high, map = low ++ x :: high ∧
    off = total low

theorem EntryAt.mem (entry : EntryAt map off x) : x ∈ map := by
  obtain ⟨low, high, rfl, -⟩ := entry
  simp

theorem not_entryAt_nil : ¬ EntryAt [] off x := fun entry => not_mem_nil entry.mem

theorem entryAt_cons :
    EntryAt (y :: map) off x ↔ (off = 0 ∧ x = y) ∨ ∃ rest, off = y.natAbs + rest ∧ EntryAt map rest x := by
  constructor
  · rintro ⟨low, high, split, rfl⟩
    cases low with
    | nil => exact .inl ⟨rfl, (cons.inj split).1.symm⟩
    | cons head low =>
      obtain ⟨rfl, rfl⟩ := cons.inj split
      exact .inr ⟨_, total_cons, low, high, rfl, rfl⟩
  · rintro (⟨rfl, rfl⟩ | ⟨_, rfl, low, high, rfl, rfl⟩)
    · exact ⟨[], map, rfl, rfl⟩
    · exact ⟨y :: low, high, rfl, total_cons.symm⟩

theorem entryAt_append :
    EntryAt (low ++ high) off x ↔ EntryAt low off x ∨ ∃ rest, off = total low + rest ∧
      EntryAt high rest x := by
  induction low generalizing off with
  | nil => simp [EntryAt]
  | cons y low ih =>
    simp only [cons_append, entryAt_cons, ih, total_cons, Nat.add_assoc]
    grind

/-- An entry is in the part that is replaced, or it stays where it is. -/
theorem EntryAt.replace (entry : EntryAt (low ++ mid ++ high) off x) (same : total mid' = total mid) :
    EntryAt (low ++ mid' ++ high) off x ∨ ∃ rest, off = total low + rest ∧ EntryAt mid rest x := by
  rw [entryAt_append, entryAt_append, total_append] at *
  rw [same]
  rcases entry with (early | inner) | late
  · exact .inl (.inl (.inl early))
  · exact .inr inner
  · exact .inl (.inr late)

/-- The areas of two entries do not overlap. -/
theorem EntryAt.apart {off' : Nat} (first : EntryAt map off x) (second : EntryAt map off' y) :
    (off = off' ∧ x = y) ∨ off + x.natAbs ≤ off' ∨ off' + y.natAbs ≤ off := by
  induction map generalizing off off' with
  | nil => simp [EntryAt] at first
  | cons z map ih =>
    rw [entryAt_cons] at first second
    rcases first with ⟨rfl, rfl⟩ | ⟨rest, rfl, first⟩ <;> rcases second with ⟨rfl, rfl⟩ | ⟨rest', rfl, second⟩
    · exact .inl ⟨rfl, rfl⟩
    · exact .inr (.inl (by omega))
    · exact .inr (.inr (by omega))
    · have := ih first second
      omega

theorem EntryAt.within (entry : EntryAt map off x) : off + x.natAbs ≤ total map := by
  obtain ⟨before, after, rfl, rfl⟩ := entry
  simp only [total_append, total_cons]
  omega

/-- The allocated entries are still there, and not shorter. -/
def Keeps (map map' : List Int) : Prop :=
  ∀ off x, x < 0 → EntryAt map off x → ∃ y, EntryAt map' off y ∧ y ≤ x

theorem Keeps.trans {map₁ map₂ map₃ : List Int} (first : Keeps map₁ map₂) (second : Keeps map₂ map₃) :
    Keeps map₁ map₃ := by
  intro off x negative entry
  obtain ⟨y, entry, longer⟩ := first off x negative entry
  obtain ⟨z, entry, longer'⟩ := second off y (by omega) entry
  exact ⟨z, entry, by omega⟩

/-! ### The map -/

/-- Two neighbours are not both free. -/
def NotBothFree (x y : Int) : Prop := ¬ (0 < x ∧ 0 < y)

theorem NotBothFree.of_left (taken : x < 0) : NotBothFree x y := fun both => by omega

theorem NotBothFree.of_right (taken : y < 0) : NotBothFree x y := fun both => by omega

theorem NotBothFree.left (apart : NotBothFree x y) (free : 0 < y) (nonzero : x ≠ 0) : x < 0 := by
  unfold NotBothFree at apart
  omega

theorem NotBothFree.right (apart : NotBothFree x y) (free : 0 < x) (nonzero : y ≠ 0) : y < 0 := by
  unfold NotBothFree at apart
  omega

/-- What always holds of the area map. -/
structure AreaMap (unitSize : Nat) (chunk : Chunk) : Prop where
  total : total chunk.map = unitSize
  free : chunk.freeSize = freeSum chunk.map
  nonzero : ∀ x ∈ chunk.map, x ≠ 0
  apart : chunk.map.IsChain NotBothFree
  hint : ∀ x ∈ chunk.map, 0 < x → x ≤ chunk.contigHint

/-- The neighbours of a free entry are allocated. -/
theorem AreaMap.around (areaMap : AreaMap unitSize chunk) (split : chunk.map = low ++ x :: high)
    (free : 0 < x) :
    low.IsChain NotBothFree ∧ high.IsChain NotBothFree ∧ (∀ p ∈ low.getLast?, p < 0) ∧
      ∀ n ∈ high.head?, n < 0 := by
  have apart := areaMap.apart
  have nonzero := areaMap.nonzero
  rw [split] at apart nonzero
  obtain ⟨first, second, border⟩ := isChain_append.mp apart
  obtain ⟨next, second⟩ := isChain_cons.mp second
  refine ⟨first, second, fun p last => ?_, fun n start => ?_⟩
  · exact (border p last x rfl).left free (nonzero p (mem_append_left _ (mem_of_getLast? last)))
  · exact (next n start).right free (nonzero n (mem_append_right _ (mem_cons_of_mem _ (mem_of_head? start))))

/-- Some neighbours are replaced by others of the same length: the map stays in order if the new ones fit
in. -/
theorem areaMap_of_replace (areaMap : AreaMap unitSize chunk) (split : chunk.map = low ++ mid ++ high)
    (mapEq : chunk'.map = low ++ mid' ++ high) (same : total mid' = total mid)
    (sizeEq : chunk'.freeSize = chunk.freeSize + (freeSum mid' - freeSum mid)) (nonzero : ∀ z ∈ mid', z ≠ 0)
    (chain : (mid' ++ high).IsChain NotBothFree)
    (border : ∀ p ∈ low.getLast?, ∀ n ∈ (mid' ++ high).head?, NotBothFree p n)
    (hint : ∀ z ∈ low ++ mid' ++ high, 0 < z → z ≤ chunk'.contigHint) :
    AreaMap unitSize chunk' := by
  obtain ⟨totalEq, freeEq, nonzeroOld, apart, -⟩ := areaMap
  rw [split] at totalEq freeEq nonzeroOld apart
  refine ⟨?_, ?_, ?_, ?_, ?_⟩ <;> rw [mapEq]
  · rw [← totalEq]
    simp only [total_append, same]
  · rw [sizeEq, freeEq]
    simp only [freeSum_append]
    omega
  · obtain ⟨early, late⟩ := forall_mem_append.mp nonzeroOld
    exact forall_mem_append.mpr ⟨forall_mem_append.mpr ⟨(forall_mem_append.mp early).1, nonzero⟩, late⟩
  · rw [append_assoc] at apart ⊢
    exact isChain_append.mpr ⟨(isChain_append.mp apart).1, chain, border⟩
  · exact hint

theorem entry_eq (split : chunk.map = low ++ x :: high) : chunk.entry low.length = x := by
  rw [Chunk.entry, split]
  simp

theorem set_at : (low ++ x :: high).set low.length y = low ++ y :: high := by simp

theorem append_pair : low ++ a :: b :: high = (low ++ [a, b]) ++ high := by simp

theorem set_third : (low ++ a :: b :: x :: high).set (low.length + 1 + 1) y = low ++ a :: b :: y :: high := by
  rw [append_pair, show low.length + 1 + 1 = (low ++ [a, b]).length by simp, set_at, ← append_pair]

theorem get_third : (low ++ a :: b :: x :: high)[low.length + 1 + 1]? = some x := by
  rw [append_pair, show low.length + 1 + 1 =
    (low ++ [a, b]).length by simp, getElem?_append_right (Nat.le_refl _),
    Nat.sub_self]
  rfl

theorem erase_second : (low ++ a :: b :: high).eraseIdx (low.length + 1) = low ++ a :: high := by
  rw [eraseIdx_append_of_length_le (Nat.le_add_right _ 1), Nat.add_sub_cancel_left]
  rfl

/-! ### Allocation -/

/-- A block that is there unless its length is 0. -/
def pieceOf (x : Int) : List Int := if x = 0 then [] else [x]

theorem total_pieceOf (x : Int) : total (pieceOf x) = x.natAbs := by
  unfold pieceOf
  split_ifs with zero
  · rw [zero]
    rfl
  · simp

theorem freeSum_pieceOf (x : Int) : freeSum (pieceOf x) = max x 0 := by
  unfold pieceOf
  split_ifs with zero
  · rw [zero]
    rfl
  · simp

theorem mem_pieceOf {z : Int} : z ∈ pieceOf x ↔ z = x ∧ x ≠ 0 := by
  unfold pieceOf
  split_ifs with zero
  · simp [zero]
  · simp [zero]

/-- A piece fits before an allocated block. -/
theorem isChain_pieceOf (chain : high.IsChain NotBothFree) (after : ∀ n ∈ high.head?, n < 0) :
    (pieceOf x ++ high).IsChain NotBothFree := by
  unfold pieceOf
  split_ifs
  · exact chain
  · exact isChain_cons.mpr ⟨fun n start => .of_right (after n start), chain⟩

theorem pcpuSplitBlock_spec {head tail : Int} (split : chunk.map = low ++ x :: high)
    (room : chunk.map.length + 2 ≤ chunk.mapAlloc) :
    pcpuSplitBlock chunk low.length head tail =
      some { chunk with map := low ++ pieceOf head ++ (x - head - tail) :: (pieceOf tail ++ high) } := by
  rw [pcpuSplitBlock, entry_eq split, split]
  rw [split, length_append, length_cons] at room
  by_cases noHead : head = 0 <;> by_cases noTail : tail = 0
  all_goals
    simp [noHead, noTail, pieceOf, set_third]
    omega

/-- Split or not, the block is cut in up to three, and `max_contig` takes the free ones into account. -/
theorem splitIfWarranted_spec {head : Nat} {tail maxContig : Int} (split : chunk.map = low ++ x :: high)
    (room : chunk.map.length + 2 ≤ chunk.mapAlloc) :
    ∃ maxContig', splitIfWarranted chunk low.length off head tail maxContig =
        some ({ chunk with map := low ++ pieceOf head ++ (x - head - tail) :: (pieceOf tail ++ high) },
          (low ++ pieceOf (head : Int)).length, off + head, maxContig') ∧
      maxContig ≤ maxContig' ∧ (∀ z ∈ pieceOf (head : Int), z ≤ maxContig') ∧ ∀ z ∈ pieceOf tail,
        z ≤ maxContig' := by
  have within {y most : Int} (bound : y ≠ 0 → y ≤ most) : ∀ z ∈ pieceOf y, z ≤ most := by
    intro z mem
    obtain ⟨rfl, nonzero⟩ := mem_pieceOf.mp mem
    exact bound nonzero
  rw [splitIfWarranted]
  by_cases noHead : head = 0
  · by_cases noTail : tail = 0
    · refine ⟨maxContig, ?_, Int.le_refl _, within (by omega), within (by omega)⟩
      rw [if_neg (by omega), noHead, noTail, ofNat_zero, sub_zero, sub_zero, Nat.add_zero, pieceOf,
        if_pos rfl, append_nil, nil_append, ← split]
    · refine ⟨max tail maxContig, ?_, by omega, within (by omega), within (by omega)⟩
      rw [pcpuSplitBlock_spec split room]
      simp [noHead, noTail, pieceOf, Chunk.entry]
  · by_cases noTail : tail = 0
    · refine ⟨max head maxContig, ?_, by omega, within (by omega), within (by omega)⟩
      rw [pcpuSplitBlock_spec split room]
      simp [noHead, noTail, pieceOf, Chunk.entry]
    · refine ⟨max tail (max head maxContig), ?_, by omega, within (by omega), within (by omega)⟩
      rw [pcpuSplitBlock_spec split room]
      simp [noHead, noTail, pieceOf, Chunk.entry, get_third]

/-- What the rest of `pcpu_alloc_area` needs of a map in which it found a block. -/
structure Fits (unitSize size : Nat) (chunk : Chunk) (low : List Int) (x : Int) (high : List Int)
    (off head : Nat)
    (maxContig : Int) : Prop where
  areaMap : AreaMap unitSize chunk
  split : chunk.map = low ++ x :: high
  room : chunk.map.length + 2 ≤ chunk.mapAlloc
  start : off = total low
  fits : (head : Int) + size ≤ x
  contig : ∀ z ∈ low, 0 < z → z ≤ maxContig

/-- The merge of the head keeps the map: the block before is allocated, since its neighbour is free. -/
theorem mergeHead_spec {head : Nat}
    (found : Fits unitSize size chunk low x high off head maxContig) (wanted : 1 ≤ size)
    (first : low = [] → head = 0) :
    ∃ chunk' low' x' off' head', mergeHead chunk low.length off head = (chunk', off', head') ∧
      Fits unitSize size chunk' low' x' high off' head' maxContig ∧ low'.length = low.length ∧
      off' + head' = off + head ∧ Keeps chunk.map chunk'.map := by
  have split := found.split
  have fits := found.fits
  by_cases merged : head ≠ 0 ∧ (head < sizeofInt ∨ chunk.entry (low.length - 1) > 0)
  · rcases eq_nil_or_concat' low with rfl | ⟨low', p, rfl⟩
    · exact absurd (first rfl) merged.1
    have free : 0 < x := by omega
    obtain ⟨chain, chainHigh, before, after⟩ := found.areaMap.around split free
    have negative : p < 0 := before p (by simp)
    have shape : chunk.map = low' ++ p :: (x :: high) := by rw [split, append_assoc]; rfl
    have previous : chunk.entry ((low' ++ [p]).length - 1) = p := by
      rw [length_append]
      exact entry_eq shape
    have result : mergeHead chunk (low' ++ [p]).length off head =
        ({ chunk with map := low' ++ (p - head) :: (x - head) :: high, freeSize := chunk.freeSize - head },
          off + head, 0) := by
      rw [mergeHead, if_pos merged, previous, if_neg (by omega)]
      have moved : chunk.map.set ((low' ++ [p]).length - 1) (p - head) = (low' ++ [p - head]) ++
          x :: high := by
        rw [length_append, length_singleton, Nat.add_sub_cancel, shape, set_at, append_assoc]
        rfl
      have own : ({ chunk with map := (low' ++ [p - head]) ++ x :: high, freeSize := chunk.freeSize - head } :
          Chunk).entry (low' ++ [p]).length = x := by
        rw [show (low' ++ [p]).length = (low' ++ [p - head]).length by simp]
        exact entry_eq rfl
      simp only [moved, own]
      rw [show (low' ++ [p]).length = (low' ++ [p - head]).length by simp, set_at, append_assoc]
      rfl
    have parts : chunk.map = low' ++ [p, x] ++ high := by rw [shape, append_assoc]; rfl
    have same : total [p - head, x - head] = total [p, x] := by
      simp only [total_cons]
      omega
    refine ⟨_, low' ++ [p - head], x - head, _, _, result,
      ⟨areaMap_of_replace found.areaMap parts append_pair same ?_ ?_
      ?_ ?_ ?_, ?_, ?_, ?_, ?_, ?_⟩, by simp, by omega, ?_⟩
    · simp only [freeSum_cons]
      omega
    · intro z mem
      simp only [mem_cons, not_mem_nil, or_false] at mem
      omega
    · exact isChain_cons.mpr ⟨fun n _ => .of_left (by omega),
        isChain_cons.mpr ⟨fun n start => .of_right (after n start), chainHigh⟩⟩
    · intro q last n start
      obtain rfl := some.inj start
      exact .of_right (by omega)
    · have hint := found.areaMap.hint
      rw [parts] at hint
      intro z mem pos
      simp only [mem_append, mem_cons, not_mem_nil] at hint mem
      rcases mem with (early | rfl | rfl | none) | late
      · exact hint z (.inl (.inl early)) pos
      · omega
      · have := hint x (.inl (.inr (.inr (.inl rfl)))) free
        dsimp only
        omega
      · exact none.elim
      · exact hint z (.inr late) pos
    · rw [append_assoc]
      rfl
    · have := found.room
      rw [shape] at this
      simpa using this
    · rw [found.start]
      simp only [total_append, total_cons]
      omega
    · omega
    · intro z mem pos
      rcases mem_append.mp mem with early | late
      · exact found.contig z (mem_append_left _ early) pos
      · rw [mem_singleton.mp late] at pos
        omega
    · intro start z taken entry
      rw [parts] at entry
      rcases entry.replace same with stays | ⟨rest, rfl, inner⟩
      · exact ⟨z, by simpa using stays, Int.le_refl _⟩
      · simp only [entryAt_cons, not_entryAt_nil] at inner
        rcases inner with ⟨rfl, rfl⟩ | ⟨_, -, ⟨-, rfl⟩ | ⟨_, -, none⟩⟩
        · exact ⟨z - head, ⟨low', (x - head) :: high, rfl, rfl⟩, by omega⟩
        · omega
        · exact none.elim
  · exact ⟨chunk, low, x, off, head, if_neg merged, found, rfl, rfl, fun start z _ entry =>
      ⟨z, entry, Int.le_refl _⟩⟩

/-- An area was allocated at the offset. -/
structure Allocated (unitSize size : Nat) (chunk : Chunk) (off : Nat) (chunk' : Chunk) : Prop where
  areaMap : AreaMap unitSize chunk'
  entry : ∃ y, EntryAt chunk'.map off y ∧ y < 0 ∧ size ≤ y.natAbs
  keeps : Keeps chunk.map chunk'.map

theorem allocFrom_spec {head : Nat} {maxContig : Int} {isLast : Bool}
    (found : Fits unitSize size chunk low x high off head maxContig) (wanted : 1 ≤ size)
    (first : low = [] → head = 0)
    (last : isLast = true → high = []) :
    ∃ chunk', allocFrom chunk low.length off head size maxContig isLast =
      some (((off + head : Nat) : Int), chunk') ∧
      Allocated unitSize size chunk (off + head) chunk' := by
  obtain ⟨chunk₁, low₁, x₁, off₁, head₁, merged, found₁, length, sum, keeps⟩ :=
    mergeHead_spec found wanted first
  obtain ⟨tail, tailEq⟩ : ∃ tail : Int, tail = if x₁ - head₁ - size < sizeofInt then 0
      else x₁ - head₁ - size :=
    ⟨_, rfl⟩
  have fits := found₁.fits
  have free : 0 < x₁ := by omega
  obtain ⟨maxContig', cut, more, headLe, tailLe'⟩ :=
    @splitIfWarranted_spec off₁ _ _ _ _ _ _ maxContig found₁.split found₁.room
  obtain ⟨taken, takenEq⟩ : ∃ taken : Int, taken = x₁ - head₁ - tail := ⟨_, rfl⟩
  rw [← takenEq] at cut
  have own : ({ chunk₁ with map := low₁ ++ pieceOf head₁ ++ taken :: (pieceOf tail ++ high) } : Chunk).entry
      (low₁ ++ pieceOf head₁).length = taken := entry_eq rfl
  obtain ⟨chain, chainHigh, before, after⟩ := found₁.areaMap.around found₁.split free
  have parts : chunk₁.map = low₁ ++ [x₁] ++ high := by rw [found₁.split, append_assoc]; rfl
  have same : total (pieceOf head₁ ++ (-taken) :: pieceOf tail) = total [x₁] := by
    simp only [total_append, total_cons, total_pieceOf, total_nil]
    omega
  have whole : low₁ ++ pieceOf head₁ ++ (-taken) :: (pieceOf tail ++ high) =
      low₁ ++ (pieceOf head₁ ++ (-taken) :: pieceOf tail) ++ high := by simp
  refine ⟨{ chunk₁ with
      contigHint := if isLast then maxContig' else max chunk₁.contigHint maxContig'
      freeSize := chunk₁.freeSize - taken
      map := low₁ ++ pieceOf head₁ ++ (-taken) :: (pieceOf tail ++ high) }, ?_,
    ⟨areaMap_of_replace found₁.areaMap parts whole same ?_ ?_ ?_ ?_ ?_, ?_, ?_⟩⟩
  · rw [allocFrom, merged]
    simp only [← length, entry_eq found₁.split, ← tailEq, cut, bind_eq_bind, bind_some, own, set_at, sum]
  · simp only [freeSum_append, freeSum_cons, freeSum_pieceOf, freeSum_nil]
    omega
  · intro z mem
    simp only [mem_append, mem_cons, mem_pieceOf] at mem
    omega
  · rw [append_assoc]
    refine isChain_pieceOf
      (isChain_cons.mpr ⟨fun n _ => .of_left (by omega), isChain_pieceOf chainHigh after⟩)
      fun n start => ?_
    obtain rfl := some.inj start
    omega
  · exact fun p last n _ => .of_left (before p last)
  · have hint := found₁.areaMap.hint
    rw [found₁.split] at hint
    intro z mem pos
    simp only [mem_append, mem_cons] at hint mem
    dsimp only
    rcases mem with (early | piece | rfl | piece) | late
    · have := found₁.contig z early pos
      omega
    · have := headLe z piece
      omega
    · omega
    · have := tailLe' z piece
      omega
    · have := hint z (.inr (.inr late)) pos
      split_ifs with isIt
      · rw [last isIt] at late
        exact absurd late not_mem_nil
      · omega
  · refine ⟨-taken, ⟨_, _, rfl, ?_⟩, by omega, by omega⟩
    rw [total_append, total_pieceOf, ← found₁.start]
    omega
  · refine keeps.trans fun start z negative entry => ?_
    rw [parts] at entry
    rcases entry.replace same with stays | ⟨rest, -, inner⟩
    · exact ⟨z, by simpa using stays, Int.le_refl _⟩
    · have := mem_singleton.mp inner.mem
      omega

/-- No free block can hold the request. -/
def NoneHolds (size alignment : Nat) (map : List Int) : Prop :=
  ∀ off x, EntryAt map off x → 0 < x → x < (align off alignment - off : Nat) + (size : Int)

/-- What a request for an area returns: -1 if no block can hold it, or the area at the start of one that
can. -/
def Answered (unitSize size alignment : Nat) (chunk : Chunk) (result : Option (Int × Chunk)) : Prop :=
  (∃ hint, result = some (-1, { chunk with contigHint := hint }) ∧
    AreaMap unitSize { chunk with contigHint := hint } ∧
      NoneHolds size alignment chunk.map) ∨
    ∃ start x chunk', EntryAt chunk.map start x ∧ align start alignment + size ≤ start + x.natAbs ∧ 0 < x ∧
      result = some ((align start alignment : Int), chunk') ∧
      Allocated unitSize size chunk (align start alignment) chunk'

/-- The scan up to the entries of `rest`: it goes on, and comes to the end of the map or to a block that
fits. -/
theorem allocLoop_spec {rest : List Int} (power : alignment = 2 ^ k) (wanted : 1 ≤ size)
    (areaMap : AreaMap unitSize chunk) (room : chunk.map.length + 2 ≤ chunk.mapAlloc)
    (split : chunk.map = low ++ rest) (contig : ∀ z ∈ low, 0 < z → z ≤ maxContig)
    (passed : ∀ before z after, low = before ++ z :: after → 0 < z →
      z < (align (total before) alignment - total before : Nat) + (size : Int)) :
    Answered unitSize size alignment chunk
      (allocLoop chunk size alignment rest low.length (total low) maxContig) := by
  induction rest generalizing low maxContig with
  | nil =>
    rw [append_nil] at split
    refine .inl ⟨maxContig, rfl, { areaMap with hint := ?_ }, ?_⟩
    · rw [split]
      exact contig
    · rintro off x ⟨before, after, shape, rfl⟩ pos
      exact passed before x after (split.symm.trans shape) pos
  | cons block rest ih =>
    obtain ⟨divides, above, zero, -⟩ := align_spec power (total low)
    have next : chunk.map = (low ++ [block]) ++ rest := by rw [split, append_assoc]; rfl
    have length : (low ++ [block]).length = low.length + 1 := by simp
    have sum : total (low ++ [block]) = total low + block.natAbs := by simp
    -- the block is passed: it is allocated, or too short
    have onward {maxContig' : Int} (contig' : ∀ z ∈ low ++ [block], 0 < z → z ≤ maxContig')
        (short : 0 < block → block < (align (total low) alignment - total low : Nat) + size) :=
      ih next contig' fun before z after shape pos => by
        rcases eq_nil_or_concat' after with rfl | ⟨after', last, rfl⟩
        · obtain ⟨rfl, same⟩ := append_inj' shape rfl
          obtain rfl := singleton_injective same
          exact short pos
        · rw [← cons_append, ← append_assoc] at shape
          exact passed before z after' (append_inj' shape rfl).1 pos
    rw [length, sum] at onward
    rw [allocLoop]
    have noBug : ¬ (low.length = 0 ∧ align (total low) alignment - total low ≠ 0) := by
      rintro ⟨none, head⟩
      rw [length_eq_zero_iff.mp none, total_nil, zero] at head
      exact head rfl
    rw [if_neg noBug]
    by_cases taken : block < 0
    · rw [if_pos taken]
      refine onward (fun z mem pos => ?_) fun pos => absurd taken (by omega)
      rcases mem_append.mp mem with early | late
      · exact contig z early pos
      · rw [mem_singleton.mp late] at pos
        omega
    · rw [if_neg taken]
      split_ifs with short
      · refine onward (fun z mem pos => ?_) fun _ => short
        rcases mem_append.mp mem with early | late
        · have := contig z early pos
          omega
        · rw [mem_singleton.mp late]
          omega
      · have found :
          Fits unitSize size chunk low block rest (total low) (align (total low) alignment - total low)
            maxContig := ⟨areaMap, split, room, rfl, Int.not_lt.mp short, contig⟩
        obtain ⟨chunk', done, alloc⟩ := @allocFrom_spec _ _ _ _ _ _ _
          (align (total low) alignment - total low) maxContig
            (decide (low.length + 1 = chunk.map.length)) found wanted
          (fun none => by rw [none, total_nil, zero])
          (fun isLast => by
            have count := of_decide_eq_true isLast
            rw [split, length_append, length_cons] at count
            exact length_eq_zero_iff.mp (by omega))
        rw [Nat.add_sub_cancel' above] at done alloc
        exact .inr ⟨total low, block, chunk', ⟨low, rest, split, rfl⟩, by omega, by omega, done, alloc⟩

theorem pcpuAllocArea_spec (power : alignment = 2 ^ k) (wanted : 1 ≤ size)
    (areaMap : AreaMap unitSize chunk) (room : chunk.map.length + 2 ≤ chunk.mapAlloc) :
    Answered unitSize size alignment chunk (pcpuAllocArea chunk size alignment) :=
  allocLoop_spec power wanted areaMap room (nil_append _).symm (nofun)
    fun before z after shape => by simp at shape

/-! ### Freeing -/

theorem findArea_eq (low : List Int) (i off : Nat) (nonzero : ∀ z ∈ low, z ≠ 0) :
    findArea (off + total low) (low ++ x :: high) i off = some (i + low.length) := by
  induction low generalizing i off with
  | nil => simp [findArea]
  | cons z low ih =>
    have here := nonzero z mem_cons_self
    have rest := ih (i + 1) (off + z.natAbs) fun other mem =>
      nonzero other (mem_cons_of_mem _ mem)
    rw [cons_append, findArea, if_neg (by rw [total_cons]; omega), total_cons, ← Nat.add_assoc, rest,
      length_cons]
    congr 1
    omega

/-- The merge with the block before takes it in if it is free. -/
theorem mergePrevious_spec (nonzero : ∀ z ∈ low, z ≠ 0) :
    (mergePrevious (low ++ x :: high) low.length = (low ++ x :: high, low.length) ∧
      ∀ p ∈ low.getLast?, p < 0) ∨
      ∃ low' p, low = low' ++ [p] ∧ 0 < p ∧
        mergePrevious (low ++ x :: high) low.length = (low' ++ (p + x) :: high, low'.length) := by
  rcases eq_nil_or_concat' low with rfl | ⟨low', p, rfl⟩
  · exact .inl ⟨if_neg fun both => Nat.lt_irrefl _ both.1, nofun⟩
  · have shape : low' ++ [p] ++ x :: high = low' ++ p :: (x :: high) := by rw [append_assoc]; rfl
    have before : (low' ++ [p]).length - 1 = low'.length := by simp
    have previous : (low' ++ [p] ++ x :: high)[(low' ++ [p]).length - 1]?.getD 0 = p := by
      simp
    have own : (low' ++ [p] ++ x :: high)[(low' ++ [p]).length]?.getD 0 = x := by simp
    by_cases free : 0 ≤ p
    · have pos : p ≠ 0 := nonzero p (by simp)
      refine .inr ⟨low', p, rfl, by omega, ?_⟩
      rw [mergePrevious, previous, own, if_pos ⟨by simp, free⟩, before, shape, set_at, length_append,
        length_singleton, erase_second]
    · refine .inl ⟨?_, fun q last => ?_⟩
      · rw [mergePrevious, previous, if_neg fun both => free both.2]
      · rw [getLast?_concat] at last
        obtain rfl := some.inj last
        omega

/-- The merge with the block after takes it in if it is free. -/
theorem mergeNext_spec (nonzero : ∀ z ∈ high, z ≠ 0) :
    (mergeNext (low ++ x :: high) low.length = low ++ x :: high ∧ ∀ n ∈ high.head?, n < 0) ∨
      ∃ n high', high = n :: high' ∧ 0 < n ∧ mergeNext (low ++ x :: high) low.length = low ++
        (x + n) :: high' := by
  cases high with
  | nil =>
    refine .inl ⟨if_neg fun both => ?_, nofun⟩
    have := both.1
    simp at this
  | cons n high' =>
    have next : (low ++ x :: n :: high')[low.length + 1]?.getD 0 = n := by
      simp
    have own : (low ++ x :: n :: high')[low.length]?.getD 0 = x := by simp
    by_cases free : 0 ≤ n
    · have pos : n ≠ 0 := nonzero n (by simp)
      refine .inr ⟨n, high', rfl, by omega, ?_⟩
      rw [mergeNext, next, own, if_pos ⟨by simp, free⟩, set_at, erase_second]
    · refine .inl ⟨?_, fun m start => ?_⟩
      · rw [mergeNext, next, if_neg fun both => free both.2]
      · obtain rfl := some.inj start
        omega

/-- What freeing an area does: the map stays in order, and the other allocated entries stay where they are. -/
structure Freed (unitSize : Nat) (chunk : Chunk) (off : Nat) (chunk' : Chunk) : Prop where
  areaMap : AreaMap unitSize chunk'
  keeps : ∀ off' z, off' ≠ off → z < 0 → EntryAt chunk.map off' z → EntryAt chunk'.map off' z

/-- The entry at the offset, with up to two free neighbours, becomes one free block. -/
theorem Freed.of_join {before after : List Int} (areaMap : AreaMap unitSize chunk)
    (split : chunk.map = low ++ (before ++ x :: after) ++ high)
    (beforeFree : ∀ z ∈ before, 0 < z) (afterFree : ∀ z ∈ after, 0 < z)
    (length : y.natAbs = total (before ++ x :: after)) (free : 0 < y)
    (lastLow : ∀ p ∈ low.getLast?, p < 0) (firstHigh : ∀ n ∈ high.head?, n < 0)
    (mapEq : chunk'.map = low ++ y :: high)
    (sizeEq : chunk'.freeSize = chunk.freeSize + (y - freeSum (before ++ x :: after)))
    (hintEq : chunk'.contigHint = max y chunk.contigHint) :
    Freed unitSize chunk (total (low ++ before)) chunk' := by
  have apart := areaMap.apart
  have hint := areaMap.hint
  rw [split] at apart hint
  have same : total [y] = total (before ++ x :: after) := by rw [total_cons, total_nil, length, Nat.add_zero]
  refine ⟨areaMap_of_replace areaMap split (by simpa using mapEq) same ?_ ?_ ?_ ?_ ?_,
    fun off' z other negative entry => ?_⟩
  · rw [sizeEq, freeSum_cons, freeSum_nil]
    omega
  · intro z mem
    rw [mem_singleton.mp mem]
    omega
  · exact isChain_cons.mpr ⟨fun n start => .of_right (firstHigh n start), (isChain_append.mp apart).2.1⟩
  · exact fun p last n _ => .of_left (lastLow p last)
  · intro z mem pos
    simp only [mem_append, mem_singleton] at hint mem
    rcases mem with (early | rfl) | late
    · have := hint z (.inl (.inl early)) pos
      omega
    · omega
    · have := hint z (.inr late) pos
      omega
  · rw [split] at entry
    rw [mapEq]
    rcases entry.replace same with stays | ⟨rest, rfl, inner⟩
    · simpa using stays
    · -- an allocated entry of the part that is joined is the one at the offset
      exfalso
      rcases entryAt_append.mp inner with early | ⟨rest, rfl, here⟩
      · have := beforeFree z early.mem
        omega
      · rcases entryAt_cons.mp here with ⟨rfl, -⟩ | ⟨_, -, late⟩
        · exact other (by rw [total_append, Nat.add_zero])
        · have := afterFree z late.mem
          omega

/-- The second half of freeing: the entry, which may have taken in the block before, takes in the one
after. -/
theorem Freed.of_mergeNext {before : List Int} (areaMap : AreaMap unitSize chunk)
    (split : chunk.map = low ++ (before ++ [x]) ++ high) (taken : x < 0) (beforeFree : ∀ z ∈ before, 0 < z)
    (sizes : y = freeSum before - x) (length : y.natAbs = total (before ++ [x])) (free : 0 < y)
    (lastLow : ∀ p ∈ low.getLast?, p < 0) :
    Freed unitSize chunk (total (low ++ before)) { chunk with
      map := mergeNext (low ++ y :: high) low.length
      freeSize := chunk.freeSize + -x
      contigHint :=
        max ((mergeNext (low ++ y :: high) low.length)[low.length]?.getD 0) chunk.contigHint } := by
  have nonzero := areaMap.nonzero
  have apart := areaMap.apart
  rw [split] at nonzero apart
  have nonzeroHigh : ∀ z ∈ high, z ≠ 0 := fun z mem => nonzero z (mem_append_right _ mem)
  rcases @mergeNext_spec low _ y nonzeroHigh with ⟨stays, firstHigh⟩ | ⟨n, high', rfl, pos, merged⟩
  · rw [stays]
    refine Freed.of_join areaMap split beforeFree nofun length free lastLow firstHigh rfl ?_ ?_
    · simp only [freeSum_append, freeSum_cons, freeSum_nil]
      omega
    · simp
  · rw [merged]
    have firstHigh : ∀ m ∈ high'.head?, m < 0 := by
      intro m start
      have chained := (isChain_cons.mp (isChain_append.mp apart).2.1).1 m start
      exact chained.right pos (nonzeroHigh m (mem_cons_of_mem _ (mem_of_mem_head? start)))
    refine @Freed.of_join _ _ _ x _ _ _ _ [n] areaMap ?_ beforeFree ?_ ?_ ?_ lastLow firstHigh rfl ?_ ?_
    · rw [split]
      simp
    · intro z mem
      rwa [mem_singleton.mp mem]
    · simp only [total_append, total_cons] at length ⊢
      omega
    · omega
    · simp only [freeSum_append, freeSum_cons, freeSum_nil]
      omega
    · simp

theorem pcpuFreeArea_spec (areaMap : AreaMap unitSize chunk) (entry : EntryAt chunk.map off x)
    (taken : x < 0) :
    ∃ chunk', pcpuFreeArea chunk off = some chunk' ∧ Freed unitSize chunk off chunk' := by
  obtain ⟨low, high, split, rfl⟩ := entry
  have nonzero := areaMap.nonzero
  have apart := areaMap.apart
  rw [split] at nonzero apart
  have nonzeroLow : ∀ z ∈ low, z ≠ 0 := fun z mem => nonzero z (mem_append_left _ mem)
  have found : findArea (total low) chunk.map 0 0 = some low.length := by
    have searched := @findArea_eq high x _ 0 0 nonzeroLow
    rwa [Nat.zero_add, Nat.zero_add, ← split] at searched
  rw [pcpuFreeArea, found]
  simp only [bind_eq_bind, bind_some, entry_eq split]
  rw [if_neg (by omega), split, set_at]
  rcases mergePrevious_spec nonzeroLow with ⟨stays, lastLow⟩ | ⟨low', p, rfl, pos, merged⟩
  · rw [stays]
    have freed := @Freed.of_mergeNext _ _ high x (-x) _ [] areaMap (by rw [split]; simp) taken nofun
      (by simp) (by simp) (by omega) lastLow
    rw [append_nil] at freed
    exact ⟨_, rfl, freed⟩
  · rw [merged]
    have lastLow : ∀ q ∈ low'.getLast?, q < 0 := by
      intro q last
      have chained := (isChain_append.mp (isChain_append.mp apart).1).2.2 q last p (by simp)
      exact chained.left pos (nonzeroLow q (mem_append_left _ (mem_of_mem_getLast? last)))
    refine ⟨_, rfl, @Freed.of_mergeNext _ _ _ x _ _ [p] areaMap ?_ taken ?_ ?_ ?_ ?_ lastLow⟩
    · rw [split]
      simp
    · intro z mem
      rwa [mem_singleton.mp mem]
    · simp only [freeSum_cons, freeSum_nil]
      omega
    · simp only [total_append, total_cons, total_nil]
      omega
    · omega

/-! ### The length of the array -/

theorem extendLoop_ge {target newAlloc : Nat} (pos : 0 < newAlloc) : target ≤ extendLoop target newAlloc := by
  fun_induction extendLoop target newAlloc with
  | case1 newAlloc short ih => exact ih (by omega)
  | case2 newAlloc enough => omega

theorem extended_spec : (extended chunk).map = chunk.map ∧ (extended chunk).freeSize = chunk.freeSize ∧
    (extended chunk).contigHint = chunk.contigHint ∧
      (extended chunk).map.length + 2 ≤ (extended chunk).mapAlloc := by
  have reached := @extendLoop_ge (chunk.map.length + 2) pcpuDflMapAlloc (by decide)
  unfold extended pcpuNeedToExtend pcpuExtendAreaMap
  by_cases enough : chunk.mapAlloc ≥ chunk.map.length + 2
  · simp [enough]
  · rw [if_neg enough, if_pos (by omega), if_neg (by omega)]
    exact ⟨rfl, rfl, rfl, reached⟩

theorem AreaMap.extended (areaMap : AreaMap unitSize chunk) : AreaMap unitSize (Percpu.extended chunk) := by
  obtain ⟨mapEq, sizeEq, hintEq, -⟩ := extended_spec
  obtain ⟨totalEq, freeEq, nonzero, apart, hint⟩ := areaMap
  refine ⟨?_, ?_, ?_, ?_, ?_⟩ <;> rw [mapEq]
  · exact totalEq
  · rw [sizeEq, freeEq]
  · exact nonzero
  · exact apart
  · rw [hintEq]
    exact hint

/-! ### The chunks -/

/-- The chunks there are, with the length of the unit that their map is for. The part of the first unit that
  is neither static, reserved nor dynamic is in no map. -/
inductive Created (unitSize : Nat) : Nat → Chunk → Prop
  | alloc (positive : 0 < unitSize) : Created unitSize unitSize (allocPcpuChunk unitSize)
  | static {staticSize reservedSize dynSize : Nat} (positive : staticSize ≠ 0)
      (fits : staticSize + reservedSize + dynSize ≤ unitSize) :
      Created unitSize (staticSize + if reservedSize ≠ 0 then reservedSize else dynSize)
        (pcpuSetupFirstChunk staticSize reservedSize dynSize).1
  | dynamic {staticSize reservedSize dynSize : Nat} {chunk : Chunk} (positive : staticSize ≠ 0)
      (fits : staticSize + reservedSize + dynSize ≤ unitSize)
      (made : (pcpuSetupFirstChunk staticSize reservedSize dynSize).2 = some chunk) :
      Created unitSize (staticSize + reservedSize + dynSize) chunk

theorem areaMap_single (pos : 0 < x) (mapEq : chunk.map = [x]) (sizeEq : chunk.freeSize = x)
    (hintEq : chunk.contigHint = x) : AreaMap x.natAbs chunk := by
  refine ⟨?_, ?_, ?_, ?_, ?_⟩ <;> rw [mapEq]
  · rw [total_cons, total_nil, Nat.add_zero]
  · rw [freeSum_cons, freeSum_nil]
    omega
  · intro z mem
    rw [mem_singleton.mp mem]
    omega
  · exact .singleton _
  · intro z mem _
    exact Int.le_of_eq ((mem_singleton.mp mem).trans hintEq.symm)

/-- A map that begins with an area that is not allocated from. -/
theorem areaMap_static {used free : Nat} (pos : used ≠ 0)
    (mapEq : chunk.map = -(used : Int) :: if free ≠ 0 then [(free : Int)] else [])
    (sizeEq : chunk.freeSize = free)
    (hintEq : chunk.contigHint = free) : AreaMap (used + free) chunk := by
  have piece : chunk.map = -(used : Int) :: pieceOf free := by
    rw [mapEq, pieceOf]
    split_ifs <;> first | rfl | omega
  refine ⟨?_, ?_, ?_, ?_, ?_⟩ <;> rw [piece]
  · simp [total_pieceOf]
  · rw [freeSum_cons, freeSum_pieceOf]
    omega
  · intro z mem
    rw [mem_cons, mem_pieceOf] at mem
    omega
  · refine isChain_cons.mpr ⟨fun n _ => .of_left (by omega), ?_⟩
    rw [← append_nil (pieceOf _)]
    exact isChain_pieceOf .nil nofun
  · intro z mem
    rw [mem_cons, mem_pieceOf] at mem
    omega

theorem Created.areaMap (created : Created unitSize span chunk) : AreaMap span chunk ∧ span ≤ unitSize := by
  cases created with
  | alloc pos => exact ⟨areaMap_single (natCast_pos.mpr pos) rfl rfl rfl, Nat.le_refl _⟩
  | static pos _ =>
    refine ⟨areaMap_static pos rfl rfl rfl, ?_⟩
    split_ifs <;> omega
  | @dynamic _ _ _ _ _ fits made =>
    simp only [pcpuSetupFirstChunk] at made
    split_ifs at made with both
    obtain rfl := some.inj made
    refine ⟨areaMap_static (by omega) ?_ rfl rfl, fits⟩
    rw [if_pos both.2]

/-! ### The pool -/

/-- The areas that are allocated are entries of the map. -/
structure PoolSound (span : Nat) (pool : Pool) : Prop where
  areaMap : AreaMap span pool.chunk
  live : ∀ area ∈ pool.live, ∃ y, EntryAt pool.chunk.map area.1 y ∧ y < 0 ∧ area.2 ≤ y.natAbs
  distinct : (pool.live.map Prod.fst).Nodup

/-- The calls that are made: a size that is not zero with a power of two as alignment, and areas that were
returned. -/
def Allowed (pool : Pool) : Action → Prop
  | .alloc size alignment => 1 ≤ size ∧ ∃ k, alignment = 2 ^ k
  | .free off size => (off, size) ∈ pool.live

/-- A run of calls on a chunk. -/
def AreaStep (pool : Pool) (action : Action) (_ : List Unit) (pool' : Pool) : Prop :=
  Allowed pool action ∧ step pool action = some pool'

/-- What a request on a chunk returns: an area apart from those that are allocated, or -1 if none is long
enough. -/
def Served (span size alignment : Nat) (pool : Pool) (off : Int) : Prop :=
  (off = -1 ∧ NoneHolds size alignment pool.chunk.map) ∨
    ∃ start : Nat, off = start ∧ alignment ∣ start ∧ start + size ≤ span ∧
      ∀ area ∈ pool.live, start + size ≤ area.1 ∨ area.1 + area.2 ≤ start

theorem PoolSound.alloc (sound : PoolSound span pool) (wanted : 1 ≤ size) (power : alignment = 2 ^ k) :
    ∃ off chunk', pcpuAllocArea (extended pool.chunk) size alignment = some (off, chunk') ∧
      Served span size alignment pool off ∧
      PoolSound span ⟨chunk', if off ≥ 0 then (off.toNat, size) :: pool.live else pool.live⟩ := by
  obtain ⟨mapEq, -, -, room⟩ := extended_spec
  rcases pcpuAllocArea_spec power wanted sound.areaMap.extended room with
    ⟨hint, done, areaMap, none⟩ | ⟨start, x, chunk', entry, fits, free, done, alloc⟩
  · refine ⟨-1, _, done, .inl ⟨rfl, mapEq ▸ none⟩, ?_⟩
    refine ⟨areaMap, fun area mem => ?_, sound.distinct⟩
    rw [mapEq]
    exact sound.live area mem
  · rw [mapEq] at entry
    obtain ⟨divides, above, -, -⟩ := align_spec power start
    -- an allocated area is before the block or after it
    have clear : ∀ area ∈ pool.live, start + x.natAbs ≤ area.1 ∨ area.1 < start ∧
        area.1 + area.2 ≤ start := by
      intro area mem
      obtain ⟨y, other, negative, long⟩ := sound.live area mem
      rcases entry.apart other with ⟨-, rfl⟩ | before | after
      · omega
      · omega
      · exact .inr (by omega)
    refine ⟨_, chunk', done, .inr ⟨_, rfl, divides, ?_, fun area mem => ?_⟩, ?_⟩
    · have within := entry.within
      rw [sound.areaMap.total] at within
      omega
    · have := clear area mem
      omega
    · have stays : ∀ area ∈ pool.live, ∃ y, EntryAt chunk'.map area.1 y ∧ y < 0 ∧ area.2 ≤ y.natAbs := by
        intro area mem
        obtain ⟨y, other, negative, long⟩ := sound.live area mem
        obtain ⟨z, other', longer⟩ := alloc.keeps area.1 y negative (mapEq.symm ▸ other)
        exact ⟨z, other', by omega, by omega⟩
      refine ⟨alloc.areaMap, ?_, ?_⟩
      · exact forall_mem_cons.mpr ⟨alloc.entry, stays⟩
      · refine nodup_cons.mpr ⟨fun mem => ?_, sound.distinct⟩
        obtain ⟨area, mem, same⟩ := mem_map.mp mem
        have := clear area mem
        omega

theorem PoolSound.free {size : Nat} (sound : PoolSound span pool) (live : (off, size) ∈ pool.live) :
    ∃ chunk', pcpuFreeArea pool.chunk off = some chunk' ∧
      PoolSound span ⟨chunk', pool.live.erase (off, size)⟩ := by
  obtain ⟨x, entry, negative, -⟩ := sound.live _ live
  obtain ⟨chunk', done, freed⟩ := pcpuFreeArea_spec sound.areaMap entry negative
  refine ⟨chunk', done, freed.areaMap, fun area mem => ?_, ?_⟩
  · have nodup := List.Nodup.of_map Prod.fst sound.distinct
    obtain ⟨differs, mem⟩ := (List.Nodup.mem_erase_iff nodup).mp mem
    obtain ⟨y, other, negative', long⟩ := sound.live area mem
    have elsewhere : area.1 ≠ off := fun same =>
      differs (inj_on_of_nodup_map sound.distinct mem live same)
    exact ⟨y, freed.keeps _ y elsewhere negative' other, negative', long⟩
  · exact sound.distinct.sublist (erase_sublist.map _)

theorem PoolSound.step {span : Nat} {pool pool' : Pool} {action : Action} {events : List Unit}
    (sound : PoolSound span pool) (taken : AreaStep pool action events pool') : PoolSound span pool' := by
  obtain ⟨allowed, done⟩ := taken
  cases action with
  | alloc size alignment =>
    obtain ⟨wanted, k, power⟩ := allowed
    obtain ⟨off, chunk', served, -, sound'⟩ := sound.alloc wanted power
    rw [Percpu.step, served] at done
    exact some.inj done ▸ sound'
  | free off size =>
    obtain ⟨chunk', freed, sound'⟩ := sound.free allowed
    rw [Percpu.step, freed] at done
    exact some.inj done ▸ sound'

/-- Every run of calls on a chunk keeps its map in order, a request never returns memory that is in use and
  fails only if no free area can hold it, and no call stops at a `BUG_ON`. -/
theorem pcpu_area_map {span : Nat} {start : Chunk} {actions : List Action} {events : List Unit} {last : Pool}
    (created : Created unitSize span start) (run : Run AreaStep ⟨start, []⟩ actions events last) :
    AreaMap span last.chunk ∧ span ≤ unitSize ∧
      (∀ size alignment, 1 ≤ size → (∃ k, alignment = 2 ^ k) → ∃ off chunk',
        pcpuAllocArea (extended last.chunk) size alignment = some (off, chunk') ∧
          Served span size alignment last off) ∧
      ∀ area ∈ last.live, (pcpuFreeArea last.chunk area.1).isSome := by
  obtain ⟨areaMap, inside⟩ := created.areaMap
  have sound : PoolSound span last :=
    run.invariant ⟨areaMap, nofun, nodup_nil⟩ fun sound taken => sound.step taken
  refine ⟨sound.areaMap, inside, fun size alignment wanted power => ?_, fun area mem => ?_⟩
  · obtain ⟨k, power⟩ := power
    obtain ⟨off, chunk', done, served, -⟩ := sound.alloc wanted power
    exact ⟨off, chunk', done, served⟩
  · obtain ⟨chunk', freed, -⟩ := sound.free mem
    rw [freed]
    rfl

/-- An area of four bytes after one byte, which is then freed. -/
theorem pcpu_area_map_two :
    ∃ last : Pool, last.live = [(4, 4)] ∧ last.chunk.map = [4, -4, 8] ∧ AreaMap 16 last.chunk := by
  have created : Created 16 16 (allocPcpuChunk 16) := .alloc (by decide)
  have first : AreaStep ⟨allocPcpuChunk 16, []⟩ (.alloc 1 1) [] ⟨⟨15, 15, 16, [-1, 15]⟩, [(0, 1)]⟩ :=
    ⟨⟨by decide, 0, rfl⟩, by decide +kernel⟩
  have second : AreaStep ⟨⟨15, 15, 16, [-1, 15]⟩, [(0, 1)]⟩ (.alloc 4 4) []
      ⟨⟨8, 8, 16, [-4, -4, 8]⟩, [(4, 4), (0, 1)]⟩ := ⟨⟨by decide, 2, rfl⟩, by decide +kernel⟩
  have third : AreaStep ⟨⟨8, 8, 16, [-4, -4, 8]⟩, [(4, 4), (0, 1)]⟩ (.free 0 1) []
      ⟨⟨12, 8, 16, [4, -4, 8]⟩, [(4, 4)]⟩ := ⟨by simp [Allowed], by decide +kernel⟩
  exact ⟨_, rfl, rfl, (pcpu_area_map created (((Run.nil.snoc first).snoc second).snoc third)).1⟩

/-- The static area and the reserved area of a first unit of 64 KiB: the map is for less than the unit. -/
theorem first_chunk_span :
    Created 65536 38192 (pcpuSetupFirstChunk 30000 8192 20000).1 ∧
      total (pcpuSetupFirstChunk 30000 8192 20000).1.map ≠ 65536 :=
  ⟨@Created.static _ _ 8192 _ (by decide) (by decide), by decide⟩

end LinuxKernel.Mm.Percpu
