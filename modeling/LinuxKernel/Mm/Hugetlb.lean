/-
Module: LinuxKernel.Mm.Hugetlb
Purpose: The reservation map of `mm/hugetlb.c`, a list of `struct file_region` cut in two at the cursor of a
  search. `region_add` that comes to the list head with its cursor stores `from` and `to` there: its result
  is `none`. It does what it should if some entry touches its range, which `region_chg` sees to; a
  truncation by another user may take that entry away.
Trusted boundary: human-reviewed spec
Main exports: step, SharedStep, SetStep, regions_refine_set, regions_shared, regionCount_exact_iff
-/
import LinuxKernel.Library.Runs

namespace LinuxKernel.Mm.Hugetlb

/-- `struct file_region`. -/
structure FileRegion where
  from_ : Int
  to_ : Int
deriving DecidableEq, Repr

/-- Error numbers. -/
inductive Errno where
  | ENOMEM
deriving DecidableEq, Repr

/-- The entries that the search for the first one with `bound <= rg->to` passes. -/
def before (bound : Int) (head : List FileRegion) : List FileRegion :=
  head.takeWhile fun rg => ¬ bound ≤ rg.to_

/-- The entries from the cursor of that search on; none when the cursor is the list head. -/
def cursor (bound : Int) (head : List FileRegion) : List FileRegion :=
  head.dropWhile fun rg => ¬ bound ≤ rg.to_

/-- The loop of `region_add` after its first entry: `t`, and the entries that are left. -/
def consume (t : Int) : List FileRegion → Int × List FileRegion
  | [] => (t, [])
  | rg :: rest => if rg.from_ > t then (t, rg :: rest) else consume (if rg.to_ > t then rg.to_ else t) rest

/-- `region_add(head, f, t)`. -/
def regionAdd (head : List FileRegion) (f t : Int) : Option (List FileRegion) :=
  match cursor f head with
  | [] => none
  | rg :: rest =>
    let f' := if f > rg.from_ then rg.from_ else f
    -- the first entry is reused, not freed
    let (t, rest) := if rg.from_ > t then (t, rest) else consume (if rg.to_ > t then rg.to_ else t) rest
    some (before f head ++ ⟨f', t⟩ :: rest)

/-- The loop of `region_chg`. -/
def countLoop (t chg : Int) : List FileRegion → Int
  | [] => chg
  | rg :: rest =>
    if rg.from_ > t then chg
    else if rg.to_ > t then countLoop rg.to_ (chg + (rg.to_ - t) - (rg.to_ - rg.from_)) rest
    else countLoop t (chg - (rg.to_ - rg.from_)) rest

/-- A new region is required at the cursor: it is the list head, or `t` is below it. -/
def needsRegion (t : Int) : List FileRegion → Bool
  | [] => true
  | rg :: _ => t < rg.from_

/-- `region_chg(head, f, t)`; `alloc` is the outcome of `kmalloc`. -/
def regionChg (alloc : Bool) (head : List FileRegion) (f t : Int) : Except Errno Int × List FileRegion :=
  if needsRegion t (cursor f head) then
    if alloc then (.ok (t - f), before f head ++ ⟨f, f⟩ :: cursor f head) else (.error .ENOMEM, head)
  else
    let f' := match cursor f head with
      | [] => f
      | rg :: _ => if f > rg.from_ then rg.from_ else f
    (.ok (countLoop t (t - f') (cursor f head)), head)

/-- The last loop of `region_truncate`: the pages of the regions it drops. -/
def dropLoop (chg : Int) : List FileRegion → Int
  | [] => chg
  | rg :: rest => dropLoop (chg + (rg.to_ - rg.from_)) rest

/-- `region_truncate(head, end)`. -/
def regionTruncate (head : List FileRegion) (end_ : Int) : Int × List FileRegion :=
  match cursor end_ head with
  | [] => (0, head)
  | rg :: rest =>
    if end_ > rg.from_ then (dropLoop (rg.to_ - end_) rest, before end_ head ++ [⟨rg.from_, end_⟩])
    else (dropLoop 0 (rg :: rest), before end_ head)

/-- The loop of `region_count`; `seg_from`, `seg_to` and their difference are `int`, `chg` is `long`. -/
def regionCountLoop (f t chg : Int) : List FileRegion → Int
  | [] => chg
  | rg :: rest =>
    if rg.to_ ≤ f then regionCountLoop f t chg rest
    else if rg.from_ ≥ t then chg
    else
      let segFrom := (max rg.from_ f).bmod (2 ^ 32)
      let segTo := (min rg.to_ t).bmod (2 ^ 32)
      regionCountLoop f t ((chg + (segTo - segFrom).bmod (2 ^ 32)).bmod (2 ^ 64)) rest

/-- `region_count(head, f, t)`. -/
def regionCount (head : List FileRegion) (f t : Int) : Int := regionCountLoop f t 0 head

/-- The `unsigned long` that `hugetlb_vm_op_close` gives back for a mapping of the pages from `start` up to
`end`. -/
def closeReserve (regions : List FileRegion) (start end_ : Int) : Int :=
  (end_ - start - regionCount regions (start.bmod (2 ^ 64)) (end_.bmod (2 ^ 64))) % 2 ^ 64

/-! ### One user at a time -/

/-- What is done with a map: a reservation (`region_chg`, then `region_add` if that did not fail), one that is
given up after `region_chg`, and truncation. -/
inductive Action where
  | reserve (f t : Int) (alloc : Bool)
  | abandon (f t : Int) (alloc : Bool)
  | truncate (end_ : Int)
deriving DecidableEq, Repr

/-- What the call returned. -/
inductive Return where
  | chg (pages : Int)
  | failed (errno : Errno)
  | truncated (pages : Int)
deriving DecidableEq, Repr

/-- One action; `none` when `region_add` stores through the list head. -/
def step (head : List FileRegion) : Action → Option (Return × List FileRegion)
  | .reserve f t alloc =>
    match regionChg alloc head f t with
    | (.error errno, head) => some (.failed errno, head)
    | (.ok chg, head) => (regionAdd head f t).map fun head => (.chg chg, head)
  | .abandon f t alloc =>
    match regionChg alloc head f t with
    | (.error errno, head) => some (.failed errno, head)
    | (.ok chg, head) => some (.chg chg, head)
  | .truncate end_ => some (.truncated (regionTruncate head end_).1, (regionTruncate head end_).2)

/-! ### Several users -/

/-- A map with the reservations that are between `region_chg` and `region_add`. -/
structure Shared where
  head : List FileRegion
  pending : List (Int × Int)
deriving DecidableEq, Repr

/-- The steps of the users. -/
inductive SharedAction where
  | chg (f t : Int) (alloc : Bool)
  | add (f t : Int)
  | truncate (end_ : Int)
deriving DecidableEq, Repr

/-- The steps are taken one at a time, in any order. -/
inductive SharedStep : Shared → SharedAction → List Unit → Shared → Prop where
  | chg {s : Shared} {f t chg : Int} {alloc : Bool} {head : List FileRegion} (low : 0 ≤ f) (order : f < t)
      (result : regionChg alloc s.head f t = (.ok chg, head)) :
      SharedStep s (.chg f t alloc) [] ⟨head, (f, t) :: s.pending⟩
  | failed {s : Shared} {f t : Int} {alloc : Bool} {errno : Errno} {head : List FileRegion} (low : 0 ≤ f)
      (order : f < t) (result : regionChg alloc s.head f t = (.error errno, head)) :
      SharedStep s (.chg f t alloc) [] ⟨head, s.pending⟩
  | add {s : Shared} {f t : Int} {head : List FileRegion} (waiting : (f, t) ∈ s.pending)
      (result : regionAdd s.head f t = some head) :
      SharedStep s (.add f t) [] ⟨head, s.pending.erase (f, t)⟩
  | truncate {s : Shared} {end_ : Int} :
      SharedStep s (.truncate end_) [] ⟨(regionTruncate s.head end_).2, s.pending⟩

open Library List Int Prod

/-! ### Separated regions -/

/-- The list is sorted, and no two regions overlap or touch; a region may be empty. -/
structure Separated (head : List FileRegion) : Prop where
  apart : head.Pairwise fun low high => low.to_ < high.from_
  ordered : ∀ rg ∈ head, rg.from_ ≤ rg.to_

/-- The set of pages that the regions stand for. -/
noncomputable def cover (head : List FileRegion) : Finset Int :=
  head.foldr (fun rg pages => Finset.Ico rg.from_ rg.to_ ∪ pages) ∅

variable {head rest : List FileRegion} {rg : FileRegion} {f t x bound : Int}

theorem cover_cons : cover (rg :: rest) = Finset.Ico rg.from_ rg.to_ ∪ cover rest := rfl

theorem mem_cover : x ∈ cover head ↔ ∃ rg ∈ head, rg.from_ ≤ x ∧ x < rg.to_ := by
  induction head with
  | nil => simp [cover]
  | cons rg rest ih =>
    rw [cover_cons, Finset.mem_union, ih]
    simp

theorem cover_append (low high : List FileRegion) : cover (low ++ high) = cover low ∪ cover high := by
  apply Finset.ext
  intro x
  simp only [Finset.mem_union, mem_cover, mem_append, or_and_right, exists_or]

section

variable (separated : Separated (rg :: rest))

include separated

theorem Separated.tail : Separated rest :=
  ⟨separated.apart.of_cons, fun other mem => separated.ordered other (mem_cons_of_mem _ mem)⟩

theorem Separated.above {other : FileRegion} (mem : other ∈ rest) :
    rg.to_ < other.from_ := rel_of_pairwise_cons separated.apart mem

theorem Separated.le_above : ∀ other ∈ rest, rg.to_ ≤ other.from_ :=
  fun _ mem => (separated.above mem).le

theorem Separated.head_le : rg.from_ ≤ rg.to_ :=
  separated.ordered rg mem_cons_self

end

/-- The sizes of the parts of the regions below a page. -/
def lengthBelow (x : Int) (head : List FileRegion) : Int :=
  (head.map fun rg => min rg.to_ x - min rg.from_ x).sum

theorem lengthBelow_cons : lengthBelow x (rg :: rest) = min rg.to_ x - min rg.from_ x + lengthBelow x rest :=
  sum_cons

theorem lengthBelow_append (low high : List FileRegion) :
    lengthBelow x (low ++ high) = lengthBelow x low + lengthBelow x high := by
  rw [lengthBelow, map_append, sum_append]
  rfl

theorem lengthBelow_eq_zero (above : ∀ rg ∈ head, x ≤ rg.from_ ∧ x ≤ rg.to_) : lengthBelow x head = 0 := by
  induction head with
  | nil => rfl
  | cons rg rest ih =>
    have here := above rg mem_cons_self
    rw [lengthBelow_cons, ih fun other mem => above other (mem_cons_of_mem _ mem)]
    omega

/-- What is behind the end of a region is behind whatever is not. -/
theorem Separated.lengthBelow_tail (separated : Separated (rg :: rest)) (low : bound ≤ rg.to_) :
    lengthBelow bound rest = 0 := by
  refine lengthBelow_eq_zero fun other mem => ?_
  have := separated.above mem
  have := separated.tail.ordered other mem
  omega

/-- The sum of all the sizes. -/
def lengthAll (head : List FileRegion) : Int := (head.map fun rg => rg.to_ - rg.from_).sum

theorem lengthAll_cons : lengthAll (rg :: rest) = rg.to_ - rg.from_ + lengthAll rest := sum_cons

theorem lengthAll_append (low high : List FileRegion) :
    lengthAll (low ++ high) = lengthAll low + lengthAll high := by
  rw [lengthAll, map_append, sum_append]
  rfl

theorem disjoint_cover (above : ∀ other ∈ rest, rg.to_ ≤ other.from_) :
    Disjoint (Finset.Ico rg.from_ rg.to_) (cover rest) := by
  rw [Finset.disjoint_left]
  intro x inside covered
  obtain ⟨other, mem, low, _⟩ := mem_cover.mp covered
  have := above other mem
  have := (Finset.mem_Ico.mp inside).2
  omega

variable (separated : Separated head)

include separated

/-- The regions do not overlap, so that their sizes below a page add up. -/
theorem card_below (x : Int) : (((cover head).filter (· < x)).card : Int) = lengthBelow x head := by
  induction head with
  | nil => rfl
  | cons rg rest ih =>
    have order := separated.head_le
    have own : (Finset.Ico rg.from_ rg.to_).filter (· < x) = Finset.Ico rg.from_ (min rg.to_ x) := by
      apply Finset.ext
      intro y
      rw [Finset.mem_filter, Finset.mem_Ico, Finset.mem_Ico]
      omega
    rw [cover_cons, Finset.filter_union, Finset.card_union_of_disjoint
      (Finset.disjoint_filter_filter (disjoint_cover separated.le_above)), Nat.cast_add,
      ih separated.tail, own, card_Ico, lengthBelow_cons]
    omega

theorem card_cover : ((cover head).card : Int) = lengthAll head := by
  induction head with
  | nil => rfl
  | cons rg rest ih =>
    have order := separated.head_le
    rw [cover_cons, Finset.card_union_of_disjoint (disjoint_cover separated.le_above), Nat.cast_add,
      ih separated.tail, card_Ico, lengthAll_cons]
    omega

/-- How many pages of a range are not covered. -/
theorem card_sdiff_cover (order : f ≤ t) :
    ((Finset.Ico f t \ cover head).card : Int) = t - f - (lengthBelow t head - lengthBelow f head) := by
  have inside : Finset.Ico f t ∩ cover head = (cover head).filter (· < t) \ (cover head).filter (· < f) := by
    apply Finset.ext
    intro x
    simp only [Finset.mem_inter, Finset.mem_Ico, Finset.mem_sdiff, Finset.mem_filter]
    constructor
    · rintro ⟨⟨low, high⟩, covered⟩
      exact ⟨⟨covered, high⟩, fun both => absurd both.2 (by omega)⟩
    · rintro ⟨⟨covered, high⟩, other⟩
      exact ⟨⟨not_lt.mp fun low => other ⟨covered, low⟩, high⟩, covered⟩
  have smaller : (cover head).filter (· < f) ⊆ (cover head).filter (· < t) := by
    intro x mem
    rw [Finset.mem_filter] at mem ⊢
    exact ⟨mem.1, lt_of_lt_of_le mem.2 order⟩
  have parts := Finset.card_sdiff_add_card_inter (Finset.Ico f t) (cover head)
  rw [inside, Finset.card_sdiff_of_subset smaller, card_Ico] at parts
  have fewer := Finset.card_le_card smaller
  have low := card_below separated f
  have high := card_below separated t
  omega

/-! ### The search -/

omit separated

theorem before_append_cursor (bound : Int) (head : List FileRegion) :
    before bound head ++ cursor bound head = head :=
  takeWhile_append_dropWhile

theorem before_lt (mem : rg ∈ before bound head) : rg.to_ < bound := by
  have passed := mem_takeWhile_imp mem
  rw [decide_eq_true_eq] at passed
  exact not_le.mp passed

theorem cursor_le (found : cursor bound head = rg :: rest) : bound ≤ rg.to_ := by
  have stops := head?_dropWhile_not (fun rg : FileRegion => decide (¬ bound ≤ rg.to_)) head
  rw [show List.dropWhile (fun rg : FileRegion => decide (¬ bound ≤ rg.to_)) head = rg :: rest from
    found] at stops
  exact not_not.mp (of_decide_eq_false (by simpa using stops))

theorem Separated.split {low high : List FileRegion} (separated : Separated (low ++ high)) :
    Separated low ∧ Separated high ∧ ∀ a ∈ low, ∀ b ∈ high, a.to_ < b.from_ := by
  obtain ⟨first, second, across⟩ := pairwise_append.mp separated.apart
  exact ⟨⟨first, fun rg mem => separated.ordered rg (mem_append_left _ mem)⟩,
    ⟨second, fun rg mem => separated.ordered rg (mem_append_right _ mem)⟩, across⟩

theorem Separated.append {low high : List FileRegion} (first : Separated low) (second : Separated high)
    (across : ∀ a ∈ low, ∀ b ∈ high, a.to_ < b.from_) : Separated (low ++ high) :=
  ⟨pairwise_append.mpr ⟨first.apart, second.apart, across⟩, fun rg mem =>
    (mem_append.mp mem).elim (first.ordered rg) (second.ordered rg)⟩

theorem Separated.cons (order : rg.from_ ≤ rg.to_) (separated : Separated rest)
    (above : ∀ other ∈ rest, rg.to_ < other.from_) : Separated (rg :: rest) :=
  ⟨pairwise_cons.mpr ⟨above, separated.apart⟩, forall_mem_cons.mpr ⟨order, separated.ordered⟩⟩

/-! ### `region_chg` -/

/-- Some region overlaps or touches the range. -/
def Touch (f t : Int) (head : List FileRegion) : Prop := ∃ rg ∈ head, rg.from_ ≤ t ∧ f ≤ rg.to_

include separated

theorem countLoop_eq (t chg : Int) : countLoop t chg head = chg - lengthBelow t head := by
  induction head generalizing t chg with
  | nil => exact (sub_zero chg).symm
  | cons rg rest ih =>
    have order := separated.head_le
    rw [countLoop, lengthBelow_cons]
    split_ifs with past reaches
    · rw [separated.lengthBelow_tail (by omega)]
      omega
    · rw [ih separated.tail, separated.lengthBelow_tail (le_refl _), separated.lengthBelow_tail (by omega)]
      omega
    · rw [ih separated.tail]
      omega

theorem Separated.at_cursor (bound : Int) : Separated (before bound head) ∧ Separated (cursor bound head) ∧
    ∀ a ∈ before bound head, ∀ b ∈ cursor bound head, a.to_ < b.from_ := by
  rw [← before_append_cursor bound head] at separated
  exact separated.split

/-- What lies below the range in the regions from the cursor on. -/
theorem lengthBelow_cursor (found : cursor f head = rg :: rest) :
    lengthBelow f (rg :: rest) = f - min rg.from_ f := by
  have reaches := cursor_le found
  have own := (separated.at_cursor f).2.1
  rw [found] at own
  rw [lengthBelow_cons, own.lengthBelow_tail reaches]
  omega

/-- The regions that the search passes lie below its bound as a whole. -/
theorem lengthBelow_passed (low : f ≤ bound) :
    lengthBelow bound (before f head) = lengthAll (before f head) := by
  have all : ∀ rg ∈ before f head, min rg.to_ bound - min rg.from_ bound = rg.to_ - rg.from_ := by
    intro rg mem
    have := before_lt mem
    have : rg.from_ ≤ rg.to_ := separated.ordered rg (takeWhile_subset _ mem)
    omega
  rw [lengthBelow, lengthAll, map_congr_left all]

/-- `region_chg` counts the pages of the range that are not reserved, leaves the set as it is, and sees to
it that some region touches the range. -/
theorem regionChg_spec (order : f < t) (alloc : Bool) :
    (alloc = false ∧ regionChg alloc head f t = (.error .ENOMEM, head)) ∨
      ∃ head', regionChg alloc head f t = (.ok ((Finset.Ico f t \ cover head).card : Int), head') ∧
        Separated head' ∧ cover head' = cover head ∧ Touch f t head' ∧ ∀ rg ∈ head, rg ∈ head' := by
  have whole := before_append_cursor f head
  obtain ⟨low, high, across⟩ := separated.at_cursor f
  have count := card_sdiff_cover separated (le_of_lt order)
  rw [← whole, lengthBelow_append, lengthBelow_append, lengthBelow_passed separated (le_of_lt order),
    lengthBelow_passed separated (le_refl f), whole] at count
  rw [regionChg]
  by_cases needs : needsRegion t (cursor f head) = true
  · -- the regions from the cursor on lie above the range
    have beyond : ∀ rg ∈ cursor f head, t < rg.from_ ∧ t ≤ rg.to_ := by
      intro rg mem
      cases found : cursor f head with
      | nil => rw [found] at mem; exact absurd mem not_mem_nil
      | cons first rest =>
        rw [found] at needs mem high
        have above : t < first.from_ := of_decide_eq_true needs
        have := high.head_le
        have own := high.ordered rg mem
        rcases mem_cons.mp mem with rfl | later
        · omega
        · have := high.above later
          omega
    rw [if_pos needs]
    cases alloc with
    | false => exact .inl ⟨rfl, rfl⟩
    | true =>
      refine .inr ⟨before f head ++ ⟨f, f⟩ :: cursor f head, ?_, ?_, ?_, ?_, ?_⟩
      · have none {x : Int} (low : x ≤ t) : lengthBelow x (cursor f head) = 0 := by
          refine lengthBelow_eq_zero fun rg mem => ?_
          have := beyond rg mem
          omega
        rw [none (le_refl t), none (le_of_lt order)] at count
        rw [if_pos rfl]
        congr 2
        omega
      · refine low.append (.cons (le_refl f) high fun other mem => ?_) fun a memberA =>
          forall_mem_cons.mpr ⟨before_lt memberA, across a memberA⟩
        have := beyond other mem
        dsimp only
        omega
      · conv_rhs => rw [← whole]
        have empty : cover (⟨f, f⟩ :: cursor f head) = cover (cursor f head) := by
          show Finset.Ico f f ∪ cover (cursor f head) = _
          rw [Finset.Ico_self, Finset.empty_union]
        rw [cover_append, cover_append, empty]
      · exact ⟨⟨f, f⟩, mem_append_right _ mem_cons_self, le_of_lt order, le_refl f⟩
      · intro rg mem
        rw [← whole] at mem
        rcases mem_append.mp mem with early | late
        · exact mem_append_left _ early
        · exact mem_append_right _ (mem_cons_of_mem _ late)
  · rw [if_neg needs]
    cases found : cursor f head with
    | nil => rw [found] at needs; exact absurd rfl needs
    | cons first rest =>
      have touches : first.from_ ≤ t := by
        rw [found] at needs
        exact not_lt.mp fun below => needs (decide_eq_true below)
      have mem : first ∈ head := by
        rw [← whole, found]
        exact mem_append_right _ mem_cons_self
      refine .inr ⟨head, ?_, separated, rfl, ⟨first, mem, touches, cursor_le found⟩, fun _ same => same⟩
      have start := lengthBelow_cursor separated found
      rw [found] at high count
      dsimp only
      rw [countLoop_eq high]
      congr 2
      split_ifs <;> omega

/-! ### `region_add` -/

/-- The loop takes the regions that the growing range reaches. -/
theorem consume_spec (t : Int) : ∃ eaten, head = eaten ++ (consume t head).2 ∧ t ≤ (consume t head).1 ∧
      (∀ rg ∈ eaten, rg.to_ ≤ (consume t head).1) ∧
        (∀ rg ∈ (consume t head).2, (consume t head).1 < rg.from_) ∧
      ∀ x, t ≤ x → x < (consume t head).1 → x ∈ cover eaten := by
  induction head generalizing t with
  | nil =>
    refine ⟨[], rfl, le_refl t, fun rg mem => absurd mem not_mem_nil,
      fun rg mem => absurd mem not_mem_nil, fun x low high => ?_⟩
    exact absurd high (not_lt.mpr low)
  | cons rg rest ih =>
    rw [consume]
    have order := separated.head_le
    by_cases past : rg.from_ > t
    · rw [if_pos past]
      refine ⟨[], rfl, le_refl t, nofun, forall_mem_cons.mpr ⟨past, fun other later => ?_⟩,
        fun x low high => absurd high (not_lt.mpr low)⟩
      have := separated.above later
      omega
    · rw [if_neg past]
      have grown : t ≤ (if rg.to_ > t then rg.to_ else t) ∧ rg.to_ ≤ (if rg.to_ > t then rg.to_ else t) := by
        omega
      obtain ⟨eaten, split, more, below, above, filled⟩ :=
        ih separated.tail (if rg.to_ > t then rg.to_ else t)
      refine ⟨rg :: eaten, ?_, le_trans grown.1 more, forall_mem_cons.mpr ⟨le_trans grown.2 more, below⟩,
        above,
        fun x low high => ?_⟩
      · conv_lhs => rw [split]
        rfl
      · rw [mem_cover]
        by_cases inside : x < rg.to_
        · exact ⟨rg, mem_cons_self, by omega, inside⟩
        · obtain ⟨other, mem, range⟩ := mem_cover.mp (filled x (by omega) high)
          exact ⟨other, mem_cons_of_mem _ mem, range⟩

/-- With a region that touches the range, `region_add` reuses an entry of the list and adds the range to the
set. Every region lies in one of the new list. -/
theorem regionAdd_spec (order : f ≤ t) (touch : Touch f t head) :
    ∃ head', regionAdd head f t = some head' ∧ Separated head' ∧ cover head' = cover head ∪ Finset.Ico f t ∧
      ∀ rg ∈ head, ∃ rg' ∈ head', rg'.from_ ≤ rg.from_ ∧ rg.to_ ≤ rg'.to_ := by
  obtain ⟨touching, mem, near, far⟩ := touch
  have whole := before_append_cursor f head
  obtain ⟨low, high, across⟩ := separated.at_cursor f
  have late : touching ∈ cursor f head := by
    rw [← whole] at mem
    rcases mem_append.mp mem with early | late
    · exact absurd (before_lt early) (not_lt.mpr far)
    · exact late
  rw [regionAdd]
  cases found : cursor f head with
  | nil => rw [found] at late; exact absurd late not_mem_nil
  | cons first rest =>
    have reaches := cursor_le found
    rw [found] at late high across whole
    have firstOrder := high.head_le
    have start : first.from_ ≤ t := by
      rcases mem_cons.mp late with rfl | later
      · exact near
      · have := high.above later
        omega
    obtain ⟨eaten, split, more, below, above, filled⟩ :=
      consume_spec high.tail (if first.to_ > t then first.to_ else t)
    dsimp only
    rw [if_neg (not_lt.mpr start)]
    generalize (consume (if first.to_ > t then first.to_ else t) rest) =
      left at split more below above filled ⊢
    obtain ⟨t', kept⟩ := left
    have grown : t ≤ t' ∧ first.to_ ≤ t' := by
      omega
    have leftEnd : (if f > first.from_ then first.from_ else f) ≤ f ∧
        (if f > first.from_ then first.from_ else f) ≤ first.from_ := by
      omega
    have leftIn : ∀ x, (if f > first.from_ then first.from_ else f) ≤ x → f ≤ x ∨ first.from_ ≤ x := by
      intro x
      omega
    generalize (if f > first.from_ then first.from_ else f) = f' at leftEnd leftIn ⊢
    have tail := high.tail
    rw [split] at tail
    have eatenLow : ∀ rg ∈ first :: eaten, f' ≤ rg.from_ ∧ rg.to_ ≤ t' := by
      refine forall_mem_cons.mpr ⟨⟨leftEnd.2, grown.2⟩, fun rg later => ?_⟩
      have : first.to_ < rg.from_ := high.above (by rw [split]; exact mem_append_left _ later)
      exact ⟨by omega, below rg later⟩
    have shape : head = before f head ++ (first :: eaten) ++ kept := by
      rw [append_assoc, cons_append, ← split]
      exact whole.symm
    refine ⟨before f head ++ ⟨f', t'⟩ :: kept, rfl, ?_, ?_, ?_⟩
    · refine low.append (.cons (by dsimp only; omega) tail.split.2.1 above) fun a memberA =>
        forall_mem_cons.mpr ⟨?_, fun b later => ?_⟩
      · have := before_lt memberA
        have := across a memberA first mem_cons_self
        rcases leftIn f' (le_refl _) with inside | inside <;> (dsimp only; omega)
      · exact across a memberA b (mem_cons_of_mem _ (by rw [split]; exact mem_append_right _ later))
    · have same : cover head = cover (before f head ++ (first :: eaten) ++ kept) := congrArg cover shape
      rw [same]
      apply Finset.ext
      intro x
      rw [Finset.mem_union, Finset.mem_Ico]
      simp only [mem_cover, mem_append, mem_cons]
      constructor
      · rintro ⟨rg, early | rfl | later, range⟩
        · exact .inl ⟨rg, .inl (.inl early), range⟩
        · by_cases inside : f ≤ x ∧ x < t
          · exact .inr inside
          · refine .inl ?_
            by_cases own : first.from_ ≤ x ∧ x < first.to_
            · exact ⟨first, .inl (.inr (.inl rfl)), own⟩
            · have beyond : (if first.to_ > t then first.to_ else t) ≤ x := by
                have := leftIn x range.1
                omega
              obtain ⟨other, mem, within⟩ := mem_cover.mp (filled x beyond range.2)
              exact ⟨other, .inl (.inr (.inr mem)), within⟩
        · exact .inl ⟨rg, .inr later, range⟩
      · rintro (⟨rg, (early | taken) | later, range⟩ | inside)
        · exact ⟨rg, .inl early, range⟩
        · have := eatenLow rg (mem_cons.mpr taken)
          exact ⟨⟨f', t'⟩, .inr (.inl rfl), by dsimp only; omega⟩
        · exact ⟨rg, .inr (.inr later), range⟩
        · exact ⟨⟨f', t'⟩, .inr (.inl rfl), by dsimp only; omega⟩
    · intro rg mem
      rw [shape] at mem
      rcases mem_append.mp mem with early | later
      · rcases mem_append.mp early with early | taken
        · exact ⟨rg, mem_append_left _ early, le_refl _, le_refl _⟩
        · exact ⟨⟨f', t'⟩, mem_append_right _ mem_cons_self, eatenLow rg taken⟩
      · exact ⟨rg, mem_append_right _ (mem_cons_of_mem _ later), le_refl _, le_refl _⟩

/-! ### `region_truncate` -/

omit separated

theorem dropLoop_eq (chg : Int) (head : List FileRegion) : dropLoop chg head = chg + lengthAll head := by
  induction head generalizing chg with
  | nil => exact (add_zero chg).symm
  | cons rg rest ih =>
    rw [dropLoop, ih, lengthAll_cons]
    omega

include separated

/-- How many pages are covered from `end` on. -/
theorem card_from (end_ : Int) :
    (((cover head).filter (end_ ≤ ·)).card : Int) =
      lengthAll (cursor end_ head) - lengthBelow end_ (cursor end_ head) := by
  have parts := Finset.card_filter_add_card_filter_not (s := cover head) (· < end_)
  simp only [not_lt] at parts
  have below := card_below separated end_
  have all := card_cover separated
  rw [← before_append_cursor end_ head, lengthBelow_append, before_append_cursor,
    lengthBelow_passed separated (le_refl _)] at below
  rw [← before_append_cursor end_ head, lengthAll_append, before_append_cursor] at all
  omega

/-- `region_truncate` drops the pages from `end` on and counts them. A range that ends below `end` keeps a
region that touches it. -/
theorem regionTruncate_spec (end_ : Int) :
    (regionTruncate head end_).1 = (((cover head).filter (end_ ≤ ·)).card : Int) ∧
      Separated (regionTruncate head end_).2 ∧
      cover (regionTruncate head end_).2 = (cover head).filter (· < end_) ∧
      ∀ f t, f ≤ t → t < end_ → Touch f t head → Touch f t (regionTruncate head end_).2 := by
  have whole := before_append_cursor end_ head
  obtain ⟨low, high, across⟩ := separated.at_cursor end_
  have count := card_from separated end_
  have passed : ∀ {x}, x ∈ cover (before end_ head) → x < end_ := by
    intro x covered
    obtain ⟨rg, mem, range⟩ := mem_cover.mp covered
    have := before_lt mem
    omega
  have same : cover head = cover (before end_ head) ∪ cover (cursor end_ head) := by
    rw [← cover_append, whole]
  rw [regionTruncate]
  cases found : cursor end_ head with
  | nil =>
    rw [found] at count same whole
    rw [append_nil] at whole
    refine ⟨count.symm, separated, ?_, fun f t _ _ touch => touch⟩
    apply Finset.ext
    intro x
    rw [Finset.mem_filter, iff_self_and]
    intro covered
    rw [← whole] at covered
    exact passed covered
  | cons rg rest =>
    have reaches := cursor_le found
    have start := lengthBelow_cursor separated found
    rw [found] at high across whole same count
    have later : ∀ other ∈ rest, end_ < other.from_ := by
      intro other mem
      have := high.above mem
      omega
    have kept : ∀ {f t : Int}, t < end_ → Touch f t head → Touch f t (before end_ head) ∨ rg.from_ ≤ t := by
      rintro f t small ⟨touching, mem, near, far⟩
      rw [← whole] at mem
      rcases mem_append.mp mem with early | late
      · exact .inl ⟨touching, early, near, far⟩
      · rcases mem_cons.mp late with rfl | late
        · exact .inr near
        · have := later touching late
          omega
    have lower : ∀ x, x ∈ cover (rg :: rest) ∧ x < end_ ↔ rg.from_ ≤ x ∧ x < end_ := by
      intro x
      rw [mem_cover]
      constructor
      · rintro ⟨⟨other, mem, range⟩, small⟩
        rcases mem_cons.mp mem with rfl | mem
        · exact ⟨range.1, small⟩
        · have := later other mem
          omega
      · rintro ⟨above, small⟩
        exact ⟨⟨rg, mem_cons_self, above, by omega⟩, small⟩
    dsimp only
    split_ifs with middle
    · refine ⟨?_, ?_, ?_, fun f t short small touch => ?_⟩
      · rw [count, dropLoop_eq, lengthAll_cons]
        omega
      · refine low.append (.cons (le_of_lt middle) ⟨.nil, nofun⟩ nofun) fun a memberA b memberB => ?_
        rw [mem_singleton.mp memberB]
        exact across a memberA rg mem_cons_self
      · rw [same, cover_append, Finset.filter_union]
        congr 1
        · exact (Finset.filter_true_of_mem fun x covered => passed covered).symm
        · apply Finset.ext
          intro x
          rw [Finset.mem_filter, lower, mem_cover]
          simp
      · rcases kept small touch with ⟨touching, mem, near⟩ | near
        · exact ⟨touching, mem_append_left _ mem, near⟩
        · exact ⟨⟨rg.from_, end_⟩, mem_append_right _ (mem_singleton.mpr rfl), near,
            by dsimp only; omega⟩
    · refine ⟨?_, low, ?_, fun f t short small touch => ?_⟩
      · rw [dropLoop_eq]
        omega
      · rw [same, Finset.filter_union]
        have none : (cover (rg :: rest)).filter (· < end_) = ∅ := by
          rw [Finset.eq_empty_iff_forall_notMem]
          intro x
          rw [Finset.mem_filter, lower]
          omega
        rw [none, Finset.union_empty]
        exact (Finset.filter_true_of_mem fun x covered => passed covered).symm
      · rcases kept small touch with touch | near
        · exact touch
        · omega

/-! ### One user at a time -/

/-- The callers reserve non-empty ranges of pages. -/
def Action.Valid : Action → Prop
  | .reserve f t _ => 0 ≤ f ∧ f < t
  | .abandon f t _ => 0 ≤ f ∧ f < t
  | .truncate _ => True

/-- The steps of a map. -/
def RegionStep (head : List FileRegion) (action : Action) (returns : List Return)
    (head' : List FileRegion) : Prop :=
  action.Valid ∧ ∃ ret, returns = [ret] ∧ step head action = some (ret, head')

/-- What the calls mean for a set of pages. -/
inductive SetStep : Finset Int → Action → List Return → Finset Int → Prop where
  | reserve {pages : Finset Int} {f t : Int} {alloc : Bool} :
      SetStep pages (.reserve f t alloc) [.chg ((Finset.Ico f t \ pages).card : Int)] (pages ∪ Finset.Ico f t)
  | abandon {pages : Finset Int} {f t : Int} {alloc : Bool} :
      SetStep pages (.abandon f t alloc) [.chg ((Finset.Ico f t \ pages).card : Int)] pages
  | reserveFailed {pages : Finset Int} {f t : Int} : SetStep pages (.reserve f t false)
    [.failed .ENOMEM] pages
  | abandonFailed {pages : Finset Int} {f t : Int} : SetStep pages (.abandon f t false)
    [.failed .ENOMEM] pages
  | truncate {pages : Finset Int} {end_ : Int} :
      SetStep pages (.truncate end_) [.truncated ((pages.filter (end_ ≤ ·)).card : Int)]
        (pages.filter (· < end_))

theorem step_spec {action : Action} (valid : action.Valid) :
    ∃ ret head', step head action = some (ret, head') ∧ Separated head' ∧
      SetStep (cover head) action [ret] (cover head') := by
  cases action with
  | reserve f t alloc =>
    rcases regionChg_spec separated valid.2 alloc with ⟨rfl, failed⟩ | ⟨head', ok, kept, same, touch, _⟩
    · exact ⟨.failed .ENOMEM, head, by rw [step, failed], separated, .reserveFailed⟩
    · obtain ⟨head'', added, separated', union, _⟩ := regionAdd_spec kept (le_of_lt valid.2) touch
      refine ⟨.chg ((Finset.Ico f t \ cover head).card : Int), head'', ?_, separated', ?_⟩
      · rw [step, ok]
        simp only [added, Option.map_some]
      · rw [union, same]
        exact .reserve
  | abandon f t alloc =>
    rcases regionChg_spec separated valid.2 alloc with ⟨rfl, failed⟩ | ⟨head', ok, kept, same, _⟩
    · exact ⟨.failed .ENOMEM, head, by rw [step, failed], separated, .abandonFailed⟩
    · refine ⟨_, head', by rw [step, ok], kept, ?_⟩
      rw [same]
      exact .abandon
  | truncate end_ =>
    obtain ⟨count, kept, same, _⟩ := regionTruncate_spec separated end_
    refine ⟨_, _, rfl, kept, ?_⟩
    rw [count, same]
    exact .truncate

/-- The list stands for the set of pages. -/
def Represents (head : List FileRegion) (pages : Finset Int) : Prop := Separated head ∧ cover head = pages

omit separated

/-- The reservation map refines a set of pages: in every sequence of reservations, abandoned reservations and
truncations the regions stay sorted and never touch, every call returns what it should for the set that they
stand for and changes that set as it should, and `region_add` never stores through the list head. -/
theorem regions_refine_set {actions : List Action} {returns : List Return} {last : List FileRegion}
    (run : Run RegionStep [] actions returns last) :
    Separated last ∧ Run SetStep ∅ actions returns (cover last) ∧
      ∀ action : Action, action.Valid → (step last action).isSome := by
  have start : Represents [] ∅ := ⟨⟨.nil, nofun⟩, rfl⟩
  have matched {before after : List FileRegion} {action : Action} {events : List Return} {pages : Finset Int}
      (related : Represents before pages) (taken : RegionStep before action events after) :
      ∃ pages', SetStep pages action events pages' ∧ Represents after pages' := by
    obtain ⟨separated, rfl⟩ := related
    obtain ⟨valid, ret, rfl, taken⟩ := taken
    obtain ⟨ret', head', done, kept, setStep⟩ := step_spec separated valid
    obtain ⟨rfl, rfl⟩ := mk.inj (Option.some.inj (done.symm.trans taken))
    exact ⟨_, setStep, kept, rfl⟩
  obtain ⟨pages, setRun, separated, same⟩ := run.simulation start matched
  refine ⟨separated, by rw [same]; exact setRun, fun action valid => ?_⟩
  obtain ⟨ret, head', done, _⟩ := step_spec separated valid
  rw [done]
  rfl

theorem regions_refine_set_truncated :
    ∃ last, Run RegionStep [] [.reserve 2 5 true, .abandon 8 9 true, .truncate 3]
      [.chg 3, .chg 1, .truncated 2] last ∧
      Separated last ∧
      Run SetStep ∅ [.reserve 2 5 true, .abandon 8 9 true, .truncate 3] [.chg 3, .chg 1, .truncated 2]
        (cover last) ∧
      ∀ action : Action, action.Valid → (step last action).isSome := by
  have run : Run RegionStep [] [.reserve 2 5 true, .abandon 8 9 true, .truncate 3] [.chg 3, .chg 1,
      .truncated 2] _ :=
    .cons ⟨⟨by decide, by decide⟩, _, rfl, rfl⟩ <| .cons ⟨⟨by decide, by decide⟩, _, rfl, rfl⟩ <|
      .cons ⟨trivial, _, rfl, rfl⟩ .nil
  exact ⟨_, run, regions_refine_set run⟩

/-! ### Several users -/

/-- No truncation reaches a reservation between its `region_chg` and its `region_add`. -/
def Calm (s : Shared) : SharedAction → Prop
  | .truncate end_ => ∀ range ∈ s.pending, range.2 < end_
  | _ => True

/-- The steps that meet the condition. -/
def CalmStep (s : Shared) (action : SharedAction) (events : List Unit) (s' : Shared) : Prop :=
  SharedStep s action events s' ∧ Calm s action

/-- What a step does to the set of pages: completed additions, and truncations. -/
noncomputable def SharedAction.pages (pages : Finset Int) : SharedAction → Finset Int
  | .chg .. => pages
  | .add f t => pages ∪ Finset.Ico f t
  | .truncate end_ => pages.filter (· < end_)

/-- The list is in order, and some region touches every range between the two steps. -/
structure SharedInvariant (s : Shared) : Prop where
  separated : Separated s.head
  ordered : ∀ range ∈ s.pending, range.1 < range.2
  touch : ∀ range ∈ s.pending, Touch range.1 range.2 s.head

theorem SharedInvariant.step {s s' : Shared} {action : SharedAction} {events : List Unit}
    (inv : SharedInvariant s) (taken : CalmStep s action events s') :
    SharedInvariant s' ∧ cover s'.head = action.pages (cover s.head) := by
  obtain ⟨taken, calm⟩ := taken
  cases taken with
  | @chg f t _ alloc _ _ order result =>
    rcases regionChg_spec inv.separated order alloc with ⟨rfl, failed⟩ | ⟨head', ok, kept, same, touch, more⟩
    · rw [failed] at result
      cases (mk.inj result).1
    · obtain ⟨-, rfl⟩ := mk.inj (ok.symm.trans result)
      refine ⟨⟨kept, forall_mem_cons.mpr ⟨order, inv.ordered⟩,
        forall_mem_cons.mpr ⟨touch, fun range old => ?_⟩⟩, same⟩
      obtain ⟨rg, present, near⟩ := inv.touch range old
      exact ⟨rg, more rg present, near⟩
  | @failed f t alloc _ _ _ order result =>
    rcases regionChg_spec inv.separated order alloc with ⟨rfl, failed⟩ | ⟨head', ok, _⟩
    · obtain ⟨-, rfl⟩ := mk.inj (failed.symm.trans result)
      exact ⟨inv, rfl⟩
    · rw [ok] at result
      cases (mk.inj result).1
  | @add f t _ waiting result =>
    obtain ⟨head', added, kept, union, inside⟩ := regionAdd_spec inv.separated
      (le_of_lt (inv.ordered _ waiting)) (inv.touch _ waiting)
    obtain rfl := Option.some.inj (added.symm.trans result)
    refine ⟨⟨kept, fun range mem => inv.ordered range (mem_of_mem_erase mem),
      fun range mem => ?_⟩, union⟩
    obtain ⟨rg, present, near, far⟩ := inv.touch range (mem_of_mem_erase mem)
    obtain ⟨rg', present', wider⟩ := inside rg present
    exact ⟨rg', present', by omega, by omega⟩
  | @truncate end_ =>
    obtain ⟨_, kept, same, touches⟩ := regionTruncate_spec inv.separated end_
    refine ⟨⟨kept, inv.ordered, fun range mem => ?_⟩, same⟩
    exact touches range.1 range.2 (le_of_lt (inv.ordered range mem)) (calm range mem)
      (inv.touch range mem)

/-- In every interleaving of reservations and truncations in which no truncation reaches a reservation
between its `region_chg` and its `region_add`, each `region_add` finds an entry to reuse, and the set of
pages is what the completed additions and the truncations make it. -/
theorem regions_shared {actions : List SharedAction} {events : List Unit} {last : Shared}
    (run : Run CalmStep ⟨[], []⟩ actions events last) :
    (∀ range ∈ last.pending, (regionAdd last.head range.1 range.2).isSome) ∧
      cover last.head = actions.foldl SharedAction.pages ∅ := by
  have all : SharedInvariant last ∧ cover last.head = actions.foldl SharedAction.pages ∅ := by
    induction run with
    | nil =>
      exact ⟨⟨⟨.nil, nofun⟩, nofun, nofun⟩, rfl⟩
    | snoc _ taken ih =>
      obtain ⟨inv, same⟩ := ih
      obtain ⟨kept, next⟩ := inv.step taken
      rw [foldl_append, ← same]
      exact ⟨kept, next⟩
  refine ⟨fun range mem => ?_, all.2⟩
  obtain ⟨head', added, _⟩ := regionAdd_spec all.1.separated (le_of_lt (all.1.ordered range mem))
    (all.1.touch range mem)
  rw [added]
  rfl

theorem regions_shared_two :
    ∃ last, Run CalmStep ⟨[], []⟩ [.chg 5 6 true, .chg 1 9 true, .add 5 6] [] last ∧
      (∀ range ∈ last.pending, (regionAdd last.head range.1 range.2).isSome) ∧
      cover last.head = [SharedAction.chg 5 6 true, .chg 1 9 true, .add 5 6].foldl SharedAction.pages ∅ := by
  have run : Run CalmStep ⟨[], []⟩ [.chg 5 6 true, .chg 1 9 true, .add 5 6] [] _ :=
    .cons ⟨.chg (by decide) (by decide) rfl, trivial⟩ <| .cons ⟨.chg (by decide) (by decide) rfl, trivial⟩ <|
      .cons ⟨.add (by decide) rfl, trivial⟩ .nil
  exact ⟨_, run, regions_shared run⟩

/-- A truncation frees the placeholder of a reservation, and its `region_add` comes to the list head. -/
theorem regions_shared_truncated :
    ∃ last, Run SharedStep ⟨[], []⟩ [.chg 5 6 true, .truncate 0] [] last ∧ (5, 6) ∈ last.pending ∧
      regionAdd last.head 5 6 = none :=
  ⟨_, .cons (.chg (by decide) (by decide) rfl) (.cons .truncate .nil), by decide, rfl⟩

/-! ### Counting -/

omit separated

/-- The number of pages of the range in a region. -/
def overlap (f t : Int) (rg : FileRegion) : Int := max 0 (min rg.to_ t - max rg.from_ f)

section Count

variable (sorted : head.Pairwise fun low high => low.to_ ≤ high.from_)

include sorted

theorem card_inter_cover : ((Finset.Ico f t ∩ cover head).card : Int) = (head.map (overlap f t)).sum := by
  induction head with
  | nil => simp [cover]
  | cons rg rest ih =>
    obtain ⟨above, sorted⟩ := pairwise_cons.mp sorted
    have apart : Disjoint (Finset.Ico f t ∩ Finset.Ico rg.from_ rg.to_) (Finset.Ico f t ∩ cover rest) :=
      (disjoint_cover above).mono Finset.inter_subset_right Finset.inter_subset_right
    rw [cover_cons, Finset.inter_union_distrib_left, Finset.card_union_of_disjoint apart,
      Nat.cast_add, ih sorted,
      map_cons, sum_cons, Finset.Ico_inter_Ico, card_Ico, overlap]
    omega

/-- The accumulator holds the sum of the truncated sizes. -/
theorem regionCountLoop_eq (ordered : ∀ rg ∈ head, rg.from_ ≤ rg.to_) (order : f ≤ t) (chg : Int) :
    regionCountLoop f t (chg.bmod (2 ^ 64)) head =
      (chg + (head.map fun rg => (overlap f t rg).bmod (2 ^ 32)).sum).bmod (2 ^ 64) := by
  induction head generalizing chg with
  | nil => simp [regionCountLoop]
  | cons rg rest ih =>
    obtain ⟨above, sorted⟩ := pairwise_cons.mp sorted
    obtain ⟨own, ordered⟩ := forall_mem_cons.mp ordered
    rw [regionCountLoop]
    split_ifs with below beyond
    · have none : overlap f t rg = 0 := by
        rw [overlap]
        omega
      rw [ih sorted ordered, map_cons, sum_cons, none, zero_bmod, Int.zero_add]
    · have none : ∀ other ∈ rg :: rest, (overlap f t other).bmod (2 ^ 32) = 0 := by
        intro other mem
        have low : rg.from_ ≤ other.from_ := by
          rcases mem_cons.mp mem with rfl | later
          · exact le_refl _
          · exact own.trans (above other later)
        rw [show overlap f t other = 0 by rw [overlap]; omega, zero_bmod]
      rw [map_congr_left none]
      simp
    · have some : min rg.to_ t - max rg.from_ f = overlap f t rg := by
        rw [overlap]
        omega
      dsimp only
      rw [bmod_sub_bmod, sub_bmod_bmod, some, bmod_add_bmod, ih sorted ordered, map_cons, sum_cons,
        Int.add_assoc]

end Count

/-- Truncation only takes away, and takes something away where a size does not fit an `int`. -/
theorem sum_bmod_overlap (f t : Int) (head : List FileRegion) :
    -(head.map (overlap f t)).sum ≤ (head.map fun rg => (overlap f t rg).bmod (2 ^ 32)).sum ∧
      (head.map fun rg => (overlap f t rg).bmod (2 ^ 32)).sum ≤ (head.map (overlap f t)).sum ∧
      ((head.map fun rg => (overlap f t rg).bmod (2 ^ 32)).sum = (head.map (overlap f t)).sum ↔
        ∀ rg ∈ head, min rg.to_ t - max rg.from_ f < 2 ^ 31) := by
  induction head with
  | nil => simp
  | cons rg rest ih =>
    obtain ⟨low, high, exact_⟩ := ih
    rw [map_cons, sum_cons, map_cons, sum_cons, forall_mem_cons, ← exact_]
    have size : overlap f t rg = max 0 (min rg.to_ t - max rg.from_ f) := rfl
    rw [bmod_def]
    omega

/-- `region_count` is exact just where every region has fewer than `2 ^ 31` pages of the range, and the count
itself fits a `long`; under the first condition a mapping that is closed gives back what was not consumed. -/
theorem regionCount_exact_iff (sorted : head.Pairwise fun low high => low.to_ ≤ high.from_)
    (ordered : ∀ rg ∈ head, rg.from_ ≤ rg.to_) (order : f ≤ t) :
    (regionCount head f t = ((Finset.Ico f t ∩ cover head).card : Int) ↔
      ((Finset.Ico f t ∩ cover head).card : Int) < 2 ^ 63 ∧
        ∀ rg ∈ head, min rg.to_ t - max rg.from_ f < 2 ^ 31) ∧
    (0 ≤ f → t < 2 ^ 63 → (closeReserve head f t = ((Finset.Ico f t \ cover head).card : Int) ↔
      ∀ rg ∈ head, min rg.to_ t - max rg.from_ f < 2 ^ 31)) := by
  obtain ⟨low, high, exact_⟩ := sum_bmod_overlap f t head
  have count := regionCountLoop_eq sorted ordered order 0
  rw [zero_bmod, Int.zero_add, bmod_def] at count
  have all : ((Finset.Ico f t).card : Int) = t - f := by
    rw [card_Ico]
    omega
  have parts := Finset.card_sdiff_add_card_inter (Finset.Ico f t) (cover head)
  rw [← exact_, ← card_inter_cover sorted]
  rw [← card_inter_cover sorted] at low high
  constructor
  · rw [regionCount, count]
    omega
  · intro nonneg fits
    rw [closeReserve, bmod_eq_of_le (by omega) (by omega), bmod_eq_of_le (by omega) (by omega),
      regionCount, count]
    omega

/-- A short region next to a longer one. -/
theorem regionCount_exact_two :
    regionCount [⟨2, 4⟩, ⟨4, 9⟩] 3 7 = 4 ∧ closeReserve [⟨2, 4⟩, ⟨4, 9⟩] 3 7 = 0 := by
  have result := @regionCount_exact_iff [⟨2, 4⟩, ⟨4, 9⟩] 3 7 (by decide) (by decide) (by decide)
  have pages : Finset.Ico (3 : Int) 7 ∩ cover [⟨2, 4⟩, ⟨4, 9⟩] = Finset.Ico 3 7 := by
    ext x
    simp [mem_cover]
    omega
  rw [pages] at result
  exact ⟨result.1.mpr (by decide), rfl⟩

/-- A region of `2 ^ 31` pages counts as `-2 ^ 31`. -/
theorem regionCount_truncated : regionCount [⟨0, 2 ^ 31⟩] 0 (2 ^ 31) = -2 ^ 31 ∧
    closeReserve [⟨0, 2 ^ 31⟩] 0 (2 ^ 31) = 2 ^ 32 := by
  decide

end LinuxKernel.Mm.Hugetlb
