/-
Module: LinuxKernel.Proofs.Resource
Purpose: The calls on a resource tree. Each loop has a lemma that says which edit of the tree it ends with,
  for all fuel from some bound on. `reserve_region_with_split` gives the root new children exactly where it
  has none, if the range is inside the root.
Trusted boundary: none
Main exports: requestResource_spec, resource_tree, Filled, reserveRegionWithSplit_exact
-/
import LinuxKernel.Kernel.Resource
import LinuxKernel.Library.Runs

namespace LinuxKernel.Kernel.ResourceTree

section

open Library Function List Nat Option

variable {heap heap' : Heap} {ptr mid value : Option Nat} {l pre post run : List Nat}
  {n c p new old root : Nat}
  {top : Nat} {nodes : Set Nat} {kids : Nat → List Nat} {rank : Nat → Nat} {bound : Nat}

/-! ### Requesting -/

theorem Segment.read_cons (segment : Segment heap (heap.child p) (pre ++ c :: post) none) :
    heap.read (slotAfter p pre) = some c := by
  obtain ⟨mid, first, second⟩ := segment_append.mp segment
  exact first.read.trans second.1

theorem requestLoop_spec (segment : Segment heap (heap.child p) (pre ++ post) none)
    (before : ∀ c ∈ pre, heap.end_ c < heap.start new) :
    (∃ mid rest, post = mid ++ rest ∧ (∀ c ∈ pre ++ mid, heap.end_ c < heap.start new) ∧
      (∀ c ∈ rest.head?, heap.end_ new < heap.start c) ∧
      Gives (requestLoop heap p new · (slotAfter p pre)) (none, attached heap p (pre ++ mid) rest new)) ∨
    ∃ mid c rest, post = mid ++ c :: rest ∧ (∀ c ∈ pre ++ mid, heap.end_ c < heap.start new) ∧
      heap.start c ≤ heap.end_ new ∧ heap.start new ≤ heap.end_ c ∧
      Gives (requestLoop heap p new · (slotAfter p pre)) (some c, heap) := by
  induction post generalizing pre with
  | nil =>
    have read : heap.read (slotAfter p pre) = none := Segment.read (by rwa [append_nil] at segment)
    refine .inl ⟨[], [], rfl, by rwa [append_nil], nofun, Gives.const.round fun fuel => ?_⟩
    rw [append_nil]
    simp only [requestLoop, read]
    rfl
  | cons c post ih =>
    have read := segment.read_cons
    by_cases late : heap.start c > heap.end_ new
    · refine .inl ⟨[], c :: post,
        rfl, by rwa [append_nil], fun d head => ?_, Gives.const.round fun fuel => ?_⟩
      · rwa [← some.inj head]
      · rw [append_nil]
        simp only [requestLoop, read, if_pos late]
        rfl
    · by_cases early : heap.end_ c < heap.start new
      · have beforeC : ∀ d ∈ pre ++ [c], heap.end_ d < heap.start new :=
          forall_mem_append.mpr ⟨before, forall_mem_singleton.mpr early⟩
        have onward (fuel : Nat) : requestLoop heap p new (fuel + 1) (slotAfter p pre) =
            requestLoop heap p new fuel (slotAfter p (pre ++ [c])) := by
          rw [slotAfter_concat]
          simp only [requestLoop, read, if_neg late, if_pos early]
        rcases ih (by simpa using segment) beforeC with
          ⟨mid, rest, rfl, passed, next, done⟩ | ⟨mid, d, rest, rfl, passed, low, high, done⟩
        · rw [append_assoc] at done
          exact .inl ⟨c :: mid, rest, rfl, by simpa using passed, next, done.round onward⟩
        · exact .inr ⟨c :: mid, d, rest, rfl, by simpa using passed, low, high, done.round onward⟩
      · refine .inr ⟨[], c, post,
          rfl, by rwa [append_nil], by omega, by omega, Gives.const.round fun fuel => ?_⟩
        simp only [requestLoop, read, if_neg late, if_neg early]

/-- The range of a resource lies between two neighbours. -/
structure Gap (heap : Heap) (nodes : Set Nat) (kids : Nat → List Nat) (p : Nat)
    (pre post : List Nat) (new : Nat) :
    Prop where
  node : p ∈ nodes
  fits : Fits heap p new
  split : kids p = pre ++ post
  before : ∀ c ∈ pre, heap.end_ c < heap.start new
  after : ∀ c ∈ post, heap.end_ new < heap.start c

/-- The first child whose range meets the range of a resource. -/
structure Conflict (heap : Heap) (nodes : Set Nat) (kids : Nat → List Nat) (p : Nat)
    (pre : List Nat) (c : Nat)
    (post : List Nat) (new : Nat) : Prop where
  node : p ∈ nodes
  fits : Fits heap p new
  split : kids p = pre ++ c :: post
  before : ∀ c ∈ pre, heap.end_ c < heap.start new
  low : heap.start c ≤ heap.end_ new
  high : heap.start new ≤ heap.end_ c

variable {last fuel res width start size end_ : Nat} {action : Action}

theorem Conflict.kid (conflict : Conflict heap nodes kids p pre c post new) : c ∈ kids p := by
  rw [conflict.split]
  simp

variable (shape : Shape heap top nodes kids rank bound)

include shape

/-- In a list in order, what comes after a range that ends before the first node is behind it. -/
theorem Shape.after_of_head (node : p ∈ nodes)
    (split : kids p = pre ++ post) (next : ∀ c ∈ post.head?, last < heap.start c) :
    ∀ c ∈ post, last < heap.start c := by
  cases post with
  | nil => exact fun c mem => absurd mem not_mem_nil
  | cons d post =>
    have first := next d rfl
    have sorted := shape.sorted p node
    rw [split] at sorted
    refine forall_mem_cons.mpr ⟨first, fun c later => ?_⟩
    have ordered := (pairwise_cons.mp (pairwise_append.mp sorted).2.1).1 c later
    have := (shape.under p node d (by rw [split]; simp)).nonempty
    omega

/-- In a list in order, what comes before a range that begins after the last node is in front of it. -/
theorem Shape.before_of_last (node : p ∈ nodes)
    (split : kids p = pre ++ post) {first : Nat} (previous : ∀ c ∈ pre.getLast?, heap.end_ c < first) :
    ∀ c ∈ pre, heap.end_ c < first := by
  rcases eq_nil_or_concat' pre with rfl | ⟨pre', r, rfl⟩
  · exact fun c mem => absurd mem not_mem_nil
  · have last := previous r getLast?_concat
    have sorted := shape.sorted p node
    rw [split] at sorted
    refine forall_mem_append.mpr ⟨fun c earlier => ?_, forall_mem_singleton.mpr last⟩
    have ordered := (pairwise_append.mp (pairwise_append.mp sorted).1).2.2 c earlier r mem_cons_self
    have := (shape.under p node r (by rw [split]; simp)).nonempty
    omega

omit shape in
theorem requestResource_outside (outside : ¬ Fits heap p new) (fuel : Nat) :
    requestResourceNolock fuel heap p new = some (some p, heap) := by
  unfold requestResourceNolock
  split_ifs
  · rfl
  · rfl
  · rfl
  · exact absurd ⟨by omega, by omega, by omega⟩ outside

theorem requestResource_spec (node : p ∈ nodes) (new : Nat) :
    (¬ Fits heap p new ∧ Gives (requestResourceNolock · heap p new) (some p, heap)) ∨
    (∃ pre post, Gap heap nodes kids p pre post new ∧
      Gives (requestResourceNolock · heap p new) (none, attached heap p pre post new)) ∨
    ∃ pre c post, Conflict heap nodes kids p pre c post new ∧ Gives (requestResourceNolock · heap p new)
      (some c, heap) := by
  by_cases fits : Fits heap p new
  · have enter : (requestResourceNolock · heap p new) = fun fuel =>
        requestLoop heap p new fuel (slotAfter p []) := by
      funext fuel
      obtain ⟨nonempty, low, high⟩ := fits
      rw [requestResourceNolock, if_neg (by omega), if_neg (by omega), if_neg (by omega)]
      rfl
    rw [enter]
    refine .inr ?_
    rcases @requestLoop_spec _ [] (kids p) p new (shape.chain p node) (by simp) with
      ⟨pre, post, split, before, next, done⟩ | ⟨pre, c, post, split, before, low, high, done⟩
    · exact .inl ⟨pre, post, ⟨node, fits, split, before, shape.after_of_head node split next⟩, done⟩
    · exact .inr ⟨pre, c, post, ⟨node, fits, split, before, low, high⟩, done⟩
  · exact .inl ⟨fits, .of_eq (requestResource_outside fits)⟩

/-! ### Inserting -/

theorem Shape.ne_of_kid (node : p ∈ nodes) (kid : c ∈ kids p) : c ≠ p := by
  rintro rfl
  exact lt_irrefl _ (shape.deeper c node c kid)

/-- The first loop goes down to a gap, to a failure, or to a conflict that does not contain the new range. -/
theorem insertDescend_spec (new : Nat) (node : p ∈ nodes) :
    ∃ result, (∀ more : Nat → Nat, (∀ turns, turns ≤ more turns) →
        Gives (fun turns => insertDescend (more turns) heap new turns p) result) ∧
      ((∃ q pre post, Gap heap nodes kids q pre post new ∧
        result = .done none (attached heap q pre post new)) ∨
        (∃ c, result = .done (some c) heap) ∨
        ∃ q pre c post, Conflict heap nodes kids q pre c post new ∧ result = .broke q c) := by
  induction rest : bound - rank p using Nat.strong_induction_on generalizing p with
  | _ measure ih =>
    rcases requestResource_spec shape node new with
      ⟨-, done⟩ | ⟨pre, post, gap, done⟩ | ⟨pre, c, post, conflict, done⟩
    · refine ⟨.done (some p) heap, fun more later => ?_, .inr (.inl ⟨p, rfl⟩)⟩
      refine done.turn later .const fun turns found => ?_
      simp [insertDescend, found]
    · refine ⟨.done none _, fun more later => ?_, .inl ⟨p, pre, post, gap, rfl⟩⟩
      refine done.turn later .const fun turns found => ?_
      simp [insertDescend, found]
    · have other := shape.ne_of_kid node conflict.kid
      by_cases inside : (heap.start c > heap.start new ∨ heap.end_ c < heap.end_ new) ∨
          (heap.start c = heap.start new ∧ heap.end_ c = heap.end_ new)
      · refine ⟨.broke p c, fun more later => ?_, .inr (.inr ⟨p, pre, c, post, conflict, rfl⟩)⟩
        refine done.turn later .const fun turns found => ?_
        rcases inside with partly | equal
        · simp [insertDescend, found, other, partly]
        · simp [insertDescend, found, other, equal]
      · obtain ⟨whole, differs⟩ := not_or.mp inside
        have inTree := (shape.mem p node c conflict.kid).1
        have deeper := shape.deeper p node c conflict.kid
        have bounded := shape.bounded c inTree
        obtain ⟨result, below, cases⟩ := ih (bound - rank c) (by omega) inTree rfl
        refine ⟨result, fun more later => ?_, cases⟩
        have rest := below (fun n => more (n + 1)) fun n => le_of_succ_le (later (n + 1))
        refine done.turn later rest fun turns found => ?_
        rw [insertDescend, found]
        simp [other, whole, differs]

omit shape

/-- The second loop finds a partial overlap, or the run of siblings inside the new range. -/
theorem overlapLoop_spec (new : Nat) (segment : Segment heap (heap.sibling c) post none) :
    (∃ next, Gives (overlapLoop heap new · c) (.error next)) ∨
      ∃ run last rest, c :: post = run ++ [last] ++ rest ∧
        (∀ d ∈ run ++ [last], heap.start new ≤ heap.start d ∧ heap.end_ d ≤ heap.end_ new) ∧
        (∀ d ∈ rest.head?, heap.end_ new < heap.start d) ∧ Gives (overlapLoop heap new · c) (.ok last) := by
  induction post generalizing c with
  | nil =>
    by_cases partly : heap.start c < heap.start new ∨ heap.end_ c > heap.end_ new
    · exact .inl ⟨c, Gives.const.round fun fuel => by rw [overlapLoop, if_pos partly]⟩
    · refine .inr ⟨[], c, [], rfl, fun d mem => ?_, nofun, Gives.const.round fun fuel => ?_⟩
      · rw [mem_singleton.mp mem]
        omega
      · rw [overlapLoop, if_neg partly, segment]
  | cons d post ih =>
    by_cases partly : heap.start c < heap.start new ∨ heap.end_ c > heap.end_ new
    · exact .inl ⟨c, Gives.const.round fun fuel => by rw [overlapLoop, if_pos partly]⟩
    · by_cases late : heap.start d > heap.end_ new
      · refine .inr ⟨[], c, d :: post, rfl, fun e mem => ?_, fun e head => ?_,
          Gives.const.round fun fuel => ?_⟩
        · rw [mem_singleton.mp mem]
          omega
        · rwa [← some.inj head]
        · simp only [overlapLoop, if_neg partly, segment.1, if_pos late]
      · have onward (fuel : Nat) : overlapLoop heap new (fuel + 1) c = overlapLoop heap new fuel d := by
          simp only [overlapLoop, if_neg partly, segment.1, if_neg late]
        rcases ih segment.2 with ⟨next, done⟩ | ⟨run, last, rest, split, inside, next, done⟩
        · exact .inl ⟨next, done.round onward⟩
        · exact .inr ⟨c :: run, last, rest, by rw [split]; rfl, forall_mem_cons.mpr ⟨by omega, inside⟩, next,
            done.round onward⟩

theorem adoptLoop_spec (segment : Segment heap ptr run none) :
    Gives (adoptLoop new · ptr heap)
      { heap with parent := fun c => if c ∈ run then some new else heap.parent c } := by
  induction run generalizing ptr heap with
  | nil =>
    obtain rfl : ptr = none := segment
    exact Gives.const.round fun fuel => by simp [adoptLoop]
  | cons c run ih =>
    have kept : Segment { heap with parent := update heap.parent c (some new) } (heap.sibling c) run none :=
      segment.2.frame fun _ _ => rfl
    have parents : (fun d => if d ∈ run then some new else update heap.parent c (some new) d) =
        fun d => if d ∈ c :: run then some new else heap.parent d := by
      funext d
      by_cases own : d = c
      · simp [own]
      · simp [own]
    rw [← parents]
    exact (ih kept).round fun fuel => by rw [segment.1, adoptLoop]

theorem Segment.first (segment : Segment heap ptr (l ++ [last]) mid) : ∃ d ∈ l ++ [last], ptr = some d := by
  cases l with
  | nil => exact ⟨last, by simp, segment.1⟩
  | cons d l => exact ⟨d, by simp, segment.1⟩

theorem findPrevious_spec {target : Nat}
    (segment : Segment heap (some c) (l ++ [last]) (some target)) (absent : target ∉ l ++ [last]) :
    Gives (findPrevious heap target · c) last := by
  induction l generalizing c with
  | nil =>
    obtain ⟨same, sibling⟩ := segment
    obtain rfl := some.inj same
    exact Gives.const.round
      fun fuel => by rw [findPrevious, if_pos (show heap.sibling c = some target from sibling)]
  | cons d l ih =>
    obtain ⟨same, rest⟩ := segment
    obtain rfl := some.inj same
    obtain ⟨next, mem, sibling⟩ := rest.first
    have other : heap.sibling c ≠ some target := by
      rw [sibling]
      exact fun equal => absent (mem_cons_of_mem _ (some.inj equal ▸ mem))
    refine (ih (sibling ▸ rest) fun mem => absent (mem_cons_of_mem _ mem)).round fun fuel => ?_
    rw [findPrevious, if_neg other, sibling]
    rfl

/-- The last part of `__insert_resource` writes the pointer that led to the first sibling of the run. -/
theorem relink_gives (segment : Segment heap (heap.child p) pre (some c)) (absent : c ∉ pre) :
    Gives (fun fuel => if heap.child p = some c then some (none, heap.write (.child p) (some new))
      else (heap.child p).bind fun next => (findPrevious heap c fuel next).bind fun next =>
        some ((none : Option Nat), heap.write (.sibling next) (some new)))
      (none, heap.write (slotAfter p pre) (some new)) := by
  rcases eq_nil_or_concat' pre with rfl | ⟨pre', r, rfl⟩
  · simp only [show heap.child p = some c from segment]
    exact .const
  · obtain ⟨d, mem, start⟩ := segment.first
    have notFirst : heap.child p ≠ some c := by
      rw [start]
      exact fun same => absent (some.inj same ▸ mem)
    rw [start] at segment
    refine (findPrevious_spec segment absent).trans .const fun fuel found => ?_
    rw [if_neg notFirst, start, bind_some, found, bind_some, slotAfter_concat]

theorem insertResource_spec (shape : Shape heap top nodes kids rank bound) (node : p ∈ nodes)
    (fresh : new ∉ nodes) :
    ∃ result, Gives (insertResourceNolock · heap p new) result ∧
      ((∃ q pre post, Gap heap nodes kids q pre post new ∧ result = (none, attached heap q pre post new)) ∨
        (∃ c, result = (some c, heap)) ∨ ∃ heap', result = (none, heap') ∧ Sound heap' top) := by
  obtain ⟨descent, descends, cases⟩ := insertDescend_spec shape new node
  have reached := descends id le_refl
  rcases cases with ⟨q, pre, post, gap, rfl⟩ | ⟨c, rfl⟩ | ⟨q, pre, c, post, conflict, rfl⟩
  · exact ⟨(none, attached heap q pre post new), reached.bind .const, .inl ⟨q, pre, post, gap, rfl⟩⟩
  · exact ⟨(some c, heap), reached.bind .const, .inr (.inl ⟨c, rfl⟩)⟩
  · obtain ⟨inTree, fits, split, before, -, -⟩ := conflict
    have segment := shape.chain q inTree
    have distinct := shape.nodup inTree
    have newKids : new ∉ kids q := fun mem => fresh (shape.mem q inTree new mem).1
    rw [split] at segment distinct newKids
    obtain ⟨mid, inPre, rfl, inPost⟩ := segment_append.mp segment
    rcases overlapLoop_spec new inPost with ⟨next, done⟩ | ⟨run, last, rest, runs, inside, next, done⟩
    · exact ⟨(some next, heap), reached.bind (done.bind .const), .inr (.inl ⟨next, rfl⟩)⟩
    · have runHead : (run ++ [last]).head? = some c := by
        have heads := congrArg List.head? runs
        rw [head?_cons] at heads
        rw [heads]
        cases run <;> rfl
      rw [runs] at split distinct newKids
      have sound : Sound (adopted heap q pre (run ++ [last]) last new) top :=
        shape.adopt inTree fresh rfl split fits before
          (shape.after_of_head inTree (split.trans (append_assoc _ _ _).symm) next) inside
      obtain ⟨distinctPre, -, apart⟩ := nodup_append.mp distinct
      have firstRun : c ∈ run ++ [last] ++ rest := runs ▸ mem_cons_self
      have lastRun : last ∈ run ++ [last] ++ rest := by simp
      have other : q ≠ new := fun same => fresh (same ▸ inTree)
      have moved :=
        runMoved_before (run ++ [last]) inPre other (fun early => apart last early last lastRun rfl)
        fun early => newKids (mem_append_left _ early)
      have chainRun : Segment heap (some c) (run ++ [last]) rest.head? := by
        have whole : Segment heap (some c) (run ++ [last] ++ rest) none := runs ▸ ⟨rfl, inPost⟩
        obtain ⟨mid, first, second⟩ := segment_append.mp whole
        rwa [← second.head]
      have adopts : Gives (adoptLoop new · (some c) (runCut heap q (run ++ [last]) last new))
          (runMoved heap q (run ++ [last]) last new) := by
        have kept := @runMoved_chain _ _ _ q _ _ _ rfl (runHead ▸ chainRun)
          (nodup_append.mp (nodup_append.mp distinct).2.1).1
          fun mem => newKids (mem_append_right _ (mem_append_left _ mem))
        have child : (runMoved heap q (run ++ [last]) last new).child new = some c :=
          (update_self _ _ _).trans runHead
        exact adoptLoop_spec ((child ▸ kept).frame fun _ _ => rfl)
      refine ⟨(none, adopted heap q pre (run ++ [last]) last new), ?_, .inr (.inr ⟨_, rfl, sound⟩)⟩
      rw [runCut, runHead] at adopts
      exact reached.bind
        (done.bind (adopts.bind (relink_gives moved fun early => apart c early c firstRun rfl)))

/-! ### Releasing and adjusting -/

theorem releaseLoop_spec {mid : List Nat}
    (segment : Segment heap (heap.child p) (pre ++ (mid ++ old :: post)) none)
    (absent : old ∉ mid) :
    Gives (releaseLoop heap old · (slotAfter p pre))
      (0, { heap.write (slotAfter p (pre ++ mid)) (heap.sibling old) with
      parent := update (heap.write (slotAfter p (pre ++ mid)) (heap.sibling old)).parent old none }) := by
  induction mid generalizing pre with
  | nil =>
    exact Gives.const.round fun fuel => by simp [releaseLoop, segment.read_cons]
  | cons c mid ih =>
    have other : c ≠ old := fun same => absent (same ▸ mem_cons_self)
    have rest := @ih (pre ++ [c]) (by simpa using segment) fun mem => absent (mem_cons_of_mem _ mem)
    rw [slotAfter_concat, append_assoc] at rest
    refine rest.round fun fuel => ?_
    rw [releaseLoop, segment.read_cons]
    exact if_neg other

theorem childrenInside_spec (start end_ : Nat) (segment : Segment heap ptr l none) :
    Gives (childrenInside heap start end_ · ptr)
      (decide (∀ c ∈ l, start ≤ heap.start c ∧ heap.end_ c ≤ end_)) := by
  induction l generalizing ptr with
  | nil =>
    obtain rfl : ptr = none := segment
    exact Gives.const.round fun fuel => by simp [childrenInside]
  | cons c l ih =>
    obtain ⟨rfl, rest⟩ := segment
    by_cases outside : heap.start c < start ∨ heap.end_ c > end_
    · refine Gives.const.round fun fuel => ?_
      rw [childrenInside, if_pos outside]
      refine congrArg some (decide_eq_false fun inside => ?_).symm
      have := inside c mem_cons_self
      omega
    · have same : (∀ d ∈ c :: l, start ≤ heap.start d ∧ heap.end_ d ≤ end_) ↔
          ∀ d ∈ l, start ≤ heap.start d ∧ heap.end_ d ≤ end_ := by
        rw [forall_mem_cons, and_iff_right]
        omega
      simp only [same]
      exact (ih rest).round fun fuel => by rw [childrenInside, if_neg outside]

theorem previousOverlaps_spec (start : Nat)
    (segment : Segment heap (heap.child p) (pre ++ res :: post) none) (absent : res ∉ pre) :
    Gives (previousOverlaps · heap p res start) (decide (∃ q ∈ pre.getLast?, start ≤ heap.end_ q)) := by
  obtain ⟨mid, first, second⟩ := segment_append.mp segment
  obtain rfl : mid = some res := second.1
  rcases eq_nil_or_concat' pre with rfl | ⟨pre', r, rfl⟩
  · refine .of_eq fun fuel => ?_
    rw [previousOverlaps, first]
    simp
  · obtain ⟨d, mem, child⟩ := first.first
    have other : d ≠ res := fun same => absent (same ▸ mem)
    rw [child] at first
    refine (findPrevious_spec first absent).trans .const fun fuel found => ?_
    simp [previousOverlaps, child, other, found]

theorem regionEnd_eq (wanted : 1 ≤ size) (fits : start + size - 1 < 2 ^ width) :
    regionEnd width start size = start + size - 1 := by
  rw [regionEnd, show start + size + (2 ^ width - 1) = start + size - 1 + 2 ^ width by omega, add_mod_right,
    mod_eq_of_lt fits]

theorem adjustResource_spec (shape : Shape heap top nodes kids rank bound) (node : p ∈ nodes)
    (kid : res ∈ kids p) (wanted : 1 ≤ size) (fits : start + size - 1 < 2 ^ width) :
    ∃ result heap', Gives (adjustResource · width heap res start size) (result, heap') ∧ Sound heap' top ∧
      (result ≠ 0 → heap' = heap) := by
  have inTree := (shape.mem p node res kid).1
  have parent := (shape.under p node res kid).parent
  have ends := regionEnd_eq wanted fits
  have sound : Sound heap top := ⟨nodes, kids, rank, bound, shape⟩
  obtain ⟨pre, post, split⟩ := append_of_mem kid
  have segment := shape.chain p node
  have distinct := shape.nodup node
  rw [split] at segment distinct
  obtain ⟨_, _, rfl, chainPost⟩ := segment_append.mp segment
  have absent : res ∉ pre := fun early => (nodup_append.mp distinct).2.2 res early res mem_cons_self rfl
  have children := childrenInside_spec start (regionEnd width start size) (shape.chain res inTree)
  have previous := previousOverlaps_spec start segment absent
  by_cases outside : start < heap.start p ∨ regionEnd width start size > heap.end_ p
  · refine ⟨-ebusy, heap, .of_eq fun fuel => ?_, sound, fun _ => rfl⟩
    rw [adjustResource, parent]
    exact if_pos outside
  have unfolded : Gives (adjustResource · width heap res start size)
      (if ¬ ∀ c ∈ kids res, start ≤ heap.start c ∧
        heap.end_ c ≤ regionEnd width start size then (-ebusy, heap)
      else if ∃ q ∈ post.head?, heap.start q ≤ regionEnd width start size then (-ebusy, heap)
      else if ∃ q ∈ pre.getLast?, start ≤ heap.end_ q then (-ebusy, heap)
      else (0, { heap with
        start := update heap.start res start, end_ :=
          update heap.end_ res (regionEnd width start size) })) := by
    refine children.both previous fun fuel inside last => ?_
    rw [adjustResource, parent]
    simp only [bind_eq_bind, bind_some, if_neg outside, inside, last, chainPost.head,
      decide_eq_false_iff_not, decide_eq_true_eq]
    split_ifs <;> rfl
  split_ifs at unfolded with inside next last
  pick_goal 3
  · refine ⟨0, _, unfolded, ?_, fun fails => absurd rfl fails⟩
    refine shape.resize node split (by omega) (by omega) (by omega) ?_ ?_ inside
    · exact shape.before_of_last node split fun c end_ => Nat.lt_of_not_le fun low => last ⟨c, end_, low⟩
    · exact shape.after_of_head node (split.trans (append_cons pre res post)) fun c head =>
        Nat.lt_of_not_le fun low => next ⟨c, head, low⟩
  all_goals exact ⟨-ebusy, heap, unfolded, sound, fun _ => rfl⟩

/-! ### Regions -/

/-- The range lies in a gap between the children of the node, or in a chain of resources that are not busy,
  down to one that has such a gap. -/
inductive GapChain (heap : Heap) (start end_ : Nat) : Nat → Prop
  | gap {n : Nat} (low : heap.start n ≤ start) (high : end_ ≤ heap.end_ n)
      (free : ∀ c, ChildOf heap n c → heap.end_ c < start ∨ end_ < heap.start c) : GapChain heap start end_ n
  | down {n c : Nat} (low : heap.start n ≤ start) (high : end_ ≤ heap.end_ n) (child : ChildOf heap n c)
      (idle : heap.busy c = false) (below : GapChain heap start end_ c) : GapChain heap start end_ n

theorem GapChain.inside (chain : GapChain heap start end_ n) : heap.start n ≤ start ∧ end_ ≤ heap.end_ n := by
  cases chain with
  | gap low high _ | down low high _ _ _ => exact ⟨low, high⟩

include shape

theorem GapChain.congr (shape' : Shape heap' top nodes kids rank bound)
    (same : ∀ n ∈ nodes, heap'.start n = heap.start n ∧ heap'.end_ n = heap.end_ n ∧
      heap'.busy n = heap.busy n)
    (chain : GapChain heap start end_ n) (node : n ∈ nodes) : GapChain heap' start end_ n := by
  induction chain with
  | @gap n _ _ free =>
    obtain ⟨startEq, endEq, -⟩ := same n node
    refine .gap (by omega) (by omega) fun c child => ?_
    have kid := (shape'.childOf_iff node).mp child
    obtain ⟨startKid, endKid, -⟩ := same c (shape.mem n node c kid).1
    have := free c ((shape.childOf_iff node).mpr kid)
    omega
  | @down n c _ _ child idle _ ih =>
    obtain ⟨startEq, endEq, -⟩ := same n node
    have kid := (shape.childOf_iff node).mp child
    have inTree := (shape.mem n node c kid).1
    exact .down (by omega) (by omega) ((shape'.childOf_iff node).mpr kid) ((same c inTree).2.2.trans idle)
      (ih inTree)

/-- Where a child meets the range, only this child can lead to a gap. -/
theorem GapChain.of_conflict (conflict : Conflict heap nodes kids p pre c post new) :
    GapChain heap (heap.start new) (heap.end_ new) p ↔
      heap.busy c = false ∧ GapChain heap (heap.start new) (heap.end_ new) c := by
  have low := conflict.low
  have high := conflict.high
  constructor
  · intro chain
    cases chain with
    | gap _ _ free =>
      have := free c ((shape.childOf_iff conflict.node).mpr conflict.kid)
      omega
    | @down _ d _ _ child idle below =>
      have kid := (shape.childOf_iff conflict.node).mp child
      have inside := below.inside
      have disjoint : (kids p).Pairwise fun a b => heap.end_ a < heap.start b ∨ heap.end_ b < heap.start a :=
        (shape.sorted p conflict.node).imp Or.inl
      have : Std.Symm fun a b => heap.end_ a < heap.start b ∨ heap.end_ b < heap.start a :=
        ⟨fun _ _ => Or.symm⟩
      have same : d = c := by
        by_contra differ
        have := disjoint.forall kid conflict.kid differ
        omega
      exact ⟨same ▸ idle, same ▸ below⟩
  · rintro ⟨idle, below⟩
    exact .down conflict.fits.2.1 conflict.fits.2.2 ((shape.childOf_iff conflict.node).mpr conflict.kid)
      idle below

omit shape

theorem regionLoop_spec (before : Heap) (shape : Shape heap top nodes kids rank bound)
    (nonempty : heap.start res ≤ heap.end_ res) (node : p ∈ nodes) :
    ∃ result, (∀ more : Nat → Nat, (∀ turns, turns ≤ more turns) →
        Gives (fun turns => regionLoop (more turns) before heap res turns p) result) ∧
      ((GapChain heap (heap.start res) (heap.end_ res) p ∧
          ∃ q pre post, Gap heap nodes kids q pre post res ∧
            result = (some res, attached heap q pre post res)) ∨
        (¬ GapChain heap (heap.start res) (heap.end_ res) p ∧ result = (none, before))) := by
  induction rest : bound - rank p using Nat.strong_induction_on generalizing p with
  | _ measure ih =>
    rcases requestResource_spec shape node res with
      ⟨outside, done⟩ | ⟨pre, post, gap, done⟩ | ⟨pre, c, post, conflict, done⟩
    · refine ⟨(none, before), fun more later => ?_, .inr ⟨fun chain => ?_, rfl⟩⟩
      · refine done.turn later .const fun turns found => ?_
        simp [regionLoop, found]
      · exact outside ⟨nonempty, chain.inside⟩
    · refine ⟨(some res, attached heap p pre post res), fun more later => ?_,
        .inl ⟨.gap gap.fits.2.1 gap.fits.2.2 fun c child => ?_, p, pre, post, gap, rfl⟩⟩
      · refine done.turn later .const fun turns found => ?_
        simp [regionLoop, found]
      · have kid := (shape.childOf_iff node).mp child
        rw [gap.split] at kid
        exact (mem_append.mp kid).imp (gap.before c) (gap.after c)
    · have other := shape.ne_of_kid node conflict.kid
      cases busy : heap.busy c with
      | true =>
        refine ⟨(none, before), fun more later => ?_, .inr ⟨fun chain => ?_, rfl⟩⟩
        · refine done.turn later .const fun turns found => ?_
          simp [regionLoop, found, busy]
        · have idle := ((GapChain.of_conflict shape conflict).mp chain).1
          rw [busy] at idle
          exact absurd idle nofun
      | false =>
        have inTree := (shape.mem p node c conflict.kid).1
        have deeper := shape.deeper p node c conflict.kid
        have bounded := shape.bounded c inTree
        obtain ⟨result, below, cases⟩ := ih (bound - rank c) (by omega) inTree rfl
        refine ⟨result, fun more later => ?_, ?_⟩
        · have rest := below (fun n => more (n + 1)) fun n => le_of_succ_le (later (n + 1))
          refine done.turn later rest fun turns found => ?_
          rw [regionLoop, found]
          simp [other, busy]
        · rw [GapChain.of_conflict shape conflict, busy]
          simpa using cases

/-- The loop of `__release_region` unlinks a node of the tree, or does nothing. -/
theorem releaseRegionLoop_spec (start end_ : Nat) (shape : Shape heap top nodes kids rank bound)
    (node : p ∈ nodes)
    (split : kids p = pre ++ post) :
    ∃ result, Gives (releaseRegionLoop heap start end_ · (slotAfter p pre)) result ∧
      (result = (false, heap) ∨ ∃ q pre c post, q ∈ nodes ∧ kids q = pre ++ c :: post ∧
        result = (true, heap.write (slotAfter q pre) (heap.sibling c))) := by
  induction rest : bound - rank p using Nat.strong_induction_on generalizing p pre post with
  | _ measure ih =>
    induction post generalizing pre with
    | nil =>
      have segment := shape.chain p node
      rw [split, append_nil] at segment
      exact ⟨(false, heap), Gives.const.round fun fuel => by rw [releaseRegionLoop, segment.read], .inl rfl⟩
    | cons c post siblings =>
      have segment := shape.chain p node
      rw [split] at segment
      have read := segment.read_cons
      by_cases encloses : heap.start c ≤ start ∧ heap.end_ c ≥ end_
      · cases busy : heap.busy c with
        | false =>
          have kid : c ∈ kids p := by rw [split]; simp
          have inTree := (shape.mem p node c kid).1
          have deeper := shape.deeper p node c kid
          have bounded := shape.bounded c inTree
          obtain ⟨result, below, cases⟩ := @ih _ (by omega) [] (kids c) c inTree rfl rfl
          refine ⟨result, below.round fun fuel => ?_, cases⟩
          rw [releaseRegionLoop, read]
          simp [encloses, busy]
        | true =>
          by_cases differs : heap.start c ≠ start ∨ heap.end_ c ≠ end_
          · refine ⟨(false, heap), Gives.const.round fun fuel => ?_, .inl rfl⟩
            rw [releaseRegionLoop, read]
            simp [encloses, busy, differs]
          · refine ⟨(true, heap.write (slotAfter p pre) (heap.sibling c)), Gives.const.round fun fuel => ?_,
              .inr ⟨p, pre, c, post, node, split, rfl⟩⟩
            rw [releaseRegionLoop, read]
            simp [encloses, busy, differs]
      · obtain ⟨result, later, cases⟩ := @siblings (pre ++ [c]) (by rw [split]; simp)
        refine ⟨result, later.round fun fuel => ?_, cases⟩
        rw [releaseRegionLoop, read, slotAfter_concat]
        exact if_neg encloses

/-! ### Runs of calls -/

theorem InTree.parent (inTree : InTree heap root n) (below : n ≠ root) :
    ∃ p, InTree heap root p ∧ ChildOf heap p n := by
  cases inTree with
  | top => exact absurd rfl below
  | child above child => exact ⟨_, above, child⟩

/-- What a caller may pass: nodes of the tree where the call needs one, and a descriptor that is not in the
  tree, with its own children in order if it has any, where the call links a new one. -/
def Allowed (width root : Nat) (heap : Heap) : Action → Prop
  | .init res _ _ _ => ¬ InTree heap root res
  | .requestResource p new =>
    InTree heap root p ∧ Sound heap new ∧ ∀ n, InTree heap new n → ¬ InTree heap root n
  | .insertResource p new =>
    InTree heap root p ∧ Sound heap new ∧ ∀ n, InTree heap new n → ¬ InTree heap root n
  | .releaseResource old => InTree heap root old ∧ old ≠ root
  | .adjustResource res start size =>
    InTree heap root res ∧ res ≠ root ∧ 1 ≤ size ∧ start + size - 1 < 2 ^ width
  | .requestRegion p res start n _ =>
    InTree heap root p ∧ ¬ InTree heap root res ∧ 1 ≤ n ∧ start + n - 1 < 2 ^ width
  | .releaseRegion p start n => InTree heap root p ∧ 1 ≤ n ∧ start + n - 1 < 2 ^ width

/-- The call returns, whether it succeeds, and the heap that it leaves. -/
def Returns (width : Nat) (heap : Heap) (action : Action) (succeeds : Bool) (heap' : Heap) : Prop :=
  ∃ least, ∀ fuel ≥ least, call fuel width heap action = some (succeeds, heap')

theorem Gap.sound (gap : Gap heap nodes kids p pre post new) (shape : Shape heap root nodes kids rank bound)
    (detached : Sound heap new) (apart : ∀ n ∈ nodes, ¬ InTree heap new n) :
    Sound (attached heap p pre post new) root := by
  obtain ⟨nodes', kids', rank', bound', other⟩ := detached
  obtain ⟨_, _, _, shape', -⟩ :=
    shape.attach other.canonical apart gap.node gap.split gap.fits gap.before gap.after
  exact ⟨_, _, _, _, shape'⟩

theorem init_same {res start end_ flags : Nat} (old : n ≠ res) :
    (heap.init res start end_ flags).start n = heap.start n ∧
      (heap.init res start end_ flags).end_ n = heap.end_ n ∧
      (heap.init res start end_ flags).parent n = heap.parent n ∧
      (heap.init res start end_ flags).child n = heap.child n ∧
      (heap.init res start end_ flags).sibling n = heap.sibling n :=
  ⟨update_of_ne old _ _, update_of_ne old _ _, update_of_ne old _ _,
    update_of_ne old _ _, update_of_ne old _ _⟩

theorem Shape.init {flags : Nat} (shape : Shape heap root nodes kids rank bound) (fresh : res ∉ nodes) :
    Shape (heap.init res start end_ flags) root nodes kids rank bound :=
  shape.frame fun _ node => init_same fun same => fresh (same ▸ node)

theorem Gap.shape_init {flags : Nat} (gap : Gap (heap.init res start end_ flags) nodes kids p pre post res)
    (shape : Shape heap root nodes kids rank bound) (fresh : res ∉ nodes) :
    ∃ all rank bound, Shape (attached (heap.init res start end_ flags) p pre post res) root (nodes ∪ {res})
      all rank bound ∧
      all p = pre ++ res :: post ∧ (∀ n ∈ ({res} : Set Nat), all n = []) ∧ ∀ n ∈ nodes, n ≠ p →
        all n = kids n :=
  (shape.init fresh).attach (Shape.single (update_self _ _ _)) (fun _ node same => fresh (same ▸ node))
    gap.node gap.split
    gap.fits gap.before gap.after

theorem requestRegion_returns (flags : Nat) (shape : Shape heap root nodes kids rank bound)
    (node : p ∈ nodes) (fresh : res ∉ nodes) (wanted : 1 ≤ size)
    (fits : start + size - 1 < 2 ^ width) :
    ∃ succeeds heap', Returns width heap (.requestRegion p res start size flags) succeeds heap' ∧
      Sound heap' root ∧
      (succeeds = false → heap' = heap) ∧ (succeeds = true ↔ GapChain heap start (start + size - 1) p) := by
  let init := heap.init res start (start + size - 1) (ioresourceBusy ||| flags)
  have shape' : Shape init root nodes kids rank bound := shape.init fresh
  have startRes : init.start res = start := update_self _ _ _
  have endRes : init.end_ res = start + size - 1 := update_self _ _ _
  have busyOld (n : Nat) (node : n ∈ nodes) : init.busy n = heap.busy n := by
    have old : n ≠ res := fun same => fresh (same ▸ node)
    rw [Heap.busy, show init.flags n = heap.flags n from update_of_ne old _ _, Heap.busy]
  have same (n : Nat) (node : n ∈ nodes) :=
    @init_same heap n res start (start + size - 1) (ioresourceBusy ||| flags)
    fun same => fresh (same ▸ node)
  have chains : GapChain init start (start + size - 1) p ↔ GapChain heap start (start + size - 1) p := by
    constructor
    · exact fun chain => chain.congr shape' shape
        (fun n node => ⟨(same n node).1.symm, (same n node).2.1.symm, (busyOld n node).symm⟩) node
    · exact fun chain => chain.congr shape shape'
        (fun n node => ⟨(same n node).1, (same n node).2.1, busyOld n node⟩) node
  obtain ⟨result, loops, cases⟩ := regionLoop_spec heap shape' (by rw [startRes]; omega) node
  rw [startRes, endRes, chains] at cases
  have entered : Gives (requestRegion · width heap p res start size flags) result := by
    refine (loops id le_refl).trans .const fun fuel found => ?_
    rw [requestRegion, regionEnd_eq wanted fits]
    exact found
  rcases cases with ⟨chain, q, pre, post, gap, rfl⟩ | ⟨blocked, rfl⟩
  · obtain ⟨_, _, _, after, -⟩ := gap.shape_init shape fresh
    exact ⟨true, _, entered.bind .const, ⟨_, _, _, _, after⟩, nofun, fun _ => chain, fun _ => rfl⟩
  · exact ⟨false, heap, entered.bind .const, ⟨_, _, _, _, shape⟩, fun _ => rfl, nofun, fun chain =>
      absurd chain blocked⟩

/-- Every call returns, leaves a tree in order, and leaves everything as it was if it fails. -/
theorem call_returns (sound : Sound heap root) (allowed : Allowed width root heap action) :
    ∃ succeeds heap', Returns width heap action succeeds heap' ∧ Sound heap' root ∧
      (succeeds = false → heap' = heap) := by
  obtain ⟨_, kids, rank, bound, whole⟩ := sound
  have shape := whole.canonical
  have sound : Sound heap root := ⟨_, _, _, _, shape⟩
  cases action with
  | init res start end_ flags =>
    exact ⟨true, _, ⟨0, fun _ _ => rfl⟩, ⟨_, _, _, _, shape.init allowed⟩, nofun⟩
  | requestResource p new =>
    obtain ⟨node, detached, apart⟩ := allowed
    rcases requestResource_spec shape node new with
      ⟨-, done⟩ | ⟨pre, post, gap, done⟩ | ⟨pre, c, post, -, done⟩
    · exact ⟨false, heap, done.bind .const, sound, fun _ => rfl⟩
    · exact ⟨true, attached heap p pre post new, done.bind .const,
        gap.sound shape detached fun n node inNew => apart n inNew node, nofun⟩
    · exact ⟨false, heap, done.bind .const, sound, fun _ => rfl⟩
  | insertResource p new =>
    obtain ⟨node, detached, apart⟩ := allowed
    obtain ⟨result, done, cases⟩ := insertResource_spec shape node (apart new .top)
    rcases cases with ⟨q, pre, post, gap, rfl⟩ | ⟨c, rfl⟩ | ⟨heap', rfl, adopted⟩
    · exact ⟨true, attached heap q pre post new, done.bind .const,
        gap.sound shape detached fun n node inNew => apart n inNew node, nofun⟩
    · exact ⟨false, heap, done.bind .const, sound, fun _ => rfl⟩
    · exact ⟨true, heap', done.bind .const, adopted, nofun⟩
  | releaseResource old =>
    obtain ⟨p, node, child⟩ := allowed.1.parent allowed.2
    have kid := (shape.childOf_iff node).mp child
    obtain ⟨pre, post, split⟩ := append_of_mem kid
    have segment := shape.chain p node
    have distinct := shape.nodup node
    rw [split] at segment distinct
    have absent : old ∉ pre := fun early => (nodup_append.mp distinct).2.2 old early old mem_cons_self rfl
    refine ⟨true, { heap.write (slotAfter p pre) (heap.sibling old) with
      parent := update (heap.write (slotAfter p pre) (heap.sibling old)).parent old none },
      (@releaseLoop_spec _ [] post p old pre segment absent).trans .const fun fuel unlinked => ?_,
      shape.unlink node split (write_start _) (write_end _) rfl rfl ?_, nofun⟩
    · rw [call, releaseResourceNolock, (shape.under p node old kid).parent]
      simp only [bind_eq_bind, bind_some]
      rw [← slotAfter_nil, unlinked]
      rfl
    · exact fun c other => (update_of_ne other _ _).trans (congrFun (write_parent _) c)
  | adjustResource res start size =>
    obtain ⟨inTree, below, wanted, fits⟩ := allowed
    obtain ⟨p, node, child⟩ := inTree.parent below
    obtain ⟨result, heap', done, kept, failed⟩ :=
      adjustResource_spec shape node ((shape.childOf_iff node).mp child) wanted fits
    exact ⟨decide (result = 0), heap', done.bind .const, kept, fun fails => failed (of_decide_eq_false fails)⟩
  | requestRegion p res start size flags =>
    obtain ⟨node, fresh, wanted, fits⟩ := allowed
    obtain ⟨succeeds, heap', returns, kept, failed, -⟩ :=
      requestRegion_returns flags shape node fresh wanted fits
    exact ⟨succeeds, heap', returns, kept, failed⟩
  | releaseRegion p start size =>
    obtain ⟨node, -, -⟩ := allowed
    obtain ⟨result, done, cases⟩ :=
      @releaseRegionLoop_spec _ [] (kids p) p root _ kids rank bound start (regionEnd width start size)
        shape node rfl
    rcases cases with rfl | ⟨q, pre, c, post, inTree, split, rfl⟩
    · exact ⟨false, heap, done, sound, fun _ => rfl⟩
    · exact ⟨true, _, done, shape.unlink inTree split (write_start _) (write_end _) rfl rfl
        fun c _ => congrFun (write_parent _) c, nofun⟩

/-- The children of every node are linked in the order of their disjoint ranges, and each is inside its
  parent, with the right parent pointer. -/
def TreeOrdered (heap : Heap) (root : Nat) : Prop :=
  ∀ n, InTree heap root n → ∃ l, Segment heap (heap.child n) l none ∧
    (l.Pairwise fun a b => heap.end_ a < heap.start b) ∧ ∀ c ∈ l, Under heap n c

theorem Sound.ordered (sound : Sound heap root) : TreeOrdered heap root := by
  obtain ⟨_, kids, _, _, whole⟩ := sound
  exact fun n node => ⟨kids n, whole.canonical.chain n node, whole.canonical.sorted n node,
    whole.canonical.under n node⟩

/-- A call that is allowed, and the heap that it leaves. -/
def ResourceStep (width root : Nat) (heap : Heap) (action : Action) (_ : List Unit) (heap' : Heap) : Prop :=
  Allowed width root heap action ∧ ∃ succeeds, Returns width heap action succeeds heap'

theorem Sound.step {width : Nat} {action : Action} {events : List Unit} (sound : Sound heap root)
    (taken : ResourceStep width root heap action events heap') : Sound heap' root := by
  obtain ⟨allowed, _, returns⟩ := taken
  obtain ⟨_, after, returns', kept, -⟩ := call_returns sound allowed
  exact (Prod.mk.inj (Gives.unique returns returns')).2 ▸ kept

/-- After every run of calls the tree is in order, every call returns and changes nothing if it fails, and a
  region is granted exactly where a chain of resources that are not busy leads to a gap for it. -/
theorem resource_tree {width : Nat} {first last : Heap} {actions : List Action} {events : List Unit}
    (leaf : first.child root = none) (run : Run (ResourceStep width root) first actions events last) :
    TreeOrdered last root ∧
      (∀ action, Allowed width root last action → ∃ succeeds heap', Returns width last action succeeds heap' ∧
        (succeeds = false → heap' = last)) ∧
      ∀ p res start size flags, Allowed width root last (.requestRegion p res start size flags) →
        ((∃ heap', Returns width last (.requestRegion p res start size flags) true heap') ↔
          GapChain last start (start + size - 1) p) := by
  have started : Sound first root := ⟨_, _, _, _, Shape.single leaf⟩
  have sound : Sound last root := run.invariant started Sound.step
  refine ⟨sound.ordered, fun action allowed => ?_, fun p res start size flags allowed => ?_⟩
  · obtain ⟨succeeds, heap', returns, -, failed⟩ := call_returns sound allowed
    exact ⟨succeeds, heap', returns, failed⟩
  · obtain ⟨_, kids, _, _, whole⟩ := sound
    obtain ⟨node, fresh, wanted, fits⟩ := allowed
    obtain ⟨succeeds, after, returns, -, -, granted⟩ :=
      requestRegion_returns flags whole.canonical node fresh wanted fits
    rw [← granted]
    constructor
    · rintro ⟨heap', returns'⟩
      exact (Prod.mk.inj (Gives.unique returns returns')).1
    · rintro rfl
      exact ⟨after, returns⟩

/-- A root that has the given range and no children. -/
def bareRoot (start end_ : Nat) : Heap :=
  ⟨fun _ => start, fun _ => end_, fun _ => 0, fun _ => none, fun _ => none, fun _ => none⟩

/-- The heap that a call leaves. -/
def afterCall (heap : Heap) (action : Action) : Heap := ((call 1 64 heap action).getD (false, heap)).2

theorem step_afterCall {action : Action} (allowed : Allowed 64 0 heap action)
    (returns : ∀ fuel, call (fuel + 1) 64 heap action = some (true, afterCall heap action)) :
    ResourceStep 64 0 heap action [] (afterCall heap action) := by
  refine ⟨allowed, true, 1, fun fuel enough => ?_⟩
  obtain ⟨fuel, rfl⟩ := Nat.exists_eq_add_of_le' enough
  exact returns fuel

/-- A region is requested, released and requested elsewhere. -/
theorem resource_tree_regions :
    ∃ last : Heap, last.child 0 = some 1 ∧ last.start 1 = 30 ∧ TreeOrdered last 0 := by
  have outside {heap : Heap} (leaf : heap.child 0 = none) : ¬ InTree heap 0 1 := fun inTree =>
    absurd ((Shape.single leaf).reach inTree) (by decide)
  have requested := @step_afterCall (bareRoot 0 100) (.requestRegion 0 1 10 11 0)
    ⟨.top, outside rfl, by decide, by decide⟩ fun _ => rfl
  have released :=
    @step_afterCall (afterCall (bareRoot 0 100) (.requestRegion 0 1 10 11 0)) (.releaseRegion 0 10 11)
    ⟨.top, by decide, by decide⟩ fun _ => rfl
  have again := @step_afterCall (afterCall (afterCall (bareRoot 0 100) (.requestRegion 0 1 10 11 0))
    (.releaseRegion 0 10 11)) (.requestRegion 0 1 30 11 0) ⟨.top,
      outside rfl, by decide, by decide⟩ fun _ => rfl
  exact ⟨_, rfl, rfl, (resource_tree rfl (((Run.nil.snoc requested).snoc released).snoc again)).1⟩

end

open Library List
open Function (update update_self update_of_ne)

variable {heap heap' heap'' : Heap} {nodes range range' : Set Nat} {kids kids' kids'' : Nat → List Nat}
  {rank : Nat → Nat} {free added added' pre post l : List Nat} {bound root n c a res start end_ flags : Nat}

/-! ### Fillings -/

/-- One of the resources covers the address. -/
def Covers (heap : Heap) (l : List Nat) (a : Nat) : Prop := ∃ c ∈ l, heap.start c ≤ a ∧ a ≤ heap.end_ c

theorem covers_append : Covers heap (added ++ added') a ↔ Covers heap added a ∨ Covers heap added' a := by
  simp only [Covers, mem_append, or_and_right, exists_or]

/-- The root has new children, which cover what was not covered of a range, and the tree is otherwise as
before. -/
structure Filled (heap heap' : Heap) (root : Nat) (nodes : Set Nat) (kids kids' : Nat → List Nat)
    (range : Set Nat)
    (added : List Nat) : Prop where
  shape : ∃ rank bound, Shape heap' root (nodes ∪ {n | n ∈ added}) kids' rank bound
  kept : ∀ n ∈ nodes, heap'.start n = heap.start n ∧ heap'.end_ n = heap.end_ n ∧
    heap'.flags n = heap.flags n ∧
    heap'.parent n = heap.parent n
  below : ∀ n ∈ nodes, n ≠ root → kids' n = kids n
  leaves : ∀ n ∈ added, n ∉ nodes ∧ kids' n = []
  children : ∀ c, c ∈ kids' root ↔ c ∈ kids root ∨ c ∈ added
  covers : ∀ a, Covers heap' added a ↔ a ∈ range ∧ ¬ Covers heap (kids root) a

/-- Only what is not covered of the range matters. -/
theorem Filled.of_range (filled : Filled heap heap' root nodes kids kids' range added)
    (same : ∀ a, ¬ Covers heap (kids root) a → (a ∈ range ↔ a ∈ range')) :
    Filled heap heap' root nodes kids kids' range' added :=
  { filled with covers := fun a => (filled.covers a).trans (and_congr_left (same a)) }

theorem Filled.covers_kept (filled : Filled heap heap' root nodes kids kids' range added)
    (old : ∀ c ∈ l, c ∈ nodes) :
    Covers heap' l a ↔ Covers heap l a := by
  refine exists_congr fun c => and_congr_right fun mem => ?_
  obtain ⟨start, end_, -⟩ := filled.kept c (old c mem)
  rw [start, end_]

section Composition

variable (shape : Shape heap root nodes kids rank bound)

include shape

theorem Shape.filled (covered : ∀ a ∈ range, Covers heap (kids root) a) :
    Filled heap heap root nodes kids kids range [] where
  shape := ⟨rank, bound, by simpa using shape⟩
  kept _ _ := ⟨rfl, rfl, rfl, rfl⟩
  below _ _ _ := rfl
  leaves := nofun
  children _ := by simp
  covers a := by simpa [Covers] using covered a

variable (filled : Filled heap heap' root nodes kids kids' range added)

include filled

theorem Filled.covers_iff : Covers heap' (kids' root) a ↔ Covers heap (kids root) a ∨ a ∈ range := by
  have both : Covers heap' (kids' root) a ↔ Covers heap' (kids root ++ added) a :=
    exists_congr fun c => and_congr_left fun _ => by rw [filled.children, mem_append]
  rw [both, covers_append, filled.covers, filled.covers_kept fun c kid =>
    (shape.mem root shape.top_mem c kid).1]
  exact ⟨Or.imp_right And.left, fun either => or_iff_not_imp_left.mpr fun bare =>
    ⟨either.resolve_left bare, bare⟩⟩

/-- Two fillings one after the other. -/
theorem Filled.trans
    (second : Filled heap' heap'' root (nodes ∪ {n | n ∈ added}) kids' kids'' range' added') :
    Filled heap heap'' root nodes kids kids'' (range ∪ range') (added ++ added') where
  shape := by
    have both : {n | n ∈ added ++ added'} = {n | n ∈ added} ∪ {n | n ∈ added'} := Set.ext fun _ => mem_append
    rw [both, ← Set.union_assoc]
    exact second.shape
  kept n old := by
    obtain ⟨start, end_, flags, parent⟩ := filled.kept n old
    obtain ⟨start', end', flags', parent'⟩ := second.kept n (.inl old)
    exact ⟨start'.trans start, end'.trans end_, flags'.trans flags, parent'.trans parent⟩
  below n old other := (second.below n (.inl old) other).trans (filled.below n old other)
  leaves := by
    refine forall_mem_append.mpr ⟨fun n new => ?_, fun n new => ?_⟩
    · obtain ⟨fresh, leaf⟩ := filled.leaves n new
      have other : n ≠ root := fun same => fresh (same ▸ shape.top_mem)
      exact ⟨fresh, (second.below n (.inr new) other).trans leaf⟩
    · exact (second.leaves n new).imp_left (mt .inl)
  children c := by rw [second.children, filled.children, mem_append, or_assoc]
  covers a := by
    rw [covers_append, second.covers_kept fun _ => .inr, second.covers, filled.covers,
      filled.covers_iff shape,
      Set.mem_union]
    grind

end Composition

/-- A new child in a gap. -/
theorem Gap.filled (gap : Gap (heap.init res start end_ flags) nodes kids root pre post res)
    (shape : Shape heap root nodes kids rank bound) (fresh : res ∉ nodes) :
    ∃ kids', Filled heap (attached (heap.init res start end_ flags) root pre post res) root nodes kids kids'
      (Set.Ico start (end_ + 1)) [res] := by
  have other {n : Nat} (old : n ∈ nodes) : n ≠ res := fun same => fresh (same ▸ old)
  have startRes : (heap.init res start end_ flags).start res = start := update_self _ _ _
  have endRes : (heap.init res start end_ flags).end_ res = end_ := update_self _ _ _
  obtain ⟨all, rank', bound', after, atRoot, leaf, elsewhere⟩ := gap.shape_init shape fresh
  have single : {n | n ∈ [res]} = ({res} : Set Nat) := Set.ext fun _ => mem_singleton
  refine ⟨all, ⟨rank', bound', single ▸ after⟩, fun n old => ?_, elsewhere,
    forall_mem_singleton.mpr ⟨fresh, leaf res rfl⟩, fun c => ?_, fun a => ?_⟩
  · have same := @init_same heap n res start end_ flags (other old)
    refine ⟨(congrFun (write_start _) n).trans same.1, (congrFun (write_end _) n).trans same.2.1,
      (congrFun (write_flags _) n).trans (update_of_ne (other old) _ _), ?_⟩
    rw [attached_parent, update_of_ne (other old)]
    exact same.2.2.1
  · rw [atRoot, gap.split]
    simp only [mem_append, mem_cons, not_mem_nil]
    grind
  · have own : Covers (attached (heap.init res start end_ flags) root pre post res) [res] a ↔ start ≤ a ∧
        a < end_ + 1 := by
      rw [Covers, show (attached _ root pre post res).start = _ from write_start _,
        show (attached _ root pre post res).end_ = _ from write_end _]
      simp only [mem_singleton, exists_eq_left, startRes, endRes, Nat.lt_succ_iff]
    rw [own]
    refine ⟨fun inside => ⟨inside, ?_⟩, And.left⟩
    rintro ⟨c, kid, low, high⟩
    have same := @init_same heap c res start end_ flags (other (shape.mem root shape.top_mem c kid).1)
    rw [gap.split] at kid
    have apart := (mem_append.mp kid).imp (gap.before c) (gap.after c)
    rw [startRes, endRes, same.1, same.2.1] at apart
    omega

/-! ### The recursion -/

/-- Inside the root, the recursion ends and fills the range. A call is made, as in the source, only if the
  range is not empty. -/
theorem reserveRegionWithSplit_fills {stop : Nat} (shape : Shape heap root nodes kids rank bound)
    (low : heap.start root ≤ start) (high : stop ≤ heap.end_ root + 1) (distinct : free.Nodup)
    (fresh : ∀ n ∈ free, n ∉ nodes) (enough : stop ≤ start + free.length) :
    ∃ heap' kids' added rest, free = added ++ rest ∧ added.length ≤ stop - start ∧
      Gives (fun fuel => if start < stop then reserveRegionWithSplit root fuel heap free start (stop - 1)
        else some (heap, free)) (heap', rest) ∧
      Filled heap heap' root nodes kids kids' (Set.Ico start stop) added := by
  induction size : stop - start using Nat.strong_induction_on
    generalizing heap nodes kids rank bound free start stop with
  | _ size ih =>
    by_cases empty : stop ≤ start
    · simp only [if_neg (Nat.not_lt.mpr empty)]
      exact ⟨heap, kids, [], free, rfl, Nat.zero_le _, .const,
        shape.filled fun a inside => absurd (inside.1.trans_lt inside.2) (Nat.not_lt.mpr empty)⟩
    · obtain ⟨end_, rfl⟩ : ∃ end_, stop = end_ + 1 := ⟨stop - 1, by omega⟩
      obtain ⟨res, free, rfl⟩ : ∃ res rest, free = res :: rest := exists_cons_of_length_pos (by omega)
      have freshRes := fresh res mem_cons_self
      have startRes : (heap.init res start end_ ioresourceBusy).start res = start := update_self _ _ _
      have endRes : (heap.init res start end_ ioresourceBusy).end_ res = end_ := update_self _ _ _
      have same (n : Nat) (old : n ∈ nodes) := @init_same heap n res start end_ ioresourceBusy
        fun same => freshRes (same ▸ old)
      simp only [if_pos (Nat.not_le.mp empty), Nat.add_sub_cancel]
      rcases requestResource_spec (shape.init freshRes) shape.top_mem res with
        ⟨outside, -⟩ | ⟨pre, post, gap, done⟩ | ⟨pre, c, post, conflict, done⟩
      · rw [Fits, startRes, endRes, (same root shape.top_mem).1, (same root shape.top_mem).2.1] at outside
        omega
      · obtain ⟨kids', filled⟩ := gap.filled shape freshRes
        refine ⟨_, kids', [res], free, rfl, ?_, .of_succ (done.bind .const), filled⟩
        rw [length_singleton]
        omega
      · have inTree := (shape.mem root shape.top_mem c conflict.kid).1
        have covered (a : Nat) (inside : heap.start c ≤ a ∧ a ≤ heap.end_ c) : Covers heap (kids root) a :=
          ⟨c, conflict.kid, inside⟩
        have under := shape.under root shape.top_mem c conflict.kid
        have nonempty := under.nonempty
        have inside := under.high
        have meets := conflict.low
        have meets' := conflict.high
        rw [endRes, (same c inTree).1] at meets
        rw [startRes, (same c inTree).2.1] at meets'
        by_cases whole : heap.start c ≤ start ∧ heap.end_ c ≥ end_
        · refine ⟨heap, kids, [], res :: free, rfl, Nat.zero_le _, .of_succ (done.bind ?_),
            shape.filled fun a inside =>
              covered a ⟨whole.1.trans inside.1, (Nat.le_of_lt_succ inside.2).trans whole.2⟩⟩
          simpa only [if_pos whole] using Gives.const
        · -- first the part before the conflict
          obtain ⟨heap₁, kids₁, used, rest, isFree, few, gives, filled⟩ :=
            @ih (heap.start c - start) (by omega) heap nodes
            kids rank (res :: free) bound start (heap.start c) shape low (by omega) distinct fresh
              (by omega) rfl
          obtain ⟨startRoot, endRoot, -⟩ := filled.kept root shape.top_mem
          obtain ⟨_, _, shape'⟩ := filled.shape
          have total := congrArg length isFree
          rw [length_append] at total
          rw [isFree] at distinct fresh
          obtain ⟨-, distinct', apart⟩ := nodup_append.mp distinct
          have fresh' (n : Nat) (mem : n ∈ rest) : n ∉ nodes ∪ {n | n ∈ used} := fun either =>
            either.elim (fresh n (mem_append_right _ mem)) fun early => apart n early n mem rfl
          -- then the part behind it
          obtain ⟨heap₂, kids₂, used', rest', rfl, few', gives', filled'⟩ :=
            @ih (end_ - heap.end_ c) (by omega) heap₁ _
            kids₁ _ rest _ (heap.end_ c + 1) (end_ + 1) shape' (by omega) (by omega) distinct' fresh'
              (by omega) (by omega)
          refine ⟨heap₂, kids₂, used ++ used',
            rest', by rw [isFree, append_assoc], by rw [length_append]; omega,
            .of_succ (done.bind (gives.trans gives' fun fuel found => ?_)),
            (filled.trans shape filled').of_range fun a bare => ?_⟩
          · simp only [if_neg whole, Option.bind_eq_bind]
            rw [found, Option.bind_some]
            simp only [(filled.kept c inTree).2.1, Nat.add_lt_add_iff_right, Nat.add_sub_cancel]
          · have outside := mt (covered a) bare
            rw [Set.mem_union, Set.mem_Ico, Set.mem_Ico, Set.mem_Ico]
            omega

/-- Outside the root, the conflict is the root itself, and the call that it leads to is again one outside
the root. -/
theorem reserveRegionWithSplit_outside (other : root ≠ res) (ordered : start ≤ end_)
    (outside : ¬ (heap.start root ≤ start ∧ end_ ≤ heap.end_ root)) (fuel : Nat) :
    reserveRegionWithSplit root fuel heap (res :: free) start end_ = none := by
  induction fuel generalizing start end_ with
  | zero => rfl
  | succ fuel ih =>
    have same := @init_same heap root res start end_ ioresourceBusy other
    have conflict : ¬ Fits (heap.init res start end_ ioresourceBusy) root res := by
      rintro ⟨-, low, high⟩
      rw [same.1, show (heap.init res start end_ ioresourceBusy).start res = start from
        update_self _ _ _] at low
      rw [same.2.1, show (heap.init res start end_ ioresourceBusy).end_ res = end_ from
        update_self _ _ _] at high
      exact outside ⟨low, high⟩
    simp only [reserveRegionWithSplit, requestResource_outside conflict, Option.bind_eq_bind,
      Option.bind_some,
      if_neg outside]
    split_ifs with low
    · rw [ih (by omega) (by omega), Option.bind_none]
    · rw [Option.bind_some]
      dsimp only
      rw [if_pos (by omega), ih (by omega) (by omega)]

/-- With enough descriptors, a range inside the root is filled, with everything that was there unchanged.
  Any other range makes the recursion endless. -/
theorem reserveRegionWithSplit_exact (shape : Shape heap root nodes kids rank bound) (ordered : start ≤ end_)
    (distinct : free.Nodup) (fresh : ∀ n ∈ free, n ∉ nodes) (enough : end_ < start + free.length) :
    (heap.start root ≤ start ∧ end_ ≤ heap.end_ root → ∃ heap' kids' added rest, free = added ++ rest ∧
      Gives (reserveRegionWithSplit root · heap free start end_) (heap', rest) ∧
      Filled heap heap' root nodes kids kids' (Set.Icc start end_) added ∧
      ∀ a ∈ Set.Icc start end_, Covers heap' (kids' root) a) ∧
    (¬ (heap.start root ≤ start ∧ end_ ≤ heap.end_ root) →
      ∀ fuel, reserveRegionWithSplit root fuel heap free start end_ = none) := by
  refine ⟨fun ⟨low, high⟩ => ?_, fun outside fuel => ?_⟩
  · obtain ⟨heap', kids', added, rest, isFree, -, gives, filled⟩ :=
      reserveRegionWithSplit_fills shape low (Nat.succ_le_succ high) distinct fresh enough
    simp only [if_pos (Nat.lt_succ_of_le ordered)] at gives
    refine ⟨heap', kids', added, rest, isFree, gives, filled.of_range fun a _ => ?_, fun a inside => ?_⟩
    · rw [Set.mem_Icc, Set.mem_Ico, Nat.lt_succ_iff]
    · exact (filled.covers_iff shape).mpr (.inr ⟨inside.1, Nat.lt_succ_of_le inside.2⟩)
  · cases free with
    | nil => exact absurd enough (by simpa using ordered)
    | cons res free =>
      have other : root ≠ res := fun same => fresh res mem_cons_self (same ▸ shape.top_mem)
      exact reserveRegionWithSplit_outside other ordered outside fuel

/-- A root from 0 to 9 with one child from 3 to 5. -/
def rootWithChild : Heap where
  start n := if n = 1 then 3 else 0
  end_ n := if n = 1 then 5 else 9
  flags _ := 0
  parent n := if n = 1 then some 0 else none
  sibling _ := none
  child n := if n = 0 then some 1 else none

theorem rootWithChild_shape : Shape rootWithChild 0 {0, 1} (fun n => if n = 0 then [1] else []) id 1 := by
  constructor
  case under =>
    simp only [Set.mem_insert_iff, Set.mem_singleton_iff, forall_eq_or_imp, forall_eq]
    exact ⟨by simpa using ⟨rfl, by decide, by decide, by decide⟩, nofun⟩
  all_goals simp [rootWithChild, Segment]

/-- The range of the root is filled on both sides of the child. -/
theorem reserveRegionWithSplit_exact_around : ∃ (heap' : Heap) (rest : List Nat) (kids : Nat → List Nat),
    Gives (reserveRegionWithSplit 0 · rootWithChild (List.range' 2 10) 0 9) (heap', rest) ∧
      ∀ a ∈ Set.Icc 0 9, Covers heap' (kids 0) a := by
  obtain ⟨heap', kids, -, rest, -, gives, -, covers⟩ :=
    (@reserveRegionWithSplit_exact _ _ _ _ (List.range' 2 10) _ _ 0 9
    rootWithChild_shape (by decide) (by decide) (by decide) (by decide)).1 (by decide)
  exact ⟨heap', rest, kids, gives, covers⟩

/-- The range from 5 to 15 is not inside a root from 10 to 20. -/
theorem reserveRegionWithSplit_endless : ¬ ∃ fuel,
    (reserveRegionWithSplit 0 fuel (bareRoot 10 20) [1, 2, 3, 4, 5, 6, 7, 8, 9, 10, 11] 5 15).isSome := by
  rintro ⟨fuel, returns⟩
  rw [reserveRegionWithSplit_outside (by decide) (by decide) (by decide)] at returns
  exact absurd returns nofun

end LinuxKernel.Kernel.ResourceTree
