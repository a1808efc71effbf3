/-
Module: LinuxKernel.Proofs.Rbtree
Purpose: `rb_erase` and `rb_replace_node` do to the tree that a heap holds what they should.
Trusted boundary: none
Main exports: rbErase_spec, rbReplaceNode_spec, rbtree_correct
-/
import LinuxKernel.Lib.Rbtree

namespace LinuxKernel.Lib.Rbtree

open Library List Option

variable {heap : Heap} {context rest : List (Frame Nat)} {tree near far : ColorTree Nat} {side : Side}
  {color color' : Color} {label parent height : Nat}

/-! ### Taking out a node with one child -/

theorem Focus.unlink (focus : Focus heap context (.join side color label near .nil)) :
    Focus ((setParentIf heap (rootPtr near) (parentOf context)).changeChild .left label (rootPtr near)
      (parentOf context)) context near := by
  obtain ⟨nonzero, above, colored, toNear, toFar, repNear, _⟩ := rep_join.mp focus.rep
  have held := focus.held
  rw [rootPtr_join] at held
  have nodup := ((join_perm side color label near .nil).append_right (contextLabels context)).nodup_iff.mp
    focus.nodup
  rw [ColorTree.toList, append_assoc, singleton_append, nodup_middle, nodup_cons,
    mem_append, not_or, nodup_append'] at nodup
  obtain ⟨⟨notNear, notContext⟩, nodupNear, nodupContext, apart⟩ := nodup
  refine ⟨?_, ?_, nodup_append'.mpr ⟨nodupNear, nodupContext, apart⟩⟩
  · have held' : RepContext (setParentIf heap (rootPtr near) (parentOf context)) context label := by
      refine held.congr (fun node mem pos => ⟨?_, by simp, fun _ => by simp⟩) (by simp)
      simp [ne_rootPtr pos fun inNear => apart inNear mem]
    exact held'.changeChild nonzero (nodup_cons.mpr ⟨notContext, nodupContext⟩) .left _
  · refine repNear.reparent nodupNear (fun node mem pos other => ?_) fun pos => ?_
    · refine ⟨by simp [other], by simp, fun s => ?_⟩
      rw [changeChild_child (ne_parentOf pos (apart mem)), setParentIf_child]
    · refine ⟨by simp [pos], by simp, fun s => ?_⟩
      rw [changeChild_child (ne_parentOf pos (apart (rootPtr_mem pos))), setParentIf_child]

variable {rounds old node victim new : Nat} {path : List (Frame Nat)} {left right : ColorTree Nat}

/-- After a node with at most one child is taken out, the colours are repaired if it was black. -/
theorem eraseRepair_spec (rooted : Rooted heap (plug context near))
    (balanced : RedBlack (.join side color label near .nil) color' height)
    (hole : Hole context color' height) (enough : context.length + 1 < rounds) :
    ∃ heap', (if color = .black then rbEraseColor rounds (rootPtr near) (parentOf context) heap
      else some heap) =
        some heap' ∧ Recolored heap' (plug context near).toList := by
  cases color with
  | red =>
    obtain ⟨rfl, below, none⟩ := balanced.red_inv
    cases none
    obtain ⟨total, whole⟩ := hole.of_red.fill below
    exact ⟨heap, by rw [if_neg (by decide)], _, total, rooted, whole, rfl⟩
  | black =>
    obtain ⟨less, color₁, color₂, rfl, rfl, below, none⟩ := balanced.black_inv
    exact rbEraseColor_spec rounds rooted below hole enough

/-- The sequence without the node. -/
def RemovedFrom (node : Nat) (before after : List Nat) : Prop :=
  ∃ low high, before = low ++ node :: high ∧ after = low ++ high

/-- `rb_erase` of a node with at most one child. -/
theorem eraseSimple_spec (rooted : Rooted heap (plug context (.join side color label near .nil)))
    (balanced : RedBlack (.join side color label near .nil) color' height)
    (hole : Hole context color' height) (enough : context.length + 1 < rounds) :
    ∃ heap' tree', eraseSimple rounds label (rootPtr near) heap = some heap' ∧ IsRbTree heap' tree' ∧
      RemovedFrom label (plug context (.join side color label near .nil)).toList tree'.toList := by
  have reads := rooted.read
  have spliced := rooted_iff_focus.mpr (rooted_iff_focus.mp rooted).unlink
  obtain ⟨heap', done, tree', total, rooted', balanced', same⟩ :=
    eraseRepair_spec spliced balanced hole enough
  refine ⟨heap', tree', ?_, ⟨rooted', total, balanced'⟩, ?_⟩
  · rw [eraseSimple, reads.parent, reads.color]
    exact done
  · rw [same, plug_toList, plug_toList]
    cases side with
    | left =>
      refine ⟨(around context).1 ++ near.toList, (around context).2, ?_, ?_⟩ <;>
        simp [ColorTree.join, ColorTree.toList]
    | right => exact ⟨(around context).1, near.toList ++ (around context).2, rfl, rfl⟩

/-! ### Taking out a node with two children -/

/-- The successor of a node is the end of the leftmost path in its right subtree. -/
theorem leftmost_spec (rep : Rep heap parent tree) (nonzero : rootPtr tree ≠ 0) :
    ∀ {rounds : Nat}, tree.toList.length ≤ rounds →
    ∃ path color label far, tree = plug path (.join .left color label .nil far) ∧
      (∀ frame ∈ path, frame.side = .left) ∧ leftmost rounds (rootPtr tree) heap = some label := by
  induction tree generalizing parent with
  | nil => exact absurd rfl nonzero
  | node color left label right leftHypothesis _ =>
    intro rounds enough
    obtain ⟨pos, _, _, toLeft, _, repLeft, _⟩ := rep
    rw [ColorTree.toList, length_append, length_cons] at enough
    obtain ⟨fewer, rfl⟩ : ∃ fewer, rounds = fewer + 1 := ⟨rounds - 1, by omega⟩
    rw [rootPtr, leftmost, deref_some pos, toLeft]
    by_cases none : rootPtr left = 0
    · obtain rfl := repLeft.eq_nil none
      exact ⟨[], color, label, right, rfl, by simp, rfl⟩
    · obtain ⟨path, color', label', far, rfl, leftSides, found⟩ :=
        leftHypothesis repLeft none (show left.toList.length ≤ fewer by omega)
      refine ⟨path ++ [⟨.left, color, label, right⟩], color', label', far, ?_, ?_, ?_⟩
      · rw [plug_append]
        rfl
      · exact forall_mem_append.mpr ⟨leftSides, forall_mem_singleton.mpr rfl⟩
      · rw [if_pos none]
        exact found

theorem rootPtr_plug_cons (frame : Frame Nat) (rest : List (Frame Nat)) (tree tree' : ColorTree Nat) :
    rootPtr (plug (frame :: rest) tree) = rootPtr (plug (frame :: rest) tree') := by
  induction rest generalizing frame tree tree' with
  | nil => rw [plug, plug, plug, plug, rootPtr_join, rootPtr_join]
  | cons above rest ih => exact ih above _ _

/-- The labels of a tree whose leftmost node is taken out. -/
theorem toList_leftmost (leftSides : ∀ frame ∈ path, frame.side = .left) :
    (plug path (.join .left color label .nil far)).toList = label :: (plug path far).toList := by
  have none : (around path).1 = [] := by
    induction path with
    | nil => rfl
    | cons frame path ih =>
      obtain ⟨side, color, label, sibling⟩ := frame
      obtain rfl : side = .left := leftSides _ mem_cons_self
      exact ih fun other mem => leftSides other (mem_cons_of_mem _ mem)
  rw [plug_toList, plug_toList, none]
  rfl

/-- What `rb_erase` has done when the successor is out of its place. -/
structure Detached (heap heap' : Heap) (node : Nat) (tree : ColorTree Nat) : Prop where
  rep : Rep heap' node tree
  right : heap'.child .right node = rootPtr tree
  others : ∀ other, other ≠ 0 → other ≠ node → other ∉ tree.toList → SameNode heap heap' other
  root : heap'.root = heap.root

theorem detachSuccessor_spec (rep : Rep heap old (plug path (.join .left color node .nil far)))
    (nodup : (plug path (.join .left color node .nil far)).toList.Nodup)
    (leftSides : ∀ frame ∈ path, frame.side = .left)
    (outside : old ∉ (plug path (.join .left color node .nil far)).toList)
    (toRight : heap.child .right old = rootPtr (plug path (.join .left color node .nil far)))
    (frame : Frame Nat) (named : frame.label = node) (outer : List (Frame Nat)) :
    ∃ heap', detachSuccessor old node (rootPtr far) heap = some (heap', parentOf (path ++ frame :: outer)) ∧
      Detached heap heap' node (plug path far) := by
  have labels : (plug path (.join .left color node .nil far)).toList = node :: (plug path far).toList :=
    toList_leftmost leftSides
  rw [labels, nodup_cons] at nodup
  rw [labels, mem_cons, not_or] at outside
  cases path with
  | nil =>
    obtain ⟨_, above, _, _, toFar, _, repFar⟩ := rep_join.mp rep
    refine ⟨heap, ?_, repFar, toFar, fun _ _ _ _ => ⟨rfl, rfl, fun _ => rfl⟩, rfl⟩
    rw [detachSuccessor, above, if_pos rfl, nil_append, parentOf, named]
  | cons inner path =>
    have sameRoot := rootPtr_plug_cons inner path (.join .left color node .nil far) far
    have members {other : Nat} := (plug_perm (inner :: path) far).mem_iff (a := other)
    set rest := plug (inner :: path) far
    have innerMember : inner.label ∈ rest.toList := members.mpr (mem_append_right _ mem_cons_self)
    have rootMember : rootPtr rest ∈ rest.toList :=
      members.mpr (mem_append_right _ (rootPtr_plug_mem inner path far))
    -- The right subtree as a tree of its own, from which the successor is taken out.
    let alone : Heap := { heap.setParent (rootPtr rest) 0 with root := rootPtr rest }
    have rooted : Rooted alone (plug (inner :: path) (.join .left color node .nil far)) := by
      refine ⟨rep.reparent (by rw [labels]; exact nodup_cons.mpr nodup) ?_ ?_, sameRoot.symm,
        by rw [labels]; exact nodup_cons.mpr nodup⟩
      · intro other _ _ ne
        rw [sameRoot] at ne
        exact ⟨by simp [alone, ne], rfl, fun _ => rfl⟩
      · intro _
        rw [sameRoot]
        exact ⟨by simp [alone], rfl, fun _ => rfl⟩
    have focus : Focus alone (inner :: path) (.join .right color node far .nil) :=
      rooted_iff_focus.mp rooted
    have unlinked : Rooted _ rest := rooted_iff_focus.mpr focus.unlink
    have reads := rooted.read
    have readsInner := rooted.readParent
    have notRoot : node ≠ rootPtr rest := by
      have := rooted.ne_root
      rwa [rootPtr_join] at this
    rw [leftSides inner mem_cons_self] at readsInner
    have toNode : heap.child .left inner.label = node := readsInner.near
    have above : heap.parent node = inner.label := by
      have := reads.parent
      simpa [alone, notRoot, parentOf] using this
    have differs : inner.label ≠ old := ne_of_mem_of_not_mem innerMember outside.2
    have changed :
      (setParentIf alone (rootPtr far) inner.label).changeChild .left node (rootPtr far) inner.label =
        (setParentIf alone (rootPtr far) inner.label).setChild inner.label .left (rootPtr far) := by
      rw [Heap.changeChild, if_pos readsInner.nonzero, if_pos (by simpa [alone] using toNode)]
    rw [parentOf, changed] at unlinked
    obtain ⟨cut, isCut⟩ : ∃ cut, cut = (setParentIf heap (rootPtr far) inner.label).setChild inner.label .left
      (rootPtr far) := ⟨_, rfl⟩
    have rootNonzero := unlinked.root_ne_zero
    refine ⟨(cut.setChild node .right (rootPtr rest)).setParent (rootPtr rest) node, ?_,
      unlinked.rep.reparent unlinked.nodup ?_ ?_, ?_, ?_, ?_⟩
    · have child : cut.child .right old = rootPtr rest := by simp [isCut, toRight, sameRoot]
      have again : (cut.setChild node .right (rootPtr rest)).child .right old =
          rootPtr rest := by simp [child]
      rw [detachSuccessor, above, if_neg differs]
      simp only [deref_some readsInner.nonzero]
      rw [← setParentIf, ← isCut, child, again, deref_some rootNonzero]
      rfl
    · intro other mem pos ne
      have notNode : other ≠ node := ne_of_mem_of_not_mem mem nodup.1
      exact ⟨by simp [isCut, alone, ne], by simp [isCut, alone], fun s => by simp [isCut, alone, notNode]⟩
    · intro _
      refine ⟨by simp [isCut], by simp [isCut, alone], fun s => ?_⟩
      simp [isCut, alone, notRoot.symm]
    · simp [isCut]
    · intro other pos notNode notMember
      have notInner' : other ≠ inner.label := (ne_of_mem_of_not_mem innerMember notMember).symm
      have notFar : other ≠ rootPtr far := ne_rootPtr pos fun mem =>
        notMember (members.mpr (mem_append_left _ mem))
      have notRoot' : other ≠ rootPtr rest := (ne_of_mem_of_not_mem rootMember notMember).symm
      exact ⟨by simp [isCut, notRoot', notFar], by simp [isCut], fun s => by simp [isCut, notNode, notInner']⟩
    · simp [isCut]

/-- The successor takes the place of the node that is taken out. -/
theorem takePlace_focus (held : RepContext heap context node)
    (above : heap.parent old = parentOf context) (colored : heap.color old = color)
    (toLeft : heap.child .left old = rootPtr left) (someLeft : rootPtr left ≠ 0)
    (repLeft : Rep heap old left) (repRight : Rep heap node right)
    (toRight : heap.child .right node = rootPtr right) (nonzero : node ≠ 0)
    (ne : old ≠ node)
    (nodup : (node :: (left.toList ++ (right.toList ++ contextLabels context))).Nodup) :
    ∃ heap', takePlace old node heap = some heap' ∧
      Focus heap' context (.join .left color node left right) := by
  obtain ⟨heap', step⟩ : ∃ heap', heap' = (((heap.setParent node (parentOf context)).setColor node
      color).setChild node .left (rootPtr left)).setParent (rootPtr left) node := ⟨_, rfl⟩
  have labels := ((join_perm .left color node left right).append_right (contextLabels context)).nodup_iff
  rw [append_assoc, cons_append, nodup_middle] at labels
  have whole := labels.mpr nodup
  rw [nodup_cons, mem_append, not_or, nodup_append'] at nodup
  obtain ⟨⟨notLeft, notRest⟩, nodupLeft, -, apartLeft⟩ := nodup
  have notRoot := ne_rootPtr nonzero notLeft
  have same {other : Nat} (notNode : other ≠ node) (notRoot : other ≠ rootPtr left) :
      SameNode heap heap' other :=
    ⟨by simp [step, notNode, notRoot], by simp [step, notNode], fun s => by simp [step, notNode]⟩
  have sameOutside {other : Nat} (pos : other ≠ 0) (mem : other ∈ right.toList ++ contextLabels context) :
      SameNode heap heap' other :=
    same (ne_of_mem_of_not_mem mem notRest) (ne_rootPtr pos fun inLeft => apartLeft inLeft mem)
  refine ⟨heap', ?_, ?_, ⟨nonzero, ?_, ?_, ?_, ?_, ?_, ?_⟩, whole⟩
  · rw [takePlace, above, colored]
    simp only [Heap.setColor_child, Heap.setParent_child, setChild_child, toLeft, ne, and_false, if_false,
      deref_some someLeft, step, bind_eq_bind, bind_some]
  · refine held.congr (fun other mem pos => sameOutside pos ?_) (by simp [step])
    exact mem_append_right _ mem
  · simp [step, notRoot]
  · simp [step]
  · simp [step]
  · simpa [step] using toRight
  · refine repLeft.reparent nodupLeft (fun other mem _ notTop => same ?_ notTop) fun _ =>
      ⟨?_, ?_, fun s => ?_⟩
    · exact ne_of_mem_of_not_mem mem notLeft
    · simp [step]
    · simp [step, notRoot.symm]
    · simp [step, notRoot.symm]
  · refine repRight.congr fun other mem pos => sameOutside pos ?_
    exact mem_append_left _ mem

/-- `rb_erase` of a node with two children. -/
theorem eraseInner_spec {total : Nat}
    (rooted : Rooted heap (plug context (.join .left color label left right)))
    (balanced : RedBlack (plug context (.join .left color label left right)) .black total)
    (someLeft : rootPtr left ≠ 0) (someRight : rootPtr right ≠ 0)
    (enough : (plug context (.join .left color label left right)).toList.length + 1 < rounds) :
    ∃ heap' tree', eraseInner rounds label heap = some heap' ∧ IsRbTree heap' tree' ∧
      RemovedFrom label (plug context (.join .left color label left right)).toList tree'.toList := by
  have focus := rooted_iff_focus.mp rooted
  obtain ⟨nonzero, above, colored, toLeft, toRight, repLeft, repRight⟩ := rep_join.mp focus.rep
  rw [Side.other] at toRight
  have held := focus.held
  have rightLength : right.toList.length ≤ rounds := by
    have := (plug_perm context (.join .left color label left right)).length_eq
    simp only [ColorTree.join, ColorTree.toList, length_append, length_cons] at this enough
    omega
  obtain ⟨path, color', node, far, rfl, leftSides, found⟩ := leftmost_spec repRight someRight rightLength
  have labels : (plug path (.join .left color' node .nil far)).toList = node :: (plug path far).toList :=
    toList_leftmost leftSides
  -- The same tree seen from the successor.
  have whole : plug context (.join .left color label left (plug path (.join .left color' node .nil far))) =
      plug (path ++ ⟨.right, color, label, left⟩ :: context) (.join .left color' node .nil far) := by
    rw [plug_append]
    rfl
  have reads : Reads heap .left color' node _ 0 (rootPtr far) := (whole ▸ rooted).read
  have nodup : (label :: node ::
      (left.toList ++ ((plug path far).toList ++ contextLabels context))).Nodup := by
    refine (List.Perm.nodup_iff ?_).mp focus.nodup
    rw [ColorTree.join, ColorTree.toList, labels, append_assoc]
    exact perm_middle.trans (.cons _ perm_middle)
  have nodupNode := (nodup_cons.mp nodup).2
  simp only [nodup_cons, mem_cons, mem_append, not_or, nodup_append', disjoint_append_right] at nodup
  obtain ⟨⟨ne, notLeft, notRest, notContext⟩, ⟨nodeLeft, nodeRest, nodeContext⟩, -,
    ⟨nodupRest, nodupContext, restContext⟩, leftRest, leftContext⟩ := nodup
  -- The pointer to the node now leads to the successor.
  obtain ⟨heap₁, step₁⟩ : ∃ heap₁, heap₁ = heap.changeChild .left label node (parentOf context) := ⟨_, rfl⟩
  have held₁ : RepContext heap₁ context node := by
    rw [step₁]
    exact held.changeChild nonzero (nodup_cons.mpr ⟨notContext, nodupContext⟩) .left node
  have same {other : Nat} (pos : other ≠ 0) (outside : other ∉ contextLabels context) :
      SameNode heap heap₁ other := by
    rw [step₁]
    exact ⟨by simp, by simp, fun s => changeChild_child (ne_parentOf pos outside)⟩
  have sameLabel := same nonzero notContext
  have sameNode := same reads.nonzero nodeContext
  have repLeft₁ : Rep heap₁ label left := repLeft.congr fun other mem pos => same pos (leftContext mem)
  have repRight₁ : Rep heap₁ label (plug path (.join .left color' node .nil far)) := by
    refine repRight.congr fun other mem pos => same pos ?_
    rw [labels, mem_cons] at mem
    rcases mem with rfl | mem
    · exact nodeContext
    · exact restContext mem
  obtain ⟨heap₂, detached, rep₂, right₂, others₂, root₂⟩ := detachSuccessor_spec repRight₁
    (by rw [labels]; exact nodup_cons.mpr ⟨nodeRest, nodupRest⟩) leftSides
    (by rw [labels, mem_cons, not_or]; exact ⟨ne, notRest⟩)
    ((sameLabel.child .right).trans toRight) ⟨.right, color, node, left⟩ rfl context
  have label₂ := others₂ label nonzero ne notRest
  have held₂ : RepContext heap₂ context node := by
    refine held₁.congr (fun other mem pos => others₂ other pos ?_ ?_) root₂
    · exact ne_of_mem_of_not_mem mem nodeContext
    · exact fun inRest => restContext inRest mem
  have repLeft₂ : Rep heap₂ label left := by
    refine repLeft₁.congr fun other mem pos => others₂ other pos ?_ (leftRest mem)
    exact ne_of_mem_of_not_mem mem nodeLeft
  obtain ⟨heap₃, placed, focus₃⟩ := takePlace_focus held₂
    (label₂.parent.trans (sameLabel.parent.trans above)) (label₂.color.trans (sameLabel.color.trans colored))
    ((label₂.child .left).trans ((sameLabel.child .left).trans toLeft)) someLeft repLeft₂ rep₂ right₂
    reads.nonzero ne nodupNode
  have rooted₃ : Rooted heap₃ (plug (path ++ ⟨.right, color, node, left⟩ :: context) far) := by
    have joined := rooted_iff_focus.mpr focus₃
    rw [plug_append]
    exact joined
  rw [whole] at balanced enough
  obtain ⟨rootColor, height, below, hole⟩ := balanced.unplug
  have length := length_context_le (path ++ ⟨.right, color, label, left⟩ :: context)
    (.join .left color' node .nil far)
  have turned : RedBlack (.join .right color' node far .nil) rootColor height := below
  obtain ⟨heap', done, tree', total', rooted', balanced', sequence⟩ := eraseRepair_spec rooted₃ turned
    hole.relabel (show (path ++ (⟨.right, color, node, left⟩ : Frame Nat) :: context).length + 1 < rounds by
      simp only [length_append, length_cons] at length ⊢
      omega)
  refine ⟨heap', tree', ?_, ⟨rooted', total', balanced'⟩, ?_⟩
  · rw [eraseInner, toRight]
    have toFar : heap.child .right node = rootPtr far := reads.far
    simp only [found, above, ← step₁, bind_eq_bind, bind_some, sameNode.child, sameNode.color,
      toFar, reads.color, detached, placed, done]
  · rw [sequence, plug_append, plug_toList, plug, plug_toList]
    refine ⟨(around context).1 ++ left.toList, node :: (plug path far).toList ++ (around context).2, ?_, ?_⟩
    · rw [ColorTree.join, ColorTree.toList, labels]
      simp
    · simp [ColorTree.join, ColorTree.toList]

/-- `rb_erase` takes out exactly the node. -/
theorem rbErase_spec (held : IsRbTree heap tree) (mem : node ∈ tree.toList)
    (enough : tree.toList.length + 1 < rounds) :
    ∃ heap' tree', rbErase rounds node heap = some heap' ∧ IsRbTree heap' tree' ∧
      RemovedFrom node tree.toList tree'.toList := by
  obtain ⟨context, color, left, right, rfl⟩ := exists_plug .left mem
  have rooted := held.rooted
  obtain ⟨total, balanced⟩ := held.balanced
  obtain ⟨rootColor, height, below, hole⟩ := balanced.unplug
  have reads := rooted.read
  obtain ⟨_, _, _, _, _, repLeft, repRight⟩ := rep_join.mp (rooted_iff_focus.mp rooted).rep
  have depth : context.length + 1 < rounds :=
    Nat.lt_of_le_of_lt (Nat.succ_le_succ (length_context_le context _)) enough
  have toRight : heap.child .right node = rootPtr right := reads.far
  rw [rbErase, deref_some reads.nonzero, reads.near, toRight]
  by_cases noLeft : rootPtr left = 0
  · obtain rfl := repLeft.eq_nil noLeft
    have turned : Rooted heap (plug context (.join .right color node right .nil)) := rooted
    have turnedBelow : RedBlack (.join .right color node right .nil) rootColor height := below
    exact eraseSimple_spec turned turnedBelow hole depth
  · rw [if_neg noLeft]
    by_cases noRight : rootPtr right = 0
    · obtain rfl := repRight.eq_nil noRight
      exact eraseSimple_spec rooted below hole depth
    · rw [if_neg noRight]
      exact eraseInner_spec rooted balanced noLeft noRight enough

/-! ### Replacing a node -/

theorem rbReplaceNode_eq (victim new : Nat) (heap : Heap) : rbReplaceNode victim new heap =
    let heap₁ := heap.changeChild .left victim new (heap.parent victim)
    let heap₂ := setParentIf heap₁ (heap₁.child .left victim) new
    let heap₃ := setParentIf heap₂ (heap₂.child .right victim) new
    let heap₄ := (heap₃.setParent new (heap₃.parent victim)).setColor new (heap₃.color victim)
    (heap₄.setChild new .left (heap₄.child .left victim)).setChild new .right (heap₄.child .right victim) :=
  rfl

theorem rbReplaceNode_focus (focus : Focus heap context (.join .left color victim left right))
    (nonzero : new ≠ 0)
    (fresh : new ∉ (ColorTree.join .left color victim left right).toList ++ contextLabels context) :
    Focus (rbReplaceNode victim new heap) context (.join .left color new left right) := by
  obtain ⟨pos, above, colored, toLeft, toRight, repLeft, repRight⟩ := rep_join.mp focus.rep
  have held := focus.held
  have nodup := focus.nodup
  rw [ColorTree.join, ColorTree.toList, append_assoc, cons_append, nodup_middle] at nodup
  have unique := nodup
  simp only [nodup_cons, nodup_append', mem_append, not_or, disjoint_append_right] at unique
  obtain ⟨⟨victimLeft, victimRight, victimContext⟩, nodupLeft,
    ⟨nodupRight, nodupContext, rightContext⟩, leftRight,
    leftContext⟩ := unique
  simp only [ColorTree.join, ColorTree.toList, mem_append, mem_cons, not_or] at fresh
  obtain ⟨⟨newLeft, newVictim, newRight⟩, newContext⟩ := fresh
  obtain ⟨heap₁, step₁⟩ : ∃ heap₁, heap₁ = heap.changeChild .left victim new (parentOf context) := ⟨_, rfl⟩
  obtain ⟨heap', step⟩ : ∃ heap', heap' = (((((setParentIf (setParentIf heap₁ (rootPtr left) new)
      (rootPtr right) new).setParent new (parentOf context)).setColor new color).setChild new .left
      (rootPtr left)).setChild new .right (rootPtr right)) := ⟨_, rfl⟩
  have same {other : Nat} (nonzero : other ≠ 0) (outside : other ∉ contextLabels context) :
      SameNode heap heap₁ other := by
    rw [step₁]
    exact ⟨by simp, by simp, fun s => changeChild_child (ne_parentOf nonzero outside)⟩
  have sameVictim := same pos victimContext
  have replaced : rbReplaceNode victim new heap = heap' := by
    have leftChild : heap₁.child .left victim = rootPtr left := (sameVictim.child .left).trans toLeft
    have rightChild : heap₁.child .right victim = rootPtr right := (sameVictim.child .right).trans toRight
    have victimParent :
      (setParentIf (setParentIf heap₁ (rootPtr left) new) (rootPtr right) new).parent victim =
        parentOf context := by
      simp [ne_rootPtr pos victimRight, ne_rootPtr pos victimLeft, sameVictim.parent, above]
    have victimColor : heap₁.color victim = color := sameVictim.color.trans colored
    rw [rbReplaceNode_eq, above, ← step₁]
    simp only [victimParent, setParentIf_color, victimColor, Heap.setColor_child, Heap.setParent_child,
      setParentIf_child, leftChild, rightChild]
    exact step.symm
  have kept {other : Nat} (nonzero : other ≠ 0) (notNew : other ≠ new) (notLeft : other ≠ rootPtr left)
      (notRight : other ≠ rootPtr right) : SameNode heap₁ heap' other := by
    rw [step]
    exact ⟨by simp [notNew, notLeft, notRight], by simp [notNew], fun s => by simp [notNew]⟩
  have subtree {part : ColorTree Nat} (rep : Rep heap victim part) (nodupPart : part.toList.Nodup)
      (isChild : rootPtr part = rootPtr right ∨ rootPtr part = rootPtr left)
      (outside : part.toList.Disjoint (contextLabels context)) (notNew : new ∉ part.toList)
      (apart : ∀ other ∈ part.toList, other ≠ 0 → other ≠ rootPtr part →
        other ≠ rootPtr left ∧ other ≠ rootPtr right) :
      Rep heap' new part := by
    refine rep.reparent nodupPart (fun other member pos notRoot => ?_) fun nonzeroPart => ?_
    · obtain ⟨notLeft, notRight⟩ := apart other member pos notRoot
      exact (same pos (outside member)).trans
        (kept pos (ne_of_mem_of_not_mem member notNew) notLeft notRight)
    · have member := rootPtr_mem nonzeroPart
      have different := ne_of_mem_of_not_mem member notNew
      have before := same nonzeroPart (outside member)
      rw [← before.color, step]
      refine ⟨?_, by simp [different], fun side => ?_⟩
      · rcases isChild with isRight | isLeft
        · simp [different, nonzeroPart, ← isRight]
        · simp [different, nonzeroPart, ← isLeft]
      · rw [← before.child]
        simp [different]
  rw [replaced]
  refine ⟨?_, ⟨nonzero, ?_, ?_, ?_, ?_, ?_, ?_⟩, ?_⟩
  · have held₁ : RepContext heap₁ context new := by
      rw [step₁]
      exact held.changeChild pos (nodup_cons.mpr ⟨victimContext, nodupContext⟩) .left new
    refine held₁.congr (fun other member pos => kept pos ?_ (ne_rootPtr pos fun inLeft => ?_)
      (ne_rootPtr pos fun inRight => ?_)) (by simp [step])
    · exact ne_of_mem_of_not_mem member newContext
    · exact leftContext inLeft member
    · exact rightContext inRight member
  · simp [step]
  · simp [step]
  · simp [step]
  · simp [step]
  · exact subtree repLeft nodupLeft (Or.inr rfl) leftContext newLeft
      fun other member pos notRoot => ⟨notRoot, ne_rootPtr pos (leftRight member)⟩
  · exact subtree repRight nodupRight (Or.inl rfl) rightContext newRight
      fun other member pos notRoot => ⟨ne_rootPtr pos fun inLeft => leftRight inLeft member, notRoot⟩
  · rw [ColorTree.join, ColorTree.toList, append_assoc, cons_append, nodup_middle, nodup_cons]
    refine ⟨?_, (nodup_cons.mp nodup).2⟩
    rw [mem_append, mem_append, not_or, not_or]
    exact ⟨newLeft, newRight, newContext⟩

/-- The new node in place of the victim. -/
def replace (victim new node : Nat) : Nat := if node = victim then new else node

/-- `rb_replace_node` keeps the shape, the colours and the order. -/
theorem rbReplaceNode_spec (held : IsRbTree heap tree) (mem : victim ∈ tree.toList)
    (nonzero : new ≠ 0) (fresh : new ∉ tree.toList) :
    IsRbTree (rbReplaceNode victim new heap) (tree.map (replace victim new)) := by
  obtain ⟨context, color, left, right, rfl⟩ := exists_plug .left mem
  obtain ⟨total, balanced⟩ := held.balanced
  have focus := rooted_iff_focus.mp held.rooted
  rw [(plug_perm _ _).mem_iff] at fresh
  have nodup := focus.nodup
  rw [ColorTree.join, ColorTree.toList, append_assoc, cons_append, nodup_middle, nodup_cons,
    mem_append, mem_append, not_or, not_or] at nodup
  obtain ⟨⟨notLeft, notRight, notContext⟩, _⟩ := nodup
  have fixed {labels : List Nat} (outside : victim ∉ labels) :
      ∀ node ∈ labels, replace victim new node = node :=
    fun node inside => if_neg (ne_of_mem_of_not_mem inside outside)
  have shape : (plug context (.join .left color victim left right)).map (replace victim new) =
      plug context (.join .left color new left right) := by
    rw [map_plug (fixed notContext), map_join, map_fixed (fixed notLeft), map_fixed (fixed notRight), replace,
      if_pos rfl]
  refine ⟨?_, total, balanced.map _⟩
  rw [shape]
  exact rooted_iff_focus.mpr (rbReplaceNode_focus focus nonzero fresh)

/-! ### The operations together -/

/-- On every heap that holds a red-black tree with consistent links, linking a new node and
`rb_insert_color`, `rb_erase` of a node of the tree and `rb_replace_node` end without an access through
`NULL`, with a red-black tree again, whose sequence has just that node put in, taken out or replaced. -/
theorem rbtree_correct (heap : Heap) (tree : ColorTree Nat) (held : IsRbTree heap tree) (rounds : Nat)
    (enough : tree.toList.length + 1 < rounds) :
    (∀ node link, node ≠ 0 → node ∉ tree.toList → FreeLink heap tree link →
      ∃ heap' tree', rbInsertColor rounds node (rbLinkNode node link heap) = some heap' ∧
        IsRbTree heap' tree' ∧ LinkedAt node tree.toList tree'.toList link) ∧
    (∀ node ∈ tree.toList, ∃ heap' tree', rbErase rounds node heap = some heap' ∧ IsRbTree heap' tree' ∧
      RemovedFrom node tree.toList tree'.toList) ∧
    ∀ victim ∈ tree.toList, ∀ new, new ≠ 0 → new ∉ tree.toList →
      IsRbTree (rbReplaceNode victim new heap) (tree.map (replace victim new)) ∧
        (tree.map (replace victim new)).toList = tree.toList.map (replace victim new) := by
  refine ⟨fun node link nonzero fresh free => ?_, fun node mem => rbErase_spec held mem enough,
    fun victim mem new nonzero fresh => ⟨rbReplaceNode_spec held mem nonzero fresh, toList_map _ _⟩⟩
  exact rbInsert_spec held free nonzero fresh (Nat.lt_of_succ_lt enough)

/-- Black nodes at the addresses 1 to 3 with the root at 2, and a red node 4 to the right of 3. -/
def fourNodes : Heap where
  parent node := if node = 2 then 0 else if node = 4 then 3 else 2
  color node := if node = 4 then .red else .black
  child
    | .left, 2 => 1
    | .right, 2 => 3
    | .right, 3 => 4
    | _, _ => 0
  root := 2

/-- The new node 5 makes 4 the parent of 3, and without the node 1 the root is 3. -/
theorem rbtree_correct_rotates :
    (∃ heap' tree', rbInsertColor 6 5 (rbLinkNode 5 (.child 4 .right) fourNodes) = some heap' ∧
      heap'.parent 3 = 4 ∧ IsRbTree heap' tree' ∧ LinkedAt 5 [1, 2, 3, 4] tree'.toList (.child 4 .right)) ∧
    (∃ heap' tree', rbErase 6 1 fourNodes = some heap' ∧ heap'.root = 3 ∧ IsRbTree heap' tree' ∧
      RemovedFrom 1 [1, 2, 3, 4] tree'.toList) ∧
    ∃ tree', IsRbTree (rbReplaceNode 2 5 fourNodes) tree' ∧ tree'.toList = [1, 5, 3, 4] := by
  have held : IsRbTree fourNodes
      (.node .black (.node .black .nil 1 .nil) 2 (.node .black .nil 3 (.node .red .nil 4 .nil))) :=
    ⟨⟨by simp [Rep, fourNodes, rootPtr], rfl, by decide⟩, 2,
      .black (.black .nil .nil) (.black .nil (.red .nil .nil))⟩
  obtain ⟨inserted, erased, replaced⟩ := rbtree_correct fourNodes _ held 6 (by decide)
  refine ⟨?_, ?_, _, replaced 2 (by decide) 5 (by decide) (by decide)⟩
  · obtain ⟨heap', tree', result, rest⟩ :=
      inserted 5 (.child 4 .right) (by decide) (by decide) ⟨by decide, rfl⟩
    have parent : some 4 = some (heap'.parent 3) :=
      congrArg (Option.map fun heap : Heap => heap.parent 3) result
    exact ⟨heap', tree', result, (some.inj parent).symm, rest⟩
  · obtain ⟨heap', tree', result, rest⟩ := erased 1 (by decide)
    have root : some 3 = some heap'.root := congrArg (Option.map Heap.root) result
    exact ⟨heap', tree', result, (some.inj root).symm, rest⟩

end LinuxKernel.Lib.Rbtree
