/-
Module: LinuxKernel.Net.NetlabelCatmap
Purpose: The category maps of `net/netlabel/netlabel_kapi.c`: a list of nodes for windows of 256 bits. A
  word of a bitmap is the array of its bits, and a result `none` is an access outside of the bitmap of a
  node.
Trusted boundary: human-reviewed spec
Main exports: catmapSetbit, catmapSetrng, catmapWalk, catmap_sets
-/
import LinuxKernel.Library.BoundedTable

namespace LinuxKernel.Net.Netlabel

open Function (update)
open Library (findNext)

/-- `NETLBL_CATMAP_MAPCNT`, `NETLBL_CATMAP_MAPSIZE` and `NETLBL_CATMAP_SIZE`. -/
def mapCnt : Nat := 4
def mapSize : Nat := 64
def catmapSize : Nat := mapSize * mapCnt

/-- `struct netlbl_lsm_secattr_catmap`, without its link. -/
structure Node where
  startbit : Nat
  bitmap : Nat → Nat → Bool

/-- The nodes from one on. -/
abbrev Catmap := List Node

/-- `bit - iter->startbit` in a `u32`. -/
def Node.spot (node : Node) (bit : Nat) : Nat := (bit + (2 ^ 32 - node.startbit)) % 2 ^ 32

/-! ### Setting -/

/-- The end of `netlbl_secattr_catmap_setbit`. -/
def Node.setbit (node : Node) (bit : Nat) : Option Node :=
  let nodeIdx := node.spot bit / mapSize
  let nodeBit := node.spot bit - mapSize * nodeIdx
  if nodeIdx < mapCnt then some { node with
    bitmap := update node.bitmap nodeIdx (update (node.bitmap nodeIdx) nodeBit true) }
  else none

/-- `netlbl_secattr_catmap_setbit`. -/
def catmapSetbit (bit : Nat) : Catmap → Option Catmap
  | [] => none
  | iter :: rest =>
    if bit ≥ iter.startbit + catmapSize then
      if rest = [] then (Node.setbit ⟨bit - bit % catmapSize, fun _ _ => false⟩ bit).map ([iter, ·])
      else (catmapSetbit bit rest).map (iter :: ·)
    else (iter.setbit bit).map (· :: rest)

/-- The loop of `netlbl_secattr_catmap_setrng`, with the number of rounds to go. -/
def setrngLoop : Nat → Nat → Catmap → Option Catmap
  | 0, _, map => some map
  | _ + 1, _, [] => none
  | count + 1, spot, iter :: rest =>
    if spot ≥ iter.startbit + catmapSize ∧ rest ≠ [] then do
      let rest ← catmapSetbit spot rest
      (setrngLoop count (spot + 1) rest).map (iter :: ·)
    else do
      let map ← catmapSetbit spot (iter :: rest)
      setrngLoop count (spot + 1) map

/-- `netlbl_secattr_catmap_setrng`. -/
def catmapSetrng (start end_ : Nat) : Catmap → Option Catmap
  | [] => none
  | iter :: rest =>
    if rest ≠ [] ∧ start ≥ iter.startbit + catmapSize then (catmapSetrng start end_ rest).map (iter :: ·)
    else setrngLoop (end_ + 1 - start) start (iter :: rest)

/-! ### Walking -/

/-- The nodes from the one that the walks start at, with the word and the bit, or `-ENOENT`. -/
def seek (offset : Nat) : Catmap → Option (Catmap × Nat × Nat)
  | [] => none
  | iter :: rest =>
    if offset ≥ iter.startbit + catmapSize then seek offset rest
    else
      let nodeIdx := iter.spot offset / mapSize
      some (iter :: rest, nodeIdx, iter.spot offset - mapSize * nodeIdx)

/-- The start of both walks. -/
def startAt (map : Catmap) (offset : Nat) : Option (Catmap × Nat × Nat) :=
  match map with
  | [] => none
  | iter :: rest => if offset > iter.startbit then seek offset (iter :: rest) else some (iter :: rest, 0, 0)

/-- The first bit of a node that passes a test, from a word and a bit on, or `NETLBL_CATMAP_SIZE`. -/
def scanWords (test : Nat → Nat → Bool) : Nat → Nat → Nat → Nat
  | 0, nodeIdx, _ => mapSize * nodeIdx
  | left + 1, nodeIdx, nodeBit =>
    let found := findNext (test nodeIdx) mapSize nodeBit
    if found < mapSize then mapSize * nodeIdx + found else scanWords test left (nodeIdx + 1) 0

/-- The loop of `netlbl_secattr_catmap_walk`. -/
def walkLoop : Catmap → Nat → Nat → Option Nat
  | [], _, _ => none
  | iter :: rest, nodeIdx, nodeBit =>
    let found := scanWords iter.bitmap (mapCnt - nodeIdx) nodeIdx nodeBit
    if found < catmapSize then some (iter.startbit + found) else walkLoop rest 0 0

/-- `netlbl_secattr_catmap_walk`; the inner `none` is `-ENOENT`. -/
def catmapWalk (map : Catmap) (offset : Nat) : Option (Option Nat) :=
  match startAt map offset with
  | none => some none
  | some (iter, nodeIdx, nodeBit) => if nodeIdx < mapCnt then some (walkLoop iter nodeIdx nodeBit) else none

/-- The loop of `netlbl_secattr_catmap_walk_rng`. -/
def walkRngLoop : Catmap → Nat → Nat → Int
  | [], _, _ => -1
  | iter :: rest, nodeIdx, nodeBit =>
    let found := scanWords (fun i j => !iter.bitmap i j) (mapCnt - nodeIdx) nodeIdx nodeBit
    if found < catmapSize then (iter.startbit + found : Nat) - 1
    else if rest = [] then (iter.startbit + catmapSize : Nat) - 1
    else walkRngLoop rest 0 0

/-- `netlbl_secattr_catmap_walk_rng`. -/
def catmapWalkRng (map : Catmap) (offset : Nat) : Option (Option Int) :=
  match startAt map offset with
  | none => some none
  | some (iter, nodeIdx, nodeBit) =>
    if nodeIdx < mapCnt then some (some (walkRngLoop iter nodeIdx nodeBit)) else none

/-! ### Calls -/

inductive Call where
  | setbit (bit : Nat)
  | setrng (start end_ : Nat)

def Call.run (map : Catmap) : Call → Option Catmap
  | .setbit bit => catmapSetbit bit map
  | .setrng start end_ => catmapSetrng start end_ map

/-- The calls on a node that was just allocated. -/
def runCalls (calls : List Call) : Option Catmap := calls.foldlM Call.run [⟨0, fun _ _ => false⟩]

open Library List Nat

variable {map map' rest : Catmap} {node : Node} {bit offset b : Nat}

/-- The first bit of the window of a bit. -/
def window (bit : Nat) : Nat := bit - bit % catmapSize

/-- The windows follow each other. -/
def Ordered (map : Catmap) : Prop :=
  map.Pairwise (fun a b => a.startbit + catmapSize ≤ b.startbit) ∧
    ∀ node ∈ map, window node.startbit = node.startbit ∧
    node.startbit < 2 ^ 31

/-- The bit at a place of the bitmap. -/
def Node.has (node : Node) (spot : Nat) : Bool := node.bitmap (spot / mapSize) (spot % mapSize)

/-- The bit is in the window of a node, and set there. -/
def Node.Member (node : Node) (b : Nat) : Prop :=
  node.startbit ≤ b ∧ b < node.startbit + catmapSize ∧ node.has (b - node.startbit) = true

/-- The bit is set in a map. -/
def Member (map : Catmap) (b : Nat) : Prop := ∃ node ∈ map, node.Member b

/-- The bit is in the window of a node, or behind all of them. -/
def Fits (map : Catmap) (bit : Nat) : Prop :=
  (∃ node ∈ map, node.startbit = window bit) ∨ ∀ node ∈ map, node.startbit + catmapSize ≤ bit

theorem catmapSize_eq : catmapSize = 256 := rfl

theorem window_spec (bit : Nat) :
    window bit ≤ bit ∧ bit < window bit + catmapSize ∧ window bit % catmapSize = 0 := by
  rw [window, catmapSize_eq]
  omega

theorem Ordered.aligned (ordered : Ordered map) (mem : node ∈ map) : node.startbit % catmapSize = 0 := by
  rw [← (ordered.2 node mem).1]
  exact (window_spec _).2.2

theorem ordered_cons : Ordered (node :: rest) ↔
    ((∀ other ∈ rest, node.startbit + catmapSize ≤ other.startbit) ∧
    window node.startbit = node.startbit ∧ node.startbit < 2 ^ 31) ∧ Ordered rest := by
  rw [Ordered, pairwise_cons, forall_mem_cons, Ordered]
  grind

theorem member_cons : Member (node :: rest) b ↔ node.Member b ∨ Member rest b := by
  simp only [Member, mem_cons, exists_eq_or_imp]

theorem fits_cons_of_le (passed : node.startbit + catmapSize ≤ bit) :
    Fits (node :: rest) bit ↔ Fits rest bit := by
  have other : node.startbit ≠ window bit := by
    have := window_spec bit
    omega
  simp only [Fits, mem_cons, exists_eq_or_imp, other, false_or, forall_eq_or_imp, passed, true_and]

theorem member_cons_of_le (passed : node.startbit + catmapSize ≤ b) :
    Member (node :: rest) b ↔ Member rest b := by
  rw [member_cons, or_iff_right fun here => absurd here.2.1 (not_lt.mpr passed)]

/-- In front of the end of the first window, a bit fits only there. -/
theorem Ordered.fits_cons (ordered : Ordered (node :: rest)) (inside : bit < node.startbit + catmapSize) :
    Fits (node :: rest) bit ↔ node.startbit = window bit := by
  obtain ⟨⟨apart, -⟩, -⟩ := ordered_cons.mp ordered
  have low := window_spec bit
  constructor
  · rintro (⟨other, mem, same⟩ | all)
    · rcases mem_cons.mp mem with rfl | later
      · exact same
      · have := apart other later
        omega
    · exact absurd (all node mem_cons_self) (not_le.mpr inside)
  · exact fun same => .inl ⟨node, mem_cons_self, same⟩

/-! ### Setting -/

theorem Node.spot_eq (reached : node.startbit ≤ bit) (low : bit < 2 ^ 32) :
    node.spot bit = bit - node.startbit := by
  rw [Node.spot]
  omega

/-- A bit in the window of a node is set. -/
theorem Node.setbit_inside (reached : node.startbit ≤ bit) (inside : bit < node.startbit + catmapSize)
    (low : bit < 2 ^ 31) :
    ∃ node', node.setbit bit = some node' ∧ node'.startbit = node.startbit ∧ ∀ b, node'.Member b ↔
      node.Member b ∨ b = bit := by
  have spot := Node.spot_eq reached (lt_trans low (by decide))
  rw [catmapSize_eq] at inside
  have idx : node.spot bit / mapSize < mapCnt := by
    rw [mapSize, mapCnt]
    omega
  refine ⟨_, if_pos idx, rfl, fun b => ?_⟩
  simp only [Node.Member, Node.has, spot, catmapSize_eq, mapSize]
  by_cases here : b = bit
  · subst here
    have same : (b - node.startbit) % 64 = b - node.startbit - 64 * ((b - node.startbit) / 64) := by omega
    simp [reached, inside, ← same]
  · by_cases word : (b - node.startbit) / 64 = (bit - node.startbit) / 64
    · by_cases reach : node.startbit ≤ b
      · have other :
            (b - node.startbit) % 64 ≠ bit - node.startbit - 64 * ((bit - node.startbit) / 64) := by omega
        simp [here, word, other]
      · simp [here, reach]
    · simp [here, word]

/-- One below it is outside of the bitmap. -/
theorem Node.setbit_below (under : bit < node.startbit) (small : node.startbit < 2 ^ 31) :
    node.setbit bit = none := by
  refine if_neg ?_
  rw [Node.spot, mapSize, mapCnt]
  omega

/-- What setting a bit makes of a map. -/
structure Sets (map : Catmap) (bit : Nat) (map' : Catmap) : Prop where
  ordered : Ordered map'
  head : map'.head?.map Node.startbit = map.head?.map Node.startbit
  windows : ∀ s, s ∈ map'.map Node.startbit ↔ s ∈ map.map Node.startbit ∨ s = window bit
  member : ∀ b, Member map' b ↔ Member map b ∨ b = bit

theorem catmapSetbit_spec (ordered : Ordered map) (nonempty : map ≠ []) (low : bit < 2 ^ 31) :
    (Fits map bit → ∃ map', catmapSetbit bit map = some map' ∧ Sets map bit map') ∧
      (¬ Fits map bit → catmapSetbit bit map = none) := by
  have place := window_spec bit
  induction map with
  | nil => exact absurd rfl nonempty
  | cons iter rest ih =>
    obtain ⟨⟨apart, aligned, small⟩, tail⟩ := ordered_cons.mp ordered
    rw [catmapSetbit]
    by_cases passed : bit ≥ iter.startbit + catmapSize
    · rw [if_pos passed, fits_cons_of_le passed]
      have behind : iter.startbit + catmapSize ≤ window bit := by
        have := ordered.aligned mem_cons_self
        rw [catmapSize_eq] at *
        omega
      cases rest with
      | nil =>
        obtain ⟨new, set, start, mem⟩ :=
          @Node.setbit_inside ⟨window bit, fun _ _ => false⟩ _ place.1 place.2.1 low
        have windowEq : window new.startbit = new.startbit := by
          rw [start, window, place.2.2, Nat.sub_zero]
        refine ⟨fun _ =>
          ⟨[iter, new], (if_pos rfl).trans (congrArg _ set), ⟨?_, rfl, fun s => ?_, fun b => ?_⟩⟩,
            fun none => ?_⟩
        · refine ordered_cons.mpr ⟨⟨by simpa [start] using behind, aligned, small⟩, ?_⟩
          exact ordered_cons.mpr ⟨⟨nofun, windowEq, start.symm ▸ lt_of_le_of_lt place.1 low⟩, tail⟩
        · simp [start]
        · have empty : ¬ Node.Member ⟨window bit, fun _ _ => false⟩ b :=
            fun inside => Bool.false_ne_true inside.2.2
          rw [member_cons, member_cons, member_cons, mem]
          grind
        · exact absurd (.inr nofun) none
      | cons next more =>
        obtain ⟨sets, fails⟩ := ih tail (cons_ne_nil _ _)
        refine ⟨fun fits => ?_, fun gap => by rw [fails gap]; rfl⟩
        obtain ⟨rest', set, inner⟩ := sets fits
        refine ⟨iter :: rest', by rw [set]; rfl, ⟨?_, rfl, fun s => ?_, fun b => ?_⟩⟩
        · refine ordered_cons.mpr ⟨⟨fun other mem => ?_, aligned, small⟩, inner.ordered⟩
          rcases (inner.windows _).mp (mem_map_of_mem mem) with old | new
          · obtain ⟨before, found, same⟩ := mem_map.mp old
            exact same ▸ apart before found
          · exact new ▸ behind
        · rw [map_cons, map_cons, mem_cons, inner.windows, mem_cons, or_assoc]
        · rw [member_cons, member_cons, inner.member, or_assoc]
    · rw [if_neg passed, ordered.fits_cons (Nat.lt_of_not_le passed)]
      by_cases reached : iter.startbit ≤ bit
      · have here : iter.startbit = window bit := by
          have := ordered.aligned mem_cons_self
          rw [catmapSize_eq] at *
          omega
        refine ⟨fun _ => ?_, fun other => absurd here other⟩
        obtain ⟨iter', set, start, mem⟩ := Node.setbit_inside reached (Nat.lt_of_not_le passed) low
        refine ⟨iter' :: rest, by rw [set]; rfl, ⟨?_, by simp [start], fun s => ?_, fun b => ?_⟩⟩
        · exact ordered_cons.mpr ⟨by rw [start]; exact ⟨apart, aligned, small⟩, tail⟩
        · simp only [map_cons, mem_cons, start, here]
          grind
        · rw [member_cons, member_cons, mem]
          grind
      · refine ⟨fun here => absurd (here ▸ place.1) reached, fun _ => ?_⟩
        rw [Node.setbit_below (Nat.lt_of_not_le reached) small]
        rfl

/-! ### Ranges -/

/-- Setting bits one after the other. -/
def setbits (bits : List Nat) (map : Catmap) : Option Catmap :=
  bits.foldlM (fun map bit => catmapSetbit bit map) map

variable {iter : Node} {count spot idx last : Nat}

theorem catmapSetbit_skip (passed : bit ≥ iter.startbit + catmapSize) (more : rest ≠ []) :
    catmapSetbit bit (iter :: rest) = (catmapSetbit bit rest).map (iter :: ·) := by
  rw [catmapSetbit, if_pos passed, if_neg more]

theorem catmapSetbit_ne_nil (set : catmapSetbit bit map = some map') : map' ≠ [] := by
  cases map with
  | nil => cases set
  | cons iter rest =>
    rw [catmapSetbit] at set
    split_ifs at set
    all_goals
      obtain ⟨_, -, rfl⟩ := Option.map_eq_some_iff.mp set
      exact cons_ne_nil _ _

theorem setbits_ne_nil {bits : List Nat} (nonempty : map ≠ []) (set : setbits bits map = some map') :
    map' ≠ [] := by
  induction bits generalizing map with
  | nil => exact Option.some.inj set ▸ nonempty
  | cons bit bits ih =>
    obtain ⟨middle, first, rest⟩ := Option.bind_eq_some_iff.mp set
    exact ih (catmapSetbit_ne_nil first) rest

theorem setbits_skip (passed : spot ≥ iter.startbit + catmapSize) (more : rest ≠ []) :
    setbits (List.range' spot count)
    (iter :: rest) = (setbits (List.range' spot count) rest).map (iter :: ·) := by
  induction count generalizing spot rest with
  | zero => rfl
  | succ count ih =>
    rw [range'_succ, setbits, setbits, foldlM_cons, foldlM_cons, catmapSetbit_skip passed more]
    cases set : catmapSetbit spot rest with
    | none => rfl
    | some rest' => exact ih (le_succ_of_le passed) (catmapSetbit_ne_nil set)

theorem setrngLoop_eq (nonempty : map ≠ []) :
    setrngLoop count spot map = setbits (List.range' spot count) map := by
  induction count generalizing spot map with
  | zero => rfl
  | succ count ih =>
    cases map with
    | nil => exact absurd rfl nonempty
    | cons iter rest =>
      rw [setrngLoop, range'_succ, setbits, foldlM_cons]
      split_ifs with moves
      · rw [catmapSetbit_skip moves.1 moves.2]
        cases set : catmapSetbit spot rest with
        | none => rfl
        | some rest' =>
          have more := catmapSetbit_ne_nil set
          exact (congrArg _ (ih more)).trans (setbits_skip (le_succ_of_le moves.1) more).symm
      · cases set : catmapSetbit spot (iter :: rest) with
        | none => rfl
        | some map' => exact ih (catmapSetbit_ne_nil set)

/-- A range is set as if its bits were set one after the other. -/
theorem catmapSetrng_eq {start end_ : Nat} (nonempty : map ≠ []) :
    catmapSetrng start end_ map = setbits (List.range' start (end_ + 1 - start)) map := by
  induction map with
  | nil => exact absurd rfl nonempty
  | cons iter rest ih =>
    rw [catmapSetrng]
    split_ifs with skips
    · rw [ih skips.1, setbits_skip skips.2 skips.1]
    · exact setrngLoop_eq nonempty

/-! ### Walking -/

theorem scanWords_isNext (test : Nat → Nat → Bool) {left bit : Nat} (words : idx + left = mapCnt)
    (inside : bit < mapSize) :
    IsNext (fun k => test (k / mapSize) (k % mapSize)) catmapSize (mapSize * idx + bit)
      (scanWords test left idx bit) := by
  rw [catmapSize_eq]
  rw [mapCnt] at words
  rw [mapSize] at inside ⊢
  induction left generalizing idx bit with
  | zero =>
    rw [scanWords, mapSize]
    exact ⟨by omega, by omega, fun i low high => by omega, by omega⟩
  | succ left ih =>
    have word := findNext_isNext (test idx) 64 bit
    have start := word.offset_le (by omega)
    have place {k : Nat} (low : 64 * idx ≤ k) (high : k < 64 * idx + 64) :
        k / 64 = idx ∧ k % 64 = k - 64 * idx := by omega
    have skipped (i : Nat) (low : 64 * idx + bit ≤ i) (high : i < 64 * idx + findNext (test idx) 64 bit) :
        test (i / 64) (i % 64) = false := by
      obtain ⟨quotient, remainder⟩ := @place i (by omega) (by have := word.le_size; omega)
      rw [quotient]
      exact word.skipped _ (by omega) (by omega)
    rw [scanWords, mapSize]
    split_ifs with found
    · refine ⟨by omega, fun _ => by omega, skipped, fun _ => ?_⟩
      obtain ⟨quotient, remainder⟩ := @place (64 * idx + findNext (test idx) 64 bit) (by omega) (by omega)
      rw [quotient, remainder, Nat.add_sub_cancel_left]
      exact word.passes found
    · have rest := @ih (idx + 1) 0 (by omega) (by decide)
      refine ⟨rest.le_size, fun _ => ?_, fun i low high => ?_, rest.passes⟩
      · have := rest.offset_le (by omega)
        omega
      · by_cases here : i < 64 * idx + 64
        · exact skipped i low (by omega)
        · exact rest.skipped i (by omega) high

/-- What a search for the first bit of a set from an offset on has found. -/
def FirstFrom (set : Nat → Prop) (offset : Nat) : Option Nat → Prop
  | some b => set b ∧ offset ≤ b ∧ ∀ c, set c → offset ≤ c → b ≤ c
  | none => ∀ c, set c → c < offset

theorem FirstFrom.congr {set set' : Nat → Prop} {offset' : Nat} {found : Option Nat}
    (first : FirstFrom set' offset' found)
    (same : ∀ c, (set c ∧ offset ≤ c) ↔ (set' c ∧ offset' ≤ c)) : FirstFrom set offset found := by
  cases found with
  | none => exact fun c mem => Nat.lt_of_not_le fun low =>
    not_lt.mpr ((same c).mp ⟨mem, low⟩).2 (first c ((same c).mp ⟨mem, low⟩).1)
  | some b =>
    obtain ⟨mem, low⟩ := (same b).mpr ⟨first.1, first.2.1⟩
    exact ⟨mem, low, fun c other from_ =>
      first.2.2 c ((same c).mp ⟨other, from_⟩).1 ((same c).mp ⟨other, from_⟩).2⟩

variable (ordered : Ordered (node :: rest))

include ordered

/-- The bits of the other nodes are behind the first window. -/
theorem Ordered.member_rest (mem : Member rest b) : node.startbit + catmapSize ≤ b := by
  obtain ⟨other, inRest, low, -⟩ := mem
  exact le_trans ((ordered_cons.mp ordered).1.1 other inRest) low

theorem Ordered.member_head (mem : Member (node :: rest) b) : node.startbit ≤ b := by
  rcases member_cons.mp mem with here | later
  · exact here.1
  · exact le_trans (le_add_right _ _) (ordered.member_rest later)

/-- In its own window, the first node decides. -/
theorem Ordered.member_window (low : node.startbit ≤ b) (high : b < node.startbit + catmapSize) :
    Member (node :: rest) b ↔ node.has (b - node.startbit) = true := by
  rw [member_cons, or_iff_left fun later => absurd (ordered.member_rest later) (not_le.mpr high)]
  exact ⟨fun mem => mem.2.2, fun set => ⟨low, high, set⟩⟩

theorem walkLoop_step (word : idx < mapCnt) (inside : bit < mapSize)
    (further : FirstFrom (Member rest) (node.startbit + catmapSize) (walkLoop rest 0 0)) :
    FirstFrom (Member (node :: rest)) (node.startbit + (mapSize * idx + bit))
      (walkLoop (node :: rest) idx bit) := by
  have next := scanWords_isNext node.bitmap (add_sub_of_le (le_of_lt word)) inside
  have first := next.offset_le (by rw [catmapSize_eq]; rw [mapSize, mapCnt] at *; omega)
  have size := next.le_size
  have passed (c : Nat) (mem : Member (node :: rest) c) (low : node.startbit + (mapSize * idx + bit) ≤ c) :
      node.startbit + scanWords node.bitmap (mapCnt - idx) idx bit ≤ c := by
    by_contra less
    have clear := next.skipped (c - node.startbit) (by omega) (by omega)
    have set := (ordered.member_window (by omega) (by omega)).mp mem
    exact Bool.false_ne_true (clear.symm.trans set)
  rw [walkLoop]
  split_ifs with found
  · refine ⟨(ordered.member_window (by omega) (by omega)).mpr ?_, by omega, passed⟩
    rw [Nat.add_sub_cancel_left]
    exact next.passes found
  · refine further.congr fun c => ⟨fun ⟨mem, low⟩ => ?_, fun ⟨mem, low⟩ => ?_⟩
    · have behind : node.startbit + catmapSize ≤ c := by
        have := passed c mem low
        omega
      exact ⟨(member_cons_of_le behind).mp mem, behind⟩
    · exact ⟨(member_cons_of_le low).mpr mem, by omega⟩

theorem walkLoop_spec (word : idx < mapCnt) (inside : bit < mapSize) :
    FirstFrom (Member (node :: rest)) (node.startbit + (mapSize * idx + bit))
      (walkLoop (node :: rest) idx bit) := by
  induction rest generalizing node idx bit with
  | nil => exact walkLoop_step ordered word inside nofun
  | cons next more ih =>
    obtain ⟨⟨apart, -⟩, tail⟩ := ordered_cons.mp ordered
    refine walkLoop_step ordered word inside ((ih tail (by decide) (by decide : 0 < mapSize)).congr fun c =>
      ?_)
    refine and_congr_right fun mem => iff_of_true (ordered.member_rest mem) (tail.member_head mem)

omit ordered

/-- A run that fills the window of a node goes on in the next node, which then begins there. -/
theorem Ordered.next_start {next : Node} (ordered : Ordered (node :: next :: rest))
    (behind : node.startbit + catmapSize ≤ last + 1)
    (run : node.startbit + catmapSize ≤ last → Member (next :: rest) (node.startbit + catmapSize))
    (fits : Fits (next :: rest) (last + 1)) : next.startbit = node.startbit + catmapSize := by
  obtain ⟨⟨apart, -⟩, tail⟩ := ordered_cons.mp ordered
  have after := apart next mem_cons_self
  by_cases ends : node.startbit + catmapSize ≤ last
  · exact le_antisymm (tail.member_head (run ends)) after
  · have start := (tail.fits_cons (by rw [catmapSize_eq] at *; omega)).mp fits
    have := window_spec (last + 1)
    omega

include ordered

section

variable (word : idx < mapCnt) (inside : bit < mapSize)
  (reaches : node.startbit + (mapSize * idx + bit) ≤ last + 1)
  (run : ∀ b, node.startbit + (mapSize * idx + bit) ≤ b → b ≤ last → Member (node :: rest) b)
  (stops : ¬ Member (node :: rest) (last + 1))
include word inside reaches run stops

/-- One node of the walk along a run, when the rest of it is known. -/
theorem walkRngLoop_step (further : node.startbit + catmapSize ≤ last + 1 →
      (if rest = [] then ((node.startbit + catmapSize : Nat) : Int) - 1 else walkRngLoop rest 0 0) = last) :
    walkRngLoop (node :: rest) idx bit = last := by
  have scan := scanWords_isNext (fun i j => !node.bitmap i j) (add_sub_of_le (le_of_lt word)) inside
  have first := scan.offset_le (by rw [catmapSize_eq]; rw [mapSize, mapCnt] at *; omega)
  have size := scan.le_size
  -- the run does not end before the first bit that is clear
  have reached : node.startbit + scanWords (fun i j => !node.bitmap i j) (mapCnt - idx) idx bit ≤
      last + 1 := by
    by_contra less
    have set := scan.skipped (last + 1 - node.startbit) (by omega) (by omega)
    exact stops ((ordered.member_window (by omega) (by omega)).mpr (by simpa [Node.has] using set))
  rw [walkRngLoop]
  by_cases found : scanWords (fun i j => !node.bitmap i j) (mapCnt - idx) idx bit < catmapSize
  · have ends : last < node.startbit + scanWords (fun i j => !node.bitmap i j) (mapCnt - idx) idx bit := by
      by_contra more
      have set := (ordered.member_window (by omega) (by omega)).mp (run _ (by omega) (not_lt.mp more))
      rw [Nat.add_sub_cancel_left, Node.has] at set
      simpa [set] using scan.passes found
    omega
  · rw [if_neg found]
    exact further (by omega)

theorem walkRngLoop_spec (fits : Fits (node :: rest) (last + 1)) :
    walkRngLoop (node :: rest) idx bit = last := by
  have from_ : node.startbit + (mapSize * idx + bit) ≤ node.startbit + catmapSize := by
    rw [catmapSize_eq]
    rw [mapSize, mapCnt] at *
    omega
  induction rest generalizing node idx bit with
  | nil =>
    refine walkRngLoop_step ordered word inside reaches run stops fun behind => ?_
    have ends : last < node.startbit + catmapSize := by
      by_contra more
      exact nomatch (member_cons_of_le (le_refl _)).mp (run _ from_ (not_lt.mp more))
    rw [if_pos rfl]
    omega
  | cons next more ih =>
    refine walkRngLoop_step ordered word inside reaches run stops fun behind => ?_
    have later := (fits_cons_of_le behind).mp fits
    have start := ordered.next_start behind
      (fun ends => (member_cons_of_le (le_refl _)).mp (run _ from_ ends)) later
    refine ih (ordered_cons.mp ordered).2 (by decide) (by decide) (by omega) (fun b low high => ?_)
      (mt (member_cons_of_le behind).mpr stops) later (by omega)
    exact (member_cons_of_le (by omega)).mp (run b (by omega) high)

end

omit ordered

/-- Where the walks start. -/
theorem seek_spec (ordered : Ordered map) (fits : Fits map offset) (low : offset < 2 ^ 32) :
    (seek offset map = none ∧ ∀ b, Member map b → b < offset) ∨
      ∃ node rest, node.startbit = window offset ∧ Ordered (node :: rest) ∧
        seek offset map = some (node :: rest, (offset - node.startbit) / mapSize,
          offset - node.startbit - mapSize * ((offset - node.startbit) / mapSize)) ∧
        ∀ b ≥ offset, (Member map b ↔ Member (node :: rest) b) ∧ (Fits map b ↔ Fits (node :: rest) b) := by
  induction map with
  | nil => exact .inl ⟨rfl, nofun⟩
  | cons iter more ih =>
    obtain ⟨-, tail⟩ := ordered_cons.mp ordered
    rw [seek]
    split_ifs with passed
    · have same (b : Nat) (from_ : b ≥ offset) := @member_cons_of_le more _ b (le_trans passed from_)
      rcases ih tail ((fits_cons_of_le passed).mp fits) with
        ⟨none, below⟩ | ⟨node, rest, start, ordered', found, rest_⟩
      · refine .inl ⟨none, fun b mem => Nat.lt_of_not_le fun from_ => ?_⟩
        exact Nat.not_lt.mpr from_ (below b ((same b from_).mp mem))
      · refine .inr ⟨node, rest, start, ordered', found, fun b from_ => ?_⟩
        rw [same b from_, fits_cons_of_le (le_trans passed from_)]
        exact rest_ b from_
    · have here := (ordered.fits_cons (Nat.lt_of_not_le passed)).mp fits
      refine .inr ⟨iter, more, here, ordered, ?_, fun b _ => ⟨Iff.rfl, Iff.rfl⟩⟩
      rw [Node.spot_eq (here ▸ (window_spec offset).1) low]

/-! ### Sets of bits -/

/-- The bits of a call, in the order in which they are set. -/
def Call.bits : Call → List Nat
  | .setbit bit => [bit]
  | .setrng start end_ => List.range' start (end_ + 1 - start)

/-- The window of the bit is the first one, or one of those used, or behind all of them. -/
def Covered (used : List Nat) (bit : Nat) : Prop :=
  window bit = 0 ∨ window bit ∈ used.map window ∨ ∀ a ∈ used, window a < window bit

/-- No bit falls between the windows of the bits that were set before it. -/
def NoGaps : List Nat → List Nat → Prop
  | _, [] => True
  | used, bit :: bits => Covered used bit ∧ NoGaps (bit :: used) bits

/-- The map is the set of the bits. -/
structure Denotes (map : Catmap) (bits : List Nat) : Prop where
  ordered : Ordered map
  head : map.head?.map Node.startbit = some 0
  windows : ∀ s, s ∈ map.map Node.startbit ↔ s = 0 ∨ s ∈ bits.map window
  member : ∀ b, Member map b ↔ b ∈ bits

variable {bits : List Nat}

theorem Denotes.fits_iff (denotes : Denotes map bits) : Fits map bit ↔ Covered bits bit := by
  have inWindow : (∃ node ∈ map, node.startbit = window bit) ↔ window bit = 0 ∨
      window bit ∈ bits.map window := by
    rw [← denotes.windows, mem_map]
  have behind : (∀ node ∈ map, node.startbit + catmapSize ≤ bit) ↔ 0 < window bit ∧
      ∀ a ∈ bits, window a < window bit := by
    have less (s : Nat) (aligned : s % catmapSize = 0) : s + catmapSize ≤ bit ↔ s < window bit := by
      have := window_spec bit
      rw [catmapSize_eq] at *
      omega
    calc (∀ node ∈ map, node.startbit + catmapSize ≤ bit) ↔ ∀ s ∈ map.map Node.startbit, s < window bit := by
          rw [forall_mem_map]
          exact forall₂_congr fun node mem => less _ (denotes.ordered.aligned mem)
      _ ↔ _ := by
          simp only [denotes.windows, forall_eq_or_imp, forall_mem_map]
  rw [Fits, inWindow, behind, Covered]
  by_cases first : window bit = 0
  · simp [first]
  · simp [first, Nat.pos_of_ne_zero first]

theorem setbits_append (first second : List Nat) (map : Catmap) :
    setbits (first ++ second) map = (setbits first map).bind (setbits second) := foldlM_append

theorem runCalls_eq (calls : List Call) :
    runCalls calls = setbits (calls.flatMap Call.bits) [⟨0, fun _ _ => false⟩] := by
  rw [runCalls]
  generalize start : ([⟨0, fun _ _ => false⟩] : Catmap) = map
  have nonempty : map ≠ [] := start ▸ cons_ne_nil _ _
  clear start
  induction calls generalizing map with
  | nil => rfl
  | cons call calls ih =>
    have one : call.run map = setbits call.bits map := by
      cases call with
      | setbit bit => exact (Option.bind_fun_some _).symm
      | setrng start end_ => exact catmapSetrng_eq nonempty
    rw [foldlM_cons, flatMap_cons, setbits_append, one]
    cases set : setbits call.bits map with
    | none => rfl
    | some map' => exact ih map' (setbits_ne_nil nonempty set)

theorem setbits_spec (denotes : Denotes map bits) {more : List Nat} (small : ∀ bit ∈ more, bit < 2 ^ 31) :
    (NoGaps bits more → ∃ map', setbits more map = some map' ∧ Denotes map' (more.reverse ++ bits)) ∧
      (¬ NoGaps bits more → setbits more map = none) := by
  induction more generalizing map bits with
  | nil => exact ⟨fun _ => ⟨map, rfl, denotes⟩, fun gap => absurd trivial gap⟩
  | cons bit more ih =>
    obtain ⟨low, small⟩ := forall_mem_cons.mp small
    have nonempty : map ≠ [] := by
      rintro rfl
      cases denotes.head
    obtain ⟨sets, fails⟩ := catmapSetbit_spec denotes.ordered nonempty low
    rw [denotes.fits_iff] at sets fails
    rw [setbits, foldlM_cons]
    by_cases covered : Covered bits bit
    · obtain ⟨map', set, result⟩ := sets covered
      have next : Denotes map' (bit :: bits) := by
        refine ⟨result.ordered, result.head.trans denotes.head, fun s => ?_, fun b => ?_⟩
        · rw [result.windows, denotes.windows, map_cons, mem_cons]
          grind
        · rw [result.member, denotes.member, mem_cons, or_comm]
      rw [set]
      obtain ⟨later, never⟩ := ih next small
      refine ⟨fun noGaps => ?_, fun gap => never fun noGaps => gap ⟨covered, noGaps⟩⟩
      obtain ⟨last, done, denotes'⟩ := later noGaps.2
      exact ⟨last, done, by simpa using denotes'⟩
    · rw [fails covered]
      exact ⟨fun noGaps => absurd noGaps.1 covered, fun _ => rfl⟩

theorem Denotes.startAt_eq (denotes : Denotes map bits) (offset : Nat) :
    startAt map offset = seek offset map := by
  cases map with
  | nil => rfl
  | cons iter rest =>
    have first : iter.startbit = 0 := Option.some.inj denotes.head
    rw [startAt]
    split_ifs with positive
    · rfl
    · obtain rfl : offset = 0 := by omega
      rw [seek, Node.spot, first]
      rfl

theorem Denotes.walks (denotes : Denotes map bits) (low : offset < 2 ^ 32) (covered : Covered bits offset) :
    (∃ found, catmapWalk map offset = some found ∧ FirstFrom (· ∈ bits) offset found) ∧
      ∀ last, offset ≤ last → (∀ b, offset ≤ b → b ≤ last → b ∈ bits) → last + 1 ∉ bits →
        Covered bits (last + 1) →
        catmapWalkRng map offset = some (some (last : Int)) := by
  rw [catmapWalk, catmapWalkRng, denotes.startAt_eq]
  rcases seek_spec denotes.ordered (denotes.fits_iff.mpr covered) low with
    ⟨none, below⟩ | ⟨node, rest, start, ordered, found, same⟩
  · rw [none]
    refine ⟨⟨_, rfl, fun c mem => below c ((denotes.member c).mpr mem)⟩, fun last reaches run _ _ => ?_⟩
    exact absurd (below offset ((denotes.member _).mpr (run offset (le_refl _) reaches))) (lt_irrefl _)
  · have place := window_spec offset
    have word : (offset - node.startbit) / mapSize < mapCnt := by
      rw [catmapSize_eq] at place
      rw [mapSize, mapCnt]
      omega
    have inside : offset - node.startbit - mapSize * ((offset - node.startbit) / mapSize) < mapSize := by
      rw [mapSize]
      omega
    have here : node.startbit + (mapSize * ((offset - node.startbit) / mapSize) +
        (offset - node.startbit - mapSize * ((offset - node.startbit) / mapSize))) = offset := by
      rw [mapSize]
      omega
    rw [found]
    dsimp only
    rw [if_pos word, if_pos word]
    constructor
    · have first := walkLoop_spec ordered word inside
      rw [here] at first
      refine ⟨_, rfl, first.congr fun c => and_congr_left fun from_ => ?_⟩
      rw [← denotes.member, (same c from_).1]
    · intro last reaches run stops covers
      have mem (b : Nat) (from_ : offset ≤ b) : Member (node :: rest) b ↔ b ∈ bits := by
        rw [← denotes.member, (same b from_).1]
      have after : offset ≤ last + 1 := le_succ_of_le reaches
      rw [walkRngLoop_spec ordered word inside (by rw [here]; exact after)
        (fun b from_ => by rw [here] at from_; exact fun until_ => (mem b from_).mpr (run b from_ until_))
        (mt (mem _ after).mp stops) ((same _ after).2.mp (denotes.fits_iff.mpr covers))]

/-- Setting bits and ranges of bits succeeds just if no bit falls between the windows of two nodes, and then
  the map is the set of these bits in order. Both walks are right where they do not come to such a place
  either. -/
theorem catmap_sets (calls : List Call) (small : ∀ bit ∈ calls.flatMap Call.bits, bit < 2 ^ 31) :
    ((runCalls calls).isSome ↔ NoGaps [] (calls.flatMap Call.bits)) ∧ ∀ map, runCalls calls = some map →
      Ordered map ∧ (∀ b, Member map b ↔ b ∈ calls.flatMap Call.bits) ∧
      ∀ offset < 2 ^ 32, Covered (calls.flatMap Call.bits) offset →
        (∃ found, catmapWalk map offset = some found ∧ FirstFrom (· ∈ calls.flatMap Call.bits) offset found) ∧
        ∀ last, offset ≤ last → (∀ b, offset ≤ b → b ≤ last → b ∈ calls.flatMap Call.bits) →
          last + 1 ∉ calls.flatMap Call.bits → Covered (calls.flatMap Call.bits) (last + 1) →
          catmapWalkRng map offset = some (some (last : Int)) := by
  have fresh : Denotes [⟨0, fun _ _ => false⟩] [] := by
    refine ⟨ordered_cons.mpr ⟨⟨nofun, rfl, by decide⟩, .nil, nofun⟩, rfl, fun s => by simp, fun b => ?_⟩
    simp [Member, Node.Member, Node.has]
  obtain ⟨sets, fails⟩ := setbits_spec fresh small
  rw [runCalls_eq]
  by_cases noGaps : NoGaps [] (calls.flatMap Call.bits)
  · obtain ⟨map, set, denotes⟩ := sets noGaps
    have same : Denotes map (calls.flatMap Call.bits) := by
      exact ⟨denotes.ordered, denotes.head, by simpa using denotes.windows, by simpa using denotes.member⟩
    rw [set]
    refine ⟨iff_of_true rfl noGaps, fun map' eq => ?_⟩
    cases eq
    exact ⟨same.ordered, same.member, fun offset low covered => same.walks low covered⟩
  · rw [fails noGaps]
    exact ⟨iff_of_false Bool.false_ne_true noGaps, nofun⟩

/-- A bit, a range over two windows, and a bit of the first window again. -/
theorem catmap_sets_windows : ∃ map, runCalls [.setbit 3, .setrng 254 257, .setbit 7] = some map ∧
    (∀ b, Member map b ↔ b ∈ [3, 254, 255, 256, 257, 7]) ∧ catmapWalkRng map 254 = some (some 257) := by
  have spec := catmap_sets [.setbit 3, .setrng 254 257, .setbit 7] (by decide)
  obtain ⟨map, set⟩ :=
    Option.isSome_iff_exists.mp (show (runCalls [.setbit 3, .setrng 254 257, .setbit 7]).isSome by
    decide)
  have sets := spec.2 map set
  refine ⟨map, set, sets.2.1,
    (sets.2.2 254 (by decide) (.inl (by decide))).2 257 (by decide) (fun b low high => ?_) (by decide)
    (.inr (.inl (by decide)))⟩
  obtain rfl | rfl | rfl | rfl : b = 254 ∨ b = 255 ∨ b = 256 ∨ b = 257 := by omega
  all_goals decide

/-- A bit between two windows is written outside of the bitmap. -/
theorem catmap_gap : runCalls [.setbit 512, .setbit 300] = none ∧
    (runCalls [.setbit 512]).bind (catmapWalk · 300) = none ∧
    (runCalls [.setbit 255, .setbit 512]).bind (catmapWalkRng · 255) = some (some 512) := by
  decide

end LinuxKernel.Net.Netlabel
