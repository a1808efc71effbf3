/-
Module: LinuxKernel.Net.IpFragment
Purpose: `ip_frag_queue` of `net/ipv4/ip_fragment.c` for a queue that is not reset, with allocations that
  succeed: the call of `ip_frag_reasm` is an outcome. The buffers are disjoint pieces of the payload that
  hold what was received, so that their length tells whether all of it was.
Trusted boundary: human-reviewed spec
Main exports: ipFragQueue, Gathered, ipFrag_order_independent
-/
import Mathlib

namespace LinuxKernel.Net.IpFragment

variable {Byte : Type*}

/-- A buffer of the queue with the offset of its first byte, `FRAG_CB(skb)->offset`. -/
structure Skb (Byte : Type*) where
  offset : Nat
  data : List Byte
deriving DecidableEq, Repr

/-- The end of a buffer. -/
def Skb.stop (skb : Skb Byte) : Nat := skb.offset + skb.data.length

/-- `struct ipq`: the flags of `last_in` are separate. -/
structure Ipq (Byte : Type*) where
  complete : Bool
  firstIn : Bool
  lastIn : Bool
  len : Int
  meat : Int
  fragments : List (Skb Byte)
deriving DecidableEq, Repr

/-- An empty queue. -/
def Ipq.init : Ipq Byte :=
  { complete := false, firstIn := false, lastIn := false, len := 0, meat := 0, fragments := [] }

/-- A packet behind its header: the offset in units of 8 bytes, `IP_MF`, and the payload. -/
structure Packet (Byte : Type*) where
  fragOff : Nat
  mf : Bool
  payload : List Byte
deriving DecidableEq, Repr

/-- Error numbers of this function. -/
inductive Errno where
  | enoent
  | einval
  | einprogress
deriving DecidableEq, Repr

/-- An error, or the call of `ip_frag_reasm` on the list. -/
inductive Outcome where
  | error (number : Errno)
  | reasm
deriving DecidableEq, Repr

/-- The end of the data that is used, and the length the datagram is known to have; `none` is a corrupted
packet. -/
def knownLength (qp : Ipq Byte) (packet : Packet Byte) : Option (Nat × Ipq Byte) :=
  let stop := packet.fragOff * 8 + packet.payload.length
  if packet.mf = false then
    if stop < qp.len ∨ (qp.lastIn ∧ stop ≠ qp.len) then none
    else some (stop, { qp with lastIn := true, len := stop })
  else
    let stop := stop / 8 * 8
    if stop > qp.len then if qp.lastIn then none else some (stop, { qp with len := stop })
    else some (stop, qp)

/-- The loop over the buffers behind: those that the new one covers are dropped, and one is cut. The number
  is what `meat` loses. -/
def eatNext (stop : Nat) : List (Skb Byte) → List (Skb Byte) × Nat
  | [] => ([], 0)
  | next :: rest =>
    if next.offset < stop then
      let i := stop - next.offset
      if i < next.data.length then ({ offset := next.offset + i, data := next.data.drop i } :: rest, i)
      else ((eatNext stop rest).1, next.data.length + (eatNext stop rest).2)
    else (next :: rest, 0)

/-- The last part: the buffer goes between `prev` and `next`, and the datagram may be complete. -/
def insertSkb (qp : Ipq Byte) (before : List (Skb Byte)) (skb : Skb Byte) (rest : List (Skb Byte)) :
    Ipq Byte × Outcome :=
  let (rest, eaten) := eatNext skb.stop rest
  let qp := { qp with
    fragments := before ++ skb :: rest
    meat := qp.meat - eaten + skb.data.length
    firstIn := qp.firstIn || skb.offset = 0 }
  if qp.firstIn ∧ qp.lastIn ∧ qp.meat = qp.len then ({ qp with complete := true }, .reasm)
  else (qp, .error .einprogress)

/-- `ip_frag_queue`. `ip_frag_reasm` begins with `ipq_kill`, which sets `INET_FRAG_COMPLETE`. -/
def ipFragQueue (qp : Ipq Byte) (packet : Packet Byte) : Ipq Byte × Outcome :=
  if qp.complete then (qp, .error .enoent)
  else
    match knownLength qp packet with
    | none => (qp, .error .einval)
    | some (stop, qp) =>
      let offset := packet.fragOff * 8
      if stop = offset then (qp, .error .einval)
      else
        let data := packet.payload.take (stop - offset)
        let before := qp.fragments.takeWhile (·.offset < offset)
        let rest := qp.fragments.dropWhile (·.offset < offset)
        match before.getLast? with
        | none => insertSkb qp before { offset, data } rest
        | some prev =>
          let i := prev.stop - offset
          if stop ≤ offset + i then (qp, .error .einval)
          else insertSkb qp before { offset := offset + i, data := data.drop i } rest

open List

variable {payload : List Byte} {list before rest : List (Skb Byte)} {low i : Nat}

/-! ### Pieces of the payload -/

/-- The buffer holds the bytes of the payload from its offset on. -/
structure Piece (payload : List Byte) (skb : Skb Byte) : Prop where
  nonempty : 0 < skb.data.length
  inside : skb.stop ≤ payload.length
  data : skb.data = (payload.drop skb.offset).take skb.data.length

/-- Some buffer holds the byte at the position. -/
def Held (list : List (Skb Byte)) (i : Nat) : Prop := ∃ skb ∈ list, skb.offset ≤ i ∧ i < skb.stop

/-- The length of the buffers. -/
def total (list : List (Skb Byte)) : Nat := (list.map (·.data.length)).sum

theorem total_cons (skb : Skb Byte) (rest : List (Skb Byte)) :
    total (skb :: rest) = skb.data.length + total rest :=
  sum_cons

theorem total_append (before rest : List (Skb Byte)) :
    total (before ++ rest) = total before + total rest := by
  rw [total, map_append, sum_append]
  rfl

theorem held_cons {skb : Skb Byte} :
    Held (skb :: rest) i ↔ (skb.offset ≤ i ∧ i < skb.stop) ∨ Held rest i := by
  simp [Held]

theorem held_append : Held (before ++ rest) i ↔ Held before i ∨ Held rest i := by
  simp [Held, or_and_right, exists_or]

/-- What the buffers from a position on hold is all there is exactly when they are long enough. -/
theorem total_spec (ordered : list.Pairwise (·.stop ≤ ·.offset)) (pieces : ∀ skb ∈ list, Piece payload skb)
    (above : ∀ skb ∈ list, low ≤ skb.offset) (bound : low ≤ payload.length) :
    low + total list ≤ payload.length ∧
      (low + total list = payload.length ↔ ∀ i, low ≤ i → i < payload.length → Held list i) ∧
      (low + total list = payload.length → list.flatMap (·.data) = payload.drop low) := by
  induction list generalizing low with
  | nil =>
    refine ⟨bound, ⟨fun full i first second => ?_, fun all => ?_⟩, fun full => ?_⟩
    · simp only [total, map_nil, sum_nil] at full
      omega
    · by_contra short
      obtain ⟨skb, mem, -⟩ := all low (Nat.le_refl _) (Nat.lt_of_le_of_ne bound short)
      exact not_mem_nil mem
    · exact (drop_eq_nil_of_le (Nat.le_of_eq full.symm)).symm
  | cons skb rest ih =>
    obtain ⟨behind, ordered⟩ := pairwise_cons.mp ordered
    have piece := pieces skb mem_cons_self
    have start := above skb mem_cons_self
    have stopEq : skb.stop = skb.offset + skb.data.length := rfl
    have nonempty := piece.nonempty
    obtain ⟨most, full, joined⟩ := ih ordered (fun other mem => pieces other (mem_cons_of_mem _ mem)) behind
      piece.inside
    rw [total_cons]
    refine ⟨by omega, ⟨fun whole i first second => ?_, fun all => ?_⟩, fun whole => ?_⟩
    · by_cases here : i < skb.stop
      · exact held_cons.mpr (.inl ⟨by omega, here⟩)
      · exact held_cons.mpr (.inr (full.mp (by omega) i (Nat.not_lt.mp here) second))
    · have rest : skb.stop + total rest = payload.length := full.mpr fun i first second => by
        rcases held_cons.mp (all i (by omega) second) with here | later
        · omega
        · exact later
      rcases held_cons.mp (all low (Nat.le_refl _) (by omega)) with here | ⟨other, mem, le, -⟩
      · omega
      · have := behind other mem
        omega
    · obtain rfl : low = skb.offset := by omega
      rw [flatMap_cons, joined (by omega), piece.data, stopEq, ← drop_drop]
      exact take_append_drop _ _

/-- The buffers from the first one that does not start below a bound on. -/
theorem le_of_mem_dropWhile (ordered : list.Pairwise (·.stop ≤ ·.offset)) :
    ∀ skb ∈ list.dropWhile (·.offset < low), low ≤ skb.offset := by
  induction list with
  | nil => exact fun skb mem => absurd mem not_mem_nil
  | cons first rest ih =>
    obtain ⟨behind, ordered⟩ := pairwise_cons.mp ordered
    by_cases below : first.offset < low
    · rw [dropWhile_cons_of_pos (by simpa using below)]
      exact ih ordered
    · rw [dropWhile_cons_of_neg (by simpa using below)]
      refine forall_mem_cons.mpr ⟨Nat.not_lt.mp below, fun skb mem => ?_⟩
      have := behind skb mem
      simp only [Skb.stop] at this
      omega

/-- The part of a piece from a position inside it on. -/
theorem Piece.drop {skb : Skb Byte} (piece : Piece payload skb) (shorter : i < skb.data.length) :
    Piece payload { offset := skb.offset + i, data := skb.data.drop i } := by
  have inside := piece.inside
  simp only [Skb.stop] at inside
  refine ⟨by simpa using Nat.sub_pos_of_lt shorter, ?_, ?_⟩
  · simp only [Skb.stop, length_drop]
    omega
  · rw [length_drop, ← drop_drop, ← drop_take, ← piece.data]

/-! ### The buffers behind -/

/-- The buffers behind the new one lose what is before its end. -/
theorem eatNext_spec {stop : Nat} (ordered : rest.Pairwise (·.stop ≤ ·.offset))
    (pieces : ∀ skb ∈ rest, Piece payload skb) :
    (eatNext stop rest).1.Pairwise (·.stop ≤ ·.offset) ∧
      (∀ skb ∈ (eatNext stop rest).1, Piece payload skb ∧ stop ≤ skb.offset) ∧
      total (eatNext stop rest).1 + (eatNext stop rest).2 = total rest ∧
      ∀ i, Held (eatNext stop rest).1 i ↔ stop ≤ i ∧ Held rest i := by
  induction rest with
  | nil => simp [eatNext, Held]
  | cons next rest ih =>
    obtain ⟨behind, orderedRest⟩ := pairwise_cons.mp ordered
    have piece := pieces next mem_cons_self
    have stopEq : next.stop = next.offset + next.data.length := rfl
    have later : ∀ skb ∈ rest, Piece payload skb ∧ next.stop ≤ skb.offset := fun skb mem =>
      ⟨pieces skb (mem_cons_of_mem _ mem), behind skb mem⟩
    have heldLater {i : Nat} (held : Held rest i) : next.stop ≤ i := by
      obtain ⟨skb, mem, le, -⟩ := held
      exact Nat.le_trans (later skb mem).2 le
    simp only [eatNext]
    split_ifs with overlaps cut
    · refine ⟨pairwise_cons.mpr ⟨fun skb mem => ?_, orderedRest⟩, fun skb mem => ?_, ?_, fun i => ?_⟩
      · have := (later skb mem).2
        simp only [Skb.stop, length_drop] at this ⊢
        omega
      · rcases mem_cons.mp mem with rfl | mem
        · refine ⟨piece.drop cut, ?_⟩
          dsimp only
          omega
        · exact ⟨(later skb mem).1, by have := (later skb mem).2; omega⟩
      · simp only [total_cons, length_drop]
        omega
      · rw [held_cons, held_cons]
        simp only [Skb.stop, length_drop] at stopEq heldLater ⊢
        constructor
        · rintro (here | held)
          · exact ⟨by omega, .inl (by omega)⟩
          · exact ⟨by have := heldLater held; omega, .inr held⟩
        · rintro ⟨above, here | held⟩
          · omega
          · exact .inr held
    · obtain ⟨ordered', pieces', total', held'⟩ := ih orderedRest fun skb mem => (later skb mem).1
      refine ⟨ordered', pieces', ?_, fun i => ?_⟩
      · rw [total_cons]
        dsimp only
        omega
      · rw [held_cons, held' i]
        constructor
        · exact fun both => ⟨both.1, .inr both.2⟩
        · rintro ⟨above, here | held⟩
          · omega
          · exact ⟨above, held⟩
    · refine ⟨ordered, fun skb mem => ⟨pieces skb mem, ?_⟩, rfl, fun i => ⟨fun held => ⟨?_, held⟩, And.right⟩⟩
      · rcases mem_cons.mp mem with rfl | mem
        · omega
        · have := (later skb mem).2
          omega
      · rcases held_cons.mp held with here | held
        · omega
        · have := heldLater held
          omega

/-! ### The queue -/

/-- Where a packet ends. -/
def Packet.stop (packet : Packet Byte) : Nat := packet.fragOff * 8 + packet.payload.length

/-- The packet is a fragment of the payload; it may be empty. -/
structure Packet.Cut (payload : List Byte) (packet : Packet Byte) : Prop where
  inside : packet.stop ≤ payload.length
  data : packet.payload = (payload.drop (packet.fragOff * 8)).take packet.payload.length
  aligned : 8 ∣ packet.stop ∨ packet.stop = payload.length
  last : packet.mf = false ↔ packet.stop = payload.length

/-- The packets hold the whole payload. -/
def Covers (payload : List Byte) (packets : List (Packet Byte)) : Prop :=
  ∀ i < payload.length, ∃ packet ∈ packets, packet.fragOff * 8 ≤ i ∧ i < packet.stop

/-- The test at the end of `ip_frag_queue`. -/
def Ipq.Whole (qp : Ipq Byte) : Prop := qp.firstIn = true ∧ qp.lastIn = true ∧ qp.meat = qp.len

/-- What holds of a queue after some packets. -/
structure Gathered (payload : List Byte) (received : List (Packet Byte)) (qp : Ipq Byte) : Prop where
  ordered : qp.fragments.Pairwise (·.stop ≤ ·.offset)
  pieces : ∀ skb ∈ qp.fragments, Piece payload skb
  meat : qp.meat = total qp.fragments
  len : qp.len ≤ payload.length
  lastLen : qp.lastIn = true → qp.len = payload.length
  first : qp.firstIn = true ↔ Held qp.fragments 0
  last : (∃ packet ∈ received, packet.mf = false) → qp.lastIn = true
  held : ∀ i, Held qp.fragments i ↔ ∃ packet ∈ received, packet.fragOff * 8 ≤ i ∧ i < packet.stop

/-- What the queue learns from the end of a packet. -/
structure Learned (payload : List Byte) (packet : Packet Byte) (qp qp' : Ipq Byte) : Prop where
  complete : qp'.complete = qp.complete
  firstIn : qp'.firstIn = qp.firstIn
  meat : qp'.meat = qp.meat
  fragments : qp'.fragments = qp.fragments
  len : qp'.len ≤ payload.length
  lastLen : qp'.lastIn = true → qp'.len = payload.length
  last : qp.lastIn = true ∨ packet.mf = false → qp'.lastIn = true

variable {received : List (Packet Byte)} {packet : Packet Byte} {qp qp' : Ipq Byte} {skb : Skb Byte}

/-- A fragment is not taken for a corrupted packet. -/
theorem Gathered.knownLength (gathered : Gathered payload received qp) (cut : packet.Cut payload) :
    ∃ qp', knownLength qp packet = some (packet.stop, qp') ∧ Learned payload packet qp qp' := by
  have len := gathered.len
  have stopEq : packet.fragOff * 8 + packet.payload.length = packet.stop := rfl
  have inside := cut.inside
  simp only [IpFragment.knownLength, stopEq]
  cases mf : packet.mf with
  | false =>
    have whole := cut.last.mp mf
    rw [if_pos rfl, if_neg]
    · exact ⟨_, rfl, rfl, rfl, rfl, rfl, by dsimp only; omega, fun _ => by dsimp only; omega, fun _ => rfl⟩
    · rintro (below | ⟨lastIn, other⟩)
      · omega
      · have := gathered.lastLen lastIn
        omega
  | true =>
    have aligned : 8 ∣ packet.stop :=
      cut.aligned.resolve_right fun whole => by simp [cut.last.mpr whole] at mf
    rw [if_neg (by simp), Nat.div_mul_cancel aligned]
    split_ifs with longer lastIn
    · have := gathered.lastLen lastIn
      omega
    · exact ⟨_, rfl, rfl, rfl, rfl, rfl, by dsimp only; omega, fun lastIn' => absurd lastIn' lastIn,
        fun either => either.resolve_right (by simp [mf])⟩
    · exact ⟨_, rfl, rfl, rfl, rfl, rfl, len, gathered.lastLen, fun either =>
        either.resolve_right (by simp [mf])⟩

/-- One more packet covers its own positions. -/
theorem covered_append : (∃ other ∈ received ++ [packet], other.fragOff * 8 ≤ i ∧ i < other.stop) ↔
    (∃ other ∈ received, other.fragOff * 8 ≤ i ∧ i < other.stop) ∨
      (packet.fragOff * 8 ≤ i ∧ i < packet.stop) := by
  simp

/-- The test for completeness is right. -/
theorem Gathered.complete_iff (gathered : Gathered payload received qp)
    (cuts : ∀ packet ∈ received, packet.Cut payload) :
    qp.Whole ↔ 0 < payload.length ∧ Covers payload received := by
  obtain ⟨-, full, -⟩ :=
    total_spec gathered.ordered gathered.pieces (fun _ _ => Nat.zero_le _) (Nat.zero_le _)
  have meat := gathered.meat
  constructor
  · rintro ⟨first, last, same⟩
    have := gathered.lastLen last
    obtain ⟨skb, mem, -, lt⟩ := gathered.first.mp first
    refine ⟨Nat.lt_of_lt_of_le lt (gathered.pieces skb mem).inside, fun i below => ?_⟩
    exact (gathered.held i).mp (full.mp (by omega) i (Nat.zero_le i) below)
  · rintro ⟨nonempty, covers⟩
    obtain ⟨final, finalMember, -, finalLt⟩ := covers (payload.length - 1) (by omega)
    have inside := (cuts final finalMember).inside
    have lastIn := gathered.last ⟨final, finalMember, (cuts final finalMember).last.mpr (by omega)⟩
    have whole := full.mpr fun i _ below => (gathered.held i).mpr (covers i below)
    have := gathered.lastLen lastIn
    exact ⟨gathered.first.mpr ((gathered.held 0).mpr (covers 0 nonempty)), lastIn, by omega⟩

theorem Gathered.lastIn (gathered : Gathered payload received qp) (learned : Learned payload packet qp qp') :
    (∃ other ∈ received ++ [packet], other.mf = false) → qp'.lastIn = true := by
  rintro ⟨other, mem, mf⟩
  rcases mem_append.mp mem with mem | mem
  · exact learned.last (.inl (gathered.last ⟨other, mem, mf⟩))
  · rw [mem_singleton.mp mem] at mf
    exact learned.last (.inr mf)

/-- The buffer holds what the packet adds to the buffers before its place. -/
structure Fits (payload : List Byte) (packet : Packet Byte) (before rest : List (Skb Byte))
    (skb : Skb Byte) : Prop where
  piece : Piece payload skb
  stop : skb.stop = packet.stop
  start : packet.fragOff * 8 ≤ skb.offset
  beforeStop : ∀ other ∈ before, other.stop ≤ skb.offset
  skipped : ∀ i, packet.fragOff * 8 ≤ i → i < skb.offset → Held before i
  restStart : ∀ other ∈ rest, packet.fragOff * 8 ≤ other.offset

/-- The list with the buffer holds what the packet has, too. -/
theorem Fits.held_iff (fits : Fits payload packet before rest skb)
    (eaten : ∀ i, Held (eatNext skb.stop rest).1 i ↔ skb.stop ≤ i ∧ Held rest i) :
    Held (before ++ skb :: (eatNext skb.stop rest).1) i ↔
      Held (before ++ rest) i ∨ (packet.fragOff * 8 ≤ i ∧ i < packet.stop) := by
  have start := fits.start
  rw [held_append, held_append, held_cons, eaten, fits.stop]
  constructor
  · rintro (left | here | right)
    · exact .inl (.inl left)
    · exact .inr ⟨Nat.le_trans start here.1, here.2⟩
    · exact .inl (.inr right.2)
  · rintro ((left | right) | here)
    · exact .inl left
    · by_cases behind : packet.stop ≤ i
      · exact .inr (.inr ⟨behind, right⟩)
      · obtain ⟨other, mem, le, -⟩ := right
        have := fits.restStart other mem
        by_cases skip : i < skb.offset
        · exact .inl (fits.skipped i (by omega) skip)
        · exact .inr (.inl (by omega))
    · by_cases skip : i < skb.offset
      · exact .inl (fits.skipped i here.1 skip)
      · exact .inr (.inl ⟨by omega, here.2⟩)

/-- The list with the buffer is sorted and disjoint. -/
theorem Fits.ordered (fits : Fits payload packet before rest skb)
    (ordered : (before ++ rest).Pairwise (·.stop ≤ ·.offset))
    {behind : List (Skb Byte)} (orderedBehind : behind.Pairwise (·.stop ≤ ·.offset))
    (behindStart : ∀ other ∈ behind, skb.stop ≤ other.offset) :
    (before ++ skb :: behind).Pairwise (·.stop ≤ ·.offset) := by
  refine pairwise_append.mpr ⟨(pairwise_append.mp ordered).1,
    pairwise_cons.mpr ⟨behindStart, orderedBehind⟩, fun one mem other later => ?_⟩
  have := fits.beforeStop one mem
  rcases mem_cons.mp later with rfl | later
  · exact this
  · have := behindStart other later
    have : skb.stop = skb.offset + skb.data.length := rfl
    omega

section

variable (gathered : Gathered payload received qp)

include gathered

/-- A fragment that is not dropped goes between the buffers before it and those behind it. -/
theorem Gathered.insertSkb (parts : qp.fragments = before ++ rest)
    (learned : Learned payload packet qp qp') (opened : qp.complete = false)
    (fits : Fits payload packet before rest skb) :
    Gathered payload (received ++ [packet]) (insertSkb qp' before skb rest).1 ∧
      ((insertSkb qp' before skb rest).2 = .reasm ↔ (insertSkb qp' before skb rest).1.complete = true) ∧
      ((insertSkb qp' before skb rest).1.complete = true ↔ (insertSkb qp' before skb rest).1.Whole) := by
  have lastAll := gathered.lastIn learned
  obtain ⟨ordered, pieces, meat, -, -, first, -, held⟩ := gathered
  obtain ⟨complete, firstIn, sameMeat, -, len, lastLen, -⟩ := learned
  rw [opened] at complete
  rw [parts] at ordered pieces meat held first
  obtain ⟨orderedEaten, piecesEaten, totalEaten, heldEaten⟩ := eatNext_spec
    (pairwise_append.mp ordered).2.1 fun other mem => pieces other (mem_append_right _ mem)
  have orderedAll := fits.ordered ordered orderedEaten fun other mem => (piecesEaten other mem).2
  have piecesAll : ∀ other ∈ before ++ skb :: (eatNext skb.stop rest).1, Piece payload other := by
    exact forall_mem_append.mpr ⟨(forall_mem_append.mp pieces).1,
      forall_mem_cons.mpr ⟨fits.piece, fun other mem => (piecesEaten other mem).1⟩⟩
  have meatAll : qp'.meat - (eatNext skb.stop rest).2 + skb.data.length =
      total (before ++ skb :: (eatNext skb.stop rest).1) := by
    rw [total_append] at meat ⊢
    rw [total_cons]
    omega
  have heldAll (i : Nat) : Held (before ++ skb :: (eatNext skb.stop rest).1) i ↔
      ∃ other ∈ received ++ [packet], other.fragOff * 8 ≤ i ∧ i < other.stop := by
    rw [covered_append, ← held i, fits.held_iff heldEaten]
  have firstAll : (qp'.firstIn || decide (skb.offset = 0)) = true ↔
      Held (before ++ skb :: (eatNext skb.stop rest).1) 0 := by
    rw [firstIn, Bool.or_eq_true, first, decide_eq_true_iff]
    constructor
    · rintro (old | zero)
      · exact (fits.held_iff heldEaten).mpr (.inl old)
      · have := fits.piece.nonempty
        exact held_append.mpr
          (.inr (held_cons.mpr (.inl ⟨Nat.le_of_eq zero, by simp only [Skb.stop]; omega⟩)))
    · rw [held_append, held_append, held_cons, heldEaten]
      rintro (left | here | right)
      · exact .inl (.inl left)
      · exact .inr (Nat.le_zero.mp here.1)
      · exact .inl (.inr right.2)
  simp only [IpFragment.insertSkb]
  split_ifs with whole
  · exact ⟨⟨orderedAll, piecesAll, meatAll, len, lastLen, firstAll, lastAll,
      heldAll⟩, by simp, by simpa [Ipq.Whole] using whole⟩
  · exact ⟨⟨orderedAll, piecesAll, meatAll, len, lastLen, firstAll, lastAll, heldAll⟩, by simp [complete],
      by simpa [Ipq.Whole, complete] using whole⟩

/-- A fragment that adds nothing is dropped. -/
theorem Gathered.dropped (learned : Learned payload packet qp qp')
    (inside : ∀ i, packet.fragOff * 8 ≤ i → i < packet.stop → Held qp.fragments i) :
    Gathered payload (received ++ [packet]) qp' ∧
      (Covers payload (received ++ [packet]) → Covers payload received) := by
  have lastAll := gathered.lastIn learned
  obtain ⟨ordered, pieces, meat, -, -, first, -, held⟩ := gathered
  obtain ⟨-, firstIn, sameMeat, fragments, len, lastLen, -⟩ := learned
  have again (i : Nat) : (∃ other ∈ received ++ [packet], other.fragOff * 8 ≤ i ∧ i < other.stop) ↔
      ∃ other ∈ received, other.fragOff * 8 ≤ i ∧ i < other.stop := by
    rw [covered_append, or_iff_left_of_imp]
    exact fun here => (held i).mp (inside i here.1 here.2)
  refine ⟨?_, fun covers i below => (again i).mp (covers i below)⟩
  rw [← fragments] at ordered pieces meat first held
  exact ⟨ordered,
    pieces, by rwa [sameMeat], len, lastLen, by rwa [firstIn], lastAll, fun i => by rw [held i, again]⟩

theorem Gathered.queue (cut : packet.Cut payload) (opened : qp.complete = false) :
    Gathered payload (received ++ [packet]) (ipFragQueue qp packet).1 ∧
      ((ipFragQueue qp packet).2 = .reasm ↔ (ipFragQueue qp packet).1.complete = true) ∧
      (((ipFragQueue qp packet).1.complete = true ↔ (ipFragQueue qp packet).1.Whole) ∨
        (ipFragQueue qp packet).1.complete = false ∧
          (Covers payload (received ++ [packet]) → Covers payload received)) := by
  obtain ⟨qp', known, learned⟩ := gathered.knownLength cut
  have complete := learned.complete
  rw [opened] at complete
  have stopEq : packet.stop = packet.fragOff * 8 + packet.payload.length := rfl
  simp only [ipFragQueue, opened, known, Bool.false_eq_true, if_false]
  split_ifs with empty
  · obtain ⟨next, back⟩ := gathered.dropped learned fun i _ _ => by omega
    exact ⟨next, by simp [complete], .inr ⟨complete, back⟩⟩
  · obtain ⟨before, beforeEq⟩ :
      ∃ before, before = qp.fragments.takeWhile (·.offset < packet.fragOff * 8) := ⟨_, rfl⟩
    obtain ⟨rest, restEq⟩ : ∃ rest, rest = qp.fragments.dropWhile (·.offset < packet.fragOff * 8) := ⟨_, rfl⟩
    have parts : qp.fragments = before ++ rest := by rw [beforeEq, restEq, takeWhile_append_dropWhile]
    have ordered := gathered.ordered
    rw [parts] at ordered
    have beforeStart : ∀ other ∈ before, other.offset < packet.fragOff * 8 := by
      intro other mem
      rw [beforeEq] at mem
      simpa using mem_takeWhile_imp mem
    have restStart : ∀ other ∈ rest, packet.fragOff * 8 ≤ other.offset := by
      rw [restEq]
      exact le_of_mem_dropWhile gathered.ordered
    have piece : Piece payload { offset := packet.fragOff * 8, data := packet.payload } :=
      ⟨by dsimp only; omega, cut.inside, cut.data⟩
    have data : packet.payload.take (packet.stop - packet.fragOff * 8) = packet.payload :=
      take_of_length_le (by omega)
    rw [learned.fragments, ← beforeEq, ← restEq, data]
    cases prevEq : before.getLast? with
    | none =>
      rw [getLast?_eq_none_iff] at prevEq
      have fits : Fits payload packet before rest { offset := packet.fragOff * 8, data := packet.payload } :=
        ⟨piece, rfl, Nat.le_refl _, by simp [prevEq], fun i le lt => absurd lt (Nat.not_lt.mpr le), restStart⟩
      obtain ⟨next, reasm, whole⟩ := gathered.insertSkb parts learned opened fits
      exact ⟨next, reasm, .inl whole⟩
    | some prev =>
      obtain ⟨front, rfl⟩ := getLast?_eq_some_iff.mp prevEq
      have prevStart := beforeStart prev (by simp)
      have heldPrev (i : Nat) (le : packet.fragOff * 8 ≤ i) (lt : i < prev.stop) : Held (front ++ [prev]) i :=
        ⟨prev, by simp, by omega, lt⟩
      dsimp only
      split_ifs with covered
      · obtain ⟨next, back⟩ := gathered.dropped learned fun i le lt => by
          rw [parts]
          exact held_append.mpr (.inl (heldPrev i le (by omega)))
        exact ⟨next, by simp [complete], .inr ⟨complete, back⟩⟩
      · obtain ⟨i, iEq⟩ : ∃ i, i = prev.stop - packet.fragOff * 8 := ⟨_, rfl⟩
        rw [← iEq]
        have shorter : i < packet.payload.length := by omega
        have beforeStop : ∀ other ∈ front ++ [prev], other.stop ≤ packet.fragOff * 8 + i := by
          intro other mem
          rcases mem_append.mp mem with mem | mem
          · have := (pairwise_append.mp (pairwise_append.mp ordered).1).2.2 other mem prev (by simp)
            omega
          · rw [mem_singleton.mp mem]
            omega
        have fits : Fits payload packet (front ++ [prev]) rest
            { offset := packet.fragOff * 8 + i, data := packet.payload.drop i } :=
          ⟨piece.drop shorter, by simp only [Skb.stop, length_drop]; omega, Nat.le_add_right _ _, beforeStop,
            fun j le lt => heldPrev j le (by dsimp only at lt; omega), restStart⟩
        obtain ⟨next, reasm, whole⟩ := gathered.insertSkb parts learned opened fits
        exact ⟨next, reasm, .inl whole⟩

end

/-! ### All arrival orders -/

/-- The queue after the packets. -/
def queueAll (packets : List (Packet Byte)) : Ipq Byte :=
  packets.foldl (fun qp packet => (ipFragQueue qp packet).1) .init

theorem queueAll_snoc : queueAll (received ++ [packet]) = (ipFragQueue (queueAll received) packet).1 :=
  foldl_concat ..

/-- One fragment: the queue still holds what was received, and reassembly starts when this is all for the
first time. -/
theorem Gathered.step (gathered : Gathered payload received qp)
    (cuts : ∀ other ∈ received ++ [packet], other.Cut payload)
    (complete : qp.complete = true ↔ 0 < payload.length ∧ Covers payload received) :
    Gathered payload (received ++ [packet]) (ipFragQueue qp packet).1 ∧
      ((ipFragQueue qp packet).1.complete = true ↔ 0 < payload.length ∧
        Covers payload (received ++ [packet])) ∧
      ((ipFragQueue qp packet).2 = .reasm ↔ ¬ Covers payload received ∧
        Covers payload (received ++ [packet])) := by
  have cut := cuts packet (by simp)
  have receivedCut : ∀ other ∈ received, other.Cut payload :=
    fun other mem => cuts other (mem_append_left _ mem)
  have more (covers : Covers payload received) : Covers payload (received ++ [packet]) := fun i below =>
    covered_append.mpr (.inl (covers i below))
  cases opened : qp.complete with
  | true =>
    obtain ⟨nonempty, covers⟩ := complete.mp opened
    obtain ⟨-, lastIn, -⟩ := (gathered.complete_iff receivedCut).mpr ⟨nonempty, covers⟩
    have learned : Learned payload packet qp qp :=
      ⟨rfl, rfl, rfl, rfl, gathered.len, gathered.lastLen, fun _ => lastIn⟩
    have next := (gathered.dropped learned fun i _ lt =>
      (gathered.held i).mpr (covers i (Nat.lt_of_lt_of_le lt cut.inside))).1
    simp only [ipFragQueue, opened, if_true]
    exact ⟨next, ⟨fun _ => ⟨nonempty, more covers⟩, fun _ => trivial⟩, by simp [covers]⟩
  | false =>
    obtain ⟨next, reasm, either⟩ := gathered.queue cut opened
    have open_ : ¬ (0 < payload.length ∧ Covers payload received) :=
      fun both => by simp [complete.mpr both] at opened
    have now : (ipFragQueue qp packet).1.complete = true ↔ 0 < payload.length ∧
        Covers payload (received ++ [packet]) := by
      rcases either with whole | ⟨still, back⟩
      · rw [whole, next.complete_iff cuts]
      · simp only [still, Bool.false_eq_true, false_iff]
        exact fun both => open_ ⟨both.1, back both.2⟩
    refine ⟨next, now, ?_⟩
    rw [reasm, now]
    constructor
    · exact fun both => ⟨fun covers => open_ ⟨both.1, covers⟩, both.2⟩
    · rintro ⟨uncovered, covers⟩
      refine ⟨Nat.pos_of_ne_zero fun zero => uncovered fun i below => ?_, covers⟩
      omega

/-- After any fragments. -/
theorem gathered_queueAll (cuts : ∀ packet ∈ received, packet.Cut payload) :
    Gathered payload received (queueAll received) ∧
      ((queueAll received).complete = true ↔ 0 < payload.length ∧ Covers payload received) := by
  induction received using reverseRecOn with
  | nil =>
    refine ⟨⟨.nil, by simp [queueAll, Ipq.init], rfl, Int.natCast_nonneg _, nofun, ?_, ?_, ?_⟩, ?_⟩
    · simp [Held, queueAll, Ipq.init]
    · simp
    · simp [Held, queueAll, Ipq.init]
    · simp only [queueAll, foldl_nil, Ipq.init, Bool.false_eq_true, false_iff]
      rintro ⟨nonempty, covers⟩
      obtain ⟨packet, mem, -⟩ := covers 0 nonempty
      exact not_mem_nil mem
  | append_singleton received packet ih =>
    obtain ⟨gathered, complete⟩ := ih fun other mem => cuts other (mem_append_left _ mem)
    obtain ⟨next, now, -⟩ := gathered.step cuts complete
    rw [queueAll_snoc]
    exact ⟨next, now⟩

/-- Reassembly does not depend on the order of arrival: after any fragments cut from a payload, with any
  overlaps and duplicates, the next one leaves the list sorted and disjoint with `meat` its length,
  reassembly starts exactly when the fragments cover the payload for the first time, and the list then is
  the payload. -/
theorem ipFrag_order_independent (payload : List Byte) (received : List (Packet Byte)) (packet : Packet Byte)
    (cuts : ∀ other ∈ received ++ [packet], other.Cut payload) :
    (ipFragQueue (queueAll received) packet).1.fragments.Pairwise (·.stop ≤ ·.offset) ∧
      (ipFragQueue (queueAll received) packet).1.meat =
        total (ipFragQueue (queueAll received) packet).1.fragments ∧
      ((ipFragQueue (queueAll received) packet).2 = .reasm ↔
        ¬ Covers payload received ∧ Covers payload (received ++ [packet])) ∧
      ((ipFragQueue (queueAll received) packet).2 = .reasm →
        (ipFragQueue (queueAll received) packet).1.fragments.flatMap (·.data) = payload) := by
  obtain ⟨gathered, complete⟩ := gathered_queueAll fun other mem =>
    cuts other (mem_append_left _ mem)
  obtain ⟨next, -, reasm⟩ := gathered.step cuts complete
  refine ⟨next.ordered, next.meat, reasm, fun called => ?_⟩
  have covers := (reasm.mp called).2
  obtain ⟨-, full, joined⟩ := total_spec next.ordered next.pieces (fun _ _ => Nat.zero_le _) (Nat.zero_le _)
  exact joined (full.mpr fun i _ below => (next.held i).mpr (covers i below))

/-- The second fragment comes first, and the first one overlaps it. -/
theorem ipFrag_order_independent_overlap :
    (ipFragQueue (queueAll [⟨1, false, (List.range 20).drop 8⟩]) ⟨0, true, List.range 16⟩).2 = .reasm ∧
      (ipFragQueue (queueAll [⟨1, false, (List.range 20).drop 8⟩]) ⟨0, true,
        List.range 16⟩).1.fragments.flatMap (·.data) =
        List.range 20 := by
  have cuts : ∀ other ∈ [⟨1, false, (range 20).drop 8⟩] ++ [⟨0, true, range 16⟩],
      Packet.Cut (range 20) other := by
    intro other mem
    simp only [cons_append, nil_append, mem_cons, not_mem_nil, or_false] at mem
    rcases mem with rfl | rfl
    · exact ⟨by decide, by decide, by decide, by decide⟩
    · exact ⟨by decide, by decide, by decide, by decide⟩
  have called : (ipFragQueue (queueAll [⟨1, false, (range 20).drop 8⟩]) ⟨0, true, range 16⟩).2 = .reasm := by
    decide
  exact ⟨called, (ipFrag_order_independent (range 20) _ _ cuts).2.2.2 called⟩

end LinuxKernel.Net.IpFragment
