/-
Module: LinuxKernel.Kernel.Kfifo
Purpose: `__kfifo_put` and `__kfifo_get` of `kernel/kfifo.c`, each in the three steps that the barriers of
  the code separate: sampling the index of the other side, copying, and publishing its own index. One writer
  and one reader take these steps in any order, on a sequentially consistent memory, and lose nothing.
Trusted boundary: human-reviewed spec
Main exports: Fifo, step, Invariant, kfifo_lossless
-/
import LinuxKernel.Library.RingBuffer
import LinuxKernel.Library.Runs

namespace LinuxKernel.Kernel.Kfifo

/-- `struct kfifo`; the memory of `buffer` by offset. -/
structure Fifo where
  buffer : Nat → UInt8
  size : BitVec 32
  in_ : BitVec 32
  out : BitVec 32

/-- `min` on `unsigned int`. -/
def umin (a b : BitVec 32) : BitVec 32 := if a < b then a else b

/-- `memcpy` to an offset of the buffer. -/
def memcpyTo (buffer : Nat → UInt8) (offset : Nat) (source : List UInt8) (position : Nat) : UInt8 :=
  if offset ≤ position then (source[position - offset]?).getD (buffer position) else buffer position

/-- `memcpy` from an offset of the buffer. -/
def memcpyFrom (buffer : Nat → UInt8) (offset len : Nat) : List UInt8 :=
  (List.range len).map fun i => buffer (offset + i)

/-- `kfifo_init(buffer, size, gfp_mask, lock)`, after its check. -/
def kfifoInit (buffer : Nat → UInt8) (size : BitVec 32) : Fifo :=
  { buffer, size, in_ := 0, out := 0 }

/-- The first step of `__kfifo_put`: `len` after `fifo->out` was sampled. -/
def kfifoPutSample (fifo : Fifo) (len : BitVec 32) : BitVec 32 :=
  umin len (fifo.size - fifo.in_ + fifo.out)

/-- The two copies of `__kfifo_put`. -/
def kfifoPutCopy (fifo : Fifo) (data : List UInt8) (len : BitVec 32) : Fifo :=
  let offset := fifo.in_ &&& (fifo.size - 1)
  let l := umin len (fifo.size - offset)
  let buffer := memcpyTo fifo.buffer offset.toNat (data.take l.toNat)
  { fifo with buffer := memcpyTo buffer 0 ((data.drop l.toNat).take (len - l).toNat) }

/-- The first step of `__kfifo_get`: `len` after `fifo->in` was sampled. -/
def kfifoGetSample (fifo : Fifo) (len : BitVec 32) : BitVec 32 :=
  umin len (fifo.in_ - fifo.out)

/-- The two copies of `__kfifo_get`. -/
def kfifoGetCopy (fifo : Fifo) (len : BitVec 32) : List UInt8 :=
  let offset := fifo.out &&& (fifo.size - 1)
  let l := umin len (fifo.size - offset)
  memcpyFrom fifo.buffer offset.toNat l.toNat ++ memcpyFrom fifo.buffer 0 (len - l).toNat

/-- How far the writer is in `__kfifo_put`: the bytes it was given, the index it sampled, and `len`. -/
inductive Writer where
  | idle
  | sampled (data : List UInt8) (sample len : BitVec 32)
  | copied (data : List UInt8) (sample len : BitVec 32)

/-- How far the reader is in `__kfifo_get`: what it asked for, the index it sampled, `len`, and the bytes. -/
inductive Reader where
  | idle
  | sampled (asked sample len : BitVec 32)
  | copied (asked sample len : BitVec 32) (bytes : List UInt8)

/-- The fifo with its two users. -/
structure System where
  fifo : Fifo
  writer : Writer
  reader : Reader

/-- The steps of the two users. -/
inductive Action where
  | putSample (data : List UInt8)
  | putCopy
  | putPublish
  | getSample (asked : BitVec 32)
  | getCopy
  | getPublish

/-- A call that returns, with the index of the caller before it and the one it sampled. -/
inductive Event where
  | put (data : List UInt8) (own sample : BitVec 32) (accepted : List UInt8)
  | get (asked own sample : BitVec 32) (returned : List UInt8)

/-- One step, with the call that returns in it. The length of the caller's buffer is an `unsigned int`. -/
def step (s : System) : Action → Option (List Event × System)
  | .putSample data =>
    match s.writer with
    | .idle =>
      if data.length < 2 ^ 32 then
        some ([], { s with
          writer := .sampled data s.fifo.out (kfifoPutSample s.fifo (.ofNat 32 data.length)) })
      else none
    | _ => none
  | .putCopy =>
    match s.writer with
    | .sampled data sample len =>
      some ([], { s with fifo := kfifoPutCopy s.fifo data len, writer := .copied data sample len })
    | _ => none
  | .putPublish =>
    match s.writer with
    | .copied data sample len =>
      some ([.put data s.fifo.in_ sample (data.take len.toNat)],
        { s with fifo := { s.fifo with in_ := s.fifo.in_ + len }, writer := .idle })
    | _ => none
  | .getSample asked =>
    match s.reader with
    | .idle => some ([], { s with reader := .sampled asked s.fifo.in_ (kfifoGetSample s.fifo asked) })
    | _ => none
  | .getCopy =>
    match s.reader with
    | .sampled asked sample len =>
      some ([], { s with reader := .copied asked sample len (kfifoGetCopy s.fifo len) })
    | _ => none
  | .getPublish =>
    match s.reader with
    | .copied asked sample len bytes =>
      some ([.get asked s.fifo.out sample bytes],
        { s with fifo := { s.fifo with out := s.fifo.out + len }, reader := .idle })
    | _ => none

open Library List Nat Option Prod

/-! ### 32-bit arithmetic -/

theorem umin_toNat (a b : BitVec 32) : (umin a b).toNat = min a.toNat b.toNat := by
  rw [umin]
  split_ifs with less
  · rw [BitVec.lt_def] at less
    omega
  · rw [BitVec.lt_def] at less
    omega

theorem distance_toNat {a b : Nat} (ordered : b ≤ a) (close : a - b < 2 ^ 32) :
    (BitVec.ofNat 32 a - BitVec.ofNat 32 b).toNat = a - b := by
  simp only [BitVec.toNat_sub, BitVec.toNat_ofNat]
  omega

variable {size low' : Nat} {data : List UInt8} {len sample asked : BitVec 32}

theorem space_toNat {high low : Nat} (small : size ≤ 2 ^ 31) (ordered : low ≤ high)
    (room : high ≤ low + size) :
    (BitVec.ofNat 32 size - BitVec.ofNat 32 high + BitVec.ofNat 32 low).toNat = low + size - high := by
  simp only [BitVec.toNat_add, BitVec.toNat_sub, BitVec.toNat_ofNat]
  omega

theorem size_le {k : Nat} (small : k ≤ 31) : 2 ^ k ≤ 2 ^ 31 := Nat.pow_le_pow_right (by decide) small

theorem mask_toNat {k : Nat} (small : k ≤ 31) (counter : Nat) :
    (BitVec.ofNat 32 counter &&& (BitVec.ofNat 32 (2 ^ k) - 1)).toNat = counter % 2 ^ k := by
  have positive := Nat.two_pow_pos k
  have bound := size_le small
  have mask : (BitVec.ofNat 32 (2 ^ k) - 1).toNat = 2 ^ k - 1 := distance_toNat positive (by omega)
  rw [BitVec.toNat_and, mask, Nat.and_two_pow_sub_one_eq_mod, BitVec.toNat_ofNat,
    Nat.mod_mod_of_dvd _ (Nat.pow_dvd_pow 2 (by omega))]

/-- The space from the masked index up to the end of the buffer. -/
theorem tail_toNat {k : Nat} (small : k ≤ 31) (counter : Nat) :
    (BitVec.ofNat 32 (2 ^ k) - (BitVec.ofNat 32 counter &&& (BitVec.ofNat 32 (2 ^ k) - 1))).toNat =
      2 ^ k - counter % 2 ^ k := by
  have bound := size_le small
  rw [BitVec.toNat_sub, mask_toNat small, BitVec.toNat_ofNat]
  omega

/-! ### The copies -/

variable {k high low : Nat} {fifo : Fifo}

/-- The two copies of the writer are one write to the ring. -/
theorem kfifoPutCopy_eq (small : k ≤ 31) (size : fifo.size = BitVec.ofNat 32 (2 ^ k))
    (own : fifo.in_ = BitVec.ofNat 32 high) (within : len.toNat ≤ data.length) :
    kfifoPutCopy fifo data len =
      { fifo with buffer := ringWrite fifo.buffer (2 ^ k) high (data.take len.toNat) } := by
  have length : (data.take len.toNat).length = len.toNat := by rw [length_take, Nat.min_eq_left within]
  have least (l : BitVec 32) (eq : l.toNat = min len.toNat (2 ^ k - high % 2 ^ k)) :
      (len - l).toNat = len.toNat - l.toNat := by
    rw [BitVec.toNat_sub]
    omega
  rw [kfifoPutCopy, size, own]
  have first :=
    umin_toNat len (BitVec.ofNat 32 (2 ^ k) - (BitVec.ofNat 32 high &&& (BitVec.ofNat 32 (2 ^ k) - 1)))
  rw [tail_toNat small] at first
  simp only [least _ first, mask_toNat small, first, ringWrite, length]
  rw [take_take, Nat.min_eq_left (Nat.min_le_left _ _), drop_take]
  rfl

/-- The two copies of the reader are one read of the ring. -/
theorem kfifoGetCopy_eq (small : k ≤ 31) (size : fifo.size = BitVec.ofNat 32 (2 ^ k))
    (own : fifo.out = BitVec.ofNat 32 low) :
    kfifoGetCopy fifo len = ringRead fifo.buffer (2 ^ k) low len.toNat := by
  have least (l : BitVec 32) (eq : l.toNat = min len.toNat (2 ^ k - low % 2 ^ k)) :
      (len - l).toNat = len.toNat - l.toNat := by
    rw [BitVec.toNat_sub]
    omega
  rw [kfifoGetCopy, size, own]
  have first :=
    umin_toNat len (BitVec.ofNat 32 (2 ^ k) - (BitVec.ofNat 32 low &&& (BitVec.ofNat 32 (2 ^ k) - 1)))
  rw [tail_toNat small] at first
  simp only [least _ first, mask_toNat small, first, ringRead, memcpyFrom, Nat.zero_add]

/-! ### The two histories -/

/-- The bytes that the puts accepted. -/
def acceptedOf (trace : List Event) : List UInt8 :=
  trace.flatMap fun
    | .put _ _ _ accepted => accepted
    | .get .. => []

/-- The bytes that the gets returned. -/
def returnedOf (trace : List Event) : List UInt8 :=
  trace.flatMap fun
    | .put .. => []
    | .get _ _ _ returned => returned

/-- The call transfers as much as the index it sampled permits. -/
def Event.Maximal (size : Nat) : Event → Prop
  | .put data own sample accepted => accepted = data.take (min data.length (size - (own - sample).toNat))
  | .get asked own sample returned => returned.length = min asked.toNat (sample - own).toNat

/-- The writer sampled an index that `out` had before, and may write `len` bytes. -/
structure MayPut (size high low : Nat) (data : List UInt8) (sample len : BitVec 32) : Prop where
  sampled : ∃ old, old ≤ low ∧ old ≤ high ∧ high ≤ old + size ∧ sample = BitVec.ofNat 32 old ∧
    len.toNat = min data.length (old + size - high)

theorem MayPut.mono (may : MayPut size high low data sample len) (later : low ≤ low') :
    MayPut size high low' data sample len := by
  obtain ⟨old, before, rest⟩ := may.sampled
  exact ⟨old, Nat.le_trans before later, rest⟩

theorem MayPut.within (may : MayPut size high low data sample len) :
    len.toNat ≤ data.length ∧ high + len.toNat ≤ low + size := by
  obtain ⟨old, before, ordered, room, _, eq⟩ := may.sampled
  omega

/-- The reader sampled an index that `in` had before, and may read `len` bytes. -/
structure MayGet (size high low : Nat) (asked sample len : BitVec 32) : Prop where
  sampled : ∃ old, old ≤ high ∧ low ≤ old ∧ old ≤ low + size ∧ sample = BitVec.ofNat 32 old ∧
    len.toNat = min asked.toNat (old - low)

theorem MayGet.mono {high' : Nat} (may : MayGet size high low asked sample len)
    (later : high ≤ high') : MayGet size high' low asked sample len := by
  obtain ⟨old, before, rest⟩ := may.sampled
  exact ⟨old, Nat.le_trans before later, rest⟩

theorem MayGet.within (may : MayGet size high low asked sample len) :
    low + len.toNat ≤ high ∧ len.toNat ≤ size := by
  obtain ⟨old, before, ordered, room, _, eq⟩ := may.sampled
  omega

/-- What is known of the writer. -/
def WriterOk (size : Nat) (buffer : Nat → UInt8) (high low : Nat) : Writer → Prop
  | .idle => True
  | .sampled data sample len => MayPut size high low data sample len
  | .copied data sample len => MayPut size high low data sample len ∧
      ∀ i < len.toNat, data[i]? = some (buffer ((high + i) % size))

/-- What is known of the reader. -/
def ReaderOk (size : Nat) (accepted : List UInt8) (low : Nat) : Reader → Prop
  | .idle => True
  | .sampled asked sample len => MayGet size accepted.length low asked sample len
  | .copied asked sample len bytes => MayGet size accepted.length low asked sample len ∧
      bytes = (accepted.drop low).take len.toNat

theorem WriterOk.mono {buffer : Nat → UInt8} {writer : Writer}
    (ok : WriterOk size buffer high low writer) (later : low ≤ low') :
      WriterOk size buffer high low' writer := by
  cases writer with
  | idle => trivial
  | sampled data sample len => exact MayPut.mono ok later
  | copied data sample len => exact ⟨ok.1.mono later, ok.2⟩

theorem ReaderOk.append {accepted : List UInt8} {reader : Reader}
    (ok : ReaderOk size accepted low reader) (more : List UInt8) :
      ReaderOk size (accepted ++ more) low reader := by
  have longer : accepted.length ≤ (accepted ++ more).length := by
    rw [length_append]
    exact le_add_right _ _
  cases reader with
  | idle => trivial
  | sampled asked sample len => exact MayGet.mono ok longer
  | copied asked sample len bytes =>
    obtain ⟨may, same⟩ := ok
    have within := may.within.1
    refine ⟨may.mono longer, ?_⟩
    rw [same, drop_append_of_le_length (by omega), take_append_of_le_length (by rw [length_drop]; omega)]

/-! ### The invariant -/

/-- The state after the calls of the trace have returned. -/
structure Invariant (k : Nat) (trace : List Event) (s : System) : Prop where
  size : s.fifo.size = BitVec.ofNat 32 (2 ^ k)
  in_ : s.fifo.in_ = BitVec.ofNat 32 (acceptedOf trace).length
  out : s.fifo.out = BitVec.ofNat 32 (returnedOf trace).length
  order : returnedOf trace <+: acceptedOf trace
  room : (acceptedOf trace).length ≤ (returnedOf trace).length + 2 ^ k
  contents : Contents s.fifo.buffer (2 ^ k) (acceptedOf trace) (returnedOf trace).length
    (acceptedOf trace).length
  writer : WriterOk (2 ^ k) s.fifo.buffer (acceptedOf trace).length (returnedOf trace).length s.writer
  reader : ReaderOk (2 ^ k) (acceptedOf trace) (returnedOf trace).length s.reader
  maximal : ∀ event ∈ trace, event.Maximal (2 ^ k)

variable {trace : List Event} {s : System}

theorem invariant_init (k : Nat) (buffer : Nat → UInt8) :
    Invariant k [] ⟨kfifoInit buffer (BitVec.ofNat 32 (2 ^ k)), .idle, .idle⟩ where
  size := rfl
  in_ := rfl
  out := rfl
  order := prefix_rfl
  room := zero_le _
  contents := fun i _ below => absurd below (not_lt_zero i)
  writer := trivial
  reader := trivial
  maximal := nofun

variable (inv : Invariant k trace s)

include inv

section

variable (small : k ≤ 31)

include small

theorem Invariant.putSample (fits : data.length < 2 ^ 32) : Invariant k trace
      { s with writer := .sampled data s.fifo.out (kfifoPutSample s.fifo (.ofNat 32 data.length)) } := by
  refine { inv with writer := ⟨_, Nat.le_refl _, inv.order.length_le, inv.room, inv.out, ?_⟩ }
  have bound := size_le small
  rw [kfifoPutSample, umin_toNat, inv.size, inv.in_, inv.out,
    space_toNat bound inv.order.length_le inv.room, BitVec.toNat_ofNat, mod_eq_of_lt fits]

theorem Invariant.putCopy (phase : s.writer = .sampled data sample len) :
    Invariant k trace { s with fifo := kfifoPutCopy s.fifo data len, writer := .copied data sample len } := by
  have may := inv.writer
  rw [phase] at may
  obtain ⟨within, room⟩ := MayPut.within may
  have order := inv.order.length_le
  have length : (data.take len.toNat).length = len.toNat := by rw [length_take, Nat.min_eq_left within]
  rw [kfifoPutCopy_eq small inv.size inv.in_ within]
  refine { inv with contents := inv.contents.write (by rwa [length]), writer := ⟨may, fun i inside => ?_⟩ }
  have present : i < data.length := Nat.lt_of_lt_of_le inside within
  dsimp only
  rw [ringWrite_apply (by omega) (by omega), getElem?_take, if_pos inside, getElem?_eq_getElem present,
    getD_some]

theorem Invariant.putPublish (phase : s.writer = .copied data sample len) :
    Invariant k (trace ++ [.put data s.fifo.in_ sample (data.take len.toNat)])
      { s with fifo := { s.fifo with in_ := s.fifo.in_ + len }, writer := .idle } := by
  have writer := inv.writer
  rw [phase] at writer
  obtain ⟨may, written⟩ := writer
  obtain ⟨within, room⟩ := may.within
  have length : (data.take len.toNat).length = len.toNat := by rw [length_take, Nat.min_eq_left within]
  have accepted : acceptedOf (trace ++ [.put data s.fifo.in_ sample (data.take len.toNat)]) =
      acceptedOf trace ++ data.take len.toNat := by simp [acceptedOf]
  have returned : returnedOf (trace ++ [.put data s.fifo.in_ sample (data.take len.toNat)]) =
      returnedOf trace := by
    simp [returnedOf]
  refine ⟨inv.size, ?_, ?_, ?_, ?_, ?_, trivial, ?_, ?_⟩
  · rw [accepted, length_append, length, BitVec.ofNat_add, ← inv.in_, BitVec.ofNat_toNat,
      BitVec.setWidth_eq]
  · rw [returned]
    exact inv.out
  · rw [returned, accepted]
    exact inv.order.trans (prefix_append _ _)
  · rw [returned, accepted, length_append, length]
    exact room
  · rw [returned, accepted, length_append]
    refine inv.contents.extend fun i inside => ?_
    rw [length] at inside
    rw [getElem?_take, if_pos inside]
    exact written i inside
  · rw [returned, accepted]
    exact inv.reader.append _
  · refine forall_mem_append.mpr ⟨inv.maximal, forall_mem_singleton.mpr ?_⟩
    obtain ⟨old, _, ordered, close, rfl, eq⟩ := may.sampled
    have bound := size_le small
    rw [Event.Maximal, inv.in_, distance_toNat ordered (by omega)]
    congr 2
    omega

theorem Invariant.getSample (asked : BitVec 32) :
    Invariant k trace { s with reader := .sampled asked s.fifo.in_ (kfifoGetSample s.fifo asked) } := by
  refine { inv with reader := ⟨_, Nat.le_refl _, inv.order.length_le, inv.room, inv.in_, ?_⟩ }
  have bound := size_le small
  have room := inv.room
  rw [kfifoGetSample, umin_toNat, inv.in_, inv.out, distance_toNat inv.order.length_le (by omega)]

theorem Invariant.getCopy (phase : s.reader = .sampled asked sample len) :
    Invariant k trace { s with reader := .copied asked sample len (kfifoGetCopy s.fifo len) } := by
  have may := inv.reader
  rw [phase] at may
  refine { inv with reader := ⟨may, ?_⟩ }
  rw [kfifoGetCopy_eq small inv.size inv.out]
  exact inv.contents.read (MayGet.within may).1 (MayGet.within may).2

theorem Invariant.getPublish {bytes : List UInt8} (phase : s.reader = .copied asked sample len bytes) :
    Invariant k (trace ++ [.get asked s.fifo.out sample bytes])
      { s with fifo := { s.fifo with out := s.fifo.out + len }, reader := .idle } := by
  have reader := inv.reader
  rw [phase] at reader
  obtain ⟨may, same⟩ := reader
  obtain ⟨within, _⟩ := may.within
  have room := inv.room
  have length : bytes.length = len.toNat := by
    rw [same, length_take, length_drop]
    omega
  have accepted : acceptedOf (trace ++ [.get asked s.fifo.out sample bytes]) =
      acceptedOf trace := by simp [acceptedOf]
  have returned : returnedOf (trace ++ [.get asked s.fifo.out sample bytes]) = returnedOf trace ++ bytes := by
    simp [returnedOf]
  refine ⟨inv.size, ?_, ?_, ?_, ?_, ?_, ?_, trivial, ?_⟩
  · rw [accepted]
    exact inv.in_
  · rw [returned, length_append, length, BitVec.ofNat_add, ← inv.out, BitVec.ofNat_toNat,
      BitVec.setWidth_eq]
  · obtain ⟨rest, split⟩ := inv.order
    rw [accepted, returned, same, ← split, drop_left]
    exact (prefix_append_right_inj _).mpr (List.take_prefix _ _)
  · rw [accepted, returned, length_append]
    omega
  · rw [accepted, returned, length_append]
    exact fun i above below => inv.contents i (by omega) below
  · rw [accepted, returned, length_append]
    exact inv.writer.mono (le_add_right _ _)
  · refine forall_mem_append.mpr ⟨inv.maximal, forall_mem_singleton.mpr ?_⟩
    obtain ⟨old, _, ordered, close, rfl, eq⟩ := may.sampled
    have bound := size_le small
    rw [Event.Maximal, inv.out, length, distance_toNat ordered (by omega), eq]

end

omit inv

/-- One step of either side keeps the invariant. -/
theorem Invariant.step {events : List Event} {s' : System} {action : Action} (inv : Invariant k trace s)
    (small : k ≤ 31) (taken : step s action = some (events, s')) : Invariant k (trace ++ events) s' := by
  -- Only one phase of the side that acts has the step.
  cases action <;> simp only [Kfifo.step] at taken <;> split at taken <;> try cases taken
  · split_ifs at taken with fits
    obtain ⟨rfl, rfl⟩ := mk.inj (some.inj taken)
    rw [append_nil]
    exact inv.putSample small fits
  · next phase =>
      rw [append_nil]
      exact inv.putCopy small phase
  · next phase => exact inv.putPublish small phase
  · rw [append_nil]
    exact inv.getSample small _
  · next phase =>
      rw [append_nil]
      exact inv.getCopy small phase
  · next phase => exact inv.getPublish small phase

/-- In every interleaving of one writer and one reader, on a buffer of any power-of-two size up to 2^31 and
for any number of bytes, what the gets returned is a prefix of what the puts accepted, `in - out` is at most
the size, and each call transferred as much as the index it sampled permits. -/
theorem kfifo_lossless (k : Nat) (small : k ≤ 31) (buffer : Nat → UInt8) (actions : List Action)
    (trace : List Event)
    (last : System)
    (run : Run (fun s action events s' => step s action = some (events, s'))
      ⟨kfifoInit buffer (BitVec.ofNat 32 (2 ^ k)), .idle, .idle⟩ actions trace last) :
    returnedOf trace <+: acceptedOf trace ∧ (last.fifo.in_ - last.fifo.out).toNat ≤ 2 ^ k ∧
      ∀ event ∈ trace, event.Maximal (2 ^ k) := by
  have inv : Invariant k trace last := run.invariant_of_actions (fun _ _ => trivial) (invariant_init k buffer)
    fun (_ : True) before taken => before.step small taken
  have bound := size_le small
  have room := inv.room
  refine ⟨inv.order, ?_, inv.maximal⟩
  rw [inv.in_, inv.out, distance_toNat inv.order.length_le (by omega)]
  exact Nat.sub_le_iff_le_add'.mpr room

/-- A byte goes through a buffer of two. -/
theorem kfifo_lossless_byte :
    ∃ trace last, Run (fun s action events s' => step s action = some (events, s'))
        ⟨kfifoInit (fun _ => 0) (BitVec.ofNat 32 (2 ^ 1)), .idle, .idle⟩
        [.putSample [7], .putCopy, .putPublish, .getSample 1, .getCopy, .getPublish] trace last ∧
      trace.length = 2 ∧ returnedOf trace <+: acceptedOf trace ∧
        (last.fifo.in_ - last.fifo.out).toNat ≤ 2 ^ 1 ∧
      ∀ event ∈ trace, event.Maximal (2 ^ 1) :=
  have run := .cons rfl <| .cons rfl <| .cons rfl <| .cons rfl <| .cons rfl <| .cons rfl .nil
  ⟨_, _, run, rfl, kfifo_lossless 1 (by decide) _ _ _ _ run⟩

end LinuxKernel.Kernel.Kfifo
