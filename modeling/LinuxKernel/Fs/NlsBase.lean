/-
Module: LinuxKernel.Fs.NlsBase
Purpose: The UTF-8 decoder of `fs/nls/nls_base.c` with the index of every byte it reads: only the loop over
  the characters reads before it tests the length. The code that the encoder from UTF-16 writes is that of a
  prefix exactly if no character is left out before one that is written. With enough room the two are inverse.
Trusted boundary: human-reviewed spec
Main exports: utf8sToUtf16s, utf8sToUtf16s_inside_iff, utf16sToUtf8s, utf16sToUtf8s_prefix_iff,
  utf8s_utf16s_inverse
-/
import Mathlib

namespace LinuxKernel.Fs.Nls

/-- A row of `utf8_table`. -/
structure Utf8Row where
  cmask : Nat
  cval : Nat
  shift : Nat
  lmask : Nat
  lval : Nat

/-- `utf8_table`, without the row that ends it. -/
def utf8Table : List Utf8Row :=
  [⟨0x80, 0x00, 0 * 6, 0x7F, 0⟩, ⟨0xE0, 0xC0, 1 * 6, 0x7FF, 0x80⟩,
    ⟨0xF0, 0xE0, 2 * 6, 0xFFFF, 0x800⟩,
    ⟨0xF8, 0xF0, 3 * 6, 0x1FFFFF, 0x10000⟩,
    ⟨0xFC, 0xF8, 4 * 6, 0x3FFFFFF, 0x200000⟩,
    ⟨0xFE, 0xFC, 5 * 6, 0x7FFFFFFF, 0x4000000⟩]

def unicodeMax : Nat := 0x10ffff

def planeSize : Nat := 0x10000

def surrogatePair : Nat := 0xd800

/-- `(l & SURROGATE_MASK) == SURROGATE_PAIR`. -/
def isSurrogate (l : Nat) : Bool := l &&& 0xfffff800 == surrogatePair

variable (s : Nat → BitVec 8) (pos len : Nat)

/-- The loop of `utf8_to_utf32` over the rows that are left, with the indices it reads. Of the `unsigned long`
`l` at most the low 31 bits are used, so that its width does not matter. -/
def utf8ToUtf32Loop (c0 : Nat) :
    List Utf8Row → (nc l : Nat) → Option (Nat × Nat) × List Nat
  | [], _, _ => (none, [])
  | t :: rows, nc, l =>
    let nc := nc + 1
    if c0 &&& t.cmask = t.cval then
      let l := l &&& t.lmask
      (if l < t.lval ∨ l > unicodeMax ∨ isSurrogate l then none else some (l, nc), [])
    else if len ≤ nc then (none, [])
    else
      let c := (s (pos + nc)).toNat ^^^ 0x80
      if c &&& 0xC0 ≠ 0 then (none, [pos + nc])
      else
        let (result, reads) := utf8ToUtf32Loop c0 rows nc (l <<< 6 ||| c)
        (result, (pos + nc) :: reads)

/-- `utf8_to_utf32` at the index `pos` of the buffer: the character and its size, `none` for -1. -/
def utf8ToUtf32 : Option (Nat × Nat) × List Nat :=
  let c0 := (s pos).toNat
  let (result, reads) := utf8ToUtf32Loop s pos len c0 utf8Table 0 c0
  (result, pos :: reads)

/-- What `utf8s_to_utf16s` writes for a character. -/
def utf16Units (u : Nat) : List (BitVec 16) :=
  if u ≥ planeSize then
    let u := u - planeSize
    [.ofNat 16 (surrogatePair ||| (u >>> 10 &&& 0x3ff)),
      .ofNat 16 (surrogatePair ||| 0x400 ||| (u &&& 0x3ff))]
  else [.ofNat 16 u]

/-- The loop of `utf8s_to_utf16s`: what it writes, `none` for `-EINVAL`, and the indices it reads. The test
`*s && len > 0` reads first. -/
def utf8sToUtf16sLoop :
    (fuel pos len : Nat) → Option (Option (List (BitVec 16)) × List Nat)
  | 0, _, _ => none
  | fuel + 1, pos, len =>
    if s pos = 0 ∨ len = 0 then some (some [], [pos])
    else if (s pos).toNat &&& 0x80 ≠ 0 then
      match utf8ToUtf32 s pos len with
      | (none, reads) => some (none, pos :: reads)
      | (some (u, size), reads) => do
        let (written, more) ← utf8sToUtf16sLoop fuel (pos + size) (len - size)
        return (written.map (utf16Units u ++ ·), pos :: (reads ++ more))
    else do
      let (written, more) ← utf8sToUtf16sLoop fuel (pos + 1) (len - 1)
      return (written.map ((s pos).setWidth 16 :: ·), pos :: more)

/-- `utf8s_to_utf16s`. -/
def utf8sToUtf16s : Option (Option (List (BitVec 16)) × List Nat) :=
  utf8sToUtf16sLoop s (len + 1) 0 len

/-! ### The encoder -/

/-- `while (c > 0) { c -= 6; *++s = 0x80 | ((l >> c) & 0x3F); }` for `c = 6 * left`. -/
def utf8Tail (l : Nat) : (left : Nat) → List UInt8
  | 0 => []
  | left + 1 => .ofNat (0x80 ||| (l >>> (6 * left) &&& 0x3f)) :: utf8Tail l left

/-- The loop of `utf32_to_utf8`: the bytes it writes, whose number it returns, or `none` for -1. -/
def utf32ToUtf8Loop (l : Nat) : List Utf8Row → (maxlen : Nat) → Option (List UInt8)
  | t :: rows, maxlen + 1 =>
    if l ≤ t.lmask then some (.ofNat (t.cval ||| l >>> t.shift) :: utf8Tail l (t.shift / 6))
    else utf32ToUtf8Loop l rows maxlen
  | _, _ => none

/-- `utf32_to_utf8` into a buffer that is not `NULL`. -/
def utf32ToUtf8 (u maxlen : Nat) : Option (List UInt8) :=
  if u > unicodeMax ∨ isSurrogate u then none else utf32ToUtf8Loop u utf8Table maxlen

/-- `enum utf16_endian`. -/
inductive Utf16Endian where
  | host | little | big

/-- `get_utf16`, on a machine that is big-endian or not. -/
def getUtf16 (bigEndian : Bool) (endian : Utf16Endian) (c : BitVec 16) : Nat :=
  let swab := (c.extractLsb' 0 8 ++ c.extractLsb' 8 8).toNat
  match endian with
  | .host => c.toNat
  | .little => if bigEndian then swab else c.toNat
  | .big => if bigEndian then c.toNat else swab

/-- A character is written if it fits; otherwise it is ignored. -/
def putUtf8 (u maxlen : Nat) (next : Nat → List UInt8) : List UInt8 :=
  match utf32ToUtf8 u maxlen with
  | none => next maxlen
  | some bytes => bytes ++ next (maxlen - bytes.length)

/-- The loop of `utf16s_to_utf8s` on what `get_utf16` returns: the bytes it writes. -/
def utf16sToUtf8sLoop : (pwcs : List Nat) → (maxlen : Nat) → List UInt8
  | [], _ => []
  | u :: pwcs, maxlen =>
    if maxlen = 0 ∨ u = 0 then []
    else if u > 0x7f then
      if isSurrogate u then
        if u &&& 0x400 ≠ 0 then utf16sToUtf8sLoop pwcs maxlen
        else
          match pwcs with
          | [] => []
          | v :: rest =>
            if !isSurrogate v ∨ v &&& 0x400 = 0 then utf16sToUtf8sLoop (v :: rest) maxlen
            else putUtf8 (planeSize + (u &&& 0x3ff) <<< 10 + (v &&& 0x3ff)) maxlen (utf16sToUtf8sLoop rest)
      else putUtf8 u maxlen (utf16sToUtf8sLoop pwcs)
    else .ofNat u :: utf16sToUtf8sLoop pwcs (maxlen - 1)

/-- `utf16s_to_utf8s`. -/
def utf16sToUtf8s (bigEndian : Bool) (endian : Utf16Endian) (pwcs : List (BitVec 16)) (maxlen : Nat) :
    List UInt8 :=
  utf16sToUtf8sLoop (pwcs.map (getUtf16 bigEndian endian)) maxlen

/-! ### The bytes that are read -/

open List Nat

variable {s : Nat → BitVec 8} {pos len c0 nc l : Nat}

theorem utf8ToUtf32Loop_inside (rows : List Utf8Row) (inside : nc < len) :
    (∀ i ∈ (utf8ToUtf32Loop s pos len c0 rows nc l).2, i < pos + len) ∧
      ∀ u size, (utf8ToUtf32Loop s pos len c0 rows nc l).1 = some (u, size) → 0 < size ∧ size ≤ len := by
  induction rows generalizing nc l with
  | nil => exact ⟨nofun, nofun⟩
  | cons t rows ih =>
    rw [utf8ToUtf32Loop]
    dsimp only
    split_ifs with ends invalid short stray
    · exact ⟨nofun, nofun⟩
    · refine ⟨nofun, fun u size found => ?_⟩
      cases found
      exact ⟨succ_pos nc, inside⟩
    · exact ⟨nofun, nofun⟩
    · exact ⟨forall_mem_singleton.mpr (by omega), nofun⟩
    · obtain ⟨reads, sizes⟩ := ih (not_le.mp short)
      exact ⟨forall_mem_cons.mpr ⟨by omega, reads⟩, sizes⟩

/-- `utf8_to_utf32` reads only bytes of the buffer. -/
theorem utf8ToUtf32_inside (nonempty : 0 < len) : (∀ i ∈ (utf8ToUtf32 s pos len).2, i < pos + len) ∧
    ∀ u size, (utf8ToUtf32 s pos len).1 = some (u, size) → 0 < size ∧ size ≤ len := by
  obtain ⟨reads, sizes⟩ := utf8ToUtf32Loop_inside utf8Table nonempty
  exact ⟨forall_mem_cons.mpr ⟨by omega, reads⟩, sizes⟩

/-- The size of the character at an index, if it is well formed. -/
def charSize (s : Nat → BitVec 8) (pos len : Nat) : Option Nat :=
  if (s pos).toNat &&& 0x80 ≠ 0 then (utf8ToUtf32 s pos len).1.map Prod.snd else some 1

/-- The `len` bytes from an index on are whole characters, well formed and not `NUL`. -/
inductive WholeChars (s : Nat → BitVec 8) : (pos len : Nat) → Prop
  | nil {pos : Nat} : WholeChars s pos 0
  | cons {pos len size : Nat} (nonempty : len ≠ 0) (nonzero : s pos ≠ 0)
    (char : charSize s pos len = some size)
      (rest : WholeChars s (pos + size) (len - size)) : WholeChars s pos len

/-! ### The character at an index -/

theorem or_eq_add {k b : Nat} (a : Nat) (small : b < 2 ^ k) : 2 ^ k * a ||| b = b + 2 ^ k * a := by
  rw [← two_pow_add_eq_or_of_lt small, add_comm]

theorem isSurrogate_iff (small : l < 2 ^ 32) : isSurrogate l = true ↔ 0xd800 ≤ l ∧ l < 0xe000 := by
  rw [isSurrogate, beq_iff_eq, surrogatePair, show 0xfffff800 = (2 ^ 21 - 1) <<< 11 from rfl]
  have high := shiftRight_and_distrib (a := l) (b := (2 ^ 21 - 1) <<< 11) (i := 11)
  rw [shiftLeft_shiftRight, and_two_pow_sub_one_eq_mod, shiftRight_eq_div_pow, shiftRight_eq_div_pow] at high
  have low : (l &&& (2 ^ 21 - 1) <<< 11) % 2 ^ 11 = 0 := by
    rw [← Nat.and_two_pow_sub_one_eq_mod, Nat.and_assoc]
    exact and_zero l
  omega

theorem toNat_valid (c : Char) : c.toNat < 0xd800 ∨ 0xdfff < c.toNat ∧ c.toNat < 0x110000 := c.valid

/-- The bytes from an index on. -/
def bytesAt (s : Nat → BitVec 8) (pos len : Nat) : List UInt8 := (range' pos len).map fun i => .ofBitVec (s i)

theorem byte_bits : ∀ b < 256, (b &&& 0x80 = 0 ↔ b < 0x80) ∧ (b &&& 0xe0 = 0xc0 ↔ 0xc0 ≤ b ∧ b < 0xe0) ∧
    (b &&& 0xf0 = 0xe0 ↔ 0xe0 ≤ b ∧ b < 0xf0) ∧ (b &&& 0xf8 = 0xf0 ↔ 0xf0 ≤ b ∧ b < 0xf8) ∧
    ((b ^^^ 0x80) &&& 0xc0 = 0 ↔ 0x80 ≤ b ∧ b < 0xc0) ∧ (0x80 ≤ b → b < 0xc0 → b ^^^ 0x80 = b - 0x80) := by
  decide +kernel

theorem utf8ToUtf32Loop_cons (t : Utf8Row) (rows : List Utf8Row) :
    (utf8ToUtf32Loop s pos len c0 (t :: rows) nc l).1 =
      if c0 &&& t.cmask = t.cval then
        if l &&& t.lmask < t.lval ∨ l &&& t.lmask > unicodeMax ∨ isSurrogate (l &&& t.lmask) then none
        else some (l &&& t.lmask, nc + 1)
      else if nc + 1 < len ∧ 0x80 ≤ (s (pos + (nc + 1))).toNat ∧ (s (pos + (nc + 1))).toNat < 0xc0 then
        (utf8ToUtf32Loop s pos len c0 rows (nc + 1) ((s (pos + (nc + 1))).toNat - 0x80 + 2 ^ 6 * l)).1
      else none := by
  obtain ⟨-, -, -, -, cont, value⟩ := byte_bits _ (s (pos + (nc + 1))).isLt
  rw [utf8ToUtf32Loop]
  dsimp only
  by_cases ends : c0 &&& t.cmask = t.cval
  · rw [if_pos ends, if_pos ends]
  by_cases short : len ≤ nc + 1
  · rw [if_neg ends, if_neg ends, if_pos short, if_neg (by omega)]
  rw [if_neg ends, if_neg ends, if_neg short]
  by_cases stray : 0x80 ≤ (s (pos + (nc + 1))).toNat ∧ (s (pos + (nc + 1))).toNat < 0xc0
  · rw [if_neg (not_not.mpr (cont.mpr stray)), if_pos ⟨by omega, stray⟩, value stray.1 stray.2, shiftLeft_eq,
      Nat.mul_comm, or_eq_add _ (by omega)]
  · rw [if_pos (mt cont.mp stray), if_neg (mt And.right stray)]

/-- The rows for more than four bytes hold no character. -/
theorem utf8ToUtf32Loop_long {rows : List Utf8Row} (long : ∀ t ∈ rows, unicodeMax < t.lval) :
    (utf8ToUtf32Loop s pos len c0 rows nc l).1 = none := by
  induction rows generalizing nc l with
  | nil => rfl
  | cons t rows ih =>
    rw [forall_mem_cons] at long
    have invalid : l &&& t.lmask < t.lval ∨ l &&& t.lmask > unicodeMax := by omega
    simp [utf8ToUtf32Loop_cons, ih long.2, ← or_assoc, invalid]

theorem bytesAt_eq_nil {size : Nat} : bytesAt s pos size = [] ↔ size = 0 := by simp [bytesAt]

theorem bytesAt_eq_cons {n size : Nat} {rest : List UInt8} (small : n < 256) :
    bytesAt s pos size = .ofNat n :: rest ↔
      size ≠ 0 ∧ (s pos).toNat = n ∧ bytesAt s (pos + 1) (size - 1) = rest := by
  cases size with
  | zero => simp [bytesAt]
  | succ size =>
    rw [bytesAt, range'_succ, map_cons, cons.injEq, ← UInt8.toNat_inj, UInt8.toNat_ofBitVec,
      UInt8.toNat_ofNat', mod_eq_of_lt small, and_iff_right (succ_ne_zero _)]
    rfl

/-- The bytes from an index on are the code of a character. -/
theorem bytesAt_eq_iff {u size : Nat} :
    (∃ c : Char, c.toNat = u ∧ bytesAt s pos size = String.utf8EncodeChar c) ↔
      (u < 0xd800 ∨ 0xdfff < u ∧ u < 0x110000) ∧
      if u ≤ 0x7f then size = 1 ∧ (s pos).toNat = u
      else if u ≤ 0x7ff then size = 2 ∧ (s pos).toNat = u / 64 % 32 + 192 ∧ (s (pos + 1)).toNat = u % 64 + 128
      else if u ≤ 0xffff then size = 3 ∧ (s pos).toNat = u / 4096 % 16 + 224 ∧
        (s (pos + 1)).toNat = u / 64 % 64 + 128 ∧ (s (pos + 2)).toNat = u % 64 + 128
      else size = 4 ∧ (s pos).toNat = u / 262144 % 8 + 240 ∧ (s (pos + 1)).toNat = u / 4096 % 64 + 128 ∧
        (s (pos + 2)).toNat = u / 64 % 64 + 128 ∧ (s (pos + 3)).toNat = u % 64 + 128 := by
  have scalar : (∃ c : Char, c.toNat = u) ↔ u < 0xd800 ∨ 0xdfff < u ∧ u < 0x110000 := by
    constructor
    · rintro ⟨c, rfl⟩
      exact toNat_valid c
    · intro valid
      exact ⟨Char.ofNatAux u valid, rfl⟩
  rw [← scalar, ← exists_and_right]
  refine exists_congr fun c => and_congr_right ?_
  rintro rfl
  rw [String.utf8EncodeChar, Char.toNat_val]
  generalize c.toNat = u
  split_ifs <;>
    simp (disch := omega) only [bytesAt_eq_cons, bytesAt_eq_nil, Nat.add_assoc, Nat.reduceAdd] <;> omega

theorem utf8ToUtf32_char_iff {u size : Nat} (nonempty : 0 < len) :
    (utf8ToUtf32 s pos len).1 = some (u, size) ↔
      size ≤ len ∧ ∃ c : Char, c.toNat = u ∧ bytesAt s pos size = String.utf8EncodeChar c := by
  obtain ⟨one, two, three, four, -⟩ := byte_bits _ (s pos).isLt
  have long {c0 nc l : Nat} : (utf8ToUtf32Loop s pos len c0 (utf8Table.drop 4) nc l).1 = none :=
    utf8ToUtf32Loop_long (by decide)
  have mask (k l : Nat) : l &&& (2 ^ k - 1) = l % 2 ^ k := and_two_pow_sub_one_eq_mod l k
  rw [bytesAt_eq_iff, utf8ToUtf32]
  dsimp only
  -- the rows that hold characters, with masks that are remainders
  rw [show utf8Table = ⟨0x80, 0x00, 0 * 6, 2 ^ 7 - 1, 0⟩ :: ⟨0xE0, 0xC0, 1 * 6, 2 ^ 11 - 1, 0x80⟩ ::
    ⟨0xF0, 0xE0, 2 * 6, 2 ^ 16 - 1, 0x800⟩ :: ⟨0xF8, 0xF0, 3 * 6, 2 ^ 21 - 1, 0x10000⟩ ::
    utf8Table.drop 4 from rfl]
  simp only [utf8ToUtf32Loop_cons, long, one, two, three, four, mask, unicodeMax, Nat.zero_add, Nat.reduceAdd]
  simp (disch := omega) only [isSurrogate_iff]
  have b0 := (s pos).isLt
  generalize (s pos).toNat = b0 at *
  generalize (s (pos + 1)).toNat = b1 at *
  generalize (s (pos + 2)).toNat = b2 at *
  generalize (s (pos + 3)).toNat = b3 at *
  clear one two three four mask
  constructor
  · intro found
    split_ifs at found
    all_goals
      simp only [Option.some.injEq, Prod.mk.injEq] at found
      obtain ⟨value, rfl⟩ := found
      refine ⟨by omega, by omega, ?_⟩
      split_ifs <;> omega
  · rintro ⟨fits, scalar, code⟩
    split_ifs at code
    all_goals
      obtain ⟨rfl, bytes⟩ := code
      simp (disch := omega) only [if_pos, if_neg, Option.some.injEq, Prod.mk.injEq, and_true]
      omega

theorem utf8ToUtf32_ascii (nonempty : 0 < len) (low : (s pos).toNat < 0x80) :
    (utf8ToUtf32 s pos len).1 = some ((s pos).toNat, 1) :=
  (utf8ToUtf32_char_iff nonempty).mpr
    ⟨nonempty, bytesAt_eq_iff.mpr ⟨by omega, by rw [if_pos (by omega)]; exact ⟨rfl, rfl⟩⟩⟩

theorem charSize_eq (nonempty : 0 < len) : charSize s pos len = (utf8ToUtf32 s pos len).1.map Prod.snd := by
  rw [charSize]
  split_ifs with high
  · rfl
  · rw [utf8ToUtf32_ascii nonempty ((byte_bits _ (s pos).isLt).1.mp (not_not.mp high))]
    rfl

/-- One turn of the loop of `utf8s_to_utf16s`, which reads only bytes of the buffer that is left. -/
theorem utf8sToUtf16sLoop_turn (fuel : Nat) (nonempty : len ≠ 0) (nonzero : s pos ≠ 0) :
    ∃ own, (∀ i ∈ own, i < pos + len) ∧
      utf8sToUtf16sLoop s (fuel + 1) pos len = match (utf8ToUtf32 s pos len).1 with
        | none => some (none, own)
        | some (u, size) => (utf8sToUtf16sLoop s fuel (pos + size) (len - size)).map fun rest =>
          (rest.1.map (utf16Units u ++ ·), own ++ rest.2) := by
  have positive := Nat.pos_of_ne_zero nonempty
  have inside := (@utf8ToUtf32_inside s pos len positive).1
  rw [utf8sToUtf16sLoop, if_neg (not_or.mpr ⟨nonzero, nonempty⟩)]
  split_ifs with high
  · generalize utf8ToUtf32 s pos len = decoded at inside ⊢
    obtain ⟨_ | ⟨u, size⟩, own⟩ := decoded
    · exact ⟨pos :: own, forall_mem_cons.mpr ⟨by omega, inside⟩, rfl⟩
    · refine ⟨pos :: own, forall_mem_cons.mpr ⟨by omega, inside⟩, ?_⟩
      dsimp only
      cases utf8sToUtf16sLoop s fuel (pos + size) (len - size) <;> rfl
  · have low := (byte_bits _ (s pos).isLt).1.mp (not_not.mp high)
    have unit : utf16Units (s pos).toNat = [(s pos).setWidth 16] := by
      rw [utf16Units, planeSize, if_neg (by omega), BitVec.ofNat_toNat]
    refine ⟨[pos], forall_mem_singleton.mpr (by omega), ?_⟩
    simp only [utf8ToUtf32_ascii positive low, unit]
    cases utf8sToUtf16sLoop s fuel (pos + 1) (len - 1) <;> rfl

/-- The loop ends, and it reads the byte after the buffer only if all before it are whole characters. -/
theorem utf8sToUtf16sLoop_inside {fuel : Nat} (enough : len < fuel) :
    ∃ ret reads, utf8sToUtf16sLoop s fuel pos len = some (ret, reads) ∧
      ((∀ i ∈ reads, i < pos + len) ↔ ¬ WholeChars s pos len) := by
  induction fuel generalizing pos len with
  | zero => exact absurd enough (not_lt_zero _)
  | succ fuel ih =>
    by_cases empty : len = 0
    · subst empty
      exact ⟨_, _, if_pos (.inr rfl), by simpa using WholeChars.nil⟩
    by_cases null : s pos = 0
    · refine ⟨_, _, if_pos (.inl null), iff_of_true (by simpa using Nat.pos_of_ne_zero empty) ?_⟩
      rintro (_ | ⟨_, nonzero, _, _⟩)
      · exact empty rfl
      · exact nonzero null
    obtain ⟨own, inside, turn⟩ := utf8sToUtf16sLoop_turn fuel empty null
    have positive := Nat.pos_of_ne_zero empty
    have char := @charSize_eq s pos len positive
    rw [turn]
    cases decoded : (utf8ToUtf32 s pos len).1 with
    | none =>
      rw [decoded] at char
      refine ⟨none, own, rfl, iff_of_true inside ?_⟩
      rintro (_ | ⟨_, _, found, _⟩)
      · exact empty rfl
      · cases char.symm.trans found
    | some pair =>
      obtain ⟨u, size⟩ := pair
      rw [decoded] at char
      obtain ⟨positive, fits⟩ := (utf8ToUtf32_inside positive).2 u size decoded
      obtain ⟨ret, reads, done, iff⟩ := @ih (pos + size) (len - size) (by omega)
      simp only [done]
      refine ⟨_, _, rfl, ?_⟩
      rw [forall_mem_append, and_iff_right inside,
        show pos + len = pos + size + (len - size) by omega, iff, not_iff_not]
      refine ⟨.cons empty null char, ?_⟩
      rintro (_ | ⟨_, _, found, rest⟩)
      · exact absurd rfl empty
      · cases char.symm.trans found
        exact rest

/-- `utf8s_to_utf16s` always ends, and every byte it reads is in the buffer unless the whole buffer is made
up of well-formed characters other than `NUL`. -/
theorem utf8sToUtf16s_inside_iff (s : Nat → BitVec 8) (len : Nat) :
    ∃ ret reads, utf8sToUtf16s s len = some (ret, reads) ∧
      ((∀ i ∈ reads, i < len) ↔ ¬ WholeChars s 0 len) := by
  simpa [utf8sToUtf16s] using @utf8sToUtf16sLoop_inside s 0 len (len + 1) (lt_succ_self len)

/-- One letter, with no `NUL` after it. -/
theorem utf8sToUtf16s_past_end : ∃ ret reads, utf8sToUtf16s (fun _ => 97) 1 = some (ret, reads) ∧
    ∃ i ∈ reads, 1 ≤ i :=
  ⟨some [97], [0, 1], by decide, 1, by decide, le_refl 1⟩

/-! ### The characters that are written -/

/-- The UTF-16 code of a character. -/
def utf16Encode (c : Char) : List Nat :=
  if c.toNat < 0x10000 then [c.toNat]
  else [0xd800 + (c.toNat - 0x10000) / 0x400, 0xdc00 + (c.toNat - 0x10000) % 0x400]

theorem and_surrogateLow (l : Nat) : l &&& 0x400 = 0 ↔ l / 2 ^ 10 % 2 = 0 := by
  rw [show 0x400 = 2 ^ 10 from rfl, and_two_pow, testBit_eq_decide_div_mod_eq]
  simp

@[simp] theorem utf8Tail_zero (l : Nat) : utf8Tail l 0 = [] := rfl

@[simp] theorem utf8Tail_succ (l left : Nat) :
    utf8Tail l (left + 1) = .ofNat (l / 64 ^ left % 64 + 128) :: utf8Tail l left := by
  rw [utf8Tail, Nat.shiftRight_eq_div_pow, Nat.pow_mul, show 0x3f = 2 ^ 6 - 1 from rfl,
    Nat.and_two_pow_sub_one_eq_mod]
  rw [show 0x80 = 2 ^ 7 * 1 from rfl, or_eq_add 1 (by omega)]

/-- The row of the table that a character takes. -/
theorem utf32ToUtf8Loop_row {rows : List Utf8Row} {t : Utf8Row} {maxlen lead : Nat}
    {tail : List UInt8} (k : Nat)
    (here : rows[k]? = some t) (above : ∀ row ∈ rows.take k, row.lmask < l) (fits : l ≤ t.lmask)
    (first : t.cval ||| l >>> t.shift = lead) (others : utf8Tail l (t.shift / 6) = tail) :
    utf32ToUtf8Loop l rows maxlen = if k < maxlen then some (.ofNat lead :: tail) else none := by
  induction k generalizing rows maxlen with
  | zero =>
    obtain ⟨rest, rfl⟩ : ∃ rest, rows = t :: rest := by cases rows <;> simp_all
    cases maxlen <;> simp [utf32ToUtf8Loop, fits, first, others]
  | succ k ih =>
    obtain _ | ⟨row, rows⟩ := rows
    · cases here
    · cases maxlen with
      | zero => rfl
      | succ maxlen =>
        rw [take_succ_cons, forall_mem_cons] at above
        rw [utf32ToUtf8Loop, if_neg (not_le.mpr above.1), ih here above.2]
        exact if_congr succ_lt_succ_iff.symm rfl rfl

theorem utf32ToUtf8_char (c : Char) (maxlen : Nat) :
    utf32ToUtf8 c.toNat maxlen = if c.utf8Size ≤ maxlen then some (String.utf8EncodeChar c) else none := by
  have valid := toNat_valid c
  have scalar : ¬ (c.toNat > unicodeMax ∨ isSurrogate c.toNat) := by
    rw [isSurrogate_iff (by omega), unicodeMax]
    omega
  rw [utf32ToUtf8, if_neg scalar, ← String.length_utf8EncodeChar, String.utf8EncodeChar, Char.toNat_val]
  generalize c.toNat = l at valid
  have head {k a b : Nat} (small : l / 2 ^ k < 2 ^ b) :
      2 ^ b * a ||| l >>> k = l / 2 ^ k % 2 ^ b + 2 ^ b * a := by
    rw [shiftRight_eq_div_pow, or_eq_add a small, mod_eq_of_lt small]
  by_cases one : l ≤ 0x7f
  · simp only [if_pos one]
    exact utf32ToUtf8Loop_row 0 rfl nofun one (zero_or l) rfl
  by_cases two : l ≤ 0x7ff
  · simp only [if_neg one, if_pos two]
    exact utf32ToUtf8Loop_row 1 rfl (by simp [utf8Table]; omega) two (@head 6 6 5 (by omega)) (by simp)
  by_cases three : l ≤ 0xffff
  · simp only [if_neg one, if_neg two, if_pos three]
    exact utf32ToUtf8Loop_row 2 rfl (by simp [utf8Table]; omega) three (@head 12 14 4 (by omega)) (by simp)
  · simp only [if_neg one, if_neg two, if_neg three]
    exact utf32ToUtf8Loop_row 3 rfl (by simp [utf8Table]; omega) (show l ≤ 0x1fffff by omega)
      (@head 18 30 3 (by omega)) (by simp)

theorem utf16sToUtf8sLoop_zero (pwcs : List Nat) : utf16sToUtf8sLoop pwcs 0 = [] := by
  cases pwcs with
  | nil => rfl
  | cons u pwcs =>
    rw [utf16sToUtf8sLoop.eq_def]
    exact if_pos (.inl rfl)

theorem putUtf8_char (c : Char) (maxlen : Nat) (next : Nat → List UInt8) :
    putUtf8 c.toNat maxlen next = if c.utf8Size ≤ maxlen then
      String.utf8EncodeChar c ++ next (maxlen - c.utf8Size) else next maxlen := by
  rw [putUtf8, utf32ToUtf8_char]
  split_ifs <;> simp [String.length_utf8EncodeChar]

/-- A character is written if it fits into the room that is left, and otherwise left out. -/
theorem utf16sToUtf8sLoop_char (c : Char) (pwcs : List Nat) (maxlen : Nat) :
    utf16sToUtf8sLoop (utf16Encode c ++ pwcs) maxlen =
      if c.toNat = 0 then [] else putUtf8 c.toNat maxlen (utf16sToUtf8sLoop pwcs) := by
  have valid := toNat_valid c
  by_cases empty : maxlen = 0
  · have positive := c.utf8Size_pos
    subst empty
    simp [putUtf8_char, utf16sToUtf8sLoop_zero, not_le.mpr positive]
  rw [utf16Encode]
  by_cases plane : c.toNat < 0x10000
  · rw [if_pos plane, singleton_append, utf16sToUtf8sLoop.eq_def]
    dsimp only
    by_cases null : c.toNat = 0
    · rw [if_pos (.inr null), if_pos null]
    rw [if_neg (not_or.mpr ⟨empty, null⟩), if_neg null]
    by_cases high : c.toNat > 0x7f
    · rw [if_pos high, if_neg (by rw [isSurrogate_iff (by omega)]; omega)]
    · have code : String.utf8EncodeChar c = [.ofNat c.toNat] := if_pos (not_lt.mp high)
      have size := String.length_utf8EncodeChar c
      rw [code] at size
      rw [if_neg high, putUtf8_char, code, ← size]
      exact (if_pos (Nat.pos_of_ne_zero empty)).symm
  · rw [if_neg plane, if_neg (by omega), cons_append, singleton_append, utf16sToUtf8sLoop.eq_def]
    dsimp only
    rw [if_neg (by omega), if_pos (by omega), if_pos ((isSurrogate_iff (by omega)).mpr (by omega)),
      if_neg, if_neg]
    · have mask (n : Nat) : n &&& 0x3ff = n % 2 ^ 10 := and_two_pow_sub_one_eq_mod n 10
      rw [mask, mask, shiftLeft_eq, planeSize]
      have whole : 0x10000 + (0xd800 + (c.toNat - 0x10000) / 0x400) % 2 ^ 10 * 2 ^ 10 +
          (0xdc00 + (c.toNat - 0x10000) % 0x400) % 2 ^ 10 = c.toNat := by omega
      rw [whole]
    · rw [and_surrogateLow, (isSurrogate_iff (by omega)).mpr (by omega)]
      simp
      omega
    · rw [not_not, and_surrogateLow]
      omega

variable {chars : List Char}

theorem utf16sToUtf8sLoop_eq_nil (room : Nat) : utf16sToUtf8sLoop (chars.flatMap utf16Encode) room = [] ↔
    ∀ c ∈ chars.takeWhile (·.toNat ≠ 0), room < c.utf8Size := by
  induction chars with
  | nil => exact iff_of_true rfl nofun
  | cons c rest ih =>
    rw [flatMap_cons, utf16sToUtf8sLoop_char, putUtf8_char]
    by_cases null : c.toNat = 0
    · simp [null]
    by_cases fits : c.utf8Size ≤ room
    · simp [null, fits, String.utf8EncodeChar_ne_nil]
    · simpa [null, fits, Nat.lt_of_not_le fits] using ih

/-- Behind the first character that does not fit none fits into the room that is left. -/
def NoneSkipped : List Char → (room : Nat) → Prop
  | [], _ => True
  | c :: rest, room => c.toNat = 0 ∨ if c.utf8Size ≤ room then NoneSkipped rest (room - c.utf8Size)
      else ∀ later ∈ rest.takeWhile (·.toNat ≠ 0), room < later.utf8Size

theorem utf16sToUtf8sLoop_front (room : Nat) :
    (utf16sToUtf8sLoop (chars.flatMap utf16Encode) room).length ≤ room ∧
      ((∃ front, front <+: chars ∧
        utf16sToUtf8sLoop (chars.flatMap utf16Encode) room = front.flatMap String.utf8EncodeChar) ↔
        NoneSkipped chars room) := by
  induction chars generalizing room with
  | nil => exact ⟨zero_le _, iff_of_true ⟨[], nil_prefix, rfl⟩ trivial⟩
  | cons c rest ih =>
    rw [flatMap_cons, utf16sToUtf8sLoop_char, putUtf8_char, NoneSkipped]
    by_cases null : c.toNat = 0
    · rw [if_pos null]
      exact ⟨zero_le _, iff_of_true ⟨[], nil_prefix, rfl⟩ (.inl null)⟩
    rw [if_neg null, or_iff_right null]
    have size := String.length_utf8EncodeChar c
    by_cases fits : c.utf8Size ≤ room
    · obtain ⟨short, iff⟩ := ih (room - c.utf8Size)
      rw [if_pos fits, if_pos fits, ← iff, length_append]
      refine ⟨by omega, ?_, ?_⟩
      · rintro ⟨_ | ⟨d, front⟩, ahead, same⟩
        · exact absurd (append_eq_nil_iff.mp same).1 String.utf8EncodeChar_ne_nil
        · obtain ⟨rfl, shorter⟩ := cons_prefix_cons.mp ahead
          exact ⟨front, shorter, append_cancel_left same⟩
      · rintro ⟨front, ahead, same⟩
        exact ⟨c :: front, cons_prefix_cons.mpr ⟨rfl, ahead⟩, congrArg _ same⟩
    · have short := (ih room).1
      rw [if_neg fits, if_neg fits, ← utf16sToUtf8sLoop_eq_nil]
      refine ⟨short, ?_, fun none => ⟨[], nil_prefix, none⟩⟩
      rintro ⟨_ | ⟨d, front⟩, ahead, same⟩
      · exact same
      · obtain ⟨rfl, -⟩ := cons_prefix_cons.mp ahead
        rw [same, flatMap_cons, length_append] at short
        omega

/-- `utf16s_to_utf8s` on a valid string, in the byte order it is stored in: it never writes more than
`maxlen` bytes, and they are the code of a prefix exactly if no character is left out before one that is
written. -/
theorem utf16sToUtf8s_prefix_iff {bigEndian : Bool} {endian : Utf16Endian} {pwcs : List (BitVec 16)}
    (valid : pwcs.map (getUtf16 bigEndian endian) = chars.flatMap utf16Encode) (maxlen : Nat) :
    (utf16sToUtf8s bigEndian endian pwcs maxlen).length ≤ maxlen ∧ ((∃ front, front <+: chars ∧
        utf16sToUtf8s bigEndian endian pwcs maxlen = front.flatMap String.utf8EncodeChar) ↔
        NoneSkipped chars maxlen) := by
  rw [utf16sToUtf8s, valid]
  exact utf16sToUtf8sLoop_front maxlen

/-- Three letters of one byte, with room for two. -/
theorem utf16sToUtf8s_prefix_cut : utf16sToUtf8s false .big [0x6100, 0x6200, 0x6300] 2 = [0x61, 0x62] ∧
    ∃ front, front <+: ['a', 'b', 'c'] ∧
      utf16sToUtf8s false .big [0x6100, 0x6200, 0x6300] 2 = front.flatMap String.utf8EncodeChar :=
  ⟨by decide, (@utf16sToUtf8s_prefix_iff ['a', 'b', 'c'] _ _ _ (by decide) 2).2.mpr
    (by simp [NoneSkipped]; decide)⟩

/-- A letter is written behind a letter of two bytes for which there is no room. -/
theorem utf16sToUtf8s_skips : [0xe9, 0x61].map (getUtf16 false .host) = ['é', 'a'].flatMap utf16Encode ∧
    ¬ ∃ front, front <+: ['é', 'a'] ∧
      utf16sToUtf8s false .host [0xe9, 0x61] 1 = front.flatMap String.utf8EncodeChar := by
  refine ⟨by decide, fun found => ?_⟩
  have none := (utf16sToUtf8sLoop_front 1).2.mp found
  simp [NoneSkipped] at none
  revert none
  decide

theorem utf8Tail_length (l left : Nat) : (utf8Tail l left).length = left := by
  induction left with
  | zero => rfl
  | succ left ih => simp [ih]

theorem putUtf8_length {u maxlen : Nat} {next : Nat → List UInt8} (rest : ∀ room, (next room).length ≤ room) :
    (putUtf8 u maxlen next).length ≤ maxlen := by
  have rows (bytes) (written : utf32ToUtf8Loop u utf8Table maxlen = some bytes) : bytes.length ≤ maxlen := by
    rcases maxlen with - | - | - | - | - | - | maxlen
    all_goals
      simp only [utf32ToUtf8Loop, utf8Table] at written
      grind [utf8Tail_length]
  grind [putUtf8, utf32ToUtf8]

/-- No input, valid or not, makes `utf16s_to_utf8s` write more than `maxlen` bytes. -/
theorem utf16sToUtf8s_bounded (bigEndian : Bool) (endian : Utf16Endian) (pwcs : List (BitVec 16))
    (maxlen : Nat) :
    (utf16sToUtf8s bigEndian endian pwcs maxlen).length ≤ maxlen := by
  rw [utf16sToUtf8s]
  generalize pwcs.map _ = units
  -- a pair of surrogates takes two units at once
  induction shorter : units.length using Nat.strongRecOn generalizing units maxlen with
  | ind n ih =>
    have ih (rest) (less : rest.length < n) (room) : (utf16sToUtf8sLoop rest room).length ≤ room :=
      ih _ less room rest rfl
    unfold utf16sToUtf8sLoop
    grind [putUtf8_length]

/-! ### There and back -/

theorem bytesAt_add (s : Nat → BitVec 8) (pos m n : Nat) :
    bytesAt s pos (m + n) = bytesAt s pos m ++ bytesAt s (pos + m) n := by
  rw [bytesAt, ← range'_append_1, map_append]
  rfl

theorem utf16Units_char (c : Char) : (utf16Units c.toNat).map BitVec.toNat = utf16Encode c := by
  have valid := toNat_valid c
  rw [utf16Units, utf16Encode, planeSize, surrogatePair]
  generalize c.toNat = u at *
  split_ifs with high low low
  · omega
  · have mask (n : Nat) : n &&& 0x3ff = n % 2 ^ 10 := and_two_pow_sub_one_eq_mod n 10
    have first (n : Nat) : 0xd800 ||| n % 2 ^ 10 = n % 2 ^ 10 + 0xd800 := @or_eq_add 10 _ 54 (by omega)
    have second (n : Nat) : 0xd800 ||| 0x400 ||| n % 2 ^ 10 = n % 2 ^ 10 + 0xdc00 :=
      @or_eq_add 10 _ 55 (by omega)
    simp only [mask, first, second, shiftRight_eq_div_pow, map_cons, map_nil, BitVec.toNat_ofNat]
    simp only [cons.injEq, and_true]
    omega
  · simp only [map_cons, map_nil, BitVec.toNat_ofNat, cons.injEq, and_true]
    omega
  · omega

theorem utf8ToUtf32_of_append {c : Char} {more : List UInt8}
    (same : bytesAt s pos len = String.utf8EncodeChar c ++ more) :
    (utf8ToUtf32 s pos len).1 = some (c.toNat, c.utf8Size) ∧
      bytesAt s (pos + c.utf8Size) (len - c.utf8Size) = more := by
  have size := String.length_utf8EncodeChar c
  have positive := c.utf8Size_pos
  have total : len = c.utf8Size + more.length := by simpa [bytesAt, size] using congrArg length same
  rw [total, bytesAt_add] at same
  obtain ⟨front, back⟩ := append_inj same (by simp [bytesAt, size])
  refine ⟨(utf8ToUtf32_char_iff (by omega)).mpr ⟨by omega, c, rfl, front⟩, ?_⟩
  rw [total, Nat.add_sub_cancel_left, back]

/-- The loop succeeds exactly on the code of a list of characters. -/
theorem utf8sToUtf16sLoop_chars {fuel : Nat} (enough : len < fuel)
    (nonzero : ∀ i ≥ pos, i < pos + len → s i ≠ 0) :
    ∃ ret reads, utf8sToUtf16sLoop s fuel pos len = some (ret, reads) ∧
      (∀ chars : List Char, bytesAt s pos len = chars.flatMap String.utf8EncodeChar →
        ∃ units, ret = some units ∧ units.map BitVec.toNat = chars.flatMap utf16Encode) ∧
      ∀ units, ret = some units →
        ∃ chars : List Char, bytesAt s pos len = chars.flatMap String.utf8EncodeChar := by
  induction fuel generalizing pos len with
  | zero => exact absurd enough (not_lt_zero _)
  | succ fuel ih =>
    by_cases empty : len = 0
    · subst empty
      refine ⟨some [], [pos], if_pos (.inr rfl), fun chars same => ?_, fun _ _ => ⟨[], rfl⟩⟩
      cases chars with
      | nil => exact ⟨[], rfl, rfl⟩
      | cons c rest => cases String.utf8EncodeChar_ne_nil (append_eq_nil_iff.mp same.symm).1
    obtain ⟨own, -, turn⟩ := utf8sToUtf16sLoop_turn fuel empty (nonzero pos (le_refl _) (by omega))
    rw [turn]
    cases decoded : (utf8ToUtf32 s pos len).1 with
    | none =>
      refine ⟨none, own, rfl, fun chars same => ?_, nofun⟩
      cases chars with
      | nil => exact absurd (bytesAt_eq_nil.mp same) empty
      | cons c rest => cases decoded.symm.trans (utf8ToUtf32_of_append same).1
    | some pair =>
      obtain ⟨u, size⟩ := pair
      have positive := Nat.pos_of_ne_zero empty
      have bounds := (utf8ToUtf32_inside positive).2 u size decoded
      obtain ⟨fits, c, rfl, same⟩ := (utf8ToUtf32_char_iff positive).mp decoded
      obtain ⟨ret, reads, done, complete, sound⟩ := @ih (pos + size) (len - size) (by omega)
        fun i above below => nonzero i (by omega) (by omega)
      simp only [done]
      refine ⟨_, _, rfl, fun chars whole => ?_, fun units written => ?_⟩
      · cases chars with
        | nil => exact absurd (bytesAt_eq_nil.mp whole) empty
        | cons d rest =>
          -- the first character is the decoded one
          obtain ⟨found, more⟩ := utf8ToUtf32_of_append whole
          obtain ⟨equal, rfl⟩ := Prod.mk.inj (Option.some.inj (decoded.symm.trans found))
          obtain rfl := Char.toNat_inj.mp equal
          obtain ⟨units, rfl, code⟩ := complete rest more
          exact ⟨_, rfl, by rw [map_append, utf16Units_char, code, flatMap_cons]⟩
      · obtain ⟨written, rfl, -⟩ := Option.map_eq_some_iff.mp written
        obtain ⟨chars, rest⟩ := sound _ rfl
        refine ⟨c :: chars, ?_⟩
        rw [flatMap_cons, ← same, ← rest, ← bytesAt_add, Nat.add_sub_cancel' fits]

theorem utf16sToUtf8sLoop_all {chars : List Char} {room : Nat}
    (nonzero : 0 ∉ chars.flatMap String.utf8EncodeChar)
    (enough : (chars.flatMap String.utf8EncodeChar).length ≤ room) :
    utf16sToUtf8sLoop (chars.flatMap utf16Encode) room = chars.flatMap String.utf8EncodeChar := by
  induction chars generalizing room with
  | nil => rfl
  | cons c rest ih =>
    rw [flatMap_cons, mem_append, not_or] at nonzero
    rw [flatMap_cons, length_append, String.length_utf8EncodeChar] at enough
    have null : c.toNat ≠ 0 := fun null => nonzero.1 (by simp [String.utf8EncodeChar, null])
    rw [flatMap_cons, utf16sToUtf8sLoop_char, putUtf8_char, if_neg null, if_pos (by omega),
      ih nonzero.2 (by omega), flatMap_cons]

/-- `utf8s_to_utf16s` on a string without `NUL` succeeds exactly if it is the UTF-8 code of characters, whose
UTF-16 code it then writes; and `utf16s_to_utf8s` turns these units, stored in either byte order, back into
the string. -/
theorem utf8s_utf16s_inverse (s : Nat → BitVec 8) (len : Nat) (nonzero : ∀ i < len, s i ≠ 0) :
    ∃ ret reads, utf8sToUtf16s s len = some (ret, reads) ∧
      (ret.isSome ↔ ∃ chars : List Char, bytesAt s 0 len = chars.flatMap String.utf8EncodeChar) ∧
      ∀ chars : List Char, bytesAt s 0 len = chars.flatMap String.utf8EncodeChar → ∃ units, ret = some units ∧
        units.map BitVec.toNat = chars.flatMap utf16Encode ∧
        ∀ bigEndian endian pwcs maxlen, pwcs.map (getUtf16 bigEndian endian) = units.map BitVec.toNat →
          len ≤ maxlen → utf16sToUtf8s bigEndian endian pwcs maxlen = bytesAt s 0 len := by
  obtain ⟨ret, reads, done, complete, sound⟩ := @utf8sToUtf16sLoop_chars s 0 len (len + 1) (lt_succ_self len)
    (fun i _ below => nonzero i (by omega))
  refine ⟨ret, reads, done, ⟨fun found => ?_, ?_⟩, fun chars code => ?_⟩
  · obtain ⟨units, rfl⟩ := Option.isSome_iff_exists.mp found
    exact sound units rfl
  · rintro ⟨chars, code⟩
    obtain ⟨units, rfl, -⟩ := complete chars code
    rfl
  · obtain ⟨units, rfl, same⟩ := complete chars code
    refine ⟨units, rfl, same, fun bigEndian endian pwcs maxlen stored room => ?_⟩
    have absent : 0 ∉ bytesAt s 0 len := by
      simp only [bytesAt, mem_map, mem_range'_1, not_exists, not_and]
      exact fun i below zero => nonzero i (by omega) (congrArg UInt8.toBitVec zero)
    have length : (bytesAt s 0 len).length = len := by simp [bytesAt]
    rw [utf16sToUtf8s, stored, same, code] at *
    exact utf16sToUtf8sLoop_all absent (by omega)

/-- The two bytes of a letter, to UTF-16 and back. -/
theorem utf8s_utf16s_inverse_letter : ∃ units reads, utf8sToUtf16s (fun i => [0xc3, 0xa9].getD i 0) 2 =
    some (some units, reads) ∧ utf16sToUtf8s false .host units 2 = [0xc3, 0xa9] := by
  obtain ⟨ret, reads, done, -, inverse⟩ := utf8s_utf16s_inverse (fun i => [0xc3, 0xa9].getD i 0) 2 (by decide)
  obtain ⟨units, rfl, -, back⟩ := inverse ['é'] (by decide)
  exact ⟨units, reads, done, back false .host units 2 rfl (le_refl 2)⟩

end LinuxKernel.Fs.Nls
