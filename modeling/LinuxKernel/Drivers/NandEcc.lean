/-
Module: LinuxKernel.Drivers.NandEcc
Purpose: The software ECC of `drivers/mtd/nand/nand_ecc.c`, for both byte orders and both settings of
  `CONFIG_MTD_NAND_ECC_SMC`; `blockStep` is the body of the unrolled loop. Every parity is linear in
  exclusive or, so an error changes any code in the same way, and the corrector is a function of such
  differences.
Trusted boundary: human-reviewed spec
Main exports: nandCalculateEcc, nandCorrectData, nandEcc_corrects
-/
import Mathlib

namespace LinuxKernel.Drivers.NandEcc

/-- What the code is compiled for: `__BIG_ENDIAN` and `CONFIG_MTD_NAND_ECC_SMC`. -/
structure Config where
  bigEndian : Bool
  smc : Bool
deriving DecidableEq, Repr

/-- The bytes from `buf` on. -/
abbrev Buffer := Nat → BitVec 8

/-! ### The tables -/

/-- The table `invparity`. -/
def invparityTable : List (BitVec 8) :=
   [1, 0, 0, 1, 0, 1, 1, 0, 0, 1, 1, 0, 1, 0, 0, 1,
    0, 1, 1, 0, 1, 0, 0, 1, 1, 0, 0, 1, 0, 1, 1, 0,
    0, 1, 1, 0, 1, 0, 0, 1, 1, 0, 0, 1, 0, 1, 1, 0,
    1, 0, 0, 1, 0, 1, 1, 0, 0, 1, 1, 0, 1, 0, 0, 1,
    0, 1, 1, 0, 1, 0, 0, 1, 1, 0, 0, 1, 0, 1, 1, 0,
    1, 0, 0, 1, 0, 1, 1, 0, 0, 1, 1, 0, 1, 0, 0, 1,
    1, 0, 0, 1, 0, 1, 1, 0, 0, 1, 1, 0, 1, 0, 0, 1,
    0, 1, 1, 0, 1, 0, 0, 1, 1, 0, 0, 1, 0, 1, 1, 0,
    0, 1, 1, 0, 1, 0, 0, 1, 1, 0, 0, 1, 0, 1, 1, 0,
    1, 0, 0, 1, 0, 1, 1, 0, 0, 1, 1, 0, 1, 0, 0, 1,
    1, 0, 0, 1, 0, 1, 1, 0, 0, 1, 1, 0, 1, 0, 0, 1,
    0, 1, 1, 0, 1, 0, 0, 1, 1, 0, 0, 1, 0, 1, 1, 0,
    1, 0, 0, 1, 0, 1, 1, 0, 0, 1, 1, 0, 1, 0, 0, 1,
    0, 1, 1, 0, 1, 0, 0, 1, 1, 0, 0, 1, 0, 1, 1, 0,
    0, 1, 1, 0, 1, 0, 0, 1, 1, 0, 0, 1, 0, 1, 1, 0,
    1, 0, 0, 1, 0, 1, 1, 0, 0, 1, 1, 0, 1, 0, 0, 1]

/-- `invparity[x]`. -/
def invparity (x : BitVec 8) : BitVec 8 := invparityTable.getD x.toNat 0

/-- The table `bitsperbyte`. -/
def bitsperbyteTable : List Nat :=
   [0, 1, 1, 2, 1, 2, 2, 3, 1, 2, 2, 3, 2, 3, 3, 4,
    1, 2, 2, 3, 2, 3, 3, 4, 2, 3, 3, 4, 3, 4, 4, 5,
    1, 2, 2, 3, 2, 3, 3, 4, 2, 3, 3, 4, 3, 4, 4, 5,
    2, 3, 3, 4, 3, 4, 4, 5, 3, 4, 4, 5, 4, 5, 5, 6,
    1, 2, 2, 3, 2, 3, 3, 4, 2, 3, 3, 4, 3, 4, 4, 5,
    2, 3, 3, 4, 3, 4, 4, 5, 3, 4, 4, 5, 4, 5, 5, 6,
    2, 3, 3, 4, 3, 4, 4, 5, 3, 4, 4, 5, 4, 5, 5, 6,
    3, 4, 4, 5, 4, 5, 5, 6, 4, 5, 5, 6, 5, 6, 6, 7,
    1, 2, 2, 3, 2, 3, 3, 4, 2, 3, 3, 4, 3, 4, 4, 5,
    2, 3, 3, 4, 3, 4, 4, 5, 3, 4, 4, 5, 4, 5, 5, 6,
    2, 3, 3, 4, 3, 4, 4, 5, 3, 4, 4, 5, 4, 5, 5, 6,
    3, 4, 4, 5, 4, 5, 5, 6, 4, 5, 5, 6, 5, 6, 6, 7,
    2, 3, 3, 4, 3, 4, 4, 5, 3, 4, 4, 5, 4, 5, 5, 6,
    3, 4, 4, 5, 4, 5, 5, 6, 4, 5, 5, 6, 5, 6, 6, 7,
    3, 4, 4, 5, 4, 5, 5, 6, 4, 5, 5, 6, 5, 6, 6, 7,
    4, 5, 5, 6, 5, 6, 6, 7, 5, 6, 6, 7, 6, 7, 7, 8]

/-- `bitsperbyte[x]`. -/
def bitsperbyte (x : BitVec 8) : Nat := bitsperbyteTable.getD x.toNat 0

/-- The table `addressbits`. -/
def addressbitsTable : List Nat :=
   [0, 0, 1, 1, 0, 0, 1, 1, 2, 2, 3, 3, 2, 2, 3, 3,
    0, 0, 1, 1, 0, 0, 1, 1, 2, 2, 3, 3, 2, 2, 3, 3,
    4, 4, 5, 5, 4, 4, 5, 5, 6, 6, 7, 7, 6, 6, 7, 7,
    4, 4, 5, 5, 4, 4, 5, 5, 6, 6, 7, 7, 6, 6, 7, 7,
    0, 0, 1, 1, 0, 0, 1, 1, 2, 2, 3, 3, 2, 2, 3, 3,
    0, 0, 1, 1, 0, 0, 1, 1, 2, 2, 3, 3, 2, 2, 3, 3,
    4, 4, 5, 5, 4, 4, 5, 5, 6, 6, 7, 7, 6, 6, 7, 7,
    4, 4, 5, 5, 4, 4, 5, 5, 6, 6, 7, 7, 6, 6, 7, 7,
    8, 8, 9, 9, 8, 8, 9, 9, 10, 10, 11, 11, 10, 10, 11, 11,
    8, 8, 9, 9, 8, 8, 9, 9, 10, 10, 11, 11, 10, 10, 11, 11,
    12, 12, 13, 13, 12, 12, 13, 13, 14, 14, 15, 15, 14, 14, 15, 15,
    12, 12, 13, 13, 12, 12, 13, 13, 14, 14, 15, 15, 14, 14, 15, 15,
    8, 8, 9, 9, 8, 8, 9, 9, 10, 10, 11, 11, 10, 10, 11, 11,
    8, 8, 9, 9, 8, 8, 9, 9, 10, 10, 11, 11, 10, 10, 11, 11,
    12, 12, 13, 13, 12, 12, 13, 13, 14, 14, 15, 15, 14, 14, 15, 15,
    12, 12, 13, 13, 12, 12, 13, 13, 14, 14, 15, 15, 14, 14, 15, 15]

/-- `addressbits[x]`. -/
def addressbits (x : BitVec 8) : Nat := addressbitsTable.getD x.toNat 0

/-! ### The code of a block -/

/-- `bp[i]`, where `bp` is `(uint32_t *)buf`. -/
def wordAt (config : Config) (buf : Buffer) (i : Nat) : BitVec 32 :=
  if config.bigEndian then buf (4 * i) ++ buf (4 * i + 1) ++ buf (4 * i + 2) ++ buf (4 * i + 3)
  else buf (4 * i + 3) ++ buf (4 * i + 2) ++ buf (4 * i + 1) ++ buf (4 * i)

/-- The parities that the loop accumulates. -/
structure Parities where
  par : BitVec 32
  rp4 : BitVec 32
  rp6 : BitVec 32
  rp8 : BitVec 32
  rp10 : BitVec 32
  rp12 : BitVec 32
  rp14 : BitVec 32
  rp16 : BitVec 32
deriving DecidableEq, Repr

/-- One turn of the loop; `cur k` is the k-th word that the turn reads. -/
def blockStep (eccsizeMult i : Nat) (cur : Nat → BitVec 32) (p : Parities) : Parities :=
  let tmppar := cur 0
  let rp4 := p.rp4 ^^^ cur 0
  let tmppar := tmppar ^^^ cur 1
  let rp6 := p.rp6 ^^^ tmppar
  let tmppar := tmppar ^^^ cur 2
  let rp4 := rp4 ^^^ cur 2
  let tmppar := tmppar ^^^ cur 3
  let rp8 := p.rp8 ^^^ tmppar
  let tmppar := tmppar ^^^ cur 4
  let rp4 := rp4 ^^^ cur 4
  let rp6 := rp6 ^^^ cur 4
  let tmppar := tmppar ^^^ cur 5
  let rp6 := rp6 ^^^ cur 5
  let tmppar := tmppar ^^^ cur 6
  let rp4 := rp4 ^^^ cur 6
  let tmppar := tmppar ^^^ cur 7
  let rp10 := p.rp10 ^^^ tmppar
  let tmppar := tmppar ^^^ cur 8
  let rp4 := rp4 ^^^ cur 8
  let rp6 := rp6 ^^^ cur 8
  let rp8 := rp8 ^^^ cur 8
  let tmppar := tmppar ^^^ cur 9
  let rp6 := rp6 ^^^ cur 9
  let rp8 := rp8 ^^^ cur 9
  let tmppar := tmppar ^^^ cur 10
  let rp4 := rp4 ^^^ cur 10
  let rp8 := rp8 ^^^ cur 10
  let tmppar := tmppar ^^^ cur 11
  let rp8 := rp8 ^^^ cur 11
  let tmppar := tmppar ^^^ cur 12
  let rp4 := rp4 ^^^ cur 12
  let rp6 := rp6 ^^^ cur 12
  let tmppar := tmppar ^^^ cur 13
  let rp6 := rp6 ^^^ cur 13
  let tmppar := tmppar ^^^ cur 14
  let rp4 := rp4 ^^^ cur 14
  let tmppar := tmppar ^^^ cur 15
  { par := p.par ^^^ tmppar
    rp4 := rp4
    rp6 := rp6
    rp8 := rp8
    rp10 := rp10
    rp12 := if i &&& 0x1 = 0 then p.rp12 ^^^ tmppar else p.rp12
    rp14 := if i &&& 0x2 = 0 then p.rp14 ^^^ tmppar else p.rp14
    rp16 := if eccsizeMult = 2 ∧ i &&& 0x4 = 0 then p.rp16 ^^^ tmppar else p.rp16 }

/-- The parities after the first turns of the loop. -/
def blockLoop (eccsizeMult : Nat) (word : Nat → BitVec 32) : Nat → Parities
  | 0 => ⟨0, 0, 0, 0, 0, 0, 0, 0⟩
  | i + 1 => blockStep eccsizeMult i (fun k => word (16 * i + k)) (blockLoop eccsizeMult word i)

/-- `rp ^= (rp >> 16); rp ^= (rp >> 8); rp &= 0xff`. -/
def foldWord (rp : BitVec 32) : BitVec 8 :=
  let rp := rp ^^^ rp >>> 16
  (rp ^^^ rp >>> 8).setWidth 8

/-- `rp ^= (rp >> 8); rp &= 0xff`, for a half of a word. -/
def foldHalf (rp : BitVec 32) : BitVec 8 := (rp ^^^ rp >>> 8).setWidth 8

/-- Eight parities in a byte. -/
def packByte (r7 r6 r5 r4 r3 r2 r1 r0 : BitVec 8) : BitVec 8 :=
  invparity r7 <<< 7 ||| invparity r6 <<< 6 ||| invparity r5 <<< 5 ||| invparity r4 <<< 4 |||
    invparity r3 <<< 3 ||| invparity r2 <<< 2 ||| invparity r1 <<< 1 ||| invparity r0

/-- The six column parities, in the upper bits of a byte. -/
def packColumns (par : BitVec 8) : BitVec 8 :=
  invparity (par &&& 0xf0) <<< 7 ||| invparity (par &&& 0x0f) <<< 6 ||| invparity (par &&& 0xcc) <<< 5 |||
    invparity (par &&& 0x33) <<< 4 ||| invparity (par &&& 0xaa) <<< 3 ||| invparity (par &&& 0x55) <<< 2

/-- The three bytes of an ECC: `code[0]`, `code[1]` and `code[2]`. -/
structure Code where
  code0 : BitVec 8
  code1 : BitVec 8
  code2 : BitVec 8
deriving DecidableEq, Repr

/-- The ECC for the parities of a block, the part of `nand_calculate_ecc` after the loop. -/
def packCode (config : Config) (eccsizeMult : Nat) (p : Parities) : Code :=
  let rp4 := foldWord p.rp4
  let rp6 := foldWord p.rp6
  let rp8 := foldWord p.rp8
  let rp10 := foldWord p.rp10
  let rp12 := foldWord p.rp12
  let rp14 := foldWord p.rp14
  let rp16 := foldWord p.rp16
  let rp2 := if config.bigEndian then foldHalf (p.par >>> 16) else foldHalf (p.par &&& 0xffff)
  let rp3 := if config.bigEndian then foldHalf (p.par &&& 0xffff) else foldHalf (p.par >>> 16)
  let par := p.par ^^^ p.par >>> 16
  let rp0 := if config.bigEndian then (par >>> 8).setWidth 8 else par.setWidth 8
  let rp1 := if config.bigEndian then par.setWidth 8 else (par >>> 8).setWidth 8
  let par := (par ^^^ par >>> 8).setWidth 8
  let rp5 := par ^^^ rp4
  let rp7 := par ^^^ rp6
  let rp9 := par ^^^ rp8
  let rp11 := par ^^^ rp10
  let rp13 := par ^^^ rp12
  let rp15 := par ^^^ rp14
  let rp17 := par ^^^ rp16
  let low := packByte rp7 rp6 rp5 rp4 rp3 rp2 rp1 rp0
  let high := packByte rp15 rp14 rp13 rp12 rp11 rp10 rp9 rp8
  let code2 :=
    if eccsizeMult = 1 then packColumns par ||| 3
    else packColumns par ||| invparity rp17 <<< 1 ||| invparity rp16 <<< 0
  if config.smc then ⟨low, high, code2⟩ else ⟨high, low, code2⟩

/-- `nand_calculate_ecc(mtd, buf, code)` for a chip with `ecc.size` of 256 or 512 bytes. -/
def nandCalculateEcc (config : Config) (eccsize : Nat) (buf : Buffer) : Code :=
  let eccsizeMult := eccsize >>> 8
  packCode config eccsizeMult (blockLoop eccsizeMult (wordAt config buf) (eccsizeMult <<< 2))

/-! ### Correction -/

/-- `__nand_correct_data(buf, read_ecc, calc_ecc, eccsize)`: the value that it returns, and the buffer. -/
def nandCorrectData (config : Config) (buf : Buffer) (readEcc calcEcc : Code) (eccsize : Nat) :
    Int × Buffer :=
  let eccsizeMult := eccsize >>> 8
  let b0 := if config.smc then readEcc.code0 ^^^ calcEcc.code0 else readEcc.code1 ^^^ calcEcc.code1
  let b1 := if config.smc then readEcc.code1 ^^^ calcEcc.code1 else readEcc.code0 ^^^ calcEcc.code0
  let b2 := readEcc.code2 ^^^ calcEcc.code2
  if b0 ||| b1 ||| b2 = 0 then (0, buf)
  else if (b0 ^^^ b0 >>> 1) &&& 0x55 = 0x55 ∧ (b1 ^^^ b1 >>> 1) &&& 0x55 = 0x55 ∧
      ((eccsizeMult = 1 ∧ (b2 ^^^ b2 >>> 1) &&& 0x54 = 0x54) ∨
        (eccsizeMult = 2 ∧ (b2 ^^^ b2 >>> 1) &&& 0x55 = 0x55)) then
    let byteAddr :=
      if eccsizeMult = 1 then addressbits b1 <<< 4 + addressbits b0
      else addressbits (b2 &&& 0x3) <<< 8 + addressbits b1 <<< 4 + addressbits b0
    let bitAddr := addressbits (b2 >>> 2)
    (1, Function.update buf byteAddr (buf byteAddr ^^^ (1 : BitVec 8) <<< bitAddr))
  else if bitsperbyte b0 + bitsperbyte b1 + bitsperbyte b2 = 1 then (1, buf)
  else (-1, buf)

open BitVec Bool

variable {config : Config} {eccsizeMult eccsize byte bit : Nat}

/-! ### Parity -/

/-- Whether the number of bits that are set is odd. -/
def parity (x : BitVec 8) : Bool :=
  x.getLsbD 0 ^^ x.getLsbD 1 ^^ x.getLsbD 2 ^^ x.getLsbD 3 ^^ x.getLsbD 4 ^^ x.getLsbD 5 ^^ x.getLsbD
    6 ^^ x.getLsbD 7

theorem parity_xor (x y : BitVec 8) : parity (x ^^^ y) = (parity x ^^ parity y) := by
  have : Std.Commutative xor := ⟨xor_comm⟩
  simp only [parity, getLsbD_xor]
  ac_rfl

/-- A bit, as a byte. -/
def bitOf (b : Bool) : BitVec 8 := if b then 1 else 0

theorem invparityTable_eq : invparityTable = (List.range 256).map fun n => bitOf (!parity (.ofNat 8 n)) := by
  decide +kernel

theorem invparity_eq (x : BitVec 8) : invparity x = bitOf (!parity x) := by
  have inRange : (List.range 256)[x.toNat]? = some x.toNat := List.getElem?_range x.isLt
  rw [invparity, invparityTable_eq, List.getD_eq_getElem?_getD, List.getElem?_map, inRange]
  simp

/-- The byte of eight bits. -/
def packBits (f : Nat → Bool) : BitVec 8 :=
  bitOf (f 7) <<< 7 ||| bitOf (f 6) <<< 6 ||| bitOf (f 5) <<< 5 ||| bitOf (f 4) <<< 4 |||
    bitOf (f 3) <<< 3 ||| bitOf (f 2) <<< 2 ||| bitOf (f 1) <<< 1 ||| bitOf (f 0)

theorem getLsbD_bitOf (b : Bool) (i : Nat) : (bitOf b).getLsbD i = (decide (i = 0) && b) := by
  cases b
  · simp [bitOf]
  · simp [bitOf]

theorem getLsbD_packBits (f : Nat → Bool) {i : Nat} (small : i < 8) : (packBits f).getLsbD i = f i := by
  simp only [packBits, getLsbD_or, getLsbD_shiftLeft, getLsbD_bitOf]
  interval_cases i <;> simp

theorem packBits_xor (f g : Nat → Bool) : packBits f ^^^ packBits g = packBits fun i => f i ^^ g i := by
  apply eq_of_getLsbD_eq
  intro i small
  rw [getLsbD_xor, getLsbD_packBits f small, getLsbD_packBits g small, getLsbD_packBits _ small]

variable {f g : Nat → Bool} {w pos k : Nat}

theorem packBits_congr (same : ∀ i < 8, f i = g i) : packBits f = packBits g := by
  apply eq_of_getLsbD_eq
  intro i small
  rw [getLsbD_packBits f small, getLsbD_packBits g small, same i small]

/-! ### The loop -/

/-- The exclusive or of the parities of two blocks. -/
def Parities.xor (p e : Parities) : Parities :=
  ⟨p.par ^^^ e.par, p.rp4 ^^^ e.rp4, p.rp6 ^^^ e.rp6, p.rp8 ^^^ e.rp8, p.rp10 ^^^ e.rp10, p.rp12 ^^^ e.rp12,
    p.rp14 ^^^ e.rp14, p.rp16 ^^^ e.rp16⟩

theorem blockStep_xor (i : Nat) (cur cur' : Nat → BitVec 32) (p e : Parities) :
    blockStep eccsizeMult i (fun k => cur k ^^^ cur' k) (p.xor e) =
      (blockStep eccsizeMult i cur p).xor (blockStep eccsizeMult i cur' e) := by
  simp only [blockStep, Parities.xor, Parities.mk.injEq]
  refine ⟨by ac_rfl, by ac_rfl, by ac_rfl, by ac_rfl, by ac_rfl, ?_, ?_, ?_⟩
  all_goals
    split_ifs
    · ac_rfl
    · rfl

theorem blockLoop_xor (word word' : Nat → BitVec 32) (n : Nat) :
    blockLoop eccsizeMult (fun i => word i ^^^ word' i) n =
      (blockLoop eccsizeMult word n).xor (blockLoop eccsizeMult word' n) := by
  induction n with
  | zero => simp [blockLoop, Parities.xor]
  | succ n ih => rw [blockLoop, ih, blockStep_xor, blockLoop, blockLoop]

/-- A word where a parity takes it in. -/
def taken (b : Bool) (δ : BitVec 32) : BitVec 32 := if b then δ else 0

/-- What a word adds to the parities: `q` is its place in the turn `c` that reads it. -/
def contribution (eccsizeMult c q : Nat) (δ : BitVec 32) : Parities :=
  ⟨δ, taken (!q.testBit 0) δ, taken (!q.testBit 1) δ, taken (!q.testBit 2) δ, taken (!q.testBit 3) δ,
    taken (!c.testBit 0) δ, taken (!c.testBit 1) δ, taken (decide (eccsizeMult = 2) && !c.testBit 2) δ⟩

theorem and_two_pow_eq_zero (i k : Nat) : i &&& 2 ^ k = 0 ↔ i.testBit k = false := by
  rw [Nat.and_two_pow]
  cases i.testBit k <;> simp

theorem blockStep_unit (i : Nat) {q : Nat} (small : q < 16) (δ : BitVec 32) :
    blockStep eccsizeMult i (fun k => if k = q then δ else 0) ⟨0, 0, 0, 0, 0, 0, 0, 0⟩ =
      contribution eccsizeMult i q δ := by
  have bit1 : i &&& 2 = 0 ↔ i.testBit 1 = false := and_two_pow_eq_zero i 1
  have bit2 : i &&& 4 = 0 ↔ i.testBit 2 = false := and_two_pow_eq_zero i 2
  simp only [blockStep, contribution, taken, bit1, bit2]
  interval_cases q <;> simp [Nat.testBit]

theorem blockStep_congr {cur cur' : Nat → BitVec 32} (i : Nat) (p : Parities)
    (same : ∀ k < 16, cur k = cur' k) :
    blockStep eccsizeMult i cur p = blockStep eccsizeMult i cur' p := by
  simp (disch := decide) only [blockStep, same]

theorem blockStep_zero (i : Nat) (p : Parities) : blockStep eccsizeMult i (fun _ => 0) p = p := by
  simp [blockStep]

/-- One word that is not zero is seen by its own turn only. -/
theorem blockLoop_unit (w : Nat) (δ : BitVec 32) (n : Nat) :
    blockLoop eccsizeMult (fun i => if i = w then δ else 0) n =
      if w / 16 < n then contribution eccsizeMult (w / 16) (w % 16) δ else ⟨0, 0, 0, 0, 0, 0, 0, 0⟩ := by
  induction n with
  | zero => rfl
  | succ n ih =>
    rw [blockLoop, ih]
    by_cases here : w / 16 = n
    · have words : (fun k => if 16 * n + k = w then δ else 0) = fun k => if k = w % 16 then δ else 0 := by
        funext k
        exact if_congr (by omega) rfl rfl
      rw [words, if_neg (by omega), if_pos (by omega), here, blockStep_unit _ (Nat.mod_lt _ (by decide))]
    · rw [blockStep_congr n _ fun k small => if_neg (by omega), blockStep_zero]
      exact if_congr (by omega) rfl rfl

/-! ### Words and bytes -/

/-- One bit, in a block of zeros. -/
def unit (byte bit : Nat) : Buffer := fun n => if n = byte then (1 : BitVec 8) <<< bit else 0

/-- The block with one bit flipped. -/
def flipBit (buf : Buffer) (byte bit : Nat) : Buffer :=
  Function.update buf byte (buf byte ^^^ (1 : BitVec 8) <<< bit)

theorem flipBit_eq (buf : Buffer) : flipBit buf byte bit = fun n => buf n ^^^ unit byte bit n := by
  funext n
  by_cases here : n = byte
  · rw [flipBit, here, Function.update_self, unit, if_pos rfl]
  · rw [flipBit, Function.update_of_ne here, unit, if_neg here]
    exact xor_zero.symm

theorem flipBit_flipBit (buf : Buffer) : flipBit (flipBit buf byte bit) byte bit = buf := by
  rw [flipBit_eq, flipBit_eq]
  funext n
  rw [BitVec.xor_assoc, BitVec.xor_self, BitVec.xor_zero]

theorem append_xor_append {v : Nat} (a b : BitVec v) (c d : BitVec w) :
    (a ^^^ b) ++ (c ^^^ d) = (a ++ c) ^^^ (b ++ d) := by
  apply eq_of_getLsbD_eq
  intro i _
  simp only [getLsbD_append, getLsbD_xor]
  split <;> rfl

theorem wordAt_xor (a b : Buffer) :
    wordAt config (fun n => a n ^^^ b n) = fun i => wordAt config a i ^^^ wordAt config b i := by
  funext i
  unfold wordAt
  simp only [append_xor_append]
  split_ifs <;> rfl

/-- The byte of a word at an address, counted from the right. -/
def lane (config : Config) (byte : Nat) : Nat := if config.bigEndian then 3 - byte % 4 else byte % 4

theorem lane_byte : ∀ bit < 8,
    (1 : BitVec 8) <<< bit ++ (0 : BitVec 8) ++ (0 : BitVec 8) ++ (0 : BitVec 8) =
      (1 : BitVec 32) <<< (8 * 3 + bit) ∧
    (0 : BitVec 8) ++ (1 : BitVec 8) <<< bit ++ (0 : BitVec 8) ++ (0 : BitVec 8) =
      (1 : BitVec 32) <<< (8 * 2 + bit) ∧
    (0 : BitVec 8) ++ (0 : BitVec 8) ++ (1 : BitVec 8) <<< bit ++ (0 : BitVec 8) =
      (1 : BitVec 32) <<< (8 * 1 + bit) ∧
    (0 : BitVec 8) ++ (0 : BitVec 8) ++ (0 : BitVec 8) ++ (1 : BitVec 8) <<< bit =
      (1 : BitVec 32) <<< (8 * 0 + bit) := by
  decide

theorem wordAt_unit (small : bit < 8) : wordAt config (unit byte bit) =
      fun i => if i = byte / 4 then (1 : BitVec 32) <<< (8 * lane config byte + bit) else 0 := by
  obtain ⟨lane3, lane2, lane1, lane0⟩ := lane_byte bit small
  funext i
  unfold wordAt lane unit
  by_cases here : i = byte / 4
  · rw [if_pos here]
    obtain ⟨place, below, rfl⟩ : ∃ place < 4, byte = 4 * i + place := ⟨byte % 4, by omega, by omega⟩
    have lanes : (4 * i + place) % 4 = place := by omega
    rw [lanes]
    interval_cases place <;> cases config.bigEndian
    · simpa using lane0
    · simpa using lane3
    · simpa using lane1
    · simpa using lane2
    · simpa using lane2
    · simpa using lane1
    · simpa using lane3
    · simpa using lane0
  · rw [if_neg here, if_neg (show 4 * i ≠ byte by omega), if_neg (show 4 * i + 1 ≠ byte by omega),
      if_neg (show 4 * i + 2 ≠ byte by omega), if_neg (show 4 * i + 3 ≠ byte by omega), ite_self]
    rfl

/-! ### From the parities to the code -/

/-- `rp0` to `rp17` as bytes. -/
def row (config : Config) (p : Parities) : Nat → BitVec 8
  | 0 =>
    if config.bigEndian then ((p.par ^^^ p.par >>> 16) >>> 8).setWidth 8
    else (p.par ^^^ p.par >>> 16).setWidth 8
  | 1 =>
    if config.bigEndian then (p.par ^^^ p.par >>> 16).setWidth 8
    else ((p.par ^^^ p.par >>> 16) >>> 8).setWidth 8
  | 2 => if config.bigEndian then foldHalf (p.par >>> 16) else foldHalf (p.par &&& 0xffff)
  | 3 => if config.bigEndian then foldHalf (p.par &&& 0xffff) else foldHalf (p.par >>> 16)
  | 4 => foldWord p.rp4
  | 5 => foldWord p.par ^^^ foldWord p.rp4
  | 6 => foldWord p.rp6
  | 7 => foldWord p.par ^^^ foldWord p.rp6
  | 8 => foldWord p.rp8
  | 9 => foldWord p.par ^^^ foldWord p.rp8
  | 10 => foldWord p.rp10
  | 11 => foldWord p.par ^^^ foldWord p.rp10
  | 12 => foldWord p.rp12
  | 13 => foldWord p.par ^^^ foldWord p.rp12
  | 14 => foldWord p.rp14
  | 15 => foldWord p.par ^^^ foldWord p.rp14
  | 16 => foldWord p.rp16
  | _ => foldWord p.par ^^^ foldWord p.rp16

/-- The columns that the upper bits of the last byte are parities of. -/
def columnMask : Nat → BitVec 8
  | 7 => 0xf0
  | 6 => 0x0f
  | 5 => 0xcc
  | 4 => 0x33
  | 3 => 0xaa
  | _ => 0x55

/-- The bytes whose parities make the last byte of the code. -/
def lastRow (config : Config) (p : Parities) (i : Nat) : BitVec 8 :=
  if i < 2 then row config p (16 + i) else foldWord p.par &&& columnMask i

theorem packByte_eq (f : Nat → BitVec 8) :
    packByte (f 7) (f 6) (f 5) (f 4) (f 3) (f 2) (f 1) (f 0) = packBits fun i => !parity (f i) := by
  simp only [packByte, packBits, invparity_eq]

theorem packCode_eq (p : Parities) : packCode config eccsizeMult p =
      let low := packBits fun i => !parity (row config p i)
      let high := packBits fun i => !parity (row config p (8 + i))
      let last := packBits fun i => !parity (lastRow config p i)
      let last := if eccsizeMult = 1 then last ||| 3 else last
      if config.smc then ⟨low, high, last⟩ else ⟨high, low, last⟩ := by
  have ones (a b : Bool) : bitOf a <<< 1 ||| bitOf b ||| 3 = 3 := by
    cases a <;> cases b <;> rfl
  have lastEq : packByte (lastRow config p 7) (lastRow config p 6) (lastRow config p 5) (lastRow config p 4)
      (lastRow config p 3) (lastRow config p 2) (lastRow config p 1) (lastRow config p 0) =
        packColumns (foldWord p.par) ||| invparity (row config p 17) <<< 1 ||| invparity
          (row config p 16) <<< 0 := by
    rw [shiftLeft_zero]
    rfl
  simp only [← packByte_eq, lastEq]
  by_cases one : eccsizeMult = 1
  · have three : packColumns (foldWord p.par) ||| invparity (row config p 17) <<< 1 |||
        invparity (row config p 16) <<< 0 ||| 3 = packColumns (foldWord p.par) ||| 3 := by
      rw [BitVec.shiftLeft_zero, invparity_eq, invparity_eq, BitVec.or_assoc, BitVec.or_assoc,
        ← BitVec.or_assoc _ _ 3,
        ones]
    rw [three]
    simp only [packCode]
    rfl
  · simp only [packCode, if_neg one]
    rfl

theorem foldWord_xor (a b : BitVec 32) : foldWord (a ^^^ b) = foldWord a ^^^ foldWord b := by
  simp only [foldWord, ushiftRight_xor_distrib, setWidth_xor]
  ac_rfl

theorem foldHalf_xor (a b : BitVec 32) : foldHalf (a ^^^ b) = foldHalf a ^^^ foldHalf b := by
  simp only [foldHalf, ushiftRight_xor_distrib, setWidth_xor]
  ac_rfl

theorem xor_and_mask (a b mask : BitVec w) : (a ^^^ b) &&& mask = (a &&& mask) ^^^ (b &&& mask) := by
  apply eq_of_getLsbD_eq
  intro i _
  simp only [getLsbD_and, getLsbD_xor, and_xor_distrib_right]

theorem row_xor (p e : Parities) (k : Nat) : row config (p.xor e) k = row config p k ^^^ row config e k := by
  unfold row
  cases config.bigEndian <;>
  split <;> simp only [Parities.xor, foldWord_xor, foldHalf_xor, ushiftRight_xor_distrib, setWidth_xor,
    xor_and_mask, if_true, if_false, false_eq_true] <;> ac_rfl

theorem lastRow_xor (p e : Parities) (i : Nat) :
    lastRow config (p.xor e) i = lastRow config p i ^^^ lastRow config e i := by
  unfold lastRow
  split_ifs
  · rw [row_xor]
  · rw [Parities.xor, foldWord_xor]
    exact xor_and_mask _ _ _

/-! ### The difference that an error makes -/

/-- The bits of an address and their complements, in pairs. -/
def addressPair (n i : Nat) : Bool := if i % 2 = 1 then n.testBit (i / 2) else !n.testBit (i / 2)

theorem addressPair_add (n k i : Nat) : addressPair n (2 * k + i) = addressPair (n / 2 ^ k) i := by
  have half : (2 * k + i) / 2 = k + i / 2 := by omega
  rw [addressPair, addressPair, Nat.mul_add_mod, half, Nat.testBit_div_two_pow, Nat.add_comm k]

theorem parity_fold : ∀ pos < 32, parity (foldWord ((1 : BitVec 32) <<< pos)) = true := by decide

theorem parity_taken (small : pos < 32) (b : Bool) :
    parity (foldWord (taken b ((1 : BitVec 32) <<< pos))) = b := by
  cases b with
  | false => exact (by decide : parity (foldWord 0) = false)
  | true => exact parity_fold pos small

theorem parity_untaken (small : pos < 32) (b : Bool) :
    parity (foldWord ((1 : BitVec 32) <<< pos) ^^^ foldWord (taken b ((1 : BitVec 32) <<< pos))) = !b := by
  rw [parity_xor, parity_fold pos small, parity_taken small, true_xor]

theorem parity_low : ∀ big : Bool, ∀ r < 4, ∀ bit < 8, ∀ k < 4,
    parity (row ⟨big, false⟩ ⟨(1 : BitVec 32) <<< (8 * (if big then 3 - r else r) + bit), 0, 0, 0,
      0, 0, 0, 0⟩ k) =
      addressPair r k := by
  decide

theorem parity_columns : ∀ lane < 4, ∀ bit < 8, ∀ i < 6,
    parity (foldWord ((1 : BitVec 32) <<< (8 * lane + bit)) &&& columnMask (i + 2)) = addressPair bit i := by
  decide

/-- The parities that one bit changes are those that its address says. -/
theorem parity_row (small : bit < 8) (known : k < 16 ∨ k < 18 ∧ eccsizeMult = 2) :
    parity (row config (contribution eccsizeMult (byte / 4 / 16) (byte / 4 % 16)
      ((1 : BitVec 32) <<< (8 * lane config byte + bit))) k) = addressPair byte k := by
  have inWord : 8 * lane config byte + bit < 32 := by
    unfold lane
    split_ifs <;> omega
  have low (j : Nat) (below : j < 4) : (byte / 4 % 16).testBit j = byte.testBit (j + 2) := by
    rw [show 16 = 2 ^ 4 by rfl, Nat.testBit_mod_two_pow, decide_eq_true below, Bool.true_and,
      show 4 = 2 ^ 2 by rfl, Nat.testBit_div_two_pow]
  have high (j : Nat) : (byte / 4 / 16).testBit j = byte.testBit (j + 6) := by
    rw [Nat.div_div_eq_div_mul, show 4 * 16 = 2 ^ 6 by rfl, Nat.testBit_div_two_pow]
  have first (j : Nat) (below : j < 4) :=
    parity_low config.bigEndian (byte % 4) (Nat.mod_lt _ (by decide)) bit small j below
  have pair (j : Nat) (below : j < 4) : addressPair (byte % 4) j = addressPair byte j := by
    unfold addressPair
    rw [show 4 = 2 ^ 2 by rfl, Nat.testBit_mod_two_pow, decide_eq_true (by omega), Bool.true_and]
  have bound : k < 18 := by omega
  have two : 16 ≤ k → decide (eccsizeMult = 2) = true := fun _ => decide_eq_true (by omega)
  rcases Nat.lt_or_ge k 4 with below | above
  · rw [← pair k below, ← first k below]
    interval_cases k <;> rfl
  · -- an even row has a word of its own, and the next one the rest of the block
    interval_cases k
    all_goals
      simp only [row, contribution, parity_taken inWord, parity_untaken inWord]
      simp [addressPair, low, high, two]

/-- The address of an error in four bits, with the complements. -/
def spread (n : Nat) : BitVec 8 := packBits (addressPair n)

/-- `b0`, `b1` and `b2` of `__nand_correct_data`. -/
def difference (config : Config) (readEcc calcEcc : Code) : Code :=
  ⟨if config.smc then readEcc.code0 ^^^ calcEcc.code0 else readEcc.code1 ^^^ calcEcc.code1,
    if config.smc then readEcc.code1 ^^^ calcEcc.code1 else readEcc.code0 ^^^ calcEcc.code0,
    readEcc.code2 ^^^ calcEcc.code2⟩

theorem difference_packCode (p e : Parities) :
    difference config (packCode config eccsizeMult p) (packCode config eccsizeMult (p.xor e)) =
      ⟨packBits fun i => parity (row config e i), packBits fun i => parity (row config e (8 + i)),
        if eccsizeMult = 1 then (packBits fun i => parity (lastRow config e i)) &&& 0xfc
        else packBits fun i => parity (lastRow config e i)⟩ := by
  have bits (a b : Bool) : ((!a) ^^ !(a ^^ b)) = b := by cases a <;> cases b <;> rfl
  have change (f g : Nat → BitVec 8) :
      (packBits fun i => !parity (f i)) ^^^ (packBits fun i => !parity (f i ^^^ g i)) =
        packBits fun i => parity (g i) := by
    simp only [packBits_xor, parity_xor, bits]
  have three (x y : BitVec 8) : (x ||| 3) ^^^ (y ||| 3) = (x ^^^ y) &&& 0xfc := by
    apply eq_of_getLsbD_eq
    intro i below
    interval_cases i <;> simp
  rw [packCode_eq, packCode_eq]
  simp only [difference, row_xor, lastRow_xor]
  cases config.smc <;> by_cases one : eccsizeMult = 1 <;>
    simp only [one, if_true, if_false, false_eq_true, change, three]

/-- The last byte of the difference for an error. -/
def lastPairs (eccsizeMult byte bit : Nat) : BitVec 8 :=
  if eccsizeMult = 1 then spread (2 * bit) &&& 0xfc else spread (2 * bit + byte / 256)

theorem packBits_mask (same : ∀ i < 6, f (i + 2) = g (i + 2)) :
    packBits f &&& 0xfc = packBits g &&& 0xfc := by
  apply eq_of_getLsbD_eq
  intro i below
  rw [getLsbD_and, getLsbD_and, getLsbD_packBits f below, getLsbD_packBits g below]
  by_cases low : i < 2
  · have clear : (0xfc : BitVec 8).getLsbD i = false := by
      interval_cases i <;> rfl
    rw [clear, Bool.and_false, Bool.and_false]
  · obtain ⟨j, rfl⟩ := Nat.exists_eq_add_of_le' (Nat.not_lt.mp low)
    rw [same j (by omega)]

theorem addressPair_last : ∀ h < 2, ∀ bit < 8, ∀ i < 8,
    addressPair (2 * bit + h) i = if i < 2 then addressPair h i else addressPair bit (i - 2) := by
  decide

/-- One bit changes the code of every block in the same way. -/
theorem difference_flipBit (size : eccsize = 256 ∨ eccsize = 512) (inside : byte < eccsize) (small : bit < 8)
    (buf : Buffer) :
    difference config (nandCalculateEcc config eccsize buf)
      (nandCalculateEcc config eccsize (flipBit buf byte bit)) =
      ⟨spread byte, spread (byte / 16), lastPairs (eccsize >>> 8) byte bit⟩ := by
  have turns : byte / 4 / 16 < (eccsize >>> 8) <<< 2 := by
    rcases size with rfl | rfl
    · exact (by omega : byte / 4 / 16 < 4)
    · exact (by omega : byte / 4 / 16 < 8)
  have columns (i : Nat) (below : i < 6) := parity_columns (lane config byte)
    (by unfold lane; split_ifs <;> omega) bit small i below
  unfold nandCalculateEcc
  dsimp only
  rw [flipBit_eq, wordAt_xor, blockLoop_xor, wordAt_unit small, blockLoop_unit, if_pos turns,
    difference_packCode,
    Code.mk.injEq]
  refine ⟨?_, ?_, ?_⟩
  · exact packBits_congr fun i below => parity_row small (.inl (by omega))
  · refine packBits_congr fun i below => ?_
    rw [parity_row small (.inl (by omega))]
    exact addressPair_add byte 4 i
  · rcases size with rfl | rfl
    · refine packBits_mask fun i below => ?_
      refine (columns i below).trans ?_
      exact (addressPair_last 0 (by decide) bit small (i + 2) (by omega)).symm
    · rw [if_neg (by decide)]
      refine packBits_congr fun i below => ?_
      rw [addressPair_last (byte / 256) (by omega) bit small i below, lastRow]
      by_cases low : i < 2
      · rw [if_pos low, if_pos low]
        exact (parity_row small (.inr ⟨by omega, rfl⟩)).trans (addressPair_add byte 8 i)
      · obtain ⟨j, rfl⟩ := Nat.exists_eq_add_of_le' (Nat.not_lt.mp low)
        exact columns j (by omega)

theorem difference_trans (a b c : Code) : difference config a c =
      ⟨(difference config a b).code0 ^^^ (difference config b c).code0,
        (difference config a b).code1 ^^^ (difference config b c).code1,
        (difference config a b).code2 ^^^ (difference config b c).code2⟩ := by
  have chain (x y z : BitVec 8) : x ^^^ z = (x ^^^ y) ^^^ (y ^^^ z) := by
    rw [BitVec.xor_assoc, ← BitVec.xor_assoc y, BitVec.xor_self, BitVec.zero_xor]
  unfold difference
  cases config.smc
  · simp only [false_eq_true, if_false, ← chain]
  · simp only [if_true, ← chain]

/-! ### The corrector -/

theorem spread_mod (n : Nat) : spread (n % 16) = spread n := by
  refine packBits_congr fun i below => ?_
  unfold addressPair
  rw [show 16 = 2 ^ 4 by rfl, Nat.testBit_mod_two_pow, decide_eq_true (by omega), Bool.true_and]

theorem spread_single : ∀ a < 16,
    (spread a ^^^ spread a >>> 1) &&& 0x55 = 0x55 ∧ addressbits (spread a) = a ∧ spread a ≠ 0 := by
  decide

theorem lastPairs_single : ∀ bit < 8,
    (let b2 := spread (2 * bit) &&& 0xfc; (b2 ^^^ b2 >>> 1) &&& 0x54 = 0x54 ∧ addressbits (b2 >>> 2) = bit) ∧
      ∀ h < 2, let b2 := spread (2 * bit + h)
        (b2 ^^^ b2 >>> 1) &&& 0x55 = 0x55 ∧ addressbits (b2 >>> 2) = bit ∧ addressbits (b2 &&& 0x3) = h := by
  decide

theorem spread_double : ∀ a < 16, ∀ a' < 16, let b := spread a ^^^ spread a'
    (b ^^^ b >>> 1) &&& 0x55 = 0 ∧ bitsperbyte b % 2 = 0 ∧ bitsperbyte (b &&& 0xfc) % 2 = 0 ∧
      (b = 0 → a = a') ∧ (b &&& 0xfc = 0 → a / 2 = a' / 2) := by
  decide

theorem bitsperbyte_single : ∀ k < 8, bitsperbyte ((1 : BitVec 8) <<< k) = 1 := by
  decide

/-- What `__nand_correct_data` does with `b0`, `b1` and `b2`. -/
def correctDifference (eccsizeMult : Nat) (buf : Buffer) (b : Code) : Int × Buffer :=
  if b.code0 ||| b.code1 ||| b.code2 = 0 then (0, buf)
  else if (b.code0 ^^^ b.code0 >>> 1) &&& 0x55 = 0x55 ∧ (b.code1 ^^^ b.code1 >>> 1) &&& 0x55 = 0x55 ∧
      ((eccsizeMult = 1 ∧ (b.code2 ^^^ b.code2 >>> 1) &&& 0x54 = 0x54) ∨
        (eccsizeMult = 2 ∧ (b.code2 ^^^ b.code2 >>> 1) &&& 0x55 = 0x55)) then
    (1, flipBit buf
      (if eccsizeMult = 1 then addressbits b.code1 <<< 4 + addressbits b.code0
        else addressbits (b.code2 &&& 0x3) <<< 8 + addressbits b.code1 <<< 4 + addressbits b.code0)
      (addressbits (b.code2 >>> 2)))
  else if bitsperbyte b.code0 + bitsperbyte b.code1 + bitsperbyte b.code2 = 1 then (1, buf)
  else (-1, buf)

theorem nandCorrectData_eq (buf : Buffer) (readEcc calcEcc : Code) :
    nandCorrectData config buf readEcc calcEcc eccsize =
      correctDifference (eccsize >>> 8) buf (difference config readEcc calcEcc) := rfl

theorem or_eq_zero {x y z : BitVec 8} (zero : x ||| y ||| z = 0) : x = 0 ∧ y = 0 ∧ z = 0 := by
  obtain ⟨both, last⟩ := or_eq_zero_iff.mp zero
  obtain ⟨first, second⟩ := or_eq_zero_iff.mp both
  exact ⟨first, second, last⟩

theorem correctDifference_single (size : eccsize = 256 ∨ eccsize = 512) (inside : byte < eccsize)
    (small : bit < 8)
    (buf : Buffer) :
    correctDifference (eccsize >>> 8) buf ⟨spread byte, spread (byte / 16),
      lastPairs (eccsize >>> 8) byte bit⟩ =
      (1, flipBit buf byte bit) := by
  obtain ⟨pairs0, address0, nonzero⟩ := spread_single (byte % 16) (Nat.mod_lt _ (by decide))
  obtain ⟨pairs1, address1, -⟩ := spread_single (byte / 16 % 16) (Nat.mod_lt _ (by decide))
  rw [spread_mod] at pairs0 address0 nonzero pairs1 address1
  obtain ⟨⟨pairs2, address2⟩, wide⟩ := lastPairs_single bit small
  rw [correctDifference, if_neg fun zero => nonzero (or_eq_zero zero).1]
  rcases size with rfl | rfl
  · rw [if_pos ⟨pairs0, pairs1, .inl ⟨rfl, pairs2⟩⟩, if_pos (by decide), address0, address1]
    dsimp only [lastPairs]
    rw [if_pos (by decide), address2, Nat.shiftLeft_eq, show byte / 16 % 16 * 2 ^ 4 + byte % 16 =
      byte by omega]
  · obtain ⟨pairs2, address2, top⟩ := wide (byte / 256) (by omega)
    rw [if_pos ⟨pairs0, pairs1, .inr ⟨rfl, pairs2⟩⟩, if_neg (by decide), address0, address1]
    dsimp only [lastPairs]
    rw [if_neg (by decide), address2, top, Nat.shiftLeft_eq, Nat.shiftLeft_eq,
      show byte / 256 * 2 ^ 8 + byte / 16 % 16 * 2 ^ 4 + byte % 16 = byte by omega]

theorem correctDifference_double {byte' bit' : Nat} (size : eccsize = 256 ∨ eccsize = 512)
    (inside : byte < eccsize)
    (inside' : byte' < eccsize) (small : bit < 8) (small' : bit' < 8) (other : (byte, bit) ≠ (byte', bit'))
    (buf : Buffer) :
    correctDifference (eccsize >>> 8) buf
      ⟨spread byte ^^^ spread byte', spread (byte / 16) ^^^ spread (byte' / 16),
        lastPairs (eccsize >>> 8) byte bit ^^^ lastPairs (eccsize >>> 8) byte' bit'⟩ = (-1, buf) := by
  obtain ⟨equal0, even0, -, same0, -⟩ :=
    spread_double (byte % 16) (Nat.mod_lt _ (by decide)) (byte' % 16) (Nat.mod_lt _ (by decide))
  obtain ⟨-, even1, -, same1, -⟩ :=
    spread_double (byte / 16 % 16) (Nat.mod_lt _ (by decide)) (byte' / 16 % 16) (Nat.mod_lt _ (by decide))
  rw [spread_mod, spread_mod] at equal0 even0 same0 even1 same1
  have last : bitsperbyte (lastPairs (eccsize >>> 8) byte bit ^^^ lastPairs (eccsize >>> 8) byte' bit') %
    2 = 0 ∧
      (lastPairs (eccsize >>> 8) byte bit ^^^ lastPairs (eccsize >>> 8) byte' bit' = 0 →
        bit = bit' ∧ byte / 256 = byte' / 256) := by
    rcases size with rfl | rfl
    · obtain ⟨-, -, even2, -, same2⟩ := spread_double (2 * bit) (by omega) (2 * bit') (by omega)
      dsimp only [lastPairs]
      rw [if_pos (by decide), if_pos (by decide), ← xor_and_mask]
      exact ⟨even2, fun zero => by have := same2 zero; omega⟩
    · obtain ⟨-, even2, -, same2, -⟩ :=
        spread_double (2 * bit + byte / 256) (by omega) (2 * bit' + byte' / 256) (by omega)
      exact ⟨even2, fun zero => by have := same2 zero; omega⟩
  obtain ⟨even2, same2⟩ := last
  rw [correctDifference, if_neg, if_neg, if_neg]
  · dsimp only
    omega
  · intro pairs
    rw [equal0] at pairs
    exact absurd pairs.1 (by decide)
  · intro zero
    obtain ⟨zero0, zero1, zero2⟩ := or_eq_zero zero
    have := same0 zero0
    have := same1 zero1
    obtain ⟨rfl, top⟩ := same2 zero2
    exact other (by rw [show byte = byte' by omega])

/-- An ECC with one bit of a byte flipped. -/
def flipCode (code : Code) (j k : Nat) : Code :=
  match j with
  | 0 => { code with code0 := code.code0 ^^^ (1 : BitVec 8) <<< k }
  | 1 => { code with code1 := code.code1 ^^^ (1 : BitVec 8) <<< k }
  | _ => { code with code2 := code.code2 ^^^ (1 : BitVec 8) <<< k }

theorem correctDifference_one {b : Code} (zero : b.code0 = 0 ∨ b.code1 = 0)
    (count : bitsperbyte b.code0 + bitsperbyte b.code1 + bitsperbyte b.code2 = 1) (buf : Buffer) :
    correctDifference eccsizeMult buf b = (1, buf) := by
  rw [correctDifference, if_neg, if_neg, if_pos count]
  · rintro ⟨pairs0, pairs1, -⟩
    rcases zero with zero | zero
    · rw [zero] at pairs0
      exact absurd pairs0 (by decide)
    · rw [zero] at pairs1
      exact absurd pairs1 (by decide)
  · intro none
    obtain ⟨zero0, zero1, zero2⟩ := or_eq_zero none
    rw [zero0, zero1, zero2] at count
    exact absurd count (by decide)

theorem correctDifference_code {j : Nat} (small : k < 8) (buf : Buffer) (code : Code) :
    correctDifference eccsizeMult buf (difference config (flipCode code j k) code) = (1, buf) := by
  have count := bitsperbyte_single k small
  have none : bitsperbyte 0 = 0 := by decide
  have cancel (x y : BitVec 8) : x ^^^ y ^^^ x = y := by
    rw [BitVec.xor_comm x, BitVec.xor_assoc, BitVec.xor_self, BitVec.xor_zero]
  have only (b : Code) (one : b = ⟨(1 : BitVec 8) <<< k, 0, 0⟩ ∨ b = ⟨0, (1 : BitVec 8) <<< k, 0⟩ ∨
      b = ⟨0, 0, (1 : BitVec 8) <<< k⟩) : correctDifference eccsizeMult buf b = (1, buf) := by
    rcases one with rfl | rfl | rfl
    all_goals exact correctDifference_one (by simp) (by dsimp only; rw [count, none]) buf
  apply only
  unfold difference
  cases config.smc <;> rcases j with _ | _ | j <;> simp [flipCode, cancel]

/-- The code corrects one bit of the block, is not misled by one bit of the ECC, and reports two bits of the
block. -/
theorem nandEcc_corrects (config : Config) (size : eccsize = 256 ∨ eccsize = 512) (block : Buffer) :
    (∀ byte < eccsize, ∀ bit < 8,
      let read := flipBit block byte bit
      nandCorrectData config read (nandCalculateEcc config eccsize block)
        (nandCalculateEcc config eccsize read)
        eccsize = (1, block)) ∧
    (∀ j < 3, ∀ k < 8,
      let code := nandCalculateEcc config eccsize block
      nandCorrectData config block (flipCode code j k) code eccsize = (1, block)) ∧
    ∀ byte < eccsize, ∀ bit < 8, ∀ byte' < eccsize, ∀ bit' < 8, (byte, bit) ≠ (byte', bit') →
      let read := flipBit (flipBit block byte bit) byte' bit'
      nandCorrectData config read (nandCalculateEcc config eccsize block)
        (nandCalculateEcc config eccsize read)
        eccsize = (-1, read) := by
  refine ⟨fun byte inside bit small => ?_, fun j _ k small => ?_,
    fun byte inside bit small byte' inside' bit' small' other => ?_⟩
  · dsimp only
    rw [nandCorrectData_eq, difference_flipBit size inside small, correctDifference_single size inside small,
      flipBit_flipBit]
  · exact correctDifference_code small block _
  · dsimp only
    rw [nandCorrectData_eq, difference_trans _ (nandCalculateEcc config eccsize (flipBit block byte bit)) _,
      difference_flipBit size inside small, difference_flipBit size inside' small']
    exact correctDifference_double size inside inside' small small' other _

/-- The last bit of a block of zeros of 512 bytes. -/
theorem nandEcc_corrects_last :
    let config : Config := ⟨true, false⟩
    let block : Buffer := fun _ => 0
    let read := flipBit block 511 7
    nandCorrectData config read (nandCalculateEcc config 512 block) (nandCalculateEcc config 512 read) 512 =
      (1, block) :=
  (nandEcc_corrects ⟨true, false⟩ (.inr rfl) fun _ => 0).1 511 (by decide) 7 (by decide)

end LinuxKernel.Drivers.NandEcc
