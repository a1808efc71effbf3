/-
Module: LinuxKernel.Net.Filter
Purpose: The classic socket filter of `net/core/filter.c`. The two `switch` statements of the source stay
  two separate case analyses, so an opcode one of them forgets is visible. `step_safe` is the loop
  invariant: a verified filter leaves the loop or moves `pc` strictly forward inside the program. The
  scratch array is not cleared: `execInsn_twin` compares two states that differ in it only.
Trusted boundary: human-reviewed spec
Main exports: skChkFilter, skRunFilter, Verified, skRunFilter_safe, packetReads_inBuffer_iff
-/
import Mathlib

namespace LinuxKernel.Net.Filter

/-- `struct sock_filter`, one filter block. -/
structure SockFilter where
  code : BitVec 16
  jt : BitVec 8
  jf : BitVec 8
  k : BitVec 32
deriving DecidableEq, Repr

/-! ### Instruction encoding

The class, size, mode, operation and source fields of `include/linux/filter.h`. -/

def bpfLd : BitVec 16 := 0x00
def bpfLdx : BitVec 16 := 0x01
def bpfSt : BitVec 16 := 0x02
def bpfStx : BitVec 16 := 0x03
def bpfAlu : BitVec 16 := 0x04
def bpfJmp : BitVec 16 := 0x05
def bpfRet : BitVec 16 := 0x06
def bpfMisc : BitVec 16 := 0x07

def bpfW : BitVec 16 := 0x00
def bpfH : BitVec 16 := 0x08
def bpfB : BitVec 16 := 0x10

def bpfImm : BitVec 16 := 0x00
def bpfAbs : BitVec 16 := 0x20
def bpfInd : BitVec 16 := 0x40
def bpfMem : BitVec 16 := 0x60
def bpfLen : BitVec 16 := 0x80
def bpfMsh : BitVec 16 := 0xa0

def bpfAdd : BitVec 16 := 0x00
def bpfSub : BitVec 16 := 0x10
def bpfMul : BitVec 16 := 0x20
def bpfDiv : BitVec 16 := 0x30
def bpfOr : BitVec 16 := 0x40
def bpfAnd : BitVec 16 := 0x50
def bpfLsh : BitVec 16 := 0x60
def bpfRsh : BitVec 16 := 0x70
def bpfNeg : BitVec 16 := 0x80
def bpfJa : BitVec 16 := 0x00
def bpfJeq : BitVec 16 := 0x10
def bpfJgt : BitVec 16 := 0x20
def bpfJge : BitVec 16 := 0x30
def bpfJset : BitVec 16 := 0x40

def bpfK : BitVec 16 := 0x00
def bpfX : BitVec 16 := 0x08
def bpfA : BitVec 16 := 0x10

def bpfTax : BitVec 16 := 0x00
def bpfTxa : BitVec 16 := 0x80

/-- `BPF_CLASS(code)`. -/
def bpfClass (code : BitVec 16) : BitVec 16 := code &&& 0x07

/-- `BPF_MAXINSNS`. -/
def bpfMaxInsns : Nat := 4096

/-- `BPF_MEMWORDS`, the number of scratch memory words. -/
def bpfMemWords : Nat := 16

/-- The case labels of the two `switch (code)` statements. -/
inductive Opcode where
  | aluAddX | aluAddK | aluSubX | aluSubK | aluMulX | aluMulK | aluDivX | aluDivK
  | aluAndX | aluAndK | aluOrX | aluOrK | aluLshX | aluLshK | aluRshX | aluRshK | aluNeg
  | jmpJa | jmpJgtK | jmpJgeK | jmpJeqK | jmpJsetK | jmpJgtX | jmpJgeX | jmpJeqX | jmpJsetX
  | ldWAbs | ldHAbs | ldBAbs | ldWLen | ldxWLen | ldWInd | ldHInd | ldBInd | ldxBMsh
  | ldImm | ldxImm | ldMem | ldxMem | miscTax | miscTxa | retK | retA | st | stx
deriving DecidableEq, Repr

/-- The constant a case label stands for. -/
def Opcode.code : Opcode → BitVec 16
  | .aluAddX => bpfAlu ||| bpfAdd ||| bpfX
  | .aluAddK => bpfAlu ||| bpfAdd ||| bpfK
  | .aluSubX => bpfAlu ||| bpfSub ||| bpfX
  | .aluSubK => bpfAlu ||| bpfSub ||| bpfK
  | .aluMulX => bpfAlu ||| bpfMul ||| bpfX
  | .aluMulK => bpfAlu ||| bpfMul ||| bpfK
  | .aluDivX => bpfAlu ||| bpfDiv ||| bpfX
  | .aluDivK => bpfAlu ||| bpfDiv ||| bpfK
  | .aluAndX => bpfAlu ||| bpfAnd ||| bpfX
  | .aluAndK => bpfAlu ||| bpfAnd ||| bpfK
  | .aluOrX => bpfAlu ||| bpfOr ||| bpfX
  | .aluOrK => bpfAlu ||| bpfOr ||| bpfK
  | .aluLshX => bpfAlu ||| bpfLsh ||| bpfX
  | .aluLshK => bpfAlu ||| bpfLsh ||| bpfK
  | .aluRshX => bpfAlu ||| bpfRsh ||| bpfX
  | .aluRshK => bpfAlu ||| bpfRsh ||| bpfK
  | .aluNeg => bpfAlu ||| bpfNeg
  | .jmpJa => bpfJmp ||| bpfJa
  | .jmpJgtK => bpfJmp ||| bpfJgt ||| bpfK
  | .jmpJgeK => bpfJmp ||| bpfJge ||| bpfK
  | .jmpJeqK => bpfJmp ||| bpfJeq ||| bpfK
  | .jmpJsetK => bpfJmp ||| bpfJset ||| bpfK
  | .jmpJgtX => bpfJmp ||| bpfJgt ||| bpfX
  | .jmpJgeX => bpfJmp ||| bpfJge ||| bpfX
  | .jmpJeqX => bpfJmp ||| bpfJeq ||| bpfX
  | .jmpJsetX => bpfJmp ||| bpfJset ||| bpfX
  | .ldWAbs => bpfLd ||| bpfW ||| bpfAbs
  | .ldHAbs => bpfLd ||| bpfH ||| bpfAbs
  | .ldBAbs => bpfLd ||| bpfB ||| bpfAbs
  | .ldWLen => bpfLd ||| bpfW ||| bpfLen
  | .ldxWLen => bpfLdx ||| bpfW ||| bpfLen
  | .ldWInd => bpfLd ||| bpfW ||| bpfInd
  | .ldHInd => bpfLd ||| bpfH ||| bpfInd
  | .ldBInd => bpfLd ||| bpfB ||| bpfInd
  | .ldxBMsh => bpfLdx ||| bpfB ||| bpfMsh
  | .ldImm => bpfLd ||| bpfImm
  | .ldxImm => bpfLdx ||| bpfImm
  | .ldMem => bpfLd ||| bpfMem
  | .ldxMem => bpfLdx ||| bpfMem
  | .miscTax => bpfMisc ||| bpfTax
  | .miscTxa => bpfMisc ||| bpfTxa
  | .retK => bpfRet ||| bpfK
  | .retA => bpfRet ||| bpfA
  | .st => bpfSt
  | .stx => bpfStx

/-- All case labels. -/
def Opcode.all : List Opcode :=
  [.aluAddX, .aluAddK, .aluSubX, .aluSubK, .aluMulX, .aluMulK, .aluDivX, .aluDivK,
    .aluAndX, .aluAndK, .aluOrX, .aluOrK, .aluLshX, .aluLshK, .aluRshX, .aluRshK, .aluNeg,
    .jmpJa, .jmpJgtK, .jmpJgeK, .jmpJeqK, .jmpJsetK, .jmpJgtX, .jmpJgeX, .jmpJeqX, .jmpJsetX,
    .ldWAbs, .ldHAbs, .ldBAbs, .ldWLen, .ldxWLen, .ldWInd, .ldHInd, .ldBInd, .ldxBMsh,
    .ldImm, .ldxImm, .ldMem, .ldxMem, .miscTax, .miscTxa, .retK, .retA, .st, .stx]

/-- The case label a `switch (code)` jumps to; `none` is the `default` label. -/
def Opcode.ofCode (code : BitVec 16) : Option Opcode :=
  Opcode.all.find? fun label => label.code == code

theorem Opcode.code_of_ofCode {code : BitVec 16} {label : Opcode}
    (found : Opcode.ofCode code = some label) : label.code = code := by
  simpa using List.find?_some found

/-! ### The checker -/

/-- Error numbers returned by this file. -/
inductive Errno where
  | EINVAL
deriving DecidableEq, Repr

/-- The case labels of the `switch` of `sk_chk_filter`: whether block `ftest` at `pc` passes. -/
def skChkCase (flen pc : Nat) (ftest : SockFilter) : Opcode → Bool
  | .aluAddK | .aluAddX | .aluSubK | .aluSubX
  | .aluMulK | .aluMulX | .aluDivX | .aluAndK
  | .aluAndX | .aluOrK | .aluOrX | .aluLshK
  | .aluLshX | .aluRshK | .aluRshX | .aluNeg
  | .ldWAbs | .ldHAbs | .ldBAbs | .ldWLen
  | .ldWInd | .ldHInd | .ldBInd | .ldImm
  | .ldxWLen | .ldxBMsh | .ldxImm | .miscTax
  | .miscTxa | .retK | .retA => true
  -- check for division by zero
  | .aluDivK => ftest.k ≠ 0
  -- check for invalid memory addresses
  | .ldMem | .ldxMem | .st | .stx => ftest.k.toNat < bpfMemWords
  -- `(unsigned)(flen - pc - 1)`; the loop has `pc < flen`, so the difference is not negative
  | .jmpJa => ftest.k.toNat < flen - pc - 1
  -- for conditionals both must be safe
  | .jmpJeqK | .jmpJeqX | .jmpJgeK | .jmpJgeX
  | .jmpJgtK | .jmpJgtX | .jmpJsetK | .jmpJsetX =>
    pc + ftest.jt.toNat + 1 < flen && pc + ftest.jf.toNat + 1 < flen

/-- The body of the loop of `sk_chk_filter`; the `default` label rejects. -/
def skChkInsn (flen pc : Nat) (ftest : SockFilter) : Bool :=
  match Opcode.ofCode ftest.code with
  | some label => skChkCase flen pc ftest label
  | none => false

/-- The loop of `sk_chk_filter` from block `pc` on. -/
def skChkLoop (flen : Nat) : Nat → List SockFilter → Bool
  | _, [] => true
  | pc, ftest :: rest => skChkInsn flen pc ftest && skChkLoop flen (pc + 1) rest

/-- `sk_chk_filter`: `ok` is the return value 0. `flen` is the length of the array. -/
def skChkFilter (filter : List SockFilter) : Except Errno Unit :=
  if filter.length = 0 ∨ filter.length > bpfMaxInsns then
    .error .EINVAL
  else if skChkLoop filter.length 0 filter then
    match filter.getLast? with
    | some last => if bpfClass last.code = bpfRet then .ok () else .error .EINVAL
    | none => .error .EINVAL
  else
    .error .EINVAL

/-! ### Packets -/

/-- The part of `struct sk_buff` the filter reads. Addresses are offsets from `skb->head`.
`frags` are the bytes of the page fragments and of the fragment list, in the order
`skb_copy_bits` walks them, so `skb->data_len` is their number and `skb->len` is the size of
the linear part plus that number. -/
structure SkBuff where
  /-- Kernel memory around `skb->head`. -/
  memory : Int → BitVec 8
  data : Nat
  tail : Nat
  networkHeader : Nat
  macHeader : Nat
  frags : List (BitVec 8)
  protocol : BitVec 16
  pktType : BitVec 8
  /-- `skb->dev->ifindex`, if `skb->dev` is not `NULL`. -/
  dev : Option (BitVec 32)
  data_le_tail : data ≤ tail
  len_lt : tail - data + frags.length < 2 ^ 31

variable (skb : SkBuff)

/-- `skb->data_len`, non-zero exactly when `skb_is_nonlinear`. -/
def SkBuff.dataLen : Nat := skb.frags.length

/-- `skb_headlen(skb)`. -/
def SkBuff.headlen : Nat := skb.tail - skb.data

/-- `skb->len`. -/
def SkBuff.len : Nat := skb.headlen + skb.dataLen

/-- The byte of the packet at offset `i` from `skb->data`, linear part first. -/
def SkBuff.byteAt (i : Nat) : BitVec 8 :=
  if i < skb.headlen then skb.memory (skb.data + i)
  else (skb.frags[i - skb.headlen]?).getD 0

/-- What `load_pointer` returns: an address in the linear buffer, or the caller's `tmp`
filled by `skb_copy_bits`. -/
inductive Ptr where
  | linear (addr : Int)
  | buffer (bytes : List (BitVec 8))

/-- The byte at `ptr + i`. -/
def Ptr.byte : Ptr → Nat → BitVec 8
  | .linear addr, i => skb.memory (addr + i)
  | .buffer bytes, i => (bytes[i]?).getD 0

/-- `skb_copy_bits(skb, offset, to, len)`: the copied bytes, `none` is `-EFAULT`. -/
def skbCopyBits (offset : Nat) (len : Nat) : Option (List (BitVec 8)) :=
  if (offset : Int) > skb.len - len then none
  else some ((List.range len).map fun i => skb.byteAt (offset + i))

/-- `skb_header_pointer(skb, offset, len, buffer)`. -/
def skbHeaderPointer (offset : Nat) (len : Nat) : Option Ptr :=
  if (skb.headlen : Int) - offset ≥ len then some (.linear (skb.data + offset))
  else (skbCopyBits skb offset len).map .buffer

def skfAdOff : Int := -0x1000
def skfNetOff : Int := -0x100000
def skfLlOff : Int := -0x200000

/-- `__load_pointer(skb, k)`; an offset below `SKF_LL_OFF` leaves `ptr` at `NULL`, which is
below `skb->head`. -/
def loadPointerSlow (k : Int) : Option Ptr :=
  let ptr : Option Int :=
    if k ≥ skfNetOff then some (skb.networkHeader + k - skfNetOff)
    else if k ≥ skfLlOff then some (skb.macHeader + k - skfLlOff)
    else none
  match ptr with
  | some addr => if 0 ≤ addr ∧ addr < skb.tail then some (.linear addr) else none
  | none => none

/-- `load_pointer(skb, k, size, buffer)`. -/
def loadPointer (k : Int) (size : Nat) : Option Ptr :=
  if 0 ≤ k then skbHeaderPointer skb k.toNat size
  else if k ≥ skfAdOff then none
  else loadPointerSlow skb k

/-- `get_unaligned_be32(ptr)`. -/
def getUnalignedBe32 (ptr : Ptr) : BitVec 32 :=
  (ptr.byte skb 0 ++ ptr.byte skb 1 ++ ptr.byte skb 2 ++ ptr.byte skb 3 : BitVec (8 + 8 + 8 + 8))

/-- `get_unaligned_be16(ptr)`, widened to the accumulator. -/
def getUnalignedBe16 (ptr : Ptr) : BitVec 32 :=
  ((ptr.byte skb 0 ++ ptr.byte skb 1 : BitVec (8 + 8))).setWidth 32

/-! ### Netlink attributes inside a packet -/

/-- A native-endian (little-endian) 16-bit load. -/
def SkBuff.u16At (addr : Int) : Nat :=
  (skb.memory addr).toNat + 256 * (skb.memory (addr + 1)).toNat

/-- `nla->nla_len`. -/
def nlaLenField (nla : Int) : Nat := skb.u16At nla

/-- `nla_type(nla)`: the type field without the two flag bits. -/
def nlaType (nla : Int) : Nat := skb.u16At (nla + 2) % 2 ^ 14

/-- `NLA_ALIGN(len)`. -/
def nlaAlign (len : Nat) : Nat := (len + 3) / 4 * 4

/-- `nla_ok(nla, remaining)`. -/
def nlaOk (nla : Int) (remaining : Int) : Bool :=
  remaining ≥ 4 && nlaLenField skb nla ≥ 4 && (nlaLenField skb nla : Int) ≤ remaining

/-- `nla_find(head, len, attrtype)`: the address of the first attribute of that type. -/
def nlaFind (nla : Int) (rem : Int) (attrtype : Int) : Option Int :=
  if nlaOk skb nla rem then
    if (nlaType skb nla : Int) = attrtype then some nla
    else nlaFind (nla + nlaAlign (nlaLenField skb nla))
      (rem - nlaAlign (nlaLenField skb nla)) attrtype
  else none
termination_by rem.toNat
decreasing_by
  rename_i ok _
  simp only [nlaOk, Bool.and_eq_true, decide_eq_true_eq] at ok
  simp only [nlaAlign]
  omega

/-! ### The interpreter -/

/-- The locals of `sk_run_filter` that live across iterations. -/
structure FilterState where
  pc : Int
  A : BitVec 32
  X : BitVec 32
  mem : Vector (BitVec 32) bpfMemWords

/-- Operations the C language leaves undefined, kept apart from every regular exit. -/
inductive Fault where
  /-- `filter[pc]` outside the array. -/
  | fetch
  /-- Division by zero. -/
  | divide
  /-- `mem[k]` outside the array. -/
  | scratch
  /-- `skb->dev->ifindex` with `skb->dev == NULL`. -/
  | device
deriving DecidableEq, Repr

/-- How `sk_run_filter` ends. -/
inductive Exit where
  /-- Through `BPF_RET|BPF_K` or `BPF_RET|BPF_A`. -/
  | ret (value : BitVec 32)
  /-- `return 0` of a load that failed. -/
  | failedLoad
  /-- `return 0` of `BPF_DIV|BPF_X` with `X == 0`. -/
  | zeroDivisor
  /-- The `default` label: `WARN_ON(1); return 0`. -/
  | illegal
  /-- The `return 0` after the loop. -/
  | offEnd
  | fault (what : Fault)
deriving DecidableEq, Repr

/-- The returned packet length; there is none after a fault. -/
def Exit.value : Exit → Option (BitVec 32)
  | .ret value => some value
  | .failedLoad | .zeroDivisor | .illegal | .offEnd => some 0
  | .fault _ => none

/-- Conversion to `int` of the sum an assignment to `pc` computes. -/
def toInt32 (value : Int) : Int := (BitVec.ofInt 32 value).toInt

/-- `A << n` and `A >> n` use the low five bits of the count, as the x86 shifts do; the C
language leaves larger counts undefined. -/
def shiftCount (n : BitVec 32) : Nat := n.toNat % 32

/-- `pc += cond ? fentry->jt : fentry->jf`. -/
def jump (s : FilterState) (fentry : SockFilter) (cond : Bool) : FilterState :=
  { s with pc := toInt32 (s.pc + (if cond then fentry.jt.toNat else fentry.jf.toNat)) }

/-- The netlink attribute searches of the ancillary loads. `A > skb->len - sizeof(struct
nlattr)` is an `unsigned long` comparison, `A - skb->len` a 32-bit one. -/
def loadNlattr (s : FilterState) (nest : Bool) : Except Exit FilterState :=
  let len : BitVec 32 := BitVec.ofNat 32 skb.len
  if skb.dataLen ≠ 0 then .error .failedLoad
  else if (s.A.setWidth 64) > len.setWidth 64 - 4 then .error .failedLoad
  else
    let nla : Int := skb.data + s.A.toNat
    if nest then
      if nlaLenField skb nla > (s.A - len).toNat then .error .failedLoad
      else
        match nlaFind skb (nla + 4) ((nlaLenField skb nla : Int) - 4) s.X.toInt with
        | some found => .ok { s with A := BitVec.ofInt 32 (found - skb.data) }
        | none => .ok { s with A := 0 }
    else
      match nlaFind skb nla (len - s.A).toInt s.X.toInt with
      | some found => .ok { s with A := BitVec.ofInt 32 (found - skb.data) }
      | none => .ok { s with A := 0 }

/-- The `switch (k - SKF_AD_OFF)` behind a load whose pointer was `NULL`. -/
def loadAncillary (s : FilterState) (k : BitVec 32) : Except Exit FilterState :=
  match (k + 0x1000#32).toNat with
  | 0 => .ok { s with A := ((skb.protocol.extractLsb' 0 8 ++ skb.protocol.extractLsb' 8 8 :
      BitVec (8 + 8))).setWidth 32 }
  | 4 => .ok { s with A := skb.pktType.setWidth 32 }
  | 8 =>
    match skb.dev with
    | some ifindex => .ok { s with A := ifindex }
    | none => .error (.fault .device)
  | 12 => loadNlattr skb s false
  | 16 => loadNlattr skb s true
  | _ => .error .failedLoad

/-- The `load_w`, `load_h` and `load_b` labels: `read` fetches the operand. -/
def loadPacket (s : FilterState) (k : BitVec 32) (size : Nat)
    (read : Ptr → BitVec 32) : Except Exit FilterState :=
  match loadPointer skb k.toInt size with
  | some ptr => .ok { s with A := read ptr }
  | none => loadAncillary skb s k

/-- `load_w`. -/
def loadW (s : FilterState) (k : BitVec 32) : Except Exit FilterState :=
  loadPacket skb s k 4 (getUnalignedBe32 skb)

/-- `load_h`. -/
def loadH (s : FilterState) (k : BitVec 32) : Except Exit FilterState :=
  loadPacket skb s k 2 (getUnalignedBe16 skb)

/-- `load_b`. -/
def loadB (s : FilterState) (k : BitVec 32) : Except Exit FilterState :=
  loadPacket skb s k 1 fun ptr => (ptr.byte skb 0).setWidth 32

/-- `mem[k]`. -/
def scratchLoad (s : FilterState) (k : BitVec 32) : Except Exit (BitVec 32) :=
  if h : k.toNat < bpfMemWords then .ok s.mem[k.toNat] else .error (.fault .scratch)

/-- `mem[k] = value`. -/
def scratchStore (s : FilterState) (k value : BitVec 32) : Except Exit FilterState :=
  if h : k.toNat < bpfMemWords then .ok { s with mem := s.mem.set k.toNat value }
  else .error (.fault .scratch)

/-- `A /= divisor`. -/
def divide (s : FilterState) (divisor : BitVec 32) : Except Exit FilterState :=
  if divisor = 0 then .error (.fault .divide) else .ok { s with A := s.A / divisor }

/-- The case labels of the `switch` of `sk_run_filter`; `ok` is a `continue`, `k` is
`fentry->k`. -/
def execCase (fentry : SockFilter) (k : BitVec 32) (s : FilterState) :
    Opcode → Except Exit FilterState
  | .aluAddX => .ok { s with A := s.A + s.X }
  | .aluAddK => .ok { s with A := s.A + k }
  | .aluSubX => .ok { s with A := s.A - s.X }
  | .aluSubK => .ok { s with A := s.A - k }
  | .aluMulX => .ok { s with A := s.A * s.X }
  | .aluMulK => .ok { s with A := s.A * k }
  | .aluDivX => if s.X = 0 then .error .zeroDivisor else divide s s.X
  | .aluDivK => divide s k
  | .aluAndX => .ok { s with A := s.A &&& s.X }
  | .aluAndK => .ok { s with A := s.A &&& k }
  | .aluOrX => .ok { s with A := s.A ||| s.X }
  | .aluOrK => .ok { s with A := s.A ||| k }
  | .aluLshX => .ok { s with A := s.A <<< shiftCount s.X }
  | .aluLshK => .ok { s with A := s.A <<< shiftCount k }
  | .aluRshX => .ok { s with A := s.A >>> shiftCount s.X }
  | .aluRshK => .ok { s with A := s.A >>> shiftCount k }
  | .aluNeg => .ok { s with A := -s.A }
  | .jmpJa => .ok { s with pc := toInt32 (s.pc + k.toNat) }
  | .jmpJgtK => .ok (jump s fentry (s.A > k))
  | .jmpJgeK => .ok (jump s fentry (s.A ≥ k))
  | .jmpJeqK => .ok (jump s fentry (s.A = k))
  | .jmpJsetK => .ok (jump s fentry (s.A &&& k ≠ 0))
  | .jmpJgtX => .ok (jump s fentry (s.A > s.X))
  | .jmpJgeX => .ok (jump s fentry (s.A ≥ s.X))
  | .jmpJeqX => .ok (jump s fentry (s.A = s.X))
  | .jmpJsetX => .ok (jump s fentry (s.A &&& s.X ≠ 0))
  | .ldWAbs => loadW skb s k
  | .ldHAbs => loadH skb s k
  | .ldBAbs => loadB skb s k
  | .ldWLen => .ok { s with A := BitVec.ofNat 32 skb.len }
  | .ldxWLen => .ok { s with X := BitVec.ofNat 32 skb.len }
  | .ldWInd => loadW skb s (s.X + k)
  | .ldHInd => loadH skb s (s.X + k)
  | .ldBInd => loadB skb s (s.X + k)
  | .ldxBMsh =>
    match loadPointer skb k.toInt 1 with
    | some ptr => .ok { s with X := ((ptr.byte skb 0).setWidth 32 &&& 0xf) <<< 2 }
    | none => .error .failedLoad
  | .ldImm => .ok { s with A := k }
  | .ldxImm => .ok { s with X := k }
  | .ldMem => do
      let value ← scratchLoad s k
      .ok { s with A := value }
  | .ldxMem => do
      let value ← scratchLoad s k
      .ok { s with X := value }
  | .miscTax => .ok { s with X := s.A }
  | .miscTxa => .ok { s with A := s.X }
  | .retK => .error (.ret k)
  | .retA => .error (.ret s.A)
  | .st => scratchStore s k s.A
  | .stx => scratchStore s k s.X

/-- The `switch (fentry->code)` of `sk_run_filter`; the `default` label warns and returns 0. -/
def execInsn (fentry : SockFilter) (s : FilterState) : Except Exit FilterState :=
  match Opcode.ofCode fentry.code with
  | some label => execCase skb fentry fentry.k s label
  | none => .error .illegal

/-- One iteration of the `for` loop: test `pc < flen`, execute `filter[pc]`, `pc++`. -/
def step (filter : List SockFilter) (skb : SkBuff) (s : FilterState) : Except Exit FilterState :=
  if s.pc < filter.length then
    if s.pc < 0 then .error (.fault .fetch)
    else
      match filter[s.pc.toNat]? with
      | some fentry => do
          let s' ← execInsn skb fentry s
          .ok { s' with pc := s'.pc + 1 }
      | none => .error (.fault .fetch)
  else .error .offEnd

/-- The loop, for at most `fuel` iterations; `none` means it has not ended by then. -/
def runLoop (filter : List SockFilter) (skb : SkBuff) : Nat → FilterState → Option Exit
  | 0, _ => none
  | fuel + 1, s =>
    match step filter skb s with
    | .error exit => some exit
    | .ok s' => runLoop filter skb fuel s'

/-- The state before the first iteration; `mem` is whatever the kernel stack holds. -/
def initState (mem : Vector (BitVec 32) bpfMemWords) : FilterState :=
  { pc := 0, A := 0, X := 0, mem }

/-- `sk_run_filter`, cut off after `fuel` iterations. -/
def skRunFilter (fuel : Nat) (filter : List SockFilter) (skb : SkBuff)
    (mem : Vector (BitVec 32) bpfMemWords) : Option Exit :=
  runLoop filter skb fuel (initState mem)

/-- `Reaches filter skb s t`: the loop started in `s` comes to test `pc < flen` in `t`. -/
inductive Reaches (filter : List SockFilter) (skb : SkBuff) (s : FilterState) :
    FilterState → Prop where
  | start : Reaches filter skb s s
  | next {t u : FilterState} (before : Reaches filter skb s t)
      (taken : step filter skb t = .ok u) : Reaches filter skb s u

/-- An exit the program text provides for: a `RET`, a failed load, or a zero divisor in `X`. -/
def Exit.Clean : Exit → Prop
  | .ret _ | .failedLoad | .zeroDivisor => True
  | .illegal | .offEnd | .fault _ => False

/-- An exit of a checked program: a clean one, or the only undefined operation that the checker does not
exclude. -/
def Exit.Possible (exit : Exit) : Prop := exit.Clean ∨ exit = .fault .device

/-- The load of a block is that of `SKF_AD_IFINDEX`. -/
def LoadsIfindex (fentry : SockFilter) (s : FilterState) : Prop :=
  match Opcode.ofCode fentry.code with
  | some .ldWAbs | some .ldHAbs | some .ldBAbs => fentry.k = 0xfffff008#32
  | some .ldWInd | some .ldHInd | some .ldBInd => s.X + fentry.k = 0xfffff008#32
  | _ => False

/-- What `sk_chk_filter` has established about an accepted filter. -/
structure Verified (filter : List SockFilter) : Prop where
  length_pos : 0 < filter.length
  length_le : filter.length ≤ bpfMaxInsns
  insn : ∀ {pc : Nat} {fentry : SockFilter}, filter[pc]? = some fentry →
    skChkInsn filter.length pc fentry = true
  last : ∀ {fentry : SockFilter}, filter[filter.length - 1]? = some fentry →
    bpfClass fentry.code = bpfRet

variable {flen pc : Nat} {filter : List SockFilter} {s : FilterState} {k : BitVec 32}
  {fentry : SockFilter} {skb : SkBuff}

/-- The checking loop visits every block with its own index. -/
theorem skChkLoop_insn : ∀ {rest : List SockFilter} {start : Nat}, skChkLoop flen start rest = true →
      ∀ {i : Nat} {fentry : SockFilter}, rest[i]? = some fentry → skChkInsn flen (start + i) fentry = true
  | [], _, _, i, fentry, mem => by simp at mem
  | head :: rest, start, passed, i, fentry, mem => by
      simp only [skChkLoop, Bool.and_eq_true] at passed
      cases i with
      | zero =>
        simp only [List.getElem?_cons_zero, Option.some.injEq] at mem
        subst mem
        exact passed.1
      | succ i =>
        rw [List.getElem?_cons_succ] at mem
        have tail := skChkLoop_insn passed.2 mem
        rwa [Nat.add_assoc, Nat.add_comm 1 i] at tail

theorem verified_of_accepted (accepted : skChkFilter filter = .ok ()) : Verified filter := by
  unfold skChkFilter at accepted
  split at accepted
  · cases accepted
  · rename_i sized
    rw [not_or, Nat.not_lt] at sized
    split at accepted
    · rename_i looped
      refine ⟨Nat.pos_of_ne_zero sized.1, sized.2, ?_, ?_⟩
      · intro pc fentry mem
        have checked := skChkLoop_insn looped mem
        rwa [Nat.zero_add] at checked
      · intro fentry mem
        rw [List.getLast?_eq_getElem?, mem] at accepted
        by_contra wrongClass
        simp [wrongClass] at accepted
    · cases accepted

/-! ### One instruction -/

/-- The result of an instruction that does not jump: an exit or a `continue` with `pc` unchanged. -/
inductive FallsThrough (s : FilterState) : Except Exit FilterState → Prop where
  | exit {exit : Exit} (possible : exit.Possible) : FallsThrough s (.error exit)
  | next {s' : FilterState} (same : s'.pc = s.pc) : FallsThrough s (.ok s')

theorem loadNlattr_fallsThrough (skb : SkBuff) (s : FilterState) (nest : Bool) :
    FallsThrough s (loadNlattr skb s nest) := by
  unfold loadNlattr
  dsimp only
  -- every leaf is a failed load or an update of `A` alone
  split_ifs
  · exact .exit (.inl trivial)
  · exact .exit (.inl trivial)
  · exact .exit (.inl trivial)
  · split <;> exact .next rfl
  · split <;> exact .next rfl

theorem loadAncillary_fallsThrough (skb : SkBuff) (s : FilterState) (k : BitVec 32) :
    FallsThrough s (loadAncillary skb s k) := by
  unfold loadAncillary
  split
  · exact .next rfl
  · exact .next rfl
  · split
    · exact .next rfl
    · exact .exit (.inr rfl)
  · exact loadNlattr_fallsThrough skb s false
  · exact loadNlattr_fallsThrough skb s true
  · exact .exit (.inl trivial)

theorem loadPacket_fallsThrough (skb : SkBuff) (s : FilterState) (k : BitVec 32) (size : Nat)
    (read : Ptr → BitVec 32) : FallsThrough s (loadPacket skb s k size read) := by
  unfold loadPacket
  split
  · exact .next rfl
  · exact loadAncillary_fallsThrough skb s k

theorem scratchLoad_of_lt (bound : k.toNat < bpfMemWords) : scratchLoad s k = .ok s.mem[k.toNat] := by
  simp [scratchLoad, bound]

theorem scratchStore_fallsThrough {value : BitVec 32} (bound : k.toNat < bpfMemWords) :
    FallsThrough s (scratchStore s k value) := by
  rw [scratchStore, dif_pos bound]
  exact .next rfl

theorem divide_fallsThrough {divisor : BitVec 32} (nonzero : divisor ≠ 0) :
    FallsThrough s (divide s divisor) := by
  rw [divide, if_neg nonzero]
  exact .next rfl

/-- An assignment to `pc` of a value inside the program does not wrap. -/
theorem toInt32_of_lt {value : Int} (short : flen ≤ bpfMaxInsns) (nonneg : 0 ≤ value)
    (bound : value < flen) : toInt32 value = value := by
  unfold bpfMaxInsns at short
  unfold toInt32
  rw [BitVec.toInt_ofInt, Int.bmod_eq_of_le] <;> omega

/-- What one instruction establishes before the `pc++` of the loop: an exit, a fall-through
of a block that is not a return, or a jump that lands inside the program. -/
inductive InsnSafe (flen : Nat) (fentry : SockFilter) (s : FilterState) :
    Except Exit FilterState → Prop where
  | exit {exit : Exit} (possible : exit.Possible) : InsnSafe flen fentry s (.error exit)
  | falls {s' : FilterState} (same : s'.pc = s.pc) (notRet : bpfClass fentry.code ≠ bpfRet) :
      InsnSafe flen fentry s (.ok s')
  | jumps {s' : FilterState} (forward : s.pc ≤ s'.pc) (landed : s'.pc + 1 < flen) :
      InsnSafe flen fentry s (.ok s')

theorem FallsThrough.insnSafe {result : Except Exit FilterState} (falls : FallsThrough s result)
    (notRet : bpfClass fentry.code ≠ bpfRet) : InsnSafe flen fentry s result := by
  cases falls with
  | exit possible => exact .exit possible
  | next same => exact .falls same notRet

theorem jump_insnSafe (cond : Bool) (short : flen ≤ bpfMaxInsns) (here : s.pc = pc)
    (safe : (pc + fentry.jt.toNat + 1 < flen && pc + fentry.jf.toNat + 1 < flen) = true) :
    InsnSafe flen fentry s (.ok (jump s fentry cond)) := by
  simp only [Bool.and_eq_true, decide_eq_true_eq] at safe
  -- both branches stay below `flen`, so neither conversion wraps
  have landed : (jump s fentry cond).pc =
      s.pc + (if cond then fentry.jt.toNat else fentry.jf.toNat : Nat) := by
    refine toInt32_of_lt short ?_ ?_ <;> split_ifs <;> omega
  refine .jumps ?_ ?_ <;> rw [landed] <;> split_ifs <;> omega

/-- Every block the checker passes at `pc` is safe to execute at `pc`: the one case analysis that
compares the two `switch` statements. -/
theorem execInsn_safe (skb : SkBuff) (short : flen ≤ bpfMaxInsns) (here : s.pc = pc)
    (passed : skChkInsn flen pc fentry = true) :
    InsnSafe flen fentry s (execInsn skb fentry s) := by
  cases found : Opcode.ofCode fentry.code with
  | none => simp [skChkInsn, found] at passed
  | some label =>
    have notRet (other : bpfClass label.code ≠ bpfRet) : bpfClass fentry.code ≠ bpfRet :=
      Opcode.code_of_ofCode found ▸ other
    rw [skChkInsn, found] at passed
    rw [execInsn, found]
    cases label with
    | retK | retA => exact .exit (.inl trivial)
    | jmpJgtK | jmpJgeK | jmpJeqK | jmpJsetK | jmpJgtX | jmpJgeX | jmpJeqX | jmpJsetX =>
      exact jump_insnSafe _ short here passed
    | jmpJa =>
      have bound : fentry.k.toNat < flen - pc - 1 := of_decide_eq_true passed
      have landed : toInt32 (s.pc + fentry.k.toNat) = s.pc + fentry.k.toNat :=
        toInt32_of_lt short (by omega) (by omega)
      refine .jumps ?_ ?_
      · show s.pc ≤ toInt32 (s.pc + fentry.k.toNat)
        omega
      · show toInt32 (s.pc + fentry.k.toNat) + 1 < flen
        omega
    | aluDivX =>
      refine FallsThrough.insnSafe ?_ (notRet (by decide))
      show FallsThrough s (if s.X = 0 then .error .zeroDivisor else divide s s.X)
      split_ifs with zero
      · exact .exit (.inl trivial)
      · exact divide_fallsThrough zero
    | aluDivK =>
      exact (divide_fallsThrough (of_decide_eq_true passed)).insnSafe (notRet (by decide))
    | st | stx =>
      exact (scratchStore_fallsThrough (of_decide_eq_true passed)).insnSafe (notRet (by decide))
    | ldMem | ldxMem =>
      have bound : fentry.k.toNat < bpfMemWords := of_decide_eq_true passed
      refine FallsThrough.insnSafe ?_ (notRet (by decide))
      simp only [execCase, scratchLoad_of_lt bound]
      exact .next rfl
    | ldWAbs | ldHAbs | ldBAbs | ldWInd | ldHInd | ldBInd =>
      exact (loadPacket_fallsThrough _ _ _ _ _).insnSafe (notRet (by decide))
    | ldxBMsh =>
      refine FallsThrough.insnSafe ?_ (notRet (by decide))
      simp only [execCase]
      split
      · exact .next rfl
      · exact .exit (.inl trivial)
    | _ => exact .falls rfl (notRet (by decide))

/-! ### The loop -/

/-- The loop invariant: `pc` indexes the program. -/
def InProgram (filter : List SockFilter) (s : FilterState) : Prop :=
  0 ≤ s.pc ∧ s.pc < filter.length

/-- One iteration over a verified filter ends the loop or moves strictly forward in the program. -/
theorem step_safe (skb : SkBuff) (verified : Verified filter) (inside : InProgram filter s) :
    match step filter skb s with
    | .error exit => exit.Possible
    | .ok s' => s.pc < s'.pc ∧ InProgram filter s' := by
  obtain ⟨nonneg, bound⟩ := inside
  obtain ⟨pc, here⟩ := Int.eq_ofNat_of_zero_le nonneg
  have inRange : pc < filter.length := by omega
  have fetched : filter[s.pc.toNat]? = some filter[pc] := by
    simp [here]
  have safe := execInsn_safe skb verified.length_le here (verified.insn (List.getElem?_eq_getElem inRange))
  simp only [step, bound, Int.not_lt.mpr nonneg, fetched]
  cases executed : execInsn skb filter[pc] s with
  | error exit =>
    rw [executed] at safe
    cases safe with
    | exit possible => exact possible
  | ok s' =>
    rw [executed] at safe
    show s.pc < s'.pc + 1 ∧ 0 ≤ s'.pc + 1 ∧ s'.pc + 1 < filter.length
    cases safe with
    | falls same notRet =>
      -- the last block is a return, so a fall-through is not at the last block
      have notLast : pc ≠ filter.length - 1 := by
        intro atEnd
        refine notRet (verified.last ?_)
        rw [← atEnd]
        exact List.getElem?_eq_getElem inRange
      omega
    | jumps forward landed => omega

theorem reaches_in_program {t : FilterState} (verified : Verified filter)
    (inside : InProgram filter s) (reached : Reaches filter skb s t) : InProgram filter t := by
  induction reached with
  | start => exact inside
  | next before taken ih =>
    have safe := step_safe skb verified ih
    rw [taken] at safe
    exact safe.2

/-- The blocks still ahead of `pc` bound the iterations left. -/
theorem runLoop_ends (verified : Verified filter) (inside : InProgram filter s) :
    ∀ (fuel : Nat) (t : FilterState), Reaches filter skb s t → filter.length - t.pc ≤ fuel →
      ∃ exit u, runLoop filter skb fuel t = some exit ∧ Reaches filter skb s u ∧ InProgram filter u ∧
        step filter skb u = .error exit ∧ exit.Possible
  | 0, t, reached, enough => by
      obtain ⟨_, bound⟩ := reaches_in_program verified inside reached
      omega
  | fuel + 1, t, reached, enough => by
      have here := reaches_in_program verified inside reached
      have safe := step_safe skb verified here
      simp only [runLoop]
      cases taken : step filter skb t with
      | error exit =>
        rw [taken] at safe
        exact ⟨exit, t, rfl, reached, here, taken, safe⟩
      | ok t' =>
        rw [taken] at safe
        exact runLoop_ends verified inside fuel t' (.next reached taken) (by omega)

theorem loadPacket_device_iff {size : Nat} {read : Ptr → BitVec 32} :
    loadPacket skb s k size read = .error (.fault .device) ↔ skb.dev = none ∧ k = 0xfffff008#32 := by
  have nlattr (nest : Bool) : loadNlattr skb s nest ≠ .error (.fault .device) := by
    unfold loadNlattr
    dsimp only
    split_ifs
    · simp
    · simp
    · simp
    all_goals split <;> simp
  constructor
  · intro fault
    unfold loadPacket at fault
    split at fault
    · cases fault
    unfold loadAncillary at fault
    split at fault
    case h_3 code =>
      refine ⟨?_, by bv_omega⟩
      split at fault
      · cases fault
      · assumption
    case h_4 => exact absurd fault (nlattr false)
    case h_5 => exact absurd fault (nlattr true)
    all_goals cases fault
  · rintro ⟨absent, rfl⟩
    have null : loadPointer skb (0xfffff008#32).toInt size = none := by
      rw [loadPointer, if_neg (by decide), if_pos (by decide)]
    have code : (0xfffff008#32 + 0x1000#32).toNat = 8 := by decide
    simp only [loadPacket, null]
    unfold loadAncillary
    split
    case h_3 => simp [absent]
    case h_6 => exact absurd code (by assumption)
    all_goals omega

/-- The second case analysis over the opcodes: where `skb->dev` is followed. -/
theorem execInsn_device_iff : execInsn skb fentry s = .error (.fault .device) ↔ skb.dev = none ∧
    LoadsIfindex fentry s := by
  unfold execInsn LoadsIfindex
  cases Opcode.ofCode fentry.code with
  | none => simp
  | some label =>
    cases label with
    | ldWAbs | ldHAbs | ldBAbs | ldWInd | ldHInd | ldBInd => exact loadPacket_device_iff
    | ldMem | ldxMem =>
      simp only [execCase, scratchLoad]
      split_ifs <;> simp [bind, Except.bind]
    | st | stx =>
      simp only [execCase, scratchStore]
      split_ifs <;> simp
    | aluDivX | aluDivK =>
      simp only [execCase, divide]
      split_ifs <;> simp
    | ldxBMsh =>
      simp only [execCase]
      split <;> simp
    | _ => simp [execCase]

theorem InProgram.fetched (inside : InProgram filter s) : ∃ fentry, filter[s.pc.toNat]? = some fentry := by
  have := inside.1
  have := inside.2
  exact ⟨_, List.getElem?_eq_getElem (by omega)⟩

theorem step_device_iff (inside : InProgram filter s) (fetched : filter[s.pc.toNat]? = some fentry) :
    step filter skb s = .error (.fault .device) ↔ skb.dev = none ∧ LoadsIfindex fentry s := by
  simp only [← execInsn_device_iff, step, if_pos inside.2, if_neg (Int.not_lt.mpr inside.1), fetched]
  cases execInsn skb fentry s with
  | error exit => rfl
  | ok s' => exact iff_of_false nofun nofun

theorem Verified.initial (verified : Verified filter) (mem : Vector (BitVec 32) bpfMemWords) :
    InProgram filter (initState mem) :=
  ⟨Int.le_refl 0, Int.ofNat_lt.mpr verified.length_pos⟩

/-- A 40-byte linear packet whose bytes are their own offsets. -/
def samplePacket : SkBuff where
  memory := fun i => BitVec.ofInt 8 i
  data := 0
  tail := 40
  networkHeader := 14
  macHeader := 0
  frags := []
  protocol := 8
  pktType := 0
  dev := some 3
  data_le_tail := by decide
  len_lt := by decide

open Option

/-! ### Scratch accesses of a program -/

/-- The scratch word a block loads. -/
def scratchRead (fentry : SockFilter) : Option Nat :=
  match Opcode.ofCode fentry.code with
  | some .ldMem | some .ldxMem => some fentry.k.toNat
  | _ => none

/-- The scratch word a block stores. -/
def scratchWrite (fentry : SockFilter) : Option Nat :=
  match Opcode.ofCode fentry.code with
  | some .st | some .stx => some fentry.k.toNat
  | _ => none

/-- Whether the iterations from `s` on load only words in `stored` or stored on the way. -/
def loadsStored (filter : List SockFilter) (skb : SkBuff) :
    Nat → List Nat → FilterState → Bool
  | 0, _, _ => true
  | fuel + 1, stored, s =>
    match filter[s.pc.toNat]? with
    | none => true
    | some fentry =>
      (scratchRead fentry).all stored.contains &&
        match step filter skb s with
        | .error _ => true
        | .ok s' => loadsStored filter skb fuel ((scratchWrite fentry).toList ++ stored) s'

/-- `pc`, `A` and `X` whenever the loop comes round again. -/
def registerTrace (filter : List SockFilter) (skb : SkBuff) :
    Nat → FilterState → List (Int × BitVec 32 × BitVec 32)
  | 0, _ => []
  | fuel + 1, s =>
    match step filter skb s with
    | .error _ => []
    | .ok s' => (s'.pc, s'.A, s'.X) :: registerTrace filter skb fuel s'

/-! ### One instruction on two scratch arrays -/

/-- Another scratch array under the same registers. -/
def FilterState.withMem (s : FilterState) (mem : Vector (BitVec 32) bpfMemWords) : FilterState :=
  { s with mem }

/-- How two runs with equal registers continue: through the same exit, or with equal registers
again and with arrays that changed in the stored word only, where they now agree. -/
inductive Twin (store : Option Nat) (mem mem' : Vector (BitVec 32) bpfMemWords) :
    Except Exit FilterState → Except Exit FilterState → Prop where
  | exit (exit : Exit) : Twin store mem mem' (.error exit) (.error exit)
  | next (s : FilterState) (after : Vector (BitVec 32) bpfMemWords)
      (agree : ∀ word, store = some word → s.mem[word]? = after[word]?)
      (left : ∀ word, store ≠ some word → s.mem[word]? = mem[word]?)
      (right : ∀ word, store ≠ some word → after[word]? = mem'[word]?) :
      Twin store mem mem' (.ok s) (.ok (s.withMem after))

section Instruction

variable (skb : SkBuff) (fentry : SockFilter) (k : BitVec 32) (s : FilterState)
  (mem : Vector (BitVec 32) bpfMemWords)

/-- Registers alone change. -/
theorem Twin.registers {s' : FilterState} (same : s'.mem = s.mem) :
    Twin none s.mem mem (.ok s') (.ok (s'.withMem mem)) :=
  .next s' mem (fun _ stored => by cases stored) (fun _ _ => by rw [same]) (fun _ _ => rfl)

theorem loadNlattr_twin (nest : Bool) :
    Twin none s.mem mem (loadNlattr skb s nest) (loadNlattr skb (s.withMem mem) nest) := by
  unfold loadNlattr FilterState.withMem
  dsimp only
  split_ifs
  · exact .exit _
  · exact .exit _
  · exact .exit _
  all_goals
    split
    · exact .registers s mem rfl
    · exact .registers s mem rfl

theorem loadAncillary_twin :
    Twin none s.mem mem (loadAncillary skb s k) (loadAncillary skb (s.withMem mem) k) := by
  unfold loadAncillary
  split
  · exact .registers s mem rfl
  · exact .registers s mem rfl
  · split
    · exact .registers s mem rfl
    · exact .exit _
  · exact loadNlattr_twin skb s mem false
  · exact loadNlattr_twin skb s mem true
  · exact .exit _

theorem loadPacket_twin (size : Nat) (read : Ptr → BitVec 32) :
    Twin none s.mem mem (loadPacket skb s k size read) (loadPacket skb (s.withMem mem) k size read) := by
  unfold loadPacket
  split
  · exact .registers s mem rfl
  · exact loadAncillary_twin skb k s mem

theorem divide_twin (divisor : BitVec 32) :
    Twin none s.mem mem (divide s divisor) (divide (s.withMem mem) divisor) := by
  unfold divide
  split_ifs
  · exact .exit _
  · exact .registers s mem rfl

theorem scratchLoad_congr (agree : s.mem[k.toNat]? = mem[k.toNat]?) :
    scratchLoad (s.withMem mem) k = scratchLoad s k := by
  unfold scratchLoad FilterState.withMem
  split_ifs with bound
  · rw [Vector.getElem?_eq_getElem bound, Vector.getElem?_eq_getElem bound] at agree
    rw [some.inj agree]
  · rfl

theorem scratchStore_twin (value : BitVec 32) : Twin (some k.toNat) s.mem mem (scratchStore s k value)
      (scratchStore (s.withMem mem) k value) := by
  unfold scratchStore
  split_ifs with bound
  · refine .next { s with mem := s.mem.set k.toNat value } (mem.set k.toNat value) ?_ ?_ ?_
    · intro word stored
      cases stored
      simp only [Vector.getElem?_set_self]
    all_goals
      intro word other
      exact Vector.getElem?_set_ne bound fun same => other (congrArg some same)
  · exact .exit _

/-- The one case analysis over the opcodes: a block whose loaded word is the same in both arrays
does the same on both. -/
theorem execInsn_twin (agree : ∀ word, scratchRead fentry = some word → s.mem[word]? = mem[word]?) :
    Twin (scratchWrite fentry) s.mem mem (execInsn skb fentry s) (execInsn skb fentry (s.withMem mem)) := by
  unfold execInsn scratchWrite
  unfold scratchRead at agree
  cases found : Opcode.ofCode fentry.code with
  | none => exact .exit _
  | some label =>
    rw [found] at agree
    cases label with
    | retK | retA => exact .exit _
    | st | stx => exact scratchStore_twin fentry.k s mem _
    | ldMem | ldxMem =>
      have loaded := scratchLoad_congr fentry.k s mem (agree _ rfl)
      simp only [execCase, loaded]
      cases scratchLoad s fentry.k with
      | error exit => exact .exit exit
      | ok value => exact .registers s mem rfl
    | aluDivX =>
      show Twin none s.mem mem (if s.X = 0 then _ else _) (if s.X = 0 then _ else _)
      split_ifs
      · exact .exit _
      · exact divide_twin s mem s.X
    | aluDivK => exact divide_twin s mem fentry.k
    | ldWAbs | ldHAbs | ldBAbs => exact loadPacket_twin skb fentry.k s mem _ _
    | ldWInd | ldHInd | ldBInd => exact loadPacket_twin skb (s.X + fentry.k) s mem _ _
    | ldxBMsh =>
      simp only [execCase]
      split
      · exact .registers s mem rfl
      · exact .exit _
    | _ => exact .registers s mem rfl

end Instruction

variable {stored : List Nat} {word : Nat}

/-- The `pc++` of the loop keeps two runs together. -/
theorem step_twin (skb : SkBuff) (mem : Vector (BitVec 32) bpfMemWords)
    (fetched : filter[s.pc.toNat]? = some fentry)
    (agree : ∀ word, scratchRead fentry = some word → s.mem[word]? = mem[word]?) :
    Twin (scratchWrite fentry) s.mem mem (step filter skb s) (step filter skb (s.withMem mem)) := by
  have executed := execInsn_twin skb fentry s mem agree
  have samePc : (s.withMem mem).pc = s.pc := rfl
  simp only [step, samePc, fetched]
  split_ifs
  · exact .exit _
  · generalize execInsn skb fentry s = left at executed
    generalize execInsn skb fentry (s.withMem mem) = right at executed
    cases executed with
    | exit exit => exact .exit exit
    | next s' after agreeAfter leftAfter rightAfter =>
      exact .next { s' with pc := s'.pc + 1 } after agreeAfter leftAfter rightAfter
  · exact .exit _

/-! ### Runs that load stored words alone -/

theorem loadsStored_succ {fuel : Nat} (fetched : filter[s.pc.toNat]? = some fentry) :
    loadsStored filter skb (fuel + 1) stored s = ((scratchRead fentry).all stored.contains &&
        match step filter skb s with
        | .error _ => true
        | .ok s' =>
          loadsStored filter skb fuel ((scratchWrite fentry).toList ++ stored) s') := by
  rw [loadsStored, fetched]

/-- A word of the extended list was stored by this block or before it. -/
theorem mem_stored_cases (mem : word ∈ (scratchWrite fentry).toList ++ stored) :
    scratchWrite fentry = some word ∨ word ∈ stored := by
  rw [List.mem_append, mem_toList] at mem
  exact mem

/-- The loop invariant is agreement on the stored words. -/
theorem run_of_loadsStored : ∀ (fuel : Nat) (stored : List Nat) (s : FilterState)
      (mem : Vector (BitVec 32) bpfMemWords),
      (∀ word ∈ stored, s.mem[word]? = mem[word]?) →
      loadsStored filter skb fuel stored s = true →
      registerTrace filter skb fuel (s.withMem mem) = registerTrace filter skb fuel s ∧
        runLoop filter skb fuel (s.withMem mem) = runLoop filter skb fuel s
  | 0, _, _, _, _, _ => ⟨rfl, rfl⟩
  | fuel + 1, stored, s, mem, agree, passed => by
      cases fetched : filter[s.pc.toNat]? with
      | none =>
        -- no block here: the iteration ends before the array is looked at
        have alike : step filter skb (s.withMem mem) = step filter skb s := by
          show (if s.pc < filter.length then _ else _) = (if s.pc < filter.length then _ else _)
          simp only [FilterState.withMem, fetched]
        simp only [registerTrace, runLoop, alike, and_self]
      | some fentry =>
        rw [loadsStored_succ fetched, Bool.and_eq_true] at passed
        obtain ⟨readStored, later⟩ := passed
        have together := step_twin skb mem fetched (fun word read => by
          rw [read, all_some, List.contains_iff_mem] at readStored
          exact agree word readStored)
        simp only [registerTrace, runLoop]
        generalize step filter skb s = left at together later
        generalize step filter skb (s.withMem mem) = right at together
        cases together with
        | exit exit => exact ⟨rfl, rfl⟩
        | next s' after agreeAfter leftAfter rightAfter =>
          have agreeLater : ∀ word ∈ (scratchWrite fentry).toList ++ stored,
              s'.mem[word]? = after[word]? := by
            intro word member
            by_cases here : scratchWrite fentry = some word
            · exact agreeAfter word here
            · have before := (mem_stored_cases member).resolve_left here
              rw [leftAfter word here, rightAfter word here]
              exact agree word before
          have rest := run_of_loadsStored fuel _ s' after agreeLater later
          dsimp only
          refine ⟨?_, rest.2⟩
          rw [rest.1]
          rfl

/-! ### Runs that load another word -/

theorem scratchRead_cases (read : scratchRead fentry = some word) :
    (Opcode.ofCode fentry.code = some .ldMem ∨ Opcode.ofCode fentry.code = some .ldxMem) ∧
      fentry.k.toNat = word := by
  unfold scratchRead at read
  split at read
  · next found => exact ⟨.inl found, some.inj read⟩
  · next found => exact ⟨.inr found, some.inj read⟩
  · cases read

/-- The checker bounds the words that are loaded. -/
theorem scratchRead_lt {flen pc : Nat} (passed : skChkInsn flen pc fentry = true)
    (read : scratchRead fentry = some word) :
    word < bpfMemWords := by
  obtain ⟨found, rfl⟩ := scratchRead_cases read
  unfold skChkInsn at passed
  rcases found with found | found
  all_goals
    rw [found] at passed
    exact of_decide_eq_true passed

/-- A block that loads a word on which the arrays differ leaves different registers. -/
theorem step_reveals (skb : SkBuff) {mem : Vector (BitVec 32) bpfMemWords}
    (verified : Verified filter) (inside : InProgram filter s)
    (fetched : filter[s.pc.toNat]? = some fentry) (read : scratchRead fentry = some word)
    (differ : s.mem[word]? ≠ mem[word]?) :
    ∃ t t', step filter skb s = .ok t ∧ step filter skb (s.withMem mem) = .ok t' ∧
      (t.A, t.X) ≠ (t'.A, t'.X) := by
  have bound := scratchRead_lt (verified.insn fetched) read
  have notNeg : ¬ s.pc < 0 := Int.not_lt.mpr inside.1
  have stepped : ∀ u : FilterState, u.pc = s.pc → step filter skb u =
      (execInsn skb fentry u).bind fun u' => .ok { u' with pc := u'.pc + 1 } := by
    intro u here
    simp only [step, here, inside.2, notNeg, fetched]
    rfl
  rw [stepped s rfl, stepped (s.withMem mem) rfl]
  rw [Vector.getElem?_eq_getElem bound, Vector.getElem?_eq_getElem bound] at differ
  obtain ⟨found, rfl⟩ := scratchRead_cases read
  unfold execInsn
  rcases found with found | found
  all_goals
    rw [found]
    simp only [execCase, scratchLoad_of_lt bound]
    refine ⟨_, _, rfl, rfl, fun same => differ ?_⟩
  · exact congrArg some (Prod.mk.inj same).1
  · exact congrArg some (Prod.mk.inj same).2

/-- Some word that was not stored makes itself seen in a register once it is changed. -/
theorem trace_reveals (verified : Verified filter) :
    ∀ (fuel : Nat) (stored : List Nat) (s : FilterState), InProgram filter s →
      loadsStored filter skb fuel stored s = false →
      ∃ word, word ∉ stored ∧ word < bpfMemWords ∧ ∀ mem : Vector (BitVec 32) bpfMemWords,
          (∀ other, other ≠ word → s.mem[other]? = mem[other]?) →
          s.mem[word]? ≠ mem[word]? →
          registerTrace filter skb fuel (s.withMem mem) ≠ registerTrace filter skb fuel s
  | 0, _, _, _, failed => by simp [loadsStored] at failed
  | fuel + 1, stored, s, inside, failed => by
      obtain ⟨fentry, fetched⟩ := inside.fetched
      rw [loadsStored_succ fetched, Bool.and_eq_false_iff] at failed
      by_cases readStored : (scratchRead fentry).all stored.contains = true
      · -- this load is covered, so the run goes on and the word shows later
        have later := failed.resolve_left (by rw [readStored]; exact Bool.noConfusion)
        cases taken : step filter skb s with
        | error exit => rw [taken] at later; cases later
        | ok s' =>
          rw [taken] at later
          have moved := step_safe skb verified inside
          rw [taken] at moved
          obtain ⟨word, fresh, bound, reveals⟩ :=
            trace_reveals verified fuel _ s' moved.2 later
          rw [List.mem_append, not_or, mem_toList] at fresh
          refine ⟨word, fresh.2, bound, ?_⟩
          intro mem same differ
          have together := step_twin skb mem fetched (fun other read => by
            rw [read, all_some, List.contains_iff_mem] at readStored
            refine same other ?_
            rintro rfl
            exact fresh.2 readStored)
          simp only [registerTrace]
          rw [taken] at together ⊢
          generalize step filter skb (s.withMem mem) = right at together
          cases together with
          | next _ after agreeAfter leftAfter rightAfter =>
            have apart : s'.mem[word]? ≠ after[word]? := by
              rw [leftAfter word fresh.1, rightAfter word fresh.1]
              exact differ
            have alike : ∀ other, other ≠ word → s'.mem[other]? = after[other]? := by
              intro other ne
              by_cases here : scratchWrite fentry = some other
              · exact agreeAfter other here
              · rw [leftAfter other here, rightAfter other here]
                exact same other ne
            intro equal
            exact reveals after alike apart (List.cons.inj equal).2
      · -- this load shows the word at once
        cases read : scratchRead fentry with
        | none => rw [read] at readStored; exact absurd rfl readStored
        | some word =>
          rw [read, all_some, List.contains_iff_mem] at readStored
          have bound := scratchRead_lt (verified.insn fetched) read
          refine ⟨word, readStored, bound, ?_⟩
          intro mem _ differ
          obtain ⟨t, t', here, there, apart⟩ :=
            step_reveals skb verified inside fetched read differ
          simp only [registerTrace, here, there]
          intro equal
          refine apart ?_
          have heads := (List.cons.inj equal).1
          exact (Prod.mk.inj heads).2.symm

/-! ### Verdicts -/

/-- A verdict is a function of filter and packet exactly as far as the program stores what it
loads. For a filter `sk_chk_filter` accepts, a packet and the words `mem` left on the stack: the
run loads only words it has stored iff no other stack contents change what a register holds in
any iteration; and then the run ends in the same way for all of them, with one value if the packet has
a device. -/
theorem skRunFilter_scratch_independent (filter : List SockFilter) (skb : SkBuff)
    (mem : Vector (BitVec 32) bpfMemWords) (accepted : skChkFilter filter = .ok ()) :
    (loadsStored filter skb filter.length [] (initState mem) = true ↔
      ∀ mem', registerTrace filter skb filter.length (initState mem') =
        registerTrace filter skb filter.length (initState mem)) ∧
    (loadsStored filter skb filter.length [] (initState mem) = true →
      (∃ exit, ∀ mem', skRunFilter filter.length filter skb mem' = some exit) ∧
      (skb.dev ≠ none → ∃ value, ∀ mem', (skRunFilter filter.length filter skb mem').bind Exit.value =
        some value)) := by
  have verified := verified_of_accepted accepted
  have runs (passed : loadsStored filter skb filter.length [] (initState mem) = true) (mem') :=
    run_of_loadsStored filter.length [] (initState mem) mem' (by simp) passed
  refine ⟨⟨fun passed mem' => (runs passed mem').1, ?_⟩, ?_⟩
  · intro alike
    by_contra failed
    obtain ⟨word, -, bound, reveals⟩ :=
      trace_reveals verified _ _ _ (verified.initial mem) (Bool.eq_false_iff.mpr failed)
    -- flip the word that was loaded before it was stored
    refine reveals (mem.set word (~~~mem[word])) ?_ ?_ (alike _)
    · intro other ne
      exact (Vector.getElem?_set_ne bound ne.symm).symm
    · show mem[word]? ≠ _
      rw [Vector.getElem?_set_self, Vector.getElem?_eq_getElem bound]
      intro same
      have flipped := congrArg (fun value => value.getLsbD 0) (some.inj same)
      simp at flipped
  · intro passed
    obtain ⟨exit, last, ended, -, here, stopped, possible⟩ :=
      @runLoop_ends _ _ skb verified (verified.initial mem) filter.length _ .start (by simp [initState])
    have same (mem') : skRunFilter filter.length filter skb mem' = some exit := by
      rw [← ended]
      exact (runs passed mem').2
    refine ⟨⟨exit, same⟩, fun present => ?_⟩
    simp only [same, bind_some, forall_const]
    cases exit with
    | ret value => exact ⟨value, rfl⟩
    | failedLoad | zeroDivisor | illegal | offEnd => exact ⟨0, rfl⟩
    | fault what =>
      rw [possible.resolve_left id] at stopped
      obtain ⟨fentry, fetched⟩ := here.fetched
      exact absurd ((step_device_iff here fetched).mp stopped).1 present

/-- `st M[0]; ld M[0]; ret A`. -/
def storingFilter : List SockFilter := [⟨0x02, 0, 0, 0⟩, ⟨0x60, 0, 0, 0⟩, ⟨0x16, 0, 0, 0⟩]

theorem skRunFilter_scratch_independent_storing :
    skChkFilter storingFilter = .ok () ∧ ∃ value, ∀ mem',
        (skRunFilter 3 storingFilter samplePacket mem').bind Exit.value = some value :=
  ⟨by rfl, ((skRunFilter_scratch_independent storingFilter samplePacket
    (Vector.replicate _ 0) (by rfl)).2 (by rfl)).2 nofun⟩

/-- `ld M[0]; ret A`: accepted, and its value is the word the stack happened to hold. -/
def leakingFilter : List SockFilter := [⟨0x60, 0, 0, 0⟩, ⟨0x16, 0, 0, 0⟩]

theorem skRunFilter_leaks_scratch :
    skChkFilter leakingFilter = .ok () ∧
      skRunFilter 2 leakingFilter samplePacket (Vector.replicate _ 0) = some (.ret 0) ∧
      skRunFilter 2 leakingFilter samplePacket (Vector.replicate _ 7) = some (.ret 7) :=
  ⟨by rfl, by rfl, by rfl⟩

open List BitVec

/-- The attributes whose header `nla_find` inspects: `nla_ok` reads `nla_len`, and of an attribute that it
accepts `nla_type` is read; no payload is. -/
def nlaFindHeaders (skb : SkBuff) (nla rem attrtype : Int) : List Int :=
  if nlaOk skb nla rem then
    if (nlaType skb nla : Int) = attrtype then [nla]
    else nla :: nlaFindHeaders skb (nla + nlaAlign (nlaLenField skb nla))
      (rem - nlaAlign (nlaLenField skb nla)) attrtype
  else if rem ≥ 4 then [nla] else []
termination_by rem.toNat
decreasing_by
  rename_i ok _
  simp only [nlaOk, Bool.and_eq_true, decide_eq_true_eq] at ok
  simp only [nlaAlign]
  omega

/-- The headers `SKF_AD_NLATTR` and `SKF_AD_NLATTR_NEST` inspect, with the tests of `loadNlattr`. -/
def loadNlattrHeaders (skb : SkBuff) (s : FilterState) (nest : Bool) : List Int :=
  let len : BitVec 32 := BitVec.ofNat 32 skb.len
  if skb.dataLen ≠ 0 then []
  else if (s.A.setWidth 64) > len.setWidth 64 - 4 then []
  else
    let nla : Int := skb.data + s.A.toNat
    if nest then
      nla :: if nlaLenField skb nla > (s.A - len).toNat then []
        else nlaFindHeaders skb (nla + 4) ((nlaLenField skb nla : Int) - 4) s.X.toInt
    else nlaFindHeaders skb nla (len - s.A).toInt s.X.toInt

/-- The header lies in `[skb->data, skb->data + skb->len)`. -/
def InPacket (skb : SkBuff) (nla : Int) : Prop := skb.data ≤ nla ∧ nla + 4 ≤ skb.data + skb.len

/-- The attributes from `nla` to `last`: none is of the type, all end in the window, and their headers lie
in the packet. -/
inductive Attributes (skb : SkBuff) (window attrtype : Int) : Int → Int → Prop where
  | nil {nla : Int} : Attributes skb window attrtype nla nla
  | cons {nla last : Int} (header : InPacket skb nla) (other : nlaType skb nla ≠ attrtype)
      (long : 4 ≤ nlaLenField skb nla) (whole : nla + nlaLenField skb nla ≤ window)
      (rest : Attributes skb window attrtype (nla + nlaAlign (nlaLenField skb nla)) last) :
      Attributes skb window attrtype nla last

/-- The attributes in the packet lead to the end of the window, or to a header in the packet that ends the
search: that of the attribute searched, or of one whose length is none or leads out of the window. -/
def EndsInPacket (skb : SkBuff) (nla window attrtype : Int) : Prop :=
  ∃ last, Attributes skb window attrtype nla last ∧ (window < last + 4 ∨
    InPacket skb last ∧
      (nlaType skb last = attrtype ∨ nlaLenField skb last < 4 ∨ window < last + nlaLenField skb last))

variable {nla rem attrtype window : Int}

theorem nlaOk_iff : nlaOk skb nla rem ↔ 4 ≤ nlaLenField skb nla ∧ (nlaLenField skb nla : Int) ≤ rem := by
  simp only [nlaOk, Bool.and_eq_true, decide_eq_true_eq]
  omega

theorem le_nlaAlign (len : Nat) : len ≤ nlaAlign len := by
  rw [nlaAlign]
  omega

theorem nlaFindHeaders_length : (nlaFindHeaders skb nla rem attrtype).length ≤ rem.toNat / 4 := by
  fun_induction nlaFindHeaders skb nla rem attrtype with
  | case1 nla rem ok found =>
    have := nlaOk_iff.mp ok
    simp only [length_singleton]
    omega
  | case2 nla rem ok other ih =>
    have := nlaOk_iff.mp ok
    have := le_nlaAlign (nlaLenField skb nla)
    simp only [length_cons]
    omega
  | case3 nla rem bad room =>
    simp only [length_singleton]
    omega
  | case4 => exact Nat.zero_le _

theorem nlaFindHeaders_nil (full : rem < 4) : nlaFindHeaders skb nla rem attrtype = [] := by
  rw [nlaFindHeaders, if_neg fun ok => ?_, if_neg (by omega)]
  have := nlaOk_iff.mp ok
  omega

/-- A search with room for a header looks at its first attribute. -/
theorem nlaFindHeaders_head (room : 4 ≤ rem) : nla ∈ nlaFindHeaders skb nla rem attrtype := by
  rw [nlaFindHeaders]
  split_ifs <;> exact mem_cons_self

/-- A search in a window of the packet stays in the packet. -/
theorem nlaFindHeaders_inside (front : skb.data ≤ nla) (back : nla + rem ≤ skb.data + skb.len) :
    ∀ header ∈ nlaFindHeaders skb nla rem attrtype, InPacket skb header := by
  fun_induction nlaFindHeaders skb nla rem attrtype with
  | case1 nla rem ok found =>
    have := nlaOk_iff.mp ok
    exact forall_mem_singleton.mpr ⟨front, by omega⟩
  | case2 nla rem ok other ih =>
    have := nlaOk_iff.mp ok
    exact forall_mem_cons.mpr ⟨⟨front, by omega⟩, ih (by omega) (by omega)⟩
  | case3 nla rem bad room => exact forall_mem_singleton.mpr ⟨front, by omega⟩
  | case4 => exact fun _ => nofun

theorem nlaFindHeaders_inside_iff :
    (∀ header ∈ nlaFindHeaders skb nla (window - nla) attrtype, InPacket skb header) ↔
      EndsInPacket skb nla window attrtype := by
  constructor
  · intro inside
    generalize same : window - nla = rem at inside
    fun_induction nlaFindHeaders skb nla rem attrtype with
    | case1 nla rem ok found => exact ⟨nla, .nil, .inr ⟨forall_mem_singleton.mp inside, .inl found⟩⟩
    | case2 nla rem ok other ih =>
      obtain ⟨long, whole⟩ := nlaOk_iff.mp ok
      obtain ⟨here, later⟩ := forall_mem_cons.mp inside
      obtain ⟨last, rest, ends⟩ := ih (by omega) later
      exact ⟨last, .cons here other long (by omega) rest, ends⟩
    | case3 nla rem bad room =>
      rw [nlaOk_iff] at bad
      exact ⟨nla, .nil, .inr ⟨forall_mem_singleton.mp inside, .inr (by omega)⟩⟩
    | case4 nla rem bad full => exact ⟨nla, .nil, .inl (by omega)⟩
  · rintro ⟨last, chain, ends⟩
    induction chain with
    | nil =>
      rcases ends with full | ⟨header, stops⟩
      · rw [nlaFindHeaders_nil (by omega)]
        exact fun _ => nofun
      · rw [nlaFindHeaders]
        split_ifs with ok found
        · exact forall_mem_singleton.mpr header
        · have := nlaOk_iff.mp ok
          have := stops.resolve_left found
          omega
        · exact forall_mem_singleton.mpr header
        · exact fun _ => nofun
    | @cons nla last header other long whole rest ih =>
      rw [nlaFindHeaders, if_pos (nlaOk_iff.mpr ⟨long, by omega⟩), if_neg other, Int.sub_sub]
      exact forall_mem_cons.mpr ⟨header, ih ends⟩

/-! ### The ancillary loads -/

/-- The test in front of both searches lets through what it should, and every `A` for a packet that is
shorter than a header. -/
theorem passes_iff {len : Nat} (A : BitVec 32) (short : len < 2 ^ 31) :
    ¬(A.setWidth 64 > (BitVec.ofNat 32 len).setWidth 64 - 4) ↔ len < 4 ∨ A.toNat + 4 ≤ len := by
  have := A.isLt
  have four : (4 : BitVec 64).toNat = 4 := rfl
  simp only [gt_iff_lt, lt_def, toNat_sub, toNat_setWidth, toNat_ofNat, four]
  omega

theorem nlaLenField_lt (skb : SkBuff) (nla : Int) : nlaLenField skb nla < 2 ^ 16 := by
  have low := (skb.memory nla).isLt
  have high := (skb.memory (nla + 1)).isLt
  rw [nlaLenField, SkBuff.u16At]
  omega

/-- The searches stay in a linear packet: there is room for a header, or nothing is searched, and a nested
search, whose window is what the attribute at `A` says, ends in the packet. -/
def SearchFits (skb : SkBuff) (s : FilterState) (nest : Bool) : Prop :=
  let nla : Int := skb.data + s.A.toNat
  if nest then
    4 ≤ skb.len ∧ (s.A.toNat + 4 ≤ skb.len → EndsInPacket skb (nla + 4) (nla + nlaLenField skb nla) s.X.toInt)
  else 4 ≤ skb.len ∨ (BitVec.ofNat 32 skb.len - s.A).toInt < 4

/-- `skb->len - A` as an `int`. -/
theorem window_eq {len : Nat} {A : BitVec 32} (short : len < 2 ^ 31) (fits : A.toNat + 4 ≤ len) :
    (BitVec.ofNat 32 len - A).toInt = len - A.toNat := by
  rw [toInt_eq_toNat_cond, toNat_sub, toNat_ofNat]
  omega

theorem plain_inside_iff (s : FilterState) (passed : skb.len < 4 ∨ s.A.toNat + 4 ≤ skb.len) :
    (∀ header ∈ nlaFindHeaders skb (skb.data + s.A.toNat) (BitVec.ofNat 32 skb.len - s.A).toInt s.X.toInt,
        InPacket skb header) ↔
      4 ≤ skb.len ∨ (BitVec.ofNat 32 skb.len - s.A).toInt < 4 := by
  have short : skb.len < 2 ^ 31 := skb.len_lt
  rcases passed with small | fits
  · rw [or_iff_right (by omega)]
    constructor
    · refine fun inside => Int.not_le.mp fun room => ?_
      have := (inside _ (nlaFindHeaders_head room)).2
      omega
    · intro none
      rw [nlaFindHeaders_nil none]
      exact fun _ => nofun
  · refine iff_of_true (nlaFindHeaders_inside (by omega) ?_) (.inl (by omega))
    rw [window_eq short fits]
    omega

/-- `nla->nla_len > A - skb->len` never holds. -/
theorem not_past_window {s : FilterState} (fits : s.A.toNat + 4 ≤ skb.len) (nla : Int) :
    ¬nlaLenField skb nla > (s.A - BitVec.ofNat 32 skb.len).toNat := by
  have short : skb.len < 2 ^ 31 := skb.len_lt
  have := nlaLenField_lt skb nla
  rw [toNat_sub, toNat_ofNat]
  omega

/-- The two searches end, after at most `2 ^ 29` headers, and every header they inspect lies in the packet
exactly if the packet is not linear, and nothing is searched, or `SearchFits` holds. -/
theorem loadNlattrHeaders_inside_iff (skb : SkBuff) (s : FilterState) (nest : Bool) :
    (loadNlattrHeaders skb s nest).length ≤ 2 ^ 29 ∧
      ((∀ header ∈ loadNlattrHeaders skb s nest, InPacket skb header) ↔
        (skb.dataLen = 0 → SearchFits skb s nest)) := by
  have short : skb.len < 2 ^ 31 := skb.len_lt
  have small := nlaLenField_lt skb (skb.data + s.A.toNat)
  rw [loadNlattrHeaders, SearchFits]
  by_cases linear : skb.dataLen = 0
  swap
  · simp [linear]
  rw [if_neg (not_not.mpr linear), imp_iff_right linear]
  split
  case isTrue stopped =>
    have := mt (passes_iff s.A short).mpr (not_not.mpr stopped)
    refine ⟨Nat.zero_le _, iff_of_true (fun _ => nofun) ?_⟩
    split
    · exact ⟨by omega, fun fits => absurd (.inr fits) this⟩
    · exact .inl (by omega)
  case isFalse passed =>
    replace passed := (passes_iff s.A short).mp passed
    cases nest with
    | false =>
      refine ⟨Nat.le_trans nlaFindHeaders_length ?_, plain_inside_iff s passed⟩
      have := toInt_lt (x := BitVec.ofNat 32 skb.len - s.A)
      omega
    | true =>
      simp only [if_true, forall_mem_cons, length_cons]
      constructor
      · refine Nat.succ_le_of_lt (Nat.lt_of_le_of_lt (m := 2 ^ 16) ?_ (by decide))
        split
        · exact Nat.zero_le _
        · exact Nat.le_trans nlaFindHeaders_length (by omega)
      · by_cases fits : s.A.toNat + 4 ≤ skb.len
        · have header : InPacket skb (skb.data + s.A.toNat) := ⟨by omega, by omega⟩
          rw [if_neg (not_past_window fits _), and_iff_right header, imp_iff_right fits,
            and_iff_right (by omega),
            ← nlaFindHeaders_inside_iff, Int.add_sub_add_left]
        · refine iff_of_false (fun inside => ?_) (fun room => by omega)
          have := inside.1.2
          omega

/-- A linear packet of eight bytes: an attribute of length 200 that holds an empty one of type 1. -/
def nestedPacket : SkBuff where
  memory addr := if addr = 0 then 200 else if addr = 4 then 4 else if addr = 6 then 1 else 0
  data := 0
  tail := 8
  networkHeader := 0
  macHeader := 0
  frags := []
  protocol := 0
  pktType := 0
  dev := none
  data_le_tail := by decide
  len_lt := by decide

/-- An accepted filter whose first block makes the nested search, for type 0, read a header behind that
packet. -/
theorem nested_search_outside :
    skChkFilter [⟨0x20, 0, 0, 0xfffff010⟩, ⟨0x16, 0, 0, 0⟩] = .ok () ∧
      execInsn nestedPacket ⟨0x20, 0, 0, 0xfffff010⟩ (initState (.replicate _ 0)) =
        loadNlattr nestedPacket (initState (.replicate _ 0)) true ∧
      ∃ header ∈ loadNlattrHeaders nestedPacket (initState (.replicate _ 0)) true,
        ¬InPacket nestedPacket header := by
  refine ⟨by decide, rfl, 8, mem_cons_of_mem _ ?_, fun inside => absurd inside.2 (by decide)⟩
  change 8 ∈ nlaFindHeaders nestedPacket 4 196 0
  rw [nlaFindHeaders, if_pos (by decide), if_neg (by decide)]
  exact mem_cons_of_mem _ (nlaFindHeaders_head (by decide))

/-! ### Packet loads -/

/-- Offset and size of the load of a block, for the absolute, indirect and `MSH` loads. -/
def packetLoad (fentry : SockFilter) (s : FilterState) : Option (BitVec 32 × Nat) :=
  match Opcode.ofCode fentry.code with
  | some .ldWAbs => some (fentry.k, 4)
  | some .ldHAbs => some (fentry.k, 2)
  | some .ldBAbs | some .ldxBMsh => some (fentry.k, 1)
  | some .ldWInd => some (s.X + fentry.k, 4)
  | some .ldHInd => some (s.X + fentry.k, 2)
  | some .ldBInd => some (s.X + fentry.k, 1)
  | _ => none

/-- Where the load reads: from what `load_pointer` returns, unless that is `NULL`, as many bytes as its
size. -/
def packetReads (skb : SkBuff) (fentry : SockFilter) (s : FilterState) : Option (Ptr × Nat) := do
  let (k, size) ← packetLoad fentry s
  let ptr ← loadPointer skb k.toInt size
  return (ptr, size)

/-- The bytes lie in `[skb->head, skb_tail_pointer(skb))`, or in the buffer with the copied header. -/
def InBuffer (skb : SkBuff) : Ptr × Nat → Prop
  | (.linear addr, size) => 0 ≤ addr ∧ addr + size ≤ skb.tail
  | (.buffer bytes, size) => size ≤ bytes.length

/-- The address that an offset relative to a header stands for. -/
def HeaderAddr (skb : SkBuff) (k addr : Int) : Prop :=
  (skfNetOff ≤ k ∧ addr = skb.networkHeader + k - skfNetOff) ∨
    (k < skfNetOff ∧ skfLlOff ≤ k ∧ addr = skb.macHeader + k - skfLlOff)

/-- A load relative to a header that begins in the buffer also ends there. -/
def LoadFits (skb : SkBuff) (k : Int) (size : Nat) : Prop :=
  k < skfAdOff → ∀ addr, HeaderAddr skb k addr → 0 ≤ addr → addr < skb.tail → addr + size ≤ skb.tail

theorem skbHeaderPointer_inBuffer {offset size : Nat} {ptr : Ptr}
    (found : skbHeaderPointer skb offset size = some ptr) : InBuffer skb (ptr, size) := by
  have := skb.data_le_tail
  unfold skbHeaderPointer at found
  split at found
  case isTrue linear =>
    cases found
    rw [SkBuff.headlen] at linear
    exact ⟨by omega, by omega⟩
  case isFalse =>
    obtain ⟨bytes, copied, rfl⟩ := Option.map_eq_some_iff.mp found
    unfold skbCopyBits at copied
    split at copied
    · cases copied
    · cases copied
      simp [InBuffer]

theorem loadPointerSlow_eq_some_iff {k : Int} {ptr : Ptr} : loadPointerSlow skb k = some ptr ↔
    ∃ addr, HeaderAddr skb k addr ∧ (0 ≤ addr ∧ addr < skb.tail) ∧ .linear addr = ptr := by
  unfold loadPointerSlow HeaderAddr
  by_cases net : k ≥ skfNetOff
  · simp [net, Int.not_lt.mpr net]
  · by_cases link : k ≥ skfLlOff
    · simp [net, Int.not_le.mp net, link]
    · simp [net, link]

theorem loadPointer_inBuffer_iff (skb : SkBuff) (k : Int) (size : Nat) :
    (∀ ptr, loadPointer skb k size = some ptr → InBuffer skb (ptr, size)) ↔ LoadFits skb k size := by
  unfold loadPointer
  split
  case isTrue nonneg =>
    refine iff_of_true (fun ptr => skbHeaderPointer_inBuffer) fun below => ?_
    simp only [skfAdOff] at below
    omega
  case isFalse =>
    split
    case isTrue ancillary =>
      exact iff_of_true (fun _ => nofun) fun below => absurd below (Int.not_lt.mpr ancillary)
    case isFalse below =>
      simp only [loadPointerSlow_eq_some_iff, LoadFits, Int.not_le.mp below, forall_const]
      constructor
      · intro inside addr header low high
        exact (inside _ ⟨addr, header, ⟨low, high⟩, rfl⟩).2
      · rintro fits _ ⟨addr, header, ⟨low, high⟩, rfl⟩
        exact ⟨low, fits addr header low high⟩

/-- The packet loads of a run, begun in any state, stay in the buffer just where those relative to a header,
which are tested by their first byte only, end in it. -/
theorem packetReads_inBuffer_iff (filter : List SockFilter) (skb : SkBuff) (first : FilterState) :
    (∀ s fentry, Reaches filter skb first s → filter[s.pc.toNat]? = some fentry →
      ∀ read, packetReads skb fentry s = some read → InBuffer skb read) ↔
    ∀ s fentry, Reaches filter skb first s → filter[s.pc.toNat]? = some fentry →
      ∀ k size, packetLoad fentry s = some (k, size) → LoadFits skb k.toInt size := by
  refine forall₂_congr fun s fentry => forall₂_congr fun _ _ => ?_
  simp only [packetReads, ← loadPointer_inBuffer_iff]
  rcases packetLoad fentry s with _ | ⟨k, size⟩
  · simp
  · simp [Option.bind_eq_some_iff]

/-- An accepted filter that loads the word at the last byte of that packet, relative to the network header. -/
theorem packet_load_outside : skChkFilter [⟨0x20, 0, 0, 0xfff00007⟩, ⟨0x16, 0, 0, 0⟩] = .ok () ∧
    packetReads nestedPacket ⟨0x20, 0, 0, 0xfff00007⟩ (initState (.replicate _ 0)) = some (.linear 7, 4) ∧
    ¬ InBuffer nestedPacket (.linear 7, 4) :=
  ⟨by decide, rfl, fun inside => absurd inside.2 (by decide)⟩

end LinuxKernel.Net.Filter
