import Mathlib.Data.List.Basic
import TheKernel.Lib.Outcome

namespace TheKernel.Ebpf

open Outcome

abbrev registerCount : Nat := 11

abbrev Register := Fin 11

instance neZeroRegisterCount : NeZero 11 := ⟨by decide⟩

def framePointer : Register := 10

inductive Class where
  | ld | ldx | st | stx | alu | jmp | jmp32 | alu64
  deriving DecidableEq

inductive AluOp where
  | add | sub | mul | div | or | and | lsh | rsh | neg | mod | xor | mov | arsh | endian
  deriving DecidableEq

inductive JumpOp where
  | ja | jeq | jgt | jge | jset | jne | jsgt | jsge | call | exit | jlt | jle | jslt | jsle
  deriving DecidableEq

/-- The eight-byte encoding: two four-bit register fields in `regs`, a signed
16-bit offset and a signed 32-bit immediate. -/
structure Instruction where
  code : BitVec 8
  regs : BitVec 8
  off : BitVec 16
  imm : BitVec 32
  deriving DecidableEq

namespace Instruction

def dst (x : Instruction) : Nat := (x.regs &&& 15).toNat

def src (x : Instruction) : Nat := (x.regs >>> 4).toNat

def opClass (x : Instruction) : Class :=
  match (x.code &&& 7).toNat with
  | 0 => .ld
  | 1 => .ldx
  | 2 => .st
  | 3 => .stx
  | 4 => .alu
  | 5 => .jmp
  | 6 => .jmp32
  | _ => .alu64

def aluOp (x : Instruction) : Option AluOp :=
  match (x.code >>> 4).toNat with
  | 0 => some .add
  | 1 => some .sub
  | 2 => some .mul
  | 3 => some .div
  | 4 => some .or
  | 5 => some .and
  | 6 => some .lsh
  | 7 => some .rsh
  | 8 => some .neg
  | 9 => some .mod
  | 10 => some .xor
  | 11 => some .mov
  | 12 => some .arsh
  | 13 => some .endian
  | _ => none

def jumpOp (x : Instruction) : Option JumpOp :=
  match (x.code >>> 4).toNat with
  | 0 => some .ja
  | 1 => some .jeq
  | 2 => some .jgt
  | 3 => some .jge
  | 4 => some .jset
  | 5 => some .jne
  | 6 => some .jsgt
  | 7 => some .jsge
  | 8 => some .call
  | 9 => some .exit
  | 10 => some .jlt
  | 11 => some .jle
  | 12 => some .jslt
  | 13 => some .jsle
  | _ => none

/-- `code & X != 0`. -/
def isX (x : Instruction) : Bool := x.code &&& 8 ≠ 0

def mode (x : Instruction) : BitVec 8 := x.code &&& 0xe0

/-- `size`, whose error arm no two-bit field reaches. -/
def size (x : Instruction) : Nat :=
  match (x.code &&& 24).toNat with
  | 0 => 4
  | 8 => 2
  | 16 => 1
  | _ => 8

def isExit (x : Instruction) : Bool := x.opClass = .jmp ∧ x.jumpOp = some .exit

abbrev addsImmediate (x : Instruction) : Prop := x.opClass = .alu64 ∧ x.aluOp = some .add ∧ x.isX = false

def operands (x : Instruction) : Option (Register × Register) :=
  if hd : x.dst < registerCount then
    if hs : x.src < registerCount then some (⟨x.dst, hd⟩, ⟨x.src, hs⟩) else none
  else none

end Instruction

def modeMem : BitVec 8 := 0x60
def modeAtomic : BitVec 8 := 0xc0

structure MapRef where
  id : BitVec 32
  deriving DecidableEq

structure MapInfo where
  keySize : BitVec 32
  valueSize : BitVec 32
  maxEntries : BitVec 32

inductive MemoryRegion where
  | context | stack | mapValue | ringReservation | custom (id : BitVec 16)
  deriving DecidableEq

structure Capability where
  region : MemoryRegion
  token : BitVec 64
  offset : BitVec 32
  length : BitVec 32
  writable : Bool
  deriving DecidableEq

inductive Value where
  | scalar (value : BitVec 64)
  | pointer (capability : Capability)
  | map (reference : MapRef)
  | uninit
  deriving DecidableEq

inductive ArgKind where
  | scalar
  | pointer (readable writable : Bool)
  | map

inductive ReturnKind where
  | scalar
  | pointer (region : MemoryRegion) (length : BitVec 32) (writable : Bool)
  | nullablePointer (region : MemoryRegion) (length : BitVec 32) (writable : Bool)
  | mapValueOrNull

structure HelperSignature where
  args : Fin 5 → Option ArgKind
  result : ReturnKind

inductive HelperArgument where
  | uninit
  | scalar
  | pointer (region : MemoryRegion) (length : BitVec 32) (writable : Bool)
  | map (reference : MapRef)

/-- What `signature` and `effects` of a helper set answer. -/
structure Helpers where
  signature : BitVec 32 → Option HelperSignature
  effects : BitVec 32 → (Fin 5 → HelperArgument) → Option ReturnKind

structure ContextPointerField where
  offset : BitVec 32
  width : BitVec 8
  region : MemoryRegion
  maxLength : BitVec 32
  writable : Bool
  deriving DecidableEq

structure VerifyPolicy where
  maxInstructions : Nat
  stackBytes : Nat
  contextBytes : BitVec 32
  contextWritable : Bool
  contextPointerFields : List (Option ContextPointerField)
  allowLoops : Bool
  maxStates : Nat
  deriving DecidableEq

def VerifyPolicy.default : VerifyPolicy := ⟨4096, 512, 0, false, [none, none, none], false, 4096 * 4⟩

inductive VerifyError where
  | empty
  | tooLong
  | badRegister (pc : Nat)
  | badEncoding (pc : Nat)
  | badOpcode (pc : Nat)
  | badJump (pc : Nat)
  | loop (pc : Nat)
  | unreachable (pc : Nat)
  | missingExit
  | unknownMap (pc : Nat)
  | unknownHelper (pc : Nat)
  | type (pc : Nat)
  | bounds (pc : Nat)
  | stateLimit
  deriving DecidableEq

inductive RuntimeError where
  | stepLimit | invalidProgramCounter | type | bounds | memory | helper | arithmetic
  deriving DecidableEq

inductive Decoded where
  | basic
  | wideImmediate (value : BitVec 64)
  | map (reference : MapRef)
  | continuation (head : Nat)
  deriving DecidableEq

def Decoded.isContinuation : Decoded → Bool
  | .continuation _ => true
  | _ => false

def isWide (x : Instruction) : Bool := x.opClass = .ld ∧ x.mode = 0 ∧ x.code &&& 0x18 = 24

def decodeWide (resolveFd : BitVec 32 → Option MapInfo) (i : Nat) (x next : Instruction) :
    Outcome VerifyError Decoded :=
  if next.code ≠ 0 ∨ next.regs ≠ 0 ∨ next.off ≠ 0 then .err (.badEncoding (i + 1))
  else if x.src = 0 then
    .ok (.wideImmediate (x.imm.setWidth 64 ||| (next.imm.setWidth 64 <<< 32)))
  else if x.src = 1 then
    if (resolveFd x.imm).isNone then .err (.unknownMap i) else .ok (.map ⟨x.imm⟩)
  else .err (.badEncoding i)

/-- The loop of `decode` from slot `i` on. -/
def decodeFrom (resolveFd : BitVec 32 → Option MapInfo) : Nat → List Instruction → Outcome VerifyError (List Decoded)
  | _, [] => .ok []
  | i, x :: rest =>
      if 10 < x.dst ∨ 10 < x.src then .err (.badRegister i)
      else if isWide x then
        match rest with
        | [] => .err (.badEncoding i)
        | next :: rest => do
            let d ← decodeWide resolveFd i x next
            let ds ← decodeFrom resolveFd (i + 2) rest
            .ok (d :: .continuation i :: ds)
      else do
        let ds ← decodeFrom resolveFd (i + 1) rest
        .ok (.basic :: ds)

def decode (resolveFd : BitVec 32 → Option MapInfo) (instructions : List Instruction) :
    Outcome VerifyError (List Decoded) := decodeFrom resolveFd 0 instructions

def checkedAddI32 (a b : BitVec 32) : Option (BitVec 32) := if a.saddOverflow b then none else some (a + b)

/-- The arithmetic that `check_access` and `cap` share: the first byte of an
access of `width` bytes at `base + off` inside `length`. -/
def accessStart (base length : BitVec 32) (off : BitVec 16) (width : Nat) : Option (BitVec 32) := do
  let start ← checkedAddI32 base (off.signExtend 32)
  let stop ← checkedAddI32 start (BitVec.ofNat 32 width)
  if start.slt 0 ∨ length < stop then none else some start

inductive AtomicOperationCode where
  | add | or | and | xor | exchange | compareExchange
  deriving DecidableEq

def atomicEncoding (imm : BitVec 32) : Option (AtomicOperationCode × Bool) :=
  let fetch : Bool := imm &&& 1 ≠ 0
  match (imm &&& ~~~1).toNat with
  | 0x00 => some (.add, fetch)
  | 0x40 => some (.or, fetch)
  | 0x50 => some (.and, fetch)
  | 0xa0 => some (.xor, fetch)
  | 0xe0 => some (.exchange, fetch)
  | 0xf0 => if fetch then none else some (.compareExchange, false)
  | _ => none

end TheKernel.Ebpf
