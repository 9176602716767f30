import Mathlib.Data.List.Basic
import TheKernel.Lib.Outcome
import TheKernel.Lib.Machine

namespace TheKernel.ClassicBpf

inductive LoadWidth where
  | byte | half | word
  deriving DecidableEq

def LoadWidth.bytes : LoadWidth → Nat
  | .byte => 1
  | .half => 2
  | .word => 4

/-- The `_K` and `_X` forms of an operation. -/
inductive Src where
  | k | x
  deriving DecidableEq

inductive AluOp where
  | add | sub | mul | div | or | and | lsh | rsh | mod | xor
  deriving DecidableEq

inductive JumpOp where
  | jeq | jgt | jge | jset
  deriving DecidableEq

/-- The constants of the `opcode` module. Families that differ only in the
operand or in the load width share a constructor. -/
inductive Opcode where
  | ldImm | ldAbs (width : LoadWidth) | ldInd (width : LoadWidth) | ldMem | ldLen
  | ldxImm | ldxMem | ldxLen | ldxMsh
  | st | stx
  | alu (op : AluOp) (src : Src) | aluNeg
  | jmpJa | jmp (op : JumpOp) (src : Src)
  | retK | retA
  | miscTax | miscTxa
  deriving DecidableEq

def AluOp.code : AluOp → BitVec 16
  | .add => 0x04
  | .sub => 0x14
  | .mul => 0x24
  | .div => 0x34
  | .or => 0x44
  | .and => 0x54
  | .lsh => 0x64
  | .rsh => 0x74
  | .mod => 0x94
  | .xor => 0xa4

def JumpOp.code : JumpOp → BitVec 16
  | .jeq => 0x15
  | .jgt => 0x25
  | .jge => 0x35
  | .jset => 0x45

def Src.code : Src → BitVec 16
  | .k => 0
  | .x => 0x08

def Opcode.code : Opcode → BitVec 16
  | .ldImm => 0x00
  | .ldAbs .word => 0x20
  | .ldAbs .half => 0x28
  | .ldAbs .byte => 0x30
  | .ldInd .word => 0x40
  | .ldInd .half => 0x48
  | .ldInd .byte => 0x50
  | .ldMem => 0x60
  | .ldLen => 0x80
  | .ldxImm => 0x01
  | .ldxMem => 0x61
  | .ldxLen => 0x81
  | .ldxMsh => 0xb1
  | .st => 0x02
  | .stx => 0x03
  | .alu op src => op.code ||| src.code
  | .aluNeg => 0x84
  | .jmpJa => 0x05
  | .jmp op src => op.code ||| src.code
  | .retK => 0x06
  | .retA => 0x16
  | .miscTax => 0x07
  | .miscTxa => 0x87

def Opcode.all : List Opcode :=
  [.ldImm, .ldAbs .word, .ldAbs .half, .ldAbs .byte, .ldInd .word, .ldInd .half, .ldInd .byte,
    .ldMem, .ldLen, .ldxImm, .ldxMem, .ldxLen, .ldxMsh, .st, .stx,
    .alu .add .k, .alu .add .x, .alu .sub .k, .alu .sub .x, .alu .mul .k, .alu .mul .x,
    .alu .div .k, .alu .div .x, .alu .or .k, .alu .or .x, .alu .and .k, .alu .and .x,
    .alu .lsh .k, .alu .lsh .x, .alu .rsh .k, .alu .rsh .x, .aluNeg,
    .alu .mod .k, .alu .mod .x, .alu .xor .k, .alu .xor .x,
    .jmpJa, .jmp .jeq .k, .jmp .jeq .x, .jmp .jgt .k, .jmp .jgt .x,
    .jmp .jge .k, .jmp .jge .x, .jmp .jset .k, .jmp .jset .x,
    .retK, .retA, .miscTax, .miscTxa]

/-- The operation a raw `code` field names, if it is one of the forty-nine
supported ones. -/
def Opcode.ofCode (code : BitVec 16) : Option Opcode :=
  Opcode.all.find? (fun op => op.code = code)

structure Instruction where
  code : BitVec 16
  jt : BitVec 8
  jf : BitVec 8
  k : BitVec 32

def Instruction.op (i : Instruction) : Option Opcode := Opcode.ofCode i.code

def Instruction.statement (op : Opcode) (k : BitVec 32) : Instruction := ⟨op.code, 0, 0, k⟩

def maxInstructions : Nat := 4096

def scratchWords : Nat := 16

/-- The `Input` trait: a length and a fallible load at a resolved offset. -/
structure Input where
  len : BitVec 32
  load : BitVec 32 → LoadWidth → Option (BitVec 32)

def saturate (length : Nat) : Nat := min length (2 ^ 32 - 1)

def inputRange (length : Nat) (offset : BitVec 32) (width : LoadWidth) : Option (Nat × Nat) :=
  -- `offset.checked_add` fails exactly when the end does not fit in 32 bits
  if 2 ^ 32 ≤ offset.toNat + width.bytes then none
  else if saturate length < offset.toNat + width.bytes then none
  else some (offset.toNat, offset.toNat + width.bytes)

/-- `from_be_bytes` of a slice of at most four bytes, widened to 32 bits. -/
def fromBeBytes (bytes : List (BitVec 8)) : BitVec 32 :=
  bytes.foldl (fun acc b => (acc <<< 8) ||| b.setWidth 32) 0

def sliceGet (bytes : List (BitVec 8)) (range : Nat × Nat) : Option (List (BitVec 8)) :=
  if range.2 ≤ bytes.length then some ((bytes.drop range.1).take (range.2 - range.1)) else none

/-- The `Input` instance of `[u8]`: big-endian loads. -/
def sliceInput (bytes : List (BitVec 8)) : Input where
  len := BitVec.ofNat 32 (saturate bytes.length)
  load offset width := do
    let range ← inputRange bytes.length offset width
    let slice ← sliceGet bytes range
    return fromBeBytes slice

open Outcome

inductive VerifyError where
  | empty
  | tooLong (length : Nat)
  | noMemory
  | unsupportedOpcode (pc : Nat) (code : BitVec 16)
  | immediateDivisionByZero (pc : Nat)
  | immediateShiftOutOfRange (pc : Nat) (shift : BitVec 32)
  | scratchOutOfRange (pc : Nat) (index : BitVec 32)
  | scratchUninitialized (pc : Nat) (index : BitVec 32)
  | jumpOutOfRange (pc : Nat)
  | missingFinalReturn
  deriving DecidableEq

def isSupported (code : BitVec 16) : Bool := (Opcode.ofCode code).isSome

def verifyInstruction (length pc : Nat) (i : Instruction) : Outcome VerifyError Unit :=
  match i.op with
  | none => .err (.unsupportedOpcode pc i.code)
  | some (.alu .div .k) | some (.alu .mod .k) =>
      if i.k = 0 then .err (.immediateDivisionByZero pc) else .ok ()
  | some (.alu .lsh .k) | some (.alu .rsh .k) =>
      if 32 ≤ i.k.toNat then .err (.immediateShiftOutOfRange pc i.k) else .ok ()
  | some .ldMem | some .ldxMem | some .st | some .stx =>
      if scratchWords ≤ i.k.toNat then .err (.scratchOutOfRange pc i.k) else .ok ()
  | some .jmpJa =>
      match (checkedAdd pc 1).bind (checkedAdd · i.k.toNat) with
      | none => .err (.jumpOutOfRange pc)
      | some target => if length ≤ target then .err (.jumpOutOfRange pc) else .ok ()
  | some (.jmp _ _) =>
      if length ≤ pc + 1 + i.jt.toNat ∨ length ≤ pc + 1 + i.jf.toNat then .err (.jumpOutOfRange pc)
      else .ok ()
  | some _ => .ok ()

def endsInReturn (instructions : List Instruction) : Bool :=
  match instructions.getLast?.bind Instruction.op with
  | some .retK | some .retA => true
  | _ => false

def verifyStructure (instructions : List Instruction) : Outcome VerifyError Unit :=
  if instructions.isEmpty then .err .empty
  else if maxInstructions < instructions.length then .err (.tooLong instructions.length)
  else do
    forEnum (fun pc i _ => verifyInstruction instructions.length pc i) 0 instructions ()
    if endsInReturn instructions then .ok () else .err .missingFinalReturn

/-- The per-instruction table of the scratch analysis: the words initialized
on every path seen so far, or `none` while no path has reached the slot. -/
abbrev Incoming := List (Option (BitVec 16))

def mergeInitialized (slot : Option (BitVec 16)) (incoming : BitVec 16) : Option (BitVec 16) :=
  some (match slot with
    | some existing => existing &&& incoming
    | none => incoming)

/-- `merge_initialized(&mut incoming[target], initialized)`. -/
def mergeAt {ε : Type} (incoming : Incoming) (target : Nat) (initialized : BitVec 16) : Outcome ε Incoming :=
  match incoming[target]? with
  | none => .panic
  | some slot => .ok (incoming.set target (mergeInitialized slot initialized))

/-- `1_u16 << k`, which overflows for sixteen and more. -/
def scratchBit {ε : Type} (k : BitVec 32) : Outcome ε (BitVec 16) :=
  if 16 ≤ k.toNat then .panic else .ok (1#16 <<< k.toNat)

/-- The first match of the analysis: a load demands its bit, a store sets
it. -/
def touchScratch {ε : Type} (uninitialized : Nat → BitVec 32 → ε) (pc : Nat) (i : Instruction)
    (initialized : BitVec 16) : Outcome ε (BitVec 16) :=
  match i.op with
  | some .ldMem | some .ldxMem => do
      let bit ← scratchBit i.k
      if initialized &&& bit = 0 then .err (uninitialized pc i.k) else .ok initialized
  | some .st | some .stx => do
      let bit ← scratchBit i.k
      .ok (initialized ||| bit)
  | _ => .ok initialized

def propagateInitialized {ε : Type} (pc : Nat) (i : Instruction) (initialized : BitVec 16)
    (incoming : Incoming) : Outcome ε Incoming :=
  match i.op with
  | some .retK | some .retA => .ok incoming
  | some .jmpJa => mergeAt incoming (pc + 1 + i.k.toNat) initialized
  | some (.jmp _ _) => do
      let incoming ← mergeAt incoming (pc + 1 + i.jt.toNat) initialized
      mergeAt incoming (pc + 1 + i.jf.toNat) initialized
  | _ => mergeAt incoming (pc + 1) initialized

def scratchStep {ε : Type} (uninitialized : Nat → BitVec 32 → ε) (pc : Nat) (i : Instruction)
    (incoming : Incoming) : Outcome ε Incoming :=
  match incoming[pc]? with
  | none => .panic
  | some none => .ok incoming
  | some (some initialized) => do
      let initialized ← touchScratch uninitialized pc i initialized
      propagateInitialized pc i initialized incoming

/-- `incoming.resize(len, None); incoming[0] = Some(0)`. -/
def initialIncoming {ε : Type} (length : Nat) : Outcome ε Incoming :=
  if length = 0 then .panic else .ok ((List.replicate length none).set 0 (some 0))

/-- `alloc` tells whether a fallible reservation of that many slots
succeeds. -/
def verifyScratchInitialization (alloc : Nat → Bool) (instructions : List Instruction) :
    Outcome VerifyError Unit :=
  if alloc instructions.length = false then .err .noMemory
  else do
    let incoming ← initialIncoming instructions.length
    let _ ← forEnum (scratchStep VerifyError.scratchUninitialized) 0 instructions incoming
    .ok ()

def verifyProgram (alloc : Nat → Bool) (instructions : List Instruction) : Outcome VerifyError Unit := do
  verifyStructure instructions
  verifyScratchInitialization alloc instructions

structure Machine where
  accumulator : BitVec 32
  index : BitVec 32
  scratch : Fin scratchWords → BitVec 32
  pc : Nat

def Machine.initial : Machine := ⟨0, 0, fun _ => 0, 0⟩

/-- One turn of the interpreter loop either continues or returns. -/
inductive Step where
  | next (m : Machine)
  | ret (value : BitVec 32)

/-- `wrapping_shl` and `wrapping_shr` mask their count to five bits. -/
def wrappingShl (a n : BitVec 32) : BitVec 32 := a <<< (n.toNat % 32)

def wrappingShr (a n : BitVec 32) : BitVec 32 := a >>> (n.toNat % 32)

/-- The arithmetic of the ALU instructions; `none` is the panic of a Rust
division or remainder by zero. -/
def AluOp.apply (op : AluOp) (a b : BitVec 32) : Option (BitVec 32) :=
  match op with
  | .add => some (a + b)
  | .sub => some (a - b)
  | .mul => some (a * b)
  | .div => if b = 0 then none else some (a / b)
  | .or => some (a ||| b)
  | .and => some (a &&& b)
  | .lsh => some (wrappingShl a b)
  | .rsh => some (wrappingShr a b)
  | .mod => if b = 0 then none else some (a % b)
  | .xor => some (a ^^^ b)

def JumpOp.holds (op : JumpOp) (a b : BitVec 32) : Bool :=
  match op with
  | .jeq => a = b
  | .jgt => b < a
  | .jge => b ≤ a
  | .jset => a &&& b ≠ 0

namespace Machine

def advance (m : Machine) : Machine := { m with pc := m.pc + 1 }

def setA (m : Machine) (value : BitVec 32) : Machine := { m with accumulator := value }

def setX (m : Machine) (value : BitVec 32) : Machine := { m with index := value }

def operand (m : Machine) (i : Instruction) : Src → BitVec 32
  | .k => i.k
  | .x => m.index

/-- `scratch[k as usize]`, a panic out of bounds. -/
def readScratch (m : Machine) (k : BitVec 32) : Option (BitVec 32) :=
  if h : k.toNat < scratchWords then some (m.scratch ⟨k.toNat, h⟩) else none

def writeScratch (m : Machine) (k value : BitVec 32) : Option Machine :=
  if h : k.toNat < scratchWords then
    some { m with scratch := Function.update m.scratch ⟨k.toNat, h⟩ value }
  else none

/-- The load arms: a failed load returns zero from the program. -/
def loadA (m : Machine) (value : Option (BitVec 32)) : Step :=
  match value with
  | none => .ret 0
  | some value => .next (m.setA value).advance

def aluStep (m : Machine) (op : AluOp) (b : BitVec 32) : Option Step :=
  (op.apply m.accumulator b).map (fun value => .next (m.setA value).advance)

end Machine

def checkedAddU32 (a b : BitVec 32) : Option (BitVec 32) :=
  if 2 ^ 32 ≤ a.toNat + b.toNat then none else some (a + b)

/-- One turn of the loop of `evaluate_counted`; `none` is a panic. -/
def step (input : Input) (i : Instruction) (m : Machine) : Option Step :=
  match i.op with
  | none => none
  | some op => match op with
    | .ldImm => some (.next (m.setA i.k).advance)
    | .ldAbs width => some (m.loadA (input.load i.k width))
    | .ldInd width => some (m.loadA ((checkedAddU32 m.index i.k).bind (input.load · width)))
    | .ldMem => (m.readScratch i.k).map (fun v => .next (m.setA v).advance)
    | .ldLen => some (.next (m.setA input.len).advance)
    | .ldxImm => some (.next (m.setX i.k).advance)
    | .ldxMem => (m.readScratch i.k).map (fun v => .next (m.setX v).advance)
    | .ldxLen => some (.next (m.setX input.len).advance)
    | .ldxMsh => match input.load i.k .byte with
      | none => some (.ret 0)
      | some value => some (.next (m.setX ((value &&& 0x0f) <<< 2)).advance)
    | .st => (m.writeScratch i.k m.accumulator).map (fun m => .next m.advance)
    | .stx => (m.writeScratch i.k m.index).map (fun m => .next m.advance)
    | .alu .div .x => if m.index = 0 then some (.ret 0) else m.aluStep .div m.index
    | .alu .mod .x => if m.index = 0 then some (.ret 0) else m.aluStep .mod m.index
    | .alu .lsh .x => some (.next (m.setA (wrappingShl m.accumulator (m.index &&& 31))).advance)
    | .alu .rsh .x => some (.next (m.setA (wrappingShr m.accumulator (m.index &&& 31))).advance)
    | .alu aop src => m.aluStep aop (m.operand i src)
    | .aluNeg => some (.next (m.setA (-m.accumulator)).advance)
    | .jmpJa => some (.next { m with pc := m.pc + (1 + i.k.toNat) })
    | .jmp jop src =>
        let offset := if jop.holds m.accumulator (m.operand i src) then i.jt else i.jf
        some (.next { m with pc := m.pc + (1 + offset.toNat) })
    | .retK => some (.ret i.k)
    | .retA => some (.ret m.accumulator)
    | .miscTax => some (.next (m.setX m.accumulator).advance)
    | .miscTxa => some (.next (m.setA m.index).advance)

/-- `while steps < self.instructions.len()`, with `fuel` the turns left; the
`unreachable!` after the loop is the panic at zero. -/
def evaluateLoop (instructions : List Instruction) (input : Input) :
    Nat → Nat → Machine → Option (BitVec 32 × Nat)
  | 0, _, _ => none
  | fuel + 1, steps, m => do
      let i ← instructions[m.pc]?
      match ← step input i m with
      | .ret value => return (value, steps + 1)
      | .next m => evaluateLoop instructions input fuel (steps + 1) m

def evaluateCounted (instructions : List Instruction) (input : Input) : Option (BitVec 32 × Nat) :=
  evaluateLoop instructions input instructions.length 0 Machine.initial

def evaluate (instructions : List Instruction) (input : Input) : Option (BitVec 32) :=
  (evaluateCounted instructions input).map Prod.fst

end TheKernel.ClassicBpf
