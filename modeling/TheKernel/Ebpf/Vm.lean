import TheKernel.Ebpf.Verify

namespace TheKernel.Ebpf

open Outcome

inductive AtomicOperation where
  | add (value : BitVec 64)
  | or (value : BitVec 64)
  | and (value : BitVec 64)
  | xor (value : BitVec 64)
  | exchange (value : BitVec 64)
  | compareExchange (expected new : BitVec 64)

/-- The helper set and the execution context of a run with their joint state
`σ`; a helper also gets the stack of the machine. -/
structure Environment (σ : Type) where
  effects : σ → BitVec 32 → (Fin 5 → HelperArgument) → Option ReturnKind
  tailCall : σ → (Fin 5 → Value) → σ × Outcome RuntimeError (Option Program)
  call : σ → BitVec 32 → (Fin 5 → Value) → List (BitVec 8) → σ × List (BitVec 8) × Outcome RuntimeError Value
  contextPointer : σ → Capability → Nat → Nat → σ × Option Capability
  read : σ → Capability → Nat → Nat → σ × Option (List (BitVec 8))
  write : σ → Capability → Nat → List (BitVec 8) → σ × Bool
  atomic : σ → Capability → Nat → Nat → AtomicOperation → σ × Outcome RuntimeError (BitVec 64)

structure Vm (σ : Type) where
  program : Program
  env : σ
  regs : Register → Value
  stack : List (BitVec 8)
  pc : Nat
  tailDepth : Nat

inductive Turn (σ : Type) where
  | next (vm : Vm σ)
  | replaced (vm : Vm σ)
  | finished (value : BitVec 64)

def toLeBytes (n : Nat) (v : BitVec 64) : List (BitVec 8) :=
  (List.range n).map (fun i => (v >>> (8 * i)).setWidth 8)

def fromLeBytes (bytes : List (BitVec 8)) : BitVec 64 :=
  bytes.foldr (fun b acc => (acc <<< 8) ||| b.setWidth 64) 0

/-- `stack[o..o + w]`, a panic out of bounds. -/
def stackRead {ε : Type} (stack : List (BitVec 8)) (o w : Nat) : Outcome ε (List (BitVec 8)) :=
  if o + w ≤ stack.length then .ok ((stack.drop o).take w) else .panic

def stackWrite {ε : Type} (stack : List (BitVec 8)) (o : Nat) (bytes : List (BitVec 8)) :
    Outcome ε (List (BitVec 8)) :=
  if o + bytes.length ≤ stack.length then .ok (stack.take o ++ bytes ++ stack.drop (o + bytes.length)) else .panic

def helperArgumentFromValue : Value → HelperArgument
  | .uninit => .uninit
  | .scalar _ => .scalar
  | .map reference => .map reference
  | .pointer c => .pointer c.region c.length c.writable

def matchesPointer (region : MemoryRegion) (length : BitVec 32) (writable : Bool) : Value → Bool
  | .pointer c => c.region = region ∧ c.length ≤ length ∧ (writable = false ∨ c.writable)
  | _ => false

def matchesReturn (value : Value) : ReturnKind → Bool
  | .scalar => match value with
    | .scalar _ => true
    | _ => false
  | .mapValueOrNull => match value with
    | .scalar v => v = 0
    | .pointer c => c.region = .mapValue
    | _ => false
  | .pointer region length writable => matchesPointer region length writable value
  | .nullablePointer region length writable => value = .scalar 0 ∨ matchesPointer region length writable value

def aluResult (op : AluOp) (wide : Bool) (a b : BitVec 64) : Outcome RuntimeError (BitVec 64) :=
  let shift := (if wide then b &&& 63 else b &&& 31).toNat
  match op with
  | .add => .ok (a + b)
  | .sub => .ok (a - b)
  | .mul => .ok (a * b)
  | .div => .ok (if b = 0 then 0 else a / b)
  | .mod => .ok (if b = 0 then a else a % b)
  | .or => .ok (a ||| b)
  | .and => .ok (a &&& b)
  | .lsh => .ok (a <<< shift)
  | .rsh => .ok (a >>> shift)
  | .arsh => .ok (a.sshiftRight shift)
  | .xor => .ok (a ^^^ b)
  | .neg | .mov | .endian => .err .arithmetic

def endianResult (x : Instruction) (a : BitVec 64) : Outcome RuntimeError (BitVec 64) :=
  if x.imm = 16 ∨ x.imm = 32 ∨ x.imm = 64 then
    let bytes := toLeBytes (x.imm.toNat / 8) a
    .ok (fromLeBytes (if x.isX then bytes.reverse else bytes))
  else .err .arithmetic

def AtomicOperation.ofCode (code : AtomicOperationCode) (expected operand : BitVec 64) : AtomicOperation :=
  match code with
  | .add => .add operand
  | .or => .or operand
  | .and => .and operand
  | .xor => .xor operand
  | .exchange => .exchange operand
  | .compareExchange => .compareExchange expected operand

def AtomicOperation.apply (op : AtomicOperation) (old : BitVec 64) : BitVec 64 :=
  match op with
  | .add v => old + v
  | .or v => old ||| v
  | .and v => old &&& v
  | .xor v => old ^^^ v
  | .exchange v => v
  | .compareExchange expected new => if old = expected then new else old

/-- `if width == 4 { old as u32 as u64 } else { old }`. -/
def fetched (width : Nat) (old : BitVec 64) : BitVec 64 := if width = 4 then (old.setWidth 32).setWidth 64 else old

def compare {w : Nat} (op : JumpOp) (a b : BitVec w) : Outcome RuntimeError Bool :=
  match op with
  | .jgt => .ok (b < a)
  | .jge => .ok (b ≤ a)
  | .jlt => .ok (a < b)
  | .jle => .ok (a ≤ b)
  | .jset => .ok (a &&& b ≠ 0)
  | .jsgt => .ok (b.slt a)
  | .jsge => .ok (b.sle a)
  | .jslt => .ok (a.slt b)
  | .jsle => .ok (a.sle b)
  | .ja | .jeq | .jne | .call | .exit => .err .arithmetic

def equalValues (a b : Value) : Outcome RuntimeError Bool :=
  match a, b with
  | .scalar a, .scalar b => .ok (a = b)
  | .pointer _, .scalar b => if b = 0 then .ok false else .err .type
  | .scalar a, .pointer _ => if a = 0 then .ok false else .err .type
  | .pointer a, .pointer b => if a.region = b.region ∧ a.token = b.token then .ok (a.offset = b.offset) else .err .type
  | _, _ => .err .type

/-- The pair of numbers an ordered jump compares: two scalars, or the offsets
of two pointers into one object. -/
def orderedValues (a b : Value) : Outcome RuntimeError (BitVec 64 × BitVec 64) :=
  match a, b with
  | .scalar a, .scalar b => .ok (a, b)
  | .pointer a, .pointer b =>
      if a.region = b.region ∧ a.token = b.token then .ok (a.offset.signExtend 64, b.offset.signExtend 64)
      else .err .type
  | _, _ => .err .type

def initialRegs (policy : VerifyPolicy) : Register → Value := fun r =>
  if r = 1 then .pointer ⟨.context, 0, 0, policy.contextBytes, policy.contextWritable⟩
  else if r = framePointer then
    .pointer ⟨.stack, 0, BitVec.ofNat 32 policy.stackBytes, BitVec.ofNat 32 policy.stackBytes, true⟩
  else .uninit

namespace Vm

variable {σ : Type}

def new (program : Program) (env : σ) : Vm σ :=
  ⟨program, env, initialRegs program.policy, List.replicate program.policy.stackBytes 0, 0, 0⟩

def scalar (vm : Vm σ) (r : Register) : Outcome RuntimeError (BitVec 64) :=
  match vm.regs r with
  | .scalar v => .ok v
  | _ => .err .type

def setReg (vm : Vm σ) (r : Register) (v : Value) : Vm σ := { vm with regs := Function.update vm.regs r v }

def advance (vm : Vm σ) (slots : Nat) : Vm σ := { vm with pc := vm.pc + slots }

/-- Writes an arithmetic result, cut to 32 bits in the `ALU` class. -/
def setResult (vm : Vm σ) (x : Instruction) (d : Register) (r : BitVec 64) : Vm σ :=
  (vm.setReg d (.scalar (if x.opClass = .alu then (r.setWidth 32).setWidth 64 else r))).advance 1

def aluOperand (vm : Vm σ) (x : Instruction) (src : Register) : Outcome RuntimeError (BitVec 64) :=
  if x.isX then vm.scalar src
  else .ok (if x.opClass = .alu64 then x.imm.signExtend 64 else x.imm.setWidth 64)

def aluScalar (vm : Vm σ) (x : Instruction) (d src : Register) : Outcome RuntimeError (Vm σ) := do
  let b ← vm.aluOperand x src
  match x.aluOp with
  | some .mov => .ok (vm.setResult x d b)
  | some .neg => do
      let a ← vm.scalar d
      .ok (vm.setResult x d (0 - a))
  | some op => do
      let a ← vm.scalar d
      let r ← aluResult op (x.opClass = .alu64) a b
      .ok (vm.setResult x d r)
  | none => do
      let _ ← vm.scalar d
      .err .arithmetic

def addPointer (vm : Vm σ) (x : Instruction) (d : Register) (c : Capability) : Outcome RuntimeError (Vm σ) :=
  match checkedAddI32 c.offset x.imm with
  | none => .err .bounds
  | some n =>
      if n.slt 0 ∨ c.length < n then .err .bounds
      else .ok ((vm.setReg d (.pointer { c with offset := n })).advance 1)

def alu (vm : Vm σ) (x : Instruction) (d src : Register) : Outcome RuntimeError (Vm σ) :=
  if d = framePointer then .err .type
  else if x.aluOp = some .endian then do
    let a ← vm.scalar d
    let r ← endianResult x a
    .ok ((vm.setReg d (.scalar r)).advance 1)
  else if x.aluOp = some .mov ∧ x.isX then
    match vm.regs src with
    | .pointer c => if x.opClass = .alu then .err .type else .ok ((vm.setReg d (.pointer c)).advance 1)
    | v => .ok ((vm.setReg d v).advance 1)
  else if x.addsImmediate then
    match vm.regs d with
    | .pointer c => vm.addPointer x d c
    | _ => vm.aluScalar x d src
  else vm.aluScalar x d src

/-- `cap`: the capability in a register and the first byte accessed. -/
def cap (vm : Vm σ) (n : Register) (off : BitVec 16) (width : Nat) (write : Bool) :
    Outcome RuntimeError (Capability × Nat) :=
  match vm.regs n with
  | .pointer c =>
      if write ∧ c.writable = false then .err .type
      else match accessStart c.offset c.length off width with
        | none => .err .bounds
        | some start => .ok (c, start.toNat)
  | _ => .err .type

def load (env : Environment σ) (vm : Vm σ) (x : Instruction) (src : Register) :
    Outcome RuntimeError (Vm σ × Value) := do
  let (c, o) ← vm.cap src x.off x.size false
  match env.contextPointer vm.env c o x.size with
  | (e, some pointer) => .ok ({ vm with env := e }, .pointer pointer)
  | (e, none) =>
      if c.region = .stack then do
        let bytes ← stackRead vm.stack o x.size
        .ok ({ vm with env := e }, .scalar (fromLeBytes bytes))
      else match env.read e c o x.size with
        | (e, some bytes) => .ok ({ vm with env := e }, .scalar (fromLeBytes (bytes.take x.size)))
        | (_, none) => .err .memory

def store (env : Environment σ) (vm : Vm σ) (x : Instruction) (dst : Register) (v : BitVec 64) :
    Outcome RuntimeError (Vm σ) := do
  let (c, o) ← vm.cap dst x.off x.size true
  if c.region = .stack then do
    let stack ← stackWrite vm.stack o (toLeBytes x.size v)
    .ok { vm with stack := stack }
  else match env.write vm.env c o (toLeBytes x.size v) with
    | (e, true) => .ok { vm with env := e }
    | (_, false) => .err .memory

/-- The read-modify-write of `atomic` with the value it replaced. -/
def exchange (env : Environment σ) (vm : Vm σ) (c : Capability) (o width : Nat) (op : AtomicOperation) :
    Outcome RuntimeError (Vm σ × BitVec 64) :=
  if c.region = .stack then do
    let bytes ← stackRead vm.stack o width
    let old := fromLeBytes bytes
    let new := op.apply old &&& (if width = 4 then 0xffffffff else BitVec.allOnes 64)
    let stack ← stackWrite vm.stack o (toLeBytes width new)
    .ok ({ vm with stack := stack }, old)
  else do
    let old ← (env.atomic vm.env c o width op).2
    .ok ({ vm with env := (env.atomic vm.env c o width op).1 }, old)

def expected (vm : Vm σ) (code : AtomicOperationCode) : Outcome RuntimeError (BitVec 64) :=
  if code = .compareExchange then vm.scalar 0 else .ok 0

def writeBack (vm : Vm σ) (code : AtomicOperationCode) (fetch : Bool) (src : Register) (old : BitVec 64) : Vm σ :=
  let vm := if fetch then vm.setReg src (.scalar old) else vm
  if code = .compareExchange then vm.setReg 0 (.scalar old) else vm

def atomic (env : Environment σ) (vm : Vm σ) (x : Instruction) (dst src : Register) :
    Outcome RuntimeError (Vm σ) := do
  let operand ← vm.scalar src
  match atomicEncoding x.imm with
  | none => .err .arithmetic
  | some (code, fetch) => do
      let expected ← vm.expected code
      let (c, o) ← vm.cap dst x.off x.size true
      let (vm, old) ← vm.exchange env c o x.size (.ofCode code expected operand)
      .ok ((vm.writeBack code fetch src (fetched x.size old)).advance 1)

def condition (vm : Vm σ) (x : Instruction) (dst src : Register) : Outcome RuntimeError Bool :=
  let a := vm.regs dst
  let b :=
    if x.isX then vm.regs src
    else .scalar (if x.opClass = .jmp then x.imm.signExtend 64 else x.imm.setWidth 64)
  match x.jumpOp with
  | some .jeq => equalValues a b
  | some .jne => do
      let equal ← equalValues a b
      .ok !equal
  | some op => do
      let (a, b) ← orderedValues a b
      if x.opClass = .jmp32 then compare op (a.setWidth 32) (b.setWidth 32) else compare op a b
  | none => do
      let _ ← orderedValues a b
      .err .arithmetic

def arguments (vm : Vm σ) : Fin 5 → Value := fun n => vm.regs (argRegister n)

def maxTailCalls : Nat := 32

def callHelper (env : Environment σ) (vm : Vm σ) (x : Instruction) (declared : ReturnKind) (e : σ) :
    Outcome RuntimeError (Turn σ) :=
  match env.call e x.imm vm.arguments vm.stack with
  | (e, stack, result) => do
      let v ← result
      if matchesReturn v declared then
        .ok (.next ({ vm with env := e, stack := stack, regs := afterCall .uninit v vm.regs }.advance 1))
      else .err .type

def replace (vm : Vm σ) (target : Program) (e : σ) : Vm σ :=
  { new target e with tailDepth := vm.tailDepth + 1 }

def call (env : Environment σ) (vm : Vm σ) (x : Instruction) : Outcome RuntimeError (Turn σ) :=
  match env.effects vm.env x.imm (fun n => helperArgumentFromValue (vm.arguments n)) with
  | none => .err .helper
  | some declared =>
      match env.tailCall vm.env vm.arguments with
      | (e, result) => do
          match ← result with
          | some target =>
              if vm.tailDepth < maxTailCalls then .ok (.replaced (vm.replace target e))
              else vm.callHelper env x declared e
          | none => vm.callHelper env x declared e

/-- `((self.pc as i64) + 1 + displacement) as usize`, where a negative sum
wraps. -/
def jumpTarget (vm : Vm σ) (x : Instruction) : Nat :=
  let t : Int := vm.pc + 1 + displacement x
  if t < 0 then (t % 2 ^ 64).toNat else t.toNat

def jumpTaken (vm : Vm σ) (x : Instruction) (dst src : Register) : Outcome RuntimeError Bool :=
  if x.jumpOp = some .ja then .ok true else vm.condition x dst src

def jump (env : Environment σ) (vm : Vm σ) (x : Instruction) (dst src : Register) :
    Outcome RuntimeError (Turn σ) :=
  if x.jumpOp = some .exit then do
    let v ← vm.scalar 0
    .ok (.finished v)
  else if x.jumpOp = some .call then vm.call env x
  else do
    let taken ← vm.jumpTaken x dst src
    .ok (.next { vm with pc := if taken then vm.jumpTarget x else vm.pc + 1 })

def loadImmediate (vm : Vm σ) (dst : Register) : Outcome RuntimeError (Vm σ) :=
  if dst = framePointer then .err .type
  else match vm.program.decoded[vm.pc]? with
    | none => .panic
    | some (.wideImmediate v) => .ok ((vm.setReg dst (.scalar v)).advance 2)
    | some (.map m) => .ok ((vm.setReg dst (.map m)).advance 2)
    | some _ => .err .type

def memoryLoad (env : Environment σ) (vm : Vm σ) (x : Instruction) (dst src : Register) :
    Outcome RuntimeError (Vm σ) :=
  if dst = framePointer then .err .type
  else do
    let (vm, v) ← vm.load env x src
    .ok ((vm.setReg dst v).advance 1)

def storeOperand (vm : Vm σ) (x : Instruction) (src : Register) : Outcome RuntimeError (BitVec 64) :=
  if x.opClass = .st then .ok (x.imm.setWidth 64) else vm.scalar src

def memoryStore (env : Environment σ) (vm : Vm σ) (x : Instruction) (dst src : Register) :
    Outcome RuntimeError (Vm σ) :=
  if x.opClass = .stx ∧ x.mode = modeAtomic then vm.atomic env x dst src
  else do
    let v ← vm.storeOperand x src
    let vm ← vm.store env x dst v
    .ok (vm.advance 1)

def execute (env : Environment σ) (vm : Vm σ) (x : Instruction) (dst src : Register) :
    Outcome RuntimeError (Turn σ) :=
  match x.opClass with
  | .ld => vm.loadImmediate dst >>= fun vm => .ok (.next vm)
  | .alu | .alu64 => vm.alu x dst src >>= fun vm => .ok (.next vm)
  | .ldx => vm.memoryLoad env x dst src >>= fun vm => .ok (.next vm)
  | .st | .stx => vm.memoryStore env x dst src >>= fun vm => .ok (.next vm)
  | .jmp | .jmp32 => vm.jump env x dst src

def step (env : Environment σ) (vm : Vm σ) : Outcome RuntimeError (Turn σ) :=
  match vm.program.instructions[vm.pc]? with
  | none => .err .invalidProgramCounter
  | some x => match x.operands with
    | none => .panic
    | some (dst, src) => vm.execute env x dst src

/-- `run` with the number of instructions executed; the first argument is
`limit - steps`. -/
def runCounted (env : Environment σ) : Nat → Vm σ → Outcome RuntimeError (BitVec 64) × Nat
  | 0, _ => (.err .stepLimit, 0)
  | left + 1, vm =>
      match vm.step env with
      | .ok (.next vm) | .ok (.replaced vm) => (runCounted env left vm).map id (· + 1)
      | .ok (.finished v) => (.ok v, 1)
      | .err e => (.err e, 1)
      | .panic => (.panic, 1)

def run (env : Environment σ) (limit : Nat) (vm : Vm σ) : Outcome RuntimeError (BitVec 64) :=
  (vm.runCounted env limit).1

end Vm

def Program.execute {σ : Type} (program : Program) (env : Environment σ) (e : σ) (limit : Nat) :
    Outcome RuntimeError (BitVec 64) := (Vm.new program e).run env limit

def bareEnvironment : Environment Unit where
  effects _ _ _ := none
  tailCall e _ := (e, .ok none)
  call e _ _ stack := (e, stack, .err .helper)
  contextPointer e _ _ _ := (e, none)
  read e _ _ _ := (e, none)
  write e _ _ _ := (e, false)
  atomic e _ _ _ _ := (e, .err .memory)

def noHelpers : Helpers := ⟨fun _ => none, fun _ _ => none⟩

end TheKernel.Ebpf
