import Mathlib.Data.Fintype.Basic
import TheKernel.Ebpf.Instruction
import TheKernel.Lib.Worklist

namespace TheKernel.Ebpf

open Outcome

/-- The verifier's view of a register: `Ptr` and `PtrOrNull` carry region,
offset, length and writability. -/
inductive Ty where
  | uninit
  | scalar
  | map (reference : MapRef)
  | ptr (region : MemoryRegion) (offset length : BitVec 32) (writable : Bool)
  | ptrOrNull (region : MemoryRegion) (offset length : BitVec 32) (writable : Bool)
  deriving DecidableEq

def Ty.isPointer : Ty → Bool
  | .ptr .. | .ptrOrNull .. => true
  | _ => false

abbrev Types := Register → Ty

def validAlu (x : Instruction) : Bool :=
  match x.aluOp with
  | none => false
  | some .neg => x.isX = false
  | some .endian => x.opClass = .alu ∧ x.src = 0 ∧ (x.imm = 16 ∨ x.imm = 32 ∨ x.imm = 64)
  | some _ => true

def validJump (h : Helpers) (x : Instruction) : Bool :=
  match x.jumpOp with
  | none => false
  | some .ja => match x.opClass with
    | .jmp => x.isX = false
    | .jmp32 => x.code = 6 ∧ x.off = 0
    | _ => false
  | some .call => x.opClass = .jmp ∧ x.code = 0x85 ∧ (h.signature x.imm).isSome
  | some .exit => x.opClass = .jmp ∧ x.code = 0x95
  | some _ => true

def validOpcode (h : Helpers) (x : Instruction) (d : Decoded) : Bool :=
  match x.opClass with
  | .ld => match d with
    | .wideImmediate _ | .map _ => true
    | _ => false
  | .ldx | .st => x.mode = 0 ∨ x.mode = modeMem
  | .stx =>
      (x.mode = 0 ∨ x.mode = modeMem ∨ x.mode = modeAtomic) ∧
        (x.mode = modeAtomic → (atomicEncoding x.imm).isSome)
  | .alu | .alu64 => validAlu x
  | .jmp | .jmp32 => validJump h x

def validateOpcode (h : Helpers) (x : Instruction) (d : Decoded) (i : Nat) : Outcome VerifyError Unit :=
  if validOpcode h x d then .ok () else .err (.badOpcode i)

/-- The displacement of a jump: `imm` in the long form, `off` otherwise. -/
def displacement (x : Instruction) : Int :=
  if x.opClass = .jmp32 ∧ x.jumpOp = some .ja then x.imm.toInt else x.off.toInt

def successors (x : Instruction) (d : Decoded) (i : Nat) : Outcome VerifyError (List Nat) :=
  if x.isExit then .ok []
  else if x.opClass = .jmp ∨ x.opClass = .jmp32 then
    if x.jumpOp = some .call then .ok [i + 1]
    else
      let t : Int := i + 1 + displacement x
      if t < 0 then .err (.badJump i)
      else if x.jumpOp = some .ja then .ok [t.toNat]
      else .ok [i + 1, t.toNat]
  else match d with
    | .wideImmediate _ | .map _ => .ok [i + 2]
    | _ => .ok [i + 1]

def linkInstruction (h : Helpers) (decoded : List Decoded) (i : Nat) (x : Instruction) :
    Outcome VerifyError (List Nat) :=
  match decoded[i]? with
  | none => .panic
  | some (.continuation _) => .ok []
  | some d => do
      validateOpcode h x d i
      let next ← successors x d i
      if next.all (fun s => decoded[s]?.any (fun d => d.isContinuation = false)) then .ok next
      else .err (.badJump i)

def linkProgram (h : Helpers) (instructions : List Instruction) (decoded : List Decoded) :
    Outcome VerifyError (List (List Nat)) :=
  forEnum (fun i x succ => do
    let next ← linkInstruction h decoded i x
    .ok (succ ++ [next])) 0 instructions []

def checkFinalExit (instructions : List Instruction) : Outcome VerifyError Unit :=
  if instructions.getLast?.any Instruction.isExit then .ok () else .err .missingExit

def visitSuccessor (allowLoops : Bool) (i n : Nat) (r : List Bool × List Nat) :
    Outcome VerifyError (List Bool × List Nat) :=
  if allowLoops = false ∧ n ≤ i then .err (.loop i)
  else match r.1[n]? with
    | none => .panic
    | some true => .ok r
    | some false => .ok (r.1.set n true, r.2 ++ [n])

def visit (allowLoops : Bool) (succ : List (List Nat)) (i : Nat) (seen : List Bool) :
    Outcome VerifyError (List Bool × List Nat) :=
  match succ[i]? with
  | none => .panic
  | some next => forEnum (fun _ n r => visitSuccessor allowLoops i n r) 0 next (seen, [])

def reachable (allowLoops : Bool) (succ : List (List Nat)) : Outcome VerifyError (List Bool) :=
  Worklist.drain (visit allowLoops succ) (succ.length + 1) [0] ((List.replicate succ.length false).set 0 true)

def checkReached (decoded : List Decoded) (seen : List Bool) (i : Nat) : Outcome VerifyError Unit :=
  match decoded[i]?, seen[i]? with
  | some d, some reached =>
      if d.isContinuation = false ∧ reached = false then .err (.unreachable i) else .ok ()
  | _, _ => .panic

def initialTypes (policy : VerifyPolicy) : Types := fun r =>
  if r = 1 then .ptr .context 0 policy.contextBytes policy.contextWritable
  else if r = framePointer then
    .ptr .stack (BitVec.ofNat 32 policy.stackBytes) (BitVec.ofNat 32 policy.stackBytes) true
  else .uninit

abbrev isNullCheck (x : Instruction) : Prop :=
  (x.opClass = .jmp ∨ x.opClass = .jmp32) ∧ x.isX = false ∧ x.imm = 0 ∧
    (x.jumpOp = some .jeq ∨ x.jumpOp = some .jne)

def refineNullCheck (x : Instruction) (dst : Register) (s : Types) (taken : Bool) : Types :=
  if isNullCheck x then
    match s dst with
    | .ptrOrNull region offset length writable =>
        if (x.jumpOp = some .jne ↔ taken) then Function.update s dst (.ptr region offset length writable)
        else Function.update s dst .scalar
    | _ => s
  else s

def join (a b : Types) : Types := fun r => if a r = b r then a r else .scalar

def joinEntry (old : Option Types) (s : Types) : Types :=
  match old with
  | none => s
  | some old => join old s

def checkAccess (base length : BitVec 32) (off : BitVec 16) (width i : Nat) : Outcome VerifyError Unit :=
  if (accessStart base length off width).isSome then .ok () else .err (.bounds i)

def transferAlu (x : Instruction) (dst src : Register) (s : Types) (i : Nat) : Outcome VerifyError Types :=
  if x.aluOp = some .mov then
    if x.opClass = .alu ∧ ((s dst).isPointer ∨ (x.isX ∧ (s src).isPointer)) then .err (.type i)
    else .ok (Function.update s dst (if x.isX then s src else .scalar))
  else if s dst = .uninit ∨ (x.isX ∧ s src = .uninit) then .err (.type i)
  else match s dst with
    | .ptr region offset length writable =>
        if x.addsImmediate then
          match checkedAddI32 offset x.imm with
          | none => .err (.bounds i)
          | some n =>
              if n.slt 0 ∨ length < n then .err (.bounds i)
              else .ok (Function.update s dst (.ptr region n length writable))
        else .ok (Function.update s dst .scalar)
    | _ => .ok (Function.update s dst .scalar)

/-- The declared context field that a load of `width` bytes at `offset` of a
region names. -/
def fieldAt (policy : VerifyPolicy) (region : MemoryRegion) (offset : Option (BitVec 32)) (width : Nat) :
    Option ContextPointerField :=
  (policy.contextPointerFields.filterMap id).find? (fun field =>
    region = .context ∧ width = field.width.toNat ∧ offset = some field.offset)

def transferLoad (policy : VerifyPolicy) (x : Instruction) (dst src : Register) (s : Types) (i : Nat) :
    Outcome VerifyError Types :=
  match s src with
  | .ptr region offset length _ => do
      checkAccess offset length x.off x.size i
      -- `u32::try_from` of the field offset fails on a negative one
      let fieldOffset := (checkedAddI32 offset (x.off.signExtend 32)).filter (fun o => o.slt 0 = false)
      .ok (Function.update s dst (match fieldAt policy region fieldOffset x.size with
        | none => .scalar
        | some field => .ptr field.region 0 field.maxLength field.writable))
  | _ => .err (.type i)

def transferStore (x : Instruction) (dst src : Register) (s : Types) (i : Nat) : Outcome VerifyError Types :=
  match s dst with
  | .ptr _ offset length writable =>
      if writable = false then .err (.type i)
      else if x.opClass = .stx ∧ s src = .uninit then .err (.type i)
      else do
        checkAccess offset length x.off x.size i
        if x.opClass = .stx ∧ x.mode = modeAtomic then
          if s src ≠ .scalar ∨
              ((atomicEncoding x.imm).any (fun e => e.1 = .compareExchange) ∧ s 0 ≠ .scalar) then .err (.type i)
          else if (atomicEncoding x.imm).any (fun e => e.2) then .ok (Function.update s 0 .scalar)
          else .ok s
        else .ok s
  | _ => .err (.type i)

def argumentMatches (kind : ArgKind) (ty : Ty) : Bool :=
  match kind, ty with
  | .scalar, .scalar => true
  | .map, .map _ => true
  | .pointer _ writable, .ptr _ _ _ w => writable = false ∨ w
  | _, _ => false

def helperArgument : Ty → HelperArgument
  | .uninit => .uninit
  | .scalar => .scalar
  | .map reference => .map reference
  | .ptr region _ length writable | .ptrOrNull region _ length writable => .pointer region length writable

/-- The argument registers `R1` to `R5`. -/
def argRegister (n : Fin 5) : Register := ⟨n + 1, by omega⟩

def returnTy : ReturnKind → Ty
  | .scalar => .scalar
  | .mapValueOrNull => .ptrOrNull .mapValue 0 0xffffffff true
  | .pointer region length writable => .ptr region 0 length writable
  | .nullablePointer region length writable => .ptrOrNull region 0 length writable

def afterCall {α : Type} (uninit result : α) (s : Register → α) : Register → α := fun r =>
  if r = 0 then result else if r.val ≤ 5 then uninit else s r

def transferCall (h : Helpers) (x : Instruction) (s : Types) (i : Nat) : Outcome VerifyError Types :=
  match h.signature x.imm with
  | none => .err (.unknownHelper i)
  | some sig =>
      if (List.finRange 5).all (fun n => (sig.args n).all (argumentMatches · (s (argRegister n)))) then
        match h.effects x.imm (fun n => helperArgument (s (argRegister n))) with
        | none => .err (.unknownHelper i)
        | some result => .ok (afterCall .uninit (returnTy result) s)
      else .err (.type i)

def transferJump (h : Helpers) (x : Instruction) (dst src : Register) (s : Types) (i : Nat) :
    Outcome VerifyError Types :=
  if x.jumpOp = some .call then transferCall h x s i
  else if x.jumpOp ≠ some .ja ∧ x.jumpOp ≠ some .exit ∧ (s dst = .uninit ∨ (x.isX ∧ s src = .uninit)) then
    .err (.type i)
  else .ok s

def transfer (h : Helpers) (policy : VerifyPolicy) (x : Instruction) (d : Decoded) (dst src : Register)
    (s : Types) (i : Nat) : Outcome VerifyError Types :=
  match x.opClass with
  | .ld =>
      if dst = framePointer then .err (.type i)
      else .ok (Function.update s dst (match d with
        | .map reference => .map reference
        | _ => .scalar))
  | .alu | .alu64 => if dst = framePointer then .err (.type i) else transferAlu x dst src s i
  | .ldx => if dst = framePointer then .err (.type i) else transferLoad policy x dst src s i
  | .st | .stx => transferStore x dst src s i
  | .jmp | .jmp32 => transferJump h x dst src s i

abbrev Table := List (Option Types)

structure Analysis where
  state : Table
  changes : Nat
  requiredContextBytes : Nat

def accessed (x : Instruction) (dst src : Register) (s : Types) : Option Ty :=
  match x.opClass with
  | .ldx => some (s src)
  | .st | .stx => some (s dst)
  | _ => none

/-- The producer watermark for an access through the context pointer. -/
def watermark (x : Instruction) (dst src : Register) (s : Types) (required i : Nat) : Outcome VerifyError Nat :=
  match accessed x dst src s with
  | some (.ptr .context offset _ _) =>
      match (checkedAddI32 offset (x.off.signExtend 32)).bind (checkedAddI32 · (BitVec.ofNat 32 x.size)) with
      | none => .err (.bounds i)
      | some stop => if stop.slt 0 then .err (.bounds i) else .ok (max required stop.toNat)
  | _ => .ok required

/-- `n == (i as i64 + 1 + insns[i].off as i64) as usize`. -/
def takenEdge (x : Instruction) (i n : Nat) : Bool := (n : Int) = i + 1 + x.off.toInt

/-- Merges what flows along the edge from `i` to `n` and queues `n` again if
that changed its entry. -/
def mergeSuccessor (policy : VerifyPolicy) (x : Instruction) (dst : Register) (out : Types) (i n : Nat)
    (r : Analysis × List Nat) : Outcome VerifyError (Analysis × List Nat) :=
  match r.1.state[n]? with
  | none => .panic
  | some old =>
      let joined := joinEntry old (refineNullCheck x dst out (takenEdge x i n))
      if old = some joined then .ok r
      else if policy.maxStates < r.1.changes + 1 then .err .stateLimit
      else .ok ({ r.1 with state := r.1.state.set n (some joined), changes := r.1.changes + 1 }, r.2 ++ [n])

def flowOut (policy : VerifyPolicy) (x : Instruction) (dst : Register) (out : Types) (i : Nat) (next : List Nat)
    (a : Analysis) : Outcome VerifyError (Analysis × List Nat) :=
  if x.isExit then .ok (a, []) else forEnum (fun _ n r => mergeSuccessor policy x dst out i n r) 0 next (a, [])

def analyseInstruction (h : Helpers) (policy : VerifyPolicy) (instructions : List Instruction)
    (decoded : List Decoded) (succ : List (List Nat)) (i : Nat) (a : Analysis) :
    Outcome VerifyError (Analysis × List Nat) :=
  match a.state[i]?, instructions[i]?, decoded[i]?, succ[i]? with
  | some (some s), some x, some d, some next =>
      match x.operands with
      | none => .panic
      | some (dst, src) => do
          let required ← watermark x dst src s a.requiredContextBytes i
          let out ← transfer h policy x d dst src s i
          flowOut policy x dst out i next { a with requiredContextBytes := required }
  | _, _, _, _ => .panic

def analyse (h : Helpers) (policy : VerifyPolicy) (instructions : List Instruction) (decoded : List Decoded)
    (succ : List (List Nat)) : Outcome VerifyError Analysis :=
  Worklist.drain (analyseInstruction h policy instructions decoded succ) (policy.maxStates + 2) [0]
    ⟨(List.replicate instructions.length none).set 0 (some (initialTypes policy)), 0, 0⟩

/-- `verify_parts`, which returns the watermark of the analysis. -/
def verifyParts (h : Helpers) (policy : VerifyPolicy) (instructions : List Instruction) (decoded : List Decoded) :
    Outcome VerifyError Analysis :=
  if instructions.isEmpty then .err .empty
  else if policy.maxInstructions < instructions.length then .err .tooLong
  else if policy.stackBytes = 0 then .err (.bounds 0)
  else do
    let succ ← linkProgram h instructions decoded
    checkFinalExit instructions
    let seen ← reachable policy.allowLoops succ
    forEnum (fun i _ _ => checkReached decoded seen i) 0 instructions ()
    analyse h policy instructions decoded succ

structure Program where
  instructions : List Instruction
  decoded : List Decoded
  policy : VerifyPolicy
  requiredContextBytes : Nat
  deriving DecidableEq

def Program.verify (instructions : List Instruction) (resolveFd : BitVec 32 → Option MapInfo) (h : Helpers)
    (policy : VerifyPolicy) : Outcome VerifyError Program := do
  let decoded ← decode resolveFd instructions
  let a ← verifyParts h policy instructions decoded
  .ok ⟨instructions, decoded, policy, a.requiredContextBytes⟩

end TheKernel.Ebpf
