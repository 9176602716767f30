import Mathlib.Data.List.Infix
import TheKernel.ClassicBpf.Program
import TheKernel.Lib.Lineage
import TheKernel.Lib.Machine

namespace TheKernel.Seccomp

open ClassicBpf Outcome

def seccompRetActionFull : BitVec 32 := 0xffff0000
def seccompRetKillProcess : BitVec 32 := 0x80000000
def seccompRetAllow : BitVec 32 := 0x7fff0000
def bpfMaxinsns : Nat := 4096
def maxInsnsPerPath : Nat := 32768
def filterPathPenalty : Nat := 4
def seccompDataSize : Nat := 64

structure Action where
  raw : BitVec 32
  deriving DecidableEq

def Action.actionBits (a : Action) : BitVec 32 := a.raw &&& seccompRetActionFull

def Action.precedence (a : Action) : Int := a.actionBits.toInt

structure SeccompData where
  number : BitVec 32
  architecture : BitVec 32
  instructionPointer : BitVec 64
  arguments : Fin 6 → BitVec 64

def toNeBytes (n : Nat) {w : Nat} (x : BitVec w) : List (BitVec 8) :=
  (List.range n).map (fun i => (x >>> (8 * i)).setWidth 8)

def SeccompData.nativeBytes (d : SeccompData) : List (BitVec 8) :=
  toNeBytes 4 d.number ++ toNeBytes 4 d.architecture ++ toNeBytes 8 d.instructionPointer ++
    (List.finRange 6).flatMap (fun i => toNeBytes 8 (d.arguments i))

inductive ProgramError where
  | empty
  | tooLong
  | noMemory
  | invalidOpcode (programCounter : Nat) (code : BitVec 16)
  | dataOffsetUnaligned (programCounter : Nat)
  | dataOffsetOutOfRange (programCounter : Nat)
  deriving DecidableEq

def allowedSeccompOpcode (code : BitVec 16) : Bool :=
  match Opcode.ofCode code with
  | none => false
  | some op => match op with
    | .ldAbs .half | .ldAbs .byte | .ldInd _ | .ldxMsh | .alu .mod _ => false
    | _ => true

def verifySeccompInstruction (programCounter : Nat) (i : Instruction) : Outcome ProgramError Unit :=
  if allowedSeccompOpcode i.code = false then .err (.invalidOpcode programCounter i.code)
  else if i.code = (Opcode.ldAbs .word).code then
    if i.k &&& 3 ≠ 0 then .err (.dataOffsetUnaligned programCounter)
    else if seccompDataSize ≤ i.k.toNat then .err (.dataOffsetOutOfRange programCounter)
    else .ok ()
  else .ok ()

def verifySeccompProfile (instructions : List Instruction) : Outcome ProgramError Unit :=
  if instructions.isEmpty then .err .empty
  else if bpfMaxinsns < instructions.length then .err .tooLong
  else forEnum (fun pc i _ => verifySeccompInstruction pc i) 0 instructions ()

def convertedConditionalJumpCharge (i : Instruction) : Nat :=
  if i.jf = 0 ∨ (i.jt = 0 ∧ i.code ≠ (Opcode.jmp .jset .k).code ∧ i.code ≠ (Opcode.jmp .jset .x).code) then 1
  else 2

def instructionCharge (i : Instruction) : Nat :=
  match Opcode.ofCode i.code with
  | some (.alu .div .x) => 5
  | some .retK => 2
  | some (.jmp _ .k) => (if i.k.toInt < 0 then 1 else 0) + convertedConditionalJumpCharge i
  | some (.jmp _ .x) => convertedConditionalJumpCharge i
  | _ => 1

/-- `linux_v6_12_unblinded_migration_charge`: the three-instruction prologue and every instruction. -/
def migrationCharge (instructions : List Instruction) : Nat := 3 + (instructions.map instructionCharge).sum

/-- `VerifiedProgram`, whose instructions passed the Linux profile. -/
structure VerifiedProgram where
  instructions : List Instruction
  verified : verifySeccompProfile instructions = .ok ()

def VerifiedProgram.pathCharge (p : VerifiedProgram) : Nat := migrationCharge p.instructions

structure FilterMetadata where
  log : Bool
  speculativeExecutionAllowed : Bool
  listenerId : BitVec 64

structure FilterDecision where
  action : Action
  matchedFilter : Option FilterMetadata

/-- A shared byte budget; `identity` is its allocation. -/
structure FilterBudget where
  identity : Nat
  limitBytes : Nat

/-- The successful exchange of `try_reserve`, from the bytes then in use. -/
def FilterBudget.tryReserve (budget : FilterBudget) (used bytes : Nat) : Option Nat :=
  (checkedAdd used bytes).bind (fun next => if budget.limitBytes < next then none else some next)

abbrev SeccompExecutor := List (BitVec 8) → BitVec 32

/-- One immutable node; `identity` is its allocation, what `Arc::ptr_eq`
compares. -/
structure FilterNode where
  identity : Nat
  executor : Option SeccompExecutor
  metadata : FilterMetadata
  pathCost : Nat
  filterCount : Nat
  budget : FilterBudget

/-- A chain from its leaf on; the tail of a nonempty chain is `previous`. -/
abbrev FilterChain := List FilterNode

inductive FilterInstallError where
  | noMemory
  | pathTooLong
  | budgetExceeded
  | budgetMismatch

namespace FilterChain

def filterCount (c : FilterChain) : Nat := (c.head?.map FilterNode.filterCount).getD 0

def pathCost (c : FilterChain) : Nat := (c.head?.map FilterNode.pathCost).getD 0

def sameIdentity : FilterChain → FilterChain → Bool
  | [], [] => true
  | left :: _, right :: _ => left.identity = right.identity
  | _, _ => false

def onPath (ancestor : FilterNode) : FilterChain → Bool
  | [] => false
  | node :: previous => if ancestor.identity = node.identity then true else onPath ancestor previous

def isAncestorOf (c descendant : FilterChain) : Bool :=
  match c with
  | [] => true
  | ancestor :: _ => onPath ancestor descendant

def directlyExtends (c previous : FilterChain) : Bool :=
  match c with
  | [] => false
  | _ :: below => sameIdentity below previous

/-- What an append finds around it: the bytes in use in the budget, the size of
a node, whether the allocation succeeds and the address it returns. -/
structure AppendSite where
  used : Nat
  nodeSize : Nat
  allocated : Bool
  fresh : Nat

def appendCost (c : FilterChain) (program : VerifiedProgram) : Option Nat :=
  if c.isEmpty then some program.pathCharge
  else (checkedAdd program.pathCharge c.pathCost).bind (checkedAdd · filterPathPenalty)

/-- `program.len() * size_of::<ClassicBpfInstruction>() + size_of::<FilterNode>()`. -/
def chargeBytes (program : VerifiedProgram) (nodeSize : Nat) : Option Nat :=
  if usizeMax < program.instructions.length * 8 then none
  else checkedAdd (program.instructions.length * 8) nodeSize

def tryAppendWithExecutor (c : FilterChain) (program : VerifiedProgram) (metadata : FilterMetadata)
    (budget : FilterBudget) (executor : Option SeccompExecutor) (site : AppendSite) :
    Except FilterInstallError FilterChain :=
  match appendCost c program with
  | none => .error .pathTooLong
  | some cost =>
      if maxInsnsPerPath < cost then .error .pathTooLong
      else match checkedAdd c.filterCount 1 with
        | none => .error .pathTooLong
        | some count =>
            if c.head?.any (fun leaf => leaf.budget.identity ≠ budget.identity) then .error .budgetMismatch
            else match (chargeBytes program site.nodeSize).bind (budget.tryReserve site.used) with
              | none => .error .budgetExceeded
              | some _ =>
                  if site.allocated then .ok (⟨site.fresh, executor, metadata, cost, count, budget⟩ :: c)
                  else .error .noMemory

/-- What one node returns; without an executor it fails closed. -/
def nodeAction (data : SeccompData) (node : FilterNode) : Action :=
  match node.executor with
  | some execute => ⟨execute data.nativeBytes⟩
  | none => ⟨seccompRetKillProcess⟩

def evaluateLoop (data : SeccompData) : FilterChain → FilterDecision → FilterDecision
  | [], selected => selected
  | node :: previous, selected =>
      let current := nodeAction data node
      if current.precedence < selected.action.precedence then
        evaluateLoop data previous ⟨current, some node.metadata⟩
      else evaluateLoop data previous selected

def evaluate (c : FilterChain) (data : SeccompData) : FilterDecision :=
  evaluateLoop data c ⟨⟨seccompRetAllow⟩, none⟩

end FilterChain

theorem denyProgram_verified : verifySeccompProfile [.statement .retK 0x00050001] = .ok () := by decide

def denyProgram : VerifiedProgram := ⟨[.statement .retK 0x00050001], denyProgram_verified⟩

end TheKernel.Seccomp
