import TheKernel.ClassicBpf.Safety

namespace TheKernel.ClassicBpf

open Outcome

inductive InputProfile where
  | bigEndianBytes | nativeAlignedWords
  deriving DecidableEq

inductive ImageValidationError where
  | noMemory
  | empty
  | tooLong (length : Nat)
  | unsupportedOpcode (pc : Nat) (code : BitVec 16)
  | immediateDivisionByZero (pc : Nat)
  | immediateShiftOutOfRange (pc : Nat) (shift : BitVec 32)
  | scratchOutOfRange (pc : Nat) (index : BitVec 32)
  | scratchUninitialized (pc : Nat) (index : BitVec 32)
  | jumpOutOfRange (pc : Nat)
  | missingFinalReturn
  | profileUnsupported (pc : Nat) (code : BitVec 16)

-- The emitter's own acceptance check and reference evaluator, from
-- `translate.rs`.

namespace Translate

def isSupported (code : BitVec 16) : Bool := (Opcode.ofCode code).isSome

/-- The body of the first loop of `validate_source`. -/
def validateInstruction (length pc : Nat) (i : Instruction) : Outcome VerifyError Unit :=
  if !isSupported i.code then .err (.unsupportedOpcode pc i.code)
  else match i.op with
    | some (.alu .div .k) | some (.alu .mod .k) =>
        if i.k = 0 then .err (.immediateDivisionByZero pc) else .ok ()
    | some (.alu .lsh .k) | some (.alu .rsh .k) =>
        if 32 ≤ i.k.toNat then .err (.immediateShiftOutOfRange pc i.k) else .ok ()
    | some .ldMem | some .ldxMem | some .st | some .stx =>
        if scratchWords ≤ i.k.toNat then .err (.scratchOutOfRange pc i.k) else .ok ()
    | some .jmpJa =>
        if (((checkedAdd pc 1).bind (checkedAdd · i.k.toNat)).filter (· < length)).isNone then
          .err (.jumpOutOfRange pc)
        else .ok ()
    | some (.jmp _ _) =>
        if length ≤ pc + 1 + i.jt.toNat ∨ length ≤ pc + 1 + i.jf.toNat then .err (.jumpOutOfRange pc)
        else .ok ()
    | _ => .ok ()

def validateSource (alloc : Nat → Bool) (instructions : List Instruction) : Outcome VerifyError Unit :=
  if instructions.isEmpty then .err .empty
  else if maxInstructions < instructions.length then .err (.tooLong instructions.length)
  else do
    forEnum (fun pc i _ => validateInstruction instructions.length pc i) 0 instructions ()
    if !endsInReturn instructions then .err .missingFinalReturn
    else if alloc instructions.length = false then .err .noMemory
    else do
      let incoming ← initialIncoming instructions.length
      let _ ← forEnum (scratchStep VerifyError.scratchUninitialized) 0 instructions incoming
      .ok ()

/-- One turn of `evaluate_source`. Unlike `evaluate_counted` it returns zero
on an opcode it does not know. -/
def step (input : Input) (i : Instruction) (m : Machine) : Option Step :=
  match i.op with
  | some .ldImm => some (.next (m.setA i.k).advance)
  | some (.ldAbs w) => match input.load i.k w with
    | none => some (.ret 0)
    | some v => some (.next (m.setA v).advance)
  | some (.ldInd w) => match checkedAddU32 m.index i.k with
    | none => some (.ret 0)
    | some offset => match input.load offset w with
      | none => some (.ret 0)
      | some v => some (.next (m.setA v).advance)
  | some .ldMem => (m.readScratch i.k).map (fun v => .next (m.setA v).advance)
  | some .ldLen => some (.next (m.setA input.len).advance)
  | some .ldxImm => some (.next (m.setX i.k).advance)
  | some .ldxMem => (m.readScratch i.k).map (fun v => .next (m.setX v).advance)
  | some .ldxLen => some (.next (m.setX input.len).advance)
  | some .ldxMsh => match input.load i.k .byte with
    | none => some (.ret 0)
    | some v => some (.next (m.setX ((v &&& 0xf) <<< 2)).advance)
  | some .st => (m.writeScratch i.k m.accumulator).map (fun m => .next m.advance)
  | some .stx => (m.writeScratch i.k m.index).map (fun m => .next m.advance)
  | some (.alu .div .x) => if m.index = 0 then some (.ret 0) else m.aluStep .div m.index
  | some (.alu .mod .x) => if m.index = 0 then some (.ret 0) else m.aluStep .mod m.index
  | some (.alu .lsh .x) => some (.next (m.setA (wrappingShl m.accumulator (m.index &&& 31))).advance)
  | some (.alu .rsh .x) => some (.next (m.setA (wrappingShr m.accumulator (m.index &&& 31))).advance)
  | some (.alu op .k) => m.aluStep op i.k
  | some (.alu op .x) => m.aluStep op m.index
  | some .aluNeg => some (.next (m.setA (-m.accumulator)).advance)
  | some .jmpJa => some (.next { m with pc := m.pc + (1 + i.k.toNat) })
  | some (.jmp op src) =>
      let o := match src with
        | .x => m.index
        | .k => i.k
      some (.next { m with pc := m.pc + (1 + (if op.holds m.accumulator o then i.jt else i.jf).toNat) })
  | some .retK => some (.ret i.k)
  | some .retA => some (.ret m.accumulator)
  | some .miscTax => some (.next (m.setX m.accumulator).advance)
  | some .miscTxa => some (.next (m.setA m.index).advance)
  | none => some (.ret 0)

def evaluateSourceLoop (instructions : List Instruction) (input : Input) : Nat → Machine → Option (BitVec 32)
  | 0, _ => some 0
  | fuel + 1, m => do
      let i ← instructions[m.pc]?
      match ← step input i m with
      | .ret value => return value
      | .next m => evaluateSourceLoop instructions input fuel m

def evaluateSource (instructions : List Instruction) (input : Input) : Option (BitVec 32) :=
  evaluateSourceLoop instructions input instructions.length Machine.initial

end Translate

-- The checker's closed copy of the acceptance boundary, from
-- `translation_validate.rs`.

namespace Validate

def sourceOpcodeSupported (code : BitVec 16) : Bool := (Opcode.ofCode code).isSome

def sourceTarget (pc offset length : Nat) : Option Nat :=
  ((checkedAdd pc 1).bind (checkedAdd · offset)).filter (· < length)

def validateSourceInstructionContract (pc : Nat) (i : Instruction) : Outcome ImageValidationError Unit :=
  if !sourceOpcodeSupported i.code then .err (.unsupportedOpcode pc i.code)
  else match i.op with
    | some (.alu .div .k) | some (.alu .mod .k) =>
        if i.k = 0 then .err (.immediateDivisionByZero pc) else .ok ()
    | some (.alu .lsh .k) | some (.alu .rsh .k) =>
        if 32 ≤ i.k.toNat then .err (.immediateShiftOutOfRange pc i.k) else .ok ()
    | some .ldMem | some .ldxMem | some .st | some .stx =>
        if scratchWords ≤ i.k.toNat then .err (.scratchOutOfRange pc i.k) else .ok ()
    | _ => .ok ()

def validateProfileContract (pc : Nat) (i : Instruction) (profile : InputProfile) :
    Outcome ImageValidationError Unit :=
  match profile with
  | .bigEndianBytes => .ok ()
  | .nativeAlignedWords => match i.op with
    | some (.ldAbs .word) => if i.k &&& 3 ≠ 0 then .err (.profileUnsupported pc i.code) else .ok ()
    | some (.ldAbs .half) | some (.ldAbs .byte) | some (.ldInd .half) | some (.ldInd .byte) | some .ldxMsh =>
        .err (.profileUnsupported pc i.code)
    | _ => .ok ()

/-- The jump arms of `validate_source_contract`. -/
def validateJumpContract (length pc : Nat) (i : Instruction) : Outcome ImageValidationError Unit :=
  match i.op with
  | some .jmpJa =>
      if (sourceTarget pc i.k.toNat length).isNone then .err (.jumpOutOfRange pc) else .ok ()
  | some (.jmp _ _) =>
      if (sourceTarget pc i.jt.toNat length).isNone ∨ (sourceTarget pc i.jf.toNat length).isNone then
        .err (.jumpOutOfRange pc)
      else .ok ()
  | _ => .ok ()

def propagateInitialized (length pc : Nat) (i : Instruction) (initialized : BitVec 16) (incoming : Incoming) :
    Outcome ImageValidationError Incoming :=
  match i.op with
  | some .retK | some .retA => .ok incoming
  | some .jmpJa => match sourceTarget pc i.k.toNat length with
    | none => .err (.jumpOutOfRange pc)
    | some target => mergeAt incoming target initialized
  | some (.jmp _ _) => match sourceTarget pc i.jt.toNat length, sourceTarget pc i.jf.toNat length with
    | some trueTarget, some falseTarget => do
        let incoming ← mergeAt incoming trueTarget initialized
        mergeAt incoming falseTarget initialized
    | _, _ => .err (.jumpOutOfRange pc)
  | _ => match checkedAdd pc 1 with
    | none => .err (.jumpOutOfRange pc)
    | some next => if next < length then mergeAt incoming next initialized else .ok incoming

def scratchStep (length pc : Nat) (i : Instruction) (incoming : Incoming) :
    Outcome ImageValidationError Incoming :=
  match incoming[pc]? with
  | none => .panic
  | some none => .ok incoming
  | some (some initialized) => do
      let initialized ← touchScratch ImageValidationError.scratchUninitialized pc i initialized
      propagateInitialized length pc i initialized incoming

def validateScratchInitialization (alloc : Nat → Bool) (instructions : List Instruction) :
    Outcome ImageValidationError Unit :=
  if alloc instructions.length = false then .err .noMemory
  else do
    let incoming ← initialIncoming instructions.length
    let _ ← forEnum (scratchStep instructions.length) 0 instructions incoming
    .ok ()

def validateSourceContract (alloc : Nat → Bool) (instructions : List Instruction) (profile : InputProfile) :
    Outcome ImageValidationError Unit :=
  if instructions.isEmpty then .err .empty
  else if maxInstructions < instructions.length then .err (.tooLong instructions.length)
  else do
    forEnum (fun pc i _ => do
      validateSourceInstructionContract pc i
      validateProfileContract pc i profile
      validateJumpContract instructions.length pc i) 0 instructions ()
    if !endsInReturn instructions then .err .missingFinalReturn
    else validateScratchInitialization alloc instructions

end Validate

theorem Translate.validateInstruction_eq (length pc : Nat) (i : Instruction) :
    Translate.validateInstruction length pc i = verifyInstruction length pc i := by
  unfold Translate.validateInstruction verifyInstruction Translate.isSupported
  change (if (!i.op.isSome) = true then _ else _) = _
  cases hop : i.op with
  | none => simp
  | some op =>
      cases op with
      | jmpJa =>
          simp only [Option.isSome_some, Bool.not_true, Bool.false_eq_true, if_false]
          cases (checkedAdd pc 1).bind (checkedAdd · i.k.toNat) with
          | none => simp
          | some target => by_cases ht : target < length <;> simp [Option.filter, ht, Nat.not_lt.mp]
      | alu aop src => cases aop <;> cases src <;> simp
      | _ => simp

theorem Validate.sourceTarget_isNone_iff {pc offset length : Nat} (hpc : pc < maxInstructions)
    (ho : offset < 2 ^ 32) : Validate.sourceTarget pc offset length = none ↔ length ≤ pc + 1 + offset := by
  have h1 : pc + 1 ≤ usizeMax := by
    simp only [maxInstructions, usizeMax] at *
    omega
  have h2 : pc + 1 + offset ≤ usizeMax := by
    simp only [maxInstructions, usizeMax] at *
    omega
  simp [Validate.sourceTarget, checkedAdd, h1, h2, Option.filter_eq_none_iff]

theorem Validate.sourceTarget_eq_some {pc offset length target : Nat}
    (h : Validate.sourceTarget pc offset length = some target) : target = pc + 1 + offset ∧ target < length := by
  simp only [Validate.sourceTarget, Option.filter_eq_some_iff, Option.bind_eq_some_iff, checkedAdd_eq_some,
    decide_eq_true_eq] at h
  obtain ⟨⟨next, ⟨rfl, -⟩, rfl, -⟩, hlt⟩ := h
  exact ⟨rfl, hlt⟩

theorem Validate.sourceTarget_of_lt {pc offset length : Nat} (hpc : pc < maxInstructions) (ho : offset < 2 ^ 32)
    (hlt : pc + 1 + offset < length) : Validate.sourceTarget pc offset length = some (pc + 1 + offset) := by
  cases h : Validate.sourceTarget pc offset length with
  | none => exact absurd ((Validate.sourceTarget_isNone_iff hpc ho).mp h) (by omega)
  | some target => rw [(Validate.sourceTarget_eq_some h).1]

/-- One turn of the checker's structural loop accepts what `verify_structure`
accepts, as long as the program is short enough to have been let in. -/
theorem Validate.instruction_iff (length pc : Nat) (i : Instruction) (hpc : pc < maxInstructions) :
    ((do Validate.validateSourceInstructionContract pc i
         Validate.validateProfileContract pc i .bigEndianBytes
         Validate.validateJumpContract length pc i) = .ok ()) ↔ verifyInstruction length pc i = .ok () := by
  have hjt : i.jt.toNat < 2 ^ 32 := Nat.lt_trans i.jt.isLt (by decide)
  have hjf : i.jf.toNat < 2 ^ 32 := Nat.lt_trans i.jf.isLt (by decide)
  unfold verifyInstruction Validate.validateSourceInstructionContract Validate.validateJumpContract
    Validate.sourceOpcodeSupported Validate.validateProfileContract
  change ((if (!i.op.isSome) = true then _ else _) >>= _) = _ ↔ _
  cases hop : i.op with
  | none => simp
  | some op =>
      cases op with
      | jmpJa =>
          have hk : i.k.toNat < 2 ^ 32 := i.k.isLt
          have h1 : pc + 1 ≤ usizeMax := by
            simp only [maxInstructions, usizeMax] at *
            omega
          have h2 : pc + 1 + i.k.toNat ≤ usizeMax := by
            simp only [maxInstructions, usizeMax] at *
            omega
          simp only [Option.isSome_some, Bool.not_true, Bool.false_eq_true, if_false, ok_bind,
            Option.isNone_iff_eq_none, Validate.sourceTarget_isNone_iff hpc hk, checkedAdd, h1, h2, if_true,
            Option.bind_some]
          split <;> simp
      | jmp op src =>
          simp only [Option.isSome_some, Bool.not_true, Bool.false_eq_true, if_false, ok_bind,
            Option.isNone_iff_eq_none, Validate.sourceTarget_isNone_iff hpc hjt,
            Validate.sourceTarget_isNone_iff hpc hjf]
          split <;> simp
      | alu aop src => cases aop <;> cases src <;> simp [bind_eq_ok]
      | _ => simp [bind_eq_ok]

theorem touchScratch_toOption {ε δ : Type} (u : Nat → BitVec 32 → ε) (v : Nat → BitVec 32 → δ) (pc : Nat)
    (i : Instruction) (initialized : BitVec 16) :
    (touchScratch u pc i initialized).toOption = (touchScratch v pc i initialized).toOption := by
  unfold touchScratch scratchBit
  split <;> (try split) <;> simp <;> split <;> simp

theorem mergeAt_toOption {ε δ : Type} (table : Incoming) (target : Nat) (initialized : BitVec 16) :
    (mergeAt table target initialized : Outcome ε Incoming).toOption =
      (mergeAt table target initialized : Outcome δ Incoming).toOption := by
  unfold mergeAt
  split <;> rfl

/-- On a structured program the checker's propagation does what the other two
analyses do. -/
theorem Validate.propagateInitialized_toOption {instructions : List Instruction} (hs : Structured instructions)
    {pc : Nat} {i : Instruction} (hi : instructions[pc]? = some i) (initialized : BitVec 16) (table : Incoming) :
    (Validate.propagateInitialized instructions.length pc i initialized table).toOption =
      (ClassicBpf.propagateInitialized pc i initialized table : Outcome VerifyError Incoming).toOption := by
  have hpc : pc < instructions.length := (List.getElem?_eq_some_iff.mp hi).1
  have hmax : pc < maxInstructions := Nat.lt_of_lt_of_le hpc hs.bounded
  have hlt (target : Nat) (ht : target ∈ successors pc i) := hs.successors_lt hi ht
  have hjt : i.jt.toNat < 2 ^ 32 := Nat.lt_trans i.jt.isLt (by decide)
  have hjf : i.jf.toNat < 2 ^ 32 := Nat.lt_trans i.jf.isLt (by decide)
  unfold Validate.propagateInitialized ClassicBpf.propagateInitialized
  unfold successors at hlt
  split <;> simp_all only [List.mem_cons, List.not_mem_nil, or_false, forall_eq, forall_eq_or_imp]
  case h_1 | h_2 => rfl
  case h_3 =>
    rw [Validate.sourceTarget_of_lt hmax i.k.isLt hlt]
    exact mergeAt_toOption _ _ _
  case h_4 =>
    rw [Validate.sourceTarget_of_lt hmax hjt hlt.1, Validate.sourceTarget_of_lt hmax hjf hlt.2]
    simp only [toOption_bind]
    rw [mergeAt_toOption (ε := ImageValidationError) (δ := VerifyError)]
    congr 1
    funext t
    exact mergeAt_toOption _ _ _
  case h_5 =>
    have hone : checkedAdd pc 1 = some (pc + 1) := by
      refine checkedAdd_eq_some.mpr ⟨rfl, ?_⟩
      simp only [maxInstructions, usizeMax] at hmax ⊢
      omega
    simp only [hone, hlt, if_true]
    exact mergeAt_toOption _ _ _

theorem Validate.scratch_isOk {instructions : List Instruction} (hs : Structured instructions) (alloc : Nat → Bool) :
    (Validate.validateScratchInitialization alloc instructions).isOk =
      (verifyScratchInitialization alloc instructions).isOk := by
  unfold Validate.validateScratchInitialization verifyScratchInitialization
  split
  · rfl
  · simp only [← isSome_toOption, toOption_bind, toOption_ok]
    have hinit : (initialIncoming instructions.length : Outcome ImageValidationError Incoming).toOption =
        (initialIncoming instructions.length : Outcome VerifyError Incoming).toOption := by
      unfold initialIncoming
      split <;> rfl
    rw [hinit]
    congr 2
    funext start
    congr 1
    apply forEnum_toOption_congr
    intro pc i table hi
    simp only [Nat.zero_add]
    unfold Validate.scratchStep ClassicBpf.scratchStep
    cases table[pc]? with
    | none => rfl
    | some slot =>
        cases slot with
        | none => rfl
        | some initialized =>
            simp only [toOption_bind]
            rw [touchScratch_toOption _ VerifyError.scratchUninitialized]
            congr 1
            funext initialized
            exact Validate.propagateInitialized_toOption hs hi initialized table

/-- The verifier accepts exactly the structured programs that pass its scratch
analysis. -/
theorem verifyProgram_isOk (alloc : Nat → Bool) (instructions : List Instruction) :
    (verifyProgram alloc instructions).isOk = true ↔
      Structured instructions ∧ (verifyScratchInitialization alloc instructions).isOk = true := by
  rw [← verifyStructure_iff, isOk_iff, isOk_iff]
  unfold verifyProgram
  simp only [bind_eq_ok]
  constructor
  · rintro ⟨a, u, hstruct, hscratch⟩
    exact ⟨hstruct, a, hscratch⟩
  · rintro ⟨hstruct, a, hscratch⟩
    exact ⟨a, (), hstruct, hscratch⟩

theorem Translate.validateSource_isOk (alloc : Nat → Bool) (instructions : List Instruction) :
    (Translate.validateSource alloc instructions).isOk = true ↔
      Structured instructions ∧ (verifyScratchInitialization alloc instructions).isOk = true := by
  rw [← verifyStructure_iff, isOk_iff, isOk_iff]
  unfold Translate.validateSource verifyStructure verifyScratchInitialization
  simp only [Translate.validateInstruction_eq]
  split
  · simp
  · split
    · simp
    · cases endsInReturn instructions <;> simp [bind_eq_ok]

theorem Validate.validateSourceContract_isOk (alloc : Nat → Bool) (instructions : List Instruction) :
    (Validate.validateSourceContract alloc instructions .bigEndianBytes).isOk = true ↔
      Structured instructions ∧ (verifyScratchInitialization alloc instructions).isOk = true := by
  have hloop (hlen : instructions.length ≤ maxInstructions) :
      (forEnum (fun pc i _ => do
        Validate.validateSourceInstructionContract pc i
        Validate.validateProfileContract pc i .bigEndianBytes
        Validate.validateJumpContract instructions.length pc i) 0 instructions () = .ok ()) ↔
      ∀ pc i, instructions[pc]? = some i → verifyInstruction instructions.length pc i = .ok () := by
    rw [forEnum_check]
    constructor <;> intro h pc i hi
    · have hpc := (List.getElem?_eq_some_iff.mp hi).1
      have := h pc i hi
      rw [Nat.zero_add] at this
      exact (Validate.instruction_iff _ _ _ (by omega)).mp this
    · have hpc := (List.getElem?_eq_some_iff.mp hi).1
      rw [Nat.zero_add]
      exact (Validate.instruction_iff _ _ _ (by omega)).mpr (h pc i hi)
  constructor
  · intro h
    have hs : Structured instructions := by
      rw [← verifyStructure_iff]
      rw [isOk_iff] at h
      unfold Validate.validateSourceContract at h
      unfold verifyStructure
      split at h
      · simp at h
      · split at h
        · simp at h
        · rename_i he hlong
          simp only [bind_eq_ok] at h
          obtain ⟨_, u, hl, h⟩ := h
          have hall := (hloop (Nat.not_lt.mp hlong)).mp hl
          have hcheck := (forEnum_check (fun pc i => verifyInstruction instructions.length pc i) 0
            instructions).mpr (by simpa using hall)
          simp only [he, hlong, if_false, hcheck, ok_bind, Bool.false_eq_true]
          cases hend : endsInReturn instructions with
          | false => simp [hend] at h
          | true => rfl
    refine ⟨hs, ?_⟩
    rw [← Validate.scratch_isOk hs]
    rw [isOk_iff] at h ⊢
    unfold Validate.validateSourceContract at h
    have he : instructions.isEmpty = false := by
      cases instructions with
      | nil => exact absurd hs.nonempty (by simp)
      | cons i rest => rfl
    simp only [he, Bool.false_eq_true, if_false, Nat.not_lt.mpr hs.bounded, bind_eq_ok, hs.last, Bool.not_true] at h
    obtain ⟨a, u, -, h⟩ := h
    exact ⟨a, h⟩
  · rintro ⟨hs, hscratch⟩
    rw [← Validate.scratch_isOk hs] at hscratch
    unfold Validate.validateSourceContract
    have he : instructions.isEmpty = false := by
      cases instructions with
      | nil => exact absurd hs.nonempty (by simp)
      | cons i rest => rfl
    simp only [he, Bool.false_eq_true, if_false, Nat.not_lt.mpr hs.bounded, (hloop hs.bounded).mpr hs.checked,
      ok_bind, hs.last, Bool.not_true, hscratch]

/-- The two evaluators take the same turn wherever the verifier's one does not
panic. -/
theorem Translate.step_eq {input : Input} {i : Instruction} {m : Machine} {r : Step}
    (h : ClassicBpf.step input i m = some r) : Translate.step input i m = some r := by
  unfold ClassicBpf.step at h
  unfold Translate.step
  cases hop : i.op with
  | none => simp [hop] at h
  | some op =>
      simp only [hop] at h
      cases op with
      | ldAbs w =>
          cases hv : input.load i.k w <;> simp_all [Machine.loadA]
      | ldInd w =>
          cases hc : checkedAddU32 m.index i.k with
          | none => simp_all [Machine.loadA]
          | some offset => cases hv : input.load offset w <;> simp_all [Machine.loadA]
      | ldxMsh => cases hv : input.load i.k .byte <;> simp_all
      | alu aop src => cases aop <;> cases src <;> simpa [Machine.operand] using h
      | jmp jop src => cases src <;> exact h
      | _ => simpa using h

theorem Translate.evaluateSourceLoop_eq {instructions : List Instruction} {input : Input} (fuel steps : Nat)
    {m : Machine} {value : BitVec 32} {n : Nat}
    (h : evaluateLoop instructions input fuel steps m = some (value, n)) :
    Translate.evaluateSourceLoop instructions input fuel m = some value := by
  induction fuel generalizing steps m with
  | zero => simp [evaluateLoop] at h
  | succ fuel ih =>
      simp only [evaluateLoop, Option.bind_eq_bind, Option.bind_eq_some_iff] at h
      obtain ⟨i, hi, r, hr, h⟩ := h
      simp only [Translate.evaluateSourceLoop, hi, Translate.step_eq hr, Option.bind_eq_bind, Option.bind_some]
      cases r with
      | ret v =>
          simp only [pure, Option.some.injEq, Prod.mk.injEq] at h ⊢
          exact h.1
      | next m' => exact ih (steps + 1) h

/-- The verifier, the emitter's check and the checker's big-endian contract
accept the same programs, and on an accepted program the reference evaluator
of a code image returns what the interpreter returns. -/
theorem acceptance_agrees (alloc : Nat → Bool) (instructions : List Instruction) :
    (Translate.validateSource alloc instructions).isOk = (verifyProgram alloc instructions).isOk ∧
      (Validate.validateSourceContract alloc instructions .bigEndianBytes).isOk =
        (verifyProgram alloc instructions).isOk ∧
      ((verifyProgram alloc instructions).isOk = true → ∀ input, ∃ value,
        evaluate instructions input = some value ∧ Translate.evaluateSource instructions input = some value) := by
  refine ⟨?_, ?_, ?_⟩
  · rw [Bool.eq_iff_iff, Translate.validateSource_isOk, verifyProgram_isOk]
  · rw [Bool.eq_iff_iff, Validate.validateSourceContract_isOk, verifyProgram_isOk]
  · intro h input
    obtain ⟨u, hu⟩ := isOk_iff.mp h
    obtain ⟨hs, table, ha⟩ := verifyProgram_ok hu
    obtain ⟨value, steps, he, -⟩ := evaluateCounted_returns hs ha input
    exact ⟨value, by simp [evaluate, he], Translate.evaluateSourceLoop_eq _ _ he⟩

theorem acceptance_agrees_reloadProgram :
    (verifyProgram (fun _ => true) reloadProgram).isOk = true ∧
      ∃ value, evaluate reloadProgram (sliceInput [7]) = some value ∧
        Translate.evaluateSource reloadProgram (sliceInput [7]) = some value :=
  ⟨by decide +kernel,
    (acceptance_agrees (fun _ => true) reloadProgram).2.2 (by decide +kernel) (sliceInput [7])⟩

end TheKernel.ClassicBpf
