import TheKernel.ClassicBpf.Program

namespace TheKernel.ClassicBpf

open Outcome

/-- The program counters control can pass to, read off the interpreter. -/
def successors (pc : Nat) (i : Instruction) : List Nat :=
  match i.op with
  | some .retK | some .retA => []
  | some .jmpJa => [pc + 1 + i.k.toNat]
  | some (.jmp _ _) => [pc + 1 + i.jt.toNat, pc + 1 + i.jf.toNat]
  | _ => [pc + 1]

theorem lt_of_mem_successors {pc target : Nat} {i : Instruction} (h : target ∈ successors pc i) : pc < target := by
  unfold successors at h
  split at h <;> simp only [List.not_mem_nil, List.mem_cons, or_false] at h <;> omega

/-- `a` promises no more words than `b`. -/
def Below (a b : BitVec 16) : Prop := a &&& b = a

theorem Below.refl (a : BitVec 16) : Below a a := by simp [Below]

theorem Below.trans {a b c : BitVec 16} (hab : Below a b) (hbc : Below b c) : Below a c := by
  unfold Below at *
  rw [← hab, BitVec.and_assoc, hbc]

theorem below_and_left (a b : BitVec 16) : Below (a &&& b) a := by
  unfold Below
  rw [BitVec.and_comm a b, BitVec.and_assoc, BitVec.and_self]

theorem below_and_right (a b : BitVec 16) : Below (a &&& b) b := by
  unfold Below
  rw [BitVec.and_assoc, BitVec.and_self]

theorem Below.getLsbD {a b : BitVec 16} (h : Below a b) {n : Nat} (ha : a.getLsbD n = true) : b.getLsbD n = true := by
  rw [← h, BitVec.getLsbD_and, Bool.and_eq_true] at ha
  exact ha.2

def HoldsBelow (table : Incoming) (target : Nat) (bound : BitVec 16) : Prop :=
  ∃ mask, table[target]? = some (some mask) ∧ Below mask bound

structure Refines (pc : Nat) (before after : Incoming) : Prop where
  length : after.length = before.length
  kept : ∀ u, u ≤ pc → after[u]? = before[u]?
  below : ∀ u mask, before[u]? = some (some mask) → HoldsBelow after u mask

theorem Refines.refl (pc : Nat) (table : Incoming) : Refines pc table table :=
  ⟨rfl, fun _ _ => rfl, fun _ mask h => ⟨mask, h, Below.refl mask⟩⟩

theorem HoldsBelow.mono {pc : Nat} {before after : Incoming} (h : Refines pc before after)
    {target : Nat} {bound : BitVec 16} (hb : HoldsBelow before target bound) : HoldsBelow after target bound := by
  obtain ⟨mask, hm, hle⟩ := hb
  obtain ⟨mask', hm', hle'⟩ := h.below target mask hm
  exact ⟨mask', hm', hle'.trans hle⟩

theorem Refines.trans {pc : Nat} {a b c : Incoming} (hab : Refines pc a b) (hbc : Refines pc b c) :
    Refines pc a c where
  length := hbc.length.trans hab.length
  kept u hu := (hbc.kept u hu).trans (hab.kept u hu)
  below u mask hm := (hab.below u mask hm).mono hbc

theorem mergeAt_spec {ε : Type} {pc target : Nat} {table table' : Incoming} {initialized : BitVec 16}
    (hlt : pc < target) (h : mergeAt table target initialized = (.ok table' : Outcome ε Incoming)) :
    Refines pc table table' ∧ HoldsBelow table' target initialized := by
  unfold mergeAt at h
  split at h
  case h_1 => cases h
  case h_2 slot hslot =>
    cases h
    have hbound : target < table.length := by
      rw [List.getElem?_eq_some_iff] at hslot
      exact hslot.1
    have hself : (table.set target (mergeInitialized slot initialized))[target]? =
        some (mergeInitialized slot initialized) := List.getElem?_set_self hbound
    refine ⟨⟨by simp, ?_, ?_⟩, ?_⟩
    · intro u hu
      exact List.getElem?_set_ne (by omega)
    · intro u mask hm
      by_cases hu : target = u
      · subst hu
        rw [hslot, Option.some.injEq] at hm
        subst hm
        exact ⟨mask &&& initialized, hself, below_and_left _ _⟩
      · exact ⟨mask, by rwa [List.getElem?_set_ne hu], Below.refl mask⟩
    · cases slot with
      | none => exact ⟨initialized, hself, Below.refl _⟩
      | some existing => exact ⟨existing &&& initialized, hself, below_and_right _ _⟩

theorem propagateInitialized_spec {ε : Type} {pc : Nat} {i : Instruction} {table table' : Incoming}
    {initialized : BitVec 16}
    (h : propagateInitialized pc i initialized table = (.ok table' : Outcome ε Incoming)) :
    Refines pc table table' ∧ ∀ target ∈ successors pc i, HoldsBelow table' target initialized := by
  unfold propagateInitialized at h
  unfold successors
  split at h
  case h_1 | h_2 =>
    cases h
    simp_all [Refines.refl]
  case h_3 hop =>
    obtain ⟨hr, hb⟩ := mergeAt_spec (show pc < _ by omega) h
    simp_all
  case h_4 hop =>
    rw [bind_eq_ok] at h
    obtain ⟨mid, hmid, h⟩ := h
    obtain ⟨hr, hb⟩ := mergeAt_spec (show pc < _ by omega) hmid
    obtain ⟨hr', hb'⟩ := mergeAt_spec (show pc < _ by omega) h
    have hb'' := hb.mono hr'
    simp_all [hr.trans hr']
  case h_5 =>
    obtain ⟨hr, hb⟩ := mergeAt_spec (show pc < _ by omega) h
    simp_all

/-- What the analysis establishes about the instruction at `pc`: if some path
reaches it, its own scratch access passes and every successor slot promises no
more than what holds after it. -/
def EdgeOk (instructions : List Instruction) (table : Incoming) (pc : Nat) : Prop :=
  ∀ i mask, instructions[pc]? = some i → table[pc]? = some (some mask) →
    ∃ out, touchScratch VerifyError.scratchUninitialized pc i mask = .ok out ∧
      ∀ target ∈ successors pc i, HoldsBelow table target out

theorem EdgeOk.mono {instructions : List Instruction} {before after : Incoming} {n pc : Nat}
    (hr : Refines n before after) (hpc : pc ≤ n) (h : EdgeOk instructions before pc) :
    EdgeOk instructions after pc := by
  intro i mask hi hm
  rw [hr.kept pc hpc] at hm
  obtain ⟨out, hout, hsucc⟩ := h i mask hi hm
  exact ⟨out, hout, fun target ht => (hsucc target ht).mono hr⟩

/-- A completed analysis: the entry promises nothing, and the conditions hold
at every program counter. -/
structure Analysed (instructions : List Instruction) (table : Incoming) : Prop where
  entry : table[0]? = some (some 0)
  edge : ∀ pc, EdgeOk instructions table pc

theorem scratchStep_spec {instructions : List Instruction} {pc : Nat} {i : Instruction} {table table' : Incoming}
    (hi : instructions[pc]? = some i)
    (h : scratchStep VerifyError.scratchUninitialized pc i table = .ok table') :
    Refines pc table table' ∧ EdgeOk instructions table' pc := by
  unfold scratchStep at h
  split at h
  case h_1 => cases h
  case h_2 hnone =>
    cases h
    refine ⟨Refines.refl pc table, ?_⟩
    intro j mask _ hm
    simp [hnone] at hm
  case h_3 mask hmask =>
    rw [bind_eq_ok] at h
    obtain ⟨out, hout, h⟩ := h
    obtain ⟨hr, hsucc⟩ := propagateInitialized_spec h
    refine ⟨hr, ?_⟩
    intro j mask' hj hm
    rw [hi, Option.some.injEq] at hj
    rw [hr.kept pc (Nat.le_refl pc), hmask, Option.some.injEq, Option.some.injEq] at hm
    subst hj hm
    exact ⟨out, hout, hsucc⟩

theorem verifyScratchInitialization_analysed {alloc : Nat → Bool} {instructions : List Instruction}
    (h : verifyScratchInitialization alloc instructions = .ok ()) :
    ∃ table, Analysed instructions table := by
  unfold verifyScratchInitialization at h
  split at h
  case isTrue => cases h
  case isFalse =>
    rw [bind_eq_ok] at h
    obtain ⟨start, hstart, h⟩ := h
    rw [bind_eq_ok] at h
    obtain ⟨table, hloop, -⟩ := h
    have hinit : start[0]? = some (some 0) := by
      unfold initialIncoming at hstart
      split at hstart
      case isTrue => cases hstart
      case isFalse hne =>
        cases hstart
        exact List.getElem?_set_self (by simpa using Nat.pos_of_ne_zero hne)
    have hinv := forEnum_invariant _
      (fun n t => t[0]? = some (some 0) ∧ ∀ pc, pc < n → EdgeOk instructions t pc) 0 instructions start table
      (by
        intro i x s s' hx hs hstep
        simp only [Nat.zero_add] at hs hstep ⊢
        obtain ⟨hr, hedge⟩ := scratchStep_spec hx hstep
        refine ⟨(hr.kept 0 (Nat.zero_le i)).trans hs.1, ?_⟩
        intro pc hpc
        by_cases heq : pc = i
        · subst heq
          exact hedge
        · exact (hs.2 pc (by omega)).mono hr (by omega))
      ⟨hinit, fun pc hpc => absurd hpc (Nat.not_lt_zero pc)⟩ hloop
    refine ⟨table, hinv.1, ?_⟩
    intro pc
    by_cases hpc : pc < instructions.length
    · exact hinv.2 pc (by simpa using hpc)
    · intro i mask hi
      rw [List.getElem?_eq_none (by omega)] at hi
      cases hi

structure Structured (instructions : List Instruction) : Prop where
  nonempty : 0 < instructions.length
  bounded : instructions.length ≤ maxInstructions
  checked : ∀ pc i, instructions[pc]? = some i → verifyInstruction instructions.length pc i = .ok ()
  last : endsInReturn instructions = true

theorem verifyStructure_iff (instructions : List Instruction) :
    verifyStructure instructions = .ok () ↔ Structured instructions := by
  unfold verifyStructure
  split
  case isTrue he =>
    constructor
    · intro h
      cases h
    · intro h
      rw [List.isEmpty_iff] at he
      have := h.nonempty
      simp [he] at this
  case isFalse he =>
    split
    case isTrue hlong =>
      constructor
      · intro h
        cases h
      · intro h
        exact absurd h.bounded (Nat.not_le.mpr hlong)
    case isFalse hshort =>
      rw [bind_eq_ok]
      constructor
      · rintro ⟨u, hloop, hlast⟩
        refine ⟨?_, Nat.not_lt.mp hshort, ?_, ?_⟩
        · cases instructions with
          | nil => simp at he
          | cons i rest => simp
        · simpa using (forEnum_check _ 0 instructions).mp hloop
        · by_contra hne
          simp [hne] at hlast
      · intro h
        exact ⟨(), (forEnum_check _ 0 instructions).mpr (by simpa using h.checked), by simp [h.last]⟩

theorem isReturn_of_last {instructions : List Instruction} {i : Instruction} (h : endsInReturn instructions = true)
    (hi : instructions[instructions.length - 1]? = some i) : i.op = some .retK ∨ i.op = some .retA := by
  unfold endsInReturn at h
  rw [List.getLast?_eq_getElem?, hi, Option.bind_some] at h
  split at h <;> simp_all

/-- Every successor of an instruction of a structured program is an
instruction of the program. -/
theorem Structured.successors_lt {instructions : List Instruction} (hs : Structured instructions)
    {pc target : Nat} {i : Instruction} (hi : instructions[pc]? = some i) (ht : target ∈ successors pc i) :
    target < instructions.length := by
  have hc := hs.checked pc i hi
  have hpc : pc < instructions.length := (List.getElem?_eq_some_iff.mp hi).1
  have hlast (he : pc + 1 = instructions.length) : i.op = some .retK ∨ i.op = some .retA :=
    isReturn_of_last hs.last (by rw [← he]; simpa using hi)
  unfold successors at ht
  unfold verifyInstruction at hc
  split at ht <;> simp_all only [List.not_mem_nil, List.mem_cons, or_false]
  case h_3 hop =>
    have hbound : pc + 1 + i.k.toNat ≤ usizeMax := by
      have := hs.bounded
      have := i.k.isLt
      simp only [maxInstructions, usizeMax] at *
      omega
    have hone : pc + 1 ≤ usizeMax := by omega
    simp only [checkedAdd, hone, if_true, Option.bind_some, hbound] at hc
    split at hc
    · cases hc
    · omega
  case h_4 hop =>
    split at hc
    · cases hc
    · omega
  case h_5 h1 h2 h3 h4 =>
    by_contra hge
    have := hlast (by omega)
    simp_all

/-- An instruction that passed `verify_structure` never panics. -/
theorem step_total {length : Nat} {i : Instruction} {m : Machine} (input : Input)
    (h : verifyInstruction length m.pc i = .ok ()) : ∃ r, step input i m = some r := by
  unfold verifyInstruction at h
  unfold step
  cases hop : i.op with
  | none => simp [hop] at h
  | some op =>
      cases op with
      | ldMem | ldxMem | st | stx =>
          have hk : i.k.toNat < scratchWords := by
            by_contra hk
            simp [hop, Nat.not_lt.mp hk] at h
          simp [Machine.readScratch, Machine.writeScratch, hk]
      | alu aop src =>
          cases aop <;> cases src <;> simp_all [Machine.aluStep, AluOp.apply, Machine.operand] <;> split <;> simp_all
      | ldxMsh => simp only; split <;> simp
      | _ => simp

theorem Machine.loadA_eq_next {m m' : Machine} {value : Option (BitVec 32)} (h : m.loadA value = .next m') :
    ∃ v, value = some v ∧ m' = (m.setA v).advance := by
  cases value with
  | none => cases h
  | some v =>
      cases h
      exact ⟨v, rfl, rfl⟩

theorem Machine.aluStep_eq_next {m m' : Machine} {op : AluOp} {b : BitVec 32}
    (h : m.aluStep op b = some (.next m')) : ∃ v, m' = (m.setA v).advance := by
  unfold Machine.aluStep at h
  cases hv : op.apply m.accumulator b with
  | none => simp [hv] at h
  | some v =>
      simp only [hv, Option.map_some, Option.some.injEq, Step.next.injEq] at h
      exact ⟨v, h.symm⟩

theorem step_next_pc {input : Input} {i : Instruction} {m m' : Machine} (h : step input i m = some (.next m')) :
    m'.pc ∈ successors m.pc i := by
  unfold step at h
  unfold successors
  cases hop : i.op with
  | none => simp [hop] at h
  | some op =>
      simp only [hop] at h
      cases op with
      | ldAbs w | ldInd w =>
          obtain ⟨v, -, rfl⟩ := Machine.loadA_eq_next (Option.some.inj h)
          simp [Machine.advance, Machine.setA]
      | ldMem | ldxMem =>
          simp only [Option.map_eq_some_iff, Step.next.injEq] at h
          obtain ⟨v, -, rfl⟩ := h
          simp [Machine.advance, Machine.setA, Machine.setX]
      | st | stx =>
          simp only [Option.map_eq_some_iff, Step.next.injEq, Machine.writeScratch] at h
          obtain ⟨v, hv, rfl⟩ := h
          split at hv <;> simp only [Option.some.injEq, reduceCtorEq] at hv
          subst hv
          simp [Machine.advance]
      | ldxMsh =>
          simp only at h
          split at h <;> simp only [Option.some.injEq, Step.next.injEq, reduceCtorEq] at h
          subst h
          simp [Machine.advance, Machine.setX]
      | alu aop src =>
          have hv : ∃ v, m' = (m.setA v).advance := by
            cases aop <;> cases src <;> simp only at h <;>
              first
              | exact Machine.aluStep_eq_next h
              | (split at h
                 · cases h
                 · exact Machine.aluStep_eq_next h)
              | exact ⟨_, (Step.next.inj (Option.some.inj h)).symm⟩
          obtain ⟨v, rfl⟩ := hv
          simp [Machine.advance, Machine.setA]
      | retK | retA => simp at h
      | jmpJa =>
          simp only [Option.some.injEq, Step.next.injEq] at h
          subst h
          simp [Nat.add_assoc]
      | jmp jop src =>
          simp only [Option.some.injEq, Step.next.injEq] at h
          subst h
          cases jop.holds m.accumulator (m.operand i src) <;> simp [Nat.add_assoc]
      | _ =>
          simp only [Option.some.injEq, Step.next.injEq] at h
          subst h
          simp [Machine.advance, Machine.setA, Machine.setX]

/-- `Run instructions input n m`: evaluation has executed `n` instructions and
is about to execute the one at `m.pc`. -/
inductive Run (instructions : List Instruction) (input : Input) : Nat → Machine → Prop
  | start : Run instructions input 0 Machine.initial
  | step {n m i m'} : Run instructions input n m → instructions[m.pc]? = some i →
      step input i m = some (.next m') → Run instructions input (n + 1) m'

/-- A store into word `k` was executed before turn `n`. -/
def Stored (instructions : List Instruction) (input : Input) (n : Nat) (k : Nat) : Prop :=
  ∃ n' m' i', n' < n ∧ Run instructions input n' m' ∧ instructions[m'.pc]? = some i' ∧
    (i'.op = some .st ∨ i'.op = some .stx) ∧ i'.k.toNat = k

theorem Stored.succ {instructions : List Instruction} {input : Input} {n k : Nat}
    (h : Stored instructions input n k) : Stored instructions input (n + 1) k := by
  obtain ⟨n', m', i', hlt, hr⟩ := h
  exact ⟨n', m', i', Nat.lt_succ_of_lt hlt, hr⟩

theorem touchScratch_stored {i : Instruction} {pc : Nat} {mask out : BitVec 16}
    (h : touchScratch VerifyError.scratchUninitialized pc i mask = .ok out) {k : Nat} (hk : out.getLsbD k = true) :
    mask.getLsbD k = true ∨ ((i.op = some .st ∨ i.op = some .stx) ∧ i.k.toNat = k) := by
  unfold touchScratch at h
  split at h
  case h_1 | h_2 =>
    rw [bind_eq_ok] at h
    obtain ⟨bit, -, h⟩ := h
    split at h <;> cases h
    exact .inl hk
  case h_3 hop | h_4 hop =>
    rw [bind_eq_ok] at h
    obtain ⟨bit, hbit, h⟩ := h
    cases h
    unfold scratchBit at hbit
    split at hbit <;> cases hbit
    rw [BitVec.getLsbD_or, Bool.or_eq_true] at hk
    rcases hk with hk | hk
    · exact .inl hk
    · simp only [BitVec.getLsbD_shiftLeft, BitVec.getLsbD_one, Bool.and_eq_true, decide_eq_true_eq,
        Bool.not_eq_true', decide_eq_false_iff_not, Nat.not_lt] at hk
      exact .inr ⟨by simp [hop], by omega⟩
  case h_5 =>
    cases h
    exact .inl hk

theorem touchScratch_load {i : Instruction} {pc : Nat} {mask out : BitVec 16}
    (h : touchScratch VerifyError.scratchUninitialized pc i mask = .ok out)
    (hop : i.op = some .ldMem ∨ i.op = some .ldxMem) : mask.getLsbD i.k.toNat = true := by
  have hload : (scratchBit i.k >>= fun bit =>
      if mask &&& bit = 0 then .err (VerifyError.scratchUninitialized pc i.k) else .ok mask) = .ok out := by
    rcases hop with hop | hop <;> simpa [touchScratch, hop] using h
  rw [bind_eq_ok] at hload
  obtain ⟨bit, hbit, hload⟩ := hload
  unfold scratchBit at hbit
  split at hbit <;> cases hbit
  by_contra hne
  have hzero : mask &&& (1#16 <<< i.k.toNat) = 0 := by
    apply BitVec.eq_of_getLsbD_eq
    intro j hj
    simp only [BitVec.getLsbD_and, BitVec.getLsbD_shiftLeft, BitVec.getLsbD_one]
    by_cases hjk : j = i.k.toNat
    · subst hjk
      simp [hne]
    · have : ¬ (i.k.toNat ≤ j ∧ j - i.k.toNat = 0) := by omega
      simp only [BitVec.ofNat_eq_ofNat, BitVec.getLsbD_zero, Bool.and_eq_false_imp]
      intro _
      simp only [Bool.and_eq_true, decide_eq_true_eq, Bool.not_eq_true', decide_eq_false_iff_not,
        Nat.not_lt, and_imp]
      omega
  simp [hzero] at hload

/-- The run invariant: the program counter is inside the program and has
moved at least once per executed instruction, and the table promises only
words that were stored. -/
theorem run_invariant {instructions : List Instruction} {table : Incoming} (hs : Structured instructions)
    (ha : Analysed instructions table) {input : Input} {n : Nat} {m : Machine} (h : Run instructions input n m) :
    n ≤ m.pc ∧ m.pc < instructions.length ∧
      ∃ mask, table[m.pc]? = some (some mask) ∧ ∀ k, mask.getLsbD k = true → Stored instructions input n k := by
  induction h with
  | start => exact ⟨Nat.le_refl 0, hs.nonempty, 0, ha.entry, fun k hk => by simp at hk⟩
  | @step n m i m' hrun hi hstep ih =>
      obtain ⟨hn, hpc, mask, hmask, hstored⟩ := ih
      have hsucc := step_next_pc hstep
      obtain ⟨out, hout, hedge⟩ := ha.edge m.pc i mask hi hmask
      obtain ⟨mask', hmask', hbelow⟩ := hedge m'.pc hsucc
      refine ⟨?_, hs.successors_lt hi hsucc, mask', hmask', ?_⟩
      · have := lt_of_mem_successors hsucc
        omega
      · intro k hk
        rcases touchScratch_stored hout (hbelow.getLsbD hk) with hk | ⟨hop, hk⟩
        · exact (hstored k hk).succ
        · exact ⟨n, m, i, Nat.lt_succ_self n, hrun, hi, hop, hk⟩

/-- The loop continues from any reached turn with the turns it has left. -/
theorem evaluateLoop_returns {instructions : List Instruction} {table : Incoming} (hs : Structured instructions)
    (ha : Analysed instructions table) {input : Input} (fuel : Nat) {n : Nat} {m : Machine}
    (hfuel : instructions.length ≤ n + fuel) (h : Run instructions input n m) :
    ∃ value steps, evaluateLoop instructions input fuel n m = some (value, steps) ∧ steps ≤ n + fuel := by
  obtain ⟨hn, hpc, -⟩ := run_invariant hs ha h
  induction fuel generalizing n m with
  | zero => omega
  | succ fuel ih =>
      have hi := List.getElem?_eq_getElem hpc
      obtain ⟨r, hr⟩ := step_total input (hs.checked m.pc _ hi)
      simp only [evaluateLoop, hi, hr, Option.bind_eq_bind, Option.bind_some]
      cases r with
      | ret value => exact ⟨value, n + 1, rfl, by omega⟩
      | next m' =>
          have hnext := Run.step h hi hr
          obtain ⟨hn', hpc', -⟩ := run_invariant hs ha hnext
          obtain ⟨value, steps, he, hle⟩ := ih (by omega) hnext hn' hpc'
          exact ⟨value, steps, he, by omega⟩

/-- What executing `i` as turn number `n` may rely on. -/
structure SafeTurn (instructions : List Instruction) (input : Input) (n : Nat) (i : Instruction) : Prop where
  supported : isSupported i.code = true
  divisor : i.op = some (.alu .div .k) ∨ i.op = some (.alu .mod .k) → i.k ≠ 0
  scratch : i.op = some .ldMem ∨ i.op = some .ldxMem ∨ i.op = some .st ∨ i.op = some .stx →
    i.k.toNat < scratchWords
  initialized : i.op = some .ldMem ∨ i.op = some .ldxMem → Stored instructions input n i.k.toNat

theorem safeTurn_of_run {instructions : List Instruction} {table : Incoming} (hs : Structured instructions)
    (ha : Analysed instructions table) {input : Input} {n : Nat} {m : Machine} (h : Run instructions input n m)
    {i : Instruction} (hi : instructions[m.pc]? = some i) : SafeTurn instructions input n i := by
  have hc := hs.checked m.pc i hi
  obtain ⟨-, -, mask, hmask, hstored⟩ := run_invariant hs ha h
  obtain ⟨out, hout, -⟩ := ha.edge m.pc i mask hi hmask
  refine ⟨?_, ?_, ?_, fun hop => hstored _ (touchScratch_load hout hop)⟩
  · unfold isSupported
    cases hop : Opcode.ofCode i.code with
    | some op => rfl
    | none => simp [verifyInstruction, Instruction.op, hop] at hc
  · rintro (hop | hop) hk <;> simp [verifyInstruction, hop, hk] at hc
  · rintro (hop | hop | hop | hop) <;> by_contra hk <;>
      simp [verifyInstruction, hop, Nat.not_lt.mp hk] at hc

theorem verifyProgram_ok {alloc : Nat → Bool} {instructions : List Instruction}
    (h : verifyProgram alloc instructions = .ok ()) :
    Structured instructions ∧ ∃ table, Analysed instructions table := by
  unfold verifyProgram at h
  rw [bind_eq_ok] at h
  obtain ⟨u, hstruct, hscratch⟩ := h
  exact ⟨(verifyStructure_iff instructions).mp hstruct, verifyScratchInitialization_analysed hscratch⟩

theorem evaluateCounted_returns {instructions : List Instruction} {table : Incoming} (hs : Structured instructions)
    (ha : Analysed instructions table) (input : Input) :
    ∃ value steps, evaluateCounted instructions input = some (value, steps) ∧ steps ≤ instructions.length := by
  obtain ⟨value, steps, he, hle⟩ := evaluateLoop_returns hs ha instructions.length (Nat.le_add_left _ 0)
    (.start : Run instructions input 0 Machine.initial)
  exact ⟨value, steps, he, by omega⟩

/-- Evaluation of an accepted program panics nowhere and returns within as
many turns as the program has instructions; every turn reads an instruction of
the program that the verifier admits, and every scratch load follows a store
to the same word. -/
theorem evaluate_safe (alloc : Nat → Bool) (instructions : List Instruction)
    (h : verifyProgram alloc instructions = .ok ()) (input : Input) :
    (∃ value steps, evaluateCounted instructions input = some (value, steps) ∧ steps ≤ instructions.length) ∧
      ∀ n m, Run instructions input n m →
        n < instructions.length ∧ ∃ i, instructions[m.pc]? = some i ∧ SafeTurn instructions input n i ∧
          ∃ r, step input i m = some r := by
  obtain ⟨hs, table, ha⟩ := verifyProgram_ok h
  refine ⟨evaluateCounted_returns hs ha input, ?_⟩
  intro n m hrun
  obtain ⟨hn, hpc, -⟩ := run_invariant hs ha hrun
  have hi := List.getElem?_eq_getElem hpc
  exact ⟨by omega, _, hi, safeTurn_of_run hs ha hrun hi, step_total input (hs.checked m.pc _ hi)⟩

/-- Stores the first input byte, clears the accumulator and returns the
stored word. -/
def reloadProgram : List Instruction :=
  [.statement (.ldAbs .byte) 0, .statement .st 3, .statement .ldImm 0, .statement .ldMem 3, .statement .retA 0]

theorem evaluate_safe_reloadProgram :
    verifyProgram (fun _ => true) reloadProgram = .ok () ∧
      ∃ value steps, evaluateCounted reloadProgram (sliceInput [7]) = some (value, steps) ∧
        steps ≤ reloadProgram.length :=
  ⟨by decide +kernel, (evaluate_safe (fun _ => true) reloadProgram (by decide +kernel) (sliceInput [7])).1⟩

end TheKernel.ClassicBpf
