import TheKernel.ClassicBpf.Safety

namespace TheKernel.ClassicBpf

open Outcome

variable {instructions : List Instruction}

/-- A control-flow path from instruction zero to `pc`, with the instructions executed on the way;
a branch may go in either direction. -/
inductive Path (instructions : List Instruction) : List Nat → Nat → Prop
  | start : Path instructions [] 0
  | next {visited : List Nat} {pc target : Nat} {i : Instruction} (h : Path instructions visited pc)
      (hi : instructions[pc]? = some i) (ht : target ∈ successors pc i) : Path instructions (pc :: visited) target

def Instruction.loadsScratch (i : Instruction) : Prop := i.op = some .ldMem ∨ i.op = some .ldxMem

def Instruction.storesScratch (i : Instruction) : Prop := i.op = some .st ∨ i.op = some .stx

def StoredOn (instructions : List Instruction) (visited : List Nat) (k : Nat) : Prop :=
  ∃ pc ∈ visited, ∃ i, instructions[pc]? = some i ∧ i.storesScratch ∧ i.k.toNat = k

/-- On every path each load from scratch comes after a store into the same word. -/
def PathsInitialize (instructions : List Instruction) : Prop :=
  ∀ visited pc i, Path instructions visited pc → instructions[pc]? = some i → i.loadsScratch →
    StoredOn instructions visited i.k.toNat

theorem StoredOn.cons {visited : List Nat} {pc k : Nat} (h : StoredOn instructions visited k) :
    StoredOn instructions (pc :: visited) k := by
  obtain ⟨pc', hmem, hstore⟩ := h
  exact ⟨pc', List.mem_cons_of_mem pc hmem, hstore⟩

theorem storedOn_cons_iff {visited : List Nat} {pc k : Nat} {i : Instruction} (hi : instructions[pc]? = some i) :
    StoredOn instructions (pc :: visited) k ↔ (i.storesScratch ∧ i.k.toNat = k) ∨ StoredOn instructions visited k := by
  constructor
  · rintro ⟨pc', hmem, i', hi', hstore⟩
    rcases List.mem_cons.mp hmem with rfl | hmem
    · cases hi.symm.trans hi'
      exact .inl hstore
    · exact .inr ⟨pc', hmem, i', hi', hstore⟩
  · rintro (hstore | hold)
    · exact ⟨pc, List.mem_cons_self, i, hi, hstore⟩
    · exact hold.cons

section Sound

variable {table : Incoming}

/-- Along a path the table promises only words that the path has stored. -/
theorem Analysed.path_masks (ha : Analysed instructions table) {visited : List Nat} {pc : Nat}
    (h : Path instructions visited pc) :
    ∃ mask, table[pc]? = some (some mask) ∧ ∀ k, mask.getLsbD k = true → StoredOn instructions visited k := by
  induction h with
  | start => exact ⟨0, ha.entry, fun k hk => by simp at hk⟩
  | @next visited pc target i h hi ht ih =>
      obtain ⟨mask, hmask, hstored⟩ := ih
      obtain ⟨out, hout, hedge⟩ := ha.edge pc i mask hi hmask
      obtain ⟨mask', hmask', hbelow⟩ := hedge target ht
      refine ⟨mask', hmask', ?_⟩
      intro k hk
      rcases touchScratch_stored hout (hbelow.getLsbD hk) with hk | hstore
      · exact (hstored k hk).cons
      · exact (storedOn_cons_iff hi).mpr (.inl hstore)

theorem Analysed.pathsInitialize (ha : Analysed instructions table) : PathsInitialize instructions := by
  intro visited pc i h hi hload
  obtain ⟨mask, hmask, hstored⟩ := ha.path_masks h
  obtain ⟨out, hout, -⟩ := ha.edge pc i mask hi hmask
  exact hstored _ (touchScratch_load hout hload)

end Sound

section Complete

/-- Some path to `pc` does not store into word `k`. -/
def Missed (instructions : List Instruction) (pc k : Nat) : Prop :=
  ∃ visited, Path instructions visited pc ∧ ¬ StoredOn instructions visited k

structure Exact (instructions : List Instruction) (table : Incoming) : Prop where
  length : table.length = instructions.length
  missed : ∀ pc mask, table[pc]? = some (some mask) → ∀ k < 16, mask.getLsbD k = false → Missed instructions pc k

theorem Exact.mergeAt {ε : Type} {table : Incoming} {target : Nat} {initialized : BitVec 16}
    (he : Exact instructions table) (ht : target < instructions.length)
    (hmissed : ∀ k < 16, initialized.getLsbD k = false → Missed instructions target k) :
    ∃ table', mergeAt table target initialized = (.ok table' : Outcome ε Incoming) ∧ Exact instructions table' := by
  have hlt : target < table.length := he.length ▸ ht
  refine ⟨table.set target (mergeInitialized table[target] initialized), ?_, ?_, ?_⟩
  · rw [ClassicBpf.mergeAt, List.getElem?_eq_getElem hlt]
  · rw [List.length_set]
    exact he.length
  · intro pc mask hm k hk hbit
    by_cases hpc : target = pc
    · subst hpc
      rw [List.getElem?_set_self hlt, Option.some.injEq] at hm
      cases hslot : table[target] with
      | none =>
          rw [hslot] at hm
          change some initialized = some mask at hm
          cases hm
          exact hmissed k hk hbit
      | some existing =>
          rw [hslot] at hm
          change some (existing &&& initialized) = some mask at hm
          cases hm
          rw [BitVec.getLsbD_and, Bool.and_eq_false_iff] at hbit
          rcases hbit with hbit | hbit
          · exact he.missed target existing (by rw [List.getElem?_eq_getElem hlt, hslot]) k hk hbit
          · exact hmissed k hk hbit
    · rw [List.getElem?_set_ne hpc] at hm
      exact he.missed pc mask hm k hk hbit

/-- A word that holds neither before the instruction nor by it is missed on the way out. -/
theorem Missed.next {pc target k : Nat} {i : Instruction} (h : Missed instructions pc k)
    (hi : instructions[pc]? = some i) (hstore : ¬ (i.storesScratch ∧ i.k.toNat = k)) (ht : target ∈ successors pc i) :
    Missed instructions target k := by
  obtain ⟨visited, hpath, hnot⟩ := h
  refine ⟨pc :: visited, hpath.next hi ht, ?_⟩
  rw [storedOn_cons_iff hi]
  exact fun h => h.elim hstore hnot

theorem Exact.propagate {ε : Type} {table : Incoming} {pc : Nat} {i : Instruction} {initialized : BitVec 16}
    (hs : Structured instructions) (he : Exact instructions table) (hi : instructions[pc]? = some i)
    (hmissed : ∀ target ∈ successors pc i, ∀ k < 16, initialized.getLsbD k = false → Missed instructions target k) :
    ∃ table', propagateInitialized pc i initialized table = (.ok table' : Outcome ε Incoming) ∧
      Exact instructions table' := by
  have hlt : ∀ target ∈ successors pc i, target < instructions.length := fun target => hs.successors_lt hi
  unfold propagateInitialized
  unfold successors at hlt hmissed
  split
  case h_1 | h_2 => exact ⟨table, rfl, he⟩
  case h_3 hop =>
    simp only [hop] at hlt hmissed
    exact he.mergeAt (hlt _ (by simp)) (hmissed _ (by simp))
  case h_4 hop =>
    simp only [hop] at hlt hmissed
    obtain ⟨mid, hmid, he'⟩ := he.mergeAt (ε := ε) (hlt (pc + 1 + i.jt.toNat) (by simp)) (hmissed _ (by simp))
    obtain ⟨table', htable', he''⟩ := he'.mergeAt (ε := ε) (hlt (pc + 1 + i.jf.toNat) (by simp)) (hmissed _ (by simp))
    exact ⟨table', by rw [hmid, ok_bind]; exact htable', he''⟩
  case h_5 h1 h2 h3 h4 =>
    have hsucc : pc + 1 ∈ successors pc i := by
      unfold successors
      split <;> simp_all
    exact he.mergeAt (hs.successors_lt hi hsucc) (hmissed _ (by unfold successors at hsucc; exact hsucc))

theorem scratchBit_of_lt {ε : Type} {k : BitVec 32} (hk : k.toNat < scratchWords) :
    scratchBit k = (.ok (1#16 <<< k.toNat) : Outcome ε (BitVec 16)) := by
  have hk' : ¬ 16 ≤ k.toNat := Nat.not_le.mpr hk
  rw [scratchBit, if_neg hk']

theorem getLsbD_one_shiftLeft {k j : Nat} (hj : j < 16) : (1#16 <<< k).getLsbD j = decide (j = k) := by
  rw [BitVec.getLsbD_shiftLeft, BitVec.getLsbD_one]
  by_cases hjk : j = k
  · simp [hjk, hjk ▸ hj]
  · simp only [hjk, decide_false]
    by_cases hlt : j < k
    · simp [hlt]
    · simp [show j - k ≠ 0 from by omega]

theorem Structured.scratch_lt (hs : Structured instructions) {pc : Nat} {i : Instruction}
    (hi : instructions[pc]? = some i) (hop : i.loadsScratch ∨ i.storesScratch) : i.k.toNat < scratchWords := by
  have hc := hs.checked pc i hi
  by_contra hk
  rcases hop with (hop | hop) | hop | hop <;> simp [verifyInstruction, hop, Nat.not_lt.mp hk] at hc

/-- Where every path initializes, a load passes; what the instruction does not promise is
missed on every way out. -/
theorem Exact.touch {table : Incoming} {pc : Nat} {i : Instruction} {mask : BitVec 16} (hs : Structured instructions)
    (hp : PathsInitialize instructions) (he : Exact instructions table) (hi : instructions[pc]? = some i)
    (hmask : table[pc]? = some (some mask)) :
    ∃ out, touchScratch VerifyError.scratchUninitialized pc i mask = .ok out ∧
      ∀ target ∈ successors pc i, ∀ k < 16, out.getLsbD k = false → Missed instructions target k := by
  have hload : i.loadsScratch → mask &&& (1#16 <<< i.k.toNat) ≠ 0 := by
    intro hl hzero
    have hk := hs.scratch_lt hi (.inl hl)
    have hbit : mask.getLsbD i.k.toNat = false := by
      have hb := congrArg (fun v => v.getLsbD i.k.toNat) hzero
      simpa [BitVec.getLsbD_and, getLsbD_one_shiftLeft hk] using hb
    obtain ⟨visited, hpath, hnot⟩ := he.missed pc mask hmask i.k.toNat hk hbit
    exact hnot (hp visited pc i hpath hi hl)
  have hplain : ¬ i.storesScratch → ∀ target ∈ successors pc i, ∀ k < 16, mask.getLsbD k = false →
      Missed instructions target k := by
    intro hstore target ht k hk hbit
    exact (he.missed pc mask hmask k hk hbit).next hi (fun h => hstore h.1) ht
  unfold touchScratch
  split
  case h_1 hop | h_2 hop =>
    have hl : i.loadsScratch := by simp [Instruction.loadsScratch, hop]
    rw [scratchBit_of_lt (hs.scratch_lt hi (.inl hl)), ok_bind, if_neg (hload hl)]
    exact ⟨mask, rfl, hplain (by simp [Instruction.storesScratch, hop])⟩
  case h_3 hop | h_4 hop =>
    have hst : i.storesScratch := by simp [Instruction.storesScratch, hop]
    rw [scratchBit_of_lt (hs.scratch_lt hi (.inr hst)), ok_bind]
    refine ⟨_, rfl, ?_⟩
    intro target ht k hk hbit
    rw [BitVec.getLsbD_or, Bool.or_eq_false_iff, getLsbD_one_shiftLeft hk, decide_eq_false_iff_not] at hbit
    exact (he.missed pc mask hmask k hk hbit.1).next hi (fun h => hbit.2 h.2.symm) ht
  case h_5 h1 h2 h3 h4 =>
    exact ⟨mask, rfl, hplain fun hst => hst.elim h3 h4⟩

theorem Exact.scratchStep {table : Incoming} {pc : Nat} {i : Instruction} (hs : Structured instructions)
    (hp : PathsInitialize instructions) (he : Exact instructions table) (hi : instructions[pc]? = some i) :
    ∃ table', scratchStep VerifyError.scratchUninitialized pc i table = .ok table' ∧ Exact instructions table' := by
  have hlt : pc < table.length := he.length ▸ (List.getElem?_eq_some_iff.mp hi).1
  unfold ClassicBpf.scratchStep
  split
  case h_1 hnone =>
    rw [List.getElem?_eq_getElem hlt] at hnone
    cases hnone
  case h_2 => exact ⟨table, rfl, he⟩
  case h_3 mask hmask =>
    obtain ⟨out, hout, hmissed⟩ := he.touch hs hp hi hmask
    obtain ⟨table', htable', he'⟩ := he.propagate (ε := VerifyError) hs hi hmissed
    exact ⟨table', by rw [hout, ok_bind]; exact htable', he'⟩

/-- The table at the start: nothing is promised at the entry and no other slot is reached. -/
theorem exact_initial :
    Exact instructions ((List.replicate instructions.length none).set 0 (some 0)) := by
  refine ⟨by simp, ?_⟩
  intro pc mask hm k _ _
  by_cases hpc : 0 = pc
  · subst hpc
    exact ⟨[], .start, fun h => by obtain ⟨pc, hmem, -⟩ := h; cases hmem⟩
  · rw [List.getElem?_set_ne hpc, List.getElem?_replicate] at hm
    split at hm <;> cases hm

end Complete

/-- The single forward pass is exact: on a structurally valid program it accepts exactly when the
table can be allocated and every path stores into a scratch word before loading it. -/
theorem verifyScratchInitialization_iff (alloc : Nat → Bool) (instructions : List Instruction)
    (hs : verifyStructure instructions = .ok ()) :
    verifyScratchInitialization alloc instructions = .ok () ↔
      alloc instructions.length = true ∧ PathsInitialize instructions := by
  rw [verifyStructure_iff] at hs
  constructor
  · intro h
    obtain ⟨table, ha⟩ := verifyScratchInitialization_analysed h
    refine ⟨?_, ha.pathsInitialize⟩
    by_contra halloc
    rw [verifyScratchInitialization, if_pos (by simpa using halloc)] at h
    cases h
  · rintro ⟨halloc, hp⟩
    have hloop := forEnum_completes (ClassicBpf.scratchStep VerifyError.scratchUninitialized)
      (fun _ table => Exact instructions table) 0 instructions
      ((List.replicate instructions.length none).set 0 (some 0)) (by
        intro pc i table hi he
        rw [Nat.zero_add]
        exact he.scratchStep hs hp hi) exact_initial
    obtain ⟨table, htable, -⟩ := hloop
    rw [verifyScratchInitialization, if_neg (by simp [halloc]), initialIncoming,
      if_neg (Nat.pos_iff_ne_zero.mp hs.nonempty), ok_bind, htable, ok_bind]

def joinProgram : List Instruction :=
  [⟨0x15, 0, 1, 0⟩, ⟨0x02, 0, 0, 3⟩, ⟨0x03, 0, 0, 3⟩, ⟨0x60, 0, 0, 3⟩, ⟨0x16, 0, 0, 0⟩]

theorem verifyScratchInitialization_iff_joinProgram :
    verifyStructure joinProgram = .ok () ∧ PathsInitialize joinProgram :=
  ⟨by decide +kernel, ((verifyScratchInitialization_iff (fun _ => true) joinProgram (by decide +kernel)).mp
    (by decide +kernel)).2⟩

end TheKernel.ClassicBpf
