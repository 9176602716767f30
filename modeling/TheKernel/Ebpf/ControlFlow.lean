import TheKernel.Ebpf.Flow
import TheKernel.Ebpf.StepSpec

namespace TheKernel.Ebpf

open Outcome

theorem successors_sequential {x : Instruction} (i : Nat) (hj : x.opClass ≠ .jmp) (hj32 : x.opClass ≠ .jmp32) :
    successors x .basic i = .ok [i + 1] := by
  simp [successors, Instruction.isExit, hj, hj32]

theorem successors_wide {x : Instruction} {d : Decoded} (i : Nat) (hx : x.opClass = .ld)
    (hd : (∃ v, d = .wideImmediate v) ∨ ∃ m, d = .map m) : successors x d i = .ok [i + 2] := by
  rcases hd with ⟨v, rfl⟩ | ⟨m, rfl⟩ <;> simp [successors, Instruction.isExit, hx]

namespace Vm

variable {σ : Type} {env : Environment σ}

/-- A jump that goes on takes one of the edges the verifier linked. -/
theorem jump_next {vm vm' : Vm σ} {x : Instruction} {d : Decoded} {dst src : Register} {next : List Nat}
    (hj : x.opClass = .jmp ∨ x.opClass = .jmp32) (hs : successors x d vm.pc = .ok next)
    (h : vm.jump env x dst src = .ok (.next vm')) : vm'.program = vm.program ∧ vm'.pc ∈ next := by
  rw [jump] at h
  split at h
  · rw [bind_eq_ok] at h
    obtain ⟨v, _, h⟩ := h
    cases h
  · next hexit =>
      have hne : x.isExit = false := by simp [Instruction.isExit, hexit]
      rw [successors.eq_def, if_neg (by simp [hne]), if_pos hj] at hs
      split at h
      · next hcall =>
          rw [if_pos hcall] at hs
          obtain rfl := Outcome.ok.inj hs
          obtain ⟨declared, e, _, _, hreplaced | hh⟩ := call_ok h
          · obtain ⟨target, _, ht⟩ := hreplaced
            cases ht
          · obtain ⟨e', stack, v, _, _, ht⟩ := callHelper_ok hh
            cases ht
            exact ⟨rfl, List.mem_singleton.mpr rfl⟩
      · next hcall =>
          rw [if_neg hcall] at hs
          rw [bind_eq_ok] at h
          obtain ⟨taken, htaken, h⟩ := h
          cases h
          refine ⟨rfl, ?_⟩
          simp only at hs
          split at hs
          · cases hs
          · next hpos =>
              have htarget : vm.jumpTarget x = ((vm.pc : Int) + 1 + displacement x).toNat := by
                simp only [jumpTarget, if_neg hpos]
              split at hs
              · next hja =>
                  obtain rfl := Outcome.ok.inj hs
                  rw [jumpTaken, if_pos hja, ok.injEq] at htaken
                  simp [← htaken, htarget]
              · obtain rfl := Outcome.ok.inj hs
                cases taken with
                | true => simp [htarget]
                | false => simp

theorem execute_next {vm vm' : Vm σ} {x : Instruction} {d : Decoded} {dst src : Register} {next : List Nat}
    (hd : vm.program.decoded[vm.pc]? = some d) (hx : DecodedAs x d)
    (hs : successors x d vm.pc = .ok next) (h : vm.execute env x dst src = .ok (.next vm')) :
    vm'.program = vm.program ∧ vm'.pc ∈ next := by
  have sequential : x.opClass ≠ .ld → x.opClass ≠ .jmp → x.opClass ≠ .jmp32 → next = [vm.pc + 1] := by
    intro hld hj hj32
    have hb : d = .basic := by
      by_contra hb
      exact hld (hx.wide hb)
    rw [hb, successors_sequential vm.pc hj hj32, ok.injEq] at hs
    exact hs.symm
  rw [execute] at h
  cases hclass : x.opClass with
  | ld =>
      rw [hclass, bind_eq_ok] at h
      obtain ⟨vm₁, hl, h⟩ := h
      cases h
      rcases loadImmediate_ok hl with ⟨v, hv, rfl⟩ | ⟨m, hm, rfl⟩
      · rw [hd, Option.some.injEq] at hv
        rw [successors_wide vm.pc hclass (.inl ⟨v, hv⟩), ok.injEq] at hs
        exact ⟨rfl, hs ▸ List.mem_singleton.mpr rfl⟩
      · rw [hd, Option.some.injEq] at hm
        rw [successors_wide vm.pc hclass (.inr ⟨m, hm⟩), ok.injEq] at hs
        exact ⟨rfl, hs ▸ List.mem_singleton.mpr rfl⟩
  | alu | alu64 =>
      rw [hclass, bind_eq_ok] at h
      obtain ⟨vm₁, ha, h⟩ := h
      cases h
      obtain ⟨v, rfl, _⟩ := alu_ok ha
      rw [sequential (by simp [hclass]) (by simp [hclass]) (by simp [hclass])]
      exact ⟨rfl, List.mem_singleton.mpr rfl⟩
  | ldx =>
      rw [hclass, bind_eq_ok] at h
      obtain ⟨vm₁, hl, h⟩ := h
      cases h
      obtain ⟨hprog, hpc, _⟩ := memoryLoad_ok hl
      rw [sequential (by simp [hclass]) (by simp [hclass]) (by simp [hclass]), hpc]
      exact ⟨hprog, List.mem_singleton.mpr rfl⟩
  | st | stx =>
      rw [hclass, bind_eq_ok] at h
      obtain ⟨vm₁, hl, h⟩ := h
      cases h
      obtain ⟨hprog, hpc, _⟩ := memoryStore_ok hl
      rw [sequential (by simp [hclass]) (by simp [hclass]) (by simp [hclass]), hpc]
      exact ⟨hprog, List.mem_singleton.mpr rfl⟩
  | jmp =>
      rw [hclass] at h
      exact jump_next (.inl hclass) hs h
  | jmp32 =>
      rw [hclass] at h
      exact jump_next (.inr hclass) hs h

/-- Runs in which no tail call replaces the program, with the number of
instructions executed. -/
inductive Reached (env : Environment σ) (start : Vm σ) : Nat → Vm σ → Prop
  | zero : Reached env start 0 start
  | succ {n : Nat} {vm vm' : Vm σ} : Reached env start n vm → vm.step env = .ok (.next vm') →
      Reached env start (n + 1) vm'

theorem step_next {h : Helpers} {vm vm' : Vm σ} (hl : Linked h vm.program) (hon : OnInstruction vm.program vm.pc)
    (hs : vm.step env = .ok (.next vm')) :
    vm'.program = vm.program ∧ OnInstruction vm.program vm'.pc ∧
      (vm.program.policy.allowLoops = false → vm.pc < vm'.pc) := by
  obtain ⟨d, hd, hc⟩ := hon
  obtain ⟨x, dst, src, hx, _, he⟩ := step_ok hs
  obtain ⟨next, _, hsucc, hall⟩ := hl.successors vm.pc x d hx hd hc
  obtain ⟨hprog, hpc⟩ := execute_next hd (hl.decodedAs vm.pc x d hx hd hc) hsucc he
  exact ⟨hprog, hall vm'.pc hpc⟩

theorem reached_onInstruction {h : Helpers} {p : Program} (hl : Linked h p) (e : σ) {n : Nat} {vm : Vm σ}
    (hr : Reached env (new p e) n vm) :
    vm.program = p ∧ OnInstruction p vm.pc ∧ (p.policy.allowLoops = false → n ≤ vm.pc) := by
  induction hr with
  | zero =>
      exact ⟨rfl, hl.start, fun _ => Nat.zero_le _⟩
  | @succ n vm vm' _ hs ih =>
      obtain ⟨hprog, hon, hn⟩ := ih
      obtain ⟨hprog', hon', hlt⟩ := step_next (hprog ▸ hl) (hprog ▸ hon) hs
      rw [hprog] at hprog' hon' hlt
      refine ⟨hprog', hon', fun hloops => ?_⟩
      have := hn hloops
      have := hlt hloops
      omega

/-- The environment answers a request of this step with the error. -/
def Reports (env : Environment σ) (vm : Vm σ) (e : RuntimeError) : Prop :=
  (env.tailCall vm.env vm.arguments).2 = .err e ∨
    (∃ id, (env.call (env.tailCall vm.env vm.arguments).1 id vm.arguments vm.stack).2.2 = .err e) ∨
    ∃ c o width op, (env.atomic vm.env c o width op).2 = .err e

/-- The errors of the machine that are not about the program counter, and
those of the environment. -/
def Ordinary (env : Environment σ) (vm : Vm σ) (e : RuntimeError) : Prop :=
  e ≠ .invalidProgramCounter ∨ vm.Reports env e

section Errors

variable (env : Environment σ) (vm : Vm σ) (x : Instruction) (dst src : Register)

theorem scalar_ordinary : ErrIn (Ordinary env vm) (vm.scalar dst) := by
  rw [scalar]
  split <;> simp [Ordinary]

theorem cap_ordinary (off : BitVec 16) (width : Nat) (write : Bool) :
    ErrIn (Ordinary env vm) (vm.cap dst off width write) := by
  rw [cap]
  repeat' split
  all_goals simp [Ordinary]

theorem stackRead_ordinary (o w : Nat) : ErrIn (Ordinary env vm) (stackRead vm.stack o w) := by
  rw [stackRead]
  split <;> simp

theorem stackWrite_ordinary (o : Nat) (bytes : List (BitVec 8)) :
    ErrIn (Ordinary env vm) (stackWrite vm.stack o bytes) := by
  rw [stackWrite]
  split <;> simp

theorem aluScalar_ordinary : ErrIn (Ordinary env vm) (vm.aluScalar x dst src) := by
  have hresult : ∀ op wide a b, ErrIn (Ordinary env vm) (aluResult op wide a b) := by
    intro op wide a b
    cases op <;> simp [aluResult, Ordinary]
  have hoperand : ErrIn (Ordinary env vm) (vm.aluOperand x src) := by
    rw [aluOperand]
    split
    · exact scalar_ordinary env vm src
    · simp
  rw [aluScalar]
  refine errIn_bind hoperand (fun b _ => ?_)
  split
  · simp
  · exact errIn_bind (scalar_ordinary env vm dst) (fun a _ => by simp)
  · refine errIn_bind (scalar_ordinary env vm dst) (fun a _ => ?_)
    exact errIn_bind (hresult _ _ a b) (fun r _ => by simp)
  · exact errIn_bind (scalar_ordinary env vm dst) (fun a _ => by simp [Ordinary])

theorem alu_ordinary : ErrIn (Ordinary env vm) (vm.alu x dst src) := by
  have hendian : ∀ a, ErrIn (Ordinary env vm) (endianResult x a) := by
    intro a
    rw [endianResult]
    split <;> simp [Ordinary]
  rw [alu]
  split
  · simp [Ordinary]
  · split
    · refine errIn_bind (scalar_ordinary env vm dst) (fun a _ => ?_)
      exact errIn_bind (hendian a) (fun r _ => by simp)
    · split
      · repeat' split
        all_goals simp [Ordinary]
      · split
        · split
          · rw [addPointer]
            repeat' split
            all_goals simp [Ordinary]
          · exact aluScalar_ordinary env vm x dst src
        · exact aluScalar_ordinary env vm x dst src

theorem condition_ordinary : ErrIn (Ordinary env vm) (vm.condition x dst src) := by
  have hequal : ∀ a b, ErrIn (Ordinary env vm) (equalValues a b) := by
    intro a b
    rw [equalValues.eq_def]
    repeat' split
    all_goals simp [Ordinary]
  have hordered : ∀ a b, ErrIn (Ordinary env vm) (orderedValues a b) := by
    intro a b
    rw [orderedValues.eq_def]
    repeat' split
    all_goals simp [Ordinary]
  have hcompare : ∀ (w : Nat) (op : JumpOp) (a b : BitVec w), ErrIn (Ordinary env vm) (compare op a b) := by
    intro w op a b
    cases op <;> simp [compare, Ordinary]
  rw [condition]
  split
  · exact hequal _ _
  · exact errIn_bind (hequal _ _) (fun equal _ => by simp)
  · refine errIn_bind (hordered _ _) (fun p _ => ?_)
    obtain ⟨a, b⟩ := p
    simp only
    split
    · exact hcompare _ _ _ _
    · exact hcompare _ _ _ _
  · exact errIn_bind (hordered _ _) (fun p _ => by simp [Ordinary])

theorem load_ordinary : ErrIn (Ordinary env vm) (vm.load env x src) := by
  rw [load]
  refine errIn_bind (cap_ordinary env vm src _ _ _) (fun p _ => ?_)
  obtain ⟨c, o⟩ := p
  simp only
  split
  · simp
  · split
    · exact errIn_bind (stackRead_ordinary env vm _ _) (fun bytes _ => by simp)
    · split <;> simp [Ordinary]

theorem store_ordinary (v : BitVec 64) : ErrIn (Ordinary env vm) (vm.store env x dst v) := by
  rw [store]
  refine errIn_bind (cap_ordinary env vm dst _ _ _) (fun p _ => ?_)
  obtain ⟨c, o⟩ := p
  simp only
  split
  · exact errIn_bind (stackWrite_ordinary env vm _ _) (fun stack _ => by simp)
  · split <;> simp [Ordinary]

theorem atomic_ordinary : ErrIn (Ordinary env vm) (vm.atomic env x dst src) := by
  have hexchange : ∀ c o width op, ErrIn (Ordinary env vm) (vm.exchange env c o width op) := by
    intro c o width op
    rw [exchange]
    split
    · refine errIn_bind (stackRead_ordinary env vm _ _) (fun bytes _ => ?_)
      exact errIn_bind (stackWrite_ordinary env vm _ _) (fun stack _ => by simp)
    · refine errIn_bind ?_ (fun old _ => by simp)
      intro e he
      exact .inr (.inr (.inr ⟨c, o, width, op, he⟩))
  rw [atomic]
  refine errIn_bind (scalar_ordinary env vm src) (fun operand _ => ?_)
  split
  · simp [Ordinary]
  · have hexpected : ∀ code, ErrIn (Ordinary env vm) (vm.expected code) := by
      intro code
      rw [expected]
      split
      · exact scalar_ordinary env vm 0
      · simp
    refine errIn_bind (hexpected _) (fun expected _ => ?_)
    refine errIn_bind (cap_ordinary env vm dst _ _ _) (fun p _ => ?_)
    exact errIn_bind (hexchange _ _ _ _) (fun p _ => by simp)

theorem call_ordinary : ErrIn (Ordinary env vm) (vm.call env x) := by
  have hhelper : ∀ declared,
      ErrIn (Ordinary env vm) (vm.callHelper env x declared (env.tailCall vm.env vm.arguments).1) := by
    intro declared
    rw [callHelper]
    refine errIn_bind ?_ (fun v _ => ?_)
    · intro e he
      exact .inr (.inr (.inl ⟨x.imm, he⟩))
    · split <;> simp [Ordinary]
  rw [call]
  split
  · simp [Ordinary]
  · refine errIn_bind ?_ (fun target _ => ?_)
    · intro e he
      exact .inr (.inl he)
    · split
      · split
        · simp
        · exact hhelper _
      · exact hhelper _

theorem jump_ordinary : ErrIn (Ordinary env vm) (vm.jump env x dst src) := by
  rw [jump]
  split
  · exact errIn_bind (scalar_ordinary env vm 0) (fun v _ => by simp)
  · split
    · exact call_ordinary env vm x
    · refine errIn_bind ?_ (fun taken _ => by simp)
      rw [jumpTaken]
      split
      · simp
      · exact condition_ordinary env vm x dst src

theorem memoryStore_ordinary : ErrIn (Ordinary env vm) (vm.memoryStore env x dst src) := by
  rw [memoryStore]
  split
  · exact atomic_ordinary env vm x dst src
  · refine errIn_bind ?_ (fun v _ => errIn_bind (store_ordinary env vm x dst v) (fun vm _ => by simp))
    rw [storeOperand]
    split
    · simp
    · exact scalar_ordinary env vm src

theorem execute_ordinary : ErrIn (Ordinary env vm) (vm.execute env x dst src) := by
  have lift : ∀ y : Outcome RuntimeError (Vm σ), ErrIn (Ordinary env vm) y →
      ErrIn (Ordinary env vm) (y >>= fun vm => .ok (Turn.next vm)) := by
    intro y hy
    exact errIn_bind hy (fun vm _ => by simp)
  rw [execute]
  split
  · apply lift
    rw [loadImmediate]
    repeat' split
    all_goals simp [Ordinary]
  · exact lift _ (alu_ordinary env vm x dst src)
  · exact lift _ (alu_ordinary env vm x dst src)
  · apply lift
    rw [memoryLoad]
    split
    · simp [Ordinary]
    · exact errIn_bind (load_ordinary env vm x src) (fun p _ => by simp)
  · exact lift _ (memoryStore_ordinary env vm x dst src)
  · exact lift _ (memoryStore_ordinary env vm x dst src)
  · exact jump_ordinary env vm x dst src
  · exact jump_ordinary env vm x dst src

end Errors

/-- On an instruction of a linked program the fetch never fails. -/
theorem step_ordinary {h : Helpers} {vm : Vm σ} (hl : Linked h vm.program) (hon : OnInstruction vm.program vm.pc) :
    ErrIn (Ordinary env vm) (vm.step env) := by
  obtain ⟨d, hd, hc⟩ := hon
  have hlt : vm.pc < vm.program.instructions.length := hl.length ▸ (List.getElem?_eq_some_iff.mp hd).1
  rw [step, List.getElem?_eq_getElem hlt]
  simp only
  split
  · simp
  · exact execute_ordinary env vm _ _ _

def Unreplaced (env : Environment σ) (start : Vm σ) : Prop :=
  ∀ n vm vm', Reached env start n vm → vm.step env ≠ .ok (.replaced vm')

/-- How a run that replaces no program ends: at a reached state, or at the
limit. -/
theorem runCounted_cases {start : Vm σ} (hu : Unreplaced env start) (limit : Nat) :
    (∃ vm, Reached env start limit vm ∧ start.runCounted env limit = (.err .stepLimit, limit)) ∨
      (∃ n vm, n < limit ∧ Reached env start n vm ∧ (start.runCounted env limit).2 = n + 1 ∧
        ((∃ v, vm.step env = .ok (.finished v) ∧ (start.runCounted env limit).1 = .ok v) ∨
          (∃ e, vm.step env = .err e ∧ (start.runCounted env limit).1 = .err e) ∨
          (vm.step env = .panic ∧ (start.runCounted env limit).1 = .panic))) := by
  have go : ∀ left n vm, Reached env start n vm →
      (∃ vm', Reached env start (n + left) vm' ∧ vm.runCounted env left = (.err .stepLimit, left)) ∨
      (∃ k vm', k < left ∧ Reached env start (n + k) vm' ∧ (vm.runCounted env left).2 = k + 1 ∧
        ((∃ v, vm'.step env = .ok (.finished v) ∧ (vm.runCounted env left).1 = .ok v) ∨
          (∃ e, vm'.step env = .err e ∧ (vm.runCounted env left).1 = .err e) ∨
          (vm'.step env = .panic ∧ (vm.runCounted env left).1 = .panic))) := by
    intro left
    induction left with
    | zero => exact fun n vm hr => .inl ⟨vm, hr, rfl⟩
    | succ left ih =>
        intro n vm hr
        rw [runCounted]
        cases hs : vm.step env with
        | err e => exact .inr ⟨0, vm, Nat.succ_pos _, hr, rfl, .inr (.inl ⟨e, hs, rfl⟩)⟩
        | panic => exact .inr ⟨0, vm, Nat.succ_pos _, hr, rfl, .inr (.inr ⟨hs, rfl⟩)⟩
        | ok t =>
            cases t with
            | finished v => exact .inr ⟨0, vm, Nat.succ_pos _, hr, rfl, .inl ⟨v, hs, rfl⟩⟩
            | replaced vm' => exact absurd hs (hu n vm vm' hr)
            | next vm₁ =>
                have hadd : ∀ k, n + 1 + k = n + (k + 1) := by omega
                rcases ih (n + 1) vm₁ (.succ hr hs) with ⟨vm', hr', hrun⟩ | ⟨k, vm', hk, hr', hcount, hend⟩
                · exact .inl ⟨vm', hadd left ▸ hr', by simp only [hrun]; rfl⟩
                · exact .inr ⟨k + 1, vm', by omega, hadd k ▸ hr', congrArg (· + 1) hcount, hend⟩
  simpa only [Nat.zero_add] using go limit 0 start .zero

end Vm

def Vm.Stops {σ : Type} (env : Environment σ) (vm : Vm σ) : Prop :=
  ∀ t, vm.step env = .ok t → ∃ v, t = .finished v

/-- A verified program runs on its own instructions only: the counter always
stands on the first slot of one, so that an invalid counter is only ever
reported by the environment, and without loops a run is no longer than the
program. -/
theorem verified_control_flow {σ : Type} {instructions : List Instruction} {resolveFd : BitVec 32 → Option MapInfo}
    {h : Helpers} {policy : VerifyPolicy} {p : Program}
    (hv : Program.verify instructions resolveFd h policy = .ok p) (env : Environment σ) (e : σ)
    (hu : Vm.Unreplaced env (Vm.new p e)) :
    (∀ n vm, Vm.Reached env (Vm.new p e) n vm →
      vm.program = p ∧ vm.pc < p.instructions.length ∧ OnInstruction p vm.pc) ∧
    (∀ limit, (Vm.new p e).run env limit = .err .invalidProgramCounter →
      ∃ n vm, Vm.Reached env (Vm.new p e) n vm ∧ vm.Reports env .invalidProgramCounter) ∧
    (policy.allowLoops = false → ∀ limit,
      ((Vm.new p e).runCounted env limit).2 ≤ p.instructions.length ∧
      (p.instructions.length ≤ limit → ∃ n vm, Vm.Reached env (Vm.new p e) n vm ∧ vm.Stops env ∧
        ((Vm.new p e).runCounted env limit).2 = n + 1)) := by
  have hl := verify_linked hv
  have hpolicy : p.policy = policy := (verify_ok hv).2.1
  have hreach := fun {n vm} (hr : Vm.Reached env (Vm.new p e) n vm) => Vm.reached_onInstruction hl e hr
  have hlt : ∀ {pc}, OnInstruction p pc → pc < p.instructions.length := by
    rintro pc ⟨d, hd, _⟩
    exact hl.length ▸ (List.getElem?_eq_some_iff.mp hd).1
  refine ⟨?_, ?_, ?_⟩
  · intro n vm hr
    obtain ⟨hprog, hon, _⟩ := hreach hr
    exact ⟨hprog, hlt hon, hon⟩
  · intro limit hrun
    rw [Vm.run] at hrun
    rcases Vm.runCounted_cases hu limit with ⟨vm, _, hcount⟩ | ⟨n, vm, _, hr, _, hend⟩
    · rw [hcount] at hrun
      cases hrun
    · obtain ⟨hprog, hon, _⟩ := hreach hr
      rcases hend with ⟨v, _, hok⟩ | ⟨err, hstep, herr⟩ | ⟨_, hpanic⟩
      · rw [hrun] at hok
        cases hok
      · rw [hrun] at herr
        obtain rfl := Outcome.err.inj herr
        refine ⟨n, vm, hr, ?_⟩
        rcases Vm.step_ordinary (hprog ▸ hl) (hprog ▸ hon) _ hstep with hne | hrep
        · exact absurd rfl hne
        · exact hrep
      · rw [hrun] at hpanic
        cases hpanic
  · intro hloops limit
    have hbound : ∀ {n vm}, Vm.Reached env (Vm.new p e) n vm → n < p.instructions.length := by
      intro n vm hr
      obtain ⟨_, hon, hn⟩ := hreach hr
      exact Nat.lt_of_le_of_lt (hn (hpolicy ▸ hloops)) (hlt hon)
    rcases Vm.runCounted_cases hu limit with ⟨vm, hr, hcount⟩ | ⟨n, vm, _, hr, hcount, hend⟩
    · rw [hcount]
      have := hbound hr
      exact ⟨this.le, fun hle => absurd hle (by omega)⟩
    · rw [hcount]
      refine ⟨hbound hr, fun _ => ⟨n, vm, hr, ?_, rfl⟩⟩
      intro t ht
      rcases hend with ⟨v, hok, _⟩ | ⟨err, hstep, _⟩ | ⟨hpanic, _⟩
      · rw [hok] at ht
        exact ⟨v, (Outcome.ok.inj ht).symm⟩
      · rw [hstep] at ht
        cases ht
      · rw [hpanic] at ht
        cases ht

/-- `lddw r1, 7; stxdw [r10 - 8], r1; ldxdw r0, [r10 - 8]; jeq r0, 7, +1;
mov r0, 0; exit`. -/
def spill : List Instruction :=
  [⟨0x18, 0x01, 0, 7⟩, ⟨0x00, 0x00, 0, 0⟩, ⟨0x7b, 0x1a, -8, 0⟩, ⟨0x79, 0xa0, -8, 0⟩, ⟨0x15, 0x00, 1, 7⟩,
    ⟨0xb7, 0x00, 0, 0⟩, ⟨0x95, 0x00, 0, 0⟩]

def spillProgram : Program :=
  ⟨spill, [.wideImmediate 7, .continuation 0, .basic, .basic, .basic, .basic, .basic], .default, 0⟩

theorem spill_accepted : Program.verify spill (fun _ => none) noHelpers .default = .ok spillProgram := by
  decide +kernel

theorem verified_control_flow_spill :
    (∀ n vm, Vm.Reached bareEnvironment (Vm.new spillProgram ()) n vm → vm.pc < 7 ∧ OnInstruction spillProgram vm.pc) ∧
      (∀ limit, ((Vm.new spillProgram ()).runCounted bareEnvironment limit).2 ≤ 7) ∧
      (Vm.new spillProgram ()).runCounted bareEnvironment 7 = (.ok 7, 5) := by
  have hu : Vm.Unreplaced bareEnvironment (Vm.new spillProgram ()) := by
    intro n vm vm' _ hs
    obtain ⟨target, ht, _⟩ := Vm.step_replaced hs
    cases ht
  obtain ⟨hreach, _, hcount⟩ := verified_control_flow spill_accepted bareEnvironment () hu
  exact ⟨fun n vm hr => (hreach n vm hr).2, fun limit => (hcount rfl limit).1, by decide +kernel⟩

end TheKernel.Ebpf
