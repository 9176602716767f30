import TheKernel.Ebpf.ControlFlow
import TheKernel.Ebpf.Typing

namespace TheKernel.Ebpf

open Outcome

variable {σ : Type} {env : Environment σ}

def Accepted (h : Helpers) (p : Program) : Prop :=
  ∃ instructions resolveFd policy, Program.verify instructions resolveFd h policy = .ok p

/-- The condition on the state before a step: the program was accepted against
its helpers without a join of different types, the types flowing here pass the
missing operand checks, and the environment answers this step honestly. -/
structure Meets (helpersOf : Program → Helpers) (env : Environment σ) (vm : Vm σ) : Prop where
  accepted : Accepted (helpersOf vm.program) vm.program
  coherent : Coherent (helpersOf vm.program) vm.program
  checked : ∀ x dst src s, vm.program.instructions[vm.pc]? = some x → x.operands = some (dst, src) →
    Flow (helpersOf vm.program) vm.program vm.pc s → Checked x dst src s
  honest : ∀ x dst src s, vm.program.instructions[vm.pc]? = some x → x.operands = some (dst, src) →
    Flow (helpersOf vm.program) vm.program vm.pc s → Honest env (helpersOf vm.program) vm x dst src s

/-- The states of a run whose steps so far met the condition, tail calls
included. -/
inductive Path (helpersOf : Program → Helpers) (env : Environment σ) (start : Vm σ) : Vm σ → Prop
  | start : Path helpersOf env start start
  | next {vm vm' : Vm σ} : Path helpersOf env start vm → Meets helpersOf env vm →
      vm.step env = .ok (.next vm') → Path helpersOf env start vm'
  | replaced {vm vm' : Vm σ} : Path helpersOf env start vm → Meets helpersOf env vm →
      vm.step env = .ok (.replaced vm') → Path helpersOf env start vm'

/-- The registers have the types of the table that `verify_parts` computed. -/
def TypedAt (h : Helpers) (vm : Vm σ) : Prop :=
  ∃ a s, verifyParts h vm.program.policy vm.program.instructions vm.program.decoded = .ok a ∧
    a.state[vm.pc]? = some (some s) ∧ Typed s vm.regs

theorem accepted_table {h : Helpers} {p : Program} (ha : Accepted h p) (hc : Coherent h p) :
    Linked h p ∧ ∃ a, verifyParts h p.policy p.instructions p.decoded = .ok a ∧
      a.state[0]? = some (some (initialTypes p.policy)) ∧
      ∀ (i : Nat) s, a.state[i]? = some (some s) → Flow h p i s ∧ Closed h p a.state i s := by
  obtain ⟨instructions, resolveFd, policy, hv⟩ := ha
  have hl := verify_linked hv
  obtain ⟨_, _, a, ha⟩ := verify_ok hv
  obtain ⟨_, succ, _, hlink, _, _, han⟩ := verifyParts_ok ha
  exact ⟨hl, a, ha, analyse_closed hl hc hlink han⟩

theorem typedAt_initial {h : Helpers} {vm : Vm σ} (ha : Accepted h vm.program) (hc : Coherent h vm.program)
    (hpc : vm.pc = 0) (hregs : vm.regs = initialRegs vm.program.policy) : TypedAt h vm := by
  obtain ⟨_, a, hv, hstart, _⟩ := accepted_table ha hc
  exact ⟨a, _, hv, hpc ▸ hstart, hregs ▸ typed_initial _⟩

/-- What the verifier knows about the instruction at a typed state. -/
theorem typedAt_transfer {h : Helpers} {vm : Vm σ} (ha : Accepted h vm.program) (hc : Coherent h vm.program)
    (ht : TypedAt h vm) {x : Instruction} {dst src : Register}
    (hx : vm.program.instructions[vm.pc]? = some x) (hops : x.operands = some (dst, src)) :
    ∃ a s d out next, verifyParts h vm.program.policy vm.program.instructions vm.program.decoded = .ok a ∧
      Flow h vm.program vm.pc s ∧ Typed s vm.regs ∧ vm.program.decoded[vm.pc]? = some d ∧ DecodedAs x d ∧
      validOpcode h x d = true ∧ successors x d vm.pc = .ok next ∧
      transfer h vm.program.policy x d dst src s vm.pc = .ok out ∧
      (x.isExit = false → ∀ n ∈ next, a.state[n]? = some (some (refineNullCheck x dst out (takenEdge x vm.pc n)))) := by
  obtain ⟨hl, a, hv, _, hclosed⟩ := accepted_table ha hc
  obtain ⟨a', s, hv', hs, htyped⟩ := ht
  rw [hv, ok.injEq] at hv'
  subst hv'
  obtain ⟨hflow, hcl⟩ := hclosed vm.pc s hs
  obtain ⟨d, hd, hcont⟩ := flow_onInstruction hl hflow
  obtain ⟨next, hvalid, hsucc, _⟩ := hl.successors vm.pc x d hx hd hcont
  obtain ⟨out, htr, hall⟩ := hcl x d dst src hx hd hops
  exact ⟨a, s, d, out, next, hv, hflow, htyped, hd, hl.decodedAs vm.pc x d hx hd hcont, hvalid, hsucc, htr,
    fun hexit => hall hexit next hsucc⟩

/-- One step from a typed state that meets the condition leads to a typed
state. -/
theorem step_typedAt {helpersOf : Program → Helpers} {vm vm' : Vm σ} (hm : Meets helpersOf env vm)
    (ht : TypedAt (helpersOf vm.program) vm) (hs : vm.step env = .ok (.next vm')) :
    vm'.program = vm.program ∧ TypedAt (helpersOf vm.program) vm' := by
  obtain ⟨x, dst, src, hx, hops, he⟩ := Vm.step_ok hs
  obtain ⟨a, s, d, out, next, hv, hflow, htyped, hd, hda, _, hsucc, htr, hall⟩ :=
    typedAt_transfer hm.accepted hm.coherent ht hx hops
  obtain ⟨hprog, hmem⟩ := Vm.execute_next hd hda hsucc he
  have hexit : x.isExit = false := by
    by_contra hne
    rw [successors.eq_def, if_pos (Bool.eq_true_of_not_eq_false hne), ok.injEq] at hsucc
    rw [← hsucc] at hmem
    simp at hmem
  refine ⟨hprog, a, _, ?_, hall hexit vm'.pc hmem, ?_⟩
  · rw [hprog]
    exact hv
  · exact Vm.execute_typed htyped hd (hm.checked x dst src s hx hops hflow) (hm.honest x dst src s hx hops hflow)
      hsucc htr he

theorem step_tame {helpersOf : Program → Helpers} {vm : Vm σ} (hm : Meets helpersOf env vm)
    (ht : TypedAt (helpersOf vm.program) vm) {x : Instruction} (hx : vm.program.instructions[vm.pc]? = some x)
    (hg : Vm.Guarded x) : ErrIn Vm.Tame (vm.step env) := by
  rw [Vm.step, hx]
  simp only
  split
  · simp
  · next dst src hops =>
      obtain ⟨a, s, d, out, next, _, hflow, htyped, hd, _, hvalid, _, htr, _⟩ :=
        typedAt_transfer hm.accepted hm.coherent ht hx hops
      exact Vm.execute_tame htyped hd hvalid (hm.checked x dst src s hx hops hflow)
        (hm.honest x dst src s hx hops hflow) htr hg

theorem path_typedAt {helpersOf : Program → Helpers} {p : Program} {e : σ} {vm : Vm σ}
    (hp : Path helpersOf env (Vm.new p e) vm) (ha : Accepted (helpersOf vm.program) vm.program)
    (hc : Coherent (helpersOf vm.program) vm.program) : TypedAt (helpersOf vm.program) vm := by
  induction hp with
  | start => exact typedAt_initial ha hc rfl rfl
  | next _ hm hs ih =>
      obtain ⟨hprog, ht⟩ := step_typedAt hm (ih hm.accepted hm.coherent) hs
      rw [hprog]
      exact ht
  | replaced _ _ hs _ =>
      obtain ⟨target, _, rfl⟩ := Vm.step_replaced hs
      exact typedAt_initial ha hc rfl rfl

/-- A run that ends in an error does so at a state it reached. -/
theorem run_err {helpersOf : Program → Helpers} {start : Vm σ}
    (hall : ∀ vm, Path helpersOf env start vm → Meets helpersOf env vm) {err : RuntimeError}
    (hne : err ≠ .stepLimit) (limit : Nat) {vm : Vm σ} (hp : Path helpersOf env start vm)
    (hr : vm.run env limit = .err err) : ∃ vm', Path helpersOf env start vm' ∧ vm'.step env = .err err := by
  induction limit generalizing vm with
  | zero =>
      rw [Vm.run, Vm.runCounted, Outcome.err.injEq] at hr
      exact absurd hr.symm hne
  | succ limit ih =>
      rw [Vm.run, Vm.runCounted] at hr
      cases hs : vm.step env with
      | panic => simp [hs] at hr
      | err e =>
          simp only [hs, Outcome.err.injEq] at hr
          exact ⟨vm, hp, hr ▸ hs⟩
      | ok t =>
          cases t with
          | finished v => simp [hs] at hr
          | next vm' =>
              simp only [hs] at hr
              exact ih (.next hp (hall vm hp) hs) hr
          | replaced vm' =>
              simp only [hs] at hr
              exact ih (.replaced hp (hall vm hp) hs) hr

/-- Type soundness of the verifier where its joins lose nothing and the
operand checks it leaves out hold: in every state of a run that so far met the
condition the registers have the shapes of the verifier's table, and no load,
store, arithmetic, atomic or exit instruction fails on a type or a bound. -/
theorem accepted_run_sound (helpersOf : Program → Helpers) (env : Environment σ) (p : Program) (e : σ) :
    (∀ vm, Path helpersOf env (Vm.new p e) vm → Meets helpersOf env vm →
      TypedAt (helpersOf vm.program) vm ∧
        ∀ x, vm.program.instructions[vm.pc]? = some x → Vm.Guarded x →
          vm.step env ≠ .err .type ∧ vm.step env ≠ .err .bounds) ∧
    ((∀ vm, Path helpersOf env (Vm.new p e) vm → Meets helpersOf env vm) →
      ∀ limit err, p.execute env e limit = .err err → err = .type ∨ err = .bounds →
        ∃ vm, Path helpersOf env (Vm.new p e) vm ∧ vm.step env = .err err ∧
          ∀ x, vm.program.instructions[vm.pc]? = some x → ¬ Vm.Guarded x) := by
  have safe : ∀ vm, Path helpersOf env (Vm.new p e) vm → Meets helpersOf env vm →
      TypedAt (helpersOf vm.program) vm ∧
        ∀ x, vm.program.instructions[vm.pc]? = some x → Vm.Guarded x → ErrIn Vm.Tame (vm.step env) := by
    intro vm hp hm
    have ht := path_typedAt hp hm.accepted hm.coherent
    exact ⟨ht, fun x hx hg => step_tame hm ht hx hg⟩
  refine ⟨?_, ?_⟩
  · intro vm hp hm
    obtain ⟨ht, htame⟩ := safe vm hp hm
    refine ⟨ht, fun x hx hg => ⟨fun herr => ?_, fun herr => ?_⟩⟩
    · exact (htame x hx hg _ herr).1 rfl
    · exact (htame x hx hg _ herr).2 rfl
  · intro hall limit err hrun herr
    have hne : err ≠ .stepLimit := by
      rintro rfl
      rcases herr with herr | herr <;> cases herr
    obtain ⟨vm, hp, hs⟩ := run_err hall hne limit .start hrun
    refine ⟨vm, hp, hs, fun x hx hg => ?_⟩
    obtain ⟨htype, hbounds⟩ := (safe vm hp (hall vm hp)).2 x hx hg err hs
    rcases herr with herr | herr
    · exact htype herr
    · exact hbounds herr

def edges (h : Helpers) (p : Program) (i : Nat) (s : Types) : List (Nat × Types) :=
  match p.instructions[i]?, p.decoded[i]? with
  | some x, some d =>
      match x.operands with
      | none => []
      | some (dst, src) =>
          match transfer h p.policy x d dst src s i, successors x d i with
          | .ok out, .ok next =>
              if x.isExit then [] else next.map (fun n => (n, refineNullCheck x dst out (takenEdge x i n)))
          | _, _ => []
  | _, _ => []

/-- A list of entries that holds the first one and is closed under the edges
holds every flow. -/
theorem flow_mem {h : Helpers} {p : Program} {table : List (Nat × Types)} (hstart : (0, initialTypes p.policy) ∈ table)
    (hclosed : ∀ e ∈ table, ∀ e' ∈ edges h p e.1 e.2, e' ∈ table) {n : Nat} {s : Types} (hf : Flow h p n s) :
    (n, s) ∈ table := by
  induction hf with
  | start => exact hstart
  | @edge i n s out x d dst src next _ hx hd hops htr hexit hsucc hn ih =>
      refine hclosed _ ih _ ?_
      simp only [edges, hx, hd, hops, htr, hsucc, hexit, Bool.false_eq_true, if_false]
      exact List.mem_map.mpr ⟨n, hn, rfl⟩

/-- The bare environment has nothing to answer that the default policy could
hold against it. -/
theorem honest_bare {vm : Vm Unit} (hpolicy : vm.program.policy = .default) (x : Instruction) (dst src : Register)
    (s : Types) : Honest bareEnvironment noHelpers vm x dst src s where
  call _ _ _ heff := by cases heff
  declared _ _ _ _ _ hfield := by
    rw [hpolicy] at hfield
    cases hfield
  undeclared _ _ _ _ _ := rfl
  atomic _ _ _ _ _ _ := by
    constructor <;> intro h <;> cases h

/-- The types of `spill` after the wide load, and after the value is back from
the stack. -/
def spillWide : Types := Function.update (initialTypes .default) 1 .scalar

def spillBack : Types := Function.update spillWide 0 .scalar

def spillTable : List (Nat × Types) :=
  [(0, initialTypes .default), (2, spillWide), (3, spillWide), (4, spillBack), (5, spillBack), (6, spillBack)]

theorem flow_spill {n : Nat} {s : Types} (hf : Flow noHelpers spillProgram n s) : (n, s) ∈ spillTable :=
  flow_mem (by decide +kernel) (by decide +kernel) hf

theorem checked_spill {n : Nat} {s : Types} (hmem : (n, s) ∈ spillTable) {x : Instruction} {dst src : Register}
    (hx : spill[n]? = some x) (hops : x.operands = some (dst, src)) : Checked x dst src s := by
  have hmov : Instruction.aluOp ⟨0xb7, 0x00, 0, 0⟩ = some .mov := by decide
  simp only [spillTable, List.mem_cons, Prod.mk.injEq, List.not_mem_nil, or_false] at hmem
  obtain ⟨rfl, rfl⟩ | ⟨rfl, rfl⟩ | ⟨rfl, rfl⟩ | ⟨rfl, rfl⟩ | ⟨rfl, rfl⟩ | ⟨rfl, rfl⟩ := hmem <;>
    obtain rfl := Option.some.inj hx <;> obtain ⟨rfl, rfl⟩ := Prod.mk.inj (Option.some.inj hops)
  · constructor <;> exact fun h => absurd h (by decide)
  · refine ⟨?_, ?_, ?_, fun _ => by decide, fun _ h => absurd h (by decide), ?_⟩ <;>
      exact fun h => absurd h (by decide)
  · constructor <;> exact fun h => absurd h (by decide)
  · constructor <;> exact fun h => absurd h (by decide)
  · refine ⟨?_, fun _ h => absurd hmov h, fun _ h => absurd hmov h, ?_, ?_, ?_⟩ <;>
      exact fun h => absurd h (by decide)
  · refine ⟨fun _ => by decide, ?_, ?_, ?_, ?_, ?_⟩ <;> exact fun h => absurd h (by decide)

theorem meets_spill {vm : Vm Unit} (hprog : vm.program = spillProgram) :
    Meets (fun _ => noHelpers) bareEnvironment vm where
  accepted := ⟨spill, fun _ => none, .default, hprog ▸ spill_accepted⟩
  coherent := by
    rw [hprog]
    intro n s t hs ht
    have hone : ∀ e ∈ spillTable, ∀ e' ∈ spillTable, e.1 = e'.1 → e.2 = e'.2 := by decide +kernel
    exact hone _ (flow_spill hs) _ (flow_spill ht) rfl
  checked x dst src s hx hops hf := by
    rw [hprog] at hx hf
    exact checked_spill (flow_spill hf) hx hops
  honest x dst src s _ _ _ := honest_bare (by rw [hprog]; rfl) x dst src s

theorem path_spill {vm : Vm Unit} (hp : Path (fun _ => noHelpers) bareEnvironment (Vm.new spillProgram ()) vm) :
    vm.program = spillProgram := by
  induction hp with
  | start => rfl
  | next hp hm hs ih =>
      have ht := path_typedAt hp hm.accepted hm.coherent
      exact (step_typedAt hm ht hs).1.trans ih
  | replaced _ _ hs _ =>
      obtain ⟨target, ht, _⟩ := Vm.step_replaced hs
      cases ht

/-- The wide load, the store, the load and the jump of `spill` run without a
type or bounds error, in every state of its run. -/
theorem accepted_run_sound_spill :
    spillProgram.execute bareEnvironment () 1000 = .ok 7 ∧
      ∀ vm, Path (fun _ => noHelpers) bareEnvironment (Vm.new spillProgram ()) vm →
        TypedAt noHelpers vm ∧ ∀ x, vm.program.instructions[vm.pc]? = some x → Vm.Guarded x →
          vm.step bareEnvironment ≠ .err .type ∧ vm.step bareEnvironment ≠ .err .bounds := by
  refine ⟨by decide +kernel, fun vm hp => ?_⟩
  exact (accepted_run_sound (fun _ => noHelpers) bareEnvironment spillProgram ()).1 vm hp (meets_spill (path_spill hp))

/-- A lone `exit`, which `transfer` accepts with `R0` uninitialized. -/
def bareExit : List Instruction := [⟨0x95, 0, 0, 0⟩]

def bareExitProgram : Program := ⟨bareExit, [.basic], .default, 0⟩

theorem bareExit_accepted_fails :
    Program.verify bareExit (fun _ => none) noHelpers .default = .ok bareExitProgram ∧
      bareExitProgram.execute bareEnvironment () 1000 = .err .type ∧
      (Vm.new bareExitProgram ()).step bareEnvironment = .err .type ∧ Vm.Guarded ⟨0x95, 0, 0, 0⟩ :=
  ⟨by decide +kernel, by decide +kernel, rfl, .inr (by decide)⟩

end TheKernel.Ebpf
