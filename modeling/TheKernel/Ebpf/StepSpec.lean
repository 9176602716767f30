import TheKernel.Ebpf.Vm

namespace TheKernel.Ebpf

open Outcome

namespace Vm

variable {σ : Type} {env : Environment σ}

theorem aluScalar_ok {vm vm' : Vm σ} {x : Instruction} {d src : Register} (h : vm.aluScalar x d src = .ok vm') :
    ∃ w, vm' = (vm.setReg d (.scalar w)).advance 1 := by
  rw [aluScalar, bind_eq_ok] at h
  obtain ⟨b, _, h⟩ := h
  split at h
  · exact ⟨_, (Outcome.ok.inj h).symm⟩
  · rw [bind_eq_ok] at h
    obtain ⟨a, _, h⟩ := h
    exact ⟨_, (Outcome.ok.inj h).symm⟩
  · rw [bind_eq_ok] at h
    obtain ⟨a, _, h⟩ := h
    rw [bind_eq_ok] at h
    obtain ⟨r, _, h⟩ := h
    exact ⟨_, (Outcome.ok.inj h).symm⟩
  · rw [bind_eq_ok] at h
    obtain ⟨a, _, h⟩ := h
    cases h

/-- An arithmetic instruction copies a register, moves a pointer, or leaves a
scalar. -/
theorem alu_ok {vm vm' : Vm σ} {x : Instruction} {d src : Register} (h : vm.alu x d src = .ok vm') :
    ∃ v, vm' = (vm.setReg d v).advance 1 ∧
      ((x.aluOp = some .mov ∧ x.isX = true ∧ v = vm.regs src) ∨
        (∃ c n, x.addsImmediate ∧ vm.regs d = .pointer c ∧ checkedAddI32 c.offset x.imm = some n ∧
          v = .pointer { c with offset := n }) ∨
        (¬ (x.aluOp = some .mov ∧ x.isX = true) ∧ ¬ (x.addsImmediate ∧ ∃ c, vm.regs d = .pointer c) ∧
          ∃ w, v = .scalar w)) := by
  rw [alu] at h
  split at h
  · cases h
  · split at h
    · next hend =>
        rw [bind_eq_ok] at h
        obtain ⟨a, _, h⟩ := h
        rw [bind_eq_ok] at h
        obtain ⟨r, _, h⟩ := h
        refine ⟨_, (Outcome.ok.inj h).symm, .inr (.inr ⟨?_, ?_, r, rfl⟩)⟩
        · simp [hend]
        · simp [Instruction.addsImmediate, hend]
    · split at h
      · next hmov =>
          refine ⟨vm.regs src, ?_, .inl ⟨hmov.1, hmov.2, rfl⟩⟩
          cases hs : vm.regs src with
          | pointer c =>
              simp only [hs] at h
              split at h
              · cases h
              · exact (Outcome.ok.inj h).symm
          | scalar v | map m | uninit =>
              simp only [hs] at h
              exact (Outcome.ok.inj h).symm
      · next hmov =>
          split at h
          · next hadd =>
              cases hd : vm.regs d with
              | pointer c =>
                  simp only [hd, addPointer] at h
                  split at h
                  · cases h
                  · next n hn =>
                      split at h
                      · cases h
                      · exact ⟨_, (Outcome.ok.inj h).symm, .inr (.inl ⟨c, n, hadd, rfl, hn, rfl⟩)⟩
              | scalar v | map m | uninit =>
                  simp only [hd] at h
                  obtain ⟨w, hw⟩ := aluScalar_ok h
                  exact ⟨_, hw, .inr (.inr ⟨hmov, by simp, w, rfl⟩)⟩
          · next hadd =>
              obtain ⟨w, hw⟩ := aluScalar_ok h
              exact ⟨_, hw, .inr (.inr ⟨hmov, fun ha => hadd ha.1, w, rfl⟩)⟩

theorem loadImmediate_ok {vm vm' : Vm σ} {dst : Register} (h : vm.loadImmediate dst = .ok vm') :
    (∃ v, vm.program.decoded[vm.pc]? = some (.wideImmediate v) ∧ vm' = (vm.setReg dst (.scalar v)).advance 2) ∨
      (∃ m, vm.program.decoded[vm.pc]? = some (.map m) ∧ vm' = (vm.setReg dst (.map m)).advance 2) := by
  rw [loadImmediate] at h
  split at h
  · cases h
  · split at h
    · cases h
    · next hd => exact .inl ⟨_, hd, (Outcome.ok.inj h).symm⟩
    · next hd => exact .inr ⟨_, hd, (Outcome.ok.inj h).symm⟩
    · cases h

def SameControl (vm vm' : Vm σ) : Prop := vm'.program = vm.program ∧ vm'.regs = vm.regs ∧ vm'.pc = vm.pc

theorem load_ok {vm vm' : Vm σ} {x : Instruction} {src : Register} {v : Value}
    (h : vm.load env x src = .ok (vm', v)) :
    SameControl vm vm' ∧ ∃ c o, vm.cap src x.off x.size false = .ok (c, o) ∧
      ((∃ e pointer, env.contextPointer vm.env c o x.size = (e, some pointer) ∧ v = .pointer pointer) ∨
        (∃ e w, env.contextPointer vm.env c o x.size = (e, none) ∧ v = .scalar w)) := by
  rw [load, bind_eq_ok] at h
  obtain ⟨⟨c, o⟩, hcap, h⟩ := h
  simp only at h
  split at h
  · next e pointer hp =>
      obtain ⟨rfl, rfl⟩ := Prod.mk.inj (Outcome.ok.inj h)
      exact ⟨⟨rfl, rfl, rfl⟩, c, o, hcap, .inl ⟨e, pointer, hp, rfl⟩⟩
  · next e hp =>
      split at h
      · rw [bind_eq_ok] at h
        obtain ⟨bytes, _, h⟩ := h
        obtain ⟨rfl, rfl⟩ := Prod.mk.inj (Outcome.ok.inj h)
        exact ⟨⟨rfl, rfl, rfl⟩, c, o, hcap, .inr ⟨e, _, hp, rfl⟩⟩
      · split at h
        · obtain ⟨rfl, rfl⟩ := Prod.mk.inj (Outcome.ok.inj h)
          exact ⟨⟨rfl, rfl, rfl⟩, c, o, hcap, .inr ⟨e, _, hp, rfl⟩⟩
        · cases h

theorem store_ok {vm vm' : Vm σ} {x : Instruction} {dst : Register} {v : BitVec 64}
    (h : vm.store env x dst v = .ok vm') : SameControl vm vm' := by
  rw [store, bind_eq_ok] at h
  obtain ⟨⟨c, o⟩, _, h⟩ := h
  simp only at h
  split at h
  · rw [bind_eq_ok] at h
    obtain ⟨stack, _, h⟩ := h
    obtain rfl := Outcome.ok.inj h
    exact ⟨rfl, rfl, rfl⟩
  · split at h
    · obtain rfl := Outcome.ok.inj h
      exact ⟨rfl, rfl, rfl⟩
    · cases h

theorem exchange_ok {vm vm' : Vm σ} {c : Capability} {o width : Nat} {op : AtomicOperation} {old : BitVec 64}
    (h : vm.exchange env c o width op = .ok (vm', old)) : SameControl vm vm' := by
  rw [exchange] at h
  split at h
  · rw [bind_eq_ok] at h
    obtain ⟨bytes, _, h⟩ := h
    rw [bind_eq_ok] at h
    obtain ⟨stack, _, h⟩ := h
    obtain ⟨rfl, _⟩ := Prod.mk.inj (Outcome.ok.inj h)
    exact ⟨rfl, rfl, rfl⟩
  · rw [bind_eq_ok] at h
    obtain ⟨old', _, h⟩ := h
    obtain ⟨rfl, _⟩ := Prod.mk.inj (Outcome.ok.inj h)
    exact ⟨rfl, rfl, rfl⟩

theorem writeBack_control (vm : Vm σ) (code : AtomicOperationCode) (fetch : Bool) (src : Register) (old : BitVec 64) :
    (vm.writeBack code fetch src old).program = vm.program ∧ (vm.writeBack code fetch src old).pc = vm.pc := by
  cases fetch <;> cases code <;> exact ⟨rfl, rfl⟩

theorem writeBack_regs (vm : Vm σ) (code : AtomicOperationCode) (fetch : Bool) (src : Register) (old : BitVec 64)
    (r : Register) :
    (vm.writeBack code fetch src old).regs r = vm.regs r ∨
      ((∃ w, (vm.writeBack code fetch src old).regs r = .scalar w) ∧
        (fetch = true ∧ r = src ∨ code = .compareExchange ∧ r = 0)) := by
  simp only [writeBack, setReg]
  by_cases h0 : code = .compareExchange ∧ r = 0
  · obtain ⟨rfl, rfl⟩ := h0
    exact .inr ⟨⟨old, by simp⟩, .inr ⟨rfl, rfl⟩⟩
  · by_cases hs : fetch = true ∧ r = src
    · obtain ⟨rfl, rfl⟩ := hs
      refine .inr ⟨⟨old, ?_⟩, .inl ⟨rfl, rfl⟩⟩
      by_cases hc : code = .compareExchange
      · have hr : r ≠ 0 := fun hr => h0 ⟨hc, hr⟩
        simp [hc, hr]
      · simp [hc]
    · left
      cases fetch <;> by_cases hc : code = .compareExchange <;> simp_all

/-- An atomic instruction may leave the old value in its source register and
in `R0`. -/
theorem atomic_ok {vm vm' : Vm σ} {x : Instruction} {dst src : Register} (h : vm.atomic env x dst src = .ok vm') :
    vm'.program = vm.program ∧ vm'.pc = vm.pc + 1 ∧
      ∃ code fetch, atomicEncoding x.imm = some (code, fetch) ∧
        ∀ r, vm'.regs r = vm.regs r ∨
          ((∃ w, vm'.regs r = .scalar w) ∧ (fetch = true ∧ r = src ∨ code = .compareExchange ∧ r = 0)) := by
  rw [atomic, bind_eq_ok] at h
  obtain ⟨operand, _, h⟩ := h
  split at h
  · cases h
  · next code fetch henc =>
      rw [bind_eq_ok] at h
      obtain ⟨expected, _, h⟩ := h
      rw [bind_eq_ok] at h
      obtain ⟨⟨c, o⟩, _, h⟩ := h
      rw [bind_eq_ok] at h
      obtain ⟨⟨vm₁, old⟩, hx, h⟩ := h
      obtain ⟨hprog, hregs, hpc⟩ := exchange_ok hx
      obtain rfl := Outcome.ok.inj h
      refine ⟨?_, ?_, code, fetch, henc, ?_⟩
      · rw [← hprog]
        exact (writeBack_control ..).1
      · rw [← hpc]
        exact congrArg (· + 1) (writeBack_control ..).2
      · intro r
        rw [← hregs]
        exact writeBack_regs ..

theorem memoryLoad_ok {vm vm' : Vm σ} {x : Instruction} {dst src : Register}
    (h : vm.memoryLoad env x dst src = .ok vm') :
    vm'.program = vm.program ∧ vm'.pc = vm.pc + 1 ∧ ∃ c o v, vm.cap src x.off x.size false = .ok (c, o) ∧
      vm'.regs = Function.update vm.regs dst v ∧
      ((∃ e pointer, env.contextPointer vm.env c o x.size = (e, some pointer) ∧ v = .pointer pointer) ∨
        (∃ e w, env.contextPointer vm.env c o x.size = (e, none) ∧ v = .scalar w)) := by
  rw [memoryLoad] at h
  split at h
  · cases h
  · rw [bind_eq_ok] at h
    obtain ⟨⟨vm₁, v⟩, hl, h⟩ := h
    obtain ⟨⟨hprog, hregs, hpc⟩, c, o, hcap, hv⟩ := load_ok hl
    obtain rfl := Outcome.ok.inj h
    refine ⟨hprog, congrArg (· + 1) hpc, c, o, v, hcap, ?_, hv⟩
    rw [← hregs]
    rfl

theorem memoryStore_ok {vm vm' : Vm σ} {x : Instruction} {dst src : Register}
    (h : vm.memoryStore env x dst src = .ok vm') :
    vm'.program = vm.program ∧ vm'.pc = vm.pc + 1 ∧
      (vm'.regs = vm.regs ∨ (x.opClass = .stx ∧ x.mode = modeAtomic ∧ vm.atomic env x dst src = .ok vm')) := by
  rw [memoryStore] at h
  split at h
  · next hatomic =>
      obtain ⟨hprog, hpc, _⟩ := atomic_ok h
      exact ⟨hprog, hpc, .inr ⟨hatomic.1, hatomic.2, h⟩⟩
  · rw [bind_eq_ok] at h
    obtain ⟨v, _, h⟩ := h
    rw [bind_eq_ok] at h
    obtain ⟨vm₁, hs, h⟩ := h
    obtain ⟨hprog, hregs, hpc⟩ := store_ok hs
    obtain rfl := Outcome.ok.inj h
    exact ⟨hprog, congrArg (· + 1) hpc, .inl hregs⟩

theorem callHelper_ok {vm : Vm σ} {x : Instruction} {declared : ReturnKind} {e : σ} {t : Turn σ}
    (h : vm.callHelper env x declared e = .ok t) :
    ∃ e' stack v, env.call e x.imm vm.arguments vm.stack = (e', stack, .ok v) ∧ matchesReturn v declared = true ∧
      t = .next ({ vm with env := e', stack := stack, regs := afterCall .uninit v vm.regs }.advance 1) := by
  rw [callHelper] at h
  split at h
  next e' stack result hcall =>
    rw [bind_eq_ok] at h
    obtain ⟨v, rfl, h⟩ := h
    split at h
    · next hm => exact ⟨e', stack, v, hcall, hm, (Outcome.ok.inj h).symm⟩
    · cases h

theorem call_ok {vm : Vm σ} {x : Instruction} {t : Turn σ} (h : vm.call env x = .ok t) :
    ∃ declared e, env.effects vm.env x.imm (fun n => helperArgumentFromValue (vm.arguments n)) = some declared ∧
      (env.tailCall vm.env vm.arguments).1 = e ∧
      ((∃ target, (env.tailCall vm.env vm.arguments).2 = .ok (some target) ∧
        t = .replaced (vm.replace target e)) ∨ vm.callHelper env x declared e = .ok t) := by
  rw [call] at h
  split at h
  · cases h
  · next declared hd =>
      rw [bind_eq_ok] at h
      obtain ⟨target, ht, h⟩ := h
      refine ⟨declared, _, hd, rfl, ?_⟩
      cases target with
      | none => exact .inr h
      | some target =>
          simp only at h
          split at h
          · exact .inl ⟨target, ht, (Outcome.ok.inj h).symm⟩
          · exact .inr h

theorem step_ok {vm : Vm σ} {t : Turn σ} (h : vm.step env = .ok t) :
    ∃ x dst src, vm.program.instructions[vm.pc]? = some x ∧ x.operands = some (dst, src) ∧
      vm.execute env x dst src = .ok t := by
  rw [step] at h
  split at h
  · cases h
  · next x hx =>
      split at h
      · cases h
      · next dst src hops => exact ⟨x, dst, src, hx, hops, h⟩

/-- Only a call replaces the program, by what `tail_call` returned. -/
theorem step_replaced {vm vm' : Vm σ} (h : vm.step env = .ok (.replaced vm')) :
    ∃ target, (env.tailCall vm.env vm.arguments).2 = .ok (some target) ∧
      vm' = vm.replace target (env.tailCall vm.env vm.arguments).1 := by
  obtain ⟨x, dst, src, _, _, he⟩ := step_ok h
  have hjump : vm.jump env x dst src = .ok (.replaced vm') := by
    rw [execute] at he
    cases hclass : x.opClass with
    | jmp | jmp32 =>
        rw [hclass] at he
        exact he
    | ld | ldx | st | stx | alu | alu64 =>
        rw [hclass, bind_eq_ok] at he
        obtain ⟨vm₁, _, he⟩ := he
        cases he
  rw [jump] at hjump
  split at hjump
  · rw [bind_eq_ok] at hjump
    obtain ⟨v, _, hjump⟩ := hjump
    cases hjump
  · split at hjump
    · obtain ⟨declared, e, _, rfl, ⟨target, ht, hreplaced⟩ | hh⟩ := call_ok hjump
      · cases hreplaced
        exact ⟨target, ht, rfl⟩
      · obtain ⟨_, _, _, _, _, ht⟩ := callHelper_ok hh
        cases ht
    · rw [bind_eq_ok] at hjump
      obtain ⟨taken, _, hjump⟩ := hjump
      cases hjump

end Vm

end TheKernel.Ebpf
