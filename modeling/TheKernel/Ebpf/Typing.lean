import TheKernel.Ebpf.Flow
import TheKernel.Ebpf.StepSpec

namespace TheKernel.Ebpf

open Outcome

/-- A capability with the region and offset of a pointer type, at least its
length, and writable where the type is. -/
def Grants (region : MemoryRegion) (offset length : BitVec 32) (writable : Bool) (c : Capability) : Prop :=
  c.region = region ∧ c.offset = offset ∧ length ≤ c.length ∧ (writable = true → c.writable = true)

def Shape : Ty → Value → Prop
  | .uninit, v => v = .uninit
  | .scalar, v => ∃ w, v = .scalar w
  | .map m, v => v = .map m
  | .ptr region offset length writable, v => ∃ c, v = .pointer c ∧ Grants region offset length writable c
  | .ptrOrNull region offset length writable, v =>
      v = .scalar 0 ∨ ∃ c, v = .pointer c ∧ Grants region offset length writable c

def Typed (s : Types) (regs : Register → Value) : Prop := ∀ r, Shape (s r) (regs r)

theorem typed_update {s : Types} {regs : Register → Value} (h : Typed s regs) {d : Register} {t : Ty} {v : Value}
    (hv : Shape t v) : Typed (Function.update s d t) (Function.update regs d v) := by
  intro r
  rcases eq_or_ne r d with rfl | hr
  · simpa using hv
  · simpa [hr] using h r

theorem typed_initial (policy : VerifyPolicy) : Typed (initialTypes policy) (initialRegs policy) := by
  intro r
  rw [initialTypes, initialRegs]
  split
  · exact ⟨_, rfl, rfl, rfl, BitVec.le_refl _, id⟩
  · split
    · exact ⟨_, rfl, rfl, rfl, BitVec.le_refl _, id⟩
    · rfl

/-- The operand checks that soundness needs and `transfer` leaves out, at an
instruction with register types `s`. -/
structure Checked (x : Instruction) (dst src : Register) (s : Types) : Prop where
  exit : x.isExit = true → s 0 = .scalar
  aluDst : x.opClass = .alu ∨ x.opClass = .alu64 → x.aluOp ≠ some .mov →
    s dst = .scalar ∨ x.addsImmediate ∧ ∃ region offset length writable, s dst = .ptr region offset length writable
  aluSrc : x.opClass = .alu ∨ x.opClass = .alu64 → x.aluOp ≠ some .mov → x.aluOp ≠ some .endian → x.isX = true →
    s src = .scalar
  store : x.opClass = .stx → s src = .scalar
  fetch : x.opClass = .stx → x.mode = modeAtomic → (atomicEncoding x.imm).any (fun e => e.2) = true → s 0 = .scalar
  nullCheck : isNullCheck x →
    (∃ region offset length writable, s dst = .ptrOrNull region offset length writable) → x.off ≠ 0

/-- What the answers of the environment in this step have to respect. -/
structure Honest {σ : Type} (env : Environment σ) (h : Helpers) (vm : Vm σ) (x : Instruction) (dst src : Register)
    (s : Types) : Prop where
  call : x.jumpOp = some .call → ∀ kind v, h.effects x.imm (fun n => helperArgument (s (argRegister n))) = some kind →
    (env.call (env.tailCall vm.env vm.arguments).1 x.imm vm.arguments vm.stack).2.2 = .ok v →
    Shape (returnTy kind) v
  declared : x.opClass = .ldx → ∀ c o field, vm.cap src x.off x.size false = .ok (c, o) →
    fieldAt vm.program.policy c.region (some (BitVec.ofNat 32 o)) x.size = some field →
    ∃ c', (env.contextPointer vm.env c o x.size).2 = some c' ∧ Grants field.region 0 field.maxLength field.writable c'
  undeclared : x.opClass = .ldx → ∀ c o, vm.cap src x.off x.size false = .ok (c, o) →
    fieldAt vm.program.policy c.region (some (BitVec.ofNat 32 o)) x.size = none →
    (env.contextPointer vm.env c o x.size).2 = none
  atomic : x.opClass = .stx → x.mode = modeAtomic → ∀ c o op, vm.cap dst x.off x.size true = .ok (c, o) →
    (env.atomic vm.env c o x.size op).2 ≠ .err .type ∧ (env.atomic vm.env c o x.size op).2 ≠ .err .bounds

theorem accessStart_mono {base length length' : BitVec 32} {off : BitVec 16} {width : Nat} {start : BitVec 32}
    (h : accessStart base length off width = some start) (hle : length ≤ length') :
    accessStart base length' off width = some start := by
  rw [accessStart] at h ⊢
  cases hs : checkedAddI32 base (off.signExtend 32) with
  | none => simp [hs] at h
  | some a =>
      cases he : checkedAddI32 a (BitVec.ofNat 32 width) with
      | none => simp [hs, he] at h
      | some b =>
          simp only [hs, he, Option.bind_eq_bind, Option.bind_some] at h ⊢
          split at h
          · cases h
          · next hn =>
              rw [if_neg]
              · exact h
              · rintro (hneg | hlt)
                · exact hn (.inl hneg)
                · exact hn (.inr (BitVec.lt_def.mpr (Nat.lt_of_le_of_lt (BitVec.le_def.mp hle) (BitVec.lt_def.mp hlt))))

theorem accessStart_start {base length : BitVec 32} {off : BitVec 16} {width : Nat} {start : BitVec 32}
    (h : accessStart base length off width = some start) :
    checkedAddI32 base (off.signExtend 32) = some start ∧ start.slt 0 = false := by
  rw [accessStart] at h
  cases hs : checkedAddI32 base (off.signExtend 32) with
  | none => simp [hs] at h
  | some a =>
      cases he : checkedAddI32 a (BitVec.ofNat 32 width) with
      | none => simp [hs, he] at h
      | some b =>
          simp only [hs, he, Option.bind_eq_bind, Option.bind_some] at h
          split at h
          · cases h
          · next hn =>
              obtain rfl := Option.some.inj h
              exact ⟨rfl, Bool.eq_false_iff.mpr (fun hneg => hn (.inl hneg))⟩

namespace Vm

variable {σ : Type} {env : Environment σ} {h : Helpers} {s out : Types} {x : Instruction} {dst src : Register}

theorem scalar_typed {vm : Vm σ} (ht : Typed s vm.regs) {r : Register} (hr : s r = .scalar) :
    ∃ w, vm.scalar r = .ok w := by
  have hshape := ht r
  rw [hr] at hshape
  obtain ⟨w, hw⟩ := hshape
  exact ⟨w, by rw [scalar, hw]⟩

theorem alu_typed {vm vm' : Vm σ} {i : Nat} (ht : Typed s vm.regs) (hx : x.opClass = .alu ∨ x.opClass = .alu64)
    (hc : Checked x dst src s) (htr : transferAlu x dst src s i = .ok out) (hs : vm.alu x dst src = .ok vm') :
    Typed out vm'.regs := by
  obtain ⟨v, rfl, hv⟩ := alu_ok hs
  rw [transferAlu] at htr
  split at htr
  · next hmov =>
      split at htr
      · cases htr
      · obtain rfl := Outcome.ok.inj htr
        apply typed_update ht
        rcases hv with ⟨_, hisx, rfl⟩ | ⟨c, n, hadd, _⟩ | ⟨hnot, _, w, rfl⟩
        · rw [if_pos hisx]
          exact ht src
        · rw [hadd.2.1] at hmov
          cases hmov
        · rw [if_neg (fun hisx => hnot ⟨hmov, hisx⟩)]
          exact ⟨w, rfl⟩
  · next hmov =>
      split at htr
      · cases htr
      · rcases hc.aluDst hx hmov with hd | ⟨hadd, region, offset, length, writable, hd⟩
        · simp only [hd] at htr
          obtain rfl := Outcome.ok.inj htr
          apply typed_update ht
          rcases hv with ⟨hm, _⟩ | ⟨c, n, _, hp, _⟩ | ⟨_, _, w, rfl⟩
          · exact absurd hm hmov
          · have hshape := ht dst
            rw [hd, hp] at hshape
            obtain ⟨w, hw⟩ := hshape
            cases hw
          · exact ⟨w, rfl⟩
        · have hshape := ht dst
          rw [hd] at hshape
          obtain ⟨c, hc', hregion, hoffset, hlength, hwrite⟩ := hshape
          simp only [hd] at htr
          rw [if_pos hadd] at htr
          rcases hv with ⟨hm, _⟩ | ⟨c₁, n, _, hp, hn, rfl⟩ | ⟨_, hnot, _⟩
          · exact absurd hm hmov
          · rw [hc', Value.pointer.injEq] at hp
            subst hp
            rw [← hoffset, hn] at htr
            simp only at htr
            split at htr
            · cases htr
            · obtain rfl := Outcome.ok.inj htr
              apply typed_update ht
              exact ⟨_, rfl, hregion, rfl, hlength, hwrite⟩
          · exact absurd ⟨hadd, c, hc'⟩ hnot

/-- A pointer type that passed `check_access` makes `cap` succeed. -/
theorem cap_typed {vm : Vm σ} (ht : Typed s vm.regs) {r : Register} {region : MemoryRegion}
    {offset length : BitVec 32} {writable w : Bool} (hr : s r = .ptr region offset length writable)
    (hw : w = true → writable = true) {i : Nat}
    (hacc : checkAccess offset length x.off x.size i = .ok ()) :
    ∃ c start, vm.cap r x.off x.size w = .ok (c, start.toNat) ∧
      Grants region offset length writable c ∧ accessStart offset length x.off x.size = some start := by
  have hshape := ht r
  rw [hr] at hshape
  obtain ⟨c, hc, hgrants⟩ := hshape
  rw [checkAccess] at hacc
  split at hacc
  · next hsome =>
      obtain ⟨start, hstart⟩ := Option.isSome_iff_exists.mp hsome
      refine ⟨c, start, ?_, hgrants, hstart⟩
      obtain ⟨hregion, hoffset, hlength, hwrite⟩ := hgrants
      rw [cap, hc]
      simp only
      rw [if_neg, hoffset, accessStart_mono hstart hlength]
      rintro ⟨hwr, hro⟩
      rw [hwrite (hw hwr)] at hro
      cases hro
  · cases hacc

theorem memoryLoad_typed {vm vm' : Vm σ} {i : Nat} (ht : Typed s vm.regs) (hx : x.opClass = .ldx)
    (hh : Honest env h vm x dst src s)
    (htr : transferLoad vm.program.policy x dst src s i = .ok out) (hs : vm.memoryLoad env x dst src = .ok vm') :
    Typed out vm'.regs := by
  obtain ⟨_, _, c, o, v, hcap, hregs, hv⟩ := memoryLoad_ok hs
  rw [transferLoad] at htr
  cases hsrc : s src with
  | uninit | scalar | map m | ptrOrNull r a b w => simp [hsrc] at htr
  | ptr region offset length writable =>
      simp only [hsrc] at htr
      rw [bind_eq_ok] at htr
      obtain ⟨_, hacc, htr⟩ := htr
      obtain ⟨c', start, hcap', hgrants, hstart⟩ :=
        cap_typed (w := false) ht hsrc (fun hf => by cases hf) hacc
      rw [hcap, ok.injEq, Prod.mk.injEq] at hcap'
      obtain ⟨rfl, rfl⟩ := hcap'
      obtain rfl := Outcome.ok.inj htr
      obtain ⟨hadd, hpos⟩ := accessStart_start hstart
      have hfield : (checkedAddI32 offset (x.off.signExtend 32)).filter (fun o => o.slt 0 = false) =
          some (BitVec.ofNat 32 start.toNat) := by
        simpa [hadd] using hpos
      rw [hregs, hfield]
      apply typed_update ht
      rw [← hgrants.1]
      cases hf : fieldAt vm.program.policy c.region (some (BitVec.ofNat 32 start.toNat)) x.size with
      | none =>
          have hnone := hh.undeclared hx c _ hcap hf
          rcases hv with ⟨e, pointer, hp, _⟩ | ⟨e, w, _, rfl⟩
          · rw [hp] at hnone
            cases hnone
          · exact ⟨w, rfl⟩
      | some field =>
          obtain ⟨c', hsome, hg⟩ := hh.declared hx c _ field hcap hf
          rcases hv with ⟨e, pointer, hp, rfl⟩ | ⟨e, w, hp, _⟩
          · rw [hp, Option.some.injEq] at hsome
            subst hsome
            exact ⟨_, rfl, hg⟩
          · rw [hp] at hsome
            cases hsome

theorem memoryStore_typed {vm vm' : Vm σ} {i : Nat} (ht : Typed s vm.regs) (hc : Checked x dst src s)
    (htr : transferStore x dst src s i = .ok out) (hs : vm.memoryStore env x dst src = .ok vm') :
    Typed out vm'.regs := by
  obtain ⟨_, _, hregs⟩ := memoryStore_ok hs
  rw [transferStore] at htr
  cases hdst : s dst with
  | uninit | scalar | map m | ptrOrNull r a b w => simp [hdst] at htr
  | ptr region offset length writable =>
      simp only [hdst] at htr
      split at htr
      · cases htr
      · split at htr
        · cases htr
        · rw [bind_eq_ok] at htr
          obtain ⟨_, _, htr⟩ := htr
          split at htr
          · next hatomic =>
              split at htr
              · cases htr
              · next hscalars =>
                  simp only [not_or, not_not, not_and] at hscalars
                  have hout : out = s := by
                    split at htr
                    · next hfetch =>
                        obtain rfl := Outcome.ok.inj htr
                        rw [← hc.fetch hatomic.1 hatomic.2 hfetch, Function.update_eq_self]
                    · exact (Outcome.ok.inj htr).symm
                  rw [hout]
                  rcases hregs with hregs | ⟨_, _, ha⟩
                  · rw [hregs]
                    exact ht
                  · obtain ⟨_, _, code, fetch, henc, hall⟩ := atomic_ok ha
                    intro r
                    rcases hall r with hr | ⟨⟨w, hw⟩, ⟨_, rfl⟩ | ⟨rfl, rfl⟩⟩
                    · rw [hr]
                      exact ht r
                    · rw [hscalars.1, hw]
                      exact ⟨w, rfl⟩
                    · rw [hscalars.2 (by simp [henc]), hw]
                      exact ⟨w, rfl⟩
          · next hatomic =>
              obtain rfl := Outcome.ok.inj htr
              rcases hregs with hregs | ⟨hstx, hmode, _⟩
              · rw [hregs]
                exact ht
              · exact absurd ⟨hstx, hmode⟩ hatomic

theorem callHelper_typed {vm vm' : Vm σ} {i : Nat} {declared : ReturnKind} (ht : Typed s vm.regs)
    (hx : x.jumpOp = some .call) (hh : Honest env h vm x dst src s) (htr : transferCall h x s i = .ok out)
    (hs : vm.callHelper env x declared (env.tailCall vm.env vm.arguments).1 = .ok (.next vm')) :
    Typed out vm'.regs := by
  obtain ⟨e, stack, v, hcall, _, hvm⟩ := callHelper_ok hs
  cases hvm
  rw [transferCall] at htr
  split at htr
  · cases htr
  · split at htr
    · split at htr
      · cases htr
      · next kind hkind =>
          obtain rfl := Outcome.ok.inj htr
          have hv : Shape (returnTy kind) v := hh.call hx kind v hkind (by rw [hcall])
          intro r
          show Shape (afterCall .uninit (returnTy kind) s r) (afterCall .uninit v vm.regs r)
          rw [afterCall, afterCall]
          split
          · exact hv
          · split
            · rfl
            · exact ht r
    · cases htr

/-- The outcome of a null check tells a pointer from null. -/
theorem condition_null {vm : Vm σ} {taken : Bool} (hk : x.isX = false) (himm : x.imm = 0)
    (hop : x.jumpOp = some .jeq ∨ x.jumpOp = some .jne) (hcond : vm.condition x dst src = .ok taken) :
    (vm.regs dst = .scalar 0 → taken = decide (x.jumpOp = some .jeq)) ∧
      (∀ c, vm.regs dst = .pointer c → taken = decide (x.jumpOp = some .jne)) := by
  have hzero : (if x.opClass = .jmp then x.imm.signExtend 64 else x.imm.setWidth 64) = 0 := by
    rw [himm]
    split <;> decide
  simp only [condition, hk, Bool.false_eq_true, if_false, hzero] at hcond
  rcases hop with hop | hop
  · simp only [hop] at hcond ⊢
    constructor
    · intro hz
      simpa [hz, equalValues, eq_comm] using hcond
    · intro c hp
      simpa [hp, equalValues, eq_comm] using hcond
  · simp only [hop] at hcond ⊢
    constructor
    · intro hz
      simpa [hz, equalValues, eq_comm] using hcond
    · intro c hp
      simpa [hp, equalValues, eq_comm] using hcond

/-- Away from offset zero the flag of `refine_null_check` is the outcome of
the condition. -/
theorem takenEdge_eq {vm : Vm σ} {d : Decoded} {next : List Nat} (hx : x.opClass = .jmp ∨ x.opClass = .jmp32)
    (hexit : x.jumpOp ≠ some .exit) (hcall : x.jumpOp ≠ some .call) (hja : x.jumpOp ≠ some .ja)
    (hsucc : successors x d vm.pc = .ok next) (hoff : x.off ≠ 0) (taken : Bool) :
    takenEdge x vm.pc (if taken then vm.jumpTarget x else vm.pc + 1) = taken := by
  have hdisp : displacement x = x.off.toInt := by simp [displacement, hja]
  have hne : x.isExit = false := by simp [Instruction.isExit, hexit]
  rw [successors.eq_def, if_neg (by simp [hne]), if_pos hx, if_neg hcall] at hsucc
  simp only at hsucc
  split at hsucc
  · cases hsucc
  · next hpos =>
      rw [hdisp] at hpos
      cases taken with
      | true =>
          simp only [takenEdge, jumpTarget, hdisp, if_true, if_neg hpos, decide_eq_true_eq]
          omega
      | false =>
          have hint : x.off.toInt ≠ 0 := by
            intro hz
            exact hoff (BitVec.eq_of_toInt_eq (by simpa using hz))
          simp only [takenEdge, Bool.false_eq_true, if_false, decide_eq_false_iff_not]
          omega

/-- A jump that goes on leaves registers of the types its edge carries. -/
theorem jump_typed {vm vm' : Vm σ} {d : Decoded} {next : List Nat} (ht : Typed s vm.regs)
    (hx : x.opClass = .jmp ∨ x.opClass = .jmp32) (hc : Checked x dst src s) (hh : Honest env h vm x dst src s)
    (hsucc : successors x d vm.pc = .ok next) (htr : transferJump h x dst src s vm.pc = .ok out)
    (hs : vm.jump env x dst src = .ok (.next vm')) :
    Typed (refineNullCheck x dst out (takenEdge x vm.pc vm'.pc)) vm'.regs := by
  rw [jump] at hs
  split at hs
  · rw [bind_eq_ok] at hs
    obtain ⟨v, _, hs⟩ := hs
    cases hs
  · next hexit =>
      rw [transferJump] at htr
      split at hs
      · next hcall =>
          rw [if_pos hcall] at htr
          obtain ⟨declared, e, _, rfl, ⟨target, _, hr⟩ | hh'⟩ := call_ok hs
          · cases hr
          · rw [refineNullCheck, if_neg (by simp [hcall])]
            exact callHelper_typed ht hcall hh htr hh'
      · next hcall =>
          rw [if_neg hcall] at htr
          have hout : out = s := by
            split at htr
            · cases htr
            · exact (Outcome.ok.inj htr).symm
          subst hout
          rw [bind_eq_ok] at hs
          obtain ⟨taken, htaken, hs⟩ := hs
          cases hs
          rw [refineNullCheck]
          split
          · next hnull =>
              have hkeep := hnull
              obtain ⟨_, hk, himm, hop⟩ := hkeep
              split
              · next region offset length writable hty =>
                  have hja : x.jumpOp ≠ some .ja := by rcases hop with hop | hop <;> simp [hop]
                  have hedge := takenEdge_eq hx hexit hcall hja hsucc (hc.nullCheck hnull ⟨_, _, _, _, hty⟩) taken
                  rw [jumpTaken, if_neg hja] at htaken
                  obtain ⟨hz, hp⟩ := condition_null hk himm hop htaken
                  simp only [hedge]
                  have hshape := ht dst
                  rw [hty] at hshape
                  rcases hshape with hzero | ⟨c, hpointer, hg⟩
                  · rw [if_neg]
                    · rw [← Function.update_eq_self dst vm.regs]
                      exact typed_update ht ⟨0, hzero⟩
                    · rw [hz hzero]
                      rcases hop with hop | hop <;> simp [hop]
                  · rw [if_pos]
                    · rw [← Function.update_eq_self dst vm.regs]
                      exact typed_update ht ⟨c, hpointer, hg⟩
                    · rw [hp c hpointer]
                      simp
              · exact ht
          · exact ht

/-- Without an error the next registers have the types that flow along the
executed edge. -/
theorem execute_typed {vm vm' : Vm σ} {d : Decoded} {next : List Nat} (ht : Typed s vm.regs)
    (hd : vm.program.decoded[vm.pc]? = some d) (hc : Checked x dst src s) (hh : Honest env h vm x dst src s)
    (hsucc : successors x d vm.pc = .ok next)
    (htr : transfer h vm.program.policy x d dst src s vm.pc = .ok out)
    (hs : vm.execute env x dst src = .ok (.next vm')) :
    Typed (refineNullCheck x dst out (takenEdge x vm.pc vm'.pc)) vm'.regs := by
  rw [execute] at hs
  rw [transfer.eq_def] at htr
  cases hclass : x.opClass with
  | jmp =>
      simp only [hclass] at hs htr
      exact jump_typed ht (.inl hclass) hc hh hsucc htr hs
  | jmp32 =>
      simp only [hclass] at hs htr
      exact jump_typed ht (.inr hclass) hc hh hsucc htr hs
  | ld =>
      rw [refineNullCheck, if_neg (by simp [hclass])]
      simp only [hclass] at hs htr
      rw [bind_eq_ok] at hs
      obtain ⟨vm₁, hs, hvm⟩ := hs
      cases hvm
      split at htr
      · cases htr
      · obtain rfl := Outcome.ok.inj htr
        rcases loadImmediate_ok hs with ⟨v, hv, rfl⟩ | ⟨m, hm, rfl⟩
        · rw [hd, Option.some.injEq] at hv
          subst hv
          exact typed_update ht ⟨v, rfl⟩
        · rw [hd, Option.some.injEq] at hm
          subst hm
          exact typed_update ht rfl
  | alu | alu64 =>
      rw [refineNullCheck, if_neg (by simp [hclass])]
      simp only [hclass] at hs htr
      rw [bind_eq_ok] at hs
      obtain ⟨vm₁, hs, hvm⟩ := hs
      cases hvm
      split at htr
      · cases htr
      · exact alu_typed ht (by simp [hclass]) hc htr hs
  | ldx =>
      rw [refineNullCheck, if_neg (by simp [hclass])]
      simp only [hclass] at hs htr
      rw [bind_eq_ok] at hs
      obtain ⟨vm₁, hs, hvm⟩ := hs
      cases hvm
      split at htr
      · cases htr
      · exact memoryLoad_typed ht hclass hh htr hs
  | st | stx =>
      rw [refineNullCheck, if_neg (by simp [hclass])]
      simp only [hclass] at hs htr
      rw [bind_eq_ok] at hs
      obtain ⟨vm₁, hs, hvm⟩ := hs
      cases hvm
      exact memoryStore_typed ht hc htr hs

/-- The errors a well-typed step may still report. -/
def Tame (e : RuntimeError) : Prop := e ≠ .type ∧ e ≠ .bounds

theorem aluScalar_tame {vm : Vm σ} (ht : Typed s vm.regs) (hx : x.opClass = .alu ∨ x.opClass = .alu64)
    (hc : Checked x dst src s) (hmx : ¬ (x.aluOp = some .mov ∧ x.isX = true)) (hend : x.aluOp ≠ some .endian)
    (hdst : x.aluOp ≠ some .mov → s dst = .scalar) : ErrIn Tame (vm.aluScalar x dst src) := by
  have hoperand : ErrIn Tame (vm.aluOperand x src) := by
    rw [aluOperand]
    split
    · next hisx =>
        have hmov : x.aluOp ≠ some .mov := fun hmov => hmx ⟨hmov, hisx⟩
        obtain ⟨w, hw⟩ := scalar_typed ht (hc.aluSrc hx hmov hend hisx)
        simp [hw]
    · simp
  rw [aluScalar]
  refine errIn_bind hoperand (fun b _ => ?_)
  split
  · simp
  · next hneg =>
      obtain ⟨w, hw⟩ := scalar_typed ht (hdst (by simp [hneg]))
      simp [hw]
  · next op hnotmov hnotneg hop =>
      obtain ⟨w, hw⟩ := scalar_typed ht (hdst (by simpa [hop] using hnotmov))
      rw [hw, ok_bind]
      cases op <;> simp [aluResult, Tame]
  · next hnone =>
      obtain ⟨w, hw⟩ := scalar_typed ht (hdst (by simp [hnone]))
      simp [hw, Tame]

theorem alu_tame {vm : Vm σ} {i : Nat} (ht : Typed s vm.regs) (hx : x.opClass = .alu ∨ x.opClass = .alu64)
    (hc : Checked x dst src s) (hfp : dst ≠ framePointer) (htr : transferAlu x dst src s i = .ok out) :
    ErrIn Tame (vm.alu x dst src) := by
  rw [alu, if_neg hfp]
  split
  · next hend =>
      have hd : s dst = .scalar := by
        rcases hc.aluDst hx (by simp [hend]) with hd | ⟨hadd, _⟩
        · exact hd
        · rw [hadd.2.1] at hend
          cases hend
      obtain ⟨w, hw⟩ := scalar_typed ht hd
      rw [hw, ok_bind, endianResult]
      split <;> simp [Tame]
  · next hend =>
      split
      · next hmov =>
          rw [transferAlu, if_pos hmov.1] at htr
          split at htr
          · cases htr
          · next hpointer =>
              cases hsrc : vm.regs src with
              | scalar v | map m | uninit => simp
              | pointer c =>
                  simp only
                  split
                  · next halu =>
                      exfalso
                      refine hpointer ⟨halu, .inr ⟨hmov.2, ?_⟩⟩
                      have hshape := ht src
                      rw [hsrc] at hshape
                      cases hty : s src with
                      | uninit | scalar | map m => simp [hty, Shape] at hshape
                      | ptr r o l w | ptrOrNull r o l w => rfl
                  · simp
      · next hmx =>
          have hrest : (x.aluOp ≠ some .mov → s dst = .scalar) → ErrIn Tame (vm.aluScalar x dst src) :=
            aluScalar_tame ht hx hc hmx hend
          by_cases hmov : x.aluOp = some .mov
          · have hadd : ¬ x.addsImmediate := by
              rintro ⟨_, hadd, _⟩
              rw [hadd] at hmov
              cases hmov
            rw [if_neg hadd]
            exact hrest (fun hm => absurd hmov hm)
          · rcases hc.aluDst hx hmov with hd | ⟨hadd, region, offset, length, writable, hd⟩
            · have hshape := ht dst
              rw [hd] at hshape
              obtain ⟨w, hw⟩ := hshape
              rw [hw]
              split <;> exact hrest (fun _ => hd)
            · have hshape := ht dst
              rw [hd] at hshape
              obtain ⟨c, hp, _, hoffset, hlength, _⟩ := hshape
              rw [if_pos hadd, hp]
              simp only [addPointer, hoffset]
              rw [transferAlu, if_neg hmov] at htr
              split at htr
              · cases htr
              · simp only [hd] at htr
                cases hn : checkedAddI32 offset x.imm with
                | none => simp [hn] at htr
                | some n =>
                    simp only [hn] at htr ⊢
                    split at htr
                    · cases htr
                    · next hin =>
                        rw [if_neg]
                        · simp
                        · rintro (hneg | hlt)
                          · exact hin (.inl hneg)
                          · refine hin (.inr (BitVec.lt_def.mpr ?_))
                            exact Nat.lt_of_le_of_lt (BitVec.le_def.mp hlength) (BitVec.lt_def.mp hlt)

theorem memoryLoad_tame {vm : Vm σ} {i : Nat} (ht : Typed s vm.regs) (hfp : dst ≠ framePointer)
    (htr : transferLoad vm.program.policy x dst src s i = .ok out) : ErrIn Tame (vm.memoryLoad env x dst src) := by
  rw [transferLoad] at htr
  cases hsrc : s src with
  | uninit | scalar | map m | ptrOrNull r a b w => simp [hsrc] at htr
  | ptr region offset length writable =>
      simp only [hsrc] at htr
      rw [bind_eq_ok] at htr
      obtain ⟨_, hacc, _⟩ := htr
      obtain ⟨c, start, hcap, _⟩ := cap_typed (w := false) ht hsrc (fun hf => by cases hf) hacc
      rw [memoryLoad, if_neg hfp]
      refine errIn_bind ?_ (fun p _ => by simp)
      rw [load, hcap, ok_bind]
      simp only
      split
      · simp
      · split
        · refine errIn_bind ?_ (fun bytes _ => by simp)
          rw [stackRead]
          split <;> simp
        · split <;> simp [Tame]

theorem memoryStore_tame {vm : Vm σ} {i : Nat} (ht : Typed s vm.regs) (hc : Checked x dst src s)
    (hh : Honest env h vm x dst src s) (hx : x.opClass = .st ∨ x.opClass = .stx)
    (htr : transferStore x dst src s i = .ok out) : ErrIn Tame (vm.memoryStore env x dst src) := by
  have hread : ∀ o w, ErrIn Tame (stackRead vm.stack o w) := by
    intro o w
    rw [stackRead]
    split <;> simp
  have hwrite : ∀ o bytes, ErrIn Tame (stackWrite vm.stack o bytes) := by
    intro o bytes
    rw [stackWrite]
    split <;> simp
  rw [transferStore] at htr
  cases hdst : s dst with
  | uninit | scalar | map m | ptrOrNull r a b w => simp [hdst] at htr
  | ptr region offset length writable =>
      simp only [hdst] at htr
      split at htr
      · cases htr
      · next hw =>
          split at htr
          · cases htr
          · rw [bind_eq_ok] at htr
            obtain ⟨_, hacc, htr⟩ := htr
            obtain ⟨c, start, hcap, _⟩ :=
              cap_typed (w := true) ht hdst (fun _ => Bool.eq_true_of_not_eq_false hw) hacc
            rw [memoryStore]
            split
            · next hatomic =>
                rw [if_pos hatomic] at htr
                split at htr
                · cases htr
                · next hscalars =>
                    simp only [not_or, not_not, not_and] at hscalars
                    obtain ⟨operand, hoperand⟩ := scalar_typed ht hscalars.1
                    rw [atomic, hoperand, ok_bind]
                    split
                    · simp [Tame]
                    · next code fetch henc =>
                        have hexpected : ErrIn Tame (vm.expected code) := by
                          rw [expected]
                          split
                          · next hcx =>
                              obtain ⟨w, hw⟩ := scalar_typed ht (hscalars.2 (by simp [henc, hcx]))
                              simp [hw]
                          · simp
                        refine errIn_bind hexpected (fun e _ => ?_)
                        rw [hcap, ok_bind]
                        refine errIn_bind ?_ (fun p _ => by simp)
                        rw [exchange]
                        split
                        · refine errIn_bind (hread _ _) (fun bytes _ => ?_)
                          exact errIn_bind (hwrite _ _) (fun stack _ => by simp)
                        · refine errIn_bind ?_ (fun old _ => by simp)
                          intro e he
                          obtain ⟨htype, hbounds⟩ :=
                            hh.atomic hatomic.1 hatomic.2 c start.toNat (.ofCode code _ operand) hcap
                          constructor
                          · rintro rfl
                            exact htype he
                          · rintro rfl
                            exact hbounds he
            · have hoperand : ErrIn Tame (vm.storeOperand x src) := by
                rw [storeOperand]
                split
                · simp
                · next hst =>
                    obtain ⟨w, hw⟩ := scalar_typed ht (hc.store (hx.resolve_left hst))
                    simp [hw]
              refine errIn_bind hoperand (fun v _ => errIn_bind ?_ (fun vm _ => by simp))
              rw [store, hcap, ok_bind]
              simp only
              split
              · exact errIn_bind (hwrite _ _) (fun stack _ => by simp)
              · split <;> simp [Tame]

/-- The instructions the safety statement is about: loads, stores,
arithmetic, atomics and exit. -/
def Guarded (x : Instruction) : Prop := (x.opClass ≠ .jmp ∧ x.opClass ≠ .jmp32) ∨ x.isExit = true

theorem execute_tame {vm : Vm σ} {d : Decoded} (ht : Typed s vm.regs)
    (hd : vm.program.decoded[vm.pc]? = some d) (hvalid : validOpcode h x d = true) (hc : Checked x dst src s)
    (hh : Honest env h vm x dst src s) (htr : transfer h vm.program.policy x d dst src s vm.pc = .ok out)
    (hg : Guarded x) : ErrIn Tame (vm.execute env x dst src) := by
  rw [execute]
  rw [transfer.eq_def] at htr
  have lift : ∀ y : Outcome RuntimeError (Vm σ), ErrIn Tame y →
      ErrIn Tame (y >>= fun vm => .ok (Turn.next vm)) := by
    intro y hy
    exact errIn_bind hy (fun vm _ => by simp)
  have exits : x.isExit = true → ErrIn Tame (vm.jump env x dst src) := by
    intro hexit
    obtain ⟨w, hw⟩ := scalar_typed ht (hc.exit hexit)
    simp only [Instruction.isExit, decide_eq_true_eq] at hexit
    rw [jump, if_pos hexit.2, hw]
    simp
  cases hclass : x.opClass with
  | jmp | jmp32 =>
      rcases hg with ⟨h₁, h₂⟩ | hexit
      · simp [hclass] at h₁ h₂
      · exact exits hexit
  | ld =>
      simp only [hclass] at htr
      split at htr
      · cases htr
      · next hfp =>
          apply lift
          rw [loadImmediate, if_neg hfp, hd]
          rw [validOpcode.eq_def, hclass] at hvalid
          cases d with
          | basic | continuation n => simp at hvalid
          | wideImmediate v | map m => simp
  | alu | alu64 =>
      simp only [hclass] at htr
      split at htr
      · cases htr
      · next hfp => exact lift _ (alu_tame ht (by simp [hclass]) hc hfp htr)
  | ldx =>
      simp only [hclass] at htr
      split at htr
      · cases htr
      · next hfp => exact lift _ (memoryLoad_tame ht hfp htr)
  | st | stx =>
      simp only [hclass] at htr
      exact lift _ (memoryStore_tame ht hc hh (by simp [hclass]) htr)

end Vm

end TheKernel.Ebpf
