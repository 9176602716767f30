import TheKernel.Ebpf.Vm

namespace TheKernel.Ebpf

open Outcome

def low (a : BitVec 64) : BitVec 32 := a.setWidth 32

/-- A 32-bit operation as the instruction set defines it. Byte swaps are not
arithmetic and leave the operand. -/
def alu32 (op : AluOp) (a b : BitVec 32) : BitVec 32 :=
  match op with
  | .add => a + b
  | .sub => a - b
  | .mul => a * b
  | .div => if b = 0 then 0 else a / b
  | .mod => if b = 0 then a else a % b
  | .or => a ||| b
  | .and => a &&& b
  | .xor => a ^^^ b
  | .lsh => a <<< (b.toNat % 32)
  | .rsh => a >>> (b.toNat % 32)
  | .arsh => a.sshiftRight (b.toNat % 32)
  | .neg => 0 - a
  | .mov => b
  | .endian => a

/-- What the machine computes for a 32-bit operation before it cuts the result. -/
def wideResult (op : AluOp) (a b : BitVec 64) : BitVec 64 :=
  match op with
  | .neg => 0 - a
  | .mov => b
  | op => (aluResult op false a b).toOption.getD a

def machineResult (isX : Bool) (op : AluOp) (a b : BitVec 64) : BitVec 64 :=
  if op = .mov ∧ isX then b else (low (wideResult op a b)).setWidth 64

theorem shift_mask (b : BitVec 64) : (b &&& 31).toNat = (low b).toNat % 32 := by
  have h : (31 : BitVec 64).toNat = 2 ^ 5 - 1 := rfl
  rw [BitVec.toNat_and, h, Nat.and_two_pow_sub_one_eq_mod, low, BitVec.toNat_setWidth]
  omega

theorem extend_low_eq_iff (u v : BitVec 32) : u.setWidth 64 = v.setWidth 64 ↔ u = v := by
  constructor
  · intro h
    have ht := congrArg BitVec.toNat h
    simp only [BitVec.toNat_setWidth] at ht
    apply BitVec.eq_of_toNat_eq
    omega
  · intro h
    rw [h]

theorem low_toNat (a : BitVec 64) : (low a).toNat = a.toNat % 2 ^ 32 := BitVec.toNat_setWidth 32 a

/-- The instructions of class `ALU` that compute the 32-bit operation whatever
the registers hold. -/
def exact32 (x : Instruction) (dst src : Register) : AluOp → Prop
  | .div => x.isX = false ∧ x.imm.toNat ≤ 1
  | .mod => if x.isX then dst = src else x.imm = 0 ∨ x.imm.toNat ∣ 2 ^ 32
  | .rsh | .arsh => x.isX = false ∧ x.imm.toNat % 32 = 0
  | .mov => x.isX = false
  | _ => True

theorem low_div (a b : BitVec 64) (hb : b.toNat ≤ 1) :
    low (if b = 0 then 0 else a / b) = if low b = 0 then 0 else low a / low b := by
  by_cases h : b = 0
  · subst h
    rfl
  · have h1 : b = 1 := by
      apply BitVec.eq_of_toNat_eq
      have := BitVec.toNat_ne_iff_ne.mpr h
      simp at this ⊢
      omega
    subst h1
    apply BitVec.eq_of_toNat_eq
    simp [low]

theorem low_mod (a b : BitVec 64) (hb : b.toNat < 2 ^ 32) (hd : b.toNat = 0 ∨ b.toNat ∣ 2 ^ 32) :
    low (if b = 0 then a else a % b) = if low b = 0 then low a else low a % low b := by
  by_cases h : b = 0
  · subst h
    rfl
  · have h0 : b.toNat ≠ 0 := fun e => h (BitVec.eq_of_toNat_eq e)
    have hl : low b ≠ 0 := by
      intro e
      have := congrArg BitVec.toNat e
      rw [low_toNat, Nat.mod_eq_of_lt hb] at this
      exact h0 this
    have hdvd := hd.resolve_left h0
    rw [if_neg h, if_neg hl]
    apply BitVec.eq_of_toNat_eq
    rw [low_toNat, BitVec.toNat_umod, BitVec.toNat_umod, low_toNat, low_toNat, Nat.mod_eq_of_lt hb,
      Nat.mod_mod_of_dvd _ hdvd]
    exact Nat.mod_eq_of_lt (lt_trans (Nat.mod_lt _ (Nat.pos_of_ne_zero h0)) hb)

theorem low_mod_self (a : BitVec 64) :
    low (if a = 0 then a else a % a) = if low a = 0 then low a else low a % low a := by
  by_cases h : a = 0
  · subst h
    rfl
  · rw [if_neg h]
    split
    case isTrue hl => rw [BitVec.umod_self, hl]; rfl
    case isFalse => rw [BitVec.umod_self, BitVec.umod_self]; rfl

theorem low_sub (a b : BitVec 64) : low (a - b) = low a - low b := by
  rw [BitVec.sub_eq_add_neg, BitVec.sub_eq_add_neg]
  exact (BitVec.setWidth_add a (-b) (by omega)).trans (by rw [BitVec.setWidth_neg_of_le (by omega)]; rfl)

/-- The operations whose low half only depends on the low halves. -/
theorem low_wideResult {op : AluOp} (a b : BitVec 64)
    (h : op ∉ [AluOp.div, AluOp.mod, AluOp.rsh, AluOp.arsh, AluOp.endian]) :
    low (wideResult op a b) = alu32 op (low a) (low b) := by
  cases op with
  | add => exact BitVec.setWidth_add a b (by omega)
  | sub => exact low_sub a b
  | mul => exact BitVec.setWidth_mul a b (by omega)
  | or => exact BitVec.setWidth_or
  | and => exact BitVec.setWidth_and
  | xor => exact BitVec.setWidth_xor
  | lsh =>
      change low (a <<< (b &&& 31).toNat) = low a <<< ((low b).toNat % 32)
      rw [shift_mask]
      exact BitVec.setWidth_shiftLeft_of_le (by omega)
  | neg => exact low_sub 0 a
  | mov => rfl
  | div | mod | rsh | arsh | endian => simp at h

theorem low_rsh_zero {a b : BitVec 64} (h : (low b).toNat % 32 = 0) :
    low (wideResult .rsh a b) = alu32 .rsh (low a) (low b) := by
  change low (a >>> (b &&& 31).toNat) = low a >>> ((low b).toNat % 32)
  rw [shift_mask, h]
  simp

theorem low_arsh_zero {a b : BitVec 64} (h : (low b).toNat % 32 = 0) :
    low (wideResult .arsh a b) = alu32 .arsh (low a) (low b) := by
  change low (a.sshiftRight (b &&& 31).toNat) = (low a).sshiftRight ((low b).toNat % 32)
  rw [shift_mask, h]
  simp

theorem low_extend (v : BitVec 32) : low (v.setWidth 64) = v := by
  apply BitVec.eq_of_toNat_eq
  rw [low_toNat, BitVec.toNat_setWidth]
  omega

theorem machineResult_exact {x : Instruction} {dst src : Register} {op : AluOp} {a b : BitVec 64}
    (hop : op ≠ .endian) (hx : exact32 x dst src op) (himm : x.isX = false → b = x.imm.setWidth 64)
    (hsame : x.isX = true → dst = src → op ≠ .mov → a = b) :
    machineResult x.isX op a b = (alu32 op (low a) (low b)).setWidth 64 := by
  have hmov : ¬ (op = .mov ∧ x.isX = true) := by
    rintro ⟨rfl, hX⟩
    simp [exact32, hX] at hx
  have hwidth : (x.imm.setWidth 64).toNat = x.imm.toNat := by
    rw [BitVec.toNat_setWidth]
    have := x.imm.isLt
    omega
  rw [machineResult, if_neg hmov, extend_low_eq_iff]
  cases op with
  | div =>
      have hb := himm hx.1
      exact low_div a b (by rw [hb, hwidth]; exact hx.2)
  | mod =>
      simp only [exact32] at hx
      split at hx
      case isTrue hX =>
          have hab := hsame hX hx (by simp)
          subst hab
          exact low_mod_self a
      case isFalse hX =>
          have hb := himm (by simpa using hX)
          apply low_mod a b
          · rw [hb, hwidth]
            exact x.imm.isLt
          · rw [hb, hwidth]
            exact hx.imp_left (fun e => by rw [e]; rfl)
  | rsh =>
      have hb := himm hx.1
      exact low_rsh_zero (by rw [hb, low_extend]; exact hx.2)
  | arsh =>
      have hb := himm hx.1
      exact low_arsh_zero (by rw [hb, low_extend]; exact hx.2)
  | endian => exact absurd rfl hop
  | _ => exact low_wideResult a b (by simp)

/-- Operands without upper halves hide the difference, for an arithmetic shift
those without a sign bit too. -/
theorem machineResult_small {isX : Bool} {op : AluOp} {a b : BitVec 64} (hop : op ≠ .endian)
    (ha : a.toNat < 2 ^ 32) (hb : b.toNat < 2 ^ 32) (hs : op = .arsh → a.toNat < 2 ^ 31) :
    machineResult isX op a b = (alu32 op (low a) (low b)).setWidth 64 := by
  have hla : (low a).toNat = a.toNat := (low_toNat a).trans (Nat.mod_eq_of_lt ha)
  have hlb : (low b).toNat = b.toNat := (low_toNat b).trans (Nat.mod_eq_of_lt hb)
  have hb0 : low b = 0 ↔ b = 0 := by
    rw [← BitVec.toNat_inj, ← BitVec.toNat_inj, hlb]
    simp
  rw [machineResult]
  split
  case isTrue hm =>
      rw [hm.1]
      apply BitVec.eq_of_toNat_eq
      change b.toNat = ((low b).setWidth 64).toNat
      rw [BitVec.toNat_setWidth, hlb]
      omega
  case isFalse hm =>
      rw [extend_low_eq_iff]
      cases op with
      | div =>
          change low (if b = 0 then 0 else a / b) = if low b = 0 then 0 else low a / low b
          by_cases h : b = 0
          · rw [if_pos h, if_pos (hb0.mpr h)]
            rfl
          · rw [if_neg h, if_neg (fun e => h (hb0.mp e))]
            apply BitVec.eq_of_toNat_eq
            rw [low_toNat, BitVec.toNat_udiv, BitVec.toNat_udiv, hla, hlb]
            exact Nat.mod_eq_of_lt (lt_of_le_of_lt (Nat.div_le_self _ _) ha)
      | mod =>
          change low (if b = 0 then a else a % b) = if low b = 0 then low a else low a % low b
          by_cases h : b = 0
          · rw [if_pos h, if_pos (hb0.mpr h)]
          · rw [if_neg h, if_neg (fun e => h (hb0.mp e))]
            apply BitVec.eq_of_toNat_eq
            rw [low_toNat, BitVec.toNat_umod, BitVec.toNat_umod, hla, hlb]
            exact Nat.mod_eq_of_lt (lt_of_le_of_lt (Nat.mod_le _ _) ha)
      | rsh =>
          change low (a >>> (b &&& 31).toNat) = low a >>> ((low b).toNat % 32)
          rw [shift_mask]
          apply BitVec.eq_of_toNat_eq
          rw [low_toNat, BitVec.toNat_ushiftRight, BitVec.toNat_ushiftRight, hla]
          exact Nat.mod_eq_of_lt (lt_of_le_of_lt (Nat.shiftRight_le _ _) ha)
      | arsh =>
          change low (a.sshiftRight (b &&& 31).toNat) = (low a).sshiftRight ((low b).toNat % 32)
          have hm64 : a.msb = false := by
            rw [BitVec.msb_eq_false_iff_two_mul_lt]
            omega
          have hm32 : (low a).msb = false := by
            rw [BitVec.msb_eq_false_iff_two_mul_lt, hla]
            have := hs rfl
            omega
          rw [shift_mask, BitVec.sshiftRight_eq_of_msb_false hm64, BitVec.sshiftRight_eq_of_msb_false hm32]
          apply BitVec.eq_of_toNat_eq
          rw [low_toNat, BitVec.toNat_ushiftRight, BitVec.toNat_ushiftRight, hla]
          exact Nat.mod_eq_of_lt (lt_of_le_of_lt (Nat.shiftRight_le _ _) ha)
      | endian => exact absurd rfl hop
      | _ => exact low_wideResult a b (by simp)

theorem machineResult_ne {isX : Bool} {op : AluOp} {a b : BitVec 64} (hm : ¬ (op = .mov ∧ isX = true))
    (h : (low (wideResult op a b)).toNat ≠ (alu32 op (low a) (low b)).toNat) :
    machineResult isX op a b ≠ (alu32 op (low a) (low b)).setWidth 64 := by
  rw [machineResult, if_neg hm, Ne, extend_low_eq_iff]
  intro e
  exact h (congrArg BitVec.toNat e)

theorem two_pow_div_ne {k : Nat} (h1 : 1 < k) (hk : k < 2 ^ 32) : 2 ^ 32 / k % 2 ^ 32 ≠ 0 := by
  have hpos : 0 < 2 ^ 32 / k := Nat.div_pos (le_of_lt hk) (by omega)
  have hlt : 2 ^ 32 / k < 2 ^ 32 := Nat.div_lt_self (by omega) h1
  rw [Nat.mod_eq_of_lt hlt]
  omega

theorem machineResult_div_imm (v : BitVec 32) (h1 : 1 < v.toNat) :
    machineResult false .div (BitVec.ofNat 64 (2 ^ 32)) (v.setWidth 64) ≠
      (alu32 .div (low (BitVec.ofNat 64 (2 ^ 32))) (low (v.setWidth 64))).setWidth 64 := by
  have hv : (v.setWidth 64).toNat = v.toNat := by
    rw [BitVec.toNat_setWidth]
    omega
  apply machineResult_ne (by simp)
  have h0 : v.setWidth 64 ≠ (0 : BitVec 64) := by
    intro e
    have := congrArg BitVec.toNat e
    rw [hv] at this
    simp at this
    omega
  have hspec : alu32 .div (low (BitVec.ofNat 64 (2 ^ 32))) (low (v.setWidth 64)) = 0 := by
    simp [alu32, low]
  rw [hspec]
  change (low (if v.setWidth 64 = 0 then 0 else _ / v.setWidth 64)).toNat ≠ 0
  rw [if_neg h0, low_toNat, BitVec.toNat_udiv, hv]
  exact two_pow_div_ne h1 v.isLt

theorem machineResult_mod_imm (v : BitVec 32) (h0 : v ≠ 0) (hd : ¬ v.toNat ∣ 2 ^ 32) :
    machineResult false .mod (BitVec.ofNat 64 (2 ^ 32)) (v.setWidth 64) ≠
      (alu32 .mod (low (BitVec.ofNat 64 (2 ^ 32))) (low (v.setWidth 64))).setWidth 64 := by
  have hv : (v.setWidth 64).toNat = v.toNat := by
    rw [BitVec.toNat_setWidth]
    omega
  apply machineResult_ne (by simp)
  have hne : v.setWidth 64 ≠ (0 : BitVec 64) := by
    intro e
    apply h0
    apply BitVec.eq_of_toNat_eq
    rw [← hv, e]
    rfl
  have hspec : alu32 .mod (low (BitVec.ofNat 64 (2 ^ 32))) (low (v.setWidth 64)) = 0 := by
    simp [alu32, low]
  rw [hspec]
  change (low (if v.setWidth 64 = 0 then _ else _ % v.setWidth 64)).toNat ≠ 0
  rw [if_neg hne, low_toNat, BitVec.toNat_umod, hv]
  have hpos : 0 < v.toNat := Nat.pos_of_ne_zero (fun e => h0 (BitVec.eq_of_toNat_eq e))
  have hlt := Nat.mod_lt (2 ^ 32) hpos
  have hmod : 2 ^ 32 % v.toNat ≠ 0 := fun e => hd (Nat.dvd_of_mod_eq_zero e)
  change 2 ^ 32 % v.toNat % 2 ^ 32 ≠ 0
  rw [Nat.mod_eq_of_lt (lt_trans hlt v.isLt)]
  exact hmod

theorem shift_two_pow {s : Nat} (h0 : s ≠ 0) (hs : s < 32) : 2 ^ 32 >>> s % 2 ^ 32 ≠ 0 := by
  rw [Nat.shiftRight_eq_div_pow]
  exact two_pow_div_ne (Nat.one_lt_two_pow h0) (Nat.pow_lt_pow_right (by omega) hs)

theorem machineResult_shift_imm {op : AluOp} (hop : op = .rsh ∨ op = .arsh) (v : BitVec 32)
    (h0 : v.toNat % 32 ≠ 0) :
    machineResult false op (BitVec.ofNat 64 (2 ^ 32)) (v.setWidth 64) ≠
      (alu32 op (low (BitVec.ofNat 64 (2 ^ 32))) (low (v.setWidth 64))).setWidth 64 := by
  apply machineResult_ne (by simp)
  have hlow : low (BitVec.ofNat 64 (2 ^ 32)) = 0 := rfl
  have hspec : alu32 op (low (BitVec.ofNat 64 (2 ^ 32))) (low (v.setWidth 64)) = 0 := by
    rw [hlow]
    cases hop with
    | inl h => simp [h, alu32]
    | inr h => simp [h, alu32]
  have hwide : wideResult op (BitVec.ofNat 64 (2 ^ 32)) (v.setWidth 64) =
      BitVec.ofNat 64 (2 ^ 32) >>> (v.toNat % 32) := by
    cases hop with
    | inl h =>
        rw [h]
        change BitVec.ofNat 64 (2 ^ 32) >>> ((v.setWidth 64) &&& 31).toNat = _
        rw [shift_mask, low_extend]
    | inr h =>
        rw [h]
        change (BitVec.ofNat 64 (2 ^ 32)).sshiftRight ((v.setWidth 64) &&& 31).toNat = _
        rw [shift_mask, low_extend]
        exact BitVec.sshiftRight_eq_of_msb_false rfl
  have hpow : (BitVec.ofNat 64 (2 ^ 32)).toNat = 2 ^ 32 := by simp
  rw [hspec, hwide, low_toNat, BitVec.toNat_ushiftRight, hpow]
  exact shift_two_pow h0 (Nat.mod_lt _ (by omega))

theorem machineResult_inexact {x : Instruction} {dst src : Register} {op : AluOp} (h : ¬ exact32 x dst src op) :
    ∃ a b, (x.isX = false → b = x.imm.setWidth 64) ∧ (x.isX = true → dst = src → a = b) ∧
      machineResult x.isX op a b ≠ (alu32 op (low a) (low b)).setWidth 64 := by
  cases hX : x.isX with
  | false =>
      refine ⟨BitVec.ofNat 64 (2 ^ 32), x.imm.setWidth 64, fun _ => rfl, by simp, ?_⟩
      cases op with
      | div => exact machineResult_div_imm x.imm (by simpa [exact32, hX] using h)
      | mod =>
          simp only [exact32, hX, Bool.false_eq_true, if_false, not_or] at h
          exact machineResult_mod_imm x.imm h.1 h.2
      | rsh => exact machineResult_shift_imm (.inl rfl) x.imm (by simpa [exact32, hX] using h)
      | arsh => exact machineResult_shift_imm (.inr rfl) x.imm (by simpa [exact32, hX] using h)
      | mov => exact absurd hX h
      | _ => exact absurd trivial h
  | true =>
      cases op with
      | div => exact ⟨BitVec.ofNat 64 (2 ^ 32), BitVec.ofNat 64 (2 ^ 32), by simp, fun _ _ => rfl, by decide⟩
      | mod =>
          have hne : dst ≠ src := by simpa [exact32, hX] using h
          exact ⟨BitVec.ofNat 64 (2 ^ 32), 3, by simp, fun _ e => absurd e hne, by decide⟩
      | rsh => exact ⟨BitVec.ofNat 64 (2 ^ 32 + 1), BitVec.ofNat 64 (2 ^ 32 + 1), by simp, fun _ _ => rfl, by decide⟩
      | arsh => exact ⟨BitVec.ofNat 64 (2 ^ 32 + 1), BitVec.ofNat 64 (2 ^ 32 + 1), by simp, fun _ _ => rfl, by decide⟩
      | mov => exact ⟨BitVec.ofNat 64 (2 ^ 32), BitVec.ofNat 64 (2 ^ 32), by simp, fun _ _ => rfl, by decide⟩
      | _ => exact absurd trivial h

namespace Vm

variable {σ : Type}

/-- A machine about to run a 32-bit arithmetic instruction on the operands `a`
and `b`. -/
structure Alu32Input (vm : Vm σ) (x : Instruction) (dst src : Register) (op : AluOp) (a b : BitVec 64) : Prop where
  opClass : x.opClass = .alu
  aluOp : x.aluOp = some op
  arithmetic : op ≠ .endian
  writable : dst ≠ framePointer
  destination : op = .mov ∨ vm.regs dst = .scalar a
  source : if x.isX then vm.regs src = .scalar b else b = x.imm.setWidth 64

theorem Alu32Input.operand {vm : Vm σ} {x : Instruction} {dst src : Register} {op : AluOp} {a b : BitVec 64}
    (h : vm.Alu32Input x dst src op a b) : vm.aluOperand x src = .ok b := by
  have hs := h.source
  unfold aluOperand scalar
  split at hs
  case isTrue hx => rw [if_pos hx, hs]
  case isFalse hx =>
      rw [if_neg hx, h.opClass, hs]
      rfl

theorem execute_alu32 (env : Environment σ) {vm : Vm σ} {x : Instruction} {dst src : Register} {op : AluOp}
    {a b : BitVec 64} (h : vm.Alu32Input x dst src op a b) :
    vm.execute env x dst src =
      .ok (.next ((vm.setReg dst (.scalar (machineResult x.isX op a b))).advance 1)) := by
  have halu : vm.alu x dst src = .ok ((vm.setReg dst (.scalar (machineResult x.isX op a b))).advance 1) := by
    have hendian : ¬ x.aluOp = some .endian := fun e => h.arithmetic (Option.some.inj (h.aluOp.symm.trans e))
    have hadds : ¬ x.addsImmediate := by simp [Instruction.addsImmediate, h.opClass]
    rw [alu, if_neg h.writable, if_neg hendian, if_neg hadds]
    by_cases hm : op = .mov ∧ x.isX = true
    · have hs := h.source
      rw [if_pos hm.2] at hs
      rw [if_pos ⟨h.aluOp.trans (congrArg some hm.1), hm.2⟩, hs, machineResult, if_pos hm]
    · have hmov : ¬ (x.aluOp = some .mov ∧ x.isX = true) :=
        fun e => hm ⟨Option.some.inj (h.aluOp.symm.trans e.1), e.2⟩
      have hd := h.destination
      have ha := h.arithmetic
      rw [if_neg hmov, aluScalar, h.operand, h.aluOp, machineResult, if_neg hm]
      cases op <;> simp_all [setResult, scalar, aluResult, wideResult, h.opClass, low]
  rw [execute, h.opClass]
  simp only [halu, ok_bind]

/-- The instruction leaves the zero-extended 32-bit result in its destination. -/
def Alu32Correct (env : Environment σ) (vm : Vm σ) (x : Instruction) (dst src : Register) (op : AluOp)
    (a b : BitVec 64) : Prop :=
  vm.execute env x dst src =
    .ok (.next ((vm.setReg dst (.scalar ((alu32 op (low a) (low b)).setWidth 64))).advance 1))

theorem alu32Correct_iff (env : Environment σ) {vm : Vm σ} {x : Instruction} {dst src : Register} {op : AluOp}
    {a b : BitVec 64} (h : vm.Alu32Input x dst src op a b) :
    vm.Alu32Correct env x dst src op a b ↔ machineResult x.isX op a b = (alu32 op (low a) (low b)).setWidth 64 := by
  rw [Alu32Correct, execute_alu32 env h]
  constructor
  · intro e
    have hvm := congrFun (congrArg Vm.regs (Turn.next.inj (Outcome.ok.inj e))) dst
    simpa [setReg, advance] using hvm
  · intro e
    rw [e]

theorem Alu32Input.imm {vm : Vm σ} {x : Instruction} {dst src : Register} {op : AluOp} {a b : BitVec 64}
    (h : vm.Alu32Input x dst src op a b) (hX : x.isX = false) : b = x.imm.setWidth 64 := by
  have hs := h.source
  rw [hX] at hs
  exact hs

theorem Alu32Input.same {vm : Vm σ} {x : Instruction} {dst src : Register} {op : AluOp} {a b : BitVec 64}
    (h : vm.Alu32Input x dst src op a b) (hX : x.isX = true) (hd : dst = src) (hm : op ≠ .mov) : a = b := by
  have hs := h.source
  rw [if_pos hX, ← hd] at hs
  exact Value.scalar.inj ((h.destination.resolve_left hm).symm.trans hs)

def withOperands (vm : Vm σ) (dst src : Register) (a b : BitVec 64) : Vm σ :=
  (vm.setReg src (.scalar b)).setReg dst (.scalar a)

theorem withOperands_dst (vm : Vm σ) (dst src : Register) (a b : BitVec 64) :
    (vm.withOperands dst src a b).regs dst = .scalar a := by
  simp [withOperands, setReg]

theorem withOperands_src (vm : Vm σ) {dst src : Register} {a b : BitVec 64} (h : dst = src → a = b) :
    (vm.withOperands dst src a b).regs src = .scalar b := by
  by_cases e : dst = src
  · subst e
    rw [withOperands_dst, h rfl]
  · simp [withOperands, setReg, Function.update_of_ne (Ne.symm e)]

theorem alu32_exact_iff (env : Environment σ) (vm : Vm σ) {x : Instruction} {dst src : Register} {op : AluOp}
    (hc : x.opClass = .alu) (ho : x.aluOp = some op) (hop : op ≠ .endian) (hw : dst ≠ framePointer) :
    (∀ regs a b, Alu32Input { vm with regs := regs } x dst src op a b →
      Alu32Correct env { vm with regs := regs } x dst src op a b) ↔ exact32 x dst src op := by
  constructor
  · intro h
    by_contra hx
    obtain ⟨a, b, himm, hsame, hne⟩ := machineResult_inexact hx
    have hin : (vm.withOperands dst src a b).Alu32Input x dst src op a b := by
      refine ⟨hc, ho, hop, hw, .inr (vm.withOperands_dst dst src a b), ?_⟩
      split
      case isTrue hX => exact vm.withOperands_src (hsame hX)
      case isFalse hX => exact himm (by simpa using hX)
    exact hne ((alu32Correct_iff env hin).mp (h (vm.withOperands dst src a b).regs a b hin))
  · intro hx regs a b hin
    rw [alu32Correct_iff env hin]
    exact machineResult_exact hop hx hin.imm hin.same

/-- A machine about to compare `a` with `b` in 32 bits. -/
structure Jump32Input (vm : Vm σ) (x : Instruction) (dst src : Register) (a b : BitVec 64) : Prop where
  opClass : x.opClass = .jmp32
  left : vm.regs dst = .scalar a
  right : if x.isX then vm.regs src = .scalar b else b = x.imm.setWidth 64

def lowJump (x : Instruction) (dst src : Register) : Prop :=
  x.jumpOp = some .jeq ∨ x.jumpOp = some .jne → x.isX = true ∧ dst = src

def comparison (op : Option JumpOp) (a b : BitVec 64) : Outcome RuntimeError Bool :=
  match op with
  | some .jeq => .ok (a = b)
  | some .jne => .ok !(decide (a = b))
  | some op => compare op (low a) (low b)
  | none => .err .arithmetic

theorem condition_jump32 {vm : Vm σ} {x : Instruction} {dst src : Register} {a b : BitVec 64}
    (h : vm.Jump32Input x dst src a b) : vm.condition x dst src = comparison x.jumpOp a b := by
  have hb : (if x.isX then vm.regs src
      else .scalar (if x.opClass = .jmp then x.imm.signExtend 64 else x.imm.setWidth 64)) = Value.scalar b := by
    have hr := h.right
    split at hr
    case isTrue hX => rw [if_pos hX, hr]
    case isFalse hX => rw [if_neg hX, h.opClass, hr]; rfl
  unfold condition
  rw [hb, h.left, h.opClass]
  cases x.jumpOp with
  | none => rfl
  | some op => cases op <;> rfl

theorem comparison_low {op : Option JumpOp} {a b a' b' : BitVec 64} (he : op ≠ some .jeq) (hn : op ≠ some .jne)
    (ha : low a = low a') (hb : low b = low b') : comparison op a b = comparison op a' b' := by
  cases op with
  | none => rfl
  | some op =>
      cases op with
      | jeq => exact absurd rfl he
      | jne => exact absurd rfl hn
      | _ => simp only [comparison, ha, hb]

theorem Jump32Input.same {vm : Vm σ} {x : Instruction} {dst src : Register} {a b : BitVec 64}
    (h : vm.Jump32Input x dst src a b) (hX : x.isX = true) (hd : dst = src) : a = b := by
  have hs := h.right
  rw [if_pos hX, ← hd] at hs
  exact Value.scalar.inj (h.left.symm.trans hs)

theorem jump32Input_withOperands (vm : Vm σ) {x : Instruction} {dst src : Register} {a b : BitVec 64}
    (hc : x.opClass = .jmp32) (himm : x.isX = false → b = x.imm.setWidth 64)
    (hsame : x.isX = true → dst = src → a = b) : (vm.withOperands dst src a b).Jump32Input x dst src a b := by
  refine ⟨hc, vm.withOperands_dst dst src a b, ?_⟩
  split
  case isTrue hX => exact vm.withOperands_src (hsame hX)
  case isFalse hX => exact himm (by simpa using hX)

theorem low_add_two_pow (b : BitVec 64) : low (b + BitVec.ofNat 64 (2 ^ 32)) = low b := by
  apply BitVec.eq_of_toNat_eq
  rw [low_toNat, low_toNat, BitVec.toNat_add]
  simp

theorem jump32_low_iff (vm : Vm σ) {x : Instruction} {dst src : Register} (hc : x.opClass = .jmp32) :
    (∀ regs regs' a b a' b', Jump32Input { vm with regs := regs } x dst src a b →
      Jump32Input { vm with regs := regs' } x dst src a' b' → low a = low a' → low b = low b' →
      Vm.condition { vm with regs := regs } x dst src = Vm.condition { vm with regs := regs' } x dst src) ↔
    lowJump x dst src := by
  constructor
  · intro h hop
    by_contra hX
    have hsame (a b : BitVec 64) : x.isX = true → dst = src → a = b := fun h1 h2 => absurd ⟨h1, h2⟩ hX
    have h1 := jump32Input_withOperands vm hc (fun _ => rfl) (hsame (x.imm.setWidth 64) (x.imm.setWidth 64))
    have h2 := jump32Input_withOperands vm hc (fun _ => rfl)
      (hsame (x.imm.setWidth 64 + BitVec.ofNat 64 (2 ^ 32)) (x.imm.setWidth 64))
    have he := h (vm.withOperands dst src (x.imm.setWidth 64) (x.imm.setWidth 64)).regs
      (vm.withOperands dst src (x.imm.setWidth 64 + BitVec.ofNat 64 (2 ^ 32)) (x.imm.setWidth 64)).regs
      _ _ _ _ h1 h2 (low_add_two_pow _).symm rfl
    have hcmp : comparison x.jumpOp (x.imm.setWidth 64) (x.imm.setWidth 64) =
        comparison x.jumpOp (x.imm.setWidth 64 + BitVec.ofNat 64 (2 ^ 32)) (x.imm.setWidth 64) :=
      (condition_jump32 h1).symm.trans (he.trans (condition_jump32 h2))
    rcases hop with hop | hop <;> rw [hop] at hcmp <;> simp [comparison] at hcmp
  · intro h regs regs' a b a' b' h1 h2 ha hb
    rw [condition_jump32 h1, condition_jump32 h2]
    by_cases hop : x.jumpOp = some .jeq ∨ x.jumpOp = some .jne
    · obtain ⟨hX, hd⟩ := h hop
      rw [h1.same hX hd, h2.same hX hd]
      rcases hop with hop | hop <;> simp [hop, comparison]
    · rw [not_or] at hop
      exact comparison_low hop.1 hop.2 ha hb

def StoreCorrect (env : Environment σ) (vm : Vm σ) (x : Instruction) (dst src : Register) : Prop :=
  vm.execute env x dst src = vm.store env x dst (x.imm.signExtend 64) >>= fun vm => .ok (.next (vm.advance 1))

theorem execute_st (env : Environment σ) (vm : Vm σ) {x : Instruction} (dst src : Register) (hc : x.opClass = .st) :
    vm.execute env x dst src =
      vm.store env x dst (x.imm.setWidth 64) >>= fun vm => .ok (.next (vm.advance 1)) := by
  have hatomic : ¬ (x.opClass = .stx ∧ x.mode = modeAtomic) := by simp [hc]
  have hop : vm.storeOperand x src = .ok (x.imm.setWidth 64) := by rw [storeOperand, if_pos hc]
  rw [execute, hc]
  simp only [memoryStore, if_neg hatomic, hop, ok_bind]
  cases vm.store env x dst (x.imm.setWidth 64) <;> rfl

theorem checkedAddI32_of_bound {a b : BitVec 32} (hl : -2 ^ 31 ≤ a.toInt + b.toInt) (hu : a.toInt + b.toInt < 2 ^ 31) :
    checkedAddI32 a b = some (a + b) ∧ (a + b).toInt = a.toInt + b.toInt := by
  have h : ¬ a.saddOverflow b := by
    simp only [BitVec.saddOverflow, Bool.or_eq_true, decide_eq_true_eq, not_or]
    omega
  exact ⟨if_neg h, BitVec.toInt_add_of_not_saddOverflow h⟩

theorem toNat_of_toInt_nonneg (w : BitVec 32) (h : 0 ≤ w.toInt) : (w.toNat : Int) = w.toInt := by
  rw [BitVec.toInt_eq_toNat_cond] at h ⊢
  split at h
  case isTrue hl => rw [if_pos hl]
  case isFalse =>
      have := w.isLt
      omega

/-- Some stack is large enough for a doubleword at any offset. -/
theorem accessStart_middle (off : BitVec 16) :
    ∃ start, accessStart 65536 262144 off 8 = some start ∧ start.toNat + 8 ≤ 262144 := by
  have hoff : (off.signExtend 32).toInt = off.toInt := BitVec.toInt_signExtend_of_le (by omega)
  have hlo := off.le_toInt
  have hhi := off.toInt_lt
  have hbase : (65536 : BitVec 32).toInt = 65536 := by decide
  have hwidth : (BitVec.ofNat 32 8).toInt = 8 := by decide
  obtain ⟨h1, hs⟩ := checkedAddI32_of_bound (a := 65536) (b := off.signExtend 32) (by omega) (by omega)
  obtain ⟨h2, he⟩ := checkedAddI32_of_bound (a := 65536 + off.signExtend 32) (b := BitVec.ofNat 32 8)
    (by omega) (by omega)
  have hzero : (0 : BitVec 32).toInt = 0 := by decide
  have hlen : (262144 : BitVec 32).toNat = 262144 := by decide
  have hn1 := toNat_of_toInt_nonneg (65536 + off.signExtend 32) (by omega)
  have hn2 := toNat_of_toInt_nonneg (65536 + off.signExtend 32 + BitVec.ofNat 32 8) (by omega)
  refine ⟨65536 + off.signExtend 32, ?_, by omega⟩
  rw [accessStart, h1, Option.bind_eq_bind, Option.bind_some, h2, Option.bind_some, if_neg]
  rw [BitVec.slt_iff_toInt_lt, BitVec.lt_def, hlen, hzero]
  omega

theorem toLeBytes_length (n : Nat) (v : BitVec 64) : (toLeBytes n v).length = n := by
  simp [toLeBytes]

theorem toLeBytes_extend_ne {v : BitVec 32} (h : v.msb = true) :
    toLeBytes 8 (v.setWidth 64) ≠ toLeBytes 8 (v.signExtend 64) := by
  intro e
  have htop : ((v.setWidth 64) >>> 56).setWidth 8 = ((v.signExtend 64) >>> 56).setWidth 8 :=
    Option.some.inj (congrArg (·[7]?) e)
  have hbit := congrArg (·.getLsbD 7) htop
  simp [BitVec.getElem_signExtend, h] at hbit

def middle : Capability := ⟨.stack, 0, 65536, 262144, true⟩

def withStack (vm : Vm σ) (dst : Register) (stack : List (BitVec 8)) : Vm σ :=
  { vm.setReg dst (.pointer middle) with stack := stack }

theorem store_withStack (env : Environment σ) (vm : Vm σ) {x : Instruction} (dst : Register)
    {stack : List (BitVec 8)} (hs : x.size = 8) (hlen : stack.length = 262144) :
    ∃ o, ∀ v, (vm.withStack dst stack).store env x dst v =
      .ok (vm.withStack dst (stack.take o ++ toLeBytes 8 v ++ stack.drop (o + 8))) := by
  obtain ⟨start, hstart, hfit⟩ := accessStart_middle x.off
  refine ⟨start.toNat, fun v => ?_⟩
  have hcap : (vm.withStack dst stack).cap dst x.off x.size true = .ok (middle, start.toNat) := by
    have hreg : (vm.withStack dst stack).regs dst = .pointer middle := by simp [withStack, setReg]
    have hw : ¬ (true = true ∧ middle.writable = false) := by simp [middle]
    have ha : accessStart middle.offset middle.length x.off 8 = some start := hstart
    rw [cap, hreg, hs]
    dsimp only
    rw [if_neg hw, ha]
  have hfits : start.toNat + (toLeBytes 8 v).length ≤ (vm.withStack dst stack).stack.length := by
    rw [toLeBytes_length]
    exact hfit.trans_eq hlen.symm
  have hr : middle.region = .stack := rfl
  have hwrite : stackWrite (ε := RuntimeError) (vm.withStack dst stack).stack start.toNat (toLeBytes 8 v) =
      .ok (stack.take start.toNat ++ toLeBytes 8 v ++ stack.drop (start.toNat + 8)) := by
    rw [stackWrite, if_pos hfits, toLeBytes_length]
    rfl
  rw [store, hcap, ok_bind]
  dsimp only
  rw [if_pos hr, hs, hwrite, ok_bind]
  rfl

theorem store_correct_iff (env : Environment σ) (vm : Vm σ) {x : Instruction} (dst src : Register)
    (hc : x.opClass = .st) (hs : x.size = 8) :
    (∀ regs stack, StoreCorrect env { vm with regs := regs, stack := stack } x dst src) ↔ x.imm.msb = false := by
  constructor
  · intro h
    by_contra hm
    have hmsb : x.imm.msb = true := by simpa using hm
    obtain ⟨stack, hlen⟩ : ∃ stack : List (BitVec 8), stack.length = 262144 :=
      ⟨List.replicate 262144 0, List.length_replicate⟩
    have hst := h (vm.withStack dst stack).regs stack
    change (vm.withStack dst stack).StoreCorrect env x dst src at hst
    obtain ⟨o, ho⟩ := store_withStack env vm dst hs hlen
    rw [StoreCorrect, execute_st env _ dst src hc, ho, ho] at hst
    have hstack := congrArg Vm.stack (Turn.next.inj (Outcome.ok.inj hst))
    simp only [advance, withStack] at hstack
    exact toLeBytes_extend_ne hmsb (List.append_cancel_left (List.append_cancel_right hstack))
  · intro hm regs stack
    rw [StoreCorrect, execute_st env _ dst src hc, BitVec.signExtend_eq_setWidth_of_msb_false hm]

/-- How far the machine implements the 32-bit part of the instruction set. -/
theorem isa32_exact (env : Environment σ) (vm : Vm σ) (x : Instruction) (dst src : Register) :
    (∀ op, x.opClass = .alu → x.aluOp = some op → op ≠ .endian → dst ≠ framePointer →
      ((∀ regs a b, Alu32Input { vm with regs := regs } x dst src op a b →
        Alu32Correct env { vm with regs := regs } x dst src op a b) ↔ exact32 x dst src op) ∧
      ∀ regs a b, Alu32Input { vm with regs := regs } x dst src op a b → a.toNat < 2 ^ 32 → b.toNat < 2 ^ 32 →
        (op = .arsh → a.toNat < 2 ^ 31) → Alu32Correct env { vm with regs := regs } x dst src op a b) ∧
    (x.opClass = .jmp32 →
      ((∀ regs regs' a b a' b', Jump32Input { vm with regs := regs } x dst src a b →
        Jump32Input { vm with regs := regs' } x dst src a' b' → low a = low a' → low b = low b' →
        Vm.condition { vm with regs := regs } x dst src = Vm.condition { vm with regs := regs' } x dst src) ↔
      lowJump x dst src)) ∧
    (x.opClass = .st → x.size = 8 →
      ((∀ regs stack, StoreCorrect env { vm with regs := regs, stack := stack } x dst src) ↔
        x.imm.msb = false)) := by
  refine ⟨fun op hc ho hop hw => ⟨alu32_exact_iff env vm hc ho hop hw, ?_⟩, fun hc => jump32_low_iff vm hc,
    fun hc hs => store_correct_iff env vm dst src hc hs⟩
  intro regs a b hin ha hb hs
  rw [alu32Correct_iff env hin]
  exact machineResult_small hop ha hb hs

end Vm

/-- `lddw r0, 1 << 32; rsh32 r0, 1; exit`. -/
def shiftProgram : List Instruction :=
  [⟨0x18, 0x00, 0, 0⟩, ⟨0x00, 0x00, 0, 1⟩, ⟨0x74, 0x00, 0, 1⟩, ⟨0x95, 0x00, 0, 0⟩]

/-- A verified program shifts a bit of the upper half into its 32-bit result,
where the instruction set gives zero. -/
theorem rsh32_reads_upper :
    (Program.verify shiftProgram (fun _ => none) noHelpers .default).toOption.map
      (fun p => p.execute bareEnvironment () 16) = some (.ok 0x80000000) ∧
    (alu32 .rsh (low 0x100000000) (low 1)).setWidth 64 = (0 : BitVec 64) := by
  decide +kernel

/-- The shift of that program, which no machine runs right on all registers. -/
theorem isa32_exact_shiftProgram :
    ¬ ∀ regs a b, Vm.Alu32Input { Vm.new ⟨shiftProgram, [], .default, 0⟩ () with regs := regs }
        ⟨0x74, 0x00, 0, 1⟩ 0 0 .rsh a b →
      Vm.Alu32Correct bareEnvironment { Vm.new ⟨shiftProgram, [], .default, 0⟩ () with regs := regs }
        ⟨0x74, 0x00, 0, 1⟩ 0 0 .rsh a b := by
  intro h
  have hx := (((Vm.isa32_exact bareEnvironment (Vm.new ⟨shiftProgram, [], .default, 0⟩ ()) ⟨0x74, 0x00, 0, 1⟩ 0 0).1
    .rsh rfl rfl (by decide) (by decide)).1).mp h
  exact absurd hx.2 (by decide)

end TheKernel.Ebpf
