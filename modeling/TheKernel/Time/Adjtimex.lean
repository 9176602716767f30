import Mathlib.Algebra.Order.Ring.Abs
import Mathlib.Tactic.Linarith
import TheKernel.Lib.Outcome

namespace TheKernel.Time

open Outcome

def ADJ_OFFSET : BitVec 32 := 0x0001
def ADJ_FREQUENCY : BitVec 32 := 0x0002
def ADJ_MAXERROR : BitVec 32 := 0x0004
def ADJ_ESTERROR : BitVec 32 := 0x0008
def ADJ_STATUS : BitVec 32 := 0x0010
def ADJ_TIMECONST : BitVec 32 := 0x0020
def ADJ_TAI : BitVec 32 := 0x0080
def ADJ_SETOFFSET : BitVec 32 := 0x0100
def ADJ_MICRO : BitVec 32 := 0x1000
def ADJ_NANO : BitVec 32 := 0x2000
def ADJ_TICK : BitVec 32 := 0x4000
def ADJ_ADJTIME : BitVec 32 := 0x8000
def ADJ_OFFSET_SINGLESHOT : BitVec 32 := 0x0001
def ADJ_OFFSET_READONLY : BitVec 32 := 0x2000

def STA_PLL : BitVec 32 := 0x0001
def STA_UNSYNC : BitVec 32 := 0x0040
def STA_CLOCKERR : BitVec 32 := 0x1000
def STA_NANO : BitVec 32 := 0x2000
/-- The bits `PPSSIGNAL`, `PPSJITTER`, `PPSWANDER`, `PPSERROR`, `CLOCKERR`,
`NANO`, `MODE` and `CLK`. -/
def STA_RONLY : BitVec 32 := 0xff00

def TIME_OK : Int := 0
def TIME_ERROR : Int := 5

def TICK_MIN : Int := 9000
def TICK_MAX : Int := 11000
def TICK_USEC : Int := 10000
def MAX_TAI_OFFSET : Int := 100000
def MAXPHASE : Int := 500000000
def NTP_PHASE_LIMIT : Int := MAXPHASE / 1000 * 2 ^ 5
def MAXTC : Int := 10
def NTP_SCALE_SHIFT : Nat := 32
def PPM_SCALE : Int := 1000 * 2 ^ 16
def PPM_SCALE_INV_SHIFT : Nat := 19
def PPM_SCALE_INV : Int := 2 ^ (PPM_SCALE_INV_SHIFT + NTP_SCALE_SHIFT) / PPM_SCALE + 1
def MAXFREQ_SCALED : Int := 500000 * 2 ^ NTP_SCALE_SHIFT
def TOLERANCE : Int := MAXFREQ_SCALED / PPM_SCALE
def PRECISION : Int := 1

inductive Reject where
  | invalidMode
  | notPermitted

structure TimexRequest where
  modes : BitVec 32
  offset : Int
  freq : Int
  maxerror : Int
  esterror : Int
  status : BitVec 32
  constant : Int
  tick : Int
  timeUsec : Int

structure TimexOutput where
  offset : Int
  freq : Int
  maxerror : Int
  esterror : Int
  status : BitVec 32
  constant : Int
  precision : Int
  tolerance : Int
  tick : Int
  tai : Int

structure TimexState where
  status : BitVec 32
  state : Int
  offsetScaled : Int
  freq : Int
  constant : Int
  maxerror : Int
  esterror : Int
  adjust : Int
  tick : Int
  tai : Int
  deriving DecidableEq

structure TimexAuthority where
  capSysTime : Bool

structure TimexUpdate where
  next : TimexState
  output : TimexOutput
  result : Int
  changed : Bool

def has (bits mask : BitVec 32) : Bool := bits &&& mask != 0

def clamp (x lo hi : Int) : Int := if x < lo then lo else if hi < x then hi else x

def asI64 (x : Int) : Int := x.bmod (2 ^ 64)

/-- A product in `i64` that does not fit panics. Those the source takes in `i128` always fit. -/
def mulI64 (x y : Int) : Outcome Reject Int := if -2 ^ 63 ≤ x * y ∧ x * y < 2 ^ 63 then .ok (x * y) else .panic

namespace TimexState

def INITIAL : TimexState := ⟨STA_UNSYNC, TIME_OK, 0, 0, 2, NTP_PHASE_LIMIT, NTP_PHASE_LIMIT, 0, TICK_USEC, 0⟩

def cleared (s : TimexState) : TimexState :=
  { s with status := s.status ||| STA_UNSYNC, maxerror := NTP_PHASE_LIMIT, esterror := NTP_PHASE_LIMIT, adjust := 0,
           offsetScaled := 0 }

end TimexState

def shiftRight (value : Int) (shift : Nat) : Int :=
  asI64 (if value < 0 then -(-value / 2 ^ shift) else value / 2 ^ shift)

def isErrorStatus (status : BitVec 32) : Bool := has status (STA_UNSYNC ||| STA_CLOCKERR)

def validateMode (request : TimexRequest) (authority : TimexAuthority) : Outcome Reject Unit :=
  if has request.modes ADJ_ADJTIME then
    if !has request.modes ADJ_OFFSET_SINGLESHOT then .err .invalidMode
    else if !has request.modes ADJ_OFFSET_READONLY && !authority.capSysTime then .err .notPermitted
    else .ok ()
  else
    if request.modes != 0 && !authority.capSysTime then .err .notPermitted
    else if has request.modes ADJ_TICK && !(TICK_MIN ≤ request.tick && request.tick ≤ TICK_MAX) then .err .invalidMode
    else .ok ()

def validateSetoffset (request : TimexRequest) (authority : TimexAuthority) : Outcome Reject Unit :=
  if has request.modes ADJ_SETOFFSET then
    if !authority.capSysTime then .err .notPermitted
    else if request.timeUsec < 0 then .err .invalidMode
    else if request.timeUsec ≥ (if has request.modes ADJ_NANO then 1000000000 else 1000000) then .err .invalidMode
    else .ok ()
  else .ok ()

def validateFrequency (request : TimexRequest) : Outcome Reject Unit :=
  if has request.modes ADJ_FREQUENCY then
    if request.freq < (-2 ^ 63 : Int).tdiv PPM_SCALE then .err .invalidMode
    else if request.freq > (2 ^ 63 - 1 : Int).tdiv PPM_SCALE then .err .invalidMode
    else .ok ()
  else .ok ()

def validate (request : TimexRequest) (authority : TimexAuthority) : Outcome Reject Unit := do
  validateMode request authority
  validateSetoffset request authority
  validateFrequency request

def updateStatus (next : TimexState) (request : TimexRequest) : TimexState :=
  let next := if has next.status STA_PLL && !has request.status STA_PLL then { next with state := TIME_OK } else next
  { next with status := (next.status &&& STA_RONLY) ||| (request.status &&& ~~~STA_RONLY) }

def requestedPhase (status : BitVec 32) (offset : Int) : Int :=
  clamp (if has status STA_NANO then offset else clamp offset (-1000000) 1000000 * 1000) (-MAXPHASE) MAXPHASE

def updateOffset (next : TimexState) (request : TimexRequest) (hz : Int) : TimexState :=
  if has next.status STA_PLL then
    { next with offsetScaled := asI64 ((requestedPhase next.status request.offset * 2 ^ NTP_SCALE_SHIFT).tdiv hz) }
  else next

def applyStatus (next : TimexState) (request : TimexRequest) : TimexState :=
  let next := if has request.modes ADJ_STATUS then updateStatus next request else next
  let next := if has request.modes ADJ_NANO then { next with status := next.status ||| STA_NANO } else next
  if has request.modes ADJ_MICRO then { next with status := next.status &&& ~~~STA_NANO } else next

def applyModes (next : TimexState) (request : TimexRequest) (hz : Int) : TimexState :=
  let modes := request.modes
  let next := applyStatus next request
  let next :=
    if has modes ADJ_FREQUENCY then
      { next with freq := asI64 (clamp (request.freq * PPM_SCALE) (-MAXFREQ_SCALED) MAXFREQ_SCALED) }
    else next
  let next :=
    if has modes ADJ_MAXERROR then { next with maxerror := clamp request.maxerror 0 NTP_PHASE_LIMIT } else next
  let next :=
    if has modes ADJ_ESTERROR then { next with esterror := clamp request.esterror 0 NTP_PHASE_LIMIT } else next
  let next :=
    if has modes ADJ_TIMECONST then
      let constant := clamp request.constant 0 MAXTC
      let constant := if has next.status STA_NANO then constant else constant + 4
      { next with constant := clamp constant 0 MAXTC }
    else next
  let next :=
    if has modes ADJ_TAI && (0 ≤ request.constant && request.constant ≤ MAX_TAI_OFFSET) then
      { next with tai := request.constant.bmod (2 ^ 32) }
    else next
  let next := if has modes ADJ_OFFSET then updateOffset next request hz else next
  if has modes ADJ_TICK then { next with tick := request.tick } else next

def renderOffset (s : TimexState) (hz : Int) : Int :=
  let nanos := shiftRight (asI64 (s.offsetScaled * hz)) NTP_SCALE_SHIFT
  if has s.status STA_NANO then nanos else nanos.tdiv 1000

def renderFreq (timeFreq : Int) : Outcome Reject Int := do
  let scaled ← mulI64 (shiftRight timeFreq PPM_SCALE_INV_SHIFT) PPM_SCALE_INV
  .ok (shiftRight scaled NTP_SCALE_SHIFT)

def nextState (s : TimexState) (request : TimexRequest) (hz : Int) : TimexState :=
  let next := if has request.modes ADJ_SETOFFSET then s.cleared else s
  if has request.modes ADJ_ADJTIME then
    if has request.modes ADJ_OFFSET_READONLY then next else { next with adjust := request.offset }
  else if request.modes != 0 then applyModes next request hz
  else next

def adjust (s : TimexState) (request : TimexRequest) (authority : TimexAuthority) (hz : Int) :
    Outcome Reject TimexUpdate :=
  if hz ≤ 0 then .panic else do
  validate request authority
  let next := nextState s request hz
  let freq ← renderFreq next.freq
  let output : TimexOutput :=
    { offset := if has request.modes ADJ_ADJTIME then s.adjust else renderOffset next hz
      freq := freq
      maxerror := next.maxerror
      esterror := next.esterror
      status := next.status
      constant := next.constant
      precision := PRECISION
      tolerance := TOLERANCE
      tick := next.tick
      tai := next.tai }
  .ok ⟨next, output, if isErrorStatus next.status then TIME_ERROR else next.state, next ≠ s⟩

/-- What the calls so far have asked for: the frequency in the request's units
and the phase in nanoseconds, both clamped. -/
structure Requested where
  freq : Int
  phase : Int

/-- A call that sets the frequency or, with the PLL on, the phase replaces what
was asked for; an injected time step drops the phase. -/
def Requested.after (q : Requested) (request : TimexRequest) (status : BitVec 32) : Requested where
  freq :=
    if !has request.modes ADJ_ADJTIME && has request.modes ADJ_FREQUENCY then clamp request.freq (-TOLERANCE) TOLERANCE
    else q.freq
  phase :=
    if !has request.modes ADJ_ADJTIME && has request.modes ADJ_OFFSET && has status STA_PLL then
      requestedPhase status request.offset
    else if has request.modes ADJ_SETOFFSET then 0
    else q.phase

/-- The states a sequence of calls leads to. A refused call changes nothing. -/
inductive Run (hz : Int) : TimexState → Requested → Prop where
  | initial : Run hz .INITIAL ⟨0, 0⟩
  | call {s : TimexState} {q : Requested} {request : TimexRequest} {authority : TimexAuthority} {u : TimexUpdate}
      (h : Run hz s q) (hcall : adjust s request authority hz = .ok u) :
      Run hz u.next (q.after request u.next.status)

structure InRange (hz : Int) (s : TimexState) : Prop where
  freq : |s.freq| ≤ MAXFREQ_SCALED
  maxerror : 0 ≤ s.maxerror ∧ s.maxerror ≤ NTP_PHASE_LIMIT
  esterror : 0 ≤ s.esterror ∧ s.esterror ≤ NTP_PHASE_LIMIT
  constant : 0 ≤ s.constant ∧ s.constant ≤ MAXTC
  tick : TICK_MIN ≤ s.tick ∧ s.tick ≤ TICK_MAX
  tai : 0 ≤ s.tai ∧ s.tai ≤ MAX_TAI_OFFSET
  offset : |s.offsetScaled * hz| ≤ MAXPHASE * 2 ^ NTP_SCALE_SHIFT

/-- `r` is `p` or the value next to it towards zero. -/
def NextToZero (r p : Int) : Prop := 0 ≤ r ∧ r ≤ p ∧ p ≤ r + 1 ∨ p ≤ r ∧ r ≤ 0 ∧ r ≤ p + 1

section Fields

variable {s : TimexState} {request : TimexRequest} {hz : Int}

theorem clamp_mem {x lo hi : Int} (h : lo ≤ hi) : lo ≤ clamp x lo hi ∧ clamp x lo hi ≤ hi := by
  rw [clamp]
  split
  · omega
  · split <;> omega

theorem asI64_of_abs_lt {x : Int} (h : |x| < 2 ^ 63) : asI64 x = x := by
  obtain ⟨hlo, hhi⟩ := abs_lt.mp h
  exact Int.bmod_eq_of_le (by omega) (by omega)

theorem shiftRight_of_abs_lt {x : Int} (h : |x| < 2 ^ 63) (n : Nat) :
    shiftRight x n = if x < 0 then -(-x / 2 ^ n) else x / 2 ^ n := by
  obtain ⟨hlo, hhi⟩ := abs_lt.mp h
  have hpos : (0 : Int) < 2 ^ n := by positivity
  refine asI64_of_abs_lt (abs_lt.mpr ?_)
  split
  · have h0 := Int.ediv_nonneg (a := -x) (by omega) hpos.le
    have h1 := Int.ediv_le_self (2 ^ n) (a := -x) (by omega)
    omega
  · have h0 := Int.ediv_nonneg (a := x) (by omega) hpos.le
    have h1 := Int.ediv_le_self (2 ^ n) (a := x) (by omega)
    omega

/-- Reading a frequency back undoes the scaling: the reciprocal is a little too
large, but its error stays below one unit for every frequency in range. -/
theorem renderFreq_scaled {f : Int} (h : |f| ≤ TOLERANCE) : renderFreq (f * PPM_SCALE) = .ok f := by
  have htol : TOLERANCE = 32768000 := by decide
  have hscale : PPM_SCALE = 65536000 := by decide
  have hinv : PPM_SCALE_INV = 34359739 := by decide
  rw [htol, abs_le] at h
  have hshift : shiftRight (f * PPM_SCALE) PPM_SCALE_INV_SHIFT = f * 125 := by
    rw [shiftRight_of_abs_lt (by rw [hscale, abs_lt]; omega), hscale]
    simp only [PPM_SCALE_INV_SHIFT]
    split <;> omega
  have hmul : mulI64 (f * 125) PPM_SCALE_INV = .ok (f * 4294967375) := by
    rw [mulI64, hinv, if_pos (by omega)]
    congr 1
    omega
  rw [renderFreq, hshift, hmul, ok_bind, shiftRight_of_abs_lt (by rw [abs_lt]; omega)]
  simp only [NTP_SCALE_SHIFT]
  congr 1
  split <;> omega

theorem clamp_scaled (f : Int) :
    asI64 (clamp (f * PPM_SCALE) (-MAXFREQ_SCALED) MAXFREQ_SCALED) = clamp f (-TOLERANCE) TOLERANCE * PPM_SCALE := by
  have htol : TOLERANCE = 32768000 := by decide
  have hscale : PPM_SCALE = 65536000 := by decide
  have hmax : MAXFREQ_SCALED = 2147483648000000 := by decide
  have hin : -MAXFREQ_SCALED ≤ clamp (f * PPM_SCALE) (-MAXFREQ_SCALED) MAXFREQ_SCALED ∧
      clamp (f * PPM_SCALE) (-MAXFREQ_SCALED) MAXFREQ_SCALED ≤ MAXFREQ_SCALED := clamp_mem (by rw [hmax]; omega)
  rw [asI64_of_abs_lt (by rw [abs_lt]; omega)]
  simp only [clamp, htol, hscale, hmax]
  split <;> split <;> (try split) <;> (try split) <;> omega

/-- The stored phase, multiplied back, falls short of the requested one by less
than the tick rate. -/
theorem tdiv_mul_mem (hlo : 1 ≤ hz) {n : Int} :
    (0 ≤ n → n - hz < n.tdiv hz * hz ∧ n.tdiv hz * hz ≤ n) ∧ (n ≤ 0 → n ≤ n.tdiv hz * hz ∧
      n.tdiv hz * hz < n + hz) := by
  have hpart : ∀ {m : Int}, 0 ≤ m → m - hz < m.tdiv hz * hz ∧ m.tdiv hz * hz ≤ m := by
    intro m hm
    rw [Int.tdiv_eq_ediv_of_nonneg hm]
    have hmod := Int.emod_add_mul_ediv m hz
    have h0 := Int.emod_nonneg m (b := hz) (by omega)
    have h1 := Int.emod_lt_of_pos m (b := hz) (by omega)
    rw [mul_comm] at hmod
    omega
  refine ⟨hpart, fun hn => ?_⟩
  have hneg := hpart (m := -n) (by omega)
  rw [Int.neg_tdiv, neg_mul] at hneg
  omega

theorem phase_stored (hlo : 1 ≤ hz) (hhi : hz ≤ 2 ^ 32) {p : Int} (hp : |p| ≤ MAXPHASE) :
    asI64 ((p * 2 ^ NTP_SCALE_SHIFT).tdiv hz) = (p * 2 ^ NTP_SCALE_SHIFT).tdiv hz ∧
      |(p * 2 ^ NTP_SCALE_SHIFT).tdiv hz * hz| ≤ MAXPHASE * 2 ^ NTP_SCALE_SHIFT ∧
      NextToZero (shiftRight (asI64 ((p * 2 ^ NTP_SCALE_SHIFT).tdiv hz * hz)) NTP_SCALE_SHIFT) p := by
  simp only [NTP_SCALE_SHIFT, MAXPHASE] at hp ⊢
  obtain ⟨hpos, hneg⟩ := tdiv_mul_mem hlo (n := p * 2 ^ 32)
  obtain ⟨hplo, hphi⟩ := abs_le.mp hp
  have hbound : |(p * 2 ^ 32).tdiv hz * hz| ≤ 500000000 * 2 ^ 32 := by
    rw [abs_le]
    rcases le_total 0 p with h | h
    · have := hpos (by omega)
      generalize (p * 2 ^ 32).tdiv hz * hz = m at *
      omega
    · have := hneg (by omega)
      generalize (p * 2 ^ 32).tdiv hz * hz = m at *
      omega
  refine ⟨asI64_of_abs_lt ?_, hbound, ?_⟩
  · have hle : |(p * 2 ^ 32).tdiv hz| ≤ |(p * 2 ^ 32).tdiv hz * hz| := by
      rw [abs_mul]
      exact le_mul_of_one_le_right (abs_nonneg _) (by rw [abs_of_pos (by omega)]; omega)
    omega
  · have hsmall : |(p * 2 ^ 32).tdiv hz * hz| < 2 ^ 63 := by omega
    rw [asI64_of_abs_lt hsmall, shiftRight_of_abs_lt hsmall, NextToZero]
    generalize (p * 2 ^ 32).tdiv hz * hz = m at *
    rcases le_total 0 p with h | h
    · have := hpos (by omega)
      split <;> omega
    · have := hneg (by omega)
      split <;> omega

end Fields

section Modes

variable {s : TimexState} {q : Requested} {request : TimexRequest} {authority : TimexAuthority} {hz : Int}

theorem applyStatus_fields : (applyStatus s request).freq = s.freq ∧ (applyStatus s request).maxerror = s.maxerror ∧
    (applyStatus s request).esterror = s.esterror ∧ (applyStatus s request).constant = s.constant ∧
    (applyStatus s request).tai = s.tai ∧ (applyStatus s request).tick = s.tick ∧
    (applyStatus s request).offsetScaled = s.offsetScaled := by
  simp only [applyStatus, updateStatus, apply_ite TimexState.freq, apply_ite TimexState.maxerror,
    apply_ite TimexState.esterror,
    apply_ite TimexState.constant, apply_ite TimexState.tai, apply_ite TimexState.tick,
      apply_ite TimexState.offsetScaled,
    ite_self, and_self]

theorem applyModes_freq : (applyModes s request hz).freq =
    if has request.modes ADJ_FREQUENCY then clamp request.freq (-TOLERANCE) TOLERANCE * PPM_SCALE else s.freq := by
  simp only [applyModes, updateOffset, apply_ite TimexState.freq, ite_self, clamp_scaled, applyStatus_fields]

theorem applyModes_maxerror : (applyModes s request hz).maxerror =
    if has request.modes ADJ_MAXERROR then clamp request.maxerror 0 NTP_PHASE_LIMIT else s.maxerror := by
  simp only [applyModes, updateOffset, apply_ite TimexState.maxerror, ite_self, applyStatus_fields]

theorem applyModes_esterror : (applyModes s request hz).esterror =
    if has request.modes ADJ_ESTERROR then clamp request.esterror 0 NTP_PHASE_LIMIT else s.esterror := by
  simp only [applyModes, updateOffset, apply_ite TimexState.esterror, ite_self, applyStatus_fields]

theorem applyModes_constant : (applyModes s request hz).constant = s.constant ∨
    ∃ c, (applyModes s request hz).constant = clamp c 0 MAXTC := by
  simp only [applyModes, updateOffset, apply_ite TimexState.constant, apply_ite TimexState.status, ite_self,
    applyStatus_fields]
  split
  · exact .inr ⟨_, rfl⟩
  · exact .inl rfl

theorem applyModes_tai : (applyModes s request hz).tai =
    if has request.modes ADJ_TAI && (0 ≤ request.constant && request.constant ≤ MAX_TAI_OFFSET) then
      request.constant.bmod (2 ^ 32)
    else s.tai := by
  simp only [applyModes, updateOffset, apply_ite TimexState.tai, ite_self, applyStatus_fields]

theorem applyModes_tick : (applyModes s request hz).tick =
    if has request.modes ADJ_TICK then request.tick
    else s.tick := by
  simp only [applyModes, updateOffset, apply_ite TimexState.tick, ite_self, applyStatus_fields]

theorem applyModes_status : (applyModes s request hz).status = (applyStatus s request).status := by
  simp only [applyModes, updateOffset, apply_ite TimexState.status, ite_self]

theorem applyModes_offsetScaled : (applyModes s request hz).offsetScaled =
    if has request.modes ADJ_OFFSET && has (applyModes s request hz).status STA_PLL then
      asI64 ((requestedPhase (applyModes s request hz).status request.offset * 2 ^ NTP_SCALE_SHIFT).tdiv hz)
    else s.offsetScaled := by
  rw [applyModes_status]
  simp only [applyModes, updateOffset, apply_ite TimexState.status, apply_ite TimexState.offsetScaled, ite_self,
    applyStatus_fields, Bool.and_eq_true]
  by_cases h : has request.modes ADJ_OFFSET
  · simp [h]
  · simp [h]

structure Sound (hz : Int) (s : TimexState) (q : Requested) : Prop where
  freq : s.freq = q.freq * PPM_SCALE
  freqRange : |q.freq| ≤ TOLERANCE
  phase : s.offsetScaled = (q.phase * 2 ^ NTP_SCALE_SHIFT).tdiv hz
  phaseRange : |q.phase| ≤ MAXPHASE
  maxerror : 0 ≤ s.maxerror ∧ s.maxerror ≤ NTP_PHASE_LIMIT
  esterror : 0 ≤ s.esterror ∧ s.esterror ≤ NTP_PHASE_LIMIT
  constant : 0 ≤ s.constant ∧ s.constant ≤ MAXTC
  tick : TICK_MIN ≤ s.tick ∧ s.tick ≤ TICK_MAX
  tai : 0 ≤ s.tai ∧ s.tai ≤ MAX_TAI_OFFSET

namespace Sound

theorem initial : Sound hz .INITIAL ⟨0, 0⟩ := by
  constructor <;> simp [TimexState.INITIAL, TOLERANCE, MAXFREQ_SCALED, NTP_SCALE_SHIFT, PPM_SCALE, MAXPHASE,
    NTP_PHASE_LIMIT, MAXTC, TICK_MIN, TICK_MAX, TICK_USEC, MAX_TAI_OFFSET]

theorem inRange (h : Sound hz s q) (hlo : 1 ≤ hz) (hhi : hz ≤ 2 ^ 32) : InRange hz s where
  freq := by
    rw [h.freq, abs_mul]
    have hscale : |PPM_SCALE| = 65536000 := by decide
    have hmax : MAXFREQ_SCALED = TOLERANCE * 65536000 := by decide
    have := h.freqRange
    rw [hscale, hmax]
    omega
  maxerror := h.maxerror
  esterror := h.esterror
  constant := h.constant
  tick := h.tick
  tai := h.tai
  offset := by
    rw [h.phase]
    exact (phase_stored hlo hhi h.phaseRange).2.1

theorem cleared (h : Sound hz s q) : Sound hz s.cleared { q with phase := 0 } :=
  { h with
    phase := by simp [TimexState.cleared]
    phaseRange := by simp [MAXPHASE]
    maxerror := by simp [TimexState.cleared, NTP_PHASE_LIMIT, MAXPHASE]
    esterror := by simp [TimexState.cleared, NTP_PHASE_LIMIT, MAXPHASE] }

theorem applyModes (h : Sound hz s q) (hlo : 1 ≤ hz) (hhi : hz ≤ 2 ^ 32)
    (htick : has request.modes ADJ_TICK = true → TICK_MIN ≤ request.tick ∧ request.tick ≤ TICK_MAX) :
    Sound hz (applyModes s request hz)
      ⟨if has request.modes ADJ_FREQUENCY then clamp request.freq (-TOLERANCE) TOLERANCE else q.freq,
        if has request.modes ADJ_OFFSET && has (Time.applyModes s request hz).status STA_PLL then
          requestedPhase (Time.applyModes s request hz).status request.offset
        else q.phase⟩ := by
  have hlimit : 0 ≤ NTP_PHASE_LIMIT := by decide
  constructor
  case freq =>
      rw [applyModes_freq]
      split
      · rfl
      · exact h.freq
  case freqRange =>
      simp only
      split
      · exact abs_le.mpr (clamp_mem (by decide))
      · exact h.freqRange
  case phase =>
      rw [applyModes_offsetScaled]
      simp only
      split
      · exact (phase_stored hlo hhi (abs_le.mpr (clamp_mem (by decide)))).1
      · exact h.phase
  case phaseRange =>
      simp only
      split
      · exact abs_le.mpr (clamp_mem (by decide))
      · exact h.phaseRange
  case maxerror =>
      rw [applyModes_maxerror]
      split
      · exact clamp_mem hlimit
      · exact h.maxerror
  case esterror =>
      rw [applyModes_esterror]
      split
      · exact clamp_mem hlimit
      · exact h.esterror
  case constant =>
      obtain heq | ⟨c, heq⟩ := @applyModes_constant s request hz
      · rw [heq]
        exact h.constant
      · rw [heq]
        exact clamp_mem (by decide)
  case tick =>
      rw [applyModes_tick]
      split
      case isTrue hset => exact htick hset
      case isFalse => exact h.tick
  case tai =>
      rw [applyModes_tai]
      split
      case isTrue hset =>
          simp only [Bool.and_eq_true, decide_eq_true_eq] at hset
          obtain ⟨-, hlo, hhi⟩ := hset
          have hmax : MAX_TAI_OFFSET = 100000 := rfl
          rw [Int.bmod_eq_of_le (by omega) (by omega)]
          exact ⟨hlo, hhi⟩
      case isFalse => exact h.tai

end Sound

theorem of_validate (h : validate request authority = .ok ()) :
    (has request.modes ADJ_ADJTIME = false → has request.modes ADJ_TICK = true →
      TICK_MIN ≤ request.tick ∧ request.tick ≤ TICK_MAX) ∧
    (authority.capSysTime = false → has request.modes ADJ_SETOFFSET = false ∧
      (has request.modes ADJ_ADJTIME = true ∧ has request.modes ADJ_OFFSET_READONLY = true ∨ request.modes = 0)) := by
  rw [validate, unit_bind_eq_ok, unit_bind_eq_ok] at h
  obtain ⟨hmode, hset, -⟩ := h
  refine ⟨fun hadj htick => ?_, fun hcap => ⟨?_, ?_⟩⟩
  · rw [validateMode, if_neg (by simp [hadj]), guard_eq_ok, guard_eq_ok] at hmode
    have hrange := hmode.2.1
    simpa [htick] using hrange
  · by_contra hsetoffset
    rw [validateSetoffset, if_pos (by simpa using hsetoffset), guard_eq_ok] at hset
    exact hset.1 (by simp [hcap])
  · rw [validateMode] at hmode
    split at hmode
    case isTrue hadj =>
        rw [guard_eq_ok, guard_eq_ok] at hmode
        exact .inl ⟨hadj, by simpa [hcap] using hmode.2.1⟩
    case isFalse =>
        rw [guard_eq_ok] at hmode
        exact .inr (by simpa [hcap] using hmode.1)

theorem validate_ne_panic (request : TimexRequest) (authority : TimexAuthority) :
    validate request authority ≠ .panic := by
  refine bind_ne_panic ?_ fun _ _ => bind_ne_panic ?_ fun _ _ => ?_
  · rw [validateMode]
    split
    · exact guard_ne_panic (guard_ne_panic (by simp))
    · exact guard_ne_panic (guard_ne_panic (by simp))
  · rw [validateSetoffset]
    split
    · exact guard_ne_panic (guard_ne_panic (guard_ne_panic (by simp)))
    · simp
  · rw [validateFrequency]
    split
    · exact guard_ne_panic (guard_ne_panic (by simp))
    · simp

/-- An accepted call leads from a sound state to a sound state. -/
theorem Sound.nextState (h : Sound hz s q) (hlo : 1 ≤ hz) (hhi : hz ≤ 2 ^ 32)
    (hvalid : validate request authority = .ok ()) :
    Sound hz (nextState s request hz) (q.after request (nextState s request hz).status) := by
  obtain ⟨htick, -⟩ := of_validate hvalid
  -- the state the modes are applied to
  obtain ⟨s₀, hs₀⟩ : ∃ s₀, s₀ = if has request.modes ADJ_SETOFFSET then s.cleared else s := ⟨_, rfl⟩
  have hstart : Sound hz s₀ ⟨q.freq, if has request.modes ADJ_SETOFFSET then 0 else q.phase⟩ := by
    rw [hs₀]
    split
    · exact h.cleared
    · exact h
  cases hadj : has request.modes ADJ_ADJTIME with
  | true =>
      have hafter : ∀ status, q.after request status = ⟨q.freq,
          if has request.modes ADJ_SETOFFSET then 0 else q.phase⟩ := by
        intro status
        simp [Requested.after, hadj]
      rw [hafter, Time.nextState, if_pos hadj, ← hs₀]
      split
      · exact hstart
      · exact { hstart with }
  | false =>
      have hnext : Time.nextState s request hz = if request.modes != 0 then Time.applyModes s₀ request hz else s₀ := by
        rw [Time.nextState, if_neg (by simp [hadj]), ← hs₀]
      rw [hnext]
      split
      case isTrue =>
          have happly := hstart.applyModes hlo hhi (htick hadj)
          simpa [Requested.after, hadj] using happly
      case isFalse hzero =>
          have hzero : request.modes = 0 := by simpa using hzero
          have hnone : ∀ mask, has request.modes mask = false := by
            intro mask
            simp [hzero, has]
          simpa [Requested.after, hnone] using hstart

theorem adjust_eq_ok (hlo : 1 ≤ hz) {u : TimexUpdate} (h : adjust s request authority hz = .ok u) :
    validate request authority = .ok () ∧ u.next = nextState s request hz ∧
      renderFreq (nextState s request hz).freq = .ok u.output.freq ∧
      (has request.modes ADJ_ADJTIME = false → u.output.offset = renderOffset (nextState s request hz) hz) := by
  rw [adjust, if_neg (by omega), unit_bind_eq_ok, bind_eq_ok] at h
  obtain ⟨hvalid, freq, hfreq, hu⟩ := h
  obtain rfl := ok.inj hu
  exact ⟨hvalid, rfl, hfreq, fun hadj => if_neg (by simp [hadj])⟩

theorem Run.sound (hlo : 1 ≤ hz) (hhi : hz ≤ 2 ^ 32) (h : Run hz s q) : Sound hz s q := by
  induction h with
  | initial => exact .initial
  | call _ hcall ih =>
      obtain ⟨hvalid, hnext, -⟩ := adjust_eq_ok hlo hcall
      rw [hnext]
      exact ih.nextState hlo hhi hvalid

theorem nextState_eq_self (hset : has request.modes ADJ_SETOFFSET = false)
    (h : has request.modes ADJ_ADJTIME = true ∧ has request.modes ADJ_OFFSET_READONLY = true ∨ request.modes = 0) :
    nextState s request hz = s := by
  simp only [nextState, hset]
  rcases h with ⟨hadj, hread⟩ | hzero
  · simp [hadj, hread]
  · simp [hzero, has]

end Modes

/-- In every run the fields stay in range and no call overflows; every call
reads back the frequency last asked for, and in nanosecond mode the phase last
asked for up to one nanosecond towards zero; a call without `CAP_SYS_TIME`
changes nothing. -/
theorem adjust_run_bounded {hz : Int} (hlo : 1 ≤ hz) (hhi : hz ≤ 2 ^ 32) {s : TimexState} {q : Requested}
    (h : Run hz s q) : InRange hz s ∧ ∀ (request : TimexRequest) (authority : TimexAuthority),
      adjust s request authority hz ≠ .panic ∧
      ∀ u, adjust s request authority hz = .ok u →
        InRange hz u.next ∧
        u.output.freq = (q.after request u.next.status).freq ∧
        (has request.modes ADJ_ADJTIME = false → has u.next.status STA_NANO = true →
          NextToZero u.output.offset (q.after request u.next.status).phase) ∧
        (authority.capSysTime = false → u.next = s) := by
  have hs := h.sound hlo hhi
  refine ⟨hs.inRange hlo hhi, fun request authority => ⟨?_, fun u hu => ?_⟩⟩
  · rw [adjust, if_neg (by omega)]
    refine bind_ne_panic (validate_ne_panic request authority) fun _ hvalid => bind_ne_panic ?_ fun _ _ => by simp
    have hnext := hs.nextState hlo hhi hvalid
    rw [hnext.freq, renderFreq_scaled hnext.freqRange]
    simp
  · obtain ⟨hvalid, hnext, hfreq, hoffset⟩ := adjust_eq_ok hlo hu
    have hs' := hs.nextState hlo hhi hvalid
    rw [← hnext] at hs' hfreq hoffset
    refine ⟨hs'.inRange hlo hhi, ?_, fun hadj hnano => ?_, fun hcap => ?_⟩
    · rw [hs'.freq, renderFreq_scaled hs'.freqRange] at hfreq
      exact (ok.inj hfreq).symm
    · rw [hoffset hadj, renderOffset, if_pos hnano, hs'.phase]
      exact (phase_stored hlo hhi hs'.phaseRange).2.2
    · obtain ⟨hset, hread⟩ := (of_validate hvalid).2 hcap
      rw [hnext, nextState_eq_self hset hread]

/-- One call in nanosecond mode at 1000 Hz: the phase of 25 ns reads back as 24. -/
theorem adjust_run_bounded_readback :
    ∃ u, adjust .INITIAL ⟨0x2013, 25, 40000000, 0, 0, 1, 0, 0, 0⟩ ⟨true⟩ 1000 = .ok u ∧ InRange 1000 u.next ∧
      u.output.freq = 32768000 ∧ u.output.offset = 24 ∧ NextToZero u.output.offset 25 :=
  have h := ((adjust_run_bounded (by decide) (by decide) (.initial : Run 1000 _ _)).2
    ⟨0x2013, 25, 40000000, 0, 0, 1, 0, 0, 0⟩ ⟨true⟩).2 _ rfl
  ⟨_, rfl, h.1, rfl, rfl, h.2.2.1 rfl rfl⟩

end TheKernel.Time
