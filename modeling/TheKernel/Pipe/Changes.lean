import TheKernel.Pipe.Ring

namespace TheKernel.Pipe

section

variable {lo hi pos len : Nat} {flags : UInt8} {mark : PipeBufferMark} {marks : List PipeBufferMark}

/-- The marks are non-empty, in order and disjoint, and lie inside `[lo, hi)`. -/
def MarksIn : Nat → List PipeBufferMark → Nat → Prop
  | lo, [], hi => lo ≤ hi
  | lo, mark :: marks, hi => lo ≤ mark.start ∧ 0 < mark.len ∧ MarksIn (mark.start + mark.len) marks hi

def tailStart : Nat → List PipeBufferMark → Nat
  | lo, [] => lo
  | _, mark :: marks => tailStart (mark.start + mark.len) marks

def trim (pos : Nat) (marks : List PipeBufferMark) : List PipeBufferMark :=
  (marks.dropWhile fun mark => mark.start + mark.len ≤ pos).modifyHead (PipeRing.trimMark pos)

theorem MarksIn.le (h : MarksIn lo marks hi) : lo ≤ hi := by
  induction marks generalizing lo with
  | nil => exact h
  | cons mark marks ih =>
      obtain ⟨hlo, _, hrest⟩ := h
      have := ih hrest
      omega

theorem MarksIn.le_tailStart (h : MarksIn lo marks hi) : lo ≤ tailStart lo marks := by
  induction marks generalizing lo with
  | nil => exact le_rfl
  | cons mark marks ih =>
      obtain ⟨hlo, _, hrest⟩ := h
      have := ih hrest
      simp only [tailStart]
      omega

theorem MarksIn.tailStart_le (h : MarksIn lo marks hi) : tailStart lo marks ≤ hi := by
  induction marks generalizing lo with
  | nil => exact h
  | cons mark marks ih => exact ih h.2.2

theorem MarksIn.le_start (h : MarksIn lo marks hi) (hmark : mark ∈ marks) : lo ≤ mark.start := by
  induction marks generalizing lo with
  | nil => cases hmark
  | cons first marks ih =>
      obtain ⟨hlo, hlen, hrest⟩ := h
      cases hmark with
      | head => exact hlo
      | tail _ hmem =>
          have := ih hrest hmem
          omega

theorem MarksIn.grow {hi' : Nat} (h : MarksIn lo marks hi) (hle : hi ≤ hi') : MarksIn lo marks hi' := by
  induction marks generalizing lo with
  | nil => exact le_trans h hle
  | cons mark marks ih => exact ⟨h.1, h.2.1, ih h.2.2⟩

theorem MarksIn.push (h : MarksIn lo marks hi) (hlen : 0 < len) :
    MarksIn lo (marks ++ [⟨hi, len, flags⟩]) (hi + len) := by
  induction marks generalizing lo with
  | nil => exact ⟨h, hlen, le_rfl⟩
  | cons mark marks ih => exact ⟨h.1, h.2.1, ih h.2.2⟩

theorem tailStart_push : tailStart lo (marks ++ [mark]) = mark.start + mark.len := by
  induction marks generalizing lo with
  | nil => rfl
  | cons first marks ih => exact ih

theorem tailStart_getLast (h : marks.getLast? = some mark) : tailStart lo marks = mark.start + mark.len := by
  obtain ⟨front, rfl⟩ := List.getLast?_eq_some_iff.mp h
  exact tailStart_push

theorem trim_cons_passed (h : mark.start + mark.len ≤ pos) : trim pos (mark :: marks) = trim pos marks := by
  simp [trim, h]

theorem trim_cons_left (h : pos < mark.start + mark.len) :
    trim pos (mark :: marks) = PipeRing.trimMark pos mark :: marks := by
  simp [trim, h]

theorem trimMark_stop (h : pos < mark.start + mark.len) :
    (PipeRing.trimMark pos mark).start + (PipeRing.trimMark pos mark).len = mark.start + mark.len := by
  rw [PipeRing.trimMark]
  split
  · simp only
    omega
  · rfl

theorem trimMark_start (pos : Nat) (mark : PipeBufferMark) : pos ≤ (PipeRing.trimMark pos mark).start := by
  rw [PipeRing.trimMark]
  split
  · exact le_rfl
  · omega

theorem trimMark_len (hlen : 0 < mark.len) (h : pos < mark.start + mark.len) :
    0 < (PipeRing.trimMark pos mark).len := by
  rw [PipeRing.trimMark]
  split
  · simp only
    omega
  · exact hlen

theorem MarksIn.trim (h : MarksIn lo marks hi) (hpos : pos ≤ hi) : MarksIn pos (trim pos marks) hi := by
  induction marks generalizing lo with
  | nil => exact hpos
  | cons mark marks ih =>
      obtain ⟨_, hlen, hrest⟩ := h
      rcases Nat.lt_or_ge pos (mark.start + mark.len) with hleft | hpassed
      · have hstart := trimMark_start pos mark
        have hstop := trimMark_stop hleft
        rw [trim_cons_left hleft]
        refine ⟨hstart, trimMark_len hlen hleft, ?_⟩
        rw [hstop]
        exact hrest
      · rw [trim_cons_passed hpassed]
        exact ih hrest

theorem MarksIn.tailStart_trim (h : MarksIn lo marks hi) (hlo : lo ≤ pos) :
    tailStart pos (Pipe.trim pos marks) = max (tailStart lo marks) pos := by
  induction marks generalizing lo with
  | nil => exact (max_eq_right hlo).symm
  | cons mark marks ih =>
      obtain ⟨_, hlen, hrest⟩ := h
      rcases Nat.lt_or_ge pos (mark.start + mark.len) with hleft | hpassed
      · have hle := hrest.le_tailStart
        rw [trim_cons_left hleft]
        simp only [tailStart, trimMark_stop hleft]
        omega
      · rw [trim_cons_passed hpassed]
        exact ih hrest hpassed

theorem length_trim_le (pos : Nat) (marks : List PipeBufferMark) : (trim pos marks).length ≤ marks.length := by
  rw [trim, List.length_modifyHead]
  exact (List.dropWhile_suffix _).length_le

theorem divCeil_mono {a b : Nat} (d : Nat) (h : a ≤ b) : divCeil a d ≤ divCeil b d := by
  rw [divCeil, divCeil]
  exact Nat.div_le_div_right (by omega)

end

variable {r r' : PipeRing} {xs ys : List UInt8} {flags : UInt8} {n m : Nat}

structure PipeRing.Sound (r : PipeRing) : Prop where
  positions : r.writePos = r.readPos + r.bytes.items.length
  marks : MarksIn r.readPos r.marks.items r.writePos
  slots : r.occupiedBuffers ≤ r.marks.capacity
  capacity : r.marks.capacity = PipeRing.maxUsage r.capacity
  pages : pipeBufSize ∣ r.capacity

namespace PipeRing

def pushStream (r : PipeRing) (xs : List UInt8) : PipeRing :=
  { r with bytes := r.bytes.extend xs }.commitStream xs.length

def pushPacket (r : PipeRing) (xs : List UInt8) (flags : UInt8) : PipeRing :=
  { r with bytes := r.bytes.extend xs }.commitPacket xs.length flags

def StreamFits (r : PipeRing) (xs : List UInt8) : Prop :=
  xs.length ≤ r.vacantLen ∧ r.marks.items.length + divCeil (r.tailStreamLen + xs.length) pipeBufSize ≤ r.marks.capacity

/-- The bytes have room, a slot is free, and the mark ring accepts their mark. -/
def PacketFits (r : PipeRing) (xs : List UInt8) (flags : UInt8) : Prop :=
  0 < xs.length ∧ xs.length ≤ r.vacantLen ∧ pipeRingFull r = false ∧
    (r.marks.tryPush ⟨r.writePos, xs.length, flags⟩).1 = true

end PipeRing

inductive Pushes : PipeRing → List UInt8 → PipeRing → Prop
  | done (r : PipeRing) : Pushes r [] r
  | stream {r r' : PipeRing} {xs ys : List UInt8} (h : r.StreamFits xs) (rest : Pushes (r.pushStream xs) ys r') :
      Pushes r (xs ++ ys) r'
  | packet {r r' : PipeRing} {xs ys : List UInt8} {flags : UInt8} (h : r.PacketFits xs flags)
      (rest : Pushes (r.pushPacket xs flags) ys r') : Pushes r (xs ++ ys) r'

inductive Consumes : PipeRing → Nat → PipeRing → Prop
  | done (r : PipeRing) : Consumes r 0 r
  | step {r r' : PipeRing} {n m : Nat} (h : n ≤ r.occupiedLen) (rest : Consumes (r.advanceRead n) m r') :
      Consumes r (n + m) r'

namespace PipeRing

theorem tailStreamLen_eq (hpos : r.writePos = r.readPos + r.bytes.items.length) :
    r.tailStreamLen = r.writePos - tailStart r.readPos r.marks.items := by
  rw [tailStreamLen]
  split
  · rename_i mark hlast
    rw [tailStart_getLast hlast, Nat.sub_sub]
  · rename_i hnone
    rw [List.getLast?_eq_none_iff.mp hnone, tailStart, occupiedLen, Fifo.occupiedLen]
    omega

theorem tailStreamLen_le (h : r.Sound) : r.tailStreamLen ≤ r.occupiedLen := by
  have hpos := h.positions
  have hle := h.marks.le_tailStart
  rw [tailStreamLen_eq hpos, occupiedLen, Fifo.occupiedLen]
  omega

/-- The free slots are those that marks and tail pages leave. -/
theorem slots_eq (h : r.Sound) :
    r.marks.items.length + divCeil r.tailStreamLen pipeBufSize + r.vacantBuffers = r.marks.capacity := by
  have hslots := h.slots
  rw [vacantBuffers]
  rw [occupiedBuffers, Fifo.occupiedLen] at *
  omega

theorem Sound.new {capacity : Nat} (hpages : pipeBufSize ∣ capacity) : (PipeRing.new capacity).Sound := by
  refine ⟨rfl, le_rfl, ?_, rfl, hpages⟩
  simp [PipeRing.new, occupiedBuffers, tailStreamLen, occupiedLen, Fifo.occupiedLen, divCeil, pipeBufSize]

section Push

@[simp] theorem readPos_pushStream : (r.pushStream xs).readPos = r.readPos := rfl

@[simp] theorem readPos_pushPacket : (r.pushPacket xs flags).readPos = r.readPos := rfl

@[simp] theorem writePos_pushStream : (r.pushStream xs).writePos = r.writePos + xs.length := rfl

@[simp] theorem writePos_pushPacket : (r.pushPacket xs flags).writePos = r.writePos + xs.length := rfl

theorem items_pushStream (h : xs.length ≤ r.vacantLen) : (r.pushStream xs).bytes.items = r.bytes.items ++ xs :=
  Fifo.items_extend h

theorem items_pushPacket (flags : UInt8) (h : xs.length ≤ r.vacantLen) :
    (r.pushPacket xs flags).bytes.items = r.bytes.items ++ xs :=
  Fifo.items_extend h

theorem Sound.pushStream (h : r.Sound) (hfits : r.StreamFits xs) : (r.pushStream xs).Sound := by
  obtain ⟨hbytes, hslots⟩ := hfits
  have hitems := items_pushStream hbytes
  have hpos : (r.pushStream xs).writePos = (r.pushStream xs).readPos + (r.pushStream xs).bytes.items.length := by
    rw [writePos_pushStream, readPos_pushStream, hitems, List.length_append, h.positions]
    omega
  refine ⟨hpos, h.marks.grow (Nat.le_add_right _ _), ?_, h.capacity, h.pages⟩
  have htail := tailStreamLen_eq h.positions
  have hle := h.marks.tailStart_le
  rw [occupiedBuffers, tailStreamLen_eq hpos, writePos_pushStream, readPos_pushStream]
  rw [htail, show r.writePos - tailStart r.readPos r.marks.items + xs.length =
    r.writePos + xs.length - tailStart r.readPos r.marks.items by omega] at hslots
  exact hslots

theorem marks_pushPacket (h : r.PacketFits xs flags) :
    (r.pushPacket xs flags).marks.items = r.marks.items ++ [⟨r.writePos, xs.length, flags⟩] := by
  have hroom : r.marks.items.length < r.marks.capacity := by
    by_contra hfull
    have haccepted := h.2.2.2
    rw [Fifo.tryPush, if_neg hfull] at haccepted
    cases haccepted
  exact (Fifo.tryPush_accepted hroom).2

theorem Sound.pushPacket (h : r.Sound) (hfits : r.PacketFits xs flags) : (r.pushPacket xs flags).Sound := by
  have hmarks := marks_pushPacket hfits
  have hitems := items_pushPacket flags hfits.2.1
  have hpos : (r.pushPacket xs flags).writePos =
      (r.pushPacket xs flags).readPos + (r.pushPacket xs flags).bytes.items.length := by
    rw [writePos_pushPacket, readPos_pushPacket, hitems, List.length_append, h.positions]
    omega
  refine ⟨hpos, ?_, ?_, Fifo.capacity_tryPush.trans h.capacity, h.pages⟩
  · rw [hmarks]
    exact h.marks.push hfits.1
  · have hfit := (r.pushPacket xs flags).marks.fits
    rw [occupiedBuffers, tailStreamLen_eq hpos, hmarks, tailStart_push, writePos_pushPacket, Nat.sub_self]
    simpa [divCeil, pipeBufSize, Fifo.occupiedLen] using hfit

end Push

section Consume

@[simp] theorem readPos_advanceRead : (r.advanceRead n).readPos = r.readPos + n := rfl

@[simp] theorem writePos_advanceRead : (r.advanceRead n).writePos = r.writePos := rfl

@[simp] theorem items_advanceRead : (r.advanceRead n).bytes.items = r.bytes.items.drop n := rfl

theorem marks_advanceRead : (r.advanceRead n).marks.items = trim (r.readPos + n) r.marks.items := by
  rw [advanceRead, Fifo.items_modifyFirst, Fifo.items_popWhile, trim]

theorem Sound.advanceRead (h : r.Sound) (hn : n ≤ r.occupiedLen) : (r.advanceRead n).Sound := by
  have hlen := h.positions
  rw [occupiedLen, Fifo.occupiedLen] at hn
  have hpos : (r.advanceRead n).writePos = (r.advanceRead n).readPos + (r.advanceRead n).bytes.items.length := by
    rw [writePos_advanceRead, readPos_advanceRead, items_advanceRead, List.length_drop]
    omega
  refine ⟨hpos, ?_, ?_, h.capacity, h.pages⟩
  · rw [marks_advanceRead]
    exact h.marks.trim (by rw [readPos_advanceRead]; omega)
  · have hslots := h.slots
    have htail := h.marks.tailStart_trim (Nat.le_add_right r.readPos n)
    have hcount := length_trim_le (r.readPos + n) r.marks.items
    rw [occupiedBuffers, tailStreamLen_eq h.positions, Fifo.occupiedLen] at hslots
    rw [occupiedBuffers, tailStreamLen_eq hpos, Fifo.occupiedLen, marks_advanceRead, writePos_advanceRead,
      readPos_advanceRead, htail]
    have hceil := divCeil_mono pipeBufSize (show r.writePos - max (tailStart r.readPos r.marks.items) (r.readPos + n) ≤
      r.writePos - tailStart r.readPos r.marks.items by omega)
    exact (Nat.add_le_add hcount hceil).trans hslots

end Consume

section Resize

variable {size : Nat}

theorem foldl_tryPush {α : Type} (xs : List α) (f : Fifo α) (h : f.items.length + xs.length ≤ f.capacity) :
    (xs.foldl (fun g x => (g.tryPush x).2) f).items = f.items ++ xs ∧
      (xs.foldl (fun g x => (g.tryPush x).2) f).capacity = f.capacity := by
  induction xs generalizing f with
  | nil => simp
  | cons x xs ih =>
      rw [List.length_cons] at h
      have hpush := (Fifo.tryPush_accepted (f := f) (x := x) (by omega)).2
      have hrest := ih (f.tryPush x).2 (by rw [hpush, Fifo.capacity_tryPush, List.length_append]; simp; omega)
      rw [hpush, Fifo.capacity_tryPush] at hrest
      simpa using hrest

theorem items_replacement (h : r.occupiedLen ≤ size) : (replacement r size).bytes.items = r.bytes.items := by
  have happend := r.bytes.occupiedSlices_append
  have hlen := congrArg List.length happend
  rw [List.length_append] at hlen
  rw [occupiedLen, Fifo.occupiedLen] at h
  have hleft : ((Fifo.empty size).extend r.bytes.occupiedSlices.1).items = r.bytes.occupiedSlices.1 := by
    rw [Fifo.items_extend (by simp [Fifo.vacantLen]; omega)]
    simp
  rw [replacement, Fifo.items_extend, hleft, happend]
  rw [Fifo.vacantLen, hleft, Fifo.capacity_extend, Fifo.capacity_empty]
  omega

theorem marks_replacement (h : r.marks.items.length ≤ maxUsage size) :
    (replacement r size).marks.items = r.marks.items ∧ (replacement r size).marks.capacity = maxUsage size := by
  have hfold := foldl_tryPush r.marks.items (Fifo.empty (maxUsage size)) (by simpa using h)
  rw [replacement]
  simpa using hfold

theorem Sound.replacement (h : r.Sound) (hslots : r.occupiedBuffers ≤ maxUsage size) (hbytes : r.occupiedLen ≤ size)
    (hpages : pipeBufSize ∣ size) : (replacement r size).Sound := by
  have hitems := items_replacement hbytes
  obtain ⟨hmarks, hcapacity⟩ := marks_replacement ((Nat.le_add_right _ _).trans hslots)
  have hpos : (Pipe.replacement r size).writePos =
      (Pipe.replacement r size).readPos + (Pipe.replacement r size).bytes.items.length := by
    rw [hitems]
    exact h.positions
  refine ⟨hpos, ?_, ?_, hcapacity, hpages⟩
  · rw [hmarks]
    exact h.marks
  · rw [occupiedBuffers, tailStreamLen_eq h.positions] at hslots
    rw [hcapacity, occupiedBuffers, tailStreamLen_eq hpos, Fifo.occupiedLen, hmarks]
    exact hslots

end Resize

end PipeRing

theorem Pushes.sound (h : Pushes r xs r') (hr : r.Sound) : r'.Sound := by
  induction h with
  | done r => exact hr
  | stream hfits _ ih => exact ih (hr.pushStream hfits)
  | packet hfits _ ih => exact ih (hr.pushPacket hfits)

theorem Pushes.items (h : Pushes r xs r') :
    r'.bytes.items = r.bytes.items ++ xs ∧ r'.readPos = r.readPos ∧ r'.writePos = r.writePos + xs.length := by
  induction h with
  | done r => simp
  | stream hfits _ ih =>
      rw [PipeRing.items_pushStream hfits.1, PipeRing.readPos_pushStream, PipeRing.writePos_pushStream] at ih
      simpa [Nat.add_assoc] using ih
  | packet hfits _ ih =>
      rw [PipeRing.items_pushPacket _ hfits.2.1, PipeRing.readPos_pushPacket, PipeRing.writePos_pushPacket] at ih
      simpa [Nat.add_assoc] using ih

theorem Pushes.trans {r'' : PipeRing} (h : Pushes r xs r') (h' : Pushes r' ys r'') : Pushes r (xs ++ ys) r'' := by
  induction h with
  | done r => exact h'
  | stream hfits _ ih =>
      rw [List.append_assoc]
      exact .stream hfits (ih h')
  | packet hfits _ ih =>
      rw [List.append_assoc]
      exact .packet hfits (ih h')

theorem Consumes.sound (h : Consumes r n r') (hr : r.Sound) : r'.Sound := by
  induction h with
  | done r => exact hr
  | step hn _ ih => exact ih (hr.advanceRead hn)

theorem Consumes.items (h : Consumes r n r') : n ≤ r.bytes.items.length ∧
    r'.bytes.items = r.bytes.items.drop n ∧ r'.readPos = r.readPos + n ∧ r'.writePos = r.writePos := by
  induction h with
  | done r => simp
  | step hn _ ih =>
      obtain ⟨hle, hitems, hread, hwrite⟩ := ih
      rw [PipeRing.items_advanceRead, List.length_drop] at hle
      rw [PipeRing.occupiedLen, Fifo.occupiedLen] at hn
      refine ⟨by omega, ?_, ?_, hwrite⟩
      · rw [hitems, PipeRing.items_advanceRead, List.drop_drop]
      · rw [hread, PipeRing.readPos_advanceRead, Nat.add_assoc]

theorem Consumes.one (h : n ≤ r.occupiedLen) : Consumes r n (r.advanceRead n) := Consumes.step h (.done _)

theorem Consumes.trans {r'' : PipeRing} (h : Consumes r n r') (h' : Consumes r' m r'') : Consumes r (n + m) r'' := by
  induction h with
  | done r => simpa using h'
  | step hn _ ih =>
      rw [Nat.add_assoc]
      exact .step hn (ih h')

end TheKernel.Pipe
