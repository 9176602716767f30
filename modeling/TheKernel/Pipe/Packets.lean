import TheKernel.Pipe.Atomic

namespace TheKernel.Pipe

/-- The count that `PipeEndpoint::splice_to` moves at once, of `remaining` bytes that are
still wanted. -/
def spliceCount (source destination : PipeRing) (remaining : Nat) : Nat :=
  min (min remaining source.occupiedLen) destination.vacantLen

/-- The packets before `pos`, each with its part before `pos`, where `base` stands for `origin`. -/
def marksBefore (origin base pos : Nat) (marks : List PipeBufferMark) : List PipeBufferMark :=
  (marks.filter fun mark => mark.start < pos).map fun mark =>
    ⟨base + (mark.start - origin), min mark.len (pos - mark.start), mark.flags⟩

/-- The packets among the first `n` bytes of the source, at the places they take in a
destination that is written from `base` on. -/
def carried (src : PipeRing) (base n : Nat) : List PipeBufferMark :=
  marksBefore src.readPos base (src.readPos + n) src.marks.items

/-- The destination behind whose bytes stand the first `n` bytes of the source, every
packet of them as a packet. -/
def received (dst src : PipeRing) (n : Nat) : PipeRing :=
  { dst with
    bytes := dst.bytes.extend (src.bytes.items.take n)
    marks := dst.marks.extend (carried src dst.writePos n)
    writePos := dst.writePos + n }

/-- A packet of the source that lies on both sides of its first `n` bytes. -/
def Inside (src : PipeRing) (n : Nat) (mark : PipeBufferMark) : Prop :=
  mark ∈ src.marks.items ∧ mark.start < src.readPos + n ∧ src.readPos + n < mark.start + mark.len

/-- A transfer of `len` bytes has sent `n` bytes and left the ring `after`: all packets
have arrived, and only where the `len` bytes end is one cut. -/
def Intact (src dst : PipeRing) (len n : Nat) (after : PipeRing) : Prop :=
  n ≤ min len src.occupiedLen ∧ after = received dst src n ∧
    after.bytes.items = dst.bytes.items ++ src.bytes.items.take n ∧
    after.marks.items = dst.marks.items ++ carried src dst.writePos n ∧
    ∀ mark, Inside src n mark → n = len

/-- The first `y` bytes of the source end where one of its runs begins. -/
def RunStart (src : PipeRing) (y : Nat) : Prop :=
  y = 0 ∨ ∃ mark ∈ src.marks.items, src.readPos + y = mark.start ∨ src.readPos + y = mark.start + mark.len

/-- The free slots of the destination are enough for the run of the source behind its
first `y` bytes. -/
def SlotsFor (dst src : PipeRing) (y : Nat) : Prop :=
  (runAt src (src.readPos + y)).len ≤ (received dst src y).vacantBuffers * pipeBufSize

/-- The bytes that are vacant in the destination end inside a packet of the source that
is wanted further, and slots are free for it and for the runs before it. -/
def Straddles (src dst : PipeRing) (len : Nat) : Prop :=
  dst.vacantLen < len ∧ ∃ mark, Inside src dst.vacantLen mark ∧
    ∀ y, RunStart src y → src.readPos + y ≤ mark.start → SlotsFor dst src y

def PipeRing.Paged (r : PipeRing) : Prop := ∀ mark ∈ r.marks.items, mark.len ≤ pipeBufSize

section Runs

variable {lo hi pos k : Nat} {mark : PipeBufferMark} {marks : List PipeBufferMark}

theorem MarksIn.end_le (h : MarksIn lo marks hi) (hmark : mark ∈ marks) : mark.start + mark.len ≤ hi := by
  induction marks generalizing lo with
  | nil => cases hmark
  | cons first marks ih =>
      obtain ⟨_, _, hrest⟩ := h
      cases hmark with
      | head => exact hrest.le
      | tail _ hmem => exact ih hrest hmem

/-- The run at a position that lies inside no packet: it is not empty, it ends inside the
ring, and it is one packet or meets none. -/
theorem runIn_spec (h : MarksIn lo marks hi) (hpos : pos < hi)
    (hnot : ∀ mark ∈ marks, ¬ (mark.start < pos ∧ pos < mark.start + mark.len)) :
    0 < (runIn hi pos marks).len ∧ pos + (runIn hi pos marks).len ≤ hi ∧
    (∀ mark ∈ marks, mark.start + mark.len ≤ pos ∨ pos + (runIn hi pos marks).len ≤ mark.start ∨
      mark.start = pos ∧ mark.len = (runIn hi pos marks).len ∧ (runIn hi pos marks).flags = some mark.flags) ∧
    (∀ flags, (runIn hi pos marks).flags = some flags → ⟨pos, (runIn hi pos marks).len, flags⟩ ∈ marks) ∧
    (pos + (runIn hi pos marks).len = hi ∨ ∃ mark ∈ marks, pos + (runIn hi pos marks).len = mark.start ∨
      pos + (runIn hi pos marks).len = mark.start + mark.len) := by
  induction marks generalizing lo with
  | nil =>
      simp only [runIn]
      exact ⟨by omega, by omega, nofun, nofun, .inl (by omega)⟩
  | cons mark marks ih =>
      obtain ⟨hlo, hlen, hrest⟩ := h
      have hend := hrest.le
      have hfirst := hnot mark List.mem_cons_self
      by_cases hbefore : pos < mark.start
      · simp only [runIn, if_pos hbefore]
        refine ⟨by omega, by omega, ?_, nofun, .inr ⟨mark, List.mem_cons_self, .inl (by omega)⟩⟩
        intro other hother
        rcases List.mem_cons.mp hother with rfl | hother
        · exact .inr (.inl (by omega))
        · have := hrest.le_start hother
          exact .inr (.inl (by omega))
      · by_cases hin : pos < mark.start + mark.len
        · have hstart : mark.start = pos := by omega
          subst hstart
          simp only [runIn, if_neg hbefore, if_pos hin, Nat.add_sub_cancel_left]
          refine ⟨hlen, hend, ?_, ?_, .inr ⟨mark, List.mem_cons_self, .inr rfl⟩⟩
          · intro other hother
            rcases List.mem_cons.mp hother with rfl | hother
            · exact .inr (.inr ⟨rfl, rfl, rfl⟩)
            · exact .inr (.inl (hrest.le_start hother))
          · intro flags hflags
            cases hflags
            exact List.mem_cons_self
        · simp only [runIn, if_neg hbefore, if_neg hin]
          obtain ⟨hpos', hle, hother, hpacket, hnext⟩ := ih hrest fun m hm => hnot m (List.mem_cons_of_mem _ hm)
          refine ⟨hpos', hle, ?_, fun flags hflags => List.mem_cons_of_mem _ (hpacket flags hflags), ?_⟩
          · intro other hmem
            rcases List.mem_cons.mp hmem with rfl | hmem
            · exact .inl (by omega)
            · exact hother other hmem
          · rcases hnext with hhi | ⟨m, hm, hend'⟩
            · exact .inl hhi
            · exact .inr ⟨m, List.mem_cons_of_mem _ hm, hend'⟩

theorem marksBefore_nil (origin base : Nat) (h : ∀ mark ∈ marks, pos ≤ mark.start) :
    marksBefore origin base pos marks = [] := by
  rw [marksBefore, List.filter_eq_nil_iff.mpr, List.map_nil]
  intro mark hmark
  have := h mark hmark
  simp only [decide_eq_true_eq]
  omega

theorem marksBefore_passed (origin base : Nat) (hlen : 0 < mark.len) (h : mark.start + mark.len ≤ pos) :
    marksBefore origin base pos (mark :: marks) =
      ⟨base + (mark.start - origin), mark.len, mark.flags⟩ :: marksBefore origin base pos marks := by
  have hlt : mark.start < pos := by omega
  have hmin : min mark.len (pos - mark.start) = mark.len := by omega
  simp [marksBefore, hlt, hmin]

/-- A first piece of the run at `pos` adds its packet, if it is one. -/
theorem marksBefore_add (origin base : Nat) (h : MarksIn lo marks hi)
    (hnot : ∀ mark ∈ marks, ¬ (mark.start < pos ∧ pos < mark.start + mark.len))
    (hk : 0 < k) (hle : k ≤ (runIn hi pos marks).len) :
    marksBefore origin base (pos + k) marks = marksBefore origin base pos marks ++
      ((runIn hi pos marks).flags.map fun flags => (⟨base + (pos - origin), k, flags⟩ : PipeBufferMark)).toList := by
  induction marks generalizing lo with
  | nil => rfl
  | cons mark marks ih =>
      obtain ⟨hlo, hlen, hrest⟩ := h
      have hfirst := hnot mark List.mem_cons_self
      by_cases hbefore : pos < mark.start
      · simp only [runIn, if_pos hbefore] at hle ⊢
        have hstarts : ∀ other ∈ mark :: marks, mark.start ≤ other.start := by
          intro other hother
          rcases List.mem_cons.mp hother with rfl | hother
          · exact le_rfl
          · have := hrest.le_start hother
            omega
        rw [marksBefore_nil origin base fun other hother => by have := hstarts other hother; omega,
          marksBefore_nil origin base fun other hother => by have := hstarts other hother; omega]
        rfl
      · by_cases hin : pos < mark.start + mark.len
        · have hstart : mark.start = pos := by omega
          subst hstart
          simp only [runIn, if_neg hbefore, if_pos hin, Nat.add_sub_cancel_left] at hle ⊢
          have hlater : ∀ other ∈ marks, mark.start + k ≤ other.start := by
            intro other hother
            have := hrest.le_start hother
            omega
          have hnone : marksBefore origin base mark.start (mark :: marks) = [] := by
            apply marksBefore_nil
            intro other hother
            rcases List.mem_cons.mp hother with rfl | hother
            · exact le_rfl
            · have := hlater other hother
              omega
          have hrestNil : marksBefore origin base (mark.start + k) marks = [] := marksBefore_nil origin base hlater
          rw [marksBefore, List.map_eq_nil_iff] at hrestNil
          have hlt : mark.start < mark.start + k := by omega
          have hmin : min mark.len k = k := by omega
          rw [hnone]
          simp [marksBefore, hlt, hrestNil, hmin]
        · simp only [runIn, if_neg hbefore, if_neg hin] at hle ⊢
          rw [marksBefore_passed origin base hlen (by omega), marksBefore_passed origin base hlen (by omega),
            ih hrest (fun m hm => hnot m (List.mem_cons_of_mem _ hm)) hle, List.cons_append]

end Runs

section Received

variable {src dst : PipeRing} {run : PipeRun} {n k maxLen offset : Nat}

theorem copyPipeRun_eq (src dst : PipeRing) (run : PipeRun) (maxLen offset : Nat)
    (hrun : run.len ≤ src.occupiedLen - offset)
    (hk : k = min (min run.len maxLen) (min dst.vacantLen (dst.vacantBuffers * pipeBufSize))) :
    copyPipeRun src dst run maxLen offset = (k,
      if k = 0 then dst
      else commitRun { dst with bytes := dst.bytes.extend ((src.bytes.items.drop offset).take k) } run k) := by
  have happend := src.bytes.occupiedSlices_append
  have hsum := dst.bytes.vacantSlices_sum
  rw [PipeRing.occupiedLen, Fifo.occupiedLen] at hrun
  rw [copyPipeRun]
  simp only [copySlicesToRing, copySlices_eq, List.flatten_cons, List.flatten_nil, List.append_nil, drop_slices,
    happend, List.sum_cons, List.sum_nil, Nat.add_zero, hsum, ← hk]
  split
  · rename_i hnone
    rw [hnone]
  · rename_i hsome
    have hwant : min k dst.bytes.vacantLen = k := by
      rw [PipeRing.vacantLen] at hk
      omega
    have hlen : ((src.bytes.items.drop offset).take k).length = k := by
      rw [List.length_take, List.length_drop]
      omega
    rw [hwant, hlen, if_neg hsome]

theorem carried_zero (base : Nat) (hsrc : src.Sound) : carried src base 0 = [] :=
  marksBefore_nil _ _ fun _ hmark => hsrc.marks.le_start hmark

theorem received_zero (hsrc : src.Sound) : received dst src 0 = dst := by
  simp only [received, carried_zero _ hsrc, List.take_zero, Fifo.extend_nil, Nat.add_zero]

theorem items_received (hle : n ≤ dst.vacantLen) :
    (received dst src n).bytes.items = dst.bytes.items ++ src.bytes.items.take n :=
  Fifo.items_extend ((List.length_take_le n _).trans hle)

theorem vacantLen_received (hle : n ≤ dst.vacantLen) (hn : n ≤ src.occupiedLen) :
    (received dst src n).vacantLen = dst.vacantLen - n := by
  have hlen : (received dst src n).bytes.items.length = dst.bytes.items.length + n := by
    rw [items_received hle, List.length_append, List.length_take]
    rw [PipeRing.occupiedLen, Fifo.occupiedLen] at hn
    omega
  rw [PipeRing.vacantLen, PipeRing.vacantLen, Fifo.vacantLen, Fifo.vacantLen, hlen]
  exact (Nat.sub_sub _ _ _).symm

theorem carried_add (base : Nat) (hsrc : src.Sound) (hnot : ∀ mark, ¬ Inside src n mark) (hk : 0 < k)
    (hle : k ≤ (runAt src (src.readPos + n)).len) : carried src base (n + k) = carried src base n ++
      ((runAt src (src.readPos + n)).flags.map fun flags => (⟨base + n, k, flags⟩ : PipeBufferMark)).toList := by
  have hadd := marksBefore_add src.readPos base hsrc.marks (fun mark hmark hin => hnot mark ⟨hmark, hin⟩) hk hle
  rw [Nat.add_assoc, Nat.add_sub_cancel_left] at hadd
  exact hadd

/-- A first piece of the run behind the first `n` bytes comes in. -/
theorem received_add (hsrc : src.Sound) (hnot : ∀ mark, ¬ Inside src n mark) (hk : 0 < k)
    (hle : k ≤ (runAt src (src.readPos + n)).len)
    (hroom : (received dst src n).marks.items.length < (received dst src n).marks.capacity) :
    commitRun { received dst src n with bytes := (received dst src n).bytes.extend ((src.bytes.items.drop n).take k) }
      (runAt src (src.readPos + n)) k = received dst src (n + k) := by
  have hcarried := carried_add dst.writePos hsrc hnot hk hle
  have hbytes : (dst.bytes.extend (src.bytes.items.take n)).extend ((src.bytes.items.drop n).take k) =
      dst.bytes.extend (src.bytes.items.take (n + k)) := by
    rw [Fifo.extend_extend, List.take_add]
  rw [commitRun]
  split
  · rename_i flags hflags
    rw [hflags] at hcarried
    simp only [received] at hroom
    simp only [PipeRing.commitPacket, received, hbytes, Fifo.tryPush, if_pos hroom, Fifo.extend_extend, hcarried,
      Option.map_some, Option.toList_some, Nat.add_assoc]
  · rename_i hflags
    rw [hflags] at hcarried
    simp only [PipeRing.commitStream, received, hbytes, hcarried, Option.map_none, Option.toList_none, List.append_nil,
      Nat.add_assoc]

theorem marks_received (hfit : (carried src dst.writePos n).length ≤ dst.marks.vacantLen) :
    (received dst src n).marks.items = dst.marks.items ++ carried src dst.writePos n := Fifo.items_extend hfit

theorem carried_fits (hsrc : src.Sound) (hnot : ∀ mark, ¬ Inside src n mark) (hk : 0 < k)
    (hle : k ≤ (runAt src (src.readPos + n)).len)
    (hfit : (carried src dst.writePos n).length ≤ dst.marks.vacantLen)
    (hroom : (received dst src n).marks.items.length < (received dst src n).marks.capacity) :
    (carried src dst.writePos (n + k)).length ≤ dst.marks.vacantLen := by
  have hcapacity : (received dst src n).marks.capacity = dst.marks.capacity := rfl
  have hone : ((runAt src (src.readPos + n)).flags.map fun flags =>
      (⟨dst.writePos + n, k, flags⟩ : PipeBufferMark)).toList.length ≤ 1 := by
    rw [Option.length_toList]
    split <;> omega
  rw [marks_received hfit, List.length_append, hcapacity] at hroom
  rw [carried_add dst.writePos hsrc hnot hk hle, List.length_append, Fifo.vacantLen]
  omega

/-- A stream that takes a page of every free slot leaves no slot free. -/
theorem vacantBuffers_pushStream {xs : List UInt8} (hdst : dst.Sound) (hroom : xs.length ≤ dst.vacantLen)
    (hall : xs.length = dst.vacantBuffers * pipeBufSize) : (dst.pushStream xs).vacantBuffers = 0 := by
  have hslots := PipeRing.slots_eq hdst
  have hle := hdst.marks.tailStart_le
  have hpos : (dst.pushStream xs).writePos = (dst.pushStream xs).readPos + (dst.pushStream xs).bytes.items.length := by
    rw [PipeRing.writePos_pushStream, PipeRing.readPos_pushStream, PipeRing.items_pushStream hroom, List.length_append,
      hdst.positions]
    omega
  have htail : (dst.pushStream xs).tailStreamLen = dst.tailStreamLen + dst.vacantBuffers * pipeBufSize := by
    rw [PipeRing.tailStreamLen_eq hpos, PipeRing.tailStreamLen_eq hdst.positions, PipeRing.writePos_pushStream, ← hall]
    change dst.writePos + xs.length - tailStart dst.readPos dst.marks.items = _
    omega
  have hpages : divCeil (dst.pushStream xs).tailStreamLen pipeBufSize =
      divCeil dst.tailStreamLen pipeBufSize + dst.vacantBuffers := by
    have hpage : 0 < pipeBufSize := by decide
    rw [htail, divCeil, divCeil, ← Nat.add_mul_div_right _ _ hpage]
    congr 1
    omega
  have hcapacity : (dst.pushStream xs).marks.capacity = dst.marks.capacity := rfl
  have hmarks : (dst.pushStream xs).marks.occupiedLen = dst.marks.items.length := rfl
  rw [PipeRing.vacantBuffers, PipeRing.occupiedBuffers, hpages, hcapacity, hmarks]
  omega

theorem copyLoop_stops {available total : Nat}
    (h : available ≤ total ∨ min dst.vacantLen (dst.vacantBuffers * pipeBufSize) = 0) :
    copyLoop src dst available total = (dst, total) := by
  rw [copyLoop]
  split
  · have hroom : min dst.vacantLen (dst.vacantBuffers * pipeBufSize) = 0 := by omega
    have hnone : copyPipeRun src dst (runAt src (src.readPos + total)) (available - total) total = (0, dst) := by
      rw [copyPipeRun]
      simp only [hroom, Nat.min_zero, if_true]
    rw [hnone]
    rfl
  · rfl

/-- The run behind the first `n` bytes, where they end inside no packet. -/
theorem runAt_spec (hsrc : src.Sound) (hpaged : src.Paged) (hnot : ∀ mark, ¬ Inside src n mark)
    (hn : n < src.occupiedLen) (hrun : runAt src (src.readPos + n) = run) :
    0 < run.len ∧ n + run.len ≤ src.occupiedLen ∧ (run.flags ≠ none → run.len ≤ pipeBufSize) ∧
    (∀ mark, ¬ Inside src (n + run.len) mark) ∧
    (∀ k mark, 0 < k → k < run.len → Inside src (n + k) mark → mark.start = src.readPos + n ∧ run.flags ≠ none) ∧
    (∀ y, RunStart src y → n < y → n + run.len ≤ y) ∧
    (n + run.len = src.occupiedLen ∨ RunStart src (n + run.len)) := by
  have hocc : src.writePos = src.readPos + src.occupiedLen := hsrc.positions
  have hspec := runIn_spec hsrc.marks (show src.readPos + n < src.writePos by omega)
    fun mark hmark hin => hnot mark ⟨hmark, hin⟩
  rw [← runAt, hrun] at hspec
  obtain ⟨hlen, hend, hother, hpacket, hnext⟩ := hspec
  refine ⟨hlen, by omega, ?_, ?_, ?_, ?_, ?_⟩
  · intro hflags
    obtain ⟨flags, hflags⟩ := Option.ne_none_iff_exists'.mp hflags
    exact hpaged _ (hpacket flags hflags)
  · rintro mark ⟨hmark, hlo, hhi⟩
    rcases hother mark hmark with hbefore | hafter | ⟨hat, hsame, _⟩ <;> omega
  · rintro k mark hk hlt ⟨hmark, hlo, hhi⟩
    rcases hother mark hmark with hbefore | hafter | ⟨hat, _, hflags⟩
    · omega
    · omega
    · exact ⟨hat, by rw [hflags]; exact nofun⟩
  · rintro y (rfl | ⟨mark, hmark, hy⟩) hlt
    · omega
    · rcases hother mark hmark with hbefore | hafter | ⟨hat, hsame, _⟩ <;> omega
  · rcases hnext with hall | ⟨mark, hmark, hedge⟩
    · exact .inl (by omega)
    · exact .inr (.inr ⟨mark, hmark, by rw [← Nat.add_assoc]; exact hedge⟩)

theorem copyLoop_received (hsrc : src.Sound) (hpaged : src.Paged) {available total : Nat}
    (havail : available ≤ src.occupiedLen)
    (hsound : (received dst src total).Sound) (hvacant : total ≤ dst.vacantLen) (htotal : total ≤ available)
    (hfit : (carried src dst.writePos total).length ≤ dst.marks.vacantLen)
    (hnot : ∀ mark, ¬ Inside src total mark) (hstart : total < available → RunStart src total) :
    ∃ n, copyLoop src (received dst src total) available total = (received dst src n, n) ∧ n ≤ available ∧
      n ≤ dst.vacantLen ∧ (carried src dst.writePos n).length ≤ dst.marks.vacantLen ∧
      ((n < available ∧ ∃ mark, Inside src n mark) ↔ dst.vacantLen < available ∧ ∃ mark, Inside src dst.vacantLen mark ∧
        ∀ y, RunStart src y → total ≤ y → src.readPos + y ≤ mark.start → SlotsFor dst src y) := by
  induction hd : available - total using Nat.strong_induction_on generalizing total with
  | _ d ih =>
  subst hd
  by_cases hmore : total < available
  swap
  · refine ⟨total, copyLoop_stops (.inl (by omega)), htotal, hvacant, hfit, ?_⟩
    constructor
    · rintro ⟨hlt, -⟩
      omega
    · rintro ⟨hlt, -⟩
      omega
  have hn : total < src.occupiedLen := by omega
  -- a packet that the vacant bytes end in begins behind what was sent
  have hbehind : ∀ mark, Inside src dst.vacantLen mark → src.readPos + total ≤ mark.start := by
    rintro mark ⟨hmark, hlo, hhi⟩
    have := hnot mark
    rw [Inside, not_and, not_and, Nat.not_lt] at this
    by_contra hlt
    have := this hmark (by omega)
    omega
  have hmarks := PipeRing.slots_eq hsound
  have hvac := vacantLen_received hvacant hn.le
  have hslotsFor : SlotsFor dst src total ↔
      (runAt src (src.readPos + total)).len ≤ (received dst src total).vacantBuffers * pipeBufSize := Iff.rfl
  obtain ⟨hlen, hend, hpage, hclear, hwithin, hruns, hnext⟩ := runAt_spec hsrc hpaged hnot hn rfl
  have hcopy := copyPipeRun_eq src (received dst src total) (runAt src (src.readPos + total))
      (available - total) total (by omega) rfl
  have hkept := (copyPipeRun_spec src (runAt src (src.readPos + total)) (available - total)
      total hsound).2.2.sound hsound
  rw [hvac] at hcopy
  generalize hk : min (min (runAt src (src.readPos + total)).len (available - total))
    (min (dst.vacantLen - total) ((received dst src total).vacantBuffers * pipeBufSize)) = k at hcopy
  generalize hrun : runAt src (src.readPos + total) = run at *
  generalize hslots : (received dst src total).vacantBuffers = slots at *
  rw [copyLoop, if_pos hmore, hrun, hcopy]
  by_cases hnone : k = 0
  · rw [if_pos hnone]
    refine ⟨total, rfl, htotal, hvacant, hfit, ?_⟩
    constructor
    · rintro ⟨-, mark, hmark⟩
      exact absurd hmark (hnot mark)
    · rintro ⟨hlt, mark, hmark, hall⟩
      have hfree := hslotsFor.mp (hall total (hstart hmore) le_rfl (hbehind mark hmark))
      rw [show dst.vacantLen = total by omega] at hmark
      exact absurd hmark (hnot mark)
  · have hroom : (received dst src total).marks.items.length < (received dst src total).marks.capacity := by
      have : 0 < slots := Nat.pos_of_ne_zero fun h => hnone (by rw [← hk, h]; omega)
      omega
    have hadd := received_add hsrc hnot (Nat.pos_of_ne_zero hnone) (by rw [hrun]; omega) hroom
    have hfit' := carried_fits hsrc hnot (Nat.pos_of_ne_zero hnone) (by rw [hrun]; omega) hfit hroom
    rw [hrun] at hadd
    rw [if_neg hnone, hadd] at hcopy ⊢
    rw [hcopy] at hkept
    simp only [if_neg hnone]
    have hle : total + k ≤ dst.vacantLen := by omega
    have hvac' := vacantLen_received hle (show total + k ≤ src.occupiedLen by omega)
    by_cases hfull : k = run.len
    · -- the whole run has come in, and the loop goes on behind it
      obtain ⟨n, hcopied, hn, hnvac, hnfit, hiff⟩ := ih (available - (total + k)) (by omega) hkept hle (by omega) hfit'
        (by rw [hfull]; exact hclear) (fun hlt => hfull ▸ hnext.resolve_left (by omega)) rfl
      refine ⟨n, hcopied, hn, hnvac, hnfit, hiff.trans (and_congr_right fun _ => exists_congr fun mark =>
        and_congr_right fun _ => ?_)⟩
      constructor
      · intro hall y hy hge hle
        rcases Nat.eq_or_lt_of_le hge with rfl | hlt
        · exact hslotsFor.mpr (by omega)
        · exact hall y hy (by have := hruns y hy hlt; omega) hle
      · intro hall y hy hge
        exact hall y hy (by omega)
    · by_cases hall : available ≤ total + k
      · -- the bytes that were wanted end inside the run
        refine ⟨total + k, copyLoop_stops (.inl hall), by omega, hle, hfit', ?_⟩
        constructor
        · rintro ⟨hlt, -⟩
          omega
        · rintro ⟨hlt, -⟩
          omega
      · by_cases hbytes : dst.vacantLen = total + k
        · -- the vacant bytes end inside the run
          refine ⟨total + k, copyLoop_stops (.inr (by rw [hvac']; omega)), by omega, hle, hfit', ?_⟩
          rw [hbytes]
          refine and_congr_right fun _ => exists_congr fun mark => ⟨fun hmark => ⟨hmark, ?_⟩, fun h => h.1⟩
          intro y hy hge hstop
          obtain ⟨hat, hflags⟩ := hwithin k mark (by omega) (by omega) hmark
          obtain rfl : y = total := by omega
          have := hpage hflags
          refine hslotsFor.mpr (this.trans (Nat.le_mul_of_pos_left _ ?_))
          exact Nat.pos_of_ne_zero fun h => hnone (by rw [← hk, h]; omega)
        · -- the free slots end inside the run, which is no packet then
          have hk' : k = slots * pipeBufSize := by omega
          have hstream : run.flags = none := by
            by_contra hflags
            have := hpage hflags
            have hpos : 0 < slots := Nat.pos_of_ne_zero fun h => hnone (by rw [← hk, h]; omega)
            have := Nat.le_mul_of_pos_left pipeBufSize hpos
            omega
          have hlength : ((src.bytes.items.drop total).take k).length = k := by
            rw [List.length_take, List.length_drop]
            change min k (src.occupiedLen - total) = k
            omega
          have hpushed : received dst src (total + k) = (received dst src total).pushStream
              ((src.bytes.items.drop total).take k) := by
            rw [← hadd, commitRun, hstream, PipeRing.pushStream, hlength]
          have hfullSlots : (received dst src (total + k)).vacantBuffers = 0 := by
            rw [hpushed]
            exact vacantBuffers_pushStream hsound (by rw [hlength]; omega) (by rw [hlength, hslots]; exact hk')
          refine ⟨total + k, copyLoop_stops (.inr (by rw [hfullSlots]; omega)), by omega, hle, hfit', ?_⟩
          constructor
          · rintro ⟨-, mark, hmark⟩
            exact absurd hstream (hwithin k mark (by omega) (by omega) hmark).2
          · rintro ⟨-, mark, hmark, hslotsAll⟩
            have := hslotsFor.mp (hslotsAll total (hstart hmore) le_rfl (hbehind mark hmark))
            omega

theorem copyPipeBuffer_intact_iff (len : Nat) (hsrc : src.Sound) (hpaged : src.Paged) (hdst : dst.Sound) :
    Intact src dst len (copyPipeBuffer src dst len).2.len (copyPipeBuffer src dst len).1 ↔ ¬ Straddles src dst len := by
  have hzero : received dst src 0 = dst := received_zero hsrc
  have hnot : ∀ mark, ¬ Inside src 0 mark := by
    rintro mark ⟨hmark, hlo, -⟩
    have := hsrc.marks.le_start hmark
    omega
  have hfit : (carried src dst.writePos 0).length ≤ dst.marks.vacantLen := by
    rw [carried_zero _ hsrc]
    exact Nat.zero_le _
  obtain ⟨n, hcopied, hn, hnvac, hnfit, hiff⟩ := copyLoop_received hsrc hpaged (Nat.min_le_right len src.occupiedLen)
    (by rw [hzero]; exact hdst) (Nat.zero_le _) (Nat.zero_le _) hfit hnot (fun _ => .inl rfl)
  rw [hzero] at hcopied
  -- a packet that is cut goes on inside the ring
  have hstored : ∀ x mark, Inside src x mark → x < src.occupiedLen := by
    rintro x mark ⟨hmark, -, hhi⟩
    have := hsrc.marks.end_le hmark
    have hocc : src.writePos = src.readPos + src.occupiedLen := hsrc.positions
    omega
  have hcut : Straddles src dst len ↔ n < len ∧ ∃ mark, Inside src n mark := by
    constructor
    · rintro ⟨hlt, mark, hmark, hslots⟩
      have := hstored _ _ hmark
      obtain ⟨hless, hcut⟩ := hiff.mpr ⟨by omega, mark, hmark, fun y hy _ => hslots y hy⟩
      exact ⟨by omega, hcut⟩
    · rintro ⟨hlt, mark, hmark⟩
      have := hstored _ _ hmark
      obtain ⟨hless, mark, hmark, hslots⟩ := hiff.mp ⟨by omega, mark, hmark⟩
      exact ⟨by omega, mark, hmark, fun y hy => hslots y hy (Nat.zero_le y)⟩
  simp only [copyPipeBuffer, hcopied]
  rw [hcut]
  constructor
  · rintro ⟨-, -, -, -, hends⟩ ⟨hlt, mark, hmark⟩
    exact absurd (hends mark hmark) hlt.ne
  · intro hnone
    refine ⟨hn, rfl, items_received hnvac, marks_received hnfit, fun mark hmark => ?_⟩
    by_contra hne
    exact hnone ⟨by omega, mark, hmark⟩

end Received

section Moves

variable {src src' dst : PipeRing} {n : Nat}

theorem runIn_trim {lo hi pos passed : Nat} {marks : List PipeBufferMark} (h : MarksIn lo marks hi)
    (hle : passed ≤ pos) : runIn hi pos (trim passed marks) = runIn hi pos marks := by
  induction marks generalizing lo with
  | nil => rfl
  | cons mark marks ih =>
      obtain ⟨hlo, hlen, hrest⟩ := h
      by_cases hpassed : mark.start + mark.len ≤ passed
      · rw [trim_cons_passed hpassed, ih hrest, runIn, if_neg (by omega), if_neg (by omega)]
      · rw [trim_cons_left (by omega), PipeRing.trimMark]
        split
        · -- what was passed of the mark is gone, and its end stays
          rw [runIn, runIn]
          simp only
          rw [show passed + (mark.len - (passed - mark.start)) = mark.start + mark.len by omega,
            if_neg (show ¬ pos < passed by omega), if_neg (show ¬ pos < mark.start by omega)]
        · rfl

theorem runIn_len_le {lo hi pos : Nat} {marks : List PipeBufferMark} (h : MarksIn lo marks hi) :
    (runIn hi pos marks).len ≤ hi - pos := by
  induction marks generalizing lo with
  | nil => exact le_rfl
  | cons mark marks ih =>
      obtain ⟨hlo, hlen, hrest⟩ := h
      have hend := hrest.le
      rw [runIn]
      split
      · simp only
        omega
      · split
        · simp only
          omega
        · exact ih hrest

theorem headRun_eq (h : src.Sound) : headRun src = runAt src src.readPos := by
  have hocc : src.writePos = src.readPos + src.occupiedLen := h.positions
  have hmarks := h.marks
  rw [headRun, PipeRing.headPacket, PipeRing.headStreamLen, runAt]
  cases hitems : src.marks.items with
  | nil =>
      simp only [List.head?_nil, Option.filter_none, Option.map_none, runIn]
      rw [hocc, Nat.add_sub_cancel_left]
  | cons mark marks =>
      rw [hitems] at hmarks
      obtain ⟨hlo, hlen, hrest⟩ := hmarks
      have hend := hrest.le
      by_cases hat : mark.start = src.readPos
      · simp only [List.head?_cons, Option.filter_some, hat, beq_self_eq_true, if_true, Option.map_some, runIn]
        rw [if_neg (lt_irrefl _), if_pos (by omega), Nat.add_sub_cancel_left]
      · have hne : (mark.start == src.readPos) = false := beq_eq_false_iff_ne.mpr hat
        simp only [List.head?_cons, Option.filter_some, hne, Bool.false_eq_true, if_false, Option.map_none, runIn]
        rw [if_pos (by omega), show min (mark.start - src.readPos) src.occupiedLen = mark.start - src.readPos by omega]

/-- The ring `src` from which `n` bytes have been moved: the rest of its bytes, and the runs
that lie ahead. -/
structure Ahead (src src' : PipeRing) (n : Nat) : Prop where
  sound : src'.Sound
  items : src'.bytes.items = src.bytes.items.drop n
  readPos : src'.readPos = src.readPos + n
  runs : ∀ pos, src'.readPos ≤ pos → runAt src' pos = runAt src pos

theorem Ahead.advanceRead {k : Nat} (h : Ahead src src' n) (hk : k ≤ src'.occupiedLen) :
    Ahead src (src'.advanceRead k) (n + k) where
  sound := h.sound.advanceRead hk
  items := by rw [PipeRing.items_advanceRead, h.items, List.drop_drop]
  readPos := by rw [PipeRing.readPos_advanceRead, h.readPos, Nat.add_assoc]
  runs := by
    intro pos hpos
    rw [PipeRing.readPos_advanceRead] at hpos
    rw [← h.runs pos (by omega), runAt, runAt, PipeRing.marks_advanceRead]
    exact runIn_trim h.sound.marks hpos

theorem Ahead.copied (dst : PipeRing) (maxLen : Nat) (h : Ahead src src' n) (hsrc : src.Sound) :
    copyPipeRun src' dst (headRun src') (maxLen - n) 0 =
      copyPipeRun src dst (runAt src (src.readPos + n)) (min maxLen src.occupiedLen - n) n := by
  have hrun : headRun src' = runAt src (src.readPos + n) := by
    rw [headRun_eq h.sound, h.runs _ le_rfl, h.readPos]
  have hocc : src.writePos = src.readPos + src.occupiedLen := hsrc.positions
  have hocc' : src'.occupiedLen = src.occupiedLen - n := by
    rw [PipeRing.occupiedLen, Fifo.occupiedLen, h.items, List.length_drop]
    rfl
  have hlen : (runAt src (src.readPos + n)).len ≤ src.writePos - (src.readPos + n) := runIn_len_le hsrc.marks
  generalize runAt src (src.readPos + n) = run at hrun hlen ⊢
  rw [hrun, copyPipeRun_eq src' dst run (maxLen - n) 0 (by omega) rfl,
    copyPipeRun_eq src dst run (min maxLen src.occupiedLen - n) n (by omega) rfl, h.items, List.drop_zero,
    show min run.len (min maxLen src.occupiedLen - n) = min run.len (maxLen - n) by omega]

/-- The loop of a splice sends what the loop of a tee sends. -/
theorem moveLoop_eq (maxLen : Nat) {total : Nat} (hsrc : src.Sound) (hdst : dst.Sound) (h : Ahead src src' total) :
    (moveLoop src' dst maxLen total).2 = copyLoop src dst (min maxLen src.occupiedLen) total := by
  induction src', dst, total using moveLoop.induct maxLen with
  | case1 src' dst total hmore copied hnone =>
      rw [moveLoop, if_pos hmore, if_pos hnone, copyLoop]
      rw [← h.copied dst maxLen hsrc, if_pos hnone, ite_self]
  | case2 src' dst total hmore copied hsome ih =>
      have hspec := copyPipeRun_spec src' (headRun src') (maxLen - total) 0 hdst
      have hstored : copied.1 ≤ src'.occupiedLen := by
        have := hspec.2.1
        rwa [List.drop_zero] at this
      have hless : total < min maxLen src.occupiedLen := by
        have hocc : src'.occupiedLen = src.occupiedLen - total := by
          rw [PipeRing.occupiedLen, Fifo.occupiedLen, h.items, List.length_drop]
          rfl
        omega
      rw [moveLoop, if_pos hmore, if_neg hsome, ih (hspec.2.2.sound hdst) (h.advanceRead hstored)]
      conv_rhs => rw [copyLoop, if_pos hless, ← h.copied dst maxLen hsrc, if_neg hsome]
  | case3 src' dst total hdone =>
      rw [moveLoop, if_neg hdone, copyLoop_stops (.inl (by omega))]

theorem movePipeBuffer_eq (len : Nat) (hsrc : src.Sound) (hdst : dst.Sound) :
    (movePipeBuffer src dst len).2.1 = (copyPipeBuffer src dst len).1 ∧
      (movePipeBuffer src dst len).2.2.len = (copyPipeBuffer src dst len).2.len := by
  have hloop : (moveLoop src dst len 0).2 = copyLoop src dst (min len src.occupiedLen) 0 :=
    moveLoop_eq len hsrc hdst ⟨hsrc, rfl, rfl, fun _ _ => rfl⟩
  simp [movePipeBuffer, copyPipeBuffer, hloop]

theorem vacantLen_copyPipeRun (src : PipeRing) (run : PipeRun) (maxLen offset : Nat) (hdst : dst.Sound) :
    (copyPipeRun src dst run maxLen offset).1 ≤ dst.vacantLen ∧
      (copyPipeRun src dst run maxLen offset).2.vacantLen = dst.vacantLen -
        (copyPipeRun src dst run maxLen offset).1 := by
  obtain ⟨-, hle, hpushes⟩ := copyPipeRun_spec src run maxLen offset hdst
  have hcapacity : (copyPipeRun src dst run maxLen offset).2.bytes.capacity = dst.bytes.capacity := by
    rw [copyPipeRun]
    split
    · rfl
    · simp only
      split
      · rfl
      · rw [commitRun]
        split <;> rfl
  have hitems := congrArg List.length hpushes.items.1
  rw [List.length_append, List.length_take, Nat.min_eq_left hle] at hitems
  have hfits := (copyPipeRun src dst run maxLen offset).2.bytes.fits
  rw [hitems, hcapacity] at hfits
  rw [PipeRing.vacantLen, PipeRing.vacantLen, Fifo.vacantLen, Fifo.vacantLen, hcapacity, hitems, Nat.sub_sub]
  exact ⟨by omega, rfl⟩

/-- A round that may send all that is stored and has room sends what it would send anyway. -/
theorem copyPipeRun_count (dst : PipeRing) (maxLen total : Nat) (hsrc : src.Sound) :
    copyPipeRun src dst (headRun src) (min maxLen (total + min src.occupiedLen dst.vacantLen) - total) 0 =
      copyPipeRun src dst (headRun src) (maxLen - total) 0 := by
  have hocc : src.writePos = src.readPos + src.occupiedLen := hsrc.positions
  have hlen : (headRun src).len ≤ src.writePos - src.readPos := by
    rw [headRun_eq hsrc]
    exact runIn_len_le hsrc.marks
  have hroom := Nat.min_le_left dst.vacantLen (dst.vacantBuffers * pipeBufSize)
  rw [copyPipeRun_eq src dst (headRun src) (maxLen - total) 0 (by omega) rfl]
  rw [copyPipeRun_eq src dst (headRun src) _ 0 (by omega)]
  generalize min dst.vacantLen (dst.vacantBuffers * pipeBufSize) = room at hroom ⊢
  omega

theorem moveLoop_count (maxLen total : Nat) (hsrc : src.Sound) (hdst : dst.Sound) :
    moveLoop src dst (min maxLen (total + min src.occupiedLen dst.vacantLen)) total =
      moveLoop src dst maxLen total := by
  induction src, dst, total using moveLoop.induct maxLen with
  | case1 src dst total hmore copied hnone =>
      rw [moveLoop, copyPipeRun_count dst maxLen total hsrc, if_pos hnone, ite_self, moveLoop, if_pos hmore,
        if_pos hnone]
  | case2 src dst total hmore copied hsome ih =>
      obtain ⟨-, hstored, hpushes⟩ := copyPipeRun_spec src (headRun src) (maxLen - total) 0 hdst
      obtain ⟨hfits, hvacant⟩ := vacantLen_copyPipeRun src (headRun src) (maxLen - total) 0 hdst
      rw [List.drop_zero] at hstored
      change copied.1 ≤ src.occupiedLen at hstored
      change copied.1 ≤ dst.vacantLen at hfits
      have hocc : (src.advanceRead copied.1).occupiedLen = src.occupiedLen - copied.1 := List.length_drop
      have hrest : total + copied.1 + min (src.advanceRead copied.1).occupiedLen copied.2.vacantLen =
          total + min src.occupiedLen dst.vacantLen := by
        change copied.2.vacantLen = dst.vacantLen - copied.1 at hvacant
        omega
      have hnext := ih (hsrc.advanceRead hstored) (hpushes.sound hdst)
      rw [hrest] at hnext
      rw [moveLoop, copyPipeRun_count dst maxLen total hsrc, if_pos (by omega), if_neg hsome]
      conv_rhs => rw [moveLoop, if_pos hmore, if_neg hsome]
      exact hnext
  | case3 src dst total hdone =>
      rw [moveLoop, if_neg (by omega), moveLoop, if_neg hdone]

theorem movePipeBuffer_spliceCount (len : Nat) (hsrc : src.Sound) (hdst : dst.Sound) :
    movePipeBuffer src dst (spliceCount src dst len) = movePipeBuffer src dst len := by
  have hcount := moveLoop_count len 0 hsrc hdst
  rw [Nat.zero_add, ← Nat.min_assoc] at hcount
  rw [movePipeBuffer, movePipeBuffer, spliceCount, hcount]

end Moves

section Paged

open Act

variable {r r' src dst : PipeRing} {s : IoSrc} {run : PipeRun} {n : Nat}

theorem mem_tryPush {f : Fifo PipeBufferMark} {x y : PipeBufferMark} (h : y ∈ (f.tryPush x).2.items) :
    y ∈ f.items ∨ y = x := by
  rw [Fifo.tryPush] at h
  split at h
  · rcases List.mem_append.mp h with hold | hnew
    · exact .inl hold
    · exact .inr (List.mem_singleton.mp (List.mem_of_mem_take hnew))
  · exact .inl h

namespace PipeRing.Paged

theorem commitPacket (h : r.Paged) (flags : UInt8) (hn : n ≤ pipeBufSize) : (r.commitPacket n flags).Paged := by
  intro mark hmark
  rcases mem_tryPush hmark with hold | rfl
  · exact h mark hold
  · exact hn

theorem advanceRead (h : r.Paged) : (r.advanceRead n).Paged := by
  intro mark hmark
  rw [PipeRing.marks_advanceRead, trim] at hmark
  have hsub : ∀ first ∈ r.marks.items.dropWhile fun mark => mark.start + mark.len ≤ r.readPos + n,
      first ∈ r.marks.items :=
    fun first hfirst => (List.dropWhile_sublist _).subset hfirst
  cases hrest : r.marks.items.dropWhile fun mark => mark.start + mark.len ≤ r.readPos + n with
  | nil =>
      rw [hrest] at hmark
      cases hmark
  | cons first rest =>
      rw [hrest] at hmark hsub
      rcases List.mem_cons.mp hmark with rfl | hlater
      · have hfirst := h first (hsub first List.mem_cons_self)
        rw [PipeRing.trimMark]
        split
        · exact (Nat.sub_le _ _).trans hfirst
        · exact hfirst
      · exact h mark (hsub mark (List.mem_cons_of_mem _ hlater))

theorem consumes (h : r.Paged) (hconsumes : Consumes r n r') : r'.Paged := by
  induction hconsumes with
  | done r => exact h
  | step _ _ ih => exact ih h.advanceRead

theorem runAt_len (h : r.Paged) (pos : Nat) (hflags : (runAt r pos).flags ≠ none) :
    (runAt r pos).len ≤ pipeBufSize := by
  rw [runAt] at hflags ⊢
  rw [PipeRing.Paged] at h
  generalize r.marks.items = marks at h hflags
  induction marks with
  | nil => exact absurd rfl hflags
  | cons mark marks ih =>
      have hfirst := h mark List.mem_cons_self
      rw [runIn] at hflags ⊢
      split
      · rename_i hbefore
        rw [if_pos hbefore] at hflags
        exact absurd rfl hflags
      · rename_i hbefore
        rw [if_neg hbefore] at hflags
        split
        · simp only
          omega
        · rename_i hin
          rw [if_neg hin] at hflags
          exact ih (fun m hm => h m (List.mem_cons_of_mem _ hm)) hflags

theorem copyPipeRun (h : dst.Paged) (src : PipeRing) (maxLen offset : Nat) (hdst : dst.Sound)
    (hrun : run.flags ≠ none → run.len ≤ pipeBufSize) : (copyPipeRun src dst run maxLen offset).2.Paged := by
  have hle := (copyPipeRun_spec src run maxLen offset hdst).1
  rw [Pipe.copyPipeRun] at hle ⊢
  simp only at hle ⊢
  split
  · exact h
  · rename_i hwant
    rw [if_neg hwant] at hle
    split
    · exact h
    · rename_i hsome
      rw [if_neg hsome] at hle
      rw [commitRun]
      split
      · rename_i flags hflags
        have := hrun (by rw [hflags]; exact fun hnone => by (cases hnone))
        exact commitPacket h flags (by omega)
      · exact h

theorem copyLoop (hsrc : src.Paged) (h : dst.Paged) (hdst : dst.Sound) (available total : Nat) :
    (copyLoop src dst available total).1.Paged := by
  induction dst, total using copyLoop.induct src available with
  | case1 dst total hmore copied hnone =>
      rw [Pipe.copyLoop, if_pos hmore, if_pos hnone]
      exact h
  | case2 dst total hmore copied hsome ih =>
      rw [Pipe.copyLoop, if_pos hmore, if_neg hsome]
      exact ih (h.copyPipeRun src _ _ hdst (hsrc.runAt_len _)) ((copyPipeRun_spec src _ _ _ hdst).2.2.sound hdst)
  | case3 dst total hdone =>
      rw [Pipe.copyLoop, if_neg hdone]
      exact h

theorem packetLoop (h : r.Paged) (fuel written : Nat) : Ensures (packetLoop fuel written) (r, s)
    (fun _ t => t.1.Paged) (fun _ t => t.1.Paged) False := by
  induction fuel generalizing r s written with
  | zero => exact ensures_pure h
  | succ fuel ih =>
      rw [Pipe.packetLoop]
      apply ensures_get_bind
      simp only
      split
      · exact ensures_pure h
      · refine (pushSource_spec.mono (fun _ _ => id) (fun _ t ht => by rw [ht]; exact h) id).bind ?_
        rintro n ⟨ring, t⟩ ⟨xs, rfl, hmax, -, -, hring⟩
        simp only at hring
        subst hring
        split
        · exact ensures_pure h
        · apply ensures_modify_bind
          have hpaged : (PipeRing.commitPacket (r.filled xs) xs.length pipeBufFlagPacket).Paged :=
            commitPacket h pipeBufFlagPacket (hmax.trans (Nat.min_le_right _ _))
          split
          · exact ensures_pure hpaged
          · exact ih hpaged _

theorem mergePackets (h : r.Paged) : Ensures mergePackets (r, s) (fun _ t => t.1.Paged)
    (fun _ t => t.1.Paged) False := by
  rw [Pipe.mergePackets]
  apply ensures_get_bind
  simp only
  split
  · refine (pushSource_spec.mono (fun _ _ => id) (fun _ t ht => by rw [ht]; exact h) id).bind ?_
    rintro n ⟨ring, t⟩ ⟨xs, rfl, -, -, -, hring⟩
    simp only at hring
    subst hring
    apply ensures_modify_bind
    exact ensures_pure h
  · exact ensures_pure h

theorem writePipePackets (h : r.Paged) : (writePipePackets (r, s)).2.1.Paged := by
  apply Ensures.final (p := fun t : PipeRing × IoSrc => t.1.Paged)
  rw [Pipe.writePipePackets]
  refine h.mergePackets.bind ?_
  intro merged t ht
  apply ensures_get_bind
  refine (ht.packetLoop _ merged).bind ?_
  intro written u hu
  exact ensures_pure hu

theorem writePipeBuffer (h : r.Paged) (atomicLen : Option Nat) : (writePipeBuffer atomicLen (r, s)).2.1.Paged := by
  apply Ensures.final (p := fun t : PipeRing × IoSrc => t.1.Paged)
  rw [Pipe.writePipeBuffer]
  apply ensures_get_bind
  simp only
  split
  · exact ensures_pure h
  · refine (pushSource_spec.mono (fun _ _ => id) (fun _ t ht => by rw [ht]; exact h) id).bind ?_
    rintro n ⟨ring, t⟩ ⟨xs, rfl, -, -, -, hring⟩
    simp only at hring
    subst hring
    apply ensures_modify_bind
    exact ensures_pure h

end PipeRing.Paged

theorem forall_mem_set {pipes : System} {p : PipeState} (h : ∀ q ∈ pipes, q.ring.Paged) (hp : p.ring.Paged) (i : Nat) :
    ∀ q ∈ pipes.set i p, q.ring.Paged := by
  intro q hq
  rcases List.mem_or_eq_of_mem_set hq with hold | rfl
  · exact h q hold
  · exact hp

theorem PipeState.paged_call {p q : PipeState} {c : Call} (hsound : p.Sound) (h : p.ring.Paged)
    (hcall : p.call c = some q) : q.ring.Paged := by
  cases c with
  | write src atomicLen =>
      cases hcall
      exact h.writePipeBuffer atomicLen
  | writePackets src =>
      cases hcall
      exact h.writePipePackets
  | read dst =>
      rw [PipeState.call] at hcall
      split at hcall
      · cases hcall
      · cases hcall
        refine Ensures.final (p := fun t : PipeRing × IoDst => t.1.Paged)
          ((readPipeBuffer_spec hsound.ring).mono ?_ ?_ id)
        · rintro transfer t ⟨⟨removed, ⟨-, -, hconsumes, -⟩, -⟩, -⟩
          exact h.consumes hconsumes
        · rintro e t ⟨-, -, hconsumes, -⟩
          exact h.consumes hconsumes
  | spliceRead dst =>
      rw [PipeState.call] at hcall
      split at hcall
      · cases hcall
      · cases hcall
        refine Ensures.final (p := fun t : PipeRing × IoDst => t.1.Paged) (spliceReadPipeBuffer_spec.mono ?_ ?_ id)
        · rintro transfer t ⟨⟨-, -, hconsumes, -⟩, -⟩
          exact h.consumes hconsumes
        · rintro e t ⟨-, -, hconsumes, -⟩
          exact h.consumes hconsumes
  | reserve dstLen sourceClosed =>
      rw [PipeState.call] at hcall
      split at hcall
      · cases hcall
      split at hcall
      · cases hcall
        exact h
      · cases hcall
        exact h
  | commit answer =>
      rw [PipeState.call, Option.map_eq_some_iff] at hcall
      obtain ⟨held, -, rfl⟩ := hcall
      cases answer with
      | error e => exact h
      | ok accepted =>
          rw [PipeState.finish]
          split
          · exact h
          · simp only [commitPipePrefix]
            split
            · exact h
            · exact h.advanceRead
  | resize requested limit memory =>
      cases hcall
      intro mark hmark
      rw [(resize_kept requested limit memory hsound.ring).2.marks] at hmark
      exact h mark hmark

theorem Reachable.paged {pipes : System} (h : Reachable pipes) : ∀ p ∈ pipes, p.ring.Paged := by
  induction h with
  | start => exact fun _ hnone => by cases hnone
  | @step s t op hreach hstep ih =>
      have hsound := hreach.sound
      cases op with
      | create capacity =>
          rw [System.step] at hstep
          split at hstep
          · cases hstep
            intro p hp
            rw [List.mem_append, List.mem_singleton] at hp
            rcases hp with hold | rfl
            · exact ih p hold
            · exact fun mark hmark => by cases hmark
          · cases hstep
      | call i c =>
          rw [System.step, Option.map_eq_some_iff] at hstep
          obtain ⟨q, hcall, rfl⟩ := hstep
          rw [Option.bind_eq_some_iff] at hcall
          obtain ⟨p, hp, hcall⟩ := hcall
          have hp := List.mem_of_getElem? hp
          exact forall_mem_set ih (PipeState.paged_call (hsound p hp) (ih p hp) hcall) i
      | splice i j len =>
          rw [System.step, Option.map_eq_some_iff] at hstep
          obtain ⟨⟨p, q⟩, hends, rfl⟩ := hstep
          obtain ⟨hp, hq, -, -⟩ := System.ends_eq_some hends
          have hp := List.mem_of_getElem? hp
          have hq := List.mem_of_getElem? hq
          have hmoved := movePipeBuffer_spec len (hsound p hp).ring (hsound q hq).ring
          refine forall_mem_set (forall_mem_set ih ?_ i) ?_ j
          · exact (ih p hp).consumes hmoved.1
          · change (movePipeBuffer p.ring q.ring len).2.1.Paged
            rw [(movePipeBuffer_eq len (hsound p hp).ring (hsound q hq).ring).1]
            exact (ih p hp).copyLoop (ih q hq) (hsound q hq).ring _ _
      | tee i j len =>
          rw [System.step, Option.map_eq_some_iff] at hstep
          obtain ⟨⟨p, q⟩, hends, rfl⟩ := hstep
          obtain ⟨hp, hq, -, -⟩ := System.ends_eq_some hends
          have hp := List.mem_of_getElem? hp
          have hq := List.mem_of_getElem? hq
          exact forall_mem_set ih ((ih p hp).copyLoop (ih q hq) (hsound q hq).ring _ _) j

end Paged

/-- A splice and a tee send a prefix of the source in which packets stay packets, and cut
one at most, at the end of what was asked for, unless the vacant bytes of the
destination end inside a packet whose turn comes. -/
theorem transfers_intact_iff {pipes : System} {p q : PipeState} (len : Nat) (h : Reachable pipes) (hp : p ∈ pipes)
    (hq : q ∈ pipes) :
    (Intact p.ring q.ring len (movePipeBuffer p.ring q.ring len).2.2.len (movePipeBuffer p.ring q.ring len).2.1 ↔
      ¬ Straddles p.ring q.ring len) ∧
    (Intact p.ring q.ring len (copyPipeBuffer p.ring q.ring len).2.len (copyPipeBuffer p.ring q.ring len).1 ↔
      ¬ Straddles p.ring q.ring len) ∧
    Consumes p.ring (movePipeBuffer p.ring q.ring len).2.2.len (movePipeBuffer p.ring q.ring len).1 ∧
    movePipeBuffer p.ring q.ring (spliceCount p.ring q.ring len) = movePipeBuffer p.ring q.ring len := by
  have hsrc := (h.sound p hp).ring
  have hdst := (h.sound q hq).ring
  have hcopied := copyPipeBuffer_intact_iff len hsrc (h.paged p hp) hdst
  obtain ⟨hring, hlen⟩ := movePipeBuffer_eq len hsrc hdst
  refine ⟨?_, hcopied, (movePipeBuffer_spec len hsrc hdst).1, movePipeBuffer_spliceCount len hsrc hdst⟩
  rw [hring, hlen]
  exact hcopied

def packetAndPipe : List Op := [.create 4096, .create 8192, .call 0 (.writePackets ⟨[7, 8], []⟩)]

theorem packetAndPipe_reaches : ∃ p : PipeState, Reachable [p, PipeState.create 8192] ∧ p.ring.readPos = 0 ∧
    p.ring.marks.items = [⟨0, 2, pipeBufFlagPacket⟩] := by
  have hrun : ∃ p : PipeState, packetAndPipe.foldlM System.step [] = some [p, PipeState.create 8192] ∧
      p.ring.readPos = 0 ∧ p.ring.marks.items = [⟨0, 2, pipeBufFlagPacket⟩] := ⟨_, rfl, rfl, rfl⟩
  obtain ⟨p, hrun, hpos, hmarks⟩ := hrun
  exact ⟨p, Reachable.start.run hrun, hpos, hmarks⟩

theorem transfers_intact_empty : ∃ p q : PipeState, Reachable [p, q] ∧ p.ring.marks.items =
    [⟨0, 2, pipeBufFlagPacket⟩] ∧
    Intact p.ring q.ring 1 (movePipeBuffer p.ring q.ring 1).2.2.len (movePipeBuffer p.ring q.ring 1).2.1 := by
  obtain ⟨p, hreach, -, hmarks⟩ := packetAndPipe_reaches
  refine ⟨p, PipeState.create 8192, hreach, hmarks, ?_⟩
  refine (transfers_intact_iff 1 hreach List.mem_cons_self (List.mem_cons_of_mem _ List.mem_cons_self)).1.mpr ?_
  rintro ⟨hless, -⟩
  exact absurd hless (by decide)

section OneVacant

variable {xs ys : List UInt8}

theorem pushStream_page (hxs : xs.length = 4096) : ((PipeRing.new 8192).pushStream xs).bytes.items = xs ∧
    ((PipeRing.new 8192).pushStream xs).vacantLen = 4096 ∧ ((PipeRing.new 8192).pushStream xs).tailStreamLen = 4096 ∧
    ((PipeRing.new 8192).pushStream xs).vacantBuffers = 1 := by
  have hroom : xs.length ≤ (PipeRing.new 8192).vacantLen := by
    rw [hxs]
    decide
  have hitems : ((PipeRing.new 8192).pushStream xs).bytes.items = xs := PipeRing.items_pushStream hroom
  have htail : ((PipeRing.new 8192).pushStream xs).tailStreamLen = 4096 := (congrArg List.length hitems).trans hxs
  refine ⟨hitems, ?_, htail, ?_⟩
  · rw [vacantLen_pushStream hroom, hxs]
    rfl
  · rw [PipeRing.vacantBuffers, PipeRing.occupiedBuffers, htail]
    rfl

/-- A packet behind it leaves one byte vacant and one slot free. -/
theorem pushPacket_page (hxs : xs.length = 4096) (hys : ys.length = 4095) :
    (((PipeRing.new 8192).pushStream xs).pushPacket ys pipeBufFlagPacket).vacantLen = 1 ∧
      (((PipeRing.new 8192).pushStream xs).pushPacket ys pipeBufFlagPacket).vacantBuffers = 1 := by
  obtain ⟨hitems, hvacant, htail, hslots⟩ := pushStream_page hxs
  have hroom : ys.length ≤ ((PipeRing.new 8192).pushStream xs).vacantLen := by omega
  have hitems' := PipeRing.items_pushPacket pipeBufFlagPacket hroom
  have hfits : ((PipeRing.new 8192).pushStream xs).PacketFits ys pipeBufFlagPacket := by
    refine ⟨by omega, hroom, ?_, rfl⟩
    rw [pipeRingFull, hslots]
    rfl
  have hmarks := PipeRing.marks_pushPacket hfits
  have hcapacity : (((PipeRing.new 8192).pushStream xs).pushPacket ys pipeBufFlagPacket).marks.capacity = 2 := rfl
  have hbytes : (((PipeRing.new 8192).pushStream xs).pushPacket ys pipeBufFlagPacket).bytes.capacity = 8192 := rfl
  constructor
  · rw [PipeRing.vacantLen, Fifo.vacantLen, hitems', hitems, hbytes, List.length_append, hxs, hys]
  · rw [PipeRing.vacantBuffers, PipeRing.occupiedBuffers, PipeRing.tailStreamLen, Fifo.occupiedLen, hmarks, hcapacity,
      List.getLast?_concat]
    simp only [PipeRing.writePos_pushPacket, Nat.add_sub_cancel_left, Nat.sub_self]
    rfl

theorem written_page (hxs : xs.length = 4096) (hys : ys.length = 4095) :
    (writePipePackets ((writePipeBuffer (some 4096) (PipeRing.new 8192, ⟨xs, []⟩)).2.1, ⟨ys, []⟩)).2.1 =
      ((PipeRing.new 8192).pushStream xs).pushPacket ys pipeBufFlagPacket := by
  obtain ⟨-, hvacant, htail, hslots⟩ := pushStream_page hxs
  have hsrc : IoSrc.remaining ⟨xs, []⟩ = 4096 := hxs
  have hsrc' : IoSrc.remaining ⟨ys, []⟩ = 4095 := hys
  have hroom : min (PipeRing.new 8192).vacantLen (streamWriteRoom (PipeRing.new 8192) 4096) = 8192 := by decide
  have hpushed : pushSource 4096 (PipeRing.new 8192, ⟨xs, []⟩) =
      (.ok 4096, ((PipeRing.new 8192).filled (xs.take 4096), ⟨xs.drop 4096, []⟩)) :=
    pushSource_full rfl hsrc.ge (by decide)
  have hstream : (writePipeBuffer (some 4096) (PipeRing.new 8192, ⟨xs, []⟩)).2.1 =
      (PipeRing.new 8192).pushStream xs := by
    rw [writePipeBuffer, Act.get_bind]
    simp only [hsrc, hroom, Option.any_some, Option.getD_some]
    rw [if_neg (by decide), show min 4096 8192 = 4096 by decide, Act.bind_apply, hpushed]
    simp only [onRing, Act.modify_bind, Act.pure_apply]
    rw [← hxs, List.take_length]
    rfl
  rw [hstream, writePipePackets_items _ _ (mergePackets_skipped ?_ (by rw [hsrc']; decide))]
  · refine packetLoop_page 0 rfl (by rw [hsrc']; decide) (by rw [hsrc']; decide) ?_ (by rw [hsrc', hvacant]; decide)
    rw [pipeRingFull, hslots]
    rfl
  · rintro ⟨-, -, -, -, hused⟩
    rw [htail, hvacant, hsrc'] at hused
    exact absurd hused (by decide)

end OneVacant

/-- One byte of a packet of two is sent into a pipe that has one byte vacant. -/
theorem packet_cut_for_room : ∃ p q : PipeState, Reachable [p, q] ∧ p.ring.marks.items = [⟨0, 2, pipeBufFlagPacket⟩] ∧
    ¬ Intact p.ring q.ring 2 (movePipeBuffer p.ring q.ring 2).2.2.len (movePipeBuffer p.ring q.ring 2).2.1 ∧
    ¬ Intact p.ring q.ring 2 (copyPipeBuffer p.ring q.ring 2).2.len (copyPipeBuffer p.ring q.ring 2).1 := by
  have hxs : (List.replicate 4096 (0 : UInt8)).length = 4096 := List.length_replicate
  have hys : (List.replicate 4095 (0 : UInt8)).length = 4095 := List.length_replicate
  generalize List.replicate 4096 (0 : UInt8) = xs at hxs
  generalize List.replicate 4095 (0 : UInt8) = ys at hys
  obtain ⟨p, hreach, hpos, hmarks⟩ := packetAndPipe_reaches
  have hstream := hreach.step (.call 1 (.write ⟨xs, []⟩ (some 4096))) rfl
  have hpacket := hstream.step (.call 1 (.writePackets ⟨ys, []⟩)) rfl
  obtain ⟨q, hq, hring⟩ : ∃ q : PipeState, Reachable [p, q] ∧
      q.ring = ((PipeRing.new 8192).pushStream xs).pushPacket ys pipeBufFlagPacket :=
    ⟨_, hpacket, written_page hxs hys⟩
  obtain ⟨hvacant, hslots⟩ := pushPacket_page hxs hys
  rw [← hring] at hvacant hslots
  have hsrc := (hq.sound p List.mem_cons_self).ring
  have hdst := (hq.sound q (List.mem_cons_of_mem _ List.mem_cons_self)).ring
  have hstraddles : Straddles p.ring q.ring 2 := by
    refine ⟨by omega, ⟨0, 2, pipeBufFlagPacket⟩, ⟨by rw [hmarks]; exact List.mem_cons_self, ?_, ?_⟩, ?_⟩
    · rw [hpos, hvacant]
      decide
    · rw [hpos, hvacant]
      decide
    · intro y _ hy
      rw [hpos, Nat.zero_add, Nat.le_zero] at hy
      subst hy
      have hrun : (runAt p.ring p.ring.readPos).len = 2 := by
        rw [runAt, hmarks, hpos]
        rfl
      rw [SlotsFor, received_zero hsrc, hslots, Nat.add_zero, hrun]
      decide
  have hcut := (copyPipeBuffer_intact_iff 2 hsrc (hq.paged p List.mem_cons_self) hdst).not_left.mpr hstraddles
  obtain ⟨hsame, hlen⟩ := movePipeBuffer_eq 2 hsrc hdst
  refine ⟨p, q, hq, hmarks, ?_, hcut⟩
  rw [hsame, hlen]
  exact hcut

end TheKernel.Pipe
