import TheKernel.Pipe.Pages

namespace TheKernel.Pipe

open Act

def pipeWriteIsComplete (written requested : Nat) (nonblocking : Bool) : Bool :=
  decide (written = requested) || nonblocking

/-- What one call of the operation finds: the ring as others have left it, and
whether the read end is closed. -/
structure Turn where
  ring : PipeRing
  closed : Bool

/-- An attempt that was made: the ring and the source before it, the ring after
it, and whether readers were woken. -/
structure Made where
  ring : PipeRing
  src : IoSrc
  after : PipeRing
  woken : Bool

/-- The calls of the operation by `block_on_poll_io`, with the bytes written so
far: the result, the bytes written in the end and the attempts. `ended` is the
error with which a wait ends. -/
def writeTurns (packetized nonblocking : Bool) (size : Nat) (ended : AxError) :
    List Turn → IoSrc → Nat → Outcome AxError Nat × Nat × List Made
  | [], _, total => (.err ended, total, [])
  | turn :: turns, src, total =>
      if turn.closed then (.err .brokenPipe, total, [])
      else match writeAttempt packetized size (turn.ring, src) with
        | (.panic, ring, _) => (.panic, total, [⟨turn.ring, src, ring, false⟩])
        | (.err e, ring, src') =>
            -- an operation that would block is called again, whatever it has done
            if e = .wouldBlock ∧ !nonblocking then
              let (result, total, made) := writeTurns packetized nonblocking size ended turns src' total
              (result, total, ⟨turn.ring, src, ring, false⟩ :: made)
            else (.err e, total, [⟨turn.ring, src, ring, false⟩])
        | (.ok written, ring, src') =>
            let made : Made := ⟨turn.ring, src, ring, decide (0 < written.len) && written.wakeReaders⟩
            if 0 < written.len ∧ pipeWriteIsComplete (total + written.len) size nonblocking then
              (.ok (total + written.len), total + written.len, [made])
            else if nonblocking then (.err .wouldBlock, total + written.len, [made])
            else
              let (result, total, later) := writeTurns packetized nonblocking size ended turns src'
                (total + written.len)
              (result, total, made :: later)

/-- `Pipe::write_with_nonblocking`: the result, and the attempts it was made of. -/
def writeWithNonblocking (isWrite packetized nonblocking : Bool) (ended : AxError) (turns : List Turn) (src : IoSrc) :
    Outcome AxError Nat × List Made :=
  if !isWrite then (.err .badFileDescriptor, [])
  else if src.remaining = 0 then (.ok 0, [])
  else match writeTurns packetized nonblocking src.remaining ended turns src 0 with
    | (.ok total, _, made) => (.ok total, made)
    | (.err e, total, made) => if 0 < total then (.ok total, made) else (.err e, made)
    | (.panic, _, made) => (.panic, made)

/-- The attempt adds as many bytes as it returns, and none when it fails. -/
def Exact (x : Act (PipeRing × IoSrc) AxError PipeTransfer) (r : PipeRing) (s : IoSrc) : Prop :=
  Ensures x (r, s) (fun transfer t => ∃ xs : List UInt8, t.1.bytes.items = r.bytes.items ++ xs ∧
    xs.length = transfer.len) (fun _ t => t.1.bytes.items = r.bytes.items) False

def Made.added (m : Made) : Nat := m.after.occupiedLen - m.ring.occupiedLen

/-- All bytes left in the pipe are reported, and readers are woken for them. -/
def Reports (res : Outcome AxError Nat × List Made) : Prop :=
  (res.1 = .ok (res.2.map Made.added).sum ∨ (∃ e, res.1 = .err e) ∧ (res.2.map Made.added).sum = 0) ∧
    ∀ m ∈ res.2, 0 < m.added → m.woken = true

/-- A read of the source fails in a packetized write after an earlier page of the
write has gone into the ring. -/
def FailsAfterPage (r : PipeRing) (s : IoSrc) : Prop :=
  ∃ merged rest, r.merges s = some (merged, rest) ∧ LateFailure r s.remaining merged rest (0 < merged)

section Attempts

variable {r : PipeRing} {s : IoSrc} {maxLen : Nat}

theorem pushSource_items : Ensures (pushSource maxLen) (r, s)
    (fun n t => ∃ xs : List UInt8, n = xs.length ∧ t.1.bytes.items = r.bytes.items ++ xs)
      (fun _ t => t.1 = r) False := by
  refine pushSource_spec.mono ?_ (fun _ _ h => h) id
  rintro n t ⟨xs, hn, -, hroom, -, hring⟩
  refine ⟨xs, hn, ?_⟩
  rw [hring]
  exact items_filled (hn ▸ hroom)

theorem writePipeBuffer_exact (atomicLen : Option Nat) : Ensures (writePipeBuffer atomicLen) (r, s)
    (fun transfer t => transfer.wakeReaders = decide (0 < transfer.len) ∧
      ∃ xs : List UInt8, t.1.bytes.items = r.bytes.items ++ xs ∧ xs.length = transfer.len)
    (fun _ t => t.1.bytes.items = r.bytes.items) False := by
  rw [writePipeBuffer]
  apply ensures_get_bind
  simp only
  split
  · exact ensures_pure ⟨rfl, [], by simp, rfl⟩
  · refine (pushSource_items.mono (fun _ _ => id) (fun _ t ht => by rw [ht]) id).bind ?_
    rintro n t ⟨xs, hn, hitems⟩
    apply ensures_modify_bind
    exact ensures_pure ⟨rfl, xs, hitems, hn.symm⟩

theorem hasRoom_zero_iff : r.HasRoom s.remaining 0 0 ↔
    ¬ (s.remaining = 0 ∨ pipeRingFull r = true ∨ r.vacantLen < min s.remaining pipeBufSize) := by
  have hfull : pipeRingFull r = true ↔ r.vacantBuffers = 0 := beq_iff_eq
  constructor
  · rintro ⟨hmore, hslot, hroom⟩ hstop
    rw [PipeRing.HasSlot, if_pos rfl] at hslot
    rw [hfull] at hstop
    omega
  · intro hgo
    rw [hfull] at hgo
    refine ⟨by omega, ?_, by omega⟩
    rw [PipeRing.HasSlot, if_pos rfl]
    omega

/-- The loop adds what it counts; when it fails, it has added bytes only if a copy
failed after another. -/
theorem packetLoop_items (fuel written : Nat) (added : Prop) (hfuel : s.remaining ≤ fuel) :
    Ensures (packetLoop fuel written) (r, s)
      (fun n t => ¬ LateFailure r s.remaining 0 s.answers added ∧ ∃ xs : List UInt8, n = written + xs.length ∧
        t.1.bytes.items = r.bytes.items ++ xs)
      (fun _ t => ∃ xs : List UInt8, t.1.bytes.items = r.bytes.items ++ xs ∧
        (LateFailure r s.remaining 0 s.answers added ↔ added ∨ xs ≠ [])) False := by
  induction fuel generalizing r s written added with
  | zero =>
      refine ensures_pure ⟨not_lateFailure_of_room fun hroom => ?_, [], rfl, by simp⟩
      have := hroom.more
      omega
  | succ fuel ih =>
      rw [packetLoop]
      apply ensures_get_bind
      simp only
      split
      · rename_i hstop
        exact ensures_pure ⟨not_lateFailure_of_room fun hroom => hasRoom_zero_iff.mp hroom hstop, [], rfl, by simp⟩
      · rename_i hgo
        have hroom := hasRoom_zero_iff.mpr hgo
        have hreads : r.pageReads s.remaining 0 0 = r.reads 0 (min s.remaining pipeBufSize) := by
          simp [PipeRing.pageReads]
        have hgiven := @pushSource_given r s (min s.remaining pipeBufSize) (by omega) (Nat.min_le_left _ _)
        rw [← hreads] at hgiven
        rcases hpage : given (r.pageReads s.remaining 0 0) s.answers with _ | ⟨count, rest⟩
        · obtain ⟨e, t, hres⟩ := hgiven.1 hpage
          rw [Ensures, bind_apply, hres]
          exact ⟨[], (List.append_nil _).symm, by simpa using lateFailure_of_none hroom hpage⟩
        · have hres := hgiven.2 count rest hpage
          obtain ⟨_, -, hle, hvacant, -⟩ := pushSource_spec.ok_of hres
          have hlen : (s.bytes.take count).length = count := by
            rw [List.length_take, ← IoSrc.remaining]
            omega
          have hitems : (r.filled (s.bytes.take count)).bytes.items = r.bytes.items ++ s.bytes.take count :=
            items_filled (hlen.trans_le hvacant)
          have hshort : count < min s.remaining pipeBufSize → ¬ LateFailure r s.remaining 0 s.answers added :=
            fun hlt hlate => by
              obtain ⟨hpage, -⟩ := (lateFailure_of_some hpage).mp hlate
              omega
          refine ensures_bind_of_eq hres ?_
          by_cases hnone : count = 0
          · have hpos : 0 < min s.remaining pipeBufSize := by
              have hmore := hroom.more
              simp only [pipeBufSize] at *
              omega
            rw [if_pos hnone]
            refine ensures_pure ⟨hshort (hnone ▸ hpos), [], rfl, ?_⟩
            rw [hitems, hnone, List.take_zero]
          · rw [if_neg hnone]
            apply ensures_modify_bind
            split
            · rename_i hlt
              exact ensures_pure ⟨hshort hlt, s.bytes.take count, by rw [hlen], hitems⟩
            · obtain rfl : count = min s.remaining pipeBufSize := by omega
              have hxs : s.bytes.take (min s.remaining pipeBufSize) ≠ [] := fun h => hnone (by rw [← hlen, h]; rfl)
              have hgrown := grown_pushPacket (s.bytes.take (min s.remaining pipeBufSize)) pipeBufFlagPacket
                (by omega) hroom.slot
              rw [hlen] at hgrown
              have hpush : (r.filled (s.bytes.take (min s.remaining pipeBufSize))).commitPacket
                  (min s.remaining pipeBufSize) pipeBufFlagPacket =
                    r.pushPacket (s.bytes.take (min s.remaining pipeBufSize)) pipeBufFlagPacket := by
                rw [PipeRing.pushPacket, hlen]
                rfl
              have hrest : IoSrc.remaining ⟨s.bytes.drop (min s.remaining pipeBufSize), rest⟩ =
                  s.remaining - min s.remaining pipeBufSize := List.length_drop
              rw [lateFailure_next hroom hgrown hpage, ← hrest]
              simp only [hpush]
              refine (ih (written + min s.remaining pipeBufSize) True (by omega)).mono ?_ ?_ id
              · rintro n t ⟨hlate, ys, rfl, hys⟩
                refine ⟨hlate, s.bytes.take (min s.remaining pipeBufSize) ++ ys, ?_, ?_⟩
                · rw [List.length_append, hlen, Nat.add_assoc]
                · rw [hys, ← List.append_assoc, ← hitems]
                  rfl
              · rintro e t ⟨ys, hys, hlate⟩
                refine ⟨s.bytes.take (min s.remaining pipeBufSize) ++ ys, ?_, ?_⟩
                · rw [hys, ← List.append_assoc, ← hitems]
                  rfl
                · exact ⟨fun _ => .inr (by simp [hxs]), fun _ => hlate.mpr (.inl trivial)⟩

theorem mergePackets_given :
    (r.merges s = none → ∃ e t, mergePackets (r, s) = (.err e, (r, t))) ∧
      ∀ merged rest, r.merges s = some (merged, rest) → ∃ (xs : List UInt8) (grown : PipeRing),
        mergePackets (r, s) = (.ok merged, (grown, ⟨s.bytes.drop merged, rest⟩)) ∧ merged = xs.length ∧
          grown.bytes.items = r.bytes.items ++ xs ∧ Grown r grown merged 0 := by
  rw [PipeRing.merges, mergePackets, get_bind]
  simp only
  split
  · rename_i hmerge
    obtain ⟨-, -, htail, hpage⟩ := hmerge
    have hchars : s.remaining &&& (pipeBufSize - 1) ≤ s.remaining := Nat.and_le_left
    have hgiven := @pushSource_given r s (min (s.remaining &&& (pipeBufSize - 1)) r.vacantLen) (Nat.min_le_right _ _)
      (by omega)
    refine ⟨fun hnone => ?_, fun merged rest hsome => ?_⟩
    · obtain ⟨e, t, hres⟩ := hgiven.1 hnone
      exact ⟨e, t, by rw [bind_apply, hres]⟩
    · have hres := hgiven.2 merged rest hsome
      obtain ⟨_, -, hle, hvacant, -⟩ := pushSource_spec.ok_of hres
      have hlen : (s.bytes.take merged).length = merged := by
        rw [List.length_take, ← IoSrc.remaining]
        omega
      have hgrown := grown_pushStream (s.bytes.take merged) (by omega) ⟨htail, by omega⟩
      rw [hlen] at hgrown
      refine ⟨s.bytes.take merged, r.pushStream (s.bytes.take merged), ?_, hlen.symm,
        PipeRing.items_pushStream (by omega), hgrown⟩
      rw [bind_apply, hres, PipeRing.pushStream, hlen]
      rfl
  · refine ⟨fun h => absurd h (Option.some_ne_none _), ?_⟩
    rintro _ _ ⟨⟩
    exact ⟨[], r, rfl, rfl, (List.append_nil _).symm, .refl r⟩

/-- A packetized attempt adds what it returns; one that fails has added bytes
just when a copy fails after another. -/
theorem writePipePackets_adds : Ensures writePipePackets (r, s)
    (fun transfer t => ¬ FailsAfterPage r s ∧ transfer.wakeReaders = decide (0 < transfer.len) ∧
      ∃ xs : List UInt8, t.1.bytes.items = r.bytes.items ++ xs ∧ xs.length = transfer.len)
    (fun _ t => ∃ xs : List UInt8, t.1.bytes.items = r.bytes.items ++ xs ∧ (FailsAfterPage r s ↔ xs ≠ [])) False := by
  have hgiven := @mergePackets_given r s
  rcases hmerge : r.merges s with _ | ⟨merged, rest⟩
  · obtain ⟨e, t, hres⟩ := hgiven.1 hmerge
    rw [writePipePackets, Ensures, bind_apply, hres]
    exact ⟨[], (List.append_nil _).symm, by simp [FailsAfterPage, hmerge]⟩
  · obtain ⟨xs, grown, hres, rfl, hxs, hgrown⟩ := hgiven.2 merged rest hmerge
    have hrest : IoSrc.remaining ⟨s.bytes.drop xs.length, rest⟩ = s.remaining - xs.length := List.length_drop
    have hfails : FailsAfterPage r s ↔ LateFailure grown (s.remaining - xs.length) 0 rest (0 < xs.length) := by
      rw [lateFailure_grown hgrown]
      simp [FailsAfterPage, hmerge]
    rw [writePipePackets]
    refine ensures_bind_of_eq hres (ensures_get_bind ?_)
    refine ((packetLoop_items (IoSrc.remaining ⟨s.bytes.drop xs.length, rest⟩) xs.length (0 < xs.length) le_rfl).mono
      (fun _ _ => id) ?_ id).bind ?_
    · rintro e t ⟨ys, hys, hlate⟩
      refine ⟨xs ++ ys, by rw [hys, ← List.append_assoc, ← hxs], ?_⟩
      rw [hfails, ← hrest, hlate, List.length_pos_iff, Ne, Ne, Ne, List.append_eq_nil_iff, not_and_or]
    · rintro n t ⟨hnot, ys, rfl, hys⟩
      refine ensures_pure ⟨by rwa [hfails, ← hrest], rfl, xs ++ ys, by rw [hys, ← List.append_assoc, ← hxs], ?_⟩
      rw [List.length_append]

theorem writeAttempt_adds (packetized : Bool) (size : Nat) : Ensures (writeAttempt packetized size) (r, s)
    (fun transfer t => ¬ (packetized = true ∧ FailsAfterPage r s) ∧ transfer.wakeReaders = decide (0 < transfer.len) ∧
      ∃ xs : List UInt8, t.1.bytes.items = r.bytes.items ++ xs ∧ xs.length = transfer.len)
    (fun _ t => ∃ xs : List UInt8, t.1.bytes.items = r.bytes.items ++ xs ∧
      (packetized = true ∧ FailsAfterPage r s ↔ xs ≠ [])) False := by
  cases packetized with
  | true => simpa only [writeAttempt, if_true, true_and] using writePipePackets_adds
  | false =>
      simp only [writeAttempt, Bool.false_eq_true, if_false, false_and]
      refine (writePipeBuffer_exact _).mono ?_ (fun _ t ht => ⟨[], by rw [ht]; simp, by simp⟩) id
      rintro transfer t ⟨hwake, hxs⟩
      exact ⟨not_false, hwake, hxs⟩

theorem exact_writeAttempt_iff (packetized : Bool) (size : Nat) :
    Exact (writeAttempt packetized size) r s ↔ ¬ (packetized = true ∧ FailsAfterPage r s) := by
  have hadds := @writeAttempt_adds r s packetized size
  constructor
  · intro hexact hlate
    rcases hres : writeAttempt packetized size (r, s) with ⟨o, t⟩
    cases o with
    | panic => exact hadds.panic_of (by rw [hres])
    | ok transfer => exact (hadds.ok_of hres).1 hlate
    | err e =>
        obtain ⟨xs, hxs, hiff⟩ := hadds.err_of hres
        have hsame : t.1.bytes.items = r.bytes.items := Ensures.err_of hexact hres
        rw [hsame] at hxs
        exact hiff.mp hlate (List.self_eq_append_right.mp hxs)
  · intro hnot
    refine hadds.mono (fun _ _ h => h.2.2) ?_ id
    rintro e t ⟨xs, hxs, hiff⟩
    have hnil : xs = [] := not_not.mp (mt hiff.mpr hnot)
    rw [hxs, hnil, List.append_nil]

end Attempts

/-- A read fails in the attempt after an earlier page has gone into the ring. -/
def Made.Late (packetized : Bool) (m : Made) : Prop := packetized = true ∧ FailsAfterPage m.ring m.src

/-- What the calls of the operation come to, from `total` bytes written before. -/
structure Tallied (packetized : Bool) (total : Nat) (res : Outcome AxError Nat × Nat × List Made) : Prop where
  returns : res.1 ≠ .panic
  ok : ∀ n, res.1 = .ok n → n = res.2.1
  late : ∀ m ∈ res.2.2, m.Late packetized ↔ 0 < m.added ∧ m.woken = false
  total : (∀ m ∈ res.2.2, ¬ m.Late packetized) → res.2.1 = total + (res.2.2.map Made.added).sum

section Turns

variable {packetized : Bool} {total : Nat} {m : Made}

theorem Made.added_eq {xs : List UInt8} (h : m.after.bytes.items = m.ring.bytes.items ++ xs) : m.added = xs.length := by
  have hafter : m.after.occupiedLen = m.ring.occupiedLen + xs.length :=
    (congrArg List.length h).trans List.length_append
  rw [Made.added, hafter, Nat.add_sub_cancel_left]

theorem Tallied.nil {e : AxError} : Tallied packetized total (.err e, total, []) :=
  ⟨nofun, nofun, nofun, fun _ => rfl⟩

theorem Tallied.done : Tallied packetized total (.ok total, total, []) where
  returns := nofun
  ok := by
    intro n hn
    cases hn
    rfl
  late := nofun
  total := fun _ => rfl

theorem Tallied.cons {total' : Nat} {res : Outcome AxError Nat × Nat × List Made} (h : Tallied packetized total' res)
    (hlate : m.Late packetized ↔ 0 < m.added ∧ m.woken = false)
    (htotal : ¬ m.Late packetized → total' = total + m.added) :
    Tallied packetized total (res.1, res.2.1, m :: res.2.2) where
  returns := h.returns
  ok := h.ok
  late := List.forall_mem_cons.mpr ⟨hlate, h.late⟩
  total := by
    intro hnot
    obtain ⟨hm, hrest⟩ := List.forall_mem_cons.mp hnot
    have hsum := h.total hrest
    have hone := htotal hm
    simp only [List.map_cons, List.sum_cons]
    omega

theorem writeTurns_tallied (nonblocking : Bool) (size : Nat) (ended : AxError) (turns : List Turn) (src : IoSrc) :
    Tallied packetized total (writeTurns packetized nonblocking size ended turns src total) := by
  induction turns generalizing src total with
  | nil => exact .nil
  | cons turn turns ih =>
      rw [writeTurns]
      split
      · exact .nil
      · have hadds := @writeAttempt_adds turn.ring src packetized size
        rcases hres : writeAttempt packetized size (turn.ring, src) with ⟨o, ring, src'⟩
        cases o with
        | panic => exact (hadds.panic_of (by rw [hres])).elim
        | err e =>
            -- readers are not woken, so the attempt is late just when it has added bytes
            obtain ⟨xs, hxs, hiff⟩ := hadds.err_of hres
            let m : Made := ⟨turn.ring, src, ring, false⟩
            have hadded : m.added = xs.length := Made.added_eq hxs
            have hlate : m.Late packetized ↔ 0 < m.added ∧ m.woken = false := by
              rw [hadded, List.length_pos_iff]
              exact hiff.trans ⟨fun h => ⟨h, rfl⟩, fun h => h.1⟩
            have htotal : ¬ m.Late packetized → total = total + m.added := by
              intro hnot
              rw [hadded, not_not.mp (mt hiff.mpr hnot)]
              rfl
            simp only
            split
            · exact (ih src').cons hlate htotal
            · exact Tallied.nil.cons hlate htotal
        | ok written =>
            obtain ⟨hnot, hwake, xs, hxs, hlen⟩ := hadds.ok_of hres
            let m : Made := ⟨turn.ring, src, ring, decide (0 < written.len) && written.wakeReaders⟩
            have hadded : m.added = written.len := (Made.added_eq hxs).trans hlen
            have hlate : m.Late packetized ↔ 0 < m.added ∧ m.woken = false := by
              refine ⟨fun h => absurd h hnot, ?_⟩
              rintro ⟨hpos, hwoken⟩
              rw [hadded] at hpos
              simp [m, hwake, hpos] at hwoken
            have htotal : ¬ m.Late packetized → total + written.len = total + m.added := by
              intro _
              rw [hadded]
            simp only
            split
            · exact Tallied.done.cons hlate htotal
            · split
              · exact Tallied.nil.cons hlate htotal
              · exact (ih src').cons hlate htotal

end Turns

theorem writeWithNonblocking_reports_iff (isWrite packetized nonblocking : Bool) (ended : AxError)
    (turns : List Turn) (src : IoSrc) :
    Reports (writeWithNonblocking isWrite packetized nonblocking ended turns src) ↔
      ∀ m ∈ (writeWithNonblocking isWrite packetized nonblocking ended turns src).2, ¬ m.Late packetized := by
  rw [writeWithNonblocking]
  split
  · exact ⟨fun _ => nofun, fun _ => ⟨.inr ⟨⟨_, rfl⟩, rfl⟩, nofun⟩⟩
  · split
    · exact ⟨fun _ => nofun, fun _ => ⟨.inl rfl, nofun⟩⟩
    · have htally : Tallied packetized 0 (writeTurns packetized nonblocking src.remaining ended turns src 0) :=
        writeTurns_tallied nonblocking src.remaining ended turns src
      generalize writeTurns packetized nonblocking src.remaining ended turns src 0 = res at htally ⊢
      obtain ⟨o, total, made⟩ := res
      have hwoken : (∀ m ∈ made, 0 < m.added → m.woken = true) ↔ ∀ m ∈ made, ¬ m.Late packetized := by
        refine forall₂_congr fun m hm => ?_
        rw [htally.late m hm, not_and, Bool.not_eq_false]
      cases o with
      | panic => exact (htally.returns rfl).elim
      | ok n =>
          obtain rfl : n = total := htally.ok n rfl
          refine ⟨fun h => hwoken.mp h.2, fun h => ⟨.inl ?_, hwoken.mpr h⟩⟩
          exact congrArg Outcome.ok ((htally.total h).trans (Nat.zero_add _))
      | err e =>
          simp only
          split
          · refine ⟨fun h => hwoken.mp h.2, fun h => ⟨.inl ?_, hwoken.mpr h⟩⟩
            exact congrArg Outcome.ok ((htally.total h).trans (Nat.zero_add _))
          · refine ⟨fun h => hwoken.mp h.2, fun h => ⟨.inr ⟨⟨e, rfl⟩, ?_⟩, hwoken.mpr h⟩⟩
            have hsum := htally.total h
            simp only at hsum ⊢
            omega

/-- An attempt adds exactly what it returns, and a write reports all bytes it has
left in the pipe and wakes readers for them, unless a read of the source fails
in a packetized attempt after an earlier page of it went into the ring. -/
theorem write_reported_iff (packetized : Bool) :
    (∀ (r : PipeRing) (src : IoSrc) (size : Nat),
      Exact (writeAttempt packetized size) r src ↔ ¬ (packetized = true ∧ FailsAfterPage r src)) ∧
    ∀ (isWrite nonblocking : Bool) (ended : AxError) (turns : List Turn) (src : IoSrc),
      Reports (writeWithNonblocking isWrite packetized nonblocking ended turns src) ↔
        ∀ m ∈ (writeWithNonblocking isWrite packetized nonblocking ended turns src).2,
          ¬ (packetized = true ∧ FailsAfterPage m.ring m.src) := by
  refine ⟨fun _ _ _ => exact_writeAttempt_iff packetized _, ?_⟩
  intro isWrite nonblocking ended turns src
  exact writeWithNonblocking_reports_iff isWrite packetized nonblocking ended turns src

def twoBytes : PipeRing := (PipeRing.new 8192).pushStream [1, 2]

/-- Two vectors of a byte each, the second at an address that cannot be read. -/
def halfReadable : IoSrc := ⟨[7, 8], [⟨1, none⟩, ⟨0, some .badAddress⟩]⟩

theorem halfReadable_fails : FailsAfterPage twoBytes halfReadable := by
  refine ⟨1, [⟨0, some .badAddress⟩], rfl, 0, [⟨0, some .badAddress⟩], .inl Nat.one_pos, fun j hj => ?_, rfl, rfl⟩
  obtain rfl := Nat.le_zero.mp hj
  exact ⟨by decide, show 0 < twoBytes.vacantBuffers by decide, by decide⟩

/-- The first byte goes into the pipe, and the write fails. -/
theorem failed_write_leaves_byte :
    (writeAttempt true 2 (twoBytes, halfReadable)).1 = .err .badAddress ∧
      (writeAttempt true 2 (twoBytes, halfReadable)).2.1.bytes.items = [1, 2, 7] ∧
      ¬ Exact (writeAttempt true 2) twoBytes halfReadable ∧
      ¬ Reports (writeWithNonblocking true true false .interrupted [⟨twoBytes, false⟩] halfReadable) := by
  refine ⟨by decide, by decide, ?_, ?_⟩
  · rw [exact_writeAttempt_iff, not_not]
    exact ⟨rfl, halfReadable_fails⟩
  · rw [writeWithNonblocking_reports_iff]
    intro h
    exact h ⟨twoBytes, halfReadable, _, false⟩ (List.mem_singleton.mpr rfl)
      ⟨rfl, halfReadable_fails⟩

end TheKernel.Pipe
