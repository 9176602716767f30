import TheKernel.Tty.Transcript

namespace TheKernel.Tty

open InputReader

/-- What can have happened to a discipline: polls of a task of its own, and reads. -/
inductive Reaches (term : Termios) (input : List UInt8) : LineDiscipline → Prop
  | start : Reaches term input (LineDiscipline.new input)
  | poll {d : LineDiscipline} (turn : Turn) (h : Reaches term input d) :
      Reaches term input { d with reader := (d.reader.poll term turn).2 }
  | read {d : LineDiscipline} (processor : Processor) (turns : Nat → Turn) (len : Nat) (h : Reaches term input d) :
      Reaches term input (d.read term processor turns len).2

/-- The `n` bytes behind the first `consumed` are bytes of one record. -/
def FromOneRecord (records : List (List UInt8)) (consumed n : Nat) : Prop :=
  ∃ before record after, records = before ++ record :: after ∧ before.flatten.length ≤ consumed ∧
    consumed + n ≤ before.flatten.length + record.length

/-- The ring holds bytes of one record only, or a buffer of `len` bytes is no longer than what
is left of the first. -/
def Alone (d : LineDiscipline) (len : Nat) : Prop :=
  ∃ before record after, d.reader.records = before ++ record :: after ∧ before.flatten.length ≤ d.consumed ∧
    d.consumed < before.flatten.length + record.length ∧
    (d.reader.produced ≤ before.flatten.length + record.length ∨ d.consumed + len ≤ before.flatten.length +
      record.length)

/-- What is in the ring and what is left of a completed line are the records' bytes that have
not been read. -/
structure Logged (s : InputReader) (consumed : Nat) : Prop where
  within : consumed ≤ s.records.flatten.length
  queue : s.buf.items ++ s.unpublished = s.records.flatten.drop consumed
  count : s.produced = consumed + s.buf.items.length

section Logs

variable {term : Termios} {s : InputReader} {consumed : Nat}

theorem Logged.publish (h : Logged s consumed) : Logged s.publish.1 consumed := by
  have hrecords : s.publish.1.records = s.records := by
    rw [InputReader.publish]
    split
    · rfl
    · simp only
      split
      · rfl
      · split <;> rfl
  have hcount : s.publish.1.produced + s.buf.items.length = s.produced + s.publish.1.buf.items.length := by
    rw [InputReader.publish]
    split
    · rfl
    · rename_i offset hread
      have hlen : ((s.lineBuf.drop offset).take s.buf.vacantLen).length = min (s.lineBuf.length - offset)
          s.buf.vacantLen := by
        rw [List.length_take, List.length_drop, Nat.min_comm]
      simp only
      split
      · simp only [Fifo.extend, List.length_append, hlen]
        omega
      · split
        · simp only [Fifo.extend, List.length_append, hlen]
          omega
        · simp only [Fifo.extend, List.length_append, hlen]
          omega
  have hlogged := h.count
  exact ⟨hrecords ▸ h.within, by rw [publish_items, hrecords]; exact h.queue, by omega⟩

/-- A change that leaves ring, counter and records alone, and no completed line behind. -/
theorem Logged.edit {t : InputReader} (h : Logged s consumed) (hread : s.lineRead = none) (hread' : t.lineRead = none)
    (hbuf : t.buf = s.buf) (hproduced : t.produced = s.produced) (hrecords : t.records = s.records) :
    Logged t consumed := by
  have hunpublished : s.unpublished = t.unpublished := by
    rw [unpublished, unpublished, hread, hread']
  exact ⟨hrecords ▸ h.within, by rw [hbuf, hrecords, ← hunpublished]; exact h.queue,
    by rw [hbuf, hproduced]; exact h.count⟩

theorem Logged.complete (h : Logged s consumed) (hread : s.lineRead = none) (line : List UInt8) :
    Logged (s.complete line) consumed := by
  have hnone : s.unpublished = [] := by rw [unpublished, hread]
  have hqueue := h.queue
  rw [hnone, List.append_nil] at hqueue
  refine ⟨?_, ?_, h.count⟩
  · simp only [InputReader.complete, List.flatten_append, List.length_append]
    exact h.within.trans (Nat.le_add_right _ _)
  · simp only [InputReader.complete, unpublished, List.flatten_append, List.flatten_singleton, List.drop_zero]
    rw [List.drop_append_of_le_length h.within, hqueue]

def InputReader.Next.Logged (consumed : Nat) : Next → Prop
  | .go t => Tty.Logged t consumed
  | .unread t => Tty.Logged t consumed
  | .stop t => Tty.Logged t consumed

theorem Logged.endLine (h : Logged s consumed) (hread : s.lineRead = none) (ch : UInt8) (isVeof : Bool) :
    (s.endLine ch isVeof).Logged consumed := by
  rw [InputReader.endLine]
  generalize (if !isVeof && decide (s.lineBuf.length < canonicalBufSize) then s.lineBuf ++ [ch] else s.lineBuf) = line
  split
  · split
    · exact h.edit hread hread rfl rfl rfl
    · exact h
  · split
    · exact h.complete hread _
    · exact h.edit hread hread rfl rfl rfl

theorem Logged.lineCharacter (h : Logged s consumed) (hcanonical : term.canonical = true) (hread : s.lineRead = none)
    (ch : UInt8) (literal : Bool) : (lineCharacter term s ch literal).Logged consumed := by
  have hedit : ∀ buf literal, Tty.Logged { s with lineBuf := buf, literalNext := literal } consumed :=
    fun _ _ => h.edit hread hread rfl rfl rfl
  rw [InputReader.lineCharacter, hcanonical]
  simp only [Bool.not_true, Bool.false_eq_true, if_false]
  split
  · exact hedit _ _
  split
  · exact hedit _ _
  split
  · exact hedit _ _
  split
  · exact hedit _ _
  split
  · exact h
  split
  · exact h.endLine hread ch _
  split
  · exact hedit _ _
  · exact h

theorem Logged.character (h : Logged s consumed) (hcanonical : term.canonical = true) (hread : s.lineRead = none)
    (byte : UInt8) : (character term s byte).Logged consumed := by
  have hflow : ∀ stopped, Tty.Logged { s with ixonStopped := stopped } consumed :=
    fun _ => h.edit hread hread rfl rfl rfl
  rw [InputReader.character]
  simp only
  split
  · have hplain : Tty.Logged { s with literalNext := false } consumed := h.edit hread hread rfl rfl rfl
    exact hplain.lineCharacter hcanonical hread _ true
  · split
    · exact h
    · rename_i ch _
      split
      · exact hflow true
      split
      · exact hflow false
      obtain ⟨stopped, hstopped⟩ : ∃ stopped, (if (term.hasIflag IXON && s.ixonStopped && term.hasIflag IXANY) = true
          then { s with ixonStopped := false } else s) = { s with ixonStopped := stopped } := by
        split
        · exact ⟨false, rfl⟩
        · exact ⟨s.ixonStopped, rfl⟩
      rw [hstopped, checkSendSignal]
      by_cases hsignal : (term.hasLflag ISIG && term.isSignal ch) = true
      · rw [if_pos hsignal]
        simp only
        split
        · exact hflow stopped
        · exact h.edit hread rfl rfl rfl rfl
      · rw [if_neg hsignal]
        exact (hflow stopped).lineCharacter hcanonical hread ch false

theorem Logged.inputLoop (hcanonical : term.canonical = true) (staged : List UInt8) (progressed : Bool)
    (h : Logged s consumed) : Logged (inputLoop term staged s progressed).1 consumed := by
  have hstaged : ∀ {t : InputReader} (staged : List UInt8), Logged t consumed →
      Logged { t with readBuf := staged } consumed :=
    fun _ ht => ⟨ht.within, ht.queue, ht.count⟩
  induction staged generalizing s progressed with
  | nil =>
      rw [InputReader.inputLoop]
      split
      · exact hstaged [] h.publish
      · exact hstaged [] h.publish
  | cons byte rest ih =>
      rw [InputReader.inputLoop]
      split
      · exact hstaged _ h.publish
      · rename_i hgo
        rw [Bool.or_eq_true, not_or, Option.isSome_iff_ne_none, not_not] at hgo
        have hnext := h.publish.character hcanonical hgo.1 byte
        cases hchar : InputReader.character term s.publish.1 byte with
        | go t =>
            rw [hchar] at hnext
            exact ih true hnext
        | stop t =>
            rw [hchar] at hnext
            exact hstaged rest hnext
        | unread t =>
            rw [hchar] at hnext
            exact hstaged _ hnext

theorem Logged.poll (hcanonical : term.canonical = true) (turn : Turn) (h : Logged s consumed) :
    Logged (s.poll term turn).2 consumed := by
  rw [InputReader.poll]
  split
  · exact h
  · have hstage : Logged (s.stage turn turn.echoed).2 consumed := by
      rw [stage]
      split
      · split
        · exact h
        · exact ⟨h.within, h.queue, h.count⟩
      · exact h
    rcases hres : s.stage turn turn.echoed with ⟨o, t⟩
    rw [hres] at hstage
    cases o with
    | panic => exact hstage
    | err e => exact hstage
    | ok progressed =>
        have hsettled : Logged (t.settle term) consumed := ⟨hstage.within, hstage.queue, hstage.count⟩
        have hhung : Logged (hangup term (t.settle term) turn progressed).1 consumed := by
          rw [hangup]
          split
          · rename_i hopen
            simp only [Bool.and_eq_true, Option.isNone_iff_eq_none] at hopen
            exact hsettled.complete hopen.1.2 _
          · exact hsettled
        have hloop := hhung.inputLoop hcanonical (hangup term (t.settle term) turn progressed).1.readBuf
          (hangup term (t.settle term) turn progressed).2
        exact ⟨hloop.within, hloop.queue, hloop.count⟩

theorem Logged.polls (hcanonical : term.canonical = true) (budget : Nat) (turns : Nat → Turn) (h : Logged s consumed) :
    Logged (polls term budget turns s).2 consumed := by
  induction budget generalizing s turns with
  | zero => exact h
  | succ budget ih =>
      have hpoll := h.poll hcanonical (turns 0)
      rw [InputReader.polls]
      rcases hres : s.poll term (turns 0) with ⟨o, t⟩
      rw [hres] at hpoll
      cases o with
      | panic => exact hpoll
      | err e => exact hpoll
      | ok progressed =>
          cases progressed with
          | false => exact hpoll
          | true => exact ih (fun i => turns (i + 1)) hpoll

theorem Logged.advance {n : Nat} (h : Logged s consumed) (hn : n ≤ s.buf.items.length) :
    Logged { s with buf := s.buf.advanceRead n } (consumed + n) := by
  have hlen := congrArg List.length h.queue
  rw [List.length_append, List.length_drop] at hlen
  have hcount := h.count
  refine ⟨by have := h.within; simp only; omega, ?_, ?_⟩
  · change s.buf.items.drop n ++ s.unpublished = s.records.flatten.drop (consumed + n)
    rw [← List.drop_drop, ← h.queue, List.drop_append_of_le_length hn]
  · simp only [Fifo.items_advanceRead, List.length_drop]
    omega

end Logs

section Reads

variable {term : Termios} {d : LineDiscipline}

theorem Logged.discard (h : Logged d.reader d.consumed) :
    Logged d.discardSignalPrefix.reader d.discardSignalPrefix.consumed := by
  rw [LineDiscipline.discardSignalPrefix]
  simp only
  split
  · exact h.advance (Nat.min_le_right _ _)
  · exact h

theorem Logged.refill (hcanonical : term.canonical = true) (turns : Nat → Turn) (processor : Processor)
    (h : Logged d.reader d.consumed) :
    Logged (d.refillReadBuffer term turns processor).2.reader (d.refillReadBuffer term turns processor).2.consumed := by
  cases processor with
  | manual =>
      have hpolls := h.polls hcanonical externalProgressBudget turns
      rw [LineDiscipline.refillReadBuffer]
      rcases hres : InputReader.polls term externalProgressBudget turns d.reader with ⟨o, reader⟩
      rw [hres] at hpolls
      cases o with
      | panic => exact hpolls
      | err e => exact hpolls
      | ok u => exact Logged.discard (d := { d with reader }) hpolls
  | external failure =>
      cases failure with
      | some e => exact h
      | none => exact h.discard

theorem Logged.takeBytes (len : Nat) (h : Logged d.reader d.consumed) :
    Logged (d.takeBytes term len).2.reader (d.takeBytes term len).2.consumed := by
  rw [LineDiscipline.takeBytes]
  split
  · split
    · exact ⟨h.within, h.queue, h.count⟩
    · exact h
  · exact h.advance (List.length_take_le' _ _)

theorem Reaches.logged {input : List UInt8} (hcanonical : term.canonical = true) (h : Reaches term input d) :
    Logged d.reader d.consumed := by
  induction h with
  | start => exact ⟨Nat.zero_le _, rfl, rfl⟩
  | poll turn _ ih => exact ih.poll hcanonical turn
  | @read d processor turns len _ ih =>
      rw [LineDiscipline.read]
      split
      · exact ih
      · have hrefill := ih.refill hcanonical turns processor
        rcases hres : d.refillReadBuffer term turns processor with ⟨o, e⟩
        rw [hres] at hrefill
        cases o with
        | panic => exact hrefill
        | err e => exact hrefill
        | ok u => exact hrefill.takeBytes len

/-- A read returns bytes that have not been read, and they are bytes of one record just when
the ring holds bytes of one record only or the buffer ends in the first. -/
theorem read_one_record_iff {input bytes : List UInt8} {d' e : LineDiscipline} (hcanonical : term.canonical = true)
    (h : Reaches term input d) (processor : Processor) (turns : Nat → Turn) (len : Nat)
    (hrefill : d.refillReadBuffer term turns processor = (.ok (), d'))
    (hread : d.read term processor turns len = (.ok bytes, e)) (hsome : bytes ≠ []) :
    bytes = (d'.reader.records.flatten.drop d'.consumed).take bytes.length ∧
      (FromOneRecord d'.reader.records d'.consumed bytes.length ↔ Alone d' len) := by
  have hlogged : Logged d'.reader d'.consumed := by
    have hrefilled := (h.logged hcanonical).refill hcanonical turns processor
    rwa [hrefill] at hrefilled
  rw [LineDiscipline.read] at hread
  split at hread
  · cases hread
    exact absurd rfl hsome
  rw [hrefill] at hread
  simp only [LineDiscipline.takeBytes] at hread
  split at hread
  · split at hread
    · cases hread
      exact absurd rfl hsome
    · cases hread
  · cases hread
    have hlen : (d'.reader.buf.items.take len).length = min len d'.reader.buf.items.length := List.length_take
    have hpos : 0 < min len d'.reader.buf.items.length := hlen ▸ List.length_pos_iff.mpr hsome
    have hcount := hlogged.count
    refine ⟨?_, ?_⟩
    · rw [← hlogged.queue, hlen, List.take_append_of_le_length (Nat.min_le_right _ _), ← List.take_take]
      simp
    · rw [hlen]
      constructor
      · rintro ⟨before, record, after, hrecords, hle, hend⟩
        exact ⟨before, record, after, hrecords, hle, by omega, by omega⟩
      · rintro ⟨before, record, after, hrecords, hle, -, hend⟩
        exact ⟨before, record, after, hrecords, hle, by omega⟩

def twoLines : LineDiscipline := .new [0x61, 0x62, 0x0a, 0x63, 0x0a]

def refilled : Outcome AxError Unit × LineDiscipline := twoLines.refillReadBuffer cooked (arrival 2 5).turns .manual

def shortRead : Outcome AxError (List UInt8) × LineDiscipline := twoLines.read cooked .manual (arrival 2 5).turns 2

/-- With two records in the ring a short buffer keeps to the first. -/
theorem read_one_record_short :
    (refilled.2.reader.records = [[0x61, 0x62, 0x0a], [0x63, 0x0a]] ∧
      refilled.2.reader.buf.items = [0x61, 0x62, 0x0a, 0x63, 0x0a]) ∧
    Alone refilled.2 2 ∧ FromOneRecord refilled.2.reader.records refilled.2.consumed 2 := by
  have halone : Alone refilled.2 2 :=
    ⟨[], [0x61, 0x62, 0x0a], [[0x63, 0x0a]], by decide +kernel, by decide +kernel, by decide +kernel, by decide +kernel⟩
  have hok : refilled.1 = .ok () := by decide +kernel
  have hbytes : shortRead.1 = .ok [0x61, 0x62] := by decide +kernel
  have hrefill : refilled = (.ok (), refilled.2) := by rw [← hok]
  have hread : shortRead = (.ok [0x61, 0x62], shortRead.2) := by rw [← hbytes]
  refine ⟨by decide +kernel, halone, ?_⟩
  exact (read_one_record_iff (by decide) Reaches.start .manual (arrival 2 5).turns 2 hrefill hread
    (by decide)).2.mpr halone

end Reads

theorem two_lines_read :
    (calls cooked [arrival 8 4] (LineDiscipline.new [0x61, 0x0a, 0x62, 0x0a])).1 = [some 0x61, some 0x0a,
      some 0x62, some 0x0a] ∧
    (calls cooked [arrival 8 4] (LineDiscipline.new [0x61, 0x0a, 0x62, 0x0a])).2.reader.records = [[0x61, 0x0a],
      [0x62, 0x0a]] ∧
    ¬ FromOneRecord [[0x61, 0x0a], [0x62, 0x0a]] 0 4 := by
  refine ⟨by decide +kernel, by decide +kernel, ?_⟩
  rintro ⟨before, record, after, hrecords, hle, hend⟩
  cases before with
  | nil =>
      cases hrecords
      simp at hend
  | cons first before =>
      have hfirst : first = [0x61, 0x0a] := (List.cons.inj hrecords).1.symm
      rw [hfirst] at hle
      simp at hle

end TheKernel.Tty
