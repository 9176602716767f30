import TheKernel.Tty.LineDiscipline

namespace TheKernel.Tty

open InputReader

structure Line where
  buf : List UInt8
  literal : Bool

namespace Line

variable (term : Termios)

def start : Line := ⟨[], false⟩

/-- The rules for a character behind the mappings: the line, and the record that the
character completes. -/
def accept (l : Line) (ch : UInt8) (literal : Bool) : Line × Option (List UInt8) :=
  if !term.canonical then (l, some [ch])
  else if !literal && term.hasLflag IEXTEN && term.matchesSpecialChar VLNEXT ch then ({ l with literal := true }, none)
  else if !literal && term.matchesSpecialChar VERASE ch then ({ l with buf := eraseCharacter term l.buf }, none)
  else if !literal && term.matchesSpecialChar VKILL ch then ({ l with buf := [] }, none)
  else if !literal && term.hasLflag IEXTEN && term.matchesSpecialChar VWERASE ch then
    ({ l with buf := eraseWord term l.buf }, none)
  else if !literal && term.hasLflag IEXTEN && term.matchesSpecialChar VREPRINT ch then (l, none)
  else if !literal && term.matchesSpecialChar VEOF ch then ({ l with buf := [] }, some l.buf)
  else if !literal && term.isEol ch then
    ({ l with buf := [] }, some (if l.buf.length < canonicalBufSize then l.buf ++ [ch] else l.buf))
  else if l.buf.length < canonicalLineMax then ({ l with buf := l.buf ++ [ch] }, none)
  else (l, none)

def input (l : Line) (byte : UInt8) : Line × Option (List UInt8) :=
  if l.literal then accept term { l with literal := false } (term.strip byte) true
  else match term.mapNewline (term.strip byte) with
    | none => (l, none)
    | some ch =>
        if term.hasIflag IXON && (term.matchesSpecialChar VSTOP ch || term.matchesSpecialChar VSTART ch) then (l, none)
        else if term.hasLflag ISIG && term.isSignal ch then (if term.hasLflag NOFLSH then l else start, none)
        else accept term l ch false

end Line

/-- The records that the character rules give, one byte of the input after the other. -/
def recordsOf (term : Termios) : Line → List UInt8 → List (List UInt8)
  | _, [] => []
  | l, byte :: bytes => (l.input term byte).2.toList ++ recordsOf term (l.input term byte).1 bytes

/-- A record as a reader sees it: its bytes, or `none` for a record without any. -/
def delivery (record : List UInt8) : List (Option UInt8) := if record = [] then [none] else record.map some

def transcript (term : Termios) (l : Line) (bytes : List UInt8) : List (Option UInt8) :=
  (recordsOf term l bytes).flatMap delivery

namespace InputReader

def unpublished (s : InputReader) : List UInt8 :=
  match s.lineRead with
  | some offset => s.lineBuf.drop offset
  | none => []

def owed (s : InputReader) : List (Option UInt8) :=
  s.buf.items.map some ++ (if s.emptyEofPending then [none] else []) ++ s.unpublished.map some

def line (s : InputReader) : Line := ⟨if s.lineRead.isSome then [] else s.lineBuf, s.literalNext⟩

def ahead (term : Termios) (s : InputReader) : List (Option UInt8) :=
  s.owed ++ transcript term s.line (s.readBuf ++ s.source)

structure Sound (term : Termios) (s : InputReader) : Prop where
  pending : s.emptyEofPending = true → s.buf.items = [] ∧ s.lineRead = none
  literal : s.literalNext = true → term.hasLflag IEXTEN = true
  cutoff : s.discardBefore = 0

end InputReader

section Steps

variable {term : Termios} {s t : InputReader}

theorem transcript_cons (term : Termios) (l : Line) (byte : UInt8) (rest : List UInt8) :
    transcript term l (byte :: rest) =
      (l.input term byte).2.toList.flatMap delivery ++ transcript term (l.input term byte).1 rest := by
  rw [transcript, recordsOf, List.flatMap_append]
  rfl

theorem owed_eq (hpending : s.emptyEofPending = false) : s.owed = (s.buf.items ++ s.unpublished).map some := by
  rw [owed, hpending, List.map_append]
  simp

structure Kept (s t : InputReader) : Prop where
  source : t.source = s.source
  pending : t.emptyEofPending = s.emptyEofPending
  literal : t.literalNext = s.literalNext
  cutoff : t.discardBefore = s.discardBefore

theorem publish_kept : Kept s s.publish.1 := by
  rw [publish]
  split
  · exact ⟨rfl, rfl, rfl, rfl⟩
  · simp only
    split
    · exact ⟨rfl, rfl, rfl, rfl⟩
    · split <;> exact ⟨rfl, rfl, rfl, rfl⟩

/-- What is pushed is what is left of the line, from its start. -/
theorem publish_items : s.publish.1.buf.items ++ s.publish.1.unpublished = s.buf.items ++ s.unpublished := by
  rw [publish]
  split
  · rfl
  · rename_i offset hread
    simp only
    have hrest : (s.lineBuf.drop offset).take s.buf.vacantLen ++
        s.lineBuf.drop (offset + min (s.lineBuf.length - offset) s.buf.vacantLen) = s.lineBuf.drop offset := by
      have hlen : (s.lineBuf.drop offset).length = s.lineBuf.length - offset := List.length_drop
      rw [← List.drop_drop, ← hlen]
      rcases Nat.le_total (s.lineBuf.drop offset).length s.buf.vacantLen with hle | hle
      · rw [Nat.min_eq_left hle, List.take_of_length_le hle, List.drop_length, List.append_nil]
      · rw [Nat.min_eq_right hle, List.take_append_drop]
    split
    · rename_i hnone
      rw [hnone, Nat.add_zero] at hrest
      simp only [unpublished, hread, Fifo.extend]
      rw [List.append_assoc, hrest]
    · split
      · rename_i hall
        rw [hall, List.drop_length, List.append_nil] at hrest
        simp only [unpublished, hread, Fifo.extend]
        rw [List.append_nil, hrest]
      · simp only [unpublished, hread, Fifo.extend]
        rw [List.append_assoc, hrest]

theorem publish_line : s.publish.1.line = s.line := by
  rw [publish]
  split
  · rfl
  · rename_i offset hread
    simp only
    split
    · rfl
    · split
      · simp [line, hread]
      · simp [line, hread]

theorem publish_owed (hpending : s.emptyEofPending = false) : s.publish.1.owed = s.owed := by
  rw [owed_eq hpending, owed_eq (publish_kept.pending.trans hpending), publish_items]

/-- The reader `t` has taken in a byte that makes `l` of the line and completes the record `out`. -/
structure Passes (term : Termios) (s : InputReader) (l : Line) (out : Option (List UInt8)) (t : InputReader) :
    Prop where
  source : t.source = s.source
  sound : t.Sound term
  owed : t.owed = s.owed ++ out.toList.flatMap delivery
  line : t.line = l

/-- How the loop goes on agrees with what the rules say of the byte. -/
def Next.Gives (term : Termios) (s : InputReader) (l : Line) (out : Option (List UInt8)) : Next → Prop
  | .go t => Passes term s l out t ∧ t.emptyEofPending = false
  | .stop t => Passes term s l out t
  | .unread t => Passes term s s.line none t ∧ t.emptyEofPending = false

theorem delivery_of_ne_nil {record : List UInt8} (h : record ≠ []) : delivery record = record.map some := if_neg h

theorem passes_edit (hs : s.Sound term) (hread : s.lineRead = none) (hpending : s.emptyEofPending = false)
    (buf : List UInt8) (literal : Bool) (hliteral : literal = true → term.hasLflag IEXTEN = true) :
    Next.Gives term s ⟨buf, literal⟩ none (.go { s with lineBuf := buf, literalNext := literal }) := by
  refine ⟨⟨rfl, ⟨fun h => ?_, hliteral, hs.cutoff⟩, ?_, ?_⟩, hpending⟩
  · rw [hpending] at h
    cases h
  · simp [owed, unpublished, hread]
  · simp [line, hread]

theorem endLine_gives (ch : UInt8) (hs : s.Sound term) (hread : s.lineRead = none)
    (hpending : s.emptyEofPending = false) (isVeof : Bool) : Next.Gives term s ⟨[], s.literalNext⟩
      (some (if !isVeof && decide (s.lineBuf.length < canonicalBufSize) then s.lineBuf ++ [ch] else s.lineBuf))
      (s.endLine ch isVeof) := by
  have hitems : s.owed = s.buf.items.map some := by
    rw [owed_eq hpending, unpublished, hread, List.append_nil]
  rw [endLine]
  generalize hline : (if !isVeof && decide (s.lineBuf.length < canonicalBufSize) then s.lineBuf ++
    [ch] else s.lineBuf) = line
  split
  · rename_i hempty
    obtain ⟨rfl, rfl⟩ := hempty
    split
    · rename_i hnone
      have hnil : s.buf.items = [] := List.isEmpty_iff.mp hnone
      refine ⟨rfl, ⟨fun _ => ⟨hnil, hread⟩, hs.literal, hs.cutoff⟩, ?_, ?_⟩
      · rw [hitems]
        simp [owed, unpublished, hread, delivery]
      · have hbuf : s.lineBuf = [] := by simpa using hline
        simp [line, hread, hbuf]
    · exact ⟨⟨rfl, hs, by simp, rfl⟩, hpending⟩
  · split
    · rename_i hne
      refine ⟨⟨rfl, ⟨fun h => ?_, hs.literal, hs.cutoff⟩, ?_, ?_⟩, hpending⟩
      · change s.emptyEofPending = true at h
        rw [hpending] at h
        cases h
      · rw [owed_eq (show (s.complete line).emptyEofPending = false from hpending), hitems]
        simp [unpublished, complete, delivery_of_ne_nil hne]
      · simp [complete, InputReader.line]
    · -- an end-of-line character is part of its line
      rename_i hveof hnil
      rw [not_not] at hnil
      have hnot : isVeof = false := by simpa [hnil] using hveof
      rw [hnot, hnil] at hline
      split at hline
      · simp at hline
      · rename_i hlong
        rw [hline] at hlong
        exact absurd rfl hlong

theorem lineCharacter_gives (ch : UInt8) (hs : s.Sound term) (hread : s.lineRead = none)
    (hpending : s.emptyEofPending = false) (hroom : s.buf.vacantLen ≠ 0) (literal : Bool) :
    Next.Gives term s ((Line.accept term s.line ch literal).1) ((Line.accept term s.line ch literal).2)
      (lineCharacter term s ch literal) := by
  have hline : s.line = ⟨s.lineBuf, s.literalNext⟩ := by simp [line, hread]
  have hedit := fun buf => passes_edit hs hread hpending buf s.literalNext hs.literal
  rw [hline, lineCharacter, Line.accept]
  simp only
  by_cases hraw : (!term.canonical) = true
  · rw [if_pos hraw, if_pos hraw]
    have hpush := Fifo.tryPush_accepted (f := s.buf) (x := ch) (Nat.lt_of_sub_ne_zero hroom)
    refine ⟨⟨rfl, ⟨fun h => ?_, hs.literal, hs.cutoff⟩, ?_, hline⟩, hpending⟩
    · rw [show s.emptyEofPending = true from h] at hpending
      cases hpending
    · simp [owed, unpublished, hread, hpush.2, hpending, delivery]
  rw [if_neg hraw, if_neg hraw]
  by_cases hnext : (!literal && term.hasLflag IEXTEN && term.matchesSpecialChar VLNEXT ch) = true
  · rw [if_pos hnext, if_pos hnext]
    exact passes_edit hs hread hpending s.lineBuf true fun _ => by simp at hnext; exact hnext.1.2
  rw [if_neg hnext, if_neg hnext]
  by_cases herase : (!literal && term.matchesSpecialChar VERASE ch) = true
  · rw [if_pos herase, if_pos herase]
    exact hedit _
  rw [if_neg herase, if_neg herase]
  by_cases hkill : (!literal && term.matchesSpecialChar VKILL ch) = true
  · rw [if_pos hkill, if_pos hkill]
    exact hedit _
  rw [if_neg hkill, if_neg hkill]
  by_cases hword : (!literal && term.hasLflag IEXTEN && term.matchesSpecialChar VWERASE ch) = true
  · rw [if_pos hword, if_pos hword]
    exact hedit _
  rw [if_neg hword, if_neg hword]
  by_cases hreprint : (!literal && term.hasLflag IEXTEN && term.matchesSpecialChar VREPRINT ch) = true
  · rw [if_pos hreprint, if_pos hreprint]
    exact hedit _
  rw [if_neg hreprint, if_neg hreprint]
  have hend := fun isVeof => endLine_gives ch hs hread hpending isVeof
  by_cases hveof : (!literal && term.matchesSpecialChar VEOF ch) = true
  · obtain ⟨hlit, hchar⟩ : literal = false ∧ term.matchesSpecialChar VEOF ch = true := by simpa using hveof
    have hends : (!literal && (term.isEol ch || term.matchesSpecialChar VEOF ch)) = true := by simp [hlit, hchar]
    rw [if_pos hveof, if_pos hends, hchar]
    exact hend true
  rw [if_neg hveof]
  by_cases heol : (!literal && term.isEol ch) = true
  · obtain ⟨hlit, hchar⟩ : literal = false ∧ term.isEol ch = true := by simpa using heol
    have hnot : term.matchesSpecialChar VEOF ch = false := by simpa [hlit] using hveof
    have hends : (!literal && (term.isEol ch || term.matchesSpecialChar VEOF ch)) = true := by simp [hlit, hchar]
    rw [if_pos heol, if_pos hends, hnot]
    simpa using hend false
  have hends : ¬ (!literal && (term.isEol ch || term.matchesSpecialChar VEOF ch)) = true := by
    rw [Bool.and_or_distrib_left, Bool.or_eq_true, not_or]
    exact ⟨heol, hveof⟩
  rw [if_neg heol, if_neg hends]
  by_cases hlong : s.lineBuf.length < canonicalLineMax
  · rw [if_pos hlong, if_pos hlong]
    exact hedit _
  · rw [if_neg hlong, if_neg hlong]
    exact hedit _

theorem lineCharacter_literal (term : Termios) (s : InputReader) (ch : UInt8) :
    ∃ t, lineCharacter term s ch true = .go t := by
  rw [lineCharacter]
  simp only [Bool.not_true, Bool.false_and, Bool.false_eq_true, if_false]
  split
  · exact ⟨_, rfl⟩
  · split <;> exact ⟨_, rfl⟩

theorem Passes.of_owed {l : Line} {out : Option (List UInt8)} {u : InputReader} (h : Passes term s l out u)
    (hsource : s.source = t.source) (howed : s.owed = t.owed) : Passes term t l out u :=
  ⟨h.source.trans hsource, h.sound, howed ▸ h.owed, h.line⟩

theorem character_gives (byte : UInt8) (hs : s.Sound term) (hsig : term.hasLflag ISIG = false)
    (hread : s.lineRead = none) (hpending : s.emptyEofPending = false) (hroom : s.buf.vacantLen ≠ 0) :
    Next.Gives term s (s.line.input term byte).1 (s.line.input term byte).2 (character term s byte) := by
  have hsame : ∀ stopped, Next.Gives term s s.line none (.go { s with ixonStopped := stopped }) :=
    fun stopped => ⟨⟨rfl, ⟨hs.pending, hs.literal, hs.cutoff⟩, (List.append_nil _).symm, rfl⟩, hpending⟩
  have hlit : s.line.literal = s.literalNext := rfl
  rw [character, Line.input, hlit]
  simp only
  by_cases hliteral : s.literalNext = true
  · rw [if_pos hliteral, if_pos hliteral]
    have hplain : InputReader.Sound term { s with literalNext := false } :=
      ⟨hs.pending, (by intros; contradiction), hs.cutoff⟩
    obtain ⟨t, ht⟩ := lineCharacter_literal term { s with literalNext := false } (term.strip byte)
    have hgives := lineCharacter_gives (term.strip byte) hplain hread hpending hroom true
    rw [ht] at hgives ⊢
    exact ⟨hgives.1.of_owed rfl rfl, hgives.2⟩
  · rw [if_neg hliteral, if_neg hliteral]
    cases term.mapNewline (term.strip byte) with
    | none => exact hsame s.ixonStopped
    | some ch =>
        simp only [checkSendSignal, hsig, Bool.false_and, Bool.false_eq_true, if_false]
        by_cases hflow : (term.hasIflag IXON && (term.matchesSpecialChar VSTOP ch ||
          term.matchesSpecialChar VSTART ch)) = true
        · rw [if_pos hflow]
          split
          · exact hsame true
          · rename_i hstop
            have hstart : (term.hasIflag IXON && term.matchesSpecialChar VSTART ch) = true := by
              rw [Bool.and_or_distrib_left, Bool.or_eq_true] at hflow
              exact hflow.resolve_left hstop
            rw [if_pos hstart]
            exact hsame false
        · have hnot := hflow
          rw [Bool.and_or_distrib_left, Bool.or_eq_true, not_or] at hnot
          rw [if_neg hflow, if_neg hnot.1, if_neg hnot.2]
          obtain ⟨stopped, hstopped⟩ : ∃ stopped, (if (term.hasIflag IXON && s.ixonStopped && term.hasIflag IXANY) =
              true then { s with ixonStopped := false } else s) = { s with ixonStopped := stopped } := by
            split
            · exact ⟨false, rfl⟩
            · exact ⟨s.ixonStopped, rfl⟩
          rw [hstopped]
          have hplain : InputReader.Sound term { s with ixonStopped := stopped } := ⟨hs.pending, hs.literal, hs.cutoff⟩
          have hgives := lineCharacter_gives ch hplain hread hpending hroom false
          revert hgives
          cases lineCharacter term { s with ixonStopped := stopped } ch false with
          | go t => exact fun h => ⟨h.1.of_owed rfl rfl, h.2⟩
          | stop t => exact fun h => h.of_owed rfl rfl
          | unread t => exact fun h => ⟨h.1.of_owed rfl rfl, h.2⟩

end Steps

structure Continues (term : Termios) (s t : InputReader) : Prop where
  sound : t.Sound term
  ahead : t.ahead term = s.ahead term

section Polls

variable {term : Termios} {s : InputReader}

theorem publish_sound (hs : s.Sound term) (hpending : s.emptyEofPending = false) : s.publish.1.Sound term := by
  have hkept := publish_kept (s := s)
  refine ⟨fun h => ?_, fun h => hs.literal (hkept.literal ▸ h), hkept.cutoff.trans hs.cutoff⟩
  rw [hkept.pending, hpending] at h
  cases h

theorem Sound.staged (hs : s.Sound term) (staged : List UInt8) : InputReader.Sound term { s with readBuf := staged } :=
  ⟨hs.pending, hs.literal, hs.cutoff⟩

theorem publish_ahead (staged : List UInt8) (hpending : s.emptyEofPending = false) :
    InputReader.ahead term { s.publish.1 with readBuf := staged } = s.owed ++ transcript term s.line
      (staged ++ s.source) := by
  change s.publish.1.owed ++ transcript term s.publish.1.line (staged ++ s.publish.1.source) = _
  rw [publish_owed hpending, publish_line, publish_kept.source]

theorem inputLoop_keeps (hsig : term.hasLflag ISIG = false) (staged : List UInt8) (progressed : Bool)
    (hs : s.Sound term) (hpending : s.emptyEofPending = false) :
    (inputLoop term staged s progressed).1.Sound term ∧
      (inputLoop term staged s progressed).1.ahead term = s.owed ++ transcript term s.line (staged ++ s.source) := by
  induction staged generalizing s progressed with
  | nil =>
      rw [inputLoop]
      split
      · exact ⟨Sound.staged (publish_sound hs hpending) [], publish_ahead [] hpending⟩
      · exact ⟨Sound.staged (publish_sound hs hpending) [], publish_ahead [] hpending⟩
  | cons byte rest ih =>
      have hsound := publish_sound hs hpending
      have hkept := publish_kept (s := s)
      rw [inputLoop]
      split
      · exact ⟨Sound.staged hsound _, publish_ahead _ hpending⟩
      · rename_i hgo
        rw [Bool.or_eq_true, not_or, decide_eq_true_eq, Option.isSome_iff_ne_none, not_not] at hgo
        have hgives := character_gives byte hsound hsig hgo.1 (hkept.pending.trans hpending) hgo.2
        have hrule := transcript_cons term s.line byte (rest ++ s.source)
        rw [publish_line] at hgives
        -- what the byte passes on and what the rest of the input gives
        have hpasses : ∀ t, Passes term s.publish.1 (s.line.input term byte).1 (s.line.input term byte).2 t →
            t.owed ++ transcript term t.line (rest ++ t.source) =
              s.owed ++ transcript term s.line (byte :: rest ++ s.source) := by
          intro t ht
          rw [ht.owed, ht.line, ht.source, publish_owed hpending, hkept.source, List.append_assoc,
            List.cons_append, hrule]
        cases hnext : character term s.publish.1 byte with
        | go t =>
            rw [hnext] at hgives
            obtain ⟨ht, hpending'⟩ := hgives
            rw [← hpasses t ht]
            exact ih true ht.sound hpending'
        | stop t =>
            rw [hnext] at hgives
            exact ⟨Sound.staged hgives.sound rest, hpasses t hgives⟩
        | unread t =>
            rw [hnext] at hgives
            obtain ⟨ht, -⟩ := hgives
            refine ⟨Sound.staged ht.sound _, ?_⟩
            change t.owed ++ transcript term t.line (byte :: rest ++ t.source) = _
            rw [ht.owed, ht.line, ht.source, publish_owed hpending, publish_line, hkept.source]
            simp

theorem take_append_drop_length (bytes : List UInt8) (n : Nat) :
    bytes.take n ++ bytes.drop (bytes.take n).length = bytes := by
  rcases Nat.le_total n bytes.length with hle | hle
  · rw [List.length_take, Nat.min_eq_left hle, List.take_append_drop]
  · rw [List.take_of_length_le hle, List.drop_length, List.append_nil]

theorem stage_keeps (turn : Turn) (progressed : Bool) (hs : s.Sound term) :
    Continues term s (s.stage turn progressed).2 ∧ (s.stage turn progressed).2.emptyEofPending = s.emptyEofPending := by
  rw [stage]
  split
  · rename_i hempty
    split
    · exact ⟨⟨hs, rfl⟩, rfl⟩
    · refine ⟨⟨⟨hs.pending, hs.literal, hs.cutoff⟩, ?_⟩, rfl⟩
      simp only [ahead, hempty, List.nil_append]
      rw [take_append_drop_length]
      rfl
  · exact ⟨⟨hs, rfl⟩, rfl⟩

theorem poll_keeps (hsig : term.hasLflag ISIG = false) (turn : Turn) (heof : turn.eof = false) (hs : s.Sound term) :
    Continues term s (s.poll term turn).2 := by
  rw [poll]
  split
  · exact ⟨hs, rfl⟩
  · rename_i hnone
    obtain ⟨hstaged, hpending⟩ := stage_keeps turn turn.echoed hs
    rw [Bool.not_eq_true] at hnone
    rw [hnone] at hpending
    rcases hres : s.stage turn turn.echoed with ⟨o, t⟩
    rw [hres] at hstaged hpending
    cases o with
    | panic => exact hstaged
    | err e => exact hstaged
    | ok progressed =>
        -- the flags that are cleared were off, and without a hangup the line stays open
        have hsettled : t.settle term = { t with ixonStopped := t.ixonStopped && term.hasIflag IXON } := by
          have hliteral : (t.literalNext && term.hasLflag IEXTEN) = t.literalNext := by
            cases hlit : t.literalNext with
            | false => rfl
            | true => rw [hstaged.sound.literal hlit]; rfl
          rw [settle, hliteral]
        have hhung : hangup term (t.settle term) turn progressed = (t.settle term, progressed) := by
          rw [hangup, heof, Bool.and_false]
          rfl
        rw [hsettled] at hhung
        have hloop := inputLoop_keeps (s := { t with ixonStopped := t.ixonStopped && term.hasIflag IXON })
            hsig t.readBuf progressed
          ⟨hstaged.sound.pending, hstaged.sound.literal, hstaged.sound.cutoff⟩ hpending
        simp only [hsettled, hhung]
        exact ⟨⟨hloop.1.pending, hloop.1.literal, hloop.1.cutoff⟩, hloop.2.trans hstaged.ahead⟩

theorem polls_keeps (hsig : term.hasLflag ISIG = false) (budget : Nat) (turns : Nat → Turn)
    (heof : ∀ i, (turns i).eof = false)
    (hs : s.Sound term) : Continues term s (polls term budget turns s).2 := by
  induction budget generalizing s turns with
  | zero => exact ⟨hs, rfl⟩
  | succ budget ih =>
      have hpoll := poll_keeps hsig (turns 0) (heof 0) hs
      rw [polls]
      rcases hres : s.poll term (turns 0) with ⟨o, t⟩
      rw [hres] at hpoll
      cases o with
      | panic => exact hpoll
      | err e => exact hpoll
      | ok progressed =>
          cases progressed with
          | false => exact hpoll
          | true =>
              have hrest := ih (fun i => turns (i + 1)) (fun i => heof (i + 1)) hpoll.sound
              exact ⟨hrest.sound, hrest.ahead.trans hpoll.ahead⟩

end Polls

structure Call where
  len : Nat
  turns : Nat → Turn

def delivered (term : Termios) (len : Nat) : Outcome AxError (List UInt8) → List (Option UInt8)
  | .ok bytes => if bytes = [] ∧ term.canonical = true ∧ 0 < len then [none] else bytes.map some
  | _ => []

/-- Calls one after the other in the manual mode: what they deliver, and the discipline after them. -/
def calls (term : Termios) : List Call → LineDiscipline → List (Option UInt8) × LineDiscipline
  | [], d => ([], d)
  | call :: rest, d =>
      let res := d.read term .manual call.turns call.len
      (delivered term call.len res.1 ++ (calls term rest res.2).1, (calls term rest res.2).2)

/-- The bytes read so far are not 80 at most before a multiple of `2 ^ 64`. -/
def Passed (consumed : Nat) : Prop := consumed % 2 ^ 64 = 0 ∨ consumed % 2 ^ 64 + bufSize < 2 ^ 64

section Reads

variable {term : Termios} {d : LineDiscipline}

theorem discardSignalPrefix_passed (hcutoff : d.reader.discardBefore = 0) (hpassed : Passed d.consumed) :
    d.discardSignalPrefix = d := by
  rw [LineDiscipline.discardSignalPrefix, LineDiscipline.wrappingSub, hcutoff]
  simp only
  rw [if_neg]
  rw [Passed, bufSize] at hpassed
  rw [bufSize]
  omega

theorem takeBytes_keeps (len : Nat) (hlen : 0 < len) (hs : d.reader.Sound term) :
    (d.takeBytes term len).2.reader.Sound term ∧
      delivered term len (d.takeBytes term len).1 ++ (d.takeBytes term len).2.reader.ahead term =
        d.reader.ahead term := by
  rw [LineDiscipline.takeBytes]
  split
  · rename_i hempty
    rw [Bool.and_eq_true] at hempty
    have hnil : d.reader.buf.items = [] := List.isEmpty_iff.mp hempty.2
    split
    · rename_i hpending
      refine ⟨⟨nofun, hs.literal, hs.cutoff⟩, ?_⟩
      simp [delivered, hempty.1, hlen, ahead, owed, unpublished, line, hnil, hpending, (hs.pending hpending).2]
    · exact ⟨hs, rfl⟩
  · rename_i hstored
    rw [Bool.and_eq_true, not_and, Bool.not_eq_true] at hstored
    simp only
    have hsome : ¬ (d.reader.buf.items.take len = [] ∧ term.canonical = true ∧ 0 < len) := by
      rintro ⟨hnone, hcanonical, -⟩
      have hnil : d.reader.buf.items ≠ [] := by simpa [Fifo.isEmpty] using hstored hcanonical
      rw [List.take_eq_nil_iff] at hnone
      exact hnone.elim hlen.ne' hnil
    refine ⟨⟨fun h => ?_, hs.literal, hs.cutoff⟩, ?_⟩
    · obtain ⟨hnil, hread⟩ := hs.pending h
      exact ⟨by rw [Fifo.items_advanceRead, hnil, List.drop_nil], hread⟩
    · rw [delivered, if_neg hsome]
      have hitems : (d.reader.buf.items.take len).map some ++
          (d.reader.buf.items.drop (d.reader.buf.items.take len).length).map some = d.reader.buf.items.map some := by
        rw [← List.map_append, take_append_drop_length]
      simp only [ahead, owed, Fifo.items_advanceRead]
      rw [← hitems]
      simp only [List.append_assoc]
      rfl

theorem read_keeps (call : Call) (hsig : term.hasLflag ISIG = false) (heof : ∀ i, (call.turns i).eof = false)
    (hs : d.reader.Sound term) (hpassed : Passed d.consumed) :
    (d.read term .manual call.turns call.len).2.reader.Sound term ∧
      delivered term call.len (d.read term .manual call.turns call.len).1 ++
        (d.read term .manual call.turns call.len).2.reader.ahead term = d.reader.ahead term := by
  rw [LineDiscipline.read]
  split
  · rename_i hlen
    exact ⟨hs, by simp [delivered, hlen]⟩
  · rename_i hlen
    have hpolls := polls_keeps hsig externalProgressBudget call.turns heof hs
    rw [LineDiscipline.refillReadBuffer]
    rcases hres : polls term externalProgressBudget call.turns d.reader with ⟨o, reader⟩
    rw [hres] at hpolls
    cases o with
    | panic => exact ⟨hpolls.sound, hpolls.ahead⟩
    | err e => exact ⟨hpolls.sound, hpolls.ahead⟩
    | ok u =>
        have hsame : LineDiscipline.discardSignalPrefix { d with reader } = { d with reader } :=
          discardSignalPrefix_passed hpolls.sound.cutoff hpassed
        have htaken := takeBytes_keeps (d := { d with reader }) call.len (Nat.pos_of_ne_zero hlen) hpolls.sound
        simp only [hsame]
        exact ⟨htaken.1, htaken.2.trans hpolls.ahead⟩

theorem calls_keep (script : List Call) (hsig : term.hasLflag ISIG = false)
    (heof : ∀ call ∈ script, ∀ i, (call.turns i).eof = false)
    (hs : d.reader.Sound term) (hpassed : ∀ k, Passed (calls term (script.take k) d).2.consumed) :
    (calls term script d).1 ++ (calls term script d).2.reader.ahead term = d.reader.ahead term := by
  induction script generalizing d with
  | nil => rfl
  | cons call rest ih =>
      obtain ⟨hsound, hread⟩ := read_keeps call hsig (heof call List.mem_cons_self) hs (hpassed 0)
      rw [calls]
      simp only
      rw [List.append_assoc, ih (fun c hc => heof c (List.mem_cons_of_mem _ hc)) hsound fun k => hpassed (k + 1), hread]

/-- What the calls deliver is the start of what the character rules give for the input,
however it comes in. -/
theorem delivered_prefix (term : Termios) (input : List UInt8) (script : List Call) (hsig : term.hasLflag ISIG = false)
    (heof : ∀ call ∈ script, ∀ i, (call.turns i).eof = false)
    (hpassed : ∀ k, Passed (calls term (script.take k) (LineDiscipline.new input)).2.consumed) :
    (calls term script (LineDiscipline.new input)).1 <+: transcript term Line.start input := by
  have hstart : (InputReader.new input).Sound term := ⟨nofun, nofun, rfl⟩
  have hall := calls_keep (d := LineDiscipline.new input) script hsig heof hstart hpassed
  exact ⟨_, hall⟩

end Reads

/-- A canonical terminal on which control characters send no signals. -/
def cooked : Termios := ⟨ICRNL ||| IXON, ICANON ||| IEXTEN, fun i => if i = VEOF then 0x04 else if i =
    VERASE then 0x7f else 0⟩

/-- Up to `count` bytes come in at the first poll, and none later. -/
def arrival (len count : Nat) : Call := ⟨len, fun i => ⟨false, none, if i = 0 then count else 0, false, false, false⟩⟩

theorem delivered_prefix_cooked :
    (calls cooked [arrival 8 4, arrival 8 1] (LineDiscipline.new [0x62, 0x7f, 0x61, 0x0d, 0x04])).1 =
      [some 0x61, some 0x0a, none] ∧
    (calls cooked [arrival 8 4, arrival 8 1] (LineDiscipline.new [0x62, 0x7f, 0x61, 0x0d, 0x04])).1 <+:
      transcript cooked Line.start [0x62, 0x7f, 0x61, 0x0d, 0x04] := by
  refine ⟨by decide +kernel, delivered_prefix cooked _ _ (by decide) ?_ ?_⟩
  · intro call hcall i
    rcases List.mem_cons.mp hcall with rfl | hcall
    · rfl
    · rw [List.mem_singleton.mp hcall]
      rfl
  · intro k
    match k with
    | 0 => exact .inl rfl
    | 1 => exact .inr (by decide +kernel)
    | k + 2 =>
        rw [List.take_of_length_le (by simp)]
        exact .inr (by decide +kernel)

section Wrap

def raw : Termios := ⟨0, 0, fun _ => 0⟩

def idle (source : List UInt8) (buf : Fifo UInt8) (produced : Nat) : InputReader :=
  { InputReader.new source with buf, produced }

variable {source : List UInt8} {buf : Fifo UInt8} {produced consumed : Nat}

theorem character_raw (byte : UInt8) (staged : List UInt8) (hlt : buf.items.length < buf.capacity) :
    character raw { idle source buf produced with readBuf := staged } byte =
      .go { idle source (buf.extend [byte]) (produced + 1) with readBuf := staged } := by
  have hstrip : raw.strip byte = byte := by simp [Termios.strip, Termios.hasIflag, raw]
  have hmap : raw.mapNewline byte = some byte := by
    rw [Termios.mapNewline]
    split
    · simp [Termios.hasIflag, raw]
    · simp [Termios.hasIflag, raw]
  have hflag : ∀ flag, raw.hasIflag flag = false := by simp [Termios.hasIflag, raw]
  have hlocal : ∀ flag, raw.hasLflag flag = false := by simp [Termios.hasLflag, raw]
  have hpush : buf.tryPush byte = (true, buf.extend [byte]) := if_pos hlt
  rw [character, hstrip]
  simp only [idle, InputReader.new, Bool.false_eq_true, if_false, hmap, hflag, hlocal, Bool.false_and, checkSendSignal,
    lineCharacter, Termios.canonical, Bool.not_false, if_true, hpush]

theorem inputLoop_raw (bytes staged : List UInt8) (progressed : Bool) (hroom : bytes.length ≤ buf.vacantLen) :
    inputLoop raw bytes { idle source buf produced with readBuf := staged } progressed =
      (idle source (buf.extend bytes) (produced + bytes.length), progressed || !bytes.isEmpty) := by
  induction bytes generalizing buf produced progressed with
  | nil =>
      rw [inputLoop]
      simp only [idle, InputReader.new, publish, Option.isSome_none, Bool.false_or, Bool.or_false]
      split <;> simp [Fifo.extend_nil]
  | cons byte rest ih =>
      rw [List.length_cons] at hroom
      have hfull : buf.vacantLen ≠ 0 := by omega
      have hlt : buf.items.length < buf.capacity := Nat.lt_of_sub_ne_zero hfull
      have hvacant : (buf.extend [byte]).vacantLen = buf.vacantLen - 1 := by
        rw [Fifo.vacantLen, Fifo.items_extend (show [byte].length ≤
          buf.vacantLen from Nat.one_le_iff_ne_zero.mpr hfull), List.length_append, Fifo.vacantLen, Nat.sub_sub]
        rfl
      rw [inputLoop]
      simp only [publish, idle, InputReader.new, Option.isSome_none, Bool.false_or, Bool.or_false,
        decide_eq_true_eq, hfull, if_false]
      have hchar := @character_raw source buf produced byte staged hlt
      simp only [idle, InputReader.new] at hchar ih
      rw [hchar]
      simp only
      rw [ih true (by rw [hvacant]; omega), Fifo.extend_extend, List.length_cons, Nat.add_assoc, Nat.add_comm 1]
      simp

theorem poll_raw (count : Nat) (hlen : (source.take (min count bufSize)).length ≤ buf.vacantLen) :
    (idle source buf produced).poll raw ⟨false, none, count, false, false, false⟩ =
      (.ok (!(source.take (min count bufSize)).isEmpty),
        idle (source.drop (source.take (min count bufSize)).length) (buf.extend (source.take (min count bufSize)))
          (produced + (source.take (min count bufSize)).length)) := by
  generalize hchunk : source.take (min count bufSize) = chunk at hlen ⊢
  have hloop := @inputLoop_raw (source.drop chunk.length) buf produced chunk chunk (!chunk.isEmpty) hlen
  rw [Bool.or_self] at hloop
  have hstaged : (idle source buf produced).stage ⟨false, none, count, false, false, false⟩ false =
      (.ok (!chunk.isEmpty), { idle (source.drop chunk.length) buf produced with readBuf := chunk }) := by
    simp [stage, idle, InputReader.new, hchunk]
  have hsettled : settle raw { idle (source.drop chunk.length) buf produced with readBuf := chunk } =
      { idle (source.drop chunk.length) buf produced with readBuf := chunk } := rfl
  have hcanonical : raw.canonical = false := by decide
  rw [poll, if_neg (by exact nofun), hstaged]
  simp only [hsettled, hangup, hcanonical, Bool.false_and, Bool.false_eq_true, if_false]
  simp only [hloop]
  simp [drained, idle, InputReader.new]

theorem polls_raw (len count : Nat) (hlen : (source.take (min count bufSize)).length ≤ buf.vacantLen) :
    polls raw externalProgressBudget (arrival len count).turns (idle source buf produced) =
      (.ok (), idle (source.drop (source.take (min count bufSize)).length)
        (buf.extend (source.take (min count bufSize)))
        (produced + (source.take (min count bufSize)).length)) := by
  have hbudget : externalProgressBudget = 62 + 2 := rfl
  have hfirst : (arrival len count).turns 0 = ⟨false, none, count, false, false, false⟩ := rfl
  have hquiet : (arrival len count).turns (0 + 1) = ⟨false, none, 0, false, false, false⟩ := rfl
  rw [hbudget, polls, hfirst, poll_raw count hlen]
  generalize source.take (min count bufSize) = chunk
  cases hchunk : !chunk.isEmpty with
  | false => rfl
  | true =>
      simp only
      rw [polls, hquiet, poll_raw 0 (by simp)]
      simp

/-- A state in which nothing waits and `consumed` bytes have been read. -/
def Idle (source : List UInt8) (consumed : Nat) (d : LineDiscipline) : Prop :=
  d.consumed = consumed ∧ ∃ buf produced, d.reader = idle source buf produced ∧ buf.items = [] ∧
    buf.capacity = readBufSize

/-- What a read finds behind its polls: a chunk in the ring. -/
theorem Idle.refill {d : LineDiscipline} {chunk rest : List UInt8} (len : Nat) (h : Idle (chunk ++ rest) consumed d)
    (hchunk : chunk.length ≤ bufSize) : ∃ buf produced, buf.items = chunk ∧ buf.capacity = readBufSize ∧
      d.refillReadBuffer raw (arrival len chunk.length).turns .manual =
        (.ok (), LineDiscipline.discardSignalPrefix ⟨idle rest buf produced, consumed⟩) := by
  obtain ⟨rfl, buf, produced, hreader, hitems, hcapacity⟩ := h
  have htake : (chunk ++ rest).take (min chunk.length bufSize) = chunk := by
    rw [Nat.min_eq_left hchunk, List.take_left]
  have hroom : chunk.length ≤ buf.vacantLen := by
    have hsize : bufSize ≤ readBufSize := by decide
    rw [Fifo.vacantLen, hitems, hcapacity, List.length_nil]
    omega
  have hpolls := @polls_raw (chunk ++ rest) buf produced len chunk.length (by rw [htake]; exact hroom)
  rw [htake, List.drop_left] at hpolls
  refine ⟨buf.extend chunk, produced + chunk.length, ?_, hcapacity, ?_⟩
  · rw [Fifo.items_extend hroom, hitems, List.nil_append]
  · rw [LineDiscipline.refillReadBuffer, hreader, hpolls]

theorem read_byte {d : LineDiscipline} {byte : UInt8} (h : Idle (byte :: source) consumed d)
    (hpassed : Passed consumed) : (d.read raw .manual (arrival 1 1).turns 1).1 = .ok [byte] ∧
      Idle source (consumed + 1) (d.read raw .manual (arrival 1 1).turns 1).2 := by
  obtain ⟨buf, produced, hitems, hcapacity, hrefill⟩ :=
    @Idle.refill consumed d [byte] source 1 h (show 1 ≤ bufSize by decide)
  have hsame : LineDiscipline.discardSignalPrefix ⟨idle source buf produced, consumed⟩ = ⟨idle source buf produced,
      consumed⟩ :=
    discardSignalPrefix_passed rfl hpassed
  have hcanonical : raw.canonical = false := by decide
  rw [hsame, List.length_singleton] at hrefill
  have hread : d.read raw .manual (arrival 1 1).turns 1 =
      (.ok [byte], ⟨idle source (buf.advanceRead 1) produced, consumed + 1⟩) := by
    rw [LineDiscipline.read, if_neg (by decide), hrefill]
    simp only [LineDiscipline.takeBytes, hcanonical, Bool.false_and, Bool.false_eq_true, if_false]
    simp [idle, hitems]
  rw [hread]
  exact ⟨rfl, rfl, _, _, rfl, by rw [Fifo.items_advanceRead, hitems]; rfl, hcapacity⟩

/-- Where 80 bytes are missing to the wrap of the counter, 80 bytes that come in are thrown away. -/
theorem read_lost {d : LineDiscipline} {chunk : List UInt8} (h : Idle (chunk ++ source) (2 ^ 64 - bufSize) d)
    (hchunk : chunk.length = bufSize) :
    (d.read raw .manual (arrival 1 bufSize).turns 1).1 = .ok [] ∧
      Idle source (2 ^ 64) (d.read raw .manual (arrival 1 bufSize).turns 1).2 := by
  obtain ⟨buf, produced, hitems, hcapacity, hrefill⟩ := Idle.refill 1 h hchunk.le
  have hcanonical : raw.canonical = false := by decide
  have hlength : buf.items.length = bufSize := by rw [hitems, hchunk]
  have hskip : LineDiscipline.discardSignalPrefix ⟨idle source buf produced, 2 ^ 64 - bufSize⟩ =
      ⟨idle source (buf.advanceRead bufSize) produced, 2 ^ 64⟩ := by
    have hcount : LineDiscipline.wrappingSub (idle source buf produced).discardBefore (2 ^ 64 - bufSize) = bufSize := by
      change LineDiscipline.wrappingSub 0 (2 ^ 64 - bufSize) = bufSize
      decide
    have hskipped : min bufSize (idle source buf produced).buf.occupiedLen = bufSize := Nat.min_eq_left hlength.ge
    have hwrap : 2 ^ 64 - bufSize + bufSize = 2 ^ 64 := by decide
    rw [LineDiscipline.discardSignalPrefix, hcount]
    simp only
    rw [if_pos ⟨le_rfl, by decide⟩, hskipped, hwrap]
    rfl
  rw [hskip, hchunk] at hrefill
  have hnil : (buf.advanceRead bufSize).items = [] := by
    rw [Fifo.items_advanceRead, hitems, ← hchunk, List.drop_length]
  have hread : d.read raw .manual (arrival 1 bufSize).turns 1 =
      (.ok [], ⟨idle source ((buf.advanceRead bufSize).advanceRead 0) produced, 2 ^ 64⟩) := by
    rw [LineDiscipline.read, if_neg (by decide), hrefill]
    simp only [LineDiscipline.takeBytes, hcanonical, Bool.false_and, Bool.false_eq_true, if_false]
    simp [idle, hlength]
  rw [hread]
  exact ⟨rfl, rfl, _, _, rfl, by rw [Fifo.items_advanceRead, hnil]; rfl, hcapacity⟩

theorem read_bytes {d : LineDiscipline} (n : Nat) (h : Idle (List.replicate n 0 ++ source) consumed d)
    (hpassed : consumed + n + bufSize ≤ 2 ^ 64) :
    (calls raw (List.replicate n (arrival 1 1)) d).1 = List.replicate n (some 0) ∧
      Idle source (consumed + n) (calls raw (List.replicate n (arrival 1 1)) d).2 := by
  induction n generalizing consumed d with
  | zero => exact ⟨rfl, h⟩
  | succ n ih =>
      rw [List.replicate_succ, List.cons_append] at h
      have hpast : Passed consumed := by
        right
        rw [Nat.mod_eq_of_lt (by omega)]
        omega
      obtain ⟨hbyte, hidle⟩ := read_byte h hpast
      obtain ⟨hrest, hdone⟩ := ih hidle (by omega)
      rw [List.replicate_succ, calls, List.replicate_succ]
      simp only [arrival] at hbyte hrest hdone ⊢
      rw [hbyte, hrest, Nat.add_assoc, Nat.add_comm 1] at *
      exact ⟨rfl, hdone⟩

theorem calls_append (term : Termios) (before after : List Call) (d : LineDiscipline) :
    (calls term (before ++ after) d).1 = (calls term before d).1 ++ (calls term after (calls term before d).2).1 := by
  induction before generalizing d with
  | nil => rfl
  | cons call before ih =>
      rw [List.cons_append, calls, calls]
      simp only
      rw [ih, List.append_assoc]

theorem transcript_raw (bytes : List UInt8) : transcript raw Line.start bytes = bytes.map some := by
  have hflag : ∀ flag, raw.hasIflag flag = false := by simp [Termios.hasIflag, raw]
  have hlocal : ∀ flag, raw.hasLflag flag = false := by simp [Termios.hasLflag, raw]
  induction bytes with
  | nil => rfl
  | cons byte rest ih =>
      have hinput : Line.start.input raw byte = (Line.start, some [byte]) := by
        have hmap : raw.mapNewline (raw.strip byte) = some byte := by
          simp only [Termios.mapNewline, Termios.strip, hflag, Bool.false_eq_true, if_false, Bool.false_and,
            and_false, ite_self]
        rw [Line.input, if_neg (by decide), hmap]
        simp [hflag, hlocal, Line.accept, Termios.canonical]
      rw [transcript_cons, hinput, ih]
      rfl

/-- After `2 ^ 64 - 80` bytes have been read, 80 bytes are lost in front of the next. -/
theorem bytes_lost_at_wrap :
    ¬ (calls raw (List.replicate (2 ^ 64 - bufSize) (arrival 1 1) ++ [arrival 1 bufSize, arrival 1 1])
        (LineDiscipline.new (List.replicate (2 ^ 64 - bufSize) 0 ++ (List.replicate bufSize 1 ++ [2])))).1 <+:
      transcript raw Line.start (List.replicate (2 ^ 64 - bufSize) 0 ++ (List.replicate bufSize 1 ++ [2])) := by
  have hstart : Idle (List.replicate (2 ^ 64 - bufSize) 0 ++ (List.replicate bufSize 1 ++ [2])) 0
      (LineDiscipline.new (List.replicate (2 ^ 64 - bufSize) 0 ++ (List.replicate bufSize 1 ++ [2]))) :=
    ⟨rfl, _, _, rfl, rfl, rfl⟩
  obtain ⟨hread, hidle⟩ := read_bytes (2 ^ 64 - bufSize) hstart (by decide)
  rw [Nat.zero_add] at hidle
  obtain ⟨hlost, hpast⟩ := read_lost hidle List.length_replicate
  obtain ⟨hlast, -⟩ := read_byte hpast (.inl (Nat.mod_self _))
  rw [calls_append, hread, transcript_raw, List.map_append, List.map_replicate, List.prefix_append_right_inj]
  have htail : ∀ d : LineDiscipline, (d.read raw .manual (arrival 1 bufSize).turns 1).1 = .ok [] →
      ((d.read raw .manual (arrival 1 bufSize).turns 1).2.read raw .manual (arrival 1 1).turns 1).1 = .ok [2] →
      (calls raw [arrival 1 bufSize, arrival 1 1] d).1 = [some 2] := by
    intro d hfirst hsecond
    rw [calls, calls, calls]
    simp only [arrival] at hfirst hsecond ⊢
    rw [hfirst, hsecond]
    decide
  rw [htail _ hlost hlast]
  decide

end Wrap

end TheKernel.Tty
