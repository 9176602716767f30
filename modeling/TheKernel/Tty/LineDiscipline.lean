import TheKernel.Lib.Action
import TheKernel.Lib.Fifo

namespace TheKernel.Tty

def bufSize : Nat := 80

def canonicalBufSize : Nat := 4096

def canonicalLineMax : Nat := canonicalBufSize - 1

def externalProgressBudget : Nat := 64

def readBufSize : Nat := 4096

inductive AxError
  | wouldBlock
  | io (errno : Nat)
  deriving DecidableEq

/-- The flags and characters of `Termios2` on which the bytes that are read depend. -/
structure Termios where
  cIflag : UInt32
  cLflag : UInt32
  cCc : Fin 19 → UInt8

def ISTRIP : UInt32 := 0x20
def INLCR : UInt32 := 0x40
def IGNCR : UInt32 := 0x80
def ICRNL : UInt32 := 0x100
def IUCLC : UInt32 := 0x200
def IXON : UInt32 := 0x400
def IXANY : UInt32 := 0x800
def IUTF8 : UInt32 := 0x4000

def ISIG : UInt32 := 0x1
def ICANON : UInt32 := 0x2
def NOFLSH : UInt32 := 0x80
def IEXTEN : UInt32 := 0x8000

def VINTR : Fin 19 := 0
def VQUIT : Fin 19 := 1
def VERASE : Fin 19 := 2
def VKILL : Fin 19 := 3
def VEOF : Fin 19 := 4
def VSTART : Fin 19 := 8
def VSTOP : Fin 19 := 9
def VSUSP : Fin 19 := 10
def VEOL : Fin 19 := 11
def VREPRINT : Fin 19 := 12
def VWERASE : Fin 19 := 14
def VLNEXT : Fin 19 := 15
def VEOL2 : Fin 19 := 16

namespace Termios

variable (term : Termios)

def hasIflag (flag : UInt32) : Bool := term.cIflag &&& flag != 0

def hasLflag (flag : UInt32) : Bool := term.cLflag &&& flag != 0

def canonical : Bool := term.hasLflag ICANON

def matchesSpecialChar (index : Fin 19) (ch : UInt8) : Bool := term.cCc index != 0 && term.cCc index == ch

def isEol (ch : UInt8) : Bool :=
  ch == 0x0a || term.matchesSpecialChar VEOL ch || (term.hasLflag IEXTEN && term.matchesSpecialChar VEOL2 ch)

def isSignal (ch : UInt8) : Bool :=
  term.matchesSpecialChar VINTR ch || term.matchesSpecialChar VQUIT ch || term.matchesSpecialChar VSUSP ch

def strip (ch : UInt8) : UInt8 :=
  let ch := if term.hasIflag ISTRIP then ch &&& 0x7f else ch
  if term.hasIflag IUCLC && term.hasLflag IEXTEN && decide (0x41 ≤ ch) && decide (ch ≤ 0x5a) then ch + 0x20 else ch

/-- The mapping of carriage return and newline; `none` is a byte that is ignored. -/
def mapNewline (ch : UInt8) : Option UInt8 :=
  if ch = 0x0d then if term.hasIflag IGNCR then none else some (if term.hasIflag ICRNL then 0x0a else ch)
  else if ch = 0x0a ∧ term.hasIflag INLCR = true then some 0x0d
  else some ch

end Termios

/-- The `while` of `erase_character`, over the line from its end: the bytes that are left
when `erased` has been taken off. -/
def eraseContinued : UInt8 → List UInt8 → List UInt8
  | erased, rest =>
      if erased &&& 0xc0 = 0x80 then
        match rest with
        | [] => []
        | previous :: rest => eraseContinued previous rest
      else rest

def eraseBack (term : Termios) : List UInt8 → List UInt8
  | [] => []
  | erased :: rest => if term.hasIflag IUTF8 then eraseContinued erased rest else rest

def eraseCharacter (term : Termios) (line : List UInt8) : List UInt8 := (eraseBack term line.reverse).reverse

theorem length_eraseContinued (erased : UInt8) (rest : List UInt8) :
    (eraseContinued erased rest).length ≤ rest.length := by
  induction rest generalizing erased with
  | nil =>
      rw [eraseContinued]
      split <;> exact le_rfl
  | cons previous rest ih =>
      rw [eraseContinued]
      split
      · exact (ih previous).trans (Nat.le_succ _)
      · exact le_rfl

theorem length_eraseBack (term : Termios) (erased : UInt8) (rest : List UInt8) :
    (eraseBack term (erased :: rest)).length ≤ rest.length := by
  rw [eraseBack]
  split
  · exact length_eraseContinued erased rest
  · exact le_rfl

def isWord (ch : UInt8) : Bool :=
  (decide (0x30 ≤ ch) && decide (ch ≤ 0x39)) || (decide (0x41 ≤ ch) && decide (ch ≤ 0x5a)) ||
    (decide (0x61 ≤ ch) && decide (ch ≤ 0x7a)) || ch == 0x5f

def eraseWordBack (term : Termios) (seenWord : Bool) : List UInt8 → List UInt8
  | [] => []
  | last :: rest =>
      if isWord last then eraseWordBack term true (eraseBack term (last :: rest))
      else if seenWord then last :: rest
      else eraseWordBack term seenWord (eraseBack term (last :: rest))
  termination_by line => line.length
  decreasing_by
    · exact Nat.lt_succ_of_le (length_eraseBack term last rest)
    · exact Nat.lt_succ_of_le (length_eraseBack term last rest)

def eraseWord (term : Termios) (line : List UInt8) : List UInt8 := (eraseWordBack term false line.reverse).reverse

/-- `InputReader` with the ring it fills and the flags it shares with the discipline. The
counters are whole numbers, of which the source keeps the last 64 bits. Echoes go
to the writer and leave nothing that is read. `records` is what the source does
not keep: the lines that have been completed. -/
structure InputReader where
  source : List UInt8
  buf : Fifo UInt8
  produced : Nat
  discardBefore : Nat
  readBuf : List UInt8
  lineBuf : List UInt8
  lineRead : Option Nat
  literalNext : Bool
  ixonStopped : Bool
  emptyEofPending : Bool
  sourceDrained : Bool
  records : List (List UInt8)

namespace InputReader

def new (source : List UInt8) : InputReader :=
  ⟨source, Fifo.empty readBufSize, 0, 0, [], [], none, false, false, false, false, []⟩

variable (term : Termios) (s : InputReader)

def checkSendSignal (ch : UInt8) : Option InputReader :=
  if term.hasLflag ISIG && term.isSignal ch then
    some (if term.hasLflag NOFLSH then s
      else { s with
        lineBuf := []
        literalNext := false
        lineRead := none
        emptyEofPending := false
        discardBefore := s.produced })
  else none

inductive Next
  | go (s : InputReader)
  | unread (s : InputReader)
  | stop (s : InputReader)

def complete (line : List UInt8) : InputReader :=
  { s with lineBuf := line, lineRead := some 0, records := s.records ++ [line] }

def endLine (ch : UInt8) (isVeof : Bool) : Next :=
  let line := if !isVeof && decide (s.lineBuf.length < canonicalBufSize) then s.lineBuf ++ [ch] else s.lineBuf
  if line = [] ∧ isVeof = true then
    -- an empty record waits until the ring has been read
    if s.buf.isEmpty then .stop { s with emptyEofPending := true } else .unread s
  else if line ≠ [] then .go (s.complete line)
  else .go { s with lineBuf := line }

def lineCharacter (ch : UInt8) (literal : Bool) : Next :=
  if !term.canonical then .go { s with
    buf := (s.buf.tryPush ch).2
    produced := s.produced + if (s.buf.tryPush ch).1 then 1 else 0 }
  else if !literal && term.hasLflag IEXTEN && term.matchesSpecialChar VLNEXT ch then .go { s with literalNext := true }
  else if !literal && term.matchesSpecialChar VERASE ch then .go { s with lineBuf := eraseCharacter term s.lineBuf }
  else if !literal && term.matchesSpecialChar VKILL ch then .go { s with lineBuf := [] }
  else if !literal && term.hasLflag IEXTEN && term.matchesSpecialChar VWERASE ch then
    .go { s with lineBuf := eraseWord term s.lineBuf }
  else if !literal && term.hasLflag IEXTEN && term.matchesSpecialChar VREPRINT ch then .go s
  else if !literal && (term.isEol ch || term.matchesSpecialChar VEOF ch) then
    s.endLine ch (term.matchesSpecialChar VEOF ch)
  else if s.lineBuf.length < canonicalLineMax then .go { s with lineBuf := s.lineBuf ++ [ch] }
  else .go s

def character (byte : UInt8) : Next :=
  let ch := term.strip byte
  if s.literalNext then lineCharacter term { s with literalNext := false } ch true
  else match term.mapNewline ch with
    | none => .go s
    | some ch =>
        if term.hasIflag IXON && term.matchesSpecialChar VSTOP ch then .go { s with ixonStopped := true }
        else if term.hasIflag IXON && term.matchesSpecialChar VSTART ch then .go { s with ixonStopped := false }
        else
          let s :=
            if term.hasIflag IXON && s.ixonStopped && term.hasIflag IXANY then { s with ixonStopped := false }
            else s
          match checkSendSignal term s ch with
          | some s => .go s
          | none => lineCharacter term s ch false

/-- The rounds of the loop that push what is left of a completed line, and whether they
push any of it. -/
def publish : InputReader × Bool :=
  match s.lineRead with
  | none => (s, false)
  | some offset =>
      let read := min (s.lineBuf.length - offset) s.buf.vacantLen
      let s := { s with buf := s.buf.extend (s.lineBuf.drop offset), produced := s.produced + read }
      if read = 0 then (s, false)
      else if offset + read = s.lineBuf.length then ({ s with lineRead := none, lineBuf := [] }, true)
      else ({ s with lineRead := some (offset + read) }, true)

/-- The loop of `poll` over the staged bytes, and whether it has made progress. -/
def inputLoop (term : Termios) : List UInt8 → InputReader → Bool → InputReader × Bool
  | staged, s, progressed =>
      let published := s.publish
      let s := published.1
      let progressed := progressed || published.2
      if s.lineRead.isSome || s.buf.vacantLen = 0 then ({ s with readBuf := staged }, progressed)
      else match staged with
        | [] => ({ s with readBuf := [] }, progressed)
        | byte :: rest =>
            match character term s byte with
            | .go s => inputLoop term rest s true
            | .unread s => ({ s with readBuf := byte :: rest }, progressed)
            | .stop s => ({ s with readBuf := rest }, true)

/-- What a poll meets: whether echoes were flushed, what `read_with_progress` does
(an error, or how many bytes it gives at most, and whether others were routed
elsewhere), and what `input_eof` says before and behind the loop. -/
structure Turn where
  echoed : Bool
  error : Option AxError
  count : Nat
  routed : Bool
  eof : Bool
  eofAfter : Bool

def stage (turn : Turn) (progressed : Bool) : Outcome AxError Bool × InputReader :=
  if s.readBuf = [] then
    match turn.error with
    | some e => (.err e, s)
    | none =>
        let chunk := s.source.take (min turn.count bufSize)
        (.ok (progressed || !chunk.isEmpty || turn.routed), { s with
          readBuf := chunk
          source := s.source.drop chunk.length })
  else (.ok progressed, s)

def hangup (turn : Turn) (progressed : Bool) : InputReader × Bool :=
  if term.canonical && turn.eof && s.readBuf.isEmpty && s.lineRead.isNone && !s.lineBuf.isEmpty then
    (s.complete s.lineBuf, true)
  else (s, progressed)

def settle : InputReader :=
  { s with
    ixonStopped := s.ixonStopped && term.hasIflag IXON
    literalNext := s.literalNext && term.hasLflag IEXTEN }

/-- Whether the source and all stages before the ring are drained. -/
def drained (eof : Bool) : Bool := eof && s.readBuf.isEmpty && s.lineRead.isNone && s.lineBuf.isEmpty

def poll (turn : Turn) : Outcome AxError Bool × InputReader :=
  if s.emptyEofPending then (.ok turn.echoed, s)
  else match s.stage turn turn.echoed with
    | (.ok progressed, s) =>
        let hung := hangup term (s.settle term) turn progressed
        let looped := inputLoop term hung.1.readBuf hung.1 hung.2
        let drained := looped.1.drained turn.eofAfter
        (.ok (looped.2 || drained != looped.1.sourceDrained), { looped.1 with sourceDrained := drained })
    | (.err e, s) => (.err e, s)
    | (.panic, s) => (.panic, s)

def polls (term : Termios) : Nat → (Nat → Turn) → InputReader → Outcome AxError Unit × InputReader
  | 0, _, s => (.ok (), s)
  | budget + 1, turns, s =>
      match s.poll term (turns 0) with
      | (.ok true, s) => polls term budget (fun i => turns (i + 1)) s
      | (.ok false, s) => (.ok (), s)
      | (.err e, s) => (.err e, s)
      | (.panic, s) => (.panic, s)

end InputReader

/-- Who calls `poll`: a read, or a task of its own, which may have recorded a failure. -/
inductive Processor
  | manual
  | external (failure : Option AxError)

structure LineDiscipline where
  reader : InputReader
  consumed : Nat

namespace LineDiscipline

def new (source : List UInt8) : LineDiscipline := ⟨InputReader.new source, 0⟩

def wrappingSub (before consumed : Nat) : Nat := (before + (2 ^ 64 - consumed % 2 ^ 64)) % 2 ^ 64

def discardSignalPrefix (d : LineDiscipline) : LineDiscipline :=
  let count := wrappingSub d.reader.discardBefore d.consumed
  if count ≤ bufSize ∧ count ≠ 0 then
    let skipped := min count d.reader.buf.occupiedLen
    ⟨{ d.reader with buf := d.reader.buf.advanceRead skipped }, d.consumed + skipped⟩
  else d

def refillReadBuffer (term : Termios) (turns : Nat → InputReader.Turn) (d : LineDiscipline) :
    Processor → Outcome AxError Unit × LineDiscipline
  | .manual =>
      match InputReader.polls term externalProgressBudget turns d.reader with
      | (.ok (), reader) => (.ok (), discardSignalPrefix { d with reader })
      | (.err e, reader) => (.err e, { d with reader })
      | (.panic, reader) => (.panic, { d with reader })
  | .external (some e) => (.err e, d)
  | .external none => (.ok (), d.discardSignalPrefix)

/-- The part of `read` behind the refill: the bytes that are returned. -/
def takeBytes (term : Termios) (len : Nat) (d : LineDiscipline) : Outcome AxError (List UInt8) × LineDiscipline :=
  if term.canonical && d.reader.buf.isEmpty then
    if d.reader.emptyEofPending then (.ok [], { d with reader := { d.reader with emptyEofPending := false } })
    else (.err .wouldBlock, d)
  else
    let bytes := d.reader.buf.items.take len
    (.ok bytes, ⟨{ d.reader with buf := d.reader.buf.advanceRead bytes.length }, d.consumed + bytes.length⟩)

/-- `LineDiscipline::read` into a buffer of `len` bytes. -/
def read (term : Termios) (processor : Processor) (turns : Nat → InputReader.Turn) (len : Nat) (d : LineDiscipline) :
    Outcome AxError (List UInt8) × LineDiscipline :=
  if len = 0 then (.ok [], d)
  else match d.refillReadBuffer term turns processor with
    | (.ok (), d) => takeBytes term len d
    | (.err e, d) => (.err e, d)
    | (.panic, d) => (.panic, d)

end LineDiscipline

end TheKernel.Tty
