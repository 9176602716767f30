import Mathlib.Data.Prod.Lex
import TheKernel.Lib.SortedMap

namespace TheKernel.Futex

abbrev EntryId := Nat

abbrev TableId := Nat

inductive FutexTableKey
  | priv (address : Nat)
  | privateMapping (address : Nat)
  | shared (offset : Nat)
  deriving DecidableEq

namespace FutexTableKey

def encode : FutexTableKey → Nat ×ₗ Nat
  | priv address => toLex (0, address)
  | privateMapping address => toLex (1, address)
  | shared offset => toLex (2, offset)

theorem encode_injective : Function.Injective encode := by
  intro k k' h
  cases k <;> cases k' <;> simp_all [encode]

instance : LinearOrder FutexTableKey := LinearOrder.lift' encode encode_injective

end FutexTableKey

/-- Where a key is looked up: the table of a process or that of a shared backing. -/
inductive Domain
  | process (pid : Nat)
  | backing (id : Nat)
  deriving DecidableEq

/-- An entry, with the table and the key it was made for and the waiters on its queue. -/
structure FutexEntry where
  table : TableId
  key : FutexTableKey
  waiters : List Nat
  deriving DecidableEq

structure FutexTable where
  domain : Domain
  slots : SortedMap FutexTableKey EntryId

/-- What a thread holds, by strong references, on its way through the table code. -/
inductive Holder
  /-- The result of `futex_table_for`, with the domain that was asked for. -/
  | table (domain : Domain) (t : TableId)
  /-- A `FutexHandle` or a `FutexGuard`. -/
  | handle (t : TableId) (k : FutexTableKey) (e : EntryId)
  /-- `cleanup_if_idle` with the table upgraded. -/
  | upgrading (t : TableId) (k : FutexTableKey) (e : EntryId)
  /-- Before `try_remove_idle` takes the table lock. -/
  | closing (t : TableId) (k : FutexTableKey) (e : EntryId)
  /-- In `try_remove_idle`, with the table locked, the identity and the count checked. -/
  | removing (t : TableId) (k : FutexTableKey) (e : EntryId)
  /-- What is left to be dropped. -/
  | closed (t : Option TableId) (e : Option EntryId)
  deriving DecidableEq

namespace Holder

def table? : Holder → Option TableId
  | table _ t | handle t _ _ | upgrading t _ _ | closing t _ _ | removing t _ _ => some t
  | closed t _ => t

def removes (t : TableId) : Holder → Bool
  | removing t' _ _ => t' == t
  | _ => false

def entryOf? : Holder → Option EntryId
  | table _ _ | upgrading _ _ _ => none
  | handle _ _ e | closing _ _ e | removing _ _ e => some e
  | closed _ e => e

end Holder

/-- A lookup of the table of `wanted` that prunes under the lock of the shared tables:
the backings still to be seen, and whether the count of the first one has been read. -/
structure Pruning where
  wanted : Nat
  rest : List Nat
  counted : Bool

/-- `shared`, `operations` and `pruning` are `SHARED_FUTEX_TABLES` with its lock; the other
lists hold every table and every entry made so far and the table of each process. -/
structure State where
  tables : List FutexTable
  entries : List FutexEntry
  processes : List TableId
  shared : SortedMap Nat TableId
  operations : Nat
  pruning : Option Pruning
  holders : List Holder

namespace State

variable (s : State)

def init : State := ⟨[], [], [], .empty, 0, none, []⟩

def tableStrong (t : TableId) : Nat :=
  s.processes.count t + s.shared.entries.countP (·.2 = t) + s.holders.countP (·.table? = some t)

def entryStrong (e : EntryId) : Nat :=
  (s.tables.map fun table => table.slots.entries.countP (·.2 = e)).sum + s.holders.countP (·.entryOf? = some e)

def slot (t : TableId) (k : FutexTableKey) : Option EntryId := s.tables[t]?.bind fun table => table.slots.get? k

def isEmpty (t : TableId) : Bool := (s.tables[t]?.map fun table => table.slots.size).getD 0 == 0

def locked (t : TableId) : Bool := s.holders.any (·.removes t)

def newTable (domain : Domain) : State := { s with tables := s.tables ++ [⟨domain, .empty⟩] }

def newProcess : State :=
  { s.newTable (.process s.processes.length) with processes := s.processes ++ [s.tables.length] }

def hold (h : Holder) : State := { s with holders := s.holders ++ [h] }

/-- The end of `FutexTables::get_or_insert`, with the lock released. -/
def sharedTable (id : Nat) : State :=
  match s.shared.get? id with
  | some t => s.hold (.table (.backing id) t)
  | none =>
      { s.newTable (.backing id) with shared := s.shared.insert id s.tables.length }.hold
        (.table (.backing id) s.tables.length)

/-- Every hundredth operation on the shared tables goes through all of them first. -/
def futexTableFor : Domain → Option State
  | .process pid => s.processes[pid]?.map fun t => s.hold (.table (.process pid) t)
  | .backing id =>
      if s.pruning.isSome then none
      else if s.operations + 1 = 100 then
        some { s with operations := 0, pruning := some ⟨id, s.shared.entries.map (·.1), false⟩ }
      else some ({ s with operations := s.operations + 1 }.sharedTable id)

/-- The next section of the lookup that prunes; the count of references and the emptiness
of a table are read one after the other. -/
def prune : Option State :=
  s.pruning.bind fun pruning =>
    match pruning.rest with
    | [] => some ({ s with pruning := none }.sharedTable pruning.wanted)
    | id :: rest =>
        (s.shared.get? id).bind fun t =>
          if pruning.counted then
            if s.locked t then none
            else if s.isEmpty t then
              some { s with shared := s.shared.erase id, pruning := some ⟨pruning.wanted, rest, false⟩ }
            else some { s with pruning := some ⟨pruning.wanted, rest, false⟩ }
          else if 1 < s.tableStrong t then some { s with pruning := some ⟨pruning.wanted, rest, false⟩ }
          else some { s with pruning := some ⟨pruning.wanted, id :: rest, true⟩ }

def setHolder (i : Nat) (h : Holder) : State := { s with holders := s.holders.set i h }

def setSlots (t : TableId) (f : SortedMap FutexTableKey EntryId → SortedMap FutexTableKey EntryId) : State :=
  { s with tables := s.tables.modify t fun table => { table with slots := f table.slots } }

def newEntry (t : TableId) (k : FutexTableKey) : State := { s with entries := s.entries ++ [⟨t, k, []⟩] }

/-- `get`, `get_or_insert` and `get_or_insert_owned`, with the table lock free. -/
def lookup (t : TableId) (k : FutexTableKey) (insert : Bool) : State :=
  match s.slot t k with
  | some e => s.hold (.handle t k e)
  | none =>
      if insert then
        ((s.newEntry t k).setSlots t (·.insert k s.entries.length)).hold (.handle t k s.entries.length)
      else s

def setWaiters (e : EntryId) (f : List Nat → List Nat) : State :=
  { s with entries := s.entries.modify e fun entry => { entry with waiters := f entry.waiters } }

inductive Op
  | newProcess
  | futexTableFor (domain : Domain)
  | prune
  | lookup (i : Nat) (k : FutexTableKey) (insert : Bool)
  | enqueue (i waiter : Nat)
  | requeue (i j waiter : Nat)
  | dequeue (e : EntryId) (waiter : Nat)
  | drop (i : Nat)
  | cleanup (e : EntryId)
  | upgrade (i : Nat)
  | check (i : Nat)
  | remove (i : Nat)
  | dropTable (i : Nat)
  | dropEntry (i : Nat)

/-- One step of a thread; `none` where it cannot be taken. -/
def step : Op → Option State
  | .newProcess => some s.newProcess
  | .futexTableFor domain => s.futexTableFor domain
  | .prune => s.prune
  | .lookup i k insert =>
      match s.holders[i]? with
      | some (.table _ t) => if s.locked t then none else some (s.lookup t k insert)
      | _ => none
  | .enqueue i waiter =>
      match s.holders[i]? with
      | some (.handle _ _ e) => some (s.setWaiters e (· ++ [waiter]))
      | _ => none
  | .requeue i j waiter =>
      match s.holders[i]?, s.holders[j]? with
      | some (.handle _ _ e), some (.handle _ _ e') =>
          some ((s.setWaiters e (·.erase waiter)).setWaiters e' (· ++ [waiter]))
      | _, _ => none
  | .dequeue e waiter => some (s.setWaiters e (·.erase waiter))
  | .drop i =>
      match s.holders[i]? with
      | some (.handle t k e) => some (s.setHolder i (.closing t k e))
      | some (.table _ t) => some (s.setHolder i (.closed (some t) none))
      | _ => none
  | .cleanup e =>
      s.entries[e]?.bind fun entry =>
        if s.tableStrong entry.table = 0 then none else some (s.hold (.upgrading entry.table entry.key e))
  | .upgrade i =>
      match s.holders[i]? with
      | some (.upgrading t k e) =>
          if s.entryStrong e = 0 then some (s.setHolder i (.closed (some t) none))
          else some (s.setHolder i (.closing t k e))
      | _ => none
  | .check i =>
      match s.holders[i]? with
      | some (.closing t k e) =>
          if s.locked t then none
          else if s.slot t k = some e ∧ s.entryStrong e = 2 then some (s.setHolder i (.removing t k e))
          else some (s.setHolder i (.closed (some t) (some e)))
      | _ => none
  | .remove i =>
      match s.holders[i]? with
      | some (.removing t k e) =>
          let u := s.setHolder i (.closed (some t) (some e))
          if (s.entries[e]?.map (·.waiters)).getD [] = [] then some (u.setSlots t (·.erase k)) else some u
      | _ => none
  | .dropTable i =>
      match s.holders[i]? with
      | some (.closed _ e) => some (s.setHolder i (.closed none e))
      | _ => none
  | .dropEntry i =>
      match s.holders[i]? with
      | some (.closed t _) => some (s.setHolder i (.closed t none))
      | _ => none

end State

inductive Reachable : State → Prop
  | start : Reachable State.init
  | step {s t : State} (op : State.Op) (h : Reachable s) (hstep : s.step op = some t) : Reachable t

end TheKernel.Futex
