import Mathlib.Data.List.TakeWhile
import Mathlib.Data.Nat.Init

namespace TheKernel

/-- A bounded queue in contiguous storage: the first item stands at index `head`,
and the items go on at index 0 where the storage ends. -/
structure Fifo (α : Type) where
  capacity : Nat
  head : Nat
  items : List α
  fits : items.length ≤ capacity

namespace Fifo

variable {α : Type} {f : Fifo α} {xs : List α} {n : Nat}

def empty (capacity : Nat) : Fifo α := ⟨capacity, 0, [], Nat.zero_le _⟩

def occupiedLen (f : Fifo α) : Nat := f.items.length

def vacantLen (f : Fifo α) : Nat := f.capacity - f.items.length

def isEmpty (f : Fifo α) : Bool := f.items.isEmpty

def occupiedSlices (f : Fifo α) : List α × List α := f.items.splitAt (f.capacity - f.head)

def vacantSlices (f : Fifo α) : Nat × Nat :=
  if f.head + f.items.length < f.capacity then (f.capacity - (f.head + f.items.length), f.head) else (f.vacantLen, 0)

/-- The vacant region filled with `xs` from its start, and the write index moved past them. -/
def extend (f : Fifo α) (xs : List α) : Fifo α :=
  { f with
    items := f.items ++ xs.take f.vacantLen
    fits := by
      have h := f.fits
      simp only [List.length_append, List.length_take, vacantLen]
      omega }

def tryPush (f : Fifo α) (x : α) : Bool × Fifo α :=
  if f.items.length < f.capacity then (true, f.extend [x]) else (false, f)

def advanceRead (f : Fifo α) (n : Nat) : Fifo α :=
  { f with
    head := (f.head + n) % f.capacity
    items := f.items.drop n
    fits := (List.length_drop ▸ Nat.sub_le _ _).trans f.fits }

/-- `while f.try_peek().is_some_and(p) { f.try_pop(); }`. -/
def popWhile (f : Fifo α) (p : α → Bool) : Fifo α := f.advanceRead (f.items.takeWhile p).length

def modifyFirst (f : Fifo α) (g : α → α) : Fifo α :=
  { f with items := f.items.modifyHead g, fits := List.length_modifyHead.trans_le f.fits }

@[simp] theorem items_empty (capacity : Nat) : (empty capacity : Fifo α).items = [] := rfl

@[simp] theorem capacity_empty (capacity : Nat) : (empty capacity : Fifo α).capacity = capacity := rfl

@[simp] theorem capacity_extend : (f.extend xs).capacity = f.capacity := rfl

@[simp] theorem capacity_advanceRead : (f.advanceRead n).capacity = f.capacity := rfl

@[simp] theorem items_advanceRead : (f.advanceRead n).items = f.items.drop n := rfl

@[simp] theorem capacity_popWhile {p : α → Bool} : (f.popWhile p).capacity = f.capacity := rfl

@[simp] theorem items_popWhile {p : α → Bool} : (f.popWhile p).items = f.items.dropWhile p := by
  rw [popWhile, items_advanceRead]
  have h : f.items.takeWhile p ++ f.items.dropWhile p = f.items := List.takeWhile_append_dropWhile
  calc f.items.drop (f.items.takeWhile p).length
      = (f.items.takeWhile p ++ f.items.dropWhile p).drop (f.items.takeWhile p).length := by rw [h]
    _ = f.items.dropWhile p := List.drop_left

@[simp] theorem capacity_modifyFirst {g : α → α} : (f.modifyFirst g).capacity = f.capacity := rfl

@[simp] theorem items_modifyFirst {g : α → α} : (f.modifyFirst g).items = f.items.modifyHead g := rfl

theorem items_extend (h : xs.length ≤ f.vacantLen) : (f.extend xs).items = f.items ++ xs := by
  simp only [extend, List.take_of_length_le h]

@[simp] theorem extend_nil : f.extend [] = f := by
  simp [extend]

theorem extend_extend {ys : List α} : (f.extend xs).extend ys = f.extend (xs ++ ys) := by
  have hvacant : (f.extend xs).vacantLen = f.vacantLen - xs.length := by
    have := f.fits
    simp only [vacantLen, extend, List.length_append, List.length_take]
    omega
  have hitems : f.items ++ xs.take f.vacantLen ++ ys.take (f.extend xs).vacantLen =
      f.items ++ (xs ++ ys).take f.vacantLen := by
    rw [hvacant, List.take_append, List.append_assoc]
  rw [extend, mk.injEq]
  exact ⟨rfl, rfl, hitems⟩

theorem tryPush_accepted {x : α} (h : f.items.length < f.capacity) :
    (f.tryPush x).1 = true ∧ (f.tryPush x).2.items = f.items ++ [x] := by
  rw [tryPush, if_pos h]
  refine ⟨rfl, items_extend ?_⟩
  rw [vacantLen, List.length_singleton]
  omega

@[simp] theorem capacity_tryPush {x : α} : (f.tryPush x).2.capacity = f.capacity := by
  rw [tryPush]
  split <;> rfl

theorem vacantSlices_sum : f.vacantSlices.1 + f.vacantSlices.2 = f.vacantLen := by
  have h := f.fits
  rw [vacantSlices]
  split
  · rw [vacantLen]
    omega
  · rfl

theorem occupiedSlices_append : f.occupiedSlices.1 ++ f.occupiedSlices.2 = f.items := by
  rw [occupiedSlices, List.splitAt_eq]
  exact List.take_append_drop _ _

end Fifo

end TheKernel
