import TheKernel.Lib.SortedMap

namespace TheKernel.MemorySet

abbrev Range := Nat × Nat

/-- The address-ordered AVL tree of `gaps/tree.rs`. Every node carries the
greatest gap length and the height of its subtree. -/
inductive GapNode where
  | nil
  | node (range : Range) (left right : GapNode) (maxLength height : Nat)

namespace GapNode

def height : GapNode → Nat
  | nil => 0
  | node _ _ _ _ height => height

def maxLength : GapNode → Nat
  | nil => 0
  | node _ _ _ maxLength _ => maxLength

def refresh (range : Range) (left right : GapNode) : GapNode :=
  node range left right (max (max (range.2 - range.1) left.maxLength) right.maxLength)
    (1 + max left.height right.height)

def rotateLeft (range : Range) (left right : GapNode) : GapNode :=
  match right with
  | nil => refresh range left nil
  | node pivot inner outer _ _ => refresh pivot (refresh range left inner) outer

def rotateRight (range : Range) (left right : GapNode) : GapNode :=
  match left with
  | nil => refresh range nil right
  | node pivot outer inner _ _ => refresh pivot outer (refresh range inner right)

def balanceFactor (left right : GapNode) : Int := (left.height : Int) - right.height

/-- `balance`; a child of height zero is never the heavy one, so the `nil`
arms stand for the impossible `expect`s. -/
def balance (range : Range) (left right : GapNode) : GapNode :=
  if 1 < balanceFactor left right then
    match left with
    | nil => refresh range nil right
    | node r l inner _ _ =>
        if balanceFactor l inner < 0 then rotateRight range (rotateLeft r l inner) right
        else rotateRight range left right
  else if balanceFactor left right < -1 then
    match right with
    | nil => refresh range left nil
    | node r inner l _ _ =>
        if 0 < balanceFactor inner l then rotateLeft range left (rotateRight r inner l)
        else rotateLeft range left right
  else refresh range left right

def insert : GapNode → Range → GapNode
  | nil, range => node range nil nil (range.2 - range.1) 1
  | node root left right _ _, range =>
      if range.1 < root.1 then balance root (left.insert range) right
      else if root.1 < range.1 then balance root left (right.insert range)
      else balance range left right

/-- `take_first` of a node: what is left of it and its first range. -/
def takeFirst (range : Range) (left right : GapNode) : GapNode × Range :=
  match left with
  | nil => (right, range)
  | node r inner outer _ _ =>
      let (left, first) := takeFirst r inner outer
      (balance range left right, first)

def remove : GapNode → Nat → GapNode
  | nil, _ => nil
  | node root left right _ _, start =>
      if start < root.1 then balance root (left.remove start) right
      else if root.1 < start then balance root left (right.remove start)
      else match right with
        | nil => left
        | node r inner outer _ _ =>
            let (right, replacement) := takeFirst r inner outer
            balance replacement left right

def predecessorLoop : GapNode → Nat → Option Range → Option Range
  | nil, _, result => result
  | node range left right _ _, start, result =>
      if range.1 ≤ start then right.predecessorLoop start (some range) else left.predecessorLoop start result

def predecessor (root : GapNode) (start : Nat) : Option Range := root.predecessorLoop start none

def successorLoop : GapNode → Nat → Option Range → Option Range
  | nil, _, result => result
  | node range left right _ _, start, result =>
      if start ≤ range.1 then left.successorLoop start (some range) else right.successorLoop start result

def successor (root : GapNode) (start : Nat) : Option Range := root.successorLoop start none

def toList : GapNode → List Range
  | nil => []
  | node range left right _ _ => left.toList ++ range :: right.toList

def depth : GapNode → Nat
  | nil => 0
  | node _ left right _ _ => 1 + max left.depth right.depth

def longest : GapNode → Nat
  | nil => 0
  | node range left right _ _ => max (max (range.2 - range.1) left.longest) right.longest

/-- Every node is balanced and its annotations are those of its subtree. -/
def Valid : GapNode → Prop
  | nil => True
  | node range left right maxLength height => left.Valid ∧ right.Valid ∧
      height = 1 + max left.depth right.depth ∧
      maxLength = max (max (range.2 - range.1) left.longest) right.longest ∧
      left.depth ≤ right.depth + 1 ∧ right.depth ≤ left.depth + 1

section Shape

variable {t l r : GapNode} {range : Range}

theorem Valid.height_eq (h : t.Valid) : t.height = t.depth := by
  cases t with
  | nil => rfl
  | node => exact h.2.2.1

theorem Valid.maxLength_eq (h : t.Valid) : t.maxLength = t.longest := by
  cases t with
  | nil => rfl
  | node => exact h.2.2.2.1

@[simp] theorem depth_refresh : (refresh range l r).depth = 1 + max l.depth r.depth := rfl

@[simp] theorem toList_refresh : (refresh range l r).toList = l.toList ++ range :: r.toList := rfl

theorem refresh_valid (hl : l.Valid) (hr : r.Valid) (h : l.depth ≤ r.depth + 1) (h' : r.depth ≤ l.depth + 1) :
    (refresh range l r).Valid := by
  refine ⟨hl, hr, ?_, ?_, h, h'⟩
  · rw [hl.height_eq, hr.height_eq]
  · rw [hl.maxLength_eq, hr.maxLength_eq]

@[simp] theorem toList_rotateLeft : (rotateLeft range l r).toList = l.toList ++ range :: r.toList := by
  cases r with
  | nil => rfl
  | node => simp [rotateLeft, toList]

@[simp] theorem toList_rotateRight : (rotateRight range l r).toList = l.toList ++ range :: r.toList := by
  cases l with
  | nil => rfl
  | node => simp [rotateRight, toList]

@[simp] theorem toList_balance : (balance range l r).toList = l.toList ++ range :: r.toList := by
  simp only [balance]
  split
  · split
    · rfl
    · split <;> simp [toList]
  · split
    · split
      · rfl
      · split <;> simp [toList]
    · rfl

/-- What rebalancing makes of two subtrees whose depths differ by at most two:
a valid tree, as deep as the deeper one or one deeper. -/
structure Balanced (t : GapNode) (a b : Nat) : Prop where
  valid : t.Valid
  lower : max a b ≤ t.depth
  upper : t.depth ≤ 1 + max a b
  same : a ≤ b + 1 → b ≤ a + 1 → t.depth = 1 + max a b

theorem refresh_balanced (hl : l.Valid) (hr : r.Valid) (h : l.depth ≤ r.depth + 1) (h' : r.depth ≤ l.depth + 1) :
    Balanced (refresh range l r) l.depth r.depth := by
  refine ⟨refresh_valid hl hr h h', ?_, ?_, fun _ _ => rfl⟩
  · rw [depth_refresh]
    omega
  · rw [depth_refresh]

theorem balance_left (hl : l.Valid) (hr : r.Valid) (h : l.depth = r.depth + 2) :
    Balanced (balance range l r) l.depth r.depth := by
  have hheavy : 1 < balanceFactor l r := by
    rw [balanceFactor, hl.height_eq, hr.height_eq]
    omega
  cases l with
  | nil => simp [depth] at h
  | node pivot outer inner _ _ =>
      obtain ⟨houter, hinner, -, -, hle, hle'⟩ := hl
      simp only [balance, if_pos hheavy]
      simp only [depth] at h ⊢
      split
      case isTrue hrot =>
        rw [balanceFactor, houter.height_eq, hinner.height_eq] at hrot
        cases inner with
        | nil =>
            simp only [depth] at hrot
            omega
        | node top a b _ _ =>
            obtain ⟨ha, hb, -, -, hab, hba⟩ := hinner
            simp only [depth] at hrot hle hle' h ⊢
            refine ⟨refresh_valid (refresh_valid houter ha ?_ ?_) (refresh_valid hb hr ?_ ?_) ?_ ?_, ?_, ?_, ?_⟩ <;>
              (try simp only [rotateLeft, rotateRight, refresh, depth]) <;> omega
      case isFalse hrot =>
        rw [balanceFactor, houter.height_eq, hinner.height_eq] at hrot
        refine ⟨refresh_valid houter (refresh_valid hinner hr ?_ ?_) ?_ ?_, ?_, ?_, ?_⟩ <;>
          (try simp only [rotateRight, refresh, depth]) <;> omega

theorem balance_right (hl : l.Valid) (hr : r.Valid) (h : r.depth = l.depth + 2) :
    Balanced (balance range l r) l.depth r.depth := by
  have hlight : ¬ 1 < balanceFactor l r := by
    rw [balanceFactor, hl.height_eq, hr.height_eq]
    omega
  have hheavy : balanceFactor l r < -1 := by
    rw [balanceFactor, hl.height_eq, hr.height_eq]
    omega
  cases r with
  | nil => simp [depth] at h
  | node pivot inner outer _ _ =>
      obtain ⟨hinner, houter, -, -, hle, hle'⟩ := hr
      simp only [balance, if_neg hlight, if_pos hheavy]
      simp only [depth] at h ⊢
      split
      case isTrue hrot =>
        rw [balanceFactor, houter.height_eq, hinner.height_eq] at hrot
        cases inner with
        | nil =>
            simp only [depth] at hrot
            omega
        | node top a b _ _ =>
            obtain ⟨ha, hb, -, -, hab, hba⟩ := hinner
            simp only [depth] at hrot hle hle' h ⊢
            refine ⟨refresh_valid (refresh_valid hl ha ?_ ?_) (refresh_valid hb houter ?_ ?_) ?_ ?_, ?_, ?_, ?_⟩ <;>
              (try simp only [rotateLeft, rotateRight, refresh, depth]) <;> omega
      case isFalse hrot =>
        rw [balanceFactor, houter.height_eq, hinner.height_eq] at hrot
        refine ⟨refresh_valid (refresh_valid hl hinner ?_ ?_) houter ?_ ?_, ?_, ?_, ?_⟩ <;>
          (try simp only [rotateLeft, refresh, depth]) <;> omega

theorem balance_balanced (range : Range) (hl : l.Valid) (hr : r.Valid) (h : l.depth ≤ r.depth + 2)
    (h' : r.depth ≤ l.depth + 2) : Balanced (balance range l r) l.depth r.depth := by
  by_cases hleft : l.depth = r.depth + 2
  · exact balance_left hl hr hleft
  · by_cases hright : r.depth = l.depth + 2
    · exact balance_right hl hr hright
    · have hbal : balance range l r = refresh range l r := by
        simp only [balance, balanceFactor, hl.height_eq, hr.height_eq]
        rw [if_neg (by omega), if_neg (by omega)]
      rw [hbal]
      exact refresh_balanced hl hr (by omega) (by omega)

theorem insert_valid (h : t.Valid) (range : Range) :
    (t.insert range).Valid ∧ t.depth ≤ (t.insert range).depth ∧ (t.insert range).depth ≤ t.depth + 1 := by
  induction t with
  | nil => simp [insert, Valid, depth, longest]
  | node root left right _ _ ihl ihr =>
      obtain ⟨hl, hr, -, -, hle, hle'⟩ := h
      obtain ⟨hlv, hl1, hl2⟩ := ihl hl
      obtain ⟨hrv, hr1, hr2⟩ := ihr hr
      simp only [insert, depth]
      split
      · obtain ⟨hv, hlo, hup, hsame⟩ := balance_balanced root hlv hr (by omega) (by omega)
        refine ⟨hv, ?_, by omega⟩
        by_cases heq : (left.insert range).depth = left.depth
        · rw [hsame (by omega) (by omega)]
          omega
        · omega
      · split
        · obtain ⟨hv, hlo, hup, hsame⟩ := balance_balanced root hl hrv (by omega) (by omega)
          refine ⟨hv, ?_, by omega⟩
          by_cases heq : (right.insert range).depth = right.depth
          · rw [hsame (by omega) (by omega)]
            omega
          · omega
        · obtain ⟨hv, hlo, hup, hsame⟩ := balance_balanced range hl hr (by omega) (by omega)
          exact ⟨hv, by rw [hsame hle hle'], by omega⟩

theorem takeFirst_valid (range : Range) (hl : l.Valid) (hr : r.Valid) (h : l.depth ≤ r.depth + 1)
    (h' : r.depth ≤ l.depth + 1) :
    (takeFirst range l r).1.Valid ∧ max l.depth r.depth ≤ (takeFirst range l r).1.depth ∧
      (takeFirst range l r).1.depth ≤ 1 + max l.depth r.depth := by
  induction l generalizing range r with
  | nil =>
      simp only [takeFirst, depth] at h' ⊢
      exact ⟨hr, by omega, by omega⟩
  | node pivot inner outer _ _ ih _ =>
      obtain ⟨hinner, houter, -, -, hle, hle'⟩ := hl
      obtain ⟨hv, hlo, hup⟩ := ih pivot hinner houter hle hle'
      simp only [takeFirst, depth] at h h' ⊢
      obtain ⟨hbv, hblo, hbup, hsame⟩ := balance_balanced range hv hr (by omega) (by omega)
      refine ⟨hbv, ?_, by omega⟩
      by_cases heq : (takeFirst pivot inner outer).1.depth = 1 + max inner.depth outer.depth
      · rw [hsame (by omega) (by omega)]
        omega
      · omega

theorem remove_valid (h : t.Valid) (start : Nat) :
    (t.remove start).Valid ∧ t.depth ≤ (t.remove start).depth + 1 ∧ (t.remove start).depth ≤ t.depth := by
  induction t with
  | nil => simp [remove, Valid]
  | node root left right _ _ ihl ihr =>
      obtain ⟨hl, hr, -, -, hle, hle'⟩ := h
      obtain ⟨hlv, hl1, hl2⟩ := ihl hl
      obtain ⟨hrv, hr1, hr2⟩ := ihr hr
      simp only [remove, depth]
      split
      · obtain ⟨hv, hlo, hup, hsame⟩ := balance_balanced root hlv hr (by omega) (by omega)
        exact ⟨hv, by omega, by omega⟩
      · split
        · obtain ⟨hv, hlo, hup, hsame⟩ := balance_balanced root hl hrv (by omega) (by omega)
          exact ⟨hv, by omega, by omega⟩
        · cases right with
          | nil =>
              simp only [depth] at hle ⊢
              exact ⟨hl, by omega, by omega⟩
          | node pivot inner outer _ _ =>
              obtain ⟨hinner, houter, -, -, hio, hoi⟩ := hr
              obtain ⟨hv, hlo, hup⟩ := takeFirst_valid pivot hinner houter hio hoi
              simp only [depth] at hle hle' ⊢
              obtain ⟨hbv, hblo, hbup, hsame⟩ := balance_balanced (takeFirst pivot inner outer).2 hl hv
                (by omega) (by omega)
              exact ⟨hbv, by omega, by omega⟩

end Shape

section Entries

variable {t l r : GapNode} {m : SortedMap Nat Nat}

/-- In an ordered list, what lies before and after an element. -/
theorem sorted_node {xs ys : List Range} {range : Range} (h : (xs ++ range :: ys).Pairwise (fun e e' => e.1 < e'.1)) :
    xs.Pairwise (fun e e' => e.1 < e'.1) ∧ ys.Pairwise (fun e e' => e.1 < e'.1) ∧ (∀ e ∈ xs, e.1 < range.1) ∧
      ∀ e ∈ ys, range.1 < e.1 := by
  rw [List.pairwise_append, List.pairwise_cons] at h
  exact ⟨h.1, h.2.1.2, fun e he => h.2.2 e he range (by simp), h.2.1.1⟩

theorem toList_insert (h : t.toList.Pairwise (fun e e' => e.1 < e'.1)) (range : Range) :
    (t.insert range).toList = t.toList.filter (fun e => e.1 < range.1) ++ range :: t.toList.filter
      (fun e => range.1 < e.1) := by
  induction t with
  | nil => rfl
  | node root left right _ _ ihl ihr =>
      obtain ⟨hl, hr, hlt, hgt⟩ := sorted_node h
      simp only [insert, toList, List.filter_append, List.filter_cons]
      have hnone (xs : List Range) (p : Range → Bool) (hp : ∀ e ∈ xs, p e = false) : xs.filter p = [] :=
        List.filter_eq_nil_iff.mpr (by simpa using hp)
      have hall (xs : List Range) (p : Range → Bool) (hp : ∀ e ∈ xs, p e = true) : xs.filter p = xs :=
        List.filter_eq_self.mpr hp
      split
      case isTrue hlow =>
        rw [toList_balance, ihl hl, hnone right.toList (fun e => decide (e.1 < range.1)),
          hall right.toList (fun e => decide (range.1 < e.1))]
        · simp [hlow, lt_asymm hlow]
        · exact fun e he => decide_eq_true (hlow.trans (hgt e he))
        · exact fun e he => decide_eq_false (lt_asymm (hlow.trans (hgt e he)))
      case isFalse hlow =>
        split
        case isTrue hhigh =>
          rw [toList_balance, ihr hr, hall left.toList (fun e => decide (e.1 < range.1)),
            hnone left.toList (fun e => decide (range.1 < e.1))]
          · simp [hhigh, hlow]
          · exact fun e he => decide_eq_false (lt_asymm ((hlt e he).trans hhigh))
          · exact fun e he => decide_eq_true ((hlt e he).trans hhigh)
        case isFalse hhigh =>
          have heq : root.1 = range.1 := by omega
          rw [toList_balance, hall left.toList (fun e => decide (e.1 < range.1)),
            hnone left.toList (fun e => decide (range.1 < e.1)), hnone right.toList (fun e => decide (e.1 < range.1)),
            hall right.toList (fun e => decide (range.1 < e.1))]
          · simp [heq]
          · exact fun e he => decide_eq_true (heq ▸ hgt e he)
          · exact fun e he => decide_eq_false (lt_asymm (heq ▸ hgt e he))
          · exact fun e he => decide_eq_false (lt_asymm (heq ▸ hlt e he))
          · exact fun e he => decide_eq_true (heq ▸ hlt e he)

theorem toList_takeFirst (range : Range) :
    (takeFirst range l r).2 :: (takeFirst range l r).1.toList = l.toList ++ range :: r.toList := by
  induction l generalizing range r with
  | nil => rfl
  | node pivot inner outer _ _ ih _ =>
      simp only [takeFirst, toList_balance, toList]
      rw [← ih pivot]
      rfl

theorem toList_remove (h : t.toList.Pairwise (fun e e' => e.1 < e'.1)) (start : Nat) :
    (t.remove start).toList = t.toList.filter (fun e => e.1 ≠ start) := by
  induction t with
  | nil => rfl
  | node root left right _ _ ihl ihr =>
      obtain ⟨hl, hr, hlt, hgt⟩ := sorted_node h
      have hkeep (xs : List Range) (hp : ∀ e ∈ xs, e.1 ≠ start) : xs.filter (fun e => e.1 ≠ start) = xs :=
        List.filter_eq_self.mpr (fun e he => by simpa using hp e he)
      simp only [remove, toList, List.filter_append, List.filter_cons]
      split
      case isTrue hlow =>
        rw [toList_balance, ihl hl, hkeep right.toList (fun e he => ?_)]
        · simp [(show root.1 ≠ start by omega)]
        · have := hgt e he
          omega
      case isFalse hlow =>
        split
        case isTrue hhigh =>
          rw [toList_balance, ihr hr, hkeep left.toList (fun e he => ?_)]
          · simp [(show root.1 ≠ start by omega)]
          · have := hlt e he
            omega
        case isFalse hhigh =>
          have heq : root.1 = start := by omega
          rw [hkeep left.toList (fun e he => by have := hlt e he; omega),
            hkeep right.toList (fun e he => by have := hgt e he; omega)]
          cases right with
          | nil => simp [heq, toList]
          | node pivot inner outer _ _ =>
              simp only [toList_balance, toList_takeFirst, toList]
              simp [heq]

theorem predecessorLoop_eq (h : t.toList.Pairwise (fun e e' => e.1 < e'.1)) (start : Nat) (result : Option Range) :
    t.predecessorLoop start result = (t.toList.filter (fun e => e.1 ≤ start)).getLast?.or result := by
  induction t generalizing result with
  | nil => rfl
  | node root left right _ _ ihl ihr =>
      obtain ⟨hl, hr, hlt, hgt⟩ := sorted_node h
      simp only [predecessorLoop, toList, List.filter_append, List.filter_cons]
      split
      case isTrue hle =>
        rw [ihr hr, if_pos (decide_eq_true hle), List.getLast?_append, List.getLast?_cons]
        cases (right.toList.filter (fun e => e.1 ≤ start)).getLast? <;> rfl
      case isFalse hle =>
        have hnone : right.toList.filter (fun e => e.1 ≤ start) = [] := by
          refine List.filter_eq_nil_iff.mpr fun e he => ?_
          have := hgt e he
          simp only [decide_eq_true_eq]
          omega
        rw [ihl hl, hnone, if_neg (by simpa using hle), List.append_nil]

theorem successorLoop_eq (h : t.toList.Pairwise (fun e e' => e.1 < e'.1)) (start : Nat) (result : Option Range) :
    t.successorLoop start result = (t.toList.find? (fun e => start ≤ e.1)).or result := by
  induction t generalizing result with
  | nil => rfl
  | node root left right _ _ ihl ihr =>
      obtain ⟨hl, hr, hlt, hgt⟩ := sorted_node h
      simp only [successorLoop, toList, List.find?_append, List.find?_cons]
      split
      case isTrue hle =>
        rw [ihl hl, decide_eq_true hle]
        cases left.toList.find? (fun e => start ≤ e.1) <;> rfl
      case isFalse hle =>
        have hnone : left.toList.find? (fun e => start ≤ e.1) = none := by
          refine List.find?_eq_none.mpr fun e he => ?_
          have := hlt e he
          simp only [decide_eq_true_eq]
          omega
        rw [ihr hr, hnone, decide_eq_false hle]
        rfl

variable (h : t.toList = m.entries)

include h

theorem insert_entries (range : Range) : (t.insert range).toList = (m.insert range.1 range.2).entries := by
  rw [toList_insert (h ▸ m.sorted), h]
  rfl

theorem remove_entries (start : Nat) : (t.remove start).toList = (m.erase start).entries := by
  rw [toList_remove (h ▸ m.sorted), h]
  rfl

theorem predecessor_eq (start : Nat) : t.predecessor start = m.lastUpTo start := by
  rw [predecessor, predecessorLoop_eq (h ▸ m.sorted), h, Option.or_none]
  rfl

theorem successor_eq (start : Nat) : t.successor start = m.firstFrom start := by
  rw [successor, successorLoop_eq (h ▸ m.sorted), h, Option.or_none]
  rfl

end Entries

end GapNode

end TheKernel.MemorySet
