/-!
# Sequences and queues

A sequence is a list that grows at its end, and a queue is one that also
shrinks at its front. Both do so in constant time, since they keep what was
added latest in front; what they hold is said by `toList`, in order.

* `Sequence.toList_push`: a new item comes after all others.
* `Queue.toList_push`, `Queue.toList_pop?`: first in, first out.
-/

namespace Retention

variable {α : Type}

/-- A list that grows at its end. -/
structure Sequence (α : Type) where
  /-- The items, the latest first. -/
  latestFirst : List α := []
deriving DecidableEq, Repr, Inhabited

namespace Sequence

/-- The items, in the order in which they were added. -/
def toList (s : Sequence α) : List α := s.latestFirst.reverse

def ofList (items : List α) : Sequence α := ⟨items.reverse⟩

/-- The item comes after all others. -/
def push (s : Sequence α) (a : α) : Sequence α := ⟨a :: s.latestFirst⟩

def size (s : Sequence α) : Nat := s.latestFirst.length

/-- The first item that satisfies a condition. -/
def find? (s : Sequence α) (p : α → Bool) : Option α :=
  s.latestFirst.foldl (fun found? a => if p a then some a else found?) none

/-- Whether some item satisfies a condition. -/
def any (s : Sequence α) (p : α → Bool) : Bool := s.latestFirst.any p

/-- The items that satisfy a condition. -/
def filter (s : Sequence α) (p : α → Bool) : Sequence α := ⟨s.latestFirst.filter p⟩

@[simp] theorem toList_mk_nil : (⟨[]⟩ : Sequence α).toList = [] := rfl

@[simp] theorem toList_ofList (items : List α) : (ofList items).toList = items := by
  simp [ofList, toList]

@[simp] theorem toList_push (s : Sequence α) (a : α) : (s.push a).toList = s.toList ++ [a] := by
  simp [push, toList]

@[simp] theorem length_toList (s : Sequence α) : s.toList.length = s.size := by
  simp [toList, size]

/-- The last match from the end is the first from the start. -/
theorem foldl_match_eq (p : α → Bool) (items : List α) (found? : Option α) :
    items.foldl (fun found? a => if p a then some a else found?) found? =
      (items.reverse.find? p).or found? := by
  induction items generalizing found? with
  | nil => simp
  | cons a rest ih =>
    rw [List.foldl_cons, ih, List.reverse_cons, List.find?_append, Option.or_assoc]
    congr 1
    by_cases h : p a <;> simp [h]

theorem find?_toList (s : Sequence α) (p : α → Bool) : s.toList.find? p = s.find? p := by
  simp [find?, foldl_match_eq, toList]

@[simp] theorem any_toList (s : Sequence α) (p : α → Bool) : s.toList.any p = s.any p := by
  simp [toList, any]

@[simp] theorem toList_filter (s : Sequence α) (p : α → Bool) :
    (s.filter p).toList = s.toList.filter p := by
  simp [filter, toList]

/-- A sequence is determined by its items. -/
theorem toList_injective {s t : Sequence α} (h : s.toList = t.toList) : s = t := by
  cases s
  cases t
  simpa [toList] using h

end Sequence

/-- A list that grows at its end and shrinks at its front. -/
structure Queue (α : Type) where
  /-- The items that come first, in order. -/
  front : List α := []
  /-- The items behind them. -/
  back : Sequence α := {}
deriving DecidableEq, Repr, Inhabited

namespace Queue

/-- The items, in the order in which they were added. -/
def toList (q : Queue α) : List α := q.front ++ q.back.toList

def size (q : Queue α) : Nat := q.front.length + q.back.size

def isEmpty (q : Queue α) : Bool := q.front.isEmpty && q.back.latestFirst.isEmpty

/-- The item comes after all others. -/
def push (q : Queue α) (a : α) : Queue α := { q with back := q.back.push a }

/-- The first item, and the queue behind it. -/
def pop? (q : Queue α) : Option (α × Queue α) :=
  match q.front with
  | a :: front => some (a, { q with front })
  | [] =>
    match q.back.toList with
    | a :: front => some (a, { front })
    | [] => none

@[simp] theorem toList_mk_nil : ({} : Queue α).toList = [] := rfl

@[simp] theorem toList_push (q : Queue α) (a : α) : (q.push a).toList = q.toList ++ [a] := by
  simp [push, toList]

@[simp] theorem length_toList (q : Queue α) : q.toList.length = q.size := by
  simp [toList, size]

theorem isEmpty_iff (q : Queue α) : q.isEmpty = true ↔ q.toList = [] := by
  simp [isEmpty, toList, Sequence.toList]

/-- What is taken out comes before what is left. -/
theorem toList_pop? (q : Queue α) :
    q.pop?.map (fun (a, rest) => a :: rest.toList) = if q.toList = [] then none else some q.toList := by
  obtain ⟨front, back⟩ := q
  cases front with
  | cons a front => simp [pop?, toList]
  | nil => cases h : back.toList <;> simp [pop?, toList, h]

theorem pop?_eq_none_iff (q : Queue α) : q.pop? = none ↔ q.toList = [] := by
  have h := toList_pop? q
  constructor
  · intro hq
    simpa [hq] using h
  · intro hq
    simpa [hq] using h

theorem toList_of_pop? {q rest : Queue α} {a : α} (h : q.pop? = some (a, rest)) :
    q.toList = a :: rest.toList := by
  have hq := toList_pop? q
  rw [h] at hq
  split at hq <;> simp_all

end Queue
end Retention
