import Retention.Failure
import Retention.Heap.Object

/-!
# Jobs and host work

A job is work that the guest has deferred. Jobs are data: a job of guest code
is known by the number of its code. Host work is what the host still owes a
promise: an outcome that arrives after some polls.

* `JobQueue.push`, `JobQueue.pop`: first in, first out.
* `HostWork.next`: the outcome that arrives next.
* `HostOrder`: an order in which outcomes arrive.
-/

namespace Retention

/-- The kinds of jobs. -/
inductive JobKind where
  | promise
  | generic
  | hostSettlement
deriving DecidableEq, Repr, Inhabited

/-- A value that needs no heap, such as the host can hand to a guest. -/
inductive HostValue where
  | undefined
  | null
  | bool (b : Bool)
  | number (n : Number)
  | bigint (i : Int)
  | string (s : String)
deriving DecidableEq, Repr, Inhabited

def HostValue.toValue : HostValue → Value
  | undefined => .undefined
  | null => .null
  | bool b => .bool b
  | number n => .number n
  | bigint i => .bigint i
  | string s => .string s

/-- What host work ends with. -/
inductive HostOutcome where
  | completed (value : HostValue)
  | failed (failure : HostFailure)
deriving DecidableEq, Repr, Inhabited

/-- How a promise was settled. -/
inductive Settlement where
  | fulfilled (value : Value)
  | rejected (reason : Value)
deriving DecidableEq, Repr, Inhabited

namespace Settlement

def state : Settlement → PromiseState
  | fulfilled _ => .fulfilled
  | rejected _ => .rejected

def value : Settlement → Value
  | fulfilled v | rejected v => v

end Settlement

/-- The work of a job. -/
inductive Work where
  /-- A promise was settled, and a reaction to it is due. -/
  | react (reaction : Reaction) (settlement : Settlement)
  /-- A promise was resolved with an object that has a `then` method. -/
  | adopt (promise : ObjectRef) (thenable method : Value)
  /-- Host work for a promise has ended. -/
  | settle (promise : ObjectRef) (outcome : HostOutcome)
  /-- Guest code, by its number. -/
  | code (code : Nat)
deriving DecidableEq, Repr, Inhabited

/-- A job. -/
structure Job where
  kind : JobKind
  work : Work
deriving DecidableEq, Repr, Inhabited

/-- A job in a queue, numbered in the order in which jobs were enqueued. -/
structure QueuedJob extends Job where
  number : Nat
deriving DecidableEq, Repr, Inhabited

/-- The jobs that wait to be run, the next one first, and the number of jobs
that were ever enqueued. -/
structure JobQueue where
  jobs : Queue QueuedJob := {}
  enqueued : Nat := 0
deriving DecidableEq, Repr, Inhabited

namespace JobQueue

def size (q : JobQueue) : Nat := q.jobs.size

def isEmpty (q : JobQueue) : Bool := q.jobs.isEmpty

/-- The job waits behind all others. -/
def push (q : JobQueue) (j : Job) : JobQueue :=
  { jobs := q.jobs.push { j with number := q.enqueued }, enqueued := q.enqueued + 1 }

/-- The job that waits longest. -/
def pop (q : JobQueue) : Option QueuedJob × JobQueue :=
  match q.jobs.pop? with
  | some (job, jobs) => (some job, { q with jobs })
  | none => (none, q)

theorem toList_jobs_push (q : JobQueue) (j : Job) :
    (q.push j).jobs.toList = q.jobs.toList ++ [{ j with number := q.enqueued }] := by
  simp [push]

theorem size_push (q : JobQueue) (j : Job) : (q.push j).size = q.size + 1 := by
  simp [size, ← Queue.length_toList, toList_jobs_push]

/-- The job taken out is the first of those that wait. -/
theorem pop_fst (q : JobQueue) : q.pop.1 = q.jobs.toList.head? := by
  unfold pop
  split
  · rename_i h
    simp [Queue.toList_of_pop? h]
  · rename_i h
    simp [(Queue.pop?_eq_none_iff _).mp h]

/-- The jobs behind the one taken out stay in order. -/
theorem toList_jobs_pop (q : JobQueue) : q.pop.2.jobs.toList = q.jobs.toList.tail := by
  unfold pop
  split
  · rename_i h
    simp [Queue.toList_of_pop? h]
  · rename_i h
    simp [(Queue.pop?_eq_none_iff _).mp h]

/-- Taking a job out does not renumber the jobs behind it. -/
theorem enqueued_pop (q : JobQueue) : q.pop.2.enqueued = q.enqueued := by
  unfold pop
  split <;> rfl

end JobQueue

/-- An outcome that the host owes a promise, and how many polls it still takes. -/
structure HostWork where
  promise : ObjectRef
  polls : Nat
  outcome : HostOutcome
deriving DecidableEq, Repr, Inhabited

namespace HostWork

/-- The polls that the works still take. -/
def totalPolls (works : Queue HostWork) : Nat := works.toList.foldr (fun work n => work.polls + n) 0

/-- The work that ends next, with at most `n` polls, and the works that remain.
The front work is polled: it ends, or goes to the back. -/
def nextWithin : Nat → Queue HostWork → Option (HostWork × Queue HostWork)
  | 0, works => works.pop?
  | n + 1, works =>
    match works.pop? with
    | none => none
    | some (w, rest) =>
      match w.polls with
      | 0 => some (w, rest)
      | polls + 1 => nextWithin n (rest.push { w with polls })

/-- The work that ends next, and the works that remain. -/
def next (works : Queue HostWork) : Option (HostWork × Queue HostWork) :=
  nextWithin (totalPolls works) works

theorem nextWithin_eq_none_iff (n : Nat) (works : Queue HostWork) :
    nextWithin n works = none ↔ works.toList = [] := by
  induction n generalizing works with
  | zero => exact Queue.pop?_eq_none_iff works
  | succ n ih =>
    unfold nextWithin
    split
    · rename_i h
      simpa using (Queue.pop?_eq_none_iff works).mp h
    · rename_i w rest h
      have hw := Queue.toList_of_pop? h
      split <;> simp [hw, ih]

/-- Some work ends next as long as there is any. -/
theorem next_eq_none_iff (works : Queue HostWork) : next works = none ↔ works.toList = [] :=
  nextWithin_eq_none_iff _ works

/-- What is owed to which promise, however many polls it still takes. -/
def debt (w : HostWork) : ObjectRef × HostOutcome := (w.promise, w.outcome)

/-- Polls delay what is owed, and change nothing else. -/
theorem perm_of_nextWithin {n : Nat} {works rest : Queue HostWork} {work : HostWork}
    (hnext : nextWithin n works = some (work, rest)) :
    (works.toList.map debt).Perm (work.debt :: rest.toList.map debt) := by
  induction n generalizing works with
  | zero =>
    have hpop : works.pop? = some (work, rest) := hnext
    rw [Queue.toList_of_pop? hpop]
    exact .refl _
  | succ n ih =>
    unfold nextWithin at hnext
    split at hnext
    · cases hnext
    · rename_i front behind hpop
      rw [Queue.toList_of_pop? hpop]
      split at hnext
      · obtain ⟨rfl, rfl⟩ := Prod.mk.inj (Option.some.inj hnext)
        exact .refl _
      · have hbehind := ih hnext
        rw [Queue.toList_push, List.map_append] at hbehind
        exact (List.perm_append_singleton _ _).symm.trans hbehind

theorem perm_of_next {works rest : Queue HostWork} {work : HostWork}
    (hnext : next works = some (work, rest)) :
    (works.toList.map debt).Perm (work.debt :: rest.toList.map debt) :=
  perm_of_nextWithin hnext

end HostWork

/-- The order in which host works end: some work ends next as long as there is
any, and all that is owed for the others stays owed. -/
structure HostOrder where
  next : Queue HostWork → Option (HostWork × Queue HostWork)
  next_eq_none_iff : ∀ works, next works = none ↔ works.toList = []
  perm : ∀ {works work rest}, next works = some (work, rest) →
    (works.toList.map HostWork.debt).Perm (work.debt :: rest.toList.map HostWork.debt)

/-- Works end in the order that polling them one after the other brings about. -/
def HostOrder.polled : HostOrder := ⟨HostWork.next, HostWork.next_eq_none_iff, HostWork.perm_of_next⟩

end Retention
