import Mathlib.Data.Finset.Basic

/-!
# A set that forgets its oldest elements

`mruset` of `mruset.h`: a set and a queue with the same elements. A limit of zero is no limit.
-/

namespace Peershares

/-- `mruset`. -/
structure MruSet (α : Type) where
  set : Finset α
  queue : List α
  nMaxSize : Nat

namespace MruSet

variable {α : Type} [DecidableEq α]

/-- `mruset(nMaxSizeIn)`. -/
def new (nMaxSizeIn : Nat) : MruSet α where
  set := ∅
  queue := []
  nMaxSize := nMaxSizeIn

/-- `insert`, with `second` of what it returns: the element is new. -/
def insert (m : MruSet α) (x : α) : Bool × MruSet α :=
  if x ∈ m.set then (false, m)
  else
    let set := Insert.insert x m.set
    match m.queue with
    | [] => (true, { m with set, queue := [x] })
    | front :: rest =>
      if m.nMaxSize ≠ 0 ∧ m.queue.length = m.nMaxSize then
        (true, { m with set := set.erase front, queue := rest ++ [x] })
      else (true, { m with set, queue := m.queue ++ [x] })

/-- The loop of `max_size`, which runs as long as the queue has `s` elements or more. -/
def shrink (s : Nat) : Finset α → List α → Finset α × List α
  | set, [] => (set, [])
  | set, front :: queue =>
    if s ≤ (front :: queue).length then shrink s (set.erase front) queue else (set, front :: queue)

/-- `max_size(s)`. -/
def maxSize (m : MruSet α) (s : Nat) : MruSet α :=
  if s ≠ 0 then
    let r := shrink s m.set m.queue
    { set := r.1, queue := r.2, nMaxSize := s }
  else { m with nMaxSize := s }

/-- The calls that change an `mruset`. -/
inductive Call (α : Type)
  | insert (x : α)
  | maxSize (s : Nat)

/-- A call, next to the row of the elements that were not in the set when they were inserted. -/
def call (r : MruSet α × List α) : Call α → MruSet α × List α
  | .insert x => ((r.1.insert x).2, if x ∈ r.1.set then r.2 else r.2 ++ [x])
  | .maxSize s => (r.1.maxSize s, r.2)

/-- The calls, one after the other. -/
def run (r : MruSet α × List α) (calls : List (Call α)) : MruSet α × List α := calls.foldl call r

end MruSet

end Peershares
