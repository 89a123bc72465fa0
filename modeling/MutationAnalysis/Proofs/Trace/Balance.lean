/-
Calls that return.

A function that is entered and left, with calls between the two that are left as well, tells a
recorder of both under one number, and leaves the recorder's stack as it was (`Recorder.Balanced`).
While functions are under way, what was told since the outermost of them was entered is a balanced
list for each, behind its entry (`Recorder.Pending`).

* `Recorder.Balanced.stack_eq`, `Recorder.Pending.stack_eq`: what is on the stack then;
* `Recorder.Pending.leave`, `Recorder.Pending.isCall`: what it means
  to leave the innermost function.
-/
import MutationAnalysis.Proofs.Trace.FirstCaller

namespace MutationAnalysis.Recorder

/-- Every entry is followed by a return of the same number, with balanced events between the two. -/
inductive Balanced : List Event → Prop
  | nil : Balanced []
  | call {k : Nat} {inner rest : List Event} (hinner : Balanced inner) (hrest : Balanced rest) :
      Balanced (.enter k :: inner ++ .leave k :: rest)

/-- What a function of a number tells from its entry to its return. -/
def IsCall (k : Nat) (events : List Event) : Prop :=
  ∃ inner, Balanced inner ∧ events = .enter k :: inner ++ [.leave k]

/-- What was told since functions of the given numbers, the innermost first, were
entered, none of which was left. -/
inductive Pending : List Nat → List Event → Prop
  | nil : Pending [] []
  | enter {k : Nat} {ks : List Nat} {told inner : List Event} (h : Pending ks told)
      (hinner : Balanced inner) : Pending (k :: ks) (told ++ .enter k :: inner)

variable {k j : Nat} {ks : List Nat} {events events' told : List Event}

theorem Balanced.append (h : Balanced events) (h' : Balanced events') :
    Balanced (events ++ events') := by
  induction h with
  | nil => exact h'
  | @call k inner rest hinner _ _ ih =>
    have happend : .enter k :: inner ++ .leave k :: rest ++ events'
        = .enter k :: inner ++ .leave k :: (rest ++ events') := by simp
    rw [happend]
    exact .call hinner ih

theorem IsCall.balanced (h : IsCall k events) : Balanced events := by
  obtain ⟨inner, hinner, rfl⟩ := h
  exact .call hinner .nil

theorem stack_enter (r : Recorder) (k : Nat) : (r.enter k).stack = k :: r.stack := by
  obtain ⟨mapping, stack⟩ := r
  rw [enter]
  split <;> rfl

/-- Balanced events leave the stack as it was. -/
theorem Balanced.stack_eq (h : Balanced events) (r : Recorder) :
    (events.foldl record r).stack = r.stack := by
  induction h generalizing r with
  | nil => rfl
  | @call k inner rest _ _ ih ih' =>
    rw [List.foldl_append, List.foldl_cons, List.foldl_cons, ih']
    -- the return takes off what the entry put on top
    show (inner.foldl record (r.enter k)).stack.tail = r.stack
    rw [ih, stack_enter, List.tail_cons]

/-- The functions under way are on top of the stack as it was. -/
theorem Pending.stack_eq (h : Pending ks told) (r : Recorder) :
    (told.foldl record r).stack = ks ++ r.stack := by
  induction h with
  | nil => rfl
  | @enter k ks told inner _ hinner ih =>
    rw [List.foldl_append, List.foldl_cons, hinner.stack_eq]
    show ((told.foldl record r).enter k).stack = _
    rw [stack_enter, ih, List.cons_append]

theorem Pending.append (h : Pending (k :: ks) told) (h' : Balanced events) :
    Pending (k :: ks) (told ++ events) := by
  cases h with
  | @enter _ _ told inner h hinner =>
    rw [List.append_assoc, List.cons_append]
    exact .enter h (hinner.append h')

/-- When the innermost function is left, its caller goes on. -/
theorem Pending.leave (h : Pending (j :: k :: ks) told) :
    Pending (k :: ks) (told ++ [.leave j]) := by
  cases h with
  | @enter _ _ told inner h hinner =>
    rw [List.append_assoc]
    exact h.append (.call hinner .nil)

/-- When the outermost function is left, its call is complete. -/
theorem Pending.isCall (h : Pending [k] told) : IsCall k (told ++ [.leave k]) := by
  cases h with
  | enter h hinner =>
    cases h
    exact ⟨_, hinner, rfl⟩

end MutationAnalysis.Recorder
