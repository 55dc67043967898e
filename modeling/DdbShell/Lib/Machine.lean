import Mathlib.Tactic.Common

/-!
Machines that answer one call at a time, and when one machine can stand for
another: their states are related by something that every call keeps and
under which both give the same answer.
-/

/-- A state changed by calls, each with an answer. -/
structure Machine (Call Answer State : Type) where
  step : State → Call → Answer × State

namespace Machine

variable {Call Answer State Abstract : Type}

/-- The answers to a sequence of calls, and the state after it. -/
def run (m : Machine Call Answer State) : State → List Call → List Answer × State
  | s, [] => ([], s)
  | s, call :: calls =>
      let (answer, s') := m.step s call
      let (answers, last) := m.run s' calls
      (answer :: answers, last)

variable (m : Machine Call Answer State)

@[simp] theorem run_nil (s : State) : m.run s [] = ([], s) := rfl

theorem run_cons (s : State) (call : Call) (calls : List Call) :
    m.run s (call :: calls) =
      ((m.step s call).1 :: (m.run (m.step s call).2 calls).1,
        (m.run (m.step s call).2 calls).2) := rfl

theorem run_append (s : State) (calls calls' : List Call) :
    m.run s (calls ++ calls') =
      ((m.run s calls).1 ++ (m.run (m.run s calls).2 calls').1,
        (m.run (m.run s calls).2 calls').2) := by
  induction calls generalizing s with
  | nil => rfl
  | cons call calls ih =>
      rw [List.cons_append, run_cons, run_cons, ih]
      rfl

/-- Every step of the one is matched by a step of the other. -/
def Refines (m : Machine Call Answer State) (spec : Machine Call Answer Abstract)
    (R : State → Abstract → Prop) : Prop :=
  ∀ s a call, R s a → (m.step s call).1 = (spec.step a call).1 ∧
    R (m.step s call).2 (spec.step a call).2

/-- A refinement gives the same answers to every sequence of calls. -/
theorem Refines.run {m : Machine Call Answer State} {spec : Machine Call Answer Abstract}
    {R : State → Abstract → Prop} (h : m.Refines spec R) {s : State} {a : Abstract} (hs : R s a)
    (calls : List Call) :
    (m.run s calls).1 = (spec.run a calls).1 ∧ R (m.run s calls).2 (spec.run a calls).2 := by
  induction calls generalizing s a with
  | nil => exact ⟨rfl, hs⟩
  | cons call calls ih =>
      obtain ⟨hanswer, hnext⟩ := h s a call hs
      obtain ⟨hanswers, hlast⟩ := ih hnext
      rw [run_cons, run_cons, hanswer, hanswers]
      exact ⟨rfl, hlast⟩

end Machine
