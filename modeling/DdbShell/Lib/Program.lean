import Mathlib.Tactic.Common

/-!
Programs that call operations and go on with the answers. A program says
nothing about who answers: `Always` is what holds of every call whatever the
answers are, `Runs` relates a program to the events of one finished run, and
`runWith` plays it against a given answerer.
-/

inductive Program (Op : Type) (Answer : Op → Type) (α : Type) where
  | done (a : α)
  | call (op : Op) (next : Answer op → Program Op Answer α)

namespace Program

variable {Op : Type} {Answer : Op → Type} {α β γ : Type}

def bind : Program Op Answer α → (α → Program Op Answer β) → Program Op Answer β
  | .done a, f => f a
  | .call op next, f => .call op fun answer => (next answer).bind f

instance : Monad (Program Op Answer) where
  pure := .done
  bind := bind

theorem bind_eq (p : Program Op Answer α) (f : α → Program Op Answer β) :
    (p >>= f) = p.bind f := rfl

@[simp] theorem pure_eq (a : α) : (pure a : Program Op Answer α) = .done a := rfl

@[simp] theorem done_bind (a : α) (f : α → Program Op Answer β) : (.done a >>= f) = f a := rfl

@[simp] theorem call_bind (op : Op) (next : Answer op → Program Op Answer α)
    (f : α → Program Op Answer β) :
    (.call op next >>= f) = .call op fun answer => next answer >>= f := rfl

@[simp] theorem bind_done (p : Program Op Answer α) : (p >>= .done) = p := by
  induction p with
  | done a => rfl
  | call op next ih =>
      rw [call_bind]
      congr 1
      funext answer
      exact ih answer

theorem bind_assoc (p : Program Op Answer α) (f : α → Program Op Answer β)
    (g : β → Program Op Answer γ) : (p >>= f >>= g) = p >>= fun a => f a >>= g := by
  induction p with
  | done a => rfl
  | call op next ih =>
      simp only [call_bind]
      congr 1
      funext answer
      exact ih answer

/-! ### Whatever the answers are -/

/-- Every call the program can ever make satisfies `P`. -/
def Always (P : Op → Prop) : Program Op Answer α → Prop
  | .done _ => True
  | .call op next => P op ∧ ∀ answer, (next answer).Always P

@[simp] theorem always_done (P : Op → Prop) (a : α) :
    (.done a : Program Op Answer α).Always P := trivial

theorem Always.mono {P Q : Op → Prop} {p : Program Op Answer α} (hp : p.Always P)
    (h : ∀ op, P op → Q op) : p.Always Q := by
  induction p with
  | done a => trivial
  | call op next ih => exact ⟨h op hp.1, fun answer => ih answer (hp.2 answer)⟩

theorem Always.bind {P : Op → Prop} {p : Program Op Answer α} {f : α → Program Op Answer β}
    (hp : p.Always P) (hf : ∀ a, (f a).Always P) : (p >>= f).Always P := by
  induction p with
  | done a => exact hf a
  | call op next ih => exact ⟨hp.1, fun answer => ih answer (hp.2 answer)⟩

theorem Always.of_bind {P : Op → Prop} {p : Program Op Answer α} {f : α → Program Op Answer β}
    (h : (p >>= f).Always P) : p.Always P := by
  induction p with
  | done a => exact always_done P a
  | call op next ih => exact ⟨h.1, fun answer => ih answer (h.2 answer)⟩

/-! ### Finished runs -/

/-- A call and its answer. -/
structure Event (Op : Type) (Answer : Op → Type) where
  op : Op
  answer : Answer op

inductive Runs : Program Op Answer α → List (Event Op Answer) → α → Prop where
  | done (a : α) : Runs (.done a) [] a
  | call {op : Op} {next : Answer op → Program Op Answer α} {answer : Answer op}
      {events : List (Event Op Answer)} {a : α} (rest : Runs (next answer) events a) :
      Runs (.call op next) (⟨op, answer⟩ :: events) a

theorem runs_done {a b : α} {events : List (Event Op Answer)}
    (h : Runs (.done a) events b) : events = [] ∧ b = a := by
  cases h
  exact ⟨rfl, rfl⟩

theorem runs_call {op : Op} {next : Answer op → Program Op Answer α}
    {events : List (Event Op Answer)} {a : α} (h : Runs (.call op next) events a) :
    ∃ answer rest, events = ⟨op, answer⟩ :: rest ∧ Runs (next answer) rest a := by
  cases h with
  | call rest => exact ⟨_, _, rfl, rest⟩

/-- A run of a sequence is a run of its first part and then one of its rest. -/
theorem runs_bind {p : Program Op Answer α} {f : α → Program Op Answer β}
    {events : List (Event Op Answer)} {b : β} (h : Runs (p >>= f) events b) :
    ∃ before a after, events = before ++ after ∧ Runs p before a ∧ Runs (f a) after b := by
  induction p generalizing events with
  | done a => exact ⟨[], a, events, rfl, .done a, h⟩
  | call op next ih =>
      obtain ⟨answer, rest, rfl, hrest⟩ := runs_call h
      obtain ⟨before, a, after, rfl, hp, hf⟩ := ih answer hrest
      exact ⟨⟨op, answer⟩ :: before, a, after, rfl, .call hp, hf⟩

/-- A run of the first part and then one of the rest. -/
theorem Runs.bind {p : Program Op Answer α} {f : α → Program Op Answer β}
    {before after : List (Event Op Answer)} {a : α} {b : β} (hp : Runs p before a)
    (hf : Runs (f a) after b) : Runs (p >>= f) (before ++ after) b := by
  induction hp with
  | done a => exact hf
  | call rest ih => exact .call (ih hf)

theorem Always.runs {P : Op → Prop} {p : Program Op Answer α} {events : List (Event Op Answer)}
    {a : α} (hp : p.Always P) (h : Runs p events a) : ∀ event ∈ events, P event.op := by
  induction h with
  | done a =>
      intro event hevent
      cases hevent
  | call rest ih =>
      intro event hevent
      rcases List.mem_cons.mp hevent with rfl | hevent
      · exact hp.1
      · exact ih (hp.2 _) event hevent

/-! ### Against an answerer -/

section Answerer

variable {σ : Type} (reply : σ → (op : Op) → Answer op × σ)

/-- Play a program: its events, its result and the answerer's last state. -/
def runWith : Program Op Answer α → σ → List (Event Op Answer) × α × σ
  | .done a, s => ([], a, s)
  | .call op next, s =>
      let (answer, s') := reply s op
      let (events, result) := (next answer).runWith s'
      (⟨op, answer⟩ :: events, result)

@[simp] theorem runWith_done (a : α) (s : σ) :
    (.done a : Program Op Answer α).runWith reply s = ([], a, s) := rfl

theorem runWith_call (op : Op) (next : Answer op → Program Op Answer α) (s : σ) :
    (Program.call op next).runWith reply s =
      (⟨op, (reply s op).1⟩ :: ((next (reply s op).1).runWith reply (reply s op).2).1,
        ((next (reply s op).1).runWith reply (reply s op).2).2) := rfl

theorem runWith_bind (p : Program Op Answer α) (f : α → Program Op Answer β) (s : σ) :
    (p >>= f).runWith reply s =
      ((p.runWith reply s).1 ++
          ((f (p.runWith reply s).2.1).runWith reply (p.runWith reply s).2.2).1,
        ((f (p.runWith reply s).2.1).runWith reply (p.runWith reply s).2.2).2) := by
  induction p generalizing s with
  | done a => rfl
  | call op next ih =>
      rw [call_bind, runWith_call, runWith_call, ih]
      rfl

theorem runs_runWith (p : Program Op Answer α) (s : σ) :
    Runs p (p.runWith reply s).1 (p.runWith reply s).2.1 := by
  induction p generalizing s with
  | done a => exact .done a
  | call op next ih => exact .call (ih _ _)

end Answerer

/-- Two answerers that agree on the calls of a program play it alike. -/
theorem runWith_agree {σ τ : Type} {reply : σ → (op : Op) → Answer op × σ}
    {reply' : τ → (op : Op) → Answer op × τ} {P : Op → Prop} {R : σ → τ → Prop}
    {p : Program Op Answer α} (hp : p.Always P)
    (hreply : ∀ s t op, P op → R s t →
      (reply s op).1 = (reply' t op).1 ∧ R (reply s op).2 (reply' t op).2)
    {s : σ} {t : τ} (hst : R s t) :
    (p.runWith reply s).1 = (p.runWith reply' t).1 ∧
      (p.runWith reply s).2.1 = (p.runWith reply' t).2.1 ∧
      R (p.runWith reply s).2.2 (p.runWith reply' t).2.2 := by
  induction p generalizing s t with
  | done a => exact ⟨rfl, rfl, hst⟩
  | call op next ih =>
      obtain ⟨hanswer, hstate⟩ := hreply s t op hp.1 hst
      rw [runWith_call, runWith_call, ← hanswer]
      obtain ⟨hevents, hresult, hlast⟩ := ih (reply s op).1 (hp.2 _) hstate
      exact ⟨by rw [hevents], hresult, hlast⟩

end Program
