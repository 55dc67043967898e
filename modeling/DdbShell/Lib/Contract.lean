import DdbShell.Lib.Program
import Mathlib.Algebra.GroupWithZero.Nat

/-!
Contracts of programs: what every call satisfies, whatever the answers are,
together with what every result satisfies. The second part is what the next
program in a sequence may rely on. A bound on what the calls of a run cost in
all is a contract of its own.
-/

namespace Program

variable {Op : Type} {Answer : Op → Type} {α β : Type} {P : Op → Prop}

def Ensures (P : Op → Prop) (Q : α → Prop) : Program Op Answer α → Prop
  | .done a => Q a
  | .call op next => P op ∧ ∀ answer, (next answer).Ensures P Q

namespace Ensures

variable {Q R : α → Prop} {p : Program Op Answer α}

theorem mono (hp : p.Ensures P Q) (h : ∀ a, Q a → R a) : p.Ensures P R := by
  induction p with
  | done a => exact h a hp
  | call op next ih => exact ⟨hp.1, fun answer => ih answer (hp.2 answer)⟩

theorem bind {S : β → Prop} {f : α → Program Op Answer β} (hp : p.Ensures P Q)
    (hf : ∀ a, Q a → (f a).Ensures P S) : (p >>= f).Ensures P S := by
  induction p with
  | done a => exact hf a hp
  | call op next ih => exact ⟨hp.1, fun answer => ih answer (hp.2 answer)⟩

theorem always (hp : p.Ensures P Q) : p.Always P := by
  induction p with
  | done a => trivial
  | call op next ih => exact ⟨hp.1, fun answer => ih answer (hp.2 answer)⟩

end Ensures

theorem Always.ensures {p : Program Op Answer α} (hp : p.Always P) :
    p.Ensures P fun _ => True := by
  induction p with
  | done a => trivial
  | call op next ih => exact ⟨hp.1, fun answer => ih answer (hp.2 answer)⟩

/-! ### What the calls cost -/

/-- The calls of a run cost no more than the budget, whatever the answers are. -/
def AtMost (cost : Op → Nat) : Nat → Program Op Answer α → Prop
  | _, .done _ => True
  | budget, .call op next =>
      ∃ rest, cost op + rest ≤ budget ∧ ∀ answer, (next answer).AtMost cost rest

namespace AtMost

variable {cost : Op → Nat} {m n : Nat} {p : Program Op Answer α}

theorem mono (hp : p.AtMost cost m) (h : m ≤ n) : p.AtMost cost n := by
  cases p with
  | done a => trivial
  | call op next =>
      obtain ⟨rest, hrest, hnext⟩ := hp
      exact ⟨rest, Nat.le_trans hrest h, hnext⟩

theorem bind {f : α → Program Op Answer β} (hp : p.AtMost cost m)
    (hf : ∀ a, (f a).AtMost cost n) : (p >>= f).AtMost cost (m + n) := by
  induction p generalizing m with
  | done a => exact (hf a).mono (Nat.le_add_left n m)
  | call op next ih =>
      obtain ⟨rest, hrest, hnext⟩ := hp
      exact ⟨rest + n, by omega, fun answer => ih answer (hnext answer)⟩

/-- A run stays within the budget. -/
theorem runs {events : List (Event Op Answer)} {a : α} (hp : p.AtMost cost n)
    (h : Runs p events a) : (events.map fun event => cost event.op).sum ≤ n := by
  induction h generalizing n with
  | done a => exact Nat.zero_le n
  | @call op next answer events a run ih =>
      obtain ⟨rest, hrest, hnext⟩ := hp
      have hevents := ih (hnext answer)
      rw [List.map_cons, List.sum_cons]
      exact Nat.le_trans (Nat.add_le_add_left hevents (cost op)) hrest

end AtMost

/-- Calls that are free need no budget. -/
theorem Always.atMost {cost : Op → Nat} {p : Program Op Answer α}
    (hp : p.Always fun op => cost op = 0) (n : Nat) : p.AtMost cost n := by
  induction p generalizing n with
  | done a => trivial
  | call op next ih =>
      have hfree : cost op = 0 := hp.1
      exact ⟨n, by omega, fun answer => ih answer (hp.2 answer) n⟩

/-! ### Against an answerer -/

/-- What every permitted call keeps of the answerer's state, a whole run keeps. -/
theorem Always.runWith_keeps {σ : Type} {reply : σ → (op : Op) → Answer op × σ} {I : σ → Prop}
    (hreply : ∀ s op, P op → I s → I (reply s op).2) {p : Program Op Answer α}
    (hp : p.Always P) {s : σ} (hs : I s) : I (p.runWith reply s).2.2 := by
  induction p generalizing s with
  | done a => exact hs
  | call op next ih => exact ih _ (hp.2 _) (hreply s op hp.1 hs)

end Program
