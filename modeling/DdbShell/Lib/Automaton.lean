import DdbShell.Lib.LR
import Mathlib.Algebra.GroupWithZero.Nat

/-!
All states of an automaton at once. A grammar's closures are closed, given that
its bound counts the alternatives. `explore` visits the states reachable from
the first one; they are kept in a trie under a number made of the state, so
that a search compares only few of them. What it finds of each state it visits
holds of the state over any symbols.
-/

namespace LR

variable {T N : Type}

/-! ### Closures are closed -/

/-- The bound of a grammar counts the alternatives of its nonterminals. -/
structure Grammar.Sized (g : Grammar T N) (nonterminals : List N) : Prop where
  all : ∀ A, A ∈ nonterminals
  size : (nonterminals.map fun A => (g.rules A).length).sum ≤ g.size

section Closed

variable [DecidableEq N] (g : Grammar T N)

/-- The alternatives not yet added to a closure. -/
def Grammar.unseen (seen nonterminals : List N) : Nat :=
  (nonterminals.map fun A => if A ∈ seen then 0 else (g.rules A).length).sum

theorem unseen_cons_le (A : N) (seen nonterminals : List N) :
    g.unseen (A :: seen) nonterminals ≤ g.unseen seen nonterminals := by
  induction nonterminals with
  | nil => exact Nat.le_refl _
  | cons B nonterminals ih =>
      simp only [Grammar.unseen, List.map_cons, List.sum_cons, List.mem_cons] at ih ⊢
      split <;> split <;> (simp_all; try omega)

theorem unseen_cons {A : N} {seen nonterminals : List N} (hseen : A ∉ seen)
    (hA : A ∈ nonterminals) :
    (g.rules A).length + g.unseen (A :: seen) nonterminals ≤ g.unseen seen nonterminals := by
  induction nonterminals with
  | nil => cases hA
  | cons B nonterminals ih =>
      have hle := unseen_cons_le g A seen nonterminals
      simp only [Grammar.unseen, List.map_cons, List.sum_cons] at ih hle ⊢
      by_cases hBA : B = A
      · subst hBA
        rw [if_pos List.mem_cons_self, if_neg hseen]
        omega
      · have hmem : B ∈ A :: seen ↔ B ∈ seen := by simp [hBA]
        have htail := ih ((List.mem_cons.mp hA).resolve_left (Ne.symm hBA))
        simp only [hmem]
        omega

variable {g}

/-- With enough fuel the nonterminals of a closure are closed under the heads
of their rules. -/
theorem reach_closed {nonterminals : List N} (hall : ∀ A, A ∈ nonterminals) (fuel : Nat)
    (pending seen : List N) (hfuel : pending.length + g.unseen seen nonterminals ≤ fuel)
    (hinv : ∀ A ∈ seen, ∀ rhs ∈ g.rules A, ∀ B, headNonterminal rhs = some B →
      B ∈ seen ∨ B ∈ pending) :
    (∀ A ∈ seen, A ∈ g.reach fuel pending seen) ∧
      (∀ A ∈ pending, A ∈ g.reach fuel pending seen) ∧
      ∀ A ∈ g.reach fuel pending seen, ∀ rhs ∈ g.rules A, ∀ B,
        headNonterminal rhs = some B → B ∈ g.reach fuel pending seen := by
  -- with nothing pending, what has been seen is closed
  have hdone : pending = [] → ∀ A ∈ seen, ∀ rhs ∈ g.rules A, ∀ B,
      headNonterminal rhs = some B → B ∈ seen := by
    rintro rfl A hA rhs hrhs B hB
    exact (hinv A hA rhs hrhs B hB).resolve_right List.not_mem_nil
  induction fuel generalizing pending seen with
  | zero =>
      have hempty : pending = [] := List.length_eq_zero_iff.mp (by omega)
      refine ⟨fun A hA => hA, ?_, hdone hempty⟩
      rw [hempty]
      exact fun A hA => absurd hA List.not_mem_nil
  | succ fuel ih =>
      cases pending with
      | nil => exact ⟨fun A hA => hA, fun A hA => absurd hA List.not_mem_nil, hdone rfl⟩
      | cons A pending =>
          rw [List.length_cons] at hfuel
          rw [Grammar.reach]
          split
          · rename_i hseen
            have hinv' : ∀ B ∈ seen, ∀ rhs ∈ g.rules B, ∀ C, headNonterminal rhs = some C →
                C ∈ seen ∨ C ∈ pending := by
              intro B hB rhs hrhs C hC
              rcases hinv B hB rhs hrhs C hC with h | h
              · exact .inl h
              · rcases List.mem_cons.mp h with rfl | h
                · exact .inl hseen
                · exact .inr h
            obtain ⟨hold, hpending, hclosed⟩ := ih pending seen (by omega) hinv' (by
              rintro rfl B hB rhs hrhs C hC
              exact (hinv' B hB rhs hrhs C hC).resolve_right List.not_mem_nil)
            refine ⟨hold, ?_, hclosed⟩
            rintro B hB
            rcases List.mem_cons.mp hB with rfl | hB
            · exact hold B hseen
            · exact hpending B hB
          · rename_i hseen
            have hweight := unseen_cons g hseen (hall A)
            have hheads : ((g.rules A).filterMap headNonterminal).length ≤ (g.rules A).length :=
              List.length_filterMap_le _ _
            have hinv' : ∀ B ∈ A :: seen, ∀ rhs ∈ g.rules B, ∀ C, headNonterminal rhs = some C →
                C ∈ A :: seen ∨ C ∈ (g.rules A).filterMap headNonterminal ++ pending := by
              intro B hB rhs hrhs C hC
              rcases List.mem_cons.mp hB with rfl | hB
              · exact .inr (List.mem_append_left _ (List.mem_filterMap.mpr ⟨rhs, hrhs, hC⟩))
              · rcases hinv B hB rhs hrhs C hC with h | h
                · exact .inl (List.mem_cons_of_mem A h)
                · rcases List.mem_cons.mp h with rfl | h
                  · exact .inl List.mem_cons_self
                  · exact .inr (List.mem_append_right _ h)
            obtain ⟨hold, hpending, hclosed⟩ := ih _ (A :: seen)
              (by rw [List.length_append]; omega) hinv' (by
                intro hnil B hB rhs hrhs C hC
                refine (hinv' B hB rhs hrhs C hC).resolve_right ?_
                rw [hnil]
                exact List.not_mem_nil)
            refine ⟨fun B hB => hold B (List.mem_cons_of_mem A hB), ?_, hclosed⟩
            intro B hB
            rcases List.mem_cons.mp hB with rfl | hB
            · exact hold B List.mem_cons_self
            · exact hpending B (List.mem_append_right _ hB)

/-- A closure has the rules of every nonterminal after a dot. -/
theorem initial_mem_closure [DecidableEq T] {nonterminals : List N}
    (hsized : g.Sized nonterminals) {kernel : List (Item T N)} {i : Item T N}
    (hi : i ∈ g.closure kernel) {B : N} (hB : headNonterminal i.rest = some B)
    {rhs : List (Sym T N)} (hrhs : rhs ∈ g.rules B) : ⟨B, [], rhs⟩ ∈ g.closure kernel := by
  obtain ⟨-, hpending, hclosed⟩ := reach_closed (g := g) hsized.all
    ((kernel.filterMap fun i => headNonterminal i.rest).length + g.size)
    (kernel.filterMap fun i => headNonterminal i.rest) [] (by
      have hzero : g.unseen [] nonterminals ≤ g.size := by
        simpa [Grammar.unseen] using hsized.size
      omega) (fun A hA => absurd hA List.not_mem_nil)
  have hreached : B ∈ g.reach ((kernel.filterMap fun i => headNonterminal i.rest).length + g.size)
      (kernel.filterMap fun i => headNonterminal i.rest) [] := by
    rcases List.mem_append.mp hi with hi | hi
    · exact hpending B (List.mem_filterMap.mpr ⟨i, hi, hB⟩)
    · obtain ⟨A, hA, hi⟩ := List.mem_flatMap.mp hi
      obtain ⟨rhs', hrhs', rfl⟩ := List.mem_map.mp hi
      exact hclosed A hA rhs' hrhs' B hB
  refine List.mem_append_right _ (List.mem_flatMap.mpr ⟨B, hreached, ?_⟩)
  exact List.mem_map.mpr ⟨rhs, hrhs, rfl⟩

end Closed

/-- A dot moves over the symbol after it. -/
theorem advance_mem_goto [DecidableEq T] [DecidableEq N] {g : Grammar T N}
    {kernel : List (Item T N)} {A : N} {done rest : List (Sym T N)} {X : Sym T N}
    (hi : ⟨A, done, X :: rest⟩ ∈ g.closure kernel) : ⟨A, X :: done, rest⟩ ∈ g.goto kernel X :=
  List.mem_filterMap.mpr ⟨_, hi, by simp [Grammar.advance]⟩

theorem mem_closure_of_mem [DecidableEq T] [DecidableEq N] {g : Grammar T N}
    {kernel : List (Item T N)} {i : Item T N} (hi : i ∈ kernel) : i ∈ g.closure kernel :=
  List.mem_append_left _ hi

/-! ### A trie of numbered entries -/

inductive Trie (α : Type) where
  | leaf (entries : List α)
  | node (even odd : Trie α)

namespace Trie

variable {α : Type}

def empty : Nat → Trie α
  | 0 => .leaf []
  | depth + 1 => .node (empty depth) (empty depth)

/-- The entries that a number may be that of. -/
def bucket : Trie α → Nat → List α
  | .leaf entries, _ => entries
  | .node even odd, n => if n % 2 = 0 then even.bucket (n / 2) else odd.bucket (n / 2)

def insert (a : α) : Trie α → Nat → Trie α
  | .leaf entries, _ => .leaf (a :: entries)
  | .node even odd, n =>
      if n % 2 = 0 then .node (even.insert a (n / 2)) odd else .node even (odd.insert a (n / 2))

theorem bucket_empty (depth n : Nat) : (empty depth : Trie α).bucket n = [] := by
  induction depth generalizing n with
  | zero => rfl
  | succ depth ih =>
      rw [empty, bucket]
      split <;> exact ih _

theorem mem_bucket_insert_self (a : α) (t : Trie α) (n : Nat) : a ∈ (t.insert a n).bucket n := by
  induction t generalizing n with
  | leaf entries => exact List.mem_cons_self
  | node even odd iheven ihodd =>
      rw [insert]
      split
      · rename_i hn
        rw [bucket, if_pos hn]
        exact iheven _
      · rename_i hn
        rw [bucket, if_neg hn]
        exact ihodd _

theorem mem_bucket_insert {a b : α} {t : Trie α} {n m : Nat} (h : b ∈ t.bucket m) :
    b ∈ (t.insert a n).bucket m := by
  induction t generalizing n m with
  | leaf entries => exact List.mem_cons_of_mem a h
  | node even odd iheven ihodd =>
      rw [bucket] at h
      rw [insert]
      split <;> rw [bucket] <;> split <;> simp_all

theorem mem_of_mem_bucket_insert {a b : α} {t : Trie α} {n m : Nat}
    (h : b ∈ (t.insert a n).bucket m) : b = a ∨ b ∈ t.bucket m := by
  induction t generalizing n m with
  | leaf entries => exact List.mem_cons.mp h
  | node even odd iheven ihodd =>
      rw [insert] at h
      rw [bucket]
      split at h
      · rw [bucket] at h
        split
        · rename_i hm
          rw [if_pos hm] at h
          exact iheven h
        · rename_i hm
          rw [if_neg hm] at h
          exact .inr h
      · rw [bucket] at h
        split
        · rename_i hm
          rw [if_pos hm] at h
          exact .inr h
        · rename_i hm
          rw [if_neg hm] at h
          exact ihodd h

end Trie

/-! ### Visiting the states -/

section Explore

variable [DecidableEq T] [DecidableEq N] (g : Grammar T N) (code : List (Item T N) → Nat)
  (check : List (Item T N) → Bool)

/-- The states a state goes to, from its items. -/
def successors (items : List (Item T N)) : List (List (Item T N)) :=
  items.filterMap fun i => i.rest.head?.map fun X => items.filterMap (Grammar.advance X)

/-- Visit the states to do and those reachable from them, and check the items
of each one that has not been seen. -/
def Grammar.explore : Nat → List (List (Item T N)) → Trie (List (Item T N)) → Bool
  | _, [], _ => true
  | 0, _ :: _, _ => false
  | n + 1, q :: todo, seen =>
      if q ∈ seen.bucket (code q) then explore n todo seen
      else check (g.closure q) &&
        explore n (successors (g.closure q) ++ todo) (seen.insert q (code q))

/-- Every state that has been seen is good, and where it goes has been seen or
is still to be done. -/
def Grammar.Visited (todo : List (List (Item T N))) (seen : Trie (List (Item T N))) : Prop :=
  ∀ n, ∀ q ∈ seen.bucket n, check (g.closure q) = true ∧
    ∀ X, g.goto q X = [] ∨ g.goto q X ∈ todo ∨ g.goto q X ∈ seen.bucket (code (g.goto q X))

variable {g code check}

theorem goto_mem_successors (q : List (Item T N)) (X : Sym T N) :
    g.goto q X = [] ∨ g.goto q X ∈ successors (g.closure q) := by
  rcases List.eq_nil_or_concat (g.goto q X) with hnil | ⟨front, last, hlast⟩
  · exact .inl hnil
  · -- some item of the closure has the symbol after its dot
    have hmem : last ∈ g.goto q X := by simp [hlast]
    obtain ⟨i, hi, hadvance⟩ := List.mem_filterMap.mp hmem
    refine .inr (List.mem_filterMap.mpr ⟨i, hi, ?_⟩)
    unfold Grammar.advance at hadvance
    split at hadvance
    · rename_i Y rest hrest
      split at hadvance
      · rename_i hYX
        rw [hrest, hYX]
        rfl
      · cases hadvance
    · cases hadvance

theorem explore_visits (n : Nat) (todo : List (List (Item T N))) (seen : Trie (List (Item T N)))
    (h : g.explore code check n todo seen = true) (hinv : g.Visited code check todo seen) :
    ∃ all, g.Visited code check [] all ∧ (∀ q ∈ todo, q ∈ all.bucket (code q)) ∧
      ∀ m, ∀ q ∈ seen.bucket m, q ∈ all.bucket m := by
  induction n generalizing todo seen with
  | zero =>
      cases todo with
      | nil => exact ⟨seen, hinv, fun q hq => absurd hq List.not_mem_nil, fun m q hq => hq⟩
      | cons q todo => cases h
  | succ n ih =>
      cases todo with
      | nil => exact ⟨seen, hinv, fun q hq => absurd hq List.not_mem_nil, fun m q hq => hq⟩
      | cons q todo =>
          rw [Grammar.explore] at h
          split at h
          · rename_i hq
            have hinv' : g.Visited code check todo seen := by
              intro m p hp
              obtain ⟨hcheck, hgoto⟩ := hinv m p hp
              refine ⟨hcheck, fun X => ?_⟩
              rcases hgoto X with h | h | h
              · exact .inl h
              · rcases List.mem_cons.mp h with h | h
                · rw [h]
                  exact .inr (.inr hq)
                · exact .inr (.inl h)
              · exact .inr (.inr h)
            obtain ⟨all, hall, htodo, hseen⟩ := ih todo seen h hinv'
            refine ⟨all, hall, ?_, hseen⟩
            intro p hp
            rcases List.mem_cons.mp hp with rfl | hp
            · exact hseen _ _ hq
            · exact htodo p hp
          · obtain ⟨hcheck, h⟩ := Bool.and_eq_true_iff.mp h
            have hinv' : g.Visited code check (successors (g.closure q) ++ todo)
                (seen.insert q (code q)) := by
              intro m p hp
              rcases Trie.mem_of_mem_bucket_insert hp with rfl | hp
              · refine ⟨hcheck, fun X => ?_⟩
                rcases goto_mem_successors p X with h | h
                · exact .inl h
                · exact .inr (.inl (List.mem_append_left _ h))
              · obtain ⟨hgood, hgoto⟩ := hinv m p hp
                refine ⟨hgood, fun X => ?_⟩
                rcases hgoto X with h | h | h
                · exact .inl h
                · rcases List.mem_cons.mp h with h | h
                  · rw [h]
                    exact .inr (.inr (Trie.mem_bucket_insert_self _ _ _))
                  · exact .inr (.inl (List.mem_append_right _ h))
                · exact .inr (.inr (Trie.mem_bucket_insert h))
            obtain ⟨all, hall, htodo, hseen⟩ := ih _ _ h hinv'
            refine ⟨all, hall, ?_, fun m p hp => hseen m p (Trie.mem_bucket_insert hp)⟩
            intro p hp
            rcases List.mem_cons.mp hp with rfl | hp
            · exact hseen _ _ (Trie.mem_bucket_insert_self _ _ _)
            · exact htodo p (List.mem_append_right _ hp)

/-- What holds of the states that are found holds of the state over any
symbols. -/
theorem forall_stateOf {n depth : Nat}
    (h : g.explore code check n [g.initial g.start, []] (Trie.empty depth) = true)
    (symbols : List (Sym T N)) : check (g.closure (g.stateOf symbols)) = true := by
  obtain ⟨all, hall, htodo, -⟩ := explore_visits n _ _ h (by
    intro m q hq
    rw [Trie.bucket_empty] at hq
    cases hq)
  have hmem : g.stateOf symbols ∈ all.bucket (code (g.stateOf symbols)) := by
    induction symbols with
    | nil => exact htodo _ (by simp [Grammar.stateOf])
    | cons X below ih =>
        rcases (hall _ _ ih).2 X with h | h | h
        · rw [Grammar.stateOf, h]
          exact htodo [] (by simp)
        · cases h
        · exact h
  exact (hall _ _ hmem).1

end Explore

end LR
