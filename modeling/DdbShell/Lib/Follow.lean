import DdbShell.Lib.Automaton

/-!
What can come after a symbol. `follow` lists the tokens that can come after a
nonterminal, where the automaton depends on it. That the lists are right is
checked rule by rule: behind every place of the nonterminal, what the rest of
the rule can begin with is in its list, and so is the list of the left-hand
side where the rest can be empty.
-/

namespace LR

variable {T N K : Type}

namespace Grammar

variable [DecidableEq T] [DecidableEq N] (g : Grammar T N)

def nullable (A : N) : Bool := (g.rules A).any List.isEmpty

def nullableSym : Sym T N → Bool
  | .t _ => false
  | .n A => g.nullable A

/-- Every token that the symbols can begin with is fine. A rule that begins
with its own left-hand side brings nothing new. -/
def begins (fine : T → Bool) : Nat → List (Sym T N) → Bool
  | 0, _ => false
  | _ + 1, [] => true
  | _ + 1, .t t :: _ => fine t
  | n + 1, .n A :: rest =>
      ((g.rules A).all fun rhs =>
        (rhs.head? = some (.n A) && !g.nullable A) || begins fine n rhs) &&
        (!g.nullable A || begins fine n rest)

variable (follow : N → Option (List T))

def mayFollow (A : N) (t : T) : Bool :=
  match follow A with
  | none => true
  | some list => t ∈ list

/-- The lists are right behind the places of one right-hand side. -/
def followsIn (depth : Nat) (lhs : N) : List (Sym T N) → Bool
  | [] => true
  | .t _ :: rest => followsIn depth lhs rest
  | .n A :: rest =>
      (match follow A with
        | none => true
        | some list =>
            g.begins (fun t => t ∈ list) depth rest &&
              (!rest.all g.nullableSym ||
                match follow lhs with
                | none => false
                | some above => above.all fun t => t ∈ list)) &&
        followsIn depth lhs rest

/-- The lists are right. -/
structure Follows (depth : Nat) : Prop where
  nullable : ∀ A, ∀ rhs ∈ g.rules A, rhs.all g.nullableSym = true → g.nullable A = true
  inside : ∀ A, ∀ rhs ∈ g.rules A, g.followsIn follow depth A rhs = true

end Grammar

/-- The token after some trees, if it is in what comes next. -/
def ahead (kind : K → T) (trees : List (Tree K N)) (next : Option T) : Option T :=
  match Tree.yieldAll trees with
  | k :: _ => some (kind k)
  | [] => next

section Valid

variable [DecidableEq T] [DecidableEq N] {g : Grammar T N} {kind : K → T}

omit [DecidableEq T] [DecidableEq N] in
/-- What has an empty yield is nullable. -/
theorem nullable_of_yield
    (hnull : ∀ A, ∀ rhs ∈ g.rules A, rhs.all g.nullableSym = true → g.nullable A = true)
    {tree : Tree K N} (hvalid : tree.Valid kind g) (hyield : tree.yield = []) :
    g.nullableSym (tree.symbol kind) = true := by
  induction hvalid with
  | leaf k => cases hyield
  | @node A children hrule hchildren ih =>
      rw [Tree.yield] at hyield
      refine hnull A _ hrule (List.all_eq_true.mpr ?_)
      intro X hX
      obtain ⟨tree, htree, rfl⟩ := List.mem_map.mp hX
      refine ih tree htree ?_
      obtain ⟨before, after, rfl⟩ := List.append_of_mem htree
      rw [Tree.yieldAll_append, Tree.yieldAll] at hyield
      exact (List.append_eq_nil_iff.mp (List.append_eq_nil_iff.mp hyield).2).1

omit [DecidableEq T] [DecidableEq N] in
theorem nullable_of_yieldAll
    (hnull : ∀ A, ∀ rhs ∈ g.rules A, rhs.all g.nullableSym = true → g.nullable A = true)
    {trees : List (Tree K N)} (hvalid : ∀ tree ∈ trees, tree.Valid kind g)
    (hyield : Tree.yieldAll trees = []) :
    (trees.map (Tree.symbol kind)).all g.nullableSym = true := by
  induction trees with
  | nil => rfl
  | cons tree trees ih =>
      rw [Tree.yieldAll, List.append_eq_nil_iff] at hyield
      rw [List.map_cons, List.all_cons, Bool.and_eq_true]
      exact ⟨nullable_of_yield hnull (hvalid tree List.mem_cons_self) hyield.1,
        ih (fun t ht => hvalid t (List.mem_cons_of_mem tree ht)) hyield.2⟩

/-- The first token of derivations of the symbols is one they can begin with. -/
theorem begins_fine
    (hnull : ∀ A, ∀ rhs ∈ g.rules A, rhs.all g.nullableSym = true → g.nullable A = true)
    {fine : T → Bool} (n : Nat) {trees : List (Tree K N)}
    (hvalid : ∀ tree ∈ trees, tree.Valid kind g)
    (hbegins : g.begins fine n (trees.map (Tree.symbol kind)) = true) {k : K} {ks : List K}
    (hyield : Tree.yieldAll trees = k :: ks) : fine (kind k) = true := by
  induction n generalizing trees ks with
  | zero => cases hbegins
  | succ n ih =>
      cases trees with
      | nil => cases hyield
      | cons tree trees =>
          have htree := hvalid tree List.mem_cons_self
          have htrees := fun t ht => hvalid t (List.mem_cons_of_mem tree ht)
          rw [Tree.yieldAll] at hyield
          -- the token is the first one of the first tree, or that tree is empty
          by_cases hempty : tree.yield = []
          · rw [hempty, List.nil_append] at hyield
            have hnullable := nullable_of_yield hnull htree hempty
            cases tree with
            | leaf k => cases hempty
            | node A children =>
                rw [List.map_cons, Tree.symbol, Grammar.begins, Bool.and_eq_true] at hbegins
                rw [Tree.symbol, Grammar.nullableSym] at hnullable
                rw [hnullable, Bool.not_true, Bool.false_or] at hbegins
                exact ih htrees hbegins.2 hyield
          · obtain ⟨first, others, hfirst⟩ := List.exists_cons_of_ne_nil hempty
            rw [hfirst] at hyield
            obtain ⟨rfl, -⟩ := List.cons.inj hyield
            clear hyield hempty
            induction htree generalizing others with
            | leaf k =>
                obtain ⟨rfl, -⟩ := List.cons.inj hfirst
                exact hbegins
            | @node A children hrule hchildren ihtree =>
                have hrules := hbegins
                rw [List.map_cons, Tree.symbol, Grammar.begins, Bool.and_eq_true] at hrules
                have hrhs := List.all_eq_true.mp hrules.1 _ hrule
                rw [Bool.or_eq_true, Bool.and_eq_true] at hrhs
                rw [Tree.yield] at hfirst
                rcases hrhs with ⟨hhead, hnot⟩ | hrhs
                · -- a rule that begins with its own left-hand side
                  cases children with
                  | nil => cases of_decide_eq_true hhead
                  | cons child children =>
                      have hsymbol : child.symbol kind = .n A := by
                        simpa using of_decide_eq_true hhead
                      rw [Tree.yieldAll] at hfirst
                      have hchild : child.yield ≠ [] := by
                        intro hchild
                        have := nullable_of_yield hnull (hchildren child List.mem_cons_self) hchild
                        rw [hsymbol, Grammar.nullableSym] at this
                        rw [this] at hnot
                        cases hnot
                      obtain ⟨x, xs, hx⟩ := List.exists_cons_of_ne_nil hchild
                      rw [hx] at hfirst
                      obtain ⟨rfl, -⟩ := List.cons.inj hfirst
                      refine ihtree child List.mem_cons_self ?_ ?_ xs hx
                      · intro t ht
                        rcases List.mem_cons.mp ht with rfl | ht
                        · exact hchildren t List.mem_cons_self
                        · exact htrees t ht
                      · rw [List.map_cons, hsymbol]
                        exact hbegins
                · exact ih hchildren hrhs hfirst

theorem followsIn_tail {follow : N → Option (List T)} {depth : Nat} {lhs : N} {X : Sym T N}
    {rest : List (Sym T N)} (h : g.followsIn follow depth lhs (X :: rest) = true) :
    g.followsIn follow depth lhs rest = true := by
  cases X with
  | t t =>
      rw [Grammar.followsIn] at h
      exact h
  | n A =>
      rw [Grammar.followsIn, Bool.and_eq_true] at h
      exact h.2

/-- What comes after a tree of one symbol can follow it. -/
theorem ahead_mayFollow {follow : N → Option (List T)} {depth : Nat}
    (hfollows : g.Follows follow depth) {lhs A : N} {rest : List (Tree K N)} {next : Option T}
    (hinside : g.followsIn follow depth lhs (.n A :: rest.map (Tree.symbol kind)) = true)
    (hvalid : ∀ tree ∈ rest, tree.Valid kind g)
    (hnext : (∀ X ∈ (Sym.n A :: rest.map (Tree.symbol kind)).getLast?, ∃ t, X = .t t) ∨
      ∀ t ∈ next, Grammar.mayFollow follow lhs t = true) :
    ∀ t ∈ ahead kind rest next, Grammar.mayFollow follow A t = true := by
  intro t ht
  rw [Grammar.followsIn, Bool.and_eq_true] at hinside
  unfold Grammar.mayFollow
  cases hA : follow A with
  | none => rfl
  | some list =>
      rw [hA] at hinside
      simp only [Bool.and_eq_true] at hinside
      obtain ⟨⟨hbegins, habove⟩, -⟩ := hinside
      unfold ahead at ht
      split at ht
      · rename_i k ks hyield
        obtain rfl := Option.some.inj ht
        exact begins_fine hfollows.nullable depth hvalid hbegins hyield
      · rename_i hyield
        have hall := nullable_of_yieldAll hfollows.nullable hvalid hyield
        rw [hall, Bool.not_true, Bool.false_or] at habove
        rcases hnext with hlast | hnext
        · -- the last symbol is no terminal
          exfalso
          have hmem := List.getLast_mem (List.cons_ne_nil (Sym.n A) (rest.map (Tree.symbol kind)))
          obtain ⟨u, hu⟩ := hlast _ (List.getLast?_eq_some_getLast (List.cons_ne_nil _ _))
          rw [hu] at hmem
          rcases List.mem_cons.mp hmem with h | h
          · cases h
          · cases List.all_eq_true.mp hall _ h
        · have hlhs := hnext t ht
          unfold Grammar.mayFollow at hlhs
          cases hfollow : follow lhs with
          | none =>
              rw [hfollow] at habove
              cases habove
          | some above =>
              rw [hfollow] at habove hlhs
              exact List.all_eq_true.mp habove t (of_decide_eq_true hlhs)

end Valid

end LR
