import DdbShell.Lib.Complete
import Mathlib.Data.List.Induction

/-!
Grammars with actions. An action makes the value of a rule out of the values of
its symbols, as a parser does when it reduces. `Parses` says of some tokens
that a symbol derives them with a value, and that the precedences agree to the
derivation where it stands: over the symbols of a stack and before a token.
Derivations are put together rule by rule, so a text is parsed by naming the
rules it uses.
-/

namespace LR

variable {T N K V : Type}

/-- The values of the tokens, and what the action of a rule makes of those of
its symbols. -/
structure Actions (K N V : Type) where
  token : K → V
  rule : N → List V → V

namespace Actions

mutual

def value (a : Actions K N V) : Tree K N → V
  | .leaf token => a.token token
  | .node A children => a.rule A (a.values children)

def values (a : Actions K N V) : List (Tree K N) → List V
  | [] => []
  | tree :: trees => a.value tree :: a.values trees

end

end Actions

/-- The symbol ends a rule that has a precedence. -/
def Grammar.endsRanked [DecidableEq T] [DecidableEq N] (g : Grammar T N) (nonterminals : List N)
    (X : Sym T N) : Bool :=
  nonterminals.any fun A =>
    (g.rules A).any fun rhs => rhs.getLast? = some X && (g.rulePrec rhs).isSome

/-- Over a symbol that ends no such rule, any token is taken. -/
theorem admits_over [DecidableEq T] [DecidableEq N] {g : Grammar T N} {nonterminals : List N}
    (hall : ∀ A, A ∈ nonterminals) {X : Sym T N} (hX : g.endsRanked nonterminals X = false)
    (below : List (Sym T N)) (t : T) : g.Admits (X :: below) t := by
  intro A rhs hrhs hbelow
  have hnone : g.rulePrec rhs = none := by
    cases hlast : rhs.getLast? with
    | none =>
        rw [List.getLast?_eq_none_iff.mp hlast]
        rfl
    | some Y =>
        have hhead : rhs.reverse.head? = some Y := by rw [List.head?_reverse, hlast]
        obtain ⟨rest, hrest⟩ := List.head?_eq_some_iff.mp hhead
        rw [hrest, List.cons_prefix_cons] at hbelow
        obtain rfl : Y = X := hbelow.1
        have hA := List.any_eq_false.mp hX A (hall A)
        have hrule := List.any_eq_false.mp (Bool.eq_false_iff.mpr hA) rhs hrhs
        simpa [hlast] using hrule
  rw [Grammar.prefersReduce, hnone]

/-- The symbols below the last one in the rules that are preferred to the token
where they are complete. -/
def Grammar.blockers [DecidableEq T] [DecidableEq N] (g : Grammar T N) (nonterminals : List N)
    (X : Sym T N) (t : T) : List (Option (Sym T N)) :=
  nonterminals.flatMap fun A =>
    ((g.rules A).filter fun rhs => rhs.getLast? = some X && g.prefersReduce rhs t).map
      fun rhs => rhs.reverse.tail.head?

/-- Over a symbol that completes no rule with the one below it, the token is
taken. -/
theorem admits_of_blockers [DecidableEq T] [DecidableEq N] {g : Grammar T N}
    {nonterminals : List N} (hall : ∀ A, A ∈ nonterminals) {X : Sym T N}
    {below : List (Sym T N)} {t : T}
    (h : ∀ Y ∈ g.blockers nonterminals X t, Y ≠ none ∧ Y ≠ below.head?) :
    g.Admits (X :: below) t := by
  intro A rhs hrhs hbelow
  cases hprefers : g.prefersReduce rhs t with
  | false => rfl
  | true =>
      exfalso
      cases hreverse : rhs.reverse with
      | nil =>
          rw [List.reverse_eq_nil_iff.mp hreverse] at hprefers
          cases hprefers
      | cons Y rest =>
          rw [hreverse, List.cons_prefix_cons] at hbelow
          obtain ⟨rfl, hrest⟩ := hbelow
          have hlast : rhs.getLast? = some Y := by
            rw [← List.head?_reverse, hreverse]
            rfl
          have hmem : rest.head? ∈ g.blockers nonterminals Y t := by
            refine List.mem_flatMap.mpr ⟨A, hall A, List.mem_map.mpr ⟨rhs, ?_, ?_⟩⟩
            · exact List.mem_filter.mpr ⟨hrhs, by simp [hlast, hprefers]⟩
            · rw [hreverse, List.tail_cons]
          obtain ⟨hsome, hne⟩ := h _ hmem
          cases rest with
          | nil => exact hsome rfl
          | cons Z rest =>
              obtain ⟨later, rfl⟩ := hrest
              exact hne rfl

theorem admits_nil {g : Grammar T N} (t : T) : g.Admits [] t := by
  refine admits_of_rules fun rhs hbelow => ?_
  rw [List.reverse_eq_nil_iff.mp (List.prefix_nil.mp hbelow)]
  rfl

theorem Tree.mem_yieldAll {k : K} {trees : List (Tree K N)} :
    k ∈ Tree.yieldAll trees ↔ ∃ tree ∈ trees, k ∈ tree.yield := by
  induction trees with
  | nil => simp [Tree.yieldAll]
  | cons tree trees ih => rw [Tree.yieldAll, List.mem_append, ih]; simp

theorem Tree.yield_infix {tree : Tree K N} {trees : List (Tree K N)} (h : tree ∈ trees) :
    tree.yield <:+: Tree.yieldAll trees := by
  induction trees with
  | nil => cases h
  | cons first others ih =>
      rw [Tree.yieldAll]
      rcases List.mem_cons.mp h with rfl | h
      · exact (List.prefix_append _ _).isInfix
      · exact (ih h).trans (List.suffix_append _ _).isInfix

/-- What holds of every child and its value holds along the rule. -/
theorem forall₂_values {a : Actions K N V} {kind : K → T} {R : Sym T N → V → Prop}
    {trees : List (Tree K N)} (h : ∀ tree ∈ trees, R (tree.symbol kind) (a.value tree)) :
    List.Forall₂ R (trees.map (Tree.symbol kind)) (a.values trees) := by
  induction trees with
  | nil => exact .nil
  | cons tree trees ih =>
      exact .cons (h tree List.mem_cons_self) (ih fun t ht => h t (List.mem_cons_of_mem _ ht))

section Parses

variable (g : Grammar T N) (kind : K → T) (a : Actions K N V)

/-- The first of some tokens, or what comes behind them. -/
def firstOf (ts : List K) (next : Option T) : Option T :=
  match ts with
  | k :: _ => some (kind k)
  | [] => next

def Parses (below : List (Sym T N)) (next : Option T) (X : Sym T N) (v : V) (ts : List K) : Prop :=
  ∃ tree : Tree K N, tree.Valid kind g ∧ tree.symbol kind = X ∧ a.value tree = v ∧
    tree.yield = ts ∧ Obeys g kind below next tree

/-- Symbol by symbol, each over those before it and before the tokens of those
behind it. -/
inductive ParsesAll : List (Sym T N) → Option T → List (Sym T N) → List V → List K → Prop where
  | nil {below : List (Sym T N)} {next : Option T} : ParsesAll below next [] [] []
  | cons {below : List (Sym T N)} {next : Option T} {X : Sym T N} {v : V} {ts : List K}
      {Xs : List (Sym T N)} {vs : List V} {us : List K}
      (first : Parses g kind a below (firstOf kind us next) X v ts)
      (others : ParsesAll (X :: below) next Xs vs us) :
      ParsesAll below next (X :: Xs) (v :: vs) (ts ++ us)

/-- Wherever it stands, the symbol derives the tokens with the value. -/
def ParsesAnywhere (X : Sym T N) (v : V) (ts : List K) : Prop :=
  ∀ below next, Parses g kind a below next X v ts

variable {g kind a}

theorem ParsesAll.exists_trees {below : List (Sym T N)} {next : Option T} {Xs : List (Sym T N)}
    {vs : List V} {ts : List K} (h : ParsesAll g kind a below next Xs vs ts) :
    ∃ trees : List (Tree K N), (∀ tree ∈ trees, tree.Valid kind g) ∧
      trees.map (Tree.symbol kind) = Xs ∧ a.values trees = vs ∧ Tree.yieldAll trees = ts ∧
      ObeysAll g kind below next trees := by
  induction h with
  | nil => exact ⟨[], by simp, rfl, rfl, rfl, trivial⟩
  | cons first _ ih =>
      obtain ⟨tree, hvalid, rfl, rfl, rfl, hobeys⟩ := first
      obtain ⟨trees, hall, rfl, rfl, rfl, hothers⟩ := ih
      refine ⟨tree :: trees, ?_, rfl, rfl, rfl, hobeys, hothers⟩
      intro t ht
      rcases List.mem_cons.mp ht with rfl | ht
      · exact hvalid
      · exact hall t ht

theorem Parses.token {below : List (Sym T N)} {next : Option T} {k : K}
    (h : g.Admits below (kind k)) :
    Parses g kind a below next (.t (kind k)) (a.token k) [k] :=
  ⟨.leaf k, .leaf k, rfl, rfl, rfl, h⟩

/-- A rule, where the next token is not preferred to it. -/
theorem Parses.node {below : List (Sym T N)} {next : Option T} {A : N} {rhs : List (Sym T N)}
    {vs : List V} {ts : List K} (rule : rhs ∈ g.rules A) (hyields : ∀ t ∈ next, g.Yields rhs t)
    (h : ParsesAll g kind a below next rhs vs ts) :
    Parses g kind a below next (.n A) (a.rule A vs) ts := by
  obtain ⟨trees, hvalid, rfl, rfl, rfl, hobeys⟩ := h.exists_trees
  exact ⟨.node A trees, .node rule hvalid, rfl, rfl, rfl, hobeys, hyields⟩

/-- A rule that has no precedence. -/
theorem Parses.plain {below : List (Sym T N)} {next : Option T} {A : N} {rhs : List (Sym T N)}
    {vs : List V} {ts : List K} (rule : rhs ∈ g.rules A) (hprec : g.rulePrec rhs = none)
    (h : ParsesAll g kind a below next rhs vs ts) :
    Parses g kind a below next (.n A) (a.rule A vs) ts :=
  .node rule (fun _ _ => yields_of_rule hprec) h

namespace ParsesAll

variable {below : List (Sym T N)} {next : Option T} {X : Sym T N} {Xs : List (Sym T N)}
  {v : V} {vs : List V} {ts us : List K}

/-- A token that has no precedence. -/
theorem token {k : K} {t : T} (hkind : kind k = t) (hprec : g.prec t = none)
    (h : ParsesAll g kind a (.t t :: below) next Xs vs us) :
    ParsesAll g kind a below next (.t t :: Xs) (a.token k :: vs) (k :: us) := by
  subst hkind
  exact .cons (.token (admits_of_prec hprec)) h

theorem admitted {k : K} {t : T} (hkind : kind k = t) (hadmits : g.Admits below t)
    (h : ParsesAll g kind a (.t t :: below) next Xs vs us) :
    ParsesAll g kind a below next (.t t :: Xs) (a.token k :: vs) (k :: us) := by
  subst hkind
  exact .cons (.token hadmits) h

theorem sub (hX : ParsesAnywhere g kind a X v ts)
    (h : ParsesAll g kind a (X :: below) next Xs vs us) :
    ParsesAll g kind a below next (X :: Xs) (v :: vs) (ts ++ us) :=
  .cons (hX _ _) h

/-- The last symbol, before what comes behind all of them. -/
theorem last (hX : Parses g kind a below next X v ts) :
    ParsesAll g kind a below next [X] [v] ts := by
  have h : ParsesAll g kind a below next [X] [v] (ts ++ []) := .cons hX .nil
  rwa [List.append_nil] at h

/-- The last symbol that derives a token. -/
theorem filled (hX : Parses g kind a below next X v ts)
    (h : ParsesAll g kind a (X :: below) next Xs vs []) :
    ParsesAll g kind a below next (X :: Xs) (v :: vs) ts := by
  have hall : ParsesAll g kind a below next (X :: Xs) (v :: vs) (ts ++ []) := .cons hX h
  rwa [List.append_nil] at hall

/-- A symbol that derives no token. -/
theorem empty (hX : ParsesAnywhere g kind a X v [])
    (h : ParsesAll g kind a (X :: below) next Xs vs us) :
    ParsesAll g kind a below next (X :: Xs) (v :: vs) us :=
  .cons (hX _ _) h

end ParsesAll

/-! ### Lists that grow to the left -/

/-- The parts of a list, with a token between them. -/
def separated (comma : K) : List (List K) → List K
  | [] => []
  | ts :: rest => ts ++ rest.flatMap fun us => comma :: us

theorem separated_append_singleton (comma : K) {parts : List (List K)} (hne : parts ≠ [])
    (last : List K) :
    separated comma (parts ++ [last]) = separated comma parts ++ comma :: last := by
  obtain ⟨first, rest, rfl⟩ := List.exists_cons_of_ne_nil hne
  simp [separated]

theorem mem_separated {comma k : K} {parts : List (List K)} (h : k ∈ separated comma parts) :
    k = comma ∨ ∃ ts ∈ parts, k ∈ ts := by
  cases parts with
  | nil => cases h
  | cons ts rest =>
      rcases List.mem_append.mp h with h | h
      · exact .inr ⟨ts, List.mem_cons_self, h⟩
      · obtain ⟨us, hus, hk⟩ := List.mem_flatMap.mp h
        rcases List.mem_cons.mp hk with rfl | hk
        · exact .inl rfl
        · exact .inr ⟨us, List.mem_cons_of_mem ts hus, hk⟩

/-- A list nonterminal collects the values of its elements. -/
theorem parsesAnywhere_list {A : N} {X : Sym T N} {comma : K} {α : Type} {element : α → V}
    {list : List α → V} {tokens : α → List K} (hone : [X] ∈ g.rules A)
    (hmore : [.n A, .t (kind comma), X] ∈ g.rules A) (hprec : g.prec (kind comma) = none)
    (hX : g.rulePrec [X] = none) (hXs : g.rulePrec [.n A, .t (kind comma), X] = none)
    (hfirst : ∀ x, a.rule A [element x] = list [x])
    (hnext : ∀ xs x, a.rule A [list xs, a.token comma, element x] = list (xs ++ [x]))
    {xs : List α} (hne : xs ≠ [])
    (h : ∀ x ∈ xs, ParsesAnywhere g kind a X (element x) (tokens x)) :
    ParsesAnywhere g kind a (.n A) (list xs) (separated comma (xs.map tokens)) := by
  induction xs using List.reverseRecOn with
  | nil => exact absurd rfl hne
  | append_singleton xs x ih =>
      have hx := h x (List.mem_append_right xs List.mem_cons_self)
      intro below next
      by_cases hxs : xs = []
      · subst hxs
        rw [List.nil_append, ← hfirst]
        simpa [separated] using Parses.plain (g := g) (a := a) hone hX (.last (hx below next))
      · have hfront := ih hxs fun y hy => h y (List.mem_append_left _ hy)
        rw [List.map_append, List.map_singleton,
          separated_append_singleton comma (by simpa using hxs), ← hnext]
        exact .plain hmore hXs (.sub hfront (.token rfl hprec (.last (hx _ next))))

end Parses

end LR
