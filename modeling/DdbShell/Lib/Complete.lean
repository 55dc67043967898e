import DdbShell.Lib.Follow
import Mathlib.Logic.Relation

/-!
The parser finds every derivation that the precedences allow. Where a rule is
complete and a token could be shifted, either the token cannot come after the
rule's left-hand side, or the two precedences decide; `Obeys` says that they
decide for the derivation. Reading a derivation then puts it on the stack as
one tree and leaves the tokens behind it.
-/

namespace LR

variable {T N K : Type}

/-! ### Derivations that obey the precedences -/

section Obeys

variable (g : Grammar T N) (kind : K → T)

/-- Between the rule and the token the precedences are for reducing. -/
def Grammar.Yields (rhs : List (Sym T N)) (t : T) : Prop :=
  ∀ rule token, g.rulePrec rhs = some rule → g.prec t = some token → token ≤ rule

/-- Over the symbols, no rule that may be complete is preferred to the token. -/
def Grammar.Admits (below : List (Sym T N)) (t : T) : Prop :=
  ∀ A, ∀ rhs ∈ g.rules A, rhs.reverse <+: below → g.prefersReduce rhs t = false

mutual

/-- A derivation over the symbols of a stack, with what comes next: at each of
its tokens and at the end of each of its rules the precedences agree. -/
def Obeys (below : List (Sym T N)) (next : Option T) : Tree K N → Prop
  | .leaf k => g.Admits below (kind k)
  | .node _ children =>
      ObeysAll below next children ∧ ∀ t ∈ next, g.Yields (children.map (Tree.symbol kind)) t

def ObeysAll (below : List (Sym T N)) (next : Option T) : List (Tree K N) → Prop
  | [] => True
  | tree :: trees =>
      Obeys below (ahead kind trees next) tree ∧ ObeysAll (tree.symbol kind :: below) next trees

end

variable {g kind}

theorem admits_of_prec {below : List (Sym T N)} {t : T} (h : g.prec t = none) :
    g.Admits below t := by
  intro A rhs _ _
  unfold Grammar.prefersReduce
  rw [h]
  split
  · rename_i hnone
    cases hnone
  · rfl

theorem yields_of_prec {rhs : List (Sym T N)} {t : T} (h : g.prec t = none) : g.Yields rhs t := by
  intro rule token _ ht
  rw [h] at ht
  cases ht

theorem admits_of_rules {below : List (Sym T N)} {t : T}
    (h : ∀ rhs : List (Sym T N), rhs.reverse <+: below → g.rulePrec rhs = none) :
    g.Admits below t := by
  intro A rhs _ hbelow
  rw [Grammar.prefersReduce, h rhs hbelow]

theorem yields_of_rule {rhs : List (Sym T N)} {t : T} (h : g.rulePrec rhs = none) :
    g.Yields rhs t := by
  intro rule token hrule _
  rw [h] at hrule
  cases hrule

end Obeys

/-! ### Derivations are decidable -/

namespace Tree

variable [DecidableEq T] [DecidableEq N] (g : Grammar T N) (kind : K → T)

mutual

def check : Tree K N → Bool
  | .leaf _ => true
  | .node A children => decide (children.map (symbol kind) ∈ g.rules A) && checkAll children

def checkAll : List (Tree K N) → Bool
  | [] => true
  | tree :: trees => check tree && checkAll trees

end

variable {g kind}

mutual

theorem valid_iff_check (tree : Tree K N) : tree.Valid kind g ↔ check g kind tree = true := by
  cases tree with
  | leaf k => exact ⟨fun _ => rfl, fun _ => .leaf k⟩
  | node A children =>
      rw [check, Bool.and_eq_true, decide_eq_true_eq, ← all_valid_iff_check children]
      constructor
      · intro h
        cases h with
        | node hrule hchildren => exact ⟨hrule, hchildren⟩
      · exact fun h => .node h.1 h.2

theorem all_valid_iff_check (trees : List (Tree K N)) :
    (∀ tree ∈ trees, tree.Valid kind g) ↔ checkAll g kind trees = true := by
  cases trees with
  | nil => simp [checkAll]
  | cons tree trees =>
      rw [checkAll, Bool.and_eq_true, ← valid_iff_check tree, ← all_valid_iff_check trees,
        List.forall_mem_cons]

end

instance (tree : Tree K N) : Decidable (tree.Valid kind g) :=
  decidable_of_iff _ (valid_iff_check tree).symm

end Tree

/-! ### Texts with one precedence -/

section Single

variable {g : Grammar T N} {kind : K → T}

def Grammar.ranked (g : Grammar T N) (t : T) : Bool := (g.prec t).isSome

def Grammar.rankedSym (g : Grammar T N) : Sym T N → Bool
  | .t t => g.ranked t
  | .n _ => false

theorem rulePrec_eq_none {rhs : List (Sym T N)} (h : ∀ X ∈ rhs, g.rankedSym X = false) :
    g.rulePrec rhs = none := by
  unfold Grammar.rulePrec
  cases hlast : rhs.reverse.findSome? fun
      | Sym.t t => some t
      | .n _ => none with
  | none => rfl
  | some t =>
      obtain ⟨X, hX, hfound⟩ := List.exists_of_findSome?_eq_some hlast
      cases X with
      | n A => cases hfound
      | t u =>
          obtain rfl := Option.some.inj hfound
          have hnot := h _ (List.mem_reverse.mp hX)
          rwa [Grammar.rankedSym, Grammar.ranked, Option.isSome_eq_false_iff,
            Option.isNone_iff_eq_none] at hnot

/-- The precedences in front of, in and next to a derivation. -/
def Grammar.ranks (g : Grammar T N) (kind : K → T) (below : List (Sym T N)) (ts : List K)
    (next : Option T) : Nat :=
  below.countP g.rankedSym + ts.countP (fun k => g.ranked (kind k)) + next.toList.countP g.ranked

variable (g kind)

theorem ranked_symbol_le (tree : Tree K N) :
    [tree.symbol kind].countP g.rankedSym ≤ tree.yield.countP fun k => g.ranked (kind k) := by
  cases tree with
  | leaf k => exact Nat.le_refl _
  | node A children => exact Nat.zero_le _

theorem ranked_symbols_le (trees : List (Tree K N)) :
    (trees.map (Tree.symbol kind)).countP g.rankedSym ≤
      (Tree.yieldAll trees).countP fun k => g.ranked (kind k) := by
  induction trees with
  | nil => exact Nat.le_refl _
  | cons tree trees ih =>
      have hfirst := ranked_symbol_le g kind tree
      rw [Tree.yieldAll, List.countP_append, List.map_cons, ← List.singleton_append,
        List.countP_append]
      omega

theorem ahead_ranks_le (trees : List (Tree K N)) (next : Option T) :
    (ahead kind trees next).toList.countP g.ranked ≤
      (Tree.yieldAll trees).countP (fun k => g.ranked (kind k)) +
        next.toList.countP g.ranked := by
  unfold ahead
  split
  · rename_i k ks hyield
    rw [hyield, List.countP_cons, Option.toList_some, List.countP_singleton]
    omega
  · omega

variable {g kind}

/-- Precedences decide between two tokens. Where there is but one with a
declared precedence they have nothing to decide. -/
theorem obeys_of_single {tree : Tree K N} (hvalid : tree.Valid kind g) :
    ∀ (below : List (Sym T N)) (next : Option T), g.ranks kind below tree.yield next ≤ 1 →
      Obeys g kind below next tree := by
  induction hvalid with
  | leaf k =>
      intro below next hranks
      rw [Obeys]
      cases hprec : g.prec (kind k) with
      | none => exact admits_of_prec hprec
      | some level =>
          refine admits_of_rules fun rhs hbelow => rulePrec_eq_none fun X hX => ?_
          have hzero : below.countP g.rankedSym = 0 := by
            rw [Grammar.ranks, Tree.yield, List.countP_singleton, Grammar.ranked, hprec] at hranks
            simp only [Option.isSome_some, if_true] at hranks
            omega
          have hnot := List.countP_eq_zero.mp hzero X
            (hbelow.subset (List.mem_reverse.mpr hX))
          exact Bool.eq_false_iff.mpr hnot
  | @node A children hrule hchildren ih =>
      intro below next hranks
      rw [Obeys]
      rw [Tree.yield] at hranks
      refine ⟨?_, ?_⟩
      · clear hrule
        induction children generalizing below with
        | nil => trivial
        | cons tree trees ihtrees =>
            have hahead := ahead_ranks_le g kind trees next
            have hfirst := ranked_symbol_le g kind tree
            rw [Grammar.ranks, Tree.yieldAll, List.countP_append] at hranks
            rw [ObeysAll]
            refine ⟨ih tree List.mem_cons_self below _ ?_, ihtrees
              (fun t ht => hchildren t (List.mem_cons_of_mem tree ht))
              (fun t ht => ih t (List.mem_cons_of_mem tree ht)) _ ?_⟩
            · rw [Grammar.ranks]
              omega
            · rw [Grammar.ranks, ← List.singleton_append, List.countP_append]
              omega
      · intro t ht
        cases hprec : g.prec t with
        | none => exact yields_of_prec hprec
        | some level =>
            refine yields_of_rule (rulePrec_eq_none fun X hX => ?_)
            have hsymbols := ranked_symbols_le g kind children
            have hzero : (children.map (Tree.symbol kind)).countP g.rankedSym = 0 := by
              obtain rfl := ht
              rw [Grammar.ranks, Option.toList_some, List.countP_singleton, Grammar.ranked,
                hprec] at hranks
              simp only [Option.isSome_some, if_true] at hranks
              omega
            exact Bool.eq_false_iff.mpr (List.countP_eq_zero.mp hzero X hX)

end Single

/-! ### The parser at work -/

section Moves

variable [DecidableEq T] [DecidableEq N] (g : Grammar T N) (kind : K → T)

/-- The parser has these trees on its stack and these tokens before it. -/
structure Config.Before (c : Config K N) (stack : List (Tree K N)) (ts : List K) : Prop where
  stack : c.stack = stack
  unread : c.look.toList ++ c.input = ts
  atEnd : c.look = .atEnd → c.input = []

def Moves : Config K N → Config K N → Prop :=
  Relation.ReflTransGen fun c c' => g.step kind c = .next c'

/-- Over the stack the parser reads the tokens of a tree and makes it. -/
def ReadsTree (stack : List (Tree K N)) (tree : Tree K N) (rest : List K) : Prop :=
  ∀ c : Config K N, c.Before stack (tree.yield ++ rest) →
    ∃ c', Moves g kind c c' ∧ c'.Before (tree :: stack) rest

variable {g kind}

omit [DecidableEq N] in
theorem needsToken_of_shift [DecidableEq N] {items : List (Item T N)} {t : T}
    (h : g.action items (some t) = .shift) : g.needsToken items = true := by
  have hshift : shiftable items t = true := by
    unfold Grammar.action at h
    split at h
    · rename_i u _ hlook
      cases hlook
      split at h
      · assumption
      · cases h
    · cases h
    · rename_i u _ hlook
      cases hlook
      split at h
      · rename_i hboth
        exact (Bool.and_eq_true_iff.mp hboth).1
      · cases h
    · cases h
    · cases h
  obtain ⟨i, hi, hhead⟩ := List.any_eq_true.mp hshift
  refine List.any_eq_true.mpr ⟨i, hi, ?_⟩
  rw [of_decide_eq_true hhead, Option.any_some]
  exact decide_eq_true h

omit [DecidableEq N] in
/-- What is reduced on some token is reduced by default. -/
theorem action_none_of_reduce {items : List (Item T N)} {look : Option T} {rule : Item T N}
    (h : g.action items look = .reduce rule) : g.action items none = .reduce rule := by
  unfold Grammar.action at h ⊢
  split at h
  · split at h <;> cases h
  · cases h
  · split at h
    · cases h
    · simp_all
  · simp_all
  · cases h

theorem Config.Before.items {c : Config K N} {stack : List (Tree K N)} {ts : List K}
    (h : c.Before stack ts) :
    g.items kind c = g.closure (g.stateOf (stack.map (Tree.symbol kind))) := by
  rw [Grammar.items, Config.symbols, h.stack]

omit [DecidableEq T] [DecidableEq N] in
/-- Reading ahead leaves the parser before the same tokens. -/
theorem Config.Before.read {c : Config K N} {stack : List (Tree K N)} {ts : List K}
    (h : c.Before stack ts) (hlook : c.look = .unread) :
    c.read.Before stack ts ∧ c.read.look ≠ .unread := by
  have hts : c.input = ts := by
    have hunread := h.unread
    rwa [hlook] at hunread
  unfold Config.read
  split
  · rename_i hinput
    rw [← hts, hinput]
    exact ⟨⟨h.stack, rfl, fun _ => rfl⟩, by simp⟩
  · rename_i hinput
    rw [← hts, hinput]
    exact ⟨⟨h.stack, rfl, fun hend => by cases hend⟩, by simp⟩

omit [DecidableEq T] [DecidableEq N] in
theorem Config.Before.terminal {c : Config K N} {stack : List (Tree K N)} {ts : List K}
    (h : c.Before stack ts) (hlook : c.look ≠ .unread) :
    c.look.terminal kind = ts.head?.map kind := by
  have hts := h.unread
  cases hcase : c.look with
  | unread => exact absurd hcase hlook
  | token k =>
      rw [hcase] at hts
      rw [← hts]
      rfl
  | atEnd =>
      rw [hcase, h.atEnd hcase] at hts
      rw [← hts]
      rfl

/-- A token that shifts is read. -/
theorem readsTree_leaf {stack : List (Tree K N)} {k : K} {rest : List K}
    (h : g.action (g.closure (g.stateOf (stack.map (Tree.symbol kind)))) (some (kind k)) =
      .shift) : ReadsTree g kind stack (.leaf k) rest := by
  -- once the token has been read ahead it is shifted
  have hshift : ∀ c : Config K N, c.Before stack (k :: rest) → c.look ≠ .unread →
      g.step kind c = .next ⟨.leaf k :: stack, .unread, rest⟩ := by
    intro c hc hlook
    have hts := hc.unread
    cases hcase : c.look with
    | unread => exact absurd hcase hlook
    | atEnd =>
        rw [hcase, hc.atEnd hcase] at hts
        cases hts
    | token k' =>
        rw [hcase] at hts
        obtain ⟨rfl, hinput⟩ := List.cons.inj hts
        have haction : g.action (g.items kind c) (some (kind k')) = .shift := by
          rw [hc.items]
          exact h
        have hlast : shift c = (.next ⟨.leaf k' :: stack, .unread, rest⟩ : Move K N) := by
          rw [shift, hcase, hc.stack, ← hinput]
          rfl
        rw [Grammar.step, hcase, Look.isUnread, Bool.false_and, if_neg Bool.false_ne_true,
          Look.terminal, haction]
        exact hlast
  intro c hc
  have hc' : c.Before stack (k :: rest) := hc
  refine ⟨⟨.leaf k :: stack, .unread, rest⟩, ?_, ⟨rfl, rfl, fun hend => by cases hend⟩⟩
  by_cases hlook : c.look = .unread
  · have hneeds : g.needsToken (g.items kind c) = true := by
      rw [hc'.items]
      exact needsToken_of_shift h
    have hread : g.step kind c = .next c.read := by
      rw [Grammar.step, hneeds, hlook]
      rfl
    obtain ⟨hbefore, hknown⟩ := hc'.read hlook
    exact .tail (.single hread) (hshift c.read hbefore hknown)
  · exact .single (hshift c hc' hlook)

/-- Before a token on which a rule is reduced the parser comes to reduce it. -/
theorem comes_to_reduce {stack : List (Tree K N)} {rule : Item T N} {ts : List K}
    {c : Config K N} (hc : c.Before stack ts)
    (haction : g.action (g.closure (g.stateOf (stack.map (Tree.symbol kind))))
      (ts.head?.map kind) = .reduce rule) :
    ∃ c', Moves g kind c c' ∧ c'.Before stack ts ∧ g.step kind c' = g.reduce rule c' := by
  -- once the next token is known, or is not needed, the rule is reduced
  have hreduce : ∀ c : Config K N, c.Before stack ts →
      (c.look.isUnread && g.needsToken (g.items kind c)) = false →
      g.step kind c = g.reduce rule c := by
    intro c hc hread
    have haction' : g.action (g.items kind c) (c.look.terminal kind) = .reduce rule := by
      rw [hc.items]
      by_cases hlook : c.look = .unread
      · rw [hlook]
        exact action_none_of_reduce haction
      · rw [hc.terminal hlook]
        exact haction
    rw [Grammar.step, hread, haction']
    rfl
  cases hread : c.look.isUnread && g.needsToken (g.items kind c) with
  | false => exact ⟨c, .refl, hc, hreduce c hc hread⟩
  | true =>
      have hlook : c.look = .unread := Look.eq_unread (Bool.and_eq_true_iff.mp hread).1
      have hstep : g.step kind c = .next c.read := by
        rw [Grammar.step, hread]
        rfl
      obtain ⟨hbefore, hknown⟩ := hc.read hlook
      refine ⟨c.read, .single hstep, hbefore, hreduce c.read hbefore ?_⟩
      cases hcase : c.read.look with
      | unread => exact absurd hcase hknown
      | token k => rfl
      | atEnd => rfl

theorem readsTree_node {stack : List (Tree K N)} {A : N} {children : List (Tree K N)}
    {rest : List K}
    (hchildren : ∀ c : Config K N, c.Before stack (Tree.yieldAll children ++ rest) →
      ∃ c', Moves g kind c c' ∧ c'.Before (children.reverse ++ stack) rest)
    (haction : g.action
      (g.closure (g.stateOf ((children.reverse ++ stack).map (Tree.symbol kind))))
      (rest.head?.map kind) = .reduce ⟨A, (children.map (Tree.symbol kind)).reverse, []⟩)
    (hA : A ≠ g.start) : ReadsTree g kind stack (.node A children) rest := by
  intro c hc
  obtain ⟨c₁, hmoves, hc₁⟩ := hchildren c hc
  obtain ⟨c₂, hmoves₂, hc₂, hstep⟩ := comes_to_reduce hc₁ haction
  have hlength : ((children.map (Tree.symbol kind)).reverse).length = children.reverse.length := by
    simp
  have hreduced : g.reduce ⟨A, (children.map (Tree.symbol kind)).reverse, []⟩ c₂ =
      .next { c₂ with stack := .node A children :: stack } := by
    rw [Grammar.reduce, if_neg hA, hlength, hc₂.stack, List.take_left, List.drop_left,
      List.reverse_reverse]
  refine ⟨{ c₂ with stack := .node A children :: stack }, ?_, ⟨rfl, hc₂.unread, hc₂.atEnd⟩⟩
  exact (hmoves.trans hmoves₂).tail (hstep.trans hreduced)

end Moves

/-! ### Every derivation is found -/

section Complete

variable [DecidableEq T] [DecidableEq N] {g : Grammar T N} {kind : K → T}
  {follow : N → Option (List T)} {depth : Nat} {nonterminals : List N}

/-- At most one rule is complete, and no token that may follow it is shifted
unless precedences say so. -/
def Grammar.settled (g : Grammar T N) (follow : N → Option (List T)) (items : List (Item T N)) :
    Bool :=
  match items.filter fun i => i.rest.isEmpty with
  | [] => true
  | [rule] => (items.filterMap fun i => headTerminal i.rest).all fun t =>
      !Grammar.mayFollow follow rule.lhs t ||
        ((g.rulePrec rule.done.reverse).isSome && (g.prec t).isSome)
  | _ :: _ :: _ => false

/-- What the automaton of a grammar has to be like. -/
structure Grammar.Settled (g : Grammar T N) (follow : N → Option (List T)) (depth : Nat)
    (nonterminals : List N) : Prop where
  startApart : g.StartApart
  sized : g.Sized nonterminals
  follows : g.Follows follow depth
  states : ∀ symbols, g.settled follow (g.closure (g.stateOf symbols)) = true

/-- A token that stands after a dot is shifted where the precedences admit it. -/
theorem action_shift (hsettled : g.Settled follow depth nonterminals)
    {symbols : List (Sym T N)} {i : Item T N} {t : T}
    (hi : i ∈ g.closure (g.stateOf symbols)) (ht : headTerminal i.rest = some t)
    (hadmits : g.Admits symbols t) :
    g.action (g.closure (g.stateOf symbols)) (some t) = .shift := by
  have hshift : shiftable (g.closure (g.stateOf symbols)) t = true :=
    List.any_eq_true.mpr ⟨i, hi, decide_eq_true ht⟩
  have hstate := hsettled.states symbols
  unfold Grammar.settled at hstate
  unfold Grammar.action
  cases hcomplete : (g.closure (g.stateOf symbols)).filter fun i => i.rest.isEmpty with
  | nil => exact if_pos hshift
  | cons rule others =>
      cases others with
      | cons _ _ =>
          rw [hcomplete] at hstate
          cases hstate
      | nil =>
          have hrule := List.mem_filter.mp (hcomplete ▸ List.mem_singleton.mpr rfl :
            rule ∈ (g.closure (g.stateOf symbols)).filter fun i => i.rest.isEmpty)
          have hfits := fits_stateOf hsettled.startApart symbols rule hrule.1
          have hrhs := hfits.rule
          rw [List.isEmpty_iff.mp hrule.2, List.append_nil] at hrhs
          have hkeeps := hadmits rule.lhs rule.done.reverse hrhs
            (by rw [List.reverse_reverse]; exact hfits.onTop)
          have hboth : (shiftable (g.closure (g.stateOf symbols)) t &&
              !g.prefersReduce rule.done.reverse t) = true := by
            rw [hshift, hkeeps]
            rfl
          exact if_pos hboth

/-- A complete rule is reduced on what may follow it where it yields. -/
theorem action_reduce_of_complete (hsettled : g.Settled follow depth nonterminals)
    {symbols : List (Sym T N)} {A : N} {rhs : List (Sym T N)} {next : Option T}
    (hi : ⟨A, rhs.reverse, []⟩ ∈ g.closure (g.stateOf symbols))
    (hfollow : ∀ t ∈ next, Grammar.mayFollow follow A t = true)
    (hyields : ∀ t ∈ next, g.Yields rhs t) :
    g.action (g.closure (g.stateOf symbols)) next = .reduce ⟨A, rhs.reverse, []⟩ := by
  have hmem : ⟨A, rhs.reverse, []⟩ ∈
      (g.closure (g.stateOf symbols)).filter fun i => i.rest.isEmpty :=
    List.mem_filter.mpr ⟨hi, rfl⟩
  have hstate := hsettled.states symbols
  unfold Grammar.settled at hstate
  unfold Grammar.action
  cases hcomplete : (g.closure (g.stateOf symbols)).filter fun i => i.rest.isEmpty with
  | nil =>
      rw [hcomplete] at hmem
      cases hmem
  | cons rule others =>
      cases others with
      | cons _ _ =>
          rw [hcomplete] at hstate
          cases hstate
      | nil =>
          rw [hcomplete] at hmem hstate
          obtain rfl := List.mem_singleton.mp hmem
          cases next with
          | none => rfl
          | some t =>
              refine if_neg ?_
              rw [Bool.and_eq_true, Bool.not_eq_true']
              rintro ⟨hshift, hkeeps⟩
              obtain ⟨i, hi', hhead⟩ := List.any_eq_true.mp hshift
              have ht := List.all_eq_true.mp hstate t
                (List.mem_filterMap.mpr ⟨i, hi', of_decide_eq_true hhead⟩)
              rw [hfollow t rfl, Bool.not_true, Bool.false_or, Bool.and_eq_true] at ht
              obtain ⟨⟨rule, hrule⟩, ⟨token, htoken⟩⟩ :=
                And.imp Option.isSome_iff_exists.mp Option.isSome_iff_exists.mp ht
              rw [List.reverse_reverse] at hrule hkeeps
              have hle := hyields t rfl rule token hrule htoken
              simp only [Grammar.prefersReduce, hrule, htoken, decide_eq_false_iff_not] at hkeeps
              exact hkeeps hle

/-- The sequence of symbols after a dot is read tree by tree. -/
theorem reads_children (hsettled : g.Settled follow depth nonterminals) {lhs : N}
    (children : List (Tree K N)) (stack : List (Tree K N)) (done : List (Sym T N)) (rest : List K)
    (hi : ⟨lhs, done, children.map (Tree.symbol kind)⟩ ∈
      g.closure (g.stateOf (stack.map (Tree.symbol kind))))
    (hinside : g.followsIn follow depth lhs (children.map (Tree.symbol kind)) = true)
    (hvalid : ∀ tree ∈ children, tree.Valid kind g)
    (hobeys : ObeysAll g kind (stack.map (Tree.symbol kind)) (rest.head?.map kind) children)
    (hnext : (∀ X ∈ (children.map (Tree.symbol kind)).getLast?, ∃ t, X = .t t) ∨
      ∀ t ∈ rest.head?.map kind, Grammar.mayFollow follow lhs t = true)
    (hread : ∀ tree ∈ children, ∀ (stack : List (Tree K N)) (rest : List K) (i : Item T N),
      i ∈ g.closure (g.stateOf (stack.map (Tree.symbol kind))) →
      i.rest.head? = some (tree.symbol kind) →
      Obeys g kind (stack.map (Tree.symbol kind)) (rest.head?.map kind) tree →
      (∀ A, tree.symbol kind = .n A →
        ∀ t ∈ rest.head?.map kind, Grammar.mayFollow follow A t = true) →
      ReadsTree g kind stack tree rest) :
    (∀ c : Config K N, c.Before stack (Tree.yieldAll children ++ rest) →
      ∃ c', Moves g kind c c' ∧ c'.Before (children.reverse ++ stack) rest) ∧
    ⟨lhs, (children.map (Tree.symbol kind)).reverse ++ done, []⟩ ∈
      g.closure (g.stateOf ((children.reverse ++ stack).map (Tree.symbol kind))) := by
  induction children generalizing stack done with
  | nil => exact ⟨fun c hc => ⟨c, .refl, hc⟩, hi⟩
  | cons tree children ih =>
      have hahead : (Tree.yieldAll children ++ rest).head?.map kind =
          ahead kind children (rest.head?.map kind) := by
        unfold ahead
        cases Tree.yieldAll children <;> rfl
      rw [ObeysAll] at hobeys
      have hvalid' : ∀ t ∈ children, t.Valid kind g :=
        fun t ht => hvalid t (List.mem_cons_of_mem tree ht)
      have htree : ReadsTree g kind stack tree (Tree.yieldAll children ++ rest) := by
        refine hread tree List.mem_cons_self stack _ _ hi rfl ?_ ?_
        · rw [hahead]
          exact hobeys.1
        · intro A hA
          rw [hahead]
          rw [List.map_cons, hA] at hinside hnext
          exact ahead_mayFollow hsettled.follows hinside hvalid' hnext
      have hi' : ⟨lhs, tree.symbol kind :: done, children.map (Tree.symbol kind)⟩ ∈
          g.closure (g.stateOf ((tree :: stack).map (Tree.symbol kind))) :=
        mem_closure_of_mem (advance_mem_goto hi)
      have hinside' : g.followsIn follow depth lhs (children.map (Tree.symbol kind)) = true :=
        followsIn_tail hinside
      have hnext' : (∀ X ∈ (children.map (Tree.symbol kind)).getLast?, ∃ t, X = .t t) ∨
          ∀ t ∈ rest.head?.map kind, Grammar.mayFollow follow lhs t = true := by
        cases children with
        | nil => exact .inl fun X hX => by cases hX
        | cons next children =>
            rw [List.map_cons, List.map_cons, List.getLast?_cons_cons] at hnext
            exact hnext
      obtain ⟨hrun, hend⟩ := ih (tree :: stack) (tree.symbol kind :: done) hi' hinside' hvalid'
        hobeys.2 hnext' (fun t ht => hread t (List.mem_cons_of_mem tree ht))
      refine ⟨?_, ?_⟩
      · intro c hc
        rw [Tree.yieldAll, List.append_assoc] at hc
        obtain ⟨c₁, hmoves, hc₁⟩ := htree c hc
        obtain ⟨c₂, hmoves₂, hc₂⟩ := hrun c₁ hc₁
        refine ⟨c₂, hmoves.trans hmoves₂, ?_⟩
        rwa [List.reverse_cons, List.append_assoc]
      · simpa [List.append_assoc] using hend

/-- Over a stack on which its symbol is expected, and before a token that may
follow it, every derivation that obeys the precedences is read. -/
theorem reads_tree (hsettled : g.Settled follow depth nonterminals) {tree : Tree K N}
    (hvalid : tree.Valid kind g) :
    ∀ (stack : List (Tree K N)) (rest : List K) (i : Item T N),
      i ∈ g.closure (g.stateOf (stack.map (Tree.symbol kind))) →
      i.rest.head? = some (tree.symbol kind) →
      Obeys g kind (stack.map (Tree.symbol kind)) (rest.head?.map kind) tree →
      (∀ A, tree.symbol kind = .n A →
        ∀ t ∈ rest.head?.map kind, Grammar.mayFollow follow A t = true) →
      ReadsTree g kind stack tree rest := by
  induction hvalid with
  | leaf k =>
      intro stack rest i hi hhead hobeys _
      refine readsTree_leaf (action_shift hsettled hi ?_ hobeys)
      cases hrest : i.rest with
      | nil =>
          rw [hrest] at hhead
          cases hhead
      | cons X others =>
          rw [hrest] at hhead
          obtain rfl := Option.some.inj hhead
          rfl
  | @node A children hrule hchildren ih =>
      intro stack rest i hi hhead hobeys hnext
      rw [Obeys] at hobeys
      -- the rule is among the items, with the dot in front
      have hnonterminal : headNonterminal i.rest = some A := by
        cases hrest : i.rest with
        | nil =>
            rw [hrest] at hhead
            cases hhead
        | cons X others =>
            rw [hrest] at hhead
            obtain rfl := Option.some.inj hhead
            rfl
      have hinitial := initial_mem_closure hsettled.sized hi hnonterminal hrule
      obtain ⟨hrun, hend⟩ := reads_children hsettled children stack [] rest hinitial
        (hsettled.follows.inside A _ hrule) hchildren hobeys.1 (.inr (hnext A rfl)) ih
      rw [List.append_nil] at hend
      refine readsTree_node hrun (action_reduce_of_complete hsettled hend (hnext A rfl) hobeys.2) ?_
      -- a start symbol is expected nowhere
      rintro rfl
      have hfits := fits_stateOf hsettled.startApart _ i hi
      refine hsettled.startApart i.lhs _ hfits.rule (List.mem_append_right _ ?_)
      exact mem_of_headNonterminal hnonterminal

end Complete

end LR
