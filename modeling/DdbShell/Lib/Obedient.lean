import DdbShell.Lib.Complete

/-!
What the parser builds obeys the precedences. Each tree on its stack was made
by actions of the automaton: its tokens were shifted in the states they stand
over, its rules were reduced before what comes behind them. A ranked token is
never shifted over a complete rule that is preferred to it, and a rule that is
reduced before a token of a higher rank is one that the token cannot follow.
-/

namespace LR

variable {T N K : Type}

/-! ### Trees made by actions -/

section Acted

variable [DecidableEq T] [DecidableEq N] (g : Grammar T N) (kind : K → T)

mutual

/-- The automaton has made the tree over the symbols of a stack and before
what comes next. -/
def Acted (below : List (Sym T N)) (next : Option T) : Tree K N → Prop
  | .leaf k => g.action (g.closure (g.stateOf below)) (some (kind k)) = .shift
  | .node A children =>
      ActedAll below next children ∧
        g.action
          (g.closure (g.stateOf ((children.map (Tree.symbol kind)).reverse ++ below))) next =
          .reduce ⟨A, (children.map (Tree.symbol kind)).reverse, []⟩

def ActedAll (below : List (Sym T N)) (next : Option T) : List (Tree K N) → Prop
  | [] => True
  | tree :: trees =>
      Acted below (ahead kind trees next) tree ∧ ActedAll (tree.symbol kind :: below) next trees

end

/-- The next token, read or not. -/
def Config.upcoming (c : Config K N) : Option T := (c.look.toList ++ c.input).head?.map kind

def Config.Made (c : Config K N) : Prop := ActedAll g kind [] (c.upcoming kind) c.stack.reverse

variable {g kind}

omit [DecidableEq T] [DecidableEq N] in
theorem ahead_append (xs ys : List (Tree K N)) (next : Option T) :
    ahead kind (xs ++ ys) next = ahead kind xs (ahead kind ys next) := by
  unfold ahead
  rw [Tree.yieldAll_append]
  cases Tree.yieldAll xs <;> rfl

omit [DecidableEq T] [DecidableEq N] in
theorem ahead_node (A : N) (children : List (Tree K N)) (next : Option T) :
    ahead kind [.node A children] next = ahead kind children next := by
  unfold ahead
  rw [Tree.yieldAll, Tree.yieldAll, Tree.yield, List.append_nil]

omit [DecidableEq T] [DecidableEq N] in
theorem obeysAll_append {below : List (Sym T N)} {next : Option T} (xs ys : List (Tree K N)) :
    ObeysAll g kind below next (xs ++ ys) ↔
      ObeysAll g kind below (ahead kind ys next) xs ∧
        ObeysAll g kind ((xs.map (Tree.symbol kind)).reverse ++ below) next ys := by
  induction xs generalizing below with
  | nil => simp [ObeysAll]
  | cons x xs ih =>
      rw [List.cons_append, ObeysAll, ObeysAll, ih, ahead_append, List.map_cons, List.reverse_cons,
        List.append_assoc, and_assoc]
      rfl

omit [DecidableEq T] [DecidableEq N] in
theorem obeys_of_mem {below : List (Sym T N)} {next : Option T} {trees : List (Tree K N)}
    (hall : ObeysAll g kind below next trees) {tree : Tree K N} (h : tree ∈ trees) :
    ∃ below' next', Obeys g kind below' next' tree := by
  obtain ⟨xs, ys, rfl⟩ := List.append_of_mem h
  rw [obeysAll_append, ObeysAll] at hall
  exact ⟨_, _, hall.2.1⟩

theorem actedAll_append {below : List (Sym T N)} {next : Option T} (xs ys : List (Tree K N)) :
    ActedAll g kind below next (xs ++ ys) ↔
      ActedAll g kind below (ahead kind ys next) xs ∧
        ActedAll g kind ((xs.map (Tree.symbol kind)).reverse ++ below) next ys := by
  induction xs generalizing below with
  | nil => simp [ActedAll]
  | cons x xs ih =>
      rw [List.cons_append, ActedAll, ActedAll, ih, ahead_append, List.map_cons, List.reverse_cons,
        List.append_assoc, and_assoc]
      rfl

/-! ### The moves -/

theorem action_of_unneeded {items : List (Item T N)} {rule : Item T N}
    (haction : g.action items none = .reduce rule) (hneeds : g.needsToken items = false)
    (look : Option T) : g.action items look = .reduce rule := by
  cases look with
  | none => exact haction
  | some t =>
      unfold Grammar.action at haction ⊢
      cases hcomplete : items.filter fun i => i.rest.isEmpty with
      | nil =>
          rw [hcomplete] at haction
          cases haction
      | cons first others =>
          cases others with
          | cons _ _ =>
              rw [hcomplete] at haction
              cases haction
          | nil =>
              rw [hcomplete] at haction
              dsimp only at haction ⊢
              rw [haction]
              refine if_neg fun hboth => ?_
              -- a token that could be shifted would be needed
              obtain ⟨i, hi, hhead⟩ := List.any_eq_true.mp (Bool.and_eq_true_iff.mp hboth).1
              have hshift : g.action items (some t) = .shift := by
                unfold Grammar.action
                rw [hcomplete]
                exact if_pos hboth
              have hneed : g.needsToken items = true := by
                refine List.any_eq_true.mpr ⟨i, hi, ?_⟩
                rw [of_decide_eq_true hhead, Option.any_some]
                exact decide_eq_true hshift
              rw [hneeds] at hneed
              cases hneed

/-- A reduction is one before the next token, read or not. -/
theorem reduces_before {c : Config K N} (hc : c.Sound g kind) {rule : Item T N}
    (haction : g.action (g.items kind c) (c.look.terminal kind) = .reduce rule)
    (hunread : c.look = .unread → g.needsToken (g.items kind c) = false) :
    g.action (g.items kind c) (c.upcoming kind) = .reduce rule := by
  cases hlook : c.look with
  | unread =>
      rw [hlook] at haction
      exact action_of_unneeded haction (hunread hlook) _
  | token k =>
      rw [hlook] at haction
      rw [Config.upcoming, hlook]
      exact haction
  | atEnd =>
      rw [hlook] at haction
      rw [Config.upcoming, hlook, hc.atEnd hlook]
      exact haction

theorem action_of_shifted {c : Config K N} {token : K} (hlook : c.look = .token token)
    (h : g.step kind c = .next ⟨.leaf token :: c.stack, .unread, c.input⟩) :
    g.action (g.items kind c) (some (kind token)) = .shift := by
  rw [Grammar.step, hlook, Look.isUnread, Bool.false_and, if_neg Bool.false_ne_true,
    Look.terminal] at h
  cases haction : g.action (g.items kind c) (some (kind token)) with
  | shift => rfl
  | reduce rule =>
      rw [haction] at h
      dsimp only [Grammar.reduce] at h
      split at h
      · cases h
      · injection h with h
        have := congrArg Config.look h
        rw [hlook] at this
        cases this
  | error =>
      rw [haction] at h
      cases h

/-- The symbols under a complete rule, and the rule's own on top of them. -/
theorem stack_of_complete (hstart : g.StartApart) {c : Config K N} {rule : Item T N}
    (hrule : rule ∈ g.items kind c) :
    ((c.stack.take rule.done.length).reverse.map (Tree.symbol kind)).reverse = rule.done ∧
      c.stack.reverse =
        (c.stack.drop rule.done.length).reverse ++ (c.stack.take rule.done.length).reverse ∧
      c.symbols kind =
        rule.done ++ (c.stack.drop rule.done.length).map (Tree.symbol kind) := by
  have hfits : rule.Fits g (c.symbols kind) := fits_stateOf hstart _ rule hrule
  have hdone : (c.stack.take rule.done.length).map (Tree.symbol kind) = rule.done := by
    rw [List.map_take]
    exact (List.prefix_iff_eq_take.mp hfits.onTop).symm
  refine ⟨?_, ?_, ?_⟩
  · rw [List.map_reverse, List.reverse_reverse, hdone]
  · rw [← List.reverse_append, List.take_append_drop]
  · rw [Config.symbols]
    nth_rewrite 1 [← List.take_append_drop rule.done.length c.stack]
    rw [List.map_append, hdone]

/-- The tree of a rule, made over what was under its symbols. -/
theorem acted_of_reduce (hstart : g.StartApart) {c : Config K N} (hc : c.Sound g kind)
    (hmade : c.Made g kind) {rule : Item T N}
    (haction : g.action (g.items kind c) (c.look.terminal kind) = .reduce rule)
    (hunread : c.look = .unread → g.needsToken (g.items kind c) = false) :
    ActedAll g kind []
        (ahead kind [.node rule.lhs (c.stack.take rule.done.length).reverse] (c.upcoming kind))
        (c.stack.drop rule.done.length).reverse ∧
      Acted g kind ((c.stack.drop rule.done.length).map (Tree.symbol kind)) (c.upcoming kind)
        (.node rule.lhs (c.stack.take rule.done.length).reverse) := by
  obtain ⟨hmem, hrest⟩ := action_reduce haction
  obtain ⟨hdone, hsplit, hsymbols⟩ := stack_of_complete hstart hmem
  have hbefore := reduces_before hc haction hunread
  rw [Config.Made, hsplit, actedAll_append] at hmade
  obtain ⟨hunder, hchildren⟩ := hmade
  rw [List.append_nil, List.map_reverse, List.reverse_reverse] at hchildren
  refine ⟨?_, ?_⟩
  · rwa [ahead_node]
  · rw [Acted, hdone]
    refine ⟨hchildren, ?_⟩
    rw [← hsymbols]
    rw [Grammar.items] at hbefore
    rw [hbefore, ← hrest]

theorem step_made (hstart : g.StartApart) {c c' : Config K N} (hc : c.Sound g kind)
    (hmade : c.Made g kind) (h : g.step kind c = .next c') : c'.Made g kind := by
  rcases step_cases g kind c with
    ⟨hneeds, hlook, hstep⟩ | ⟨token, hlook, hstep⟩ | ⟨rule, haction, hunread, hstep⟩ | hstep
  · -- reading changes neither the stack nor what is upcoming
    rw [hstep] at h
    cases h
    have hsame : c.read.stack = c.stack ∧ c.read.upcoming kind = c.upcoming kind := by
      unfold Config.read Config.upcoming
      cases c.input <;> simp [hlook, Look.toList]
    rwa [Config.Made, hsame.1, hsame.2]
  · have hshift := action_of_shifted hlook hstep
    rw [hstep] at h
    cases h
    have hupcoming : c.upcoming kind = some (kind token) := by
      rw [Config.upcoming, hlook]
      rfl
    rw [Config.Made, List.reverse_cons, actedAll_append]
    refine ⟨?_, ?_⟩
    · rw [Config.Made, hupcoming] at hmade
      exact hmade
    · rw [ActedAll, Acted, List.append_nil, List.map_reverse, List.reverse_reverse]
      exact ⟨hshift, trivial⟩
  · rw [hstep] at h
    obtain ⟨hunder, hnode⟩ := acted_of_reduce hstart hc hmade haction hunread
    unfold Grammar.reduce at h
    split at h
    · cases h
    · cases h
      rw [Config.Made, List.reverse_cons, actedAll_append]
      refine ⟨hunder, ?_⟩
      rw [ActedAll, List.append_nil, List.map_reverse, List.reverse_reverse]
      exact ⟨hnode, trivial⟩
  · rw [hstep] at h
    cases h

/-- What is accepted has been made before the token that comes next. -/
theorem accept_made (hstart : g.StartApart) {c c' : Config K N} {tree : Tree K N}
    (hc : c.Sound g kind) (hmade : c.Made g kind) (h : g.step kind c = .accept tree c') :
    Acted g kind [] (c.upcoming kind) tree := by
  rcases step_cases g kind c with
    ⟨_, _, hstep⟩ | ⟨_, _, hstep⟩ | ⟨rule, haction, hunread, hstep⟩ | hstep
  · rw [hstep] at h
    cases h
  · rw [hstep] at h
    cases h
  · rw [hstep] at h
    obtain ⟨-, hnode⟩ := acted_of_reduce hstart hc hmade haction hunread
    unfold Grammar.reduce at h
    split at h
    · rename_i hlhs
      have hdone : rule.done.length = c.stack.length := by
        rw [(fits_stateOf hstart _ rule (action_reduce haction).1).whole hlhs, Config.symbols,
          List.length_map]
      cases h
      rw [hdone, List.drop_length, List.map_nil] at hnode
      rwa [hdone]
    · cases h
  · rw [hstep] at h
    cases h

end Acted

/-! ### The precedences in the states -/

section Ranked

variable [DecidableEq T] [DecidableEq N] (g : Grammar T N)

/-- These are the rules and the tokens that have a precedence. -/
structure Grammar.Ranked (rules : List (N × List (Sym T N))) (tokens : List T) : Prop where
  rules : ∀ A, ∀ rhs ∈ g.rules A, (g.rulePrec rhs).isSome = true → (A, rhs) ∈ rules
  tokens : ∀ t, (g.prec t).isSome = true → t ∈ tokens

/-- Where the symbols of a ranked rule may be on top, over the symbol before
the last one, the rule is complete before any token it is preferred to. -/
def Grammar.completes (tokens : List T) (items : List (Item T N))
    (rule : N × List (Sym T N)) : Bool :=
  match rule.2.reverse with
  | X :: Y :: _ =>
      (items.any fun i => i.done.head?.any fun Z => decide (Z ≠ Y)) ||
        tokens.all fun t => !g.prefersReduce rule.2 t ||
          !shiftable (g.closure (items.filterMap (Grammar.advance X))) t ||
            ⟨rule.1, rule.2.reverse, []⟩ ∈ g.closure (items.filterMap (Grammar.advance X))
  | _ => false

/-- Before a ranked token that may follow it, a complete rule is reduced only
where it is preferred. -/
def Grammar.gives (follow : N → Option (List T)) (tokens : List T) (items : List (Item T N)) :
    Bool :=
  (items.filter fun i => i.rest.isEmpty).all fun rule =>
    (g.rulePrec rule.done.reverse).isNone || tokens.all fun t =>
      g.prefersReduce rule.done.reverse t || !Grammar.mayFollow follow rule.lhs t ||
        shiftable items t

/-- What the automaton of a grammar has to be like for its precedences to hold
of all it builds. -/
structure Grammar.Obeyed (follow : N → Option (List T)) (rules : List (N × List (Sym T N)))
    (tokens : List T) : Prop where
  ranked : g.Ranked rules tokens
  completes : ∀ symbols, ∀ rule ∈ rules,
    g.completes tokens (g.closure (g.stateOf symbols)) rule = true
  gives : ∀ symbols, g.gives follow tokens (g.closure (g.stateOf symbols)) = true

variable {g} {follow : N → Option (List T)} {rules : List (N × List (Sym T N))} {tokens : List T}

omit [DecidableEq T] [DecidableEq N] in
theorem ranks_of_prefers {rhs : List (Sym T N)} {t : T} (h : g.prefersReduce rhs t = true) :
    (g.rulePrec rhs).isSome = true ∧ (g.prec t).isSome = true := by
  unfold Grammar.prefersReduce at h
  split at h
  · rename_i hrule htoken
    rw [hrule, htoken]
    exact ⟨rfl, rfl⟩
  · cases h

omit [DecidableEq N] in
theorem action_eq_shift {items : List (Item T N)} {t : T} (h : g.action items (some t) = .shift) :
    shiftable items t = true ∧
      ∀ rule ∈ items, rule.rest = [] → g.prefersReduce rule.done.reverse t = false := by
  have hcomplete : ∀ rule ∈ items, rule.rest = [] →
      rule ∈ items.filter fun i => i.rest.isEmpty :=
    fun rule hrule hrest => List.mem_filter.mpr ⟨hrule, by rw [hrest]; rfl⟩
  unfold Grammar.action at h
  split at h
  · rename_i t' hnone heq
    obtain rfl := Option.some.inj heq
    split at h
    · rename_i hshift
      refine ⟨hshift, fun rule hrule hrest => ?_⟩
      have hmem := hcomplete rule hrule hrest
      rw [hnone] at hmem
      cases hmem
    · cases h
  · cases h
  · rename_i one t' hone heq
    obtain rfl := Option.some.inj heq
    split at h
    · rename_i hboth
      obtain ⟨hshift, hkeeps⟩ := Bool.and_eq_true_iff.mp hboth
      refine ⟨hshift, fun rule hrule hrest => ?_⟩
      have hmem := hcomplete rule hrule hrest
      rw [hone] at hmem
      obtain rfl := List.mem_singleton.mp hmem
      simpa using hkeeps
    · cases h
  · cases h
  · cases h

omit [DecidableEq N] in
theorem prefers_of_reduce {items : List (Item T N)} {t : T} {rule : Item T N}
    (h : g.action items (some t) = .reduce rule) (hshift : shiftable items t = true) :
    g.prefersReduce rule.done.reverse t = true := by
  unfold Grammar.action at h
  split at h
  · split at h <;> cases h
  · cases h
  · rename_i one t' hone heq
    obtain rfl := Option.some.inj heq
    rw [hshift, Bool.true_and] at h
    split at h
    · cases h
    · rename_i hkeeps
      cases h
      simpa using hkeeps
  · rename_i heq
    cases heq
  · cases h

/-- A token is shifted only where no rule is preferred to it. -/
theorem admits_of_shift (hstart : g.StartApart) (hobeyed : g.Obeyed follow rules tokens)
    {symbols : List (Sym T N)} {t : T}
    (h : g.action (g.closure (g.stateOf symbols)) (some t) = .shift) : g.Admits symbols t := by
  intro A rhs hrhs hbelow
  cases hprefers : g.prefersReduce rhs t with
  | false => rfl
  | true =>
      exfalso
      obtain ⟨hrule, htoken⟩ := ranks_of_prefers hprefers
      cases symbols with
      | nil =>
          rw [List.reverse_eq_nil_iff.mp (List.prefix_nil.mp hbelow)] at hrule
          cases hrule
      | cons X below =>
          have hcheck := hobeyed.completes below (A, rhs) (hobeyed.ranked.rules A rhs hrhs hrule)
          unfold Grammar.completes at hcheck
          split at hcheck
          · rename_i X' Y others hreverse
            change rhs.reverse = _ at hreverse
            rw [hreverse, List.cons_prefix_cons] at hbelow
            obtain ⟨rfl, hrest⟩ := hbelow
            rw [Bool.or_eq_true] at hcheck
            rcases hcheck with hother | hcomplete
            · -- the symbol under the last one is another one
              obtain ⟨i, hi, hhead⟩ := List.any_eq_true.mp hother
              obtain ⟨Z, hZ, hne⟩ := (Option.any_eq_true _ _).mp hhead
              have hfits := fits_stateOf hstart below i hi
              obtain ⟨more, rfl⟩ := hrest
              obtain ⟨tail, hdone⟩ := List.head?_eq_some_iff.mp hZ
              have honTop := hfits.onTop
              rw [hdone, List.cons_append, List.cons_prefix_cons] at honTop
              exact of_decide_eq_true hne honTop.1
            · have hall := List.all_eq_true.mp hcomplete t (hobeyed.ranked.tokens t htoken)
              have hgoto : (g.closure (g.stateOf below)).filterMap (Grammar.advance X') =
                  g.stateOf (X' :: below) := rfl
              change (!g.prefersReduce rhs t || _ || _) = true at hall
              rw [hgoto, hprefers, Bool.not_true, Bool.false_or, Bool.or_eq_true,
                Bool.not_eq_true'] at hall
              obtain ⟨hshift, hkeeps⟩ := action_eq_shift h
              rcases hall with hnot | hmem
              · rw [hnot] at hshift
                cases hshift
              · have hkept := hkeeps _ (of_decide_eq_true hmem) rfl
                rw [List.reverse_reverse, hprefers] at hkept
                cases hkept
          · cases hcheck

/-- A rule that is reduced before a token yields to it, unless the token
cannot follow. -/
theorem yields_of_reduce (hobeyed : g.Obeyed follow rules tokens) {symbols : List (Sym T N)}
    {t : T} {A : N} {rhs : List (Sym T N)}
    (h : g.action (g.closure (g.stateOf symbols)) (some t) = .reduce ⟨A, rhs.reverse, []⟩)
    (hfollow : Grammar.mayFollow follow A t = true) : g.Yields rhs t := by
  intro rule token hrule htoken
  have hmem : ⟨A, rhs.reverse, []⟩ ∈
      (g.closure (g.stateOf symbols)).filter fun i => i.rest.isEmpty :=
    List.mem_filter.mpr ⟨(action_reduce h).1, rfl⟩
  have hchecks := List.all_eq_true.mp (hobeyed.gives symbols) _ hmem
  rw [List.reverse_reverse, hrule, Option.isNone_some, Bool.false_or] at hchecks
  have hcheck := List.all_eq_true.mp hchecks t (hobeyed.ranked.tokens t (by rw [htoken]; rfl))
  rw [hfollow, Bool.not_true, Bool.or_false, Bool.or_eq_true] at hcheck
  have hprefers : g.prefersReduce rhs t = true := by
    rcases hcheck with hprefers | hshift
    · exact hprefers
    · have hkept := prefers_of_reduce h hshift
      rwa [List.reverse_reverse] at hkept
  rw [Grammar.prefersReduce, hrule, htoken] at hprefers
  exact of_decide_eq_true hprefers

omit [DecidableEq T] [DecidableEq N] in
theorem ahead_eq_some {kind : K → T} {trees : List (Tree K N)} {next seen : Option T} {t : T}
    (hseen : ∀ u ∈ seen, next = some u) (h : t ∈ ahead kind trees seen) :
    ahead kind trees next = some t := by
  unfold ahead at h ⊢
  cases hyield : Tree.yieldAll trees with
  | nil =>
      rw [hyield] at h
      exact hseen t h
  | cons k ks =>
      rw [hyield] at h
      exact h

/-- What the automaton makes obeys the precedences, with nothing behind it or
with the next token where it may follow. -/
theorem obeys_of_acted {kind : K → T} {depth : Nat} (hstart : g.StartApart)
    (hfollows : g.Follows follow depth) (hobeyed : g.Obeyed follow rules tokens) {tree : Tree K N}
    (hvalid : tree.Valid kind g) :
    ∀ (below : List (Sym T N)) (next seen : Option T), Acted g kind below next tree →
      (∀ t ∈ seen, next = some t ∧
        ∀ A, tree.symbol kind = .n A → Grammar.mayFollow follow A t = true) →
      Obeys g kind below seen tree := by
  induction hvalid with
  | leaf k =>
      intro below next seen hacted _
      exact admits_of_shift hstart hobeyed hacted
  | @node A children hrule hchildren ih =>
      intro below next seen hacted hseen
      rw [Acted] at hacted
      rw [Obeys]
      refine ⟨?_, fun t ht => ?_⟩
      · have hall : ∀ (trees : List (Tree K N)) (below : List (Sym T N)),
            (∀ tree ∈ trees, tree ∈ children) →
            g.followsIn follow depth A (trees.map (Tree.symbol kind)) = true →
            ActedAll g kind below next trees → ObeysAll g kind below seen trees := by
          intro trees
          induction trees with
          | nil => intro _ _ _ _; trivial
          | cons tree trees ihtrees =>
              intro below hmem hinside hacted
              rw [ActedAll] at hacted
              have htree := hmem tree List.mem_cons_self
              have htrees := fun t ht => hmem t (List.mem_cons_of_mem tree ht)
              refine ⟨ih tree htree below _ _ hacted.1 ?_, ihtrees _ htrees ?_ hacted.2⟩
              · intro t ht
                refine ⟨?_, fun B hB => ?_⟩
                · exact ahead_eq_some (fun u hu => (hseen u hu).1) ht
                · rw [List.map_cons, hB] at hinside
                  exact ahead_mayFollow hfollows hinside (fun u hu => hchildren u (htrees u hu))
                    (.inr fun u hu => (hseen u hu).2 A rfl) t ht
              · exact followsIn_tail hinside
        exact hall children below (fun _ h => h) (hfollows.inside A _ hrule) hacted.1
      · obtain ⟨rfl, hmay⟩ := hseen t ht
        exact yields_of_reduce hobeyed hacted.2 (hmay A rfl)

end Ranked

end LR
