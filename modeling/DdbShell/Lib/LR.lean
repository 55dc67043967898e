import Mathlib.Tactic.Common

/-!
Shift-reduce parsing by item sets. A parser's state is determined by the
symbols on its stack, `stateOf`, so the automaton needs no tables; `step` is
one move of it. Where a rule is complete it is reduced by default, on whatever
token does not shift, and where no token could shift none is read. Between a
shift and a reduction the declared precedences decide. Lookahead sets play no
part: a grammar for which they would has two complete rules in one state, and
there `action` gives up.

What is proved is what every move keeps: the trees on the stack are
derivations, and their yields with the unread tokens are the text.
-/

namespace LR

inductive Sym (T N : Type) where
  | t (t : T)
  | n (n : N)
  deriving DecidableEq, Repr

structure Grammar (T N : Type) where
  rules : N → List (List (Sym T N))
  start : N
  /-- at least the number of alternatives, to bound a closure -/
  size : Nat
  /-- precedence levels, all of them left-associative -/
  prec : T → Option Nat

/-- A rule with a dot. What stands before it is kept last symbol first, as it
lies on a stack. -/
structure Item (T N : Type) where
  lhs : N
  done : List (Sym T N)
  rest : List (Sym T N)
  deriving DecidableEq, Repr

variable {T N K : Type}

/-! ### The automaton -/

def headNonterminal : List (Sym T N) → Option N
  | .n A :: _ => some A
  | _ => none

theorem mem_of_headNonterminal {rhs : List (Sym T N)} {A : N}
    (h : headNonterminal rhs = some A) : Sym.n A ∈ rhs := by
  match rhs with
  | [] => cases h
  | .t t :: rest => cases h
  | .n B :: rest =>
      cases h
      exact List.mem_cons_self

def headTerminal : List (Sym T N) → Option T
  | .t t :: _ => some t
  | _ => none

namespace Grammar

variable [DecidableEq T] [DecidableEq N] (g : Grammar T N)

/-- The nonterminals whose rules a closure adds. Each is expanded once. -/
def reach : Nat → List N → List N → List N
  | 0, _, seen => seen
  | _ + 1, [], seen => seen
  | fuel + 1, A :: pending, seen =>
      if A ∈ seen then reach fuel pending seen
      else reach fuel ((g.rules A).filterMap headNonterminal ++ pending) (A :: seen)

def initial (A : N) : List (Item T N) := (g.rules A).map fun rhs => ⟨A, [], rhs⟩

def closure (kernel : List (Item T N)) : List (Item T N) :=
  let pending := kernel.filterMap fun i => headNonterminal i.rest
  kernel ++ (g.reach (pending.length + g.size) pending []).flatMap g.initial

def advance (X : Sym T N) (i : Item T N) : Option (Item T N) :=
  match i.rest with
  | Y :: rest => if Y = X then some ⟨i.lhs, X :: i.done, rest⟩ else none
  | [] => none

def goto (kernel : List (Item T N)) (X : Sym T N) : List (Item T N) :=
  (g.closure kernel).filterMap (advance X)

/-- The kernel of the state reached over the symbols of a stack, top first. -/
def stateOf : List (Sym T N) → List (Item T N)
  | [] => g.initial g.start
  | X :: below => g.goto (stateOf below) X

/-- The precedence of a rule is that of its last terminal. -/
def rulePrec (rhs : List (Sym T N)) : Option Nat :=
  (rhs.reverse.findSome? fun
    | .t t => some t
    | .n _ => none).bind g.prec

def prefersReduce (rhs : List (Sym T N)) (t : T) : Bool :=
  match g.rulePrec rhs, g.prec t with
  | some rule, some token => token ≤ rule
  | _, _ => false

end Grammar

section Action

variable [DecidableEq T]

def shiftable (items : List (Item T N)) (t : T) : Bool :=
  items.any fun i => headTerminal i.rest = some t

inductive Action (T N : Type) where
  | shift
  | reduce (rule : Item T N)
  | error
  deriving DecidableEq, Repr

/-- The move of a state on a token; `none` is the end of the input. -/
def Grammar.action (g : Grammar T N) (items : List (Item T N)) (look : Option T) : Action T N :=
  match items.filter fun i => i.rest.isEmpty, look with
  | [], some t => if shiftable items t then .shift else .error
  | [], none => .error
  | [rule], some t =>
      if shiftable items t && !g.prefersReduce rule.done.reverse t then .shift else .reduce rule
  | [rule], none => .reduce rule
  | _ :: _ :: _, _ => .error

/-- On a token that no item shifts a state does what it does at the end. -/
theorem action_of_not_shiftable {g : Grammar T N} {items : List (Item T N)} {t : T}
    (h : shiftable items t = false) : g.action items (some t) = g.action items none := by
  unfold Grammar.action
  generalize items.filter (fun i => i.rest.isEmpty) = complete
  match complete with
  | [] => simp [h]
  | [rule] => simp [h]
  | _ :: _ :: _ => rfl

variable [DecidableEq N]

/-- Whether the state has to see a token before it can move. -/
def Grammar.needsToken (g : Grammar T N) (items : List (Item T N)) : Bool :=
  items.any fun i => (headTerminal i.rest).any fun t => g.action items (some t) = .shift

end Action

/-! ### Trees and configurations -/

inductive Tree (K N : Type) where
  | leaf (token : K)
  | node (lhs : N) (children : List (Tree K N))

namespace Tree

variable (kind : K → T)

def symbol : Tree K N → Sym T N
  | .leaf token => .t (kind token)
  | .node A _ => .n A

mutual

def yield : Tree K N → List K
  | .leaf token => [token]
  | .node _ children => yieldAll children

def yieldAll : List (Tree K N) → List K
  | [] => []
  | tree :: trees => tree.yield ++ yieldAll trees

end

/-- A derivation: every node is an instance of one of the grammar's rules. -/
inductive Valid (g : Grammar T N) : Tree K N → Prop where
  | leaf (token : K) : Valid g (.leaf token)
  | node {A : N} {children : List (Tree K N)} (rule : children.map (symbol kind) ∈ g.rules A)
      (valid : ∀ tree ∈ children, Valid g tree) : Valid g (.node A children)

end Tree

theorem Tree.yieldAll_append (xs ys : List (Tree K N)) :
    Tree.yieldAll (xs ++ ys) = Tree.yieldAll xs ++ Tree.yieldAll ys := by
  induction xs with
  | nil => rfl
  | cons x xs ih => rw [List.cons_append, yieldAll, yieldAll, ih, List.append_assoc]

inductive Look (K : Type) where
  | unread
  | token (token : K)
  | atEnd
  deriving DecidableEq, Repr

namespace Look

def toList : Look K → List K
  | .token k => [k]
  | .unread | .atEnd => []

def isUnread : Look K → Bool
  | .unread => true
  | .token _ | .atEnd => false

/-- What the actions are looked up under; `none` is the end of the input. -/
def terminal (kind : K → T) : Look K → Option T
  | .token k => some (kind k)
  | .unread | .atEnd => none

end Look

/-- A parser at work: its stack, top first, the token it has read ahead, and
what the scanner has left. -/
structure Config (K N : Type) where
  stack : List (Tree K N)
  look : Look K
  input : List K

namespace Config

variable (kind : K → T)

def symbols (c : Config K N) : List (Sym T N) := c.stack.map (Tree.symbol kind)

/-- The text still to be accounted for. -/
def text (c : Config K N) : List K := Tree.yieldAll c.stack.reverse ++ (c.look.toList ++ c.input)

/-- A fresh parser over the rest of the text. -/
def fresh (input : List K) : Config K N := ⟨[], .unread, input⟩

@[simp]
theorem fresh_text (input : List K) : (fresh input : Config K N).text = input := rfl

def read (c : Config K N) : Config K N :=
  match c.input with
  | [] => { c with look := .atEnd }
  | token :: input => { c with look := .token token, input := input }

end Config

inductive Move (K N : Type) where
  | next (c : Config K N)
  /-- a start rule is complete: its derivation, and the parser without it -/
  | accept (tree : Tree K N) (c : Config K N)
  | error

section Step

variable [DecidableEq T] [DecidableEq N]

/-- Replace the symbols of a complete rule by its left-hand side. -/
def Grammar.reduce (g : Grammar T N) (rule : Item T N) (c : Config K N) : Move K N :=
  let children := (c.stack.take rule.done.length).reverse
  let below := c.stack.drop rule.done.length
  if rule.lhs = g.start then .accept (.node rule.lhs children) { c with stack := below }
  else .next { c with stack := .node rule.lhs children :: below }

def shift (c : Config K N) : Move K N :=
  match c.look with
  | .token token => .next ⟨.leaf token :: c.stack, .unread, c.input⟩
  | .unread | .atEnd => .error

/-- The items of the state a parser is in. -/
def Grammar.items (g : Grammar T N) (kind : K → T) (c : Config K N) : List (Item T N) :=
  g.closure (g.stateOf (c.symbols kind))

def Grammar.step (g : Grammar T N) (kind : K → T) (c : Config K N) : Move K N :=
  if c.look.isUnread && g.needsToken (g.items kind c) then .next c.read
  else
    match g.action (g.items kind c) (c.look.terminal kind) with
    | .shift => shift c
    | .reduce rule => g.reduce rule c
    | .error => .error

end Step

/-! ### Items fit the stack -/

section Items

variable [DecidableEq T] [DecidableEq N] {g : Grammar T N}

/-- The start symbol is on no right-hand side. -/
def Grammar.StartApart (g : Grammar T N) : Prop :=
  ∀ A, ∀ rhs ∈ g.rules A, Sym.n g.start ∉ rhs

/-- An item of the state over `stack`: a rule of the grammar whose part before
the dot lies on top of the stack, and is all of it for a start rule. -/
structure Item.Fits (g : Grammar T N) (stack : List (Sym T N)) (i : Item T N) : Prop where
  rule : i.done.reverse ++ i.rest ∈ g.rules i.lhs
  onTop : i.done <+: stack
  whole : i.lhs = g.start → i.done = stack

omit [DecidableEq T] in
/-- Every nonterminal a closure expands stands on some right-hand side. -/
theorem mem_reach (g : Grammar T N) (fuel : Nat) (pending seen : List N)
    (hpending : ∀ A ∈ pending, ∃ B, ∃ rhs ∈ g.rules B, Sym.n A ∈ rhs)
    (hseen : ∀ A ∈ seen, ∃ B, ∃ rhs ∈ g.rules B, Sym.n A ∈ rhs) :
    ∀ A ∈ g.reach fuel pending seen, ∃ B, ∃ rhs ∈ g.rules B, Sym.n A ∈ rhs := by
  induction fuel generalizing pending seen with
  | zero => exact hseen
  | succ fuel ih =>
      cases pending with
      | nil => exact hseen
      | cons A pending =>
          have hrest : ∀ B ∈ pending, ∃ C, ∃ rhs ∈ g.rules C, Sym.n B ∈ rhs :=
            fun B hB => hpending B (List.mem_cons_of_mem _ hB)
          rw [Grammar.reach]
          split
          · exact ih pending seen hrest hseen
          · refine ih _ _ ?_ ?_
            · intro B hB
              rcases List.mem_append.mp hB with hB | hB
              · obtain ⟨rhs, hrhs, hhead⟩ := List.mem_filterMap.mp hB
                exact ⟨A, rhs, hrhs, mem_of_headNonterminal hhead⟩
              · exact hrest B hB
            · intro B hB
              rcases List.mem_cons.mp hB with rfl | hB
              · exact hpending B List.mem_cons_self
              · exact hseen B hB

omit [DecidableEq T] in
theorem fits_closure (hstart : g.StartApart) {kernel : List (Item T N)}
    {stack : List (Sym T N)} (h : ∀ i ∈ kernel, i.Fits g stack) :
    ∀ i ∈ g.closure kernel, i.Fits g stack := by
  intro i hi
  rcases List.mem_append.mp hi with hi | hi
  · exact h i hi
  · obtain ⟨A, hA, hi⟩ := List.mem_flatMap.mp hi
    obtain ⟨rhs, hrhs, rfl⟩ := List.mem_map.mp hi
    refine ⟨hrhs, List.nil_prefix, ?_⟩
    intro hlhs
    -- an added rule's left-hand side stands on a right-hand side
    have hpending : ∀ B ∈ kernel.filterMap fun i => headNonterminal i.rest,
        ∃ C, ∃ rhs ∈ g.rules C, Sym.n B ∈ rhs := by
      intro B hB
      obtain ⟨j, hj, hhead⟩ := List.mem_filterMap.mp hB
      exact ⟨j.lhs, _, (h j hj).rule, List.mem_append_right _ (mem_of_headNonterminal hhead)⟩
    obtain ⟨C, rhs', hrhs', hmem⟩ := mem_reach g _ _ _ hpending (by simp) A hA
    have hA' : A = g.start := hlhs
    rw [hA'] at hmem
    exact absurd hmem (hstart C rhs' hrhs')

theorem fits_advance {stack : List (Sym T N)} {X : Sym T N} {i j : Item T N}
    (h : i.Fits g stack) (hj : Grammar.advance X i = some j) : j.Fits g (X :: stack) := by
  unfold Grammar.advance at hj
  split at hj
  · rename_i Y rest hrest
    split at hj
    · rename_i hsame
      cases hj
      have hrule := h.rule
      rw [hrest, hsame] at hrule
      refine ⟨by simpa using hrule, ?_, ?_⟩
      · exact (List.prefix_cons_inj X).mpr h.onTop
      · intro hlhs
        rw [h.whole hlhs]
    · cases hj
  · cases hj

/-- All items of a state fit the symbols it was reached over. -/
theorem fits_stateOf (hstart : g.StartApart) (stack : List (Sym T N)) :
    ∀ i ∈ g.closure (g.stateOf stack), i.Fits g stack := by
  induction stack with
  | nil =>
      refine fits_closure hstart ?_
      intro i hi
      obtain ⟨rhs, hrhs, rfl⟩ := List.mem_map.mp hi
      exact ⟨hrhs, List.nil_prefix, fun _ => rfl⟩
  | cons X below ih =>
      refine fits_closure hstart ?_
      intro j hj
      obtain ⟨i, hi, hadvance⟩ := List.mem_filterMap.mp hj
      exact fits_advance (ih i hi) hadvance

end Items

/-! ### What a move keeps -/

section Moves

variable [DecidableEq T] [DecidableEq N] {g : Grammar T N} {kind : K → T}

omit [DecidableEq N] in
/-- A rule is reduced only where it is complete. -/
theorem action_reduce {items : List (Item T N)} {look : Option T} {rule : Item T N}
    (h : g.action items look = .reduce rule) : rule ∈ items ∧ rule.rest = [] := by
  have hmem : rule ∈ items.filter fun i => i.rest.isEmpty := by
    unfold Grammar.action at h
    split at h
    · split at h <;> cases h
    · cases h
    · rename_i hfilter
      split at h
      · cases h
      · cases h
        rw [hfilter]
        exact List.mem_singleton.mpr rfl
    · rename_i hfilter
      cases h
      rw [hfilter]
      exact List.mem_singleton.mpr rfl
    · cases h
  obtain ⟨hitem, hempty⟩ := List.mem_filter.mp hmem
  exact ⟨hitem, List.isEmpty_iff.mp hempty⟩

/-- The four things a move can be. -/
theorem step_cases (g : Grammar T N) (kind : K → T) (c : Config K N) :
    (g.needsToken (g.items kind c) = true ∧ c.look = .unread ∧ g.step kind c = .next c.read) ∨
    (∃ token, c.look = .token token ∧
      g.step kind c = .next ⟨.leaf token :: c.stack, .unread, c.input⟩) ∨
    (∃ rule, g.action (g.items kind c) (c.look.terminal kind) = .reduce rule ∧
      (c.look = .unread → g.needsToken (g.items kind c) = false) ∧
      g.step kind c = g.reduce rule c) ∨
    g.step kind c = .error := by
  unfold Grammar.step
  split
  · rename_i hread
    obtain ⟨hunread, hneeds⟩ := Bool.and_eq_true_iff.mp hread
    refine .inl ⟨hneeds, ?_, rfl⟩
    cases hlook : c.look with
    | unread => rfl
    | token token =>
        rw [hlook] at hunread
        cases hunread
    | atEnd =>
        rw [hlook] at hunread
        cases hunread
  · rename_i hread
    refine .inr ?_
    cases haction : g.action (g.items kind c) (c.look.terminal kind) with
    | shift =>
        cases hlook : c.look with
        | token token => exact .inl ⟨token, rfl, by simp only [shift, hlook]⟩
        | unread => exact .inr (.inr (by simp only [shift, hlook]))
        | atEnd => exact .inr (.inr (by simp only [shift, hlook]))
    | reduce rule =>
        refine .inr (.inl ⟨rule, rfl, ?_, rfl⟩)
        intro hlook
        simpa only [hlook, Look.isUnread, Bool.true_and, Bool.not_eq_true] using hread
    | error => exact .inr (.inr rfl)

/-- What holds of a parser throughout: its stack consists of derivations, and
over a token just shifted the next one has been read only if it is needed, and
the end has been seen only where it is. -/
structure Config.Sound (g : Grammar T N) (kind : K → T) (c : Config K N) : Prop where
  valid : ∀ tree ∈ c.stack, tree.Valid kind g
  needed : ∀ token below, c.stack = .leaf token :: below → c.look ≠ .unread →
    g.needsToken (g.items kind c) = true
  atEnd : c.look = .atEnd → c.input = []

theorem fresh_sound (g : Grammar T N) (kind : K → T) (input : List K) :
    (Config.fresh input).Sound g kind := by
  refine ⟨?_, ?_, ?_⟩
  · intro tree htree
    cases htree
  · intro token below hstack
    cases hstack
  · intro hlook
    cases hlook

/-- The symbols of a complete rule are on top of the stack, so putting its
left-hand side over them makes a derivation. -/
theorem reduce_valid (hstart : g.StartApart) {c : Config K N} (hc : c.Sound g kind)
    {rule : Item T N} (hrule : rule ∈ g.items kind c) (hrest : rule.rest = []) :
    Tree.Valid kind g (.node rule.lhs (c.stack.take rule.done.length).reverse) := by
  have hfits : rule.Fits g (c.symbols kind) := fits_stateOf hstart _ rule hrule
  have hdone : (c.stack.take rule.done.length).map (Tree.symbol kind) = rule.done := by
    rw [List.map_take]
    exact (List.prefix_iff_eq_take.mp hfits.onTop).symm
  refine .node ?_ ?_
  · rw [List.map_reverse, hdone]
    simpa only [hrest, List.append_nil] using hfits.rule
  · intro tree htree
    exact hc.valid tree (List.mem_of_mem_take (List.mem_reverse.mp htree))

/-- The text is the same after a move, and the parser as sound. -/
theorem step_next (hstart : g.StartApart) {c c' : Config K N} (hc : c.Sound g kind)
    (h : g.step kind c = .next c') : c'.Sound g kind ∧ c'.text = c.text := by
  rcases step_cases g kind c with
    ⟨hneeds, hlook, hstep⟩ | ⟨token, hlook, hstep⟩ | ⟨rule, haction, -, hstep⟩ | hstep
  · rw [hstep] at h
    cases h
    have hstack : c.read.stack = c.stack := by
      unfold Config.read
      split <;> rfl
    refine ⟨⟨?_, ?_, ?_⟩, ?_⟩
    · rw [hstack]
      exact hc.valid
    · intro token below _ _
      rw [Grammar.items, Config.symbols, hstack]
      exact hneeds
    · unfold Config.read
      split
      · rename_i hinput
        exact fun _ => hinput
      · intro hend
        cases hend
    · unfold Config.text
      rw [hstack, hlook]
      unfold Config.read
      split
      · rename_i hinput
        rw [hinput]
        rfl
      · rename_i hinput
        rw [hinput]
        rfl
  · rw [hstep] at h
    cases h
    refine ⟨⟨?_, ?_, ?_⟩, ?_⟩
    · intro tree htree
      rcases List.mem_cons.mp htree with rfl | htree
      · exact .leaf token
      · exact hc.valid tree htree
    · intro _ _ _ hread
      exact absurd rfl hread
    · intro hend
      cases hend
    · unfold Config.text
      rw [hlook, List.reverse_cons, Tree.yieldAll_append, List.append_assoc]
      rfl
  · rw [hstep] at h
    obtain ⟨hrule, hrest⟩ := action_reduce haction
    unfold Grammar.reduce at h
    split at h
    · cases h
    · cases h
      refine ⟨⟨?_, ?_, hc.atEnd⟩, ?_⟩
      · intro tree htree
        rcases List.mem_cons.mp htree with rfl | htree
        · exact reduce_valid hstart hc hrule hrest
        · exact hc.valid tree (List.mem_of_mem_drop htree)
      · intro token below hstack
        cases hstack
      · have hsplit : c.stack.reverse =
            (c.stack.drop rule.done.length).reverse ++ (c.stack.take rule.done.length).reverse := by
          rw [← List.reverse_append, List.take_append_drop]
        simp only [Config.text, hsplit, List.reverse_cons, Tree.yieldAll_append, Tree.yieldAll,
          Tree.yield, List.append_nil]
  · rw [hstep] at h
    cases h

/-- What is accepted is a derivation of the start symbol, and it is the whole
stack. -/
theorem step_accept (hstart : g.StartApart) {c c' : Config K N} {tree : Tree K N}
    (hc : c.Sound g kind) (h : g.step kind c = .accept tree c') :
    tree.Valid kind g ∧ tree = .node g.start c.stack.reverse ∧ c' = { c with stack := [] } ∧
      (c.look = .unread → g.needsToken (g.items kind c) = false) ∧
      ∃ rule, g.action (g.items kind c) (c.look.terminal kind) = .reduce rule := by
  rcases step_cases g kind c with
    ⟨_, _, hstep⟩ | ⟨_, _, hstep⟩ | ⟨rule, haction, hunread, hstep⟩ | hstep
  · rw [hstep] at h
    cases h
  · rw [hstep] at h
    cases h
  · rw [hstep] at h
    obtain ⟨hrule, hrest⟩ := action_reduce haction
    unfold Grammar.reduce at h
    split at h
    · rename_i hlhs
      have hdone : rule.done.length = c.stack.length := by
        rw [(fits_stateOf hstart _ rule hrule).whole hlhs, Config.symbols, List.length_map]
      have hvalid := reduce_valid hstart hc hrule hrest
      simp only [hdone, List.take_length, List.drop_length, hlhs] at h hvalid
      cases h
      exact ⟨hvalid, rfl, rfl, hunread, rule, haction⟩
    · cases h
  · rw [hstep] at h
    cases h

end Moves

/-! ### Longer inputs -/

section Over

theorem Look.eq_unread {look : Look K} (h : look.isUnread = true) : look = .unread := by
  cases look with
  | unread => rfl
  | token k => cases h
  | atEnd => cases h

/-- The parser with more to read. -/
def Config.over (c : Config K N) (more : List K) : Config K N :=
  { c with input := c.input ++ more }

def Move.over (move : Move K N) (more : List K) : Move K N :=
  match move with
  | .next c => .next (c.over more)
  | .accept tree c => .accept tree (c.over more)
  | .error => .error

variable [DecidableEq T] [DecidableEq N]

/-- A move that does not meet the end of the input is the same with more
behind it. -/
theorem step_over (g : Grammar T N) (kind : K → T) (c : Config K N) (more : List K)
    (hread : c.look = .unread → g.needsToken (g.items kind c) = true → c.input ≠ []) :
    g.step kind (c.over more) = (g.step kind c).over more := by
  have hitems : g.items kind (c.over more) = g.items kind c := rfl
  have hlook : (c.over more).look = c.look := rfl
  rw [Grammar.step, Grammar.step, hitems, hlook]
  split
  · rename_i hneeds
    obtain ⟨hunread, hneeds⟩ := Bool.and_eq_true_iff.mp hneeds
    obtain ⟨k, input, hinput⟩ :=
      List.exists_cons_of_ne_nil (hread (Look.eq_unread hunread) hneeds)
    simp only [Config.read, Config.over, hinput, List.cons_append, Move.over]
  · cases g.action (g.items kind c) (c.look.terminal kind) with
    | shift =>
        dsimp only
        unfold shift
        rw [hlook]
        cases c.look <;> rfl
    | reduce rule =>
        dsimp only
        unfold Grammar.reduce
        by_cases hlhs : rule.lhs = g.start
        · rw [if_pos hlhs, if_pos hlhs]
          rfl
        · rw [if_neg hlhs, if_neg hlhs]
          rfl
    | error => rfl

end Over

end LR
