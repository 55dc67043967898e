import DdbShell.Lib.Follow
import Mathlib.Algebra.Order.BigOperators.Group.List
import Mathlib.Algebra.Order.Group.Nat

/-!
Parsers halt. A move that reads nothing is a reduction. A rule with several
parts that are not empty leaves fewer trees on the stack; a rule with one such
part puts it under a nonterminal of higher rank; and an empty rule uses up one
of the nullable symbols behind a dot, of which no state has many, since no rule
begins with one. The potential falls with each of these, and a token brings
only so much of it.
-/

namespace LR

variable {T N K : Type}

section Ranking

/-- Ranks of nonterminals that rise along a rule all but one of whose parts can
be empty. No rule begins with such a part. -/
structure Ranking (g : Grammar T N) where
  rank : N → Nat
  height : Nat
  /-- at least the number of nullable symbols in a rule -/
  width : Nat
  pos : ∀ A, 0 < rank A
  le_height : ∀ A, rank A ≤ height
  le_width : ∀ A, ∀ rhs ∈ g.rules A, rhs.countP g.nullableSym ≤ width
  head : ∀ A, ∀ rhs ∈ g.rules A, ∀ X ∈ rhs.head?, g.nullableSym X = false
  rises : ∀ A, ∀ rhs ∈ g.rules A, rhs.tail.all g.nullableSym = true →
    ∀ B, Sym.n B ∈ rhs.head? → rank B < rank A

variable {g : Grammar T N}

namespace Ranking

variable (r : Ranking g)

def rankSym : Sym T N → Nat
  | .t _ => 0
  | .n A => r.rank A

theorem rankSym_le (X : Sym T N) : r.rankSym X ≤ r.height := by
  cases X with
  | t t => exact Nat.zero_le _
  | n A => exact r.le_height A

/-- What a tree that is not empty is worth on the stack: more than any state's
nullable symbols, for each rank that it can still rise. -/
def weight (kind : K → T) (tree : Tree K N) : Nat :=
  if tree.yield.isEmpty then 0
  else (r.width + 1) * (2 * r.height - r.rankSym (tree.symbol kind))

def weights (kind : K → T) (trees : List (Tree K N)) : Nat := (trees.map (r.weight kind)).sum

/-- What a token is worth before it is shifted. -/
def tokenWeight : Nat := (r.width + 1) * (2 * r.height) + r.width + 2

include r in
theorem nullable_of_all {A : N} {rhs : List (Sym T N)} (hrhs : rhs ∈ g.rules A)
    (hall : rhs.all g.nullableSym = true) : g.nullable A = true := by
  cases rhs with
  | nil => exact List.any_eq_true.mpr ⟨[], hrhs, rfl⟩
  | cons X rest =>
      have hX := r.head A _ hrhs X rfl
      rw [List.all_cons, hX] at hall
      cases hall

end Ranking

/-! ### Nullable symbols behind a dot -/

/-- The nullable symbols at the front. -/
def Grammar.lead (g : Grammar T N) (rest : List (Sym T N)) : Nat :=
  (rest.takeWhile g.nullableSym).length

def Grammar.leading (g : Grammar T N) (items : List (Item T N)) : Nat :=
  items.foldr (fun i n => max (g.lead i.rest) n) 0

theorem lead_le_leading {items : List (Item T N)} {i : Item T N} (hi : i ∈ items) :
    g.lead i.rest ≤ g.leading items := by
  induction items with
  | nil => cases hi
  | cons j items ih =>
      rcases List.mem_cons.mp hi with rfl | hi
      · exact Nat.le_max_left _ _
      · exact Nat.le_trans (ih hi) (Nat.le_max_right _ _)

theorem leading_le {items : List (Item T N)} {n : Nat} (h : ∀ i ∈ items, g.lead i.rest ≤ n) :
    g.leading items ≤ n := by
  induction items with
  | nil => exact Nat.zero_le n
  | cons i items ih =>
      exact Nat.max_le.mpr
        ⟨h i List.mem_cons_self, ih fun j hj => h j (List.mem_cons_of_mem i hj)⟩

theorem lead_le_countP (rest : List (Sym T N)) : g.lead rest ≤ rest.countP g.nullableSym := by
  induction rest with
  | nil => exact Nat.le_refl _
  | cons X rest ih =>
      rw [Grammar.lead, List.takeWhile_cons, List.countP_cons]
      cases g.nullableSym X with
      | true => exact Nat.succ_le_succ ih
      | false => exact Nat.zero_le _

theorem lead_of_rule (r : Ranking g) {A : N} {rhs : List (Sym T N)} (hrhs : rhs ∈ g.rules A) :
    g.lead rhs = 0 := by
  cases rhs with
  | nil => rfl
  | cons X rest =>
      have hX := r.head A _ hrhs X rfl
      rw [Grammar.lead, List.takeWhile_cons, hX]
      rfl

variable [DecidableEq N]

/-- What a closure adds has no nullable symbols in front. -/
theorem lead_closure_le (r : Ranking g) {kernel : List (Item T N)} {n : Nat}
    (h : ∀ i ∈ kernel, g.lead i.rest ≤ n) : ∀ i ∈ g.closure kernel, g.lead i.rest ≤ n := by
  intro i hi
  rcases List.mem_append.mp hi with hi | hi
  · exact h i hi
  · obtain ⟨A, -, hi⟩ := List.mem_flatMap.mp hi
    obtain ⟨rhs, hrhs, rfl⟩ := List.mem_map.mp hi
    rw [lead_of_rule r hrhs]
    exact Nat.zero_le n

/-- A nullable nonterminal that is expanded stands in front of the kernel. -/
theorem reach_nullable (r : Ranking g) (fuel : Nat) (pending seen : List N) {A : N}
    (hnull : g.nullable A = true) (hA : A ∈ g.reach fuel pending seen) :
    A ∈ seen ∨ A ∈ pending := by
  induction fuel generalizing pending seen with
  | zero => exact .inl hA
  | succ fuel ih =>
      cases pending with
      | nil => exact .inl hA
      | cons B pending =>
          rw [Grammar.reach] at hA
          split at hA
          · exact (ih pending seen hA).imp_right (List.mem_cons_of_mem B)
          · rcases ih _ _ hA with hseen | hpending
            · rcases List.mem_cons.mp hseen with rfl | hseen
              · exact .inr List.mem_cons_self
              · exact .inl hseen
            · rcases List.mem_append.mp hpending with hhead | hpending
              · obtain ⟨rhs, hrhs, hhead⟩ := List.mem_filterMap.mp hhead
                cases rhs with
                | nil => cases hhead
                | cons X rest =>
                    have hX := r.head B _ hrhs X rfl
                    cases X with
                    | t t => cases hhead
                    | n C =>
                        obtain rfl := Option.some.inj hhead
                        rw [Grammar.nullableSym, hnull] at hX
                        cases hX
              · exact .inr (List.mem_cons_of_mem B hpending)

omit [DecidableEq N] in
theorem lead_cons_nullable {A : N} (hnull : g.nullable A = true) (rest : List (Sym T N)) :
    g.lead (.n A :: rest) = g.lead rest + 1 := by
  have hsym : g.nullableSym (.n A : Sym T N) = true := hnull
  rw [Grammar.lead, List.takeWhile_cons, hsym]
  rfl

variable [DecidableEq T]

theorem leading_le_width (hstart : g.StartApart) (r : Ranking g) (symbols : List (Sym T N)) :
    g.leading (g.closure (g.stateOf symbols)) ≤ r.width := by
  refine leading_le ?_
  intro i hi
  have hwidth := r.le_width i.lhs _ (fits_stateOf hstart symbols i hi).rule
  rw [List.countP_append] at hwidth
  have hlead := lead_le_countP (g := g) i.rest
  omega

/-- An empty rule uses up a nullable symbol behind the dot. -/
theorem leading_goto_empty (hstart : g.StartApart) (r : Ranking g) {symbols : List (Sym T N)}
    {A : N} (hA : A ≠ g.start) (hi : ⟨A, [], []⟩ ∈ g.closure (g.stateOf symbols)) :
    g.leading (g.closure (g.stateOf (.n A :: symbols))) + 1 ≤
      g.leading (g.closure (g.stateOf symbols)) := by
  have hrule : [] ∈ g.rules A := (fits_stateOf hstart symbols _ hi).rule
  have hnull : g.nullable A = true := List.any_eq_true.mpr ⟨[], hrule, rfl⟩
  -- the nonterminal stands behind a dot
  have hparent : ∃ i ∈ g.closure (g.stateOf symbols), headNonterminal i.rest = some A := by
    rcases List.mem_append.mp hi with hkernel | hadded
    · -- no kernel has an empty rule but the first, and that of the start symbol
      exfalso
      cases symbols with
      | nil =>
          obtain ⟨rhs, -, hrhs⟩ := List.mem_map.mp hkernel
          exact hA (congrArg Item.lhs hrhs).symm
      | cons X below =>
          obtain ⟨j, -, hadvance⟩ := List.mem_filterMap.mp hkernel
          unfold Grammar.advance at hadvance
          split at hadvance
          · split at hadvance <;> cases hadvance
          · cases hadvance
    · obtain ⟨B, hB, hitem⟩ := List.mem_flatMap.mp hadded
      obtain ⟨rhs, -, hrhs⟩ := List.mem_map.mp hitem
      obtain rfl : B = A := congrArg Item.lhs hrhs
      rcases reach_nullable r _ _ _ hnull hB with hseen | hpending
      · cases hseen
      · obtain ⟨i, hi, hhead⟩ := List.mem_filterMap.mp hpending
        exact ⟨i, List.mem_append_left _ hi, hhead⟩
  have hlead : ∀ i ∈ g.closure (g.stateOf symbols), ∀ rest, i.rest = .n A :: rest →
      g.lead rest + 1 ≤ g.leading (g.closure (g.stateOf symbols)) := by
    intro i hi rest hrest
    have hle := lead_le_leading (g := g) hi
    rwa [hrest, lead_cons_nullable hnull] at hle
  obtain ⟨i, hi', hhead⟩ := hparent
  have hpos : 0 < g.leading (g.closure (g.stateOf symbols)) := by
    cases hrest : i.rest with
    | nil =>
        rw [hrest] at hhead
        cases hhead
    | cons X rest =>
        rw [hrest] at hhead
        cases X with
        | t t => cases hhead
        | n B =>
            obtain rfl := Option.some.inj hhead
            have hle := hlead i hi' rest hrest
            omega
  refine Nat.add_le_of_le_sub hpos (leading_le (lead_closure_le r ?_))
  intro j hj
  obtain ⟨i, hi, hadvance⟩ := List.mem_filterMap.mp hj
  unfold Grammar.advance at hadvance
  split at hadvance
  · rename_i Y rest hrest
    split at hadvance
    · rename_i hsame
      subst hsame
      obtain rfl := Option.some.inj hadvance
      exact Nat.le_sub_of_add_le (hlead i hi rest hrest)
    · cases hadvance
  · cases hadvance

end Ranking

/-! ### The potential -/

section Weights

variable {g : Grammar T N} (r : Ranking g) (kind : K → T)

theorem weight_le (tree : Tree K N) :
    r.weight kind tree ≤ (r.width + 1) * (2 * r.height - r.rankSym (tree.symbol kind)) := by
  unfold Ranking.weight
  split
  · exact Nat.zero_le _
  · exact Nat.le_refl _

theorem weight_of_yield {tree : Tree K N} (h : tree.yield ≠ []) :
    r.weight kind tree =
      (r.width + 1) * (2 * r.height - r.rankSym (tree.symbol kind)) := by
  unfold Ranking.weight
  rw [if_neg]
  rwa [List.isEmpty_iff]

theorem height_le_weight {tree : Tree K N} (h : tree.yield ≠ []) :
    (r.width + 1) * r.height ≤ r.weight kind tree := by
  rw [weight_of_yield r kind h]
  have hle := r.rankSym_le (tree.symbol kind)
  exact Nat.mul_le_mul_left _ (by omega)

theorem weights_reverse (trees : List (Tree K N)) :
    r.weights kind trees.reverse = r.weights kind trees := by
  rw [Ranking.weights, List.map_reverse, List.sum_reverse, Ranking.weights]

theorem weights_take_drop (n : Nat) (stack : List (Tree K N)) :
    r.weights kind stack = r.weights kind (stack.take n) + r.weights kind (stack.drop n) := by
  rw [Ranking.weights, Ranking.weights, Ranking.weights, ← List.sum_append, ← List.map_append,
    List.take_append_drop]

theorem weight_le_weights {tree : Tree K N} {trees : List (Tree K N)} (h : tree ∈ trees) :
    r.weight kind tree ≤ r.weights kind trees :=
  List.le_sum_of_mem (List.mem_map_of_mem h)

variable {kind}

theorem yieldAll_eq_nil {trees : List (Tree K N)} (h : ∀ tree ∈ trees, tree.yield = []) :
    Tree.yieldAll trees = [] := by
  induction trees with
  | nil => rfl
  | cons tree trees ih =>
      rw [Tree.yieldAll, h tree List.mem_cons_self,
        ih fun t ht => h t (List.mem_cons_of_mem tree ht)]
      rfl

include r in
/-- The first part of a rule is not empty. -/
theorem first_yield {A : N} {first : Tree K N} {others : List (Tree K N)}
    (hvalid : (Tree.node A (first :: others)).Valid kind g) : first.yield ≠ [] := by
  cases hvalid with
  | node hrule hvalid =>
      intro hempty
      have hhead := r.head A _ hrule (first.symbol kind) rfl
      have hnull := nullable_of_yield (fun A rhs hrhs => r.nullable_of_all hrhs)
        (hvalid first List.mem_cons_self) hempty
      rw [hnull] at hhead
      cases hhead

/-- A rule that is not empty loses weight. -/
theorem weight_node {A : N} {children : List (Tree K N)} (hchildren : children ≠ [])
    (hvalid : (Tree.node A children).Valid kind g) :
    r.weight kind (.node A children) + r.width < r.weights kind children := by
  obtain ⟨first, others, rfl⟩ := List.exists_cons_of_ne_nil hchildren
  have hfirst := first_yield r hvalid
  have hnode := weight_le r kind (.node A (first :: others))
  have hpos := r.pos A
  have hrank := r.le_height A
  rw [Tree.symbol, Ranking.rankSym] at hnode
  have hsum : r.weights kind (first :: others) =
      r.weight kind first + r.weights kind others := rfl
  cases hvalid with
  | node hrule hvalid =>
      by_cases hothers : Tree.yieldAll others = []
      · -- one part: its rank is lower
        have hall := nullable_of_yieldAll (fun A rhs hrhs => r.nullable_of_all hrhs)
          (fun t ht => hvalid t (List.mem_cons_of_mem first ht)) hothers
        have hlt : r.rankSym (first.symbol kind) < r.rank A := by
          cases hsymbol : first.symbol kind with
          | t t => exact hpos
          | n B =>
              refine r.rises A _ hrule hall B ?_
              rw [List.map_cons, hsymbol]
              rfl
        have hweight := weight_of_yield r kind hfirst
        have hmul : (r.width + 1) * (2 * r.height - r.rank A) + (r.width + 1) ≤
            (r.width + 1) * (2 * r.height - r.rankSym (first.symbol kind)) := by
          rw [← Nat.mul_succ]
          exact Nat.mul_le_mul_left _ (by omega)
        omega
      · -- several parts: their number falls
        have hsome : ∃ tree ∈ others, tree.yield ≠ [] := by
          by_contra hnone
          push Not at hnone
          exact hothers (yieldAll_eq_nil hnone)
        obtain ⟨tree, htree, hyield⟩ := hsome
        have hle := weight_le_weights r kind htree
        have hweight := height_le_weight r kind hyield
        have hweight' := height_le_weight r kind hfirst
        have hmul : (r.width + 1) * (2 * r.height - r.rank A) + (r.width + 1) ≤
            (r.width + 1) * r.height + (r.width + 1) * r.height := by
          rw [← Nat.mul_succ, ← Nat.mul_add]
          exact Nat.mul_le_mul_left _ (by omega)
        omega

end Weights

section Potential

variable [DecidableEq T] [DecidableEq N] {g : Grammar T N} (r : Ranking g) (kind : K → T)

def Ranking.potential (c : Config K N) : Nat :=
  r.tokenWeight * (c.look.toList.length + c.input.length) +
    c.look.isUnread.toNat + r.weights kind c.stack + g.leading (g.items kind c)

variable {kind}

/-- A reduction lowers the potential. -/
theorem reduce_potential (hstart : g.StartApart) {c c' : Config K N} (hc : c.Sound g kind)
    {rule : Item T N} (hrule : rule ∈ g.items kind c) (hrest : rule.rest = [])
    (h : g.reduce rule c = .next c') : r.potential kind c' < r.potential kind c := by
  unfold Grammar.reduce at h
  split at h
  · cases h
  · rename_i hlhs
    cases h
    have hvalid := reduce_valid hstart hc hrule hrest
    have hfits : rule.Fits g (c.symbols kind) := fits_stateOf hstart _ rule hrule
    simp only [Ranking.potential, Ranking.weights, List.map_cons, List.sum_cons]
    by_cases hdone : rule.done = []
    · obtain ⟨A, done, rest⟩ := rule
      dsimp only at hdone hrest hlhs
      subst hdone hrest
      have hlead := leading_goto_empty hstart r hlhs hrule
      have hempty : r.weight kind (.node A (c.stack.take ([] : List (Sym T N)).length).reverse) =
          0 := rfl
      rw [hempty]
      simp only [Grammar.items, Config.symbols, List.length_nil, List.drop_zero, List.map_cons,
        Tree.symbol] at hlead ⊢
      omega
    · have hlength : (c.stack.take rule.done.length).length = rule.done.length := by
        have hle := hfits.onTop.length_le
        rw [Config.symbols, List.length_map] at hle
        rw [List.length_take, Nat.min_eq_left hle]
      have hchildren : (c.stack.take rule.done.length).reverse ≠ [] := by
        rw [Ne, List.reverse_eq_nil_iff, ← List.length_eq_zero_iff, hlength,
          List.length_eq_zero_iff]
        exact hdone
      have hnode := weight_node r hchildren hvalid
      have hsplit := weights_take_drop r kind rule.done.length c.stack
      have hlead := leading_le_width hstart r
        (Sym.n rule.lhs :: (c.stack.drop rule.done.length).map (Tree.symbol kind))
      rw [weights_reverse] at hnode
      simp only [Ranking.weights] at hnode hsplit
      simp only [Grammar.items, Config.symbols, List.map_cons, Tree.symbol] at hlead ⊢
      omega

/-- Every move that stays with the parser lowers the potential. -/
theorem step_potential (hstart : g.StartApart) {c c' : Config K N} (hc : c.Sound g kind)
    (h : g.step kind c = .next c') : r.potential kind c' < r.potential kind c := by
  rcases step_cases g kind c with
    ⟨-, hlook, hstep⟩ | ⟨token, hlook, hstep⟩ | ⟨rule, haction, -, hstep⟩ | hstep
  · rw [hstep] at h
    cases h
    unfold Config.read
    cases hinput : c.input with
    | nil =>
        simp only [Ranking.potential, Grammar.items, Config.symbols, hlook, hinput,
          Look.toList, Look.isUnread, Bool.toNat_true, Bool.toNat_false]
        omega
    | cons token input =>
        simp only [Ranking.potential, Grammar.items, Config.symbols, hlook, hinput, Look.toList,
          Look.isUnread, Bool.toNat_true, Bool.toNat_false, List.length_cons, List.length_nil,
          Nat.zero_add, Nat.add_comm 1]
        omega
  · rw [hstep] at h
    cases h
    have hweight := weight_le r kind (.leaf token)
    have hlead := leading_le_width hstart r (Sym.t (kind token) :: c.symbols kind)
    rw [Tree.symbol, Ranking.rankSym, Nat.sub_zero] at hweight
    simp only [Ranking.potential, Ranking.weights, Grammar.items, Config.symbols, hlook,
      Look.toList, Look.isUnread, Bool.toNat_true, Bool.toNat_false, List.length_cons,
      List.length_nil, List.map_cons, List.sum_cons, Tree.symbol, Ranking.tokenWeight,
      Nat.mul_add, Nat.mul_one, Nat.zero_add] at hlead ⊢
    omega
  · rw [hstep] at h
    obtain ⟨hrule, hrest⟩ := action_reduce haction
    exact reduce_potential r hstart hc hrule hrest h
  · rw [hstep] at h
    cases h

theorem fresh_potential (input : List K) :
    r.potential kind (.fresh input) = r.tokenWeight * input.length + 1 := by
  have hinitial : ∀ i ∈ g.initial g.start, g.lead i.rest ≤ 0 := by
    intro i hi
    obtain ⟨rhs, hrhs, rfl⟩ := List.mem_map.mp hi
    exact Nat.le_of_eq (lead_of_rule r hrhs)
  have hlead : g.leading (g.items kind (.fresh input)) ≤ 0 :=
    leading_le (lead_closure_le r hinitial)
  rw [Ranking.potential, Nat.le_zero.mp hlead]
  simp only [Config.fresh, Look.toList, Look.isUnread, Ranking.weights, List.map_nil,
    List.sum_nil, List.length_nil, Bool.toNat_true, Nat.zero_add, Nat.add_zero]

/-- A parser that accepts what is not empty had more than a fresh one over the
rest of the text has. -/
theorem accept_potential (hstart : g.StartApart) {c c' : Config K N} {tree : Tree K N}
    (hc : c.Sound g kind) (h : g.step kind c = .accept tree c') (hstack : c.stack ≠ []) :
    r.potential kind (.fresh c'.input) < r.potential kind c := by
  obtain ⟨hvalid, rfl, rfl, -⟩ := step_accept hstart hc h
  have hchildren : c.stack.reverse ≠ [] := fun hnil => hstack (List.reverse_eq_nil_iff.mp hnil)
  have hnode := weight_node r hchildren hvalid
  obtain ⟨first, others, hcons⟩ := List.exists_cons_of_ne_nil hchildren
  rw [hcons] at hvalid
  have hyield : (Tree.node g.start c.stack.reverse).yield ≠ [] := by
    rw [hcons, Tree.yield, Tree.yieldAll]
    exact fun hnil => first_yield r hvalid (List.append_eq_nil_iff.mp hnil).1
  have hheight := height_le_weight r kind hyield
  have hpos : 0 < (r.width + 1) * r.height :=
    Nat.mul_pos (Nat.succ_pos _) (Nat.lt_of_lt_of_le (r.pos g.start) (r.le_height g.start))
  rw [weights_reverse] at hnode
  rw [fresh_potential, Ranking.potential, Nat.mul_add]
  dsimp only
  omega

/-- A token that was read ahead is gone with the parser. -/
theorem token_potential {c : Config K N} {token : K} (hlook : c.look = .token token) :
    r.potential kind (.fresh c.input) < r.potential kind c := by
  rw [fresh_potential, Ranking.potential, hlook, Look.toList, List.length_singleton, Nat.mul_add,
    Nat.mul_one, Ranking.tokenWeight]
  omega

end Potential

end LR
