import DdbShell.Parser.Reading
import DdbShell.Parser.StatementConditions

/-!
The INCLUDE lists of a CREATE TABLE. Its actions pass each list of names on to
its index and the indexes to the command, so the tokens alone say which lists
the command has: those that stand behind an INCLUDE, in their order.
-/

namespace DdbShell

open LR (Config Tree)
open Literal (stringValue)

/-! ### Lists among tokens -/

/-- Names with commas between them. -/
inductive NameList : List SymbolType → List String → Prop where
  | one {t : SymbolType} {name : String} (h : stringValue t = some name) : NameList [t] [name]
  | more {t c : SymbolType} {ts : List SymbolType} {name : String} {names : List String}
      (h : stringValue t = some name) (hc : c.kind = .character ',') (hrest : NameList ts names) :
      NameList (t :: c :: ts) (name :: names)

theorem NameList.concat {ts : List SymbolType} {names : List String} (h : NameList ts names)
    {c t : SymbolType} (hc : c.kind = .character ',') {name : String}
    (ht : stringValue t = some name) : NameList (ts ++ [c, t]) (names ++ [name]) := by
  induction h with
  | one hfirst => exact .more hfirst hc (.one ht)
  | more hfirst hcomma _ ih => exact .more hfirst hcomma ih

/-- The lists behind the INCLUDEs of these tokens. -/
inductive IncludeLists : List SymbolType → List (List String) → Prop where
  | nil : IncludeLists [] []
  | token {t : SymbolType} {ts : List SymbolType} {lists : List (List String)}
      (ht : t.kind ≠ .kind .kInclude) (h : IncludeLists ts lists) : IncludeLists (t :: ts) lists
  | list {t o c : SymbolType} {ss ts : List SymbolType} {names : List String}
      {lists : List (List String)} (ht : t.kind = .kind .kInclude) (hnames : NameList ss names)
      (hc : c.kind = .character ')') (h : IncludeLists ts lists) :
      IncludeLists (t :: o :: (ss ++ c :: ts)) (names :: lists)

theorem IncludeLists.append {ts us : List SymbolType} {lists others : List (List String)}
    (h : IncludeLists ts lists) (h' : IncludeLists us others) :
    IncludeLists (ts ++ us) (lists ++ others) := by
  induction h with
  | nil => exact h'
  | token ht _ ih => exact .token ht ih
  | list ht hnames hc _ ih =>
      rw [List.cons_append, List.cons_append, List.append_assoc, List.cons_append]
      exact .list ht hnames hc ih

theorem includeLists_of_none {ts : List SymbolType} (h : ∀ t ∈ ts, t.kind ≠ .kind .kInclude) :
    IncludeLists ts [] := by
  induction ts with
  | nil => exact .nil
  | cons t ts ih =>
      exact .token (h t List.mem_cons_self) (ih fun u hu => h u (List.mem_cons_of_mem t hu))

/-- The tokens begin with these lists and may go on. -/
def BeginsWithLists (ts : List SymbolType) (lists : List (List String)) : Prop :=
  ∃ us more, ts = us ++ more ∧ IncludeLists us lists

namespace BeginsWithLists

variable {t : SymbolType} {ts : List SymbolType} {lists : List (List String)}

theorem of_cons (h : BeginsWithLists (t :: ts) lists) (ht : t.kind ≠ .kind .kInclude) :
    BeginsWithLists ts lists := by
  obtain ⟨us, more, heq, hlists⟩ := h
  cases hlists with
  | nil => exact ⟨[], ts, rfl, .nil⟩
  | token _ hrest =>
      obtain ⟨rfl, rfl⟩ := List.cons.inj heq
      exact ⟨_, more, rfl, hrest⟩
  | list hinclude =>
      obtain ⟨rfl, -⟩ := List.cons.inj heq
      exact absurd hinclude ht

theorem of_append {us : List SymbolType} (h : BeginsWithLists (us ++ ts) lists)
    (hus : ∀ u ∈ us, u.kind ≠ .kind .kInclude) : BeginsWithLists ts lists := by
  induction us with
  | nil => exact h
  | cons u us ih =>
      exact ih (h.of_cons (hus u List.mem_cons_self)) fun v hv => hus v (List.mem_cons_of_mem u hv)

/-- Behind an INCLUDE and a parenthesis stands the first list. -/
theorem first_list {o : SymbolType} {names : List String}
    (h : BeginsWithLists (t :: o :: ts) (names :: lists)) (ht : t.kind = .kind .kInclude) :
    ∃ ss c us, ts = ss ++ c :: us ∧ NameList ss names ∧ c.kind = .character ')' ∧
      BeginsWithLists us lists := by
  obtain ⟨us, more, heq, hlists⟩ := h
  cases hlists with
  | token hnot _ =>
      obtain ⟨rfl, -⟩ := List.cons.inj heq
      exact absurd ht hnot
  | @list _ _ c ss vs _ _ _ hnames hc hrest =>
      obtain ⟨-, heq⟩ := List.cons.inj heq
      obtain ⟨-, rfl⟩ := List.cons.inj heq
      exact ⟨ss, c, vs ++ more, List.append_assoc ss (c :: vs) more, hnames, hc, vs, more, rfl,
        hrest⟩

end BeginsWithLists

/-! ### The lists of a value -/

def Projection.included (p : Projection) : List (List String) :=
  if p.type = .include then [p.nonKeyAttributes] else []

def CreateTableCmd.included (cmd : CreateTableCmd) : List (List String) :=
  (cmd.gsis.flatMap fun index => index.projection.included) ++
    (cmd.lsis.flatMap fun index => index.projection.included) ++
      cmd.vectorIndexes.flatMap fun index => index.projection.included

def Semantic.included : Semantic → List (List String)
  | .projection p => p.included
  | .gsi index => index.projection.included
  | .gsis list => list.flatMap fun index => index.projection.included
  | .lsi index => index.projection.included
  | .lsis list => list.flatMap fun index => index.projection.included
  | .vectorIndex index => index.projection.included
  | .vectorIndexes list => list.flatMap fun index => index.projection.included
  | .command (.explainable (.createTable cmd)) => cmd.included
  | _ => []

/-! ### The nonterminals of a CREATE TABLE -/

/-- Those with indexes in them. -/
def indexing : List Nonterminal := [
  .createTableCommand, .gsiList, .gsiSpecification, .gsi, .lsiList, .lsiSpecification, .lsi,
  .vectorIndexList, .vectorIndexSpecification, .vectorIndex, .indexProjection]

/-- Those with none. -/
def settled : List Nonterminal := [
  .ifNotExistsClause, .nowaitClause, .string, .attributeNameTypeList, .attributeNameType,
  .attributeType, .primaryKey, .keySchema, .keyRoleList, .keyRole, .keyAttrGroup,
  .keyAttrNameList, .billingModeAndThroughput, .optionalBillingModeAndThroughput,
  .warmThroughput, .optionalWarmThroughput, .vsiKeyword, .vectorDistanceFunction,
  .optionalVectorSearchSchema, .vectorSearchSchemaList, .vectorSearchSchemaElement,
  .streamSpecification, .optionalStreamSpecification, .streamViewType,
  .optionalSseSpecification, .sseSpecification, .tableClass, .optionalTableClass,
  .deletionProtection, .optionalDeletionProtection, .tableTags, .optionalTableTags,
  .tableTagsList, .tableTag]

theorem settled_closed : (settled.all fun A => (productions A).all fun rhs => rhs.all fun X =>
    match X with
    | .t k => k ≠ .kind .kInclude
    | .n B => B ∈ settled) = true := by
  decide +kernel

/-- There is no INCLUDE but in a projection. -/
theorem settled_plain {tree : ParseTree} (hvalid : tree.Valid SymbolType.kind statementGrammar) :
    ∀ A ∈ settled, tree.symbol SymbolType.kind = nt A →
      ∀ t ∈ tree.yield, t.kind ≠ .kind .kInclude := by
  induction hvalid with
  | leaf token => exact fun A _ hsymbol => by cases hsymbol
  | @node B children hrule hchildren ih =>
      intro A hA hsymbol t ht
      obtain rfl : B = A := LR.Sym.n.inj hsymbol
      obtain ⟨child, hchild, ht⟩ := LR.Tree.mem_yieldAll.mp ht
      have hall := List.all_eq_true.mp (List.all_eq_true.mp settled_closed B hA) _ hrule
      have hone := List.all_eq_true.mp hall _
        (List.mem_map_of_mem (f := Tree.symbol SymbolType.kind) hchild)
      cases child with
      | leaf token =>
          obtain rfl := List.mem_singleton.mp ht
          exact of_decide_eq_true hone
      | node C others => exact ih _ hchild C (of_decide_eq_true hone) rfl t ht

/-! ### The names of a projection -/

theorem string_leaf {tree : ParseTree} (hvalid : tree.Valid SymbolType.kind statementGrammar)
    (hsymbol : tree.symbol SymbolType.kind = nt .string) {name : String}
    (hvalue : actions.value tree = .string name) :
    ∃ t, tree.yield = [t] ∧ stringValue t = some name := by
  cases hvalid with
  | leaf token => cases hsymbol
  | @node A children hrule hchildren =>
      obtain rfl : A = .string := LR.Sym.n.inj hsymbol
      have hone : ∃ k, children.map (Tree.symbol SymbolType.kind) = [.t k] := by
        change children.map _ ∈ productions .string at hrule
        simp only [productions, List.mem_cons, List.not_mem_nil, or_false] at hrule
        rcases hrule with h | h <;> exact ⟨_, h⟩
      obtain ⟨k, hone⟩ := hone
      obtain ⟨x, rfl, hx⟩ := List.map_eq_singleton_iff.mp hone
      obtain ⟨t, rfl, -⟩ := leaf_of_symbol hx
      refine ⟨t, rfl, ?_⟩
      change ((stringValue t).map Semantic.string).getD .other = .string name at hvalue
      cases hstring : stringValue t with
      | none =>
          rw [hstring] at hvalue
          cases hvalue
      | some other =>
          rw [hstring] at hvalue
          cases hvalue
          rfl

theorem namesAction_inv {vs : List Semantic} {names : List String}
    (h : RuleAction.namesAction vs = .names names) :
    (∃ name, vs = [.string name] ∧ names = [name]) ∨
      ∃ before v name, vs = [.names before, v, .string name] ∧ names = before ++ [name] := by
  unfold RuleAction.namesAction RuleAction.listAction at h
  split at h
  · next v =>
      cases v <;> cases h
      exact .inl ⟨_, rfl, rfl⟩
  · next list v w =>
      split at h
      · next before name hbefore hname =>
          cases h
          cases list <;> cases hbefore
          cases w <;> cases hname
          exact .inr ⟨_, _, _, rfl, rfl⟩
      · cases h
  · cases h

theorem names_list {tree : ParseTree} (hvalid : tree.Valid SymbolType.kind statementGrammar) :
    ∀ names, tree.symbol SymbolType.kind = nt .indexProjectionList →
      actions.value tree = .names names → NameList tree.yield names := by
  induction hvalid with
  | leaf token => exact fun _ hsymbol => by cases hsymbol
  | @node A children hrule hchildren ih =>
      intro names hsymbol hvalue
      obtain rfl : A = .indexProjectionList := LR.Sym.n.inj hsymbol
      change RuleAction.namesAction (actions.values children) = .names names at hvalue
      change children.map _ ∈ productions .indexProjectionList at hrule
      simp only [productions, List.mem_cons, List.not_mem_nil, or_false] at hrule
      rcases hrule with hrhs | hrhs
      · obtain ⟨x, rfl, hx⟩ := List.map_eq_singleton_iff.mp hrhs
        rcases namesAction_inv hvalue with ⟨name, hvs, rfl⟩ | ⟨_, _, _, hvs, -⟩
        · obtain ⟨hvaluex, -⟩ := List.cons.inj hvs
          obtain ⟨t, hyield, ht⟩ := string_leaf (hchildren x (by simp)) hx hvaluex
          rw [Tree.yield, Tree.yieldAll, Tree.yieldAll, List.append_nil, hyield]
          exact .one ht
        · cases congrArg List.length hvs
      · obtain ⟨x, y, z, rfl, hx, hy, hz⟩ := children_three hrhs
        obtain ⟨c, rfl, hc⟩ := leaf_of_symbol hy
        rcases namesAction_inv hvalue with ⟨_, hvs, -⟩ | ⟨before, _, name, hvs, rfl⟩
        · cases congrArg List.length hvs
        · obtain ⟨hvaluex, hvs⟩ := List.cons.inj hvs
          obtain ⟨-, hvs⟩ := List.cons.inj hvs
          obtain ⟨hvaluez, -⟩ := List.cons.inj hvs
          obtain ⟨t, hyield, ht⟩ := string_leaf (hchildren z (by simp)) hz hvaluez
          have hfront := ih x (by simp) before hx hvaluex
          rw [Tree.yield, Tree.yieldAll, Tree.yieldAll, Tree.yieldAll, Tree.yieldAll,
            List.append_nil, hyield]
          exact hfront.concat hc ht

/-! ### What the actions pass on -/

/-- The lists of a value, where its symbol has indexes in it. -/
def shares : Symbol → Semantic → List (List String)
  | .t _, _ => []
  | .n A, v => if A ∈ indexing then v.included else []

theorem shares_nt (A : Nonterminal) (v : Semantic) :
    shares (nt A) v = if A ∈ indexing then v.included else [] := rfl

theorem shares_indexing {A : Nonterminal} (h : A ∈ indexing) (v : Semantic) :
    shares (nt A) v = v.included := if_pos h

@[simp]
theorem shares_tok (k : TokenKind) (v : Semantic) : shares (tok k) v = [] := rfl

@[simp]
theorem shares_chr (c : Char) (v : Semantic) : shares (chr c) v = [] := rfl

/-- The action of an indexing symbol has made something. -/
def Made (X : Symbol) (v : Semantic) : Prop := ∀ A ∈ indexing, X = nt A → v ≠ .other

theorem made_of_token (k : Terminal) (v : Semantic) : Made (.t k) v :=
  fun _ _ h => by cases h

@[simp]
theorem made_tok (k : TokenKind) (v : Semantic) : Made (tok k) v := made_of_token _ v

@[simp]
theorem made_chr (c : Char) (v : Semantic) : Made (chr c) v := made_of_token _ v

theorem made_of_ne {X : Symbol} {v : Semantic} (h : v ≠ .other) : Made X v := fun _ _ _ => h

/-- An action made its value of what was made, with all the lists. -/
def PassesOn (rhs : List Symbol) (vs : List Semantic) (v : Semantic) : Prop :=
  List.Forall₂ Made rhs vs ∧ (List.zipWith shares rhs vs).flatten = v.included

section Lists

variable {α : Type} {A B : Nonterminal} {element : Semantic → Option α}
  {elements : Semantic → Option (List α)} {wrap : List α → Semantic}
  {lists : α → List (List String)} {rhs : List Symbol} {vs : List Semantic}

theorem list_passesOn (hA : A ∈ indexing) (hB : B ∈ indexing)
    (helement : ∀ v a, element v = some a → v ≠ .other ∧ v.included = lists a)
    (helements : ∀ v as, elements v = some as → v ≠ .other ∧ v.included = as.flatMap lists)
    (hwrap : ∀ as, (wrap as).included = as.flatMap lists)
    (hrhs : rhs ∈ [[nt B], [nt A, chr ',', nt B]]) (hlength : rhs.length = vs.length)
    (hmade : RuleAction.listAction element elements wrap vs ≠ .other) :
    PassesOn rhs vs (RuleAction.listAction element elements wrap vs) := by
  simp only [List.mem_cons, List.not_mem_nil, or_false] at hrhs
  revert hmade
  fun_cases RuleAction.listAction element elements wrap vs with
  | case1 value =>
      rcases hrhs with rfl | rfl
      · cases hvalue : element value with
        | none => exact fun hmade => absurd rfl hmade
        | some a =>
            obtain ⟨hne, hlists⟩ := helement value a hvalue
            intro _
            refine ⟨.cons (made_of_ne hne) .nil, ?_⟩
            change [shares (nt B) value].flatten = (wrap [a]).included
            rw [shares_indexing hB, hlists, hwrap, List.flatten_singleton, List.flatMap_singleton]
      · cases hlength
  | case2 list v value as a hvalue hlist =>
      rcases hrhs with rfl | rfl
      · cases hlength
      · obtain ⟨hne, hlists⟩ := helement value a hvalue
        obtain ⟨hnes, hlistss⟩ := helements list as hlist
        intro _
        refine ⟨.cons (made_of_ne hnes) (.cons (made_of_token _ _) (.cons (made_of_ne hne) .nil)),
          ?_⟩
        change [shares (nt A) list, [], shares (nt B) value].flatten = (wrap (as ++ [a])).included
        rw [shares_indexing hA, shares_indexing hB, hlists, hlistss, hwrap, List.flatMap_append,
          List.flatMap_singleton]
        simp
  | case3 => exact fun hmade => absurd rfl hmade
  | case4 => exact fun hmade => absurd rfl hmade

/-- The clause of the indexes of one kind. -/
theorem clause_passesOn {X : Symbol} (hB : B ∈ indexing) (hX : ∀ v, shares X v = [])
    (hmadeX : ∀ v, Made X v)
    (helements : ∀ v as, elements v = some as → v ≠ .other ∧ v.included = as.flatMap lists)
    (hwrap : ∀ as, (wrap as).included = as.flatMap lists)
    (hrhs : rhs ∈ [[X, chr '(', nt B, chr ')'], []]) (hlength : rhs.length = vs.length)
    (hmade : RuleAction.clauseAction elements wrap vs ≠ .other) :
    PassesOn rhs vs (RuleAction.clauseAction elements wrap vs) := by
  simp only [List.mem_cons, List.not_mem_nil, or_false] at hrhs
  revert hmade
  fun_cases RuleAction.clauseAction elements wrap vs with
  | case1 =>
      rcases hrhs with rfl | rfl
      · cases hlength
      · exact fun _ => ⟨.nil, (hwrap []).symm⟩
  | case2 u v list w =>
      rcases hrhs with rfl | rfl
      · cases hlist : elements list with
        | none => exact fun hmade => absurd rfl hmade
        | some as =>
            obtain ⟨hne, hlists⟩ := helements list as hlist
            intro _
            refine ⟨.cons (hmadeX _) (.cons (made_of_token _ _) (.cons (made_of_ne hne)
              (.cons (made_of_token _ _) .nil))), ?_⟩
            change [shares X u, [], shares (nt B) list, []].flatten = (wrap as).included
            rw [hX, shares_indexing hB, hlists, hwrap]
            simp
      · cases hlength
  | case3 => exact fun hmade => absurd rfl hmade

end Lists

theorem asGsi_inv {v : Semantic} {gsi : Gsi} (h : RuleAction.asGsi v = some gsi) :
    v ≠ .other ∧ v.included = gsi.projection.included := by
  cases v <;> cases h
  exact ⟨Semantic.noConfusion, rfl⟩

theorem asLsi_inv {v : Semantic} {lsi : Lsi} (h : RuleAction.asLsi v = some lsi) :
    v ≠ .other ∧ v.included = lsi.projection.included := by
  cases v <;> cases h
  exact ⟨Semantic.noConfusion, rfl⟩

theorem asVectorIndex_inv {v : Semantic} {index : VectorIndexDef}
    (h : RuleAction.asVectorIndex v = some index) :
    v ≠ .other ∧ v.included = index.projection.included := by
  cases v <;> cases h
  exact ⟨Semantic.noConfusion, rfl⟩

theorem asGsis_inv {v : Semantic} {list : List Gsi} (h : RuleAction.asGsis v = some list) :
    v ≠ .other ∧ v.included = list.flatMap fun index => index.projection.included := by
  cases v <;> cases h
  exact ⟨Semantic.noConfusion, rfl⟩

theorem asLsis_inv {v : Semantic} {list : List Lsi} (h : RuleAction.asLsis v = some list) :
    v ≠ .other ∧ v.included = list.flatMap fun index => index.projection.included := by
  cases v <;> cases h
  exact ⟨Semantic.noConfusion, rfl⟩

theorem asVectorIndexes_inv {v : Semantic} {list : List VectorIndexDef}
    (h : RuleAction.asVectorIndexes v = some list) :
    v ≠ .other ∧ v.included = list.flatMap fun index => index.projection.included := by
  cases v <;> cases h
  exact ⟨Semantic.noConfusion, rfl⟩

/-- All the actions of a CREATE TABLE but the one that makes a projection. -/
theorem action_passesOn {A : Nonterminal} (hA : A ∈ indexing) (hprojection : A ≠ .indexProjection)
    {rhs : List Symbol} {vs : List Semantic} (hrhs : rhs ∈ productions A)
    (hlength : rhs.length = vs.length) (hmade : ruleAction A vs ≠ .other) :
    PassesOn rhs vs (ruleAction A vs) := by
  have hvsi : ∀ v, shares (nt .vsiKeyword) v = [] := fun _ => rfl
  have hmadeVsi : ∀ v, Made (nt .vsiKeyword) v := by
    intro v A hA hX
    obtain rfl := LR.Sym.n.inj hX
    exact absurd hA (by decide)
  simp only [indexing, List.mem_cons, List.not_mem_nil, or_false] at hA
  rcases hA with rfl | rfl | rfl | rfl | rfl | rfl | rfl | rfl | rfl | rfl | rfl
  · rw [productions, List.mem_singleton] at hrhs
    subst hrhs
    revert hmade
    change RuleAction.createTableAction vs ≠ .other →
      PassesOn _ vs (RuleAction.createTableAction vs)
    fun_cases RuleAction.createTableAction vs with
    | case1 =>
        exact fun _ => ⟨by simp [made_of_ne], by simp [shares_nt, indexing, Semantic.included,
          CreateTableCmd.included]⟩
    | case2 => exact fun hmade => absurd rfl hmade
  · exact clause_passesOn (by decide) (fun _ => rfl) (made_of_token _) (fun _ _ => asGsis_inv)
      (fun _ => rfl) hrhs hlength hmade
  · exact list_passesOn (by decide) (by decide) (fun _ _ => asGsi_inv) (fun _ _ => asGsis_inv)
      (fun _ => rfl) hrhs hlength hmade
  · rw [productions, List.mem_singleton] at hrhs
    subst hrhs
    revert hmade
    change RuleAction.gsiAction vs ≠ .other → PassesOn _ vs (RuleAction.gsiAction vs)
    fun_cases RuleAction.gsiAction vs with
    | case1 =>
        exact fun _ => ⟨by simp [made_of_ne], by simp [shares_nt, indexing, Semantic.included]⟩
    | case2 => exact fun hmade => absurd rfl hmade
  · exact clause_passesOn (by decide) (fun _ => rfl) (made_of_token _) (fun _ _ => asLsis_inv)
      (fun _ => rfl) hrhs hlength hmade
  · exact list_passesOn (by decide) (by decide) (fun _ _ => asLsi_inv) (fun _ _ => asLsis_inv)
      (fun _ => rfl) hrhs hlength hmade
  · rw [productions, List.mem_singleton] at hrhs
    subst hrhs
    revert hmade
    change RuleAction.lsiAction vs ≠ .other → PassesOn _ vs (RuleAction.lsiAction vs)
    fun_cases RuleAction.lsiAction vs with
    | case1 =>
        exact fun _ => ⟨by simp [made_of_ne], by simp [shares_nt, indexing, Semantic.included]⟩
    | case2 => exact fun hmade => absurd rfl hmade
  · exact clause_passesOn (by decide) hvsi hmadeVsi (fun _ _ => asVectorIndexes_inv)
      (fun _ => rfl) hrhs hlength hmade
  · exact list_passesOn (by decide) (by decide) (fun _ _ => asVectorIndex_inv)
      (fun _ _ => asVectorIndexes_inv) (fun _ => rfl) hrhs hlength hmade
  · rw [productions, List.mem_singleton] at hrhs
    subst hrhs
    revert hmade
    change RuleAction.vectorIndexAction vs ≠ .other →
      PassesOn _ vs (RuleAction.vectorIndexAction vs)
    fun_cases RuleAction.vectorIndexAction vs with
    | case1 =>
        exact fun _ => ⟨by simp [made_of_ne], by simp [shares_nt, indexing, Semantic.included]⟩
    | case2 => exact fun hmade => absurd rfl hmade
  · exact absurd rfl hprojection

/-! ### The lists of a derivation -/

theorem indexing_closed : (indexing.all fun A => A = .indexProjection ||
    (productions A).all fun rhs => rhs.all fun X =>
      match X with
      | .t k => k ≠ .kind .kInclude
      | .n B => B ∈ settled ∨ B ∈ indexing) = true := by
  decide +kernel

theorem not_indexing {A : Nonterminal} (h : A ∈ settled) : A ∉ indexing := by
  have hall : (settled.all fun B => B ∉ indexing) = true := by decide +kernel
  exact of_decide_eq_true (List.all_eq_true.mp hall A h)

/-- The only lists are those in parentheses behind an INCLUDE. -/
theorem projection_lists {children : List ParseTree}
    (hvalid : Tree.Valid SymbolType.kind statementGrammar (.node .indexProjection children))
    (hmade : actions.value (.node .indexProjection children) ≠ .other) :
    IncludeLists (Tree.yieldAll children)
      (actions.value (.node .indexProjection children)).included := by
  cases hvalid with
  | node hrule hchildren =>
      have hnone : ∀ {x y : ParseTree} {k l : TokenKind}, x.symbol SymbolType.kind = tok k →
          y.symbol SymbolType.kind = tok l → k ≠ .kInclude → l ≠ .kInclude →
            ∃ t u : SymbolType, x = .leaf t ∧ y = .leaf u ∧ t.kind ≠ .kind .kInclude ∧
              u.kind ≠ .kind .kInclude := by
        intro x y k l hx hy hk hl
        obtain ⟨t, rfl, ht⟩ := leaf_of_symbol hx
        obtain ⟨u, rfl, hu⟩ := leaf_of_symbol hy
        refine ⟨t, u, rfl, rfl, ?_, ?_⟩
        · rw [ht]
          exact fun h => hk (Terminal.kind.inj h)
        · rw [hu]
          exact fun h => hl (Terminal.kind.inj h)
      change children.map _ ∈ productions .indexProjection at hrule
      simp only [productions, List.mem_cons, List.not_mem_nil, or_false] at hrule
      rcases hrule with hrhs | hrhs | hrhs
      · obtain ⟨x, y, rfl, hx, hy⟩ := children_two hrhs
        obtain ⟨t, u, rfl, rfl, ht, hu⟩ := hnone hx hy (by decide) (by decide)
        exact .token ht (.token hu .nil)
      · obtain ⟨x, y, z, rfl, hx, hy, hz⟩ := children_three hrhs
        obtain ⟨t, u, rfl, rfl, ht, hu⟩ := hnone hx hy (by decide) (by decide)
        obtain ⟨w, rfl, hw⟩ := leaf_of_symbol hz
        exact .token ht (.token hu (.token (by rw [hw]; decide) .nil))
      · obtain ⟨x, others, rfl, hx, hothers⟩ := List.map_eq_cons_iff.mp hrhs
        obtain ⟨y, others, rfl, hy, hothers⟩ := List.map_eq_cons_iff.mp hothers
        obtain ⟨o, l, c, rfl, ho, hl, hclose⟩ := children_three hothers
        obtain ⟨t, rfl, ht⟩ := leaf_of_symbol hx
        obtain ⟨i, rfl, hi⟩ := leaf_of_symbol hy
        obtain ⟨o, rfl, -⟩ := leaf_of_symbol ho
        obtain ⟨c, rfl, hc⟩ := leaf_of_symbol hclose
        change RuleAction.projectionAction
          [.token t, .token i, .token o, actions.value l, .token c] ≠ .other at hmade
        change IncludeLists _ (RuleAction.projectionAction
          [.token t, .token i, .token o, actions.value l, .token c]).included
        cases hvalue : actions.value l with
        | names list =>
            have hnames := names_list (hchildren l (by simp)) list hl hvalue
            simp only [Tree.yieldAll, Tree.yield, List.cons_append, List.nil_append]
            exact .token (by rw [ht]; decide) (.list hi hnames hc .nil)
        | _ =>
            rw [hvalue] at hmade
            exact absurd rfl hmade

theorem children_lists {children : List ParseTree}
    (hmade : List.Forall₂ Made (children.map (Tree.symbol SymbolType.kind))
      (actions.values children))
    (h : ∀ child ∈ children, Made (child.symbol SymbolType.kind) (actions.value child) →
      IncludeLists child.yield (shares (child.symbol SymbolType.kind) (actions.value child))) :
    IncludeLists (Tree.yieldAll children) (List.zipWith shares
      (children.map (Tree.symbol SymbolType.kind)) (actions.values children)).flatten := by
  induction children with
  | nil => exact .nil
  | cons child children ih =>
      cases hmade with
      | cons hchild hothers =>
          exact (h child List.mem_cons_self hchild).append
            (ih hothers fun other hother => h other (List.mem_cons_of_mem child hother))

theorem values_length (children : List ParseTree) :
    (actions.values children).length = children.length := by
  induction children with
  | nil => rfl
  | cons child children ih => exact congrArg (· + 1) ih

/-- The lists of a value are those that its tokens have. -/
theorem tree_lists {tree : ParseTree} (hvalid : tree.Valid SymbolType.kind statementGrammar) :
    ∀ A ∈ indexing, tree.symbol SymbolType.kind = nt A → actions.value tree ≠ .other →
      IncludeLists tree.yield (actions.value tree).included := by
  induction hvalid with
  | leaf token => exact fun _ _ hsymbol => by cases hsymbol
  | @node B children hrule hchildren ih =>
      intro A hA hsymbol hmade
      obtain rfl : B = A := LR.Sym.n.inj hsymbol
      by_cases hprojection : B = .indexProjection
      · subst hprojection
        exact projection_lists (.node hrule hchildren) hmade
      · obtain ⟨hall, hlists⟩ := action_passesOn hA hprojection hrule
          (by rw [List.length_map, values_length]) hmade
        change IncludeLists _ (ruleAction B (actions.values children)).included
        rw [← hlists]
        refine children_lists hall fun child hchild hmadeChild => ?_
        have hclosed := List.all_eq_true.mp indexing_closed B hA
        rw [decide_eq_false hprojection, Bool.false_or] at hclosed
        have hone := List.all_eq_true.mp (List.all_eq_true.mp hclosed _ hrule) _
          (List.mem_map_of_mem (f := Tree.symbol SymbolType.kind) hchild)
        cases child with
        | leaf token => exact .token (of_decide_eq_true hone) .nil
        | node C others =>
            rcases of_decide_eq_true hone with hC | hC
            · change IncludeLists _ (shares (nt C) _)
              rw [shares_nt, if_neg (not_indexing hC)]
              exact includeLists_of_none (settled_plain (hchildren _ hchild) C hC rfl)
            · change IncludeLists _ (shares (nt C) _)
              rw [shares_indexing hC]
              exact ih _ hchild C hC rfl (hmadeChild C hC rfl)

/-! ### The lists of a text -/

/-- The commands other than a CREATE TABLE. -/
def notCreating : List Nonterminal := [
  .quitCommand, .showVersionCommand, .helpCommand, .connectCommand, .dropTableCommand,
  .describeCommand, .createBackupCommand, .dropBackupCommand, .describeBackupCommand,
  .restoreCommand, .showBackupsCommand, .showLimitsCommand, .showCreateTableCommand,
  .showTablesCommand, .alterTableCommand, .insertCommand, .replaceCommand, .selectCommand,
  .updateCommand, .upsertCommand, .deleteCommand, .existsCommand, .transactCommand]

theorem notCreating_opens : (notCreating.all fun A => (productions A).all fun rhs =>
    match rhs with
    | .t k :: _ => k ≠ .kind .kCreate
    | _ => false) = true := by
  decide +kernel

theorem passing_creating : (passing.all fun A => (productions A).all fun rhs =>
    match rhs with
    | [.n B] => B ∈ passing ∨ B ∈ notCreating ∨ B = .createTableCommand
    | _ => false) = true := by
  decide +kernel

/-- A command whose tokens begin with CREATE is a CREATE TABLE. -/
theorem command_lists {tree : ParseTree} (hvalid : tree.Valid SymbolType.kind statementGrammar) :
    ∀ A ∈ passing, tree.symbol SymbolType.kind = nt A →
      (∀ t ∈ tree.yield.head?, t.kind = .kind .kCreate) → actions.value tree ≠ .other →
        IncludeLists tree.yield (actions.value tree).included := by
  induction hvalid with
  | leaf token => exact fun _ _ hsymbol => by cases hsymbol
  | @node B children hrule hchildren ih =>
      intro A hA hsymbol hcreate hmade
      obtain rfl : B = A := LR.Sym.n.inj hsymbol
      have haction : ruleAction B = RuleAction.passAction := by
        simp only [passing, List.mem_cons, List.not_mem_nil, or_false] at hA
        rcases hA with rfl | rfl | rfl | rfl | rfl | rfl | rfl | rfl <;> rfl
      have hone := List.all_eq_true.mp (List.all_eq_true.mp passing_creating B hA) _ hrule
      split at hone
      · next C hrhs =>
          obtain ⟨x, rfl, hx⟩ := List.map_eq_singleton_iff.mp hrhs
          have hvalidx := hchildren x (List.mem_singleton_self x)
          have hvalue : actions.value (.node B [x]) = actions.value x := by
            change ruleAction B [actions.value x] = _
            rw [haction]
            rfl
          rw [hvalue] at hmade ⊢
          rw [Tree.yield, Tree.yieldAll, Tree.yieldAll, List.append_nil] at hcreate ⊢
          rcases of_decide_eq_true hone with hC | hC | rfl
          · exact ih x (List.mem_singleton_self x) C hC hx hcreate hmade
          · exfalso
            obtain ⟨others, rfl⟩ := node_of_symbol hx
            cases hvalidx with
            | node hrule' hothers =>
                have hopens := List.all_eq_true.mp (List.all_eq_true.mp notCreating_opens C hC) _
                  hrule'
                split at hopens
                · next k rest hrhs' =>
                    obtain ⟨y, later, rfl, hy, -⟩ := List.map_eq_cons_iff.mp hrhs'
                    obtain ⟨t, rfl, ht⟩ := leaf_of_symbol hy
                    exact of_decide_eq_true hopens (ht.symm.trans (hcreate t rfl))
                · cases hopens
          · exact tree_lists hvalidx .createTableCommand (by decide) hx hmade
      · cases hone

theorem statement_lists {tree : ParseTree} (hvalid : tree.Valid SymbolType.kind statementGrammar)
    (hsymbol : tree.symbol SymbolType.kind = nt .input)
    (hcreate : ∀ t ∈ tree.yield.head?, t.kind = .kind .kCreate) {cmd : CreateTableCmd}
    {explain : Bool}
    (hs : statementOf tree = some ⟨.explainable (.createTable cmd), explain⟩) :
    IncludeLists tree.yield cmd.included := by
  have hcommand : ∀ {x : ParseTree}, x.Valid SymbolType.kind statementGrammar →
      x.symbol SymbolType.kind = nt .command → (∀ t ∈ x.yield.head?, t.kind = .kind .kCreate) →
        actions.value x = .command (.explainable (.createTable cmd)) →
          IncludeLists x.yield cmd.included := by
    intro x hvalidx hx hhead hvalue
    have hlists := command_lists hvalidx .command (by decide) hx hhead
    rw [hvalue] at hlists
    exact hlists Semantic.noConfusion
  rw [statementOf] at hs
  split at hs
  · next statement hvalue =>
      subst hs
      cases hvalid with
      | leaf token => cases hsymbol
      | @node A children hrule hchildren =>
          obtain rfl : A = .input := LR.Sym.n.inj hsymbol
          change children.map _ ∈ productions .input at hrule
          simp only [productions, List.mem_cons, List.not_mem_nil, or_false] at hrule
          have hexplain : ∀ {x : ParseTree} {others : List ParseTree},
              x.symbol SymbolType.kind = tok .kExplain → children = x :: others → False := by
            rintro x others hx rfl
            obtain ⟨t, rfl, ht⟩ := leaf_of_symbol hx
            exact absurd (ht.symm.trans (hcreate t rfl)) (by decide)
          rcases hrule with h | h | h | h | h | h
          · obtain rfl := List.map_eq_nil_iff.mp h
            cases hvalue
          · obtain ⟨k, rfl, hk⟩ := List.map_eq_singleton_iff.mp h
            obtain ⟨t, rfl, -⟩ := leaf_of_symbol hk
            cases hvalue
          · obtain ⟨x, k, rfl, hx, hk⟩ := children_two h
            obtain ⟨t, rfl, ht⟩ := leaf_of_symbol hk
            have hend : IncludeLists [t] [] := .token (by rw [ht]; decide) .nil
            have hnode : actions.value x = .command (.explainable (.createTable cmd)) := by
              change RuleAction.inputAction [actions.value x, .token t] = _ at hvalue
              cases hx : actions.value x <;> rw [hx] at hvalue <;> cases hvalue
              rfl
            have hhead : ∀ u ∈ x.yield.head?, u.kind = .kind .kCreate := by
              intro u hu
              refine hcreate u ?_
              rw [Tree.yield, Tree.yieldAll, List.head?_append, Option.mem_def.mp hu]
              rfl
            have hlists := (hcommand (hchildren x (by simp)) hx hhead hnode).append hend
            rwa [List.append_nil] at hlists
          · obtain ⟨x, rfl, hx⟩ := List.map_eq_singleton_iff.mp h
            have hnode : actions.value x = .command (.explainable (.createTable cmd)) := by
              change RuleAction.inputAction [actions.value x] = _ at hvalue
              cases hx : actions.value x <;> rw [hx] at hvalue <;> cases hvalue
              rfl
            rw [Tree.yield, Tree.yieldAll, Tree.yieldAll, List.append_nil] at hcreate ⊢
            exact hcommand (hchildren x (by simp)) hx hcreate hnode
          · obtain ⟨x, others, rfl, hx, -⟩ := List.map_eq_cons_iff.mp h
            exact (hexplain hx rfl).elim
          · obtain ⟨x, others, rfl, hx, -⟩ := List.map_eq_cons_iff.mp h
            exact (hexplain hx rfl).elim
  · cases hs

/-- Nothing is lost before the first statement of a batch. -/
structure BatchFront (text : List SymbolType) (b : BatchState) : Prop where
  untouched : b.statements = [] → b.phase = .running → b.parser.text = text
  first : ∀ tree ∈ b.statements.head?, tree.yield <+: text

theorem accepted_front {text : List SymbolType} {b : BatchState} (hb : BatchFront text b)
    {tree : ParseTree} {c : Config SymbolType Nonterminal}
    (htext : b.statements = [] → tree.yield ++ (c.look.toList ++ c.input) = text) :
    BatchFront text (b.accepted tree c) := by
  rcases accepted_cases b tree c with ⟨hended, hstatements, -⟩ | ⟨haccepted, -⟩
  · refine ⟨fun _ hrunning => ?_, by rw [hstatements]; exact hb.first⟩
    rcases hended with ⟨hfinished, -⟩ | ⟨statement, hfailed⟩
    · rw [hrunning] at hfinished
      cases hfinished
    · rw [hrunning] at hfailed
      cases hfailed
  · rw [haccepted]
    refine ⟨fun hnone => ?_, ?_⟩
    · rw [BatchState.returned_statements] at hnone
      simp at hnone
    · rw [BatchState.returned_statements]
      intro first hfirst
      cases hstatements : b.statements with
      | nil =>
          rw [hstatements] at hfirst
          obtain rfl : tree = first := by simpa using hfirst
          exact ⟨_, htext hstatements⟩
      | cons statement others =>
          rw [hstatements] at hfirst
          exact hb.first first (by rw [hstatements]; exact hfirst)

theorem step_front {text : List SymbolType} {b : BatchState} (hsound : BatchSound b)
    (hb : BatchFront text b) : BatchFront text b.step := by
  unfold BatchState.step
  split
  · rename_i hphase
    split
    · rename_i parser hstep
      refine ⟨fun hnone _ => ?_, hb.first⟩
      rw [(LR.step_next statementGrammar_startApart hsound.parser hstep).2]
      exact hb.untouched hnone hphase
    · rename_i tree parser hstep
      obtain ⟨-, rfl, rfl, -⟩ := LR.step_accept statementGrammar_startApart hsound.parser hstep
      exact accepted_front hb fun hnone => hb.untouched hnone hphase
    · exact ⟨fun _ h => (by cases h), hb.first⟩
  · exact hb
  · exact hb

theorem parseBatch_front (text : List SymbolType) (n : Nat) :
    BatchFront text (parseBatch text n) := by
  induction n with
  | zero => exact ⟨fun _ _ => rfl, fun tree htree => by cases htree⟩
  | succ n ih => exact step_front (parseBatch_sound text n) ih

/-- The tokens of a text that is one CREATE TABLE begin with its lists. -/
theorem beginsWithLists_of_parsesTo {text : List Char} {cmd : CreateTableCmd} {explain : Bool}
    (h : ParsesTo text [some ⟨.explainable (.createTable cmd), explain⟩])
    (hcreate : ∀ t ∈ (Lexer.lex text).head?, t.kind = .kind .kCreate) :
    BeginsWithLists (Lexer.lex text) cmd.included := by
  obtain ⟨-, hstatements⟩ := h
  rw [statements, List.map_eq_singleton_iff] at hstatements
  obtain ⟨tree, htrees, hs⟩ := hstatements
  obtain ⟨more, hmore⟩ : tree.yield <+: Lexer.lex text :=
    (parseBatch_front _ _).first tree (by rw [← parse, htrees]; rfl)
  have hmem : tree ∈ (parse (Lexer.lex text)).statements := by simp [htrees]
  obtain ⟨hvalid, hsymbol⟩ := (parseBatch_sound _ _).derived tree hmem
  refine ⟨tree.yield, more, hmore.symm, statement_lists hvalid hsymbol ?_ hs⟩
  intro t ht
  refine hcreate t ?_
  rw [← hmore, List.head?_append, Option.mem_def.mp ht]
  rfl

end DdbShell
