import DdbShell.Planner.AccessPath
import DdbShell.Execute.SingleWrite

/-!
Clauses that are the same conjunction written in another order, nesting or
parenthesisation. Flattening makes different trees of them, but the probes and
renderings see only the conjuncts: what a tree `conj` has is a permutation of
what the other has. Two things escape this. Parentheses around a
sub-conjunction that one half of a Query drops leave `()` in that half, and a
single write on a table without sort key also takes up the first equality on
the empty name.
-/

namespace DdbShell

open Infix (Token Prec Denotes Conjoins conditions join)

namespace LogicalExpression

/-! ### The conjuncts of a tree -/

mutual

/-- The conjuncts, free of the parentheses around each. -/
def conj : LogicalExpression → List LogicalExpression
  | .leaf negate _ l => [.leaf negate false l]
  | .and _ _ exprlist => conjAll exprlist
  | .or negate _ exprlist => [.or negate true exprlist]

def conjAll : List LogicalExpression → List LogicalExpression
  | [] => []
  | e :: es => e.conj ++ conjAll es

end

theorem conjAll_eq_flatMap (es : List LogicalExpression) : conjAll es = es.flatMap conj := by
  induction es with
  | nil => rfl
  | cons e es ih => rw [conjAll, ih, List.flatMap_cons]

/-- No AND outside the ORs is negated. -/
inductive Conjunctive : LogicalExpression → Prop where
  | leaf (negate parens : Bool) (l : Leaf) : Conjunctive (.leaf negate parens l)
  | or (negate parens : Bool) (exprlist : List LogicalExpression) :
      Conjunctive (.or negate parens exprlist)
  | and (parens : Bool) {exprlist : List LogicalExpression}
      (children : ∀ e ∈ exprlist, Conjunctive e) : Conjunctive (.and false parens exprlist)

/-! ### What the probes see -/

theorem leaves_conj (e : LogicalExpression) : e.leaves = e.conj.flatMap leaves := by
  induction e using induct with
  | leaf negate parens l => rfl
  | or negate parens es ih => simp [conj, leaves]
  | and negate parens es ih =>
      rw [leaves, conj, leavesAll_eq_flatMap, conjAll_eq_flatMap, List.flatMap_assoc]
      exact List.flatMap_congr ih

theorem spine_conj (e : LogicalExpression) : e.spine = e.conj.flatMap spine := by
  induction e using induct with
  | leaf negate parens l => rfl
  | or negate parens es ih => rfl
  | and negate parens es ih =>
      rw [spine, conj, spineAll_eq_flatMap, conjAll_eq_flatMap, List.flatMap_assoc]
      exact List.flatMap_congr ih

theorem querySafe_conj (ks : KeySchemaView) (e : LogicalExpression) :
    e.querySafe ks = e.conj.all (querySafe ks) := by
  induction e using induct with
  | leaf negate parens l => simp [conj, querySafe]
  | or negate parens es ih =>
      rw [conj, List.all_cons, List.all_nil, Bool.and_true]
      rfl
  | and negate parens es ih =>
      rw [querySafe, conj, querySafeAll_eq_all, conjAll_eq_flatMap, List.all_flatMap]
      rw [Bool.eq_iff_iff, List.all_eq_true, List.all_eq_true]
      exact forall₂_congr fun e he => by rw [ih e he]

theorem count_eq_length (e : LogicalExpression) : e.count = e.leaves.length := by
  have hall : ∀ es : List LogicalExpression, (∀ e ∈ es, e.count = e.leaves.length) →
      countAll es = (leavesAll es).length := by
    intro es h
    induction es with
    | nil => rfl
    | cons e es ih =>
        rw [countAll, leavesAll, List.length_append, h e (by simp),
          ih fun e he => h e (List.mem_cons_of_mem _ he)]
  induction e using induct with
  | leaf negate parens l => rfl
  | and negate parens es ih => exact hall es ih
  | or negate parens es ih => exact hall es ih

section Probes

variable {e1 e2 : LogicalExpression} (h : e1.conj.Perm e2.conj)

include h

theorem leaves_perm : e1.leaves.Perm e2.leaves := by
  rw [leaves_conj e1, leaves_conj e2]
  exact h.flatMap_right leaves

theorem spine_perm : e1.spine.Perm e2.spine := by
  rw [spine_conj e1, spine_conj e2]
  exact h.flatMap_right spine

theorem count_congr : e1.count = e2.count := by
  rw [count_eq_length, count_eq_length, (leaves_perm h).length_eq]

theorem countLhs_congr (name : String) : e1.countLhs name = e2.countLhs name := by
  rw [countLhs_eq_countP, countLhs_eq_countP, (leaves_perm h).countP_eq]

theorem countGudKey_congr (name : String) : e1.countGudKey name = e2.countGudKey name := by
  rw [countGudKey_eq_countP, countGudKey_eq_countP, (spine_perm h).countP_eq]

theorem querySafe_congr (ks : KeySchemaView) : e1.querySafe ks = e2.querySafe ks := by
  rw [querySafe_conj, querySafe_conj ks e2, Bool.eq_iff_iff, List.all_eq_true, List.all_eq_true]
  simp only [h.mem_iff]

theorem sortKeyPrefix_congr (ended : Bool) (rk : List String) :
    Where.sortKeyPrefix e1 ended rk = Where.sortKeyPrefix e2 ended rk := by
  induction rk generalizing ended with
  | nil => rfl
  | cons s rest ih => simp only [Where.sortKeyPrefix, countLhs_congr h, ih]

theorem planQuery_congr (pk rk : List String) :
    (Where.mk e1).planQuery pk rk = (Where.mk e2).planQuery pk rk := by
  simp only [Where.planQuery, countGudKey_congr h, countLhs_congr h, sortKeyPrefix_congr h,
    querySafe_congr h]

theorem canGetitem_congr (pk rk : List String) :
    (Where.mk e1).canGetitem pk rk = (Where.mk e2).canGetitem pk rk := by
  simp only [Where.canGetitem, count_congr h, countGudKey_congr h]

theorem canUpdateItem_congr (pk rk : List String) :
    (Where.mk e1).canUpdateItem pk rk = (Where.mk e2).canUpdateItem pk rk := by
  simp only [Where.canUpdateItem, countGudKey_congr h]

end Probes

/-! ### The key -/

/-- What the single write of a table without sort key takes for the name it
does not have: the first non-negated `"" = v` outside every OR. -/
def emptyNameValue (e : LogicalExpression) : Option Value := e.spine.findSome? (keyValue "" "" "")

theorem spine_length_le (e : LogicalExpression) : e.spine.length ≤ e.count := by
  induction e using induct with
  | leaf negate parens l => exact Nat.le_refl _
  | or negate parens es ih => exact Nat.zero_le _
  | and negate parens es ih =>
      rw [spine, count]
      induction es with
      | nil => exact Nat.le_refl _
      | cons e es ihes =>
          have hhead := ih e (by simp)
          have htail := ihes fun e he => ih e (List.mem_cons_of_mem _ he)
          rw [spineAll, countAll, List.length_append]
          omega

theorem isKeyEquality_of_keyValue {pk rk name : String} {s : Bool × Leaf} {v : Value}
    (h : keyValue pk rk name s = some v) : isKeyEquality name s = true := by
  unfold keyValue at h
  split at h
  · cases hp : s.2.predicate with
    | comparison op rhs =>
        simp only [hp] at h
        by_contra hne
        simp [hne] at h
    | _ => simp [hp] at h
  · cases h

/-- A list with one element that has a value gives it wherever it stands. -/
theorem findSome?_eq_of_perm {α β : Type} {f : α → Option β} {p : α → Bool} {xs ys : List α}
    (hperm : xs.Perm ys) (hp : ∀ x v, f x = some v → p x = true) (hone : xs.countP p = 1) :
    xs.findSome? f = ys.findSome? f := by
  have hsingle : ∀ zs : List α, zs.countP p = 1 → ∀ x ∈ zs, p x = true →
      zs.findSome? f = f x := by
    intro zs hzs x hx hpx
    cases hfind : zs.findSome? f with
    | none =>
        rw [List.findSome?_eq_none_iff] at hfind
        exact (hfind x hx).symm
    | some v =>
        obtain ⟨y, hy, hv⟩ := List.exists_of_findSome?_eq_some hfind
        rw [eq_of_countP_eq_one hzs hx hy hpx (hp y v hv), hv]
  obtain ⟨x, hx, hpx⟩ := List.countP_pos_iff.mp (show 0 < xs.countP p by omega)
  rw [hsingle xs hone x hx hpx,
    hsingle ys (hperm.countP_eq p ▸ hone) x (hperm.mem_iff.mp hx) hpx]

theorem keyValue_congr {e1 e2 : LogicalExpression} (h : e1.conj.Perm e2.conj) {pk rk name : String}
    (hone : e1.countGudKey name = 1) :
    e1.spine.findSome? (keyValue pk rk name) = e2.spine.findSome? (keyValue pk rk name) := by
  rw [countGudKey_eq_countP] at hone
  exact findSome?_eq_of_perm (spine_perm h) (fun _ _ => isKeyEquality_of_keyValue) hone

/-- Two keys are the same if they give each name the same value. -/
theorem keyOf_congr {k1 k2 : KeyMap} (h : ∀ name : String, k1[name]? = k2[name]?) :
    keyOf k1 = keyOf k2 :=
  Std.TreeMap.equiv_iff_toList_eq.mp (Std.TreeMap.Equiv.of_forall_constGet?_eq h)

theorem keyValue_other {pk rk name : String} (h : ¬ (name = pk ∨ name = rk)) (s : Bool × Leaf) :
    keyValue pk rk name s = none := by
  rw [keyValue, if_neg h]

/-- With an equality on both names the key does not depend on the order. -/
theorem keyOf_getGudKey_congr {e1 e2 : LogicalExpression} (h : e1.conj.Perm e2.conj)
    {pk rk : String} (hpk : e1.countGudKey pk = 1) (hrk : e1.countGudKey rk = 1) :
    keyOf (e1.getGudKey pk rk) = keyOf (e2.getGudKey pk rk) := by
  refine keyOf_congr fun name => ?_
  rw [getGudKey_getElem?, getGudKey_getElem?]
  by_cases hname : name = pk ∨ name = rk
  · rcases hname with rfl | rfl
    · exact keyValue_congr h hpk
    · exact keyValue_congr h hrk
  · have hnone : ∀ e : LogicalExpression, e.spine.findSome? (keyValue pk rk name) = none := by
      intro e
      rw [List.findSome?_eq_none_iff]
      exact fun s _ => keyValue_other hname s
    rw [hnone e1, hnone e2]

theorem keyValue_empty (pk : String) : keyValue pk "" "" = keyValue "" "" "" := by
  funext s
  simp [keyValue]

/-- Without a sort key it depends on the empty name alone. -/
theorem keyOf_getGudKey_noSortKey {e1 e2 : LogicalExpression} (h : e1.conj.Perm e2.conj)
    {pk : String} (hpk : e1.countGudKey pk = 1) :
    keyOf (e1.getGudKey pk "") = keyOf (e2.getGudKey pk "") ↔
      e1.emptyNameValue = e2.emptyNameValue := by
  constructor
  · intro heq
    have hget : ∀ e : LogicalExpression, (keyOf (e.getGudKey pk "")).lookup "" =
        e.emptyNameValue := by
      intro e
      rw [keyOf, Maps.lookup_toList, getGudKey_getElem?, keyValue_empty, emptyNameValue]
    rw [← hget e1, ← hget e2, heq]
  · intro hempty
    refine keyOf_congr fun name => ?_
    rw [getGudKey_getElem?, getGudKey_getElem?]
    by_cases hname : name = ""
    · subst hname
      rw [keyValue_empty]
      exact hempty
    · by_cases hpkname : name = pk
      · subst hpkname
        exact keyValue_congr h hpk
      · have hnone : ∀ e : LogicalExpression, e.spine.findSome? (keyValue pk "" name) = none := by
          intro e
          rw [List.findSome?_eq_none_iff]
          exact fun s _ => keyValue_other (by simp [hname, hpkname]) s
        rw [hnone e1, hnone e2]

/-! ### What the renderings ask for -/

/-- The condition one conjunct is read as. -/
def reading (e : LogicalExpression) : Infix.Expr Leaf := (Infix.parse e.tokens).getD .empty

def kept (q : Part) (e : LogicalExpression) : List LogicalExpression :=
  e.conj.filter fun x => !x.vacant q

/-- The conditions a part asks for. -/
def asks (q : Part) (e : LogicalExpression) : List (Infix.Expr Leaf) :=
  (e.kept q).flatMap fun x => x.reading.conjuncts

theorem reads_wrapped {p : Prec} {ts : Tokens} {a : Infix.Expr Leaf} (h : Infix.Reads p ts a)
    (negate parens : Bool) :
    Infix.Reads (if negate || parens then .not else p)
      (negatedTokens negate (groupedTokens parens ts)) (if negate then .not a else a) := by
  have hgroup : ∀ {p : Prec} {ts : Tokens}, Infix.Reads p ts a →
      Infix.Reads .not (.lparen :: (ts ++ [.rparen])) a := by
    intro p ts h
    cases p with
    | not => exact .group (.ofAnd (.ofNot h))
    | and => exact .group (.ofAnd h)
    | or => exact .group h
  cases negate with
  | false =>
      cases parens with
      | false => exact h
      | true => exact hgroup h
  | true =>
      cases parens with
      | false => exact .not (hgroup h)
      | true => exact .not (hgroup (hgroup h))

theorem reading_of_reads {p : Prec} {e : LogicalExpression} {a : Infix.Expr Leaf}
    (h : Infix.Reads p e.tokens a) : e.reading = a := by
  have hor : Infix.Reads .or e.tokens a := by
    cases p with
    | not => exact .ofAnd (.ofNot h)
    | and => exact .ofAnd h
    | or => exact h
  rw [reading, Infix.parse_eq_some_iff.mpr hor, Option.getD_some]

/-- The parentheses around a conjunct do not change what it is read as. -/
theorem Grown.conjoins_single {e : LogicalExpression} (h : Grown e) (hand : e.isAnd = false) :
    Conjoins e.level e.tokens (e.conj.flatMap fun x => x.reading.conjuncts) := by
  cases h with
  | and size children grouped bare => cases hand
  | leaf negate parens l =>
      obtain ⟨a, ha, -, hfull⟩ := (Grown.leaf negate parens l).denotes
      refine ⟨a, ha, ?_, hfull⟩
      have hreading : (LogicalExpression.leaf negate false l).reading = a := reading_of_reads ha
      simp [conj, hreading]
  | @or negate parens es size children grouped bare =>
      match es, size with
      | e :: rest, _ =>
          have hjoin := Denotes.join_or e rest fun c hc => (children c hc).denotes.toOr
          obtain ⟨a, ha, -, hfull⟩ := hjoin
          rw [← tokensAll_eq_map] at ha
          refine ⟨_, reads_wrapped ha negate parens, ?_, ?_⟩
          · have hreading := reading_of_reads (e := .or negate true (e :: rest))
              (reads_wrapped ha negate true)
            rw [conj, List.flatMap_singleton, hreading]
          · have hread : a.full = true := by
              rw [hfull, List.all_eq_true]
              exact fun _ _ => rfl
            cases negate <;> exact hread

theorem kept_of_vacant {q : Part} {e : LogicalExpression} (h : e.vacant q = true) :
    e.kept q = [] := by
  rw [kept, List.filter_eq_nil_iff]
  induction e using induct with
  | leaf negate parens l => simpa [conj, vacant] using h
  | or negate parens es ih => simpa [conj, vacant] using h
  | and negate parens es ih =>
      intro x hx
      simp only [vacant, Bool.and_eq_true, vacantAll_eq_all, List.all_eq_true] at h
      rw [conj, conjAll_eq_flatMap] at hx
      obtain ⟨e, he, hxe⟩ := List.mem_flatMap.mp hx
      exact ih e he (h.2 e he) x hxe

theorem kept_and (q : Part) (negate parens : Bool) (es : List LogicalExpression) :
    (LogicalExpression.and negate parens es).kept q =
      (es.filter fun e => !e.vacant q).flatMap (kept q) := by
  rw [kept, conj, conjAll_eq_flatMap, List.filter_flatMap]
  induction es with
  | nil => rfl
  | cons e es ih =>
      cases hv : e.vacant q with
      | false => simp [hv, ih, kept]
      | true =>
          have hnone := kept_of_vacant hv
          rw [kept] at hnone
          simp [hv, ih, hnone]

/-- A part without `()` asks for the conjuncts it keeps, in their order. -/
theorem Grown.part_conjoins {q : Part} {e : LogicalExpression} (h : Grown e)
    (hc : Conjunctive e) (hv : e.vacant q = false) (hfull : e.partFull q = true) :
    Conjoins e.level (e.part q) (e.asks q) := by
  induction e using induct with
  | leaf negate parens l =>
      have hk : q.keep negate l = true := by simpa [vacant] using hv
      have hsingle := h.conjoins_single rfl
      simpa [part, asks, kept, conj, vacant, hk] using hsingle
  | or negate parens es ih =>
      have hk : q.keepOr = true := by simpa [vacant] using hv
      have hsingle := h.conjoins_single rfl
      simpa [part, asks, kept, conj, vacant, hk] using hsingle
  | and negate parens es ih =>
      have hsome := h.part_isEmpty.trans hv
      cases hc with
      | and parens hchildren =>
      cases h with
      | and size children grouped bare =>
          have hpresent : (LogicalExpression.and false parens es).part q = groupedTokens parens
              (join .and ((es.filter fun e => !e.vacant q).map (part q))) := by
            rw [part, presentTokens_isEmpty] at hsome
            rw [part, presentTokens, hsome, filter_partAll fun e he => (children e he).part_isEmpty]
            rfl
          have hvacant := vacantAll_eq_isEmpty q es
          simp only [partFull, Bool.and_eq_true, Bool.not_eq_true', partFullAll_eq_all,
            List.all_eq_true] at hfull
          have hmem : ∀ c ∈ es.filter fun e => !e.vacant q, c ∈ es ∧ c.vacant q = false := by
            simp [List.mem_filter]
          rw [hpresent, asks, kept_and, List.flatMap_assoc]
          generalize es.filter (fun e => !e.vacant q) = kids at hvacant hmem ⊢
          cases kids with
          | nil =>
              -- nothing is left, so there would be a `()` or nothing at all
              cases parens <;> simp_all [vacant]
          | cons e rest =>
              have hjoin : Conjoins .and (join .and ((e :: rest).map (part q)))
                  ((e :: rest).flatMap (asks q)) := Conjoins.join_and e rest fun c hcmem => by
                obtain ⟨hin, hcv⟩ := hmem c hcmem
                have hchild := ih c hin (children c hin) (hchildren c hin) hcv (hfull.2 c hin)
                have hgrouped := grouped c hin
                cases c with
                | leaf n p l => exact hchild.toAnd
                | and n p cs =>
                    rw [level] at hchild
                    split at hchild
                    · exact hchild.toAnd
                    · exact hchild
                | or n p cs =>
                    have hparens : p = true := hgrouped rfl
                    subst hparens
                    rw [level, Bool.or_true, if_pos rfl] at hchild
                    exact hchild.toAnd
              cases parens with
              | false => exact hjoin
              | true => exact hjoin.group

/-- The conditions of a rendered part, if it is one. -/
theorem Grown.conditions_part {e : LogicalExpression} (h : Grown e) (hc : Conjunctive e)
    (q : Part) : conditions (e.part q) = if e.partFull q then some (e.asks q) else none := by
  cases hv : e.vacant q with
  | true =>
      have hnil : (e.part q).isEmpty = true := by rw [h.part_isEmpty, hv]
      rw [conditions, if_pos hnil, partFull_of_vacant hv, if_pos rfl, asks, kept_of_vacant hv]
      rfl
  | false =>
      cases hfull : e.partFull q with
      | true => exact (h.part_conjoins hc hv hfull).conditions_eq
      | false =>
          have hdenotes := h.part_denotes hv
          rw [hfull] at hdenotes
          exact hdenotes.conditions_of_not_full

/-- The part that keeps everything. -/
def wholePart : Part := ⟨fun _ _ => true, true⟩

theorem Grown.part_whole {e : LogicalExpression} (h : Grown e) :
    e.part wholePart = e.tokens ∧ e.vacant wholePart = false ∧ e.partFull wholePart = true :=
  h.part_of_keep rfl fun _ _ => rfl

end LogicalExpression

/-! ### Clauses -/

/-- A leaf predicate or an OR group, as a clause writes it, with the parity of
the NOTs in front. -/
inductive Conjunct where
  | element (negated : Bool) (e : Element)
  | group (negated : Bool) (l : SourceExpr .or) (r : SourceExpr .and)

/-- NOT in front of a conjunct. IS NOT NULL is two predicates and has no
negation that is one. -/
def Conjunct.not : Conjunct → Option Conjunct
  | .element _ (.isNotNull _) => none
  | .element negated e => some (.element (!negated) e)
  | .group negated l r => some (.group (!negated) l r)

/-- The conjuncts of a clause, if it is a conjunction of leaf predicates and OR
groups: parentheses and association are forgotten. -/
def SourceExpr.conjuncts : {p : Prec} → SourceExpr p → Option (List Conjunct)
  | _, .element e => some [.element false e]
  | _, .not e =>
      match e.conjuncts with
      | some [c] => c.not.map fun c => [c]
      | _ => none
  | _, .paren e => e.conjuncts
  | _, .ofNot e => e.conjuncts
  | _, .and l r =>
      match l.conjuncts, r.conjuncts with
      | some cs, some ds => some (cs ++ ds)
      | _, _ => none
  | _, .ofAnd e => e.conjuncts
  | _, .or l r => some [.group false l r]

/-- The two clauses are conjunctions of the same leaf predicates and OR groups,
each as often in one as in the other. -/
def Reordered (c1 c2 : SourceExpr .or) : Prop :=
  ∃ cs ds, c1.conjuncts = some cs ∧ c2.conjuncts = some ds ∧ cs.Perm ds

open LogicalExpression

/-- The trees of a conjunct, free of parentheses. -/
def Conjunct.trees : Conjunct → List LogicalExpression
  | .element negated e => if negated then e.build.negate.conj else e.build.conj
  | .group negated l r => [.or negated true (makeOr l.build r.build).exprlist]

namespace LogicalExpression

theorem conj_setParenGroup (e : LogicalExpression) : e.setParenGroup.conj = e.conj := by
  cases e <;> rfl

theorem Conjunctive.setParenGroup {e : LogicalExpression} (h : Conjunctive e) :
    Conjunctive e.setParenGroup := by
  cases h with
  | leaf negate parens l => exact .leaf _ _ _
  | or negate parens es => exact .or _ _ _
  | and parens children => exact .and true children

theorem conjAll_append (xs ys : List LogicalExpression) :
    conjAll (xs ++ ys) = conjAll xs ++ conjAll ys := by
  simp [conjAll_eq_flatMap]

theorem Conjunctive.makeAnd {e1 e2 : LogicalExpression} (h1 : Conjunctive e1)
    (h2 : Conjunctive e2) :
    Conjunctive (makeAnd e1 e2) ∧ (LogicalExpression.makeAnd e1 e2).conj = e1.conj ++ e2.conj := by
  unfold LogicalExpression.makeAnd
  split
  · rename_i hsplice
    cases h1 with
    | leaf negate parens l => cases hsplice.2.1
    | or negate parens es => cases hsplice.2.1
    | and parens children =>
        cases h2 with
        | leaf negate parens l => cases hsplice.2.2.1
        | or negate parens es => cases hsplice.2.2.1
        | and parens' children' =>
            refine ⟨.and parens (List.forall_mem_append.mpr ⟨children, children'⟩), ?_⟩
            simp [pushBack, conj, exprlist, conjAll_append]
  · split
    · rename_i happend
      cases h1 with
      | leaf negate parens l => cases happend.2
      | or negate parens es => cases happend.2
      | and parens children =>
          refine ⟨.and parens (List.forall_mem_append.mpr ⟨children, by simpa using h2⟩), ?_⟩
          simp [pushBack, conj, conjAll_append, conjAll]
    · refine ⟨.and false (by simpa using ⟨h1, h2⟩), ?_⟩
      simp [conj, conjAll]

theorem makeOr_flags {e1 e2 : LogicalExpression} (h2 : e2.isOr → e2.isParenGroup) :
    ∃ parens, LogicalExpression.makeOr e1 e2 =
      .or false parens (LogicalExpression.makeOr e1 e2).exprlist := by
  unfold LogicalExpression.makeOr
  split
  · rename_i hsplice
    obtain ⟨_, _, hor, _, hparens⟩ := hsplice
    simp [h2 hor] at hparens
  · split
    · rename_i happend
      cases e1 with
      | or negate parens es =>
          have hneg : negate = false := by simpa [isNegated] using happend.1
          subst hneg
          exact ⟨parens, rfl⟩
      | leaf negate parens l => cases happend.2
      | and negate parens es => cases happend.2
    · exact ⟨false, rfl⟩

theorem Grown.conj_length {e : LogicalExpression} (h : Grown e) : 1 ≤ e.conj.length := by
  induction e using induct with
  | leaf negate parens l => exact Nat.le_refl _
  | or negate parens es ih => exact Nat.le_refl _
  | and negate parens es ih =>
      cases h with
      | and size children grouped bare =>
          match es, size with
          | e :: rest, _ =>
              have hhead := ih e (by simp) (children e (by simp))
              rw [conj, conjAll, List.length_append]
              omega

/-- A tree with one conjunct is no AND. -/
theorem Grown.isAnd_of_single {e : LogicalExpression} (h : Grown e) (hone : e.conj.length = 1) :
    e.isAnd = false := by
  cases h with
  | leaf negate parens l => rfl
  | or size children grouped bare => rfl
  | @and negate parens es size children grouped bare =>
      match es, size with
      | e :: f :: rest, _ =>
          have he := (children e (by simp)).conj_length
          have hf := (children f (by simp)).conj_length
          rw [conj, conjAll, conjAll, List.length_append, List.length_append] at hone
          omega

end LogicalExpression

/-- Only IS NOT NULL is built to more than one leaf. -/
theorem Element.build_leaf {e : Element} (h : ∀ lhs, e ≠ .isNotNull lhs) :
    ∃ negate l, e.build = .leaf negate false l := by
  cases e with
  | isNotNull lhs => exact absurd rfl (h lhs)
  | comparison lhs op rhs => cases op <;> exact ⟨_, _, rfl⟩
  | size lhs op rhs => cases op <;> exact ⟨_, _, rfl⟩
  | _ => exact ⟨_, _, rfl⟩

theorem Conjunct.trees_not {c d : Conjunct} (h : c.not = some d) :
    c.trees.length = 1 ∧ ∀ e : LogicalExpression, e.isAnd = false → e.conj = c.trees →
      e.negate.conj = d.trees := by
  cases c with
  | group negated l r =>
      cases h
      refine ⟨rfl, fun e hand hconj => ?_⟩
      cases e with
      | and negate parens es => cases hand
      | leaf negate parens l => cases hconj
      | or negate parens es =>
          cases hconj
          rfl
  | element negated el =>
      have hleaf : ∀ lhs, el ≠ .isNotNull lhs := by
        rintro lhs rfl
        cases h
      obtain ⟨negate, l, hbuild⟩ := Element.build_leaf hleaf
      have hd : d = .element (!negated) el := by
        cases el with
        | isNotNull lhs => exact absurd rfl (hleaf lhs)
        | _ => cases h; rfl
      have htrees : ∀ b, (Conjunct.element b el).trees = [.leaf (xor b negate) false l] := by
        intro b
        cases b <;> simp [trees, hbuild, LogicalExpression.negate, conj]
      rw [hd, htrees, htrees]
      refine ⟨rfl, fun e hand hconj => ?_⟩
      cases e with
      | and negate parens es => cases hand
      | or negate parens es => cases hconj
      | leaf negate' parens l' =>
          cases hconj
          simp [LogicalExpression.negate, conj]

theorem Element.conjunctive_build (e : Element) : Conjunctive e.build := by
  cases e with
  | isNotNull lhs =>
      refine .and false fun e he => ?_
      rcases List.mem_cons.mp he with rfl | he
      · exact .leaf _ _ _
      · rw [List.mem_singleton.mp he]
        exact .leaf _ _ _
  | comparison lhs op rhs => cases op <;> exact .leaf _ _ _
  | size lhs op rhs => cases op <;> exact .leaf _ _ _
  | _ => exact .leaf _ _ _

/-- Whatever the flattening did, a clause that is a conjunction is built to the
trees of its conjuncts, in their order. -/
theorem SourceExpr.conj_build {p : Prec} (c : SourceExpr p) {cs : List Conjunct}
    (h : c.conjuncts = some cs) :
    Conjunctive c.build ∧ c.build.conj = cs.flatMap Conjunct.trees := by
  induction c generalizing cs with
  | element e =>
      cases h
      exact ⟨e.conjunctive_build, by simp [Conjunct.trees, build]⟩
  | not e ih =>
      rw [conjuncts] at h
      split at h
      · rename_i c hc
        obtain ⟨d, hd, rfl⟩ := Option.map_eq_some_iff.mp h
        obtain ⟨-, hconj⟩ := ih hc
        rw [List.flatMap_singleton] at hconj
        obtain ⟨hone, hnot⟩ := Conjunct.trees_not hd
        have hand := e.grown_build.1.isAnd_of_single (hconj ▸ hone)
        refine ⟨?_, ?_⟩
        · rw [build]
          cases htree : e.build with
          | leaf negate parens l => exact .leaf _ _ _
          | or negate parens es => exact .or _ _ _
          | and negate parens es =>
              rw [htree] at hand
              cases hand
        · rw [build, hnot _ hand hconj, List.flatMap_singleton]
      · cases h
  | paren e ih =>
      obtain ⟨hc, hconj⟩ := ih h
      exact ⟨hc.setParenGroup, by rw [build, conj_setParenGroup, hconj]⟩
  | ofNot e ih => exact ih h
  | ofAnd e ih => exact ih h
  | and l r ihl ihr =>
      rw [conjuncts] at h
      split at h
      · rename_i cs' ds' hl hr
        cases h
        obtain ⟨hcl, hconjl⟩ := ihl hl
        obtain ⟨hcr, hconjr⟩ := ihr hr
        obtain ⟨hc, hconj⟩ := hcl.makeAnd hcr
        exact ⟨hc, by rw [build, hconj, hconjl, hconjr, List.flatMap_append]⟩
      · cases h
  | or l r ihl ihr =>
      cases h
      obtain ⟨parens, hor⟩ : ∃ parens, makeOr l.build r.build =
          .or false parens (makeOr l.build r.build).exprlist := makeOr_flags r.grown_build.2
      rw [build, List.flatMap_singleton, hor]
      exact ⟨.or _ _ _, rfl⟩

/-- Reordered clauses have the same conjuncts as trees. -/
theorem Reordered.conj_perm {c1 c2 : SourceExpr .or} (h : Reordered c1 c2) :
    Conjunctive c1.build ∧ Conjunctive c2.build ∧ c1.build.conj.Perm c2.build.conj := by
  obtain ⟨cs, ds, h1, h2, hperm⟩ := h
  obtain ⟨hc1, hconj1⟩ := c1.conj_build h1
  obtain ⟨hc2, hconj2⟩ := c2.conj_build h2
  rw [hconj1, hconj2]
  exact ⟨hc1, hc2, hperm.flatMap_right _⟩

/-! ### Selects -/

/-- Both ask for the same conditions. A text with an empty group asks for none,
and is the same as no other text, nor as itself. -/
def SameConditions (ts us : Tokens) : Prop :=
  ∃ cs ds, conditions ts = some cs ∧ conditions us = some ds ∧ cs.Perm ds

/-- No parenthesised AND of the clause is left empty by a half of the Query. -/
def halvesFull (c : SourceExpr .or) (plan : QueryKeyPlan) : Bool :=
  c.build.partFull (keyConditionPart plan.view) && c.build.partFull (filterPart plan.view)

/-- What the access path needs: nothing for a GetItem or a Scan. -/
def accessFull (index : Option String) (schema : ResolvedKeySchema) (c : SourceExpr .or) : Bool :=
  (index.isNone && (Where.mk c.build).canGetitem schema.pk schema.rk) ||
    ((Where.mk c.build).planQuery schema.pk schema.rk).all (halvesFull c)

def selectFull (cmd : SelectCmd) (describe : DescribeTable) (c : SourceExpr .or) : Bool :=
  cmd.searchVector.isSome || onVectorIndex cmd describe ||
    match getKeySchema describe cmd.table (cmd.index.getD "") with
    | .ok schema => accessFull cmd.index schema c
    | .error _ => true

section Pair

variable {c1 c2 : SourceExpr .or} (h : Reordered c1 c2)

include h

theorem sameConditions_part_iff (q : Part) :
    SameConditions (c1.build.part q) (c2.build.part q) ↔
      c1.build.partFull q = true ∧ c2.build.partFull q = true := by
  obtain ⟨hc1, hc2, hperm⟩ := h.conj_perm
  rw [SameConditions, c1.grown_build.1.conditions_part hc1,
    c2.grown_build.1.conditions_part hc2]
  constructor
  · rintro ⟨cs, ds, hcs, hds, -⟩
    constructor
    · by_contra hne
      simp [hne] at hcs
    · by_contra hne
      simp [hne] at hds
  · rintro ⟨hfull1, hfull2⟩
    refine ⟨_, _, if_pos hfull1, if_pos hfull2, ?_⟩
    exact (hperm.filter _).flatMap_right _

theorem sameConditions_tokens : SameConditions c1.build.tokens c2.build.tokens := by
  obtain ⟨hpart1, -, hfull1⟩ := c1.grown_build.1.part_whole
  obtain ⟨hpart2, -, hfull2⟩ := c2.grown_build.1.part_whole
  have hsame := (sameConditions_part_iff h wholePart).mpr ⟨hfull1, hfull2⟩
  rwa [hpart1, hpart2] at hsame

/-- A GetItem of reordered clauses addresses the same item. -/
theorem getItemKey_congr {pk rk : List String}
    (hcan : (Where.mk c1.build).canGetitem pk rk = true) :
    keyOf ((Where.mk c1.build).getGudKey pk rk) = keyOf ((Where.mk c2.build).getGudKey pk rk) := by
  obtain ⟨-, -, hperm⟩ := h.conj_perm
  unfold Where.getGudKey
  match pk, rk, hcan with
  | [p], r :: rest, hcan =>
      simp only [Where.canGetitem, Bool.and_eq_true, decide_eq_true_eq] at hcan
      exact keyOf_getGudKey_congr hperm hcan.2.1 hcan.2.2
  | [p], [], hcan =>
      simp only [Where.canGetitem, Bool.and_eq_true, decide_eq_true_eq] at hcan
      refine (keyOf_getGudKey_noSortKey hperm hcan.2).mpr ?_
      -- one predicate in all
      have hspine := spine_perm hperm
      have hlength := spine_length_le c1.build
      rw [hcan.1] at hlength
      cases hone : c1.build.spine with
      | nil =>
          rw [hone] at hspine
          rw [emptyNameValue, emptyNameValue, hone, hspine.nil_eq]
      | cons s rest =>
          rw [hone, List.length_cons] at hlength
          obtain rfl := List.eq_nil_of_length_eq_zero (show rest.length = 0 by omega)
          rw [hone, List.singleton_perm] at hspine
          rw [emptyNameValue, emptyNameValue, hone, hspine]

theorem plansTogether (schema : ResolvedKeySchema) : PlansTogether schema c1 c2 := by
  obtain ⟨-, -, hperm⟩ := h.conj_perm
  intro plan1 plan2 hplan1 hplan2
  rw [planQuery_congr hperm, hplan2] at hplan1
  exact (Option.some.inj hplan1).symm

/-- The classic access paths of two reordered clauses. -/
theorem accessAlike_iff (index : Option String) (schema : ResolvedKeySchema) :
    AccessAlike SameConditions index schema c1 c2 ↔
      accessFull index schema c1 = true ∧ accessFull index schema c2 = true := by
  obtain ⟨-, -, hperm⟩ := h.conj_perm
  have hcan := canGetitem_congr hperm schema.pk schema.rk
  have hplan := planQuery_congr hperm schema.pk schema.rk
  have hsame : getItemServes index schema c2 = getItemServes index schema c1 := by
    rw [getItemServes, getItemServes, hcan]
  have hfull : ∀ c : SourceExpr .or, accessFull index schema c =
      (getItemServes index schema c ||
        ((Where.mk c.build).planQuery schema.pk schema.rk).all (halvesFull c)) := fun c => rfl
  rw [AccessAlike, hfull c1, hfull c2, hsame, ← hplan]
  cases hget : getItemServes index schema c1 with
  | true =>
      rw [getItemServes, Bool.and_eq_true] at hget
      simpa using getItemKey_congr h hget.2
  | false =>
      cases (Where.mk c1.build).planQuery schema.pk schema.rk with
      | none => simp
      | some plan =>
          have hkey := sameConditions_part_iff h (keyConditionPart plan.view)
          have hfilter := sameConditions_part_iff h (filterPart plan.view)
          simp only [Bool.false_eq_true, if_false, true_and, Bool.false_or, Option.all_some,
            halvesFull, Bool.and_eq_true]
          rw [hkey, hfilter]
          exact and_and_and_comm

/-- Reordered clauses are planned alike exactly when neither leaves a
parenthesised AND empty in a half of its Query. -/
theorem planSelect_alike_iff (cmd : SelectCmd) (describe : DescribeTable) (p : String) :
    SelectsAlike SameConditions c1 c2 (selectQueryPlan cmd describe c1)
        (planSelect (cmd.on c1) describe p) (planSelect (cmd.on c2) describe p) ↔
      selectFull cmd describe c1 = true ∧ selectFull cmd describe c2 = true := by
  rw [planSelect_alike (sameConditions_tokens h) (plansTogether h), PlansAlike]
  simp only [selectFull, Bool.or_eq_true]
  cases hvector : cmd.searchVector.isSome || onVectorIndex cmd describe with
  | true =>
      rw [Bool.or_eq_true] at hvector
      rcases hvector with hvector | hvector <;> simp [hvector]
  | false =>
      rw [Bool.or_eq_false_iff] at hvector
      cases hschema : getKeySchema describe cmd.table (cmd.index.getD "") with
      | error err => simp
      | ok schema => simpa [hvector] using accessAlike_iff h cmd.index schema

end Pair

/-! ### Writes -/

namespace BulkCmd

/-- Reordered clauses get the same access exactly when the key of a single
write on a table without sort key does not take an empty name from them. -/
theorem access_eq_iff {c1 c2 : SourceExpr .or} (h : Reordered c1 c2) (cmd : BulkCmd)
    (base : ResolvedKeySchema) :
    (cmd.on c1).access base = (cmd.on c2).access base ↔
      ((Where.mk c1.build).canUpdateItem base.pk base.rk = true → base.rk = [] →
        c1.build.emptyNameValue = c2.build.emptyNameValue) := by
  obtain ⟨-, -, hperm⟩ := h.conj_perm
  have hcan := canUpdateItem_congr hperm base.pk base.rk
  have hpinned : ∀ c, (cmd.on c).pinned base =
      (some (Where.mk c.build)).filter fun w => w.canUpdateItem base.pk base.rk := by
    intro c
    cases cmd <;> rfl
  have hplan : ∀ c, enumerationPlan (cmd.on c).table (cmd.on c).index (cmd.on c).condition base =
      enumerationPlan cmd.table cmd.index (some ⟨c.build⟩) base := by
    intro c
    cases cmd <;> rfl
  unfold access
  rw [hpinned, hpinned, hplan, hplan]
  cases hone : (Where.mk c1.build).canUpdateItem base.pk base.rk with
  | false =>
      have hone2 := hcan.symm.trans hone
      simp only [Option.filter, hone, hone2, Bool.false_eq_true, if_false, false_implies, iff_true]
      congr 1
      unfold enumerationPlan
      cases cmd.index with
      | none => simp only [Option.bind_some, planQuery_congr hperm]
      | some index => simp only [Option.bind_some, planQuery_congr hperm]
  | true =>
      have hone2 := hcan.symm.trans hone
      simp only [Option.filter, hone, hone2, if_true, true_implies]
      rw [pure_one_eq_iff]
      unfold Where.getGudKey
      obtain ⟨pk, rk⟩ := base
      match pk, rk, hone with
      | [p], [], hone =>
          simp only [Where.canUpdateItem, decide_eq_true_eq] at hone
          simpa using keyOf_getGudKey_noSortKey hperm hone
      | [p], r :: rest, hone =>
          simp only [Where.canUpdateItem, Bool.and_eq_true, decide_eq_true_eq] at hone
          simpa using keyOf_getGudKey_congr hperm hone.1 hone.2

end BulkCmd

/-- What is the same for reordered clauses, and exactly when. -/
theorem Reordered.accessPath_iff {c1 c2 : SourceExpr .or} (h : Reordered c1 c2) :
    (∀ (cmd : SelectCmd) (describe : DescribeTable) (p : String),
      SelectsAlike SameConditions c1 c2 (selectQueryPlan cmd describe c1)
          (planSelect (cmd.on c1) describe p) (planSelect (cmd.on c2) describe p) ↔
        selectFull cmd describe c1 = true ∧ selectFull cmd describe c2 = true) ∧
    ∀ cmd : BulkCmd,
      (∀ base : ResolvedKeySchema, (cmd.on c1).access base = (cmd.on c2).access base ↔
        ((Where.mk c1.build).canUpdateItem base.pk base.rk = true → base.rk = [] →
          c1.build.emptyNameValue = c2.build.emptyNameValue)) ∧
      ∀ (explain : Bool) (budget : Nat) (c : SourceExpr .or),
        (cmd.on c).run explain budget = (do
          let base ← resolveKeySchema (cmd.on c).table ""
          let writePrefix ← Exec.nextPrefix
          let access ← (cmd.on c).access base
          (cmd.on c).follow explain budget base writePrefix access) :=
  ⟨planSelect_alike_iff h, fun cmd =>
    ⟨cmd.access_eq_iff h, fun explain budget c => (cmd.on c).run_eq explain budget⟩⟩

section Example

def equals (name number : String) : SourceExpr .not :=
  .element (.comparison name (.op .equal) (.N number))

/-- `pk = 1 AND x = 2 AND y = 3` -/
def plainConjunction : SourceExpr .or :=
  .ofAnd (.and (.and (.ofNot (equals "pk" "1")) (equals "x" "2")) (equals "y" "3"))

/-- `pk = 1 AND (x = 2 AND y = 3)` -/
def groupedConjunction : SourceExpr .or :=
  .ofAnd (.and (.ofNot (equals "pk" "1"))
    (.paren (.ofAnd (.and (.ofNot (equals "x" "2")) (equals "y" "3")))))

/-- `y = 3 AND (pk = 1 AND x = 2)` -/
def turnedConjunction : SourceExpr .or :=
  .ofAnd (.and (.ofNot (equals "y" "3"))
    (.paren (.ofAnd (.and (.ofNot (equals "pk" "1")) (equals "x" "2")))))

def reorderedTable : DescribeTable := fun _ => .ok { keySchema := ⟨["pk"], ["sk"]⟩ }

theorem reordered_grouped : Reordered plainConjunction groupedConjunction :=
  ⟨_, _, rfl, rfl, .refl _⟩

theorem reordered_turned : Reordered plainConjunction turnedConjunction :=
  ⟨_, _, rfl, rfl, @List.perm_append_comm _ [_, _] [_]⟩

/-- A sub-conjunction that keeps a conjunct in each half may be anywhere. -/
theorem turnedConjunction_alike :
    SelectsAlike SameConditions plainConjunction turnedConjunction
      (selectQueryPlan { table := "t" } reorderedTable plainConjunction)
      (planSelect (SelectCmd.on { table := "t" } plainConjunction) reorderedTable "aaa")
      (planSelect (SelectCmd.on { table := "t" } turnedConjunction) reorderedTable "aaa") :=
  ((reordered_turned.accessPath_iff).1 _ _ _).mpr ⟨by decide, by decide⟩

/-- Parentheses around the whole filter empty them in the key condition. -/
theorem groupedConjunction_not_alike :
    Reordered plainConjunction groupedConjunction ∧
    ¬ SelectsAlike SameConditions plainConjunction groupedConjunction
      (selectQueryPlan { table := "t" } reorderedTable plainConjunction)
      (planSelect (SelectCmd.on { table := "t" } plainConjunction) reorderedTable "aaa")
      (planSelect (SelectCmd.on { table := "t" } groupedConjunction) reorderedTable "aaa") := by
  refine ⟨reordered_grouped, fun halike => ?_⟩
  have hfull := ((planSelect_alike_iff reordered_grouped _ _ _).mp halike).2
  revert hfull
  decide

end Example

end DdbShell
