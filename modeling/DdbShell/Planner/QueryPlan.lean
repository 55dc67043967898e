import DdbShell.Planner.QueryLegality

/-!
When a clause is planned as a Query. With one partition key and at most one
sort key the four steps of the plan come down to two counts and one safety
check, and a sort key the clause does not mention changes neither half. With
any key lists a conjunction that pins every partition key and a leading run of
sort keys is always planned.
-/

namespace DdbShell

open LogicalExpression

namespace LogicalExpression

/-! ### Views that agree on a tree -/

/-- No leaf of the tree tells the two views apart. -/
def SameKeys (ks ks' : KeySchemaView) (e : LogicalExpression) : Prop :=
  ∀ l ∈ e.leaves, ks.pk.contains l.lhs = ks'.pk.contains l.lhs ∧
    ks.sk.contains l.lhs = ks'.sk.contains l.lhs

theorem mem_leaves_and {negate parens : Bool} {es : List LogicalExpression}
    {e : LogicalExpression} (he : e ∈ es) {l : Leaf} (hl : l ∈ e.leaves) :
    l ∈ (LogicalExpression.and negate parens es).leaves := by
  rw [leaves, leavesAll_eq_flatMap]
  exact List.mem_flatMap.mpr ⟨e, he, hl⟩

theorem leafQuerySafe_congr {ks ks' : KeySchemaView} {l : Leaf}
    (h : ks.pk.contains l.lhs = ks'.pk.contains l.lhs ∧
      ks.sk.contains l.lhs = ks'.sk.contains l.lhs) (negate : Bool) :
    leafQuerySafe ks negate l = leafQuerySafe ks' negate l := by
  cases hp : l.predicate <;> simp only [leafQuerySafe, hp, h.1, h.2]

section Rendering

variable {ks ks' : KeySchemaView}

theorem queryKeyConditionAll_congr {es : List LogicalExpression}
    (h : ∀ e ∈ es, ∀ st, e.doQueryKeyConditionExpression ks st =
      e.doQueryKeyConditionExpression ks' st) (st : SymbolTable) :
    queryKeyConditionAll ks es st = queryKeyConditionAll ks' es st := by
  induction es generalizing st with
  | nil => rfl
  | cons e es ih =>
      have htail := ih fun e he => h e (List.mem_cons_of_mem _ he)
      simp only [queryKeyConditionAll, Alias.bind_apply, Alias.pure_apply, h e (by simp), htail]

theorem doQueryKeyConditionExpression_congr {e : LogicalExpression} (h : SameKeys ks ks' e)
    (st : SymbolTable) :
    e.doQueryKeyConditionExpression ks st = e.doQueryKeyConditionExpression ks' st := by
  induction e using induct generalizing st with
  | leaf negate parens l =>
      have hl := h l (List.mem_singleton_self _)
      have hsame : l.inKeyCondition ks negate = l.inKeyCondition ks' negate := by
        cases hp : l.predicate <;> simp only [Leaf.inKeyCondition, hp, hl.1, hl.2]
      simp only [doQueryKeyConditionExpression, Leaf.doQueryKeyConditionExpression, hsame]
  | and negate parens es ih =>
      have hall := queryKeyConditionAll_congr fun e he st =>
        ih e he (fun l hl => h l (mem_leaves_and he hl)) st
      simp only [doQueryKeyConditionExpression, Alias.bind_apply, Alias.pure_apply, hall]
  | or negate parens es ih => rfl

theorem queryFilterAll_congr {es : List LogicalExpression}
    (h : ∀ e ∈ es, ∀ st, e.doQueryFilterExpression ks st = e.doQueryFilterExpression ks' st)
    (st : SymbolTable) : queryFilterAll ks es st = queryFilterAll ks' es st := by
  induction es generalizing st with
  | nil => rfl
  | cons e es ih =>
      have htail := ih fun e he => h e (List.mem_cons_of_mem _ he)
      simp only [queryFilterAll, Alias.bind_apply, Alias.pure_apply, h e (by simp), htail]

theorem doQueryFilterExpression_congr {e : LogicalExpression} (h : SameKeys ks ks' e)
    (st : SymbolTable) : e.doQueryFilterExpression ks st = e.doQueryFilterExpression ks' st := by
  induction e using induct generalizing st with
  | leaf negate parens l =>
      have hl := h l (List.mem_singleton_self _)
      have hsame : l.inFilter ks negate = l.inFilter ks' negate := by
        cases hp : l.predicate <;> simp only [Leaf.inFilter, hp, hl.1, hl.2]
      simp only [doQueryFilterExpression, Leaf.doQueryFilterExpression, hsame]
  | and negate parens es ih =>
      have hall := queryFilterAll_congr fun e he st =>
        ih e he (fun l hl => h l (mem_leaves_and he hl)) st
      simp only [doQueryFilterExpression, Alias.bind_apply, Alias.pure_apply, hall]
  | or negate parens es ih => rfl

/-- Both halves of a Query are the same texts and leave the same table. -/
theorem halves_congr {e : LogicalExpression} (h : SameKeys ks ks' e) (st : SymbolTable) :
    e.queryKeyConditionExpression ks st = e.queryKeyConditionExpression ks' st ∧
      e.queryFilterExpression ks st = e.queryFilterExpression ks' st := by
  simp only [queryKeyConditionExpression, queryFilterExpression, Alias.bind_apply,
    Alias.pure_apply, doQueryKeyConditionExpression_congr h, doQueryFilterExpression_congr h]
  exact ⟨trivial, trivial⟩

end Rendering

/-! ### A sort key that does not occur -/

theorem sameKeys_of_absent {r : String} {e : LogicalExpression} (h : e.countLhs r = 0)
    (pk : List String) : SameKeys ⟨pk, []⟩ ⟨pk, [r]⟩ e := by
  intro l hl
  have hne := countLhs_eq_zero_iff.mp h l hl
  exact ⟨rfl, by simpa using hne⟩

theorem querySafe_of_absent {r : String} {e : LogicalExpression} (h : e.countLhs r = 0)
    (pk : List String) : e.querySafe ⟨pk, []⟩ = e.querySafe ⟨pk, [r]⟩ := by
  have hchildren : ∀ es : List LogicalExpression, (∀ e ∈ es, e.countLhs r = 0 →
      e.querySafe ⟨pk, []⟩ = e.querySafe ⟨pk, [r]⟩) → (∀ l ∈ leavesAll es, l.lhs ≠ r) →
        querySafeAll ⟨pk, []⟩ es = querySafeAll ⟨pk, [r]⟩ es := by
    intro es ih hes
    rw [querySafeAll_eq_all, querySafeAll_eq_all, Bool.eq_iff_iff, List.all_eq_true,
      List.all_eq_true]
    refine forall₂_congr fun e he => ?_
    rw [ih e he (countLhs_eq_zero_iff.mpr fun l hl => hes l ?_)]
    rw [leavesAll_eq_flatMap]
    exact List.mem_flatMap.mpr ⟨e, he, hl⟩
  induction e using induct with
  | leaf negate parens l =>
      exact leafQuerySafe_congr (sameKeys_of_absent h pk l (List.mem_singleton_self _)) negate
  | and negate parens es ih =>
      exact hchildren es ih (countLhs_eq_zero_iff.mp h)
  | or negate parens es ih =>
      rw [querySafe, querySafe, hchildren es ih (countLhs_eq_zero_iff.mp h)]
      simp [h]

end LogicalExpression

/-! ### One partition key and at most one sort key -/

namespace Where

/-- The prefix of a single sort key is that key, if the clause mentions it. -/
theorem sortKeyPrefix_single (root : LogicalExpression) (rk : Option String) :
    sortKeyPrefix root false rk.toList =
      some (rk.toList.filter fun r => root.countLhs r ≠ 0) := by
  cases rk with
  | none => rfl
  | some r =>
      by_cases hr : root.countLhs r = 0
      · simp [sortKeyPrefix, hr]
      · simp [sortKeyPrefix, hr]

end Where

/-- The view of the planned prefix and that of the whole key agree on the
clause. -/
theorem planned_view_single (w : Where) (p : String) (rk : Option String) :
    SameKeys ⟨[p], rk.toList.filter fun r => w.root.countLhs r ≠ 0⟩ ⟨[p], rk.toList⟩ w.root ∧
      w.root.querySafe ⟨[p], rk.toList.filter fun r => w.root.countLhs r ≠ 0⟩ =
        w.root.querySafe ⟨[p], rk.toList⟩ := by
  cases rk with
  | none => exact ⟨fun l _ => ⟨rfl, rfl⟩, rfl⟩
  | some r =>
      by_cases hr : w.root.countLhs r = 0
      · have hnone : (some r).toList.filter (fun r => w.root.countLhs r ≠ 0) = [] := by simp [hr]
        rw [hnone]
        exact ⟨sameKeys_of_absent hr [p], querySafe_of_absent hr [p]⟩
      · have hsome : (some r).toList.filter (fun r => w.root.countLhs r ≠ 0) = [r] := by simp [hr]
        rw [hsome]
        exact ⟨fun l _ => ⟨rfl, rfl⟩, rfl⟩

/-- The generalized plan of a single key: two counts on the partition key and
the safety of the whole clause against the whole key, and both halves rendered
as against the whole key. -/
theorem planQuery_single (w : Where) (p : String) (rk : Option String) :
    ((w.planQuery [p] rk.toList).isSome = true ↔
      w.root.countGudKey p = 1 ∧ w.root.countLhs p = 1 ∧
        w.root.querySafe ⟨[p], rk.toList⟩ = true) ∧
      ∀ plan, w.planQuery [p] rk.toList = some plan → ∀ st,
        w.queryKeyConditionExpression plan st =
            w.root.queryKeyConditionExpression ⟨[p], rk.toList⟩ st ∧
          w.queryFilterExpression plan st =
            w.root.queryFilterExpression ⟨[p], rk.toList⟩ st := by
  obtain ⟨hkeys, hsafe⟩ := planned_view_single w p rk
  have hlead : (rk.toList.filter fun r => w.root.countLhs r ≠ 0).dropLast = [] := by
    cases rk with
    | none => rfl
    | some r => by_cases hr : w.root.countLhs r = 0 <;> simp [hr]
  have hplan : w.planQuery [p] rk.toList =
      if w.root.countGudKey p = 1 ∧ w.root.countLhs p = 1 ∧
          w.root.querySafe ⟨[p], rk.toList⟩ = true then
        some ⟨[p], rk.toList.filter fun r => w.root.countLhs r ≠ 0⟩
      else none := by
    rw [Where.planQuery, Where.sortKeyPrefix_single]
    dsimp only
    rw [hlead, hsafe]
    by_cases hgud : w.root.countGudKey p = 1 <;> by_cases hone : w.root.countLhs p = 1 <;>
      simp [hgud, hone]
  rw [hplan]
  constructor
  · split <;> simp_all
  · intro plan h st
    split at h
    · cases h
      exact halves_congr hkeys st
    · cases h

/-- `pk = 1 AND x > 5` on a table with a sort key that it does not mention. -/
theorem planQuery_single_absentSortKey :
    (Where.mk (.and false false [.leaf false false ⟨"pk", .comparison .equal (.N "1")⟩,
        .leaf false false ⟨"x", .comparison .greaterThan (.N "5")⟩])).planQuery ["pk"] ["rk"] =
      some ⟨["pk"], []⟩ ∧
    ∀ st, (Where.mk (.and false false [.leaf false false ⟨"pk", .comparison .equal (.N "1")⟩,
        .leaf false false ⟨"x", .comparison .greaterThan (.N "5")⟩])).queryFilterExpression
          ⟨["pk"], []⟩ st =
      (LogicalExpression.and false false [.leaf false false ⟨"pk", .comparison .equal (.N "1")⟩,
        .leaf false false ⟨"x", .comparison .greaterThan (.N "5")⟩]).queryFilterExpression
          ⟨["pk"], ["rk"]⟩ st :=
  ⟨by decide, fun st => ((planQuery_single _ "pk" (some "rk")).2 _ (by decide) st).2⟩

/-! ### Any key lists -/

/-- Non-negated AND groups, nested and parenthesised in any way, over non-negated
leaves on the key attributes and over trees that mention none. -/
inductive KeyConjunction (keys : List String) : LogicalExpression → Prop where
  | key (parens : Bool) {l : Leaf} (hkey : l.lhs ∈ keys) :
      KeyConjunction keys (.leaf false parens l)
  | group (parens : Bool) {es : List LogicalExpression}
      (children : ∀ e ∈ es, KeyConjunction keys e) :
      KeyConjunction keys (.and false parens es)
  | rest {e : LogicalExpression} (hkeys : ∀ l ∈ e.leaves, l.lhs ∉ keys) : KeyConjunction keys e

/-- One equality on each partition key, and on the sort keys `sk`, the leading
run that occurs, one condition each: equalities, and on the last any condition
a Query may have there. -/
structure PinsKeys (pk sk rest : List String) (e : LogicalExpression) : Prop where
  conjunction : KeyConjunction (pk ++ (sk ++ rest)) e
  partition : ∀ p ∈ pk, ∃ v, e.leaves.filter (fun l => l.lhs = p) = [⟨p, .comparison .equal v⟩]
  leading : ∀ s ∈ sk.dropLast, ∃ v,
    e.leaves.filter (fun l => l.lhs = s) = [⟨s, .comparison .equal v⟩]
  trailing : ∀ s ∈ sk.getLast?, ∃ l,
    e.leaves.filter (fun l => l.lhs = s) = [l] ∧ l.predicate.ranges = true
  absent : ∀ s ∈ rest, ∀ l ∈ e.leaves, l.lhs ≠ s

/-- The key equalities of such a conjunction are all on its spine, none
negated. -/
theorem KeyConjunction.countGudKey {keys : List String} {e : LogicalExpression}
    (h : KeyConjunction keys e) {name : String} (hname : name ∈ keys) :
    e.countGudKey name =
      e.leaves.countP fun l => leafCountGudKey name false l = 1 := by
  induction e using induct with
  | leaf negate parens l =>
      cases h with
      | key parens hkey =>
          rw [LogicalExpression.countGudKey, leafCountGudKey_eq, leaves, List.countP_singleton]
          simp [isKeyEquality]
      | rest hkeys =>
          have hne : l.lhs ≠ name := fun heq => hkeys l (List.mem_singleton_self _) (heq ▸ hname)
          rw [LogicalExpression.countGudKey, leaves, List.countP_singleton]
          cases hp : l.predicate <;> simp [leafCountGudKey, hp, hne]
  | or negate parens es ih =>
      cases h with
      | rest hkeys =>
          symm
          rw [LogicalExpression.countGudKey, List.countP_eq_zero]
          intro l hl
          have hne : l.lhs ≠ name := fun heq => hkeys l hl (heq ▸ hname)
          cases hp : l.predicate <;> simp [leafCountGudKey, hp, hne]
  | and negate parens es ih =>
      have hchildren : ∀ e ∈ es, KeyConjunction keys e := by
        cases h with
        | group parens children => exact children
        | rest hkeys =>
            intro e he
            exact .rest fun l hl => hkeys l (mem_leaves_and he hl)
      rw [LogicalExpression.countGudKey, leaves]
      clear h
      induction es with
      | nil => rfl
      | cons e es ihes =>
          have hhead := ih e (by simp) (hchildren e (by simp))
          have htail := ihes (fun e he => ih e (List.mem_cons_of_mem _ he))
            (fun e he => hchildren e (List.mem_cons_of_mem _ he))
          rw [countGudKeyAll, leavesAll, List.countP_append, hhead, htail]

/-- It is safe for a Query as soon as its key leaves are. -/
theorem KeyConjunction.querySafe {keys : List String} {e : LogicalExpression}
    (h : KeyConjunction keys e) {ks : KeySchemaView}
    (hkeys : ∀ name, name ∈ ks.pk ∨ name ∈ ks.sk → name ∈ keys)
    (hleaves : ∀ l ∈ e.leaves, leafQuerySafe ks false l = true) : e.querySafe ks = true := by
  induction e using induct with
  | leaf negate parens l =>
      cases h with
      | key parens hkey => exact hleaves l (List.mem_singleton_self _)
      | rest hout =>
          have hne : ¬ (l.lhs ∈ ks.pk ∨ l.lhs ∈ ks.sk) := fun hin =>
            hout l (List.mem_singleton_self _) (hkeys l.lhs hin)
          rw [not_or] at hne
          cases hp : l.predicate <;> simp [LogicalExpression.querySafe, leafQuerySafe, hp, hne]
  | and negate parens es ih =>
      rw [LogicalExpression.querySafe, querySafeAll_eq_all, List.all_eq_true]
      intro e he
      refine ih e he ?_ fun l hl => hleaves l (mem_leaves_and he hl)
      cases h with
      | group parens children => exact children e he
      | rest hout => exact .rest fun l hl => hout l (mem_leaves_and he hl)
  | or negate parens es ih =>
      cases h with
      | rest hout =>
          have hzero : ∀ name, name ∈ ks.pk ∨ name ∈ ks.sk →
              (LogicalExpression.or negate parens es).countLhs name = 0 := by
            intro name hname
            exact countLhs_eq_zero_iff.mpr fun l hl heq => hout l hl (heq ▸ hkeys name hname)
          simp only [LogicalExpression.querySafe, Bool.and_eq_true, List.all_eq_true,
            decide_eq_true_eq, querySafeAll_eq_all]
          refine ⟨fun p hp => hzero p (.inl hp), fun s hs => hzero s (.inr hs), fun e he => ?_⟩
          have hmem : ∀ l ∈ e.leaves, l ∈ (LogicalExpression.or negate parens es).leaves := by
            intro l hl
            rw [leaves, leavesAll_eq_flatMap]
            exact List.mem_flatMap.mpr ⟨e, he, hl⟩
          exact ih e he (.rest fun l hl => hout l (hmem l hl)) fun l hl => hleaves l (hmem l hl)

theorem sortKeyPrefix_absent {root : LogicalExpression} {rest : List String}
    (h : ∀ s ∈ rest, root.countLhs s = 0) (ended : Bool) :
    Where.sortKeyPrefix root ended rest = some [] := by
  induction rest generalizing ended with
  | nil => rfl
  | cons s rest ih =>
      rw [Where.sortKeyPrefix, if_pos (h s (by simp)),
        ih fun s hs => h s (List.mem_cons_of_mem _ hs)]

theorem sortKeyPrefix_leading {root : LogicalExpression} {sk rest : List String}
    (h : ∀ s ∈ sk, root.countLhs s ≠ 0) (hrest : ∀ s ∈ rest, root.countLhs s = 0) :
    Where.sortKeyPrefix root false (sk ++ rest) = some sk := by
  induction sk with
  | nil => exact sortKeyPrefix_absent hrest false
  | cons s sk ih =>
      have htail := ih fun s hs => h s (List.mem_cons_of_mem _ hs)
      rw [List.cons_append, Where.sortKeyPrefix, if_neg (h s (by simp)), if_neg (by simp), htail]
      rfl

theorem countLhs_of_filter {e : LogicalExpression} {name : String} {l : Leaf}
    (hone : e.leaves.filter (fun l => l.lhs = name) = [l]) : e.countLhs name = 1 := by
  rw [countLhs_eq_countP, List.countP_eq_length_filter, hone]
  rfl

namespace PinsKeys

variable {pk sk rest : List String} {e : LogicalExpression} (h : PinsKeys pk sk rest e)

include h

/-- An attribute with one condition, an equality, is counted once by both
probes. -/
theorem counts {name : String} (hname : name ∈ pk ++ (sk ++ rest))
    (hone : ∃ v, e.leaves.filter (fun l => l.lhs = name) = [⟨name, .comparison .equal v⟩]) :
    e.countGudKey name = 1 ∧ e.countLhs name = 1 := by
  obtain ⟨v, hv⟩ := hone
  refine ⟨?_, countLhs_of_filter hv⟩
  have hcount : e.leaves.countP (fun l => leafCountGudKey name false l = 1) =
      (e.leaves.filter fun l => l.lhs = name).countP fun l => leafCountGudKey name false l = 1 := by
    rw [List.countP_filter]
    refine List.countP_congr fun l _ => ?_
    cases hp : l.predicate <;> simp [leafCountGudKey, hp]
    tauto
  rw [h.conjunction.countGudKey hname, hcount, hv]
  simp [leafCountGudKey]

theorem occurs {s : String} (hs : s ∈ sk) : ∃ l, e.leaves.filter (fun l => l.lhs = s) = [l] ∧
    l.predicate.ranges = true := by
  rcases mem_dropLast_or_getLast? hs with hfront | hlast
  · obtain ⟨v, hv⟩ := h.leading s hfront
    exact ⟨_, hv, rfl⟩
  · exact h.trailing s hlast

theorem leaf_safe {l : Leaf} (hl : l ∈ e.leaves) : leafQuerySafe ⟨pk, sk⟩ false l = true := by
  have hmem : l ∈ e.leaves.filter fun m => m.lhs = l.lhs := List.mem_filter.mpr ⟨hl, by simp⟩
  by_cases hpk : l.lhs ∈ pk
  · obtain ⟨v, hv⟩ := h.partition l.lhs hpk
    rw [hv, List.mem_singleton] at hmem
    rw [hmem]
    simp [leafQuerySafe]
  · by_cases hsk : l.lhs ∈ sk
    · obtain ⟨m, hm, hranges⟩ := h.occurs hsk
      rw [hm, List.mem_singleton] at hmem
      subst hmem
      cases hp : l.predicate <;> simp_all [leafQuerySafe, Predicate.ranges]
    · cases hp : l.predicate <;> simp [leafQuerySafe, hp, hpk, hsk]

/-- Such a clause is planned, on the whole partition key and exactly the sort
keys that occur. -/
theorem planQuery_complete : (Where.mk e).planQuery pk (sk ++ rest) = some ⟨pk, sk⟩ := by
  have hpk : pk.all (fun p => e.countGudKey p = 1 && e.countLhs p = 1) = true := by
    rw [List.all_eq_true]
    intro p hp
    have hcounts := h.counts (List.mem_append_left _ hp) (h.partition p hp)
    simp [hcounts]
  have hprefix : Where.sortKeyPrefix e false (sk ++ rest) = some sk := by
    refine sortKeyPrefix_leading (fun s hs => ?_) fun s hs => ?_
    · obtain ⟨l, hl, -⟩ := h.occurs hs
      rw [countLhs_of_filter hl]
      exact Nat.one_ne_zero
    · exact countLhs_eq_zero_iff.mpr (h.absent s hs)
  have hlead : sk.dropLast.all (fun s => e.countLhs s = 1 && e.countGudKey s = 1) = true := by
    rw [List.all_eq_true]
    intro s hs
    have hmem : s ∈ pk ++ (sk ++ rest) :=
      List.mem_append_right _ (List.mem_append_left _ (List.dropLast_subset _ hs))
    have hcounts := h.counts hmem (h.leading s hs)
    simp [hcounts]
  have hsafe : e.querySafe ⟨pk, sk⟩ = true := by
    refine h.conjunction.querySafe ?_ fun l hl => h.leaf_safe hl
    intro name hname
    rcases hname with hp | hs
    · exact List.mem_append_left _ hp
    · exact List.mem_append_right _ (List.mem_append_left _ hs)
  rw [Where.planQuery, if_pos hpk, hprefix]
  simp only [hlead, if_true, hsafe]

end PinsKeys

/-- `h = 1 AND ((r = 2 AND x <> 3) AND s BETWEEN 4 AND 5)` -/
def nestedRange : SourceExpr .or :=
  .ofAnd (.and (.ofNot (.element (.comparison "h" (.op .equal) (.N "1"))))
    (.paren (.ofAnd (.and
      (.ofNot (.paren (.ofAnd (.and (.ofNot (.element (.comparison "r" (.op .equal) (.N "2"))))
        (.element (.comparison "x" (.op .notEqual) (.N "3")))))))
      (.element (.between "s" (.N "4") (.N "5")))))))

theorem nestedRange_pinsKeys : PinsKeys ["h"] ["r", "s"] ["t"] nestedRange.build := by
  refine ⟨?_, ?_, ?_, ?_, by decide⟩
  · refine .group false fun e he => ?_
    rcases List.mem_cons.mp he with rfl | he
    · exact .key false (by decide)
    · obtain rfl := List.mem_singleton.mp he
      -- the second AND was appended to the group in parentheses
      refine .group true fun e he => ?_
      rcases List.mem_cons.mp he with rfl | he
      · exact .key false (by decide)
      · rcases List.mem_cons.mp he with rfl | he
        · exact .rest (by decide)
        · obtain rfl := List.mem_singleton.mp he
          exact .key false (by decide)
  · intro p hp
    obtain rfl := List.mem_singleton.mp hp
    exact ⟨.N "1", by decide⟩
  · intro s hs
    obtain rfl := List.mem_singleton.mp hs
    exact ⟨.N "2", by decide⟩
  · intro s hs
    cases hs
    exact ⟨⟨"s", .between (.N "4") (.N "5")⟩, by decide, rfl⟩

theorem nestedRange_planQuery :
    (Where.mk nestedRange.build).planQuery ["h"] ["r", "s", "t"] = some ⟨["h"], ["r", "s"]⟩ :=
  nestedRange_pinsKeys.planQuery_complete

end DdbShell
