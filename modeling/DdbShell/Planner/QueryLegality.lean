import DdbShell.Planner.QuerySplit
import Mathlib.Data.List.Basic

/-!
Which key conditions the service accepts, and when a planned Query stays
within them. A plan settles the partition keys and the leading sort keys; on
the last sort key of the prefix it still lets through a second condition, a
negated comparison and `<>`, and it leaves `()` where one half of a
parenthesised AND has nothing to write. `queryPlain` is what has to be asked in
addition.
-/

namespace DdbShell

open Infix (Token join Sentence)
open LogicalExpression

/-- The top-level attribute an operand text is about. -/
def Leaf.attribute (l : Leaf) : String :=
  let text := l.lhs.toList
  if "size(".toList.isPrefixOf text then
    String.ofList ((text.drop 5).takeWhile fun c => c ≠ '.' ∧ c ≠ '[' ∧ c ≠ ')')
  else String.ofList (text.takeWhile fun c => c ≠ '.' ∧ c ≠ '[')

/-- The conditions a Query may put on its last sort key. -/
def Predicate.ranges : Predicate → Bool
  | .comparison op _ => op ≠ .notEqual
  | .between _ _ | .beginsWith _ => true
  | .isIn _ | .contains _ | .attributeType _ | .attributeExists => false

/-- A legal Query: one equality on each partition key, at most one condition on
each sort key of a gap-free prefix, equalities on all but the last, and no key
attribute in the filter. Neither expression has an empty group in it. -/
structure QueryLegal (pk rk : List String) (plan : QueryKeyPlan) (keyCondition filter : Tokens) :
    Prop where
  conjunction : Token.not ∉ keyCondition ∧ Token.or ∉ keyCondition
  operands : ∀ l ∈ atoms keyCondition, l.lhs ∈ pk ∨ l.lhs ∈ plan.skPrefix
  partition : ∀ p ∈ pk, ∃ v,
    (atoms keyCondition).filter (fun l => l.lhs = p) = [⟨p, .comparison .equal v⟩]
  gapFree : plan.pk = pk ∧ plan.skPrefix <+: rk
  single : ∀ s ∈ plan.skPrefix, (atoms keyCondition).countP (fun l => l.lhs = s) ≤ 1
  leading : ∀ s ∈ plan.skPrefix.dropLast, ∃ v,
    (atoms keyCondition).filter (fun l => l.lhs = s) = [⟨s, .comparison .equal v⟩]
  trailing : ∀ s ∈ plan.skPrefix.getLast?, ∀ l ∈ atoms keyCondition, l.lhs = s →
    l.predicate.ranges = true
  nonKey : ∀ l ∈ atoms filter, l.lhs ∉ pk ++ rk ∧ l.attribute ∉ pk ++ rk
  written : (keyCondition = [] ∨ Sentence keyCondition) ∧ (filter = [] ∨ Sentence filter)

namespace LogicalExpression

/-- At most one condition on a sort key, neither negated nor `<>`. -/
def sortKeyPlain (e : LogicalExpression) (s : String) : Bool :=
  e.countLhs s ≤ 1 &&
    e.spine.all fun n => n.2.lhs ≠ s || (!n.1 && n.2.predicate.ranges)

/-- Some leaf is on one of the attributes and some leaf is on none of them. -/
def onBoth (names : List String) (ls : List Leaf) : Bool :=
  (ls.any fun l => names.contains l.lhs) && ls.any fun l => !names.contains l.lhs

mutual

/-- Every parenthesised AND outside the ORs has leaves on the attributes and
leaves on others. -/
def groupsMixed (names : List String) : LogicalExpression → Bool
  | .leaf .. | .or .. => true
  | .and _ parens exprlist =>
      (!parens || onBoth names (leavesAll exprlist)) && groupsMixedAll names exprlist

def groupsMixedAll (names : List String) : List LogicalExpression → Bool
  | [] => true
  | e :: es => e.groupsMixed names && groupsMixedAll names es

end

/-- What a plan does not ask by itself: no negated group and none that one half
leaves empty, plain sort keys, and no operand that reaches into a key
attribute. -/
def queryPlain (pk rk : List String) (e : LogicalExpression) : Bool :=
  !e.negatedGroup && e.groupsMixed (pk ++ rk) &&
    (rk.all e.sortKeyPlain &&
      e.leaves.all fun l => (pk ++ rk).contains l.lhs || !(pk ++ rk).contains l.attribute)

theorem groupsMixedAll_eq_all (names : List String) (es : List LogicalExpression) :
    groupsMixedAll names es = es.all (groupsMixed names) := by
  induction es with
  | nil => rfl
  | cons e es ih => rw [groupsMixedAll, ih, List.all_cons]

/-! ### The sort-key prefix -/

theorem sortKeyPrefix_spec {root : LogicalExpression} {ended : Bool} {rk sk : List String}
    (h : Where.sortKeyPrefix root ended rk = some sk) :
    (ended = true → sk = []) ∧ sk <+: rk ∧ (∀ s ∈ sk, root.countLhs s ≠ 0) ∧
      ∀ s ∈ rk, s ∈ sk ∨ root.countLhs s = 0 := by
  induction rk generalizing ended sk with
  | nil =>
      simp only [Where.sortKeyPrefix, Option.some.injEq] at h
      subst h
      simp
  | cons s rest ih =>
      unfold Where.sortKeyPrefix at h
      split at h
      · rename_i hzero
        obtain ⟨hnil, _, _, hrest⟩ := ih h
        have hsk := hnil rfl
        subst hsk
        refine ⟨fun _ => rfl, List.nil_prefix, by simp, ?_⟩
        intro t ht
        rcases List.mem_cons.mp ht with rfl | ht
        · exact .inr hzero
        · exact hrest t ht
      · rename_i hcount
        split at h
        · cases h
        · rename_i hopen
          obtain ⟨tail, htail, rfl⟩ := Option.map_eq_some_iff.mp h
          obtain ⟨_, hpre, hin, hrest⟩ := ih htail
          refine ⟨fun hended => absurd hended hopen, List.cons_prefix_cons.mpr ⟨rfl, hpre⟩, ?_, ?_⟩
          · intro t ht
            rcases List.mem_cons.mp ht with rfl | ht
            · exact hcount
            · exact hin t ht
          · intro t ht
            rcases List.mem_cons.mp ht with rfl | ht
            · exact .inl (by simp)
            · rcases hrest t ht with hmem | hzero
              · exact .inl (List.mem_cons_of_mem _ hmem)
              · exact .inr hzero

/-! ### Connectives in the key condition -/

theorem mem_join {sep t : Token Leaf} (h : t ≠ sep) {tss : List Tokens} :
    t ∈ join sep tss ↔ ∃ ts ∈ tss, t ∈ ts := by
  match tss with
  | [] => simp [join]
  | [ts] => simp [join]
  | ts :: us :: rest =>
      have htail : t ∈ join sep (us :: rest) ↔ ∃ ts ∈ us :: rest, t ∈ ts := mem_join h
      rw [join, List.mem_append, List.mem_cons, htail]
      simp [h]

/-- A connective that the flags of an AND do not write comes from a child. -/
theorem mem_part_and {q : Part} {t : Token Leaf} (hand : t ≠ .and) (hl : t ≠ .lparen)
    (hr : t ≠ .rparen) (negate parens : Bool) (es : List LogicalExpression)
    (hneg : t = .not → negate = false) :
    t ∈ (LogicalExpression.and negate parens es).part q ↔ ∃ e ∈ es, t ∈ e.part q := by
  have hflags : ∀ ts : Tokens, t ∈ presentTokens negate (groupedTokens parens ts) ↔ t ∈ ts := by
    intro ts
    cases negate with
    | false =>
        cases parens <;> cases ts <;>
          simp [presentTokens, negatedTokens, groupedTokens, hl, hr]
    | true =>
        have hnot : t ≠ .not := fun heq => by simpa using hneg heq
        cases parens <;> cases ts <;>
          simp [presentTokens, negatedTokens, groupedTokens, hl, hr, hnot]
  rw [part, hflags, mem_join hand, partAll_eq_map]
  constructor
  · rintro ⟨ts, hts, hmem⟩
    obtain ⟨e, he, rfl⟩ := List.mem_map.mp (List.mem_filter.mp hts).1
    exact ⟨e, he, hmem⟩
  · rintro ⟨e, he, hmem⟩
    refine ⟨e.part q, List.mem_filter.mpr ⟨List.mem_map_of_mem he, ?_⟩, hmem⟩
    cases hempty : e.part q with
    | nil => simp [hempty] at hmem
    | cons t ts => rfl

theorem or_not_mem_part {q : Part} (hor : q.keepOr = false) (e : LogicalExpression) :
    Token.or ∉ e.part q := by
  induction e using induct with
  | leaf negate parens l =>
      cases hk : q.keep negate l <;> cases negate <;> simp_all [part, tokens, negatedTokens]
  | or negate parens es ih => simp [part, hor]
  | and negate parens es ih =>
      rw [mem_part_and (by simp) (by simp) (by simp) _ _ _ (by simp)]
      rintro ⟨e, he, hmem⟩
      exact ih e he hmem

/-- NOT is written into the key condition by a negated group or by a negated
leaf, and by nothing else. -/
theorem Grown.not_mem_keyCondition_iff {ks : KeySchemaView} {e : LogicalExpression} (h : Grown e)
    (hsafe : e.querySafe ks = true) :
    Token.not ∉ e.part (keyConditionPart ks) ↔
      e.negatedGroup = false ∧ ∀ s ∈ e.spine, s.2.inKeyCondition ks s.1 = true → s.1 = false := by
  induction e using induct with
  | leaf negate parens l =>
      cases hk : l.inKeyCondition ks negate <;> cases negate <;>
        simp_all [part, tokens, negatedTokens, keyConditionPart, negatedGroup, spine]
  | or negate parens es ih => simp [part, keyConditionPart, negatedGroup, spine]
  | and negate parens es ih =>
      have hwhole := h
      cases h with
      | and size children grouped bare =>
          cases negate with
          | false =>
              rw [mem_part_and (by simp) (by simp) (by simp) _ _ _ (fun _ => rfl)]
              rw [querySafe, querySafeAll_eq_all, List.all_eq_true] at hsafe
              have hchild : ∀ e ∈ es, Token.not ∉ e.part (keyConditionPart ks) ↔
                  e.negatedGroup = false ∧
                    ∀ s ∈ e.spine, s.2.inKeyCondition ks s.1 = true → s.1 = false :=
                fun e he => ih e he (children e he) (hsafe e he)
              rw [negatedGroup, Bool.false_and, Bool.false_or, negatedGroupAny_eq_any, spine]
              constructor
              · intro hnone
                have hall : ∀ e ∈ es, Token.not ∉ e.part (keyConditionPart ks) :=
                  fun e he hmem => hnone ⟨e, he, hmem⟩
                refine ⟨?_, ?_⟩
                · rw [List.any_eq_false]
                  intro e he
                  simp [((hchild e he).mp (hall e he)).1]
                · intro s hs
                  obtain ⟨e, he, hse⟩ := mem_spineAll.mp hs
                  exact ((hchild e he).mp (hall e he)).2 s hse
              · rintro ⟨hgroup, hleaf⟩ ⟨e, he, hmem⟩
                rw [List.any_eq_false] at hgroup
                refine (hchild e he).mpr ⟨by simpa using hgroup e he, ?_⟩ hmem
                intro s hs
                exact hleaf s (mem_spineAll.mpr ⟨e, he, hs⟩)
          | true =>
              cases parens with
              | true => simp [part, presentTokens, groupedTokens, negatedTokens, negatedGroup]
              | false =>
                  -- IS NOT NULL tests write nothing into the key condition
                  obtain ⟨lhss, rfl⟩ := bare rfl rfl
                  have hnil : (LogicalExpression.and true false (lhss.flatMap nullTest)).part
                      (keyConditionPart ks) = [] := by
                    have hempty := hwhole.part_isEmpty (q := keyConditionPart ks)
                    rw [vacant, vacantAll_keyCondition hsafe] at hempty
                    simpa using hempty
                  have hleaves : negatedGroupAny (lhss.flatMap nullTest) = false := by
                    rw [negatedGroupAny_eq_any, List.any_eq_false]
                    intro e he
                    obtain ⟨lhs, _, hmem⟩ := List.mem_flatMap.mp he
                    rcases List.mem_cons.mp hmem with rfl | hmem
                    · simp [negatedGroup]
                    · simp [List.mem_singleton.mp hmem, negatedGroup]
                  rw [hnil]
                  refine ⟨fun _ => ⟨by simp [negatedGroup, hleaves], ?_⟩, by simp⟩
                  intro s hs hkey
                  have hsplit := inKeyCondition_eq_not_inFilter (leafQuerySafe_of_spine hsafe hs)
                  rw [hsplit, nullTests_inFilter hsafe s hs] at hkey
                  cases hkey

/-! ### Leaves on key attributes -/

/-- A leaf of the filter is on no attribute of the planned key. -/
theorem not_contains_of_mem_filter {ks : KeySchemaView} {e : LogicalExpression}
    (hsafe : e.querySafe ks = true) {l : Leaf} (hl : l ∈ e.partLeaves (filterPart ks)) :
    l.lhs ∉ ks.pk ∧ l.lhs ∉ ks.sk := by
  induction e using induct with
  | leaf negate parens m =>
      have hkept : m.inFilter ks negate = true ∧ l = m := by
        cases hk : m.inFilter ks negate <;> simp_all [partLeaves, filterPart]
      obtain ⟨hkept, rfl⟩ := hkept
      have hsplit := inKeyCondition_eq_not_inFilter hsafe
      obtain ⟨lhs, p⟩ := l
      cases p <;> simp_all [Leaf.inFilter, Leaf.inKeyCondition, querySafe, leafQuerySafe]
  | or negate parens es ih =>
      simp only [querySafe, Bool.and_eq_true, List.all_eq_true, decide_eq_true_eq,
        countLhs_eq_countP, List.countP_eq_zero] at hsafe
      simp only [partLeaves, filterPart, if_true] at hl
      exact ⟨fun hpk => hsafe.1 _ hpk l hl rfl, fun hsk => hsafe.2.1 _ hsk l hl rfl⟩
  | and negate parens es ih =>
      rw [querySafe, querySafeAll_eq_all, List.all_eq_true] at hsafe
      rw [partLeaves] at hl
      induction es with
      | nil => cases hl
      | cons e es ihes =>
          rw [partLeavesAll, List.mem_append] at hl
          rcases hl with hl | hl
          · exact ih e (by simp) (hsafe e (by simp)) hl
          · exact ihes (fun e he => ih e (List.mem_cons_of_mem _ he))
              (fun e he => hsafe e (List.mem_cons_of_mem _ he)) hl

theorem inKeyCondition_of_safe {ks : KeySchemaView} {negate : Bool} {l : Leaf}
    (h : leafQuerySafe ks negate l = true) (hkey : l.lhs ∈ ks.pk ∨ l.lhs ∈ ks.sk) :
    l.inKeyCondition ks negate = true := by
  obtain ⟨lhs, p⟩ := l
  cases p <;> simp_all [Leaf.inKeyCondition, leafQuerySafe] <;> grind

theorem mem_keyCondition_iff {ks : KeySchemaView} {e : LogicalExpression} {l : Leaf} :
    l ∈ atoms (e.part (keyConditionPart ks)) ↔
      ∃ n, (n, l) ∈ e.spine ∧ l.inKeyCondition ks n = true := by
  rw [atoms_part, partLeaves_eq_spine rfl]
  simp [keyConditionPart]

theorem lhs_of_inKeyCondition {ks : KeySchemaView} {negate : Bool} {l : Leaf}
    (h : l.inKeyCondition ks negate = true) : l.lhs ∈ ks.pk ∨ l.lhs ∈ ks.sk := by
  obtain ⟨lhs, p⟩ := l
  cases p <;> simp_all [Leaf.inKeyCondition]

theorem halves_perm {ks : KeySchemaView} {e : LogicalExpression} (hsafe : e.querySafe ks = true) :
    (e.partLeaves (keyConditionPart ks) ++ e.partLeaves (filterPart ks)).Perm e.leaves :=
  partLeaves_perm rfl rfl fun _ hs =>
    inKeyCondition_eq_not_inFilter (leafQuerySafe_of_spine hsafe hs)

theorem mem_partLeaves_keyCondition {ks : KeySchemaView} {e : LogicalExpression}
    (hsafe : e.querySafe ks = true) {l : Leaf} :
    l ∈ e.partLeaves (keyConditionPart ks) ↔ l ∈ e.leaves ∧ (l.lhs ∈ ks.pk ∨ l.lhs ∈ ks.sk) := by
  have hmem := (halves_perm hsafe).mem_iff (a := l)
  rw [List.mem_append] at hmem
  constructor
  · intro hl
    refine ⟨hmem.mp (.inl hl), ?_⟩
    rw [← atoms_part] at hl
    obtain ⟨n, _, hkey⟩ := mem_keyCondition_iff.mp hl
    exact lhs_of_inKeyCondition hkey
  · rintro ⟨hl, hkey⟩
    rcases hmem.mpr hl with hin | hout
    · exact hin
    · have houtside := not_contains_of_mem_filter hsafe hout
      exact absurd hkey (not_or.mpr houtside)

theorem mem_partLeaves_filter {ks : KeySchemaView} {e : LogicalExpression}
    (hsafe : e.querySafe ks = true) {l : Leaf} :
    l ∈ e.partLeaves (filterPart ks) ↔ l ∈ e.leaves ∧ ¬ (l.lhs ∈ ks.pk ∨ l.lhs ∈ ks.sk) := by
  have hmem := (halves_perm hsafe).mem_iff (a := l)
  rw [List.mem_append] at hmem
  constructor
  · intro hl
    exact ⟨hmem.mp (.inr hl), not_or.mpr (not_contains_of_mem_filter hsafe hl)⟩
  · rintro ⟨hl, hkey⟩
    rcases hmem.mpr hl with hin | hout
    · exact absurd ((mem_partLeaves_keyCondition hsafe).mp hin).2 hkey
    · exact hout

/-! ### Groups that one half leaves empty -/

theorem partLeavesAll_eq_nil {q : Part} {es : List LogicalExpression} :
    partLeavesAll q es = [] ↔ ∀ e ∈ es, e.partLeaves q = [] := by
  induction es with
  | nil => simp [partLeavesAll]
  | cons e es ih => rw [partLeavesAll, List.append_eq_nil_iff, ih, List.forall_mem_cons]

theorem Grown.leaves_ne_nil {e : LogicalExpression} (h : Grown e) : e.leaves ≠ [] := by
  have hlist : ∀ es : List LogicalExpression, 2 ≤ es.length →
      (∀ e ∈ es, e.leaves ≠ []) → leavesAll es ≠ [] := by
    intro es hsize hes
    cases es with
    | nil => exact absurd hsize (by simp)
    | cons e es =>
        rw [leavesAll]
        exact List.append_ne_nil_of_left_ne_nil (hes e List.mem_cons_self) _
  induction h with
  | leaf negate parens l => exact List.cons_ne_nil _ _
  | and size _ _ _ ih => exact hlist _ size ih
  | or size _ _ _ ih => exact hlist _ size ih

/-- Where no group is left empty, a part is vacant just if it has no leaf. -/
theorem Grown.vacant_iff {q : Part} {e : LogicalExpression} (h : Grown e)
    (hfull : e.partFull q = true) : e.vacant q = true ↔ e.partLeaves q = [] := by
  induction h with
  | leaf negate parens l => cases hk : q.keep negate l <;> simp [vacant, partLeaves, hk]
  | @or negate parens es size children grouped bare ih =>
      have hsome := (Grown.or size children grouped bare).leaves_ne_nil
      cases hk : q.keepOr <;> simp [vacant, partLeaves, hk, hsome]
  | @and negate parens es size children grouped bare ih =>
      simp only [partFull, Bool.and_eq_true, partFullAll_eq_all, List.all_eq_true] at hfull
      obtain ⟨hgroup, hes⟩ := hfull
      have hall : vacantAll q es = true ↔ partLeavesAll q es = [] := by
        rw [vacantAll_eq_all, List.all_eq_true, partLeavesAll_eq_nil]
        exact forall₂_congr fun e he => ih e he (hes e he)
      rw [vacant, partLeaves, ← hall]
      cases parens <;> simp_all

theorem partFull_and_iff {q : Part} {negate parens : Bool} {es : List LogicalExpression}
    (hes : ∀ e ∈ es, Grown e) :
    (LogicalExpression.and negate parens es).partFull q = true ↔
      (parens = true → partLeavesAll q es ≠ []) ∧ ∀ e ∈ es, e.partFull q = true := by
  rw [partFull, Bool.and_eq_true, partFullAll_eq_all, List.all_eq_true]
  refine and_congr_left fun hfull => ?_
  have hall : vacantAll q es = true ↔ partLeavesAll q es = [] := by
    rw [vacantAll_eq_all, List.all_eq_true, partLeavesAll_eq_nil]
    exact forall₂_congr fun e he => (hes e he).vacant_iff (hfull e he)
  rw [ne_eq, ← hall]
  cases parens <;> simp

theorem onBoth_iff {names : List String} {ls : List Leaf} :
    onBoth names ls = true ↔ (∃ l ∈ ls, l.lhs ∈ names) ∧ ∃ l ∈ ls, l.lhs ∉ names := by
  simp [onBoth]

/-- On a safe tree neither half has an empty group exactly when every group
outside the ORs has leaves for both. -/
theorem Grown.halvesFull_iff {ks : KeySchemaView} {names : List String} {e : LogicalExpression}
    (h : Grown e) (hsafe : e.querySafe ks = true)
    (hnames : ∀ l ∈ e.leaves, l.lhs ∈ names ↔ l.lhs ∈ ks.pk ∨ l.lhs ∈ ks.sk) :
    e.partFull (keyConditionPart ks) = true ∧ e.partFull (filterPart ks) = true ↔
      e.groupsMixed names = true := by
  induction h with
  | leaf negate parens l => simp [partFull, groupsMixed]
  | or _ _ _ _ _ => simp [partFull, groupsMixed]
  | @and negate parens es size children grouped bare ih =>
      have hkey : partLeavesAll (keyConditionPart ks) es ≠ [] ↔
          ∃ l ∈ leavesAll es, l.lhs ∈ names := by
        rw [ne_eq, List.eq_nil_iff_forall_not_mem, not_forall_not]
        refine exists_congr fun l => (mem_partLeaves_keyCondition hsafe).trans ?_
        exact and_congr_right fun hl => (hnames l hl).symm
      have hrest : partLeavesAll (filterPart ks) es ≠ [] ↔ ∃ l ∈ leavesAll es, l.lhs ∉ names := by
        rw [ne_eq, List.eq_nil_iff_forall_not_mem, not_forall_not]
        refine exists_congr fun l => (mem_partLeaves_filter hsafe).trans ?_
        exact and_congr_right fun hl => not_congr (hnames l hl).symm
      rw [querySafe, querySafeAll_eq_all, List.all_eq_true] at hsafe
      have hchild : ∀ e ∈ es,
          e.partFull (keyConditionPart ks) = true ∧ e.partFull (filterPart ks) = true ↔
            e.groupsMixed names = true := by
        intro e he
        refine ih e he (hsafe e he) fun l hl => hnames l ?_
        rw [leaves, leavesAll_eq_flatMap]
        exact List.mem_flatMap.mpr ⟨e, he, hl⟩
      rw [partFull_and_iff children, partFull_and_iff children, hkey, hrest, groupsMixed,
        Bool.and_eq_true, groupsMixedAll_eq_all, List.all_eq_true, ← forall₂_congr hchild,
        Bool.or_eq_true, Bool.not_eq_true', ← Bool.not_eq_true, ← imp_iff_not_or, onBoth_iff]
      grind

/-- All conditions on a planned key attribute are in the key condition. -/
theorem countP_keyCondition {ks : KeySchemaView} {e : LogicalExpression}
    (hsafe : e.querySafe ks = true) {name : String} (hname : name ∈ ks.pk ∨ name ∈ ks.sk) :
    (atoms (e.part (keyConditionPart ks))).countP (fun l => l.lhs = name) = e.countLhs name := by
  have hperm := halves_perm hsafe
  have hfilter : (e.partLeaves (filterPart ks)).countP (fun l => l.lhs = name) = 0 := by
    rw [List.countP_eq_zero]
    intro l hl
    have hout := not_contains_of_mem_filter hsafe hl
    simp only [decide_eq_true_eq]
    rintro rfl
    rcases hname with hpk | hsk
    · exact hout.1 hpk
    · exact hout.2 hsk
  rw [countLhs_eq_countP, atoms_part, ← hperm.countP_eq, List.countP_append, hfilter, Nat.add_zero]

/-- A planned key attribute with one condition, an equality, carries exactly
that in the key condition. -/
theorem filter_keyCondition {ks : KeySchemaView} {e : LogicalExpression}
    (hsafe : e.querySafe ks = true) {name : String} (hname : name ∈ ks.pk ∨ name ∈ ks.sk)
    (hone : e.countLhs name = 1) (hgud : e.countGudKey name = 1) :
    ∃ v, (atoms (e.part (keyConditionPart ks))).filter (fun l => l.lhs = name) =
      [⟨name, .comparison .equal v⟩] := by
  rw [countGudKey_eq_countP] at hgud
  have hex : ∃ s ∈ e.spine, isKeyEquality name s = true := by
    rw [← List.countP_pos_iff, hgud]
    exact Nat.one_pos
  obtain ⟨s, hs, hequal⟩ := hex
  obtain ⟨v, rfl⟩ := isKeyEquality_iff.mp hequal
  have hsafeLeaf := leafQuerySafe_of_spine hsafe hs
  have hmem : (⟨name, .comparison .equal v⟩ : Leaf) ∈ atoms (e.part (keyConditionPart ks)) :=
    mem_keyCondition_iff.mpr ⟨false, hs, inKeyCondition_of_safe hsafeLeaf hname⟩
  have hlength := countP_keyCondition hsafe hname
  rw [hone, List.countP_eq_length_filter, List.length_eq_one_iff] at hlength
  obtain ⟨x, hx⟩ := hlength
  have hmemFilter : (⟨name, .comparison .equal v⟩ : Leaf) ∈
      (atoms (e.part (keyConditionPart ks))).filter (fun l => l.lhs = name) :=
    List.mem_filter.mpr ⟨hmem, by simp⟩
  rw [hx, List.mem_singleton] at hmemFilter
  exact ⟨v, by rw [hx, hmemFilter]⟩

theorem countLhs_eq_zero_iff {name : String} {e : LogicalExpression} :
    e.countLhs name = 0 ↔ ∀ l ∈ e.leaves, l.lhs ≠ name := by
  simp [countLhs_eq_countP, List.countP_eq_zero]

end LogicalExpression

theorem mem_dropLast_or_getLast? {α : Type} {x : α} {xs : List α} (h : x ∈ xs) :
    x ∈ xs.dropLast ∨ x ∈ xs.getLast? := by
  by_cases hlast : some x = xs.getLast?
  · exact .inr hlast.symm
  · exact .inl (List.mem_dropLast_of_mem_of_ne_getLast? h hlast)

section Planned

variable {pk rk : List String} {w : Where} {plan : QueryKeyPlan}

/-- A leaf of the tree is in the key condition or in the filter. -/
theorem mem_halves (hg : Grown w.root) (hplan : w.planQuery pk rk = some plan) {l : Leaf}
    (hl : l ∈ w.root.leaves) :
    l ∈ atoms (w.root.part (keyConditionPart plan.view)) ∨
      l ∈ atoms (w.root.part (filterPart plan.view)) := by
  have hperm := (renderedOnce_of_plan hg hplan).2.2
  exact List.mem_append.mp (hperm.mem_iff.mpr hl)

theorem mem_leaves_of_filter (hg : Grown w.root) (hplan : w.planQuery pk rk = some plan) {l : Leaf}
    (hl : l ∈ atoms (w.root.part (filterPart plan.view))) : l ∈ w.root.leaves := by
  have hperm := (renderedOnce_of_plan hg hplan).2.2
  exact hperm.mem_iff.mp (List.mem_append_right _ hl)

/-- The leaves on the planned key are those on the key schema: no leaf is on a
sort key that the plan leaves out. -/
theorem planned_iff (hplan : w.planQuery pk rk = some plan) :
    ∀ l ∈ w.root.leaves, l.lhs ∈ pk ++ rk ↔ l.lhs ∈ plan.view.pk ∨ l.lhs ∈ plan.view.sk := by
  obtain ⟨_, hsk, _, _, hsame⟩ := Where.planQuery_spec hplan
  obtain ⟨_, hpre, _, hout⟩ := sortKeyPrefix_spec hsk
  intro l hl
  rw [QueryKeyPlan.view, hsame, List.mem_append]
  refine or_congr_right ⟨fun hmem => ?_, fun hmem => hpre.subset hmem⟩
  rcases hout l.lhs hmem with hin | hzero
  · exact hin
  · exact absurd rfl (countLhs_eq_zero_iff.mp hzero l hl)

theorem queryPlain_of_legal (hg : Grown w.root) (hplan : w.planQuery pk rk = some plan)
    (hlegal : QueryLegal pk rk plan (w.root.part (keyConditionPart plan.view))
      (w.root.part (filterPart plan.view))) : w.root.queryPlain pk rk = true := by
  obtain ⟨_, hsk, _, hsafe, hsame⟩ := Where.planQuery_spec hplan
  obtain ⟨_, hpre, _, hout⟩ := sortKeyPrefix_spec hsk
  have hview : plan.view = ⟨pk, plan.skPrefix⟩ := by rw [QueryKeyPlan.view, hsame]
  have hplain := (hg.not_mem_keyCondition_iff hsafe).mp hlegal.conjunction.1
  have hfull : w.root.groupsMixed (pk ++ rk) = true := by
    refine (hg.halvesFull_iff hsafe (planned_iff hplan)).mp ⟨?_, ?_⟩
    · exact (hg.written_iff _).mp hlegal.written.1
    · exact (hg.written_iff _).mp hlegal.written.2
  simp only [queryPlain, sortKeyPlain, Bool.and_eq_true, Bool.not_eq_true', List.all_eq_true,
    Bool.or_eq_true, decide_eq_true_eq]
  refine ⟨⟨hplain.1, hfull⟩, ?_, ?_⟩
  · intro s hs
    rcases hout s hs with hmem | hzero
    · have hkey : s ∈ plan.view.pk ∨ s ∈ plan.view.sk := .inr (by rw [hview]; exact hmem)
      refine ⟨?_, ?_⟩
      · rw [← countP_keyCondition hsafe hkey]
        exact hlegal.single s hmem
      · intro t ht
        by_cases hlhs : t.2.lhs = s
        · right
          have hinKey := inKeyCondition_of_safe (leafQuerySafe_of_spine hsafe ht)
            (by rw [hlhs]; exact hkey)
          have hatom := mem_keyCondition_iff.mpr ⟨t.1, ht, hinKey⟩
          refine ⟨hplain.2 t ht hinKey, ?_⟩
          rcases mem_dropLast_or_getLast? hmem with hfront | hlast
          · obtain ⟨v, hv⟩ := hlegal.leading s hfront
            have hfiltered : t.2 ∈ [(⟨s, .comparison .equal v⟩ : Leaf)] := by
              rw [← hv]
              exact List.mem_filter.mpr ⟨hatom, by simp [hlhs]⟩
            rw [List.mem_singleton.mp hfiltered]
            rfl
          · exact hlegal.trailing s hlast t.2 hatom hlhs
        · exact .inl hlhs
    · refine ⟨by omega, ?_⟩
      intro t ht
      exact .inl (countLhs_eq_zero_iff.mp hzero t.2 (mem_leaves_of_spine ht))
  · intro l hl
    rcases mem_halves hg hplan hl with hkey | hfilter
    · left
      rw [List.contains_eq_mem, decide_eq_true_eq, List.mem_append]
      rcases hlegal.operands l hkey with hpk | hsk
      · exact .inl hpk
      · exact .inr (hpre.subset hsk)
    · right
      simpa using (hlegal.nonKey l hfilter).2

theorem queryLegal_of_plain (hg : Grown w.root) (hplan : w.planQuery pk rk = some plan)
    (hplain : w.root.queryPlain pk rk = true) :
    QueryLegal pk rk plan (w.root.part (keyConditionPart plan.view))
      (w.root.part (filterPart plan.view)) := by
  obtain ⟨hpk, hsk, hlead, hsafe, hsame⟩ := Where.planQuery_spec hplan
  obtain ⟨_, hpre, _, hout⟩ := sortKeyPrefix_spec hsk
  have hview : plan.view = ⟨pk, plan.skPrefix⟩ := by rw [QueryKeyPlan.view, hsame]
  simp only [queryPlain, sortKeyPlain, Bool.and_eq_true, Bool.not_eq_true', List.all_eq_true,
    Bool.or_eq_true, decide_eq_true_eq] at hplain
  obtain ⟨⟨hgroup, hmixed⟩, hsort, hreach⟩ := hplain
  have hfull := (hg.halvesFull_iff hsafe (planned_iff hplan)).mpr hmixed
  -- on a sort key plainness says it, on a partition key the plan does
  have hpositive : ∀ t ∈ w.root.spine, t.2.inKeyCondition plan.view t.1 = true → t.1 = false := by
    intro t ht hkey
    rcases lhs_of_inKeyCondition hkey with hmem | hmem
    · have hsafeLeaf := leafQuerySafe_of_spine hsafe ht
      obtain ⟨negate, lhs, p⟩ := t
      cases p <;> simp_all [leafQuerySafe, Leaf.inKeyCondition]
    · rw [hview] at hmem
      rcases (hsort t.2.lhs (hpre.subset hmem)).2 t ht with hne | hpos
      · exact absurd rfl hne
      · exact hpos.1
  refine
    { conjunction := ⟨(hg.not_mem_keyCondition_iff hsafe).mpr ⟨hgroup, hpositive⟩,
        or_not_mem_part rfl _⟩
      operands := ?_
      partition := ?_
      gapFree := ⟨hsame, hpre⟩
      single := ?_
      leading := ?_
      trailing := ?_
      nonKey := ?_
      written := ⟨(hg.written_iff _).mpr hfull.1, (hg.written_iff _).mpr hfull.2⟩ }
  · intro l hl
    obtain ⟨n, _, hkey⟩ := mem_keyCondition_iff.mp hl
    simpa [hview] using lhs_of_inKeyCondition hkey
  · intro p hp
    exact filter_keyCondition hsafe (.inl (by rw [hview]; exact hp)) (hpk p hp).2 (hpk p hp).1
  · intro s hs
    rw [countP_keyCondition hsafe (.inr (by rw [hview]; exact hs))]
    exact (hsort s (hpre.subset hs)).1
  · intro s hs
    have hmem := List.dropLast_subset _ hs
    exact filter_keyCondition hsafe (.inr (by rw [hview]; exact hmem)) (hlead s hs).1 (hlead s hs).2
  · intro s hs l hl hlhs
    have hmem := List.mem_of_getLast? hs
    obtain ⟨n, hspine, _⟩ := mem_keyCondition_iff.mp hl
    rcases (hsort s (hpre.subset hmem)).2 (n, l) hspine with hne | hpos
    · exact absurd hlhs hne
    · exact hpos.2
  · intro l hl
    have hleaf := mem_leaves_of_filter hg hplan hl
    rw [atoms_part] at hl
    have houtside := not_contains_of_mem_filter hsafe hl
    rw [hview] at houtside
    have hlhs : l.lhs ∉ pk ++ rk := by
      rw [List.mem_append]
      rintro (hmem | hmem)
      · exact houtside.1 hmem
      · rcases hout l.lhs hmem with hmem | hzero
        · exact houtside.2 hmem
        · exact countLhs_eq_zero_iff.mp hzero l hleaf rfl
    refine ⟨hlhs, ?_⟩
    rcases hreach l hleaf with hmem | hmem
    · rw [List.contains_eq_mem, decide_eq_true_eq] at hmem
      exact absurd hmem hlhs
    · simpa using hmem

end Planned

/-- `pk = 1 AND rk > 5 AND x <> 2` -/
def plainRange : SourceExpr .or :=
  .ofAnd (.and (.and (.ofNot (.element (.comparison "pk" (.op .equal) (.N "1"))))
    (.element (.comparison "rk" (.op .greaterThan) (.N "5"))))
    (.element (.comparison "x" (.op .notEqual) (.N "2"))))

/-- `pk = 1 AND rk > 5 AND rk < 10` -/
def twoRanges : SourceExpr .or :=
  .ofAnd (.and (.and (.ofNot (.element (.comparison "pk" (.op .equal) (.N "1"))))
    (.element (.comparison "rk" (.op .greaterThan) (.N "5"))))
    (.element (.comparison "rk" (.op .lessThan) (.N "10"))))

/-- `pk = 1 AND (x = 2 AND y = 3)` -/
def emptiedGroup : SourceExpr .or :=
  .ofAnd (.and (.ofNot (.element (.comparison "pk" (.op .equal) (.N "1"))))
    (.paren (.ofAnd (.and (.ofNot (.element (.comparison "x" (.op .equal) (.N "2"))))
      (.element (.comparison "y" (.op .equal) (.N "3")))))))

-- the group has nothing on a key attribute, and its parentheses stay
example : emptiedGroup.build.part (keyConditionPart ⟨["pk"], []⟩) =
    [.atom ⟨"pk", .comparison .equal (.N "1")⟩, .and, .lparen, .rparen] := by decide

end DdbShell
