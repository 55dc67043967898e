import DdbShell.Execute.AllOrNothing
import DdbShell.Planner.RespelledRequests

/-!
What the check of an EXISTS or NOT EXISTS addresses. Its key is collected from
the clause without any test, and its condition is the filter of a Query against
the whole key, which leaves out what a planned Query would have in its key
condition. Nothing of the clause is lost exactly when all that is left out are
the equalities the key is made of.
-/

namespace DdbShell

open Exec (Runs)
open LogicalExpression

namespace LogicalExpression

/-! ### Conjuncts -/

mutual

/-- What the tree is a conjunction of: below the ANDs that are not negated. -/
def conjuncts : LogicalExpression → List LogicalExpression
  | .leaf negate parens l => [.leaf negate parens l]
  | .or negate parens exprlist => [.or negate parens exprlist]
  | .and negate parens exprlist =>
      if negate then [.and negate parens exprlist] else conjunctsAll exprlist

def conjunctsAll : List LogicalExpression → List LogicalExpression
  | [] => []
  | e :: es => e.conjuncts ++ conjunctsAll es

end

theorem conjunctsAll_eq_flatMap (es : List LogicalExpression) :
    conjunctsAll es = es.flatMap conjuncts := by
  induction es with
  | nil => rfl
  | cons e es ih => rw [conjunctsAll, ih, List.flatMap_cons]

theorem conjuncts_and (parens : Bool) (es : List LogicalExpression) :
    (LogicalExpression.and false parens es).conjuncts = es.flatMap conjuncts := by
  rw [conjuncts, if_neg (by simp), conjunctsAll_eq_flatMap]

theorem holds_eq_conjuncts (e : LogicalExpression) (v : Leaf → Bool) :
    e.holds v = e.conjuncts.all fun c => c.holds v := by
  induction e using induct with
  | leaf negate parens l => simp [conjuncts]
  | or negate parens es ih => simp [conjuncts]
  | and negate parens es ih =>
      cases negate with
      | true => simp [conjuncts]
      | false =>
          rw [holds, conjuncts_and, List.all_flatMap, allHold_eq_all, Bool.false_xor,
            Bool.eq_iff_iff, List.all_eq_true, List.all_eq_true]
          exact forall₂_congr fun e he => by rw [ih e he]

/-- A conjunct is rendered whole exactly when the part drops none of its
leaves. -/
theorem Grown.part_eq_tokens_iff {q : Part} (hor : q.keepOr = true) {e : LogicalExpression}
    (h : Grown e) : e.part q = e.tokens ↔ e.dropped q = [] := by
  constructor
  · intro hpart
    have hatoms : e.partLeaves q = e.leaves := by
      rw [← atoms_part, hpart, atoms_tokens]
    -- what the other part has is what this one drops
    have hperm := @partLeaves_perm ⟨fun negate l => !q.keep negate l, false⟩ q rfl hor e
      fun s _ => rfl
    have hlength := hperm.length_eq
    rw [List.length_append, hatoms] at hlength
    have hother : e.partLeaves ⟨fun negate l => !q.keep negate l, false⟩ =
        (e.dropped q).map Prod.snd := partLeaves_eq_spine rfl e
    rw [hother, List.length_map] at hlength
    exact List.eq_nil_of_length_eq_zero (show (e.dropped q).length = 0 by omega)
  · intro hdropped
    apply (h.part_of_keep hor fun s hs => ?_).1
    rw [dropped, List.filter_eq_nil_iff] at hdropped
    simpa using hdropped s hs

/-! ### What is left out -/

/-- The equality that gives the name its value in the key. -/
def keyedBy (key : String → Option Value) (s : Bool × Leaf) : Bool :=
  !s.1 && match s.2.predicate with
    | .comparison .equal v => decide (key s.2.lhs = some v)
    | _ => false

/-- The conjunct is in the key, or whole in the part. -/
def Present (q : Part) (key : String → Option Value) (c : LogicalExpression) : Prop :=
  (∃ parens name v, c = .leaf false parens ⟨name, .comparison .equal v⟩ ∧ key name = some v) ∨
    c.part q = c.tokens

theorem keyedBy_iff {key : String → Option Value} {negate : Bool} {l : Leaf} :
    keyedBy key (negate, l) = true ↔
      ∃ name v, negate = false ∧ l = ⟨name, .comparison .equal v⟩ ∧ key name = some v := by
  obtain ⟨lhs, p⟩ := l
  constructor
  · intro h
    unfold keyedBy at h
    rw [Bool.and_eq_true, Bool.not_eq_true'] at h
    split at h
    · rename_i v heq
      simp only at heq
      subst heq
      exact ⟨lhs, v, h.1, rfl, of_decide_eq_true h.2⟩
    · cases h.2
  · rintro ⟨name, v, rfl, heq, hkey⟩
    cases heq
    simp [keyedBy, hkey]

/-- Every conjunct is present exactly when the part drops nothing under a
negated AND and nothing but equalities of the key. -/
theorem Grown.present_iff {q : Part} (hor : q.keepOr = true) {key : String → Option Value}
    {e : LogicalExpression} (h : Grown e) :
    (∀ c ∈ e.conjuncts, Present q key c) ↔
      e.dropsPositive q = true ∧ (e.dropped q).all (keyedBy key) = true := by
  induction e using induct with
  | leaf negate parens l =>
      have hpart := h.part_eq_tokens_iff hor
      simp only [conjuncts, List.mem_singleton, forall_eq, Present, hpart, dropsPositive, true_and]
      cases hkeep : q.keep negate l with
      | true => simp [dropped, spine, hkeep]
      | false =>
          have hleaf : (∃ parens' name v, LogicalExpression.leaf negate parens l =
              .leaf false parens' ⟨name, .comparison .equal v⟩ ∧ key name = some v) ↔
              keyedBy key (negate, l) = true := by
            rw [keyedBy_iff]
            constructor
            · rintro ⟨parens', name, v, heq, hkey⟩
              cases heq
              exact ⟨name, v, rfl, rfl, hkey⟩
            · rintro ⟨name, v, rfl, rfl, hkey⟩
              exact ⟨parens, name, v, rfl, hkey⟩
          rw [hleaf]
          simp [dropped, spine, hkeep]
  | or negate parens es ih =>
      have hpart := h.part_eq_tokens_iff hor
      simp [conjuncts, Present, hpart, dropped, spine, dropsPositive]
  | and negate parens es ih =>
      cases negate with
      | true =>
          have hpart := h.part_eq_tokens_iff hor
          simp only [conjuncts, if_true, List.mem_singleton, forall_eq, Present, hpart,
            reduceCtorEq, false_and, exists_false, false_or, dropsPositive]
          constructor
          · intro hdropped
            rw [hdropped]
            rw [dropped, List.filter_eq_nil_iff] at hdropped
            refine ⟨?_, rfl⟩
            rw [List.all_eq_true]
            exact fun s hs => by simpa using hdropped s hs
          · rintro ⟨hkeep, -⟩
            rw [List.all_eq_true] at hkeep
            rw [dropped, List.filter_eq_nil_iff]
            exact fun s hs => by simpa using hkeep s hs
      | false =>
          cases h with
          | and size children grouped bare =>
              rw [conjuncts_and, dropsPositive, if_neg (by simp), dropsPositiveAll_eq_all,
                dropped_and, List.all_flatMap, List.all_eq_true, List.all_eq_true, ← forall₂_and]
              simp only [List.mem_flatMap]
              constructor
              · intro hall e he
                exact (ih e he (children e he)).mp fun c hc => hall c ⟨e, he, hc⟩
              · rintro hall c ⟨e, he, hc⟩
                exact (ih e he (children e he)).mpr (hall e he) c hc

end LogicalExpression

/-! ### One item -/

/-- The names `get_gud_key` is asked for. -/
def keyNames (base : ResolvedKeySchema) : List String := [base.pk.headD "", base.rk.headD ""]

/-- The value the collected key gives a name. -/
def keyLookup (base : ResolvedKeySchema) (w : Where) (name : String) : Option Value :=
  if name ∈ keyNames base then w.root.firstEquality name else none

theorem lookup_getGudKey (base : ResolvedKeySchema) (w : Where) (name : String) :
    (keyOf (w.getGudKey base.pk base.rk)).lookup name = keyLookup base w name := by
  unfold keyLookup Where.getGudKey
  rw [keyOf, Maps.lookup_toList, getGudKey_getElem?]
  by_cases hname : name ∈ keyNames base
  · have hvalue : keyValue (base.pk.headD "") (base.rk.headD "") name =
        keyValue name name name := by
      funext s
      simp only [keyValue, if_pos (List.mem_pair.mp hname), or_self, if_true]
    rw [if_pos hname, hvalue, firstEquality]
  · rw [if_neg hname, List.findSome?_eq_none_iff]
    exact fun s _ => keyValue_other (mt List.mem_pair.mpr hname) s

/-- The filter against the whole key. -/
abbrev checkPart (base : ResolvedKeySchema) : Part := filterPart ⟨base.pk, base.rk⟩

/-- The condition of the check begins with the filter. -/
def ShowsFilter (base : ResolvedKeySchema) (w : Where) (check : TransactConditionCheck) : Prop :=
  ∃ st checks, check.conditionExpression =
    (let filter := (spell (w.root.part (checkPart base)) st).1
     if filter = "" then filter else filter ++ " AND ") ++ checks

/-- The check names one item and loses nothing of the clause. -/
structure AddressesOne (base : ResolvedKeySchema) (w : Where) (check : TransactConditionCheck) :
    Prop where
  /-- the key has the attributes of the base key schema and no others -/
  binds : ∀ name, (check.key.lookup name).isSome = true ↔ name ∈ base.pk ++ base.rk
  /-- each with the value of a non-negated equality -/
  equalities : ∀ name v, check.key.lookup name = some v →
    (false, ⟨name, .comparison .equal v⟩) ∈ w.root.spine
  shows : ShowsFilter base w check
  complete : ∀ c ∈ w.root.conjuncts, Present (checkPart base) (fun name => check.key.lookup name) c

/-- Outside the ORs the clause has an equality on each key attribute, and
nothing else that a planned Query would have in its key condition. -/
def pinsOne (base : ResolvedKeySchema) (w : Where) : Bool :=
  (base.pk ++ base.rk).all (fun name => (keyLookup base w name).isSome) &&
    (keyNames base).all (fun name =>
      (base.pk ++ base.rk).contains name || (w.root.firstEquality name).isNone) &&
    w.root.dropsPositive (checkPart base) &&
    (w.root.dropped (checkPart base)).all (keyedBy (keyLookup base w))

theorem addressesOne_iff {base : ResolvedKeySchema} {w : Where} {check : TransactConditionCheck}
    (hg : Grown w.root) (hkey : check.key = keyOf (w.getGudKey base.pk base.rk))
    (hshows : ShowsFilter base w check) :
    AddressesOne base w check ↔ pinsOne base w = true := by
  have hlookup : ∀ name, check.key.lookup name = keyLookup base w name := by
    intro name
    rw [hkey, lookup_getGudKey]
  have hpresent := @Grown.present_iff (checkPart base) rfl (keyLookup base w) _ hg
  unfold pinsOne
  rw [Bool.and_eq_true, Bool.and_eq_true, Bool.and_eq_true]
  constructor
  · intro h
    have hbinds := h.binds
    have hcomplete := h.complete
    simp only [hlookup] at hbinds hcomplete
    obtain ⟨hpositive, hkeyed⟩ := hpresent.mp hcomplete
    refine ⟨⟨⟨?_, ?_⟩, hpositive⟩, hkeyed⟩
    · rw [List.all_eq_true]
      exact fun name hname => (hbinds name).mpr hname
    · rw [List.all_eq_true]
      intro name hname
      rw [Bool.or_eq_true, List.contains_iff_mem]
      cases hfirst : w.root.firstEquality name with
      | none => exact .inr rfl
      | some v =>
          left
          apply (hbinds name).mp
          rw [keyLookup, if_pos hname, hfirst]
          rfl
  · rintro ⟨⟨⟨hall, honly⟩, hpositive⟩, hkeyed⟩
    rw [List.all_eq_true] at hall honly
    refine ⟨?_, ?_, hshows, ?_⟩
    · intro name
      rw [hlookup]
      constructor
      · intro hsome
        by_cases hname : name ∈ keyNames base
        · rw [keyLookup, if_pos hname] at hsome
          have hname := honly name hname
          rw [Bool.or_eq_true, List.contains_iff_mem] at hname
          rcases hname with hname | hnone
          · exact hname
          · rw [Option.isNone_iff_eq_none] at hnone
            rw [hnone] at hsome
            cases hsome
        · rw [keyLookup, if_neg hname] at hsome
          cases hsome
      · exact hall name
    · intro name v hv
      rw [hlookup] at hv
      by_cases hname : name ∈ keyNames base
      · rw [keyLookup, if_pos hname, firstEquality] at hv
        obtain ⟨s, hs, hvalue⟩ := List.exists_of_findSome?_eq_some hv
        have hequality := isKeyEquality_of_keyValue hvalue
        obtain ⟨rhs, rfl⟩ := isKeyEquality_iff.mp hequality
        simp only [keyValue, or_self, if_true, hequality] at hvalue
        cases hvalue
        exact hs
      · rw [keyLookup, if_neg hname] at hv
        cases hv
    · simp only [hlookup]
      exact hpresent.mpr ⟨hpositive, hkeyed⟩

/-! ### Whole transactions -/

/-- The clause of an EXISTS or NOT EXISTS pins one item of its table, as far as
the key schema is known. -/
def Attempt.checkPinned (access : TransactAccess) (a : Attempt) : Bool :=
  match access, a.item, a.base with
  | .write, .select cmd, .ok base => cmd.condition.any (pinsOne base)
  | _, _, _ => true

/-- Every request of the run has, for each EXISTS and NOT EXISTS, a check that
addresses one item. -/
def ChecksAddressOne (attempts : List Attempt) (events : List RunEvent) : Prop :=
  ∀ request ∈ sent events, ∀ a ∈ attempts, ∀ cmd, a.item = .select cmd →
    ∃ base w check, a.base = .ok base ∧ cmd.condition = some w ∧
      TransactEntry.write (.conditionCheck check) ∈ request ∧
      buildTransactConditionCheck cmd (fun _ => a.described) (uniquePrefix a.counter) = .ok check ∧
      AddressesOne base w check

theorem buildTransactConditionCheck_ok {cmd : SelectCmd} {a : Attempt}
    {check : TransactConditionCheck} (hclause : ∃ clause, cmd.condition = parsedWhere clause)
    (h : buildTransactConditionCheck cmd (fun _ => a.described) (uniquePrefix a.counter) =
      .ok check) :
    ∃ base w, a.base = .ok base ∧ cmd.condition = some w ∧ Grown w.root ∧
      check.key = keyOf (w.getGudKey base.pk base.rk) ∧ ShowsFilter base w check := by
  obtain ⟨item, described, counter⟩ := a
  obtain ⟨clause, hclause⟩ := hclause
  cases clause with
  | none =>
      have hnone : cmd.condition = none := hclause
      unfold buildTransactConditionCheck at h
      rw [hnone] at h
      cases hmode : existsFunction cmd.existsMode with
      | none =>
          rw [hmode] at h
          cases h
      | some checkFunc =>
          rw [hmode] at h
          cases described with
          | error e => cases h
          | ok described => cases h
  | some c =>
      have hcondition : cmd.condition = some ⟨c.build⟩ := hclause
      have hon : cmd = cmd.on c := by
        cases cmd
        cases hcondition
        rfl
      rw [hon] at h
      have hkey := conditionCheckKey_on (fun _ => described) (uniquePrefix counter) cmd c
      obtain ⟨base, checkFunc, hbase, -, hshows⟩ := conditionCheck_shows _ _ h
      rw [conditionCheckKey, h, hbase] at hkey
      cases described with
      | error e => cases hbase
      | ok described =>
          cases hbase
          refine ⟨_, ⟨c.build⟩, rfl, hcondition, c.grown_build.1, ?_, _, _, hshows⟩
          cases hmode : existsFunction cmd.existsMode with
          | none =>
              rw [hmode] at hkey
              cases hkey
          | some checkFunc =>
              rw [hmode] at hkey
              exact Except.ok.inj hkey

/-- In every run of a write transaction its checks address one item each,
exactly when it does not commit one that does not pin its item. -/
theorem checks_address_one_iff (cmd : TransactCmd) (hwrite : cmd.access = .write)
    (hclauses : ∀ select, .select select ∈ cmd.items →
      ∃ clause, select.condition = parsedWhere clause)
    (counter : Nat) (events : List RunEvent) (ending : Ending Unit) (counter' : Nat)
    (h : Runs (executeTransact cmd false) counter events (ending, counter')) :
    ∃ attempts, TransactRun cmd attempts events ∧
      (ChecksAddressOne attempts events ↔
        (Commits cmd attempts → ∀ a ∈ attempts, a.checkPinned .write = true)) := by
  obtain ⟨attempts, hrun⟩ := runs_executeTransact h
  have hparsed : ∀ a ∈ attempts, ∀ select, a.item = .select select →
      ∃ clause, select.condition = parsedWhere clause := by
    intro a ha select hitem
    exact hclauses select (hrun.tried.subset (hitem ▸ List.mem_map_of_mem ha))
  refine ⟨attempts, hrun, ?_, ?_⟩
  · intro hchecks hcommits a ha
    obtain ⟨request, hrequest⟩ := List.exists_mem_of_ne_nil _ (hrun.sent_iff.mpr hcommits)
    cases hitem : a.item with
    | select select =>
        obtain ⟨base, w, check, hbase, hw, -, hbuilt, haddresses⟩ :=
          hchecks request hrequest a ha select hitem
        obtain ⟨base', w', hbase', hw', hg, hkey, hshows⟩ :=
          buildTransactConditionCheck_ok (hparsed a ha select hitem) hbuilt
        rw [hbase] at hbase'
        cases hbase'
        rw [hw] at hw'
        cases hw'
        simp only [Attempt.checkPinned, hitem, hbase, hw, Option.any_some]
        exact (addressesOne_iff hg hkey hshows).mp haddresses
    | insert cmd => simp [Attempt.checkPinned, hitem]
    | update cmd => simp [Attempt.checkPinned, hitem]
    | delete cmd => simp [Attempt.checkPinned, hitem]
    | placeholder => simp [Attempt.checkPinned, hitem]
  · intro hpinned request hrequest a ha select hitem
    have hcommits := hrun.sent_iff.mp (List.ne_nil_of_mem hrequest)
    obtain ⟨entries, hentries⟩ := isOk_iff.mp (hcommits.2.2.2 a ha)
    have hmember : ∀ entry ∈ entries, entry ∈ request := by
      intro entry hentry
      rw [hrun.whole request hrequest, List.mem_flatMap]
      refine ⟨a, ha, ?_⟩
      rw [hentries]
      exact hentry
    rw [hwrite] at hentries
    obtain ⟨items, hitems, rfl⟩ := map_eq_ok hentries
    rw [hitem] at hitems
    obtain ⟨check, hcheck, rfl⟩ := map_eq_ok hitems
    obtain ⟨base, w, hbase, hw, hg, hkey, hshows⟩ :=
      buildTransactConditionCheck_ok (hparsed a ha select hitem) hcheck
    have hpins := hpinned hcommits a ha
    simp only [Attempt.checkPinned, hitem, hbase, hw, Option.any_some] at hpins
    refine ⟨base, w, check, hbase, hw, hmember _ (by simp), hcheck, ?_⟩
    exact (addressesOne_iff hg hkey hshows).mpr hpins

theorem existsTransaction_clauses (name : String) :
    ∀ select, .select select ∈ (existsTransaction name).items →
      ∃ clause, select.condition = parsedWhere clause := by
  intro select hselect
  cases List.mem_singleton.mp hselect
  exact ⟨some (.ofAnd (.ofNot (equals name "1"))), rfl⟩

/-- The one attempt of the transaction against a table with key `a`. -/
theorem existsEvents_attempt {name : String} {attempts : List Attempt}
    (hrun : TransactRun (existsTransaction name) attempts (existsEvents name))
    (hitems : attempts.map Attempt.item = (existsTransaction name).items) :
    ∃ counter, attempts = [⟨.select {
      table := "t"
      condition := some ⟨.leaf false false ⟨name, .comparison .equal (.N "1")⟩⟩
      existsMode := .exists }, .ok { keySchema := ⟨["a"], []⟩ }, counter⟩] := by
  obtain ⟨request, hcalls, -⟩ := hrun.calls
  obtain ⟨⟨item, described, counter⟩, rfl, hitem⟩ := List.map_eq_singleton_iff.mp hitems
  cases hitem
  cases hcalls
  exact ⟨counter, rfl⟩

/-- `EXISTS SELECT * FROM t WHERE a = 1`, where `a` is the key. -/
theorem existsWithKey_checks : ∃ attempts,
    TransactRun (existsTransaction "a") attempts (existsEvents "a") ∧
      ChecksAddressOne attempts (existsEvents "a") := by
  obtain ⟨attempts, hrun, hiff⟩ := checks_address_one_iff (existsTransaction "a") rfl
    (existsTransaction_clauses "a") 0 _ _ _ (runs_existsEvents "a")
  refine ⟨attempts, hrun, hiff.mpr ?_⟩
  rintro ⟨-, -, hitems, -⟩ a ha
  obtain ⟨counter, rfl⟩ := existsEvents_attempt hrun hitems
  rw [List.mem_singleton.mp ha]
  have hpins : pinsOne ⟨["a"], []⟩
      ⟨.leaf false false ⟨"a", .comparison .equal (.N "1")⟩⟩ = true := by
    decide
  exact hpins

/-- `EXISTS SELECT * FROM t WHERE b = 1` commits with an empty key. -/
theorem existsWithoutKey_unaddressed :
    Runs (executeTransact (existsTransaction "b") false) 0 (existsEvents "b") (.ok (), 1) ∧
      ¬ ∃ attempts, TransactRun (existsTransaction "b") attempts (existsEvents "b") ∧
        ChecksAddressOne attempts (existsEvents "b") := by
  refine ⟨runs_existsEvents "b", ?_⟩
  rintro ⟨attempts, hrun, hchecks⟩
  have hsent : sent (existsEvents "b") ≠ [] := nofun
  obtain ⟨request, hrequest⟩ := List.exists_mem_of_ne_nil _ hsent
  obtain ⟨-, -, hitems, -⟩ := hrun.sent_iff.mp hsent
  obtain ⟨counter, rfl⟩ := existsEvents_attempt hrun hitems
  obtain ⟨base, w, check, hbase, hw, -, hbuilt, haddresses⟩ :=
    hchecks request hrequest _ (List.mem_singleton_self _) _ rfl
  cases hbase
  cases hw
  cases hbuilt
  have hbound := (haddresses.binds "a").mpr (by simp [fromTableKey])
  simp only at hbound
  rw [lookup_getGudKey] at hbound
  have hnone : keyLookup ⟨["a"], []⟩
      ⟨.leaf false false ⟨"b", .comparison .equal (.N "1")⟩⟩ "a" = none := by decide
  exact absurd hbound (by simpa [fromTableKey] using hnone)

end DdbShell
