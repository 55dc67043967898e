import DdbShell.Execute.WellFormed
import DdbShell.Execute.Accounting

/-!
How a statement reaches its items, taken apart so that two clauses can be
compared: the plans of two SELECTs are alike if they call the same API with the
same key, or with expressions that stand in a given relation. UPDATE and DELETE
first choose between one write and an enumeration, and then follow the choice.
-/

namespace DdbShell

open Infix (Token)
open LogicalExpression

/-! ### Selects -/

def SelectCmd.on (cmd : SelectCmd) (c : SourceExpr .or) : SelectCmd :=
  { cmd with condition := some ⟨c.build⟩ }

/-- The expressions of a Query, spelled one after the other. -/
def ShowsHalves (c : SourceExpr .or) (plan : QueryKeyPlan) (r : QueryIn) : Prop :=
  ∃ st, r.keyConditionExpression = (spell (c.build.part (keyConditionPart plan.view)) st).1 ∧
    r.filterExpression = nonEmpty (spell (c.build.part (filterPart plan.view))
      (spell (c.build.part (keyConditionPart plan.view)) st).2).1

def ShowsClause (c : SourceExpr .or) (text : Option String) : Prop :=
  ∃ st, text = nonEmpty (spell c.build.tokens st).1

/-- The same API, and the same key or expressions that stand in the relation.
`plan` is the Query plan of the first clause, if it has one. -/
inductive SelectsAlike (same : Tokens → Tokens → Prop) (c1 c2 : SourceExpr .or)
    (plan : Option QueryKeyPlan) : Except Error SelectPlan → Except Error SelectPlan → Prop where
  | error (e : Error) : SelectsAlike same c1 c2 plan (.error e) (.error e)
  | getItem {r1 r2 : GetItemIn} (hkey : r1.key = r2.key) :
      SelectsAlike same c1 c2 plan (.ok (.getItem r1)) (.ok (.getItem r2))
  | query {r1 r2 : QueryIn} {qplan : QueryKeyPlan} (hplan : plan = some qplan)
      (shows1 : ShowsHalves c1 qplan r1) (shows2 : ShowsHalves c2 qplan r2)
      (hkey : same (c1.build.part (keyConditionPart qplan.view))
        (c2.build.part (keyConditionPart qplan.view)))
      (hfilter : same (c1.build.part (filterPart qplan.view))
        (c2.build.part (filterPart qplan.view))) :
      SelectsAlike same c1 c2 plan (.ok (.query r1)) (.ok (.query r2))
  | scan {r1 r2 : ScanIn} (shows1 : ShowsClause c1 r1.filterExpression)
      (shows2 : ShowsClause c2 r2.filterExpression)
      (hfilter : same c1.build.tokens c2.build.tokens) :
      SelectsAlike same c1 c2 plan (.ok (.scan r1)) (.ok (.scan r2))
  | searchVectors {r1 r2 : SearchVectorsIn} (shows1 : ShowsClause c1 r1.searchConditionExpression)
      (shows2 : ShowsClause c2 r2.searchConditionExpression)
      (hfilter : same c1.build.tokens c2.build.tokens) :
      SelectsAlike same c1 c2 plan (.ok (.searchVectors r1)) (.ok (.searchVectors r2))

/-- The Query plan of a SELECT of the clause. -/
def selectQueryPlan (cmd : SelectCmd) (describe : DescribeTable) (c : SourceExpr .or) :
    Option QueryKeyPlan :=
  match getKeySchema describe cmd.table (cmd.index.getD "") with
  | .ok schema => (Where.mk c.build).planQuery schema.pk schema.rk
  | .error _ => none

/-- Whether a GetItem serves the clause. -/
def getItemServes (index : Option String) (schema : ResolvedKeySchema) (c : SourceExpr .or) :
    Bool :=
  index.isNone && (Where.mk c.build).canGetitem schema.pk schema.rk

section Access

variable (cmd : SelectCmd) {schema : ResolvedKeySchema} (st : SymbolTable) {c : SourceExpr .or}

theorem planAccess_getItem (hget : getItemServes cmd.index schema c = true) :
    (planAccess (cmd.on c) schema st).1 = .getItem (getItemRequest (cmd.on c)
      ((Where.mk c.build).getGudKey schema.pk schema.rk) st).1 := by
  have hcondition : (cmd.on c).condition = some ⟨c.build⟩ := rfl
  simp only [planAccess, hcondition]
  rw [if_pos (show ((cmd.on c).index.isNone && _) = true from hget)]
  rfl

theorem planAccess_query (hget : getItemServes cmd.index schema c = false) {plan : QueryKeyPlan}
    (hplan : (Where.mk c.build).planQuery schema.pk schema.rk = some plan) :
    (planAccess (cmd.on c) schema st).1 = .query (queryRequest (cmd.on c) ⟨c.build⟩ plan st).1 := by
  have hcondition : (cmd.on c).condition = some ⟨c.build⟩ := rfl
  simp only [planAccess, hcondition, hplan]
  rw [if_neg (show ¬((cmd.on c).index.isNone && _) = true from Bool.eq_false_iff.mp hget)]
  rfl

theorem planAccess_scan (hget : getItemServes cmd.index schema c = false)
    (hplan : (Where.mk c.build).planQuery schema.pk schema.rk = none) :
    (planAccess (cmd.on c) schema st).1 = .scan (scanRequest (cmd.on c) st).1 := by
  have hcondition : (cmd.on c).condition = some ⟨c.build⟩ := rfl
  simp only [planAccess, hcondition, hplan]
  rw [if_neg (show ¬((cmd.on c).index.isNone && _) = true from Bool.eq_false_iff.mp hget)]
  rfl

/-- The texts of a Query are those of its two halves. -/
theorem queryRequest_shows (plan : QueryKeyPlan) :
    ShowsHalves c plan (queryRequest (cmd.on c) ⟨c.build⟩ plan st).1 := by
  have hkey := Where.queryKeyConditionExpression_eq (w := ⟨c.build⟩) c.grown_build.1 plan
  have hfilter := Where.queryFilterExpression_eq (w := ⟨c.build⟩) c.grown_build.1 plan
  refine ⟨(optionalProjection cmd.projection st).2, ?_, ?_⟩
  · simp only [queryRequest, hkey]
    rfl
  · simp only [queryRequest, hkey, hfilter]
    rfl

theorem scanRequest_shows : ShowsClause c (scanRequest (cmd.on c) st).1.filterExpression := by
  refine ⟨(optionalProjection cmd.projection st).2, ?_⟩
  have hfilter := optionalScanFilter_eq (some c) (optionalProjection cmd.projection st).2
  exact congrArg Prod.fst hfilter

end Access

/-! ### Two clauses -/

section TwoClauses

variable {same : Tokens → Tokens → Prop} {c1 c2 : SourceExpr .or}

/-- What it takes for the classic access paths of two clauses to be alike, when
the clauses read the same. -/
def AccessAlike (same : Tokens → Tokens → Prop) (index : Option String)
    (schema : ResolvedKeySchema) (c1 c2 : SourceExpr .or) : Prop :=
  getItemServes index schema c1 = getItemServes index schema c2 ∧
    if getItemServes index schema c1 then
      keyOf ((Where.mk c1.build).getGudKey schema.pk schema.rk) =
        keyOf ((Where.mk c2.build).getGudKey schema.pk schema.rk)
    else
      match (Where.mk c1.build).planQuery schema.pk schema.rk,
        (Where.mk c2.build).planQuery schema.pk schema.rk with
      | some plan, some _ =>
          same (c1.build.part (keyConditionPart plan.view))
              (c2.build.part (keyConditionPart plan.view)) ∧
            same (c1.build.part (filterPart plan.view)) (c2.build.part (filterPart plan.view))
      | none, none => True
      | _, _ => False

/-- Two plans of clauses that mention the same names are one plan. -/
def PlansTogether (schema : ResolvedKeySchema) (c1 c2 : SourceExpr .or) : Prop :=
  ∀ plan1 plan2, (Where.mk c1.build).planQuery schema.pk schema.rk = some plan1 →
    (Where.mk c2.build).planQuery schema.pk schema.rk = some plan2 → plan1 = plan2

theorem planAccess_alike (htokens : same c1.build.tokens c2.build.tokens) (cmd : SelectCmd)
    {schema : ResolvedKeySchema} (hplans : PlansTogether schema c1 c2) (st : SymbolTable) :
    SelectsAlike same c1 c2 ((Where.mk c1.build).planQuery schema.pk schema.rk)
        (.ok (planAccess (cmd.on c1) schema st).1) (.ok (planAccess (cmd.on c2) schema st).1) ↔
      AccessAlike same cmd.index schema c1 c2 := by
  -- neither clause is served by a GetItem, so each has a Query or a Scan
  have hothers : getItemServes cmd.index schema c1 = false →
      getItemServes cmd.index schema c2 = false →
      (SelectsAlike same c1 c2 ((Where.mk c1.build).planQuery schema.pk schema.rk)
        (.ok (planAccess (cmd.on c1) schema st).1) (.ok (planAccess (cmd.on c2) schema st).1) ↔
      AccessAlike same cmd.index schema c1 c2) := by
    intro hget1 hget2
    rw [AccessAlike, hget1, hget2]
    cases hquery1 : (Where.mk c1.build).planQuery schema.pk schema.rk with
    | none =>
        cases hquery2 : (Where.mk c2.build).planQuery schema.pk schema.rk with
        | none =>
            rw [planAccess_scan cmd st hget1 hquery1, planAccess_scan cmd st hget2 hquery2]
            apply iff_of_true
            · exact .scan (scanRequest_shows cmd st) (scanRequest_shows cmd st) htokens
            · simp
        | some plan2 =>
            rw [planAccess_scan cmd st hget1 hquery1, planAccess_query cmd st hget2 hquery2]
            apply iff_of_false nofun
            simp
    | some plan1 =>
        cases hquery2 : (Where.mk c2.build).planQuery schema.pk schema.rk with
        | none =>
            rw [planAccess_query cmd st hget1 hquery1, planAccess_scan cmd st hget2 hquery2]
            apply iff_of_false nofun
            simp
        | some plan2 =>
            obtain rfl := hplans plan1 plan2 hquery1 hquery2
            rw [planAccess_query cmd st hget1 hquery1, planAccess_query cmd st hget2 hquery2]
            simp only [Bool.false_eq_true, if_false, true_and]
            constructor
            · intro halike
              cases halike with
              | query hsome _ _ hkey hfilter =>
                  cases hsome
                  exact ⟨hkey, hfilter⟩
            · rintro ⟨hkey, hfilter⟩
              exact .query rfl (queryRequest_shows cmd st plan1) (queryRequest_shows cmd st plan1)
                hkey hfilter
  have hsplit : ∀ {c c' : SourceExpr .or}, getItemServes cmd.index schema c = true →
      getItemServes cmd.index schema c' = false →
      ∃ r, (planAccess (cmd.on c) schema st).1 = .getItem r ∧
        ∀ r', (planAccess (cmd.on c') schema st).1 ≠ .getItem r' := by
    intro c c' hget hget'
    refine ⟨_, planAccess_getItem cmd st hget, fun r' heq => ?_⟩
    cases hquery : (Where.mk c'.build).planQuery schema.pk schema.rk with
    | none => simp [planAccess_scan cmd st hget' hquery] at heq
    | some plan => simp [planAccess_query cmd st hget' hquery] at heq
  cases hget1 : getItemServes cmd.index schema c1 with
  | true =>
      cases hget2 : getItemServes cmd.index schema c2 with
      | true =>
          rw [AccessAlike, hget1, hget2, planAccess_getItem cmd st hget1,
            planAccess_getItem cmd st hget2]
          simp only [if_true, true_and]
          constructor
          · intro halike
            cases halike with
            | getItem hkey => exact hkey
          · exact fun hkey => .getItem hkey
      | false =>
          obtain ⟨r, heq, hne⟩ := hsplit hget1 hget2
          rw [AccessAlike, hget1, hget2, heq]
          apply iff_of_false
          · intro halike
            generalize hplan : (planAccess (cmd.on c2) schema st).1 = plan at halike hne
            cases halike with
            | getItem hkey => exact hne _ rfl
          · simp
  | false =>
      cases hget2 : getItemServes cmd.index schema c2 with
      | true =>
          obtain ⟨r, heq, hne⟩ := hsplit hget2 hget1
          rw [AccessAlike, hget1, hget2, heq]
          apply iff_of_false
          · intro halike
            generalize hplan : (planAccess (cmd.on c1) schema st).1 = plan at halike hne
            cases halike with
            | getItem hkey => exact hne _ rfl
          · simp
      | false => exact hothers hget1 hget2

/-- A vector search has the same checks, and shows the whole clause. -/
theorem planSearchVectors_alike (htokens : same c1.build.tokens c2.build.tokens)
    (cmd : SelectCmd) (index : String) (vi : VectorIndexSchema) (p : String)
    (plan : Option QueryKeyPlan) :
    SelectsAlike same c1 c2 plan (planSearchVectors (cmd.on c1) index vi p)
      (planSearchVectors (cmd.on c2) index vi p) := by
  have hcheck : ∀ c, checkSearchVector (cmd.on c) vi = checkSearchVector cmd vi := fun c => rfl
  have hshows : ∀ c st, ShowsClause c (optionalScanFilter (cmd.on c).condition st).1 := by
    intro c st
    exact ⟨st, congrArg Prod.fst (optionalScanFilter_eq (some c) st)⟩
  unfold planSearchVectors
  rw [hcheck, hcheck]
  cases checkSearchVector cmd vi with
  | error e => exact .error e
  | ok checked => exact .searchVectors (hshows c1 _) (hshows c2 _) htokens

/-- What it takes for two SELECTs to be planned alike: a vector search and a
failed lookup always are. -/
def PlansAlike (same : Tokens → Tokens → Prop) (cmd : SelectCmd) (describe : DescribeTable)
    (c1 c2 : SourceExpr .or) : Prop :=
  cmd.searchVector.isSome ∨ onVectorIndex cmd describe ∨
    ∀ schema, getKeySchema describe cmd.table (cmd.index.getD "") = .ok schema →
      AccessAlike same cmd.index schema c1 c2

theorem planSelect_alike (htokens : same c1.build.tokens c2.build.tokens)
    (hplans : ∀ schema, PlansTogether schema c1 c2) (cmd : SelectCmd) (describe : DescribeTable)
    (p : String) :
    SelectsAlike same c1 c2 (selectQueryPlan cmd describe c1) (planSelect (cmd.on c1) describe p)
        (planSelect (cmd.on c2) describe p) ↔
      PlansAlike same cmd describe c1 c2 := by
  have haccess : ∀ message, onVectorIndex cmd describe = false →
      let access := fun c => (do
        if cmd.searchVector.isSome then
          throw ⟨.invalidArgument, message⟩
        let schema ← getKeySchema describe cmd.table (cmd.index.getD "")
        return (planAccess (cmd.on c) schema ⟨p, 1, 1, ∅, ∅⟩).1 : Except Error SelectPlan)
      (SelectsAlike same c1 c2 (selectQueryPlan cmd describe c1) (access c1) (access c2) ↔
        PlansAlike same cmd describe c1 c2) := by
    intro message hvector
    simp only [PlansAlike, selectQueryPlan, hvector]
    cases hnear : cmd.searchVector.isSome with
    | true => exact iff_of_true (.error _) (.inl rfl)
    | false =>
        cases hschema : getKeySchema describe cmd.table (cmd.index.getD "") with
        | error err => exact iff_of_true (.error _) (.inr (.inr nofun))
        | ok schema => simpa using planAccess_alike htokens cmd (hplans schema) _
  have hfields : ∀ c, (cmd.on c).index = cmd.index ∧ (cmd.on c).table = cmd.table ∧
      (cmd.on c).searchVector = cmd.searchVector := fun c => ⟨rfl, rfl, rfl⟩
  unfold planSelect
  simp only [hfields]
  cases hindex : cmd.index with
  | none =>
      simp only [hindex] at haccess
      exact haccess _ (by simp [onVectorIndex, hindex])
  | some index =>
      simp only [hindex] at haccess
      cases hdescribe : describe cmd.table with
      | error err =>
          have hno : getKeySchema describe cmd.table index = .error err := by
            rw [getKeySchema, hdescribe]
            rfl
          apply iff_of_true (.error err)
          refine .inr (.inr fun schema hok => ?_)
          simp [hindex, hno] at hok
      | ok described =>
          cases hfind : described.vectorIndexes.find? fun vi => vi.indexName = index with
          | none =>
              have hno : onVectorIndex cmd describe = false := by
                simpa [onVectorIndex, hindex, hdescribe] using hfind
              simp only [ok_bind, hfind, Option.map_none, pure_bind]
              exact haccess _ hno
          | some vi =>
              have hyes : onVectorIndex cmd describe = true := by
                have hmem := List.mem_of_find?_eq_some hfind
                have hname := List.find?_some hfind
                simp only [onVectorIndex, hindex, hdescribe, List.any_eq_true]
                exact ⟨vi, hmem, hname⟩
              simp only [ok_bind, hfind, Option.map_some, pure_bind]
              apply iff_of_true
              · exact planSearchVectors_alike htokens cmd index vi p _
              · exact .inr (.inl hyes)

end TwoClauses

/-! ### Writes -/

/-- How UPDATE or DELETE reaches its items. -/
inductive WriteAccess where
  | one (key : ValueMap)
  | query (plan : QueryKeyPlan)
  | scan

namespace BulkCmd

open Exec (nextPrefix emit)

def on (c : SourceExpr .or) : BulkCmd → BulkCmd
  | .update cmd => .update { cmd with condition := some ⟨c.build⟩ }
  | .delete cmd => .delete { cmd with condition := some ⟨c.build⟩ }

/-- The choice between a single write and an enumeration, and of the read. -/
def access (cmd : BulkCmd) (base : ResolvedKeySchema) : Exec WriteAccess :=
  match cmd.pinned base with
  | some w => return .one (keyOf (w.getGudKey base.pk base.rk))
  | none => do
      let qplan ← enumerationPlan cmd.table cmd.index cmd.condition base
      return match qplan with
        | some plan => .query plan
        | none => .scan

theorem pure_one_eq_iff {key1 key2 : ValueMap} :
    (pure (.one key1) : Exec WriteAccess) = pure (.one key2) ↔ key1 = key2 := by
  constructor
  · intro heq
    have hzero := congrFun heq 0
    exact WriteAccess.one.inj (Ending.ok.inj (Prod.mk.inj (Program.done.inj hzero)).1)
  · intro heq
    rw [heq]

/-- The statement once its key schema is known and its access is chosen. -/
def follow (explain : Bool) (budget : Nat) (cmd : BulkCmd) (base : ResolvedKeySchema)
    (writePrefix : String) : WriteAccess → Exec Unit
  | .one key =>
      executeOne explain ((cmd.writeTemplate base writePrefix).keyed key) cmd.wantRv cmd.verb
  | .query plan => enumerateWith (some plan)
  | .scan => enumerateWith none
where
  enumerateWith (qplan : Option QueryKeyPlan) : Exec Unit := do
    let readPrefix ← nextPrefix
    let read := cmd.readPlan base qplan readPrefix
    let template := cmd.writeTemplate base writePrefix
    match cmd with
    | .update _ =>
        let result ← bulkLoop explain explain read template cmd.wantRv budget none []
          { verb := cmd.verb }
        emitBulk explain result
    | .delete _ =>
        let (blocks, runs) ← explainDeleteRead explain read
        if runs then do
          let result ← bulkLoop explain false read template cmd.wantRv budget none blocks
            { verb := cmd.verb }
          emitBulk explain result
        else emit (.explain blocks none)

/-- The statement with or without EXPLAIN. -/
def run (explain : Bool) (budget : Nat) : BulkCmd → Exec Unit
  | .update cmd => executeUpdate budget cmd explain
  | .delete cmd => executeDelete budget cmd explain

/-- UPDATE and DELETE go by the access that was chosen. -/
theorem run_eq (explain : Bool) (budget : Nat) (cmd : BulkCmd) : cmd.run explain budget = (do
    let base ← resolveKeySchema cmd.table ""
    let writePrefix ← nextPrefix
    let access ← cmd.access base
    cmd.follow explain budget base writePrefix access) := by
  have hsteps : ∀ (base : ResolvedKeySchema) (writePrefix : String),
      cmd.access base >>= cmd.follow explain budget base writePrefix =
      match cmd.pinned base with
      | some w => executeOne explain ((cmd.writeTemplate base writePrefix).keyed
          (keyOf (w.getGudKey base.pk base.rk))) cmd.wantRv cmd.verb
      | none => enumerationPlan cmd.table cmd.index cmd.condition base >>=
          follow.enumerateWith explain budget cmd base writePrefix := by
    intro base writePrefix
    unfold access
    cases cmd.pinned base with
    | some w => rfl
    | none =>
        simp only [Exec.bind_assoc]
        congr 1
        funext qplan
        cases qplan <;> rfl
  simp only [hsteps]
  cases cmd with
  | update cmd => rfl
  | delete cmd => rfl

end BulkCmd

end DdbShell
