import DdbShell.Execute.TableExecutors

/-!
The lookups that executors share: what they do beside describing the table of
their statement is no effect at all. Reading pages is a call on its table.
-/

namespace DdbShell

open Exec

/-- The table of an inner statement. -/
def TransactItem.table : TransactItem → Option String
  | .select cmd => some cmd.table
  | .insert cmd => some cmd.tableName
  | .update cmd => some cmd.table
  | .delete cmd => some cmd.table
  | .placeholder => none

variable {P : Effect → Prop}

section Describing

variable {table : String} (h : P (.client (.describeTable table)))

include h

theorem always_resolveKeySchema (index : String) : Always P (resolveKeySchema table index) :=
  (always_call h).bind fun _ => always_ofExcept _

theorem always_enumerationPlan (index : Option String) (condition : Option Where)
    (base : ResolvedKeySchema) : Always P (enumerationPlan table index condition base) := by
  cases index with
  | none => exact always_pure _
  | some index => exact (always_resolveKeySchema h _).bind fun _ => always_pure _

end Describing

section Select

variable {cmd : SelectCmd} (h : P (.client (.describeTable cmd.table)))

include h

theorem always_execVectorIndex : Always P (execVectorIndex cmd) := by
  unfold execVectorIndex
  split
  · exact always_pure _
  · exact (always_call h).bind fun _ => always_pure _

theorem always_execPlanSelect (aliasPrefix : String) :
    Always P (execPlanSelect cmd aliasPrefix) := by
  refine (always_execVectorIndex h).bind fun vector => ?_
  cases vector with
  | some found => exact always_ofExcept _
  | none =>
      dsimp only
      split
      · exact always_throw _
      · exact (always_resolveKeySchema h _).bind fun _ => always_pure _

end Select

/-! ### Rows -/

theorem always_makePutRequest (cmd : InsertCmd) (pk : String) (row : List Value) :
    Always P (makePutRequest cmd pk row) := by
  unfold makePutRequest
  split
  · exact always_nextPrefix.bind fun _ => always_pure _
  · exact always_pure _

theorem always_insertPartitionKey {cmd : InsertCmd}
    (h : P (.client (.describeTable cmd.tableName))) : Always P (insertPartitionKey cmd) :=
  (always_resolveKeySchema h _).bind fun _ => (always_ofExcept _).bind fun _ => always_pure _

theorem always_transactPuts (cmd : InsertCmd) (pk : String) (rows : List (List Value)) :
    Always P (transactPuts cmd pk rows) := by
  induction rows with
  | nil => exact always_pure _
  | cons row rows ih =>
      exact (always_makePutRequest cmd pk row).bind fun _ => ih.bind fun _ => always_pure _

/-! ### Inner statements -/

theorem always_minting {α : Type} (build : String → Except Error α) :
    Always P (minting build) := by
  intro counter
  unfold minting
  split <;> trivial

theorem always_buildEntry {α : Type} {table : String} (h : P (.client (.describeTable table)))
    (build : DescribeTable → String → Except Error α) :
    Always P (buildEntry table build) :=
  (always_attempt h).bind fun _ => always_minting _

theorem always_caught {α : Type} {x : Exec α} (hx : Always P x) :
    Always P (caught x) := by
  intro counter
  refine (hx counter).bind ?_
  rintro ⟨ending, counter⟩
  cases ending <;> trivial

theorem always_buildInto {α : Type} (b : Building α) {entries : Exec (List α)}
    (h : Always P entries) : Always P (buildInto b entries) := by
  refine (always_caught h).bind fun result => ?_
  cases result with
  | ok new => exact always_pure _
  | error e =>
      dsimp only
      unfold absorbOrPropagate
      split
      · exact always_pure _
      · exact always_throw _

section Items

variable {item : TransactItem}
  (h : ∀ table, item.table = some table → P (.client (.describeTable table)))

include h

theorem always_buildReadItem (b : Building TransactGet) : Always P (buildReadItem b item) := by
  cases item with
  | select cmd =>
      exact always_buildInto _ ((always_buildEntry (h _ rfl) _).bind fun _ => always_pure _)
  | insert cmd => exact always_pure _
  | update cmd => exact always_pure _
  | delete cmd => exact always_pure _
  | placeholder => exact always_pure _

theorem always_buildWriteItem (b : Building TransactWriteItem) :
    Always P (buildWriteItem b item) := by
  cases item with
  | insert cmd =>
      refine always_buildInto _ (Always.bind ?_ fun _ => always_pure _)
      exact (always_insertPartitionKey (h _ rfl)).bind fun pk =>
        always_transactPuts cmd pk cmd.rows
  | update cmd =>
      exact always_buildInto _ ((always_buildEntry (h _ rfl) _).bind fun _ => always_pure _)
  | delete cmd =>
      exact always_buildInto _ ((always_buildEntry (h _ rfl) _).bind fun _ => always_pure _)
  | select cmd =>
      refine always_buildInto _ (Always.bind ?_ fun _ => always_pure _)
      unfold execTransactConditionCheck
      split
      · exact always_throw _
      · exact always_buildEntry (h _ rfl) _
  | placeholder => exact always_pure _

end Items

theorem always_buildItems {α : Type} {build : Building α → TransactItem → Exec (Building α)}
    {items : List TransactItem} (hbuild : ∀ b, ∀ item ∈ items, Always P (build b item))
    (b : Building α) : Always P (buildItems build b items) := by
  induction items generalizing b with
  | nil => exact always_pure _
  | cons item items ih =>
      refine (hbuild b item List.mem_cons_self).bind fun b => ?_
      exact ih (fun b item hitem => hbuild b item (List.mem_cons_of_mem _ hitem)) b

/-! ### Pages -/

/-- The table that a page is read from. -/
def WriteReadPlan.table : WriteReadPlan → String
  | .query request => request.tableName
  | .scan request => request.tableName

theorem WriteReadPlan.startingAt_table (request : WriteReadPlan) (key : Option ValueMap) :
    (request.startingAt key).table = request.table := by
  cases request <;> rfl

theorem buildWriteRead_table (table : String) (index : Option String) (condition : Option Where)
    (qplan : Option QueryKeyPlan) (basePk baseRk : String) (ratelimit : Bool) (st : SymbolTable) :
    (buildWriteRead table index condition qplan basePk baseRk ratelimit st).1.table = table := by
  fun_cases buildWriteRead table index condition qplan basePk baseRk ratelimit <;> rfl

/-- The table may be read, page by page. -/
structure PermitsPages (P : Effect → Prop) (table : String) : Prop where
  query : ∀ request : QueryIn, request.tableName = table → P (.client (.query request))
  scan : ∀ request : ScanIn, request.tableName = table → P (.client (.scan request))

theorem always_readPage {table : String} (hpages : PermitsPages P table) {request : WriteReadPlan}
    (h : request.table = table) : Always P (readPage request) := by
  cases request with
  | query r => exact always_call (hpages.query r h)
  | scan r => exact always_call (hpages.scan r h)

end DdbShell
