import DdbShell.Execute.Lookups
import DdbShell.Parser.WholeNumber

/-!
The whole numbers of a statement on their way into a request. The actions of
the grammar read a lexeme to 64 bits, TopK to 32 after that, and no check looks
at the lexeme again. A statement is kept here as it is written, so that what
the parser makes of it stands beside what it denotes.
-/

namespace DdbShell

open Exec

/-! ### Statements as they are written -/

abbrev WholeNumber := { lexeme : String // IsWholeNumber lexeme }

/-- How lexemes are read, to a `long long` and to an `int`. -/
structure Numerals where
  long : WholeNumber → Int
  int : WholeNumber → Int

/-- The reading of the parser. -/
def parsed : Numerals := ⟨fun n => parseLl n.1, fun n => intCast (parseLl n.1)⟩

/-- The numbers that the lexemes denote. -/
def denoted : Numerals := ⟨fun n => wholeValue n.1, fun n => wholeValue n.1⟩

/-- What a `long long` cannot hold is replaced by the nearest number that it can. -/
def saturated : Numerals := ⟨fun n => saturate (wholeValue n.1), fun n => wholeValue n.1⟩

/-- `billing_mode_and_throughput`; its two orders of the numbers are one. -/
inductive BillingText where
  | onDemand
  | onDemandThroughput (rcu wcu : WholeNumber)
  | unlimited
  | provisioned (rcu wcu : WholeNumber)

/-- `warm_throughput`, in either order. -/
structure WarmText where
  rcu : WholeNumber
  wcu : WholeNumber

namespace BillingText

def node (num : Numerals) : BillingText → BillingModeAndThroughput
  | .onDemand => { mode := .payPerRequest }
  | .onDemandThroughput rcu wcu =>
      { mode := .payPerRequest, od := ⟨some (num.long rcu), some (num.long wcu)⟩ }
  | .unlimited => { mode := .payPerRequest, od := ⟨some (-1), some (-1)⟩ }
  | .provisioned rcu wcu =>
      { mode := .provisioned, rcu := num.long rcu, wcu := num.long wcu }

def numbers : BillingText → List WholeNumber
  | .onDemand | .unlimited => []
  | .onDemandThroughput rcu wcu | .provisioned rcu wcu => [rcu, wcu]

end BillingText

namespace WarmText

def node (num : Numerals) (w : WarmText) : WarmThroughput := ⟨num.long w.rcu, num.long w.wcu⟩

def numbers (w : WarmText) : List WholeNumber := [w.rcu, w.wcu]

end WarmText

/-- The clauses with numbers of a table or of one of its indexes. -/
structure ThroughputText where
  billing : Option BillingText := none
  warm : Option WarmText := none

namespace ThroughputText

def billingNode (num : Numerals) (t : ThroughputText) : Option BillingModeAndThroughput :=
  t.billing.map (·.node num)

def warmNode (num : Numerals) (t : ThroughputText) : Option WarmThroughput :=
  t.warm.map (·.node num)

def numbers (t : ThroughputText) : List WholeNumber :=
  t.billing.toList.flatMap BillingText.numbers ++ t.warm.toList.flatMap WarmText.numbers

end ThroughputText

/-- `vector_index`: what it is but for the number of its dimensions. -/
structure VectorIndexText where
  index : VectorIndexDef
  dimensions : WholeNumber

def VectorIndexText.node (num : Numerals) (v : VectorIndexText) : VectorIndexDef :=
  { v.index with dimensions := num.long v.dimensions }

structure GsiText where
  gsi : Gsi
  throughput : ThroughputText

def GsiText.node (num : Numerals) (g : GsiText) : Gsi :=
  { g.gsi with billing := g.throughput.billingNode num, warm := g.throughput.warmNode num }

structure GsiUpdateText where
  update : GsiUpdate
  throughput : ThroughputText

def GsiUpdateText.node (num : Numerals) (g : GsiUpdateText) : GsiUpdate :=
  { g.update with billing := g.throughput.billingNode num, warm := g.throughput.warmNode num }

inductive VectorIndexUpdateText where
  | create (index : VectorIndexText)
  | drop (name : String)

namespace VectorIndexUpdateText

def node (num : Numerals) : VectorIndexUpdateText → VectorIndexUpdateDef
  | .create index => { create := some (index.node num) }
  | .drop name => { drop := some name }

def numbers : VectorIndexUpdateText → List WholeNumber
  | .create index => [index.dimensions]
  | .drop _ => []

end VectorIndexUpdateText

structure ReplicaGsiText where
  indexName : String
  override : WholeNumber

def ReplicaGsiText.node (num : Numerals) (g : ReplicaGsiText) : ReplicaGsi :=
  ⟨g.indexName, ⟨num.long g.override⟩⟩

/-- CREATE TABLE: its clauses without numbers, and those with. -/
structure CreateTableText where
  cmd : CreateTableCmd
  throughput : ThroughputText := {}
  gsis : List GsiText := []
  vectorIndexes : List VectorIndexText := []

namespace CreateTableText

def node (num : Numerals) (c : CreateTableText) : CreateTableCmd :=
  { c.cmd with
    billing := c.throughput.billingNode num
    warm := c.throughput.warmNode num
    gsis := c.gsis.map (·.node num)
    vectorIndexes := c.vectorIndexes.map (·.node num) }

def numbers (c : CreateTableText) : List WholeNumber :=
  c.throughput.numbers ++ c.gsis.flatMap (·.throughput.numbers) ++
    c.vectorIndexes.map (·.dimensions)

end CreateTableText

/-- ALTER TABLE, with the index updates that its action keeps. -/
structure AlterTableText where
  cmd : AlterTableCmd
  throughput : ThroughputText := {}
  gsiUpdates : List GsiUpdateText := []
  vectorIndexUpdates : List VectorIndexUpdateText := []

namespace AlterTableText

def node (num : Numerals) (a : AlterTableText) : AlterTableCmd :=
  { a.cmd with
    billing := a.throughput.billingNode num
    warm := a.throughput.warmNode num
    gsiUpdates := a.gsiUpdates.map (·.node num)
    vectorIndexUpdates := a.vectorIndexUpdates.map (·.node num) }

def numbers (a : AlterTableText) : List WholeNumber :=
  a.throughput.numbers ++ a.gsiUpdates.flatMap (·.throughput.numbers) ++
    a.vectorIndexUpdates.flatMap (·.numbers)

end AlterTableText

/-- ALTER TABLE .. REPLICA. -/
structure AlterReplicaText where
  cmd : AlterReplicaCmd
  override : Option WholeNumber := none
  gsis : List ReplicaGsiText := []

namespace AlterReplicaText

def node (num : Numerals) (a : AlterReplicaText) : AlterReplicaCmd :=
  { a.cmd with
    replica :=
      { a.cmd.replica with
        throughputOverride := a.override.map fun n => ⟨num.long n⟩
        replicaGsis := a.gsis.map (·.node num) } }

def numbers (a : AlterReplicaText) : List WholeNumber :=
  a.override.toList ++ a.gsis.map (·.override)

end AlterReplicaText

/-- SELECT, with its NEAREST clause. -/
structure SelectText where
  cmd : SelectCmd
  nearest : Option (WholeNumber × Value) := none

def SelectText.node (num : Numerals) (q : SelectText) : SelectCmd :=
  { q.cmd with
    searchVector := q.nearest.map Prod.snd
    topk := q.nearest.map fun clause => num.int clause.1 }

inductive NumberedStatement where
  | select (text : SelectText)
  | createTable (text : CreateTableText)
  | alterTable (text : AlterTableText)
  | alterReplica (text : AlterReplicaText)

def NumberedStatement.read (num : Numerals) : NumberedStatement → Explainable
  | .select text => .select (text.node num)
  | .createTable text => .createTable (text.node num)
  | .alterTable text => .alterTable (text.node num)
  | .alterReplica text => .alterReplica (text.node num)

/-! ### Requests with numbers -/

def alterReplicaRequest (cmd : AlterReplicaCmd) : UpdateTableIn :=
  { tableName := cmd.table, replica := some cmd.replica }

/-- A request has the numbers of a statement. -/
def Carries : Explainable → Effect → Prop
  | .select cmd, .client (.searchVectors request) => cmd.topk = some request.topk
  | .createTable cmd, .client (.createTable request) => request = createTableRequest cmd
  | .alterTable cmd, .client (.updateTable request) => request = alterTableRequest cmd
  | .alterReplica cmd, .client (.updateTable request) => request = alterReplicaRequest cmd
  | _, _ => True

/-- Whatever the client answers, each request that the parsed statement sends
has its numbers as `num` reads them. -/
def CarriesAs (num : Numerals) (statement : NumberedStatement) : Prop :=
  ∀ budget, Always (Carries (statement.read num)) (executePlain budget (statement.read parsed))

/-- Each request has the numbers that are written. -/
def CarriesNumbers (statement : NumberedStatement) : Prop := CarriesAs denoted statement

/-! ### The numbers that are read exactly -/

def FitsLong (n : WholeNumber) : Prop := longMin ≤ wholeValue n.1 ∧ wholeValue n.1 ≤ longMax

/-- A positive `int`, or a number that no positive `int` is made of. -/
def FitsTopk (n : WholeNumber) : Prop :=
  1 ≤ wholeValue n.1 ∧ wholeValue n.1 < 2 ^ 31 ∨ intCast (saturate (wholeValue n.1)) ≤ 0

/-- A vector search that some table lets through, TopK aside. -/
def SelectCmd.Searchable (cmd : SelectCmd) (vector : Value) : Prop :=
  cmd.index.isSome = true ∧ cmd.consistent = false ∧
    ∃ list, vector = .L list ∧ ∀ e ∈ list, ∃ n, e = .N n

def FitsInt (n : WholeNumber) : Prop := -2 ^ 31 ≤ wholeValue n.1 ∧ wholeValue n.1 < 2 ^ 31

namespace NumberedStatement

/-- The TopK of a NEAREST clause. -/
def topk : NumberedStatement → Option WholeNumber
  | .select text => text.nearest.map Prod.fst
  | _ => none

/-- The numbers that are read to 64 bits. -/
def longs : NumberedStatement → List WholeNumber
  | .select _ => []
  | .createTable text => text.numbers
  | .alterTable text => text.numbers
  | .alterReplica text => text.numbers

end NumberedStatement

/-- Every number fits, or the statement is rejected for another reason. -/
def NumberedStatement.Fits : NumberedStatement → Prop
  | .select text => ∀ n vector, text.nearest = some (n, vector) →
      text.cmd.Searchable vector → FitsTopk n
  | .createTable text => validateKeySchemas (text.node denoted) = .ok () →
      ∀ n ∈ text.numbers, FitsLong n
  | .alterTable text => validateGsiUpdates (text.node denoted) = .ok () →
      ∀ n ∈ text.numbers, FitsLong n
  | .alterReplica text => ∀ n ∈ text.numbers, FitsLong n

theorem saturate_eq_iff {n : Int} : saturate n = n ↔ longMin ≤ n ∧ n ≤ longMax := by
  unfold saturate longMin longMax
  omega

theorem long_eq_iff (n : WholeNumber) : parsed.long n = denoted.long n ↔ FitsLong n := by
  show parseLl n.1 = wholeValue n.1 ↔ _
  rw [parseLl_eq n.2, saturate_eq_iff, FitsLong]

theorem int_eq (n : WholeNumber) : parsed.int n = intCast (saturate (wholeValue n.1)) := by
  show intCast (parseLl n.1) = _
  rw [parseLl_eq n.2]

theorem intCast_of_lt {n : Int} (hlow : -2 ^ 31 ≤ n) (hlt : n < 2 ^ 31) :
    intCast (saturate n) = n := by
  have hsame : saturate n = n := by
    rw [saturate_eq_iff, longMin, longMax]
    omega
  rw [hsame, intCast, Int.bmod_eq_of_le] <;> omega

example : intCast (saturate 4294967297) = 1 := by decide

theorem intCast_lt (n : Int) : intCast n < 2 ^ 31 := by
  have hlt := Int.bmod_lt (x := n) (m := 2 ^ 32) (by decide)
  rw [intCast]
  omega

/-- The clauses of a table or an index are read exactly when their numbers fit. -/
theorem BillingText.node_eq_iff (b : BillingText) :
    b.node parsed = b.node denoted ↔ ∀ n ∈ b.numbers, FitsLong n := by
  cases b <;> simp [node, numbers, long_eq_iff]

theorem WarmText.node_eq_iff (w : WarmText) :
    w.node parsed = w.node denoted ↔ ∀ n ∈ w.numbers, FitsLong n := by
  simp [node, numbers, long_eq_iff]

theorem ThroughputText.nodes_eq_iff (t : ThroughputText) :
    t.billingNode parsed = t.billingNode denoted ∧ t.warmNode parsed = t.warmNode denoted ↔
      ∀ n ∈ t.numbers, FitsLong n := by
  have hbilling : t.billingNode parsed = t.billingNode denoted ↔
      ∀ n ∈ t.billing.toList.flatMap BillingText.numbers, FitsLong n := by
    cases hb : t.billing with
    | none => simp [billingNode, hb]
    | some b => simp [billingNode, hb, b.node_eq_iff]
  have hwarm : t.warmNode parsed = t.warmNode denoted ↔
      ∀ n ∈ t.warm.toList.flatMap WarmText.numbers, FitsLong n := by
    cases hw : t.warm with
    | none => simp [warmNode, hw]
    | some w => simp [warmNode, hw, w.node_eq_iff]
  rw [hbilling, hwarm, numbers, List.forall_mem_append]

theorem VectorIndexText.node_eq_iff (v : VectorIndexText) :
    v.node parsed = v.node denoted ↔ FitsLong v.dimensions := by
  rw [← long_eq_iff, node, node, VectorIndexDef.mk.injEq]
  simp

theorem GsiText.node_eq_iff (g : GsiText) :
    g.node parsed = g.node denoted ↔ ∀ n ∈ g.throughput.numbers, FitsLong n := by
  rw [← ThroughputText.nodes_eq_iff, node, node, Gsi.mk.injEq]
  simp

theorem GsiUpdateText.node_eq_iff (g : GsiUpdateText) :
    g.node parsed = g.node denoted ↔ ∀ n ∈ g.throughput.numbers, FitsLong n := by
  rw [← ThroughputText.nodes_eq_iff, node, node, GsiUpdate.mk.injEq]
  simp

theorem VectorIndexUpdateText.node_eq_iff (u : VectorIndexUpdateText) :
    u.node parsed = u.node denoted ↔ ∀ n ∈ u.numbers, FitsLong n := by
  cases u with
  | create index => simp [node, numbers, index.node_eq_iff]
  | drop name => simp [node, numbers]

/-- Parts that are each read exactly when their numbers fit. -/
theorem map_eq_iff {α β : Type} {f g : α → β} {numbers : α → List WholeNumber}
    (h : ∀ a, f a = g a ↔ ∀ n ∈ numbers a, FitsLong n) (parts : List α) :
    parts.map f = parts.map g ↔ ∀ n ∈ parts.flatMap numbers, FitsLong n := by
  rw [List.map_inj_left, List.forall_mem_flatMap]
  exact forall₂_congr fun a _ => h a

theorem CreateTableText.request_eq_iff (c : CreateTableText) :
    createTableRequest (c.node parsed) = createTableRequest (c.node denoted) ↔
      ∀ n ∈ c.numbers, FitsLong n := by
  have hgsis := map_eq_iff GsiText.node_eq_iff c.gsis
  have hvectors : c.vectorIndexes.map (·.node parsed) = c.vectorIndexes.map (·.node denoted) ↔
      ∀ n ∈ c.vectorIndexes.map (·.dimensions), FitsLong n := by
    rw [List.map_inj_left, List.forall_mem_map]
    exact forall₂_congr fun v _ => v.node_eq_iff
  rw [numbers, List.forall_mem_append, List.forall_mem_append, ← c.throughput.nodes_eq_iff,
    ← hgsis, ← hvectors, createTableRequest, createTableRequest, node, node,
    CreateTableIn.mk.injEq]
  simp only [true_and, and_true, and_assoc]

theorem AlterTableText.request_eq_iff (a : AlterTableText) :
    alterTableRequest (a.node parsed) = alterTableRequest (a.node denoted) ↔
      ∀ n ∈ a.numbers, FitsLong n := by
  have hgsis := map_eq_iff GsiUpdateText.node_eq_iff a.gsiUpdates
  have hvectors := map_eq_iff VectorIndexUpdateText.node_eq_iff a.vectorIndexUpdates
  rw [numbers, List.forall_mem_append, List.forall_mem_append, ← a.throughput.nodes_eq_iff,
    ← hgsis, ← hvectors, alterTableRequest, alterTableRequest, node, node,
    UpdateTableIn.mk.injEq]
  simp only [true_and, and_true, and_assoc]

theorem ReplicaGsiText.node_eq_iff (g : ReplicaGsiText) :
    g.node parsed = g.node denoted ↔ FitsLong g.override := by
  rw [← long_eq_iff, node, node]
  simp

theorem AlterReplicaText.request_eq_iff (a : AlterReplicaText) :
    alterReplicaRequest (a.node parsed) = alterReplicaRequest (a.node denoted) ↔
      ∀ n ∈ a.numbers, FitsLong n := by
  have hgsis : a.gsis.map (·.node parsed) = a.gsis.map (·.node denoted) ↔
      ∀ n ∈ a.gsis.map (·.override), FitsLong n := by
    rw [List.map_inj_left, List.forall_mem_map]
    exact forall₂_congr fun g _ => g.node_eq_iff
  have hoverride : (a.override.map fun n => ProvisionedThroughputOverride.mk (parsed.long n)) =
      (a.override.map fun n => ProvisionedThroughputOverride.mk (denoted.long n)) ↔
      ∀ n ∈ a.override.toList, FitsLong n := by
    cases a.override with
    | none => simp
    | some n => simp [long_eq_iff]
  rw [numbers, List.forall_mem_append, ← hgsis, ← hoverride, alterReplicaRequest,
    alterReplicaRequest, node, node, UpdateTableIn.mk.injEq]
  simp only [true_and, Option.some.injEq, ReplicaUpdate.mk.injEq]

/-! ### What the statements send -/

/-- The checks of CREATE TABLE do not look at its numbers. -/
theorem CreateTableText.validate_eq (c : CreateTableText) :
    validateKeySchemas (c.node parsed) = validateKeySchemas (c.node denoted) := by
  simp only [validateKeySchemas, CreateTableText.node, List.flatMap_map]
  rfl

theorem AlterTableText.validate_eq (a : AlterTableText) :
    validateGsiUpdates (a.node parsed) = validateGsiUpdates (a.node denoted) := by
  simp only [validateGsiUpdates, AlterTableText.node, List.flatMap_map]
  rfl

/-- An executor that its checks let through. -/
theorem always_ofExcept_bind {α β : Type} {P : Effect → Prop} {x : Except Error α}
    {f : α → Exec β} : Always P (ofExcept x >>= f) ↔ ∀ a, x = .ok a → Always P (f a) := by
  cases x with
  | error e =>
      constructor
      · rintro - a ⟨⟩
      · intro _ counter
        trivial
  | ok a =>
      constructor
      · rintro h _ ⟨⟩
        exact h
      · intro h
        exact h a rfl

section Sending

variable {P : Effect → Prop} (hemit : ∀ outcome, P (.emit outcome))

include hemit in
theorem always_emitSingle {x : Exec ExecOutcome} (hx : Always P x) : Always P (emitSingle x) :=
  hx.bind fun outcome => always_emit (hemit outcome)

include hemit in
/-- A valid CREATE TABLE sends its request to a client that does not know the table. -/
theorem always_createTable_iff (cmd : CreateTableCmd)
    (hdescribe : ∀ table, P (.client (.describeTable table)))
    (hwait : ∀ table, P (.client (.waitForTableActive table))) :
    Always P (emitSingle (executeCreateTable cmd)) ↔
      (validateKeySchemas cmd = .ok () → P (.client (.createTable (createTableRequest cmd)))) := by
  constructor
  · intro h hvalid
    have hstart := h 0
    unfold emitSingle executeCreateTable createProbe at hstart
    rw [hvalid] at hstart
    cases hexists : cmd.ifNotExists with
    | false =>
        rw [hexists] at hstart
        exact hstart.1
    | true =>
        rw [hexists] at hstart
        exact (hstart.2 (.error ⟨.invalidArgument, ""⟩)).1
  · intro h
    apply always_emitSingle hemit
    unfold executeCreateTable createProbe
    apply always_ofExcept_bind.mpr
    intro _ hvalid
    have hprobe : Always P (createProbe cmd) := by
      unfold createProbe
      split
      · exact (always_attempt (hdescribe _)).bind fun _ => always_pure _
      · exact always_pure _
    refine hprobe.bind fun found => ?_
    split
    · exact always_pure _
    · refine (always_call (h hvalid)).bind fun _ => ?_
      dsimp only
      split
      · exact (always_call (hwait _)).bind fun _ => always_pure _
      · exact always_pure _

include hemit in
theorem always_alterTable_iff (cmd : AlterTableCmd) :
    Always P (emitSingle (executeAlterTable cmd)) ↔
      (validateGsiUpdates cmd = .ok () → P (.client (.updateTable (alterTableRequest cmd)))) := by
  constructor
  · intro h hvalid
    have hstart := h 0
    unfold emitSingle executeAlterTable at hstart
    rw [hvalid] at hstart
    exact hstart.1
  · intro h
    apply always_emitSingle hemit
    apply always_ofExcept_bind.mpr
    intro _ hvalid
    exact (always_call (h hvalid)).bind fun _ => always_pure _

include hemit in
theorem always_alterReplica_iff (cmd : AlterReplicaCmd) :
    Always P (emitSingle (executeAlterReplica cmd false)) ↔
      P (.client (.updateTable (alterReplicaRequest cmd))) := by
  constructor
  · intro h
    exact (h 0).1
  · intro h
    apply always_emitSingle hemit
    exact (always_call h).bind fun _ => always_pure _

/-- What a NEAREST clause must be for its request to be made. -/
theorem checkSearchVector_topk {cmd : SelectCmd} {vi : VectorIndexSchema}
    {found : List Value × Int} (h : checkSearchVector cmd vi = .ok found) :
    ∃ vector, cmd.searchVector = some vector ∧ (cmd.index.isSome = true → cmd.Searchable vector) ∧
      0 < cmd.topk.getD 0 ∧ found.2 = cmd.topk.getD 0 := by
  unfold checkSearchVector at h
  cases hvector : cmd.searchVector with
  | none =>
      rw [hvector] at h
      cases h
  | some vector =>
      rw [hvector] at h
      refine ⟨vector, rfl, ?_⟩
      cases hconsistent : cmd.consistent with
      | true =>
          rw [hconsistent] at h
          cases h
      | false =>
          rw [hconsistent] at h
          by_cases htopk : cmd.topk.getD 0 ≤ 0
          · simp only [htopk] at h
            cases h
          · cases vector with
            | L list =>
                simp only [htopk, Bool.false_eq_true, if_false] at h
                split at h
                case isTrue => cases h
                case isFalse hlist =>
                  have hnumbers : ∀ e ∈ list, ∃ n, e = .N n := by
                    rw [Bool.not_eq_true, Bool.not_eq_false', List.all_eq_true] at hlist
                    intro e he
                    have hkind := hlist e he
                    split at hkind
                    · exact ⟨_, rfl⟩
                    · cases hkind
                  split at h
                  · cases h
                  · cases h
                    exact ⟨fun hindex => ⟨hindex, hconsistent, list, rfl, hnumbers⟩,
                      by omega, rfl⟩
            | _ =>
                simp only [htopk] at h
                cases h

/-- A vector index of any dimensions. -/
theorem checkSearchVector_ok (index : String) {cmd : SelectCmd} {vector : Value}
    (hvector : cmd.searchVector = some vector) (hcmd : cmd.Searchable vector)
    (htopk : 0 < cmd.topk.getD 0) :
    ∃ list, checkSearchVector cmd { indexName := index } = .ok (list, cmd.topk.getD 0) := by
  obtain ⟨-, hconsistent, list, rfl, hlist⟩ := hcmd
  have hpositive : ¬ cmd.topk.getD 0 ≤ 0 := by omega
  refine ⟨list, ?_⟩
  unfold checkSearchVector
  rw [hvector, hconsistent]
  simp only [hpositive, Bool.false_eq_true, if_false, gt_iff_lt, lt_self_iff_false, false_and]
  rw [if_neg]
  · rfl
  · rw [Bool.not_eq_true, Bool.not_eq_false', List.all_eq_true]
    intro e he
    obtain ⟨n, rfl⟩ := hlist e he
    rfl

theorem planAccess_ne (cmd : SelectCmd) (schema : ResolvedKeySchema) (st : SymbolTable)
    (request : SearchVectorsIn) : (planAccess cmd schema st).1 ≠ .searchVectors request := by
  unfold planAccess
  cases cmd.condition with
  | none => rintro ⟨⟩
  | some w =>
      dsimp only
      split
      · rintro ⟨⟩
      · cases w.planQuery schema.pk schema.rk <;> rintro ⟨⟩

/-- The plan is a vector search only for an index that is a vector index. -/
theorem always_execPlanSelect_bind {β : Type} {cmd : SelectCmd} {aliasPrefix : String}
    {f : SelectPlan → Exec β} (hdescribe : ∀ table, P (.client (.describeTable table)))
    (hf : ∀ plan, (∀ request, plan = .searchVectors request → ∃ index vi,
      cmd.index = some index ∧ planSearchVectors cmd index vi aliasPrefix = .ok plan) →
        Always P (f plan)) :
    Always P (execPlanSelect cmd aliasPrefix >>= f) := by
  have hclassic : ∀ message, Always P ((if cmd.searchVector.isSome = true then
      throw ⟨.invalidArgument, message⟩
    else do
      let schema ← resolveKeySchema cmd.table (cmd.index.getD "")
      return (planAccess cmd schema ⟨aliasPrefix, 1, 1, ∅, ∅⟩).1 : Exec SelectPlan) >>= f) := by
    intro message
    split
    · exact fun _ => trivial
    · rw [Exec.bind_assoc]
      refine (always_resolveKeySchema (hdescribe _) _).bind fun schema => hf _ ?_
      intro request hplan
      exact absurd hplan (planAccess_ne cmd schema _ request)
  unfold execPlanSelect execVectorIndex
  rw [Exec.bind_assoc]
  cases hindex : cmd.index with
  | none =>
      rw [hindex] at hclassic
      exact hclassic _
  | some index =>
      rw [hindex] at hclassic
      rw [Exec.bind_assoc]
      refine (always_call (hdescribe _)).bind fun described => ?_
      cases hfound : (described.vectorIndexes.find? fun vi => vi.indexName = index) with
      | none => exact hclassic _
      | some vi =>
          refine always_ofExcept_bind.mpr fun plan hplan => hf plan ?_
          intro _ _
          exact ⟨index, vi, hindex, hplan⟩

theorem always_selectLoop (hquery : ∀ request, P (.client (.query request)))
    (hscan : ∀ request, P (.client (.scan request))) (budget : Nat) (request : WriteReadPlan)
    (items : List ItemRow) (total : Totalizer) :
    Always P (selectLoop budget request items total) := by
  induction budget generalizing request items total with
  | zero => exact always_cut
  | succ budget ih =>
      have hpage : Always P (readPage request) := by
        cases request with
        | query r => exact always_call (hquery r)
        | scan r => exact always_call (hscan r)
      refine hpage.bind fun page => ?_
      dsimp only
      split
      · exact always_pure _
      · exact ih _ _ _

theorem planSearchVectors_topk {cmd : SelectCmd} {index aliasPrefix : String}
    {vi : VectorIndexSchema} {request : SearchVectorsIn}
    (hplan : planSearchVectors cmd index vi aliasPrefix = .ok (.searchVectors request)) :
    ∃ list, checkSearchVector cmd vi = .ok (list, request.topk) := by
  unfold planSearchVectors at hplan
  cases hcheck : checkSearchVector cmd vi with
  | error err =>
      rw [hcheck] at hplan
      cases hplan
  | ok found =>
      rw [hcheck] at hplan
      cases hplan
      exact ⟨found.1, rfl⟩

theorem planSearchVectors_ok (index aliasPrefix : String) {cmd : SelectCmd}
    {vi : VectorIndexSchema} {list : List Value} {topk : Int}
    (hcheck : checkSearchVector cmd vi = .ok (list, topk)) :
    ∃ request, planSearchVectors cmd index vi aliasPrefix = .ok (.searchVectors request) ∧
      request.topk = topk := by
  unfold planSearchVectors
  rw [hcheck]
  exact ⟨_, rfl, rfl⟩

/-- What happens for some answer to DescribeTable. -/
theorem always_of_vectorIndex {β : Type} {cmd : SelectCmd} {index : String} {counter : Nat}
    {f : Option (String × VectorIndexSchema) → Exec β} (hindex : cmd.index = some index)
    (h : ((execVectorIndex cmd >>= f) counter).Always P) (vi : VectorIndexSchema)
    (hname : vi.indexName = index) : (f (some (index, vi)) counter).Always P := by
  unfold execVectorIndex at h
  rw [hindex] at h
  have hfound : ([vi].find? fun vi => vi.indexName = index).map (index, ·) = some (index, vi) := by
    simp [hname]
  have hanswer := h.2 (.ok { keySchema := ⟨[], []⟩, vectorIndexes := [vi] })
  rw [← hfound]
  exact hanswer

include hemit in
/-- A vector search is made with the TopK that was checked. -/
theorem always_select_iff (sends : Int → Prop) (budget : Nat) (cmd : SelectCmd)
    (hread : ∀ c : ClientCall, (∀ request, c ≠ .searchVectors request) → P (.client c))
    (hsearch : ∀ request, P (.client (.searchVectors request)) ↔ sends request.topk) :
    Always P (do emitSingle (executeSelect budget cmd (← Exec.nextPrefix))) ↔
      ∀ vector, cmd.searchVector = some vector → cmd.Searchable vector → 0 < cmd.topk.getD 0 →
        sends (cmd.topk.getD 0) := by
  constructor
  · intro h vector hvector hcmd htopk
    obtain ⟨index, hindex⟩ := Option.isSome_iff_exists.mp hcmd.1
    obtain ⟨list, hcheck⟩ := checkSearchVector_ok index hvector hcmd htopk
    obtain ⟨request, hplanned, hrequest⟩ :=
      planSearchVectors_ok index (uniquePrefix 0) hcheck
    have hplan : (executeSelect budget cmd (uniquePrefix 0) 1).Always P :=
      Program.Always.of_bind (h 0)
    rw [executeSelect, execPlanSelect, Exec.bind_assoc] at hplan
    have hfound := always_of_vectorIndex hindex hplan { indexName := index } rfl
    dsimp only at hfound
    rw [hplanned] at hfound
    rw [← hrequest, ← hsearch]
    exact hfound.1
  · intro h
    refine always_nextPrefix.bind fun aliasPrefix => always_emitSingle hemit ?_
    have hquery : ∀ request, P (.client (.query request)) :=
      fun request => hread _ (by rintro _ ⟨⟩)
    have hscan : ∀ request, P (.client (.scan request)) :=
      fun request => hread _ (by rintro _ ⟨⟩)
    apply always_execPlanSelect_bind fun table => hread _ (by rintro _ ⟨⟩)
    intro plan hplan
    cases plan with
    | getItem request =>
        exact (always_call (hread _ (by rintro _ ⟨⟩))).bind fun _ => always_pure _
    | query request =>
        exact (always_selectLoop hquery hscan _ _ _ _).bind fun _ => always_pure _
    | scan request =>
        exact (always_selectLoop hquery hscan _ _ _ _).bind fun _ => always_pure _
    | searchVectors request =>
        obtain ⟨index, vi, hindex, hplanned⟩ := hplan request rfl
        refine (always_call ?_).bind fun _ => always_pure _
        obtain ⟨list, hcheck⟩ := planSearchVectors_topk hplanned
        obtain ⟨vector, hvector, hcmd, htopk, hsame⟩ := checkSearchVector_topk hcheck
        rw [hsearch]
        rw [hindex] at hcmd
        have := h vector hvector (hcmd rfl) htopk
        rwa [← hsame] at this

end Sending

/-- The TopK that passes the check is the one that is written. -/
theorem topk_eq_iff (n : WholeNumber) :
    (0 < parsed.int n → denoted.int n = parsed.int n) ↔ FitsTopk n := by
  have hdenoted : denoted.int n = wholeValue n.1 := rfl
  have hlt := intCast_lt (saturate (wholeValue n.1))
  rw [int_eq, hdenoted, FitsTopk]
  constructor
  · intro h
    by_cases hpositive : 0 < intCast (saturate (wholeValue n.1))
    · have hsame := h hpositive
      left
      omega
    · right
      omega
  · rintro (⟨hone, htop⟩ | hrejected) hpositive
    · rw [intCast_of_lt (by omega) htop]
    · omega

theorem SelectText.carries_iff (text : SelectText) (budget : Nat) :
    Always (Carries (.select (text.node denoted)))
      (do emitSingle (executeSelect budget (text.node parsed) (← Exec.nextPrefix))) ↔
      NumberedStatement.Fits (.select text) := by
  have hsearch := always_select_iff (P := Carries (.select (text.node denoted)))
    (fun _ => trivial) (fun topk => (text.node denoted).topk = some topk) budget
    (text.node parsed)
    (fun c hc => by cases c <;> first | trivial | exact absurd rfl (hc _)) fun _ => Iff.rfl
  refine hsearch.trans ?_
  have hnearest : ∀ n vector, text.nearest = some (n, vector) →
      (text.node parsed).searchVector = some vector ∧
        (text.node parsed).topk = some (parsed.int n) ∧
        (text.node denoted).topk = some (denoted.int n) := by
    intro n vector htext
    simp [SelectText.node, htext]
  constructor
  · intro h n vector htext hcmd
    obtain ⟨hvector, hparsed, hdenoted⟩ := hnearest n vector htext
    have hsends := h vector hvector hcmd
    rw [hparsed, hdenoted, Option.getD_some, Option.some.injEq] at hsends
    exact (topk_eq_iff n).mp hsends
  · intro h vector hvector hcmd
    cases htext : text.nearest with
    | none => simp [SelectText.node, htext] at hvector
    | some clause =>
        obtain ⟨n, written⟩ := clause
        obtain ⟨hwritten, hparsed, hdenoted⟩ := hnearest n written htext
        rw [hwritten, Option.some.injEq] at hvector
        subst hvector
        rw [hparsed, hdenoted, Option.getD_some, Option.some.injEq]
        exact (topk_eq_iff n).mpr (h n written htext hcmd)

theorem CreateTableText.carries_iff (text : CreateTableText) :
    Always (Carries (.createTable (text.node denoted)))
      (emitSingle (executeCreateTable (text.node parsed))) ↔
      NumberedStatement.Fits (.createTable text) := by
  rw [always_createTable_iff (fun _ => trivial) _ (fun _ => trivial) (fun _ => trivial),
    text.validate_eq]
  exact imp_congr_right fun _ => text.request_eq_iff

theorem AlterTableText.carries_iff (text : AlterTableText) :
    Always (Carries (.alterTable (text.node denoted)))
      (emitSingle (executeAlterTable (text.node parsed))) ↔
      NumberedStatement.Fits (.alterTable text) := by
  rw [always_alterTable_iff fun _ => trivial, text.validate_eq]
  exact imp_congr_right fun _ => text.request_eq_iff

theorem AlterReplicaText.carries_iff (text : AlterReplicaText) :
    Always (Carries (.alterReplica (text.node denoted)))
      (emitSingle (executeAlterReplica (text.node parsed) false)) ↔
      NumberedStatement.Fits (.alterReplica text) := by
  rw [always_alterReplica_iff fun _ => trivial]
  exact text.request_eq_iff

/-- The run of a statement is the same for every page budget but for its length. -/
theorem carriesNumbers_iff {statement : NumberedStatement} {fits : Prop}
    (h : ∀ budget, Always (Carries (statement.read denoted))
      (executePlain budget (statement.read parsed)) ↔ fits) :
    CarriesNumbers statement ↔ fits := by
  constructor
  · intro hcarries
    exact (h 0).mp (hcarries 0)
  · intro hfits budget
    exact (h budget).mpr hfits

/-- The numbers of a statement are carried exactly when they fit. -/
theorem numbers_carried_iff (statement : NumberedStatement) :
    CarriesNumbers statement ↔ statement.Fits := by
  cases statement with
  | select text => exact carriesNumbers_iff text.carries_iff
  | createTable text => exact carriesNumbers_iff fun _ => text.carries_iff
  | alterTable text => exact carriesNumbers_iff fun _ => text.carries_iff
  | alterReplica text => exact carriesNumbers_iff fun _ => text.carries_iff

/-! ### Saturation -/

/-- Numerals that agree on the numbers of a statement. -/
theorem NumberedStatement.read_congr {num num' : Numerals} (statement : NumberedStatement)
    (hlong : num.long = num'.long) (hint : ∀ n ∈ statement.topk, num.int n = num'.int n) :
    statement.read num = statement.read num' := by
  obtain ⟨long, int⟩ := num
  obtain ⟨long', int'⟩ := num'
  dsimp only at hlong hint
  subst hlong
  cases statement with
  | select text =>
      have htopk : (text.nearest.map fun clause => int clause.1) =
          text.nearest.map fun clause => int' clause.1 := by
        apply Option.map_congr
        intro clause hclause
        exact hint clause.1 (Option.mem_map_of_mem Prod.fst hclause)
      simp only [read, SelectText.node, htopk]
  | createTable text => rfl
  | alterTable text => rfl
  | alterReplica text => rfl

/-- A statement's requests have the numbers that its parser made. -/
theorem carriesAs_parsed (statement : NumberedStatement) : CarriesAs parsed statement := by
  intro budget
  cases statement with
  | select text =>
      apply (always_select_iff (fun _ => trivial)
        (fun topk => (text.node parsed).topk = some topk) budget (text.node parsed)
        (fun c hc => by cases c <;> first | trivial | exact absurd rfl (hc _))
        fun _ => Iff.rfl).mpr
      intro vector _ _ htopk
      cases hsome : (text.node parsed).topk with
      | none =>
          rw [hsome] at htopk
          exact absurd htopk (lt_irrefl 0)
      | some topk => rfl
  | createTable text =>
      exact (always_createTable_iff (fun _ => trivial) _ (fun _ => trivial)
        fun _ => trivial).mpr fun _ => rfl
  | alterTable text => exact (always_alterTable_iff (fun _ => trivial) _).mpr fun _ => rfl
  | alterReplica text =>
      exact (always_alterReplica_iff (fun _ => trivial) _).mpr rfl

/-- With a TopK that an `int` holds, every number is carried as saturated, and
so exactly if it fits. -/
theorem numbers_saturated (statement : NumberedStatement) (h : ∀ n ∈ statement.topk, FitsInt n) :
    CarriesAs saturated statement ∧
      ((∀ n ∈ statement.longs, FitsLong n) → CarriesNumbers statement) := by
  have hint : ∀ n, FitsInt n → parsed.int n = wholeValue n.1 := by
    intro n hn
    rw [int_eq, intCast_of_lt hn.1 hn.2]
  have hread : statement.read parsed = statement.read saturated :=
    statement.read_congr (funext fun n => parseLl_eq n.2) fun n hn => hint n (h n hn)
  constructor
  · intro budget
    rw [← hread]
    exact carriesAs_parsed statement budget
  · intro hlongs
    apply (numbers_carried_iff statement).mpr
    cases statement with
    | select text =>
        intro n vector htext _
        have hn : FitsInt n := h n (by simp [NumberedStatement.topk, htext])
        apply (topk_eq_iff n).mp
        intro _
        exact (hint n hn).symm
    | createTable text => exact fun _ => hlongs
    | alterTable text => exact fun _ => hlongs
    | alterReplica text => exact hlongs

def one : WholeNumber := ⟨"1", .inl ((Flex.Pattern.accepts_iff _ _).mp (by decide +kernel))⟩

/-- `select * from t.v nearest 1 to [1]`. -/
def nearestOne : SelectText where
  cmd := { table := "t", index := some "v" }
  nearest := some (one, .L [.N "1"])

theorem numbers_saturated_nearestOne : CarriesNumbers (.select nearestOne) :=
  (numbers_saturated (.select nearestOne) (by
    intro n hn
    cases hn
    exact ⟨by decide +kernel, by decide +kernel⟩)).2 (by rintro n ⟨⟩)

def twoTo63 : WholeNumber :=
  ⟨"9223372036854775808", .inl ((Flex.Pattern.accepts_iff _ _).mp (by decide +kernel))⟩

/-- `alter table t set billing mode provisioned (9223372036854775808 rcu, 1 wcu)`. -/
def overflowingCapacity : AlterTableText where
  cmd := { table := "t" }
  throughput := { billing := some (.provisioned twoTo63 one) }

/-- One less is sent than is written. -/
theorem overflowingCapacity_not_carried : ¬ CarriesNumbers (.alterTable overflowingCapacity) := by
  intro h
  have hfits := overflowingCapacity.carries_iff.mp (h 0) (by decide +kernel) twoTo63
    (by decide +kernel)
  exact absurd hfits.2 (by decide +kernel)

end DdbShell
