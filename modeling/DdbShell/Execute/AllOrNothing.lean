import DdbShell.Execute.Accounting

/-!
A transaction is sent as a whole or not at all. Every inner statement is
attempted once, with the description of its table as the client gave it; the
request is made of the entries of all attempts, and it is made only if none of
them failed.

An UPDATE, a DELETE or a SELECT that does not name one item is turned down by
its builder. EXISTS and NOT EXISTS are not: they only ask for a WHERE clause,
and their request carries whatever part of the key it names.
-/

namespace DdbShell

open Exec

/-! ### Attempts -/

/-- An entry of either kind of transaction. -/
inductive TransactEntry where
  | get (get : TransactGet)
  | write (item : TransactWriteItem)

namespace TransactItem

/-- The table a statement has described before it is built. -/
def lookup : TransactAccess → TransactItem → Option String
  | .read, .select cmd => some cmd.table
  | .write, .select cmd => (existsFunction cmd.existsMode).map fun _ => cmd.table
  | .write, .insert cmd => some cmd.tableName
  | .write, .update cmd => some cmd.table
  | .write, .delete cmd => some cmd.table
  | _, _ => none

/-- The statement names a single item of a table with this base key: a read by
its key alone, any other statement with a clause that pins the full key. -/
def reducible (access : TransactAccess) (base : ResolvedKeySchema) : TransactItem → Bool
  | .select cmd =>
      match access with
      | .read => cmd.index.isNone && cmd.condition.any fun w => w.canGetitem base.pk base.rk
      | .write => cmd.condition.any fun w => w.canUpdateItem base.pk base.rk
  | .update cmd => cmd.condition.any fun w => w.canUpdateItem base.pk base.rk
  | .delete cmd => cmd.condition.any fun w => w.canDeleteItem base.pk base.rk
  | .insert _ => true
  | .placeholder => false

/-- One entry per statement, and one per row of an INSERT or REPLACE. -/
def entryCount : TransactItem → Nat
  | .insert cmd => cmd.rows.length
  | _ => 1

end TransactItem

/-- The puts of the rows, with the alias counter before the first. -/
def rowPuts (cmd : InsertCmd) (pk : String) : Nat → List (List Value) → List TransactPut
  | _, [] => []
  | counter, row :: rows =>
      if cmd.insert then
        transactPut (guardedPutRequest cmd row pk (uniquePrefix counter)) ::
          rowPuts cmd pk (counter + 1) rows
      else transactPut (putRequest cmd row) :: rowPuts cmd pk counter rows

def putEntries (cmd : InsertCmd) (described : Except Error DescribeTableOut) (counter : Nat) :
    Except Error (List TransactPut) := do
  let schema ← getKeySchema (fun _ => described) cmd.tableName ""
  validateInsertRows cmd
  return rowPuts cmd (schema.pk.headD "") counter cmd.rows

/-- What a read transaction makes of a statement. -/
def readEntries (item : TransactItem) (described : Except Error DescribeTableOut)
    (counter : Nat) : Except Error (List TransactGet) :=
  match item with
  | .select cmd =>
      (buildTransactGet cmd (fun _ => described) (uniquePrefix counter)).map fun get => [get]
  | _ => .error notReducible

/-- What a write transaction makes of a statement. -/
def writeEntries (item : TransactItem) (described : Except Error DescribeTableOut)
    (counter : Nat) : Except Error (List TransactWriteItem) :=
  match item with
  | .insert cmd => (putEntries cmd described counter).map fun puts => puts.map .put
  | .update cmd =>
      (buildTransactUpdate cmd (fun _ => described) (uniquePrefix counter)).map
        fun update => [.update update]
  | .delete cmd =>
      (buildTransactDelete cmd (fun _ => described) (uniquePrefix counter)).map
        fun delete => [.delete delete]
  | .select cmd =>
      (buildTransactConditionCheck cmd (fun _ => described) (uniquePrefix counter)).map
        fun check => [.conditionCheck check]
  | .placeholder => .error notReducible

/-- An inner statement, the answer to its lookup and the alias counter it was
built with. -/
structure Attempt where
  item : TransactItem
  described : Except Error DescribeTableOut
  counter : Nat

def lookupEvents (table : Option String) (described : Except Error DescribeTableOut) :
    List RunEvent :=
  table.toList.map fun table => ⟨.client (.describeTable table), described⟩

namespace Attempt

def entries (access : TransactAccess) (a : Attempt) : Except Error (List TransactEntry) :=
  match access with
  | .read => (readEntries a.item a.described a.counter).map fun gets => gets.map .get
  | .write => (writeEntries a.item a.described a.counter).map fun items => items.map .write

def built (access : TransactAccess) (a : Attempt) : Bool := (a.entries access).isOk

/-- The calls of an attempt. -/
def calls (access : TransactAccess) (a : Attempt) : List RunEvent :=
  lookupEvents (a.item.lookup access) a.described

/-- The base key of the table, if its description has been answered. -/
def base (a : Attempt) : Except Error ResolvedKeySchema :=
  getKeySchema (fun _ => a.described) "" ""

end Attempt

/-! ### Building one statement -/

/-- `absorb_or_propagate`, on what a builder returned. -/
def absorbed {α : Type} (b : Building α) : Except Error (List α) → Ending (Building α)
  | .ok new => .ok (b.add new)
  | .error e =>
      if e.code = .notReducibleToGetitem then
        .ok { b with
          aborted := true
          diagnostics := if e.message = "" then b.diagnostics else b.diagnostics ++ [e.message] }
      else .error e

/-- The executor makes the lookup and ends as the pure builder says. -/
def BuildsAs {α : Type} (x : Exec α) (table : Option String)
    (result : Except Error DescribeTableOut → Nat → Except Error α) : Prop :=
  ∀ counter events ending counter', Runs x counter events (ending, counter') →
    ∃ described, events = lookupEvents table described ∧
      ending = .ofAnswer (result described counter)

section Building

variable {α β : Type}

theorem buildsAs_throw (e : Error) : BuildsAs (throw e : Exec α) none fun _ _ => .error e := by
  intro counter events ending counter' h
  obtain ⟨rfl, hresult⟩ := runs_throw h
  cases hresult
  exact ⟨.error e, rfl, rfl⟩

theorem BuildsAs.map {x : Exec α} {table : Option String}
    {result : Except Error DescribeTableOut → Nat → Except Error α} (hx : BuildsAs x table result)
    (f : α → β) :
    BuildsAs (x >>= fun a => pure (f a)) table fun described counter =>
      (result described counter).map f := by
  intro counter events ending counter' h
  rcases runs_bind h with
    ⟨before, a, middle, after, rfl, hbefore, hafter⟩ | ⟨e, middle, heq, hbefore⟩ |
      ⟨middle, heq, hbefore⟩
  · obtain ⟨described, hevents, hending⟩ := hx _ _ _ _ hbefore
    obtain ⟨rfl, hresult⟩ := runs_pure hafter
    cases hresult
    refine ⟨described, by rw [List.append_nil]; exact hevents, ?_⟩
    cases hbuilt : result described counter with
    | ok a' =>
        rw [hbuilt] at hending
        cases hending
        dsimp only
        rw [hbuilt]
        rfl
    | error e =>
        rw [hbuilt] at hending
        cases hending
  · cases heq
    obtain ⟨described, hevents, hending⟩ := hx _ _ _ _ hbefore
    refine ⟨described, hevents, ?_⟩
    cases hbuilt : result described counter with
    | ok a' =>
        rw [hbuilt] at hending
        cases hending
    | error e' =>
        rw [hbuilt] at hending
        cases hending
        dsimp only
        rw [hbuilt]
        rfl
  · obtain ⟨described, hevents, hending⟩ := hx _ _ _ _ hbefore
    cases hbuilt : result described counter <;> rw [hbuilt] at hending <;> cases hending

/-- An executor that is a lookup and nothing else. -/
theorem buildsAs_of_call {x : Exec α} {table : String}
    {result : Except Error DescribeTableOut → Nat → Except Error α}
    (h : ∀ counter, ∃ next, x counter = .call (.client (.describeTable table)) next ∧
      ∀ described : Except Error DescribeTableOut, ∃ counter',
        next described = .done (.ofAnswer (result described counter), counter')) :
    BuildsAs x (some table) result := by
  intro counter events ending counter' hruns
  obtain ⟨next, hcall, hnext⟩ := h counter
  rw [Runs, hcall] at hruns
  obtain ⟨described, rest, rfl, hrest⟩ := Program.runs_call hruns
  obtain ⟨counter'', hdone⟩ := hnext described
  rw [hdone] at hrest
  obtain ⟨rfl, hresult⟩ := Program.runs_done hrest
  cases hresult
  exact ⟨described, rfl, rfl⟩

theorem buildsAs_buildEntry (table : String) (build : DescribeTable → String → Except Error α) :
    BuildsAs (buildEntry table build) (some table) fun described counter =>
      build (fun _ => described) (uniquePrefix counter) := by
  refine buildsAs_of_call fun counter => ⟨_, rfl, fun described => ?_⟩
  show ∃ counter', minting (build fun _ => described) counter = _
  unfold minting
  split
  · next a hbuilt => exact ⟨_, by rw [hbuilt]; rfl⟩
  · next e hbuilt => exact ⟨_, by rw [hbuilt]; rfl⟩

theorem runs_caught {x : Exec α} {counter counter' : Nat} {events : List RunEvent}
    {ending : Ending (Except Error α)} (h : Runs (caught x) counter events (ending, counter')) :
    ∃ inner, Runs x counter events (inner, counter') ∧
      ((∃ a, inner = .ok a ∧ ending = .ok (.ok a)) ∨
        (∃ e, inner = .error e ∧ ending = .ok (.error e)) ∨ (inner = .cut ∧ ending = .cut)) := by
  obtain ⟨before, ⟨inner, middle⟩, after, rfl, hx, hafter⟩ := Program.runs_bind h
  cases inner with
  | ok a =>
      obtain ⟨rfl, hresult⟩ := Program.runs_done hafter
      cases hresult
      rw [List.append_nil]
      exact ⟨.ok a, hx, .inl ⟨a, rfl, rfl⟩⟩
  | error e =>
      obtain ⟨rfl, hresult⟩ := Program.runs_done hafter
      cases hresult
      rw [List.append_nil]
      exact ⟨.error e, hx, .inr (.inl ⟨e, rfl, rfl⟩)⟩
  | cut =>
      obtain ⟨rfl, hresult⟩ := Program.runs_done hafter
      cases hresult
      rw [List.append_nil]
      exact ⟨.cut, hx, .inr (.inr ⟨rfl, rfl⟩)⟩

theorem runs_absorbOrPropagate {b : Building α} {e : Error} {counter counter' : Nat}
    {events : List RunEvent} {ending : Ending (Building α)}
    (h : Runs (absorbOrPropagate b e) counter events (ending, counter')) :
    events = [] ∧ ending = absorbed b (.error e) := by
  unfold absorbOrPropagate at h
  rw [absorbed]
  split at h
  · next hcode =>
      obtain ⟨rfl, hresult⟩ := runs_pure h
      cases hresult
      rw [if_pos hcode]
      exact ⟨rfl, rfl⟩
  · next hcode =>
      obtain ⟨rfl, hresult⟩ := runs_throw h
      cases hresult
      rw [if_neg hcode]
      exact ⟨rfl, rfl⟩

/-- A run of a statement's building is one attempt. -/
theorem runs_buildInto {b : Building α} {x : Exec (List α)} {table : Option String}
    {result : Except Error DescribeTableOut → Nat → Except Error (List α)}
    (hx : BuildsAs x table result) {counter counter' : Nat} {events : List RunEvent}
    {ending : Ending (Building α)}
    (h : Runs (buildInto b x) counter events (ending, counter')) :
    ∃ described, events = lookupEvents table described ∧
      ending = absorbed b (result described counter) := by
  rcases runs_bind h with
    ⟨before, answer, middle, after, rfl, hbefore, hafter⟩ | ⟨e, middle, heq, hbefore⟩ |
      ⟨middle, heq, hbefore⟩
  · obtain ⟨inner, hinner, ⟨a, rfl, hanswer⟩ | ⟨e, rfl, hanswer⟩ | ⟨rfl, hanswer⟩⟩ :=
      runs_caught hbefore
    · cases hanswer
      obtain ⟨rfl, hresult⟩ := runs_pure hafter
      cases hresult
      obtain ⟨described, rfl, hending⟩ := hx _ _ _ _ hinner
      refine ⟨described, List.append_nil _, ?_⟩
      cases hbuilt : result described counter with
      | ok new =>
          rw [hbuilt] at hending
          cases hending
          rfl
      | error e =>
          rw [hbuilt] at hending
          cases hending
    · cases hanswer
      obtain ⟨rfl, hending'⟩ := runs_absorbOrPropagate hafter
      obtain ⟨described, rfl, hending⟩ := hx _ _ _ _ hinner
      refine ⟨described, List.append_nil _, ?_⟩
      cases hbuilt : result described counter with
      | ok new =>
          rw [hbuilt] at hending
          cases hending
      | error e' =>
          rw [hbuilt] at hending
          cases hending
          exact hending'
    · cases hanswer
  · obtain ⟨inner, hinner, ⟨a, rfl, hanswer⟩ | ⟨e', rfl, hanswer⟩ | ⟨rfl, hanswer⟩⟩ :=
      runs_caught hbefore
    all_goals cases hanswer
  · obtain ⟨inner, hinner, ⟨a, rfl, hanswer⟩ | ⟨e', rfl, hanswer⟩ | ⟨rfl, hanswer⟩⟩ :=
      runs_caught hbefore
    · cases hanswer
    · cases hanswer
    · obtain ⟨described, rfl, hending⟩ := hx _ _ _ _ hinner
      cases hbuilt : result described counter <;> rw [hbuilt] at hending <;> cases hending

end Building

theorem makePutRequest_done (cmd : InsertCmd) (pk : String) (row : List Value) (counter : Nat) :
    makePutRequest cmd pk row counter =
      if cmd.insert then
        .done (.ok (guardedPutRequest cmd row pk (uniquePrefix counter)), counter + 1)
      else .done (.ok (putRequest cmd row), counter) := by
  unfold makePutRequest
  split <;> rfl

/-- The puts of an INSERT are built without a call. -/
theorem transactPuts_done (cmd : InsertCmd) (pk : String) (rows : List (List Value))
    (counter : Nat) :
    ∃ counter', transactPuts cmd pk rows counter =
      .done (.ok (rowPuts cmd pk counter rows), counter') := by
  induction rows generalizing counter with
  | nil => exact ⟨counter, rfl⟩
  | cons row rows ih =>
      have hput := makePutRequest_done cmd pk row counter
      rw [rowPuts, transactPuts]
      cases hinsert : cmd.insert with
      | true =>
          rw [hinsert] at hput
          obtain ⟨counter', hrest⟩ := ih (counter + 1)
          refine ⟨counter', ?_⟩
          rw [bind_of_done hput, bind_of_done hrest]
          rfl
      | false =>
          rw [hinsert] at hput
          obtain ⟨counter', hrest⟩ := ih counter
          refine ⟨counter', ?_⟩
          rw [bind_of_done hput, bind_of_done hrest]
          rfl

theorem buildsAs_execTransactPuts (cmd : InsertCmd) :
    BuildsAs (execTransactPuts cmd) (some cmd.tableName) (putEntries cmd) := by
  refine buildsAs_of_call fun counter => ⟨_, rfl, fun described => ?_⟩
  cases described with
  | error e => exact ⟨counter, rfl⟩
  | ok described =>
      obtain ⟨counter', hputs⟩ :=
        transactPuts_done cmd (described.keySchema.hashKeys.headD "") cmd.rows counter
      cases hvalid : validateInsertRows cmd with
      | error e =>
          refine ⟨counter, ?_⟩
          rw [putEntries, hvalid]
          rfl
      | ok _ =>
          refine ⟨counter', ?_⟩
          rw [putEntries, hvalid]
          exact hputs

/-- Building a statement is one attempt at it. -/
def BuildsItem {α : Type} (build : Building α → TransactItem → Exec (Building α))
    (lookup : TransactItem → Option String)
    (entries : TransactItem → Except Error DescribeTableOut → Nat → Except Error (List α)) : Prop :=
  ∀ b item counter events ending counter',
    Runs (build b item) counter events (ending, counter') →
      ∃ described, events = lookupEvents (lookup item) described ∧
        ending = absorbed b (entries item described counter)

theorem runs_abort {α : Type} {b : Building α} {counter counter' : Nat} {events : List RunEvent}
    {ending : Ending (Building α)} (h : Runs (pure b.abort) counter events (ending, counter')) :
    ∃ described, events = lookupEvents none described ∧
      ending = absorbed b (.error notReducible) := by
  obtain ⟨rfl, hresult⟩ := runs_pure h
  cases hresult
  exact ⟨.error notReducible, rfl, rfl⟩

theorem builds_buildReadItem :
    BuildsItem buildReadItem (TransactItem.lookup .read) readEntries := by
  intro b item counter events ending counter' h
  cases item with
  | select cmd => exact runs_buildInto ((buildsAs_buildEntry _ _).map _) h
  | insert cmd => exact runs_abort h
  | update cmd => exact runs_abort h
  | delete cmd => exact runs_abort h
  | placeholder => exact runs_abort h

theorem buildsAs_execTransactConditionCheck (cmd : SelectCmd) :
    BuildsAs (execTransactConditionCheck cmd) ((TransactItem.select cmd).lookup .write)
      fun described counter =>
        buildTransactConditionCheck cmd (fun _ => described) (uniquePrefix counter) := by
  unfold execTransactConditionCheck
  cases hmode : existsFunction cmd.existsMode with
  | none =>
      have hbuilt (described : Except Error DescribeTableOut) (counter : Nat) :
          buildTransactConditionCheck cmd (fun _ => described) (uniquePrefix counter) =
            .error selectNoExists := by
        rw [buildTransactConditionCheck, hmode]
        rfl
      simp only [TransactItem.lookup, hmode, hbuilt]
      exact buildsAs_throw selectNoExists
  | some checkFunc =>
      simp only [TransactItem.lookup, hmode]
      exact buildsAs_buildEntry _ _

theorem builds_buildWriteItem :
    BuildsItem buildWriteItem (TransactItem.lookup .write) writeEntries := by
  intro b item counter events ending counter' h
  cases item with
  | insert cmd => exact runs_buildInto ((buildsAs_execTransactPuts cmd).map _) h
  | update cmd => exact runs_buildInto ((buildsAs_buildEntry _ _).map _) h
  | delete cmd => exact runs_buildInto ((buildsAs_buildEntry _ _).map _) h
  | select cmd => exact runs_buildInto ((buildsAs_execTransactConditionCheck cmd).map _) h
  | placeholder => exact runs_abort h

/-! ### Building all statements -/

/-- The entries an attempt adds. -/
def added {α : Type} : Except Error (List α) → List α
  | .ok new => new
  | .error _ => []

theorem absorbed_error {α : Type} {b : Building α} {result : Except Error (List α)} {e : Error}
    (h : absorbed b result = .error e) : result = .error e := by
  cases result with
  | ok new => cases h
  | error e' =>
      rw [absorbed] at h
      split at h
      · cases h
      · cases h
        rfl

theorem absorbed_ok {α : Type} {b b' : Building α} {result : Except Error (List α)}
    (h : absorbed b result = .ok b') :
    b'.aborted = (b.aborted || !result.isOk) ∧ b'.entries = b.entries ++ added result := by
  cases result with
  | ok new =>
      cases h
      exact ⟨by simp [Building.add, Except.isOk, Except.toBool], rfl⟩
  | error e =>
      rw [absorbed] at h
      split at h
      · cases h
        exact ⟨by simp [Except.isOk, Except.toBool], (List.append_nil _).symm⟩
      · cases h

/-- What a run of building has tried, and what came of it. -/
structure BuildRun {α : Type} (lookup : TransactItem → Option String)
    (entries : TransactItem → Except Error DescribeTableOut → Nat → Except Error (List α))
    (b : Building α) (items : List TransactItem) (attempts : List Attempt)
    (events : List RunEvent) (ending : Ending (Building α)) : Prop where
  calls : events = attempts.flatMap fun a => lookupEvents (lookup a.item) a.described
  tried : attempts.map Attempt.item <+: items
  ended : (∃ e, ending = .error e ∧
      ∃ a ∈ attempts, entries a.item a.described a.counter = .error e) ∨
    ∃ b', ending = .ok b' ∧ attempts.map Attempt.item = items ∧
      b'.aborted = (b.aborted ||
        attempts.any fun a => !(entries a.item a.described a.counter).isOk) ∧
      b'.entries = b.entries ++
        attempts.flatMap fun a => added (entries a.item a.described a.counter)

/-- By induction on the statements: a statement that is turned down does not
stop the building of those after it. -/
theorem runs_buildItems {α : Type} {build : Building α → TransactItem → Exec (Building α)}
    {lookup : TransactItem → Option String}
    {entries : TransactItem → Except Error DescribeTableOut → Nat → Except Error (List α)}
    (hbuild : BuildsItem build lookup entries) {b : Building α} {items : List TransactItem}
    {counter counter' : Nat} {events : List RunEvent} {ending : Ending (Building α)}
    (h : Runs (buildItems build b items) counter events (ending, counter')) :
    ∃ attempts, BuildRun lookup entries b items attempts events ending := by
  induction items generalizing b counter events with
  | nil =>
      obtain ⟨rfl, hresult⟩ := runs_pure h
      cases hresult
      exact ⟨[], rfl, List.prefix_rfl, .inr ⟨b, rfl, rfl, by simp, by simp⟩⟩
  | cons item items ih =>
      rcases runs_bind h with
        ⟨before, b₁, middle, after, rfl, hbefore, hafter⟩ | ⟨e, middle, heq, hbefore⟩ |
          ⟨middle, heq, hbefore⟩
      · obtain ⟨described, rfl, hending⟩ := hbuild _ _ _ _ _ _ hbefore
        obtain ⟨haborted, hentries⟩ := absorbed_ok hending.symm
        obtain ⟨attempts, hcalls, htried, hended⟩ := ih hafter
        refine ⟨⟨item, described, counter⟩ :: attempts, ?_, ?_, ?_⟩
        · rw [List.flatMap_cons, hcalls]
        · exact List.cons_prefix_cons.mpr ⟨rfl, htried⟩
        · rcases hended with ⟨e, rfl, a, ha, he⟩ | ⟨b', rfl, hitems, haborted', hentries'⟩
          · exact .inl ⟨e, rfl, a, List.mem_cons_of_mem _ ha, he⟩
          · refine .inr ⟨b', rfl, by rw [List.map_cons, hitems], ?_, ?_⟩
            · rw [haborted', haborted, List.any_cons, Bool.or_assoc]
            · rw [hentries', hentries, List.flatMap_cons, List.append_assoc]
      · cases heq
        obtain ⟨described, rfl, hending⟩ := hbuild _ _ _ _ _ _ hbefore
        refine ⟨[⟨item, described, counter⟩], ?_, ?_,
          .inl ⟨e, rfl, _, List.mem_singleton_self _, ?_⟩⟩
        · exact (List.append_nil _).symm
        · exact List.cons_prefix_cons.mpr ⟨rfl, List.nil_prefix⟩
        · exact absorbed_error hending.symm
      · obtain ⟨described, rfl, hending⟩ := hbuild _ _ _ _ _ _ hbefore
        cases hbuilt : entries item described counter with
        | ok new =>
            rw [hbuilt] at hending
            cases hending
        | error e =>
            rw [hbuilt, absorbed] at hending
            split at hending <;> cases hending

/-! ### Sending -/

namespace RunEvent

/-- A call of the client, as against an emitted outcome. -/
def isCall : RunEvent → Bool
  | ⟨.client _, _⟩ => true
  | ⟨.emit _, _⟩ => false

/-- The request of a transaction. -/
def sent? : RunEvent → Option (List TransactEntry)
  | ⟨.client (.transactGetItems items), _⟩ => some (items.map .get)
  | ⟨.client (.transactWriteItems items), _⟩ => some (items.map .write)
  | _ => none

end RunEvent

def clientCalls (events : List RunEvent) : List RunEvent := events.filter RunEvent.isCall

/-- The transaction requests of a run. -/
def sent (events : List RunEvent) : List (List TransactEntry) :=
  events.filterMap RunEvent.sent?

theorem sent_append (before after : List RunEvent) :
    sent (before ++ after) = sent before ++ sent after :=
  List.filterMap_append

theorem clientCalls_append (before after : List RunEvent) :
    clientCalls (before ++ after) = clientCalls before ++ clientCalls after :=
  List.filter_append before after

theorem lookups_quiet (attempts : List Attempt) (lookup : TransactItem → Option String) :
    sent (attempts.flatMap fun a => lookupEvents (lookup a.item) a.described) = [] ∧
      clientCalls (attempts.flatMap fun a => lookupEvents (lookup a.item) a.described) =
        attempts.flatMap fun a => lookupEvents (lookup a.item) a.described := by
  induction attempts with
  | nil => exact ⟨rfl, rfl⟩
  | cons a attempts ih =>
      rw [List.flatMap_cons, sent_append, clientCalls_append, ih.1, ih.2]
      cases lookup a.item with
      | none => exact ⟨rfl, rfl⟩
      | some table => exact ⟨rfl, rfl⟩

/-- The one request, then at most what is shown of its answer. -/
theorem runs_send {c : ClientCall} {show' : c.Out → ExecOutcome} {counter counter' : Nat}
    {events : List RunEvent} {ending : Ending Unit}
    (h : Runs (do
        let out ← sendTransaction (attempt c)
        emit (show' out)) counter events (ending, counter')) :
    ∃ answer outcome, events = [⟨.client c, answer⟩, ⟨.emit outcome, ()⟩] := by
  have hcall : Program.Runs (.call (.client c) _) events (ending, counter') := h
  obtain ⟨answer, rest, rfl, hrest⟩ := Program.runs_call hcall
  cases answer with
  | ok out =>
      have hemit : Program.Runs (.call (.emit (show' out)) _) rest (ending, counter') := hrest
      obtain ⟨_, rest, rfl, hdone⟩ := Program.runs_call hemit
      obtain ⟨rfl, -⟩ := Program.runs_done hdone
      exact ⟨.ok out, show' out, rfl⟩
  | error e =>
      have hemit : Program.Runs (.call (.emit (transactAborted [])) _) rest (ending, counter') :=
        hrest
      obtain ⟨_, rest, rfl, hdone⟩ := Program.runs_call hemit
      obtain ⟨rfl, -⟩ := Program.runs_done hdone
      exact ⟨.error e, transactAborted [], rfl⟩

/-! ### Whole runs -/

/-- The transaction ends in COMMIT, is not empty, and every statement was
built. -/
def Commits (cmd : TransactCmd) (attempts : List Attempt) : Prop :=
  cmd.rollback = false ∧ cmd.items ≠ [] ∧ attempts.map Attempt.item = cmd.items ∧
    ∀ a ∈ attempts, a.built cmd.access = true

/-- What every run of a transaction does. -/
structure TransactRun (cmd : TransactCmd) (attempts : List Attempt) (events : List RunEvent) :
    Prop where
  /-- the statements are tried in order, each once -/
  tried : attempts.map Attempt.item <+: cmd.items
  /-- the calls are their lookups and then the request, if it is made -/
  calls : ∃ request, clientCalls events = attempts.flatMap (Attempt.calls cmd.access) ++ request ∧
    request.length ≤ 1 ∧ ∀ event ∈ request, event.sent?.isSome = true
  once : (sent events).length ≤ 1
  sent_iff : sent events ≠ [] ↔ Commits cmd attempts
  /-- the request is made of the entries of all statements, in order -/
  whole : ∀ request ∈ sent events,
    request = attempts.flatMap fun a => added (a.entries cmd.access)
  counted : ∀ a ∈ attempts, ∀ new, a.entries cmd.access = .ok new →
    new.length = a.item.entryCount

theorem length_rowPuts (cmd : InsertCmd) (pk : String) (counter : Nat)
    (rows : List (List Value)) : (rowPuts cmd pk counter rows).length = rows.length := by
  induction rows generalizing counter with
  | nil => rfl
  | cons row rows ih =>
      rw [rowPuts]
      split
      · rw [List.length_cons, ih, List.length_cons]
      · rw [List.length_cons, ih, List.length_cons]

theorem length_putEntries {cmd : InsertCmd} {described : Except Error DescribeTableOut}
    {counter : Nat} {puts : List TransactPut} (h : putEntries cmd described counter = .ok puts) :
    puts.length = cmd.rows.length := by
  obtain ⟨schema, -, h⟩ := bind_eq_ok h
  obtain ⟨_, -, h⟩ := bind_eq_ok h
  cases h
  exact length_rowPuts _ _ _ _

/-- One entry per statement, one per row. -/
theorem length_entries {access : TransactAccess} {a : Attempt} {new : List TransactEntry}
    (h : a.entries access = .ok new) : new.length = a.item.entryCount := by
  obtain ⟨item, described, counter⟩ := a
  cases access with
  | read =>
      obtain ⟨gets, hgets, rfl⟩ := map_eq_ok h
      rw [List.length_map]
      cases item with
      | select cmd =>
          obtain ⟨get, -, rfl⟩ := map_eq_ok hgets
          rfl
      | insert cmd => cases hgets
      | update cmd => cases hgets
      | delete cmd => cases hgets
      | placeholder => cases hgets
  | write =>
      obtain ⟨items, hitems, rfl⟩ := map_eq_ok h
      rw [List.length_map]
      cases item with
      | insert cmd =>
          obtain ⟨puts, hputs, rfl⟩ := map_eq_ok hitems
          rw [List.length_map]
          exact length_putEntries hputs
      | select cmd =>
          obtain ⟨check, -, rfl⟩ := map_eq_ok hitems
          rfl
      | update cmd =>
          obtain ⟨update, -, rfl⟩ := map_eq_ok hitems
          rfl
      | delete cmd =>
          obtain ⟨delete, -, rfl⟩ := map_eq_ok hitems
          rfl
      | placeholder => cases hitems

/-- The entries of an attempt, in terms of the builder of its kind. -/
structure EntriesAre {α : Type} (access : TransactAccess) (wrap : α → TransactEntry)
    (entries : TransactItem → Except Error DescribeTableOut → Nat → Except Error (List α)) :
    Prop where
  eq : ∀ a : Attempt, a.entries access =
    (entries a.item a.described a.counter).map fun new => new.map wrap

namespace EntriesAre

variable {α : Type} {access : TransactAccess} {wrap : α → TransactEntry}
  {entries : TransactItem → Except Error DescribeTableOut → Nat → Except Error (List α)}

theorem built_eq (h : EntriesAre access wrap entries) (a : Attempt) :
    a.built access = (entries a.item a.described a.counter).isOk := by
  rw [Attempt.built, h.eq]
  cases entries a.item a.described a.counter <;> rfl

theorem added_eq (h : EntriesAre access wrap entries) (a : Attempt) :
    added (a.entries access) = (added (entries a.item a.described a.counter)).map wrap := by
  rw [h.eq]
  cases entries a.item a.described a.counter <;> rfl

theorem flatMap_added (h : EntriesAre access wrap entries) (attempts : List Attempt) :
    (attempts.flatMap fun a => added (a.entries access)) =
      (attempts.flatMap fun a => added (entries a.item a.described a.counter)).map wrap := by
  rw [List.map_flatMap]
  congr 1
  funext a
  exact h.added_eq a

end EntriesAre

theorem readEntries_are : EntriesAre .read .get readEntries := ⟨fun _ => rfl⟩

theorem writeEntries_are : EntriesAre .write .write writeEntries := ⟨fun _ => rfl⟩

section Finish

variable {α : Type} {cmd : TransactCmd} {wrap : α → TransactEntry}
  {entries : TransactItem → Except Error DescribeTableOut → Nat → Except Error (List α)}
  {attempts : List Attempt} {building : List RunEvent}

/-- Nothing was sent: a statement failed, or the transaction is rolled back. -/
theorem transactRun_unsent {tail : List RunEvent}
    (hcalls : building = attempts.flatMap (Attempt.calls cmd.access))
    (htried : attempts.map Attempt.item <+: cmd.items)
    (htail : ∀ event ∈ tail, event.isCall = false ∧ event.sent? = none)
    (hcommits : ¬ Commits cmd attempts) : TransactRun cmd attempts (building ++ tail) := by
  obtain ⟨hquiet, hlookups⟩ := lookups_quiet attempts (TransactItem.lookup cmd.access)
  have hsent : sent (building ++ tail) = [] := by
    rw [sent_append, hcalls]
    have htail' : sent tail = [] := List.filterMap_eq_nil_iff.mpr fun event h => (htail event h).2
    rw [htail', List.append_nil]
    exact hquiet
  have htail' : clientCalls tail = [] := by
    refine List.filter_eq_nil_iff.mpr fun event h => ?_
    rw [(htail event h).1]
    exact Bool.false_ne_true
  refine ⟨htried, ⟨[], ?_, Nat.zero_le 1, ?_⟩, ?_, ?_, ?_, fun a _ new => length_entries⟩
  · rw [clientCalls_append, htail', hcalls]
    exact congrArg (· ++ []) hlookups
  · intro event hevent
    cases hevent
  · rw [hsent]
    exact Nat.zero_le 1
  · rw [hsent]
    exact ⟨fun h => absurd rfl h, fun h => absurd h hcommits⟩
  · rw [hsent]
    intro request hrequest
    cases hrequest

/-- The one request was made. -/
theorem transactRun_sent {event : RunEvent} {outcome : ExecOutcome} {request : List TransactEntry}
    (hcalls : building = attempts.flatMap (Attempt.calls cmd.access))
    (hcall : event.isCall = true) (hsent : event.sent? = some request)
    (hrequest : request = attempts.flatMap fun a => added (a.entries cmd.access))
    (hcommits : Commits cmd attempts) :
    TransactRun cmd attempts (building ++ [event, ⟨.emit outcome, ()⟩]) := by
  obtain ⟨hquiet, hlookups⟩ := lookups_quiet attempts (TransactItem.lookup cmd.access)
  have hsent' : sent (building ++ [event, ⟨.emit outcome, ()⟩]) = [request] := by
    rw [sent_append, hcalls]
    have htail : sent [event, ⟨.emit outcome, ()⟩] = [request] := by
      rw [sent, List.filterMap_cons_some hsent]
      rfl
    rw [htail]
    exact congrArg (· ++ [request]) hquiet
  refine ⟨?_, ⟨[event], ?_, Nat.le_refl _, ?_⟩, ?_, ?_, ?_, fun a _ new => length_entries⟩
  · exact ⟨[], by rw [hcommits.2.2.1, List.append_nil]⟩
  · have htail : clientCalls [event, ⟨.emit outcome, ()⟩] = [event] := by
      rw [clientCalls, List.filter_cons_of_pos hcall]
      rfl
    rw [clientCalls_append, htail, hcalls]
    exact congrArg (· ++ [event]) hlookups
  · intro event' hevent
    rw [List.mem_singleton.mp hevent, hsent]
    rfl
  · rw [hsent']
    exact Nat.le_refl _
  · rw [hsent']
    exact ⟨fun _ => hcommits, fun _ => List.cons_ne_nil _ _⟩
  · intro request' hmem
    rw [hsent', List.mem_singleton] at hmem
    rw [hmem, hrequest]

theorem not_commits_of_failed {a : Attempt} (ha : a ∈ attempts)
    (hfailed : a.built cmd.access = false) : ¬ Commits cmd attempts := by
  intro hcommits
  rw [hcommits.2.2.2 a ha] at hfailed
  cases hfailed

/-- Build all statements, then send or give up. -/
theorem transactRun_of_steps {build : Building α → TransactItem → Exec (Building α)}
    (hbuild : BuildsItem build (TransactItem.lookup cmd.access) entries)
    (hentries : EntriesAre cmd.access wrap entries) (hitems : cmd.items ≠ [])
    {finish : Building α → Exec Unit}
    (haborted : ∀ b counter events result, b.aborted = true →
      Runs (finish b) counter events result → ∃ outcome, events = [⟨.emit outcome, ()⟩])
    (hsend : ∀ b counter events result, b.aborted = false → Runs (finish b) counter events result →
      ∃ (event : RunEvent) (outcome : ExecOutcome), events = [event, ⟨.emit outcome, ()⟩] ∧
        event.isCall = true ∧ event.sent? = some (b.entries.map wrap))
    {counter counter' : Nat} {events : List RunEvent} {ending : Ending Unit}
    (h : Runs (buildItems build { aborted := cmd.rollback } cmd.items >>= finish) counter events
      (ending, counter')) :
    ∃ attempts, TransactRun cmd attempts events := by
  rcases runs_bind h with
    ⟨before, b, middle, after, rfl, hbefore, hafter⟩ | ⟨e, middle, heq, hbefore⟩ |
      ⟨middle, heq, hbefore⟩
  · obtain ⟨attempts, hcalls, htried, ⟨e, he, -⟩ | ⟨b', hok, hall, haborted', hentries'⟩⟩ :=
      runs_buildItems hbuild hbefore
    · cases he
    · cases hok
      refine ⟨attempts, ?_⟩
      cases hb : b.aborted with
      | true =>
          obtain ⟨outcome, rfl⟩ := haborted b _ _ _ hb hafter
          refine transactRun_unsent hcalls htried ?_ ?_
          · intro event hevent
            rw [List.mem_singleton.mp hevent]
            exact ⟨rfl, rfl⟩
          · intro hcommits
            rw [hb, hcommits.1, Bool.false_or] at haborted'
            obtain ⟨a, ha, hfailed⟩ := List.any_eq_true.mp haborted'.symm
            refine not_commits_of_failed ha ?_ hcommits
            rw [hentries.built_eq]
            simpa using hfailed
      | false =>
          obtain ⟨event, outcome, rfl, hcall, hsent⟩ := hsend b _ _ _ hb hafter
          rw [hb, eq_comm, Bool.or_eq_false_iff] at haborted'
          refine transactRun_sent hcalls hcall hsent ?_ ⟨haborted'.1, hitems, hall, ?_⟩
          · rw [hentries', hentries.flatMap_added]
            rfl
          · intro a ha
            have hok := List.any_eq_false.mp haborted'.2 a ha
            rw [hentries.built_eq]
            simpa using hok
  · cases heq
    obtain ⟨attempts, hcalls, htried, ⟨e', he, a, ha, hfailed⟩ | ⟨b', hok, -⟩⟩ :=
      runs_buildItems hbuild hbefore
    · refine ⟨attempts, ?_⟩
      have hrun : TransactRun cmd attempts (events ++ []) := by
        refine transactRun_unsent hcalls htried (fun _ hevent => absurd hevent List.not_mem_nil)
          (not_commits_of_failed ha ?_)
        rw [hentries.built_eq, hfailed]
        rfl
      rwa [List.append_nil] at hrun
    · cases hok
  · obtain ⟨attempts, -, -, ⟨e, he, -⟩ | ⟨b', hok, -⟩⟩ := runs_buildItems hbuild hbefore
    · cases he
    · cases hok

end Finish

/-- Every run of every transaction, whatever the client answers. -/
theorem runs_executeTransact {cmd : TransactCmd} {counter counter' : Nat}
    {events : List RunEvent} {ending : Ending Unit}
    (h : Runs (executeTransact cmd false) counter events (ending, counter')) :
    ∃ attempts, TransactRun cmd attempts events := by
  unfold executeTransact at h
  split at h
  · next hempty =>
      obtain ⟨rfl, -⟩ := runs_emit h
      have hitems : cmd.items = [] := List.isEmpty_iff.mp hempty
      refine ⟨[], @transactRun_unsent cmd [] [] _ rfl List.nil_prefix ?_ ?_⟩
      · intro event hevent
        rw [List.mem_singleton.mp hevent]
        exact ⟨rfl, rfl⟩
      · intro hcommits
        exact hcommits.2.1 hitems
  · next hempty =>
      have hitems : cmd.items ≠ [] := fun h => hempty (List.isEmpty_iff.mpr h)
      obtain ⟨access, rollback, items⟩ := cmd
      cases access with
      | read =>
          refine transactRun_of_steps builds_buildReadItem readEntries_are hitems ?_ ?_ h
          · intro b counter events result hb h
            rw [if_pos hb] at h
            exact ⟨_, (runs_emit h).1⟩
          · intro b counter events result hb h
            rw [if_neg (by rw [hb]; exact Bool.false_ne_true)] at h
            obtain ⟨answer, outcome, rfl⟩ := runs_send h
            exact ⟨_, outcome, rfl, rfl, rfl⟩
      | write =>
          refine transactRun_of_steps builds_buildWriteItem writeEntries_are hitems ?_ ?_ h
          · intro b counter events result hb h
            rw [if_pos hb] at h
            exact ⟨_, (runs_emit h).1⟩
          · intro b counter events result hb h
            rw [if_neg (by rw [hb]; exact Bool.false_ne_true)] at h
            obtain ⟨answer, outcome, rfl⟩ := runs_send h
            exact ⟨_, outcome, rfl, rfl, rfl⟩

/-! ### Statements that name no single item -/

/-- An EXISTS or NOT EXISTS has a clause that pins the full base key of its
table, as far as that is known. -/
def Attempt.existsPinned (access : TransactAccess) (a : Attempt) : Bool :=
  match access, a.item, a.base with
  | .write, .select cmd, .ok base => cmd.condition.any fun w => w.canUpdateItem base.pk base.rk
  | _, _, _ => true

section Builders

variable {described : DescribeTableOut} {aliasPrefix : String}

theorem getItem_of_buildTransactGet {cmd : SelectCmd} {get : TransactGet}
    (h : buildTransactGet cmd (fun _ => .ok described) aliasPrefix = .ok get) :
    (TransactItem.select cmd).reducible .read (fromTableKey described.keySchema) = true := by
  obtain ⟨schema, hschema, h⟩ := bind_eq_ok h
  cases hschema
  cases hcondition : cmd.condition with
  | none =>
      rw [hcondition] at h
      cases h
  | some w =>
      rw [hcondition] at h
      by_cases hguard : (cmd.index.isSome || !w.canGetitem (fromTableKey described.keySchema).pk
          (fromTableKey described.keySchema).rk) = true
      · simp only [hguard, if_true] at h
        cases h
      · simpa [TransactItem.reducible, hcondition] using hguard

theorem pinned_of_buildTransactUpdate {cmd : UpdateCmd} {update : TransactUpdate}
    (h : buildTransactUpdate cmd (fun _ => .ok described) aliasPrefix = .ok update) :
    (TransactItem.update cmd).reducible .write (fromTableKey described.keySchema) = true := by
  obtain ⟨schema, hschema, h⟩ := bind_eq_ok h
  cases hschema
  cases hcondition : cmd.condition with
  | none =>
      rw [hcondition] at h
      cases h
  | some w =>
      rw [hcondition] at h
      by_cases hguard : (!w.canUpdateItem (fromTableKey described.keySchema).pk
          (fromTableKey described.keySchema).rk) = true
      · simp only [hguard, if_true] at h
        cases h
      · simpa [TransactItem.reducible, hcondition] using hguard

theorem pinned_of_buildTransactDelete {cmd : DeleteCmd} {delete : TransactDelete}
    (h : buildTransactDelete cmd (fun _ => .ok described) aliasPrefix = .ok delete) :
    (TransactItem.delete cmd).reducible .write (fromTableKey described.keySchema) = true := by
  obtain ⟨schema, hschema, h⟩ := bind_eq_ok h
  cases hschema
  cases hcondition : cmd.condition with
  | none =>
      rw [hcondition] at h
      cases h
  | some w =>
      rw [hcondition] at h
      by_cases hguard : (!w.canDeleteItem (fromTableKey described.keySchema).pk
          (fromTableKey described.keySchema).rk) = true
      · simp only [hguard, if_true] at h
        cases h
      · simpa [TransactItem.reducible, hcondition] using hguard

end Builders

theorem isOk_iff {α : Type} {x : Except Error α} : x.isOk = true ↔ ∃ a, x = .ok a := by
  cases x with
  | ok a => simp [Except.isOk, Except.toBool]
  | error e => simp [Except.isOk, Except.toBool]

/-- The builders turn down what does not name a single item, all but that of
EXISTS. -/
theorem reducible_of_built {access : TransactAccess} {a : Attempt} {base : ResolvedKeySchema}
    (hbuilt : a.built access = true) (hpinned : a.existsPinned access = true)
    (hbase : a.base = .ok base) : a.item.reducible access base = true := by
  obtain ⟨item, described, counter⟩ := a
  cases described with
  | error e => cases hbase
  | ok described =>
      cases hbase
      obtain ⟨entries, hentries⟩ := isOk_iff.mp hbuilt
      cases access with
      | read =>
          obtain ⟨gets, hgets, -⟩ := map_eq_ok hentries
          cases item with
          | select cmd =>
              obtain ⟨get, hget, -⟩ := map_eq_ok hgets
              exact getItem_of_buildTransactGet hget
          | insert cmd => cases hgets
          | update cmd => cases hgets
          | delete cmd => cases hgets
          | placeholder => cases hgets
      | write =>
          obtain ⟨items, hitems, -⟩ := map_eq_ok hentries
          cases item with
          | insert cmd => rfl
          | select cmd => exact hpinned
          | update cmd =>
              obtain ⟨update, hupdate, -⟩ := map_eq_ok hitems
              exact pinned_of_buildTransactUpdate hupdate
          | delete cmd =>
              obtain ⟨delete, hdelete, -⟩ := map_eq_ok hitems
              exact pinned_of_buildTransactDelete hdelete
          | placeholder => cases hitems

/-- An EXISTS without the full key names no single item. -/
theorem irreducible_of_unpinned {access : TransactAccess} {a : Attempt}
    (h : a.existsPinned access = false) :
    ∃ base, a.base = .ok base ∧ a.item.reducible access base = false := by
  obtain ⟨item, described, counter⟩ := a
  cases access with
  | read => cases h
  | write =>
      cases item with
      | select cmd =>
          cases described with
          | error e => cases h
          | ok described => exact ⟨_, rfl, h⟩
      | insert cmd => cases h
      | update cmd => cases h
      | delete cmd => cases h
      | placeholder => cases h

/-- The whole transaction or nothing of it: the run sends the request exactly
when it commits, and never with a statement that names no single item. -/
def AllOrNothing (cmd : TransactCmd) (attempts : List Attempt) (events : List RunEvent) : Prop :=
  TransactRun cmd attempts events ∧ ∀ a ∈ attempts, ∀ base, a.base = .ok base →
    a.item.reducible cmd.access base = false → sent events = []

/-- A run is all or nothing exactly when it does not commit an EXISTS or NOT
EXISTS without the full key. -/
theorem transaction_all_or_nothing (cmd : TransactCmd) (counter : Nat) (events : List RunEvent)
    (ending : Ending Unit) (counter' : Nat)
    (h : Runs (executeTransact cmd false) counter events (ending, counter')) :
    ∃ attempts, TransactRun cmd attempts events ∧
      (AllOrNothing cmd attempts events ↔
        (Commits cmd attempts → ∀ a ∈ attempts, a.existsPinned cmd.access = true)) := by
  obtain ⟨attempts, hrun⟩ := runs_executeTransact h
  refine ⟨attempts, hrun, ?_, ?_⟩
  · rintro ⟨-, hirreducible⟩ hcommits a ha
    cases hpinned : a.existsPinned cmd.access with
    | true => rfl
    | false =>
        obtain ⟨base, hbase, hreducible⟩ := irreducible_of_unpinned hpinned
        exact absurd (hirreducible a ha base hbase hreducible) (hrun.sent_iff.mpr hcommits)
  · intro hpinned
    refine ⟨hrun, ?_⟩
    intro a ha base hbase hirreducible
    by_contra hsent
    have hcommits := hrun.sent_iff.mp hsent
    have hreducible := reducible_of_built (hcommits.2.2.2 a ha) (hpinned hcommits a ha) hbase
    rw [hirreducible] at hreducible
    cases hreducible

/-- `BEGIN; EXISTS SELECT * FROM t WHERE name = 1; COMMIT;` -/
def existsTransaction (name : String) : TransactCmd where
  access := .write
  items := [.select {
    table := "t"
    condition := some ⟨.leaf false false ⟨name, .comparison .equal (.N "1")⟩⟩
    existsMode := .exists }]

/-- A client that describes every table with the partition key `a` and answers
nothing else. -/
def keyedByA (_ : Unit) : (op : Effect) → Effect.Answer op × Unit
  | .client (.describeTable _) => (.ok { keySchema := ⟨["a"], []⟩ }, ())
  | .client (.transactWriteItems _) => (.ok (), ())
  | .client _ => (.error ⟨.internalError, ""⟩, ())
  | .emit _ => ((), ())

/-- Played against that client. -/
def existsEvents (name : String) : List RunEvent :=
  ((executeTransact (existsTransaction name) false 0).runWith keyedByA ()).1

theorem runs_existsEvents (name : String) :
    Runs (executeTransact (existsTransaction name) false) 0 (existsEvents name) (.ok (), 1) :=
  Program.runs_runWith keyedByA (executeTransact (existsTransaction name) false 0) ()

/-- `EXISTS SELECT * FROM t WHERE b = 1` is sent, with an empty key. -/
theorem existsWithoutKey_sent :
    Runs (executeTransact (existsTransaction "b") false) 0 (existsEvents "b") (.ok (), 1) ∧
      ¬ ∃ attempts, AllOrNothing (existsTransaction "b") attempts (existsEvents "b") := by
  refine ⟨runs_existsEvents "b", ?_⟩
  rintro ⟨attempts, hrun, hirreducible⟩
  have hsent : sent (existsEvents "b") ≠ [] := nofun
  obtain ⟨-, -, hitems, hbuilt⟩ := hrun.sent_iff.mp hsent
  obtain ⟨request, hcalls, -⟩ := hrun.calls
  obtain ⟨⟨item, described, counter⟩, rfl, hitem⟩ := List.map_eq_singleton_iff.mp hitems
  cases hitem
  cases hcalls
  exact hsent (hirreducible _ (List.mem_singleton_self _) ⟨["a"], []⟩ rfl rfl)

/-- With the key in its clause the same transaction is all or nothing. -/
theorem existsWithKey_all_or_nothing :
    ∃ attempts, AllOrNothing (existsTransaction "a") attempts (existsEvents "a") := by
  obtain ⟨attempts, hrun, hiff⟩ := transaction_all_or_nothing _ _ _ _ _ (runs_existsEvents "a")
  refine ⟨attempts, hiff.mpr ?_⟩
  rintro ⟨-, -, hitems, -⟩ a ha
  obtain ⟨request, hcalls, -⟩ := hrun.calls
  obtain ⟨⟨item, described, counter⟩, rfl, hitem⟩ := List.map_eq_singleton_iff.mp hitems
  cases hitem
  cases hcalls
  rw [List.mem_singleton.mp ha]
  rfl

end DdbShell
