import DdbShell.Testing.SessionFrame

/-!
What a session shows against the in-memory client depends only on the tables
that its statements name, where those that go by the list of the tables name
them all. Two stores that have the same in these tables are played alike: each
call is answered from the tables that it is on, so each statement, each batch
and each source takes the same turns and shows the same.
-/

namespace DdbShell

/-- The in-memory client reads or writes the table to answer the call. -/
def ClientCall.touches : ClientCall → String → Prop
  | .getItem request, table => table = request.tableName
  | .query request, table => table = request.tableName
  | .scan request, table => table = request.tableName
  | .putItem request, table => table = request.tableName
  | .updateItem request, table => table = request.tableName
  | .deleteItem request, table => table = request.tableName
  | .createTable request, table => table = request.tableName
  | .deleteTable name, table => table = name
  | .describeTable name, table => table = name
  | .listTables, _ => True
  | _, _ => False

/-- The statement may have the in-memory client read or write this table. -/
def Explainable.names : Explainable → String → Prop
  | .select cmd, table => table = cmd.table
  | .insert cmd, table => table = cmd.tableName
  | .update cmd, table => table = cmd.table
  | .delete cmd, table => table = cmd.table
  | .transact cmd, table => ∃ item ∈ cmd.items, item.table = some table
  | .dropTable cmd, table => table = cmd.table
  | .describe cmd, table => table = cmd.table
  | .createTable cmd, table => table = cmd.tableName
  | _, _ => False

/-- SHOW TABLES and SHOW LIMITS go by the list of the tables. -/
def ParsedStatement.names (statement : ParsedStatement) (table : String) : Prop :=
  match statement.command with
  | .showTables _ | .showLimits => True
  | .showCreateTable cmd => table = cmd.table
  | .explainable cmd => cmd.names table
  | _ => False

/-- What is permitted to a statement is on its tables. -/
theorem names_of_permits {statement : Explainable} {call : ClientCall}
    (h : statement.permits call) {table : String} (htable : call.touches table) :
    statement.names table := by
  cases call with
  | describeTable name =>
      obtain rfl : table = name := htable
      cases statement with
      | dropTable cmd => exact h.1
      | createTable cmd => exact h.1
      | _ => exact h
  | listTables => cases statement <;> exact h.elim
  | _ =>
      first
      | obtain rfl := htable
        cases statement <;> first | exact h | exact h.elim
      | exact htable.elim

theorem names_of_statement {statement : ParsedStatement} {call : ClientCall}
    (h : (Effect.client call).ofStatement statement) {table : String}
    (htable : call.touches table) : statement.names table := by
  obtain ⟨command, explain⟩ := statement
  cases command with
  | empty => exact h.elim
  | quit => exact h.elim
  | showVersion => exact h.elim
  | help topic => exact h.elim
  | connect cmd =>
      obtain rfl : call = .connect cmd.region cmd.endpoint := h
      exact htable.elim
  | showTables cmd => trivial
  | showBackups cmd =>
      obtain ⟨request, rfl⟩ := h
      exact htable.elim
  | showLimits => trivial
  | showCreateTable cmd =>
      rcases h with rfl | rfl
      · exact htable
      · exact htable.elim
  | explainable cmd =>
      cases explain with
      | false => exact names_of_permits h htable
      | true =>
          rcases h with ⟨request, rfl⟩ | ⟨hpermits, -⟩
          · exact htable.elim
          · exact names_of_permits hpermits htable

theorem touches_of_target {call : ClientCall} {table : String} (h : call.target = some table) :
    call.touches table := by
  cases call <;> first | exact (Option.some.inj h).symm | cases h

namespace MemoryClient

/-- The two stores have the same in these tables. -/
def AgreeOn (tables : String → Prop) (m m' : MemoryClient) : Prop :=
  ∀ table, tables table → m[table]? = m'[table]?

variable {order : NumberOrder} {m m' : MemoryClient}

/-- A write to an item, refused for want of its table or by its condition. -/
def writeItem (m : MemoryClient) (name : String) (check : MemoryTable → Except Error Unit)
    (out : MemoryTable → WriteOut) (written : MemoryTable → MemoryTable) :
    Except Error WriteOut × MemoryClient :=
  match m[name]? with
  | none => (.error (noSuchTable name), m)
  | some t =>
      match check t with
      | .error e => (.error e, m)
      | .ok () => (.ok (out t), m.insert name (written t))

theorem writeItem_congr {name : String} (check : MemoryTable → Except Error Unit)
    (out : MemoryTable → WriteOut) (written : MemoryTable → MemoryTable)
    (h : m[name]? = m'[name]?) :
    (m.writeItem name check out written).1 = (m'.writeItem name check out written).1 ∧
      (m.writeItem name check out written).2[name]? =
        (m'.writeItem name check out written).2[name]? := by
  unfold writeItem
  rw [h]
  cases hknown : m'[name]? with
  | none => exact ⟨rfl, h⟩
  | some t =>
      dsimp only
      cases check t with
      | error e => exact ⟨rfl, h⟩
      | ok _ => exact ⟨rfl, by simp⟩

theorem putItem_congr {request : PutItemIn} (h : m[request.tableName]? = m'[request.tableName]?) :
    (m.putItem request).1 = (m'.putItem request).1 ∧
      (m.putItem request).2[request.tableName]? = (m'.putItem request).2[request.tableName]? :=
  let key (t : MemoryTable) := slotOf t.schema { attributes := request.item }
  writeItem_congr
    (fun t => checkCondition request.conditionExpression (t.find (key t)).isSome)
    (fun t => { attributes := if request.returnValues = .allOld then t.find (key t) else none })
    (fun t => t.putItem (key t) { attributes := request.item }) h

theorem updateItem_congr {request : UpdateItemIn}
    (h : m[request.tableName]? = m'[request.tableName]?) :
    (m.updateItem request).1 = (m'.updateItem request).1 ∧
      (m.updateItem request).2[request.tableName]? =
        (m'.updateItem request).2[request.tableName]? :=
  let key := keyString request.key
  let item (t : MemoryTable) := applyUpdate request.updateExpression
    request.expressionAttributeNames request.expressionAttributeValues
    ((t.find key).getD { attributes := request.key })
  writeItem_congr
    (fun t => checkCondition request.conditionExpression (t.find key).isSome)
    (fun t => {
      attributes :=
        if request.returnValues = .allNew ∨ request.returnValues = .updatedNew then some (item t)
        else none })
    (fun t => t.putItem key (item t)) h

theorem deleteItem_congr {request : DeleteItemIn}
    (h : m[request.tableName]? = m'[request.tableName]?) :
    (m.deleteItem request).1 = (m'.deleteItem request).1 ∧
      (m.deleteItem request).2[request.tableName]? =
        (m'.deleteItem request).2[request.tableName]? :=
  let key := keyString request.key
  writeItem_congr
    (fun t => checkCondition request.conditionExpression (t.find key).isSome)
    (fun t => { attributes := if request.returnValues = .allOld then t.find key else none })
    (fun t => t.eraseItem key) h

theorem createTable_congr {request : CreateTableIn}
    (h : m[request.tableName]? = m'[request.tableName]?) :
    (m.createTable request).1 = (m'.createTable request).1 ∧
      (m.createTable request).2[request.tableName]? =
        (m'.createTable request).2[request.tableName]? := by
  unfold createTable
  rw [h]
  cases hknown : m'[request.tableName]? with
  | none => exact ⟨rfl, by simp⟩
  | some t => exact ⟨rfl, h⟩

theorem deleteTable_congr {table : String} (h : m[table]? = m'[table]?) :
    (m.deleteTable table).1 = (m'.deleteTable table).1 ∧
      (m.deleteTable table).2[table]? = (m'.deleteTable table).2[table]? := by
  unfold deleteTable
  rw [h]
  cases hknown : m'[table]? with
  | none => exact ⟨rfl, h⟩
  | some t => exact ⟨rfl, by simp⟩

theorem alike_at {answered : Prop} {table : String}
    (h : answered ∧ m[table]? = m'[table]?) :
    answered ∧ ∀ name, name = table → m[name]? = m'[name]? :=
  ⟨h.1, fun _ hname => hname ▸ h.2⟩

theorem listTables_congr (h : ∀ table : String, m[table]? = m'[table]?) :
    m.listTables = m'.listTables :=
  (Std.TreeMap.Equiv.of_forall_constGet?_eq h).keys_eq

/-- A call answers from its own tables, and leaves them as only they were. -/
theorem reply_congr (order : NumberOrder) {call : ClientCall}
    (h : ∀ table, call.touches table → m[table]? = m'[table]?) :
    (m.reply order call).1 = (m'.reply order call).1 ∧ ∀ table, call.touches table →
      (m.reply order call).2[table]? = (m'.reply order call).2[table]? := by
  cases call with
  | putItem request => exact alike_at (putItem_congr (h _ rfl))
  | updateItem request => exact alike_at (updateItem_congr (h _ rfl))
  | deleteItem request => exact alike_at (deleteItem_congr (h _ rfl))
  | createTable request => exact alike_at (createTable_congr (h _ rfl))
  | deleteTable name => exact alike_at (deleteTable_congr (h _ rfl))
  | getItem request =>
      refine ⟨?_, h⟩
      change m.getItem request = m'.getItem request
      rw [getItem, getItem, h _ rfl]
  | query request =>
      refine ⟨?_, h⟩
      change m.query order request = m'.query order request
      rw [query, query, h _ rfl]
  | scan request =>
      refine ⟨?_, h⟩
      change m.scan request = m'.scan request
      rw [scan, scan, h _ rfl]
  | describeTable name =>
      refine ⟨?_, h⟩
      change m.describeTable name = m'.describeTable name
      rw [describeTable, describeTable, h _ rfl]
  | listTables => exact ⟨congrArg Except.ok (listTables_congr fun table => h table trivial), h⟩
  | _ => exact ⟨rfl, h⟩

variable {tables : String → Prop} {statement : ParsedStatement}

theorem serve_agree (hnames : ∀ table, statement.names table → tables table) {op : Effect}
    (hop : op.ofStatement statement) (h : AgreeOn tables m m') :
    (serve order m op).1 = (serve order m' op).1 ∧
      AgreeOn tables (serve order m op).2 (serve order m' op).2 := by
  cases op with
  | emit outcome => exact ⟨rfl, h⟩
  | client call =>
      obtain ⟨hanswer, hown⟩ := reply_congr order fun table htable =>
        h table (hnames table (names_of_statement hop htable))
      refine ⟨hanswer, fun table htable => ?_⟩
      by_cases hcall : call.touches table
      · exact hown table hcall
      · -- another table, which the call changes in neither store
        have htarget : call.target ≠ some table := fun ht => hcall (touches_of_target ht)
        have hleft := (reply_change order m call).getElem?_of_target htarget
        have hright := (reply_change order m' call).getElem?_of_target htarget
        exact hleft.trans ((h table htable).trans hright.symm)

end MemoryClient

/-! ### Sessions that are alike -/

section Alike

variable {Statement σ : Type} {engine : Engine Statement σ} {R : σ → σ → Prop}

/-- The same on the console, and sessions that are alike. -/
structure Shell.Alike (R : σ → σ → Prop) (shell shell' : Shell σ) : Prop where
  console : shell.console = shell'.console
  session : R shell.session shell'.session

/-- Statements that show the same in sessions that are alike, and leave them
alike, do so one after the other. -/
theorem runStatements_alike (doubleText : Double → String) (abortOnError : Bool)
    {statements : List Statement}
    (hexecute : ∀ statement ∈ statements, ∀ s s', R s s' →
      (engine.execute s statement).1 = (engine.execute s' statement).1 ∧
        R (engine.execute s statement).2 (engine.execute s' statement).2)
    (status : BatchStatus) {shell shell' : Shell σ} (h : shell.Alike R shell') :
    (runStatements doubleText engine abortOnError statements status shell).1 =
        (runStatements doubleText engine abortOnError statements status shell').1 ∧
      (runStatements doubleText engine abortOnError statements status shell).2.Alike R
        (runStatements doubleText engine abortOnError statements status shell').2 := by
  induction statements generalizing status shell shell' with
  | nil => exact ⟨rfl, h⟩
  | cons statement rest ih =>
      obtain ⟨hshown, hsession⟩ := hexecute statement List.mem_cons_self _ _ h.session
      have hrest := ih fun s hs => hexecute s (List.mem_cons_of_mem _ hs)
      rw [runStatements, runStatements]
      generalize engine.execute shell.session statement = executed at hshown hsession ⊢
      generalize engine.execute shell'.session statement = executed' at hshown hsession ⊢
      obtain ⟨⟨fragments, outcome⟩, session⟩ := executed
      obtain ⟨shown, session'⟩ := executed'
      obtain rfl : (fragments, outcome) = shown := hshown
      dsimp only
      rw [← h.console]
      cases outcome with
      | error e =>
          dsimp only
          split
          · exact ⟨rfl, rfl, hsession⟩
          · exact hrest _ ⟨rfl, hsession⟩
      | ok _ =>
          dsimp only
          split
          · exact ⟨rfl, rfl, hsession⟩
          · exact hrest _ ⟨rfl, hsession⟩

theorem runBatchText_alike (doubleText : Double → String) (abortOnError : Bool) {text : String}
    (hexecute : ∀ statement ∈ (engine.parseBatch text).statements, ∀ s s', R s s' →
      (engine.execute s statement).1 = (engine.execute s' statement).1 ∧
        R (engine.execute s statement).2 (engine.execute s' statement).2)
    {shell shell' : Shell σ} (h : shell.Alike R shell') :
    (runBatchText doubleText engine abortOnError text shell).1 =
        (runBatchText doubleText engine abortOnError text shell').1 ∧
      (runBatchText doubleText engine abortOnError text shell).2.Alike R
        (runBatchText doubleText engine abortOnError text shell').2 := by
  obtain ⟨hstatus, hshell⟩ := runStatements_alike doubleText abortOnError hexecute {} h
  unfold runBatchText
  dsimp only
  rw [← hstatus]
  by_cases hstops : (runStatements doubleText engine abortOnError
      (engine.parseBatch text).statements {} shell).1.stops
  · simp only [if_pos hstops]
    exact ⟨trivial, hshell⟩
  · simp only [if_neg hstops]
    cases (engine.parseBatch text).error with
    | none => exact ⟨rfl, hshell⟩
    | some e => exact ⟨rfl, congrArg (Console.reportError · e) hshell.console, hshell.session⟩

/-- The same batches with the same results, the same exit code, and alike at
the end. -/
structure SourceRun.Alike (R : σ → σ → Prop) (run run' : SourceRun σ) : Prop where
  events : run.events = run'.events
  code : run.code = run'.code
  final : ∃ shell', run'.final = { run.final with shell := shell' } ∧
    run.final.shell.Alike R shell'

theorem SourceRun.Alike.after {run run' : SourceRun σ} (h : run.Alike R run')
    (event : ReplEvent) : (run.after event).Alike R (run'.after event) :=
  ⟨congrArg (event :: ·) h.events, h.code, h.final⟩

theorem SourceState.finish_alike {st : SourceState σ} {shell' : Shell σ}
    (h : st.shell.Alike R shell') : st.finish.Alike R { st with shell := shell' }.finish :=
  ⟨rfl, rfl, shell', rfl, h⟩

theorem SourceState.ranBuffer_alike {runBatch : String → Shell σ → BatchStatus × Shell σ}
    {st next : SourceState σ} {status : BatchStatus} {shell' : Shell σ}
    (hran : st.ranBuffer runBatch = (status, next))
    (hsame : (runBatch st.buffer st.shell).1 = (runBatch st.buffer shell').1 ∧
      (runBatch st.buffer st.shell).2.Alike R (runBatch st.buffer shell').2) :
    ∃ next', { st with shell := shell' }.ranBuffer runBatch =
        (status, { next with shell := next' }) ∧ next.shell.Alike R next' := by
  cases hran
  refine ⟨(runBatch st.buffer shell').2, ?_, hsame.2⟩
  simp only [SourceState.ranBuffer, hsame.1]

/-- The loop over a source takes the same turns from shells that are alike. -/
theorem runSource_alike {runBatch : String → Shell σ → BatchStatus × Shell σ}
    (lines : List String) {st : SourceState σ}
    (hbatch : ∀ text ∈ textsOf (runSource runBatch lines st).events, ∀ shell shell',
      shell.Alike R shell' → (runBatch text shell).1 = (runBatch text shell').1 ∧
        (runBatch text shell).2.Alike R (runBatch text shell').2)
    {shell' : Shell σ} (h : st.shell.Alike R shell') :
    (runSource runBatch lines st).Alike R
      (runSource runBatch lines { st with shell := shell' }) := by
  fun_induction runSource runBatch lines st generalizing shell' with
  | case1 st hbuffer =>
      rw [runSource, if_pos hbuffer]
      exact SourceState.finish_alike h
  | case2 st hbuffer status next hran =>
      obtain ⟨next', hran', halike⟩ :=
        SourceState.ranBuffer_alike hran (hbatch st.buffer (by simp) _ _ h)
      rw [runSource, if_neg hbuffer, hran']
      exact (SourceState.finish_alike halike).after _
  | case3 line rest st term hdirective ih =>
      simp only [runSource, hdirective]
      exact (ih hbatch h).after _
  | case4 line rest st hnone hterm hbuffer ih =>
      simp only [runSource, hnone, if_pos hterm, if_pos hbuffer]
      exact (ih hbatch h).after _
  | case5 line rest st hnone hterm hbuffer status next hran hstops =>
      obtain ⟨next', hran', halike⟩ :=
        SourceState.ranBuffer_alike hran (hbatch st.buffer (by simp) _ _ h)
      simp only [runSource, hnone, if_pos hterm, if_neg hbuffer, hran', if_pos hstops]
      exact ((SourceState.finish_alike halike).after _).after _
  | case6 line rest st hnone hterm hbuffer status next hran hgoes ih =>
      obtain ⟨next', hran', halike⟩ :=
        SourceState.ranBuffer_alike hran (hbatch st.buffer (by simp) _ _ h)
      simp only [runSource, hnone, if_pos hterm, if_neg hbuffer, hran', if_neg hgoes]
      refine ((ih (fun text htext => hbatch text ?_) halike).after _).after _
      simp [htext]
  | case7 line rest st hnone hterm ih =>
      simp only [runSource, hnone, if_neg hterm]
      exact (ih hbatch h).after _

end Alike

section Session

variable (doubleText : Double → String) (order : NumberOrder) (env : SessionEnv) (budget : Nat)
  (parseBatch : String → ParsedBatch ParsedStatement) (abortOnError : Bool)

/-- The same region, endpoint and alias counter, and the same in these tables. -/
structure SessionsAgreeOn (tables : String → Prop) (s s' : SessionState MemoryClient) : Prop where
  config : s.config = s'.config
  counter : s.counter = s'.counter
  client : MemoryClient.AgreeOn tables s.client s'.client

theorem memoryEngine_agree {tables : String → Prop} {statement : ParsedStatement}
    (hnames : ∀ table, statement.names table → tables table) {s s' : SessionState MemoryClient}
    (h : SessionsAgreeOn tables s s') :
    ((memoryEngine order env budget parseBatch).execute s statement).1 =
        ((memoryEngine order env budget parseBatch).execute s' statement).1 ∧
      SessionsAgreeOn tables ((memoryEngine order env budget parseBatch).execute s statement).2
        ((memoryEngine order env budget parseBatch).execute s' statement).2 := by
  obtain ⟨config, counter, m⟩ := s
  obtain ⟨config', counter', m'⟩ := s'
  obtain ⟨rfl, rfl, hagree⟩ : config = config' ∧ counter = counter' ∧
    MemoryClient.AgreeOn tables m m' := ⟨h.config, h.counter, h.client⟩
  have hserve : ∀ m m' op, op.ofStatement statement → MemoryClient.AgreeOn tables m m' →
      (MemoryClient.serve order m op).1 = (MemoryClient.serve order m' op).1 ∧
        MemoryClient.AgreeOn tables (MemoryClient.serve order m op).2
          (MemoryClient.serve order m' op).2 :=
    fun _ _ _ hop hst => MemoryClient.serve_agree hnames hop hst
  have hplay := Program.runWith_agree (ofStatement_execute env budget config statement counter)
    hserve hagree
  unfold memoryEngine Session.engine Exec.stream
  dsimp only
  unfold Exec.play
  generalize Program.runWith (MemoryClient.serve order) _ m = played at hplay ⊢
  generalize Program.runWith (MemoryClient.serve order) _ m' = played' at hplay ⊢
  obtain ⟨events, ⟨ending, counter⟩, m⟩ := played
  obtain ⟨events', ended', m'⟩ := played'
  obtain ⟨rfl, hended, hagree⟩ := hplay
  obtain rfl := hended
  cases ending <;> exact ⟨rfl, rfl, rfl, hagree⟩

/-- A source runs the same on stores that have the same in the tables that its
statements name: the same batches with the same results, all of the same on the
console, the same exit code, and these tables left the same. -/
theorem source_isolated {tables : String → Prop} (lines : List String)
    {st : SourceState (SessionState MemoryClient)}
    (hnames : ∀ text ∈ textsOf (runSource (runBatchText doubleText
      (memoryEngine order env budget parseBatch) abortOnError) lines st).events,
        ∀ statement ∈ (parseBatch text).statements, ∀ table, statement.names table → tables table)
    {shell' : Shell (SessionState MemoryClient)}
    (h : st.shell.Alike (SessionsAgreeOn tables) shell') :
    (runSource (runBatchText doubleText (memoryEngine order env budget parseBatch) abortOnError)
        lines st).Alike (SessionsAgreeOn tables)
      (runSource (runBatchText doubleText (memoryEngine order env budget parseBatch) abortOnError)
        lines { st with shell := shell' }) := by
  refine runSource_alike lines (fun text htext shell shell' hshell => ?_) h
  refine runBatchText_alike doubleText abortOnError ?_ hshell
  intro statement hstatement s s' hs
  exact memoryEngine_agree order env budget parseBatch (hnames text htext statement hstatement) hs

end Session

/-- Rows in another table do not show. -/
theorem source_isolated_loans :
    let parseBatch : String → ParsedBatch ParsedStatement := fun _ => {
      statements := [⟨.explainable (.describe { table := "books" }), false⟩,
        ⟨.explainable (.delete { table := "books" }), true⟩,
        ⟨.explainable (.select { table := "books" }), false⟩, ⟨.quit, false⟩] }
    let books : MemoryTable := { name := "books", schema := ⟨["k"], []⟩ }
    let loans : MemoryTable := { name := "loans", schema := ⟨["k"], []⟩ }
    let store : MemoryClient := (∅ : MemoryClient).insert "books" books
    let run := fun (m : MemoryClient) =>
      runSource (runBatchText (fun _ => "") (memoryEngine digitOrder bareEnv 1 parseBatch) false)
        ["DESCRIBE books; EXPLAIN DELETE FROM books; SELECT * FROM books; QUIT;"]
        { term := {}, shell := { session := { client := m } } }
    (run store).Alike (SessionsAgreeOn (· = "books")) (run (store.insert "loans" loans)) := by
  intro parseBatch books loans store run
  refine source_isolated (fun _ => "") digitOrder bareEnv 1 parseBatch false _ ?_
    ⟨rfl, rfl, rfl, ?_⟩
  · intro text _ statement hstatement table htable
    simp only [parseBatch, List.mem_cons, List.not_mem_nil, or_false] at hstatement
    rcases hstatement with rfl | rfl | rfl | rfl
    · exact htable
    · exact htable
    · exact htable
    · exact htable.elim
  · intro table htable
    obtain rfl : table = "books" := htable
    simp [Std.TreeMap.getElem?_insert]

end DdbShell
