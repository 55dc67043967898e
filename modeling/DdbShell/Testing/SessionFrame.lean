import DdbShell.Cli.RunSource
import DdbShell.Session
import DdbShell.Testing.MemoryTables

/-!
A session against the in-memory client. A statement leaves every table alone
but the one that it writes, so whatever the lines of a source make the shell
do, the tables that none of its statements writes are what they were.
-/

namespace DdbShell

open Exec (Always)

/-- The table that a call writes. -/
def ClientCall.target : ClientCall → Option String
  | .putItem request => some request.tableName
  | .updateItem request => some request.tableName
  | .deleteItem request => some request.tableName
  | .createTable request => some request.tableName
  | .deleteTable table => some table
  | _ => none

/-- The table that a statement writes in the in-memory client, which has no
transactions and nothing of a table but its items. -/
def Explainable.target : Explainable → Option String
  | .insert cmd => some cmd.tableName
  | .update cmd => some cmd.table
  | .delete cmd => some cmd.table
  | .dropTable cmd => some cmd.table
  | .createTable cmd => some cmd.tableName
  | _ => none

/-- An explained statement writes nothing. -/
def ParsedStatement.target (statement : ParsedStatement) : Option String :=
  match statement.command with
  | .explainable cmd => if statement.explain then none else cmd.target
  | _ => none

/-- What is permitted to a statement writes no table but its own. -/
theorem target_of_permits {statement : Explainable} {call : ClientCall}
    (h : statement.permits call) : call.target = none ∨ call.target = statement.target := by
  cases call with
  | putItem request => cases statement <;> first | exact .inr (congrArg some h) | exact h.elim
  | updateItem request => cases statement <;> first | exact .inr (congrArg some h) | exact h.elim
  | deleteItem request => cases statement <;> first | exact .inr (congrArg some h) | exact h.elim
  | createTable request => cases statement <;> first | exact .inr (congrArg some h) | exact h.elim
  | deleteTable table => cases statement <;> first | exact .inr (congrArg some h) | exact h.elim
  | _ => exact .inl rfl

theorem target_of_quiet {call : ClientCall} (h : call.mutating = false) : call.target = none := by
  cases call <;> first | rfl | cases h

theorem target_of_statement {statement : ParsedStatement} {call : ClientCall}
    (h : (Effect.client call).ofStatement statement) :
    call.target = none ∨ call.target = statement.target := by
  obtain ⟨command, explain⟩ := statement
  cases command with
  | empty => exact h.elim
  | quit => exact h.elim
  | showVersion => exact h.elim
  | help topic => exact h.elim
  | connect cmd =>
      obtain rfl : call = .connect cmd.region cmd.endpoint := h
      exact .inl rfl
  | showTables cmd =>
      rcases h with rfl | ⟨name, rfl | rfl⟩ <;> exact .inl rfl
  | showBackups cmd =>
      obtain ⟨request, rfl⟩ := h
      exact .inl rfl
  | showLimits =>
      rcases h with rfl | rfl | ⟨name, rfl⟩ <;> exact .inl rfl
  | showCreateTable cmd =>
      rcases h with rfl | rfl <;> exact .inl rfl
  | explainable cmd =>
      cases explain with
      | false => exact target_of_permits h
      | true =>
          rcases h with ⟨request, rfl⟩ | ⟨-, hquiet⟩
          · exact .inl rfl
          · exact .inl (target_of_quiet hquiet)

namespace MemoryClient

variable {order : NumberOrder} {m m' : MemoryClient} {name : String}

theorem Change.getElem?_of_target {call : ClientCall} (h : Change m call m')
    (hname : call.target ≠ some name) : m'[name]? = m[name]? := by
  have hne : ∀ {table : String}, (some table : Option String) ≠ some name → table ≠ name :=
    fun htarget heq => htarget (congrArg some heq)
  cases h with
  | same _ _ => rfl
  | put known => simp [Std.TreeMap.getElem?_insert, hne hname]
  | update known admits => simp [Std.TreeMap.getElem?_insert, hne hname]
  | delete known => simp [Std.TreeMap.getElem?_insert, hne hname]
  | create => simp [Std.TreeMap.getElem?_insert, hne hname]
  | drop => simp [Std.TreeMap.getElem?_erase, hne hname]

variable (order)

/-- The client as the one that answers; what is emitted goes elsewhere. -/
def serve (m : MemoryClient) : (op : Effect) → op.Answer × MemoryClient
  | .client call => m.reply order call
  | .emit _ => ((), m)

/-- A statement leaves the tables alone that it does not write. -/
theorem play_getElem? {statement : ParsedStatement} {run : Exec Unit}
    (hrun : Always (Effect.ofStatement statement) run) (hname : statement.target ≠ some name)
    (counter : Nat) (m : MemoryClient) :
    (Exec.play (serve order) run counter m).2.2[name]? = m[name]? := by
  refine Program.Always.runWith_keeps (I := fun m' => m'[name]? = m[name]?) ?_ (hrun counter) rfl
  intro m' op hop hm'
  cases op with
  | emit outcome => exact hm'
  | client call =>
      refine ((reply_change order m' call).getElem?_of_target ?_).trans hm'
      rcases target_of_statement hop with htarget | htarget
      · rw [htarget]
        exact nofun
      · rw [htarget]
        exact hname

end MemoryClient

/-! ### Batches and sources -/

section Batch

variable {Statement σ : Type} {engine : Engine Statement σ} {I : σ → Prop}

/-- What every statement keeps of the session, executing some of them keeps. -/
theorem runStatements_keeps (doubleText : Double → String) (abortOnError : Bool)
    {statements : List Statement}
    (hexecute : ∀ statement ∈ statements, ∀ s, I s → I (engine.execute s statement).2)
    (status : BatchStatus) {shell : Shell σ} (hs : I shell.session) :
    I (runStatements doubleText engine abortOnError statements status shell).2.session := by
  induction statements generalizing status shell with
  | nil => exact hs
  | cons statement rest ih =>
      have hnext := hexecute statement List.mem_cons_self shell.session hs
      have hrest := ih fun s hs => hexecute s (List.mem_cons_of_mem _ hs)
      rw [runStatements]
      split
      · next fragments outcome session hexecuted =>
          rw [hexecuted] at hnext
          split
          · split
            · exact hnext
            · exact hrest _ hnext
          · split
            · exact hnext
            · exact hrest _ hnext

theorem runBatchText_keeps (doubleText : Double → String) (abortOnError : Bool) {text : String}
    (hexecute : ∀ statement ∈ (engine.parseBatch text).statements, ∀ s, I s →
      I (engine.execute s statement).2) {shell : Shell σ} (hs : I shell.session) :
    I (runBatchText doubleText engine abortOnError text shell).2.session := by
  have hbatch := runStatements_keeps doubleText abortOnError hexecute {} hs
  unfold runBatchText
  dsimp only
  split
  · exact hbatch
  · split <;> exact hbatch

theorem SourceState.ranBuffer_keeps {runBatch : String → Shell σ → BatchStatus × Shell σ}
    {st next : SourceState σ} {status : BatchStatus} (hran : st.ranBuffer runBatch = (status, next))
    (hkeeps : I st.shell.session → I (runBatch st.buffer st.shell).2.session)
    (hs : I st.shell.session) : I next.shell.session := by
  cases hran
  exact hkeeps hs

/-- What every batch that is run keeps of the session, the loop over a source
keeps. -/
theorem runSource_keeps {runBatch : String → Shell σ → BatchStatus × Shell σ}
    (lines : List String) {st : SourceState σ}
    (hbatch : ∀ text ∈ textsOf (runSource runBatch lines st).events, ∀ shell, I shell.session →
      I (runBatch text shell).2.session)
    (hs : I st.shell.session) : I (runSource runBatch lines st).final.shell.session := by
  fun_induction runSource runBatch lines st with
  | case1 st hbuffer => exact hs
  | case2 st hbuffer status next hran =>
      exact SourceState.ranBuffer_keeps hran (hbatch st.buffer (by simp) st.shell) hs
  | case3 line rest st term hdirective ih => exact ih hbatch hs
  | case4 line rest st hnone hterm hbuffer ih => exact ih hbatch hs
  | case5 line rest st hnone hterm hbuffer status next hran hstops =>
      exact SourceState.ranBuffer_keeps hran (hbatch st.buffer (by simp) st.shell) hs
  | case6 line rest st hnone hterm hbuffer status next hran hgoes ih =>
      have hnext := SourceState.ranBuffer_keeps hran (hbatch st.buffer (by simp) st.shell) hs
      refine ih (fun text htext => hbatch text ?_) hnext
      simp [htext]
  | case7 line rest st hnone hterm ih => exact ih hbatch hs

end Batch

section Session

variable (doubleText : Double → String) (order : NumberOrder) (env : SessionEnv) (budget : Nat)
  (parseBatch : String → ParsedBatch ParsedStatement) (abortOnError : Bool)

/-- A session on the in-memory client. -/
def memoryEngine : Engine ParsedStatement (SessionState MemoryClient) :=
  Session.engine env budget parseBatch (MemoryClient.serve order)

theorem memoryEngine_getElem? {statement : ParsedStatement} {name : String}
    (hname : statement.target ≠ some name) (s : SessionState MemoryClient) :
    ((memoryEngine order env budget parseBatch).execute s statement).2.client[name]? =
      s.client[name]? := by
  have hplay := MemoryClient.play_getElem? order
    (ofStatement_execute env budget s.config statement) hname s.counter s.client
  unfold memoryEngine Session.engine Exec.stream
  dsimp only
  generalize Exec.play (MemoryClient.serve order) _ s.counter s.client = played at hplay ⊢
  obtain ⟨events, ⟨ending, counter⟩, m⟩ := played
  cases ending <;> exact hplay

/-- A source leaves every table as it is that no statement of its batches
writes. -/
theorem source_frame {name : String} (lines : List String)
    {st : SourceState (SessionState MemoryClient)}
    (h : ∀ text ∈ textsOf (runSource (runBatchText doubleText
      (memoryEngine order env budget parseBatch) abortOnError) lines st).events,
        ∀ statement ∈ (parseBatch text).statements, statement.target ≠ some name) :
    (runSource (runBatchText doubleText (memoryEngine order env budget parseBatch) abortOnError)
      lines st).final.shell.session.client[name]? = st.shell.session.client[name]? := by
  let I : SessionState MemoryClient → Prop := fun s =>
    s.client[name]? = st.shell.session.client[name]?
  refine runSource_keeps (I := I) lines (fun text htext shell hshell => ?_) rfl
  refine runBatchText_keeps (I := I) doubleText abortOnError ?_ hshell
  intro statement hstatement s hs
  have hname := h text htext statement hstatement
  exact (memoryEngine_getElem? order env budget parseBatch hname s).trans hs

end Session

/-- No texts, and no pattern that is one. -/
def bareEnv : SessionEnv where
  helpText := fun _ => ""
  version := ""
  patterns := fun _ => .error ""

theorem source_frame_members :
    let parseBatch : String → ParsedBatch ParsedStatement := fun _ => {
      statements := [⟨.explainable (.dropTable { table := "members" }), true⟩,
        ⟨.explainable (.delete { table := "books" }), false⟩, ⟨.showTables {}, false⟩] }
    let members : MemoryTable := { name := "members", schema := ⟨["k"], []⟩ }
    let st : SourceState (SessionState MemoryClient) := {
      term := {}
      shell := { session := { client := (∅ : MemoryClient).insert "members" members } } }
    (runSource (runBatchText (fun _ => "") (memoryEngine digitOrder bareEnv 1 parseBatch) false)
      ["EXPLAIN DROP TABLE members; DELETE FROM books; SHOW TABLES;"]
        st).final.shell.session.client["members"]? = st.shell.session.client["members"]? := by
  intro parseBatch members st
  refine source_frame (fun _ => "") digitOrder bareEnv 1 parseBatch false _ ?_
  intro text _ statement hstatement
  simp only [parseBatch, List.mem_cons, List.not_mem_nil, or_false] at hstatement
  rcases hstatement with rfl | rfl | rfl <;> decide

end DdbShell
