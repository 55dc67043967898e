import DdbShell.Aws.Conveys
import DdbShell.Execute.AllOrNothing
import DdbShell.Execute.Lookups

/-!
The items an INSERT or REPLACE sends. Every row becomes the list of its columns
with its values, in a run of its own and in a transaction alike, and the seam
makes a map of it. Nothing looks at the names of the columns on the way.
-/

namespace DdbShell

open Exec

namespace InsertCmd

/-- A row, column by column. -/
def written (cmd : InsertCmd) (row : List Value) : ValueMap := cmd.columns.zip row

end InsertCmd

/-- The item of a PutItem call. -/
def RunEvent.putItem? : RunEvent → Option ValueMap
  | ⟨.client (.putItem request), _⟩ => some request.item
  | _ => none

def writtenItems (events : List RunEvent) : List ValueMap := events.filterMap RunEvent.putItem?

theorem makePutRequest_item (cmd : InsertCmd) (pk : String) (row : List Value) (counter : Nat) :
    ∃ request counter', makePutRequest cmd pk row counter = .done (.ok request, counter') ∧
      request.item = cmd.written row := by
  rw [makePutRequest_done]
  split
  · exact ⟨_, _, rfl, rfl⟩
  · exact ⟨_, _, rfl, rfl⟩

/-! ### A statement of its own -/

/-- One row: a PutItem, its token, and the rows after it, or the end. -/
theorem insertRows_cons (cmd : InsertCmd) (pk : String) (row : List Value)
    (rows : List (List Value)) (counter : Nat) :
    ∃ request counter', request.item = cmd.written row ∧
      ∃ next : Except Error (ClientCall.putItem request).Out → Action (Ending Unit × Nat),
        insertRows cmd pk (row :: rows) counter = .call (.client (.putItem request)) next ∧
          (∀ e, next (.error e) = .done (.error e, counter')) ∧
          ∀ out, ∃ outcome, next (.ok out) =
            .call (.emit outcome) fun _ => insertRows cmd pk rows counter' := by
  obtain ⟨request, counter', hput, hitem⟩ := makePutRequest_item cmd pk row counter
  have hcall : ∃ next : Except Error (ClientCall.putItem request).Out → Action (Ending Unit × Nat),
      insertRows cmd pk (row :: rows) counter = .call (.client (.putItem request)) next ∧
        (∀ e, next (.error e) = .done (.error e, counter')) ∧
        ∀ out, ∃ outcome, next (.ok out) =
          .call (.emit outcome) fun _ => insertRows cmd pk rows counter' := by
    refine ⟨_, (bind_of_done hput).trans rfl, ?_, ?_⟩
    · intro e
      rfl
    · intro out
      exact ⟨_, rfl⟩
  exact ⟨request, counter', hitem, hcall⟩

/-- The rows are written in order, up to the first that fails. -/
theorem writtenItems_insertRows {cmd : InsertCmd} {pk : String} {rows : List (List Value)}
    {counter : Nat} {events : List RunEvent} {result : Ending Unit × Nat}
    (h : Runs (insertRows cmd pk rows) counter events result) :
    writtenItems events <+: rows.map cmd.written := by
  induction rows generalizing counter events with
  | nil =>
      obtain ⟨rfl, -⟩ := runs_pure h
      exact List.nil_prefix
  | cons row rows ih =>
      obtain ⟨request, counter', hitem, next, hcall, herror, hok⟩ :=
        insertRows_cons cmd pk row rows counter
      rw [Runs, hcall] at h
      obtain ⟨answer, rest, rfl, hrest⟩ := Program.runs_call h
      have hput : ∀ tail, writtenItems (⟨.client (.putItem request), answer⟩ :: tail) =
          cmd.written row :: writtenItems tail := by
        intro tail
        rw [writtenItems, List.filterMap_cons_some (show RunEvent.putItem? _ = some _ from rfl),
          hitem]
        rfl
      rw [hput, List.map_cons, List.cons_prefix_cons]
      refine ⟨rfl, ?_⟩
      cases answer with
      | error e =>
          rw [herror] at hrest
          obtain ⟨rfl, -⟩ := Program.runs_done hrest
          exact List.nil_prefix
      | ok out =>
          obtain ⟨outcome, hnext⟩ := hok out
          rw [hnext] at hrest
          obtain ⟨_, rest', rfl, hrest'⟩ := Program.runs_call hrest
          have htail := ih hrest'
          exact htail

/-- If every PutItem succeeds, every row is written. -/
theorem exists_insertRows (cmd : InsertCmd) (pk : String) (rows : List (List Value))
    (counter : Nat) :
    ∃ events result, Runs (insertRows cmd pk rows) counter events result ∧
      writtenItems events = rows.map cmd.written := by
  induction rows generalizing counter with
  | nil => exact ⟨[], _, .done _, rfl⟩
  | cons row rows ih =>
      obtain ⟨request, counter', hitem, next, hcall, -, hok⟩ :=
        insertRows_cons cmd pk row rows counter
      obtain ⟨outcome, hnext⟩ := hok ({} : WriteOut)
      obtain ⟨events, result, hrun, hwritten⟩ := ih counter'
      refine ⟨⟨.client (.putItem request), .ok ({} : WriteOut)⟩ :: ⟨.emit outcome, ()⟩ :: events,
        result, ?_, ?_⟩
      · rw [Runs, hcall]
        refine .call ?_
        rw [hnext]
        exact .call hrun
      · rw [List.map_cons, ← hwritten, ← hitem]
        rfl

/-- Any call but a PutItem. -/
def Effect.noPut : Effect → Prop
  | .client (.putItem _) => False
  | _ => True

theorem writtenItems_insertPartitionKey {cmd : InsertCmd} {counter : Nat}
    {events : List RunEvent} {result : Ending String × Nat}
    (h : Runs (insertPartitionKey cmd) counter events result) : writtenItems events = [] := by
  have halways : Always Effect.noPut (insertPartitionKey cmd) :=
    always_insertPartitionKey trivial
  apply List.filterMap_eq_nil_iff.mpr
  rintro ⟨op, answer⟩ hevent
  have hop := (halways counter).runs h _ hevent
  cases op with
  | emit outcome => rfl
  | client call => cases call <;> first | rfl | cases hop

/-- On a table that can be described the rows come next. -/
theorem exists_insertPartitionKey {cmd : InsertCmd} (hvalid : validateInsertRows cmd = .ok ()) :
    ∃ events, Runs (insertPartitionKey cmd) 0 events (.ok "id", 0) := by
  have hkey : insertPartitionKey cmd = resolveKeySchema cmd.tableName "" >>= fun schema =>
      pure (schema.pk.headD "") := by
    rw [insertPartitionKey, hvalid]
    rfl
  let described : DescribeTableOut := { keySchema := ⟨["id"], []⟩ }
  rw [hkey]
  exact ⟨[⟨.client (.describeTable cmd.tableName), .ok described⟩], .call (.done _)⟩

/-- The puts of a run, in the order of the rows. -/
theorem writtenItems_executeInsert {cmd : InsertCmd} {counter : Nat} {events : List RunEvent}
    {result : Ending Unit × Nat} (h : Runs (executeInsertStreaming cmd) counter events result) :
    writtenItems events <+: cmd.rows.map cmd.written := by
  rcases runs_bind h with
    ⟨before, pk, middle, after, rfl, hkey, hrows⟩ | ⟨e, middle, rfl, hkey⟩ | ⟨middle, rfl, hkey⟩
  · rw [writtenItems, List.filterMap_append, ← writtenItems, ← writtenItems,
      writtenItems_insertPartitionKey hkey, List.nil_append]
    exact writtenItems_insertRows hrows
  · rw [writtenItems_insertPartitionKey hkey]
    exact List.nil_prefix
  · rw [writtenItems_insertPartitionKey hkey]
    exact List.nil_prefix

/-- With a table that can be described and every PutItem successful, every row
is written. -/
theorem exists_executeInsert {cmd : InsertCmd} (hvalid : validateInsertRows cmd = .ok ()) :
    ∃ events result, Runs (executeInsertStreaming cmd) 0 events result ∧
      writtenItems events = cmd.rows.map cmd.written := by
  obtain ⟨before, hkey⟩ := exists_insertPartitionKey hvalid
  obtain ⟨after, result, hrows, hwritten⟩ := exists_insertRows cmd "id" cmd.rows 0
  refine ⟨before ++ after, result, hkey.bind hrows, ?_⟩
  rw [writtenItems, List.filterMap_append, ← writtenItems, ← writtenItems,
    writtenItems_insertPartitionKey hkey, List.nil_append, hwritten]

/-! ### In a transaction -/

theorem rowPuts_items (cmd : InsertCmd) (pk : String) (rows : List (List Value))
    (counter : Nat) :
    (rowPuts cmd pk counter rows).map TransactPut.item = rows.map cmd.written := by
  induction rows generalizing counter with
  | nil => rfl
  | cons row rows ih =>
      rw [rowPuts]
      split
      · rw [List.map_cons, List.map_cons, ih]
        rfl
      · rw [List.map_cons, List.map_cons, ih]
        rfl

theorem putEntries_items {cmd : InsertCmd} {described : Except Error DescribeTableOut}
    {counter : Nat} {puts : List TransactPut} (h : putEntries cmd described counter = .ok puts) :
    puts.map TransactPut.item = cmd.rows.map cmd.written := by
  unfold putEntries at h
  obtain ⟨schema, -, h⟩ := bind_eq_ok h
  obtain ⟨_, -, h⟩ := bind_eq_ok h
  cases h
  exact rowPuts_items cmd _ cmd.rows counter

theorem execTransactPuts_items {cmd : InsertCmd} {counter counter' : Nat}
    {events : List RunEvent} {puts : List TransactPut}
    (h : Runs (execTransactPuts cmd) counter events (.ok puts, counter')) :
    puts.map TransactPut.item = cmd.rows.map cmd.written := by
  obtain ⟨described, -, hending⟩ := buildsAs_execTransactPuts cmd _ _ _ _ h
  cases hbuilt : putEntries cmd described counter with
  | error e =>
      rw [hbuilt] at hending
      cases hending
  | ok puts' =>
      rw [hbuilt] at hending
      cases hending
      exact putEntries_items hbuilt

/-! ### What is sent is what was written -/

section Sent

variable (base64Decode : String → List UInt8)

namespace InsertCmd

/-- The items are, row by row, maps that bind every column to its value and
nothing else. -/
def Binds (cmd : InsertCmd) (items : List ValueMap) : Prop :=
  ∀ (i : Nat) (item : ValueMap), items[i]? = some item → ∃ row, cmd.rows[i]? = some row ∧
    ConveysItem base64Decode (cmd.written row) (toSdkItem base64Decode item)

/-- Every row has a map that binds its columns to their values. -/
def Possible (cmd : InsertCmd) : Prop :=
  ∀ row ∈ cmd.rows, ∃ m, ConveysItem base64Decode (cmd.written row) m

/-- What is sent is what was written, and a statement that no map can carry is
turned down before it writes anything. -/
structure SendsWritten (cmd : InsertCmd) : Prop where
  standalone : cmd.Possible base64Decode → ∀ counter events result,
    Runs (executeInsertStreaming cmd) counter events result →
      cmd.Binds base64Decode (writtenItems events)
  transaction : cmd.Possible base64Decode → ∀ counter events puts counter',
    Runs (execTransactPuts cmd) counter events (.ok puts, counter') →
      puts.length = cmd.rows.length ∧ cmd.Binds base64Decode (puts.map TransactPut.item)
  rejected : ¬ cmd.Possible base64Decode → ∀ counter events ending counter',
    Runs (executeInsertStreaming cmd) counter events (ending, counter') →
      writtenItems events = [] ∧ ∃ e, ending = .error e
  rejectedInTransaction : ¬ cmd.Possible base64Decode → ∀ counter events ending counter',
    Runs (execTransactPuts cmd) counter events (ending, counter') → ∃ e, ending = .error e

/-- No text has a NUL, and columns of one name agree on their value. -/
def Unambiguous (cmd : InsertCmd) : Prop :=
  ∀ row ∈ cmd.rows, Value.NulFree (.M (cmd.written row)) ∧
    ∀ e ∈ cmd.written row, ∀ f ∈ cmd.written row, e.1 = f.1 → Agree base64Decode e.2 f.2

end InsertCmd

end Sent

variable {base64Decode : String → List UInt8} {cmd : InsertCmd}

namespace InsertCmd

theorem Unambiguous.conveysItem (h : cmd.Unambiguous base64Decode) {row : List Value}
    (hrow : row ∈ cmd.rows) :
    ConveysItem base64Decode (cmd.written row) (toSdkItem base64Decode (cmd.written row)) :=
  (conveysItem_toSdkItem_iff _).mpr (h row hrow)

theorem Unambiguous.possible (h : cmd.Unambiguous base64Decode) : cmd.Possible base64Decode :=
  fun _ hrow => ⟨_, h.conveysItem hrow⟩

theorem Unambiguous.binds (h : cmd.Unambiguous base64Decode) {items : List ValueMap}
    (hitems : items <+: cmd.rows.map cmd.written) : cmd.Binds base64Decode items := by
  intro i item hitem
  have hi : i < items.length := (List.getElem?_eq_some_iff.mp hitem).1
  have hrow := List.prefix_iff_getElem?.mp hitems i hi
  rw [← List.getElem?_eq_getElem hi, hitem, List.getElem?_map, Option.map_eq_some_iff] at hrow
  obtain ⟨row, hrow, rfl⟩ := hrow
  exact ⟨row, hrow, h.conveysItem (List.mem_of_getElem? hrow)⟩

theorem Unambiguous.sendsWritten (h : cmd.Unambiguous base64Decode) :
    cmd.SendsWritten base64Decode where
  standalone _ _ _ _ hrun := h.binds (writtenItems_executeInsert hrun)
  transaction _ _ _ puts _ hrun := by
    have hitems := execTransactPuts_items hrun
    constructor
    · have hlength := congrArg List.length hitems
      rwa [List.length_map, List.length_map] at hlength
    · rw [hitems]
      exact h.binds (List.prefix_refl _)
  rejected hnot := absurd h.possible hnot
  rejectedInTransaction hnot := absurd h.possible hnot

/-- All rows of a statement can be written, so the map of each is at stake. -/
theorem SendsWritten.unambiguous (hvalid : validateInsertRows cmd = .ok ())
    (h : cmd.SendsWritten base64Decode) : cmd.Unambiguous base64Decode := by
  obtain ⟨events, ⟨ending, counter⟩, hrun, hwritten⟩ := exists_executeInsert hvalid
  by_cases hpossible : cmd.Possible base64Decode
  · have hbinds := h.standalone hpossible _ _ _ hrun
    rw [hwritten] at hbinds
    intro row hrow
    obtain ⟨i, hi⟩ := List.mem_iff_getElem?.mp hrow
    obtain ⟨row', hrow', hconveys⟩ :=
      hbinds i (cmd.written row) (by rw [List.getElem?_map, hi, Option.map_some])
    rw [hi] at hrow'
    cases hrow'
    exact (conveysItem_toSdkItem_iff _).mp hconveys
  · have hnothing := (h.rejected hpossible _ _ _ _ hrun).1
    rw [hwritten, List.map_eq_nil_iff] at hnothing
    intro row hrow
    rw [hnothing] at hrow
    cases hrow

end InsertCmd

/-- A statement that passes the check sends what was written, and nothing if
that cannot be, exactly if no text of it has a NUL and no column has two values. -/
theorem insert_sends_written_iff (base64Decode : String → List UInt8) (cmd : InsertCmd)
    (hvalid : validateInsertRows cmd = .ok ()) :
    cmd.SendsWritten base64Decode ↔ cmd.Unambiguous base64Decode :=
  ⟨fun h => h.unambiguous hvalid, fun h => h.sendsWritten⟩

theorem insert_sends_written_pair :
    InsertCmd.SendsWritten Base64.decode
      { tableName := "t", columns := ["id", "n"], rows := [[.S "a", .N "1"]] } := by
  apply (insert_sends_written_iff Base64.decode _ rfl).mpr
  intro row hrow
  rw [List.mem_singleton.mp hrow]
  apply (conveysItem_toSdkItem_iff _).mp
  constructor
  · intro e he
    rcases List.mem_cons.mp he with rfl | he
    · exact ⟨.STRING "a", rfl, rfl⟩
    · rw [List.mem_singleton.mp he]
      exact ⟨.NUMBER "1", rfl, rfl⟩
  · exact fun k hk => hk

/-- One column with two values: the first is sent, and no error says so. -/
theorem insert_sends_first :
    ∃ cmd : InsertCmd, validateInsertRows cmd = .ok () ∧
      cmd.rows.map (fun row => toSdkItem Base64.decode (cmd.written row)) =
        [[("a", .NUMBER "1")]] ∧
      ¬ cmd.SendsWritten Base64.decode := by
  refine ⟨{ tableName := "t", columns := ["a", "a"], rows := [[.N "1", .N "2"]] }, rfl, rfl, ?_⟩
  intro h
  have hclear := h.unambiguous rfl [.N "1", .N "2"] (List.mem_singleton_self _)
  obtain ⟨s, hone, htwo⟩ := hclear.2 ("a", .N "1") List.mem_cons_self ("a", .N "2")
    (List.mem_cons_of_mem _ List.mem_cons_self) rfl
  cases s with
  | NUMBER t =>
      have hsame : "1" = "2" := (show t = "1" from hone).symm.trans htwo
      exact absurd hsame (by decide)
  | _ => cases hone

end DdbShell
