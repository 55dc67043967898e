import Mathlib.Data.Prod.Lex
import Mathlib.Data.String.Basic
import DdbShell.Lib.Sweep
import DdbShell.Execute.Accounting

/-!
A bulk UPDATE against a service that other clients leave alone. Pages are read
from the current content, in the order of the table or index and strictly after
the start key, and every item of a page is written before the next page is
read. The statement is a sweep: it updates each matching item once, whatever
the pages are, unless an update moves its item ahead in the enumerated index.
-/

namespace DdbShell

open Exec Sweep

/-! ### The service -/

namespace WriteReadPlan

def startKey : WriteReadPlan → Option ValueMap
  | .query r => r.exclusiveStartKey
  | .scan r => r.exclusiveStartKey

def indexName : WriteReadPlan → Option String
  | .query r => r.indexName
  | .scan r => r.indexName

@[simp] theorem startKey_startingAt (read : WriteReadPlan) (key : Option ValueMap) :
    (read.startingAt key).startKey = key := by
  cases read <;> rfl

@[simp] theorem startingAt_startingAt (read : WriteReadPlan) (key key' : Option ValueMap) :
    (read.startingAt key).startingAt key' = read.startingAt key' := by
  cases read <;> rfl

def tableName : WriteReadPlan → String
  | .query r => r.tableName
  | .scan r => r.tableName

/-- The key attributes of the index a read goes through. -/
def indexKeys (describe : DescribeTable) (read : WriteReadPlan) : List String :=
  match read.indexName with
  | none => []
  | some index =>
      match getKeySchema describe read.tableName index with
      | .ok schema => schema.pk ++ schema.rk
      | .error _ => []

end WriteReadPlan

/-- What the service makes of reads and updates. Items are stored under their
base-table keys; the start key of a read names a place. -/
structure TableService (π : Type) where
  describe : DescribeTable
  /-- where a read without a start key comes upon an item, if it does -/
  place : WriteReadPlan → ValueMap → Item → Option π
  apart : ∀ {read k l x y p}, place read k x = some p → place read l y = some p → k = l
  /-- an item stands where its key and its index key attributes put it -/
  place_congr : ∀ {read k x y}, (∀ name ∈ read.indexKeys describe, x name = y name) →
    place read k x = place read k y
  /-- the filter keeps the item -/
  returned : WriteReadPlan → ValueMap → Item → Bool
  /-- what the projection leaves of the item -/
  row : WriteReadPlan → ValueMap → Item → ItemRow
  startKey : π → ValueMap
  startKey_ne : ∀ p, startKey p ≠ []
  readKey : ValueMap → π
  readKey_startKey : ∀ p, readKey (startKey p) = p
  update : UpdateItemIn → Option Item → Except Error Item
  output : UpdateItemIn → Option Item → Item → WriteOut
  /-- a row gives the key of its item, or else no key the table accepts -/
  row_key : ∀ read k x, rowKey (row read k x) = k ∨
    ∀ (request : UpdateItemIn) (y : Option Item), request.key = rowKey (row read k x) →
      ∃ e : Error, e.code ≠ .conditionalCheckFailed ∧ update request y = .error e

/-- The content of the table, and how many pages were read so far. -/
structure TableState where
  store : Store ValueMap Item
  pages : Nat := 0

namespace TableService

variable {π : Type} (svc : TableService π)

def reading (read : WriteReadPlan) : Reading ValueMap Item π where
  place := svc.place read
  apart := svc.apart
  returned := svc.returned read

def updateItem (request : UpdateItemIn) (s : TableState) : Except Error WriteOut × TableState :=
  let item := s.store.find request.key
  match svc.update request item with
  | .ok y => (.ok (svc.output request item y), { s with store := s.store.put request.key y })
  | .error e => (.error e, s)

variable [LinearOrder π]

/-- The next page of a read, cut as `cuts` says. -/
def answerPage (cuts : Nat → Cut) (read : WriteReadPlan) (s : TableState) :
    Except Error PageOut × TableState :=
  let reading := svc.reading (read.startingAt none)
  let cursor := read.startKey.map svc.readKey
  let rows := reading.rows (cuts s.pages) cursor s.store
  (.ok {
      items := rows.map fun a => svc.row (read.startingAt none) a.key a.value
      lastEvaluatedKey := (reading.next (cuts s.pages) cursor s.store).map svc.startKey },
    { s with pages := s.pages + 1 })

/-- The service as the client of a statement. A bulk UPDATE makes no other
calls than these. -/
def reply (cuts : Nat → Cut) (s : TableState) : (op : Effect) → op.Answer × TableState
  | .client (.describeTable table) => (svc.describe table, s)
  | .client (.query request) => svc.answerPage cuts (.query request) s
  | .client (.scan request) => svc.answerPage cuts (.scan request) s
  | .client (.updateItem request) => svc.updateItem request s
  | .client _ => (.error ⟨.internalError, ""⟩, s)
  | .emit _ => ((), s)

end TableService

/-- What an update does to an item. A failed condition only leaves it alone. -/
def updateOutcome : Except Error Item → Outcome Item
  | .ok y => .wrote y
  | .error e => if e.code = .conditionalCheckFailed then .refused else .failed

theorem updateOutcome_eq_wrote {answer : Except Error Item} {y : Item} :
    updateOutcome answer = .wrote y ↔ answer = .ok y := by
  cases answer with
  | ok z => simp [updateOutcome]
  | error e =>
      unfold updateOutcome
      dsimp only
      split <;> simp

namespace TableService

variable {π : Type} (svc : TableService π)

/-- A bulk UPDATE as a sweep. -/
def rules (read : WriteReadPlan) (request : UpdateItemIn) : Rules ValueMap Item π where
  toReading := svc.reading read
  write k x :=
    if rowKey (svc.row read k x) = k then
      updateOutcome (svc.update { request with key := k } (some x))
    else .failed

end TableService

/-- The keys of the items that were updated. -/
def updatedKeys (events : List RunEvent) : List ValueMap :=
  (writes events).filterMap fun
    | (.update request, .ok _) => some request.key
    | _ => none

@[simp] theorem updatedKeys_append (before after : List RunEvent) :
    updatedKeys (before ++ after) = updatedKeys before ++ updatedKeys after := by
  rw [updatedKeys, writes_append, List.filterMap_append]
  rfl

/-! ### The statement is a sweep -/

/-- How a sweep ended, as the ending of a statement. -/
def EndsAs {α : Type} (halted : Bool) (ending : Ending α) : Prop :=
  if halted then ∃ e, ending = .error e else ∃ a, ending = .ok a

/-- What was played has written what the sweep wrote. -/
structure Mirrors {α : Type} (played : List RunEvent × (Ending α × Nat) × TableState)
    (pages : Nat) (out : Swept ValueMap Item) : Prop where
  keys : updatedKeys played.1 = out.wrote
  ending : EndsAs out.halted played.2.1.1
  store : played.2.2.store = out.store
  pages : played.2.2.pages = pages

/-- Writes that came before. -/
theorem Mirrors.after {α : Type} {played : List RunEvent × (Ending α × Nat) × TableState}
    {pages : Nat} {out : Swept ValueMap Item} (h : Mirrors played pages out)
    (before : List RunEvent) :
    Mirrors (before ++ played.1, played.2) pages
      { out with wrote := updatedKeys before ++ out.wrote } :=
  ⟨by rw [updatedKeys_append, h.keys], h.ending, h.store, h.pages⟩

theorem EndsAs.ok_iff {α : Type} {halted : Bool} {a : α} :
    EndsAs halted (.ok a) ↔ halted = false := by
  cases halted <;> simp [EndsAs]

theorem EndsAs.error_iff {α : Type} {halted : Bool} {e : Error} :
    EndsAs halted (.error e : Ending α) ↔ halted = true := by
  cases halted <;> simp [EndsAs]

theorem not_endsAs_cut {α : Type} (halted : Bool) : ¬ EndsAs halted (.cut : Ending α) := by
  cases halted <;> simp [EndsAs]

section Simulation

variable {π : Type} [LinearOrder π] (svc : TableService π) (cuts : Nat → Cut)

/-- The answer to one update, and what is left of the statement. -/
theorem play_updateOne (request : UpdateItemIn) (wantRv : Bool) (acct : BulkWriteOutcome)
    (counter : Nat) (s : TableState) :
    play (svc.reply cuts) (writeOne (.update request) wantRv acct) counter s =
      match svc.update request (s.store.find request.key) with
      | .ok y =>
          let out := svc.output request (s.store.find request.key) y
          ([⟨.client (.updateItem request), .ok out⟩], (.ok (acct.wrote wantRv out), counter),
            { s with store := s.store.put request.key y })
      | .error e =>
          ([⟨.client (.updateItem request), .error e⟩],
            (if e.code = .conditionalCheckFailed then .ok acct.failedCondition else .error e,
              counter), s) := by
  have hattempt : play (svc.reply cuts) (attemptWrite (.update request)) counter s =
      ([⟨.client (.updateItem request), (svc.updateItem request s).1⟩],
        (.ok (svc.updateItem request s).1, counter), (svc.updateItem request s).2) := rfl
  rw [writeOne, play_bind, hattempt, TableService.updateItem]
  dsimp only
  cases svc.update request (s.store.find request.key) with
  | ok y => rfl
  | error e =>
      dsimp only
      split <;> rfl

/-- The items of a page are written as the sweep writes its rows. -/
theorem mirrors_writeItems (read : WriteReadPlan) (request : UpdateItemIn) (wantRv : Bool)
    (acct : BulkWriteOutcome) (counter : Nat) (s : TableState) {spots : List (Spot ValueMap Item π)}
    (h : Rules.Listed s.store spots) :
    Mirrors
      (play (svc.reply cuts) (writeItems (.update request) wantRv acct
        (spots.map fun a => svc.row read a.key a.value)) counter s)
      s.pages ((svc.rules read request).writeRows (spots.map Spot.key) s.store) := by
  induction spots generalizing acct s with
  | nil => exact ⟨rfl, ⟨acct, rfl⟩, rfl, rfl⟩
  | cons a spots ih =>
      have hfound := h.found a List.mem_cons_self
      rw [List.map_cons, List.map_cons, writeItems, play_bind, Rules.writeRows, hfound,
        WriteTemplate.keyed, play_updateOne]
      dsimp only [TableService.rules]
      by_cases hkey : rowKey (svc.row read a.key a.value) = a.key
      · rw [if_pos hkey, hkey, hfound]
        cases hupdate : svc.update { request with key := a.key } (some a.value) with
        | ok y =>
            have hstore : s.store.put a.key y = s.store.replace a.key y :=
              Store.put_eq_replace hfound
            dsimp only [updateOutcome]
            rw [hstore]
            exact (ih _ { s with store := s.store.replace a.key y } (h.replaced y)).after [_]
        | error e =>
            dsimp only [updateOutcome]
            by_cases hcode : e.code = .conditionalCheckFailed
            · rw [if_pos hcode, if_pos hcode]
              exact (ih _ s h.tail).after [_]
            · rw [if_neg hcode, if_neg hcode]
              exact ⟨rfl, ⟨e, rfl⟩, rfl, rfl⟩
      · obtain ⟨e, hcode, herror⟩ := (svc.row_key read a.key a.value).resolve_left hkey
          { request with key := rowKey (svc.row read a.key a.value) }
          (s.store.find (rowKey (svc.row read a.key a.value))) rfl
        rw [if_neg hkey, herror]
        dsimp only
        rw [if_neg hcode]
        exact ⟨rfl, ⟨e, rfl⟩, rfl, rfl⟩

/-- A page is read from the content as it is. -/
theorem play_answerPage (read : WriteReadPlan) (counter : Nat) (s : TableState) :
    ∃ event : RunEvent, updatedKeys [event] = [] ∧ ∃ page,
      (svc.answerPage cuts read s).1 = .ok page ∧
      play (svc.reply cuts) (readPage read) counter s =
        ([event], (.ok page, counter), (svc.answerPage cuts read s).2) := by
  cases read with
  | query request => exact ⟨_, rfl, _, rfl, rfl⟩
  | scan request => exact ⟨_, rfl, _, rfl, rfl⟩

/-- A result that is only handed on. -/
theorem Mirrors.bind_pure {α β : Type} {x : Exec α} {f : α → β} {counter pages : Nat}
    {s : TableState} {out : Swept ValueMap Item}
    (h : Mirrors (play (svc.reply cuts) x counter s) pages out) :
    Mirrors (play (svc.reply cuts) (x >>= fun a => pure (f a)) counter s) pages out := by
  rw [play_bind]
  generalize play (svc.reply cuts) x counter s = played at h
  obtain ⟨events, ⟨ending, middle⟩, s'⟩ := played
  cases ending with
  | ok a =>
      have hhalted := EndsAs.ok_iff.mp h.ending
      exact ⟨(congrArg updatedKeys (List.append_nil events)).trans h.keys,
        EndsAs.ok_iff.mpr hhalted, h.store, h.pages⟩
  | error e =>
      have hhalted := EndsAs.error_iff.mp h.ending
      exact ⟨h.keys, EndsAs.error_iff.mpr hhalted, h.store, h.pages⟩
  | cut => exact absurd h.ending (not_endsAs_cut _)

omit [LinearOrder π] in
theorem continuation_startKey (q : Option π) :
    continuation (q.map svc.startKey) = q.map svc.startKey := by
  cases q with
  | none => rfl
  | some q =>
      rw [Option.map_some]
      cases hkey : svc.startKey q with
      | nil => exact absurd hkey (svc.startKey_ne q)
      | cons entry rest => rfl

/-- The outcome of the loop against the outcome of the sweep. -/
def LoopMirrors {α : Type} (played : List RunEvent × (Ending α × Nat) × TableState) :
    Option (Swept ValueMap Item) → Prop
  | none => played.2.1.1 = .cut
  | some out => ∃ pages, Mirrors played pages out

/-- The page loop is the sweep of its read and its request. -/
theorem mirrors_bulkLoop {read : WriteReadPlan} (hread : read.startingAt none = read)
    (request : UpdateItemIn) (wantRv : Bool) (budget : Nat) (cursor : Option π)
    (blocks : List ExplainBlock) (acct : BulkWriteOutcome) (counter : Nat) (s : TableState) :
    LoopMirrors
      (play (svc.reply cuts) (bulkLoop false false read (.update request) wantRv budget
        (cursor.map svc.startKey) blocks acct) counter s)
      ((svc.rules read request).sweep cuts budget s.pages cursor s.store) := by
  induction budget generalizing cursor blocks acct counter s with
  | zero => rfl
  | succ budget ih =>
      have hexplain : play (svc.reply cuts)
          (explainPage false (read.startingAt (cursor.map svc.startKey)) blocks) counter s =
            ([], (.ok blocks, counter), s) := rfl
      obtain ⟨event, hevent, page, hpage, hplay⟩ :=
        play_answerPage svc cuts (read.startingAt (cursor.map svc.startKey)) counter s
      have hcursor : (cursor.map svc.startKey).map svc.readKey = cursor := by
        cases cursor <;> simp [svc.readKey_startKey]
      simp only [TableService.answerPage, WriteReadPlan.startKey_startingAt,
        WriteReadPlan.startingAt_startingAt, hread, hcursor, Except.ok.injEq] at hpage hplay
      rw [bulkLoop, play_bind, hexplain]
      dsimp only
      rw [play_bind, hplay]
      dsimp only
      have hlisted : Rules.Listed s.store ((svc.reading read).rows (cuts s.pages) cursor s.store) :=
        .ofSublist Reading.rows_sublist
      have hitems : Mirrors (play (svc.reply cuts)
          (bulkItems false (.update request) wantRv blocks acct page.items) counter
            { s with pages := s.pages + 1 }) (s.pages + 1)
          ((svc.rules read request).writeRows
            (((svc.rules read request).rows (cuts s.pages) cursor s.store).map Spot.key)
              s.store) := by
        rw [← hpage]
        exact (mirrors_writeItems svc cuts read request wantRv acct counter
          { s with pages := s.pages + 1 } hlisted).bind_pure
      have hnext : continuation page.lastEvaluatedKey =
          ((svc.rules read request).next (cuts s.pages) cursor s.store).map svc.startKey := by
        rw [← hpage]
        exact continuation_startKey svc _
      rw [play_bind, Rules.sweep, hnext]
      generalize (svc.rules read request).writeRows _ s.store = out at hitems ⊢
      generalize play (svc.reply cuts)
        (bulkItems false (.update request) wantRv blocks acct page.items) counter
          { s with pages := s.pages + 1 } = played at hitems ⊢
      obtain ⟨events, ⟨ending, middle⟩, s'⟩ := played
      have hafter := hitems.after [event]
      rw [hevent, List.nil_append] at hafter
      have hkeys : updatedKeys ([event] ++ events) = out.wrote := hafter.keys
      cases ending with
      | cut => exact absurd hitems.ending (not_endsAs_cut _)
      | error e =>
          rw [if_pos (EndsAs.error_iff.mp hitems.ending)]
          exact ⟨_, hafter⟩
      | ok result =>
          have hhalted := EndsAs.ok_iff.mp hitems.ending
          rw [if_neg (by simp [hhalted])]
          cases (svc.rules read request).next (cuts s.pages) cursor s.store with
          | none =>
              refine ⟨_, ?_, hafter.ending, hafter.store, rfl⟩
              show updatedKeys ([event] ++ (events ++ [])) = out.wrote
              rw [List.append_nil, hkeys]
          | some q =>
              have hrest := ih (some q) result.1 result.2 middle s'
              rw [hitems.store, hitems.pages] at hrest
              dsimp only [Option.map_some] at hrest ⊢
              cases hsweep :
                  (svc.rules read request).sweep cuts budget (s.pages + 1) (some q) out.store with
              | none =>
                  rw [hsweep] at hrest
                  exact hrest
              | some rest =>
                  rw [hsweep] at hrest
                  obtain ⟨pages, hrest⟩ := hrest
                  refine ⟨pages, ?_, hrest.ending, hrest.store, hrest.pages⟩
                  show updatedKeys ([event] ++ (events ++ _)) = out.wrote ++ rest.wrote
                  rw [← List.append_assoc, updatedKeys_append, hkeys, hrest.keys]

/-! ### The whole statement -/

/-- A lookup writes nothing. -/
theorem play_resolveKeySchema (table index : String) (counter : Nat) (s : TableState) :
    ∃ event : RunEvent, updatedKeys [event] = [] ∧
      play (svc.reply cuts) (resolveKeySchema table index) counter s =
        ([event], (.ofAnswer (getKeySchema svc.describe table index), counter), s) := by
  refine ⟨⟨.client (.describeTable table), svc.describe table⟩, rfl, ?_⟩
  have hcall : play (svc.reply cuts) (call (.describeTable table)) counter s =
      ([⟨.client (.describeTable table), svc.describe table⟩],
        (.ofAnswer (svc.describe table), counter), s) := by
    rw [play_call]
    rfl
  rw [resolveKeySchema, play_bind, hcall]
  cases hdescribe : svc.describe table with
  | error e =>
      have herror : getKeySchema svc.describe table index = .error e := by
        rw [getKeySchema, hdescribe]
        rfl
      rw [herror]
      rfl
  | ok described =>
      have hsame : getKeySchema svc.describe table index =
          getKeySchema (fun _ => .ok described) table index := by
        simp only [getKeySchema, hdescribe]
      rw [hsame]
      dsimp only [Ending.ofAnswer]
      cases getKeySchema (fun _ => .ok described) table index with
      | ok schema => rfl
      | error e => rfl

end Simulation

namespace TableService

variable {π : Type} (svc : TableService π) (cmd : UpdateCmd) (base : ResolvedKeySchema)

/-- The query plan of the enumeration. -/
def queryPlan : Except Error (Option QueryKeyPlan) :=
  match cmd.index with
  | none => .ok (cmd.condition.bind fun w => w.planQuery base.pk base.rk)
  | some index => (getKeySchema svc.describe cmd.table index).map fun schema =>
      cmd.condition.bind fun w => w.planQuery schema.pk schema.rk

/-- The read of a bulk UPDATE that starts at an alias counter. -/
def bulkRead (counter : Nat) : Except Error WriteReadPlan :=
  (svc.queryPlan cmd base).map fun qplan =>
    (BulkCmd.update cmd).readPlan base qplan (uniquePrefix (counter + 1))

end TableService

/-- The write of a bulk UPDATE, but for its key. -/
def bulkRequest (cmd : UpdateCmd) (base : ResolvedKeySchema) (counter : Nat) : UpdateItemIn :=
  (makeUpdateRequest cmd (base.pk.headD "") (base.rk.headD "") ⟨uniquePrefix counter, 1, 1, ∅, ∅⟩).1

section Statement

variable {π : Type} [LinearOrder π] (svc : TableService π) (cuts : Nat → Cut)

theorem play_enumerationPlan (cmd : UpdateCmd) (base : ResolvedKeySchema) (counter : Nat)
    (s : TableState) :
    ∃ events : List RunEvent, updatedKeys events = [] ∧
      play (svc.reply cuts) (enumerationPlan cmd.table cmd.index cmd.condition base) counter s =
        (events, (.ofAnswer (svc.queryPlan cmd base), counter), s) := by
  unfold enumerationPlan TableService.queryPlan
  cases cmd.index with
  | none => exact ⟨[], rfl, rfl⟩
  | some index =>
      obtain ⟨event, hevent, hplay⟩ := play_resolveKeySchema svc cuts cmd.table index counter s
      refine ⟨[event], hevent, ?_⟩
      dsimp only
      rw [play_bind, hplay]
      cases getKeySchema svc.describe cmd.table index with
      | ok schema => rfl
      | error e => rfl

omit [LinearOrder π] in
theorem startingAt_bulkRead {cmd : UpdateCmd} {base : ResolvedKeySchema} {counter : Nat}
    {read : WriteReadPlan} (hread : svc.bulkRead cmd base counter = .ok read) :
    read.startingAt none = read ∧ read.indexName = cmd.index := by
  obtain ⟨qplan, -, rfl⟩ := map_eq_ok hread
  unfold BulkCmd.readPlan buildWriteRead
  generalize (BulkCmd.update cmd).condition = condition
  cases condition with
  | none => exact ⟨rfl, rfl⟩
  | some w =>
      cases qplan with
      | none => exact ⟨rfl, rfl⟩
      | some plan => exact ⟨rfl, rfl⟩

/-- Counts are shown after the loop. -/
theorem mirrors_executeBulk (cmd : UpdateCmd) {read : WriteReadPlan}
    (hread : read.startingAt none = read) (request : UpdateItemIn) (budget counter : Nat)
    (s : TableState) :
    LoopMirrors
      (play (svc.reply cuts) ((BulkCmd.update cmd).executeBulk budget read (.update request))
        counter s)
      ((svc.rules read request).sweep cuts budget s.pages none s.store) := by
  have hloop := mirrors_bulkLoop svc cuts hread request (BulkCmd.update cmd).wantRv budget none []
    { verb := (BulkCmd.update cmd).verb } counter s
  rw [BulkCmd.executeBulk, play_bind]
  dsimp only [Option.map_none] at hloop
  generalize play (svc.reply cuts) (bulkLoop false false read (.update request) _ budget none []
    _) counter s = played at hloop ⊢
  obtain ⟨events, ⟨ending, middle⟩, s'⟩ := played
  generalize (svc.rules read request).sweep cuts budget s.pages none s.store = swept at hloop ⊢
  cases swept with
  | none =>
      cases show ending = .cut from hloop
      rfl
  | some out =>
      obtain ⟨pages, hmirrors⟩ := hloop
      cases ending with
      | cut => exact absurd hmirrors.ending (not_endsAs_cut _)
      | error e => exact ⟨pages, hmirrors.keys, EndsAs.error_iff.mpr
          (EndsAs.error_iff.mp hmirrors.ending), hmirrors.store, hmirrors.pages⟩
      | ok result =>
          refine ⟨pages, ?_, EndsAs.ok_iff.mpr (EndsAs.ok_iff.mp hmirrors.ending),
            hmirrors.store, hmirrors.pages⟩
          show updatedKeys (events ++ [⟨.emit _, ()⟩]) = out.wrote
          rw [updatedKeys_append, hmirrors.keys]
          exact List.append_nil _

/-- Writes that came before the loop: there are none. -/
theorem LoopMirrors.after {α : Type} {played : List RunEvent × (Ending α × Nat) × TableState}
    {swept : Option (Swept ValueMap Item)} (h : LoopMirrors played swept)
    {before : List RunEvent} (hbefore : updatedKeys before = []) :
    LoopMirrors (before ++ played.1, played.2) swept := by
  cases swept with
  | none => exact h
  | some out =>
      obtain ⟨pages, hmirrors⟩ := h
      have hafter := hmirrors.after before
      rw [hbefore, List.nil_append] at hafter
      exact ⟨pages, hafter⟩

/-- The lookups of a bulk UPDATE, and then its loop. -/
theorem play_executeUpdate {cmd : UpdateCmd} {base : ResolvedKeySchema}
    (hbase : getKeySchema svc.describe cmd.table "" = .ok base)
    (hbulk : (BulkCmd.update cmd).pinned base = none) (counter budget : Nat) (s : TableState) :
    ∃ lookups : List RunEvent, updatedKeys lookups = [] ∧
      play (svc.reply cuts) (executeUpdate budget cmd false) counter s =
        match svc.bulkRead cmd base counter with
        | .ok read =>
            let loop := (BulkCmd.update cmd).executeBulk budget read
              (.update (bulkRequest cmd base counter))
            (lookups ++ (play (svc.reply cuts) loop (counter + 2) s).1,
              (play (svc.reply cuts) loop (counter + 2) s).2)
        | .error e => (lookups, (.error e, counter + 1), s) := by
  obtain ⟨event, hevent, hlookup⟩ := play_resolveKeySchema svc cuts cmd.table "" counter s
  obtain ⟨events, hevents, hplan⟩ := play_enumerationPlan svc cuts cmd base (counter + 1) s
  refine ⟨[event] ++ events, by rw [updatedKeys_append, hevent, hevents]; rfl, ?_⟩
  rw [hbase] at hlookup
  rw [show executeUpdate budget cmd false = (BulkCmd.update cmd).execute budget from rfl,
    BulkCmd.execute_eq]
  dsimp only [BulkCmd.table, BulkCmd.index, BulkCmd.condition]
  rw [play_bind, hlookup]
  dsimp only [Ending.ofAnswer]
  rw [play_nextPrefix_bind, hbulk]
  dsimp only
  rw [play_bind, hplan, TableService.bulkRead]
  cases svc.queryPlan cmd base with
  | ok qplan =>
      dsimp only [Ending.ofAnswer, Except.map]
      rw [play_nextPrefix_bind, List.append_assoc]
      rfl
  | error e => rfl

/-! ### Each item once -/

/-- The item was there to be updated: the read comes upon it and returns it. -/
def Matched (read : WriteReadPlan) (k : ValueMap) (x : Item) : Prop :=
  (svc.place read k x).isSome = true ∧ svc.returned read k x = true

/-- However the service cuts its pages, a bulk UPDATE ends, updates no item
twice and none that did not match at the start, and leaves the same content. -/
def UpdatesOnce (cmd : UpdateCmd) (base : ResolvedKeySchema) (counter : Nat)
    (store : Store ValueMap Item) : Prop :=
  ∃ final : Store ValueMap Item, ∀ (cuts : Nat → Cut) (budget : Nat),
    2 * store.entries.length < budget →
    let played := play (svc.reply cuts) (executeUpdate budget cmd false) counter { store := store }
    played.2.1.1 ≠ .cut ∧ (updatedKeys played.1).Nodup ∧
      (∀ k ∈ updatedKeys played.1, ∃ read x, svc.bulkRead cmd base counter = .ok read ∧
        store.find k = some x ∧ Matched svc read k x) ∧
      played.2.2.store = final

/-- No update of an item that matches leaves it ahead of its old place, where
the read would return it and its condition would not fail. -/
def StaysBehind (read : WriteReadPlan) (request : UpdateItemIn) (store : Store ValueMap Item) :
    Prop :=
  ∀ k x y p q, store.find k = some x → svc.place read k x = some p →
    svc.returned read k x = true →
    svc.update { request with key := rowKey (svc.row read k x) } (some x) = .ok y →
    svc.place read k y = some q → p < q →
      svc.returned read k y = false ∨
        ∃ e : Error, e.code = .conditionalCheckFailed ∧
          svc.update { request with key := rowKey (svc.row read k y) } (some y) = .error e

theorem settles_of_staysBehind {read : WriteReadPlan} {request : UpdateItemIn}
    {store : Store ValueMap Item} (h : StaysBehind svc read request store) :
    ∀ a ∈ (svc.rules read request).pending none store, (svc.rules read request).Settles a := by
  intro a ha y q hwrote hq hlt
  obtain ⟨hspot, -, hlive⟩ := Rules.mem_pending.mp ha
  obtain ⟨hfound, hplace⟩ := Reading.mem_spots.mp hspot
  have hupdate : svc.update { request with key := rowKey (svc.row read a.key a.value) }
      (some a.value) = .ok y := by
    dsimp only [TableService.rules] at hwrote
    split at hwrote
    · rename_i hkey
      rw [hkey]
      exact updateOutcome_eq_wrote.mp hwrote
    · cases hwrote
  rcases h a.key a.value y a.place q hfound hplace (Bool.and_eq_true_iff.mp hlive).1 hupdate hq hlt
    with hdropped | ⟨e, hcode, herror⟩
  · rw [Rules.live, show (svc.rules read request).returned a.key y = false from hdropped,
      Bool.false_and]
  · have hkey : rowKey (svc.row read a.key y) = a.key := by
      refine (svc.row_key read a.key y).resolve_right fun hrejected => ?_
      obtain ⟨e', hcode', herror'⟩ :=
        hrejected { request with key := rowKey (svc.row read a.key y) } (some y) rfl
      rw [herror] at herror'
      cases herror'
      exact hcode' hcode
    have hrefused : (svc.rules read request).write a.key y = .refused := by
      rw [hkey] at herror
      dsimp only [TableService.rules]
      rw [if_pos hkey, herror, updateOutcome, if_pos hcode]
    rw [Rules.live, hrefused, Outcome.isRefused, Bool.not_true, Bool.and_false]

/-- Updates that leave the key attributes of the index alone move no item. On
the base table there are none to change. -/
theorem staysBehind_of_indexKeys {read : WriteReadPlan} {request : UpdateItemIn}
    {store : Store ValueMap Item}
    (h : ∀ k x y, store.find k = some x →
      svc.update { request with key := rowKey (svc.row read k x) } (some x) = .ok y →
      ∀ name ∈ read.indexKeys svc.describe, y name = x name) :
    StaysBehind svc read request store := by
  intro k x y p q hfound hp hreturned hupdate hq hlt
  rw [svc.place_congr (h k x y hfound hupdate), hp] at hq
  cases hq
  exact absurd hlt (lt_irrefl p)

/-- A bulk UPDATE updates each item once if none of its updates moves an item
ahead to where it would be updated again. -/
theorem bulk_update_once {cmd : UpdateCmd} {base : ResolvedKeySchema}
    (hbase : getKeySchema svc.describe cmd.table "" = .ok base)
    (hbulk : (BulkCmd.update cmd).pinned base = none) (counter : Nat)
    (store : Store ValueMap Item)
    (hbehind : ∀ read, svc.bulkRead cmd base counter = .ok read →
      StaysBehind svc read (bulkRequest cmd base counter) store) :
    UpdatesOnce svc cmd base counter store := by
  cases hread : svc.bulkRead cmd base counter with
  | error e =>
      refine ⟨store, fun cuts budget _ => ?_⟩
      obtain ⟨lookups, hlookups, hplay⟩ :=
        play_executeUpdate svc cuts hbase hbulk counter budget { store := store }
      rw [hread] at hplay
      simp [hplay, hlookups]
  | ok read =>
      obtain ⟨hstart, -⟩ := startingAt_bulkRead svc hread
      obtain ⟨hnodup, hmatched⟩ :=
        Rules.onePass_wrote (r := svc.rules read (bulkRequest cmd base counter)) store
      refine ⟨((svc.rules read (bulkRequest cmd base counter)).onePass store).store,
        fun cuts budget hbudget => ?_⟩
      obtain ⟨lookups, hlookups, hplay⟩ :=
        play_executeUpdate svc cuts hbase hbulk counter budget { store := store }
      have hloop := (mirrors_executeBulk svc cuts cmd hstart (bulkRequest cmd base counter) budget
        (counter + 2) { store := store }).after hlookups
      rw [Rules.sweep_eq_onePass cuts (settles_of_staysBehind svc (hbehind read hread)) hbudget]
        at hloop
      obtain ⟨pages, hmirrors⟩ := hloop
      rw [hread] at hplay
      rw [hplay]
      dsimp only
      refine ⟨?_, ?_, ?_, hmirrors.store⟩
      · intro hcut
        exact absurd (hcut ▸ hmirrors.ending) (not_endsAs_cut _)
      · rw [hmirrors.keys]
        exact hnodup
      · intro k hk
        rw [hmirrors.keys] at hk
        obtain ⟨a, ha, rfl⟩ := hmatched k hk
        obtain ⟨hspot, -, hlive⟩ := Rules.mem_pending.mp ha
        obtain ⟨hfound, hplace⟩ := Reading.mem_spots.mp hspot
        refine ⟨read, a.value, hread, hfound, ?_, (Bool.and_eq_true_iff.mp hlive).1⟩
        exact Option.isSome_iff_exists.mpr ⟨a.place, hplace⟩

end Statement

/-! ### A table with an index

The key of the table is `id` and its index `g` is on `h` and `n`. Updates set
one attribute to a value.
-/

namespace Indexed

def idOf : ValueMap → Option String
  | [("id", .S s)] => some s
  | _ => none

/-- What orders the items of a read before their ids do. -/
def sortKey (read : WriteReadPlan) (x : Item) : Option String :=
  match read.indexName with
  | none => some ""
  | some index =>
      if index = "g" then
        match x "n" with
        | some (.S n) => some n
        | _ => none
      else none

def place (read : WriteReadPlan) (k : ValueMap) (x : Item) : Option (Lex (String × String)) := do
  let s ← idOf k
  let n ← sortKey read x
  return toLex (n, s)

def describe : DescribeTable := fun _ => .ok {
  keySchema := ⟨["id"], []⟩
  globalSecondaryIndexes := [{ indexName := "g", keySchema := ⟨["h"], ["n"]⟩ }] }

/-- The assignment of a request takes the first name and the first value. -/
def update (request : UpdateItemIn) (item : Option Item) : Except Error Item :=
  match idOf request.key, item, request.expressionAttributeNames,
      request.expressionAttributeValues with
  | some _, some x, (_, name) :: _, (_, value) :: _ =>
      .ok fun attr => if attr = name then some value else x attr
  | _, _, _, _ => .error ⟨.serviceError, "ValidationException"⟩

/-- An update changes no attribute but the one it names first. -/
theorem update_frame {request : UpdateItemIn} {x y : Item} {token name : String}
    {names : ExpressionAttributeNames} (h : update request (some x) = .ok y)
    (hnames : request.expressionAttributeNames = (token, name) :: names) {attr : String}
    (hattr : attr ≠ name) :
    y attr = x attr := by
  unfold update at h
  rw [hnames] at h
  generalize request.expressionAttributeValues = values at h
  generalize idOf request.key = id at h
  cases id with
  | none => cases h
  | some s =>
      cases values with
      | nil => cases h
      | cons value values =>
          cases h
          exact if_neg hattr

theorem idOf_eq {k : ValueMap} {s : String} (h : idOf k = some s) : k = [("id", .S s)] := by
  unfold idOf at h
  split at h
  · cases h
    rfl
  · cases h

theorem sortKey_congr {read : WriteReadPlan} {x y : Item}
    (h : ∀ name ∈ read.indexKeys describe, x name = y name) : sortKey read x = sortKey read y := by
  unfold sortKey
  unfold WriteReadPlan.indexKeys at h
  cases hindex : read.indexName with
  | none => rfl
  | some index =>
      rw [hindex] at h
      by_cases hg : index = "g"
      · subst hg
        have hschema : getKeySchema describe read.tableName "g" = .ok ⟨["h"], ["n"]⟩ := rfl
        have hn : x "n" = y "n" := h "n" (by simp [hschema])
        simp only [hn]
      · simp [hg]

def service : TableService (Lex (String × String)) where
  describe := describe
  place := place
  apart := by
    intro read k l x y p hk hl
    simp only [place, Option.bind_eq_bind, Option.bind_eq_some_iff] at hk hl
    obtain ⟨s, hs, n, hn, hp⟩ := hk
    obtain ⟨s', hs', n', hn', hp'⟩ := hl
    cases hp
    cases hp'
    rw [idOf_eq hs, idOf_eq hs']
  place_congr := by
    intro read k x y h
    unfold place
    rw [sortKey_congr h]
  returned _ _ _ := true
  row _ k _ := if (idOf k).isSome then ⟨k⟩ else {}
  startKey p := [("h", .S "x"), ("id", .S (ofLex p).2), ("n", .S (ofLex p).1)]
  startKey_ne := by simp
  readKey
    | [_, (_, .S s), (_, .S n)] => toLex (n, s)
    | _ => toLex ("", "")
  readKey_startKey := fun _ => rfl
  update := update
  output _ _ _ := {}
  row_key := by
    intro read k x
    cases hid : idOf k with
    | some s =>
        left
        rw [idOf_eq hid]
        rfl
    | none =>
        right
        intro request y hkey
        refine ⟨⟨.serviceError, "ValidationException"⟩, by simp, ?_⟩
        simp only [Option.isSome_none, Bool.false_eq_true, if_false] at hkey
        rw [show rowKey {} = [] from rfl] at hkey
        simp [update, hkey, idOf]

/-- One item, `{id: 1, h: x, n: a}`. -/
def content : Store ValueMap Item where
  entries := [([("id", .S "1")], fun attr =>
    if attr = "id" then some (.S "1") else if attr = "h" then some (.S "x")
    else if attr = "n" then some (.S "a") else none)]
  nodup := by simp

/-- `UPDATE t.g SET <attr> = "z" WHERE h = "x"` -/
def assign (attr : String) : UpdateCmd where
  table := "t"
  index := some "g"
  mutation := .set [{ lhs := attr, rhsValue := some (.S "z") }]
  condition := some ⟨.leaf false false ⟨"h", .comparison .equal (.S "x")⟩⟩

end Indexed

/-- An attribute that is no key of the index. -/
theorem indexed_updates_once :
    UpdatesOnce Indexed.service (Indexed.assign "c") ⟨["id"], []⟩ 0 Indexed.content := by
  have hbase : getKeySchema Indexed.service.describe (Indexed.assign "c").table "" =
      .ok ⟨["id"], []⟩ := rfl
  have hbulk : (BulkCmd.update (Indexed.assign "c")).pinned ⟨["id"], []⟩ = none := rfl
  refine bulk_update_once Indexed.service hbase hbulk 0 Indexed.content fun read hread => ?_
  obtain ⟨qplan, hqplan, rfl⟩ := map_eq_ok hread
  cases hqplan
  refine staysBehind_of_indexKeys Indexed.service fun k x y hfound hupdate name hname => ?_
  have hnames : (bulkRequest (Indexed.assign "c") ⟨["id"], []⟩ 0).expressionAttributeNames =
      [("#aaaa1", "c"), ("#aaaa2", "id"), ("#aaaa3", "h")] := by decide +kernel
  refine Indexed.update_frame hupdate hnames ?_
  rintro rfl
  revert hname
  decide +kernel

/-- The first page ends with the item. Its update sets the sort key of the
index, so that the second page comes upon it again. -/
theorem indexed_updates_twice :
    ¬ UpdatesOnce Indexed.service (Indexed.assign "n") ⟨["id"], []⟩ 0 Indexed.content := by
  rintro ⟨final, h⟩
  have hnodup := (h (fun i => ⟨0, i = 0⟩) 3 (by decide)).2.1
  revert hnodup
  decide +kernel

end DdbShell
