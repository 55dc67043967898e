import DdbShell.Execute.TableExecutors
import DdbShell.Execute.BulkWrite

/-!
What a bulk UPDATE, UPSERT or DELETE does with the pages it is given: which
requests it sends, what it counts, and that it stops at the first error. All
of it is said about the events of a run, whoever answers the calls.
-/

namespace DdbShell

open Exec

abbrev RunEvent := Program.Event Effect Effect.Answer

/-! ### Reading a run -/

namespace RunEvent

/-- A page request and its answer. -/
def read? : RunEvent → Option (WriteReadPlan × Except Error PageOut)
  | ⟨.client (.query r), answer⟩ => some (.query r, answer)
  | ⟨.client (.scan r), answer⟩ => some (.scan r, answer)
  | _ => none

/-- A write and its answer. -/
def write? : RunEvent → Option (WriteTemplate × Except Error WriteOut)
  | ⟨.client (.updateItem r), answer⟩ => some (.update r, answer)
  | ⟨.client (.deleteItem r), answer⟩ => some (.delete r, answer)
  | _ => none

/-- A write that failed for another reason than its condition. -/
def hardWrite : Except Error WriteOut → Bool
  | .ok _ => false
  | .error e => e.code ≠ .conditionalCheckFailed

/-- An answer that ends the statement: any error, but for a write whose
condition failed. -/
def hardError : RunEvent → Bool
  | ⟨.client (.updateItem _), answer⟩ => hardWrite answer
  | ⟨.client (.deleteItem _), answer⟩ => hardWrite answer
  | ⟨.client _, .error _⟩ => true
  | _ => false

end RunEvent

def reads (events : List RunEvent) : List (WriteReadPlan × Except Error PageOut) :=
  events.filterMap RunEvent.read?

def writes (events : List RunEvent) : List (WriteTemplate × Except Error WriteOut) :=
  events.filterMap RunEvent.write?

/-- The items of the pages that were read. -/
def enumerated (events : List RunEvent) : List ItemRow :=
  (reads events).flatMap fun
    | (_, .ok page) => page.items
    | (_, .error _) => []

/-- Every page is requested after the last key of the page before it, and none
after an error or a page without such a key. -/
def Chained (read : WriteReadPlan) :
    Option ValueMap → List (WriteReadPlan × Except Error PageOut) → Prop
  | _, [] => True
  | startKey, (request, answer) :: rest =>
      request = read.startingAt startKey ∧
        match answer with
        | .error _ => rest = []
        | .ok page =>
            match continuation page.lastEvaluatedKey with
            | none => rest = []
            | some key => Chained read (some key) rest

/-- The enumeration has come to its end. -/
def Exhausted (pages : List (WriteReadPlan × Except Error PageOut)) : Prop :=
  ∃ before request page, pages = before ++ [(request, .ok page)] ∧
    continuation page.lastEvaluatedKey = none

/-- The write an enumerated item gets. -/
def itemWrite (template : WriteTemplate) (item : ItemRow) : WriteTemplate :=
  template.keyed (rowKey item)

namespace BulkWriteOutcome

/-- Count one answered write. -/
def count (wantRv : Bool) (acct : BulkWriteOutcome) (answer : Except Error WriteOut) :
    BulkWriteOutcome :=
  match answer with
  | .ok out => { acct with read := acct.read + 1 }.wrote wantRv out
  | .error _ => { acct with read := acct.read + 1 }.failedCondition

def counts (wantRv : Bool) (acct : BulkWriteOutcome) (answers : List (Except Error WriteOut)) :
    BulkWriteOutcome :=
  answers.foldl (count wantRv) acct

end BulkWriteOutcome

/-! ### Errors end a run -/

/-- No answer of the run ended it. -/
def Clean (events : List RunEvent) : Prop := ∀ event ∈ events, event.hardError = false

theorem Clean.append {before after : List RunEvent} (h : Clean before) (h' : Clean after) :
    Clean (before ++ after) := by
  intro event hevent
  rcases List.mem_append.mp hevent with hevent | hevent
  · exact h event hevent
  · exact h' event hevent

/-- All but the last event are clean, and the last one too unless the run ends
in an error. -/
def Halted {α : Type} (events : List RunEvent) (ending : Ending α) : Prop :=
  Clean events ∨ ∃ before event e, events = before ++ [event] ∧ Clean before ∧ ending = .error e

theorem Halted.append {α : Type} {before after : List RunEvent} {ending : Ending α}
    (h : Clean before) (h' : Halted after ending) : Halted (before ++ after) ending := by
  rcases h' with h' | ⟨middle, event, e, rfl, h', rfl⟩
  · exact .inl (h.append h')
  · exact .inr ⟨before ++ middle, event, e, by rw [List.append_assoc], h.append h', rfl⟩

theorem Halted.ofError {α β : Type} {events : List RunEvent} {e : Error}
    (h : Halted events (.error e : Ending α)) : Halted events (.error e : Ending β) := by
  rcases h with h | ⟨before, event, e', hevents, h, he⟩
  · exact .inl h
  · exact .inr ⟨before, event, e, hevents, h, rfl⟩

/-- After a hard error there is nothing. -/
theorem Halted.nothing_after {α : Type} {events : List RunEvent} {ending : Ending α}
    (h : Halted events ending) {before after : List RunEvent} {event : RunEvent}
    (hevents : events = before ++ event :: after) (hhard : event.hardError = true) :
    after = [] := by
  rcases h with h | ⟨front, last, e, hfront, h, -⟩
  · have hclean := h event (by rw [hevents]; exact List.mem_append_right _ List.mem_cons_self)
    rw [hclean] at hhard
    cases hhard
  · cases List.eq_nil_or_concat after with
    | inl hnil => exact hnil
    | inr hconcat =>
        obtain ⟨middle, last', rfl⟩ := hconcat
        rw [hfront, List.concat_eq_append, ← List.cons_append, ← List.append_assoc] at hevents
        obtain ⟨rfl, -⟩ := List.append_inj' hevents rfl
        have hclean := h event (List.mem_append_right _ List.mem_cons_self)
        rw [hclean] at hhard
        cases hhard

/-- Every run of the executor stops at its first hard error. -/
def HaltsOnError {α : Type} (x : Exec α) : Prop :=
  ∀ counter events ending counter', Runs x counter events (ending, counter') →
    Halted events ending

section Halting

variable {α β : Type}

theorem halts_of_quiet {x : Exec α}
    (h : ∀ counter events result, Runs x counter events result → events = []) :
    HaltsOnError x := by
  intro counter events ending counter' hruns
  rw [h _ _ _ hruns]
  exact .inl fun _ hevent => absurd hevent List.not_mem_nil

theorem halts_pure (a : α) : HaltsOnError (pure a) :=
  halts_of_quiet fun _ _ _ h => (runs_pure h).1

theorem halts_throw (e : Error) : HaltsOnError (throw e : Exec α) :=
  halts_of_quiet fun _ _ _ h => (runs_throw h).1

theorem halts_cut : HaltsOnError (cut : Exec α) :=
  halts_of_quiet fun _ _ _ h => (runs_cut h).1

theorem halts_nextPrefix : HaltsOnError nextPrefix :=
  halts_of_quiet fun _ _ _ h => (runs_nextPrefix h).1

theorem halts_ofExcept (x : Except Error α) : HaltsOnError (ofExcept x) := by
  cases x with
  | ok a => exact halts_pure a
  | error e => exact halts_throw e

theorem halts_emit (outcome : ExecOutcome) : HaltsOnError (emit outcome) := by
  intro counter events ending counter' h
  obtain ⟨rfl, -⟩ := runs_emit h
  left
  intro event hevent
  rw [List.mem_singleton.mp hevent]
  rfl

/-- A run that did not end in an error is clean. -/
theorem HaltsOnError.clean {x : Exec α} (hx : HaltsOnError x) {counter counter' : Nat}
    {events : List RunEvent} {ending : Ending α} (h : Runs x counter events (ending, counter'))
    (hending : ∀ e, ending ≠ .error e) : Clean events := by
  rcases hx _ _ _ _ h with hclean | ⟨before, event, e, -, -, he⟩
  · exact hclean
  · exact absurd he (hending e)

theorem HaltsOnError.bind {x : Exec α} {f : α → Exec β} (hx : HaltsOnError x)
    (hf : ∀ a, HaltsOnError (f a)) : HaltsOnError (x >>= f) := by
  intro counter events ending counter' h
  rcases runs_bind h with
    ⟨before, a, middle, after, rfl, hbefore, hafter⟩ | ⟨e, middle, heq, hbefore⟩ |
      ⟨middle, heq, hbefore⟩
  · exact Halted.append (hx.clean hbefore nofun) (hf a _ _ _ _ hafter)
  · obtain ⟨rfl, rfl⟩ := Prod.mk.inj heq
    exact (hx _ _ _ _ hbefore).ofError
  · exact .inl (hx.clean hbefore nofun)

theorem halts_call {c : ClientCall} : HaltsOnError (call c) := by
  intro counter events ending counter' h
  obtain ⟨answer, rfl, hresult⟩ := runs_call h
  cases answer with
  | ok out =>
      left
      intro event hevent
      rw [List.mem_singleton.mp hevent]
      cases c <;> rfl
  | error e =>
      obtain ⟨rfl, rfl⟩ := Prod.mk.inj hresult
      exact .inr ⟨[], _, e, rfl, fun _ hevent => absurd hevent List.not_mem_nil, rfl⟩

end Halting

/-! ### One write -/

section Reading

variable (before after : List RunEvent)

@[simp] theorem reads_append : reads (before ++ after) = reads before ++ reads after :=
  List.filterMap_append

@[simp] theorem writes_append : writes (before ++ after) = writes before ++ writes after :=
  List.filterMap_append

@[simp] theorem enumerated_append :
    enumerated (before ++ after) = enumerated before ++ enumerated after := by
  rw [enumerated, reads_append, List.flatMap_append]
  rfl

end Reading

/-- The writes of a run, without their answers. -/
def written (events : List RunEvent) : List WriteTemplate := (writes events).map Prod.fst

def answers (events : List RunEvent) : List (Except Error WriteOut) :=
  (writes events).map Prod.snd

/-- The last thing that happened is a write that failed for another reason
than its condition. -/
def FailedWrite (events : List RunEvent) : Prop :=
  ∃ before event, events = before ++ [event] ∧ event.write?.isSome = true ∧
    event.hardError = true

theorem FailedWrite.append (before : List RunEvent) {events : List RunEvent}
    (h : FailedWrite events) : FailedWrite (before ++ events) := by
  obtain ⟨front, event, rfl, hwrite, hhard⟩ := h
  exact ⟨before ++ front, event, by rw [List.append_assoc], hwrite, hhard⟩

theorem halts_readPage (request : WriteReadPlan) : HaltsOnError (readPage request) := by
  cases request with
  | query r => exact halts_call
  | scan r => exact halts_call

/-- A page read is one read event. -/
theorem runs_readPage {request : WriteReadPlan} {counter counter' : Nat}
    {events : List RunEvent} {ending : Ending PageOut}
    (h : Runs (readPage request) counter events (ending, counter')) :
    ∃ answer, reads events = [(request, answer)] ∧ writes events = [] ∧
      ending = .ofAnswer answer := by
  cases request with
  | query r =>
      obtain ⟨answer, rfl, hresult⟩ := runs_call h
      exact ⟨answer, rfl, rfl, (Prod.mk.inj hresult).1⟩
  | scan r =>
      obtain ⟨answer, rfl, hresult⟩ := runs_call h
      exact ⟨answer, rfl, rfl, (Prod.mk.inj hresult).1⟩

theorem runs_attemptWrite {request : WriteTemplate} {counter counter' : Nat}
    {events : List RunEvent} {ending : Ending (Except Error WriteOut)}
    (h : Runs (attemptWrite request) counter events (ending, counter')) :
    ∃ event answer, events = [event] ∧ event.write? = some (request, answer) ∧
      event.read? = none ∧ event.hardError = RunEvent.hardWrite answer ∧
      ending = .ok answer := by
  cases request with
  | update r =>
      obtain ⟨answer, rfl, hresult⟩ := runs_attempt h
      exact ⟨_, answer, rfl, rfl, rfl, rfl, (Prod.mk.inj hresult).1⟩
  | delete r =>
      obtain ⟨answer, rfl, hresult⟩ := runs_attempt h
      exact ⟨_, answer, rfl, rfl, rfl, rfl, (Prod.mk.inj hresult).1⟩

/-- What `writeOne` makes of an answer. -/
theorem runs_writeOne_answer {wantRv : Bool} {acct : BulkWriteOutcome}
    {answer : Except Error WriteOut} {counter counter' : Nat} {events : List RunEvent}
    {ending : Ending BulkWriteOutcome}
    (h : Runs (match answer with
      | .ok out => pure ({ acct with read := acct.read + 1 }.wrote wantRv out)
      | .error e =>
          if e.code = .conditionalCheckFailed then
            pure { acct with read := acct.read + 1 }.failedCondition
          else throw e) counter events (ending, counter')) :
    events = [] ∧ ((RunEvent.hardWrite answer = false ∧ ending = .ok (acct.count wantRv answer)) ∨
      (RunEvent.hardWrite answer = true ∧ ∃ e, ending = .error e)) := by
  cases answer with
  | ok out =>
      obtain ⟨rfl, hresult⟩ := runs_pure h
      exact ⟨rfl, .inl ⟨rfl, (Prod.mk.inj hresult).1⟩⟩
  | error e =>
      dsimp only at h
      split at h
      · next hcode =>
          obtain ⟨rfl, hresult⟩ := runs_pure h
          refine ⟨rfl, .inl ⟨?_, (Prod.mk.inj hresult).1⟩⟩
          simp [RunEvent.hardWrite, hcode]
      · next hcode =>
          obtain ⟨rfl, hresult⟩ := runs_throw h
          refine ⟨rfl, .inr ⟨?_, e, (Prod.mk.inj hresult).1⟩⟩
          simp [RunEvent.hardWrite, hcode]

/-- A write is counted, unless it ends the statement. -/
theorem runs_writeOne {request : WriteTemplate} {wantRv : Bool} {acct : BulkWriteOutcome}
    {counter counter' : Nat} {events : List RunEvent} {ending : Ending BulkWriteOutcome}
    (h : Runs (writeOne request wantRv { acct with read := acct.read + 1 }) counter events
      (ending, counter')) :
    ∃ event answer, events = [event] ∧ event.write? = some (request, answer) ∧
      event.read? = none ∧
      ((event.hardError = false ∧ ending = .ok (acct.count wantRv answer)) ∨
        (event.hardError = true ∧ ∃ e, ending = .error e)) := by
  rcases runs_bind h with
    ⟨before, answer, middle, after, rfl, hbefore, hafter⟩ | ⟨e, middle, heq, hbefore⟩ |
      ⟨middle, heq, hbefore⟩
  · obtain ⟨event, answer', rfl, hwrite, hread, hhard, hanswer⟩ := runs_attemptWrite hbefore
    cases hanswer
    obtain ⟨rfl, hcases⟩ := runs_writeOne_answer hafter
    rw [← hhard] at hcases
    exact ⟨event, answer, rfl, hwrite, hread, hcases⟩
  · obtain ⟨event, answer, -, -, -, -, hanswer⟩ := runs_attemptWrite hbefore
    cases hanswer
  · obtain ⟨event, answer, -, -, -, -, hanswer⟩ := runs_attemptWrite hbefore
    cases hanswer

theorem halts_writeOne (request : WriteTemplate) (wantRv : Bool) (acct : BulkWriteOutcome) :
    HaltsOnError (writeOne request wantRv { acct with read := acct.read + 1 }) := by
  intro counter events ending counter' h
  obtain ⟨event, answer, rfl, -, -, ⟨hsoft, -⟩ | ⟨-, e, rfl⟩⟩ := runs_writeOne h
  · left
    intro event' hevent
    rw [List.mem_singleton.mp hevent]
    exact hsoft
  · exact .inr ⟨[], event, e, rfl, fun _ hevent => absurd hevent List.not_mem_nil, rfl⟩

/-! ### The items of a page -/

/-- The writes of a run are those the items get, in order; fewer only if the
last write failed. -/
def WritesItems (template : WriteTemplate) (items : List ItemRow) (events : List RunEvent) :
    Prop :=
  written events = items.map (itemWrite template) ∨
    (written events <+: items.map (itemWrite template) ∧ FailedWrite events)

theorem WritesItems.append {template : WriteTemplate} {items items' : List ItemRow}
    {before after : List RunEvent} (h : written before = items.map (itemWrite template))
    (h' : WritesItems template items' after) :
    WritesItems template (items ++ items') (before ++ after) := by
  have hsplit : written (before ++ after) = written before ++ written after := by
    rw [written, writes_append, List.map_append]
    rfl
  rw [WritesItems, List.map_append, hsplit, h]
  rcases h' with h' | ⟨hfront, hfailed⟩
  · rw [h']
    exact .inl rfl
  · exact .inr ⟨(List.prefix_append_right_inj _).mpr hfront, hfailed.append before⟩

theorem halts_writeItems (template : WriteTemplate) (wantRv : Bool) (acct : BulkWriteOutcome)
    (items : List ItemRow) : HaltsOnError (writeItems template wantRv acct items) := by
  induction items generalizing acct with
  | nil => exact halts_pure acct
  | cons item items ih => exact (halts_writeOne _ _ _).bind fun acct => ih acct

/-- Every item of a page gets its write, and every write is counted. -/
theorem runs_writeItems {template : WriteTemplate} {wantRv : Bool} {acct : BulkWriteOutcome}
    {items : List ItemRow} {counter counter' : Nat} {events : List RunEvent}
    {ending : Ending BulkWriteOutcome}
    (h : Runs (writeItems template wantRv acct items) counter events (ending, counter')) :
    reads events = [] ∧ WritesItems template items events ∧ ending ≠ .cut ∧
      ∀ acct', ending = .ok acct' → written events = items.map (itemWrite template) ∧
        acct' = acct.counts wantRv (answers events) := by
  induction items generalizing acct counter events with
  | nil =>
      obtain ⟨rfl, hresult⟩ := runs_pure h
      cases hresult
      refine ⟨rfl, .inl rfl, nofun, ?_⟩
      intro acct' hacct
      cases hacct
      exact ⟨rfl, rfl⟩
  | cons item items ih =>
      rcases runs_bind h with
        ⟨before, acct₁, middle, after, rfl, hone, hrest⟩ | ⟨e, middle, heq, hone⟩ |
          ⟨middle, heq, hone⟩
      · obtain ⟨event, answer, rfl, hwrite, hread, ⟨hsoft, hok⟩ | ⟨-, e, he⟩⟩ := runs_writeOne hone
        · cases hok
          obtain ⟨hreads, hwrites, hcut, hok⟩ := ih hrest
          have hfirst : written [event] = [item].map (itemWrite template) := by
            simp [written, writes, hwrite, itemWrite]
          have hnone : reads [event] = [] := by simp [reads, hread]
          refine ⟨by rw [reads_append, hnone, hreads]; rfl, hwrites.append hfirst, hcut, ?_⟩
          intro acct' hacct
          obtain ⟨hall, hcount⟩ := hok acct' hacct
          rw [hcount]
          constructor
          · rw [written, writes_append, List.map_append]
            exact congrArg₂ (· ++ ·) hfirst hall
          · simp [answers, writes, hwrite, BulkWriteOutcome.counts]
        · cases he
      · obtain ⟨event, answer, rfl, hwrite, hread, ⟨-, hok⟩ | ⟨hhard, e, he⟩⟩ := runs_writeOne hone
        · cases hok
        · cases heq
          refine ⟨by simp [reads, hread], .inr ⟨?_, [], event, rfl, ?_, hhard⟩, nofun, nofun⟩
          · simp [written, writes, hwrite, itemWrite]
          · rw [hwrite]
            rfl
      · obtain ⟨event, answer, -, -, -, ⟨-, hok⟩ | ⟨-, e, he⟩⟩ := runs_writeOne hone
        · cases hok
        · cases he

/-! ### The page loop -/

theorem halts_bulkLoop (read : WriteReadPlan) (template : WriteTemplate) (wantRv : Bool)
    (budget : Nat) (startKey : Option ValueMap) (blocks : List ExplainBlock)
    (acct : BulkWriteOutcome) :
    HaltsOnError (bulkLoop false false read template wantRv budget startKey blocks acct) := by
  induction budget generalizing startKey blocks acct with
  | zero => exact halts_cut
  | succ budget ih =>
      refine (halts_pure _).bind fun blocks => (halts_readPage _).bind fun page => ?_
      refine ((halts_writeItems _ _ _ _).bind fun _ => halts_pure _).bind fun result => ?_
      dsimp only
      split
      · exact halts_pure _
      · exact ih _ _ _

/-- What a run of the page loop from `startKey` has done when it ends. -/
structure LoopRun (read : WriteReadPlan) (template : WriteTemplate) (wantRv : Bool)
    (budget : Nat) (startKey : Option ValueMap) (acct : BulkWriteOutcome)
    (events : List RunEvent) (ending : Ending (List ExplainBlock × BulkWriteOutcome)) :
    Prop where
  chained : Chained read startKey (reads events)
  writes : WritesItems template (enumerated events) events
  cut : ending = .cut → (reads events).length = budget ∧
    written events = (enumerated events).map (itemWrite template)
  finished : ∀ blocks acct', ending = .ok (blocks, acct') → Exhausted (reads events) ∧
    written events = (enumerated events).map (itemWrite template) ∧
    acct' = acct.counts wantRv (answers events)

/-- The items of one page, written. -/
theorem runs_bulkItems {template : WriteTemplate} {wantRv : Bool} {blocks : List ExplainBlock}
    {acct : BulkWriteOutcome} {items : List ItemRow} {counter counter' : Nat}
    {events : List RunEvent} {ending : Ending (List ExplainBlock × BulkWriteOutcome)}
    (h : Runs (bulkItems false template wantRv blocks acct items) counter events
      (ending, counter')) :
    reads events = [] ∧ WritesItems template items events ∧ ending ≠ .cut ∧
      ∀ blocks' acct', ending = .ok (blocks', acct') →
        written events = items.map (itemWrite template) ∧
        acct' = acct.counts wantRv (answers events) := by
  rcases runs_bind h with
    ⟨before, acct₁, middle, after, rfl, hitems, hrest⟩ | ⟨e, middle, heq, hitems⟩ |
      ⟨middle, heq, hitems⟩
  · obtain ⟨rfl, hresult⟩ := runs_pure hrest
    cases hresult
    obtain ⟨hreads, hwrites, -, hok⟩ := runs_writeItems hitems
    rw [List.append_nil]
    refine ⟨hreads, hwrites, nofun, ?_⟩
    intro blocks' acct' hacct
    cases hacct
    exact hok _ rfl
  · cases heq
    obtain ⟨hreads, hwrites, -, -⟩ := runs_writeItems hitems
    exact ⟨hreads, hwrites, nofun, nofun⟩
  · exact absurd rfl (runs_writeItems hitems).2.2.1

/-- One turn of the loop: the page fails, or its items are written and then
the loop ends or goes on after the page's last key. -/
theorem runs_bulkLoop_turn {read : WriteReadPlan} {template : WriteTemplate} {wantRv : Bool}
    {budget : Nat} {startKey : Option ValueMap} {blocks : List ExplainBlock}
    {acct : BulkWriteOutcome} {counter counter' : Nat} {events : List RunEvent}
    {ending : Ending (List ExplainBlock × BulkWriteOutcome)}
    (h : Runs (bulkLoop false false read template wantRv (budget + 1) startKey blocks acct)
      counter events (ending, counter')) :
    (∃ e, reads events = [(read.startingAt startKey, .error e)] ∧ writes events = [] ∧
      ending = .error e) ∨
    ∃ page front items rest, events = front ++ (items ++ rest) ∧
      reads front = [(read.startingAt startKey, .ok page)] ∧ writes front = [] ∧
      reads items = [] ∧ WritesItems template page.items items ∧
      ((rest = [] ∧ ∃ e, ending = .error e) ∨
        ∃ acct' blocks' middle, written items = page.items.map (itemWrite template) ∧
          acct' = acct.counts wantRv (answers items) ∧
          match continuation page.lastEvaluatedKey with
          | none => rest = [] ∧ ending = .ok (blocks', acct')
          | some key =>
              Runs (bulkLoop false false read template wantRv budget (some key) blocks' acct')
                middle rest (ending, counter')) := by
  rcases runs_bind (runs_pure_bind h) with
    ⟨front, page, middle, after, rfl, hpage, h⟩ | ⟨e, middle, heq, hpage⟩ |
      ⟨middle, heq, hpage⟩
  · obtain ⟨answer, hreads, hwrites, hok⟩ := runs_readPage hpage
    cases answer with
    | error e => cases hok
    | ok page' =>
        cases hok
        right
        rcases runs_bind h with
          ⟨items, ⟨blocks₂, acct₂⟩, middle, rest, rfl, hitems, h⟩ | ⟨e, middle, heq, hitems⟩ |
            ⟨middle, heq, hitems⟩
        · obtain ⟨hquiet, hwritten, -, hall⟩ := runs_bulkItems hitems
          obtain ⟨hall, hacct⟩ := hall _ _ rfl
          refine ⟨page, front, items, rest, rfl, hreads, hwrites, hquiet, hwritten, ?_⟩
          refine .inr ⟨acct₂, blocks₂, middle, hall, hacct, ?_⟩
          dsimp only at h
          cases hnext : continuation page.lastEvaluatedKey with
          | none =>
              rw [hnext] at h
              obtain ⟨rfl, hresult⟩ := runs_pure h
              exact ⟨rfl, (Prod.mk.inj hresult).1⟩
          | some key =>
              rw [hnext] at h
              exact h
        · cases heq
          obtain ⟨hquiet, hwritten, -, -⟩ := runs_bulkItems hitems
          refine ⟨page, front, after, [], ?_, hreads, hwrites, hquiet, hwritten,
            .inl ⟨rfl, e, rfl⟩⟩
          rw [List.append_nil]
        · exact absurd rfl (runs_bulkItems hitems).2.2.1
  · cases heq
    left
    obtain ⟨answer, hreads, hwrites, hok⟩ := runs_readPage hpage
    cases answer with
    | ok page => cases hok
    | error e' =>
        cases hok
        exact ⟨e, hreads, hwrites, rfl⟩
  · obtain ⟨answer, -, -, hok⟩ := runs_readPage hpage
    cases answer <;> cases hok

@[simp] theorem written_append (before after : List RunEvent) :
    written (before ++ after) = written before ++ written after := by
  rw [written, writes_append, List.map_append]
  rfl

@[simp] theorem answers_append (before after : List RunEvent) :
    answers (before ++ after) = answers before ++ answers after := by
  rw [answers, writes_append, List.map_append]
  rfl

theorem BulkWriteOutcome.counts_append (wantRv : Bool) (acct : BulkWriteOutcome)
    (xs ys : List (Except Error WriteOut)) :
    acct.counts wantRv (xs ++ ys) = (acct.counts wantRv xs).counts wantRv ys :=
  List.foldl_append

/-- The events of a page read and of the writes of its items. -/
structure PageEvents (request : WriteReadPlan) (page : PageOut) (front items : List RunEvent) :
    Prop where
  reads : reads front = [(request, .ok page)]
  writes : writes front = []
  quiet : DdbShell.reads items = []

namespace PageEvents

variable {request : WriteReadPlan} {page : PageOut} {front items : List RunEvent}

theorem reads_eq (h : PageEvents request page front items) (rest : List RunEvent) :
    DdbShell.reads (front ++ (items ++ rest)) = (request, .ok page) :: DdbShell.reads rest := by
  rw [reads_append, reads_append, h.reads, h.quiet]
  rfl

theorem enumerated_eq (h : PageEvents request page front items) (rest : List RunEvent) :
    enumerated (front ++ (items ++ rest)) = page.items ++ enumerated rest := by
  rw [enumerated, h.reads_eq, List.flatMap_cons]
  rfl

theorem written_eq (h : PageEvents request page front items) (rest : List RunEvent) :
    written (front ++ (items ++ rest)) = written items ++ written rest := by
  rw [written_append, written_append, written, h.writes]
  rfl

theorem answers_eq (h : PageEvents request page front items) (rest : List RunEvent) :
    answers (front ++ (items ++ rest)) = answers items ++ answers rest := by
  rw [answers_append, answers_append, answers, h.writes]
  rfl

theorem writesItems (h : PageEvents request page front items) {template : WriteTemplate}
    {rows : List ItemRow} {events : List RunEvent} (hrows : WritesItems template rows events) :
    WritesItems template rows (front ++ events) := by
  have hnone : written front = ([] : List ItemRow).map (itemWrite template) := by
    rw [written, h.writes]
    rfl
  exact .append hnone hrows

end PageEvents

namespace LoopRun

variable {read : WriteReadPlan} {template : WriteTemplate} {wantRv : Bool} {budget : Nat}
  {startKey : Option ValueMap} {acct : BulkWriteOutcome} {page : PageOut}
  {front items rest : List RunEvent}
  {ending : Ending (List ExplainBlock × BulkWriteOutcome)}

/-- The page could not be read. -/
theorem readError {e : Error} {events : List RunEvent}
    (hreads : DdbShell.reads events = [(read.startingAt startKey, .error e)])
    (hwrites : DdbShell.writes events = []) :
    LoopRun read template wantRv budget startKey acct events (.error e) := by
  refine ⟨?_, .inl ?_, nofun, nofun⟩
  · rw [hreads]
    exact ⟨rfl, rfl⟩
  · rw [enumerated, hreads, written, hwrites]
    rfl

/-- A write of the page ended the statement. -/
theorem writeError {e : Error} (h : PageEvents (read.startingAt startKey) page front items)
    (hwritten : WritesItems template page.items items) :
    LoopRun read template wantRv budget startKey acct (front ++ (items ++ [])) (.error e) := by
  refine ⟨?_, ?_, nofun, nofun⟩
  · rw [h.reads_eq]
    refine ⟨rfl, ?_⟩
    dsimp only
    split <;> trivial
  · have hrows : enumerated (front ++ (items ++ [])) = page.items :=
      (h.enumerated_eq []).trans (List.append_nil _)
    rw [hrows]
    exact h.writesItems (by rwa [List.append_nil])

/-- The page was the last one. -/
theorem lastPage {blocks : List ExplainBlock}
    (h : PageEvents (read.startingAt startKey) page front items)
    (hall : written items = page.items.map (itemWrite template))
    (hkey : continuation page.lastEvaluatedKey = none) :
    LoopRun read template wantRv budget startKey acct (front ++ (items ++ []))
      (.ok (blocks, acct.counts wantRv (answers items))) := by
  have hwritten : written (front ++ (items ++ [])) =
      (enumerated (front ++ (items ++ []))).map (itemWrite template) := by
    rw [h.written_eq, h.enumerated_eq, hall, List.map_append]
    rfl
  refine ⟨?_, .inl hwritten, nofun, ?_⟩
  · rw [h.reads_eq]
    refine ⟨rfl, ?_⟩
    dsimp only
    rw [hkey]
    rfl
  · intro blocks₁ acct₁ hok
    cases hok
    refine ⟨⟨[], _, page, h.reads_eq [], hkey⟩, hwritten, ?_⟩
    rw [h.answers_eq]
    exact congrArg _ (List.append_nil _).symm

/-- The loop went on after the page. -/
theorem nextPage {key : ValueMap} (h : PageEvents (read.startingAt startKey) page front items)
    (hall : written items = page.items.map (itemWrite template))
    (hkey : continuation page.lastEvaluatedKey = some key)
    (hrest : LoopRun read template wantRv budget (some key)
      (acct.counts wantRv (answers items)) rest ending) :
    LoopRun read template wantRv (budget + 1) startKey acct (front ++ (items ++ rest))
      ending := by
  have hwritten (hrest : written rest = (enumerated rest).map (itemWrite template)) :
      written (front ++ (items ++ rest)) =
        (enumerated (front ++ (items ++ rest))).map (itemWrite template) := by
    rw [h.written_eq, h.enumerated_eq, hall, hrest, List.map_append]
  refine ⟨?_, ?_, ?_, ?_⟩
  · rw [h.reads_eq]
    refine ⟨rfl, ?_⟩
    dsimp only
    rw [hkey]
    exact hrest.chained
  · rw [h.enumerated_eq]
    exact h.writesItems (.append hall hrest.writes)
  · intro hcut
    obtain ⟨hlength, hall'⟩ := hrest.cut hcut
    rw [h.reads_eq, List.length_cons, hlength]
    exact ⟨rfl, hwritten hall'⟩
  · intro blocks₁ acct₁ hok
    obtain ⟨⟨pages, request, last, hpages, hlast⟩, hall', hacct⟩ :=
      hrest.finished blocks₁ acct₁ hok
    refine ⟨⟨(read.startingAt startKey, .ok page) :: pages, request, last, ?_, hlast⟩,
      hwritten hall', ?_⟩
    · rw [h.reads_eq, hpages, List.cons_append]
    · rw [hacct, h.answers_eq, BulkWriteOutcome.counts_append]

end LoopRun

/-- The invariant of the page loop, by induction on its budget of pages. -/
theorem runs_bulkLoop {read : WriteReadPlan} {template : WriteTemplate} {wantRv : Bool}
    {budget : Nat} {startKey : Option ValueMap} {blocks : List ExplainBlock}
    {acct : BulkWriteOutcome} {counter counter' : Nat} {events : List RunEvent}
    {ending : Ending (List ExplainBlock × BulkWriteOutcome)}
    (h : Runs (bulkLoop false false read template wantRv budget startKey blocks acct)
      counter events (ending, counter')) :
    LoopRun read template wantRv budget startKey acct events ending := by
  induction budget generalizing startKey blocks acct counter events with
  | zero =>
      obtain ⟨rfl, hresult⟩ := runs_cut h
      cases hresult
      exact ⟨trivial, .inl rfl, fun _ => ⟨rfl, rfl⟩, nofun⟩
  | succ budget ih =>
      rcases runs_bulkLoop_turn h with ⟨e, hreads, hwrites, rfl⟩ |
        ⟨page, front, items, rest, rfl, hreads, hwrites, hquiet, hwritten, hend⟩
      · exact .readError hreads hwrites
      · have hpage : PageEvents (read.startingAt startKey) page front items :=
          ⟨hreads, hwrites, hquiet⟩
        rcases hend with ⟨rfl, e, rfl⟩ | ⟨acct', blocks', middle, hall, rfl, hnext⟩
        · exact .writeError hpage hwritten
        · cases hkey : continuation page.lastEvaluatedKey with
          | none =>
              rw [hkey] at hnext
              obtain ⟨rfl, rfl⟩ := hnext
              exact .lastPage hpage hall hkey
          | some key =>
              rw [hkey] at hnext
              exact .nextPage hpage hall hkey (ih hnext)

/-! ### The statements -/

namespace BulkCmd

def table : BulkCmd → String
  | .update cmd => cmd.table
  | .delete cmd => cmd.table

def index : BulkCmd → Option String
  | .update cmd => cmd.index
  | .delete cmd => cmd.index

def ratelimit : BulkCmd → Bool
  | .update cmd => cmd.ratelimit
  | .delete cmd => cmd.ratelimit

def wantRv : BulkCmd → Bool
  | .update cmd => decide (cmd.returnValue ≠ .none)
  | .delete cmd => decide (cmd.returnValue ≠ .none)

def verb : BulkCmd → WriteVerb
  | .update cmd => if cmd.upsert then .upsert else .update
  | .delete _ => .del

/-- The clause, if it names the full base key: then a single item is written. -/
def pinned (base : ResolvedKeySchema) : BulkCmd → Option Where
  | .update cmd => cmd.condition.filter fun w => w.canUpdateItem base.pk base.rk
  | .delete cmd => cmd.condition.filter fun w => w.canDeleteItem base.pk base.rk

def writeTemplate (base : ResolvedKeySchema) (aliasPrefix : String) : BulkCmd → WriteTemplate
  | .update cmd =>
      .update (makeUpdateRequest cmd (base.pk.headD "") (base.rk.headD "")
        ⟨aliasPrefix, 1, 1, ∅, ∅⟩).1
  | .delete cmd =>
      .delete (makeDeleteRequest cmd (base.pk.headD "") (base.rk.headD "")
        ⟨aliasPrefix, 1, 1, ∅, ∅⟩).1

def readPlan (cmd : BulkCmd) (base : ResolvedKeySchema) (qplan : Option QueryKeyPlan)
    (aliasPrefix : String) : WriteReadPlan :=
  (buildWriteRead cmd.table cmd.index cmd.condition qplan (base.pk.headD "")
    (base.rk.headD "") cmd.ratelimit ⟨aliasPrefix, 1, 1, ∅, ∅⟩).1

/-- Run the statement, with a budget of pages. -/
def execute (budget : Nat) : BulkCmd → Exec Unit
  | .update cmd => executeUpdate budget cmd false
  | .delete cmd => executeDelete budget cmd false

/-- The statement after its page loop is planned. -/
def executeBulk (budget : Nat) (cmd : BulkCmd) (read : WriteReadPlan) (template : WriteTemplate) :
    Exec Unit := do
  let result ← bulkLoop false false read template cmd.wantRv budget none [] { verb := cmd.verb }
  emitBulk false result

/-- UPDATE and DELETE take the same steps. -/
theorem execute_eq (budget : Nat) (cmd : BulkCmd) : cmd.execute budget = (do
    let base ← resolveKeySchema cmd.table ""
    let writePrefix ← nextPrefix
    match cmd.pinned base with
    | some w => executeOne false ((cmd.writeTemplate base writePrefix).keyed
        (keyOf (w.getGudKey base.pk base.rk))) cmd.wantRv cmd.verb
    | none => do
        let qplan ← enumerationPlan cmd.table cmd.index cmd.condition base
        let readPrefix ← nextPrefix
        executeBulk budget cmd (cmd.readPlan base qplan readPrefix)
          (cmd.writeTemplate base writePrefix)) := by
  cases cmd with
  | update cmd => rfl
  | delete cmd => rfl

end BulkCmd

/-- A key schema lookup is one DescribeTable. -/
theorem runs_resolveKeySchema {table index : String} {counter counter' : Nat}
    {events : List RunEvent} {ending : Ending ResolvedKeySchema}
    (h : Runs (resolveKeySchema table index) counter events (ending, counter')) :
    counter' = counter ∧ ∃ answer : Except Error DescribeTableOut,
      events = [⟨.client (.describeTable table), answer⟩] ∧
      ((∃ e, ending = .error e ∧ ∀ described base, answer = .ok described →
          getKeySchema (fun _ => .ok described) table index ≠ .ok base) ∨
        ∃ described base, answer = .ok described ∧
          getKeySchema (fun _ => .ok described) table index = .ok base ∧ ending = .ok base) := by
  rcases runs_bind h with
    ⟨before, described, middle, after, rfl, hcall, hrest⟩ | ⟨e, middle, heq, hcall⟩ |
      ⟨middle, heq, hcall⟩
  · obtain ⟨answer, rfl, hresult⟩ := runs_call hcall
    obtain ⟨hanswer, rfl⟩ := Prod.mk.inj hresult
    cases answer with
    | error e => cases hanswer
    | ok described' =>
        cases hanswer
        cases hschema : getKeySchema (fun _ => .ok described) table index with
        | error e =>
            rw [hschema] at hrest
            obtain ⟨rfl, hresult⟩ := runs_throw hrest
            cases hresult
            refine ⟨rfl, _, rfl, .inl ⟨e, rfl, ?_⟩⟩
            intro described' base heq hbase
            cases heq
            rw [hschema] at hbase
            cases hbase
        | ok base =>
            rw [hschema] at hrest
            obtain ⟨rfl, hresult⟩ := runs_pure hrest
            cases hresult
            exact ⟨rfl, _, rfl, .inr ⟨described, base, rfl, hschema, rfl⟩⟩
  · cases heq
    obtain ⟨answer, rfl, hresult⟩ := runs_call hcall
    refine ⟨(Prod.mk.inj hresult).2, answer, rfl, .inl ⟨e, rfl, ?_⟩⟩
    rintro described base rfl
    cases hresult
  · obtain ⟨answer, rfl, hresult⟩ := runs_call hcall
    cases answer <;> cases hresult

/-- Planning the enumeration reads and writes nothing. -/
theorem runs_enumerationPlan {table : String} {index : Option String}
    {condition : Option Where} {base : ResolvedKeySchema} {counter counter' : Nat}
    {events : List RunEvent} {ending : Ending (Option QueryKeyPlan)}
    (h : Runs (enumerationPlan table index condition base) counter events (ending, counter')) :
    counter' = counter ∧ reads events = [] ∧ writes events = [] ∧ ending ≠ .cut := by
  cases index with
  | none =>
      obtain ⟨rfl, hresult⟩ := runs_pure h
      cases hresult
      exact ⟨rfl, rfl, rfl, nofun⟩
  | some index =>
      rcases runs_bind h with
        ⟨before, schema, middle, after, rfl, hlookup, hrest⟩ | ⟨e, middle, heq, hlookup⟩ |
          ⟨middle, heq, hlookup⟩
      · obtain ⟨rfl, answer, rfl, -⟩ := runs_resolveKeySchema hlookup
        obtain ⟨rfl, hresult⟩ := runs_pure hrest
        cases hresult
        exact ⟨rfl, rfl, rfl, nofun⟩
      · cases heq
        obtain ⟨rfl, answer, rfl, -⟩ := runs_resolveKeySchema hlookup
        exact ⟨rfl, rfl, rfl, nofun⟩
      · obtain ⟨-, answer, -, ⟨e, he, -⟩ | ⟨_, _, -, -, he⟩⟩ := runs_resolveKeySchema hlookup
        · cases he
        · cases he

theorem halts_resolveKeySchema (table index : String) :
    HaltsOnError (resolveKeySchema table index) :=
  halts_call.bind fun _ => halts_ofExcept _

theorem halts_enumerationPlan (table : String) (index : Option String)
    (condition : Option Where) (base : ResolvedKeySchema) :
    HaltsOnError (enumerationPlan table index condition base) := by
  cases index with
  | none => exact halts_pure _
  | some index => exact (halts_resolveKeySchema _ _).bind fun _ => halts_pure _

theorem halts_executeBulk (budget : Nat) (cmd : BulkCmd) (read : WriteReadPlan)
    (template : WriteTemplate) : HaltsOnError (cmd.executeBulk budget read template) :=
  (halts_bulkLoop _ _ _ _ _ _ _).bind fun _ => halts_emit _

/-! ### Counting -/

/-- The items RETURN VALUES shows: one for every write that went through. -/
def returned (answers : List (Except Error WriteOut)) : List ItemRow :=
  answers.filterMap fun
    | .ok out => some (out.attributes.getD {})
    | .error _ => none

/-- The counters after any number of writes. -/
theorem BulkWriteOutcome.counts_eq (wantRv : Bool) (acct : BulkWriteOutcome)
    (answers : List (Except Error WriteOut)) :
    (acct.counts wantRv answers).read = acct.read + answers.length ∧
      (acct.counts wantRv answers).modified = acct.modified + (returned answers).length ∧
      (acct.counts wantRv answers).modified + (acct.counts wantRv answers).ccf =
        acct.modified + acct.ccf + answers.length ∧
      (acct.counts wantRv answers).returnedItems =
        if wantRv then acct.returnedItems ++ returned answers else acct.returnedItems := by
  induction answers generalizing acct with
  | nil => simp [counts, returned]
  | cons answer answers ih =>
      obtain ⟨hread, hmodified, hsum, hreturned⟩ := ih (acct.count wantRv answer)
      have hstep : acct.counts wantRv (answer :: answers) =
          (acct.count wantRv answer).counts wantRv answers := rfl
      rw [hstep, hread, hmodified, hreturned]
      rw [hmodified] at hsum
      cases answer with
      | ok out =>
          simp only [count, wrote, returned, List.filterMap_cons, List.length_cons] at hsum ⊢
          refine ⟨by omega, by omega, by omega, ?_⟩
          cases wantRv <;> simp
      | error e =>
          simp only [count, failedCondition, returned, List.filterMap_cons,
            List.length_cons] at hsum ⊢
          exact ⟨by omega, trivial, by omega, trivial⟩

/-- The key of a write holds the attributes of its row. -/
theorem lookup_rowKey (item : ItemRow) (name : String) :
    (rowKey item).lookup name = item.attributes.lookup name := by
  rw [rowKey, keyOf, Maps.lookup_toList, Maps.foldl_insertIfNew_getElem?]
  simp

/-- What a finished bulk statement has done, whatever the client answered. -/
structure BulkAccounted (budget : Nat) (cmd : BulkCmd) (read : WriteReadPlan)
    (template : WriteTemplate) (events : List RunEvent) (ending : Ending Unit) : Prop where
  /-- every page is requested after the last key of the page before it, and none
  after a page without one -/
  chained : Chained read none (reads events)
  /-- one write per enumerated item, in order, up to a write that ends the statement -/
  written : WritesItems template (enumerated events) events
  /-- the key of each write is its item's attributes -/
  keyed : ∀ item ∈ enumerated events, ∀ name,
    (rowKey item).lookup name = item.attributes.lookup name
  /-- nothing follows the first error that is not a failed condition -/
  halted : ∀ before event after, events = before ++ event :: after →
    event.hardError = true → after = []
  finished : ending = .ok () → Exhausted (reads events) ∧
    DdbShell.written events = (enumerated events).map (itemWrite template) ∧
    ∃ before acct, events = before ++ [⟨.emit (.bulkWrite acct), ()⟩] ∧
      acct.read = (enumerated events).length ∧ acct.read = acct.modified + acct.ccf ∧
      (cmd.wantRv = true → acct.returnedItems = returned (answers events) ∧
        acct.returnedItems.length = acct.modified)
  cut : ending = .cut → (reads events).length = budget

/-- The loop's invariant, carried to the end of the statement. -/
theorem bulkAccounted_of_loop {budget : Nat} {cmd : BulkCmd} {read : WriteReadPlan}
    {template : WriteTemplate} {counter counter' : Nat} {lookups events : List RunEvent}
    {ending : Ending Unit} (hreads : reads lookups = []) (hwrites : writes lookups = [])
    (hhalted : Halted (lookups ++ events) ending)
    (h : Runs (cmd.executeBulk budget read template) counter events (ending, counter')) :
    BulkAccounted budget cmd read template (lookups ++ events) ending := by
  have hpages (events : List RunEvent) : reads (lookups ++ events) = reads events := by
    rw [reads_append, hreads]
    rfl
  have hitems (events : List RunEvent) : enumerated (lookups ++ events) = enumerated events := by
    rw [enumerated, hpages]
    rfl
  have hrequests (events : List RunEvent) : writes (lookups ++ events) = writes events := by
    rw [writes_append, hwrites]
    rfl
  have hnone : written lookups = ([] : List ItemRow).map (itemWrite template) := by
    rw [written, hwrites]
    rfl
  rcases runs_bind h with
    ⟨before, ⟨blocks, acct⟩, middle, after, rfl, hloop, hemit⟩ | ⟨e, middle, heq, hloop⟩ |
      ⟨middle, heq, hloop⟩
  · obtain ⟨rfl, hresult⟩ := runs_emit hemit
    cases hresult
    have hrun := runs_bulkLoop hloop
    obtain ⟨hexhausted, hall, hacct⟩ := hrun.finished _ _ rfl
    obtain ⟨hread, hmodified, hsum, hreturned⟩ :=
      BulkWriteOutcome.counts_eq cmd.wantRv { verb := cmd.verb } (answers before)
    rw [← hacct] at hread hmodified hsum hreturned
    have hlength : (answers before).length = (enumerated before).length := by
      have := congrArg List.length hall
      simpa [written, answers] using this
    have hpages' : reads (before ++ [⟨.emit (.bulkWrite acct), ()⟩]) = reads before := by
      rw [reads_append]
      exact List.append_nil _
    have hwrites' : writes (before ++ [⟨.emit (.bulkWrite acct), ()⟩]) = writes before := by
      rw [writes_append]
      exact List.append_nil _
    have hitems' : enumerated (before ++ [⟨.emit (.bulkWrite acct), ()⟩]) = enumerated before := by
      rw [enumerated, hpages']
      rfl
    have hwritten : written (lookups ++ (before ++ [⟨.emit (.bulkWrite acct), ()⟩])) =
        (enumerated (lookups ++ (before ++ [⟨.emit (.bulkWrite acct), ()⟩]))).map
          (itemWrite template) := by
      rw [hitems, hitems', ← hall, written, hrequests, hwrites']
      rfl
    refine ⟨?_, .inl hwritten, fun item _ => lookup_rowKey item,
      fun _ _ _ => hhalted.nothing_after, ?_, nofun⟩
    · rw [hpages, hpages']
      exact hrun.chained
    · intro _
      refine ⟨?_, hwritten, lookups ++ before, acct, by rw [List.append_assoc], ?_, ?_, ?_⟩
      · rw [hpages, hpages']
        exact hexhausted
      · rw [hitems, hitems', hread, hlength]
        exact Nat.zero_add _
      · simp only at hread hsum
        omega
      · intro hrv
        rw [hrv] at hreturned
        have hitems'' : acct.returnedItems = returned (answers before) := hreturned
        refine ⟨?_, ?_⟩
        · rw [hitems'', answers, answers, hrequests, hwrites']
        · rw [hitems'', hmodified]
          exact (Nat.zero_add _).symm
  · cases heq
    have hrun := runs_bulkLoop hloop
    refine ⟨?_, ?_, fun item _ => lookup_rowKey item,
      fun _ _ _ => hhalted.nothing_after, nofun, nofun⟩
    · rw [hpages]
      exact hrun.chained
    · rw [hitems]
      exact WritesItems.append hnone hrun.writes
  · cases heq
    have hrun := runs_bulkLoop hloop
    refine ⟨?_, ?_, fun item _ => lookup_rowKey item,
      fun _ _ _ => hhalted.nothing_after, nofun, ?_⟩
    · rw [hpages]
      exact hrun.chained
    · rw [hitems]
      exact WritesItems.append hnone hrun.writes
    · intro _
      rw [hpages]
      exact (hrun.cut rfl).1

/-- A lookup failed before the first page. -/
theorem bulkAccounted_of_lookups {budget : Nat} {cmd : BulkCmd} {read : WriteReadPlan}
    {template : WriteTemplate} {events : List RunEvent} {e : Error}
    (hreads : reads events = []) (hwrites : writes events = [])
    (hhalted : Halted events (.error e : Ending Unit)) :
    BulkAccounted budget cmd read template events (.error e) := by
  refine ⟨?_, .inl ?_, fun item _ => lookup_rowKey item,
    fun _ _ _ => hhalted.nothing_after, nofun, nofun⟩
  · rw [hreads]
    trivial
  · rw [enumerated, hreads, written, hwrites]
    rfl

/-- The enumeration of a statement whose key schema and clause are known. -/
def BulkCmd.enumerate (budget : Nat) (cmd : BulkCmd) (base : ResolvedKeySchema)
    (template : WriteTemplate) : Exec Unit := do
  let qplan ← enumerationPlan cmd.table cmd.index cmd.condition base
  let readPrefix ← nextPrefix
  cmd.executeBulk budget (cmd.readPlan base qplan readPrefix) template

theorem halts_enumerate (budget : Nat) (cmd : BulkCmd) (base : ResolvedKeySchema)
    (template : WriteTemplate) : HaltsOnError (cmd.enumerate budget base template) :=
  (halts_enumerationPlan _ _ _ _).bind fun _ => halts_nextPrefix.bind fun _ =>
    halts_executeBulk _ _ _ _

theorem bulkAccounted_of_enumerate {budget : Nat} {cmd : BulkCmd} {base : ResolvedKeySchema}
    {template : WriteTemplate} {counter counter' : Nat} {lookup events : List RunEvent}
    {ending : Ending Unit} (hreads : reads lookup = []) (hwrites : writes lookup = [])
    (hclean : Clean lookup)
    (h : Runs (cmd.enumerate budget base template) counter events (ending, counter')) :
    ∃ qplan, BulkAccounted budget cmd (cmd.readPlan base qplan (uniquePrefix counter)) template
      (lookup ++ events) ending := by
  have hhalted : Halted (lookup ++ events) ending :=
    .append hclean (halts_enumerate _ _ _ _ _ _ _ _ h)
  rcases runs_bind h with
    ⟨before, qplan, middle, after, rfl, hplan, hrest⟩ | ⟨e, middle, heq, hplan⟩ |
      ⟨middle, heq, hplan⟩
  · obtain ⟨rfl, hreads', hwrites', -⟩ := runs_enumerationPlan hplan
    rw [← List.append_assoc] at hhalted ⊢
    refine ⟨qplan, bulkAccounted_of_loop ?_ ?_ hhalted (runs_nextPrefix_bind hrest)⟩
    · rw [reads_append, hreads, hreads']
      rfl
    · rw [writes_append, hwrites, hwrites']
      rfl
  · cases heq
    obtain ⟨-, hreads', hwrites', -⟩ := runs_enumerationPlan hplan
    refine ⟨none, bulkAccounted_of_lookups ?_ ?_ hhalted⟩
    · rw [reads_append, hreads, hreads']
      rfl
    · rw [writes_append, hwrites, hwrites']
      rfl
  · exact absurd rfl (runs_enumerationPlan hplan).2.2.2

/-- The base key schema a run has resolved with its first call. -/
def ResolvedBase (cmd : BulkCmd) (events : List RunEvent) (base : ResolvedKeySchema) : Prop :=
  ∃ described, events.head? = some ⟨.client (.describeTable cmd.table), .ok described⟩ ∧
    getKeySchema (fun _ => .ok described) cmd.table "" = .ok base

theorem resolvedBase_cons {cmd : BulkCmd} {answer : Except Error DescribeTableOut}
    {rest : List RunEvent} {base : ResolvedKeySchema}
    (h : ResolvedBase cmd (⟨.client (.describeTable cmd.table), answer⟩ :: rest) base) :
    ∃ described, answer = .ok described ∧
      getKeySchema (fun _ => .ok described) cmd.table "" = .ok base := by
  obtain ⟨described, hhead, hbase⟩ := h
  cases hhead
  exact ⟨described, rfl, hbase⟩

/-- The run of a bulk statement: one write of the template per enumerated item,
pages chained by their last keys, counters that add up, and nothing after an
error. -/
theorem bulk_write_accounting (budget counter : Nat) (cmd : BulkCmd) (events : List RunEvent)
    (ending : Ending Unit) (counter' : Nat)
    (h : Runs (cmd.execute budget) counter events (ending, counter'))
    (hbulk : ∀ base, ResolvedBase cmd events base → cmd.pinned base = none) :
    ∃ read template,
      (∀ base, ResolvedBase cmd events base →
        template = cmd.writeTemplate base (uniquePrefix counter) ∧
          ∃ qplan, read = cmd.readPlan base qplan (uniquePrefix (counter + 1))) ∧
      BulkAccounted budget cmd read template events ending := by
  rw [BulkCmd.execute_eq] at h
  have hhalts := halts_resolveKeySchema cmd.table ""
  rcases runs_bind h with
    ⟨before, base, middle, after, rfl, hlookup, hrest⟩ | ⟨e, middle, heq, hlookup⟩ |
      ⟨middle, heq, hlookup⟩
  · obtain ⟨rfl, answer, rfl, ⟨e, he, -⟩ | ⟨described, base', rfl, hbase, hok⟩⟩ :=
      runs_resolveKeySchema hlookup
    · cases he
    · cases hok
      have hrest := runs_nextPrefix_bind hrest
      rw [hbulk base ⟨described, rfl, hbase⟩] at hrest
      obtain ⟨qplan, haccounted⟩ :=
        bulkAccounted_of_enumerate rfl rfl (hhalts.clean hlookup nofun) hrest
      refine ⟨_, _, ?_, haccounted⟩
      intro base' hresolved
      obtain ⟨described', heq, hbase'⟩ := resolvedBase_cons hresolved
      cases heq
      rw [hbase] at hbase'
      cases hbase'
      exact ⟨rfl, qplan, rfl⟩
  · cases heq
    have hhalted : Halted events (.error e : Ending Unit) := (hhalts _ _ _ _ hlookup).ofError
    obtain ⟨rfl, answer, rfl, ⟨e', he, hnone⟩ | ⟨_, _, -, -, hok⟩⟩ := runs_resolveKeySchema hlookup
    · refine ⟨cmd.readPlan ⟨[], []⟩ none "", cmd.writeTemplate ⟨[], []⟩ "", ?_,
        bulkAccounted_of_lookups rfl rfl hhalted⟩
      intro base hresolved
      obtain ⟨described, heq, hbase⟩ := resolvedBase_cons hresolved
      exact absurd hbase (hnone described base heq)
    · cases hok
  · obtain ⟨-, answer, -, ⟨e, he, -⟩ | ⟨_, _, -, -, he⟩⟩ := runs_resolveKeySchema hlookup
    · cases he
    · cases he

/-- `UPDATE t SET a = 1` on a table with partition key `p`. -/
def setAllOnes : BulkCmd :=
  .update { table := "t", mutation := .set [{ lhs := "a", rhsValue := some (.N "1") }] }

/-- A client that gives an empty page, then one with two items, and fails the
condition of the second write. -/
def twoPages (step : Nat) : (op : Effect) → Effect.Answer op × Nat
  | .client (.describeTable _) => (.ok { keySchema := ⟨["p"], []⟩ }, step + 1)
  | .client (.scan _) =>
      if step = 1 then (.ok { lastEvaluatedKey := some [("p", .S "x")] }, step + 1)
      else (.ok { items := [⟨[("p", .S "y")]⟩, ⟨[("p", .S "z")]⟩] }, step + 1)
  | .client (.updateItem _) =>
      if step = 3 then (.ok {}, step + 1)
      else (.error ⟨.conditionalCheckFailed, ""⟩, step + 1)
  | .client _ => (.error ⟨.internalError, ""⟩, step + 1)
  | .emit _ => ((), step)

theorem setAllOnes_accounted : ∃ read template,
    BulkAccounted 2 setAllOnes read template
      ((setAllOnes.execute 2 0).runWith twoPages 0).1 (.ok ()) := by
  have hruns := Program.runs_runWith twoPages (setAllOnes.execute 2 0) 0
  have hresult : ((setAllOnes.execute 2 0).runWith twoPages 0).2.1 = (.ok (), 2) := by rfl
  rw [hresult] at hruns
  obtain ⟨read, template, -, h⟩ := bulk_write_accounting 2 0 setAllOnes _ _ _ hruns fun _ _ => rfl
  exact ⟨read, template, h⟩

end DdbShell
