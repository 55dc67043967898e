import DdbShell.Execute.AllOrNothing
import DdbShell.Execute.Lookups

/-!
EXPLAIN shows what execution does. A statement is played twice, with the flag
and without it, against two clients that answer lookups and reads alike; the
requests the first run serializes are those the second run sends. The runs are
coupled step by step: both mint the same prefixes, follow the same pages and
copy the same template.

A SELECT shows its first page only. An INSERT stops at the first row that is
not written, so that its run may send fewer rows than are shown.
-/

namespace DdbShell

open Exec

/-! ### Requests of a run -/

namespace RunEvent

/-- A serialized request. -/
def explained? : RunEvent → Option ExplainRequest
  | ⟨.client (.explainRequest request), _⟩ => some request
  | _ => none

/-- A request that was sent, lookups aside. -/
def request? : RunEvent → Option ExplainRequest
  | ⟨.client (.getItem r), _⟩ => some (.getItem r)
  | ⟨.client (.query r), _⟩ => some (.query r)
  | ⟨.client (.scan r), _⟩ => some (.scan r)
  | ⟨.client (.searchVectors r), _⟩ => some (.searchVectors r)
  | ⟨.client (.putItem r), _⟩ => some (.putItem r)
  | ⟨.client (.updateItem r), _⟩ => some (.updateItem r)
  | ⟨.client (.transactGetItems items), _⟩ => some (.transactGetItems items)
  | ⟨.client (.transactWriteItems items), _⟩ => some (.transactWriteItems items)
  | _ => none

end RunEvent

def explainedRequests (events : List RunEvent) : List ExplainRequest :=
  events.filterMap RunEvent.explained?

def sentRequests (events : List RunEvent) : List ExplainRequest :=
  events.filterMap RunEvent.request?

/-! ### Two clients -/

/-- The calls both runs make and get the same answers to. -/
def Effect.looks : Effect → Bool
  | .client (.describeTable _) | .client (.getItem _) | .client (.query _)
  | .client (.scan _) | .client (.searchVectors _) => true
  | _ => false

/-- The client of a real run and that of an EXPLAIN run. Lookups and reads
come from a state of their own, which no other call changes. -/
structure TwinClients (σ τ υ : Type) where
  look : σ → (op : Effect) → op.Answer × σ
  real : σ × τ → (op : Effect) → op.Answer × τ
  dry : σ × υ → (op : Effect) → op.Answer × υ
  /-- a put succeeds or fails its condition -/
  put_fails : ∀ s request e,
    (real s (.client (.putItem request))).1 = .error e → e.code = .conditionalCheckFailed
  /-- an update succeeds or fails its condition -/
  update_fails : ∀ s request e,
    (real s (.client (.updateItem request))).1 = .error e → e.code = .conditionalCheckFailed
  /-- every request can be serialized -/
  serializes : ∀ s request, ∃ body, (dry s (.client (.explainRequest request))).1 = .ok body

namespace TwinClients

variable {σ τ υ : Type}

/-- A client that looks with `look` and does everything else with `other`. -/
def reply {ρ : Type} (look : σ → (op : Effect) → op.Answer × σ)
    (other : σ × ρ → (op : Effect) → op.Answer × ρ) (s : σ × ρ) (op : Effect) :
    op.Answer × (σ × ρ) :=
  if op.looks then ((look s.1 op).1, ((look s.1 op).2, s.2))
  else ((other s op).1, (s.1, (other s op).2))

def realReply (c : TwinClients σ τ υ) : σ × τ → (op : Effect) → op.Answer × (σ × τ) :=
  reply c.look c.real

def dryReply (c : TwinClients σ τ υ) : σ × υ → (op : Effect) → op.Answer × (σ × υ) :=
  reply c.look c.dry

end TwinClients

/-- Two runs that end alike. -/
inductive EndsAlike {α β : Type} (R : α → β → Prop) : Ending α → Ending β → Prop where
  | ok {a : α} {b : β} (h : R a b) : EndsAlike R (.ok a) (.ok b)
  | error (e : Error) : EndsAlike R (.error e) (.error e)
  | cut : EndsAlike R .cut .cut

section Coupling

variable {σ τ υ : Type} (c : TwinClients σ τ υ)

/-- Played from the same counter and read state, `y` serializes what `x`
sends, and they end alike. -/
def Couples {α β : Type} (R : α → β → Prop) (x : Exec α) (y : Exec β) : Prop :=
  ∀ counter s t u,
    explainedRequests (play c.dryReply y counter (s, u)).1 =
        sentRequests (play c.realReply x counter (s, t)).1 ∧
      EndsAlike R (play c.realReply x counter (s, t)).2.1.1
        (play c.dryReply y counter (s, u)).2.1.1 ∧
      (play c.realReply x counter (s, t)).2.1.2 = (play c.dryReply y counter (s, u)).2.1.2 ∧
      (play c.realReply x counter (s, t)).2.2.1 = (play c.dryReply y counter (s, u)).2.2.1

variable {c} {α β γ δ : Type}

theorem couples_pure {R : α → β → Prop} {a : α} {b : β} (h : R a b) :
    Couples c R (pure a) (pure b) :=
  fun _ _ _ _ => ⟨rfl, .ok h, rfl, rfl⟩

theorem couples_cut {R : α → β → Prop} : Couples c R (cut : Exec α) (cut : Exec β) :=
  fun _ _ _ _ => ⟨rfl, .cut, rfl, rfl⟩

theorem couples_nextPrefix : Couples c Eq nextPrefix nextPrefix :=
  fun _ _ _ _ => ⟨rfl, .ok rfl, rfl, rfl⟩

theorem couples_emit {R : Unit → Unit → Prop} (outcome outcome' : ExecOutcome) (h : R () ()) :
    Couples c R (emit outcome) (emit outcome') :=
  fun _ _ _ _ => ⟨rfl, .ok h, rfl, rfl⟩

/-- Coupled first parts, then parts coupled for every related pair of results. -/
theorem Couples.bind {R : α → β → Prop} {S : γ → δ → Prop} {x : Exec α} {y : Exec β}
    {f : α → Exec γ} {g : β → Exec δ} (hx : Couples c R x y)
    (hf : ∀ a b, R a b → Couples c S (f a) (g b)) : Couples c S (x >>= f) (y >>= g) := by
  intro counter s t u
  obtain ⟨hrequests, hends, hcounter, hstate⟩ := hx counter s t u
  rw [play_bind, play_bind]
  generalize play c.realReply x counter (s, t) = real at hrequests hends hcounter hstate
  generalize play c.dryReply y counter (s, u) = dry at hrequests hends hcounter hstate
  obtain ⟨events, ⟨ending, middle⟩, s', t'⟩ := real
  obtain ⟨events', ⟨ending', middle'⟩, s'', u'⟩ := dry
  dsimp only at hrequests hends hcounter hstate
  subst hcounter hstate
  cases hends with
  | ok h =>
      obtain ⟨hrequests', hends', hcounter', hstate'⟩ := hf _ _ h middle s' t' u'
      refine ⟨?_, hends', hcounter', hstate'⟩
      rw [explainedRequests, sentRequests, List.filterMap_append, List.filterMap_append]
      exact congrArg₂ (· ++ ·) hrequests hrequests'
  | error e => exact ⟨hrequests, .error e, rfl, rfl⟩
  | cut => exact ⟨hrequests, .cut, rfl, rfl⟩

/-- A lookup of a table, which neither run counts. -/
def Effect.isLookup : Effect → Prop
  | .client (.describeTable _) => True
  | _ => False

theorem lookups_uncounted {events : List RunEvent} (h : ∀ event ∈ events, event.op.isLookup) :
    explainedRequests events = [] ∧ sentRequests events = [] := by
  have hnone : ∀ event ∈ events, event.explained? = none ∧ event.request? = none := by
    rintro ⟨op, answer⟩ hevent
    have hop := h _ hevent
    cases op with
    | emit outcome => cases hop
    | client call => cases call <;> first | exact ⟨rfl, rfl⟩ | cases hop
  exact ⟨List.filterMap_eq_nil_iff.mpr fun event hevent => (hnone event hevent).1,
    List.filterMap_eq_nil_iff.mpr fun event hevent => (hnone event hevent).2⟩

/-- What only looks tables up runs alike in both. -/
theorem play_lookups {x : Exec α} (hx : Always Effect.isLookup x) (counter : Nat) (s : σ) (t : τ)
    (u : υ) :
    (play c.realReply x counter (s, t)).1 = (play c.dryReply x counter (s, u)).1 ∧
      (play c.realReply x counter (s, t)).2.1 = (play c.dryReply x counter (s, u)).2.1 ∧
      (play c.realReply x counter (s, t)).2.2.1 = (play c.dryReply x counter (s, u)).2.2.1 := by
  refine Program.runWith_agree (R := fun (a : σ × τ) (b : σ × υ) => a.1 = b.1) (hx counter) ?_ rfl
  intro a b op hop hab
  cases op with
  | emit outcome => cases hop
  | client call =>
      cases call with
      | describeTable table =>
          obtain ⟨s', t'⟩ := a
          obtain ⟨s'', u'⟩ := b
          cases hab
          exact ⟨rfl, rfl⟩
      | _ => cases hop

theorem couples_lookups {x : Exec α} (hx : Always Effect.isLookup x) : Couples c Eq x x := by
  intro counter s t u
  obtain ⟨hevents, hresult, hstate⟩ := play_lookups (c := c) hx counter s t u
  have hlookups : ∀ event ∈ (play c.realReply x counter (s, t)).1, event.op.isLookup :=
    (hx counter).runs (Program.runs_runWith _ _ _)
  rw [← hevents, (lookups_uncounted hlookups).1, (lookups_uncounted hlookups).2, ← hresult]
  refine ⟨rfl, ?_, rfl, hstate⟩
  cases (play c.realReply x counter (s, t)).2.1.1 with
  | ok a => exact .ok rfl
  | error e => exact .error e
  | cut => exact .cut

theorem isLookup_describeTable (table : String) :
    (Effect.client (.describeTable table)).isLookup := trivial

/-! ### Single requests -/

/-- Under EXPLAIN a request is serialized, and nothing else happens. -/
theorem play_explainBlock (apiName : String) (request : ExplainRequest) (counter : Nat) (s : σ)
    (u : υ) :
    ∃ answer block u', play c.dryReply (explainBlock apiName request) counter (s, u) =
      ([⟨.client (.explainRequest request), answer⟩], (.ok block, counter), (s, u')) := by
  obtain ⟨body, hbody⟩ := c.serializes (s, u) request
  refine ⟨.ok body, { apiName := apiName, body := body },
    (c.dry (s, u) (.client (.explainRequest request))).2, ?_⟩
  have hcall : play c.dryReply (call (.explainRequest request)) counter (s, u) =
      ([⟨.client (.explainRequest request), .ok body⟩], (.ok body, counter),
        (s, (c.dry (s, u) (.client (.explainRequest request))).2)) := by
    have hreply : (c.dryReply (s, u) (.client (.explainRequest request))).1 = .ok body := hbody
    rw [play_call, hreply]
    rfl
  rw [explainBlock, play_bind, hcall]
  rfl

/-- An update goes through or fails its condition; the statement goes on. -/
theorem play_writeOne (request : UpdateItemIn) (wantRv : Bool) (acct : BulkWriteOutcome)
    (counter : Nat) (s : σ) (t : τ) :
    ∃ answer acct' t', play c.realReply (writeOne (.update request) wantRv acct) counter (s, t) =
      ([⟨.client (.updateItem request), answer⟩], (.ok acct', counter), (s, t')) := by
  have hattempt : play c.realReply (attemptWrite (.update request)) counter (s, t) =
      ([⟨.client (.updateItem request), (c.real (s, t) (.client (.updateItem request))).1⟩],
        (.ok (c.real (s, t) (.client (.updateItem request))).1, counter),
        (s, (c.real (s, t) (.client (.updateItem request))).2)) := rfl
  rw [writeOne, play_bind, hattempt]
  dsimp only
  cases hanswer : (c.real (s, t) (.client (.updateItem request))).1 with
  | ok out => exact ⟨_, _, _, rfl⟩
  | error e =>
      have hcode : e.code = .conditionalCheckFailed := c.update_fails _ _ _ hanswer
      dsimp only
      rw [if_pos hcode]
      exact ⟨_, _, _, rfl⟩

theorem couples_writeOne (request : UpdateItemIn) (wantRv : Bool) (acct : BulkWriteOutcome) :
    Couples c (fun _ _ => True) (writeOne (.update request) wantRv acct)
      (explainBlock "UpdateItem" (.updateItem request)) := by
  intro counter s t u
  obtain ⟨answer, acct', t', hreal⟩ := play_writeOne (c := c) request wantRv acct counter s t
  obtain ⟨answer', block, u', hdry⟩ :=
    play_explainBlock (c := c) "UpdateItem" (.updateItem request) counter s u
  rw [hreal, hdry]
  exact ⟨rfl, .ok trivial, rfl, rfl⟩

/-- A page that is shown and then read. -/
def shownPage (explain : Bool) (request : WriteReadPlan) (blocks : List ExplainBlock) :
    Exec (List ExplainBlock × PageOut) := do
  let blocks ← explainPage explain request blocks
  let page ← readPage request
  return (blocks, page)

/-- Both clients answer a page request alike. -/
theorem play_readPage (look : σ → (op : Effect) → op.Answer × σ) (request : WriteReadPlan)
    (counter : Nat) (s : σ) :
    ∃ (event : RunEvent) (answer : Except Error PageOut) (s' : σ),
      event.explained? = none ∧ event.request? = some request.explained ∧
      ∀ (ρ : Type) (other : σ × ρ → (op : Effect) → op.Answer × ρ) (r : ρ),
        play (TwinClients.reply look other) (readPage request) counter (s, r) =
          ([event], (.ofAnswer answer, counter), (s', r)) := by
  cases request with
  | query request =>
      refine ⟨⟨.client (.query request), (look s (.client (.query request))).1⟩,
        (look s (.client (.query request))).1,
        (look s (.client (.query request))).2, rfl, rfl, ?_⟩
      intro ρ other r
      exact play_call (TwinClients.reply look other) (.query request) counter (s, r)
  | scan request =>
      refine ⟨⟨.client (.scan request), (look s (.client (.scan request))).1⟩,
        (look s (.client (.scan request))).1,
        (look s (.client (.scan request))).2, rfl, rfl, ?_⟩
      intro ρ other r
      exact play_call (TwinClients.reply look other) (.scan request) counter (s, r)

theorem couples_shownPage (request : WriteReadPlan) (blocks blocks' : List ExplainBlock) :
    Couples c (fun a b => a.2 = b.2) (shownPage false request blocks)
      (shownPage true request blocks') := by
  intro counter s t u
  obtain ⟨event, answer, s', hexplained, hrequest, hplay⟩ :=
    play_readPage c.look request counter s
  obtain ⟨answer', block, u', hdry⟩ :=
    play_explainBlock (c := c) request.apiName request.explained counter s u
  have hreal : play c.realReply (readPage request) counter (s, t) =
      ([event], (.ofAnswer answer, counter), (s', t)) := hplay τ c.real t
  have hshown : play c.dryReply (explainPage true request blocks') counter (s, u) =
      ([⟨.client (.explainRequest request.explained), answer'⟩],
        (.ok (blocks' ++ [block]), counter), (s, u')) := by
    rw [explainPage, if_pos rfl, play_bind, hdry]
    rfl
  have hpage : play c.dryReply (readPage request) counter (s, u') =
      ([event], (.ofAnswer answer, counter), (s', u')) := hplay υ c.dry u'
  have hreal' : play c.realReply (shownPage false request blocks) counter (s, t) =
      ([event], (.ofAnswer (answer.map fun page => (blocks, page)), counter), (s', t)) := by
    change play c.realReply (readPage request >>= fun page => pure (blocks, page)) counter
      (s, t) = _
    rw [play_bind, hreal]
    cases answer <;> rfl
  have hdry' : play c.dryReply (shownPage true request blocks') counter (s, u) =
      ([⟨.client (.explainRequest request.explained), answer'⟩, event],
        (.ofAnswer (answer.map fun page => (blocks' ++ [block], page)), counter), (s', u')) := by
    rw [shownPage, play_bind, hshown]
    dsimp only
    rw [play_bind, hpage]
    cases answer <;> rfl
  rw [hreal', hdry']
  refine ⟨?_, ?_, rfl, rfl⟩
  · have hsent : sentRequests [event] = [request.explained] := by
      rw [sentRequests, List.filterMap_cons_some hrequest]
      rfl
    have hshown' : explainedRequests [event] = [] := by
      rw [explainedRequests, List.filterMap_cons_none hexplained]
      rfl
    rw [hsent]
    exact congrArg (request.explained :: ·) hshown'
  · cases answer with
    | ok page => exact .ok rfl
    | error e => exact .error e

/-! ### UPDATE -/

/-- The writes of a page against their serialization. -/
theorem couples_items (request : UpdateItemIn) (wantRv : Bool) (acct : BulkWriteOutcome)
    (blocks : List ExplainBlock) (items : List ItemRow) :
    Couples c (fun _ _ => True) (writeItems (.update request) wantRv acct items)
      (explainItems (.update request) blocks items) := by
  induction items generalizing acct blocks with
  | nil => exact couples_pure trivial
  | cons item items ih => exact (couples_writeOne _ _ _).bind fun acct block _ => ih _ _

theorem bulkLoop_succ (explain : Bool) (read : WriteReadPlan) (template : WriteTemplate)
    (wantRv : Bool) (budget : Nat) (startKey : Option ValueMap) (blocks : List ExplainBlock)
    (acct : BulkWriteOutcome) :
    bulkLoop explain explain read template wantRv (budget + 1) startKey blocks acct = (do
      let shown ← shownPage explain (read.startingAt startKey) blocks
      let result ← bulkItems explain template wantRv shown.1 acct shown.2.items
      match continuation shown.2.lastEvaluatedKey with
      | none => return result
      | some key =>
          bulkLoop explain explain read template wantRv budget (some key) result.1 result.2) := by
  rw [bulkLoop, shownPage, Exec.bind_assoc]
  refine congrArg _ (funext fun blocks => ?_)
  rw [Exec.bind_assoc]
  rfl

/-- Page by page, whatever the pages are. -/
theorem couples_bulkLoop (read : WriteReadPlan) (request : UpdateItemIn) (wantRv : Bool)
    (budget : Nat) (startKey : Option ValueMap) (blocks blocks' : List ExplainBlock)
    (acct acct' : BulkWriteOutcome) :
    Couples c (fun _ _ => True)
      (bulkLoop false false read (.update request) wantRv budget startKey blocks acct)
      (bulkLoop true true read (.update request) wantRv budget startKey blocks' acct') := by
  induction budget generalizing startKey blocks blocks' acct acct' with
  | zero => exact couples_cut
  | succ budget ih =>
      rw [bulkLoop_succ, bulkLoop_succ]
      refine (couples_shownPage _ _ _).bind fun shown shown' hpage => ?_
      rw [← hpage]
      refine Couples.bind (R := fun _ _ => True) ?_ fun result result' _ => ?_
      · exact (couples_items _ _ _ _ _).bind fun _ _ _ => couples_pure trivial
      · split
        · exact couples_pure trivial
        · exact ih _ _ _ _ _

theorem couples_executeUpdate (budget : Nat) (cmd : UpdateCmd) :
    Couples c Eq (executeUpdate budget cmd false) (executeUpdate budget cmd true) := by
  refine (couples_lookups (always_resolveKeySchema (isLookup_describeTable _) _)).bind ?_
  rintro base _ rfl
  refine couples_nextPrefix.bind ?_
  rintro writePrefix _ rfl
  dsimp only
  split
  · exact (couples_writeOne _ _ _).bind fun _ _ _ => couples_emit _ _ rfl
  · refine (couples_lookups (always_enumerationPlan (isLookup_describeTable _) _ _ _)).bind ?_
    rintro qplan _ rfl
    refine couples_nextPrefix.bind ?_
    rintro readPrefix _ rfl
    exact (couples_bulkLoop _ _ _ _ _ _ _ _ _).bind fun _ _ _ => couples_emit _ _ rfl

end Coupling

/-! ### Statements that only look up before their requests -/

/-- What a real run may send, given what EXPLAIN showed. -/
abbrev Shown := List ExplainRequest → List RunEvent → Prop

/-- Lookups in front of the real run do not matter. -/
structure Shown.Steady (E : Shown) : Prop where
  nil : ∀ events : List RunEvent, (∀ event ∈ events, event.op.isLookup) → E [] events
  append : ∀ (lookups : List RunEvent) (requests : List ExplainRequest) (events : List RunEvent),
    (∀ event ∈ lookups, event.op.isLookup) → E requests events → E requests (lookups ++ events)

/-- Everything that is shown is sent. -/
def Shown.all : Shown := fun requests events => requests = sentRequests events

/-- The first request is shown. -/
def Shown.first : Shown := fun requests events => requests = (sentRequests events).take 1

/-- The run ends with a put whose condition failed. -/
def EndsInFailedPut (events : List RunEvent) : Prop :=
  ∃ (before : List RunEvent) (request : PutItemIn) (e : Error),
    events = before ++ [⟨.client (.putItem request), .error e⟩] ∧
      e.code = .conditionalCheckFailed

/-- All is sent, or all up to a row whose condition failed. -/
def Shown.rows : Shown := fun requests events =>
  requests = sentRequests events ∨ (sentRequests events <+: requests ∧ EndsInFailedPut events)

theorem sentRequests_append_of_lookups {lookups events : List RunEvent}
    (h : ∀ event ∈ lookups, event.op.isLookup) :
    sentRequests (lookups ++ events) = sentRequests events := by
  rw [sentRequests, List.filterMap_append]
  exact congrArg (· ++ sentRequests events) (lookups_uncounted h).2

theorem Shown.steady_all : Shown.all.Steady where
  nil events h := (lookups_uncounted h).2.symm
  append lookups requests events h hE := by
    rw [Shown.all, sentRequests_append_of_lookups h]
    exact hE

theorem Shown.steady_first : Shown.first.Steady where
  nil events h := by
    rw [Shown.first, (lookups_uncounted h).2]
    rfl
  append lookups requests events h hE := by
    rw [Shown.first, sentRequests_append_of_lookups h]
    exact hE

theorem Shown.steady_rows : Shown.rows.Steady where
  nil events h := .inl (lookups_uncounted h).2.symm
  append lookups requests events h hE := by
    rw [Shown.rows, sentRequests_append_of_lookups h]
    rcases hE with hE | ⟨hfront, before, request, e, rfl, hcode⟩
    · exact .inl hE
    · exact .inr ⟨hfront, lookups ++ before, request, e, by rw [List.append_assoc], hcode⟩

section Statements

variable {σ τ υ : Type} (c : TwinClients σ τ υ)

/-- Played from the same counter and read state, `x` sends what `E` allows for
the requests `y` shows. -/
def ShowsAs {α β : Type} (E : Shown) (x : Exec α) (y : Exec β) : Prop :=
  ∀ counter s t u, E (explainedRequests (play c.dryReply y counter (s, u)).1)
    (play c.realReply x counter (s, t)).1

variable {c} {α β γ : Type}

theorem Couples.showsAs {R : α → β → Prop} {x : Exec α} {y : Exec β} (h : Couples c R x y) :
    ShowsAs c .all x y :=
  fun counter s t u => (h counter s t u).1

theorem showsAs_after_lookups {E : Shown} (hE : E.Steady) {x : Exec α}
    (hx : Always Effect.isLookup x) {f : α → Exec β} {g : α → Exec γ}
    (hf : ∀ a, ShowsAs c E (f a) (g a)) : ShowsAs c E (x >>= f) (x >>= g) := by
  intro counter s t u
  obtain ⟨hevents, hresult, hstate⟩ := play_lookups (c := c) hx counter s t u
  have hlookups : ∀ event ∈ (play c.realReply x counter (s, t)).1, event.op.isLookup :=
    (hx counter).runs (Program.runs_runWith _ _ _)
  rw [play_bind, play_bind]
  generalize play c.realReply x counter (s, t) = real at hevents hresult hstate hlookups
  generalize play c.dryReply x counter (s, u) = dry at hevents hresult hstate
  obtain ⟨events, ⟨ending, middle⟩, s', t'⟩ := real
  obtain ⟨events', result, s'', u'⟩ := dry
  dsimp only at hevents hresult hstate
  subst hevents hresult hstate
  cases ending with
  | ok a =>
      have hshown : explainedRequests (events ++ (play c.dryReply (g a) middle (s', u')).1) =
          explainedRequests (play c.dryReply (g a) middle (s', u')).1 := by
        rw [explainedRequests, List.filterMap_append]
        exact congrArg (· ++ explainedRequests _) (lookups_uncounted hlookups).1
      dsimp only
      rw [hshown]
      exact hE.append _ _ _ hlookups (hf a middle s' t' u')
  | error e =>
      dsimp only
      rw [(lookups_uncounted hlookups).1]
      exact hE.nil _ hlookups
  | cut =>
      dsimp only
      rw [(lookups_uncounted hlookups).1]
      exact hE.nil _ hlookups

/-- What follows the last request of the EXPLAIN run does not matter. -/
theorem showsAs_bind_right {E : Shown} {x : Exec α} {y : Exec β} {g : β → Exec γ}
    (h : ShowsAs c E x y)
    (hg : ∀ b counter s, explainedRequests (play c.dryReply (g b) counter s).1 = []) :
    ShowsAs c E x (y >>= g) := by
  intro counter s t u
  have hshown : explainedRequests (play c.dryReply (y >>= g) counter (s, u)).1 =
      explainedRequests (play c.dryReply y counter (s, u)).1 := by
    rw [play_bind]
    generalize play c.dryReply y counter (s, u) = dry
    obtain ⟨events, ⟨ending, middle⟩, s'⟩ := dry
    cases ending with
    | ok b =>
        dsimp only
        rw [explainedRequests, List.filterMap_append]
        exact (congrArg (explainedRequests events ++ ·) (hg b middle s')).trans (List.append_nil _)
    | error e => rfl
    | cut => rfl
  rw [hshown]
  exact h counter s t u

theorem showsAs_explainBlock {E : Shown} {x : Exec α} {apiName : String}
    {request : ExplainRequest}
    (h : ∀ counter s t, E [request] (play c.realReply x counter (s, t)).1) :
    ShowsAs c E x (explainBlock apiName request) := by
  intro counter s t u
  obtain ⟨answer, block, u', hdry⟩ := play_explainBlock (c := c) apiName request counter s u
  rw [hdry]
  exact h counter s t

/-! ### SELECT -/

variable (c) in
/-- The first request the executor sends. -/
def Opens (request : ExplainRequest) (x : Exec α) : Prop :=
  ∀ counter s t,
    (sentRequests (play c.realReply x counter (s, t)).1).head? = some request

theorem Opens.bind {request : ExplainRequest} {x : Exec α} (hx : Opens c request x)
    (f : α → Exec β) : Opens c request (x >>= f) := by
  intro counter s t
  have hfirst := hx counter s t
  rw [play_bind]
  generalize play c.realReply x counter (s, t) = real at hfirst
  obtain ⟨events, ⟨ending, middle⟩, s'⟩ := real
  cases ending with
  | ok a =>
      dsimp only at hfirst ⊢
      rw [sentRequests, List.filterMap_append, List.head?_append]
      rw [sentRequests] at hfirst
      rw [hfirst]
      rfl
  | error e => exact hfirst
  | cut => exact hfirst

theorem Opens.first {request : ExplainRequest} {x : Exec α} (h : Opens c request x)
    (counter : Nat) (s : σ) (t : τ) :
    Shown.first [request] (play c.realReply x counter (s, t)).1 := by
  have hhead := h counter s t
  rw [Shown.first]
  cases hsent : sentRequests (play c.realReply x counter (s, t)).1 with
  | nil =>
      rw [hsent] at hhead
      cases hhead
  | cons first rest =>
      rw [hsent] at hhead
      cases hhead
      rfl

theorem opens_readPage (request : WriteReadPlan) :
    Opens c request.explained (readPage request) := by
  intro counter s t
  obtain ⟨event, answer, s', -, hrequest, hplay⟩ := play_readPage c.look request counter s
  have hreal : play c.realReply (readPage request) counter (s, t) =
      ([event], (.ofAnswer answer, counter), (s', t)) := hplay τ c.real t
  rw [hreal, sentRequests, List.filterMap_cons_some hrequest]
  rfl

theorem opens_selectLoop (budget : Nat) (request : WriteReadPlan) (items : List ItemRow)
    (total : Totalizer) :
    Opens c request.explained (selectLoop (budget + 1) request items total) :=
  (opens_readPage request).bind _

theorem showsAs_select (budget : Nat) (cmd : SelectCmd) (aliasPrefix : String) :
    ShowsAs c .first (emitSingle (executeSelect (budget + 1) cmd aliasPrefix))
      (emitSingle (executeSelectExplain cmd aliasPrefix)) := by
  rw [emitSingle, emitSingle, executeSelect, executeSelectExplain, Exec.bind_assoc,
    Exec.bind_assoc]
  refine showsAs_after_lookups Shown.steady_first
    (always_execPlanSelect (isLookup_describeTable _) _) fun plan => ?_
  rw [Exec.bind_assoc]
  refine showsAs_bind_right (showsAs_explainBlock (Opens.first (Opens.bind ?_ _))) fun _ _ _ => rfl
  cases plan with
  | searchVectors request =>
      refine Opens.bind (fun counter s t => ?_) _
      rw [play_call]
      rfl
  | getItem request =>
      refine Opens.bind (fun counter s t => ?_) _
      rw [play_call]
      rfl
  | query request => exact (opens_selectLoop budget (.query request) [] none).bind _
  | scan request => exact (opens_selectLoop budget (.scan request) [] none).bind _

/-! ### Transactions -/

/-- A send is shown whole, whatever its answer. -/
theorem showsAs_send {call : ClientCall} {request : ExplainRequest}
    (hrequest : ∀ answer, RunEvent.request? ⟨.client call, answer⟩ = some request)
    {show' : call.Out → ExecOutcome} {apiName : String} {outcome : ExplainBlock → ExecOutcome} :
    ShowsAs c .all (do
        let out ← sendTransaction (attempt call)
        emit (show' out))
      (do
        let block ← explainBlock apiName request
        emit (outcome block)) := by
  refine showsAs_bind_right (showsAs_explainBlock ?_) fun _ _ _ => rfl
  intro counter s t
  obtain ⟨answer, shown, hevents⟩ := runs_send
    (Program.runs_runWith c.realReply ((sendTransaction (attempt call) >>= fun out =>
      emit (show' out)) counter) (s, t))
  rw [play, hevents, Shown.all, sentRequests, List.filterMap_cons_some (hrequest answer)]
  rfl

theorem showsAs_transact (cmd : TransactCmd) :
    ShowsAs c .all (executeTransact cmd false) (executeTransact cmd true) := by
  unfold executeTransact
  split
  · exact (couples_emit (R := Eq) _ _ rfl).showsAs
  · cases cmd.access with
    | read =>
        refine showsAs_after_lookups Shown.steady_all (always_buildItems
          (fun b _ _ => always_buildReadItem (fun _ _ => isLookup_describeTable _) b) _)
          fun b => ?_
        split
        · exact (couples_emit (R := Eq) _ _ rfl).showsAs
        · exact showsAs_send fun _ => rfl
    | write =>
        refine showsAs_after_lookups Shown.steady_all (always_buildItems
          (fun b _ _ => always_buildWriteItem (fun _ _ => isLookup_describeTable _) b) _)
          fun b => ?_
        split
        · exact (couples_emit (R := Eq) _ _ rfl).showsAs
        · exact showsAs_send fun _ => rfl

/-! ### INSERT and REPLACE -/

/-- A row that is shown and written, before the rest. -/
theorem Shown.rows_cons {event : RunEvent} {request : ExplainRequest} {outcome : ExecOutcome}
    {requests : List ExplainRequest} {events : List RunEvent}
    (hrequest : event.request? = some request) (h : Shown.rows requests events) :
    Shown.rows (request :: requests) (event :: ⟨.emit outcome, ()⟩ :: events) := by
  have hsent : sentRequests (event :: ⟨.emit outcome, ()⟩ :: events) =
      request :: sentRequests events := by
    rw [sentRequests, List.filterMap_cons_some hrequest]
    rfl
  rw [Shown.rows, hsent]
  rcases h with rfl | ⟨hfront, before, put, e, rfl, hcode⟩
  · exact .inl rfl
  · exact .inr ⟨List.cons_prefix_cons.mpr ⟨rfl, hfront⟩,
      event :: ⟨.emit outcome, ()⟩ :: before, put, e, rfl, hcode⟩

/-- Row by row: the run stops where a condition fails. -/
theorem showsAs_rows (cmd : InsertCmd) (pk : String) (rows : List (List Value))
    (blocks : List ExplainBlock) :
    ShowsAs c .rows (insertRows cmd pk rows) (explainRows cmd pk blocks rows) := by
  induction rows generalizing blocks with
  | nil => exact fun _ _ _ _ => .inl rfl
  | cons row rows ih =>
      rw [insertRows, explainRows]
      refine showsAs_after_lookups Shown.steady_rows (always_makePutRequest cmd pk row)
        fun request => ?_
      intro counter s t u
      obtain ⟨answer, block, u', hdry⟩ :=
        play_explainBlock (c := c) "PutItem" (.putItem request) counter s u
      have hput : play c.realReply (call (.putItem request)) counter (s, t) =
          ([⟨.client (.putItem request), (c.real (s, t) (.client (.putItem request))).1⟩],
            (.ofAnswer (c.real (s, t) (.client (.putItem request))).1, counter),
            (s, (c.real (s, t) (.client (.putItem request))).2)) :=
        play_call c.realReply (.putItem request) counter (s, t)
      rw [play_bind, hdry, play_bind, hput]
      dsimp only
      cases hanswer : (c.real (s, t) (.client (.putItem request))).1 with
      | ok out =>
          have hemit (outcome : ExecOutcome) (t : τ) :
              play c.realReply (emit outcome) counter (s, t) =
                ([⟨.emit outcome, ()⟩], (.ok (), counter),
                  (s, (c.real (s, t) (.emit outcome)).2)) :=
            rfl
          dsimp only [Ending.ofAnswer]
          rw [play_bind, hemit]
          exact Shown.rows_cons rfl (ih _ _ _ _ _)
      | error e =>
          have hcode : e.code = .conditionalCheckFailed := c.put_fails _ _ _ hanswer
          exact .inr ⟨List.cons_prefix_cons.mpr ⟨rfl, List.nil_prefix⟩, [], request, e, rfl, hcode⟩

theorem showsAs_insert (cmd : InsertCmd) :
    ShowsAs c .rows (executeInsertStreaming cmd) (emitSingle (executeInsertExplain cmd)) := by
  rw [emitSingle, executeInsertStreaming, executeInsertExplain, Exec.bind_assoc]
  refine showsAs_after_lookups Shown.steady_rows
    (always_insertPartitionKey (isLookup_describeTable _)) fun pk => ?_
  rw [Exec.bind_assoc]
  exact showsAs_bind_right (showsAs_rows cmd pk cmd.rows []) fun _ _ _ => rfl

end Statements

/-! ### All of them -/

/-- The statements whose EXPLAIN shows their execution. -/
inductive ShownCmd where
  | select (cmd : SelectCmd)
  | insert (cmd : InsertCmd)
  | update (cmd : UpdateCmd)
  | transact (cmd : TransactCmd)

namespace ShownCmd

def explainable : ShownCmd → Explainable
  | .select cmd => .select cmd
  | .insert cmd => .insert cmd
  | .update cmd => .update cmd
  | .transact cmd => .transact cmd

/-- What the run sends of what is shown. -/
def shown : ShownCmd → Shown
  | .select _ => .first
  | .insert _ => .rows
  | .update _ => .all
  | .transact _ => .all

end ShownCmd

/-- From the same alias counter and with the same lookups and reads, a run
sends the requests its EXPLAIN shows, in the same order: a SELECT first of all
the one that is shown, an INSERT all or those up to a row whose condition
failed, an UPDATE and a transaction exactly those. -/
theorem explain_shows_execution {σ τ υ : Type} (c : TwinClients σ τ υ) (budget : Nat)
    (stmt : ShownCmd) (counter : Nat) (s : σ) (t : τ) (u : υ) :
    stmt.shown (explainedRequests
        (play c.dryReply (executeExplained (budget + 1) stmt.explainable) counter (s, u)).1)
      (play c.realReply (executePlain (budget + 1) stmt.explainable) counter (s, t)).1 := by
  cases stmt with
  | select cmd => exact showsAs_select budget cmd (uniquePrefix counter) (counter + 1) s t u
  | insert cmd => exact showsAs_insert cmd counter s t u
  | update cmd => exact (couples_executeUpdate (budget + 1) cmd).showsAs counter s t u
  | transact cmd => exact showsAs_transact cmd counter s t u

/-- `INSERT INTO t (p) VALUES (1), (2)` -/
def twoRows : InsertCmd :=
  { tableName := "t", columns := ["p"], rows := [[.N "1"], [.N "2"]] }

/-- A table with partition key `p` that already has every item. -/
def fullTable : TwinClients Unit Unit Unit where
  look _
    | .client (.describeTable _) => (.ok { keySchema := ⟨["p"], []⟩ }, ())
    | .client _ => (.error ⟨.internalError, ""⟩, ())
    | .emit _ => ((), ())
  real _
    | .client _ => (.error ⟨.conditionalCheckFailed, ""⟩, ())
    | .emit _ => ((), ())
  dry _
    | .client (.explainRequest _) => (.ok "", ())
    | .client _ => (.error ⟨.internalError, ""⟩, ())
    | .emit _ => ((), ())
  put_fails _ _ e h := by
    cases h
    rfl
  update_fails _ _ e h := by
    cases h
    rfl
  serializes _ _ := ⟨"", rfl⟩

/-- The first row fails its condition, and the second, which EXPLAIN shows, is
never sent. -/
theorem twoRows_shows_more :
    explainedRequests
        (play fullTable.dryReply (executeExplained 1 (.insert twoRows)) 0 ((), ())).1 ≠
      sentRequests
        (play fullTable.realReply (executePlain 1 (.insert twoRows)) 0 ((), ())).1 := by
  intro h
  cases congrArg List.length h

end DdbShell
