import DdbShell.Execute.Accounting
import DdbShell.Expressions.AliasLaws
import Mathlib.Algebra.Ring.Rat

/-!
A SELECT that is planned as a Query or a Scan, against a client that answers in
pages. The statement reads them to the first that names no last key, and its
rows and its capacity are those of all pages together, so that how the items
were cut into pages cannot be told from the rows.
-/

namespace DdbShell

open Exec

/-! ### Capacity -/

/-- The sum of the figures that are there. -/
def sumOf (figures : List (Option Double)) : Option Double :=
  match figures.filterMap id with
  | [] => none
  | present => some present.sum

/-- The capacity of some answers together, if one carried any: the first table
name, and each figure summed. -/
def totalCapacity (answers : List (Option ConsumedCapacity)) : Option ConsumedCapacity :=
  match answers.filterMap id with
  | [] => none
  | present => some {
      tableName := present.findSome? fun cc => cc.tableName
      capacityUnits := sumOf (present.map fun cc => cc.capacityUnits)
      readCapacityUnits := sumOf (present.map fun cc => cc.readCapacityUnits)
      writeCapacityUnits := sumOf (present.map fun cc => cc.writeCapacityUnits) }

theorem sumOf_of_mem {figures : List (Option Double)} {v : Double} (h : some v ∈ figures) :
    sumOf figures = some (figures.filterMap id).sum := by
  unfold sumOf
  split
  · next hnil =>
      have hmem : v ∈ figures.filterMap id := List.mem_filterMap.mpr ⟨some v, h, rfl⟩
      rw [hnil] at hmem
      cases hmem
  · rfl

theorem sumOf_getD (figures : List (Option Double)) :
    (sumOf figures).getD 0 = (figures.filterMap id).sum := by
  unfold sumOf
  split
  · next hnil =>
      rw [hnil]
      rfl
  · rfl

/-- The figures of the capacity that are summed. -/
def summedFigures : List (ConsumedCapacity → Option Double) :=
  [ConsumedCapacity.capacityUnits, ConsumedCapacity.readCapacityUnits,
    ConsumedCapacity.writeCapacityUnits]

/-- The capacity of some answers: there is one if any answer carried one, it
names the first table that was named, and every figure is the sum over the
answers that carried it. -/
structure Totals (answers : List (Option ConsumedCapacity)) (total : Option ConsumedCapacity) :
    Prop where
  carried : total.isSome = true ↔ ∃ cc, some cc ∈ answers
  tableName : total.bind ConsumedCapacity.tableName =
    answers.findSome? fun cc => cc.bind ConsumedCapacity.tableName
  figures : ∀ figure ∈ summedFigures,
    total.bind figure = sumOf (answers.map fun cc => cc.bind figure)

theorem filterMap_bind_figure (figure : ConsumedCapacity → Option Double)
    (answers : List (Option ConsumedCapacity)) :
    (answers.map fun cc => cc.bind figure).filterMap id =
      ((answers.filterMap id).map figure).filterMap id := by
  rw [List.filterMap_map, List.filterMap_map, List.filterMap_filterMap]
  rfl

theorem findSome?_bind_tableName (answers : List (Option ConsumedCapacity)) :
    (answers.findSome? fun cc => cc.bind ConsumedCapacity.tableName) =
      (answers.filterMap id).findSome? ConsumedCapacity.tableName := by
  induction answers with
  | nil => rfl
  | cons cc answers ih => cases cc <;> simp [List.findSome?_cons, ih]

theorem totals_totalCapacity (answers : List (Option ConsumedCapacity)) :
    Totals answers (totalCapacity answers) := by
  have hfigure : ∀ figure, sumOf (answers.map fun cc => cc.bind figure) =
      sumOf ((answers.filterMap id).map figure) := by
    intro figure
    rw [sumOf, sumOf, filterMap_bind_figure]
  have hcarried : (∃ cc, some cc ∈ answers) ↔ answers.filterMap id ≠ [] := by
    rw [ne_eq, List.eq_nil_iff_forall_not_mem, not_forall_not]
    simp [List.mem_filterMap]
  cases hpresent : answers.filterMap id with
  | nil =>
      have hnone : totalCapacity answers = none := by rw [totalCapacity, hpresent]
      refine ⟨?_, ?_, ?_⟩
      · rw [hcarried, hpresent, hnone]
        simp
      · rw [hnone, findSome?_bind_tableName, hpresent]
        rfl
      · intro figure _
        rw [hnone, hfigure, hpresent]
        rfl
  | cons first rest =>
      refine ⟨?_, ?_, ?_⟩
      · rw [hcarried, totalCapacity, hpresent]
        simp
      · rw [findSome?_bind_tableName, totalCapacity, hpresent]
        rfl
      · intro figure hmem
        rw [hfigure, totalCapacity, hpresent]
        simp only [summedFigures, List.mem_cons, List.not_mem_nil, or_false] at hmem
        rcases hmem with rfl | rfl | rfl <;> rfl

namespace Totalizer

theorem accumulate_sumOf (figures : List (Option Double)) (value : Option Double) :
    accumulate (sumOf figures) value = sumOf (figures ++ [value]) := by
  cases value with
  | none => simp [accumulate, sumOf]
  | some v =>
      rw [sumOf_of_mem (List.mem_append_right _ List.mem_cons_self), List.filterMap_append,
        List.sum_append, accumulate, sumOf_getD]
      show some (_ + v) = some (_ + (v + 0))
      rw [Rat.add_zero]

/-- The name of the first answer that has one stays. -/
theorem tableName_findSome (present : List ConsumedCapacity) (cc : ConsumedCapacity) :
    (if (present.findSome? fun cc => cc.tableName).isNone then cc.tableName
      else present.findSome? fun cc => cc.tableName) =
        (present ++ [cc]).findSome? fun cc => cc.tableName := by
  rw [List.findSome?_append]
  cases present.findSome? fun cc => cc.tableName <;> simp

theorem add_totalCapacity (answers : List (Option ConsumedCapacity))
    (cc : Option ConsumedCapacity) :
    add (totalCapacity answers) cc = totalCapacity (answers ++ [cc]) := by
  cases cc with
  | none => simp [add, totalCapacity]
  | some cc =>
      unfold totalCapacity
      rw [List.filterMap_append]
      cases hpresent : answers.filterMap id with
      | nil =>
          have hone : ∀ value, accumulate none value = sumOf [value] := accumulate_sumOf []
          simp [add, hone]
      | cons first rest =>
          simp only [add, Option.getD_some, accumulate_sumOf, tableName_findSome]
          simp

end Totalizer

/-! ### Pages -/

namespace WriteReadPlan

/-- The client's answer to a read. -/
def answer {σ : Type} (reply : σ → (op : Effect) → op.Answer × σ) (s : σ) :
    WriteReadPlan → Except Error PageOut × σ
  | .query r => reply s (.client (.query r))
  | .scan r => reply s (.client (.scan r))

def event (page : PageOut) : WriteReadPlan → RunEvent
  | .query r => ⟨.client (.query r), .ok page⟩
  | .scan r => ⟨.client (.scan r), .ok page⟩

def toPlan : WriteReadPlan → SelectPlan
  | .query r => .query r
  | .scan r => .scan r

end WriteReadPlan

/-- From the state the client answers the read with the first of the pages, and
each read that starts at a page's last key with the next one, to the first page
without such a key. -/
inductive Serves {σ : Type} (reply : σ → (op : Effect) → op.Answer × σ) :
    WriteReadPlan → σ → List PageOut → σ → Prop where
  | last {read : WriteReadPlan} {s s' : σ} {page : PageOut}
      (answers : read.answer reply s = (.ok page, s'))
      (ends : continuation page.lastEvaluatedKey = none) : Serves reply read s [page] s'
  | next {read : WriteReadPlan} {s s' last : σ} {page : PageOut} {key : ValueMap}
      {pages : List PageOut} (answers : read.answer reply s = (.ok page, s'))
      (goes : continuation page.lastEvaluatedKey = some key)
      (rest : Serves reply (read.startingAt (some key)) s' pages last) :
      Serves reply read s (page :: pages) last

/-- The calls that read the pages: after the first, each starts at the last key
of the page before and is otherwise the same. -/
def pageEvents : WriteReadPlan → List PageOut → List RunEvent
  | _, [] => []
  | read, page :: pages =>
      read.event page :: pageEvents (read.startingAt page.lastEvaluatedKey) pages

/-- A key to go on from is the page's own. -/
theorem continuation_eq_some {last : Option ValueMap} {key : ValueMap}
    (h : continuation last = some key) : last = some key := by
  unfold continuation at h
  split at h
  · exact h
  · cases h

section Reading

variable {σ : Type} {reply : σ → (op : Effect) → op.Answer × σ} {read : WriteReadPlan}
  {s s' : σ} {page : PageOut} {pages : List PageOut}

theorem play_readPage_ok (h : read.answer reply s = (.ok page, s')) (counter : Nat) :
    play reply (readPage read) counter s = ([read.event page], (.ok page, counter), s') := by
  cases read with
  | query request =>
      have hreply : reply s (.client (.query request)) = (.ok page, s') := h
      have hplay := play_call reply (.query request) counter s
      rwa [hreply] at hplay
  | scan request =>
      have hreply : reply s (.client (.scan request)) = (.ok page, s') := h
      have hplay := play_call reply (.scan request) counter s
      rwa [hreply] at hplay

/-- The loop reads all pages that are served, and no more. -/
theorem play_selectLoop (h : Serves reply read s pages s') {budget : Nat}
    (hbudget : pages.length ≤ budget) (items : List ItemRow)
    (seen : List (Option ConsumedCapacity)) (counter : Nat) :
    play reply (selectLoop budget read items (totalCapacity seen)) counter s =
      (pageEvents read pages,
        (.ok (items ++ pages.flatMap PageOut.items,
          totalCapacity (seen ++ pages.map PageOut.consumedCapacity)), counter), s') := by
  induction h generalizing budget items seen with
  | @last read s s' page answers ends =>
      obtain ⟨budget, rfl⟩ : ∃ n, budget = n + 1 := ⟨budget - 1, by
        rw [List.length_singleton] at hbudget
        omega⟩
      rw [selectLoop, play_bind, play_readPage_ok answers]
      dsimp only
      rw [ends, Totalizer.add_totalCapacity]
      simp only [List.flatMap_cons, List.flatMap_nil, List.append_nil, List.map_cons, List.map_nil]
      rfl
  | @next read s s' last page key pages answers goes rest ih =>
      obtain ⟨budget, rfl⟩ : ∃ n, budget = n + 1 := ⟨budget - 1, by
        rw [List.length_cons] at hbudget
        omega⟩
      have hrest : pages.length ≤ budget := by
        rw [List.length_cons] at hbudget
        omega
      rw [selectLoop, play_bind, play_readPage_ok answers]
      dsimp only
      rw [goes, Totalizer.add_totalCapacity, ih hrest, pageEvents, continuation_eq_some goes]
      simp only [List.flatMap_cons, List.map_cons, List.append_assoc, List.singleton_append]

theorem play_executeSelect {cmd : SelectCmd} {aliasPrefix : String} {counter counter' budget : Nat}
    {lookups : List RunEvent} {s₀ : σ}
    (hplan : play reply (execPlanSelect cmd aliasPrefix) counter s₀ =
      (lookups, (.ok read.toPlan, counter'), s))
    (hserves : Serves reply read s pages s') (hbudget : pages.length ≤ budget) :
    play reply (executeSelect budget cmd aliasPrefix) counter s₀ =
      (lookups ++ pageEvents read pages,
        (.ok (selectOutcome cmd (pages.flatMap PageOut.items)
          (totalCapacity (pages.map PageOut.consumedCapacity))), counter'), s') := by
  have hloop : play reply (selectLoop budget read [] none) counter' s = _ :=
    play_selectLoop hserves hbudget [] [] counter'
  rw [executeSelect, play_bind, hplan]
  cases read with
  | query request =>
      dsimp only [WriteReadPlan.toPlan]
      rw [play_bind, hloop]
      exact Prod.ext (congrArg (lookups ++ ·) (List.append_nil _)) rfl
  | scan request =>
      dsimp only [WriteReadPlan.toPlan]
      rw [play_bind, hloop]
      exact Prod.ext (congrArg (lookups ++ ·) (List.append_nil _)) rfl

end Reading

/-- Two clients that serve the same items in pages of any sizes, to a SELECT
that both plan as reads: the rows are all those items in their order, the pages
are read one after the other to the last, and the capacity that is shown, if the
statement asked for it, is the sum over the pages. -/
theorem select_paged {σ τ : Type} {reply : σ → (op : Effect) → op.Answer × σ}
    {reply' : τ → (op : Effect) → op.Answer × τ} {cmd : SelectCmd} {aliasPrefix : String}
    {counter counter₁ counter₁' budget budget' : Nat} {read read' : WriteReadPlan}
    {lookups lookups' : List RunEvent} {s s₁ s₂ : σ} {t t₁ t₂ : τ} {pages pages' : List PageOut}
    (hplan : play reply (execPlanSelect cmd aliasPrefix) counter s =
      (lookups, (.ok read.toPlan, counter₁), s₁))
    (hplan' : play reply' (execPlanSelect cmd aliasPrefix) counter t =
      (lookups', (.ok read'.toPlan, counter₁'), t₁))
    (hserves : Serves reply read s₁ pages s₂) (hserves' : Serves reply' read' t₁ pages' t₂)
    (hbudget : pages.length ≤ budget) (hbudget' : pages'.length ≤ budget')
    (hsame : pages.flatMap PageOut.items = pages'.flatMap PageOut.items) :
    let items := pages.flatMap PageOut.items
    let total := totalCapacity (pages.map PageOut.consumedCapacity)
    let total' := totalCapacity (pages'.map PageOut.consumedCapacity)
    play reply (executeSelect budget cmd aliasPrefix) counter s =
        (lookups ++ pageEvents read pages,
          (.ok (.select items (if cmd.rcc = .none then none else total)), counter₁), s₂) ∧
      play reply' (executeSelect budget' cmd aliasPrefix) counter t =
        (lookups' ++ pageEvents read' pages',
          (.ok (.select items (if cmd.rcc = .none then none else total')), counter₁'), t₂) ∧
      Totals (pages.map PageOut.consumedCapacity) total ∧
      Totals (pages'.map PageOut.consumedCapacity) total' := by
  intro items total total'
  refine ⟨play_executeSelect hplan hserves hbudget, ?_, totals_totalCapacity _,
    totals_totalCapacity _⟩
  have hplay := play_executeSelect hplan' hserves' hbudget'
  rw [← hsame] at hplay
  exact hplay

/-- A client whose table has one key and whose scans come in these pages. -/
def pagedTable (pages : List PageOut) (step : Nat) : (op : Effect) → op.Answer × Nat
  | .client (.describeTable _) => (.ok { keySchema := ⟨["p"], []⟩ }, step)
  | .client (.scan _) => (.ok (pages[step]?.getD {}), step + 1)
  | .client _ => (.error ⟨.internalError, ""⟩, step)
  | .emit _ => ((), step)

def metered (units : Double) : Option ConsumedCapacity := some { capacityUnits := some units }

def rowOf (p : String) : ItemRow := ⟨[("p", .S p)]⟩

/-- Two rows after an empty page, and the same rows on two pages of which one
carries no capacity. -/
def emptyFirst : List PageOut := [
  { lastEvaluatedKey := some [("p", .S "w")], consumedCapacity := metered (1 / 2) },
  { items := [rowOf "x", rowOf "y"], consumedCapacity := metered 1 }]

def oneByOne : List PageOut := [
  { items := [rowOf "x"], lastEvaluatedKey := some [("p", .S "x")] },
  { items := [rowOf "y"], lastEvaluatedKey := some [], consumedCapacity := metered 1 }]

/-- `SELECT * FROM t RETURN CONSUMED CAPACITY TOTAL` -/
def allRows : SelectCmd := { table := "t", rcc := .total }

theorem allRows_paged :
    (play (pagedTable emptyFirst) (executeSelect 2 allRows "aaa") 0 0).2.1 =
        (.ok (.select [rowOf "x", rowOf "y"] (metered (3 / 2))), 0) ∧
      (play (pagedTable oneByOne) (executeSelect 2 allRows "aaa") 0 0).2.1 =
        (.ok (.select [rowOf "x", rowOf "y"] (metered 1)), 0) := by
  have hplan : ∀ pages, play (pagedTable pages) (execPlanSelect allRows "aaa") 0 0 =
      ([⟨.client (.describeTable "t"), .ok { keySchema := ⟨["p"], []⟩ }⟩],
        (.ok (WriteReadPlan.scan (scanRequest allRows (freshTable "aaa")).1).toPlan, 0), 0) :=
    fun _ => rfl
  have hserves : Serves (pagedTable emptyFirst)
      (.scan (scanRequest allRows (freshTable "aaa")).1) 0 emptyFirst 2 :=
    .next rfl rfl (.last rfl rfl)
  have hserves' : Serves (pagedTable oneByOne)
      (.scan (scanRequest allRows (freshTable "aaa")).1) 0 oneByOne 2 :=
    .next rfl rfl (.last rfl rfl)
  have hpages : emptyFirst.length ≤ 2 := le_rfl
  have hpages' : oneByOne.length ≤ 2 := le_rfl
  obtain ⟨h, h', -, -⟩ := select_paged (hplan emptyFirst) (hplan oneByOne) hserves hserves'
    hpages hpages' rfl
  have htotal : totalCapacity (emptyFirst.map PageOut.consumedCapacity) = metered (3 / 2) := by
    decide +kernel
  have htotal' : totalCapacity (oneByOne.map PageOut.consumedCapacity) = metered 1 := by
    decide +kernel
  rw [htotal] at h
  rw [htotal'] at h'
  exact ⟨congrArg (fun played => played.2.1) h, congrArg (fun played => played.2.1) h'⟩

end DdbShell
