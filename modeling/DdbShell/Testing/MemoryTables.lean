import DdbShell.Execute.Requests
import DdbShell.Testing.MemoryClient
import Mathlib.Data.List.Induction

/-!
What every state of the in-memory client keeps. Its lists stay parallel and
without double keys whatever is called, and a call that fails changes nothing.
That a slot's key is the key string of its item depends on the updates: one
that changes a key attribute, or creates an item from a key that is not in the
order of the schema, leaves the item in a slot of another key.
-/

namespace DdbShell

/-! ### The actions of an update expression -/

/-- An attribute and what becomes of it; `none` removes it. -/
abbrev AttrAction := String × Option Value

def AttrAction.apply (item : ValueMap) : AttrAction → ValueMap
  | (attr, some v) => setAttr attr v item
  | (attr, none) => removeAttr attr item

def readActions (names : ExpressionAttributeNames) (values : ValueMap) :
    UpdateMode → Nat → List String → List AttrAction
  | _, _, [] => []
  | mode, skip + 1, _ :: rest => readActions names values mode skip rest
  | mode, 0, token :: rest =>
      if token.toUpper = "SET" then readActions names values .set 0 rest
      else if token.toUpper = "REMOVE" then readActions names values .remove 0 rest
      else
        match mode with
        | .none => readActions names values .none 0 rest
        | .set =>
            match assignedAt rest with
            | some value =>
                (resolveName names token, some (resolveValue values value)) ::
                  readActions names values .set 2 rest
            | none => readActions names values .set 0 rest
        | .remove => (resolveName names token, none) :: readActions names values .remove 0 rest

/-- What an update expression says, before any item is looked at. -/
def updateActions (request : UpdateItemIn) : List AttrAction :=
  readActions request.expressionAttributeNames request.expressionAttributeValues .none 0
    (splitWords [' ', ','] request.updateExpression)

theorem applyWords_eq_foldl (names : ExpressionAttributeNames) (values : ValueMap)
    (mode : UpdateMode) (skip : Nat) (words : List String) (item : ValueMap) :
    applyWords names values mode skip words item =
      (readActions names values mode skip words).foldl AttrAction.apply item := by
  fun_induction applyWords names values mode skip words item with
  | case1 => rfl
  | case2 mode skip token rest item ih => exact ih
  | case3 mode token rest item hset ih =>
      unfold readActions
      rw [if_pos hset]
      exact ih
  | case4 mode token rest item hset hremove ih =>
      unfold readActions
      rw [if_neg hset, if_pos hremove]
      exact ih
  | case5 token rest item hset hremove ih =>
      unfold readActions
      rw [if_neg hset, if_neg hremove]
      exact ih
  | case6 token rest item hset hremove value hvalue ih =>
      unfold readActions
      rw [if_neg hset, if_neg hremove]
      simp only [hvalue]
      exact ih
  | case7 token rest item hset hremove hvalue ih =>
      unfold readActions
      rw [if_neg hset, if_neg hremove]
      simp only [hvalue]
      exact ih
  | case8 token rest item hset hremove ih =>
      unfold readActions
      rw [if_neg hset, if_neg hremove]
      exact ih

/-- The item an update makes of a base. -/
theorem applyUpdate_eq (request : UpdateItemIn) (item : ItemRow) :
    applyUpdate request.updateExpression request.expressionAttributeNames
        request.expressionAttributeValues item =
      ⟨(updateActions request).foldl AttrAction.apply item.attributes⟩ := by
  rw [applyUpdate, applyWords_eq_foldl]
  rfl

/-! ### Attributes after an update -/

theorem lookup_cons_ite (name : String) (entry : String × Value) (rest : ValueMap) :
    List.lookup name (entry :: rest) =
      if name = entry.1 then some entry.2 else rest.lookup name := by
  rw [List.lookup_cons]
  by_cases h : name = entry.1
  · simp [h]
  · have hne : (name == entry.1) = false := by simpa using h
    rw [hne, if_neg h]

theorem lookup_setAttr (attr : String) (v : Value) (item : ValueMap) (name : String) :
    (setAttr attr v item).lookup name = if name = attr then some v else item.lookup name := by
  induction item with
  | nil => rw [setAttr, lookup_cons_ite]
  | cons entry rest ih =>
      rw [setAttr]
      by_cases hentry : entry.1 = attr
      · rw [if_pos hentry, lookup_cons_ite, lookup_cons_ite, hentry]
        by_cases h : name = attr
        · rw [if_pos h, if_pos h]
        · rw [if_neg h, if_neg h, if_neg h]
      · rw [if_neg hentry, lookup_cons_ite, lookup_cons_ite, ih]
        by_cases h : name = entry.1
        · rw [if_pos h, if_pos h, if_neg (h ▸ hentry)]
        · rw [if_neg h, if_neg h]

theorem lookup_removeAttr {attr name : String} (h : name ≠ attr) (item : ValueMap) :
    (removeAttr attr item).lookup name = item.lookup name := by
  induction item with
  | nil => rfl
  | cons entry rest ih =>
      rw [removeAttr]
      by_cases hentry : entry.1 = attr
      · rw [if_pos hentry, lookup_cons_ite, hentry, if_neg h]
      · rw [if_neg hentry, lookup_cons_ite, lookup_cons_ite, ih]

theorem removeAttr_of_lookup {attr : String} {item : ValueMap} (h : item.lookup attr = none) :
    removeAttr attr item = item := by
  induction item with
  | nil => rfl
  | cons entry rest ih =>
      rw [lookup_cons_ite] at h
      by_cases hentry : attr = entry.1
      · rw [if_pos hentry] at h
        cases h
      · rw [if_neg hentry] at h
        rw [removeAttr, if_neg (Ne.symm hentry), ih h]

/-- What the slot string takes from an attribute. -/
def keyPart (item : ValueMap) (attr : String) : Option String := (item.lookup attr).map Value.key

/-- The action leaves the key parts as they are in the base. -/
def KeepsPart (attrs : List String) (base : ValueMap) (action : AttrAction) : Prop :=
  action.1 ∈ attrs → action.2.map Value.key = keyPart base action.1

instance (attrs : List String) (base : ValueMap) (action : AttrAction) :
    Decidable (KeepsPart attrs base action) :=
  inferInstanceAs (Decidable (_ → _))

theorem keyPart_apply {attrs : List String} {base item : ValueMap} {action : AttrAction}
    (hkeeps : KeepsPart attrs base action)
    (hitem : ∀ attr ∈ attrs, keyPart item attr = keyPart base attr) :
    ∀ attr ∈ attrs, keyPart (action.apply item) attr = keyPart base attr := by
  intro attr hattr
  obtain ⟨target, change⟩ := action
  rw [← hitem attr hattr]
  by_cases hsame : attr = target
  · subst hsame
    have hpart : change.map Value.key = keyPart item attr := by
      rw [hitem attr hattr]
      exact hkeeps hattr
    cases change with
    | some v =>
        rw [AttrAction.apply, keyPart, lookup_setAttr, if_pos rfl]
        exact hpart
    | none =>
        have habsent : item.lookup attr = none := Option.map_eq_none_iff.mp hpart.symm
        rw [AttrAction.apply, removeAttr_of_lookup habsent]
  · cases change with
    | some v => rw [AttrAction.apply, keyPart, lookup_setAttr, if_neg hsame, keyPart]
    | none => rw [AttrAction.apply, keyPart, lookup_removeAttr hsame, keyPart]

/-- Actions that keep the key parts, one after the other. -/
theorem keyPart_foldl {attrs : List String} {base item : ValueMap} {actions : List AttrAction}
    (hkeeps : ∀ action ∈ actions, KeepsPart attrs base action)
    (hitem : ∀ attr ∈ attrs, keyPart item attr = keyPart base attr) :
    ∀ attr ∈ attrs, keyPart (actions.foldl AttrAction.apply item) attr = keyPart base attr := by
  induction actions generalizing item with
  | nil => exact hitem
  | cons action actions ih =>
      refine ih (fun other hother => hkeeps other (List.mem_cons_of_mem _ hother)) ?_
      exact keyPart_apply (hkeeps action List.mem_cons_self) hitem

/-- The slot string is made of the key parts. -/
theorem slotOf_congr {schema : TableKeySchema} {item item' : ItemRow}
    (h : ∀ attr ∈ schema.attributes, keyPart item.attributes attr = keyPart item'.attributes attr) :
    slotOf schema item = slotOf schema item' := by
  unfold slotOf extractKey
  generalize schema.attributes = attrs at h
  induction attrs with
  | nil => rfl
  | cons attr attrs ih =>
      have hhead := h attr List.mem_cons_self
      have htail := ih fun other hother => h other (List.mem_cons_of_mem _ hother)
      rw [List.filterMap_cons, List.filterMap_cons]
      unfold keyPart at hhead
      cases hitem : item.attributes.lookup attr with
      | none =>
          rw [hitem] at hhead
          have hitem' := Option.map_eq_none_iff.mp hhead.symm
          simp only [hitem', Option.map_none]
          exact htail
      | some v =>
          rw [hitem] at hhead
          obtain ⟨v', hitem', hkey⟩ := Option.map_eq_some_iff.mp hhead.symm
          simp only [hitem', Option.map_some, keyString]
          rw [hkey, htail]

/-! ### What a call does -/

namespace MemoryTable

/-- The condition of the update lets it write. -/
def Admits (t : MemoryTable) (request : UpdateItemIn) : Prop :=
  checkCondition request.conditionExpression (t.find (keyString request.key)).isSome = .ok ()

/-- What an update starts from: the stored item, or the key. -/
def base (t : MemoryTable) (request : UpdateItemIn) : ItemRow :=
  (t.find (keyString request.key)).getD { attributes := request.key }

/-- What an update stores. -/
def updated (t : MemoryTable) (request : UpdateItemIn) : ItemRow :=
  applyUpdate request.updateExpression request.expressionAttributeNames
    request.expressionAttributeValues (t.base request)

end MemoryTable

namespace MemoryClient

/-- An update that writes puts its item into the slot of that item's own key. -/
def KeepsSlot (m : MemoryClient) : ClientCall → Prop
  | .updateItem request => ∀ t, m[request.tableName]? = some t → t.Admits request →
      slotOf t.schema (t.updated request) = keyString request.key
  | _ => True

/-- The state after a call: the same, or one table of it rewritten, added or
dropped. -/
inductive Change (m : MemoryClient) : ClientCall → MemoryClient → Prop where
  | same (call : ClientCall) (idle : KeepsSlot m call) : Change m call m
  | put {request : PutItemIn} {t : MemoryTable} (known : m[request.tableName]? = some t) :
      Change m (.putItem request) (m.insert request.tableName
        (t.putItem (slotOf t.schema ⟨request.item⟩) ⟨request.item⟩))
  | update {request : UpdateItemIn} {t : MemoryTable} (known : m[request.tableName]? = some t)
      (admits : t.Admits request) :
      Change m (.updateItem request) (m.insert request.tableName
        (t.putItem (keyString request.key) (t.updated request)))
  | delete {request : DeleteItemIn} {t : MemoryTable} (known : m[request.tableName]? = some t) :
      Change m (.deleteItem request) (m.insert request.tableName
        (t.eraseItem (keyString request.key)))
  | create {request : CreateTableIn} : Change m (.createTable request)
      (m.insert request.tableName
        { name := request.tableName, schema := ⟨request.keySchema.hash, request.keySchema.range⟩ })
  | drop {table : String} : Change m (.deleteTable table) (m.erase table)

variable {order : NumberOrder} {m : MemoryClient}

theorem putItem_change (request : PutItemIn) :
    Change m (.putItem request) (m.putItem request).2 := by
  unfold putItem
  cases hknown : m[request.tableName]? with
  | none => exact .same _ trivial
  | some t =>
      simp only
      cases hcheck : checkCondition request.conditionExpression
          (t.find (slotOf t.schema ⟨request.item⟩)).isSome with
      | error e => exact .same _ trivial
      | ok _ => exact .put hknown

theorem updateItem_change (request : UpdateItemIn) :
    Change m (.updateItem request) (m.updateItem request).2 := by
  unfold updateItem
  cases hknown : m[request.tableName]? with
  | none =>
      refine .same _ fun t ht => ?_
      rw [hknown] at ht
      cases ht
  | some t =>
      simp only
      cases hcheck : checkCondition request.conditionExpression
          (t.find (keyString request.key)).isSome with
      | error e =>
          refine .same _ fun t' ht hadmits => ?_
          rw [hknown] at ht
          cases ht
          rw [MemoryTable.Admits, hcheck] at hadmits
          cases hadmits
      | ok _ => exact .update hknown hcheck

theorem deleteItem_change (request : DeleteItemIn) :
    Change m (.deleteItem request) (m.deleteItem request).2 := by
  unfold deleteItem
  cases hknown : m[request.tableName]? with
  | none => exact .same _ trivial
  | some t =>
      simp only
      cases hcheck : checkCondition request.conditionExpression
          (t.find (keyString request.key)).isSome with
      | error e => exact .same _ trivial
      | ok _ => exact .delete hknown

theorem createTable_change (request : CreateTableIn) :
    Change m (.createTable request) (m.createTable request).2 := by
  unfold createTable
  cases hknown : m[request.tableName]? with
  | none => exact .create
  | some t => exact .same _ trivial

theorem deleteTable_change (table : String) :
    Change m (.deleteTable table) (m.deleteTable table).2 := by
  unfold deleteTable
  cases hknown : m[table]? with
  | none => exact .same _ trivial
  | some t => exact .drop

theorem reply_change (order : NumberOrder) (m : MemoryClient) (call : ClientCall) :
    Change m call (m.reply order call).2 := by
  cases call with
  | putItem request => exact putItem_change request
  | updateItem request => exact updateItem_change request
  | deleteItem request => exact deleteItem_change request
  | createTable request => exact createTable_change request
  | deleteTable table => exact deleteTable_change table
  | _ => exact .same _ trivial

theorem putItem_error {request : PutItemIn} {e : Error} (h : (m.putItem request).1 = .error e) :
    (m.putItem request).2 = m := by
  unfold putItem at h ⊢
  cases hknown : m[request.tableName]? with
  | none => rfl
  | some t =>
      simp only [hknown] at h ⊢
      cases hcheck : checkCondition request.conditionExpression
          (t.find (slotOf t.schema ⟨request.item⟩)).isSome with
      | error e' => rfl
      | ok _ =>
          rw [hcheck] at h
          cases h

theorem updateItem_error {request : UpdateItemIn} {e : Error}
    (h : (m.updateItem request).1 = .error e) : (m.updateItem request).2 = m := by
  unfold updateItem at h ⊢
  cases hknown : m[request.tableName]? with
  | none => rfl
  | some t =>
      simp only [hknown] at h ⊢
      cases hcheck : checkCondition request.conditionExpression
          (t.find (keyString request.key)).isSome with
      | error e' => rfl
      | ok _ =>
          rw [hcheck] at h
          cases h

theorem deleteItem_error {request : DeleteItemIn} {e : Error}
    (h : (m.deleteItem request).1 = .error e) : (m.deleteItem request).2 = m := by
  unfold deleteItem at h ⊢
  cases hknown : m[request.tableName]? with
  | none => rfl
  | some t =>
      simp only [hknown] at h ⊢
      cases hcheck : checkCondition request.conditionExpression
          (t.find (keyString request.key)).isSome with
      | error e' => rfl
      | ok _ =>
          rw [hcheck] at h
          cases h

theorem createTable_error {request : CreateTableIn} {e : Error}
    (h : (m.createTable request).1 = .error e) : (m.createTable request).2 = m := by
  unfold createTable at h ⊢
  cases hknown : m[request.tableName]? with
  | none =>
      rw [hknown] at h
      cases h
  | some t => rfl

theorem deleteTable_error {table : String} {e : Error} (h : (m.deleteTable table).1 = .error e) :
    (m.deleteTable table).2 = m := by
  unfold deleteTable at h ⊢
  cases hknown : m[table]? with
  | none => rfl
  | some t =>
      rw [hknown] at h
      cases h

/-- A call that fails changes nothing. -/
theorem reply_error {call : ClientCall} {e : Error}
    (h : (m.reply order call).1 = .error e) : (m.reply order call).2 = m := by
  cases call with
  | putItem request => exact putItem_error h
  | updateItem request => exact updateItem_error h
  | deleteItem request => exact deleteItem_error h
  | createTable request => exact createTable_error h
  | deleteTable table => exact deleteTable_error h
  | _ => rfl

/-! ### Parallel lists -/

/-- In every table there are as many items as keys, and no key twice. -/
def Parallel (m : MemoryClient) : Prop :=
  ∀ (name : String) (t : MemoryTable), m[name]? = some t → t.WellFormed

theorem parallel_insert (hm : Parallel m) {name : String} {t : MemoryTable} (ht : t.WellFormed) :
    Parallel (m.insert name t) := by
  intro other t' hother
  rw [Std.TreeMap.getElem?_insert] at hother
  split at hother
  · cases hother
    exact ht
  · exact hm other t' hother

theorem Change.parallel {call : ClientCall} {m' : MemoryClient} (h : Change m call m')
    (hm : Parallel m) : Parallel m' := by
  cases h with
  | same => exact hm
  | put known => exact parallel_insert hm (Slots.put_wellFormed (hm _ _ known) _ _)
  | update known admits => exact parallel_insert hm (Slots.put_wellFormed (hm _ _ known) _ _)
  | delete known => exact parallel_insert hm (Slots.erase_wellFormed (hm _ _ known) _)
  | create => exact parallel_insert hm Slots.wellFormed_empty
  | drop =>
      intro other t' hother
      rw [Std.TreeMap.getElem?_erase] at hother
      split at hother
      · cases hother
      · exact hm other t' hother

/-! ### Slots and their keys -/

/-- In every table the key of a slot is the key string of its item. -/
def Addressed (m : MemoryClient) : Prop :=
  ∀ (name : String) (t : MemoryTable), m[name]? = some t →
    Slots.Labelled (slotOf t.schema) t.toSlots

theorem addressed_insert_iff (hm : Addressed m) (name : String) (t : MemoryTable) :
    Addressed (m.insert name t) ↔ Slots.Labelled (slotOf t.schema) t.toSlots := by
  constructor
  · intro h
    exact h name t (by rw [Std.TreeMap.getElem?_insert_self])
  · intro ht other t' hother
    rw [Std.TreeMap.getElem?_insert] at hother
    split at hother
    · cases hother
      exact ht
    · exact hm other t' hother

/-- A call keeps the slots addressed exactly when an update in it keeps its slot. -/
theorem Change.addressed_iff {call : ClientCall} {m' : MemoryClient} (h : Change m call m')
    (hm : Addressed m) : Addressed m' ↔ KeepsSlot m call := by
  cases h with
  | same call idle => exact ⟨fun _ => idle, fun _ => hm⟩
  | put known =>
      rw [addressed_insert_iff hm]
      exact ⟨fun _ => trivial, fun _ => (Slots.put_labelled_iff (hm _ _ known) _ _).mpr rfl⟩
  | @update request t known admits =>
      rw [addressed_insert_iff hm]
      refine (Slots.put_labelled_iff (hm _ _ known) _ _).trans ⟨?_, fun h => h t known admits⟩
      intro hslot t' known' _
      rw [known] at known'
      cases known'
      exact hslot
  | delete known =>
      rw [addressed_insert_iff hm]
      exact ⟨fun _ => trivial, fun _ => Slots.erase_labelled (hm _ _ known) _⟩
  | create =>
      rw [addressed_insert_iff hm]
      exact ⟨fun _ => trivial, fun _ => Slots.labelled_empty⟩
  | drop =>
      refine ⟨fun _ => trivial, fun _ other t' hother => ?_⟩
      rw [Std.TreeMap.getElem?_erase] at hother
      split at hother
      · cases hother
      · exact hm other t' hother

/-- The update leaves every key attribute as it was, and a key that an item is
created from is in the order of the schema. -/
def Aligned (m : MemoryClient) : ClientCall → Prop
  | .updateItem request => ∀ t, m[request.tableName]? = some t → t.Admits request →
      (∀ action ∈ updateActions request,
        KeepsPart t.schema.attributes (t.base request).attributes action) ∧
      (t.find (keyString request.key) = none →
        slotOf t.schema { attributes := request.key } = keyString request.key)
  | _ => True

theorem Aligned.keepsSlot {call : ClientCall} (h : Aligned m call) (hparallel : Parallel m)
    (haddressed : Addressed m) : KeepsSlot m call := by
  cases call with
  | updateItem request =>
      intro t known admits
      obtain ⟨hactions, hcreated⟩ := h t known admits
      have hsame : slotOf t.schema (t.updated request) = slotOf t.schema (t.base request) := by
        rw [MemoryTable.updated, applyUpdate_eq]
        exact slotOf_congr (keyPart_foldl hactions fun _ _ => rfl)
      rw [hsame, MemoryTable.base]
      cases hfind : t.find (keyString request.key) with
      | none => exact hcreated hfind
      | some item =>
          exact ((Slots.find_eq_some_of_labelled (hparallel _ _ known)
            (haddressed _ _ known)).mp hfind).2
  | _ => trivial

/-! ### Runs -/

theorem run_append (m : MemoryClient) (calls : List ClientCall) (call : ClientCall) :
    m.run order (calls ++ [call]) = ((m.run order calls).reply order call).2 := by
  rw [run, List.foldl_append]
  rfl

/-- Every step of the calls meets the condition in the state it starts from. -/
def Steps (order : NumberOrder) (P : MemoryClient → ClientCall → Prop)
    (calls : List ClientCall) : Prop :=
  ∀ before call, before ++ [call] <+: calls → P (run order ∅ before) call

theorem Steps.of_append {P : MemoryClient → ClientCall → Prop} {calls : List ClientCall}
    {call : ClientCall} (h : Steps order P (calls ++ [call])) :
    Steps order P calls ∧ P (run order ∅ calls) call :=
  ⟨fun before other hfront => h before other (hfront.trans (List.prefix_append _ _)),
    h calls call (List.prefix_refl _)⟩

theorem Steps.append {P : MemoryClient → ClientCall → Prop} {calls : List ClientCall}
    {call : ClientCall} (h : Steps order P calls) (hlast : P (run order ∅ calls) call) :
    Steps order P (calls ++ [call]) := by
  intro before other hfront
  rcases List.prefix_concat_iff.mp hfront with heq | hfront
  · obtain ⟨rfl, hsame⟩ := List.append_inj' heq rfl
    cases hsame
    exact hlast
  · exact h before other hfront

theorem steps_nil (P : MemoryClient → ClientCall → Prop) : Steps order P [] := by
  intro before call hfront
  simp at hfront

theorem run_parallel (order : NumberOrder) (calls : List ClientCall) :
    Parallel (run order ∅ calls) := by
  induction calls using List.reverseRecOn with
  | nil =>
      intro name t h
      simp [run] at h
  | append_singleton calls call ih =>
      rw [run_append]
      exact (reply_change order _ call).parallel ih

theorem addressed_empty : Addressed (∅ : MemoryClient) := by
  intro name t h
  simp at h

/-- A run in which every update keeps its slot. -/
theorem run_addressed {calls : List ClientCall} (h : Steps order KeepsSlot calls) :
    Addressed (run order ∅ calls) := by
  induction calls using List.reverseRecOn with
  | nil => exact addressed_empty
  | append_singleton calls call ih =>
      obtain ⟨hsteps, hlast⟩ := h.of_append
      rw [run_append]
      exact ((reply_change order _ call).addressed_iff (ih hsteps)).mpr hlast

theorem keepsSlot_of_aligned {calls : List ClientCall} (h : Steps order Aligned calls) :
    Steps order KeepsSlot calls := by
  induction calls using List.reverseRecOn with
  | nil => exact steps_nil KeepsSlot
  | append_singleton calls call ih =>
      obtain ⟨hsteps, hlast⟩ := h.of_append
      have hkeeps := ih hsteps
      exact hkeeps.append (hlast.keepsSlot (run_parallel order _) (run_addressed hkeeps))

/-- In every table each slot's key is the key string of its item. -/
def KeysMatch (m : MemoryClient) : Prop :=
  ∀ (name : String) (t : MemoryTable), m[name]? = some t →
    ∀ (i : Nat) (item : ItemRow), t.items[i]? = some item →
      t.keys[i]? = some (keyString (extractKey item t.schema))

theorem keysMatch_iff (hm : Parallel m) : KeysMatch m ↔ Addressed m := by
  constructor
  · intro h name t ht
    exact Slots.labelled_iff.mpr ⟨(hm name t ht).parallel, h name t ht⟩
  · intro h name t ht
    exact (Slots.labelled_iff.mp (h name t ht)).2

/-- The keys match throughout a run exactly when every update keeps its slot. -/
theorem keysMatch_run_iff (order : NumberOrder) (calls : List ClientCall) :
    (∀ before, before <+: calls → KeysMatch (run order ∅ before)) ↔
      Steps order KeepsSlot calls := by
  constructor
  · intro h before call hfront
    have hbefore := (keysMatch_iff (run_parallel order before)).mp
      (h before ((List.prefix_append before [call]).trans hfront))
    have hafter := (keysMatch_iff (run_parallel order (before ++ [call]))).mp
      (h (before ++ [call]) hfront)
    rw [run_append] at hafter
    exact ((reply_change order _ call).addressed_iff hbefore).mp hafter
  · intro h before hfront
    refine (keysMatch_iff (run_parallel order before)).mpr (run_addressed ?_)
    intro earlier call hearlier
    exact h earlier call (hearlier.trans hfront)

/-- After any calls the lists of every table are parallel and without double
keys, and a call that fails changes nothing. The key of every slot is that of
its item in every state of a run whose updates leave the key attributes alone
and create items from keys in the order of the schema; throughout a run it is
so exactly when every update keeps its slot. -/
theorem represents_iff (order : NumberOrder) (calls : List ClientCall) :
    (∀ (name : String) (t : MemoryTable), (run order ∅ calls)[name]? = some t →
      t.keys.length = t.items.length ∧ t.keys.Nodup) ∧
    (∀ (call : ClientCall) (e : Error), ((run order ∅ calls).reply order call).1 = .error e →
      ((run order ∅ calls).reply order call).2 = run order ∅ calls) ∧
    (Steps order Aligned calls → ∀ before, before <+: calls → KeysMatch (run order ∅ before)) ∧
    ((∀ before, before <+: calls → KeysMatch (run order ∅ before)) ↔
      Steps order KeepsSlot calls) := by
  refine ⟨?_, fun call e h => reply_error h, ?_, keysMatch_run_iff order calls⟩
  · intro name t ht
    have hparallel := run_parallel order calls name t ht
    exact ⟨hparallel.parallel, hparallel.nodup⟩
  · intro h
    exact (keysMatch_run_iff order calls).mpr (keepsSlot_of_aligned h)

end MemoryClient

/-! ### Two upserts -/

/-- `std::stod` on short strings of digits. -/
def digitOrder : NumberOrder where
  compare s t :=
    match s.toNat?, t.toNat? with
    | some m, some n => some (Ord.compare m n)
    | _, _ => none
  refl s := by
    cases s.toNat? with
    | none => exact .inl rfl
    | some n => exact .inr (by simp)

/-- `CREATE TABLE t` with this key. -/
def createKeyed (hash range : String) : ClientCall :=
  .createTable {
    tableName := "t"
    attributeDefinitions := []
    keySchema := ⟨[hash], [range]⟩
    billing := none
    warm := none
    gsis := []
    lsis := []
    vectorIndexes := []
    stream := none
    sse := none
    tableClass := .standard
    deletionProtection := false
    tags := [] }

/-- `UPSERT t SET x = 3 WHERE a = 1 AND z = 2`, as the engine sends it. -/
def upsertKeyed : UpdateItemIn :=
  { (makeUpdateRequest
      { table := "t", mutation := .set [{ lhs := "x", rhsValue := some (.N "3") }], upsert := true }
      "a" "z" ⟨uniquePrefix 0, 1, 1, ∅, ∅⟩).1 with
    key := keyOf (Std.TreeMap.ofList [("a", Value.N "1"), ("z", Value.N "2")]) }

/-- The table with the key `a`, `z`. -/
theorem upsert_keysMatch :
    MemoryClient.KeysMatch (MemoryClient.run digitOrder ∅
      [createKeyed "a" "z", .updateItem upsertKeyed]) := by
  have hcreated : (MemoryClient.run digitOrder ∅ [createKeyed "a" "z"])["t"]? =
      some { name := "t", schema := ⟨["a"], ["z"]⟩ } := by decide +kernel
  have hsteps : MemoryClient.Steps digitOrder MemoryClient.Aligned
      ([createKeyed "a" "z"] ++ [.updateItem upsertKeyed]) := by
    refine ((MemoryClient.steps_nil _).append trivial).append ?_
    intro t known admits
    have hknown := known.symm.trans hcreated
    cases hknown
    exact ⟨by decide +kernel, fun _ => by decide +kernel⟩
  exact (MemoryClient.represents_iff digitOrder _).2.2.1 hsteps _ (List.prefix_refl _)

/-- The table with the key `z`, `a`: the item stands in the slot of the key
read in the order of the attribute names. -/
theorem reversedKey_not_keysMatch :
    ¬ MemoryClient.KeysMatch (MemoryClient.run digitOrder ∅
      [createKeyed "z" "a", .updateItem upsertKeyed]) := by
  intro h
  have hstored : (MemoryClient.run digitOrder ∅
      [createKeyed "z" "a", .updateItem upsertKeyed])["t"]? =
        some { name := "t", schema := ⟨["z"], ["a"]⟩, keys := [keyString upsertKeyed.key],
               items := [⟨[("a", .N "1"), ("z", .N "2"), ("x", .N "3")]⟩] } := by
    decide +kernel
  have hkey := h "t" _ hstored 0 _ rfl
  revert hkey
  decide +kernel

end DdbShell
