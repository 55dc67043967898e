import DdbShell.Testing.UpdateWords

/-!
What an update of the in-memory client changes. Its own documentation leaves
arithmetic and `if_not_exists` uninterpreted, but every assignment is read as
one of an alias, so the forms that are none store NULL in the target, and a
target that is no plain name is assigned or removed under a name made of its
tokens. An update does no harm exactly where the item already holds what is
assigned so, and lacks what is removed so.
-/

namespace DdbShell

open SymbolTable

/-! ### Items as attributes -/

/-- The values an item has under a name. A service stores one at most. -/
def heldAt (item : ValueMap) (name : String) : List Value :=
  (item.filter fun entry => entry.1 = name).map Prod.snd

theorem heldAt_cons (entry : String × Value) (item : ValueMap) (name : String) :
    heldAt (entry :: item) name =
      if entry.1 = name then entry.2 :: heldAt item name else heldAt item name := by
  by_cases h : entry.1 = name <;> simp [heldAt, h]

theorem lookup_eq_heldAt (item : ValueMap) (name : String) :
    item.lookup name = (heldAt item name).head? := by
  induction item with
  | nil => rfl
  | cons entry item ih =>
      rw [lookup_cons_ite, heldAt_cons]
      by_cases h : entry.1 = name
      · rw [if_pos h, if_pos h.symm, List.head?_cons]
      · rw [if_neg h, if_neg (Ne.symm h), ih]

theorem mem_heldAt {item : ValueMap} {name : String} {v : Value} :
    v ∈ heldAt item name ↔ (name, v) ∈ item := by
  simp only [heldAt, List.mem_map, List.mem_filter, decide_eq_true_eq]
  constructor
  · rintro ⟨⟨other, w⟩, ⟨hmem, rfl⟩, rfl⟩
    exact hmem
  · intro hmem
    exact ⟨(name, v), ⟨hmem, rfl⟩, rfl⟩

theorem heldAt_setAttr (attr : String) (v : Value) (item : ValueMap) (name : String) :
    heldAt (setAttr attr v item) name =
      if attr = name then v :: (heldAt item name).tail else heldAt item name := by
  induction item with
  | nil =>
      rw [setAttr, heldAt_cons]
      rfl
  | cons entry item ih =>
      rw [setAttr]
      by_cases hentry : entry.1 = attr
      · rw [if_pos hentry, heldAt_cons, heldAt_cons, hentry]
        by_cases h : attr = name
        · rw [if_pos h, if_pos h, if_pos h, List.tail_cons]
        · rw [if_neg h, if_neg h, if_neg h]
      · rw [if_neg hentry, heldAt_cons, heldAt_cons, ih]
        by_cases h : entry.1 = name
        · rw [if_pos h, if_pos h, if_neg (h ▸ Ne.symm hentry), if_neg (h ▸ Ne.symm hentry)]
        · rw [if_neg h, if_neg h]

theorem heldAt_removeAttr (attr : String) (item : ValueMap) (name : String) :
    heldAt (removeAttr attr item) name =
      if attr = name then (heldAt item name).tail else heldAt item name := by
  induction item with
  | nil => simp [removeAttr, heldAt]
  | cons entry item ih =>
      rw [removeAttr]
      by_cases hentry : entry.1 = attr
      · rw [if_pos hentry, heldAt_cons, hentry]
        by_cases h : attr = name
        · rw [if_pos h, if_pos h, List.tail_cons]
        · rw [if_neg h, if_neg h]
      · rw [if_neg hentry, heldAt_cons, heldAt_cons, ih]
        by_cases h : entry.1 = name
        · rw [if_pos h, if_pos h, if_neg (h ▸ Ne.symm hentry), if_neg (h ▸ Ne.symm hentry)]
        · rw [if_neg h, if_neg h]

/-! ### Sequences of assignments and removals -/

/-- What the last assignment of an attribute assigns. -/
def lastWrite (writes : List (String × Value)) (name : String) : Option Value :=
  writes.reverse.lookup name

theorem lastWrite_cons (write : String × Value) (writes : List (String × Value)) (name : String) :
    lastWrite (write :: writes) name =
      (lastWrite writes name).or (if write.1 = name then some write.2 else none) := by
  rw [lastWrite, List.reverse_cons, List.lookup_append, lookup_cons_ite, lastWrite]
  by_cases h : write.1 = name
  · rw [if_pos h, if_pos h.symm]
  · rw [if_neg h, if_neg (Ne.symm h)]
    rfl

/-- The values after assignments: the last one, in the place of the first value. -/
theorem heldAt_writes (writes : List (String × Value)) (item : ValueMap) (name : String) :
    heldAt ((writes.map fun w => (w.1, some w.2)).foldl AttrAction.apply item) name =
      match lastWrite writes name with
      | some v => v :: (heldAt item name).tail
      | none => heldAt item name := by
  induction writes generalizing item with
  | nil => rfl
  | cons write writes ih =>
      rw [List.map_cons, List.foldl_cons, ih, lastWrite_cons]
      change (match lastWrite writes name with
        | some v => v :: (heldAt (setAttr write.1 write.2 item) name).tail
        | none => heldAt (setAttr write.1 write.2 item) name) = _
      rw [heldAt_setAttr]
      by_cases h : write.1 = name
      · cases lastWrite writes name <;> simp [h]
      · cases lastWrite writes name <;> simp [h]

/-- Each removal drops the first value. -/
theorem heldAt_removals (names : List String) (item : ValueMap) (name : String) :
    heldAt ((names.map fun n => ((n, none) : AttrAction)).foldl AttrAction.apply item) name =
      (heldAt item name).drop (names.count name) := by
  induction names generalizing item with
  | nil => rfl
  | cons n names ih =>
      rw [List.map_cons, List.foldl_cons, ih, List.count_cons]
      change (heldAt (removeAttr n item) name).drop _ = _
      rw [heldAt_removeAttr]
      by_cases h : n = name
      · simp [h, List.drop_tail]
      · simp [h]

/-! ### Targets -/

/-- The attribute of an item that an operand reaches into. -/
def topAttribute (operand : String) : String :=
  String.ofList (bareOf ((pieces operand).headD []))

theorem topAttribute_plain {name : String} (h : isPlainName name = true) :
    topAttribute name = name := by
  rw [topAttribute, pieces_plain h, List.headD_cons, bareOf, (subscript_plain h).1,
    String.ofList_toList]

/-- A step into a value. -/
inductive PathStep where
  | member (name : String)
  | element (index : Nat)
  deriving DecidableEq, Repr

def pathSteps (path : Path) : List PathStep :=
  path.flatMap fun step => .member step.1 :: step.2.map .element

/-- What is removed below a step. -/
def below (step : PathStep) (removed : List (List PathStep)) : List (List PathStep) :=
  removed.filterMap fun
    | first :: rest => if first = step then some rest else none
    | [] => none

mutual

/-- A value without what stands at the removed paths. -/
def Value.prune (removed : List (List PathStep)) : Value → Value
  | .L vs => .L (pruneElements removed 0 vs)
  | .M es => .M (pruneMembers removed es)
  | .S s => .S s
  | .N s => .N s
  | .B s => .B s
  | .BOOL b => .BOOL b
  | .NUL => .NUL
  | .SS set => .SS set
  | .NS set => .NS set
  | .BS set => .BS set

def pruneElements (removed : List (List PathStep)) (i : Nat) : List Value → List Value
  | [] => []
  | v :: vs =>
      if [] ∈ below (.element i) removed then pruneElements removed (i + 1) vs
      else v.prune (below (.element i) removed) :: pruneElements removed (i + 1) vs

def pruneMembers (removed : List (List PathStep)) : List (String × Value) → List (String × Value)
  | [] => []
  | (name, v) :: es =>
      if [] ∈ below (.member name) removed then pruneMembers removed es
      else (name, v.prune (below (.member name) removed)) :: pruneMembers removed es

end

/-- What a REMOVE of the operands leaves of an attribute. -/
def remaining (operands : List String) (item : ValueMap) (name : String) : Option Value :=
  let here := below (.member name)
    (operands.filterMap fun operand => (operandPath operand).map pathSteps)
  if [] ∈ here then none else (item.lookup name).map (Value.prune here)

example : remaining ["a.b[1]", "c"] [("a", .M [("b", .L [.N "1", .N "2", .N "3"])]), ("c", .NUL)]
    "a" = some (.M [("b", .L [.N "1", .N "3"])]) := by
  decide

/-- The value of a plain `attr = value`, whose target is one name. -/
def SetElement.assigned (e : SetElement) : Option Value :=
  if isPlainName e.lhs then e.bound else none

/-! ### Inventing nothing -/

/-- The targets are assigned and removed as the clause says. -/
def UpdateClause.Done (before after : ValueMap) : UpdateClause → Prop
  | .set first rest => ∀ e ∈ first :: rest,
      (∀ v ∈ e.assigned, after.lookup e.lhs = some v) ∧
      (e.assigned = none →
        heldAt after (topAttribute e.lhs) = heldAt before (topAttribute e.lhs))
  | .remove first rest => ∀ operand ∈ first :: rest,
      after.lookup (topAttribute operand) =
        remaining (first :: rest) before (topAttribute operand)

structure InventsNothing (u : UpdateClause) (values before after : ValueMap) : Prop where
  frame : ∀ name, name ∉ u.targets.map topAttribute → heldAt after name = heldAt before name
  done : u.Done before after
  stored : ∀ entry ∈ after,
    entry.2 ∈ before.map Prod.snd ∨ entry.2 ∈ values.map Prod.snd

/-- The item holds already what is assigned where nothing may change, and lacks
what is removed there. -/
def UpdateClause.Settled (st : SymbolTable) (item : ValueMap) : UpdateClause → Prop
  | .set first rest =>
      let writes := clientWrites st false (first :: rest)
      (∀ name ∈ writes.map Prod.fst, name ∉ (first :: rest).map (topAttribute ·.lhs) →
        item.lookup name = lastWrite writes name) ∧
      ∀ e ∈ first :: rest,
        (∀ v ∈ e.assigned, (lastWrite writes e.lhs).or (item.lookup e.lhs) = some v) ∧
        (e.assigned = none → topAttribute e.lhs ∈ writes.map Prod.fst →
          item.lookup (topAttribute e.lhs) = lastWrite writes (topAttribute e.lhs))
  | .remove first rest =>
      let names := (first :: rest).flatMap (clientNames st)
      (∀ name ∈ names, name ∉ (first :: rest).map topAttribute → item.lookup name = none) ∧
      ∀ operand ∈ first :: rest,
        (heldAt item (topAttribute operand))[names.count (topAttribute operand)]? =
          remaining (first :: rest) item (topAttribute operand)

/-! ### SET -/

theorem lastWrite_eq_none {writes : List (String × Value)} {name : String} :
    lastWrite writes name = none ↔ name ∉ writes.map Prod.fst := by
  induction writes with
  | nil => simp [lastWrite]
  | cons write writes ih =>
      rw [lastWrite_cons, Option.or_eq_none_iff, ih, List.map_cons, List.mem_cons, not_or,
        and_comm]
      by_cases h : write.1 = name
      · simp [h]
      · simp [h, Ne.symm h]

section Writes

variable (writes : List (String × Value)) (item : ValueMap)

/-- The item after assignments. -/
def writtenItem : ValueMap := (writes.map fun w => (w.1, some w.2)).foldl AttrAction.apply item

theorem lookup_writtenItem (name : String) :
    (writtenItem writes item).lookup name = (lastWrite writes name).or (item.lookup name) := by
  rw [lookup_eq_heldAt, lookup_eq_heldAt, writtenItem, heldAt_writes]
  cases lastWrite writes name <;> rfl

/-- An assigned attribute is unchanged when it had the last value before. -/
theorem heldAt_writtenItem_iff (name : String) :
    heldAt (writtenItem writes item) name = heldAt item name ↔
      (name ∈ writes.map Prod.fst → item.lookup name = lastWrite writes name) := by
  rw [writtenItem, heldAt_writes]
  cases hlast : lastWrite writes name with
  | none => simp [lastWrite_eq_none.mp hlast]
  | some v =>
      have hmem : name ∈ writes.map Prod.fst := by
        by_contra hnot
        rw [lastWrite_eq_none.mpr hnot] at hlast
        cases hlast
      rw [lookup_eq_heldAt]
      constructor
      · intro h _
        rw [← h, List.head?_cons]
      · intro h
        exact List.eq_cons_of_mem_head? (h hmem) |>.symm

/-- A value after assignments was there before or is the last assigned. -/
theorem mem_writtenItem {entry : String × Value} (h : entry ∈ writtenItem writes item) :
    entry ∈ item ∨ lastWrite writes entry.1 = some entry.2 := by
  have hheld := mem_heldAt.mpr h
  rw [writtenItem, heldAt_writes] at hheld
  cases hlast : lastWrite writes entry.1 with
  | none =>
      rw [hlast] at hheld
      exact .inl (mem_heldAt.mp hheld)
  | some v =>
      rw [hlast] at hheld
      rcases List.mem_cons.mp hheld with heq | hmem
      · exact .inr (by rw [heq])
      · exact .inl (mem_heldAt.mp (List.mem_of_mem_tail hmem))

end Writes

theorem SetElement.assigned_eq_some {e : SetElement} {v : Value} (h : e.assigned = some v) :
    isPlainName e.lhs = true ∧ e.bound = some v := by
  unfold SetElement.assigned at h
  split at h
  · exact ⟨‹_›, h⟩
  · cases h

theorem set_inventsNothing_iff (st : SymbolTable) (first : SetElement) (rest : List SetElement)
    (values item : ValueMap)
    (hbound : ∀ e ∈ first :: rest, ∀ v ∈ e.bound, v ∈ values.map Prod.snd) :
    InventsNothing (.set first rest) values item
        (writtenItem (clientWrites st false (first :: rest)) item) ↔
      (UpdateClause.set first rest).Settled st item := by
  have htargets : (UpdateClause.set first rest).targets.map topAttribute =
      (first :: rest).map (topAttribute ·.lhs) := List.map_map
  constructor
  · intro h
    refine ⟨fun name hname hnot => ?_, fun e he => ⟨fun v hv => ?_, fun hnone hmem => ?_⟩⟩
    · exact (heldAt_writtenItem_iff _ _ _).mp (h.frame name (htargets ▸ hnot)) hname
    · rw [← lookup_writtenItem]
      exact (h.done e he).1 v hv
    · exact (heldAt_writtenItem_iff _ _ _).mp ((h.done e he).2 hnone) hmem
  · rintro ⟨hstrays, helements⟩
    refine ⟨fun name hnot => ?_, fun e he => ⟨fun v hv => ?_, fun hnone => ?_⟩, ?_⟩
    · exact (heldAt_writtenItem_iff _ _ _).mpr fun hname => hstrays name hname (htargets ▸ hnot)
    · rw [lookup_writtenItem]
      exact (helements e he).1 v hv
    · exact (heldAt_writtenItem_iff _ _ _).mpr fun hmem => (helements e he).2 hnone hmem
    · rintro ⟨name, v⟩ hentry
      rcases mem_writtenItem _ _ hentry with hmem | hlast
      · exact .inl (List.mem_map_of_mem hmem)
      · have hname : name ∈ (clientWrites st false (first :: rest)).map Prod.fst := by
          by_contra hnot
          rw [lastWrite_eq_none.mpr hnot] at hlast
          cases hlast
        have hheld : item.lookup name = some v → v ∈ item.map Prod.snd := by
          intro h
          rw [lookup_eq_heldAt] at h
          exact List.mem_map_of_mem (mem_heldAt.mp (List.mem_of_mem_head? h))
        by_cases htop : name ∈ (first :: rest).map (topAttribute ·.lhs)
        · obtain ⟨e, he, rfl⟩ := List.mem_map.mp htop
          cases hassign : e.assigned with
          | none => exact .inl (hheld (((helements e he).2 hassign hname).trans hlast))
          | some w =>
              obtain ⟨hplain, hw⟩ := SetElement.assigned_eq_some hassign
              have hlast' := (helements e he).1 w hassign
              rw [topAttribute_plain hplain] at hlast
              rw [hlast, Option.some_or] at hlast'
              exact .inr (Option.some.inj hlast' ▸ hbound e he w hw)
        · exact .inl (hheld ((hstrays name hname htop).trans hlast))

/-! ### REMOVE -/

section Removals

variable (names : List String) (item : ValueMap)

/-- The item after removals. -/
def removed : ValueMap :=
  (names.map fun name => ((name, none) : AttrAction)).foldl AttrAction.apply item

theorem lookup_removed (name : String) :
    (removed names item).lookup name = (heldAt item name)[names.count name]? := by
  rw [lookup_eq_heldAt, removed, heldAt_removals, List.head?_drop]

/-- A removed attribute is unchanged when it was not there. -/
theorem heldAt_removed_iff (name : String) :
    heldAt (removed names item) name = heldAt item name ↔
      (name ∈ names → item.lookup name = none) := by
  rw [removed, heldAt_removals, lookup_eq_heldAt, List.head?_eq_none_iff]
  constructor
  · intro h hname
    have hlength := congrArg List.length h
    have hcount := List.count_pos_iff.mpr hname
    rw [List.length_drop] at hlength
    exact List.eq_nil_of_length_eq_zero (by omega)
  · intro h
    by_cases hname : name ∈ names
    · rw [h hname, List.drop_nil]
    · rw [List.count_eq_zero.mpr hname, List.drop_zero]

end Removals

theorem remove_inventsNothing_iff (st : SymbolTable) (first : String) (rest : List String)
    (values item : ValueMap) :
    InventsNothing (.remove first rest) values item
        (removed ((first :: rest).flatMap (clientNames st)) item) ↔
      (UpdateClause.remove first rest).Settled st item := by
  constructor
  · intro h
    refine ⟨fun name hname hnot => ?_, fun operand hoperand => ?_⟩
    · exact (heldAt_removed_iff _ _ _).mp (h.frame name hnot) hname
    · rw [← lookup_removed]
      exact h.done operand hoperand
  · rintro ⟨hstrays, htargets⟩
    refine ⟨fun name hnot => ?_, fun operand hoperand => ?_, fun entry hentry => ?_⟩
    · exact (heldAt_removed_iff _ _ _).mpr fun hname => hstrays name hname hnot
    · rw [lookup_removed]
      exact htargets operand hoperand
    · have hheld := mem_heldAt.mpr hentry
      rw [removed, heldAt_removals] at hheld
      exact .inl (List.mem_map_of_mem (mem_heldAt.mp (List.mem_of_mem_drop hheld)))

/-! ### Updates of the engine -/

theorem actions_inventNothing_iff (st : SymbolTable) (u : UpdateClause) (values item : ValueMap)
    (hbound : ∀ v ∈ u.bound, v ∈ values.map Prod.snd) :
    InventsNothing u values item ((u.clientActions st).foldl AttrAction.apply item) ↔
      u.Settled st item := by
  cases u with
  | set first rest =>
      exact set_inventsNothing_iff st first rest values item fun e he v hv =>
        hbound v (List.mem_filterMap.mpr ⟨e, he, hv⟩)
  | remove first rest => exact remove_inventsNothing_iff st first rest values item

/-- The item after an update that the engine spells. -/
theorem applyUpdate_actions (cmd : UpdateCmd) {u : UpdateClause}
    (hmutation : cmd.mutation = u.build)
    (hinert : ∀ operand ∈ u.operands, inertSubscripts operand = true) (pk rk : String)
    {st : SymbolTable} (hst : Valid st) (item : ItemRow) :
    let made := makeUpdateRequest cmd pk rk st
    Valid made.2 ∧ (∀ target ∈ u.targets, Knows made.2 target) ∧
      (∀ v ∈ u.bound, v ∈ made.1.expressionAttributeValues.map Prod.snd) ∧
      (applyUpdate made.1.updateExpression made.1.expressionAttributeNames
          made.1.expressionAttributeValues item).attributes =
        (u.clientActions made.2).foldl AttrAction.apply item.attributes := by
  obtain ⟨hmid, _⟩ := (updateExpression_mints cmd.mutation).grows st hst
  obtain ⟨hlast, hext⟩ := (updateCondition_mints cmd pk rk).grows _ hmid
  rw [hmutation] at hlast hext
  obtain ⟨hactions, hknown, hbound⟩ :=
    updateExpression_actions hlast hinert hst hext
  simp only [makeUpdateRequest, hmutation, Alias.bind_apply, Alias.pure_apply, Alias.get_apply]
  refine ⟨hlast, hknown, hbound, ?_⟩
  rw [← hactions, ← applyWords_eq_foldl]
  rfl

/-- An update of the in-memory client leaves what is no target, assigns the
plain targets, removes exactly what a REMOVE names, leaves the targets of the
forms it does not interpret and stores nothing new, exactly when the item holds
already what is assigned where nothing may change, and lacks what is removed
there. -/
theorem applyUpdate_inventsNothing_iff (cmd : UpdateCmd) (u : UpdateClause)
    (hmutation : cmd.mutation = u.build)
    (hinert : ∀ operand ∈ u.operands, inertSubscripts operand = true) (pk rk : String)
    (counter : Nat) (item : ItemRow) :
    let made := makeUpdateRequest cmd pk rk ⟨uniquePrefix counter, 1, 1, ∅, ∅⟩
    InventsNothing u made.1.expressionAttributeValues item.attributes
        (applyUpdate made.1.updateExpression made.1.expressionAttributeNames
          made.1.expressionAttributeValues item).attributes ↔
      u.Settled made.2 item.attributes := by
  intro made
  obtain ⟨-, -, hbound, hafter⟩ :=
    applyUpdate_actions cmd hmutation hinert pk rk (valid_fresh counter) item
  rw [hafter]
  exact actions_inventNothing_iff made.2 u _ _ hbound

/-! ### Plain lists -/

theorem lastWrite_of_mem {writes : List (String × Value)} {name : String} {v : Value}
    (hnames : (writes.map Prod.fst).Nodup) (hmem : (name, v) ∈ writes) :
    lastWrite writes name = some v := by
  induction writes with
  | nil => cases hmem
  | cons write writes ih =>
      rw [List.map_cons, List.nodup_cons] at hnames
      rw [lastWrite_cons]
      rcases List.mem_cons.mp hmem with rfl | hmem
      · rw [lastWrite_eq_none.mpr hnames.1, if_pos rfl]
        rfl
      · rw [ih hnames.2 hmem]
        rfl

/-- Plain assignments are read as they are. -/
theorem clientWrites_plain {st : SymbolTable} (hst : Valid st) {es : List SetElement}
    (hknown : ∀ e ∈ es, Knows st e.lhs) (hplain : ∀ e ∈ es, e.assigned.isSome = true) :
    clientWrites st false es = es.map fun e => (e.lhs, e.clientValue) := by
  induction es with
  | nil => rfl
  | cons e es ih =>
      obtain ⟨v, hv⟩ := Option.isSome_iff_exists.mp (hplain e List.mem_cons_self)
      obtain ⟨hlhs, hbound⟩ := SetElement.assigned_eq_some hv
      have hdangling : e.dangling = false := by
        cases e with
        | value => rfl
        | plus | minus | copy => cases hbound
      have hnames := clientNames_plain hst hlhs (hknown e List.mem_cons_self)
      have htail := ih (fun x hx => hknown x (List.mem_cons_of_mem _ hx))
        (fun x hx => hplain x (List.mem_cons_of_mem _ hx))
      simp [clientWrites, hnames, hdangling, htail]

/-- Plain assignments of different attributes need nothing of the item. -/
theorem settled_of_plain {st : SymbolTable} (hst : Valid st) {first : SetElement}
    {rest : List SetElement} (hknown : ∀ e ∈ first :: rest, Knows st e.lhs)
    (hplain : ∀ e ∈ first :: rest, e.assigned.isSome = true)
    (hdistinct : ((first :: rest).map SetElement.lhs).Nodup) (item : ValueMap) :
    (UpdateClause.set first rest).Settled st item := by
  have hname : ∀ e ∈ first :: rest, isPlainName e.lhs = true ∧ ∃ v, e.bound = some v := by
    intro e he
    obtain ⟨v, hv⟩ := Option.isSome_iff_exists.mp (hplain e he)
    obtain ⟨hlhs, hbound⟩ := SetElement.assigned_eq_some hv
    exact ⟨hlhs, v, hbound⟩
  have hwrites := clientWrites_plain hst hknown hplain
  have hnames : (clientWrites st false (first :: rest)).map Prod.fst =
      (first :: rest).map SetElement.lhs := by
    rw [hwrites, List.map_map]
    rfl
  rw [← hnames] at hdistinct
  refine ⟨fun name hmem hnot => ?_, fun e he => ⟨fun v hv => ?_, fun hnone => ?_⟩⟩
  · rw [hnames] at hmem
    obtain ⟨e, he, rfl⟩ := List.mem_map.mp hmem
    exact absurd (List.mem_map.mpr ⟨e, he, topAttribute_plain (hname e he).1⟩) hnot
  · have hmem : (e.lhs, e.clientValue) ∈ clientWrites st false (first :: rest) := by
      rw [hwrites]
      exact List.mem_map.mpr ⟨e, he, rfl⟩
    rw [SetElement.clientValue, (SetElement.assigned_eq_some hv).2, Option.getD_some] at hmem
    rw [lastWrite_of_mem hdistinct hmem, Option.some_or]
  · have hsome := hplain e he
    rw [hnone] at hsome
    cases hsome

/-- Nothing remains of an attribute that is removed as a whole. -/
theorem remaining_plain {operands : List String} {name : String} (hmem : name ∈ operands)
    (hplain : isPlainName name = true) (item : ValueMap) : remaining operands item name = none := by
  refine if_pos (List.mem_filterMap.mpr ⟨[.member name], ?_, if_pos rfl⟩)
  refine List.mem_filterMap.mpr ⟨name, hmem, ?_⟩
  rw [operandPath_plain hplain]
  rfl

/-- A removal of plain names needs only an item without double names. -/
theorem settled_of_plainRemoval {st : SymbolTable} (hst : Valid st) {first : String}
    {rest : List String} (hknown : ∀ operand ∈ first :: rest, Knows st operand)
    (hplain : ∀ operand ∈ first :: rest, isPlainName operand = true) {item : ValueMap}
    (hitem : (item.map Prod.fst).Nodup) :
    (UpdateClause.remove first rest).Settled st item := by
  have hnames : (first :: rest).flatMap (clientNames st) = first :: rest := by
    rw [List.flatMap_congr fun operand hmem =>
      clientNames_plain hst (hplain operand hmem) (hknown operand hmem), List.flatMap_singleton']
  have hheld : ∀ name, (heldAt item name).length ≤ 1 := by
    intro name
    have hcount := List.nodup_iff_count_le_one.mp hitem name
    rw [heldAt, List.length_map, ← List.countP_eq_length_filter]
    rwa [List.count, List.countP_map] at hcount
  simp only [UpdateClause.Settled, hnames]
  refine ⟨fun name hmem hnot => ?_, fun operand hmem => ?_⟩
  · exact absurd (List.mem_map.mpr ⟨name, hmem, topAttribute_plain (hplain name hmem)⟩) hnot
  · rw [topAttribute_plain (hplain operand hmem), remaining_plain hmem (hplain operand hmem),
      List.getElem?_eq_none_iff]
    exact (hheld operand).trans (List.count_pos_iff.mpr hmem)

/-- `SET a = 5, b = 6` -/
def plainClause : UpdateClause := .set (.value "a" (.N "5")) [.value "b" (.N "6")]

/-- `REMOVE a, c` -/
def plainRemoval : UpdateClause := .remove "a" ["c"]

theorem applyUpdate_plain_inventsNothing :
    let item : ValueMap := [("pk", .S "x"), ("a", .N "1"), ("c", .N "2")]
    let made (u : UpdateClause) := (makeUpdateRequest { table := "t", mutation := u.build } "pk" ""
      ⟨uniquePrefix 0, 1, 1, ∅, ∅⟩).1
    let after (u : UpdateClause) := (applyUpdate (made u).updateExpression
      (made u).expressionAttributeNames (made u).expressionAttributeValues ⟨item⟩).attributes
    InventsNothing plainClause (made plainClause).expressionAttributeValues item
        (after plainClause) ∧
      InventsNothing plainRemoval (made plainRemoval).expressionAttributeValues item
        (after plainRemoval) := by
  intro item made after
  constructor
  · have hinert : ∀ operand ∈ plainClause.operands, inertSubscripts operand = true := by decide
    obtain ⟨hlast, hknown, -⟩ := applyUpdate_actions
      { table := "t", mutation := plainClause.build } rfl hinert "pk" "" (valid_fresh 0) ⟨item⟩
    refine (applyUpdate_inventsNothing_iff { table := "t", mutation := plainClause.build }
      plainClause rfl hinert "pk" "" 0 ⟨item⟩).mpr ?_
    exact settled_of_plain hlast (fun e he => hknown e.lhs (List.mem_map_of_mem he)) (by decide)
      (by decide) _
  · have hinert : ∀ operand ∈ plainRemoval.operands, inertSubscripts operand = true :=
      fun operand hoperand => inertSubscripts_of_operandPath
        ((by decide +kernel : ∀ operand ∈ plainRemoval.operands, (operandPath operand).isSome)
          operand hoperand)
    obtain ⟨hlast, hknown, -⟩ := applyUpdate_actions
      { table := "t", mutation := plainRemoval.build } rfl hinert "pk" "" (valid_fresh 0) ⟨item⟩
    refine (applyUpdate_inventsNothing_iff { table := "t", mutation := plainRemoval.build }
      plainRemoval rfl hinert "pk" "" 0 ⟨item⟩).mpr ?_
    exact settled_of_plainRemoval hlast hknown (by decide) (by decide)

/-- `SET a = b` -/
def copyClause : UpdateClause := .set (.copy "a" (.attr ⟨"b", by decide, by decide⟩)) []

/-- The copy stores NULL over the value. -/
theorem applyUpdate_copy_invents :
    let made := makeUpdateRequest { table := "t", mutation := copyClause.build } "pk" ""
      ⟨uniquePrefix 0, 1, 1, ∅, ∅⟩
    ¬ InventsNothing copyClause made.1.expressionAttributeValues
      [("pk", .S "x"), ("a", .N "1"), ("b", .N "2")]
      (applyUpdate made.1.updateExpression made.1.expressionAttributeNames
        made.1.expressionAttributeValues
        ⟨[("pk", .S "x"), ("a", .N "1"), ("b", .N "2")]⟩).attributes := by
  intro made h
  have hunchanged := (h.done _ List.mem_cons_self).2 rfl
  revert hunchanged
  decide +kernel

end DdbShell
