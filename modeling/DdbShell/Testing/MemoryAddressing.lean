import DdbShell.Lib.Frames
import DdbShell.Testing.KeyConditionWords
import DdbShell.Testing.MemoryTables

/-!
Whether the in-memory client finds what it stores. A put takes the slot from
the item in the order of the schema; a read, an update and a delete take it from
the key of the request, which the engine sorts by name. The two agree where the
schema is in that order, no update writes to a key attribute, and the key parts
hold no separator; then a full key finds the item with these key attributes and
no other, and so does a Query for it if no two values given for an attribute
compare as equal.
-/

namespace DdbShell

open Infix (Token)
open SymbolTable

/-! ### Key strings -/

/-- What stands in front of a value in a key string. -/
def keyLabel (attr : String) : List Char := attr.toList ++ ['=']

theorem keyString_toList (key : ValueMap) : (keyString key).toList =
    Frames.write keySeparator (key.map fun entry => (keyLabel entry.1, entry.2.key.toList)) := by
  induction key with
  | nil => rfl
  | cons entry rest ih =>
      obtain ⟨name, value⟩ := entry
      rw [keyString, List.map_cons, Frames.write_cons, ← ih]
      simp [keyLabel, String.toList_append]

theorem slotOf_toList (schema : TableKeySchema) (item : ItemRow) : (slotOf schema item).toList =
    Frames.write keySeparator (schema.attributes.filterMap fun attr =>
      ((keyPart item.attributes attr).map String.toList).map (keyLabel attr, ·)) := by
  rw [slotOf, keyString_toList, extractKey, List.map_filterMap]
  congr 1
  refine List.filterMap_congr fun attr _ => ?_
  rw [keyPart, Option.map_map, Option.map_map, Option.map_map]
  rfl

/-- A value of no collection type. -/
def Value.isScalar : Value → Bool
  | .S _ | .N _ | .B _ | .BOOL _ | .NUL => true
  | .L _ | .M _ | .SS _ | .NS _ | .BS _ => false

/-- The key of a scalar is that of no other value. -/
theorem Value.key_injective {v w : Value} (hv : v.isScalar = true) (h : w.key = v.key) : w = v := by
  rw [← String.toList_inj] at h
  cases v with
  | S _ | N _ | B _ | NUL =>
      revert h
      rcases w with _ | _ | _ | (_ | _) | _ | _ | _ | _ | _ | _ <;>
        simp [Value.key, String.toList_inj]
  | BOOL b =>
      revert h
      cases b <;> rcases w with _ | _ | _ | (_ | _) | _ | _ | _ | _ | _ | _ <;> simp [Value.key]
  | L _ | M _ | SS _ | NS _ | BS _ => cases hv

/-- The key attributes of the item, or of the key that an item is made from, can
be told from its key string: no value holds the separator, and either all of
them are there or no name holds it. -/
structure Legible (attrs : List String) (given : ValueMap) : Prop where
  values : ∀ attr ∈ attrs, ∀ part, keyPart given attr = some part → keySeparator ∉ part.toList
  names : (∀ attr ∈ attrs, (keyPart given attr).isSome = true) ∨
    ∀ attr ∈ attrs, keySeparator ∉ attr.toList

/-- A value for every key attribute and no other. -/
structure FullKey (attrs : List String) (key : KeyMap) : Prop where
  full : ∀ name, (key[name]?).isSome = true ↔ name ∈ attrs
  scalar : ∀ (name : String) (v : Value), key[name]? = some v → v.isScalar = true
  unbroken : ∀ (name : String) (v : Value), key[name]? = some v → keySeparator ∉ v.key.toList

section Schema

variable {schema : TableKeySchema} {key : KeyMap}

theorem keyOf_lookup (key : KeyMap) (name : String) : (keyOf key).lookup name = key[name]? :=
  Maps.lookup_toList key name

theorem FullKey.legible {attrs : List String} (h : FullKey attrs key) :
    Legible attrs (keyOf key) := by
  constructor
  · intro attr _ part hpart
    rw [keyPart, keyOf_lookup] at hpart
    obtain ⟨v, hv, rfl⟩ := Option.map_eq_some_iff.mp hpart
    exact h.unbroken attr v hv
  · left
    intro attr hattr
    rw [keyPart, keyOf_lookup, Option.isSome_map]
    exact (h.full attr).mpr hattr

/-- A key that is sorted by name is in the order of a schema that is. -/
theorem extractKey_keyOf (hsorted : schema.attributes.Pairwise (· < ·))
    (hnamed : ∀ name ∈ key, name ∈ schema.attributes) :
    extractKey ⟨keyOf key⟩ schema = keyOf key := by
  have hkey : (keyOf key).Pairwise fun a b => a.1 < b.1 := by
    refine Std.TreeMap.ordered_keys_toList.imp fun {a b} h => ?_
    exact compareOfLessAndEq_eq_lt.mp h
  have hextract : (extractKey ⟨keyOf key⟩ schema).Pairwise fun a b => a.1 < b.1 := by
    unfold extractKey
    refine List.Pairwise.filterMap _ ?_ hsorted
    intro a b hlt x hx y hy
    obtain ⟨v, -, rfl⟩ := Option.map_eq_some_iff.mp hx
    obtain ⟨w, -, rfl⟩ := Option.map_eq_some_iff.mp hy
    exact hlt
  have hmem : ∀ entry, entry ∈ extractKey ⟨keyOf key⟩ schema ↔ entry ∈ keyOf key := by
    rintro ⟨name, v⟩
    rw [keyOf, Std.TreeMap.mem_toList_iff_getElem?_eq_some, extractKey, List.mem_filterMap]
    constructor
    · rintro ⟨attr, -, hattr⟩
      obtain ⟨w, hw, hentry⟩ := Option.map_eq_some_iff.mp hattr
      obtain ⟨rfl, rfl⟩ := Prod.mk.inj hentry
      rw [← keyOf_lookup]
      exact hw
    · intro hv
      have hname : name ∈ key := Std.TreeMap.mem_iff_isSome_getElem?.mpr (by rw [hv]; rfl)
      exact ⟨name, hnamed name hname, by rw [← keyOf, keyOf_lookup, hv]; rfl⟩
  have hirrefl : ∀ a b : String × Value, a.1 < b.1 → b.1 < a.1 → a = b :=
    fun a b hab hba => absurd hba (String.lt_asymm hab)
  have hnodup : ∀ {l : ValueMap}, l.Pairwise (fun a b => a.1 < b.1) → l.Nodup :=
    fun hl => hl.imp fun {a b} hlt heq => by rw [heq] at hlt; exact String.lt_irrefl _ hlt
  exact ((List.perm_ext_iff_of_nodup (hnodup hextract) (hnodup hkey)).mpr hmem).eq_of_pairwise
    (fun a b _ _ => hirrefl a b) hextract hkey

/-- An item is in the slot of a full key exactly when its key attributes are
those of the key. -/
theorem slotOf_eq_iff (hsorted : schema.attributes.Pairwise (· < ·))
    (hkey : FullKey schema.attributes key) {item : ItemRow}
    (hitem : Legible schema.attributes item.attributes) :
    slotOf schema item = keyString (keyOf key) ↔
      ∀ attr ∈ schema.attributes, item.attributes.lookup attr = key[attr]? := by
  have hpart : ∀ attr ∈ schema.attributes, ∃ v, key[attr]? = some v ∧
      keyPart (keyOf key) attr = some v.key := by
    intro attr hattr
    obtain ⟨v, hv⟩ := Option.isSome_iff_exists.mp ((hkey.full attr).mpr hattr)
    exact ⟨v, hv, by rw [keyPart, keyOf_lookup, hv]; rfl⟩
  have hnamed : ∀ name ∈ key, name ∈ schema.attributes := fun name hname =>
    (hkey.full name).mp (Std.TreeMap.mem_iff_isSome_getElem?.mp hname)
  have hslot : slotOf schema ⟨keyOf key⟩ = keyString (keyOf key) := by
    rw [slotOf, extractKey_keyOf hsorted hnamed]
  have hwhole : (slotOf schema ⟨keyOf key⟩).toList = Frames.write keySeparator
      (schema.attributes.map fun attr =>
        (keyLabel attr, ((keyPart (keyOf key) attr).getD "").toList)) := by
    rw [slotOf_toList, ← List.filterMap_eq_map]
    congr 1
    refine List.filterMap_congr fun attr hattr => ?_
    obtain ⟨v, -, hv⟩ := hpart attr hattr
    simp [hv]
  rw [← hslot, ← String.toList_inj, hwhole, slotOf_toList,
    Frames.write_present_eq_iff (p := fun attr => (keyPart item.attributes attr).map String.toList)]
  · refine forall₂_congr fun attr hattr => ?_
    obtain ⟨v, hv, hparts⟩ := hpart attr hattr
    rw [hv, hparts, keyPart]
    constructor
    · intro h
      obtain ⟨part, hitemPart, htext⟩ := Option.map_eq_some_iff.mp h
      obtain ⟨w, hw, rfl⟩ := Option.map_eq_some_iff.mp hitemPart
      rw [hw, Value.key_injective (hkey.scalar attr v hv) (String.toList_inj.mp htext)]
    · intro h
      rw [h]
      rfl
  · intro attr hattr text htext
    obtain ⟨part, hpartOf, rfl⟩ := Option.map_eq_some_iff.mp htext
    exact hitem.values attr hattr part hpartOf
  · rcases hitem.names with hall | hnames
    · left
      intro attr hattr
      simpa using hall attr hattr
    · right
      intro attr hattr
      rw [keyLabel, List.mem_append]
      rintro (hmem | hmem)
      · exact hnames attr hattr hmem
      · revert hmem
        decide
  · intro attr hattr
    obtain ⟨v, hv, hparts⟩ := hpart attr hattr
    rw [hparts]
    exact hkey.unbroken attr v hv

end Schema

/-! ### The writes of the engine -/

/-- The row of an INSERT or a REPLACE, or the UPDATE, UPSERT or DELETE of the
item with a key. -/
inductive EngineWrite where
  | put (cmd : InsertCmd) (row : List Value) (pk : String) (counter : Nat)
  | update (cmd : UpdateCmd) (pk rk : String) (key : KeyMap) (counter : Nat)
  | delete (cmd : DeleteCmd) (pk rk : String) (key : KeyMap) (counter : Nat)

namespace EngineWrite

def putRequest (cmd : InsertCmd) (row : List Value) (pk : String) (counter : Nat) : PutItemIn :=
  if cmd.insert then guardedPutRequest cmd row pk (uniquePrefix counter)
  else DdbShell.putRequest cmd row

def updateRequest (cmd : UpdateCmd) (pk rk : String) (key : KeyMap) (counter : Nat) :
    UpdateItemIn :=
  { (makeUpdateRequest cmd pk rk ⟨uniquePrefix counter, 1, 1, ∅, ∅⟩).1 with key := keyOf key }

def deleteRequest (cmd : DeleteCmd) (pk rk : String) (key : KeyMap) (counter : Nat) :
    DeleteItemIn :=
  { (makeDeleteRequest cmd pk rk ⟨uniquePrefix counter, 1, 1, ∅, ∅⟩).1 with key := keyOf key }

def call : EngineWrite → ClientCall
  | put cmd row pk counter => .putItem (putRequest cmd row pk counter)
  | update cmd pk rk key counter => .updateItem (updateRequest cmd pk rk key counter)
  | delete cmd pk rk key counter => .deleteItem (deleteRequest cmd pk rk key counter)

def table : EngineWrite → String
  | put cmd .. => cmd.tableName
  | update cmd .. => cmd.table
  | delete cmd .. => cmd.table

/-- The value the write gives for an attribute of the key. -/
def gives : EngineWrite → String → Option Value
  | put cmd row _ _, attr => (cmd.columns.zip row).lookup attr
  | update _ _ _ key _, attr => key[attr]?
  | delete .., _ => none

/-- An item that is written can be told from its key string, an update is of a
key of the table, and it writes to no key attribute. -/
def Addresses (attrs : List String) : EngineWrite → Prop
  | put cmd row _ _ => Legible attrs (cmd.columns.zip row)
  | update cmd pk rk key counter =>
      (∀ name ∈ key, name ∈ attrs) ∧ Legible attrs (keyOf key) ∧
        ∀ action ∈ updateActions (updateRequest cmd pk rk key counter), action.1 ∉ attrs
  | delete .. => True

theorem putRequest_item (cmd : InsertCmd) (row : List Value) (pk : String) (counter : Nat) :
    (putRequest cmd row pk counter).item = cmd.columns.zip row ∧
      (putRequest cmd row pk counter).tableName = cmd.tableName := by
  unfold putRequest
  split <;> exact ⟨rfl, rfl⟩

end EngineWrite

/-! ### What a run of them keeps -/

/-- A table whose items are in the slots of their own keys, can be told from
their key strings and have the key attributes that the writes gave. -/
structure Served (schema : TableKeySchema) (writes : List EngineWrite) (t : MemoryTable) :
    Prop where
  schema_eq : t.schema = schema
  wellFormed : t.WellFormed
  labelled : Slots.Labelled (slotOf schema) t.toSlots
  legible : ∀ item ∈ t.items, Legible schema.attributes item.attributes
  given : ∀ item ∈ t.items, ∀ attr ∈ schema.attributes, ∀ v,
    item.attributes.lookup attr = some v →
      ∃ w ∈ writes, w.table = t.name ∧ w.gives attr = some v

namespace Served

variable {schema : TableKeySchema} {writes : List EngineWrite} {t : MemoryTable}

theorem grow (h : Served schema writes t) (w : EngineWrite) : Served schema (writes ++ [w]) t where
  schema_eq := h.schema_eq
  wellFormed := h.wellFormed
  labelled := h.labelled
  legible := h.legible
  given := by
    intro item hitem attr hattr v hv
    obtain ⟨w', hw', hgives⟩ := h.given item hitem attr hattr v hv
    exact ⟨w', List.mem_append_left _ hw', hgives⟩

theorem put (h : Served schema writes t) {item : ItemRow} {key : String}
    (hslot : slotOf schema item = key) (hlegible : Legible schema.attributes item.attributes)
    (hgiven : ∀ attr ∈ schema.attributes, ∀ v, item.attributes.lookup attr = some v →
      ∃ w ∈ writes, w.table = t.name ∧ w.gives attr = some v) :
    Served schema writes (t.putItem key item) where
  schema_eq := h.schema_eq
  wellFormed := Slots.put_wellFormed h.wellFormed key item
  labelled := (Slots.put_labelled_iff h.labelled key item).mpr hslot
  legible := by
    intro other hother
    rcases Slots.mem_put hother with rfl | hold
    · exact hlegible
    · exact h.legible other hold
  given := by
    intro other hother
    rcases Slots.mem_put hother with rfl | hold
    · exact hgiven
    · exact h.given other hold

theorem erase (h : Served schema writes t) (key : String) :
    Served schema writes (t.eraseItem key) where
  schema_eq := h.schema_eq
  wellFormed := Slots.erase_wellFormed h.wellFormed key
  labelled := Slots.erase_labelled h.labelled key
  legible := fun item hitem => h.legible item (Slots.mem_erase hitem)
  given := fun item hitem => h.given item (Slots.mem_erase hitem)

end Served

/-- Actions on other attributes leave an attribute as it is. -/
theorem lookup_foldl_of_untouched {attrs : List String} {actions : List AttrAction}
    (h : ∀ action ∈ actions, action.1 ∉ attrs) (item : ValueMap) :
    ∀ attr ∈ attrs, (actions.foldl AttrAction.apply item).lookup attr = item.lookup attr := by
  induction actions generalizing item with
  | nil => exact fun _ _ => rfl
  | cons action actions ih =>
      intro attr hattr
      have hne : attr ≠ action.1 := fun heq => h action List.mem_cons_self (heq ▸ hattr)
      rw [List.foldl_cons, ih (fun other hother => h other (List.mem_cons_of_mem _ hother)) _ attr
        hattr]
      obtain ⟨target, change⟩ := action
      cases change with
      | some v => rw [AttrAction.apply, lookup_setAttr, if_neg hne]
      | none => rw [AttrAction.apply, lookup_removeAttr hne]

theorem Legible.congr {attrs : List String} {given given' : ValueMap} (h : Legible attrs given)
    (hsame : ∀ attr ∈ attrs, given'.lookup attr = given.lookup attr) : Legible attrs given' := by
  have hpart : ∀ attr ∈ attrs, keyPart given' attr = keyPart given attr := fun attr hattr => by
    rw [keyPart, keyPart, hsame attr hattr]
  refine ⟨fun attr hattr => ?_, h.names.imp_left fun hall attr hattr => ?_⟩
  · rw [hpart attr hattr]
    exact h.values attr hattr
  · rw [hpart attr hattr]
    exact hall attr hattr

namespace MemoryClient

variable {order : NumberOrder} {schema : TableKeySchema} {writes : List EngineWrite}

/-- The item an update makes of the stored item, or of the key. -/
theorem served_update {t : MemoryTable} (h : Served schema writes t)
    (hsorted : schema.attributes.Pairwise (· < ·)) {cmd : UpdateCmd} {pk rk : String}
    {key : KeyMap} {counter : Nat} (hname : cmd.table = t.name)
    (hw : (EngineWrite.update cmd pk rk key counter).Addresses schema.attributes) :
    Served schema (writes ++ [.update cmd pk rk key counter])
      (t.putItem (keyString (keyOf key))
        (t.updated (EngineWrite.updateRequest cmd pk rk key counter))) := by
  obtain ⟨hnamed, hlegible, hactions⟩ := hw
  have hgrown := h.grow (.update cmd pk rk key counter)
  generalize hrequest : EngineWrite.updateRequest cmd pk rk key counter = request at hactions ⊢
  have hkey : request.key = keyOf key := by rw [← hrequest]; rfl
  have hbase : slotOf schema (t.base request) = keyString (keyOf key) ∧
      Legible schema.attributes (t.base request).attributes ∧
      ∀ attr ∈ schema.attributes, ∀ v, (t.base request).attributes.lookup attr = some v →
        ∃ w ∈ writes ++ [.update cmd pk rk key counter], w.table = t.name ∧
          w.gives attr = some v := by
    rw [MemoryTable.base, hkey]
    cases hfind : t.find (keyString (keyOf key)) with
    | none =>
        refine ⟨by rw [Option.getD_none, slotOf, extractKey_keyOf hsorted hnamed], hlegible, ?_⟩
        intro attr _ v hv
        refine ⟨_, List.mem_append_right _ (List.mem_singleton_self _), hname, ?_⟩
        exact (keyOf_lookup key attr).symm.trans hv
    | some item =>
        obtain ⟨hitem, hslot⟩ :=
          (Slots.find_eq_some_of_labelled h.wellFormed h.labelled).mp hfind
        exact ⟨hslot, h.legible item hitem, hgrown.given item hitem⟩
  obtain ⟨hslot, hbaseLegible, hgiven⟩ := hbase
  have hsame : ∀ attr ∈ schema.attributes,
      (t.updated request).attributes.lookup attr = (t.base request).attributes.lookup attr := by
    rw [MemoryTable.updated, applyUpdate_eq]
    exact lookup_foldl_of_untouched hactions _
  refine hgrown.put ?_ (hbaseLegible.congr hsame) ?_
  · rw [← hslot]
    exact slotOf_congr fun attr hattr => by rw [keyPart, keyPart, hsame attr hattr]
  · intro attr hattr v hv
    rw [hsame attr hattr] at hv
    exact hgiven attr hattr v hv

/-- The client knows one table, and the writes serve it. -/
structure OneTable (table : String) (schema : TableKeySchema) (writes : List EngineWrite)
    (m : MemoryClient) : Prop where
  known : ∃ t, m[table]? = some t ∧ t.name = table ∧ Served schema writes t
  alone : ∀ other, other ≠ table → m[other]? = none

theorem OneTable.grow {table : String} {m : MemoryClient} (h : OneTable table schema writes m)
    (w : EngineWrite) : OneTable table schema (writes ++ [w]) m := by
  obtain ⟨t, ht, hname, hserved⟩ := h.known
  exact ⟨⟨t, ht, hname, hserved.grow w⟩, h.alone⟩

theorem OneTable.insert {table : String} {m : MemoryClient} (h : OneTable table schema writes m)
    {ws : List EngineWrite} {t : MemoryTable} (hname : t.name = table)
    (hserved : Served schema ws t) : OneTable table schema ws (m.insert table t) := by
  refine ⟨⟨t, ?_, hname, hserved⟩, ?_⟩
  · rw [Std.TreeMap.getElem?_insert]
    simp
  · intro other hother
    rw [Std.TreeMap.getElem?_insert, if_neg (by simpa using Ne.symm hother)]
    exact h.alone other hother

theorem reply_unknown {m : MemoryClient} {w : EngineWrite} (h : m[w.table]? = none) :
    (m.reply order w.call).2 = m := by
  cases w with
  | put cmd row pk counter =>
      have htable := (EngineWrite.putRequest_item cmd row pk counter).2
      have hnone : m[(EngineWrite.putRequest cmd row pk counter).tableName]? = none := by
        rw [htable]
        exact h
      simp only [EngineWrite.call, reply, putItem, hnone]
  | update cmd pk rk key counter =>
      have hnone : m[(EngineWrite.updateRequest cmd pk rk key counter).tableName]? = none := h
      simp only [EngineWrite.call, reply, updateItem, hnone]
  | delete cmd pk rk key counter =>
      have hnone : m[(EngineWrite.deleteRequest cmd pk rk key counter).tableName]? = none := h
      simp only [EngineWrite.call, reply, deleteItem, hnone]

/-- One write. -/
theorem OneTable.step {table : String} {m : MemoryClient} (h : OneTable table schema writes m)
    (hsorted : schema.attributes.Pairwise (· < ·)) {w : EngineWrite}
    (hw : w.table = table → w.Addresses schema.attributes) :
    OneTable table schema (writes ++ [w]) (m.reply order w.call).2 := by
  by_cases htable : w.table = table
  · obtain ⟨t, ht, hname, hserved⟩ := h.known
    have haddresses := hw htable
    have hchange := reply_change order m w.call
    generalize (m.reply order w.call).2 = m' at hchange ⊢
    cases w with
    | put cmd row pk counter =>
        obtain ⟨hitem, hrequest⟩ := EngineWrite.putRequest_item cmd row pk counter
        cases hchange with
        | same => exact h.grow _
        | put known =>
            rw [hrequest.trans htable] at known ⊢
            obtain rfl := Option.some.inj (ht.symm.trans known)
            refine h.insert (t := t.putItem _ _) hname ((hserved.grow _).put ?_ ?_ ?_)
            · rw [hserved.schema_eq]
            · rw [hitem]
              exact haddresses
            · intro attr _ v hv
              rw [hitem] at hv
              exact ⟨_, List.mem_append_right _ (List.mem_singleton_self _),
                htable.trans hname.symm, hv⟩
    | update cmd pk rk key counter =>
        cases hchange with
        | same => exact h.grow _
        | update known admits =>
            have hrequest : (EngineWrite.updateRequest cmd pk rk key counter).tableName = table :=
              htable
            rw [hrequest] at known ⊢
            obtain rfl := Option.some.inj (ht.symm.trans known)
            exact h.insert (t := t.putItem _ _) hname
              (served_update hserved hsorted (htable.trans hname.symm) haddresses)
    | delete cmd pk rk key counter =>
        cases hchange with
        | same => exact h.grow _
        | delete known =>
            have hrequest : (EngineWrite.deleteRequest cmd pk rk key counter).tableName = table :=
              htable
            rw [hrequest] at known ⊢
            obtain rfl := Option.some.inj (ht.symm.trans known)
            exact h.insert (t := t.eraseItem _) hname ((hserved.grow _).erase _)
  · rw [reply_unknown (h.alone _ htable)]
    exact h.grow w

/-- The key schema a table is created with. -/
def createdSchema (create : CreateTableIn) : TableKeySchema :=
  ⟨create.keySchema.hash, create.keySchema.range⟩

/-- A table and the writes of the engine to it. -/
theorem run_oneTable (order : NumberOrder) (create : CreateTableIn) (writes : List EngineWrite)
    (hsorted : (createdSchema create).attributes.Pairwise (· < ·))
    (hwrites : ∀ w ∈ writes, w.table = create.tableName →
      w.Addresses (createdSchema create).attributes) :
    OneTable create.tableName (createdSchema create) writes
      (run order ∅ (.createTable create :: writes.map EngineWrite.call)) := by
  induction writes using List.reverseRecOn with
  | nil =>
      refine ⟨⟨{ name := create.tableName, schema := createdSchema create }, ?_, rfl, ?_⟩, ?_⟩
      · simp [run, reply, createTable, createdSchema]
      · exact {
          schema_eq := rfl
          wellFormed := Slots.wellFormed_empty
          labelled := Slots.labelled_empty
          legible := fun item hitem => by cases hitem
          given := fun item hitem => by cases hitem }
      · intro other hother
        simp [run, reply, createTable, Ne.symm hother]
  | append_singleton writes w ih =>
      have hbefore := ih fun w' hw' => hwrites w' (List.mem_append_left _ hw')
      have hlast := hwrites w (List.mem_append_right _ (List.mem_singleton_self _))
      rw [List.map_append, List.map_singleton, ← List.cons_append, run_append]
      exact hbefore.step hsorted hlast

end MemoryClient

/-! ### Finding by key -/

/-- A stored item has these key attributes. -/
def MemoryTable.Stores (t : MemoryTable) (key : KeyMap) : Prop :=
  ∃ item ∈ t.items, ∀ attr ∈ t.schema.attributes, item.attributes.lookup attr = key[attr]?

/-- No two places hold items of the same key attributes. -/
def MemoryTable.KeysUnique (t : MemoryTable) : Prop :=
  ∀ (i j : Nat) (item item' : ItemRow), t.items[i]? = some item → t.items[j]? = some item' →
    (∀ attr ∈ t.schema.attributes,
      item.attributes.lookup attr = item'.attributes.lookup attr) → i = j

namespace Served

variable {schema : TableKeySchema} {writes : List EngineWrite} {t : MemoryTable} {key : KeyMap}

theorem find_isSome_iff (h : Served schema writes t)
    (hsorted : schema.attributes.Pairwise (· < ·)) (hkey : FullKey schema.attributes key) :
    (t.find (keyString (keyOf key))).isSome = true ↔ t.Stores key := by
  rw [Option.isSome_iff_exists, MemoryTable.Stores, h.schema_eq]
  refine exists_congr fun item => ?_
  rw [Slots.find_eq_some_of_labelled h.wellFormed h.labelled]
  refine and_congr_right fun hitem => ?_
  exact slotOf_eq_iff hsorted hkey (h.legible item hitem)

theorem keysUnique (h : Served schema writes t) : t.KeysUnique := by
  intro i j item item' hi hj hsame
  rw [h.schema_eq] at hsame
  have hslots := (Slots.labelled_iff.mp h.labelled).2
  have hslot : slotOf schema item = slotOf schema item' :=
    slotOf_congr fun attr hattr => by rw [keyPart, keyPart, hsame attr hattr]
  have hkeys : t.keys[i]? = t.keys[j]? := by rw [hslots i item hi, hslots j item' hj, hslot]
  have hlt : i < t.keys.length := by
    obtain ⟨hlt, -⟩ := List.getElem?_eq_some_iff.mp (hslots i item hi)
    exact hlt
  exact (List.getElem?_inj hlt h.wellFormed.nodup).mp hkeys

end Served

theorem NumberOrder.compareValues_self (order : NumberOrder) (v : Value) :
    order.compareValues v v = .eq := by
  cases v with
  | N s =>
      rcases order.refl s with h | h
      · simp [compareValues, h]
      · simp [compareValues, h]
  | _ => simp [compareValues]

/-- A key condition of one equality after the other on the attributes of a key,
and on all of them. -/
structure Equates (key : KeyMap) (keyCondition : Tokens) : Prop where
  positive : Token.not ∉ keyCondition
  equalities : ∀ l ∈ atoms keyCondition, ∃ v, key[l.lhs]? = some v ∧
    l.predicate = .comparison .equal v
  complete : ∀ name ∈ key, ∃ l ∈ atoms keyCondition, l.lhs = name

/-- No value that a write gives for an attribute of the key compares as equal to
another that is asked for. -/
def Discerned (order : NumberOrder) (writes : List EngineWrite) (table : String) (key : KeyMap) :
    Prop :=
  ∀ w ∈ writes, w.table = table → ∀ (attr : String) (v u : Value), w.gives attr = some v →
    key[attr]? = some u → order.compareValues v u = .eq → v = u

/-- An item matches such a key condition exactly when its attributes are those
of the key, if no value it has compares as equal to another. -/
theorem matchesAll_iff {order : NumberOrder} {key : KeyMap} {keyCondition : Tokens}
    (h : Equates key keyCondition) {item : ItemRow}
    (hapart : ∀ (name : String) (v u : Value), item.attributes.lookup name = some v →
      key[name]? = some u → order.compareValues v u = .eq → v = u) :
    matchesAll order ((atoms keyCondition).filterMap Leaf.keyPredicate) item = true ↔
      ∀ name ∈ key, item.attributes.lookup name = key[name]? := by
  have hpred : ∀ l ∈ atoms keyCondition, ∃ u, key[l.lhs]? = some u ∧
      l.keyPredicate = some { attr := l.lhs, op := "=", v1 := u } := by
    intro l hl
    obtain ⟨u, hu, hpredicate⟩ := h.equalities l hl
    exact ⟨u, hu, by simp [Leaf.keyPredicate, hpredicate, ComparisonOp.text]⟩
  simp only [matchesAll, List.all_eq_true, List.mem_filterMap, Option.any_eq_true]
  constructor
  · intro hall name hname
    obtain ⟨l, hl, rfl⟩ := h.complete name hname
    obtain ⟨u, hu, hread⟩ := hpred l hl
    obtain ⟨v, hv, hholds⟩ := hall _ ⟨l, hl, hread⟩
    have hequal : order.compareValues v u = .eq := by simpa [KeyPredicate.holds] using hholds
    rw [hv, hu, hapart l.lhs v u hv hu hequal]
  · rintro hall p ⟨l, hl, hp⟩
    obtain ⟨u, hu, hread⟩ := hpred l hl
    obtain rfl := Option.some.inj (hread.symm.trans hp)
    have hname : l.lhs ∈ key := Std.TreeMap.mem_iff_isSome_getElem?.mpr (by rw [hu]; rfl)
    refine ⟨u, (hall l.lhs hname).trans hu, ?_⟩
    simp [KeyPredicate.holds, order.compareValues_self]

/-- What asks that the key exist. -/
def asksPresence (condition : Option String) : Prop :=
  checkCondition condition false ≠ .ok () ∧ checkCondition condition true = .ok ()

namespace MemoryClient

variable {order : NumberOrder} {m : MemoryClient} {t : MemoryTable}

theorem checkCondition_ok_iff {condition : Option String} (h : asksPresence condition)
    (found : Bool) : checkCondition condition found = .ok () ↔ found = true := by
  cases found with
  | true => exact iff_of_true h.2 rfl
  | false => exact iff_of_false h.1 Bool.false_ne_true

theorem getItem_eq {request : GetItemIn} (ht : m[request.tableName]? = some t) :
    m.getItem request = .ok { item := t.find (keyString request.key) } := by
  simp only [getItem, ht]

theorem updateItem_ok_iff {request : UpdateItemIn} (ht : m[request.tableName]? = some t)
    (hasks : asksPresence request.conditionExpression) :
    (∃ out, (m.updateItem request).1 = .ok out) ↔
      (t.find (keyString request.key)).isSome = true := by
  rw [← checkCondition_ok_iff hasks]
  simp only [updateItem, ht]
  cases checkCondition request.conditionExpression (t.find (keyString request.key)).isSome with
  | error e => simp
  | ok _ => simp

theorem deleteItem_ok_iff {request : DeleteItemIn} (ht : m[request.tableName]? = some t)
    (hasks : asksPresence request.conditionExpression) :
    (∃ out, (m.deleteItem request).1 = .ok out) ↔
      (t.find (keyString request.key)).isSome = true := by
  rw [← checkCondition_ok_iff hasks]
  simp only [deleteItem, ht]
  cases checkCondition request.conditionExpression (t.find (keyString request.key)).isSome with
  | error e => simp
  | ok _ => simp

/-- A Query for a full key returns what the key finds. -/
theorem query_eq {schema : TableKeySchema} {writes : List EngineWrite}
    (h : Served schema writes t) (hsorted : schema.attributes.Pairwise (· < ·)) {key : KeyMap}
    (hkey : FullKey schema.attributes key)
    (hplain : ∀ attr ∈ schema.attributes, isPlainName attr = true)
    (hdiscerned : Discerned order writes t.name key)
    (cmd : SelectCmd) (clause : SourceExpr .or) (plan : QueryKeyPlan) (counter : Nat)
    (ht : m[cmd.table]? = some t)
    (hequates : Equates key (clause.build.part (LogicalExpression.keyConditionPart plan.view))) :
    let request := (queryRequest cmd ⟨clause.build⟩ plan ⟨uniquePrefix counter, 1, 1, ∅, ∅⟩).1
    m.query order request = .ok
      { items := (t.find (keyString (keyOf key))).toList.map
          (projectItem request.projectionExpression request.expressionAttributeNames) } := by
  intro request
  have hnamed : ∀ name, name ∈ key ↔ name ∈ schema.attributes := fun name =>
    Std.TreeMap.mem_iff_isSome_getElem?.trans (hkey.full name)
  have hread := parseKeyCondition_query cmd clause plan counter hequates.positive
    (fun l hl => by
      obtain ⟨v, hv, -⟩ := hequates.equalities l hl
      exact hplain l.lhs ((hkey.full l.lhs).mp (by rw [hv]; rfl)))
    (fun l hl => by
      obtain ⟨v, -, hpredicate⟩ := hequates.equalities l hl
      simp [Leaf.keyPredicate, hpredicate])
  have htable : m[request.tableName]? = some t := ht
  have hmatches : ∀ item ∈ t.items,
      matchesAll order ((atoms (clause.build.part
        (LogicalExpression.keyConditionPart plan.view))).filterMap Leaf.keyPredicate) item =
          decide (slotOf schema item = keyString (keyOf key)) := by
    intro item hitem
    rw [Bool.eq_iff_iff, decide_eq_true_eq, slotOf_eq_iff hsorted hkey (h.legible item hitem),
      matchesAll_iff hequates]
    · exact forall_congr' fun name => by rw [hnamed]
    · intro name v u hv hu hequal
      have hname : name ∈ schema.attributes := (hkey.full name).mp (by rw [hu]; rfl)
      obtain ⟨w, hw, hwtable, hgives⟩ := h.given item hitem name hname v hv
      exact hdiscerned w hw hwtable name v u hgives hu hequal
  simp only [query, htable]
  rw [hread, List.filter_congr hmatches, Slots.filter_label_eq h.wellFormed h.labelled]

/-- A GetItem finds an item with the key exactly when one is stored, and so do
an update and a delete that ask for one. -/
structure FindsKey (m : MemoryClient) (t : MemoryTable) (key : KeyMap) : Prop where
  get : ∀ request : GetItemIn, request.tableName = t.name → request.key = keyOf key →
    ∃ found, m.getItem request = .ok { item := found } ∧ (found.isSome = true ↔ t.Stores key)
  update : ∀ request : UpdateItemIn, request.tableName = t.name → request.key = keyOf key →
    asksPresence request.conditionExpression →
      ((∃ out, (m.updateItem request).1 = .ok out) ↔ t.Stores key)
  delete : ∀ request : DeleteItemIn, request.tableName = t.name → request.key = keyOf key →
    asksPresence request.conditionExpression →
      ((∃ out, (m.deleteItem request).1 = .ok out) ↔ t.Stores key)

/-- A Query whose key condition equates all attributes of the key returns what
a GetItem with the key finds. -/
def QueriesKey (order : NumberOrder) (m : MemoryClient) (table : String) (key : KeyMap) : Prop :=
  ∀ (cmd : SelectCmd) (clause : SourceExpr .or) (plan : QueryKeyPlan) (counter : Nat)
    (get : GetItemIn), cmd.table = table →
    Equates key (clause.build.part (LogicalExpression.keyConditionPart plan.view)) →
    get.tableName = table → get.key = keyOf key →
      let request := (queryRequest cmd ⟨clause.build⟩ plan ⟨uniquePrefix counter, 1, 1, ∅, ∅⟩).1
      ∃ found, m.getItem get = .ok { item := found } ∧
        m.query order request = .ok
          { items := found.toList.map
              (projectItem request.projectionExpression request.expressionAttributeNames) }

/-- The in-memory client addresses items by their primary key: where the key
attributes are in the order of their names, the writes are of keys that key
strings tell, and, for a Query, the names are plain and the values told apart
by comparing. -/
theorem addresses (order : NumberOrder) (create : CreateTableIn) (writes : List EngineWrite)
    (hsorted : (createdSchema create).attributes.Pairwise (· < ·))
    (hwrites : ∀ w ∈ writes, w.table = create.tableName →
      w.Addresses (createdSchema create).attributes) :
    let m := run order ∅ (.createTable create :: writes.map EngineWrite.call)
    ∃ t, m[create.tableName]? = some t ∧ t.name = create.tableName ∧
      t.schema = createdSchema create ∧ t.KeysUnique ∧
      ∀ key : KeyMap, FullKey (createdSchema create).attributes key →
        FindsKey m t key ∧
        ((∀ attr ∈ (createdSchema create).attributes, isPlainName attr = true) →
          Discerned order writes create.tableName key →
            QueriesKey order m create.tableName key) := by
  intro m
  obtain ⟨t, ht, hname, hserved⟩ := (run_oneTable order create writes hsorted hwrites).known
  refine ⟨t, ht, hname, hserved.schema_eq, hserved.keysUnique, fun key hkey => ⟨?_, ?_⟩⟩
  · have hfind := hserved.find_isSome_iff hsorted hkey
    rw [← hname] at ht
    constructor
    · intro request htable hrequest
      refine ⟨_, getItem_eq (by rw [htable]; exact ht), ?_⟩
      rw [hrequest]
      exact hfind
    · intro request htable hrequest hasks
      rw [updateItem_ok_iff (by rw [htable]; exact ht) hasks, hrequest]
      exact hfind
    · intro request htable hrequest hasks
      rw [deleteItem_ok_iff (by rw [htable]; exact ht) hasks, hrequest]
      exact hfind
  · intro hplain hdiscerned cmd clause plan counter get htable hequates hget hgetKey
    refine ⟨_, getItem_eq (by rw [hget]; exact ht), ?_⟩
    rw [hgetKey]
    rw [← hname] at hdiscerned
    exact query_eq hserved hsorted hkey hplain hdiscerned cmd clause plan counter
      (by rw [htable]; exact ht) hequates

end MemoryClient

/-! ### Two schemas -/

/-- `CREATE TABLE t` with this key. -/
def pairTable (hash range : String) : CreateTableIn :=
  { tableName := "t", attributeDefinitions := [], keySchema := ⟨[hash], [range]⟩, billing := none,
    warm := none, gsis := [], lsis := [], vectorIndexes := [], stream := none, sse := none,
    tableClass := .standard, deletionProtection := false, tags := [] }

def pairKey : KeyMap := ((∅ : KeyMap).insert "a" (Value.N "1")).insert "z" (Value.N "2")

/-- `INSERT INTO t (a, z) VALUES (1, 2)` -/
def insertPair (pk : String) : EngineWrite :=
  .put { insert := true, tableName := "t", columns := ["a", "z"],
         rows := [[Value.N "1", Value.N "2"]] }
    [Value.N "1", Value.N "2"] pk 0

/-- `UPDATE t SET x = 3 WHERE a = 1 AND z = 2` -/
def updatePair (pk rk : String) : EngineWrite :=
  .update { table := "t", mutation := .set [{ lhs := "x", rhsValue := some (.N "3") }] } pk rk
    pairKey 0

theorem pairKey_lookup (name : String) : pairKey[name]? =
    if name = "z" then some (.N "2") else if name = "a" then some (.N "1") else none := by
  simp [pairKey, Std.TreeMap.getElem?_insert, @eq_comm _ name]

theorem fullKey_pair {attrs : List String} (h : ∀ name, name ∈ attrs ↔ name = "z" ∨ name = "a") :
    FullKey attrs pairKey := by
  refine ⟨fun name => ?_, fun name v hv => ?_, fun name v hv => ?_⟩
  · rw [pairKey_lookup, h]
    split <;> simp_all
  · rw [pairKey_lookup] at hv
    split at hv
    · cases hv
      rfl
    · split at hv <;> cases hv
      rfl
  · rw [pairKey_lookup] at hv
    split at hv
    · cases hv
      decide
    · split at hv <;> cases hv
      decide

/-- The table with the key `a`, `z`: an item is inserted and updated. -/
theorem sortedPair_addressed :
    let m := MemoryClient.run digitOrder ∅ (.createTable (pairTable "a" "z") ::
      [insertPair "a", updatePair "a" "z"].map EngineWrite.call)
    ∃ t, m["t"]? = some t ∧ t.KeysUnique ∧ MemoryClient.FindsKey m t pairKey ∧
      MemoryClient.QueriesKey digitOrder m "t" pairKey := by
  have hattrs : (MemoryClient.createdSchema (pairTable "a" "z")).attributes = ["a", "z"] := rfl
  have hkey : FullKey ["a", "z"] pairKey := fullKey_pair (by simp [or_comm])
  have hitem : ["a", "z"].zip [Value.N "1", Value.N "2"] = keyOf pairKey := by decide +kernel
  have hwrites : ∀ w ∈ [insertPair "a", updatePair "a" "z"], w.table = "t" →
      w.Addresses ["a", "z"] := by
    intro w hw _
    rcases List.mem_pair.mp hw with rfl | rfl
    · rw [insertPair, EngineWrite.Addresses, hitem]
      exact hkey.legible
    · refine ⟨fun name hname => ?_, hkey.legible, by decide +kernel⟩
      exact (hkey.full name).mp (Std.TreeMap.mem_iff_isSome_getElem?.mp hname)
  obtain ⟨t, ht, -, -, hunique, hkeys⟩ := MemoryClient.addresses digitOrder (pairTable "a" "z")
    [insertPair "a", updatePair "a" "z"] (by rw [hattrs]; decide) hwrites
  obtain ⟨hfinds, hqueries⟩ := hkeys pairKey hkey
  refine ⟨t, ht, hunique, hfinds, hqueries (by rw [hattrs]; decide) ?_⟩
  intro w hw _ attr v u hv hu _
  have hgives : w.gives attr = pairKey[attr]? := by
    rcases List.mem_pair.mp hw with rfl | rfl
    · rw [insertPair, EngineWrite.gives, hitem, keyOf_lookup]
    · rfl
  exact Option.some.inj (hv.symm.trans (hgives.trans hu))

/-- The table with the key `z`, `a`: the item that the row was inserted as is
not found under its key. -/
theorem reversedPair_not_addressed :
    ¬ ∃ t, (MemoryClient.run digitOrder ∅ (.createTable (pairTable "z" "a") ::
        [insertPair "z"].map EngineWrite.call))["t"]? = some t ∧
      ∀ key, FullKey ["z", "a"] key → MemoryClient.FindsKey
        (MemoryClient.run digitOrder ∅ (.createTable (pairTable "z" "a") ::
          [insertPair "z"].map EngineWrite.call)) t key := by
  rintro ⟨t, ht, hfinds⟩
  have hstored : (MemoryClient.run digitOrder ∅ (.createTable (pairTable "z" "a") ::
      [insertPair "z"].map EngineWrite.call))["t"]? =
        some { name := "t", schema := ⟨["z"], ["a"]⟩,
               keys := [keyString [("z", .N "2"), ("a", .N "1")]],
               items := [⟨[("a", .N "1"), ("z", .N "2")]⟩] } := by
    decide +kernel
  obtain rfl := Option.some.inj (ht.symm.trans hstored)
  obtain ⟨found, hget, hfound⟩ := (hfinds pairKey (fullKey_pair (by simp))).get
    { tableName := "t", key := keyOf pairKey, expressionAttributeNames := [] } rfl rfl
  rw [MemoryClient.getItem_eq hstored] at hget
  obtain rfl := GetItemOut.mk.inj (Except.ok.inj hget) |>.1
  have hstores := hfound.mpr ⟨_, List.mem_cons_self, by decide +kernel⟩
  revert hstores
  decide +kernel

end DdbShell
