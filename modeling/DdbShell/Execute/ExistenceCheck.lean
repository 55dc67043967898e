import DdbShell.Execute.ConditionCheck
import DdbShell.Execute.KeyReferences
import Mathlib.Data.Set.Defs

/-!
When the check of an EXISTS or NOT EXISTS passes. On a clause that fixes the
whole key its condition is the rest of the clause and the existence check, so
an EXISTS passes when the item of the key satisfies the clause. A NOT EXISTS
asks the rest of the clause too, of a key that holds no item: it is no
complement unless there is no rest.
-/

namespace DdbShell

open Infix (Token Denotes)
open LogicalExpression
open SymbolTable

/-- Elements with a counted member are the same if only one member counts. -/
theorem eq_of_countP_flatMap {α β : Type} {f : α → List β} {p : β → Bool} {xs : List α}
    (h : (xs.flatMap f).countP p ≤ 1) {x y : α} (hx : x ∈ xs) (hy : y ∈ xs) {a b : β}
    (ha : a ∈ f x) (hb : b ∈ f y) (hpa : p a = true) (hpb : p b = true) : x = y := by
  induction xs with
  | nil => cases hx
  | cons z zs ih =>
      rw [List.flatMap_cons, List.countP_append] at h
      have hhead : ∀ {w c}, w = z → c ∈ f w → p c = true → 0 < (f z).countP p := by
        rintro w c rfl hc hpc
        exact List.countP_pos_iff.mpr ⟨c, hc, hpc⟩
      have htail : ∀ {w c}, w ∈ zs → c ∈ f w → p c = true → 0 < (zs.flatMap f).countP p := by
        intro w c hw hc hpc
        exact List.countP_pos_iff.mpr ⟨c, List.mem_flatMap.mpr ⟨w, hw, hc⟩, hpc⟩
      rcases List.mem_cons.mp hx with hxz | hx <;> rcases List.mem_cons.mp hy with hyz | hy
      · rw [hxz, hyz]
      · have h1 := hhead hxz ha hpa
        have h2 := htail hy hb hpb
        omega
      · have h1 := htail hx ha hpa
        have h2 := hhead hyz hb hpb
        omega
      · exact ih (by omega) hx hy

namespace LogicalExpression

/-! ### The key and the rest of a clause -/

/-- A conjunct that gives one of the names its value. -/
def fixes (names : List String) : LogicalExpression → Bool
  | .leaf false _ ⟨name, .comparison .equal _⟩ => names.contains name
  | _ => false

theorem fixes_iff {names : List String} {c : LogicalExpression} :
    c.fixes names = true ↔
      ∃ parens name v, c = .leaf false parens ⟨name, .comparison .equal v⟩ ∧ name ∈ names := by
  constructor
  · intro h
    unfold fixes at h
    split at h
    · exact ⟨_, _, _, rfl, List.contains_iff_mem.mp h⟩
    · cases h
  · rintro ⟨parens, name, v, rfl, hname⟩
    exact List.contains_iff_mem.mpr hname

/-- The conjuncts that fix the names hold. -/
def fixedHold (names : List String) (v : Leaf → Bool) (e : LogicalExpression) : Bool :=
  (e.conjuncts.filter (fixes names)).all (holds v)

/-- The other conjuncts hold. -/
def restHolds (names : List String) (v : Leaf → Bool) (e : LogicalExpression) : Bool :=
  (e.conjuncts.filter fun c => !c.fixes names).all (holds v)

theorem holds_eq_fixed_and_rest (names : List String) (v : Leaf → Bool) (e : LogicalExpression) :
    e.holds v = (e.fixedHold names v && e.restHolds names v) := by
  rw [holds_eq_conjuncts, fixedHold, restHolds, Bool.eq_iff_iff, Bool.and_eq_true]
  simp only [List.all_eq_true, List.mem_filter, Bool.not_eq_true']
  constructor
  · intro h
    exact ⟨fun c hc => h c hc.1, fun c hc => h c hc.1⟩
  · rintro ⟨hfixed, hrest⟩ c hc
    cases hcase : c.fixes names with
    | true => exact hfixed c ⟨hc, hcase⟩
    | false => exact hrest c ⟨hc, hcase⟩

theorem leaves_eq_conjuncts (e : LogicalExpression) : e.leaves = e.conjuncts.flatMap leaves := by
  induction e using induct with
  | leaf negate parens l => simp [conjuncts]
  | or negate parens es ih => simp [conjuncts]
  | and negate parens es ih =>
      cases negate with
      | true => simp [conjuncts]
      | false =>
          rw [conjuncts_and, leaves, leavesAll_eq_flatMap, List.flatMap_assoc]
          exact List.flatMap_congr fun e he => ih e he

/-- Each name is in one leaf of the tree, an equality that is a conjunct. -/
structure Fixes (names : List String) (e : LogicalExpression) : Prop where
  once : ∀ name ∈ names, e.countLhs name = 1
  conjunct : ∀ name ∈ names, ∃ c ∈ e.conjuncts, c.fixes [name] = true

/-- The one conjunct with a leaf on the name. -/
theorem Fixes.conjunct_eq {names : List String} {e : LogicalExpression} (h : Fixes names e)
    {name : String} (hname : name ∈ names) :
    ∃ parens v, .leaf false parens ⟨name, .comparison .equal v⟩ ∈ e.conjuncts ∧
      ∀ c ∈ e.conjuncts, ∀ l ∈ c.leaves, l.lhs = name →
        c = .leaf false parens ⟨name, .comparison .equal v⟩ := by
  obtain ⟨c, hc, hfixes⟩ := h.conjunct name hname
  obtain ⟨parens, other, v, rfl, hother⟩ := fixes_iff.mp hfixes
  rw [List.mem_singleton.mp hother] at hc
  refine ⟨parens, v, hc, ?_⟩
  intro d hd l hl hlhs
  have honce := h.once name hname
  rw [countLhs_eq_countP, leaves_eq_conjuncts] at honce
  exact eq_of_countP_flatMap (Nat.le_of_eq honce) hd hc hl (List.mem_singleton_self _)
    (by simpa using hlhs) (by simp)

theorem spine_of_conjunct {e c : LogicalExpression} (hc : c ∈ e.conjuncts) {s : Bool × Leaf}
    (hs : s ∈ c.spine) : s ∈ e.spine := by
  induction e using induct with
  | leaf negate parens l => exact List.mem_singleton.mp hc ▸ hs
  | or negate parens es ih => exact List.mem_singleton.mp hc ▸ hs
  | and negate parens es ih =>
      cases negate with
      | true => exact List.mem_singleton.mp hc ▸ hs
      | false =>
          rw [conjuncts_and, List.mem_flatMap] at hc
          obtain ⟨e, he, hc⟩ := hc
          exact mem_spineAll.mpr ⟨e, he, ih e he hc⟩

/-- The leaf that gives a name its first value. -/
theorem firstEquality_leaf {e : LogicalExpression} {name : String} {v : Value}
    (h : e.firstEquality name = some v) : ⟨name, .comparison .equal v⟩ ∈ e.leaves := by
  obtain ⟨s, hs, hvalue⟩ := List.exists_of_findSome?_eq_some h
  have hequality := isKeyEquality_of_keyValue hvalue
  obtain ⟨rhs, rfl⟩ := isKeyEquality_iff.mp hequality
  simp only [keyValue, or_self, if_true, hequality] at hvalue
  cases hvalue
  exact mem_leaves_of_spine hs

theorem firstEquality_isSome_of_conjunct {e : LogicalExpression} {name : String} {v : Value}
    {parens : Bool} (h : .leaf false parens ⟨name, .comparison .equal v⟩ ∈ e.conjuncts) :
    (e.firstEquality name).isSome = true := by
  have hspine := spine_of_conjunct h (List.mem_singleton_self _)
  rw [Option.isSome_iff_ne_none, firstEquality, Ne, List.findSome?_eq_none_iff]
  intro hnone
  have hvalue := hnone _ hspine
  have hequality : isKeyEquality name (false, ⟨name, .comparison .equal v⟩) = true :=
    isKeyEquality_iff.mpr ⟨v, rfl⟩
  simp [keyValue, hequality] at hvalue

/-- What a part of the tree says, when it drops the fixing conjuncts and no others. -/
theorem Grown.partHolds_eq_rest {q : Part} (hor : q.keepOr = true) {names : List String}
    {e : LogicalExpression} (hg : Grown e)
    (h : ∀ c ∈ e.conjuncts, c.fixes names = false → c.dropped q = [])
    (hdrops : ∀ name ∈ names, ∀ v, q.keep false ⟨name, .comparison .equal v⟩ = false)
    (v : Leaf → Bool) : e.partHolds q v = e.restHolds names v := by
  induction e using induct with
  | leaf negate parens l =>
      have hone := h (.leaf negate parens l) (by simp [conjuncts])
      cases hfixes : (LogicalExpression.leaf negate parens l).fixes names with
      | true =>
          obtain ⟨_, name, value, heq, hname⟩ := fixes_iff.mp hfixes
          cases heq
          simp [restHolds, conjuncts, hfixes, partHolds, hdrops name hname value]
      | false =>
          have hkeep : q.keep negate l = true := by
            simpa [dropped, spine] using hone hfixes
          simp [restHolds, conjuncts, hfixes, partHolds, holds, hkeep]
  | or negate parens es ih => simp [restHolds, conjuncts, fixes, partHolds, hor]
  | and negate parens es ih =>
      cases negate with
      | true =>
          have hnone := h (.and true parens es) (by simp [conjuncts]) rfl
          have hkeep : ∀ s ∈ (LogicalExpression.and true parens es).spine,
              q.keep s.1 s.2 = true := by
            intro s hs
            rw [dropped, List.filter_eq_nil_iff] at hnone
            simpa using hnone s hs
          rw [(hg.partHolds_of_keep hor hkeep).2]
          simp [restHolds, conjuncts, fixes]
      | false =>
          cases hg with
          | and size children grouped bare =>
              rw [conjuncts_and] at h
              rw [partHolds_and_false, partAllHold_eq_all, restHolds, conjuncts_and,
                List.filter_flatMap, List.all_flatMap, Bool.eq_iff_iff, List.all_eq_true,
                List.all_eq_true]
              refine forall₂_congr fun e he => ?_
              rw [ih e he (children e he) fun c hc => h c (List.mem_flatMap.mpr ⟨e, he, hc⟩)]
              rfl

theorem holds_congr {v w : Leaf → Bool} {e : LogicalExpression}
    (h : ∀ l ∈ e.leaves, v l = w l) : e.holds v = e.holds w := by
  have hchild : ∀ {es : List LogicalExpression},
      (∀ l ∈ leavesAll es, v l = w l) → ∀ e ∈ es, ∀ l ∈ e.leaves, v l = w l := by
    intro es hes e he l hl
    exact hes l (leavesAll_eq_flatMap es ▸ List.mem_flatMap.mpr ⟨e, he, hl⟩)
  induction e using induct with
  | leaf negate parens l => rw [holds, holds, h l (List.mem_singleton_self l)]
  | or negate parens es ih =>
      rw [holds, holds, anyHolds_eq_any, anyHolds_eq_any]
      congr 1
      rw [Bool.eq_iff_iff, List.any_eq_true, List.any_eq_true]
      exact exists_congr fun e => and_congr_right fun he => by rw [ih e he (hchild h e he)]
  | and negate parens es ih =>
      rw [holds, holds, allHold_eq_all, allHold_eq_all]
      congr 1
      rw [Bool.eq_iff_iff, List.all_eq_true, List.all_eq_true]
      exact forall₂_congr fun e he => by rw [ih e he (hchild h e he)]

theorem restHolds_congr {names : List String} {v w : Leaf → Bool} {e : LogicalExpression}
    (h : ∀ l ∈ e.leaves, v l = w l) : e.restHolds names v = e.restHolds names w := by
  rw [restHolds, restHolds, Bool.eq_iff_iff, List.all_eq_true, List.all_eq_true]
  refine forall₂_congr fun c hc => ?_
  have hmem := (List.mem_filter.mp hc).1
  rw [holds_congr fun l hl => h l (leaves_eq_conjuncts e ▸ List.mem_flatMap.mpr ⟨c, hmem, hl⟩)]

end LogicalExpression

/-! ### The table -/

/-- The item has the key: each key attribute with an equal value. -/
def Service.hasKey (svc : Service) (key : BaseKey) (doc : Document) (given : ValueMap) : Prop :=
  ∀ name ∈ key.attributes, ∃ v x, given.lookup name = some v ∧ doc (topLevel name) = some x ∧
    svc.test (.comparison .equal v) x = true

/-- The items of a table, no two with one key. -/
structure TableItems (svc : Service) (key : BaseKey) where
  items : Set Document
  unique : ∀ doc ∈ items, ∀ doc' ∈ items, ∀ given,
    svc.hasKey key doc given → svc.hasKey key doc' given → doc = doc'

/-- A key that holds no item. -/
def Document.missing : Document := fun _ => none

/-- The check names one key of the table, and its condition is true of the item there. -/
structure Passes {svc : Service} {key : BaseKey} (table : TableItems svc key)
    (check : TransactConditionCheck) : Prop where
  names : ∀ name, (check.key.lookup name).isSome = true ↔ name ∈ key.attributes
  condition : ∃ c,
    readConditionExpression check.emitted.aliases check.conditionExpression = some c ∧
    c.full = true ∧
    ((∃ doc ∈ table.items, svc.hasKey key doc check.key ∧ c.eval (svc.conditionHolds doc) = true) ∨
      (∀ doc ∈ table.items, ¬ svc.hasKey key doc check.key) ∧
        c.eval (svc.conditionHolds .missing) = true)

/-! ### The condition -/

/-- A clause on the key of its table that the service can read when the key is taken out of it. -/
structure Checkable (key : BaseKey) (clause : SourceExpr .or) : Prop where
  fixes : Fixes key.attributes clause.build
  plain : ∀ name ∈ key.attributes, isPlainName name = true
  named : key.rk = none → ∀ l ∈ clause.build.leaves, l.lhs ≠ ""
  paths : clausePaths (some clause) = true
  full : clause.build.partFull (filterPart ⟨key.pkList, key.rkList⟩) = true

variable {key : BaseKey} {clause : SourceExpr .or}

abbrev BaseKey.schema (key : BaseKey) : ResolvedKeySchema := ⟨key.pkList, key.rkList⟩

theorem mem_attributes {name : String} :
    name ∈ key.attributes ↔ name ∈ key.pkList ∨ name ∈ key.rkList := by
  simp [BaseKey.attributes, BaseKey.pkList]

/-- Only a leaf on a key attribute is left out of the filter. -/
theorem mem_attributes_of_dropped {negate : Bool} {l : Leaf}
    (h : (checkPart key.schema).keep negate l = false) : l.lhs ∈ key.attributes := by
  rw [mem_attributes]
  cases hp : l.predicate with
  | comparison op rhs =>
      rw [or_iff_not_imp_left]
      simpa [filterPart, Leaf.inFilter, hp] using h
  | between lo hi =>
      right
      simpa [filterPart, Leaf.inFilter, hp] using h
  | beginsWith start =>
      right
      simpa [filterPart, Leaf.inFilter, hp] using h
  | _ => simp [filterPart, Leaf.inFilter, hp] at h

/-- The filter is the rest of the clause. -/
theorem Checkable.partHolds_eq (h : Checkable key clause) (v : Leaf → Bool) :
    clause.build.partHolds (checkPart key.schema) v = clause.build.restHolds key.attributes v := by
  apply clause.grown_build.1.partHolds_eq_rest rfl
  · intro c hc hfixes
    rw [dropped, List.filter_eq_nil_iff]
    intro s hs hdrop
    have hname : s.2.lhs ∈ key.attributes := mem_attributes_of_dropped (by simpa using hdrop)
    obtain ⟨parens, v, -, honly⟩ := h.fixes.conjunct_eq hname
    have hsame := honly c hc s.2 (mem_leaves_of_spine hs) rfl
    have hfixed := fixes_iff.mpr ⟨parens, s.2.lhs, v, hsame, hname⟩
    rw [hfixed] at hfixes
    cases hfixes
  · intro name hname v
    rw [mem_attributes, or_iff_not_imp_left] at hname
    simpa [filterPart, Leaf.inFilter] using hname

theorem mem_keyNames_of_attributes {name : String} (h : name ∈ key.attributes) :
    name ∈ keyNames key.schema := by
  rcases mem_attributes.mp h with h | h
  · rw [List.mem_singleton.mp h]
    exact List.mem_cons_self
  · obtain ⟨rk, hrk⟩ : ∃ rk, key.rk = some rk := by
      cases hrk : key.rk with
      | none => simp [BaseKey.rkList, hrk] at h
      | some rk => exact ⟨rk, rfl⟩
    simp only [BaseKey.rkList, hrk, Option.toList_some, List.mem_singleton] at h
    simp [keyNames, BaseKey.rkList, hrk, h]

/-- The value that the one equality gives a key attribute is in the key of the check. -/
theorem Checkable.keyLookup_eq (h : Checkable key clause) {name : String}
    (hname : name ∈ key.attributes) :
    ∃ parens v, .leaf false parens ⟨name, .comparison .equal v⟩ ∈ clause.build.conjuncts ∧
      (∀ c ∈ clause.build.conjuncts, ∀ l ∈ c.leaves, l.lhs = name →
        c = .leaf false parens ⟨name, .comparison .equal v⟩) ∧
      keyLookup key.schema ⟨clause.build⟩ name = some v := by
  obtain ⟨parens, v, hmem, honly⟩ := h.fixes.conjunct_eq hname
  refine ⟨parens, v, hmem, honly, ?_⟩
  rw [keyLookup, if_pos (mem_keyNames_of_attributes hname)]
  obtain ⟨u, hu⟩ := Option.isSome_iff_exists.mp (firstEquality_isSome_of_conjunct hmem)
  have hleaf := firstEquality_leaf hu
  rw [leaves_eq_conjuncts, List.mem_flatMap] at hleaf
  obtain ⟨c, hc, hleaf⟩ := hleaf
  rw [honly c hc _ hleaf rfl] at hleaf
  cases List.mem_singleton.mp hleaf
  exact hu

theorem Checkable.keyLookup_isSome_iff (h : Checkable key clause) (name : String) :
    (keyLookup key.schema ⟨clause.build⟩ name).isSome = true ↔ name ∈ key.attributes := by
  constructor
  · intro hsome
    unfold keyLookup at hsome
    split at hsome
    case isFalse => cases hsome
    case isTrue hname =>
      obtain ⟨v, hv⟩ := Option.isSome_iff_exists.mp hsome
      rw [keyNames, List.mem_pair] at hname
      rcases hname with rfl | rfl
      · exact List.mem_cons_self
      · cases hrk : key.rk with
        | none =>
            -- a table without a sort key asks for an equality on the empty name
            have hne := h.named hrk _ (firstEquality_leaf hv)
            simp [BaseKey.rkList, hrk] at hne
        | some rk => simp [BaseKey.rkList, hrk, BaseKey.attributes]
  · intro hname
    obtain ⟨_, v, -, -, hv⟩ := h.keyLookup_eq hname
    rw [hv]
    rfl

theorem item_plain {name : String} (h : isPlainName name = true) (doc : Document) :
    doc.item name = doc (topLevel name) := by
  rw [Document.item, operandPath_plain h, Option.bind_some]

theorem leafHolds_equal {svc : Service} {item : Item} {name : String} {v : Value} :
    svc.leafHolds item ⟨name, .comparison .equal v⟩ = true ↔
      ∃ x, item name = some x ∧ svc.test (.comparison .equal v) x = true := by
  cases hx : item name with
  | none => simp [Service.leafHolds, hx]
  | some x => simp [Service.leafHolds, hx]

/-- The key of the check is the key that the clause fixes. -/
theorem Checkable.hasKey_iff (h : Checkable key clause) (svc : Service) (doc : Document) :
    svc.hasKey key doc (keyOf ((Where.mk clause.build).getGudKey key.pkList key.rkList)) ↔
      clause.build.fixedHold key.attributes (svc.leafHolds doc.item) = true := by
  have hgiven := lookup_getGudKey key.schema ⟨clause.build⟩
  rw [fixedHold, List.all_eq_true]
  constructor
  · intro hkey c hc
    obtain ⟨hmem, hfixes⟩ := List.mem_filter.mp hc
    obtain ⟨parens, name, v, rfl, hname⟩ := fixes_iff.mp hfixes
    obtain ⟨_, u, -, honly, hlookup⟩ := h.keyLookup_eq hname
    obtain ⟨v', x, hv', hx, htest⟩ := hkey name hname
    cases honly _ hmem _ (List.mem_singleton_self _) rfl
    rw [hgiven, hlookup] at hv'
    cases hv'
    rw [holds, Bool.false_xor, leafHolds_equal]
    exact ⟨x, (item_plain (h.plain name hname) doc).trans hx, htest⟩
  · intro hfixed name hname
    obtain ⟨parens, v, hmem, -, hlookup⟩ := h.keyLookup_eq hname
    have hholds := hfixed _ (List.mem_filter.mpr ⟨hmem, fixes_iff.mpr ⟨_, _, _, rfl, hname⟩⟩)
    rw [holds, Bool.false_xor, leafHolds_equal, item_plain (h.plain name hname)] at hholds
    obtain ⟨x, hx, htest⟩ := hholds
    exact ⟨v, x, (hgiven name).trans hlookup, hx, htest⟩

/-- A clause with a conjunct on the key is no OR. -/
theorem Checkable.isOr_eq_false (h : Checkable key clause) : clause.build.isOr = false := by
  have hpk : key.pk ∈ key.attributes := List.mem_cons_self
  obtain ⟨parens, v, hmem, -⟩ := h.keyLookup_eq hpk
  cases hroot : clause.build with
  | leaf negate parens l => rfl
  | and negate parens es => rfl
  | or negate parens es =>
      rw [hroot] at hmem
      cases List.mem_singleton.mp hmem

/-- The rest of the clause, AND, and the check. -/
theorem Checkable.denotes (h : Checkable key clause) (c : Condition) :
    Denotes .and
      ((if ((clause.build.part (checkPart key.schema)).map (Token.map Leaf.condition)).isEmpty
          then []
        else (clause.build.part (checkPart key.schema)).map (Token.map Leaf.condition) ++ [.and]) ++
        [.atom c])
      (fun v => clause.build.restHolds key.attributes (fun l => v l.condition) && v c) true := by
  have hg := clause.grown_build.1
  have hatom : Denotes .and [.atom c] (fun v => v c) true := (Denotes.atom c).toAnd
  cases hv : clause.build.vacant (checkPart key.schema) with
  | true =>
      have hnil : clause.build.part (checkPart key.schema) = [] := by
        simpa [hv] using hg.part_isEmpty (q := checkPart key.schema)
      rw [hnil]
      refine hatom.congr (fun v => ?_) rfl
      rw [← h.partHolds_eq, partHolds_of_vacant hv, Bool.true_and]
  | false =>
      have hpart := denotes_child (hg.part_denotes hv) (by rw [h.isOr_eq_false]; rintro ⟨⟩)
      have hmapped := hpart.map Leaf.condition
      rw [if_neg (by simpa using hpart.ne_nil), List.append_assoc]
      refine (hmapped.append_and hatom).congr (fun v => ?_) ?_
      · rw [h.partHolds_eq]
      · rw [h.full]
        rfl

/-- The condition of the check is the rest of the clause and the existence check. -/
theorem Checkable.condition_reads (h : Checkable key clause) {mode : ExistsMode}
    {checkFunc : String} (hmode : existsFunction mode = some checkFunc) (counter : Nat) :
    let built := conditionCheckExpression checkFunc [] ⟨clause.build⟩ key.schema
      ⟨uniquePrefix counter, 1, 1, ∅, ∅⟩
    ∃ c, readConditionExpression built.2.aliases built.1 = some c ∧ c.full = true ∧
      ∀ (svc : Service) (doc : Document), c.eval (svc.conditionHolds doc) =
        (clause.build.restHolds key.attributes (svc.leafHolds doc.item) &&
          svc.conditionHolds doc (mode.check (topLevel key.pk))) := by
  intro built
  have hg := clause.grown_build.1
  have hpath := operandPath_plain (h.plain key.pk List.mem_cons_self)
  have hpaths : arePaths [key.pk] = true := by simp [arePaths, hpath]
  have hleaves := wellFormed_clause h.paths
  have hread := conditionCheck_readAs hmode hpaths
    (part_nil_or_denotes hg (checkPart key.schema)) (wellFormed_part hleaves _)
    (valid_fresh counter)
  obtain ⟨c, hreads, heval, hfull⟩ := (h.denotes (mode.check (topLevel key.pk))).toOr
  refine ⟨c, ?_, hfull, ?_⟩
  · simp only [built, conditionCheckExpression, Alias.bind_apply, Alias.pure_apply,
      List.isEmpty_nil, if_true, Where.queryFilterExpression_eq hg, QueryKeyPlan.view]
    have hpathOf : pathOf key.pk = topLevel key.pk := by rw [pathOf, hpath, Option.getD_some]
    rw [List.map_singleton, List.map_singleton, hpathOf] at hread
    exact (readConditionExpression_of_readAs hread).trans (Infix.parse_eq_some_iff.mpr hreads)
  · intro svc doc
    have hrest : clause.build.restHolds key.attributes
        (fun l => svc.conditionHolds doc l.condition) =
          clause.build.restHolds key.attributes (svc.leafHolds doc.item) :=
      restHolds_congr fun l hl => l.conditionHolds_condition svc doc (hleaves l hl)
    rw [heval]
    dsimp only
    rw [hrest]

theorem missing_item : Document.missing.item = Item.absent := by
  funext lhs
  cases hpath : operandPath lhs <;> simp [Document.item, Document.missing, Item.absent, hpath]

/-- The item has the key that the clause fixes. -/
def Service.keyed (svc : Service) (key : BaseKey) (w : Where) (doc : Document) : Prop :=
  w.root.fixedHold key.attributes (svc.leafHolds doc.item) = true

/-- What the clause says beside its key. -/
def Service.satisfiesRest (svc : Service) (key : BaseKey) (w : Where) (item : Item) : Prop :=
  w.root.restHolds key.attributes (svc.leafHolds item) = true

section Checks

variable {cmd : SelectCmd} (hstar : cmd.projection = [])
  (hclause : cmd.condition = parsedWhere (some clause)) {describe : DescribeTable}
  (hschema : getKeySchema describe cmd.table "" = .ok key.schema) (h : Checkable key clause)
  (counter : Nat)

include hstar hclause hschema in
theorem buildTransactConditionCheck_eq {checkFunc : String}
    (hmode : existsFunction cmd.existsMode = some checkFunc) :
    let built := conditionCheckExpression checkFunc [] ⟨clause.build⟩ key.schema
      ⟨uniquePrefix counter, 1, 1, ∅, ∅⟩
    ∃ check, buildTransactConditionCheck cmd describe (uniquePrefix counter) = .ok check ∧
      check.key = keyOf ((Where.mk clause.build).getGudKey key.pkList key.rkList) ∧
      check.conditionExpression = built.1 ∧ check.emitted.aliases = built.2.aliases := by
  have hsome : cmd.condition = some ⟨clause.build⟩ := hclause
  unfold buildTransactConditionCheck
  simp only [hmode, hschema, hsome, hstar]
  exact ⟨_, rfl, rfl, rfl, emitted_aliases _ _⟩

include hstar hclause hschema h in
/-- The check passes on the item of the key, or on the missing one, with the
rest of the clause and the existence check true of it. -/
theorem passes_iff {checkFunc : String} (hmode : existsFunction cmd.existsMode = some checkFunc) :
    ∃ check, buildTransactConditionCheck cmd describe (uniquePrefix counter) = .ok check ∧
      ∀ {svc : Service} (table : TableItems svc key), Passes table check ↔
        (∃ doc ∈ table.items, svc.satisfies doc.item ⟨clause.build⟩ = true ∧
          svc.conditionHolds doc (cmd.existsMode.check (topLevel key.pk)) = true) ∨
        (∀ doc ∈ table.items, ¬ svc.keyed key ⟨clause.build⟩ doc) ∧
          svc.satisfiesRest key ⟨clause.build⟩ Item.absent ∧
          svc.conditionHolds .missing (cmd.existsMode.check (topLevel key.pk)) = true := by
  obtain ⟨check, hbuilt, hkey, htext, haliases⟩ :=
    buildTransactConditionCheck_eq hstar hclause hschema counter hmode
  refine ⟨check, hbuilt, ?_⟩
  intro svc table
  obtain ⟨c, hread, hfull, heval⟩ := h.condition_reads hmode counter
  rw [← htext, ← haliases] at hread
  have hpresent : ∀ doc, svc.hasKey key doc check.key ∧ c.eval (svc.conditionHolds doc) = true ↔
      svc.satisfies doc.item ⟨clause.build⟩ = true ∧
        svc.conditionHolds doc (cmd.existsMode.check (topLevel key.pk)) = true := by
    intro doc
    rw [hkey, h.hasKey_iff, heval, Service.satisfies,
      holds_eq_fixed_and_rest key.attributes (svc.leafHolds doc.item), Bool.and_eq_true,
      Bool.and_eq_true, and_assoc]
  have hkeyed : ∀ doc, svc.hasKey key doc check.key ↔ svc.keyed key ⟨clause.build⟩ doc := by
    intro doc
    rw [hkey, h.hasKey_iff, Service.keyed]
  have hmissing : c.eval (svc.conditionHolds .missing) = true ↔
      svc.satisfiesRest key ⟨clause.build⟩ Item.absent ∧
        svc.conditionHolds .missing (cmd.existsMode.check (topLevel key.pk)) = true := by
    rw [heval, missing_item, Bool.and_eq_true, Service.satisfiesRest]
  have hcases := or_congr
    (exists_congr fun doc => and_congr_right fun (_ : doc ∈ table.items) => hpresent doc)
    (and_congr (forall₂_congr fun doc (_ : doc ∈ table.items) => not_congr (hkeyed doc)) hmissing)
  constructor
  · rintro ⟨-, c', hread', -, hpasses⟩
    rw [hread] at hread'
    cases hread'
    exact hcases.mp hpasses
  · intro hpasses
    refine ⟨?_, c, hread, hfull, hcases.mpr hpasses⟩
    intro name
    rw [hkey, lookup_getGudKey key.schema, h.keyLookup_isSome_iff]

end Checks

/-- The key attribute is there in an item that satisfies the clause. -/
theorem Checkable.exists_of_satisfies (h : Checkable key clause) {svc : Service} {doc : Document}
    (hdoc : svc.satisfies doc.item ⟨clause.build⟩ = true) :
    (doc (topLevel key.pk)).isSome = true := by
  rw [Service.satisfies, holds_eq_fixed_and_rest key.attributes, Bool.and_eq_true,
    ← h.hasKey_iff] at hdoc
  obtain ⟨v, x, -, hx, -⟩ := hdoc.1 key.pk List.mem_cons_self
  rw [hx]
  rfl

section Modes

variable {svc : Service} (h : Checkable key clause) (table : TableItems svc key)
include h

theorem Checkable.exists_passes_iff :
    ((∃ doc ∈ table.items, svc.satisfies doc.item ⟨clause.build⟩ = true ∧
        svc.conditionHolds doc (ExistsMode.check .exists (topLevel key.pk)) = true) ∨
      (∀ doc ∈ table.items, ¬ svc.keyed key ⟨clause.build⟩ doc) ∧
        svc.satisfiesRest key ⟨clause.build⟩ Item.absent ∧
        svc.conditionHolds .missing (ExistsMode.check .exists (topLevel key.pk)) = true) ↔
      ∃ doc ∈ table.items, svc.satisfies doc.item ⟨clause.build⟩ = true := by
  constructor
  · rintro (⟨doc, hmem, hdoc, -⟩ | ⟨-, -, hmissing⟩)
    · exact ⟨doc, hmem, hdoc⟩
    · cases hmissing
  · rintro ⟨doc, hmem, hdoc⟩
    exact .inl ⟨doc, hmem, hdoc, h.exists_of_satisfies hdoc⟩

theorem Checkable.notExists_passes_iff :
    ((∃ doc ∈ table.items, svc.satisfies doc.item ⟨clause.build⟩ = true ∧
        svc.conditionHolds doc (ExistsMode.check .notExists (topLevel key.pk)) = true) ∨
      (∀ doc ∈ table.items, ¬ svc.keyed key ⟨clause.build⟩ doc) ∧
        svc.satisfiesRest key ⟨clause.build⟩ Item.absent ∧
        svc.conditionHolds .missing (ExistsMode.check .notExists (topLevel key.pk)) = true) ↔
      (∀ doc ∈ table.items, ¬ svc.keyed key ⟨clause.build⟩ doc) ∧
        svc.satisfiesRest key ⟨clause.build⟩ Item.absent := by
  constructor
  · rintro (⟨doc, -, hdoc, hgone⟩ | ⟨hnone, hrest, -⟩)
    · have hthere := h.exists_of_satisfies hdoc
      rw [Option.isSome_iff_ne_none] at hthere
      exact absurd (Option.isNone_iff_eq_none.mp hgone) hthere
    · exact ⟨hnone, hrest⟩
  · rintro ⟨hnone, hrest⟩
    exact .inr ⟨hnone, hrest, rfl⟩

end Modes

/-- A clause of nothing but its key. -/
theorem satisfiesRest_of_fixes {svc : Service} {w : Where}
    (h : ∀ c ∈ w.root.conjuncts, c.fixes key.attributes = true) (item : Item) :
    svc.satisfiesRest key w item := by
  rw [Service.satisfiesRest, restHolds, List.all_eq_true]
  intro c hc
  obtain ⟨hmem, hother⟩ := List.mem_filter.mp hc
  rw [h c hmem] at hother
  cases hother

/-- EXISTS passes when the table holds an item that satisfies the clause. NOT
EXISTS passes when it holds none with the key, and the rest of the clause is
true of a missing item; with no rest that is the complement. -/
theorem existence_checks (key : BaseKey) (clause : SourceExpr .or) (h : Checkable key clause)
    (cmd : SelectCmd) (hstar : cmd.projection = [])
    (hclause : cmd.condition = parsedWhere (some clause)) (describe : DescribeTable)
    (hschema : getKeySchema describe cmd.table "" = .ok key.schema) (counter : Nat)
    (hmode : cmd.existsMode ≠ .none) :
    ∃ check, buildTransactConditionCheck cmd describe (uniquePrefix counter) = .ok check ∧
      ∀ (svc : Service) (table : TableItems svc key),
        (cmd.existsMode = .exists → (Passes table check ↔
          ∃ doc ∈ table.items, svc.satisfies doc.item ⟨clause.build⟩ = true)) ∧
        (cmd.existsMode = .notExists → (Passes table check ↔
          (∀ doc ∈ table.items, ¬ svc.keyed key ⟨clause.build⟩ doc) ∧
            svc.satisfiesRest key ⟨clause.build⟩ Item.absent)) ∧
        (cmd.existsMode = .notExists →
          (∀ c ∈ clause.build.conjuncts, c.fixes key.attributes = true) →
          (Passes table check ↔
            ¬ ∃ doc ∈ table.items, svc.satisfies doc.item ⟨clause.build⟩ = true)) := by
  obtain ⟨checkFunc, hfunc⟩ : ∃ checkFunc, existsFunction cmd.existsMode = some checkFunc := by
    cases hcase : cmd.existsMode with
    | none => exact absurd hcase hmode
    | «exists» => exact ⟨_, rfl⟩
    | notExists => exact ⟨_, rfl⟩
  obtain ⟨check, hbuilt, hpasses⟩ := passes_iff hstar hclause hschema h counter hfunc
  refine ⟨check, hbuilt, ?_⟩
  intro svc table
  have hnot : cmd.existsMode = .notExists → (Passes table check ↔
      (∀ doc ∈ table.items, ¬ svc.keyed key ⟨clause.build⟩ doc) ∧
        svc.satisfiesRest key ⟨clause.build⟩ Item.absent) := by
    intro hcase
    rw [hpasses table, hcase]
    exact h.notExists_passes_iff table
  refine ⟨?_, hnot, ?_⟩
  · intro hcase
    rw [hpasses table, hcase]
    exact h.exists_passes_iff table
  · intro hcase honly
    rw [hnot hcase, and_iff_left (satisfiesRest_of_fixes honly _)]
    simp only [not_exists, not_and]
    refine forall₂_congr fun doc _ => not_congr ?_
    have hrest : svc.satisfiesRest key ⟨clause.build⟩ doc.item := satisfiesRest_of_fixes honly _
    rw [Service.satisfiesRest] at hrest
    rw [Service.keyed, Service.satisfies, holds_eq_fixed_and_rest key.attributes, hrest,
      Bool.and_true]

/-- `pk = 1 AND x = 3`. -/
def threeOfOne : SourceExpr .or :=
  .ofAnd (.and (.ofNot (.element (.comparison "pk" (.op .equal) (.N "1"))))
    (.element (.comparison "x" (.op .equal) (.N "3"))))

def pkOnly : BaseKey := ⟨"pk", none, by decide⟩

def pkTable : DescribeTable := fun _ => .ok { keySchema := ⟨["pk"], []⟩ }

theorem threeOfOne_checkable : Checkable pkOnly threeOfOne where
  fixes := {
    once := by decide
    conjunct := by decide }
  plain := by decide
  named := by decide
  paths := by decide +kernel
  full := by decide +kernel

/-- A table of one item, with `pk` 1. -/
def oneItem (x : Value) : TableItems .verbatim pkOnly where
  items := { doc | doc = fun p =>
    if p = topLevel "pk" then some (.N "1") else if p = topLevel "x" then some x else none }
  unique := by
    rintro doc rfl doc' rfl - - -
    rfl

/-- `SELECT * FROM t WHERE pk = 1 AND x = 3`. -/
def selectThree (mode : ExistsMode) : SelectCmd :=
  { table := "t", existsMode := mode, condition := some ⟨threeOfOne.build⟩ }

theorem threeOfOne_exists : ∃ check,
    buildTransactConditionCheck (selectThree .exists) pkTable (uniquePrefix 0) = .ok check ∧
      Passes (oneItem (.N "3")) check := by
  obtain ⟨check, hbuilt, hpasses⟩ := existence_checks pkOnly threeOfOne threeOfOne_checkable
    (selectThree .exists) rfl rfl pkTable rfl 0 (by decide)
  refine ⟨check, hbuilt, ?_⟩
  rw [(hpasses .verbatim (oneItem (.N "3"))).1 rfl]
  exact ⟨_, rfl, by decide +kernel⟩

/-- No item satisfies the clause, and NOT EXISTS does not pass. -/
theorem threeOfOne_notExists_fails : ∃ check,
    buildTransactConditionCheck (selectThree .notExists) pkTable (uniquePrefix 0) = .ok check ∧
      (¬ ∃ doc ∈ (oneItem (.N "2")).items,
        Service.verbatim.satisfies doc.item ⟨threeOfOne.build⟩ = true) ∧
      ¬ Passes (oneItem (.N "2")) check := by
  have hschema : getKeySchema pkTable (selectThree .notExists).table "" = .ok pkOnly.schema := rfl
  have hclause : (selectThree .notExists).condition = parsedWhere (some threeOfOne) := rfl
  obtain ⟨check, hbuilt, hpasses⟩ := passes_iff rfl hclause hschema threeOfOne_checkable 0 rfl
  refine ⟨check, hbuilt, ?_, ?_⟩
  · rintro ⟨doc, rfl, hdoc⟩
    revert hdoc
    decide +kernel
  · have hiff := (hpasses (oneItem (.N "2"))).trans
      (threeOfOne_checkable.notExists_passes_iff (oneItem (.N "2")))
    rw [hiff]
    rintro ⟨hnone, -⟩
    apply hnone _ rfl
    unfold Service.keyed
    decide +kernel

end DdbShell
