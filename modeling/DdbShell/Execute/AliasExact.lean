import DdbShell.Execute.AllOrNothing
import DdbShell.Execute.KeyReferences
import DdbShell.Execute.WellFormed
import DdbShell.Expressions.AliasLaws

/-!
The alias maps of every request against the tokens of its expressions. What a
builder has written so far is a list of texts, and `Written` says that the
table's tokens are those of the texts. Each piece of text adds the tokens it
mints, and goes through concatenation because what stands between two operands
is no part of a token. The one thing that can be in the text and not in the
table is what a subscript spells.
-/

namespace DdbShell

open LogicalExpression
open Placeholder
open SymbolTable

/-! ### Placeholders of texts that are put together -/

/-- No placeholder starts in the text. -/
def markless (s : String) : Bool := s.toList.all fun c => c ≠ '#' && c ≠ ':'

/-- A text to stand between two operands. -/
def isSeparator (s : String) : Bool := s.toList.head?.any (fun c => !tokenChar c) && markless s

theorem mark_notMem {s : String} (h : markless s = true) (kind : AliasKind) :
    kind.mark ∉ s.toList := by
  intro hmem
  have hc := List.all_eq_true.mp h _ hmem
  cases kind <;> simp [AliasKind.mark] at hc

theorem placeholders_markless {s : String} (h : markless s = true) (kind : AliasKind) :
    placeholders kind s = [] := by
  rw [placeholders, found_of_notMem (mark_notMem h kind), List.map_nil]

theorem placeholders_after {s : String} (h : markless s = true) (kind : AliasKind) (b : String) :
    placeholders kind (s ++ b) = placeholders kind b := by
  rw [placeholders, String.toList_append, found_notMem_append (mark_notMem h kind), placeholders]

theorem placeholders_append {b : String} (h : Placeholder.Opens tokenChar b.toList)
    (kind : AliasKind) (a : String) :
    placeholders kind (a ++ b) = placeholders kind a ++ placeholders kind b := by
  rw [placeholders, String.toList_append, found_append h, List.map_append]
  rfl

theorem opens_separator {s : String} (h : isSeparator s = true) (b : String) :
    Placeholder.Opens tokenChar (s ++ b).toList := by
  rw [isSeparator, Bool.and_eq_true] at h
  rw [String.toList_append]
  cases hs : s.toList with
  | nil => simp [hs] at h
  | cons c cs =>
      simp only [hs, List.head?_cons, Option.any_some] at h
      simpa [Placeholder.Opens] using h.1

/-- A separator keeps the placeholders on its sides apart. -/
theorem placeholders_between {s : String} (h : isSeparator s = true) (kind : AliasKind)
    (a b : String) :
    placeholders kind (a ++ s ++ b) = placeholders kind a ++ placeholders kind b := by
  have hmark : markless s = true := by
    rw [isSeparator, Bool.and_eq_true] at h
    exact h.2
  rw [String.append_assoc, placeholders_append (opens_separator h b), placeholders_after hmark]

theorem placeholders_before {s : String} (h : isSeparator s = true) (kind : AliasKind)
    (a : String) : placeholders kind (a ++ s) = placeholders kind a := by
  have hbetween := placeholders_between h kind a ""
  rwa [String.append_empty, placeholders_markless (s := "") rfl, List.append_nil] at hbetween

theorem placeholders_joinWith {sep : String} (h : isSeparator sep = true) (kind : AliasKind)
    (texts : List String) :
    placeholders kind (joinWith sep texts) = texts.flatMap (placeholders kind) := by
  induction texts with
  | nil => exact placeholders_markless rfl kind
  | cons text texts ih =>
      cases texts with
      | nil => simp [joinWith]
      | cons next rest =>
          rw [joinWith, placeholders_between h, ih]
          rfl

theorem isSeparator_close : isSeparator ")" = true := rfl

theorem isSeparator_comma : isSeparator ", " = true := rfl

/-- A function of one operand. -/
theorem placeholders_call {f : String} (hf : markless f = true) (kind : AliasKind) (a : String) :
    placeholders kind (f ++ a ++ ")") = placeholders kind a := by
  rw [placeholders_before isSeparator_close, placeholders_after hf]

/-- A function of two. -/
theorem placeholders_call_two {f sep : String} (hf : markless f = true)
    (hsep : isSeparator sep = true) (kind : AliasKind) (a b : String) :
    placeholders kind (f ++ a ++ sep ++ b ++ ")") =
      placeholders kind a ++ placeholders kind b := by
  rw [placeholders_before isSeparator_close, placeholders_between hsep, placeholders_after hf]

/-! ### What has been written -/

/-- The table has given this token out. -/
def SymbolTable.Minted (st : SymbolTable) : AliasKind → String → Prop
  | .name, token => ∃ name : String, st.names[name]? = some token
  | .value, token => ∃ v : Value, st.values[token]? = some v

def occurring (texts : List String) (kind : AliasKind) : List String :=
  texts.flatMap (placeholders kind)

@[simp] theorem occurring_nil (kind : AliasKind) : occurring [] kind = [] := rfl

@[simp] theorem occurring_cons (text : String) (texts : List String) (kind : AliasKind) :
    occurring (text :: texts) kind = placeholders kind text ++ occurring texts kind := rfl

@[simp] theorem occurring_append (texts texts' : List String) (kind : AliasKind) :
    occurring (texts ++ texts') kind = occurring texts kind ++ occurring texts' kind :=
  List.flatMap_append

/-- Two lists of texts with the same tokens in them. -/
def SameTokens (texts texts' : List String) : Prop :=
  ∀ kind token, token ∈ occurring texts kind ↔ token ∈ occurring texts' kind

theorem SameTokens.of_eq {texts texts' : List String}
    (h : ∀ kind, occurring texts kind = occurring texts' kind) : SameTokens texts texts' :=
  fun kind token => by rw [h kind]

theorem SymbolTable.Extends.minted {st st' : SymbolTable} (h : Extends st st') {kind : AliasKind}
    {token : String} (hm : st.Minted kind token) : st'.Minted kind token := by
  cases kind with
  | name =>
      obtain ⟨name, hname⟩ := hm
      exact ⟨name, h.names _ _ hname⟩
  | value =>
      obtain ⟨v, hv⟩ := hm
      exact ⟨v, h.values _ _ hv⟩

/-- The tokens of the table are those of the texts, but for some that are
allowed to stand in the texts alone. -/
structure Written (Stray : AliasKind → String → Prop) (st : SymbolTable) (texts : List String) :
    Prop where
  valid : Valid st
  plain : IsPlain st.namePrefix
  used : ∀ kind token, st.Minted kind token → token ∈ occurring texts kind
  known : ∀ kind token, token ∈ occurring texts kind → st.Minted kind token ∨ Stray kind token

theorem Written.congr {Stray : AliasKind → String → Prop} {st : SymbolTable}
    {texts texts' : List String} (h : Written Stray st texts) (hsame : SameTokens texts texts') :
    Written Stray st texts' := by
  refine ⟨h.valid, h.plain, fun kind token hminted => ?_, fun kind token hmem => ?_⟩
  · exact (hsame kind token).mp (h.used kind token hminted)
  · exact h.known kind token ((hsame kind token).mpr hmem)

/-- A computation that takes the texts written before it to those after it. -/
def Writes {α : Type} (Stray : AliasKind → String → Prop) (before : List String) (x : Alias α)
    (after : α → List String) : Prop :=
  ∀ st, Written Stray st before → Written Stray (x st).2 (after (x st).1)

namespace Writes

variable {α β : Type} {Stray : AliasKind → String → Prop} {before : List String}
  {x : Alias α} {after : α → List String}

theorem pure {a : α} (h : SameTokens before (after a)) :
    Writes Stray before (Pure.pure a : Alias α) after := fun _ hst => hst.congr h

theorem bind {f : α → Alias β} {last : β → List String} (hx : Writes Stray before x after)
    (hf : ∀ st, Writes Stray (after (x st).1) (f (x st).1) last) :
    Writes Stray before (x >>= f) last :=
  fun st hst => hf st (x st).2 (hx st hst)

theorem map {g : α → β} {last : β → List String} (hx : Writes Stray before x after)
    (h : ∀ a, SameTokens (after a) (last (g a))) : Writes Stray before (g <$> x) last :=
  fun st hst => (hx st hst).congr (h _)

theorem get : Writes Stray before (get : Alias SymbolTable) fun _ => before := fun _ hst => hst

end Writes

/-- The text of the computation is one more text that has been written. -/
def Spells (Stray : AliasKind → String → Prop) (x : Alias String) : Prop :=
  ∀ before, Writes Stray before x fun text => before ++ [text]

def SpellsAll (Stray : AliasKind → String → Prop) (x : Alias (List String)) : Prop :=
  ∀ before, Writes Stray before x fun texts => before ++ texts

/-- The tokens that the subscripts of the path spell may stand in the texts. -/
def Allowed (Stray : AliasKind → String → Prop) (path : String) : Prop :=
  ∀ kind token, token ∈ strays kind path → Stray kind token

section Pieces

variable {Stray : AliasKind → String → Prop}

theorem Spells.pure {text : String} (h : markless text = true) :
    Spells Stray (Pure.pure text) := by
  intro before
  refine Writes.pure (.of_eq fun kind => ?_)
  simp [placeholders_markless h]

theorem Spells.map {x : Alias String} (h : Spells Stray x) {g : String → String}
    (hg : ∀ kind text, placeholders kind (g text) = placeholders kind text) :
    Spells Stray (g <$> x) := by
  intro before
  refine (h before).map fun text => .of_eq fun kind => ?_
  simp [hg]

theorem SpellsAll.nil : SpellsAll Stray (Pure.pure []) := by
  intro before
  refine Writes.pure (.of_eq fun kind => ?_)
  simp

theorem SpellsAll.cons {x : Alias String} {xs : Alias (List String)} (hx : Spells Stray x)
    (hxs : SpellsAll Stray xs) :
    SpellsAll Stray (do
      let text ← x
      return text :: (← xs)) := by
  intro before
  refine (hx before).bind fun st => (hxs _).bind fun st' => Writes.pure (.of_eq fun kind => ?_)
  simp

/-- A text made of others, with the same tokens. -/
theorem SpellsAll.map {xs : Alias (List String)} (h : SpellsAll Stray xs)
    {g : List String → String}
    (hg : ∀ kind texts, placeholders kind (g texts) = occurring texts kind) :
    Spells Stray (g <$> xs) := by
  intro before
  refine (h before).map fun texts => .of_eq fun kind => ?_
  simp [hg]

/-! ### Names and values -/

theorem newBare_names_cases {st : SymbolTable} {bare name token : String}
    (h : (newBare bare st).2.names[name]? = some token) :
    st.names[name]? = some token ∨ name = bare := by
  unfold newBare at h
  cases hbare : st.names[bare]? with
  | some known =>
      rw [hbare] at h
      exact .inl h
  | none =>
      rw [hbare] at h
      simp only [Std.TreeMap.getElem?_insertIfNew] at h
      split at h
      · next hnew =>
          have hsame : bare = name := by simpa using hnew.1
          exact .inr hsame.symm
      · exact .inl h

theorem newSegments_names_cases {front : String} {ws : List (List Char)} {st : SymbolTable}
    {name token : String}
    (h : (newSegments front (ws.map String.ofList) st).2.names[name]? = some token) :
    st.names[name]? = some token ∨ ∃ w ∈ ws, name = String.ofList (bareOf w) := by
  induction ws generalizing front st with
  | nil => exact .inl h
  | cons w ws ih =>
      rw [List.map_cons, newSegments, Alias.bind_apply] at h
      rcases ih h with hmid | ⟨v, hv, hname⟩
      · rw [newSegment_eq] at hmid
        rcases newBare_names_cases hmid with hold | hname
        · exact .inl hold
        · exact .inr ⟨w, List.mem_cons_self, hname⟩
      · exact .inr ⟨v, List.mem_cons_of_mem _ hv, hname⟩

theorem spells_newAttribute {path : String} (hallowed : Allowed Stray path) :
    Spells Stray (newAttribute path) := by
  intro before st hst
  obtain ⟨hvalid, hext⟩ := newAttribute_grows path st hst.valid
  obtain ⟨htext, hknows⟩ := newAttribute_text hst.valid (.refl (newAttribute path st).2)
  have hplain : IsPlain (newAttribute path st).2.namePrefix := hext.samePrefix ▸ hst.plain
  have hmem := mem_placeholders_pathText hvalid hplain hknows
  rw [← htext] at hmem
  refine ⟨hvalid, hplain, fun kind token hminted => ?_, fun kind token htoken => ?_⟩
  · simp only [occurring_append, List.mem_append, occurring_cons, occurring_nil, List.append_nil]
    cases kind with
    | value =>
        refine .inl (hst.used .value token ?_)
        obtain ⟨v, hv⟩ := hminted
        rw [newAttribute, newSegments_values] at hv
        exact ⟨v, hv⟩
    | name =>
        obtain ⟨name, hname⟩ := hminted
        rcases newSegments_names_cases hname with hold | ⟨piece, hpiece, rfl⟩
        · exact .inl (hst.used .name token ⟨name, hold⟩)
        · refine .inr ((hmem .name token).mpr (.inl ?_))
          refine List.mem_map.mpr ⟨piece, hpiece, ?_⟩
          rw [tokenOf, hname, Option.getD_some, String.ofList_toList]
  · simp only [occurring_append, List.mem_append, occurring_cons, occurring_nil,
      List.append_nil] at htoken
    rcases htoken with hbefore | htoken
    · exact (hst.known kind token hbefore).imp hext.minted id
    · rcases (hmem kind token).mp htoken with hown | hstray
      · cases kind with
        | value => cases hown
        | name =>
            obtain ⟨piece, hpiece, rfl⟩ := List.mem_map.mp hown
            obtain ⟨token, htoken⟩ := hknows piece hpiece
            refine .inl ⟨_, htoken.trans ?_⟩
            rw [tokenOf, htoken, Option.getD_some, String.ofList_toList]
      · exact .inr (hallowed kind token hstray)

theorem placeholders_valueToken {p : String} (hplain : IsPlain p) (i : Nat) (kind : AliasKind) :
    placeholders kind (valueToken p i) =
      match kind with | .name => [] | .value => [valueToken p i] := by
  have hword := tokenChar_tokenWord (show tokenChar 'v' = true by decide) hplain i
  have hmark (c : Char) (hc : tokenChar c = false) : c ∉ tokenWord 'v' p i :=
    notMem_tokenWord (by decide) hplain i hc
  rw [placeholders, valueToken_toList]
  cases kind with
  | name =>
      rw [found_of_notMem, List.map_nil]
      rw [List.mem_cons, not_or]
      exact ⟨by decide, hmark _ (by decide)⟩
  | value =>
      rw [AliasKind.mark, found_single (hmark _ (by decide)) hword, List.map_singleton,
        ← valueToken_toList, String.ofList_toList]

theorem spells_newValue (v : Value) : Spells Stray (newValue v) := by
  intro before st hst
  have hnew : (newValue v st).1 = valueToken st.namePrefix st.valueIx := rfl
  have hplaceholders := placeholders_valueToken hst.plain st.valueIx
  rw [← hnew] at hplaceholders
  have hext := @newValue_extends st v
  refine ⟨hst.valid.newValue v, hst.plain, fun kind token hminted => ?_,
    fun kind token htoken => ?_⟩
  · simp only [occurring_append, List.mem_append, occurring_cons, occurring_nil, List.append_nil,
      hplaceholders]
    cases kind with
    | name => exact .inl (hst.used .name token hminted)
    | value =>
        obtain ⟨x, hx⟩ := hminted
        simp only [newValue, Std.TreeMap.getElem?_insertIfNew] at hx
        split at hx
        · next hfresh =>
            have hsame : ":v" ++ st.namePrefix ++ toString st.valueIx = token := by
              simpa using hfresh.1
            exact .inr (List.mem_singleton.mpr hsame.symm)
        · exact .inl (hst.used .value token ⟨x, hx⟩)
  · simp only [occurring_append, List.mem_append, occurring_cons, occurring_nil, List.append_nil,
      hplaceholders] at htoken
    rcases htoken with hbefore | htoken
    · exact (hst.known kind token hbefore).imp hext.minted id
    · cases kind with
      | name => cases htoken
      | value =>
          rw [List.mem_singleton.mp htoken]
          exact .inl ⟨v, newValue_values hst.valid v⟩

theorem spells_newValues (vs : List Value) : SpellsAll Stray (newValues vs) := by
  induction vs with
  | nil => exact SpellsAll.nil
  | cons v vs ih => exact SpellsAll.cons (spells_newValue v) ih

/-! ### Conditions -/

theorem spells_leaf {l : Leaf} (hallowed : Allowed Stray l.lhs) : Spells Stray l.doSerialize := by
  intro before
  obtain ⟨lhs, p⟩ := l
  refine (spells_newAttribute hallowed before).bind fun st => ?_
  cases p with
  | comparison op rhs =>
      have hop : isSeparator (" " ++ op.text ++ " ") = true := by cases op <;> rfl
      refine (spells_newValue rhs _).bind fun st' => .pure (.of_eq fun kind => ?_)
      have hbetween := placeholders_between hop kind
      simp only [← String.append_assoc] at hbetween
      simp [hbetween]
  | between lo hi =>
      refine (spells_newValue lo _).bind fun st' => (spells_newValue hi _).bind fun st'' =>
        .pure (.of_eq fun kind => ?_)
      simp [placeholders_between (show isSeparator " BETWEEN " = true from rfl),
        placeholders_between (show isSeparator " AND " = true from rfl)]
  | beginsWith start =>
      refine (spells_newValue start _).bind fun st' => .pure (.of_eq fun kind => ?_)
      simp [placeholders_call_two (show markless "begins_with(" = true from rfl)
        isSeparator_comma]
  | isIn rhs =>
      refine (spells_newValues rhs _).bind fun st' => .pure (.of_eq fun kind => ?_)
      simp [placeholders_before isSeparator_close,
        placeholders_between (show isSeparator " IN (" = true from rfl),
        placeholders_joinWith isSeparator_comma, occurring]
  | contains operand =>
      refine (spells_newValue operand _).bind fun st' => .pure (.of_eq fun kind => ?_)
      simp [placeholders_call_two (show markless "contains(" = true from rfl)
        isSeparator_comma]
  | attributeType type =>
      refine (spells_newValue _ _).bind fun st' => .pure (.of_eq fun kind => ?_)
      simp [placeholders_call_two (show markless "attribute_type(" = true from rfl)
        isSeparator_comma]
  | attributeExists =>
      refine .pure (.of_eq fun kind => ?_)
      simp [placeholders_call (show markless "attribute_exists(" = true from rfl)]

/-- A leaf that may be left out. -/
theorem spells_ite {b : Bool} {x : Alias String} (h : Spells Stray x) :
    Spells Stray (if b then x else Pure.pure "") := by
  cases b with
  | true => exact h
  | false => exact Spells.pure rfl

theorem placeholders_negatedText (negate : Bool) (kind : AliasKind) (text : String) :
    placeholders kind (negatedText negate text) = placeholders kind text := by
  cases negate with
  | true => exact placeholders_call rfl kind text
  | false => rfl

theorem placeholders_negatedIfPresent (negate : Bool) (kind : AliasKind) (text : String) :
    placeholders kind (negatedIfPresent negate text) = placeholders kind text := by
  unfold negatedIfPresent
  split
  · exact placeholders_negatedText negate kind text
  · rfl

theorem placeholders_parenthesised (parens : Bool) (kind : AliasKind) (text : String) :
    placeholders kind (parenthesised parens text) = placeholders kind text := by
  cases parens with
  | true => exact placeholders_call rfl kind text
  | false => rfl

/-- Empty members are left out of an AND and of an OR. -/
theorem occurring_filter (texts : List String) (kind : AliasKind) :
    occurring (texts.filter (· ≠ "")) kind = occurring texts kind := by
  induction texts with
  | nil => rfl
  | cons text texts ih =>
      by_cases hempty : text = ""
      · subst hempty
        rw [List.filter_cons_of_neg (by simp), ih, occurring_cons,
          placeholders_markless (s := "") rfl, List.nil_append]
      · rw [List.filter_cons_of_pos (by simpa using hempty), occurring_cons, occurring_cons, ih]

theorem spells_join {sep : String} (hsep : isSeparator sep = true) (parens : Bool)
    {xs : Alias (List String)} (h : SpellsAll Stray xs) :
    Spells Stray ((fun parts => parenthesised parens (joinWith sep parts)) <$> xs) := by
  refine SpellsAll.map h fun kind texts => ?_
  rw [placeholders_parenthesised, placeholders_joinWith hsep]
  rfl

theorem spells_joinPresent {sep : String} (hsep : isSeparator sep = true) (parens : Bool)
    {xs : Alias (List String)} (h : SpellsAll Stray xs) :
    Spells Stray
      ((fun parts => parenthesised parens (joinWith sep (parts.filter (· ≠ "")))) <$> xs) := by
  refine SpellsAll.map h fun kind texts => ?_
  rw [placeholders_parenthesised, placeholders_joinWith hsep]
  exact occurring_filter texts kind

/-- A list of children, each put through the same wrapper. -/
theorem spellsAll_children {one : LogicalExpression → Alias String}
    {all : List LogicalExpression → Alias (List String)} (hnil : all [] = Pure.pure [])
    (hcons : ∀ e es, all (e :: es) = do
      let part ← one e
      return part :: (← all es))
    {es : List LogicalExpression} (h : ∀ e ∈ es, Spells Stray (one e)) :
    SpellsAll Stray (all es) := by
  induction es with
  | nil =>
      rw [hnil]
      exact SpellsAll.nil
  | cons e es ih =>
      rw [hcons]
      exact SpellsAll.cons (h e List.mem_cons_self)
        (ih fun other hmem => h other (List.mem_cons_of_mem _ hmem))

theorem isSeparator_and : isSeparator " AND " = true := rfl

theorem isSeparator_or : isSeparator " OR " = true := rfl

/-- The leaves of a tree name allowed paths. -/
def AllowedTree (Stray : AliasKind → String → Prop) (e : LogicalExpression) : Prop :=
  ∀ l ∈ e.leaves, Allowed Stray l.lhs

theorem AllowedTree.child {es : List LogicalExpression}
    (h : ∀ l ∈ leavesAll es, Allowed Stray l.lhs) {e : LogicalExpression} (he : e ∈ es) :
    AllowedTree Stray e := by
  intro l hl
  refine h l ?_
  rw [leavesAll_eq_flatMap]
  exact List.mem_flatMap.mpr ⟨e, he, hl⟩

theorem spells_serializeAll {es : List LogicalExpression}
    (h : ∀ e ∈ es, Spells Stray e.doSerialize) : SpellsAll Stray (serializeAll es) :=
  @spellsAll_children _ (fun e => negatedText e.isNegated <$> e.doSerialize) _ rfl
    (fun _ _ => rfl) _ fun e he => (h e he).map (placeholders_negatedText _)

theorem spells_doSerialize {e : LogicalExpression} (h : AllowedTree Stray e) :
    Spells Stray e.doSerialize := by
  induction e using induct with
  | leaf negate parens l => exact spells_leaf (h l (List.mem_singleton.mpr rfl))
  | and negate parens es ih =>
      rw [doSerialize]
      exact spells_join isSeparator_and parens
        (spells_serializeAll fun e he => ih e he (AllowedTree.child h he))
  | or negate parens es ih =>
      rw [doSerialize]
      exact spells_join isSeparator_or parens
        (spells_serializeAll fun e he => ih e he (AllowedTree.child h he))

theorem spells_queryKeyCondition (ks : KeySchemaView) {e : LogicalExpression}
    (h : AllowedTree Stray e) : Spells Stray (e.doQueryKeyConditionExpression ks) := by
  induction e using induct with
  | leaf negate parens l => exact spells_ite (spells_leaf (h l (List.mem_singleton.mpr rfl)))
  | and negate parens es ih =>
      rw [doQueryKeyConditionExpression]
      refine spells_joinPresent isSeparator_and parens ?_
      exact @spellsAll_children _
        (fun e => negatedIfPresent e.isNegated <$> e.doQueryKeyConditionExpression ks) _ rfl
        (fun _ _ => rfl) _ fun e he =>
          (ih e he (AllowedTree.child h he)).map (placeholders_negatedIfPresent _)
  | or negate parens es ih => exact Spells.pure rfl

theorem spells_queryFilter (ks : KeySchemaView) {e : LogicalExpression}
    (h : AllowedTree Stray e) : Spells Stray (e.doQueryFilterExpression ks) := by
  induction e using induct with
  | leaf negate parens l => exact spells_ite (spells_leaf (h l (List.mem_singleton.mpr rfl)))
  | and negate parens es ih =>
      rw [doQueryFilterExpression]
      refine spells_joinPresent isSeparator_and parens ?_
      exact @spellsAll_children _
        (fun e => negatedIfPresent e.isNegated <$> e.doQueryFilterExpression ks) _ rfl
        (fun _ _ => rfl) _ fun e he =>
          (ih e he (AllowedTree.child h he)).map (placeholders_negatedIfPresent _)
  | or negate parens es ih => exact spells_doSerialize h

theorem spells_conditionCheck (pk rk : String) (top : Bool) {e : LogicalExpression}
    (h : AllowedTree Stray e) : Spells Stray (e.doUpdateDeleteConditionCheck pk rk top) := by
  have hall (top : Bool) (es : List LogicalExpression)
      (h : ∀ e ∈ es, Spells Stray (e.doUpdateDeleteConditionCheck pk rk top)) :
      SpellsAll Stray (updateDeleteConditionAll pk rk top es) :=
    @spellsAll_children _
      (fun e => negatedIfPresent e.isNegated <$> e.doUpdateDeleteConditionCheck pk rk top) _ rfl
      (fun _ _ => rfl) _ fun e he => (h e he).map (placeholders_negatedIfPresent _)
  induction e using induct generalizing top with
  | leaf negate parens l =>
      have hleaf := spells_leaf (h l (List.mem_singleton.mpr rfl))
      cases top with
      | true => exact spells_ite hleaf
      | false => exact hleaf
  | and negate parens es ih =>
      rw [doUpdateDeleteConditionCheck]
      exact spells_joinPresent isSeparator_and parens
        (hall top es fun e he => ih e he top (AllowedTree.child h he))
  | or negate parens es ih =>
      rw [doUpdateDeleteConditionCheck]
      exact spells_joinPresent isSeparator_or parens
        (hall false es fun e he => ih e he false (AllowedTree.child h he))

/-- The paths of a clause are allowed. -/
def AllowedWhere (Stray : AliasKind → String → Prop) (w : Option Where) : Prop :=
  ∀ where_ ∈ w, AllowedTree Stray where_.root

theorem spells_where {w : Where} (h : AllowedTree Stray w.root) (plan : QueryKeyPlan)
    (pk rk : String) :
    Spells Stray w.scanFilterExpression ∧ Spells Stray (w.queryKeyConditionExpression plan) ∧
      Spells Stray (w.queryFilterExpression plan) ∧
        Spells Stray (w.updateDeleteConditionCheck pk rk) :=
  ⟨(spells_doSerialize h).map (placeholders_negatedText _),
    (spells_queryKeyCondition _ h).map (placeholders_negatedIfPresent _),
    (spells_queryFilter _ h).map (placeholders_negatedIfPresent _),
    (spells_conditionCheck pk rk true h).map (placeholders_negatedIfPresent _)⟩

/-! ### Projections and update expressions -/

theorem spells_serializeProjection {paths : List String} (h : ∀ path ∈ paths, Allowed Stray path) :
    Spells Stray (serializeProjection paths) := by
  induction paths with
  | nil => exact Spells.pure rfl
  | cons path paths ih =>
      have hpath := spells_newAttribute (h path List.mem_cons_self)
      cases paths with
      | nil => exact hpath
      | cons next rest =>
          intro before
          have hrest := ih fun other hmem => h other (List.mem_cons_of_mem _ hmem)
          refine (hpath before).bind fun st => (hrest _).bind fun st' =>
            .pure (.of_eq fun kind => ?_)
          simp [placeholders_between isSeparator_comma]

/-- An optional text is nothing or one more. -/
def SpellsOption (Stray : AliasKind → String → Prop) (x : Alias (Option String)) : Prop :=
  ∀ before, Writes Stray before x fun text => before ++ text.toList

theorem spells_optionalProjection {paths : List String}
    (h : ∀ path ∈ paths, Allowed Stray path) :
    SpellsOption Stray (optionalProjection paths) := by
  intro before
  unfold optionalProjection
  split
  · refine Writes.pure (.of_eq fun kind => ?_)
    simp
  · exact (spells_serializeProjection h before).map fun text => .of_eq fun kind => rfl

theorem occurring_nonEmpty (text : String) (kind : AliasKind) :
    occurring (nonEmpty text).toList kind = placeholders kind text := by
  by_cases hempty : text = ""
  · simp [nonEmpty, hempty, placeholders_markless (s := "") rfl]
  · simp [nonEmpty, hempty]

theorem spells_optionalScanFilter {w : Option Where} (h : AllowedWhere Stray w) :
    SpellsOption Stray (optionalScanFilter w) := by
  intro before
  cases w with
  | none =>
      refine Writes.pure (.of_eq fun kind => ?_)
      simp
  | some w =>
      refine ((spells_where (h w rfl) ⟨[], []⟩ "" "").1 before).map fun text =>
        .of_eq fun kind => ?_
      simp [occurring_nonEmpty]

theorem opens_setOperand (v : Option Value) (st : SymbolTable) :
    Placeholder.Opens tokenChar (setOperand v st).1.toList := by
  cases v with
  | none => rfl
  | some v =>
      show Placeholder.Opens tokenChar (valueToken st.namePrefix st.valueIx).toList
      rw [valueToken_toList]
      rfl

theorem spells_setOperand (v : Option Value) : Spells Stray (setOperand v) := by
  cases v with
  | none => exact Spells.pure rfl
  | some v => exact spells_newValue v

theorem spells_setSource {elem : UpdateSetElement} (hattribute : Allowed Stray elem.rhsAttribute)
    (hlhs : Allowed Stray elem.ifNotExistsLhs) : Spells Stray (setSource elem) := by
  unfold setSource
  split
  · exact spells_newAttribute hattribute
  · split
    · intro before
      refine (spells_newAttribute hlhs before).bind fun st => (spells_newValue _ _).bind fun st' =>
        .pure (.of_eq fun kind => ?_)
      simp [placeholders_call_two (show markless "if_not_exists(" = true from rfl)
        (show isSeparator "," = true from rfl)]
    · exact Spells.pure rfl

/-- The operators the grammar puts into an assignment. -/
def isSetOperator (op : String) : Prop := op = "" ∨ op = "+" ∨ op = "-"

theorem placeholders_operator {op b : String} (hop : isSetOperator op)
    (hb : Placeholder.Opens tokenChar b.toList) (kind : AliasKind) (a : String) :
    placeholders kind (a ++ op ++ b) = placeholders kind a ++ placeholders kind b := by
  rcases hop with rfl | rfl | rfl
  · rw [String.append_empty, placeholders_append hb]
  · exact placeholders_between rfl kind a b
  · exact placeholders_between rfl kind a b

/-- The paths an assignment names. -/
def setPaths (elem : UpdateSetElement) : List String :=
  [elem.lhs, elem.rhsAttribute, elem.ifNotExistsLhs]

theorem spells_serializeSetElement {elem : UpdateSetElement} (hop : isSetOperator elem.op)
    (h : ∀ path ∈ setPaths elem, Allowed Stray path) : Spells Stray (serializeSetElement elem) := by
  intro before
  have hsource := spells_setSource (h elem.rhsAttribute (by simp [setPaths]))
    (h elem.ifNotExistsLhs (by simp [setPaths]))
  refine (spells_newAttribute (h elem.lhs (by simp [setPaths])) before).bind fun st =>
    (hsource _).bind fun st' => (spells_setOperand elem.rhsValue _).bind fun st'' =>
      .pure (.of_eq fun kind => ?_)
  have htext := placeholders_operator hop (opens_setOperand elem.rhsValue st'') kind
    ((newAttribute elem.lhs st).1 ++ " = " ++ (setSource elem st').1)
  rw [placeholders_between (show isSeparator " = " = true from rfl)] at htext
  simp [htext]

theorem spells_serializeSet {elements : List UpdateSetElement}
    (hop : ∀ elem ∈ elements, isSetOperator elem.op)
    (h : ∀ elem ∈ elements, ∀ path ∈ setPaths elem, Allowed Stray path) :
    Spells Stray (serializeSet elements) := by
  induction elements with
  | nil => exact Spells.pure rfl
  | cons elem elements ih =>
      have helem := spells_serializeSetElement (hop elem List.mem_cons_self)
        (h elem List.mem_cons_self)
      cases elements with
      | nil => exact helem
      | cons next rest =>
          intro before
          have hrest := ih (fun other hmem => hop other (List.mem_cons_of_mem _ hmem))
            fun other hmem => h other (List.mem_cons_of_mem _ hmem)
          refine (helem before).bind fun st => (hrest _).bind fun st' =>
            .pure (.of_eq fun kind => ?_)
          simp [placeholders_between isSeparator_comma]

/-- The paths a mutation names. -/
def mutationPaths : Mutation → List String
  | .set elements => elements.flatMap setPaths
  | .remove paths => paths

theorem isSetOperator_build (source : SetElement) : isSetOperator source.build.op := by
  cases source with
  | value lhs rhs => exact .inl rfl
  | copy lhs source => cases source <;> exact .inl rfl
  | plus lhs source rhs => exact .inr (.inl rfl)
  | minus lhs source rhs => exact .inr (.inr rfl)

theorem spells_updateExpression {u : UpdateClause}
    (h : ∀ path ∈ mutationPaths u.build, Allowed Stray path) :
    Spells Stray (updateExpression u.build) := by
  cases u with
  | set first rest =>
      refine Spells.map (spells_serializeSet ?_ ?_) fun kind text =>
        placeholders_after (s := "SET ") rfl kind text
      · intro elem hmem
        obtain ⟨source, -, rfl⟩ := List.mem_map.mp hmem
        exact isSetOperator_build source
      · intro elem hmem path hpath
        exact h path (List.mem_flatMap.mpr ⟨elem, hmem, hpath⟩)
  | remove first rest =>
      exact Spells.map (spells_serializeProjection h) fun kind text =>
        placeholders_after (s := "REMOVE ") rfl kind text

/-! ### Guards and checks -/

theorem spells_existsGuard (upsert : Bool) {pk : String} (h : Allowed Stray pk) :
    Spells Stray (existsGuard upsert pk) := by
  cases upsert with
  | true => exact Spells.pure rfl
  | false =>
      exact (spells_newAttribute h).map fun kind text =>
        placeholders_call (f := "attribute_exists(") rfl kind text

theorem placeholders_guardedBy (guard qf : String) (kind : AliasKind) :
    placeholders kind (guardedBy guard qf) = placeholders kind guard ++ placeholders kind qf := by
  have hnone := placeholders_markless (s := "") rfl kind
  unfold guardedBy
  split
  · next hqf => rw [hqf, hnone, List.append_nil]
  · split
    · next hguard => rw [hguard, hnone, List.nil_append]
    · exact placeholders_between isSeparator_and kind guard qf

theorem spells_updateCondition {cmd : UpdateCmd} {pk : String} (rk : String)
    (hpk : Allowed Stray pk) (h : AllowedWhere Stray cmd.condition) :
    Spells Stray (updateCondition cmd pk rk) := by
  have hguard := spells_existsGuard cmd.upsert hpk
  unfold updateCondition
  cases hcondition : cmd.condition with
  | none => exact hguard
  | some w =>
      intro before
      have hcheck := (spells_where (h w hcondition) ⟨[], []⟩ pk rk).2.2.2
      refine (hguard before).bind fun st => (hcheck _).bind fun st' => .pure (.of_eq fun kind => ?_)
      simp [placeholders_guardedBy]

theorem spells_deleteCondition {cmd : DeleteCmd} (pk rk : String)
    (h : AllowedWhere Stray cmd.condition) : Spells Stray (deleteCondition cmd pk rk) := by
  unfold deleteCondition
  cases hcondition : cmd.condition with
  | none => exact Spells.pure rfl
  | some w => exact (spells_where (h w hcondition) ⟨[], []⟩ pk rk).2.2.2

theorem spells_projectBaseKeys {pk rk : String} (hpk : Allowed Stray pk) (hrk : Allowed Stray rk) :
    Spells Stray (projectBaseKeys pk rk) := by
  unfold projectBaseKeys
  split
  · exact spells_newAttribute hpk
  · intro before
    refine (spells_newAttribute hpk before).bind fun st =>
      (spells_newAttribute hrk _).bind fun st' => .pure (.of_eq fun kind => ?_)
    simp [placeholders_between isSeparator_comma]

theorem spells_existsChecks {checkFunc : String} (hfunc : markless (checkFunc ++ "(") = true)
    {attrs : List String} (h : ∀ attr ∈ attrs, Allowed Stray attr) :
    Spells Stray (existsChecks checkFunc attrs) := by
  induction attrs with
  | nil => exact Spells.pure rfl
  | cons attr attrs ih =>
      intro before
      have hrest := ih fun other hmem => h other (List.mem_cons_of_mem _ hmem)
      refine (spells_newAttribute (h attr List.mem_cons_self) before).bind fun st =>
        (hrest _).bind fun st' => .pure (.of_eq fun kind => ?_)
      simp [placeholders_between isSeparator_close, placeholders_after hfunc]

theorem placeholders_withFilter (filter checks : String) (kind : AliasKind) :
    placeholders kind ((if filter = "" then filter else filter ++ " AND ") ++ checks) =
      placeholders kind filter ++ placeholders kind checks := by
  split
  · next hempty => rw [hempty, placeholders_markless (s := "") rfl, String.empty_append]; rfl
  · exact placeholders_between isSeparator_and kind filter checks

theorem spells_conditionCheckExpression {checkFunc : String}
    (hfunc : markless (checkFunc ++ "(") = true) {projection : List String} {w : Where}
    {schema : ResolvedKeySchema} (h : AllowedTree Stray w.root)
    (hprojection : ∀ attr ∈ schema.pk.headD "" :: projection, Allowed Stray attr) :
    Spells Stray (conditionCheckExpression checkFunc projection w schema) := by
  intro before
  have hchecks : Spells Stray (existsChecks checkFunc
      (if projection.isEmpty then [schema.pk.headD ""] else projection)) := by
    refine spells_existsChecks hfunc fun attr hmem => hprojection attr ?_
    split at hmem
    · exact List.mem_cons.mpr (.inl (List.mem_singleton.mp hmem))
    · exact List.mem_cons_of_mem _ hmem
  refine ((spells_where h ⟨schema.pk, schema.rk⟩ "" "").2.2.1 before).bind fun st =>
    (hchecks _).bind fun st' => .pure (.of_eq fun kind => ?_)
  simp [placeholders_withFilter]

end Pieces

/-! ### Requests -/

namespace Emitted

def texts (r : Emitted) : List String := r.expressions.map Prod.snd

/-- The tokens of one of the two maps. -/
def tokens (r : Emitted) : AliasKind → List String
  | .name => r.expressionAttributeNames.map Prod.fst
  | .value => r.expressionAttributeValues.map Prod.fst

/-- No token of the maps is unused, and none of the expressions undefined but
for some. -/
structure Exact (Stray : AliasKind → String → Prop) (r : Emitted) : Prop where
  used : ∀ kind, ∀ token ∈ r.tokens kind, token ∈ occurring r.texts kind
  defined : ∀ kind, ∀ token ∈ occurring r.texts kind, token ∈ r.tokens kind ∨ Stray kind token

end Emitted

def TransactGet.emitted (r : TransactGet) : Emitted :=
  ⟨r.expressionAttributeNames, [], present .projection r.projectionExpression⟩

def TransactUpdate.emitted (r : TransactUpdate) : Emitted :=
  ⟨r.expressionAttributeNames, r.expressionAttributeValues,
    (.update, r.updateExpression) :: present .condition r.conditionExpression⟩

def TransactDelete.emitted (r : TransactDelete) : Emitted :=
  ⟨r.expressionAttributeNames, r.expressionAttributeValues,
    present .condition r.conditionExpression⟩

def TransactPut.emitted (r : TransactPut) : Emitted :=
  ⟨r.expressionAttributeNames, r.expressionAttributeValues,
    present .condition r.conditionExpression⟩

section Requests

variable {Stray : AliasKind → String → Prop}

theorem texts_present (kind : ExpressionKind) (text : Option String) :
    (present kind text).map Prod.snd = text.toList := by
  cases text <;> rfl

/-- The tokens of the maps that are filled from a table. -/
theorem mem_tokens_iff {st : SymbolTable} (hst : Valid st)
    (xs : List (ExpressionKind × String)) (kind : AliasKind) (token : String) :
    token ∈ (Emitted.mk (namesOf st) (valuesOf st) xs).tokens kind ↔ st.Minted kind token := by
  cases kind with
  | name =>
      constructor
      · intro hmem
        obtain ⟨entry, hentry, rfl⟩ := List.mem_map.mp hmem
        have hget := Std.TreeMap.mem_toList_iff_getElem?_eq_some.mp hentry
        exact ⟨entry.2, getNames_eq_some hget⟩
      · rintro ⟨name, hname⟩
        refine List.mem_map.mpr ⟨(token, name), ?_, rfl⟩
        exact Std.TreeMap.mem_toList_iff_getElem?_eq_some.mpr (hst.getNames hname)
  | value =>
      constructor
      · intro hmem
        obtain ⟨entry, hentry, rfl⟩ := List.mem_map.mp hmem
        exact ⟨entry.2, Std.TreeMap.mem_toList_iff_getElem?_eq_some.mp hentry⟩
      · rintro ⟨v, hv⟩
        refine List.mem_map.mpr ⟨(token, v), ?_, rfl⟩
        exact Std.TreeMap.mem_toList_iff_getElem?_eq_some.mpr hv

theorem Written.exact {st : SymbolTable} {xs : List (ExpressionKind × String)}
    (h : Written Stray st (xs.map Prod.snd)) :
    (Emitted.mk (namesOf st) (valuesOf st) xs).Exact Stray := by
  refine ⟨fun kind token hmem => ?_, fun kind token hmem => ?_⟩
  · exact h.used kind token ((mem_tokens_iff h.valid xs kind token).mp hmem)
  · exact (h.known kind token hmem).imp_left (mem_tokens_iff h.valid xs kind token).mpr

/-- Where no value was given out, the map of values may be missing. -/
theorem Written.exact_names {st : SymbolTable} {xs : List (ExpressionKind × String)}
    (h : Written Stray st (xs.map Prod.snd)) (hvalues : valuesOf st = []) :
    (Emitted.mk (namesOf st) [] xs).Exact Stray := hvalues ▸ h.exact

theorem written_fresh {namePrefix : String} (hplain : IsPlain namePrefix) :
    Written Stray (freshTable namePrefix) [] := by
  refine ⟨valid_freshTable hplain, hplain, fun kind token hminted => ?_, fun kind token h => ?_⟩
  · cases kind with
    | name =>
        obtain ⟨name, hname⟩ := hminted
        rw [show (freshTable namePrefix).names[name]? = none from Std.TreeMap.getElem?_emptyc]
          at hname
        cases hname
    | value =>
        obtain ⟨v, hv⟩ := hminted
        rw [show (freshTable namePrefix).values[token]? = none from Std.TreeMap.getElem?_emptyc]
          at hv
        cases hv
  · cases h

/-- A projection and a filter, in the order of a Scan. -/
theorem writes_scan {projection : Alias (Option String)} {filter : Alias (Option String)}
    (hprojection : SpellsOption Stray projection) (hfilter : SpellsOption Stray filter)
    {st : SymbolTable} (hst : Written Stray st []) :
    let last := filter (projection st).2
    (Emitted.mk (namesOf last.2) (valuesOf last.2)
      (present .condition last.1 ++ present .projection (projection st).1)).Exact Stray := by
  intro last
  refine Written.exact ((hfilter _ _ (hprojection [] st hst)).congr (fun kind token => ?_))
  simp only [List.map_append, texts_present, occurring_append, List.mem_append, List.nil_append]
  exact or_comm

/-- A projection and the two halves of a clause, in the order of a Query. -/
theorem writes_query {projection : Alias (Option String)} {key filter : Alias String}
    (hprojection : SpellsOption Stray projection) (hkey : Spells Stray key)
    (hfilter : Spells Stray filter) {st : SymbolTable} (hst : Written Stray st []) :
    let middle := key (projection st).2
    let last := filter middle.2
    (Emitted.mk (namesOf last.2) (valuesOf last.2)
      ((.condition, middle.1) :: (present .condition (nonEmpty last.1) ++
        present .projection (projection st).1))).Exact Stray := by
  intro middle last
  refine Written.exact ((hfilter _ _ (hkey _ _ (hprojection [] st hst))).congr
    (fun kind token => ?_))
  simp only [List.map_append, List.map_cons, texts_present, occurring_append, occurring_cons,
    occurring_nil, occurring_nonEmpty, List.mem_append, List.nil_append, List.append_nil]
  tauto

theorem serializeProjection_values (paths : List String) (st : SymbolTable) :
    (serializeProjection paths st).2.values = st.values := by
  induction paths generalizing st with
  | nil => rfl
  | cons path paths ih =>
      cases paths with
      | nil => exact newSegments_values _ _ st
      | cons next rest =>
          rw [serializeProjection, Alias.bind_apply, Alias.bind_apply, Alias.pure_apply, ih]
          exact newSegments_values _ _ st

theorem optionalProjection_values (paths : List String) (st : SymbolTable) :
    (optionalProjection paths st).2.values = st.values := by
  unfold optionalProjection
  split
  · rfl
  · exact serializeProjection_values paths st

/-- A projection alone, with the names it takes. -/
theorem projection_exact {paths : List String} (h : ∀ path ∈ paths, Allowed Stray path)
    {namePrefix : String} (hplain : IsPlain namePrefix) :
    let last := optionalProjection paths (freshTable namePrefix)
    (Emitted.mk (namesOf last.2) [] (present .projection last.1)).Exact Stray := by
  intro last
  have hwritten := spells_optionalProjection h [] _ (written_fresh hplain)
  refine Written.exact_names (hwritten.congr (.of_eq fun kind => ?_)) ?_
  · rw [texts_present]
    rfl
  · rw [valuesOf, optionalProjection_values]
    rfl

/-- A single condition. -/
theorem condition_exact {condition : Alias String} (h : Spells Stray condition)
    {namePrefix : String} (hplain : IsPlain namePrefix) :
    let last := condition (freshTable namePrefix)
    (Emitted.mk (namesOf last.2) (valuesOf last.2) (present .condition (nonEmpty last.1))).Exact
        Stray ∧
      (Emitted.mk (namesOf last.2) (valuesOf last.2) [(.condition, last.1)]).Exact Stray := by
  intro last
  have hwritten := h [] _ (written_fresh hplain)
  refine ⟨Written.exact (hwritten.congr (.of_eq fun kind => ?_)), Written.exact hwritten⟩
  rw [texts_present, occurring_nonEmpty]
  simp [last]

end Requests

/-! ### Builders -/

/-- The tokens that the subscripts of some paths spell. -/
def spelledBy (paths : List String) (kind : AliasKind) (token : String) : Prop :=
  ∃ path ∈ paths, token ∈ strays kind path

def wherePaths (w : Option Where) : List String :=
  w.elim [] fun w => w.root.leaves.map fun l => l.lhs

section Builders

variable {paths : List String} {namePrefix : String}

theorem allowed_of_mem {path : String} (h : path ∈ paths) : Allowed (spelledBy paths) path :=
  fun _ _ htoken => ⟨path, h, htoken⟩

theorem allowedWhere_of_subset {w : Option Where} (h : ∀ path ∈ wherePaths w, path ∈ paths) :
    AllowedWhere (spelledBy paths) w := by
  rintro w rfl l hl
  exact allowed_of_mem (h l.lhs (List.mem_map.mpr ⟨l, hl, rfl⟩))

/-- What a SELECT names. -/
def selectPaths (cmd : SelectCmd) : List String := cmd.projection ++ wherePaths cmd.condition

theorem selectPaths_allowed (cmd : SelectCmd) :
    (∀ path ∈ cmd.projection, Allowed (spelledBy (selectPaths cmd)) path) ∧
      AllowedWhere (spelledBy (selectPaths cmd)) cmd.condition :=
  ⟨fun _ hmem => allowed_of_mem (List.mem_append_left _ hmem),
    allowedWhere_of_subset fun _ hmem => List.mem_append_right _ hmem⟩

theorem scanRequest_exact (cmd : SelectCmd) (hplain : IsPlain namePrefix) :
    (scanRequest cmd (freshTable namePrefix)).1.emitted.Exact (spelledBy (selectPaths cmd)) :=
  writes_scan (spells_optionalProjection (selectPaths_allowed cmd).1)
    (spells_optionalScanFilter (selectPaths_allowed cmd).2) (written_fresh hplain)

theorem planAccess_exact (cmd : SelectCmd) (schema : ResolvedKeySchema)
    (hplain : IsPlain namePrefix) :
    (planAccess cmd schema (freshTable namePrefix)).1.emitted.Exact
      (spelledBy (selectPaths cmd)) := by
  obtain ⟨hprojection, hwhere⟩ := selectPaths_allowed cmd
  have hscan := scanRequest_exact cmd hplain
  unfold planAccess
  cases hcondition : cmd.condition with
  | none => exact hscan
  | some w =>
      dsimp only
      split
      · exact projection_exact hprojection hplain
      · cases w.planQuery schema.pk schema.rk with
        | none => exact hscan
        | some qplan =>
            obtain ⟨-, hkey, hfilter, -⟩ := spells_where (hwhere w hcondition) qplan "" ""
            exact writes_query (spells_optionalProjection hprojection) hkey hfilter
              (written_fresh hplain)

/-- Every plan is a vector search or one of the classic access paths. -/
theorem planSelect_cases {cmd : SelectCmd} {describe : DescribeTable} {plan : SelectPlan}
    (h : planSelect cmd describe namePrefix = .ok plan) :
    (∃ index vi, planSearchVectors cmd index vi namePrefix = .ok plan) ∨
      ∃ schema, plan = (planAccess cmd schema (freshTable namePrefix)).1 := by
  unfold planSelect at h
  cases hindex : cmd.index with
  | none =>
      simp only [hindex, pure_bind] at h
      split at h
      · cases h
      · obtain ⟨schema, -, h⟩ := bind_eq_ok h
        exact .inr ⟨schema, (Except.ok.inj h).symm⟩
  | some index =>
      simp only [hindex] at h
      obtain ⟨described, -, h⟩ := bind_eq_ok h
      rw [pure_bind] at h
      cases hvector : (described.vectorIndexes.find? fun vi => vi.indexName = index).map
        (index, ·) with
      | some entry =>
          rw [hvector] at h
          exact .inl ⟨entry.1, entry.2, h⟩
      | none =>
          rw [hvector] at h
          dsimp only at h
          split at h
          · cases h
          · obtain ⟨schema, -, h⟩ := bind_eq_ok h
            exact .inr ⟨schema, (Except.ok.inj h).symm⟩

theorem planSelect_exact {cmd : SelectCmd} {describe : DescribeTable} {plan : SelectPlan}
    (hplain : IsPlain namePrefix) (h : planSelect cmd describe namePrefix = .ok plan) :
    plan.emitted.Exact (spelledBy (selectPaths cmd)) := by
  rcases planSelect_cases h with ⟨index, vi, h⟩ | ⟨schema, rfl⟩
  · unfold planSearchVectors at h
    obtain ⟨checked, -, h⟩ := bind_eq_ok h
    cases h
    exact scanRequest_exact cmd hplain
  · exact planAccess_exact cmd schema hplain

/-- What the enumeration read of a bulk write names. -/
def writeReadPaths (condition : Option Where) (basePk baseRk : String) : List String :=
  basePk :: baseRk :: wherePaths condition

theorem buildWriteRead_exact (table : String) (index : Option String) (condition : Option Where)
    (qplan : Option QueryKeyPlan) (basePk baseRk : String) (ratelimit : Bool)
    (hplain : IsPlain namePrefix) :
    (buildWriteRead table index condition qplan basePk baseRk ratelimit
      (freshTable namePrefix)).1.emitted.Exact
        (spelledBy (writeReadPaths condition basePk baseRk)) := by
  have hkeys : SpellsOption (spelledBy (writeReadPaths condition basePk baseRk))
      (some <$> projectBaseKeys basePk baseRk) := by
    intro before
    refine (spells_projectBaseKeys ?_ ?_ before).map fun text => .of_eq fun kind => rfl
    · exact allowed_of_mem List.mem_cons_self
    · exact allowed_of_mem (List.mem_cons_of_mem _ List.mem_cons_self)
  have hwhere : AllowedWhere (spelledBy (writeReadPaths condition basePk baseRk)) condition :=
    allowedWhere_of_subset fun _ hmem => List.mem_cons_of_mem _ (List.mem_cons_of_mem _ hmem)
  have hscan := writes_scan hkeys (spells_optionalScanFilter hwhere) (written_fresh hplain)
  unfold buildWriteRead
  split
  · next w plan =>
      obtain ⟨-, hkey, hfilter, -⟩ := spells_where (hwhere w rfl) plan "" ""
      exact writes_query hkeys hkey hfilter (written_fresh hplain)
  · exact hscan

/-- What an UPDATE names, with the key that its guard is on. -/
def updatePaths (cmd : UpdateCmd) (pk : String) : List String :=
  pk :: (mutationPaths cmd.mutation ++ wherePaths cmd.condition)

theorem makeUpdateRequest_exact {cmd : UpdateCmd} {u : UpdateClause}
    (hmutation : cmd.mutation = u.build) (pk rk : String) (hplain : IsPlain namePrefix) :
    (makeUpdateRequest cmd pk rk (freshTable namePrefix)).1.emitted.Exact
      (spelledBy (updatePaths cmd pk)) := by
  have hexpression : Spells (spelledBy (updatePaths cmd pk)) (updateExpression cmd.mutation) := by
    rw [hmutation]
    refine spells_updateExpression fun path hmem => allowed_of_mem ?_
    rw [← hmutation] at hmem
    exact List.mem_cons_of_mem _ (List.mem_append_left _ hmem)
  have hcondition : Spells (spelledBy (updatePaths cmd pk)) (updateCondition cmd pk rk) :=
    spells_updateCondition rk (allowed_of_mem List.mem_cons_self)
      (allowedWhere_of_subset fun _ hmem => List.mem_cons_of_mem _ (List.mem_append_right _ hmem))
  have hwritten := hcondition _ _ (hexpression [] _ (written_fresh hplain))
  refine Written.exact (hwritten.congr (.of_eq fun kind => ?_))
  rw [List.map_cons, texts_present, occurring_cons]
  show occurring [(updateExpression cmd.mutation (freshTable namePrefix)).1, _] kind =
    placeholders kind (updateExpression cmd.mutation (freshTable namePrefix)).1 ++
      occurring (nonEmpty _).toList kind
  rw [occurring_cons, occurring_nonEmpty, occurring_cons, occurring_nil, List.append_nil]
  rfl

/-- What a DELETE names. -/
def deletePaths (cmd : DeleteCmd) : List String := wherePaths cmd.condition

theorem makeDeleteRequest_exact (cmd : DeleteCmd) (pk rk : String) (hplain : IsPlain namePrefix) :
    (makeDeleteRequest cmd pk rk (freshTable namePrefix)).1.emitted.Exact
      (spelledBy (deletePaths cmd)) :=
  (condition_exact (spells_deleteCondition pk rk (allowedWhere_of_subset fun _ hmem => hmem))
    hplain).1

theorem guardedPutRequest_exact (cmd : InsertCmd) (row : List Value) (pk : String)
    (hplain : IsPlain namePrefix) :
    (guardedPutRequest cmd row pk namePrefix).emitted.Exact (spelledBy [pk]) := by
  have hwritten := (spells_newAttribute (allowed_of_mem (List.mem_singleton.mpr rfl) :
    Allowed (spelledBy [pk]) pk)) [] _ (written_fresh hplain)
  refine Written.exact_names (hwritten.congr (.of_eq fun kind => ?_)) ?_
  · rw [texts_present]
    show _ = occurring ["attribute_not_exists(" ++ (newAttribute pk (freshTable namePrefix)).1 ++
      ")"] kind
    rw [occurring_cons, placeholders_call rfl]
    rfl
  · have hvalues : (newAttribute pk (freshTable namePrefix)).2.values = ∅ :=
      newSegments_values _ _ _
    show valuesOf (newAttribute pk (freshTable namePrefix)).2 = []
    rw [valuesOf, hvalues]
    rfl

theorem putRequest_exact (Stray : AliasKind → String → Prop) (cmd : InsertCmd)
    (row : List Value) : (putRequest cmd row).emitted.Exact Stray := by
  refine ⟨fun kind token hmem => ?_, fun kind token hmem => ?_⟩
  · cases kind <;> cases hmem
  · cases hmem

theorem buildTransactGet_exact {cmd : SelectCmd} {describe : DescribeTable} {r : TransactGet}
    (hplain : IsPlain namePrefix) (h : buildTransactGet cmd describe namePrefix = .ok r) :
    r.emitted.Exact (spelledBy (selectPaths cmd)) := by
  obtain ⟨schema, -, h⟩ := bind_eq_ok h
  cases hcondition : cmd.condition with
  | none =>
      rw [hcondition] at h
      cases h
  | some w =>
      rw [hcondition] at h
      dsimp only at h
      split at h
      · cases h
      · cases h
        exact projection_exact (selectPaths_allowed cmd).1 hplain

theorem buildTransactUpdate_exact {cmd : UpdateCmd} {u : UpdateClause}
    (hmutation : cmd.mutation = u.build) {describe : DescribeTable} {r : TransactUpdate}
    (hplain : IsPlain namePrefix) (h : buildTransactUpdate cmd describe namePrefix = .ok r) :
    ∃ schema, getKeySchema describe cmd.table "" = .ok schema ∧
      r.emitted.Exact (spelledBy (updatePaths cmd (schema.pk.headD ""))) := by
  obtain ⟨schema, hschema, h⟩ := bind_eq_ok h
  refine ⟨schema, hschema, ?_⟩
  cases hcondition : cmd.condition with
  | none =>
      rw [hcondition] at h
      cases h
  | some w =>
      rw [hcondition] at h
      dsimp only at h
      split at h
      · cases h
      · cases h
        exact makeUpdateRequest_exact hmutation _ _ hplain

theorem buildTransactDelete_exact {cmd : DeleteCmd} {describe : DescribeTable}
    {r : TransactDelete} (hplain : IsPlain namePrefix)
    (h : buildTransactDelete cmd describe namePrefix = .ok r) :
    r.emitted.Exact (spelledBy (deletePaths cmd)) := by
  obtain ⟨schema, -, h⟩ := bind_eq_ok h
  cases hcondition : cmd.condition with
  | none =>
      rw [hcondition] at h
      cases h
  | some w =>
      rw [hcondition] at h
      dsimp only at h
      split at h
      · cases h
      · cases h
        exact makeDeleteRequest_exact cmd _ _ hplain

theorem buildTransactConditionCheck_exact {cmd : SelectCmd} {describe : DescribeTable}
    {r : TransactConditionCheck} (hplain : IsPlain namePrefix)
    (h : buildTransactConditionCheck cmd describe namePrefix = .ok r) :
    ∃ schema, getKeySchema describe cmd.table "" = .ok schema ∧
      r.emitted.Exact (spelledBy (schema.pk.headD "" :: selectPaths cmd)) := by
  unfold buildTransactConditionCheck at h
  cases hmode : existsFunction cmd.existsMode with
  | none =>
      rw [hmode] at h
      cases h
  | some checkFunc =>
      rw [hmode] at h
      have hfunc : markless (checkFunc ++ "(") = true := by
        cases hexists : cmd.existsMode <;> rw [hexists] at hmode <;> cases hmode <;>
          rfl
      obtain ⟨schema, hschema, h⟩ := bind_eq_ok h
      refine ⟨schema, hschema, ?_⟩
      cases hcondition : cmd.condition with
      | none =>
          rw [hcondition] at h
          cases h
      | some w =>
          rw [hcondition] at h
          cases h
          refine (condition_exact (spells_conditionCheckExpression hfunc ?_ ?_) hplain).2
          · refine allowedWhere_of_subset (fun path hmem => ?_) w hcondition
            exact List.mem_cons_of_mem _ (List.mem_append_right _ hmem)
          · intro attr hmem
            refine allowed_of_mem ?_
            rcases List.mem_cons.mp hmem with rfl | hmem
            · exact List.mem_cons_self
            · exact List.mem_cons_of_mem _ (List.mem_append_left _ hmem)

theorem makePutRequest_exact {cmd : InsertCmd} {pk : String} {row : List Value}
    {counter counter' : Nat} {put : PutItemIn}
    (h : makePutRequest cmd pk row counter = .done (.ok put, counter')) :
    put.emitted.Exact (spelledBy [pk]) := by
  rw [makePutRequest_done] at h
  split at h
  · cases h
    exact guardedPutRequest_exact cmd row pk (isPlain_uniquePrefix counter)
  · cases h
    exact putRequest_exact _ cmd row

end Builders

/-- The maps of every request that the builders make with the prefix have the
tokens of its expressions, but for what subscripts of the command's paths
spell. -/
structure RequestsExact (namePrefix : String) : Prop where
  select : ∀ (cmd : SelectCmd) (describe : DescribeTable) (plan : SelectPlan),
    planSelect cmd describe namePrefix = .ok plan → plan.emitted.Exact (spelledBy (selectPaths cmd))
  writeRead : ∀ (table : String) (index : Option String) (condition : Option Where)
      (qplan : Option QueryKeyPlan) (basePk baseRk : String) (ratelimit : Bool),
    (buildWriteRead table index condition qplan basePk baseRk ratelimit
      (freshTable namePrefix)).1.emitted.Exact (spelledBy (writeReadPaths condition basePk baseRk))
  update : ∀ (cmd : UpdateCmd) (u : UpdateClause) (pk rk : String), cmd.mutation = u.build →
    (makeUpdateRequest cmd pk rk (freshTable namePrefix)).1.emitted.Exact
      (spelledBy (updatePaths cmd pk))
  delete : ∀ (cmd : DeleteCmd) (pk rk : String),
    (makeDeleteRequest cmd pk rk (freshTable namePrefix)).1.emitted.Exact
      (spelledBy (deletePaths cmd))
  transactGet : ∀ (cmd : SelectCmd) (describe : DescribeTable) (r : TransactGet),
    buildTransactGet cmd describe namePrefix = .ok r →
      r.emitted.Exact (spelledBy (selectPaths cmd))
  transactCheck : ∀ (cmd : SelectCmd) (describe : DescribeTable) (r : TransactConditionCheck),
    buildTransactConditionCheck cmd describe namePrefix = .ok r →
      ∃ schema, getKeySchema describe cmd.table "" = .ok schema ∧
        r.emitted.Exact (spelledBy (schema.pk.headD "" :: selectPaths cmd))
  transactUpdate : ∀ (cmd : UpdateCmd) (u : UpdateClause) (describe : DescribeTable)
      (r : TransactUpdate), cmd.mutation = u.build →
    buildTransactUpdate cmd describe namePrefix = .ok r →
      ∃ schema, getKeySchema describe cmd.table "" = .ok schema ∧
        r.emitted.Exact (spelledBy (updatePaths cmd (schema.pk.headD "")))
  transactDelete : ∀ (cmd : DeleteCmd) (describe : DescribeTable) (r : TransactDelete),
    buildTransactDelete cmd describe namePrefix = .ok r →
      r.emitted.Exact (spelledBy (deletePaths cmd))

/-- The puts draw their prefix from the counter. -/
def PutsExact : Prop :=
  ∀ (cmd : InsertCmd) (pk : String) (row : List Value) (counter counter' : Nat) (put : PutItemIn),
    makePutRequest cmd pk row counter = .done (.ok put, counter') →
      put.emitted.Exact (spelledBy [pk]) ∧ (transactPut put).emitted.Exact (spelledBy [pk])

theorem requestsExact {namePrefix : String} (hplain : IsPlain namePrefix) :
    RequestsExact namePrefix where
  select _ _ _ h := planSelect_exact hplain h
  writeRead table index condition qplan basePk baseRk ratelimit :=
    buildWriteRead_exact table index condition qplan basePk baseRk ratelimit hplain
  update _ _ pk rk hmutation := makeUpdateRequest_exact hmutation pk rk hplain
  delete cmd pk rk := makeDeleteRequest_exact cmd pk rk hplain
  transactGet _ _ _ h := buildTransactGet_exact hplain h
  transactCheck _ _ _ h := buildTransactConditionCheck_exact hplain h
  transactUpdate _ _ _ _ hmutation h := buildTransactUpdate_exact hmutation hplain h
  transactDelete _ _ _ h := buildTransactDelete_exact hplain h

theorem putsExact : PutsExact := fun _ _ _ _ _ _ h =>
  ⟨makePutRequest_exact h, makePutRequest_exact h⟩

/-- The laws of the alias tables whose prefix is a word: of every run of calls,
of the paths that come back from their texts, and of every request. -/
theorem aliases_asTyped {namePrefix : String} (hplain : IsPlain namePrefix) :
    (∀ cs, AliasLaws (runCalls cs (freshTable namePrefix)).1
      (runCalls cs (freshTable namePrefix)).2) ∧
    (∀ path,
      (∀ cs text, (.newAttribute path, text) ∈ (runCalls cs (freshTable namePrefix)).1 →
          restoreNames (runCalls cs (freshTable namePrefix)).2 text = path) ↔
        ∀ token ∈ strays .name path, ∀ i, 0 < i → token ≠ attrToken namePrefix i) ∧
    RequestsExact namePrefix ∧ PutsExact :=
  ⟨fun cs => runCalls_laws (valid_freshTable hplain) hplain cs, restored_iff hplain,
    requestsExact hplain, putsExact⟩

theorem aliases_asTyped_word :
    IsPlain "aaa" ∧
      (∀ cs, AliasLaws (runCalls cs (freshTable "aaa")).1 (runCalls cs (freshTable "aaa")).2) ∧
      RequestsExact "aaa" :=
  have hplain : IsPlain "aaa" := isPlain_uniquePrefix 0
  ⟨hplain, (aliases_asTyped hplain).1, (aliases_asTyped hplain).2.2.1⟩

/-- A subscript that spells the token of its own name is taken for it when the
names are put back, and one that spells any other token is in the request with
no name for it. So is what a prefix that is no word cuts off. -/
theorem subscript_taken :
    let call := newAttribute "a[#aaaa1]" (freshTable "aaa")
    call.1 = "#aaaa1[#aaaa1]" ∧ restoreNames call.2 call.1 = "a[a]" ∧
    (let r := (scanRequest { projection := ["a[#x]"], table := "t" } (freshTable "aaa")).1.emitted;
      occurring r.texts .name = ["#aaaa1", "#x"] ∧ r.tokens .name = ["#aaaa1"]) ∧
    (let r := (scanRequest { projection := ["a"], table := "t" } (freshTable ".")).1.emitted;
      occurring r.texts .name = ["#a"] ∧ r.tokens .name = ["#a.1"]) := by
  decide +kernel

end DdbShell
