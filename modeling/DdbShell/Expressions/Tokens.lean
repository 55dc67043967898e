import DdbShell.Parser.GrownTree
import DdbShell.Expressions.Where

/-!
The rendered strings as token sequences over leaf predicates. `tokens` is the
whole tree; `part` renders the leaves outside every OR that a `Part` keeps,
and the ORs if it keeps those. The four methods of the tree spell such
sequences: `serialize_eq` and its siblings say that the text is the token
sequence written out left to right, each leaf through the symbol table as it
is reached.
-/

namespace DdbShell

open Infix (Token join)

abbrev Tokens := List (Token Leaf)

namespace LogicalExpression

def negatedTokens (negate : Bool) (ts : Tokens) : Tokens :=
  if negate then .not :: .lparen :: (ts ++ [.rparen]) else ts

/-- No tokens stay no tokens, negated or not. -/
def presentTokens (negate : Bool) (ts : Tokens) : Tokens :=
  if ts.isEmpty then [] else negatedTokens negate ts

def groupedTokens (parens : Bool) (ts : Tokens) : Tokens :=
  if parens then .lparen :: (ts ++ [.rparen]) else ts

mutual

def tokens : LogicalExpression → Tokens
  | .leaf negate _ l => negatedTokens negate [.atom l]
  | .and negate parens exprlist =>
      negatedTokens negate (groupedTokens parens (join .and (tokensAll exprlist)))
  | .or negate parens exprlist =>
      negatedTokens negate (groupedTokens parens (join .or (tokensAll exprlist)))

def tokensAll : List LogicalExpression → List Tokens
  | [] => []
  | e :: es => e.tokens :: tokensAll es

end

/-- Which of the pieces outside every OR a rendering keeps. -/
structure Part where
  keep : Bool → Leaf → Bool
  keepOr : Bool

def keyConditionPart (ks : KeySchemaView) : Part :=
  ⟨fun negate l => l.inKeyCondition ks negate, false⟩

def filterPart (ks : KeySchemaView) : Part :=
  ⟨fun negate l => l.inFilter ks negate, true⟩

def conditionPart (pk rk : String) : Part :=
  ⟨fun negate l => l.inCondition pk rk negate, true⟩

mutual

def part (q : Part) : LogicalExpression → Tokens
  | .leaf negate parens l => if q.keep negate l then tokens (.leaf negate parens l) else []
  | .and negate parens exprlist =>
      presentTokens negate
        (groupedTokens parens (join .and ((partAll q exprlist).filter fun ts => !ts.isEmpty)))
  | .or negate parens exprlist =>
      if q.keepOr then tokens (.or negate parens exprlist) else []

def partAll (q : Part) : List LogicalExpression → List Tokens
  | [] => []
  | e :: es => e.part q :: partAll q es

end

end LogicalExpression

/-! ### Spelling -/

def spell : Tokens → Alias String
  | [] => return ""
  | .atom l :: ts => do
      let text ← l.doSerialize
      return text ++ (← spell ts)
  | .not :: ts => return "NOT " ++ (← spell ts)
  | .and :: ts => return " AND " ++ (← spell ts)
  | .or :: ts => return " OR " ++ (← spell ts)
  | .lparen :: ts => return "(" ++ (← spell ts)
  | .rparen :: ts => return ")" ++ (← spell ts)

def spellAll : List Tokens → Alias (List String)
  | [] => return []
  | ts :: tss => do
      let text ← spell ts
      return text :: (← spellAll tss)

theorem spell_append (ts us : Tokens) (st : SymbolTable) :
    spell (ts ++ us) st =
      ((spell ts st).1 ++ (spell us (spell ts st).2).1, (spell us (spell ts st).2).2) := by
  induction ts generalizing st with
  | nil =>
      simp only [List.nil_append, spell, Alias.pure_apply, String.empty_append]
      rfl
  | cons t ts ih => cases t <;> simp [spell, ih, String.append_assoc]

theorem Leaf.doSerialize_ne_empty (l : Leaf) (st : SymbolTable) : (l.doSerialize st).1 ≠ "" := by
  cases hp : l.predicate <;> simp [Leaf.doSerialize, hp]

/-- Only the empty sequence spells the empty text. -/
theorem spell_eq_empty_iff (ts : Tokens) (st : SymbolTable) : (spell ts st).1 = "" ↔ ts = [] := by
  cases ts with
  | nil => simp [spell]
  | cons t ts => cases t <;> simp [spell, Leaf.doSerialize_ne_empty]

theorem spell_join_and (tss : List Tokens) (st : SymbolTable) :
    spell (join .and tss) st = (joinWith " AND " (spellAll tss st).1, (spellAll tss st).2) := by
  induction tss generalizing st with
  | nil => rfl
  | cons ts tss ih =>
      cases tss with
      | nil => rfl
      | cons us rest =>
          rw [join, spell_append]
          simp [spell, ih, spellAll, joinWith, String.append_assoc]

theorem spell_join_or (tss : List Tokens) (st : SymbolTable) :
    spell (join .or tss) st = (joinWith " OR " (spellAll tss st).1, (spellAll tss st).2) := by
  induction tss generalizing st with
  | nil => rfl
  | cons ts tss ih =>
      cases tss with
      | nil => rfl
      | cons us rest =>
          rw [join, spell_append]
          simp [spell, ih, spellAll, joinWith, String.append_assoc]

namespace LogicalExpression

theorem spell_negatedTokens (negate : Bool) (ts : Tokens) (st : SymbolTable) :
    spell (negatedTokens negate ts) st =
      (negatedText negate (spell ts st).1, (spell ts st).2) := by
  cases negate with
  | false => rfl
  | true =>
      have hopen : "NOT (" = "NOT " ++ "(" := by decide
      simp only [negatedTokens, negatedText, if_true, spell, Alias.bind_apply, Alias.pure_apply,
        spell_append, String.append_empty, hopen, String.append_assoc]

theorem spell_groupedTokens (parens : Bool) (ts : Tokens) (st : SymbolTable) :
    spell (groupedTokens parens ts) st =
      (parenthesised parens (spell ts st).1, (spell ts st).2) := by
  cases parens with
  | false => rfl
  | true => simp [groupedTokens, parenthesised, spell, spell_append, String.append_assoc]

theorem serializeAll_eq {es : List LogicalExpression}
    (h : ∀ e ∈ es, ∀ st, e.serialize st = spell e.tokens st) (st : SymbolTable) :
    serializeAll es st = spellAll (tokensAll es) st := by
  induction es generalizing st with
  | nil => rfl
  | cons e es ih =>
      have hhead := h e (by simp) st
      have htail := ih fun e he => h e (List.mem_cons_of_mem _ he)
      simp only [serialize, Alias.bind_apply, Alias.pure_apply] at hhead
      simp [serializeAll, tokensAll, spellAll, htail, ← hhead]

/-- The Scan filter is the token sequence of the tree, spelled. -/
theorem serialize_eq (e : LogicalExpression) (st : SymbolTable) :
    e.serialize st = spell e.tokens st := by
  induction e using induct generalizing st with
  | leaf negate parens l =>
      rw [tokens, spell_negatedTokens]
      simp [serialize, doSerialize, isNegated, spell]
  | and negate parens es ih =>
      rw [tokens, spell_negatedTokens, spell_groupedTokens, spell_join_and, ← serializeAll_eq ih]
      simp [serialize, doSerialize, isNegated]
  | or negate parens es ih =>
      rw [tokens, spell_negatedTokens, spell_groupedTokens, spell_join_or, ← serializeAll_eq ih]
      simp [serialize, doSerialize, isNegated]

/-! ### The partial renderings -/

theorem spell_presentTokens (negate : Bool) (ts : Tokens) (st : SymbolTable) :
    spell (presentTokens negate ts) st =
      (negatedIfPresent negate (spell ts st).1, (spell ts st).2) := by
  unfold presentTokens negatedIfPresent
  cases ts with
  | nil => rfl
  | cons t ts =>
      have hne := mt (spell_eq_empty_iff (t :: ts) st).mp (by simp)
      rw [List.isEmpty_cons, if_neg (by simp), if_pos hne, spell_negatedTokens]

/-- Filtering out the empty texts is filtering out the empty sequences. -/
theorem spellAll_filter (tss : List Tokens) (st : SymbolTable) :
    spellAll (tss.filter fun ts => !ts.isEmpty) st =
      ((spellAll tss st).1.filter (· ≠ ""), (spellAll tss st).2) := by
  induction tss generalizing st with
  | nil => rfl
  | cons ts tss ih =>
      cases ts with
      | nil => simpa [spellAll, spell] using ih st
      | cons t ts =>
          have hne := mt (spell_eq_empty_iff (t :: ts) st).mp (by simp)
          simp [spellAll, ih, hne]

/-- One step of every partial rendering of an AND. -/
theorem spell_andPart {parts : Alias (List String)} {tss : List Tokens}
    (h : ∀ st, parts st = spellAll tss st) (negate parens : Bool) (st : SymbolTable) :
    spell (presentTokens negate
        (groupedTokens parens (join .and (tss.filter fun ts => !ts.isEmpty)))) st =
      (negatedIfPresent negate
        (parenthesised parens (joinWith " AND " ((parts st).1.filter (· ≠ "")))),
        (parts st).2) := by
  rw [spell_presentTokens, spell_groupedTokens, spell_join_and, spellAll_filter, h]

/-- What the three partial renderings share: `all` renders a list of children
one after the other, and an AND joins what is left of them. -/
structure Renders (q : Part) (render : LogicalExpression → Alias String)
    (all : List LogicalExpression → Alias (List String)) : Prop where
  leaf : ∀ negate parens l st,
    render (.leaf negate parens l) st = spell (part q (.leaf negate parens l)) st
  or : ∀ negate parens es st, Grown (.or negate parens es) →
    render (.or negate parens es) st = spell (part q (.or negate parens es)) st
  and : ∀ negate parens es st,
    render (.and negate parens es) st =
      (negatedIfPresent negate
        (parenthesised parens (joinWith " AND " ((all es st).1.filter (· ≠ "")))), (all es st).2)
  nil : ∀ st, all [] st = ([], st)
  cons : ∀ e es st, all (e :: es) st =
    ((render e st).1 :: (all es (render e st).2).1, (all es (render e st).2).2)

theorem Renders.eq_spell {q : Part} {render : LogicalExpression → Alias String}
    {all : List LogicalExpression → Alias (List String)} (h : Renders q render all)
    (e : LogicalExpression) (hg : Grown e) (st : SymbolTable) :
    render e st = spell (e.part q) st := by
  induction e using induct generalizing st with
  | leaf negate parens l => exact h.leaf negate parens l st
  | or negate parens es ih => exact h.or negate parens es st hg
  | and negate parens es ih =>
      cases hg with
      | and size children grouped bare =>
          have hall : ∀ st, all es st = spellAll (partAll q es) st := by
            clear size grouped bare
            induction es with
            | nil => exact h.nil
            | cons e es ihes =>
                intro st
                have hhead := ih e (by simp) (children e (by simp)) st
                have htail := ihes (fun e he => ih e (List.mem_cons_of_mem _ he))
                  (fun e he => children e (List.mem_cons_of_mem _ he))
                simp [h.cons, partAll, spellAll, hhead, htail]
          rw [part, spell_andPart hall, h.and]

theorem renders_keyCondition (ks : KeySchemaView) :
    Renders (keyConditionPart ks) (queryKeyConditionExpression ks) (queryKeyConditionAll ks) where
  leaf negate parens l st := by
    cases hk : l.inKeyCondition ks negate with
    | false =>
        simp [queryKeyConditionExpression, doQueryKeyConditionExpression, part, keyConditionPart,
          Leaf.doQueryKeyConditionExpression, hk, spell, negatedIfPresent]
    | true =>
        simp only [part, keyConditionPart, hk, if_true, ← serialize_eq]
        simp [queryKeyConditionExpression, doQueryKeyConditionExpression, serialize, doSerialize,
          Leaf.doQueryKeyConditionExpression, hk, negatedIfPresent, Leaf.doSerialize_ne_empty]
  or negate parens es st hg := rfl
  and negate parens es st := rfl
  nil st := rfl
  cons e es st := rfl

theorem join_tokensAll_ne_nil (sep : Token Leaf) {es : List LogicalExpression}
    (h : 2 ≤ es.length) : join sep (tokensAll es) ≠ [] := by
  match es, h with
  | e :: f :: rest, _ => simp [tokensAll, join]

theorem Grown.tokens_ne_nil {e : LogicalExpression} (h : Grown e) : e.tokens ≠ [] := by
  cases h with
  | leaf negate parens l => cases negate <;> simp [tokens, negatedTokens]
  | @and negate parens es size children grouped bare =>
      have hne := join_tokensAll_ne_nil .and size
      cases negate <;> cases parens <;> simp [tokens, negatedTokens, groupedTokens, hne]
  | @or negate parens es size children grouped bare =>
      have hne := join_tokensAll_ne_nil .or size
      cases negate <;> cases parens <;> simp [tokens, negatedTokens, groupedTokens, hne]

theorem Grown.doSerialize_ne_empty {e : LogicalExpression} (h : Grown e) (st : SymbolTable) :
    (e.doSerialize st).1 ≠ "" := by
  intro hempty
  cases h with
  | leaf negate parens l => exact l.doSerialize_ne_empty st hempty
  | @and negate parens es size children grouped bare =>
      have hspell := serialize_eq (.and false parens es) st
      have hne := mt (spell_eq_empty_iff _ st).mp
        (Grown.and size children grouped (by simp) : Grown (.and false parens es)).tokens_ne_nil
      rw [← hspell] at hne
      exact hne hempty
  | @or negate parens es size children grouped bare =>
      have hspell := serialize_eq (.or false parens es) st
      have hne := mt (spell_eq_empty_iff _ st).mp
        (Grown.or size children grouped (by simp) : Grown (.or false parens es)).tokens_ne_nil
      rw [← hspell] at hne
      exact hne hempty

/-- On a whole tree the wrapper of the partial renderings is that of the full
one. -/
theorem Grown.negatedIfPresent_eq {e : LogicalExpression} (h : Grown e) (st : SymbolTable) :
    negatedIfPresent e.isNegated (e.doSerialize st).1 = (e.serialize st).1 := by
  simp [negatedIfPresent, h.doSerialize_ne_empty, serialize]

theorem renders_filter (ks : KeySchemaView) :
    Renders (filterPart ks) (queryFilterExpression ks) (queryFilterAll ks) where
  leaf negate parens l st := by
    cases hk : l.inFilter ks negate with
    | false =>
        simp [queryFilterExpression, doQueryFilterExpression, part, filterPart,
          Leaf.doQueryFilterExpression, hk, spell, negatedIfPresent]
    | true =>
        simp only [part, filterPart, hk, if_true, ← serialize_eq]
        simp [queryFilterExpression, doQueryFilterExpression, serialize, doSerialize,
          Leaf.doQueryFilterExpression, hk, negatedIfPresent, Leaf.doSerialize_ne_empty]
  or negate parens es st hg := by
    have hwrap := hg.negatedIfPresent_eq st
    simp only [isNegated] at hwrap
    simp only [part, filterPart, if_true, ← serialize_eq]
    simp only [queryFilterExpression, doQueryFilterExpression, isNegated, Alias.bind_apply,
      Alias.pure_apply, hwrap]
    rfl
  and negate parens es st := rfl
  nil st := rfl
  cons e es st := rfl

theorem Grown.serialize_ne_empty {e : LogicalExpression} (h : Grown e) (st : SymbolTable) :
    (e.serialize st).1 ≠ "" := by
  rw [serialize_eq]
  exact mt (spell_eq_empty_iff _ st).mp h.tokens_ne_nil

theorem filter_serializeAll {es : List LogicalExpression} (h : ∀ e ∈ es, Grown e)
    (st : SymbolTable) :
    (serializeAll es st).1.filter (· ≠ "") = (serializeAll es st).1 := by
  induction es generalizing st with
  | nil => rfl
  | cons e es ih =>
      have hhead := (h e (by simp)).serialize_ne_empty st
      have htail := ih fun e he => h e (List.mem_cons_of_mem _ he)
      simp only [serialize, Alias.bind_apply, Alias.pure_apply] at hhead
      simp only [serializeAll, Alias.bind_apply, Alias.pure_apply]
      rw [List.filter_cons_of_pos (by simpa using hhead), htail]

/-- The children of a connective below an OR, rendered in turn. -/
theorem updateDeleteConditionAll_below {es : List LogicalExpression} (pk rk : String)
    (h : ∀ e ∈ es, ∀ st, e.updateDeleteConditionCheck pk rk false st = e.serialize st)
    (st : SymbolTable) : updateDeleteConditionAll pk rk false es st = serializeAll es st := by
  induction es generalizing st with
  | nil => rfl
  | cons e es ih =>
      have hhead := h e (by simp) st
      have htail := ih fun e he => h e (List.mem_cons_of_mem _ he)
      simp only [updateDeleteConditionCheck, serialize, Alias.bind_apply, Alias.pure_apply] at hhead
      obtain ⟨htext, hstate⟩ := Prod.mk.inj hhead
      simp [updateDeleteConditionAll, serializeAll, htail, htext, hstate]

/-- Below an OR the residual condition is the whole subtree. -/
theorem Grown.updateDeleteConditionCheck_below {e : LogicalExpression} (pk rk : String)
    (h : Grown e) (st : SymbolTable) :
    e.updateDeleteConditionCheck pk rk false st = e.serialize st := by
  induction e using induct generalizing st with
  | leaf negate parens l =>
      simp [updateDeleteConditionCheck, doUpdateDeleteConditionCheck, serialize, doSerialize,
        Leaf.doUpdateDeleteConditionCheck, negatedIfPresent, Leaf.doSerialize_ne_empty]
  | and negate parens es ih =>
      have hwrap := h.negatedIfPresent_eq st
      cases h with
      | and size children grouped bare =>
          have hall := updateDeleteConditionAll_below pk rk fun e he => ih e he (children e he)
          have hfilter := filter_serializeAll children st
          simp only [updateDeleteConditionCheck, doUpdateDeleteConditionCheck, hall,
            Alias.bind_apply, Alias.pure_apply, hfilter]
          exact Prod.ext hwrap rfl
  | or negate parens es ih =>
      have hwrap := h.negatedIfPresent_eq st
      cases h with
      | or size children grouped bare =>
          have hall := updateDeleteConditionAll_below pk rk fun e he => ih e he (children e he)
          have hfilter := filter_serializeAll children st
          simp only [updateDeleteConditionCheck, doUpdateDeleteConditionCheck, hall,
            Alias.bind_apply, Alias.pure_apply, hfilter]
          exact Prod.ext hwrap rfl

theorem renders_condition (pk rk : String) :
    Renders (conditionPart pk rk) (updateDeleteConditionCheck pk rk true)
      (updateDeleteConditionAll pk rk true) where
  leaf negate parens l st := by
    cases hk : l.inCondition pk rk negate with
    | false =>
        simp [updateDeleteConditionCheck, doUpdateDeleteConditionCheck, part, conditionPart,
          Leaf.doUpdateDeleteConditionCheck, hk, spell, negatedIfPresent]
    | true =>
        simp only [part, conditionPart, hk, if_true, ← serialize_eq]
        simp [updateDeleteConditionCheck, doUpdateDeleteConditionCheck, serialize, doSerialize,
          Leaf.doUpdateDeleteConditionCheck, hk, negatedIfPresent, Leaf.doSerialize_ne_empty]
  or negate parens es st hg := by
    simp only [part, conditionPart, if_true, ← serialize_eq,
      ← hg.updateDeleteConditionCheck_below pk rk]
    rfl
  and negate parens es st := rfl
  nil st := rfl
  cons e es st := rfl

end LogicalExpression

end DdbShell
