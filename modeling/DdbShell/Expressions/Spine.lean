import DdbShell.Expressions.Where
import DdbShell.Lib.Maps

/-!
The leaves outside every OR. The key probes look at these alone: `countGudKey`
counts the key equalities among them and `getGudKey` collects the first one
for each name. Neither looks at the negation of the ANDs on the way down.
-/

namespace DdbShell

namespace KeyMap

/-- Inserting a range keeps what is there and adds the rest. -/
theorem insertRange_getElem? (rv part : KeyMap) (k : String) :
    (insertRange rv part)[k]? = rv[k]?.or part[k]? := by
  rw [insertRange, Maps.foldl_insertIfNew_getElem?, Maps.lookup_toList]

end KeyMap

namespace LogicalExpression

mutual

/-- The leaves outside every OR, each with its own negation, left to right. -/
def spine : LogicalExpression → List (Bool × Leaf)
  | .leaf negate _ l => [(negate, l)]
  | .and _ _ exprlist => spineAll exprlist
  | .or .. => []

def spineAll : List LogicalExpression → List (Bool × Leaf)
  | [] => []
  | e :: es => e.spine ++ spineAll es

end

theorem spineAll_eq_flatMap (es : List LogicalExpression) : spineAll es = es.flatMap spine := by
  induction es with
  | nil => rfl
  | cons e es ih => rw [spineAll, ih, List.flatMap_cons]

theorem mem_spineAll {es : List LogicalExpression} {s : Bool × Leaf} :
    s ∈ spineAll es ↔ ∃ e ∈ es, s ∈ e.spine := by
  rw [spineAll_eq_flatMap, List.mem_flatMap]

/-- A non-negated `=` on the given name. -/
def isKeyEquality (name : String) (s : Bool × Leaf) : Bool :=
  leafCountGudKey name s.1 s.2 = 1

theorem isKeyEquality_iff {name : String} {s : Bool × Leaf} :
    isKeyEquality name s = true ↔ ∃ rhs, s = (false, ⟨name, .comparison .equal rhs⟩) := by
  obtain ⟨negate, lhs, p⟩ := s
  cases p with
  | comparison op rhs =>
      simp only [isKeyEquality, leafCountGudKey, Bool.not_eq_true', decide_eq_true_eq,
        ite_eq_left_iff, Nat.zero_ne_one, imp_false, Decidable.not_not, Prod.mk.injEq,
        Leaf.mk.injEq, Predicate.comparison.injEq]
      constructor
      · rintro ⟨rfl, rfl, rfl⟩
        exact ⟨rhs, rfl, rfl, rfl, rfl⟩
      · rintro ⟨w, rfl, rfl, rfl, rfl⟩
        exact ⟨rfl, rfl, rfl⟩
  | _ => simp [isKeyEquality, leafCountGudKey]

theorem leafCountGudKey_eq (name : String) (negate : Bool) (l : Leaf) :
    leafCountGudKey name negate l = if isKeyEquality name (negate, l) then 1 else 0 := by
  obtain ⟨lhs, p⟩ := l
  cases p with
  | comparison op rhs => by_cases h : lhs = name ∧ negate = false ∧ op = .equal <;>
      simp [isKeyEquality, leafCountGudKey, h]
  | _ => rfl

theorem countGudKey_eq_countP (name : String) (e : LogicalExpression) :
    e.countGudKey name = e.spine.countP (isKeyEquality name) := by
  induction e using induct with
  | leaf negate parens l =>
      rw [countGudKey, spine, leafCountGudKey_eq, List.countP_singleton]
  | and negate parens es ih =>
      rw [countGudKey, spine]
      induction es with
      | nil => rfl
      | cons e es ihes =>
          have htail := ihes fun e he => ih e (List.mem_cons_of_mem _ he)
          rw [countGudKeyAll, spineAll, List.countP_append, ih e (by simp), htail]
  | or negate parens es ih => rfl

/-- The value a spine leaf gives the key attribute `name`. -/
def keyValue (pk rk name : String) (s : Bool × Leaf) : Option Value :=
  if name = pk ∨ name = rk then
    match s.2.predicate with
    | .comparison _ rhs => if isKeyEquality name s then some rhs else none
    | _ => none
  else none

theorem leafGetGudKey_getElem? (pk rk name : String) (negate : Bool) (l : Leaf) :
    (leafGetGudKey pk rk negate l)[name]? = keyValue pk rk name (negate, l) := by
  obtain ⟨lhs, p⟩ := l
  cases p with
  | comparison op rhs =>
      by_cases hgud : (lhs = pk ∨ lhs = rk) ∧ negate = false ∧ op = .equal
      · obtain ⟨hname, rfl, rfl⟩ := hgud
        have hcount : leafCountGudKey pk false ⟨lhs, .comparison .equal rhs⟩ ≠ 0 ∨
            leafCountGudKey rk false ⟨lhs, .comparison .equal rhs⟩ ≠ 0 := by
          rcases hname with rfl | rfl <;> simp [leafCountGudKey]
        simp only [leafGetGudKey]
        rw [if_pos hcount, Std.TreeMap.getElem?_insertIfNew]
        by_cases hlhs : lhs = name
        · subst hlhs
          simp [keyValue, isKeyEquality, leafCountGudKey, hname]
        · simp [keyValue, isKeyEquality, leafCountGudKey, hlhs]
      · have hcount : ¬ (leafCountGudKey pk negate ⟨lhs, .comparison op rhs⟩ ≠ 0 ∨
            leafCountGudKey rk negate ⟨lhs, .comparison op rhs⟩ ≠ 0) := by
          simp only [leafCountGudKey]
          grind
        simp only [leafGetGudKey]
        rw [if_neg hcount]
        simp only [keyValue, isKeyEquality, leafCountGudKey]
        grind
  | _ => simp [leafGetGudKey, keyValue]

theorem getGudKeyAll_getElem? {pk rk name : String} {es : List LogicalExpression}
    (h : ∀ e ∈ es, (e.getGudKey pk rk)[name]? = e.spine.findSome? (keyValue pk rk name))
    (rv : KeyMap) :
    (getGudKeyAll pk rk rv es)[name]? =
      rv[name]?.or ((spineAll es).findSome? (keyValue pk rk name)) := by
  induction es generalizing rv with
  | nil => simp [getGudKeyAll, spineAll]
  | cons e es ih =>
      rw [getGudKeyAll, ih (fun e he => h e (List.mem_cons_of_mem _ he)),
        KeyMap.insertRange_getElem?, h e (by simp), spineAll, List.findSome?_append,
        Option.or_assoc]

/-- The key of a single-item request binds each key attribute to the first
equality on it. -/
theorem getGudKey_getElem? (pk rk name : String) (e : LogicalExpression) :
    (e.getGudKey pk rk)[name]? = e.spine.findSome? (keyValue pk rk name) := by
  induction e using induct with
  | leaf negate parens l =>
      rw [getGudKey, spine, leafGetGudKey_getElem?]
      simp
  | and negate parens es ih =>
      rw [getGudKey, spine, getGudKeyAll_getElem? ih]
      simp
  | or negate parens es ih =>
      rw [getGudKey, spine]
      simp

end LogicalExpression

end DdbShell
