import DdbShell.Planner.Reordering

/-!
The three spellings of "is not": `a <> v`, `a != v` and `NOT (a = v)`. The first
stays a `<>` leaf, the others become a `=` leaf with its negation turned. The
trees have the same shape and say the same of every item, but the probes look at
the operator and at the negation of a leaf, and so does the rule by which a
write leaves key predicates out of its condition.
-/

namespace DdbShell

open Infix (Token Prec truth)
open LogicalExpression

/-! ### The leaves -/

/-- A `<>` leaf as the other spellings build it. -/
def respell : Bool × Leaf → Bool × Leaf
  | (negate, ⟨lhs, .comparison .notEqual rhs⟩) => (!negate, ⟨lhs, .comparison .equal rhs⟩)
  | s => s

/-- The second leaf is the first, or the first respelled. -/
def LeafMatches (s t : Bool × Leaf) : Prop := t = s ∨ t = respell s

theorem respell_lhs (s : Bool × Leaf) : (respell s).2.lhs = s.2.lhs := by
  unfold respell
  split <;> rfl

theorem LeafMatches.lhs {s t : Bool × Leaf} (h : LeafMatches s t) : t.2.lhs = s.2.lhs := by
  rcases h with rfl | rfl
  · rfl
  · exact respell_lhs s

theorem LeafMatches.negate {n n' : Bool} {l l' : Leaf} (h : LeafMatches (n, l) (n', l')) :
    LeafMatches (!n, l) (!n', l') := by
  rcases h with h | h
  · cases h
    exact .inl rfl
  · right
    unfold respell at h ⊢
    split at h
    · rename_i heq
      cases heq
      cases h
      rfl
    · rename_i hne
      cases h
      split
      · rename_i heq
        cases heq
        exact absurd rfl (hne n _ _)
      · rfl

/-- A leaf that was respelled was a `<>`. -/
theorem LeafMatches.cases_ne {s t : Bool × Leaf} (h : LeafMatches s t) (hne : s ≠ t) :
    ∃ lhs rhs, s.2 = ⟨lhs, .comparison .notEqual rhs⟩ ∧
      t = (!s.1, ⟨lhs, .comparison .equal rhs⟩) := by
  rcases h with rfl | rfl
  · exact absurd rfl hne
  · unfold respell at hne ⊢
    split
    · exact ⟨_, _, rfl, rfl⟩
    · rename_i hno
      split at hne
      · exact absurd rfl (hno _ _ _)
      · exact absurd rfl hne

/-- `<>` is the complement of `=` for the service. -/
theorem LeafMatches.spineHolds {s t : Bool × Leaf} (h : LeafMatches s t) (svc : Service)
    (item : Item) :
    spineHolds (svc.leafHolds item) s = spineHolds (svc.leafHolds item) t := by
  by_cases heq : s = t
  · rw [heq]
  · obtain ⟨lhs, rhs, hs, rfl⟩ := h.cases_ne heq
    obtain ⟨negate, l⟩ := s
    simp only at hs
    subst hs
    have hcomplement : svc.leafHolds item ⟨lhs, .comparison .notEqual rhs⟩ =
        !svc.leafHolds item ⟨lhs, .comparison .equal rhs⟩ := by
      cases hitem : item lhs <;> simp [Service.leafHolds, hitem]
    simp [LogicalExpression.spineHolds, hcomplement]

/-! ### The trees -/

/-- Trees of one shape whose leaves match. Whether a leaf stands in parentheses
is not looked at by anything. -/
inductive Matches : LogicalExpression → LogicalExpression → Prop where
  | leaf {n n' : Bool} {l l' : Leaf} (parens parens' : Bool) (h : LeafMatches (n, l) (n', l')) :
      Matches (.leaf n parens l) (.leaf n' parens' l')
  | and (negate parens : Bool) {es fs : List LogicalExpression} (hlength : es.length = fs.length)
      (h : ∀ x ∈ es.zip fs, Matches x.1 x.2) :
      Matches (.and negate parens es) (.and negate parens fs)
  | or (negate parens : Bool) {es fs : List LogicalExpression} (hlength : es.length = fs.length)
      (h : ∀ x ∈ es.zip fs, Matches x.1 x.2) : Matches (.or negate parens es) (.or negate parens fs)

namespace Matches

variable {e f e' f' : LogicalExpression}

theorem refl (e : LogicalExpression) : Matches e e := by
  have hself : ∀ {es : List LogicalExpression}, (∀ e ∈ es, Matches e e) →
      ∀ x ∈ es.zip es, Matches x.1 x.2 := by
    intro es h x hx
    obtain ⟨i, hi, rfl⟩ := List.mem_iff_getElem.mp hx
    rw [List.getElem_zip]
    exact h _ (List.getElem_mem _)
  induction e using LogicalExpression.induct with
  | leaf negate parens l => exact .leaf parens parens (.inl rfl)
  | and negate parens es ih => exact .and negate parens rfl (hself ih)
  | or negate parens es ih => exact .or negate parens rfl (hself ih)

theorem negate (h : Matches e f) : Matches e.negate f.negate := by
  cases h with
  | leaf parens parens' h => exact .leaf _ _ h.negate
  | and negate parens hlength h => exact .and _ _ hlength h
  | or negate parens hlength h => exact .or _ _ hlength h

theorem setParenGroup (h : Matches e f) : Matches e.setParenGroup f.setParenGroup := by
  cases h with
  | leaf parens parens' h => exact .leaf _ _ h
  | and negate parens hlength h => exact .and _ _ hlength h
  | or negate parens hlength h => exact .or _ _ hlength h

theorem pair {es fs : List LogicalExpression} (hlength : es.length = fs.length)
    (h : ∀ x ∈ es.zip fs, Matches x.1 x.2) (hlast : Matches e f) :
    (es ++ [e]).length = (fs ++ [f]).length ∧
      ∀ x ∈ (es ++ [e]).zip (fs ++ [f]), Matches x.1 x.2 := by
  refine ⟨by simp [hlength], ?_⟩
  rw [List.zip_append hlength]
  intro x hx
  rcases List.mem_append.mp hx with hx | hx
  · exact h x hx
  · rw [List.zip_cons_cons, List.zip_nil_left, List.mem_singleton] at hx
    rw [hx]
    exact hlast

/-- The flattening does not look at leaves. -/
theorem makeAnd (h1 : Matches e f) (h2 : Matches e' f') :
    Matches (LogicalExpression.makeAnd e e') (LogicalExpression.makeAnd f f') := by
  have htwo := @pair _ _ [e] [f] rfl
    (fun x hx => by rw [List.mem_singleton.mp hx]; exact h1) h2
  have hsplice : (e.isNegated = e'.isNegated ∧ e.isAnd ∧ e'.isAnd ∧
      !e.isParenGroup ∧ !e'.isParenGroup) ↔ (f.isNegated = f'.isNegated ∧ f.isAnd ∧ f'.isAnd ∧
      !f.isParenGroup ∧ !f'.isParenGroup) := by
    cases h1 <;> cases h2 <;> simp [isNegated, LogicalExpression.isAnd, isParenGroup]
  have happend : (!e.isNegated ∧ e.isAnd) ↔ (!f.isNegated ∧ f.isAnd) := by
    cases h1 <;> simp [isNegated, LogicalExpression.isAnd]
  unfold LogicalExpression.makeAnd
  split
  · rename_i hcond
    rw [if_pos (hsplice.mp hcond)]
    cases h1 with
    | leaf parens parens' h => cases hcond.2.1
    | or negate parens hlength h => cases hcond.2.1
    | and negate parens hlength h =>
        cases h2 with
        | leaf parens parens' h => cases hcond.2.2.1
        | or negate parens hlength h => cases hcond.2.2.1
        | and negate2 parens2 hlength2 h2 =>
            apply Matches.and
            · simp [hlength, hlength2, exprlist]
            · rw [List.zip_append hlength]
              intro x hx
              exact (List.mem_append.mp hx).elim (h x) (h2 x)
  · rename_i hcond
    rw [if_neg (mt hsplice.mpr hcond)]
    split
    · rename_i hcond
      rw [if_pos (happend.mp hcond)]
      cases h1 with
      | leaf parens parens' h => cases hcond.2
      | or negate parens hlength h => cases hcond.2
      | and negate parens hlength h =>
          have hpair := pair hlength h h2
          exact .and _ _ hpair.1 hpair.2
    · rename_i hcond
      rw [if_neg (mt happend.mpr hcond)]
      exact .and _ _ htwo.1 htwo.2

theorem makeOr (h1 : Matches e f) (h2 : Matches e' f') :
    Matches (LogicalExpression.makeOr e e') (LogicalExpression.makeOr f f') := by
  have htwo := @pair _ _ [e] [f] rfl
    (fun x hx => by rw [List.mem_singleton.mp hx]; exact h1) h2
  have hsplice : (e.isNegated = e'.isNegated ∧ e.isOr ∧ e'.isOr ∧
      !e.isParenGroup ∧ !e'.isParenGroup) ↔ (f.isNegated = f'.isNegated ∧ f.isOr ∧ f'.isOr ∧
      !f.isParenGroup ∧ !f'.isParenGroup) := by
    cases h1 <;> cases h2 <;> simp [isNegated, LogicalExpression.isOr, isParenGroup]
  have happend : (!e.isNegated ∧ e.isOr) ↔ (!f.isNegated ∧ f.isOr) := by
    cases h1 <;> simp [isNegated, LogicalExpression.isOr]
  unfold LogicalExpression.makeOr
  split
  · rename_i hcond
    rw [if_pos (hsplice.mp hcond)]
    cases h1 with
    | leaf parens parens' h => cases hcond.2.1
    | and negate parens hlength h => cases hcond.2.1
    | or negate parens hlength h =>
        cases h2 with
        | leaf parens parens' h => cases hcond.2.2.1
        | and negate parens hlength h => cases hcond.2.2.1
        | or negate2 parens2 hlength2 h2 =>
            apply Matches.or
            · simp [hlength, hlength2, exprlist]
            · rw [List.zip_append hlength]
              intro x hx
              exact (List.mem_append.mp hx).elim (h x) (h2 x)
  · rename_i hcond
    rw [if_neg (mt hsplice.mpr hcond)]
    split
    · rename_i hcond
      rw [if_pos (happend.mp hcond)]
      cases h1 with
      | leaf parens parens' h => cases hcond.2
      | and negate parens hlength h => cases hcond.2
      | or negate parens hlength h =>
          have hpair := pair hlength h h2
          exact .or _ _ hpair.1 hpair.2
    · rename_i hcond
      rw [if_neg (mt happend.mpr hcond)]
      exact .or _ _ htwo.1 htwo.2

end Matches

/-! ### The clauses -/

/-- The second clause is the first with some `<>` comparisons written as `!=`
or as NOT of `=`. -/
inductive Respelled : {p : Prec} → SourceExpr p → SourceExpr p → Prop where
  | same (e : Element) : Respelled (.element e) (.element e)
  | bang (lhs : String) (rhs : Value) :
      Respelled (.element (.comparison lhs (.op .notEqual) rhs))
        (.element (.comparison lhs .bangEqual rhs))
  | notEqual (lhs : String) (rhs : Value) :
      Respelled (.element (.comparison lhs (.op .notEqual) rhs))
        (.not (.paren (.ofAnd (.ofNot (.element (.comparison lhs (.op .equal) rhs))))))
  | sizeBang (lhs : String) (rhs : Value) :
      Respelled (.element (.size lhs (.op .notEqual) rhs)) (.element (.size lhs .bangEqual rhs))
  | sizeNotEqual (lhs : String) (rhs : Value) :
      Respelled (.element (.size lhs (.op .notEqual) rhs))
        (.not (.paren (.ofAnd (.ofNot (.element (.size lhs (.op .equal) rhs))))))
  | not {c d : SourceExpr .not} (h : Respelled c d) : Respelled (.not c) (.not d)
  | paren {c d : SourceExpr .or} (h : Respelled c d) : Respelled (.paren c) (.paren d)
  | ofNot {c d : SourceExpr .not} (h : Respelled c d) : Respelled (.ofNot c) (.ofNot d)
  | ofAnd {c d : SourceExpr .and} (h : Respelled c d) : Respelled (.ofAnd c) (.ofAnd d)
  | and {c d : SourceExpr .and} {c' d' : SourceExpr .not} (h : Respelled c d)
      (h' : Respelled c' d') : Respelled (.and c c') (.and d d')
  | or {c d : SourceExpr .or} {c' d' : SourceExpr .and} (h : Respelled c d)
      (h' : Respelled c' d') : Respelled (.or c c') (.or d d')

/-- Respelled clauses are built to matching trees. -/
theorem Respelled.matches_build {p : Prec} {c d : SourceExpr p} (h : Respelled c d) :
    Matches c.build d.build := by
  induction h with
  | same e => exact .refl _
  | bang lhs rhs => exact .leaf _ _ (.inr rfl)
  | notEqual lhs rhs => exact .leaf _ _ (.inr rfl)
  | sizeBang lhs rhs => exact .leaf _ _ (.inr rfl)
  | sizeNotEqual lhs rhs => exact .leaf _ _ (.inr rfl)
  | not h ih => exact ih.negate
  | paren h ih => exact ih.setParenGroup
  | ofNot h ih => exact ih
  | ofAnd h ih => exact ih
  | and h h' ih ih' => exact ih.makeAnd ih'
  | or h h' ih ih' => exact ih.makeOr ih'

/-! ### What the probes see -/

namespace LogicalExpression

mutual

/-- The leaves under the ORs. -/
def orLeaves : LogicalExpression → List Leaf
  | .leaf .. => []
  | .and _ _ exprlist => orLeavesAll exprlist
  | .or _ _ exprlist => leavesAll exprlist

def orLeavesAll : List LogicalExpression → List Leaf
  | [] => []
  | e :: es => e.orLeaves ++ orLeavesAll es

end

theorem orLeavesAll_eq_flatMap (es : List LogicalExpression) :
    orLeavesAll es = es.flatMap orLeaves := by
  induction es with
  | nil => rfl
  | cons e es ih => rw [orLeavesAll, ih, List.flatMap_cons]

theorem leafQuerySafe_of_not_contains {ks : KeySchemaView} {l : Leaf}
    (h : l.lhs ∉ ks.pk ∧ l.lhs ∉ ks.sk) (negate : Bool) : leafQuerySafe ks negate l = true := by
  obtain ⟨lhs, p⟩ := l
  cases p <;> simp [leafQuerySafe, h.1, h.2]

theorem querySafe_of_not_contains {ks : KeySchemaView} {e : LogicalExpression}
    (h : ∀ l ∈ e.leaves, l.lhs ∉ ks.pk ∧ l.lhs ∉ ks.sk) : e.querySafe ks = true := by
  have hchildren : ∀ es : List LogicalExpression, (∀ e ∈ es,
      (∀ l ∈ e.leaves, l.lhs ∉ ks.pk ∧ l.lhs ∉ ks.sk) → e.querySafe ks = true) →
      (∀ l ∈ leavesAll es, l.lhs ∉ ks.pk ∧ l.lhs ∉ ks.sk) → querySafeAll ks es = true := by
    intro es ih hes
    rw [querySafeAll_eq_all, List.all_eq_true]
    intro e he
    apply ih e he
    intro l hl
    apply hes
    rw [leavesAll_eq_flatMap]
    exact List.mem_flatMap.mpr ⟨e, he, hl⟩
  induction e using induct with
  | leaf negate parens l =>
      exact leafQuerySafe_of_not_contains (h l (List.mem_singleton_self l)) negate
  | and negate parens es ih => exact hchildren es ih h
  | or negate parens es ih =>
      rw [querySafe, hchildren es ih h, Bool.and_true, Bool.and_eq_true, List.all_eq_true,
        List.all_eq_true]
      constructor
      · intro p hp
        apply decide_eq_true
        rw [countLhs_eq_countP, List.countP_eq_zero]
        intro l hl heq
        exact (h l hl).1 (of_decide_eq_true heq ▸ hp)
      · intro s hs
        apply decide_eq_true
        rw [countLhs_eq_countP, List.countP_eq_zero]
        intro l hl heq
        exact (h l hl).2 (of_decide_eq_true heq ▸ hs)

/-- Safe is: no OR mentions a key attribute, and each leaf outside the ORs is
safe. -/
theorem querySafe_iff {ks : KeySchemaView} {e : LogicalExpression} :
    e.querySafe ks = true ↔
      (∀ s ∈ e.spine, leafQuerySafe ks s.1 s.2 = true) ∧
        ∀ l ∈ e.orLeaves, l.lhs ∉ ks.pk ∧ l.lhs ∉ ks.sk := by
  induction e using induct with
  | leaf negate parens l => simp [querySafe, spine, orLeaves]
  | or negate parens es ih =>
      constructor
      · intro hsafe
        refine ⟨fun _ hmem => absurd hmem List.not_mem_nil, fun l hl => ?_⟩
        simp only [querySafe, Bool.and_eq_true, List.all_eq_true, decide_eq_true_eq,
          countLhs_eq_countP, List.countP_eq_zero] at hsafe
        exact ⟨fun hpk => hsafe.1 _ hpk l hl rfl, fun hsk => hsafe.2.1 _ hsk l hl rfl⟩
      · rintro ⟨-, hor⟩
        exact querySafe_of_not_contains hor
  | and negate parens es ih =>
      rw [querySafe, querySafeAll_eq_all, List.all_eq_true, spine, spineAll_eq_flatMap, orLeaves,
        orLeavesAll_eq_flatMap]
      simp only [List.mem_flatMap]
      constructor
      · intro hall
        constructor
        · rintro s ⟨e, he, hs⟩
          exact ((ih e he).mp (hall e he)).1 s hs
        · rintro l ⟨e, he, hl⟩
          exact ((ih e he).mp (hall e he)).2 l hl
      · rintro ⟨hspine, hor⟩ e he
        exact (ih e he).mpr ⟨fun s hs => hspine s ⟨e, he, hs⟩, fun l hl => hor l ⟨e, he, hl⟩⟩

end LogicalExpression

/-- Lists of trees that go together pairwise have the same images. -/
theorem flatMap_eq_of_zip {β : Type} {g : LogicalExpression → List β}
    {es fs : List LogicalExpression} (hlength : es.length = fs.length)
    (h : ∀ x ∈ es.zip fs, g x.1 = g x.2) : es.flatMap g = fs.flatMap g := by
  induction es generalizing fs with
  | nil =>
      obtain rfl := List.eq_nil_of_length_eq_zero hlength.symm
      rfl
  | cons e es ih =>
      cases fs with
      | nil => cases hlength
      | cons f fs =>
          rw [List.flatMap_cons, List.flatMap_cons, h (e, f) (by simp),
            ih (by simpa using hlength) fun x hx => h x (List.mem_cons_of_mem _ hx)]

/-- The leaves outside the ORs, side by side. -/
def spinePairs (e f : LogicalExpression) : List ((Bool × Leaf) × (Bool × Leaf)) :=
  e.spine.zip f.spine

namespace Matches

variable {e f : LogicalExpression}

theorem leaves_lhs (h : Matches e f) : e.leaves.map Leaf.lhs = f.leaves.map Leaf.lhs := by
  have hall : ∀ es : List LogicalExpression, (leavesAll es).map Leaf.lhs =
      es.flatMap fun e => e.leaves.map Leaf.lhs := by
    intro es
    rw [leavesAll_eq_flatMap, List.map_flatMap]
  induction h with
  | leaf parens parens' h => simpa [leaves] using h.lhs.symm
  | and negate parens hlength h ih =>
      rw [leaves, leaves, hall, hall]
      exact flatMap_eq_of_zip hlength ih
  | or negate parens hlength h ih =>
      rw [leaves, leaves, hall, hall]
      exact flatMap_eq_of_zip hlength ih

theorem orLeaves_lhs (h : Matches e f) : e.orLeaves.map Leaf.lhs = f.orLeaves.map Leaf.lhs := by
  induction h with
  | leaf parens parens' h => rfl
  | and negate parens hlength h ih =>
      rw [orLeaves, orLeaves, orLeavesAll_eq_flatMap, orLeavesAll_eq_flatMap, List.map_flatMap,
        List.map_flatMap]
      exact flatMap_eq_of_zip hlength ih
  | or negate parens hlength h ih => exact (Matches.or negate parens hlength h).leaves_lhs

theorem count_eq (h : Matches e f) : e.count = f.count := by
  rw [count_eq_length, count_eq_length, ← List.length_map Leaf.lhs, h.leaves_lhs, List.length_map]

theorem countLhs_eq (h : Matches e f) (name : String) : e.countLhs name = f.countLhs name := by
  have hmap : ∀ e : LogicalExpression,
      e.countLhs name = (e.leaves.map Leaf.lhs).countP (· = name) := by
    intro e
    rw [countLhs_eq_countP, List.countP_map]
    rfl
  rw [hmap, hmap, h.leaves_lhs]

theorem sortKeyPrefix_eq (h : Matches e f) (ended : Bool) (rk : List String) :
    Where.sortKeyPrefix e ended rk = Where.sortKeyPrefix f ended rk := by
  induction rk generalizing ended with
  | nil => rfl
  | cons s rest ih => simp only [Where.sortKeyPrefix, h.countLhs_eq, ih]

/-- The leaves outside the ORs match one by one. -/
theorem spine (h : Matches e f) :
    e.spine.length = f.spine.length ∧ ∀ x ∈ spinePairs e f, LeafMatches x.1 x.2 := by
  have hall : ∀ {es fs : List LogicalExpression}, es.length = fs.length →
      (∀ x ∈ es.zip fs, x.1.spine.length = x.2.spine.length ∧
        ∀ y ∈ spinePairs x.1 x.2, LeafMatches y.1 y.2) →
      (spineAll es).length = (spineAll fs).length ∧
        ∀ y ∈ (spineAll es).zip (spineAll fs), LeafMatches y.1 y.2 := by
    intro es fs hlength hpairs
    induction es generalizing fs with
    | nil =>
        obtain rfl := List.eq_nil_of_length_eq_zero hlength.symm
        exact ⟨rfl, fun _ hmem => absurd hmem List.not_mem_nil⟩
    | cons e es ih =>
        cases fs with
        | nil => cases hlength
        | cons f fs =>
            obtain ⟨hlen, hmatch⟩ := hpairs (e, f) (by simp)
            obtain ⟨hlens, hmatches⟩ := ih (by simpa using hlength) fun x hx =>
              hpairs x (List.mem_cons_of_mem _ hx)
            refine ⟨by simp [spineAll, hlen, hlens], ?_⟩
            rw [spineAll, spineAll, List.zip_append hlen]
            intro y hy
            exact (List.mem_append.mp hy).elim (hmatch y) (hmatches y)
  induction h with
  | leaf parens parens' h =>
      refine ⟨rfl, fun x hx => ?_⟩
      rw [List.mem_singleton.mp hx]
      exact h
  | and negate parens hlength h ih => exact hall hlength ih
  | or negate parens hlength h ih => exact ⟨rfl, fun _ hmem => absurd hmem List.not_mem_nil⟩

end Matches

/-! ### What a respelling changes -/

/-- The `<>` leaves outside every OR that were respelled, as they were. -/
def changes (e f : LogicalExpression) : List (Bool × Leaf) :=
  ((spinePairs e f).filter fun x => x.1 ≠ x.2).map Prod.fst

/-- A negated `<>` on one of the names became an equality. -/
def gains (names : List String) (e f : LogicalExpression) : Bool :=
  (changes e f).any fun s => s.1 && names.contains s.2.lhs

/-- A `<>` on one of the names became a negated equality. -/
def loses (names : List String) (e f : LogicalExpression) : Bool :=
  (changes e f).any fun s => !s.1 && names.contains s.2.lhs

namespace Matches

variable {e f : LogicalExpression}

theorem gains_eq_false_iff {names : List String} : gains names e f = false ↔
    ∀ x ∈ spinePairs e f, x.1 ≠ x.2 → x.1.1 = true → x.1.2.lhs ∉ names := by
  simp [gains, changes, List.any_eq_false]

theorem loses_eq_false_iff {names : List String} : loses names e f = false ↔
    ∀ x ∈ spinePairs e f, x.1 ≠ x.2 → x.1.1 = false → x.1.2.lhs ∉ names := by
  simp [loses, changes, List.any_eq_false]

/-- The equalities on a name are those there were and those that were gained. -/
theorem countGudKey_eq (h : Matches e f) (name : String) :
    f.countGudKey name = e.countGudKey name +
      (changes e f).countP fun s => s.1 && decide (s.2.lhs = name) := by
  obtain ⟨hlength, hmatch⟩ := h.spine
  rw [countGudKey_eq_countP, countGudKey_eq_countP, changes]
  unfold spinePairs at hmatch ⊢
  generalize e.spine = ss at hlength hmatch
  generalize f.spine = ts at hlength hmatch
  induction ss generalizing ts with
  | nil =>
      obtain rfl := List.eq_nil_of_length_eq_zero hlength.symm
      rfl
  | cons s ss ih =>
      cases ts with
      | nil => cases hlength
      | cons t ts =>
          have htail := ih ts (by simpa using hlength) fun x hx =>
            hmatch x (List.mem_cons_of_mem _ hx)
          have hhead : LeafMatches s t := hmatch (s, t) (by simp)
          by_cases heq : s = t
          · subst heq
            simp only [List.zip_cons_cons, List.countP_cons, List.filter_cons, ne_eq,
              not_true_eq_false, decide_false, Bool.false_eq_true, if_false, htail]
            omega
          · obtain ⟨lhs, rhs, hs, rfl⟩ := hhead.cases_ne heq
            obtain ⟨negate, l⟩ := s
            simp only at hs
            subst hs
            have hbefore :
                isKeyEquality name (negate, ⟨lhs, .comparison .notEqual rhs⟩) = false := by
              simp [isKeyEquality, leafCountGudKey]
            have hafter : isKeyEquality name (!negate, ⟨lhs, .comparison .equal rhs⟩) =
                (negate && decide (lhs = name)) := by
              by_cases hname : lhs = name <;> cases negate <;>
                simp [isKeyEquality, leafCountGudKey, hname]
            simp only [List.zip_cons_cons, List.countP_cons, List.filter_cons, heq, ne_eq,
              not_false_eq_true, decide_true, if_true, List.map_cons, hbefore, hafter, htail,
              Bool.false_eq_true, if_false]
            omega

/-- No gain on a name leaves its equalities as they were. -/
theorem countGudKey_of_gains (h : Matches e f) {names : List String} {name : String}
    (hname : name ∈ names) (hgains : gains names e f = false) :
    f.countGudKey name = e.countGudKey name := by
  rw [h.countGudKey_eq, Nat.add_eq_left, List.countP_eq_zero]
  intro s hs hcount
  rw [Bool.and_eq_true, decide_eq_true_eq] at hcount
  have hany := List.any_eq_false.mp hgains s hs
  rw [hcount.1, Bool.true_and, hcount.2] at hany
  exact hany (List.contains_iff_mem.mpr hname)

/-- A gain shows in the count of one of the names. -/
theorem gains_of_countGudKey (h : Matches e f) {names : List String}
    (hnames : ∀ name ∈ names, f.countGudKey name = e.countGudKey name) :
    gains names e f = false := by
  apply List.any_eq_false.mpr
  intro s hs hgain
  rw [Bool.and_eq_true, List.contains_iff_mem] at hgain
  have hzero := hnames _ hgain.2
  rw [h.countGudKey_eq, Nat.add_eq_left, List.countP_eq_zero] at hzero
  exact hzero s hs (by simp [hgain.1])

/-- Away from the changes a leaf outside the ORs is as safe as before. -/
theorem querySafe_eq (h : Matches e f) {ks : KeySchemaView}
    (hspine : ∀ x ∈ spinePairs e f,
      leafQuerySafe ks x.1.1 x.1.2 = leafQuerySafe ks x.2.1 x.2.2) :
    e.querySafe ks = f.querySafe ks := by
  obtain ⟨hlength, -⟩ := h.spine
  have hor : (∀ l ∈ e.orLeaves, l.lhs ∉ ks.pk ∧ l.lhs ∉ ks.sk) ↔
      ∀ l ∈ f.orLeaves, l.lhs ∉ ks.pk ∧ l.lhs ∉ ks.sk := by
    have hmap := h.orLeaves_lhs
    have hnames : ∀ e : LogicalExpression, (∀ l ∈ e.orLeaves, l.lhs ∉ ks.pk ∧ l.lhs ∉ ks.sk) ↔
        ∀ name ∈ e.orLeaves.map Leaf.lhs, name ∉ ks.pk ∧ name ∉ ks.sk := fun e => by simp
    rw [hnames e, hnames f, hmap]
  rw [Bool.eq_iff_iff, querySafe_iff, querySafe_iff, hor]
  refine and_congr_left fun _ => ?_
  unfold spinePairs at hspine
  rw [List.forall_mem_iff_getElem, List.forall_mem_iff_getElem]
  have hat : ∀ i (h1 : i < e.spine.length) (h2 : i < f.spine.length),
      leafQuerySafe ks e.spine[i].1 e.spine[i].2 = leafQuerySafe ks f.spine[i].1 f.spine[i].2 := by
    intro i h1 h2
    apply hspine (e.spine[i], f.spine[i])
    rw [List.mem_iff_getElem]
    exact ⟨i, by rw [List.length_zip]; omega, by simp⟩
  constructor
  · intro hall i hi
    rw [← hat i (by omega) hi]
    exact hall i (by omega)
  · intro hall i hi
    rw [hat i hi (by omega)]
    exact hall i (by omega)

/-! ### The probes -/

/-- The first attribute of each list, which is all the single-item probes
look at. -/
def itemNames (pk rk : List String) : List String := pk.take 1 ++ rk.take 1

/-- If either clause is served by a single item, no equality on the key was
gained. -/
def ItemQuiet (can : LogicalExpression → Bool) (pk rk : List String) (e f : LogicalExpression) :
    Prop :=
  can e = true ∨ can f = true → gains (itemNames pk rk) e f = false

/-- If either clause has a Query plan, no equality was gained where the plan
asks for exactly one, and no `<>` was lost on an attribute of the plan. -/
def PlanQuiet (pk rk : List String) (e f : LogicalExpression) : Prop :=
  ∀ plan, (Where.mk e).planQuery pk rk = some plan ∨ (Where.mk f).planQuery pk rk = some plan →
    gains (plan.pk ++ plan.skPrefix.dropLast) e f = false ∧
      loses (plan.pk ++ plan.skPrefix) e f = false

/-- A probe for the key of one item is unchanged exactly when no equality on
that key was gained where it could hold. -/
theorem item_eq_iff (h : Matches e f) {can : LogicalExpression → Bool} {pk rk : List String}
    (hone : ∀ e, can e = true → ∀ name ∈ itemNames pk rk, e.countGudKey name = 1)
    (hcongr : (∀ name ∈ itemNames pk rk, f.countGudKey name = e.countGudKey name) →
      can e = can f) :
    can e = can f ↔ ItemQuiet can pk rk e f := by
  constructor
  · intro heq hcan
    have hboth : can e = true ∧ can f = true := by
      rcases hcan with hcan | hcan
      · exact ⟨hcan, heq ▸ hcan⟩
      · exact ⟨heq ▸ hcan, hcan⟩
    apply h.gains_of_countGudKey
    intro name hname
    rw [hone e hboth.1 name hname, hone f hboth.2 name hname]
  · intro hquiet
    by_cases hcan : can e = true ∨ can f = true
    · apply hcongr
      intro name hname
      exact h.countGudKey_of_gains hname (hquiet hcan)
    · rw [not_or, Bool.not_eq_true, Bool.not_eq_true] at hcan
      rw [hcan.1, hcan.2]

theorem canGetitem_eq_iff (h : Matches e f) (pk rk : List String) :
    (Where.mk e).canGetitem pk rk = (Where.mk f).canGetitem pk rk ↔
      ItemQuiet (fun e => (Where.mk e).canGetitem pk rk) pk rk e f := by
  apply h.item_eq_iff
  · intro e hcan name hname
    rcases pk with _ | ⟨p, _ | ⟨q, ps⟩⟩
    · cases hcan
    · cases rk with
      | nil =>
          simp only [Where.canGetitem, Bool.and_eq_true, decide_eq_true_eq] at hcan
          obtain rfl : name = p := by simpa [itemNames] using hname
          exact hcan.2
      | cons r rest =>
          simp only [Where.canGetitem, Bool.and_eq_true, decide_eq_true_eq] at hcan
          obtain rfl | rfl : name = p ∨ name = r := by simpa [itemNames] using hname
          · exact hcan.2.1
          · exact hcan.2.2
    · cases hcan
  · intro hcount
    rcases pk with _ | ⟨p, _ | ⟨q, ps⟩⟩
    · rfl
    · cases rk with
      | nil => simp only [Where.canGetitem, h.count_eq, hcount p (by simp [itemNames])]
      | cons r rest =>
          simp only [Where.canGetitem, h.count_eq, hcount p (by simp [itemNames]),
            hcount r (by simp [itemNames])]
    · rfl

theorem canUpdateItem_eq_iff (h : Matches e f) (pk rk : List String) :
    (Where.mk e).canUpdateItem pk rk = (Where.mk f).canUpdateItem pk rk ↔
      ItemQuiet (fun e => (Where.mk e).canUpdateItem pk rk) pk rk e f := by
  apply h.item_eq_iff
  · intro e hcan name hname
    rcases pk with _ | ⟨p, _ | ⟨q, ps⟩⟩
    · cases hcan
    · cases rk with
      | nil =>
          simp only [Where.canUpdateItem, decide_eq_true_eq] at hcan
          obtain rfl : name = p := by simpa [itemNames] using hname
          exact hcan
      | cons r rest =>
          simp only [Where.canUpdateItem, Bool.and_eq_true, decide_eq_true_eq] at hcan
          obtain rfl | rfl : name = p ∨ name = r := by simpa [itemNames] using hname
          · exact hcan.1
          · exact hcan.2
    · cases hcan
  · intro hcount
    rcases pk with _ | ⟨p, _ | ⟨q, ps⟩⟩
    · rfl
    · cases rk with
      | nil => simp only [Where.canUpdateItem, hcount p (by simp [itemNames])]
      | cons r rest =>
          simp only [Where.canUpdateItem, hcount p (by simp [itemNames]),
            hcount r (by simp [itemNames])]
    · rfl

/-- What makes a plan a plan. -/
theorem planQuery_iff {w : Where} {pk rk : List String} {plan : QueryKeyPlan} :
    w.planQuery pk rk = some plan ↔
      (∀ p ∈ pk, w.root.countGudKey p = 1 ∧ w.root.countLhs p = 1) ∧
        Where.sortKeyPrefix w.root false rk = some plan.skPrefix ∧
        (∀ s ∈ plan.skPrefix.dropLast, w.root.countLhs s = 1 ∧ w.root.countGudKey s = 1) ∧
        w.root.querySafe plan.view = true ∧ plan.pk = pk := by
  constructor
  · exact Where.planQuery_spec
  · rintro ⟨hpk, hprefix, hlast, hsafe, rfl⟩
    have hpk' : (plan.pk.all fun p =>
        w.root.countGudKey p = 1 && w.root.countLhs p = 1) = true := by
      simpa using hpk
    have hlast' : (plan.skPrefix.dropLast.all fun s =>
        w.root.countLhs s = 1 && w.root.countGudKey s = 1) = true := by
      simpa using hlast
    unfold Where.planQuery
    rw [if_pos hpk', hprefix]
    simp only
    rw [if_pos hlast']
    exact if_pos hsafe

/-- A leaf that was respelled is as safe as before, unless it was a bare `<>` on
the plan, or a negated one where the plan asks for an equality. -/
theorem leafQuerySafe_eq {s t : Bool × Leaf} (hmatch : LeafMatches s t) {ks : KeySchemaView}
    (hgain : s ≠ t → s.1 = true → s.2.lhs ∉ ks.pk)
    (hlose : s ≠ t → s.1 = false → s.2.lhs ∉ ks.pk ++ ks.sk) :
    leafQuerySafe ks s.1 s.2 = leafQuerySafe ks t.1 t.2 := by
  by_cases heq : s = t
  · rw [heq]
  · obtain ⟨lhs, rhs, hs, rfl⟩ := hmatch.cases_ne heq
    have hg := hgain heq
    have hl := hlose heq
    obtain ⟨negate, l⟩ := s
    simp only at hs
    subst hs
    cases negate with
    | true => simp [leafQuerySafe, hg rfl]
    | false =>
        have hnot := hl rfl
        rw [List.mem_append, not_or] at hnot
        simp [leafQuerySafe, hnot.1, hnot.2]

theorem planQuery_of_quiet (h : Matches e f) {pk rk : List String} {plan : QueryKeyPlan}
    (hgains : gains (plan.pk ++ plan.skPrefix.dropLast) e f = false)
    (hloses : loses (plan.pk ++ plan.skPrefix) e f = false) :
    (Where.mk e).planQuery pk rk = some plan ↔ (Where.mk f).planQuery pk rk = some plan := by
  rw [planQuery_iff, planQuery_iff, h.sortKeyPrefix_eq]
  have hsafe : e.querySafe plan.view = f.querySafe plan.view := by
    apply h.querySafe_eq
    intro x hx
    apply leafQuerySafe_eq (h.spine.2 x hx)
    · intro hne hneg hmem
      exact gains_eq_false_iff.mp hgains x hx hne hneg (List.mem_append_left _ hmem)
    · exact loses_eq_false_iff.mp hloses x hx
  rw [hsafe]
  have hcount : ∀ name ∈ plan.pk ++ plan.skPrefix.dropLast,
      f.countGudKey name = e.countGudKey name :=
    fun name hname => h.countGudKey_of_gains hname hgains
  constructor
  · rintro ⟨hpk, hprefix, hlast, hsafe, rfl⟩
    refine ⟨fun p hp => ?_, hprefix, fun s hs => ?_, hsafe, rfl⟩
    · rw [hcount p (List.mem_append_left _ hp), ← h.countLhs_eq]
      exact hpk p hp
    · rw [hcount s (List.mem_append_right _ hs), ← h.countLhs_eq]
      exact hlast s hs
  · rintro ⟨hpk, hprefix, hlast, hsafe, rfl⟩
    refine ⟨fun p hp => ?_, hprefix, fun s hs => ?_, hsafe, rfl⟩
    · rw [← hcount p (List.mem_append_left _ hp), h.countLhs_eq]
      exact hpk p hp
    · rw [← hcount s (List.mem_append_right _ hs), h.countLhs_eq]
      exact hlast s hs

/-- A Query plan is unchanged exactly when the respelling is quiet for it. -/
theorem planQuery_eq_iff (h : Matches e f) (pk rk : List String) :
    (Where.mk e).planQuery pk rk = (Where.mk f).planQuery pk rk ↔ PlanQuiet pk rk e f := by
  constructor
  · intro heq plan hplan
    have hboth : (Where.mk e).planQuery pk rk = some plan ∧
        (Where.mk f).planQuery pk rk = some plan := by
      rcases hplan with hplan | hplan
      · exact ⟨hplan, heq ▸ hplan⟩
      · exact ⟨heq ▸ hplan, hplan⟩
    obtain ⟨hpk1, -, hlast1, -, rfl⟩ := Where.planQuery_spec hboth.1
    obtain ⟨hpk2, -, hlast2, hsafe, -⟩ := Where.planQuery_spec hboth.2
    constructor
    · apply h.gains_of_countGudKey
      intro name hname
      rcases List.mem_append.mp hname with hname | hname
      · exact (hpk2 name hname).1.trans (hpk1 name hname).1.symm
      · exact (hlast2 name hname).2.trans (hlast1 name hname).2.symm
    · rw [loses_eq_false_iff]
      intro x hx hne hbare hmem
      -- the negated equality it became is not safe
      obtain ⟨lhs, rhs, hs, ht⟩ := (h.spine.2 x hx).cases_ne hne
      have hspine := (querySafe_iff.mp hsafe).1 x.2 (List.of_mem_zip hx).2
      rw [hs] at hmem
      rw [ht, hbare] at hspine
      rcases List.mem_append.mp hmem with hmem | hmem
      · simp [leafQuerySafe, QueryKeyPlan.view, hmem] at hspine
      · simp [leafQuerySafe, QueryKeyPlan.view, hmem] at hspine
  · intro hquiet
    cases hplan1 : (Where.mk e).planQuery pk rk with
    | some plan =>
        have hquiet := hquiet plan (.inl hplan1)
        exact ((h.planQuery_of_quiet hquiet.1 hquiet.2).mp hplan1).symm
    | none =>
        cases hplan2 : (Where.mk f).planQuery pk rk with
        | none => rfl
        | some plan =>
            have hquiet := hquiet plan (.inr hplan2)
            rw [(h.planQuery_of_quiet hquiet.1 hquiet.2).mpr hplan2] at hplan1
            cases hplan1

/-! ### What the expressions say -/

theorem all_eq_of_zip {g : LogicalExpression → Bool} {es fs : List LogicalExpression}
    (hlength : es.length = fs.length) (h : ∀ x ∈ es.zip fs, g x.1 = g x.2) :
    es.all g = fs.all g := by
  have hflat := flatMap_eq_of_zip (g := fun e => [g e]) hlength fun x hx => by rw [h x hx]
  have hall : ∀ es : List LogicalExpression, es.all g = (es.flatMap fun e => [g e]).all id := by
    intro es
    rw [List.all_flatMap]
    simp
  rw [hall es, hall fs, hflat]

theorem any_eq_of_zip {g : LogicalExpression → Bool} {es fs : List LogicalExpression}
    (hlength : es.length = fs.length) (h : ∀ x ∈ es.zip fs, g x.1 = g x.2) :
    es.any g = fs.any g := by
  have hnot := all_eq_of_zip (g := fun e => !g e) hlength fun x hx => by rw [h x hx]
  rw [List.any_eq_not_all_not, List.any_eq_not_all_not, hnot]

section Meaning

variable (svc : Service) (item : Item)

theorem holds_eq (h : Matches e f) :
    e.holds (svc.leafHolds item) = f.holds (svc.leafHolds item) := by
  induction h with
  | leaf parens parens' h => exact h.spineHolds svc item
  | and negate parens hlength h ih =>
      rw [holds, holds, allHold_eq_all, allHold_eq_all, all_eq_of_zip hlength ih]
  | or negate parens hlength h ih =>
      rw [holds, holds, anyHolds_eq_any, anyHolds_eq_any, any_eq_of_zip hlength ih]

/-- A part that keeps a respelled leaf if it kept the `<>` says the same. -/
theorem part_eq (h : Matches e f) {q : Part}
    (hkeep : ∀ x ∈ spinePairs e f, q.keep x.1.1 x.1.2 = q.keep x.2.1 x.2.2) :
    e.vacant q = f.vacant q ∧
      e.partHolds q (svc.leafHolds item) = f.partHolds q (svc.leafHolds item) := by
  induction h with
  | @leaf n n' l l' parens parens' h =>
      have hsame : q.keep n l = q.keep n' l' := hkeep ((n, l), (n', l')) (List.mem_singleton_self _)
      have hholds : xor n (svc.leafHolds item l) = xor n' (svc.leafHolds item l') :=
        h.spineHolds svc item
      simp [vacant, partHolds, hsame, hholds]
  | or negate parens hlength h ih =>
      refine ⟨rfl, ?_⟩
      rw [partHolds, partHolds, (Matches.or negate parens hlength h).holds_eq]
  | @and negate parens es fs hlength h ih =>
      have hpairs : ∀ x ∈ es.zip fs, ∀ y ∈ spinePairs x.1 x.2,
          y ∈ spinePairs (.and negate parens es) (.and negate parens fs) := by
        clear ih hkeep
        intro x hx y hy
        show y ∈ (spineAll es).zip (spineAll fs)
        induction es generalizing fs with
        | nil => cases hx
        | cons e es ihes =>
            cases fs with
            | nil => cases hlength
            | cons f fs =>
                rw [spineAll, spineAll, List.zip_append (h (e, f) (by simp)).spine.1]
                rw [List.zip_cons_cons, List.mem_cons] at hx
                rcases hx with rfl | hx
                · exact List.mem_append_left _ hy
                · apply List.mem_append_right
                  exact ihes (by simpa using hlength)
                    (fun x hx => h x (List.mem_cons_of_mem _ hx)) hx
      have hboth := fun x hx => ih x hx fun y hy => hkeep y (hpairs x hx y hy)
      have hvacant : vacantAll q es = vacantAll q fs := by
        rw [vacantAll_eq_all, vacantAll_eq_all]
        exact all_eq_of_zip hlength fun x hx => (hboth x hx).1
      have hholds : partAllHold q (svc.leafHolds item) es =
          partAllHold q (svc.leafHolds item) fs := by
        rw [partAllHold_eq_all, partAllHold_eq_all]
        exact all_eq_of_zip hlength fun x hx => (hboth x hx).2
      simp [vacant, partHolds, hvacant, hholds]

end Meaning

end Matches

/-! ### The parts of a request -/

/-- Both are true of the same items, whatever the service's predicates are. -/
def SameItems (ts us : Tokens) : Prop :=
  ∀ (svc : Service) (item : Item), truth (svc.leafHolds item) ts = truth (svc.leafHolds item) us

/-- With the same checks behind them, whatever each of these says. -/
def SameChecked (ts us : Tokens) : Prop :=
  ∀ (svc : Service) (item : Item) (checked : String → Bool) (attr : String) (attrs : List String),
    truth (Sum.elim (svc.leafHolds item) checked)
        (followedBy ts ((attr :: attrs).map fun attr => .atom (.inr attr))) =
      truth (Sum.elim (svc.leafHolds item) checked)
        (followedBy us ((attr :: attrs).map fun attr => .atom (.inr attr)))

namespace LeafMatches

variable {s t : Bool × Leaf} (h : LeafMatches s t)

include h

/-- A Query sorts comparisons by their attribute alone. -/
theorem inHalves (ks : KeySchemaView) :
    s.2.inKeyCondition ks s.1 = t.2.inKeyCondition ks t.1 ∧
      s.2.inFilter ks s.1 = t.2.inFilter ks t.1 := by
  by_cases heq : s = t
  · rw [heq]
    exact ⟨rfl, rfl⟩
  · obtain ⟨lhs, rhs, hs, rfl⟩ := h.cases_ne heq
    rw [hs]
    exact ⟨rfl, rfl⟩

/-- A write also looks at the negation of a comparison on its key. -/
theorem inCondition {pk rk : String} (hkey : s ≠ t → s.2.lhs ≠ pk ∧ s.2.lhs ≠ rk) :
    s.2.inCondition pk rk s.1 = t.2.inCondition pk rk t.1 := by
  by_cases heq : s = t
  · rw [heq]
  · obtain ⟨lhs, rhs, hs, rfl⟩ := h.cases_ne heq
    have hkey := hkey heq
    rw [hs] at hkey ⊢
    simp [Leaf.inCondition, hkey.1, hkey.2]

/-- Where nothing is gained the leaf gives the name the value it gave. -/
theorem keyValue_eq {pk rk name : String}
    (hgain : s ≠ t → s.1 = true → s.2.lhs ≠ name) :
    keyValue pk rk name s = keyValue pk rk name t := by
  by_cases heq : s = t
  · rw [heq]
  · obtain ⟨lhs, rhs, hs, rfl⟩ := h.cases_ne heq
    have hgain := hgain heq
    obtain ⟨negate, l⟩ := s
    simp only at hs
    subst hs
    cases negate with
    | false => simp [keyValue, isKeyEquality, leafCountGudKey]
    | true =>
        have hne : lhs ≠ name := hgain rfl
        simp [keyValue, isKeyEquality, leafCountGudKey, hne]

end LeafMatches

/-- The value of the first equality on a name outside every OR. -/
def LogicalExpression.firstEquality (name : String) (e : LogicalExpression) : Option Value :=
  e.spine.findSome? (keyValue name name name)

/-- The clauses give each key attribute the same first value. -/
def KeyQuiet (pk rk : String) (e f : LogicalExpression) : Prop :=
  e.firstEquality pk = f.firstEquality pk ∧ e.firstEquality rk = f.firstEquality rk

theorem keyOf_getGudKey_eq_iff {e f : LogicalExpression} (pk rk : String) :
    keyOf (e.getGudKey pk rk) = keyOf (f.getGudKey pk rk) ↔ KeyQuiet pk rk e f := by
  have hvalue : ∀ {name : String}, name = pk ∨ name = rk →
      keyValue pk rk name = keyValue name name name := by
    intro name hname
    funext s
    simp [keyValue, hname]
  have hget : ∀ {e : LogicalExpression} {name : String}, name = pk ∨ name = rk →
      (keyOf (e.getGudKey pk rk)).lookup name = e.firstEquality name := by
    intro e name hname
    rw [keyOf, Maps.lookup_toList, getGudKey_getElem?, hvalue hname, firstEquality]
  constructor
  · intro heq
    constructor
    · rw [← hget (.inl rfl), ← hget (.inl rfl), heq]
    · rw [← hget (.inr rfl), ← hget (.inr rfl), heq]
  · rintro ⟨hpk, hrk⟩
    apply keyOf_congr
    intro name
    rw [getGudKey_getElem?, getGudKey_getElem?]
    by_cases hname : name = pk ∨ name = rk
    · rw [hvalue hname]
      rcases hname with rfl | rfl
      · exact hpk
      · exact hrk
    · rw [List.findSome?_eq_none_iff.mpr fun s _ => keyValue_other hname s,
        List.findSome?_eq_none_iff.mpr fun s _ => keyValue_other hname s]

namespace Matches

variable {e f : LogicalExpression}

theorem firstEquality_eq (h : Matches e f) {names : List String} {name : String}
    (hname : name ∈ names) (hgains : gains names e f = false) :
    e.firstEquality name = f.firstEquality name := by
  obtain ⟨hlength, hmatch⟩ := h.spine
  have hvalue : ∀ x ∈ spinePairs e f,
      keyValue name name name x.1 = keyValue name name name x.2 := by
    intro x hx
    apply (hmatch x hx).keyValue_eq
    intro hne hneg heq
    exact gains_eq_false_iff.mp hgains x hx hne hneg (heq ▸ hname)
  unfold firstEquality
  unfold spinePairs at hvalue
  generalize e.spine = ss at hlength hvalue
  generalize f.spine = ts at hlength hvalue
  induction ss generalizing ts with
  | nil =>
      obtain rfl := List.eq_nil_of_length_eq_zero hlength.symm
      rfl
  | cons s ss ih =>
      cases ts with
      | nil => cases hlength
      | cons t ts =>
          rw [List.findSome?_cons, List.findSome?_cons, hvalue (s, t) (by simp),
            ih ts (by simpa using hlength) fun x hx => hvalue x (List.mem_cons_of_mem _ hx)]

/-- The halves of a Query are respelled in place. -/
theorem sameItems_halves (h : Matches e f) (he : Grown e) (hf : Grown f) (ks : KeySchemaView) :
    SameItems (e.part (keyConditionPart ks)) (f.part (keyConditionPart ks)) ∧
      SameItems (e.part (filterPart ks)) (f.part (filterPart ks)) := by
  constructor
  · intro svc item
    rw [he.truth_part, hf.truth_part]
    refine congrArg some (h.part_eq svc item fun x hx => ?_).2
    exact ((h.spine.2 x hx).inHalves ks).1
  · intro svc item
    rw [he.truth_part, hf.truth_part]
    refine congrArg some (h.part_eq svc item fun x hx => ?_).2
    exact ((h.spine.2 x hx).inHalves ks).2

theorem sameItems_tokens (h : Matches e f) (he : Grown e) (hf : Grown f) :
    SameItems e.tokens f.tokens := by
  intro svc item
  rw [he.truth_tokens, hf.truth_tokens, h.holds_eq]

/-- Nothing was respelled on the base key outside the ORs. -/
def WriteQuiet (pk rk : String) (e f : LogicalExpression) : Prop :=
  gains [pk, rk] e f = false ∧ loses [pk, rk] e f = false

theorem condition_part_eq (h : Matches e f) {pk rk : String} (hquiet : WriteQuiet pk rk e f)
    (svc : Service) (item : Item) :
    e.partHolds (conditionPart pk rk) (svc.leafHolds item) =
      f.partHolds (conditionPart pk rk) (svc.leafHolds item) := by
  refine (h.part_eq svc item fun x hx => ?_).2
  apply (h.spine.2 x hx).inCondition
  intro hne
  have hgain := gains_eq_false_iff.mp hquiet.1 x hx hne
  have hlose := loses_eq_false_iff.mp hquiet.2 x hx hne
  cases hneg : x.1.1 with
  | true => simpa using hgain hneg
  | false => simpa using hlose hneg

theorem guardedHolds_eq (h : Matches e f) {pk rk : String} (hquiet : WriteQuiet pk rk e f)
    (svc : Service) (item : Item) :
    e.guardedHolds pk rk (svc.leafHolds item) = f.guardedHolds pk rk (svc.leafHolds item) := by
  have hpart := h.condition_part_eq hquiet svc item
  cases h with
  | leaf parens parens' h =>
      rw [guardedHolds_of_not_bareOr (by simp), guardedHolds_of_not_bareOr (by simp), hpart]
  | and negate parens hlength h =>
      rw [guardedHolds_of_not_bareOr (by simp), guardedHolds_of_not_bareOr (by simp), hpart]
  | @or negate parens es fs hlength h =>
      by_cases hbare : negate = false ∧ parens = false
      · obtain ⟨rfl, rfl⟩ := hbare
        cases es with
        | nil =>
            obtain rfl := List.eq_nil_of_length_eq_zero hlength.symm
            rfl
        | cons e es =>
            cases fs with
            | nil => cases hlength
            | cons f fs =>
                have hhead := (h (e, f) (by simp)).holds_eq svc item
                have htail : anyHolds (svc.leafHolds item) es =
                    anyHolds (svc.leafHolds item) fs := by
                  rw [anyHolds_eq_any, anyHolds_eq_any]
                  apply any_eq_of_zip (by simpa using hlength)
                  intro x hx
                  exact (h x (List.mem_cons_of_mem _ hx)).holds_eq svc item
                rw [guardedHolds, guardedHolds, hhead, htail]
      · have hno : ∀ es : List LogicalExpression,
            ¬ ∃ es', LogicalExpression.or negate parens es = .or false false es' := by
          rintro es ⟨es', heq⟩
          cases heq
          exact hbare ⟨rfl, rfl⟩
        rw [guardedHolds_of_not_bareOr (hno es), guardedHolds_of_not_bareOr (hno fs), hpart]

theorem followedHolds_eq (h : Matches e f) (ks : KeySchemaView) (svc : Service) (item : Item)
    (w : Bool) :
    e.followedHolds ks (svc.leafHolds item) w = f.followedHolds ks (svc.leafHolds item) w := by
  have hpart : e.partHolds (filterPart ks) (svc.leafHolds item) =
      f.partHolds (filterPart ks) (svc.leafHolds item) :=
    (h.part_eq svc item fun x hx => ((h.spine.2 x hx).inHalves ks).2).2
  cases h with
  | leaf parens parens' h =>
      rw [followedHolds_of_not_bareOr (by simp), followedHolds_of_not_bareOr (by simp), hpart]
  | and negate parens hlength h =>
      rw [followedHolds_of_not_bareOr (by simp), followedHolds_of_not_bareOr (by simp), hpart]
  | @or negate parens es fs hlength h =>
      by_cases hbare : negate = false ∧ parens = false
      · obtain ⟨rfl, rfl⟩ := hbare
        -- the last disjuncts stand against each other
        rcases List.eq_nil_or_concat es with rfl | ⟨es, e, rfl⟩
        · obtain rfl := List.eq_nil_of_length_eq_zero hlength.symm
          rfl
        · rcases List.eq_nil_or_concat fs with rfl | ⟨fs, f, rfl⟩
          · simp at hlength
          · have hfront : es.length = fs.length := by simpa using hlength
            rw [List.concat_eq_append, List.concat_eq_append, List.zip_append hfront] at h
            have hlast := (h (e, f) (by simp)).holds_eq svc item
            have hrest : anyHolds (svc.leafHolds item) es = anyHolds (svc.leafHolds item) fs := by
              rw [anyHolds_eq_any, anyHolds_eq_any]
              apply any_eq_of_zip hfront
              intro x hx
              exact (h x (List.mem_append_left _ hx)).holds_eq svc item
            simp only [followedHolds, List.concat_eq_append, List.dropLast_concat,
              List.getLast?_concat, Option.toList_some, allHold, hlast, hrest]
      · have hno : ∀ es : List LogicalExpression,
            ¬ ∃ es', LogicalExpression.or negate parens es = .or false false es' := by
          rintro es ⟨es', heq⟩
          cases heq
          exact hbare ⟨rfl, rfl⟩
        rw [followedHolds_of_not_bareOr (hno es), followedHolds_of_not_bareOr (hno fs), hpart]

/-- A condition check, of any attributes, stays true of the same items. -/
theorem sameChecked_filter (h : Matches e f) (he : Grown e) (hf : Grown f) (ks : KeySchemaView) :
    SameChecked (e.part (filterPart ks)) (f.part (filterPart ks)) := by
  intro svc item checked attr attrs
  rw [he.truth_followed, hf.truth_followed]
  exact if_congr Iff.rfl (congrArg some (h.followedHolds_eq ks svc item _)) rfl

end Matches

end DdbShell
