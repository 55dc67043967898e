import DdbShell.Expressions.Residual
import DdbShell.Parser.GrownTree
import DdbShell.Service

/-!
The single conditional write: one item addressed by the key equalities of the
WHERE clause, guarded by what is left of the clause. The residual condition
drops every non-negated comparison, BETWEEN and begins_with on a key
attribute, not only the equalities the key is made of, and it drops them under
negated ANDs too. `keysOnly` says it dropped nothing else.
-/

namespace DdbShell

open Infix (truth)
open LogicalExpression

/-- What the residual condition leaves out are key equalities on the positive
spine and nothing else. -/
def keysOnly (key : BaseKey) (e : LogicalExpression) : Bool :=
  e.dropsPositive (conditionPart key.pk key.rkName) &&
    (e.dropped (conditionPart key.pk key.rkName)).all fun s =>
      key.attributes.any fun name => isKeyEquality name s

/-- The clause is the key and the residual condition together. The condition
is the text the request carries, spelled by its tokens. -/
def SingleWriteSound (svc : Service) (key : BaseKey) (w : Where) : Prop :=
  let residual := w.root.part (conditionPart key.pk key.rkName)
  w.updateDeleteConditionCheck key.pk key.rkName = spell residual ∧
    ∀ item, ∃ b, truth (svc.leafHolds item) residual = some b ∧
      svc.satisfies item w = (svc.matchesKey item (w.getGudKey key.pkList key.rkList) && b)

theorem Where.updateDeleteConditionCheck_eq {w : Where} (hg : Grown w.root) (pk rk : String) :
    w.updateDeleteConditionCheck pk rk = spell (w.root.part (conditionPart pk rk)) := by
  funext st
  exact (renders_condition pk rk).eq_spell w.root hg st

/-- Each key attribute has exactly one equality on the spine. -/
theorem countP_of_canUpdateItem {key : BaseKey} {w : Where}
    (h : w.canUpdateItem key.pkList key.rkList = true) {name : String}
    (hname : name ∈ key.attributes) : w.root.spine.countP (isKeyEquality name) = 1 := by
  rw [← countGudKey_eq_countP]
  unfold Where.canUpdateItem BaseKey.pkList BaseKey.rkList at h
  unfold BaseKey.attributes BaseKey.rkList at hname
  cases hrk : key.rk with
  | none =>
      simp only [hrk, Option.toList_none, decide_eq_true_eq] at h
      simp only [hrk, Option.toList_none, List.mem_singleton] at hname
      rw [hname]
      exact h
  | some rk =>
      simp only [hrk, Option.toList_some, Bool.and_eq_true, decide_eq_true_eq] at h
      simp only [hrk, Option.toList_some, List.mem_cons, List.not_mem_nil, or_false] at hname
      rcases hname with rfl | rfl
      · exact h.1
      · exact h.2

theorem eq_of_countP_eq_one {α : Type} {p : α → Bool} {xs : List α} (h : xs.countP p = 1)
    {a b : α} (ha : a ∈ xs) (hb : b ∈ xs) (hpa : p a = true) (hpb : p b = true) : a = b := by
  rw [List.countP_eq_length_filter, List.length_eq_one_iff] at h
  obtain ⟨x, hx⟩ := h
  have hax : a ∈ xs.filter p := List.mem_filter.mpr ⟨ha, hpa⟩
  have hbx : b ∈ xs.filter p := List.mem_filter.mpr ⟨hb, hpb⟩
  rw [hx, List.mem_singleton] at hax hbx
  rw [hax, hbx]

theorem mem_dropped_of_keyValue {pk rk name : String} {v : Value} {e : LogicalExpression}
    (h : e.spine.findSome? (keyValue pk rk name) = some v) :
    (name = pk ∨ name = rk) ∧
      (false, ⟨name, .comparison .equal v⟩) ∈ e.dropped (conditionPart pk rk) := by
  obtain ⟨s, hs, hv⟩ := List.exists_of_findSome?_eq_some h
  unfold keyValue at hv
  split at hv
  · rename_i hname
    refine ⟨hname, ?_⟩
    have hkey : isKeyEquality name s = true := by
      by_contra hne
      cases hp : s.2.predicate <;> simp [hp, hne] at hv
    obtain ⟨u, rfl⟩ := isKeyEquality_iff.mp hkey
    simp only [hkey, if_true, Option.some.injEq] at hv
    subst hv
    refine List.mem_filter.mpr ⟨hs, ?_⟩
    rcases hname with rfl | rfl <;> simp [conditionPart, Leaf.inCondition]
  · cases hv

/-- The leaves the condition drops hold of an item exactly when its key
matches. -/
theorem matchesKey_eq_dropped {key : BaseKey} {w : Where}
    (hcan : w.canUpdateItem key.pkList key.rkList = true) (hkey : keysOnly key w.root = true)
    (svc : Service) (item : Item) :
    svc.matchesKey item (w.getGudKey key.pkList key.rkList) =
      (w.root.dropped (conditionPart key.pk key.rkName)).all (spineHolds (svc.leafHolds item)) := by
  simp only [keysOnly, Bool.and_eq_true, List.all_eq_true, List.any_eq_true] at hkey
  rw [Bool.eq_iff_iff, Service.matchesKey_iff, List.all_eq_true]
  simp only [Where.getGudKey, getGudKey_getElem?]
  constructor
  · intro hmatch s hs
    obtain ⟨name, hname, hequal⟩ := hkey.2 s hs
    obtain ⟨rhs, rfl⟩ := isKeyEquality_iff.mp hequal
    have hspine := (List.mem_filter.mp hs).1
    have hisKey : name = key.pkList.headD "" ∨ name = key.rkList.headD "" := by
      rcases List.mem_cons.mp hname with rfl | hrk
      · exact .inl rfl
      · right
        unfold BaseKey.rkList at hrk ⊢
        cases hopt : key.rk with
        | none => simp [hopt] at hrk
        | some rk => simpa [hopt] using hrk
    have hfind : w.root.spine.findSome? (keyValue (key.pkList.headD "") (key.rkList.headD "") name)
        = some rhs := by
      cases hf : w.root.spine.findSome?
          (keyValue (key.pkList.headD "") (key.rkList.headD "") name) with
      | none =>
          rw [List.findSome?_eq_none_iff] at hf
          have hnone := hf _ hspine
          rw [keyValue, if_pos hisKey] at hnone
          simp [hequal] at hnone
      | some u =>
          obtain ⟨_, hu⟩ := mem_dropped_of_keyValue hf
          have huspine := (List.mem_filter.mp hu).1
          have hone := countP_of_canUpdateItem hcan hname
          have hsame := eq_of_countP_eq_one hone huspine hspine
            (isKeyEquality_iff.mpr ⟨u, rfl⟩) hequal
          cases hsame
          rfl
    simpa [spineHolds] using hmatch name rhs hfind
  · intro hall name v hv
    have hdropped := (mem_dropped_of_keyValue hv).2
    simpa [spineHolds] using hall _ hdropped

/-- A single write whose residual condition drops only key equalities of the
positive spine modifies exactly the items the clause admits. -/
theorem singleWrite_sound (svc : Service) (key : BaseKey) (clause : SourceExpr .or)
    (hcan : (Where.mk clause.build).canUpdateItem key.pkList key.rkList = true)
    (hkey : keysOnly key clause.build = true) :
    SingleWriteSound svc key ⟨clause.build⟩ := by
  have hg := clause.grown_build.1
  have hpos : clause.build.dropsPositive (conditionPart key.pk key.rkName) = true := by
    simp only [keysOnly, Bool.and_eq_true] at hkey
    exact hkey.1
  refine ⟨Where.updateDeleteConditionCheck_eq hg key.pk key.rkName, fun item => ?_⟩
  refine ⟨_, hg.truth_part _ _, ?_⟩
  rw [Service.satisfies, hg.holds_eq_dropped_and_part rfl hpos, matchesKey_eq_dropped hcan hkey]

/-- `pk = 1 AND rk = 2 AND x > 5` -/
def guardedKey : SourceExpr .or :=
  .ofAnd (.and (.and (.ofNot (.element (.comparison "pk" (.op .equal) (.N "1"))))
    (.element (.comparison "rk" (.op .equal) (.N "2"))))
    (.element (.comparison "x" (.op .greaterThan) (.N "5"))))

theorem guardedKey_singleWrite_sound :
    (Where.mk guardedKey.build).canUpdateItem ["pk"] ["rk"] = true ∧
      keysOnly ⟨"pk", some "rk", by decide⟩ guardedKey.build = true ∧
      SingleWriteSound .verbatim ⟨"pk", some "rk", by decide⟩ ⟨guardedKey.build⟩ :=
  ⟨by decide, by decide,
    singleWrite_sound .verbatim ⟨"pk", some "rk", by decide⟩ guardedKey (by decide) (by decide)⟩

/-- `pk = 1 AND rk = 2 AND rk > 5` -/
def contradictoryKey : SourceExpr .or :=
  .ofAnd (.and (.and (.ofNot (.element (.comparison "pk" (.op .equal) (.N "1"))))
    (.element (.comparison "rk" (.op .equal) (.N "2"))))
    (.element (.comparison "rk" (.op .greaterThan) (.N "5"))))

/-- No item satisfies it, and the write goes to `{pk: 1, rk: 2}` with no
condition at all. -/
theorem contradictoryKey_singleWrite_unsound :
    ¬ ((Where.mk contradictoryKey.build).canUpdateItem ["pk"] ["rk"] = true →
      SingleWriteSound .verbatim ⟨"pk", some "rk", by decide⟩ ⟨contradictoryKey.build⟩) := by
  intro h
  obtain ⟨b, hb, hitem⟩ :=
    (h (by decide)).2 fun name => if name = "pk" then some (.N "1") else some (.N "2")
  have hnone : contradictoryKey.build.part (conditionPart "pk" "rk") = [] := by decide
  have hb' : b = true := Option.some.inj (hb.symm.trans (congrArg _ hnone))
  rw [hb'] at hitem
  revert hitem
  decide

end DdbShell
