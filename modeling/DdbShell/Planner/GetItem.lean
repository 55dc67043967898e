import DdbShell.Parser.GrownTree
import DdbShell.Expressions.Spine
import DdbShell.Service

/-!
The GetItem probe. It counts leaves and key equalities, and the counts alone
pin down the tree: a key equality, or two of them under one connective. What
they do not see is that connective's own negation.
-/

namespace DdbShell

open LogicalExpression

namespace LogicalExpression

theorem Grown.count_pos {e : LogicalExpression} (h : Grown e) : 1 ≤ e.count := by
  induction e using induct with
  | leaf negate parens l => simp [count]
  | and negate parens es ih =>
      cases h with
      | and size children grouped bare =>
          match es, size with
          | e :: rest, _ =>
              have hhead := ih e (by simp) (children e (by simp))
              rw [count, countAll]
              omega
  | or negate parens es ih =>
      cases h with
      | or size children grouped bare =>
          match es, size with
          | e :: rest, _ =>
              have hhead := ih e (by simp) (children e (by simp))
              rw [count, countAll]
              omega

theorem length_le_countAll {es : List LogicalExpression} (h : ∀ e ∈ es, Grown e) :
    es.length ≤ countAll es := by
  induction es with
  | nil => simp
  | cons e es ih =>
      have hhead := (h e (by simp)).count_pos
      have htail := ih fun e he => h e (List.mem_cons_of_mem _ he)
      rw [List.length_cons, countAll]
      omega

theorem Grown.eq_leaf_of_count {e : LogicalExpression} (h : Grown e) (hc : e.count = 1) :
    ∃ negate parens l, e = .leaf negate parens l := by
  cases h with
  | leaf negate parens l => exact ⟨negate, parens, l, rfl⟩
  | and size children grouped bare =>
      have hle := length_le_countAll children
      rw [count] at hc
      omega
  | or size children grouped bare =>
      have hle := length_le_countAll children
      rw [count] at hc
      omega

/-- Two leaves in all, and at least two children, make two leaf children. -/
theorem eq_pair_of_countAll {es : List LogicalExpression} (size : 2 ≤ es.length)
    (children : ∀ e ∈ es, Grown e) (hc : countAll es = 2) :
    ∃ n1 p1 l1 n2 p2 l2, es = [.leaf n1 p1 l1, .leaf n2 p2 l2] := by
  have hle := length_le_countAll children
  match es, size with
  | [e, f], _ =>
      have he := (children e (by simp)).count_pos
      have hf := (children f (by simp)).count_pos
      simp only [countAll] at hc
      obtain ⟨n1, p1, l1, rfl⟩ := (children e (by simp)).eq_leaf_of_count (by omega)
      obtain ⟨n2, p2, l2, rfl⟩ := (children f (by simp)).eq_leaf_of_count (by omega)
      exact ⟨n1, p1, l1, n2, p2, l2, rfl⟩
  | _ :: _ :: _ :: _, _ =>
      simp only [List.length_cons] at hle
      omega

/-- The tree of a full key with a sort key: both equalities under one AND, in
either order. -/
theorem Grown.eq_keyPair {e : LogicalExpression} (h : Grown e) {pk rk : String} (hne : rk ≠ pk)
    (hc : e.count = 2) (hp : e.countGudKey pk = 1) (hr : e.countGudKey rk = 1) :
    ∃ negate parens p1 p2 v w,
      e = .and negate parens [.leaf false p1 ⟨pk, .comparison .equal v⟩,
        .leaf false p2 ⟨rk, .comparison .equal w⟩] ∨
      e = .and negate parens [.leaf false p1 ⟨rk, .comparison .equal w⟩,
        .leaf false p2 ⟨pk, .comparison .equal v⟩] := by
  cases h with
  | leaf negate parens l => simp [count] at hc
  | or size children grouped bare => simp [countGudKey] at hp
  | @and negate parens es size children grouped bare =>
      obtain ⟨n1, p1, l1, n2, p2, l2, rfl⟩ := eq_pair_of_countAll size children hc
      rw [countGudKey_eq_countP] at hp hr
      simp only [spine, spineAll, List.append_nil, List.singleton_append] at hp hr
      -- no leaf is an equality on both names
      have hsolo : ∀ s, isKeyEquality pk s = true → isKeyEquality rk s = false := by
        intro s hs
        obtain ⟨v, rfl⟩ := isKeyEquality_iff.mp hs
        simp [isKeyEquality, leafCountGudKey, hne.symm]
      cases h1 : isKeyEquality pk (n1, l1) with
      | true =>
          have hz := hsolo _ h1
          have h2 : isKeyEquality rk (n2, l2) = true := by
            by_contra h2
            simp [hz, h2] at hr
          obtain ⟨v, hv⟩ := isKeyEquality_iff.mp h1
          obtain ⟨w, hw⟩ := isKeyEquality_iff.mp h2
          cases hv
          cases hw
          exact ⟨negate, parens, p1, p2, v, w, .inl rfl⟩
      | false =>
          have h2 : isKeyEquality pk (n2, l2) = true := by
            by_contra h2
            simp [h1, h2] at hp
          have hz := hsolo _ h2
          have h3 : isKeyEquality rk (n1, l1) = true := by
            by_contra h3
            simp [hz, h3] at hr
          obtain ⟨v, hv⟩ := isKeyEquality_iff.mp h2
          obtain ⟨w, hw⟩ := isKeyEquality_iff.mp h3
          cases hv
          cases hw
          exact ⟨negate, parens, p1, p2, v, w, .inr rfl⟩

end LogicalExpression

/-- What GetItem planning promises of one clause: the item satisfies it
exactly when it is the item the key map addresses, and that key is complete. -/
def GetItemSound (svc : Service) (key : BaseKey) (w : Where) : Prop :=
  (∀ item, svc.satisfies item w = svc.matchesKey item (w.getGudKey key.pkList key.rkList)) ∧
    ∀ name, name ∈ w.getGudKey key.pkList key.rkList ↔ name ∈ key.attributes

/-- The tree of a clause the GetItem probe accepts. -/
inductive KeyTree (key : BaseKey) : LogicalExpression → Prop where
  | partition (parens : Bool) (v : Value) (hrk : key.rk = none) :
      KeyTree key (.leaf false parens ⟨key.pk, .comparison .equal v⟩)
  | both (negate parens p1 p2 : Bool) {l1 l2 : Leaf} (rk : String) (v w : Value)
      (hrk : key.rk = some rk)
      (hl : (l1 = ⟨key.pk, .comparison .equal v⟩ ∧ l2 = ⟨rk, .comparison .equal w⟩) ∨
        (l1 = ⟨rk, .comparison .equal w⟩ ∧ l2 = ⟨key.pk, .comparison .equal v⟩)) :
      KeyTree key (.and negate parens [.leaf false p1 l1, .leaf false p2 l2])

theorem keyTree_of_canGetitem {key : BaseKey} {w : Where} (hg : Grown w.root)
    (h : w.canGetitem key.pkList key.rkList = true) : KeyTree key w.root := by
  unfold Where.canGetitem BaseKey.pkList BaseKey.rkList at h
  cases hrk : key.rk with
  | none =>
      simp only [hrk, Option.toList_none, Bool.and_eq_true, decide_eq_true_eq] at h
      obtain ⟨negate, parens, l, hroot⟩ := hg.eq_leaf_of_count h.1
      have hkey := h.2
      rw [hroot, countGudKey_eq_countP, spine, List.countP_singleton] at hkey
      have hequal : isKeyEquality key.pk (negate, l) = true := by
        by_contra hne
        simp [hne] at hkey
      obtain ⟨v, hv⟩ := isKeyEquality_iff.mp hequal
      cases hv
      rw [hroot]
      exact .partition parens v hrk
  | some rk =>
      simp only [hrk, Option.toList_some, Bool.and_eq_true, decide_eq_true_eq] at h
      have hne : rk ≠ key.pk := fun heq => key.distinct (hrk.trans (congrArg some heq))
      obtain ⟨negate, parens, p1, p2, v, u, hroot | hroot⟩ := hg.eq_keyPair hne h.1 h.2.1 h.2.2
      · rw [hroot]
        exact .both negate parens p1 p2 rk v u hrk (.inl ⟨rfl, rfl⟩)
      · rw [hroot]
        exact .both negate parens p1 p2 rk v u hrk (.inr ⟨rfl, rfl⟩)

theorem getGudKey_partition (key : BaseKey) (parens : Bool) (v : Value) (name : String) :
    ((Where.mk (.leaf false parens ⟨key.pk, .comparison .equal v⟩)).getGudKey key.pkList
      key.rkList)[name]? = if name = key.pk then some v else none := by
  rw [Where.getGudKey, getGudKey_getElem?]
  by_cases hname : name = key.pk
  · simp [spine, keyValue, BaseKey.pkList, isKeyEquality, leafCountGudKey, hname]
  · simp [spine, keyValue, isKeyEquality, leafCountGudKey, hname, Ne.symm hname]

theorem getGudKey_both {key : BaseKey} {negate parens p1 p2 : Bool} {l1 l2 : Leaf} {rk : String}
    {v w : Value} (hrk : key.rk = some rk)
    (hl : (l1 = ⟨key.pk, .comparison .equal v⟩ ∧ l2 = ⟨rk, .comparison .equal w⟩) ∨
      (l1 = ⟨rk, .comparison .equal w⟩ ∧ l2 = ⟨key.pk, .comparison .equal v⟩)) (name : String) :
    ((Where.mk (.and negate parens [.leaf false p1 l1, .leaf false p2 l2])).getGudKey key.pkList
      key.rkList)[name]? =
        if name = key.pk then some v else if name = rk then some w else none := by
  have hne : key.pk ≠ rk := fun heq => key.distinct (heq ▸ hrk)
  rw [Where.getGudKey, getGudKey_getElem?]
  simp only [spine, spineAll, List.append_nil, List.singleton_append, BaseKey.pkList,
    BaseKey.rkList, hrk, Option.toList_some, List.headD_cons]
  rcases hl with ⟨rfl, rfl⟩ | ⟨rfl, rfl⟩
  all_goals
    by_cases hpk : name = key.pk
    · simp [keyValue, isKeyEquality, leafCountGudKey, hpk, hne.symm]
    · by_cases hname : name = rk
      · simp [keyValue, isKeyEquality, leafCountGudKey, hname, hne, hne.symm]
      · simp [keyValue, hpk, hname]

/-- The clause says the key matches, or the opposite if it is negated. -/
theorem KeyTree.satisfies {key : BaseKey} {w : Where} (h : KeyTree key w.root) (svc : Service)
    (item : Item) :
    svc.satisfies item w =
      xor w.root.isNegated (svc.matchesKey item (w.getGudKey key.pkList key.rkList)) := by
  obtain ⟨root⟩ := w
  cases h with
  | partition parens v hrk =>
      rw [Service.matchesKey_one (getGudKey_partition key parens v)]
      simp [Service.satisfies, holds, isNegated]
  | both negate parens p1 p2 rk v w hrk hl =>
      have hne : rk ≠ key.pk := fun heq => key.distinct (hrk.trans (congrArg some heq))
      rw [Service.matchesKey_two (getGudKey_both hrk hl) hne]
      rcases hl with ⟨rfl, rfl⟩ | ⟨rfl, rfl⟩
      · simp [Service.satisfies, holds, allHold, isNegated]
      · simp [Service.satisfies, holds, allHold, isNegated, Bool.and_comm]

theorem KeyTree.key_complete {key : BaseKey} {w : Where} (h : KeyTree key w.root) (name : String) :
    name ∈ w.getGudKey key.pkList key.rkList ↔ name ∈ key.attributes := by
  obtain ⟨root⟩ := w
  rw [Std.TreeMap.mem_iff_isSome_getElem?]
  cases h with
  | partition parens v hrk =>
      rw [getGudKey_partition]
      by_cases hname : name = key.pk <;> simp [BaseKey.attributes, BaseKey.rkList, hrk, hname]
  | both negate parens p1 p2 rk v w hrk hl =>
      rw [getGudKey_both hrk hl]
      rw [BaseKey.attributes, BaseKey.rkList, hrk, Option.toList_some, List.mem_cons,
        List.mem_singleton]
      split
      · simp_all
      · split <;> simp_all

/-- A clause the probe accepts is planned soundly exactly when its root is not
negated. -/
theorem getItem_sound_iff (svc : Service) (key : BaseKey) (clause : SourceExpr .or)
    (hcan : (Where.mk clause.build).canGetitem key.pkList key.rkList = true) :
    GetItemSound svc key ⟨clause.build⟩ ↔ clause.build.isNegated = false := by
  have htree := keyTree_of_canGetitem clause.grown_build.1 hcan
  constructor
  · intro hsound
    -- a negated root gives every item the opposite verdict
    have hverdict := htree.satisfies svc Item.absent
    rw [hsound.1] at hverdict
    cases hneg : clause.build.isNegated with
    | false => rfl
    | true => simp [hneg] at hverdict
  · intro hplain
    refine ⟨fun item => ?_, htree.key_complete⟩
    rw [htree.satisfies, hplain, Bool.false_xor]

def pkRkKey : BaseKey := ⟨"pk", some "rk", by decide⟩

/-- `pk = 1 AND rk = 2` -/
def fullKey : SourceExpr .or :=
  .ofAnd (.and (.ofNot (.element (.comparison "pk" (.op .equal) (.N "1"))))
    (.element (.comparison "rk" (.op .equal) (.N "2"))))

theorem fullKey_getItem_sound :
    (Where.mk fullKey.build).canGetitem ["pk"] ["rk"] = true ∧
      GetItemSound .verbatim pkRkKey ⟨fullKey.build⟩ :=
  ⟨by decide, (getItem_sound_iff .verbatim pkRkKey fullKey (by decide)).mpr rfl⟩

/-- `NOT (pk = 1 AND rk = 2)` -/
def negatedKey : SourceExpr .or := .ofAnd (.ofNot (.not (.paren fullKey)))

/-- It is planned as a GetItem of the one item it excludes. -/
theorem negatedKey_getItem_unsound :
    ¬ ((Where.mk negatedKey.build).canGetitem ["pk"] ["rk"] = true →
      GetItemSound .verbatim pkRkKey ⟨negatedKey.build⟩) := by
  intro h
  have hitem := (h (by decide)).1 fun name => if name = "pk" then some (.N "1") else some (.N "2")
  revert hitem
  decide

end DdbShell
