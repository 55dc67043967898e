import DdbShell.Render.Renderer
import DdbShell.Reordered
import Mathlib.Data.List.Nodup

/-!
What is rendered does not depend on the order in which the service returned the
attributes: sorting entries with distinct names leaves one order.
-/

namespace DdbShell

open Value (DistinctNames distinctNames_leaf distinctNames_list distinctNames_map)

namespace Renderer

theorem renderList_eq (vs : List Value) : renderList vs = vs.map renderValue := by
  induction vs with
  | nil => rfl
  | cons v vs ih => rw [renderList, ih, List.map_cons]

theorem renderEntries_eq (es : List (String × Value)) :
    renderEntries es = es.map fun e => (e.1, renderValue e.2) := by
  induction es with
  | nil => rfl
  | cons e es ih => rw [renderEntries, ih, List.map_cons]

theorem renderEntries_names (es : List (String × Value)) :
    (renderEntries es).map Prod.fst = es.map Prod.fst := by
  rw [renderEntries_eq, List.map_map]
  rfl

/-! ### Sorting -/

theorem sortedByName_pairwise (es : List (String × String)) :
    (sortedByName es).Pairwise fun a b => !(b.1 < a.1) := by
  apply List.pairwise_mergeSort
  · intro a b c hab hbc
    simp only [Bool.not_eq_true', decide_eq_false_iff_not, String.not_lt] at hab hbc ⊢
    exact String.le_trans hab hbc
  · intro a b
    simp only [Bool.or_eq_true, Bool.not_eq_true', decide_eq_false_iff_not, String.not_lt]
    exact String.le_total a.1 b.1

theorem eq_of_name {es : List (String × String)} (hnodup : (es.map Prod.fst).Nodup)
    {a b : String × String} (ha : a ∈ es) (hb : b ∈ es) (hname : a.1 = b.1) : a = b :=
  List.inj_on_of_nodup_map hnodup ha hb hname

/-- Two orders of entries with distinct names are sorted into one. -/
theorem sortedByName_eq_of_perm {es fs : List (String × String)}
    (hnodup : (es.map Prod.fst).Nodup) (h : es.Perm fs) : sortedByName es = sortedByName fs := by
  have hleft : (sortedByName es).Perm es := List.mergeSort_perm es _
  have hright : (sortedByName fs).Perm fs := List.mergeSort_perm fs _
  apply List.Perm.eq_of_pairwise _ (sortedByName_pairwise es) (sortedByName_pairwise fs)
    ((hleft.trans h).trans hright.symm)
  intro a b ha hb hab hba
  simp only [Bool.not_eq_true', decide_eq_false_iff_not, String.not_lt] at hab hba
  apply eq_of_name hnodup (hleft.mem_iff.mp ha) (h.mem_iff.mpr (hright.mem_iff.mp hb))
  exact String.le_antisymm hab hba

theorem sortedByName_renderEntries {es fs : List (String × Value)}
    (hnodup : (es.map Prod.fst).Nodup) (h : es.Perm fs) :
    sortedByName (renderEntries es) = sortedByName (renderEntries fs) := by
  apply sortedByName_eq_of_perm
  · rwa [renderEntries_names]
  · rw [renderEntries_eq, renderEntries_eq]
    exact h.map _

/-! ### Values and items -/

/-- The two ways of changing a map, as its rendered entries see them. -/
theorem renderEntries_entry {v w : Value} (h : renderValue v = renderValue w)
    (before after : List (String × Value)) (name : String) :
    renderEntries (before ++ (name, v) :: after) =
      renderEntries (before ++ (name, w) :: after) := by
  simp only [renderEntries_eq, List.map_append, List.map_cons, h]

theorem renderValue_eq {v w : Value} (h : Value.Reordered v w) (hv : v.DistinctNames) :
    renderValue v = renderValue w := by
  induction h with
  | refl v => rfl
  | trans first second ih₁ ih₂ => exact (ih₁ hv).trans (ih₂ (first.distinct hv))
  | entries h =>
      have hnodup := (distinctNames_map.mp hv).1
      rw [renderValue, renderValue, sortedByName_renderEntries hnodup h]
  | element before after h ih =>
      rw [distinctNames_list, List.forall_mem_append, List.forall_mem_cons] at hv
      rw [renderValue, renderValue, renderList_eq, renderList_eq, List.map_append,
        List.map_append, List.map_cons, List.map_cons, ih hv.2.1]
  | entry before after name h ih =>
      have hvalues := (distinctNames_map.mp hv).2
      rw [List.forall_mem_append, List.forall_mem_cons] at hvalues
      rw [renderValue, renderValue, renderEntries_entry (ih hvalues.2.1)]

/-- A map has the same rendered entries in the same order. -/
theorem sortedEntries_eq {v w : Value} (h : Value.Reordered v w) (hv : v.DistinctNames) :
    sortedByName (renderEntries v.entries) = sortedByName (renderEntries w.entries) := by
  induction h with
  | refl v => rfl
  | trans first second ih₁ ih₂ => exact (ih₁ hv).trans (ih₂ (first.distinct hv))
  | entries h => exact sortedByName_renderEntries (distinctNames_map.mp hv).1 h
  | element before after h ih => rfl
  | entry before after name h ih =>
      have hvalues := (distinctNames_map.mp hv).2
      rw [List.forall_mem_append, List.forall_mem_cons] at hvalues
      simp only [Value.entries]
      rw [renderEntries_entry (renderValue_eq h hvalues.2.1)]

theorem showItem_eq_bracketed {item : ItemRow} (hne : item.attributes ≠ []) :
    showItem item = bracketed "\x7b" "\x7d"
      ((sortedByName (renderEntries item.attributes)).map fun entry =>
        quoteIfRequired entry.1 ++ ": " ++ entry.2) := by
  rw [showItem, List.isEmpty_eq_false_iff.mpr hne]
  rfl

theorem length_sortedEntries (es : List (String × Value)) :
    (sortedByName (renderEntries es)).length = es.length := by
  rw [sortedByName, List.length_mergeSort, renderEntries_eq, List.length_map]

/-- Neither values nor items are rendered by the order of their names. -/
theorem render_order_irrelevant :
    (∀ v w : Value, v.DistinctNames → Value.Reordered v w → renderValue v = renderValue w) ∧
      ∀ item item' : ItemRow, DistinctNames (.M item.attributes) →
        Value.Reordered (.M item.attributes) (.M item'.attributes) →
          showItem item = showItem item' := by
  constructor
  · intro v w hv h
    exact renderValue_eq h hv
  · intro item item' hitem h
    have hentries := sortedEntries_eq h hitem
    simp only [Value.entries] at hentries
    have hlength : item.attributes.length = item'.attributes.length := by
      rw [← length_sortedEntries, hentries, length_sortedEntries]
    by_cases hempty : item.attributes = []
    · have hempty' : item'.attributes = [] := by
        rw [hempty, List.length_nil] at hlength
        exact List.eq_nil_of_length_eq_zero hlength.symm
      rw [showItem, showItem, hempty, hempty']
    · have hempty' : item'.attributes ≠ [] := by
        intro hnil
        rw [hnil, List.length_nil] at hlength
        exact hempty (List.eq_nil_of_length_eq_zero hlength)
      rw [showItem_eq_bracketed hempty, showItem_eq_bracketed hempty', hentries]

theorem render_order_irrelevant_nested :
    renderValue (.L [.M [("d", .N "1"), ("c", .NUL)]]) =
        renderValue (.L [.M [("c", .NUL), ("d", .N "1")]]) ∧
      showItem ⟨[("b", .S "y"), ("a", .L [.M [("d", .N "1"), ("c", .NUL)]])]⟩ =
        showItem ⟨[("a", .L [.M [("c", .NUL), ("d", .N "1")]]), ("b", .S "y")]⟩ := by
  have hinner : Value.Reordered (.L [.M [("d", .N "1"), ("c", .NUL)]])
      (.L [.M [("c", .NUL), ("d", .N "1")]]) := .element [] [] (.entries (.swap _ _ []))
  have hdistinct : DistinctNames (.L [.M [("d", .N "1"), ("c", .NUL)]]) := by
    simp only [distinctNames_list, distinctNames_map, List.forall_mem_cons, List.not_mem_nil]
    exact ⟨⟨by simp, distinctNames_leaf rfl, distinctNames_leaf rfl, by simp⟩, by simp⟩
  constructor
  · exact render_order_irrelevant.1 _ _ hdistinct hinner
  · refine render_order_irrelevant.2 _ _ ?_
      (.trans (.entry [("b", .S "y")] [] "a" hinner) (.entries (.swap _ _ [])))
    rw [distinctNames_map, List.forall_mem_cons, List.forall_mem_cons]
    exact ⟨by simp, distinctNames_leaf rfl, hdistinct, by simp⟩

end Renderer

end DdbShell
