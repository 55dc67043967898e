import Mathlib.Data.String.Basic

/-!
Ordered maps as association lists in the order of their keys. `emplace` puts in
an entry whose key is new and leaves the map as it is otherwise.
-/

namespace SortedMap

variable {α β γ : Type} [LinearOrder α]

def emplace (k : α) (v : β) : List (α × β) → List (α × β)
  | [] => [(k, v)]
  | e :: m =>
      if k < e.1 then (k, v) :: e :: m
      else if k = e.1 then e :: m
      else e :: emplace k v m

/-- The entries are emplaced one after another. -/
def ofEntries (es : List (α × β)) : List (α × β) :=
  es.foldl (fun m e => emplace e.1 e.2 m) []

theorem emplace_perm {k : α} {m : List (α × β)} (h : k ∉ m.map Prod.fst) (v : β) :
    (emplace k v m).Perm ((k, v) :: m) := by
  induction m with
  | nil => exact .refl _
  | cons e m ih =>
      rw [List.map_cons, List.mem_cons, not_or] at h
      rw [emplace]
      split
      · exact .refl _
      · rw [if_neg h.1]
        exact ((ih h.2).cons e).trans (.swap _ _ m)

theorem foldl_emplace_perm {es m : List (α × β)} (h : ((es ++ m).map Prod.fst).Nodup) :
    (es.foldl (fun m e => emplace e.1 e.2 m) m).Perm (es ++ m) := by
  induction es generalizing m with
  | nil => exact .refl _
  | cons e es ih =>
      rw [List.cons_append, List.map_cons, List.nodup_cons, List.map_append, List.mem_append,
        not_or] at h
      have hput : (emplace e.1 e.2 m).Perm (e :: m) := emplace_perm h.1.2 e.2
      have hmoved : (es ++ emplace e.1 e.2 m).Perm (e :: (es ++ m)) :=
        (hput.append_left es).trans List.perm_middle
      have hnodup : ((es ++ emplace e.1 e.2 m).map Prod.fst).Nodup := by
        rw [(hmoved.map Prod.fst).nodup_iff, List.map_cons, List.nodup_cons, List.map_append,
          List.mem_append, not_or]
        exact h
      exact (ih hnodup).trans hmoved

/-- With distinct keys nothing is left out. -/
theorem ofEntries_perm {es : List (α × β)} (h : (es.map Prod.fst).Nodup) :
    (ofEntries es).Perm es := by
  have hnodup : ((es ++ []).map Prod.fst).Nodup := by rwa [List.append_nil]
  have hfold := foldl_emplace_perm hnodup
  rwa [List.append_nil] at hfold

/-- A map holds nothing but what was emplaced. -/
theorem mem_emplace {k : α} {v : β} {m : List (α × β)} {e : α × β} (h : e ∈ emplace k v m) :
    e = (k, v) ∨ e ∈ m := by
  induction m with
  | nil => exact .inl (List.mem_singleton.mp h)
  | cons f m ih =>
      rw [emplace] at h
      split at h
      · exact List.mem_cons.mp h
      · split at h
        · exact .inr h
        · rcases List.mem_cons.mp h with rfl | h
          · exact .inr List.mem_cons_self
          · exact (ih h).imp_right (List.mem_cons_of_mem f)

theorem mem_foldl_emplace {es m : List (α × β)} {e : α × β}
    (h : e ∈ es.foldl (fun m e => emplace e.1 e.2 m) m) : e ∈ es ∨ e ∈ m := by
  induction es generalizing m with
  | nil => exact .inr h
  | cons f es ih =>
      rcases ih h with h | h
      · exact .inl (List.mem_cons_of_mem f h)
      · rcases mem_emplace h with rfl | h
        · exact .inl List.mem_cons_self
        · exact .inr h

theorem mem_ofEntries {es : List (α × β)} {e : α × β} (h : e ∈ ofEntries es) : e ∈ es := by
  rcases mem_foldl_emplace h with h | h
  · exact h
  · cases h

/-! ### Lookup -/

/-- The keys ascend. -/
def Ascending (m : List (α × β)) : Prop := m.Pairwise fun e f => e.1 < f.1

theorem ascending_emplace {m : List (α × β)} (h : Ascending m) (k : α) (v : β) :
    Ascending (emplace k v m) := by
  induction m with
  | nil => exact List.pairwise_singleton _ _
  | cons e m ih =>
      obtain ⟨hhead, htail⟩ := List.pairwise_cons.mp h
      rw [emplace]
      split
      case isTrue hlt =>
        apply List.pairwise_cons.mpr
        refine ⟨?_, h⟩
        intro f hf
        rcases List.mem_cons.mp hf with rfl | hf
        · exact hlt
        · exact hlt.trans (hhead f hf)
      case isFalse hge =>
        split
        case isTrue heq => exact h
        case isFalse hne =>
          apply List.pairwise_cons.mpr
          refine ⟨?_, ih htail⟩
          intro f hf
          rcases mem_emplace hf with rfl | hf
          · exact lt_of_le_of_ne (not_lt.mp hge) (Ne.symm hne)
          · exact hhead f hf

theorem lookup_cons_eq (e : α × β) (m : List (α × β)) (j : α) :
    (e :: m).lookup j = if j = e.1 then some e.2 else m.lookup j := by
  by_cases hj : j = e.1
  · rw [if_pos hj, hj]
    exact List.lookup_cons_self
  · have hbeq : (j == e.1) = false := beq_eq_false_iff_ne.mpr hj
    rw [if_neg hj, List.lookup_cons, hbeq]

theorem lookup_eq_none_of_lt {m : List (α × β)} {k : α} (h : ∀ e ∈ m, k < e.1) :
    m.lookup k = none := by
  rw [List.lookup_eq_none_iff]
  intro e he
  simpa using (h e he).ne

theorem lookup_emplace {m : List (α × β)} (h : Ascending m) (k j : α) (v : β) :
    (emplace k v m).lookup j = (m.lookup j).or (if j = k then some v else none) := by
  induction m with
  | nil => exact lookup_cons_eq (k, v) [] j
  | cons e m ih =>
      obtain ⟨hhead, htail⟩ := List.pairwise_cons.mp h
      rw [emplace]
      split
      case isTrue hlt =>
        rw [lookup_cons_eq]
        by_cases hj : j = k
        · subst hj
          have hnone : (e :: m).lookup j = none := by
            apply lookup_eq_none_of_lt
            rw [List.forall_mem_cons]
            exact ⟨hlt, fun f hf => hlt.trans (hhead f hf)⟩
          rw [hnone, if_pos rfl, Option.none_or]
        · rw [if_neg hj, if_neg hj, Option.or_none]
      case isFalse hge =>
        split
        case isTrue heq =>
          by_cases hj : j = k
          · rw [lookup_cons_eq, if_pos (hj.trans heq), Option.some_or]
          · rw [if_neg hj, Option.or_none]
        case isFalse hne =>
          rw [lookup_cons_eq, lookup_cons_eq, ih htail]
          by_cases hj : j = e.1
          · rw [if_pos hj, if_pos hj, Option.some_or]
          · rw [if_neg hj, if_neg hj]

theorem lookup_foldl_emplace (es : List (α × β)) {m : List (α × β)} (h : Ascending m) (j : α) :
    (es.foldl (fun m e => emplace e.1 e.2 m) m).lookup j = (m.lookup j).or (es.lookup j) := by
  induction es generalizing m with
  | nil => exact (Option.or_none).symm
  | cons e es ih =>
      rw [List.foldl_cons, ih (ascending_emplace h e.1 e.2), lookup_emplace h, lookup_cons_eq,
        Option.or_assoc]
      by_cases hj : j = e.1
      · rw [if_pos hj, if_pos hj, Option.some_or]
      · rw [if_neg hj, if_neg hj, Option.none_or]

/-- The first entry of a key is the one that stays. -/
theorem lookup_ofEntries (es : List (α × β)) (j : α) :
    (ofEntries es).lookup j = es.lookup j := by
  rw [ofEntries, lookup_foldl_emplace es List.Pairwise.nil]
  rfl

end SortedMap
