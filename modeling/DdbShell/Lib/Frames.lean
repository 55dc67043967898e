import Mathlib.Data.List.Basic

/-!
Entries written one after the other, each a label and a body with a separator
after it and nothing escaped. Entries of known labels are told from their text
where no body holds the separator. That still goes where some entries may be
absent, if no label holds it either: the separators count the entries.
-/

namespace Frames

variable {α κ : Type} [DecidableEq α] {sep : α}

def write (sep : α) (entries : List (List α × List α)) : List α :=
  entries.flatMap fun entry => entry.1 ++ entry.2 ++ [sep]

omit [DecidableEq α] in
theorem write_cons (entry : List α × List α) (entries : List (List α × List α)) :
    write sep (entry :: entries) = entry.1 ++ (entry.2 ++ sep :: write sep entries) := by
  simp [write]

omit [DecidableEq α] in
/-- The text up to the first separator. -/
theorem cut {x y u v : List α} (hx : sep ∉ x) (hy : sep ∉ y)
    (h : x ++ sep :: u = y ++ sep :: v) : x = y ∧ u = v := by
  induction x generalizing y with
  | nil =>
      cases y with
      | nil => exact ⟨rfl, (List.cons.inj h).2⟩
      | cons c y => exact absurd ((List.cons.inj h).1 ▸ List.mem_cons_self) hy
  | cons c x ih =>
      cases y with
      | nil => exact absurd ((List.cons.inj h).1 ▸ List.mem_cons_self) hx
      | cons d y =>
          obtain ⟨hhead, htail⟩ := List.cons.inj h
          obtain ⟨hrest, hend⟩ := ih (fun hmem => hx (List.mem_cons_of_mem _ hmem))
            (fun hmem => hy (List.mem_cons_of_mem _ hmem)) htail
          exact ⟨by rw [hhead, hrest], hend⟩

omit [DecidableEq α] in
theorem bodies_eq {label f g : κ → List α} {keys : List κ} (hf : ∀ k ∈ keys, sep ∉ f k)
    (hg : ∀ k ∈ keys, sep ∉ g k)
    (h : write sep (keys.map fun k => (label k, f k)) =
      write sep (keys.map fun k => (label k, g k))) : ∀ k ∈ keys, f k = g k := by
  induction keys with
  | nil =>
      intro k hk
      cases hk
  | cons key keys ih =>
      rw [List.map_cons, List.map_cons, write_cons, write_cons] at h
      obtain ⟨hbody, hrest⟩ := cut (hf key List.mem_cons_self) (hg key List.mem_cons_self)
        (List.append_cancel_left h)
      intro k hk
      rcases List.mem_cons.mp hk with rfl | hk
      · exact hbody
      · exact ih (fun k hk => hf k (List.mem_cons_of_mem _ hk))
          (fun k hk => hg k (List.mem_cons_of_mem _ hk)) hrest k hk

theorem length_le_count (entries : List (List α × List α)) :
    entries.length ≤ (write sep entries).count sep := by
  induction entries with
  | nil => exact Nat.zero_le _
  | cons entry entries ih =>
      rw [write_cons, List.count_append, List.count_append, List.count_cons_self, List.length_cons]
      omega

theorem count_eq_length {entries : List (List α × List α)}
    (h : ∀ entry ∈ entries, sep ∉ entry.1 ∧ sep ∉ entry.2) :
    (write sep entries).count sep = entries.length := by
  induction entries with
  | nil => rfl
  | cons entry entries ih =>
      obtain ⟨hlabel, hbody⟩ := h entry List.mem_cons_self
      have hrest := ih fun other hother => h other (List.mem_cons_of_mem _ hother)
      rw [write_cons, List.count_append, List.count_append, List.count_cons_self, List.length_cons,
        List.count_eq_zero_of_not_mem hlabel, List.count_eq_zero_of_not_mem hbody, hrest]
      omega

/-- The text of all keys is that of the entries present exactly when each is
present with that body. -/
theorem write_present_eq_iff {label g : κ → List α} {p : κ → Option (List α)} {keys : List κ}
    (hp : ∀ k ∈ keys, ∀ b, p k = some b → sep ∉ b)
    (hlabel : (∀ k ∈ keys, (p k).isSome = true) ∨ ∀ k ∈ keys, sep ∉ label k)
    (hg : ∀ k ∈ keys, sep ∉ g k) :
    write sep (keys.filterMap fun k => (p k).map (label k, ·)) =
        write sep (keys.map fun k => (label k, g k)) ↔
      ∀ k ∈ keys, p k = some (g k) := by
  constructor
  · intro h
    have hall : ∀ k ∈ keys, (p k).isSome = true := by
      rcases hlabel with hall | hlabel
      · exact hall
      · have hcount := @length_le_count α _ sep (keys.map fun k => (label k, g k))
        have hfree : ∀ entry ∈ keys.filterMap fun k => (p k).map (label k, ·),
            sep ∉ entry.1 ∧ sep ∉ entry.2 := by
          intro entry hentry
          obtain ⟨k, hk, hentry⟩ := List.mem_filterMap.mp hentry
          obtain ⟨b, hb, rfl⟩ := Option.map_eq_some_iff.mp hentry
          exact ⟨hlabel k hk, hp k hk b hb⟩
        rw [← h, count_eq_length hfree, List.length_map] at hcount
        by_contra hmissing
        have hless : (keys.filterMap fun k => (p k).map (label k, ·)).length < keys.length := by
          rw [List.length_filterMap_lt_length_iff_exists]
          push Not at hmissing
          obtain ⟨k, hk, hnone⟩ := hmissing
          exact ⟨k, hk, by simpa using hnone⟩
        omega
    have hpresent : ∀ k ∈ keys, p k = some ((p k).getD []) := by
      intro k hk
      obtain ⟨b, hb⟩ := Option.isSome_iff_exists.mp (hall k hk)
      simp [hb]
    have hmap : (keys.filterMap fun k => (p k).map (label k, ·)) =
        keys.map fun k => (label k, (p k).getD []) := by
      rw [← List.filterMap_eq_map]
      refine List.filterMap_congr fun k hk => ?_
      rw [hpresent k hk]
      rfl
    rw [hmap] at h
    intro k hk
    rw [hpresent k hk, bodies_eq (fun k hk => hp k hk _ (hpresent k hk)) hg h k hk]
  · intro h
    congr 1
    rw [← List.filterMap_eq_map]
    refine List.filterMap_congr fun k hk => ?_
    rw [h k hk]
    rfl

end Frames
