import Mathlib.Tactic.Common

/-!
Ordered maps filled with `insertIfNew`, where the first entry for a key stays.
-/

namespace Maps

open Std (TransCmp LawfulEqCmp)

variable {α β : Type} {cmp : α → α → Ordering} [TransCmp cmp] [LawfulEqCmp cmp]
  [BEq α] [LawfulBEq α]

theorem foldl_insertIfNew_getElem? (entries : List (α × β)) (m : Std.TreeMap α β cmp) (k : α) :
    (entries.foldl (fun m entry => m.insertIfNew entry.1 entry.2) m)[k]? =
      m[k]?.or (entries.lookup k) := by
  induction entries generalizing m with
  | nil => simp
  | cons entry rest ih =>
      obtain ⟨name, value⟩ := entry
      rw [List.foldl_cons, ih, Std.TreeMap.getElem?_insertIfNew, List.lookup_cons]
      by_cases hname : name = k
      · subst hname
        cases hm : m[name]? with
        | none =>
            have hmem : name ∉ m := by simp [Std.TreeMap.mem_iff_isSome_getElem?, hm]
            simp [hmem]
        | some x =>
            have hmem : name ∈ m := by simp [Std.TreeMap.mem_iff_isSome_getElem?, hm]
            simp [hmem]
      · have hbeq : (k == name) = false := by simpa using Ne.symm hname
        simp [hname, hbeq]

/-- An association list whose entries for a key all agree has that entry. -/
theorem lookup_eq_some {entries : List (α × β)} {k : α} {v : β} (hmem : (k, v) ∈ entries)
    (hsame : ∀ w, (k, w) ∈ entries → w = v) : entries.lookup k = some v := by
  cases hlookup : entries.lookup k with
  | none =>
      rw [List.lookup_eq_none_iff] at hlookup
      simpa using hlookup (k, v) hmem
  | some w =>
      obtain ⟨l1, l2, hsplit, _⟩ := List.lookup_eq_some_iff.mp hlookup
      have hw : (k, w) ∈ entries := by simp [hsplit]
      rw [hsame w hw]

theorem lookup_toList (m : Std.TreeMap α β cmp) (k : α) : m.toList.lookup k = m[k]? := by
  cases hm : m[k]? with
  | none =>
      rw [List.lookup_eq_none_iff]
      intro entry hentry
      have hmem := Std.TreeMap.mem_toList_iff_getElem?_eq_some.mp hentry
      by_contra hne
      have heq : k = entry.1 := by simpa using hne
      rw [← heq, hm] at hmem
      cases hmem
  | some v =>
      refine lookup_eq_some (Std.TreeMap.mem_toList_iff_getElem?_eq_some.mpr hm) ?_
      intro w hw
      have hget := Std.TreeMap.mem_toList_iff_getElem?_eq_some.mp hw
      rw [hm] at hget
      exact (Option.some.inj hget).symm

end Maps
