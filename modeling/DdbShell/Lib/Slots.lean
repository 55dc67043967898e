import Mathlib.Data.List.InsertIdx
import Mathlib.Data.List.Nodup

/-!
A store kept as two parallel lists, a slot's key and its item at the same
place, searched from the front. With as many items as keys and no key twice it
is a finite map, and `find_put` and `find_erase` are its laws. Where each key
is to be the label of its item, a write keeps that exactly when the item
written carries the key of its slot as its label.
-/

structure Slots (κ ν : Type) where
  keys : List κ := []
  items : List ν := []
  deriving Repr, DecidableEq

namespace Slots

variable {κ ν : Type} [DecidableEq κ]

/-- The item of the first slot with that key. -/
def find (s : Slots κ ν) (key : κ) : Option ν :=
  (s.keys.idxOf? key).bind fun i => s.items[i]?

/-- Replace the item of the slot, or append a slot. -/
def put (s : Slots κ ν) (key : κ) (item : ν) : Slots κ ν :=
  match s.keys.idxOf? key with
  | some i => { s with items := s.items.set i item }
  | none => { keys := s.keys ++ [key], items := s.items ++ [item] }

def erase (s : Slots κ ν) (key : κ) : Slots κ ν :=
  match s.keys.idxOf? key with
  | some i => { keys := s.keys.eraseIdx i, items := s.items.eraseIdx i }
  | none => s

/-- As many items as keys, and no key twice. -/
structure WellFormed (s : Slots κ ν) : Prop where
  parallel : s.keys.length = s.items.length
  nodup : s.keys.Nodup

omit [DecidableEq κ] in
theorem wellFormed_empty : WellFormed ({} : Slots κ ν) := ⟨rfl, List.nodup_nil⟩

theorem idxOf?_eq_some {keys : List κ} {key : κ} {i : Nat} (h : keys.idxOf? key = some i) :
    keys[i]? = some key := by
  obtain ⟨hlt, hkey, -⟩ := List.idxOf?_eq_some_iff.mp h
  rw [List.getElem?_eq_getElem hlt]
  exact congrArg some (by simpa using hkey)

theorem idxOf?_eq_none {keys : List κ} {key : κ} (h : keys.idxOf? key = none) : key ∉ keys := by
  simpa using h

theorem idxOf?_of_getElem? {keys : List κ} (hnodup : keys.Nodup) {key : κ} {i : Nat}
    (h : keys[i]? = some key) : keys.idxOf? key = some i := by
  cases hfound : keys.idxOf? key with
  | none => exact absurd (List.mem_of_getElem? h) (idxOf?_eq_none hfound)
  | some j =>
      have hj := idxOf?_eq_some hfound
      obtain ⟨hi, -⟩ := List.getElem?_eq_some_iff.mp h
      rw [(List.getElem?_inj hi hnodup).mp (h.trans hj.symm)]

variable {s : Slots κ ν}

/-! ### The store as a map -/

/-- What is found is the item at the place of the key. -/
theorem find_eq_some_iff (h : s.WellFormed) {key : κ} {item : ν} :
    s.find key = some item ↔ ∃ i : Nat, s.keys[i]? = some key ∧ s.items[i]? = some item := by
  constructor
  · intro hfind
    obtain ⟨i, hi, hitem⟩ := Option.bind_eq_some_iff.mp hfind
    exact ⟨i, idxOf?_eq_some hi, hitem⟩
  · rintro ⟨i, hkey, hitem⟩
    rw [find, idxOf?_of_getElem? h.nodup hkey]
    exact hitem

theorem find_isSome_iff (h : s.WellFormed) {key : κ} :
    (s.find key).isSome = true ↔ key ∈ s.keys := by
  rw [Option.isSome_iff_exists]
  constructor
  · rintro ⟨item, hitem⟩
    obtain ⟨i, hkey, -⟩ := (find_eq_some_iff h).mp hitem
    exact List.mem_of_getElem? hkey
  · intro hmem
    obtain ⟨i, hi, hkey⟩ := List.mem_iff_getElem.mp hmem
    have hi' : i < s.items.length := h.parallel ▸ hi
    exact ⟨s.items[i], (find_eq_some_iff h).mpr
      ⟨i, by rw [List.getElem?_eq_getElem hi, hkey], List.getElem?_eq_getElem hi'⟩⟩

theorem put_wellFormed (h : s.WellFormed) (key : κ) (item : ν) : (s.put key item).WellFormed := by
  unfold put
  cases hfound : s.keys.idxOf? key with
  | some i => exact ⟨by simpa using h.parallel, h.nodup⟩
  | none =>
      refine ⟨by simpa using h.parallel, ?_⟩
      rw [List.nodup_append_comm, List.singleton_append, List.nodup_cons]
      exact ⟨idxOf?_eq_none hfound, h.nodup⟩

theorem erase_wellFormed (h : s.WellFormed) (key : κ) : (s.erase key).WellFormed := by
  unfold erase
  cases hfound : s.keys.idxOf? key with
  | some i =>
      refine ⟨?_, h.nodup.eraseIdx i⟩
      simp only [List.length_eraseIdx, h.parallel]
  | none => exact h

/-- A write brings in no item but the one written. -/
theorem mem_put {key : κ} {item other : ν} (h : other ∈ (s.put key item).items) :
    other = item ∨ other ∈ s.items := by
  unfold put at h
  cases hfound : s.keys.idxOf? key with
  | some i =>
      rw [hfound] at h
      exact (List.mem_or_eq_of_mem_set h).symm
  | none =>
      rw [hfound] at h
      rcases List.mem_append.mp h with hmem | hmem
      · exact .inr hmem
      · exact .inl (List.mem_singleton.mp hmem)

theorem mem_erase {key : κ} {other : ν} (h : other ∈ (s.erase key).items) : other ∈ s.items := by
  unfold erase at h
  cases hfound : s.keys.idxOf? key with
  | some i =>
      rw [hfound] at h
      exact List.mem_of_mem_eraseIdx h
  | none =>
      rw [hfound] at h
      exact h

/-! ### Labelled stores -/

/-- Every key is the label of its item. -/
def Labelled (label : ν → κ) (s : Slots κ ν) : Prop := s.keys = s.items.map label

variable {label : ν → κ}

omit [DecidableEq κ] in
theorem labelled_empty : Labelled label ({} : Slots κ ν) := rfl

omit [DecidableEq κ] in
theorem labelled_iff : Labelled label s ↔ s.keys.length = s.items.length ∧
    ∀ (i : Nat) (item : ν), s.items[i]? = some item → s.keys[i]? = some (label item) := by
  constructor
  · intro h
    rw [Labelled] at h
    rw [h]
    refine ⟨by simp, ?_⟩
    intro i item hitem
    simp [hitem]
  · rintro ⟨hlength, hkeys⟩
    refine List.ext_getElem? fun i => ?_
    rw [List.getElem?_map]
    cases hitem : s.items[i]? with
    | some item => exact hkeys i item hitem
    | none =>
        rw [List.getElem?_eq_none_iff] at hitem
        exact List.getElem?_eq_none (by omega)

theorem put_labelled_iff (h : Labelled label s) (key : κ) (item : ν) :
    Labelled label (s.put key item) ↔ label item = key := by
  rw [Labelled] at h
  unfold put
  cases hfound : s.keys.idxOf? key with
  | some i =>
      have hkey := idxOf?_eq_some hfound
      obtain ⟨hi, -⟩ := List.getElem?_eq_some_iff.mp hkey
      have hi' : i < s.items.length := by
        rw [h, List.length_map] at hi
        exact hi
      simp only [Labelled]
      constructor
      · intro hput
        rw [hput, List.getElem?_map, List.getElem?_set_self hi'] at hkey
        exact Option.some.inj hkey
      · intro hlabel
        rw [List.map_set, ← h, hlabel]
        refine List.ext_getElem? fun j => ?_
        by_cases hj : i = j
        · rw [← hj, List.getElem?_set_self hi, hkey]
        · rw [List.getElem?_set_ne hj]
  | none =>
      simp only [Labelled, List.map_append, List.map_singleton, ← h]
      constructor
      · intro hput
        exact (List.singleton_inj.mp (List.append_cancel_left hput)).symm
      · intro hlabel
        rw [hlabel]

theorem erase_labelled (h : Labelled label s) (key : κ) : Labelled label (s.erase key) := by
  unfold erase
  cases hfound : s.keys.idxOf? key with
  | some i =>
      rw [Labelled] at h ⊢
      rw [← List.eraseIdx_map, ← h]
  | none => exact h

/-- In a labelled store a key finds the item that carries it as its label. -/
theorem find_eq_some_of_labelled (h : s.WellFormed) (hlabel : Labelled label s) {key : κ}
    {item : ν} : s.find key = some item ↔ item ∈ s.items ∧ label item = key := by
  rw [find_eq_some_iff h]
  rw [Labelled] at hlabel
  constructor
  · rintro ⟨i, hkey, hitem⟩
    rw [hlabel, List.getElem?_map, hitem] at hkey
    exact ⟨List.mem_of_getElem? hitem, Option.some.inj hkey⟩
  · rintro ⟨hmem, hkey⟩
    obtain ⟨i, hi, hitem⟩ := List.mem_iff_getElem.mp hmem
    refine ⟨i, ?_, by rw [List.getElem?_eq_getElem hi, hitem]⟩
    rw [hlabel, List.getElem?_map, List.getElem?_eq_getElem hi, hitem, Option.map_some, hkey]

/-- Under distinct labels at most one item has a label. -/
theorem filter_label_length {items : List ν} (h : (items.map label).Nodup) (key : κ) :
    (items.filter fun item => label item = key).length ≤ 1 := by
  induction items with
  | nil => simp
  | cons item items ih =>
      rw [List.map_cons, List.nodup_cons] at h
      rw [List.filter_cons]
      split
      · rename_i heq
        have hkey : label item = key := by simpa using heq
        have hnone : items.filter (fun item => decide (label item = key)) = [] := by
          rw [List.filter_eq_nil_iff]
          intro other hother hsame
          have hother' : label other = key := by simpa using hsame
          exact h.1 (hkey ▸ hother' ▸ List.mem_map_of_mem hother)
        simp [hnone]
      · exact ih h.2

/-- Searching the items for a label gives what the slot of that key holds. -/
theorem filter_label_eq (h : s.WellFormed) (hlabel : Labelled label s) (key : κ) :
    s.items.filter (fun item => label item = key) = (s.find key).toList := by
  have hnodup : (s.items.map label).Nodup := by
    rw [← show s.keys = s.items.map label from hlabel]
    exact h.nodup
  have hmem : ∀ item, item ∈ s.items.filter (fun item => label item = key) ↔
      s.find key = some item := by
    intro item
    rw [List.mem_filter, decide_eq_true_eq]
    exact (find_eq_some_of_labelled h hlabel).symm
  have hlength := filter_label_length hnodup key
  cases hfilter : s.items.filter (fun item => label item = key) with
  | nil =>
      cases hfind : s.find key with
      | none => rfl
      | some item =>
          have hitem := (hmem item).mpr hfind
          rw [hfilter] at hitem
          cases hitem
  | cons item rest =>
      rw [hfilter, List.length_cons] at hlength
      have hrest : rest = [] := List.eq_nil_of_length_eq_zero (by omega)
      have hfind := (hmem item).mp (by rw [hfilter]; exact List.mem_cons_self)
      rw [hrest, hfind]
      rfl

end Slots
