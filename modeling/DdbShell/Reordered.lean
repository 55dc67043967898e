import DdbShell.Value

/-!
Values that differ only in the order of the entries of their maps. An item is
read as a map of its attributes. The names of one map are distinct in what a
service stores, at every depth.
-/

namespace DdbShell

namespace Value

def entries : Value → List (String × Value)
  | .M es => es
  | _ => []

/-! ### Induction -/

/-- Nothing stands below it. -/
def flat : Value → Bool
  | .L _ | .M _ => false
  | _ => true

/-- What holds of a value when it holds of the values below. -/
structure Inductive (motive : Value → Prop) : Prop where
  list : ∀ vs, (∀ v ∈ vs, motive v) → motive (.L vs)
  map : ∀ es, (∀ e ∈ es, motive e.2) → motive (.M es)
  leaf : ∀ v, v.flat = true → motive v

mutual

theorem Inductive.all {motive : Value → Prop} (h : Inductive motive) : ∀ v, motive v
  | .L vs => h.list vs (h.allList vs)
  | .M es => h.map es (h.allEntries es)
  | .S _ | .N _ | .B _ | .BOOL _ | .NUL | .SS _ | .NS _ | .BS _ => h.leaf _ rfl

theorem Inductive.allList {motive : Value → Prop} (h : Inductive motive) :
    ∀ vs : List Value, ∀ v ∈ vs, motive v
  | [] => nofun
  | v :: vs => List.forall_mem_cons.mpr ⟨h.all v, h.allList vs⟩

theorem Inductive.allEntries {motive : Value → Prop} (h : Inductive motive) :
    ∀ es : List (String × Value), ∀ e ∈ es, motive e.2
  | [] => nofun
  | (_, v) :: es => List.forall_mem_cons.mpr ⟨h.all v, h.allEntries es⟩

end

@[elab_as_elim]
theorem inductBelow {motive : Value → Prop}
    (list : ∀ vs, (∀ v ∈ vs, motive v) → motive (.L vs))
    (map : ∀ es, (∀ e ∈ es, motive e.2) → motive (.M es))
    (leaf : ∀ v, v.flat = true → motive v) (v : Value) : motive v :=
  Inductive.all ⟨list, map, leaf⟩ v

/-! ### Order of entries -/

/-- The same value up to the order of map entries, at every depth. -/
inductive Reordered : Value → Value → Prop where
  | refl (v : Value) : Reordered v v
  | trans {u v w : Value} (first : Reordered u v) (second : Reordered v w) : Reordered u w
  | entries {es fs : List (String × Value)} (h : es.Perm fs) : Reordered (.M es) (.M fs)
  | element {v w : Value} (before after : List Value) (h : Reordered v w) :
      Reordered (.L (before ++ v :: after)) (.L (before ++ w :: after))
  | entry {v w : Value} (before after : List (String × Value)) (name : String)
      (h : Reordered v w) :
      Reordered (.M (before ++ (name, v) :: after)) (.M (before ++ (name, w) :: after))

/-- Element by element. -/
theorem Reordered.list {vs ws : List Value} (h : List.Forall₂ Reordered vs ws)
    (before : List Value) : Reordered (.L (before ++ vs)) (.L (before ++ ws)) := by
  induction h generalizing before with
  | nil => exact .refl _
  | cons head tail ih =>
      rename_i v w vs ws
      have hrest := ih (before ++ [w])
      rw [List.append_assoc, List.append_assoc, List.singleton_append,
        List.singleton_append] at hrest
      exact (Reordered.element before vs head).trans hrest

/-- Entry by entry. -/
theorem Reordered.map {es fs : List (String × Value)}
    (h : List.Forall₂ (fun e f => e.1 = f.1 ∧ Reordered e.2 f.2) es fs)
    (before : List (String × Value)) : Reordered (.M (before ++ es)) (.M (before ++ fs)) := by
  induction h generalizing before with
  | nil => exact .refl _
  | cons head tail ih =>
      rename_i e f es fs
      obtain ⟨name, v⟩ := e
      obtain ⟨name', w⟩ := f
      obtain ⟨hname, hv⟩ := head
      dsimp only at hname hv
      subst hname
      have hrest := ih (before ++ [(name, w)])
      rw [List.append_assoc, List.append_assoc, List.singleton_append,
        List.singleton_append] at hrest
      exact (Reordered.entry before es name hv).trans hrest

/-! ### Everywhere in a value -/

mutual

/-- `p` of the value and of every value below it. -/
def Everywhere (p : Value → Prop) : Value → Prop
  | .L vs => p (.L vs) ∧ EverywhereList p vs
  | .M es => p (.M es) ∧ EverywhereEntries p es
  | v => p v

def EverywhereList (p : Value → Prop) : List Value → Prop
  | [] => True
  | v :: vs => v.Everywhere p ∧ EverywhereList p vs

def EverywhereEntries (p : Value → Prop) : List (String × Value) → Prop
  | [] => True
  | (_, v) :: es => v.Everywhere p ∧ EverywhereEntries p es

end

variable {p : Value → Prop}

theorem everywhereList_iff {vs : List Value} :
    EverywhereList p vs ↔ ∀ v ∈ vs, v.Everywhere p := by
  induction vs with
  | nil => simp [EverywhereList]
  | cons v vs ih => rw [EverywhereList, ih, List.forall_mem_cons]

theorem everywhereEntries_iff {es : List (String × Value)} :
    EverywhereEntries p es ↔ ∀ e ∈ es, e.2.Everywhere p := by
  induction es with
  | nil => simp [EverywhereEntries]
  | cons e es ih => rw [EverywhereEntries, ih, List.forall_mem_cons]

theorem everywhere_list {vs : List Value} :
    Everywhere p (.L vs) ↔ p (.L vs) ∧ ∀ v ∈ vs, v.Everywhere p := by
  rw [Everywhere, everywhereList_iff]

theorem everywhere_map {es : List (String × Value)} :
    Everywhere p (.M es) ↔ p (.M es) ∧ ∀ e ∈ es, e.2.Everywhere p := by
  rw [Everywhere, everywhereEntries_iff]

theorem everywhere_leaf {v : Value} (h : v.flat = true) : Everywhere p v ↔ p v := by
  cases v <;> first | exact Iff.rfl | cases h

/-- What is said of a list or a map may look at the names of its entries only,
in any order. -/
structure OfNames (p : Value → Prop) : Prop where
  list : ∀ vs ws, p (.L vs) → p (.L ws)
  map : ∀ es fs, (es.map Prod.fst).Perm (fs.map Prod.fst) → p (.M es) → p (.M fs)

theorem Reordered.everywhere (hp : OfNames p) {v w : Value} (h : Reordered v w)
    (hv : v.Everywhere p) : w.Everywhere p := by
  induction h with
  | refl v => exact hv
  | trans first second ih₁ ih₂ => exact ih₂ (ih₁ hv)
  | entries h =>
      obtain ⟨hown, hvalues⟩ := everywhere_map.mp hv
      apply everywhere_map.mpr
      exact ⟨hp.map _ _ (h.map Prod.fst) hown, fun e he => hvalues e (h.mem_iff.mpr he)⟩
  | element before after h ih =>
      rw [everywhere_list, List.forall_mem_append, List.forall_mem_cons] at hv ⊢
      exact ⟨hp.list _ _ hv.1, hv.2.1, ih hv.2.2.1, hv.2.2.2⟩
  | entry before after name h ih =>
      rw [everywhere_map, List.forall_mem_append, List.forall_mem_cons] at hv ⊢
      refine ⟨hp.map _ _ ?_ hv.1, hv.2.1, ih hv.2.2.1, hv.2.2.2⟩
      rw [List.map_append, List.map_append, List.map_cons, List.map_cons]

/-! ### Distinct names -/

/-- No map has a name twice. -/
def DistinctNames (v : Value) : Prop := v.Everywhere fun u => (u.entries.map Prod.fst).Nodup

theorem distinctNames_list {vs : List Value} :
    DistinctNames (.L vs) ↔ ∀ v ∈ vs, v.DistinctNames := by
  rw [DistinctNames, everywhere_list]
  simp [entries, DistinctNames]

theorem distinctNames_map {es : List (String × Value)} :
    DistinctNames (.M es) ↔ (es.map Prod.fst).Nodup ∧ ∀ e ∈ es, e.2.DistinctNames := by
  rw [DistinctNames, everywhere_map]
  rfl

theorem distinctNames_leaf {v : Value} (h : v.flat = true) : DistinctNames v := by
  rw [DistinctNames, everywhere_leaf h]
  cases v <;> first | exact List.nodup_nil | cases h

theorem Reordered.distinct {v w : Value} (h : Reordered v w) (hv : v.DistinctNames) :
    w.DistinctNames :=
  h.everywhere ⟨fun _ _ h => h, fun _ _ h => h.nodup_iff.mp⟩ hv

end Value

end DdbShell
