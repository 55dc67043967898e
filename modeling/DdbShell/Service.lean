import DdbShell.Expressions.Where

/-!
The service's side of a condition: items, and what one leaf predicate says
about them. Equality of values and the other predicates on a present value are
the service's own (`1` and `1.0` are one number there), so they are a
parameter; what an absent attribute does is fixed.
-/

namespace DdbShell

/-- An item as a WHERE clause sees it: the value each operand text resolves
to, where an attribute name resolves to that attribute. -/
abbrev Item := String → Option Value

/-- The item view of a key that holds no item. -/
def Item.absent : Item := fun _ => none

structure Service where
  /-- a predicate on a value that is there -/
  test : Predicate → Value → Bool

namespace Service

/-- On an absent operand `<>` is true and every other predicate false. -/
def leafHolds (svc : Service) (item : Item) (l : Leaf) : Bool :=
  match l.predicate, item l.lhs with
  | .attributeExists, x => x.isSome
  | .comparison .notEqual rhs, some x => !svc.test (.comparison .equal rhs) x
  | .comparison .notEqual _, none => true
  | p, some x => svc.test p x
  | _, none => false

/-- The item's attributes equal the values of a key map. -/
def matchesKey (svc : Service) (item : Item) (key : KeyMap) : Bool :=
  key.toList.all fun entry => svc.leafHolds item ⟨entry.1, .comparison .equal entry.2⟩

theorem matchesKey_iff {svc : Service} {item : Item} {key : KeyMap} :
    svc.matchesKey item key = true ↔
      ∀ name v, key[name]? = some v → svc.leafHolds item ⟨name, .comparison .equal v⟩ = true := by
  rw [matchesKey, List.all_eq_true]
  constructor
  · intro h name v hv
    exact h (name, v) (Std.TreeMap.mem_toList_iff_getElem?_eq_some.mpr hv)
  · intro h entry hentry
    exact h entry.1 entry.2 (Std.TreeMap.mem_toList_iff_getElem?_eq_some.mp hentry)

theorem matchesKey_one {svc : Service} {item : Item} {key : KeyMap} {p : String} {v : Value}
    (h : ∀ name, key[name]? = if name = p then some v else none) :
    svc.matchesKey item key = svc.leafHolds item ⟨p, .comparison .equal v⟩ := by
  rw [Bool.eq_iff_iff, matchesKey_iff]
  constructor
  · intro hall
    exact hall p v (by simp [h])
  · intro hleaf name u hu
    rw [h] at hu
    split at hu
    · rename_i hname
      cases hu
      rw [hname]
      exact hleaf
    · cases hu

theorem matchesKey_two {svc : Service} {item : Item} {key : KeyMap} {p r : String} {v w : Value}
    (h : ∀ name, key[name]? = if name = p then some v else if name = r then some w else none)
    (hne : r ≠ p) :
    svc.matchesKey item key = (svc.leafHolds item ⟨p, .comparison .equal v⟩ &&
      svc.leafHolds item ⟨r, .comparison .equal w⟩) := by
  rw [Bool.eq_iff_iff, matchesKey_iff, Bool.and_eq_true]
  constructor
  · intro hall
    exact ⟨hall p v (by simp [h]), hall r w (by simp [h, hne])⟩
  · intro hleaf name u hu
    rw [h] at hu
    split at hu
    · rename_i hname
      cases hu
      rw [hname]
      exact hleaf.1
    · split at hu
      · rename_i hname
        cases hu
        rw [hname]
        exact hleaf.2
      · cases hu

/-- The item satisfies the clause. -/
def satisfies (svc : Service) (item : Item) (w : Where) : Bool :=
  w.root.holds (svc.leafHolds item)

/-- A service that compares values as they are written. -/
def verbatim : Service where
  test
    | .comparison .equal rhs, x => x = rhs
    | .isIn rhs, x => rhs.contains x
    | .attributeExists, _ => true
    | .attributeType .n, .N _ | .attributeType .s, .S _ | .attributeType .b, .B _ => true
    | .beginsWith (.S start), .S s => start.toList.isPrefixOf s.toList
    | _, _ => false

end Service

/-- A base-table key schema: one partition key and at most one sort key. -/
structure BaseKey where
  pk : String
  rk : Option String
  distinct : rk ≠ some pk

namespace BaseKey

def pkList (key : BaseKey) : List String := [key.pk]

def rkList (key : BaseKey) : List String := key.rk.toList

/-- The names the write builders pass on: no sort key is the empty name. -/
def rkName (key : BaseKey) : String := key.rkList.headD ""

def attributes (key : BaseKey) : List String := key.pk :: key.rkList

end BaseKey

end DdbShell
