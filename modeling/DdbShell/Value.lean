import Mathlib.Data.List.TakeWhile
import Mathlib.Tactic.Common

/-!
The engine's SDK-free attribute value. Numbers keep the exact string they
were written with. The source's tagged record is a sum here, so that the
fields of an inactive tag do not exist.
-/

namespace DdbShell

inductive Value where
  | S (s : String)
  | N (s : String)
  | B (s : String)
  | BOOL (boolean : Bool)
  | NUL
  | L (list : List Value)
  | M (map : List (String × Value))
  | SS (set : List String)
  | NS (set : List String)
  | BS (set : List String)
  deriving Repr, Inhabited

namespace Value

mutual

def beq : Value → Value → Bool
  | S s, S t | N s, N t | B s, B t => s = t
  | BOOL b, BOOL c => b = c
  | NUL, NUL => true
  | L xs, L ys => beqList xs ys
  | M xs, M ys => beqMap xs ys
  | SS xs, SS ys | NS xs, NS ys | BS xs, BS ys => xs = ys
  | _, _ => false

def beqList : List Value → List Value → Bool
  | [], [] => true
  | x :: xs, y :: ys => beq x y && beqList xs ys
  | _, _ => false

def beqMap : List (String × Value) → List (String × Value) → Bool
  | [], [] => true
  | (k, x) :: xs, (l, y) :: ys => k = l && (beq x y && beqMap xs ys)
  | _, _ => false

end

mutual

theorem beq_iff (x y : Value) : beq x y = true ↔ x = y := by
  cases x <;> cases y <;> simp only [beq, decide_eq_true_eq, reduceCtorEq, S.injEq, N.injEq,
    B.injEq, BOOL.injEq, L.injEq, M.injEq, SS.injEq, NS.injEq, BS.injEq, Bool.false_eq_true]
  case L.L xs ys => exact beqList_iff xs ys
  case M.M xs ys => exact beqMap_iff xs ys

theorem beqList_iff (xs ys : List Value) : beqList xs ys = true ↔ xs = ys := by
  cases xs with
  | nil => cases ys <;> simp [beqList]
  | cons x xs =>
      cases ys with
      | nil => simp [beqList]
      | cons y ys => simp [beqList, beq_iff x y, beqList_iff xs ys]

theorem beqMap_iff (xs ys : List (String × Value)) : beqMap xs ys = true ↔ xs = ys := by
  cases xs with
  | nil => cases ys <;> simp [beqMap]
  | cons x xs =>
      obtain ⟨k, x⟩ := x
      cases ys with
      | nil => simp [beqMap]
      | cons y ys =>
          obtain ⟨l, y⟩ := y
          simp [beqMap, beq_iff x y, beqMap_iff xs ys, and_assoc]

end

instance : DecidableEq Value := fun x y => decidable_of_iff _ (beq_iff x y)

end Value

/-! ### C strings -/

/-- The text before the first NUL, which is all that a C string keeps. -/
def cString (s : String) : String :=
  String.ofList (s.toList.takeWhile (· ≠ Char.ofNat 0))

/-- No NUL in the text. -/
def nulFree (s : String) : Bool := s.toList.all (· ≠ Char.ofNat 0)

theorem cString_eq {s : String} (h : nulFree s = true) : cString s = s := by
  have hkeep : s.toList.takeWhile (· ≠ Char.ofNat 0) = s.toList :=
    List.takeWhile_eq_self_iff.mpr (by simpa [nulFree] using h)
  rw [cString, hkeep, String.ofList_toList]

theorem nulFree_cString (s : String) : nulFree (cString s) = true := by
  rw [nulFree, cString, String.toList_ofList]
  exact List.all_takeWhile

theorem map_cString {ss : List String} (h : ∀ s ∈ ss, nulFree s = true) :
    ss.map cString = ss := by
  calc ss.map cString = ss.map id := List.map_congr_left fun s hs => cString_eq (h s hs)
    _ = ss := List.map_id ss

end DdbShell
