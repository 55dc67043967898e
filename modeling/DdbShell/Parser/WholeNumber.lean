import DdbShell.Parser.Lexer
import Mathlib.Algebra.Group.Int.Defs
import Mathlib.Data.List.TakeWhile

/-!
Whole numbers. A lexeme denotes an integer of any size; `strtoll` reads it to
64 bits, with saturation, and a cast to `int` keeps the low 32.
-/

namespace DdbShell

open Flex.Pattern
open Lexer

/-- Digits read as a decimal number. -/
def digitsValue (ds : List Char) : Nat := ds.foldl (fun n d => 10 * n + (d.toNat - '0'.toNat)) 0

/-- The integer that a whole-number lexeme denotes. -/
def wholeValue (lexeme : String) : Int :=
  match lexeme.toList with
  | '-' :: ds => -(digitsValue ds : Int)
  | ds => digitsValue ds

/-- A lexeme of the two rules that make a whole number. -/
def IsWholeNumber (lexeme : String) : Prop :=
  lexeme.toList ∈ wholeNumber.lang ∨ lexeme = "0"

def longMin : Int := -2 ^ 63

def longMax : Int := 2 ^ 63 - 1

/-- What does not fit is replaced by the nearest number that does. -/
def saturate (n : Int) : Int := max longMin (min n longMax)

/-- `strtoll` in base ten: white space, a sign, and as many digits as there are. -/
def strtoll (s : String) : Int :=
  match s.toList.dropWhile fun c => blank c || c = '\x0b' || c = '\x0c' with
  | '-' :: cs => saturate (-(digitsValue (cs.takeWhile digit) : Int))
  | '+' :: cs => saturate (digitsValue (cs.takeWhile digit))
  | cs => saturate (digitsValue (cs.takeWhile digit))

def parseLl (s : String) : Int := strtoll s

/-- `static_cast<int>` of a `long long`. -/
def intCast (n : Int) : Int := n.bmod (2 ^ 32)

/-- `strtod` of a whole-number lexeme, exactly. -/
def parseDouble (s : String) : Rat := wholeValue s

theorem isWholeNumber_shape {lexeme : String} (h : IsWholeNumber lexeme) :
    ∃ ds, (∀ d ∈ ds, digit d = true) ∧ ds ≠ [] ∧
      (lexeme.toList = ds ∨ lexeme.toList = '-' :: ds) := by
  rcases h with h | rfl
  · obtain ⟨a, ha, b, hb, heq⟩ := mem_seq.mp h
    obtain ⟨c, hc, e, he, rfl⟩ := mem_seq.mp hb
    obtain ⟨d, hd, rfl⟩ := mem_chars.mp hc
    have hdigit : digit d = true := by
      simp only [Bool.and_eq_true, decide_eq_true_eq] at hd
      simp only [digit, Bool.and_eq_true, decide_eq_true_eq]
      exact ⟨Char.le_trans (by decide : '0' ≤ '1') hd.1, hd.2⟩
    refine ⟨[d] ++ e, ?_, by simp, ?_⟩
    · rw [List.forall_mem_append, List.forall_mem_singleton]
      exact ⟨hdigit, mem_star_chars.mp he⟩
    · rcases mem_sign ha with rfl | rfl
      · exact .inl heq.symm
      · exact .inr heq.symm
  · exact ⟨['0'], List.forall_mem_singleton.mpr (by decide), by simp, .inl (by decide)⟩

theorem ne_of_digit {c d : Char} (hc : digit c = true) (hd : digit d = false) : c ≠ d := by
  rintro rfl
  rw [hc] at hd
  cases hd

/-- `strtoll` reads the whole of a whole number. -/
theorem parseLl_eq {lexeme : String} (h : IsWholeNumber lexeme) :
    parseLl lexeme = saturate (wholeValue lexeme) := by
  obtain ⟨ds, hds, hne, heq⟩ := isWholeNumber_shape h
  have htake : ds.takeWhile digit = ds := List.takeWhile_eq_self_iff.mpr hds
  obtain ⟨d, rest, rfl⟩ := List.exists_cons_of_ne_nil hne
  have hdigit : digit d = true := hds d List.mem_cons_self
  have hminus : d ≠ '-' := ne_of_digit hdigit (by decide)
  have hplus : d ≠ '+' := ne_of_digit hdigit (by decide)
  have hspace : ∀ c, c = d ∨ c = '-' →
      (blank c || decide (c = '\x0b') || decide (c = '\x0c')) = false := by
    intro c hc
    rcases hc with rfl | rfl
    · simp [blank, ne_of_digit hdigit (show digit ' ' = false by decide),
        ne_of_digit hdigit (show digit '\t' = false by decide),
        ne_of_digit hdigit (show digit '\r' = false by decide),
        ne_of_digit hdigit (show digit '\n' = false by decide),
        ne_of_digit hdigit (show digit '\x0b' = false by decide),
        ne_of_digit hdigit (show digit '\x0c' = false by decide)]
    · decide
  unfold parseLl strtoll wholeValue
  rcases heq with heq | heq
  · rw [heq, List.dropWhile_cons_of_neg (by rw [hspace d (.inl rfl)]; exact Bool.false_ne_true)]
    split
    · next hcs => exact absurd (List.cons.inj hcs).1 hminus
    · next hcs => exact absurd (List.cons.inj hcs).1 hplus
    · split
      · next hcs => exact absurd (List.cons.inj hcs).1 hminus
      · rw [htake]
  · rw [heq, List.dropWhile_cons_of_neg (by rw [hspace '-' (.inr rfl)]; exact Bool.false_ne_true)]
    simp only [htake]

/-! ### Printed numbers -/

theorem digitsValue_toDigits (n : Nat) : digitsValue (Nat.toDigits 10 n) = n := by
  rw [digitsValue, ← Nat.ofDigitChars_eq_foldl, Nat.ofDigitChars_ten_toDigits]

theorem digit_of_isDigit {c : Char} (h : c.isDigit = true) : digit c = true := by
  simpa [Char.isDigit, digit, Char.le_def] using h

theorem digit_of_mem_toDigits {n : Nat} {c : Char} (h : c ∈ Nat.toDigits 10 n) :
    digit c = true :=
  digit_of_isDigit (Nat.isDigit_of_mem_toDigits (by decide) (by decide) h)

/-- No numeral but zero's begins with a zero. -/
theorem toDigits_shape {n : Nat} (hpos : 0 < n) : ∃ c cs, Nat.toDigits 10 n = c :: cs ∧
    ('1' ≤ c && c ≤ '9') = true ∧ ∀ d ∈ cs, digit d = true := by
  induction n using Nat.strong_induction_on with
  | _ n ih =>
      by_cases hsmall : n < 10
      · rw [Nat.toDigits_of_lt_base hsmall]
        refine ⟨n.digitChar, [], rfl, ?_, by simp⟩
        have hall : ∀ m < 10, 0 < m →
            ('1' ≤ Nat.digitChar m && Nat.digitChar m ≤ '9') = true := by decide
        exact hall n hsmall hpos
      · have hlarge : 10 ≤ n := Nat.le_of_not_lt hsmall
        obtain ⟨c, cs, hcs, hc, hall⟩ := ih (n / 10) (by omega) (by omega)
        refine ⟨c, cs ++ [Nat.digitChar (n % 10)], ?_, hc, ?_⟩
        · rw [Nat.toDigits_of_base_le (by decide) hlarge, hcs]
          rfl
        · intro d hd
          refine digit_of_mem_toDigits (n := n) ?_
          rw [Nat.toDigits_of_base_le (by decide) hlarge, hcs]
          exact List.mem_cons_of_mem c hd

theorem toDigits_mem_wholeNumber {n : Nat} (hpos : 0 < n) {s : List Char} (hs : s ∈ sign.lang) :
    s ++ Nat.toDigits 10 n ∈ wholeNumber.lang := by
  obtain ⟨c, cs, hcs, hc, hall⟩ := toDigits_shape hpos
  rw [hcs]
  exact mem_seq.mpr ⟨s, hs, c :: cs, mem_seq.mpr
    ⟨[c], mem_chars.mpr ⟨c, hc, rfl⟩, cs, mem_star_chars.mpr hall, rfl⟩, rfl⟩

theorem toList_toString (n : Int) : (toString n).toList =
    if 0 ≤ n then Nat.toDigits 10 n.toNat else '-' :: Nat.toDigits 10 (-n).toNat := by
  rw [Int.toString_eq_repr, Int.repr_eq_if]
  split
  · exact Nat.toList_repr
  · rw [String.toList_append, Nat.toList_repr]
    rfl

theorem isWholeNumber_toString (n : Int) : IsWholeNumber (toString n) := by
  rcases Int.lt_trichotomy n 0 with hneg | rfl | hpos
  · refine .inl ?_
    rw [toList_toString, if_neg (by omega)]
    exact toDigits_mem_wholeNumber (s := ['-']) (by omega) ((accepts_iff _ _).mp (by decide))
  · exact .inr rfl
  · refine .inl ?_
    rw [toList_toString, if_pos (by omega)]
    exact toDigits_mem_wholeNumber (s := []) (by omega) ((accepts_iff _ _).mp (by decide))

theorem wholeValue_toString (n : Int) : wholeValue (toString n) = n := by
  unfold wholeValue
  rw [toList_toString]
  by_cases hn : 0 ≤ n
  · rw [if_pos hn]
    split
    · next ds hcs =>
        have hminus : digit '-' = true :=
          digit_of_mem_toDigits (n := n.toNat) (hcs ▸ List.mem_cons_self)
        exact absurd hminus (by decide)
    · rw [digitsValue_toDigits]
      omega
  · rw [if_neg hn]
    simp only [digitsValue_toDigits]
    omega

/-- A number of 64 bits is read back from its text. -/
theorem parseLl_toString {n : Int} (hmin : longMin ≤ n) (hmax : n ≤ longMax) :
    parseLl (toString n) = n := by
  rw [parseLl_eq (isWholeNumber_toString n), wholeValue_toString, saturate, min_eq_left hmax,
    max_eq_right hmin]

end DdbShell
