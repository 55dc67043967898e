import Mathlib.Data.List.Induction
import Mathlib.Data.List.TakeWhile
import Mathlib.Tactic.Common

/-!
The lines of a text: what stands before its first line end and after its last
one. What ends a line is a parameter, since a text can be counted by one rule
and searched by another.
-/

namespace Lines

variable {α : Type}

/-- The text up to its first line end. -/
def firstLine (isEnd : α → Bool) (text : List α) : List α := text.takeWhile fun c => !isEnd c

/-- The text after its last line end. -/
def lastLine (isEnd : α → Bool) (text : List α) : List α :=
  (text.reverse.takeWhile fun c => !isEnd c).reverse

variable {isEnd : α → Bool}

@[simp] theorem lastLine_nil : lastLine isEnd [] = [] := rfl

theorem lastLine_concat (a : List α) (c : α) :
    lastLine isEnd (a ++ [c]) = if isEnd c then [] else lastLine isEnd a ++ [c] := by
  unfold lastLine
  rw [List.reverse_append, List.reverse_singleton, List.singleton_append, List.takeWhile_cons]
  cases isEnd c <;> simp

/-- A text without line ends goes on with the last line. -/
theorem lastLine_append {b : List α} (h : ∀ c ∈ b, isEnd c = false) (a : List α) :
    lastLine isEnd (a ++ b) = lastLine isEnd a ++ b := by
  induction b using List.reverseRecOn with
  | nil => rw [List.append_nil, List.append_nil]
  | append_singleton b c ih =>
      have hb : ∀ d ∈ b, isEnd d = false := fun d hd => h d (List.mem_append_left _ hd)
      have hc : isEnd c = false := h c (by simp)
      rw [← List.append_assoc, lastLine_concat, ih hb, hc, List.append_assoc]
      rfl

/-- A text with a line end begins the last line anew. -/
theorem lastLine_append_of_mem {b : List α} {c : α} (hc : c ∈ b) (hend : isEnd c = true)
    (a : List α) : lastLine isEnd (a ++ b) = lastLine isEnd b := by
  induction b using List.reverseRecOn with
  | nil => cases hc
  | append_singleton b d ih =>
      rw [← List.append_assoc, lastLine_concat, lastLine_concat]
      by_cases hd : isEnd d = true
      · rw [if_pos hd, if_pos hd]
      · have hb : c ∈ b := by
          rcases List.mem_append.mp hc with hb | hb
          · exact hb
          · rw [List.mem_singleton.mp hb] at hend
            exact absurd hend hd
        rw [if_neg hd, if_neg hd, ih hb]

theorem lastLine_eq_self {a : List α} (h : ∀ c ∈ a, isEnd c = false) : lastLine isEnd a = a := by
  have happend := lastLine_append h []
  rwa [lastLine_nil, List.nil_append] at happend

theorem lastLine_append_cons {c : α} (hc : isEnd c = true) (a b : List α) :
    lastLine isEnd (a ++ c :: b) = lastLine isEnd b := by
  have hsplit : a ++ c :: b = (a ++ [c]) ++ b := by simp
  rw [hsplit]
  by_cases hb : ∃ d ∈ b, isEnd d = true
  · obtain ⟨d, hd, hend⟩ := hb
    exact lastLine_append_of_mem hd hend _
  · have hplain : ∀ d ∈ b, isEnd d = false := fun d hd => by
      simpa using fun hend => hb ⟨d, hd, hend⟩
    rw [lastLine_append hplain, lastLine_concat, if_pos hc, lastLine_eq_self hplain,
      List.nil_append]

/-- The last line is what the text ends in, and it has no line end. -/
theorem lastLine_spec (isEnd : α → Bool) (text : List α) :
    ∃ front, text = front ++ lastLine isEnd text ∧ ∀ c ∈ lastLine isEnd text, isEnd c = false := by
  induction text using List.reverseRecOn with
  | nil => exact ⟨[], rfl, by simp⟩
  | append_singleton a c ih =>
      obtain ⟨front, hsplit, hplain⟩ := ih
      rw [lastLine_concat]
      by_cases hc : isEnd c = true
      · rw [if_pos hc]
        exact ⟨a ++ [c], by simp, by simp⟩
      · rw [if_neg hc]
        refine ⟨front, by rw [← List.append_assoc, ← hsplit], ?_⟩
        intro d hd
        rcases List.mem_append.mp hd with hd | hd
        · exact hplain d hd
        · rw [List.mem_singleton.mp hd]
          simpa using hc

theorem length_lastLine_le (isEnd : α → Bool) (text : List α) :
    (lastLine isEnd text).length ≤ text.length := by
  obtain ⟨front, hsplit, -⟩ := lastLine_spec isEnd text
  have hlength := congrArg List.length hsplit
  rw [List.length_append] at hlength
  omega

/-- A line end is not on the last line. -/
theorem length_lastLine_lt {text : List α} {c : α} (hc : c ∈ text) (hend : isEnd c = true) :
    (lastLine isEnd text).length < text.length := by
  obtain ⟨front, hsplit, hplain⟩ := lastLine_spec isEnd text
  have hfront : c ∈ front := by
    rw [hsplit] at hc
    rcases List.mem_append.mp hc with hc | hc
    · exact hc
    · rw [hplain c hc] at hend
      cases hend
  have hpos := List.length_pos_of_mem hfront
  have hlength := congrArg List.length hsplit
  rw [List.length_append] at hlength
  omega

/-- Where a rule ends no line that another rule does not, nor any more on the
last line, the last line is the same. -/
theorem lastLine_congr {isEnd' : α → Bool} {text : List α}
    (hweak : ∀ c, isEnd c = true → isEnd' c = true)
    (hlast : ∀ c ∈ lastLine isEnd text, isEnd' c = false) :
    lastLine isEnd' text = lastLine isEnd text := by
  induction text using List.reverseRecOn with
  | nil => rfl
  | append_singleton a c ih =>
      rw [lastLine_concat] at hlast ⊢
      rw [lastLine_concat]
      by_cases hc : isEnd c = true
      · rw [if_pos hc, if_pos (hweak c hc)]
      · rw [if_neg hc] at hlast ⊢
        have hc' : isEnd' c = false := hlast c (by simp)
        rw [hc', ih fun d hd => hlast d (List.mem_append_left _ hd)]
        rfl

theorem firstLine_eq_self {a : List α} (h : ∀ c ∈ a, isEnd c = false) : firstLine isEnd a = a :=
  List.takeWhile_eq_self_iff.mpr fun c hc => by simp [h c hc]

theorem firstLine_append {a : List α} (h : ∀ c ∈ a, isEnd c = false) (b : List α) :
    firstLine isEnd (a ++ b) = a ++ firstLine isEnd b :=
  List.takeWhile_append_of_pos fun c hc => by simp [h c hc]

/-- A text is without line ends, or it has a first one. -/
theorem plain_or_split (isEnd : α → Bool) (text : List α) :
    (∀ c ∈ text, isEnd c = false) ∨ ∃ line c rest, text = line ++ c :: rest ∧
      (∀ d ∈ line, isEnd d = false) ∧ isEnd c = true := by
  induction text with
  | nil => exact .inl (by simp)
  | cons c text ih =>
      by_cases hc : isEnd c = true
      · exact .inr ⟨[], c, text, rfl, by simp, hc⟩
      · have hc' : isEnd c = false := by simpa using hc
        rcases ih with hplain | ⟨line, d, rest, rfl, hline, hd⟩
        · exact .inl (List.forall_mem_cons.mpr ⟨hc', hplain⟩)
        · exact .inr ⟨c :: line, d, rest, rfl, List.forall_mem_cons.mpr ⟨hc', hline⟩, hd⟩

/-- The line around a place, from where it begins. -/
theorem firstLine_drop (a b : List α) :
    firstLine isEnd ((a ++ b).drop (a.length - (lastLine isEnd a).length)) =
      lastLine isEnd a ++ firstLine isEnd b := by
  obtain ⟨front, hsplit, hplain⟩ := lastLine_spec isEnd a
  have hlength : a.length - (lastLine isEnd a).length = front.length := by
    have := congrArg List.length hsplit
    rw [List.length_append] at this
    omega
  have hdrop : (a ++ b).drop front.length = lastLine isEnd a ++ b := by
    conv_lhs => rw [hsplit, List.append_assoc, List.drop_left]
  rw [hlength, hdrop, firstLine_append hplain]

end Lines
