import Mathlib.Data.List.TakeWhile

/-!
Placeholders in a text. A placeholder is a mark and the longest run of word
characters after it, wherever the mark stands. `found` lists them, `substitute`
replaces those that have a meaning, and both go piece by piece over a text that
is put together so that no placeholder runs across a border.
-/

namespace Placeholder

variable {α : Type} [DecidableEq α] (word : α → Bool) (mark : α)

/-- The placeholders of a text, in order. -/
def found : List α → List (List α)
  | [] => []
  | c :: cs => if c = mark then (c :: cs.takeWhile word) :: found cs else found cs

/-- Replace the placeholders that `meaning` knows. The number counts the
characters of a replaced placeholder that are still to be passed over. -/
def substitute (meaning : List α → Option (List α)) : Nat → List α → List α
  | _, [] => []
  | skip + 1, _ :: cs => substitute meaning skip cs
  | 0, c :: cs =>
      if c = mark then
        match meaning (c :: cs.takeWhile word) with
        | some text => text ++ substitute meaning (cs.takeWhile word).length cs
        | none => c :: substitute meaning 0 cs
      else c :: substitute meaning 0 cs

/-- No run of word characters goes on into this text. -/
def Opens (text : List α) : Prop := text.head?.all (fun c => !word c) = true

instance (text : List α) : Decidable (Opens word text) :=
  inferInstanceAs (Decidable (text.head?.all (fun c => !word c) = true))

variable {word mark}

omit [DecidableEq α] in
theorem takeWhile_append {a b : List α} (h : Opens word b) :
    (a ++ b).takeWhile word = a.takeWhile word := by
  induction a with
  | nil =>
      cases b with
      | nil => rfl
      | cons c cs =>
          have hc : word c = false := by simpa [Opens] using h
          simp [hc]
  | cons c cs ih => simp [List.takeWhile_cons, ih]

theorem found_append {a b : List α} (h : Opens word b) :
    found word mark (a ++ b) = found word mark a ++ found word mark b := by
  induction a with
  | nil => rfl
  | cons c cs ih =>
      rw [List.cons_append, found, found, ih, takeWhile_append h]
      split <;> rfl

theorem found_of_notMem {a : List α} (h : mark ∉ a) : found word mark a = [] := by
  induction a with
  | nil => rfl
  | cons c cs ih =>
      rw [List.mem_cons, not_or] at h
      rw [found, if_neg (fun heq => h.1 heq.symm), ih h.2]

theorem found_notMem_append {a : List α} (h : mark ∉ a) (b : List α) :
    found word mark (a ++ b) = found word mark b := by
  induction a with
  | nil => rfl
  | cons c cs ih =>
      rw [List.mem_cons, not_or] at h
      rw [List.cons_append, found, if_neg (fun heq => h.1 heq.symm), ih h.2]

/-- A text without marks keeps what stands on its sides apart. -/
theorem found_between {gap : List α} (hne : gap ≠ []) (hopen : Opens word gap) (hmark : mark ∉ gap)
    (a b : List α) :
    found word mark (a ++ gap ++ b) = found word mark a ++ found word mark b := by
  have hgap : Opens word (gap ++ b) := by
    cases gap with
    | nil => exact absurd rfl hne
    | cons c cs => exact hopen
  rw [List.append_assoc, found_append hgap, found_notMem_append hmark]

theorem found_single {w : List α} (hmark : mark ∉ w) (hw : ∀ c ∈ w, word c = true) :
    found word mark (mark :: w) = [mark :: w] := by
  rw [found, if_pos rfl, found_of_notMem hmark, List.takeWhile_eq_self_iff.mpr hw]

/-- Pieces with a mark-free separator between them. -/
theorem found_intercalate {sep : α} (hsep : word sep = false) (hmark : mark ≠ sep)
    (pieces : List (List α)) :
    found word mark ([sep].intercalate pieces) = pieces.flatMap (found word mark) := by
  induction pieces with
  | nil => rfl
  | cons p ps ih =>
      cases ps with
      | nil => simp
      | cons q qs =>
          have hopen : Opens word [sep] := by simp [Opens, hsep]
          rw [List.intercalate_cons_cons, found_between (by simp) hopen (by simpa using hmark), ih]
          rfl

/-! ### Substitution -/

variable {meaning : List α → Option (List α)}

theorem substitute_skip {w : List α} (rest : List α) :
    substitute word mark meaning w.length (w ++ rest) = substitute word mark meaning 0 rest := by
  induction w with
  | nil => rfl
  | cons c cs ih => exact ih

theorem substitute_known {w rest text : List α} (hw : ∀ c ∈ w, word c = true)
    (hopen : Opens word rest) (h : meaning (mark :: w) = some text) :
    substitute word mark meaning 0 (mark :: w ++ rest) =
      text ++ substitute word mark meaning 0 rest := by
  have hrun : (w ++ rest).takeWhile word = w := by
    rw [takeWhile_append hopen, List.takeWhile_eq_self_iff.mpr hw]
  rw [List.cons_append, substitute, if_pos rfl, hrun, h]
  dsimp only
  rw [substitute_skip]

/-- Placeholders without a meaning stay. -/
theorem substitute_unknown {a rest : List α} (hopen : Opens word rest)
    (h : ∀ p ∈ found word mark a, meaning p = none) :
    substitute word mark meaning 0 (a ++ rest) = a ++ substitute word mark meaning 0 rest := by
  induction a with
  | nil => rfl
  | cons c cs ih =>
      rw [List.cons_append, substitute]
      rw [found] at h
      by_cases hc : c = mark
      · rw [if_pos hc] at h ⊢
        rw [takeWhile_append hopen, h _ List.mem_cons_self]
        dsimp only
        rw [ih fun p hp => h p (List.mem_cons_of_mem _ hp)]
        rfl
      · rw [if_neg hc] at h ⊢
        rw [ih h]
        rfl

/-- What a placeholder stands for is in the result. The characters still to be
passed over hold no mark, so no placeholder is lost among them. -/
theorem length_le_substitute (hword : word mark = false) {p text : List α}
    (hmeaning : meaning p = some text) {a : List α} (hp : p ∈ found word mark a) {skip : Nat}
    (hskip : mark ∉ a.take skip) : text.length ≤ (substitute word mark meaning skip a).length := by
  induction a generalizing skip with
  | nil => cases hp
  | cons c cs ih =>
      rw [found] at hp
      cases skip with
      | succ skip =>
          rw [List.take_succ_cons, List.mem_cons, not_or] at hskip
          rw [if_neg (fun heq => hskip.1 heq.symm)] at hp
          exact ih hp hskip.2
      | zero =>
          rw [substitute]
          by_cases hc : c = mark
          · rw [if_pos hc] at hp ⊢
            have hrun : mark ∉ cs.take (cs.takeWhile word).length := by
              rw [← List.prefix_iff_eq_take.mp (List.takeWhile_prefix word)]
              intro hmem
              rw [List.mem_takeWhile_imp hmem] at hword
              cases hword
            rcases List.mem_cons.mp hp with rfl | hp
            · rw [hmeaning]
              simp
            · cases hhead : meaning (c :: cs.takeWhile word) with
              | none =>
                  have htail := ih hp (show mark ∉ cs.take 0 by simp)
                  simp only [List.length_cons]
                  omega
              | some front =>
                  have htail := ih hp hrun
                  simp only [List.length_append]
                  omega
          · rw [if_neg hc] at hp ⊢
            have htail := ih hp (show mark ∉ cs.take 0 by simp)
            simp only [List.length_cons]
            omega

end Placeholder
