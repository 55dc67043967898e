import Mathlib.Data.List.Induction

/-!
Text cut at breaks into its nonempty pieces. Two pieces of text are cut
separately whenever there is a break on the border between them.
-/

namespace Words

variable {α : Type}

/-- The nonempty pieces between breaks. -/
def words (isBreak : α → Bool) (text : List α) : List (List α) :=
  (text.splitOnP isBreak).filter (· ≠ [])

variable {isBreak : α → Bool}

theorem words_nil : words isBreak [] = [] := by simp [words]

/-- A break ends the text before it. -/
theorem words_break {c : α} (hc : isBreak c = true) (a b : List α) :
    words isBreak (a ++ c :: b) = words isBreak a ++ words isBreak b := by
  unfold words
  rw [List.splitOnP_append_cons _ _ hc, List.filter_append]

theorem words_cons {c : α} (hc : isBreak c = true) (b : List α) :
    words isBreak (c :: b) = words isBreak b := by
  have hcut := words_break hc [] b
  rwa [words_nil, List.nil_append, List.nil_append] at hcut

/-- The border is at a break that ends the first text. -/
theorem words_append_of_last {a : List α} (h : a.getLast?.all isBreak = true) (b : List α) :
    words isBreak (a ++ b) = words isBreak a ++ words isBreak b := by
  induction a using List.reverseRecOn with
  | nil => rw [words_nil, List.nil_append, List.nil_append]
  | append_singleton a c ih =>
      have hc : isBreak c = true := by simpa using h
      rw [List.append_assoc, List.singleton_append, words_break hc, words_break hc, words_nil,
        List.append_nil]

/-- The border is at a break that starts the second text. -/
theorem words_append_of_head {b : List α} (h : b.head?.all isBreak = true) (a : List α) :
    words isBreak (a ++ b) = words isBreak a ++ words isBreak b := by
  cases b with
  | nil => rw [words_nil, List.append_nil, List.append_nil]
  | cons c b =>
      have hc : isBreak c = true := by simpa using h
      rw [words_break hc, words_cons hc]

/-- A text without breaks is one word. -/
theorem words_word {a : List α} (hne : a ≠ []) (h : ∀ c ∈ a, isBreak c = false) :
    words isBreak a = [a] := by
  unfold words
  rw [List.splitOnP_eq_singleton h]
  simp [hne]

/-- The text after a word is nothing or starts with a break. -/
theorem head?_afterWord (text : List α) :
    (text.dropWhile (fun d => !isBreak d)).head?.all isBreak = true := by
  have hstop := List.head?_dropWhile_not (fun d => !isBreak d) text
  cases hhead : (text.dropWhile (fun d => !isBreak d)).head? with
  | none => rfl
  | some d =>
      rw [hhead] at hstop
      simpa using hstop

/-- A text that starts with no break starts with a word. -/
theorem words_cons_of_free {c : α} (hc : isBreak c = false) (text : List α) :
    words isBreak (c :: text) =
      (c :: text.takeWhile (fun d => !isBreak d)) ::
        words isBreak (text.dropWhile (fun d => !isBreak d)) := by
  have hword : words isBreak (c :: text.takeWhile (fun d => !isBreak d)) =
      [c :: text.takeWhile (fun d => !isBreak d)] := by
    refine words_word (by simp) fun d hd => ?_
    rcases List.mem_cons.mp hd with rfl | hd
    · exact hc
    · simpa using List.all_eq_true.mp List.all_takeWhile d hd
  have hborder : (text.dropWhile (fun d => !isBreak d)).head?.all isBreak = true :=
    head?_afterWord text
  have hcut := words_append_of_head hborder (c :: text.takeWhile (fun d => !isBreak d))
  rwa [hword, List.cons_append, List.takeWhile_append_dropWhile, List.singleton_append] at hcut

/-- Text without breaks in front of a word becomes the start of that word. -/
theorem words_append_free {front : List α} (hfront : ∀ c ∈ front, isBreak c = false) {c : α}
    (hc : isBreak c = false) (text : List α) :
    words isBreak (front ++ c :: text) =
      (words isBreak (c :: text)).modifyHead (front ++ ·) := by
  cases front with
  | nil => rw [List.nil_append]; cases words isBreak (c :: text) <;> rfl
  | cons d front =>
      have hkeep : ∀ e ∈ front ++ [c], (!isBreak e) = true := by
        intro e he
        rcases List.mem_append.mp he with he | he
        · simpa using hfront e (List.mem_cons_of_mem _ he)
        · rw [List.mem_singleton.mp he]
          simpa using hc
      rw [List.cons_append, words_cons_of_free (hfront d List.mem_cons_self),
        words_cons_of_free hc, List.modifyHead_cons, List.append_cons,
        List.takeWhile_append_of_pos hkeep, List.dropWhile_append_of_pos hkeep]
      simp

/-- What stands behind the last break of a text. -/
theorem exists_last_word (isBreak : α → Bool) (text : List α) :
    ∃ front back, text = front ++ back ∧ front.getLast?.all isBreak = true ∧
      ∀ c ∈ back, isBreak c = false := by
  induction text using List.reverseRecOn with
  | nil => exact ⟨[], [], rfl, rfl, by simp⟩
  | append_singleton text c ih =>
      cases hc : isBreak c with
      | true => exact ⟨text ++ [c], [], by simp, by simpa using hc, by simp⟩
      | false =>
          obtain ⟨front, back, rfl, hborder, hback⟩ := ih
          refine ⟨front, back ++ [c], by simp, hborder, fun d hd => ?_⟩
          rcases List.mem_append.mp hd with hd | hd
          · exact hback d hd
          · rw [List.mem_singleton.mp hd]
            exact hc

/-- Where two texts meet in a word, that word has the first character of the
second text. -/
theorem mem_words_append {a b : List α} {m : α} (hm : isBreak m = false) {w : List α}
    (h : w ∈ words isBreak (a ++ m :: b)) :
    m ∈ w ∨ w ∈ words isBreak a ∨ w ∈ words isBreak (m :: b) := by
  obtain ⟨front, back, rfl, hborder, hback⟩ := exists_last_word isBreak a
  rw [List.append_assoc, words_append_of_last hborder, words_append_free hback hm,
    words_cons_of_free hm, List.modifyHead_cons] at h
  rcases List.mem_append.mp h with h | h
  · right
    left
    rw [words_append_of_last hborder]
    exact List.mem_append_left _ h
  · rcases List.mem_cons.mp h with rfl | h
    · left
      simp
    · right
      right
      rw [words_cons_of_free hm]
      exact List.mem_cons_of_mem _ h

/-- A word stands at the start of the text or after a break. -/
theorem mem_words {w text : List α} (h : w ∈ words isBreak text) :
    ∃ front c rest, text = front ++ c :: rest ∧ w.head? = some c ∧
      front.getLast?.all isBreak = true := by
  induction hlen : text.length using Nat.strongRecOn generalizing text with
  | ind n ih =>
      subst hlen
      -- what stands before a break does not end the word's front
      have hlater : ∀ before b after, text = before ++ b :: after → isBreak b = true →
          w ∈ words isBreak after → ∃ front c rest, text = front ++ c :: rest ∧
            w.head? = some c ∧ front.getLast?.all isBreak = true := by
        intro before b after htext hb hw
        obtain ⟨front, c, rest, rfl, hhead, hborder⟩ := ih after.length (by
          rw [htext, List.length_append, List.length_cons]
          omega) hw rfl
        refine ⟨before ++ b :: front, c, rest, by rw [htext]; simp, hhead, ?_⟩
        cases hlast : front.getLast? with
        | none => simp [List.getLast?_eq_none_iff.mp hlast, hb]
        | some d => simpa [List.getLast?_append, List.getLast?_cons, hlast] using hborder
      cases text with
      | nil =>
          rw [words_nil] at h
          cases h
      | cons c text =>
          cases hc : isBreak c with
          | true =>
              rw [words_cons hc] at h
              exact hlater [] c text rfl hc h
          | false =>
              rw [words_cons_of_free hc] at h
              rcases List.mem_cons.mp h with rfl | h
              · exact ⟨[], c, text, rfl, rfl, rfl⟩
              · cases hrest : text.dropWhile (fun d => !isBreak d) with
                | nil =>
                    rw [hrest, words_nil] at h
                    cases h
                | cons b after =>
                    have hb : (text.dropWhile (fun d => !isBreak d)).head?.all isBreak = true :=
                      head?_afterWord text
                    rw [hrest, List.head?_cons, Option.all_some] at hb
                    rw [hrest, words_cons hb] at h
                    refine hlater (c :: text.takeWhile (fun d => !isBreak d)) b after ?_ hb h
                    rw [List.cons_append, ← hrest, List.takeWhile_append_dropWhile]

end Words
