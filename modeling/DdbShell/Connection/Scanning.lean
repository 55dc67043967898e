import DdbShell.Connection.Seams
import DdbShell.Connection.Template

/-!
The placeholder scanner beside the lexer. The scanner knows strings and no
comments, so it is in a string after an odd number of quotes. The lexer's
strings have their quotes in pairs; the others, in comments or open to the end
of the text, are stray. The two agree at a placeholder exactly when the stray
quotes before it come out even, or odd where it stands in a comment.
-/

namespace DdbShell

open Flex (Lexeme scan texts texts_scan texts_cons)
open Flex.Pattern
open Lexer

/-! ### Places among the lexemes -/

section Lexemes

variable {τ : Type}

/-- The lexeme that a position of the text is in. -/
def lexemeAt : List (Lexeme τ) → Nat → Option (Lexeme τ)
  | [], _ => none
  | l :: ls, i => if i < l.text.length then some l else lexemeAt ls (i - l.text.length)

def isString (w : List Char) : Bool := dquoted.accepts w

/-- The quotes before a position that belong to no string. -/
def strayQuotes : List (Lexeme τ) → Nat → Nat
  | [], _ => 0
  | l :: ls, i =>
      (if isString l.text then 0 else (l.text.take i).count '"') +
        strayQuotes ls (i - l.text.length)

end Lexemes

/-- A position is in a double-quoted string of the text. -/
def inString (sql : List Char) (i : Nat) : Bool :=
  (lexemeAt (scan rules sql) i).any fun l => isString l.text

/-- A position is in a comment of the text. -/
def inComment (sql : List Char) (i : Nat) : Bool :=
  (lexemeAt (scan rules sql) i).any fun l => isComment l.text

/-- What is replaced in a template are its places. They are the placeholders
where the lexer has neither a string nor a comment, and take nothing of one. -/
structure AgreesWithLexer (sql : List Char) : Prop where
  expands : ∀ p : PreparedStatement, p.sql = sql → p.bindError = none →
    p.expand = (template sql).fill p 0 (List.replicate p.named.length false)
  places : ∀ i, marksHere (sql.drop i) = true →
    (i ∈ (template sql).places ↔ ¬(inString sql i = true ∨ inComment sql i = true))
  copies : ∀ span ∈ (template sql).spans, ∀ k < span.2.text.length,
    ¬(inString sql (span.1 + k) = true ∨ inComment sql (span.1 + k) = true)

/-- Before each placeholder the stray quotes are even in number, and odd before
one in a comment. -/
def StrayQuotesPaired (sql : List Char) : Prop :=
  ∀ i, marksHere (sql.drop i) = true →
    strayQuotes (scan rules sql) i % 2 = if inComment sql i = true then 1 else 0

/-! ### Quotes in a string -/

/-- Up to a character of it that is no quote, the inside of a string has its
quotes in pairs. -/
theorem quotedBody_pairs {b : List Char} (hb : b ∈ quotedBody.lang) {i : Nat} {c : Char}
    (hi : (b ++ ['"'])[i]? = some c) (hc : c ≠ '"') : (b.take i).count '"' % 2 = 0 := by
  induction hlen : b.length using Nat.strong_induction_on generalizing b i with
  | _ n ih =>
      cases b with
      | nil => simp
      | cons d b =>
          cases i with
          | zero => simp
          | succ i =>
              rw [List.cons_append, List.getElem?_cons_succ] at hi
              rcases cons_mem_quotedBody.mp hb with ⟨hd, hb⟩ | ⟨rfl, t, rfl, ht⟩
              · have hrest := ih b.length (by simp at hlen; omega) hb hi rfl
                rw [List.take_succ_cons, List.count_cons_of_ne hd]
                exact hrest
              · cases i with
                | zero =>
                    rw [List.cons_append, List.getElem?_cons_zero] at hi
                    exact absurd (Option.some.inj hi).symm hc
                | succ i =>
                    rw [List.cons_append, List.getElem?_cons_succ] at hi
                    have hrest := ih t.length (by simp at hlen; omega) ht hi rfl
                    rw [List.take_succ_cons, List.take_succ_cons, List.count_cons_self,
                      List.count_cons_self]
                    omega

theorem quotedBody_even {b : List Char} (hb : b ∈ quotedBody.lang) : b.count '"' % 2 = 0 := by
  induction hlen : b.length using Nat.strong_induction_on generalizing b with
  | _ n ih =>
      cases b with
      | nil => rfl
      | cons d b =>
          rcases cons_mem_quotedBody.mp hb with ⟨hd, hb⟩ | ⟨rfl, t, rfl, ht⟩
          · rw [List.count_cons_of_ne hd]
            exact ih b.length (by simp at hlen; omega) hb rfl
          · have hrest := ih t.length (by simp at hlen; omega) ht rfl
            rw [List.count_cons_self, List.count_cons_self]
            omega

theorem isString_iff {w : List Char} :
    isString w = true ↔ ∃ b ∈ quotedBody.lang, w = '"' :: (b ++ ['"']) :=
  (accepts_iff _ _).trans mem_dquoted

theorem string_even {w : List Char} (hw : isString w = true) : w.count '"' % 2 = 0 := by
  obtain ⟨b, hb, rfl⟩ := isString_iff.mp hw
  have hbody := quotedBody_even hb
  rw [List.count_cons_self, List.count_append, List.count_singleton_self]
  omega

/-- Within a string the number of quotes so far is odd. -/
theorem string_odd {w : List Char} (hw : isString w = true) {i : Nat} {c : Char}
    (hi : w[i]? = some c) (hc : c ≠ '"') : (w.take i).count '"' % 2 = 1 := by
  obtain ⟨b, hb, rfl⟩ := isString_iff.mp hw
  cases i with
  | zero =>
      rw [List.getElem?_cons_zero] at hi
      exact absurd (Option.some.inj hi).symm hc
  | succ i =>
      rw [List.getElem?_cons_succ] at hi
      have hlt : i < b.length := by
        by_contra hge
        obtain ⟨hi', hget⟩ := List.getElem?_eq_some_iff.mp hi
        rw [List.length_append, List.length_singleton] at hi'
        obtain rfl : i = b.length := by omega
        rw [List.getElem_concat_length rfl] at hget
        exact hc hget.symm
      have hbody := quotedBody_pairs hb hi hc
      rw [List.take_succ_cons, List.count_cons_self, List.take_append_of_le_length (by omega)]
      omega

/-! ### The parity of the quotes before a position -/

/-- The quotes before a position are the stray ones, whole strings apart, and
an odd number more within a string. -/
theorem quotes_before {τ : Type} (ls : List (Lexeme τ)) {i : Nat} {c : Char}
    (hi : (texts ls)[i]? = some c) (hc : c ≠ '"') :
    ((texts ls).take i).count '"' % 2 =
      (strayQuotes ls i + if (lexemeAt ls i).any fun l => isString l.text then 1 else 0) % 2 := by
  induction ls generalizing i with
  | nil => cases hi
  | cons l ls ih =>
      rw [texts_cons] at hi ⊢
      rw [strayQuotes, lexemeAt]
      by_cases hlt : i < l.text.length
      · have hnone : strayQuotes ls 0 = 0 := by
          clear ih hi
          induction ls with
          | nil => rfl
          | cons m ls ih => simp [strayQuotes, ih]
        rw [if_pos hlt, show i - l.text.length = 0 by omega, hnone,
          List.take_append_of_le_length (by omega)]
        rw [List.getElem?_append_left hlt] at hi
        by_cases hstring : isString l.text = true
        · simp [hstring, string_odd hstring hi hc]
        · simp [hstring]
      · rw [if_neg hlt]
        have hle : l.text.length ≤ i := by omega
        rw [List.getElem?_append_right hle] at hi
        have hrest := ih hi
        rw [List.take_append, List.take_of_length_le hle, List.count_append]
        by_cases hstring : isString l.text = true
        · have heven := string_even hstring
          rw [if_pos hstring]
          omega
        · rw [if_neg hstring]
          omega

/-! ### Strings and comments begin with their own characters -/

/-- The characters that strings and comments begin with. -/
def opener (c : Char) : Bool := c = '"' || c = '-' || c = '/'

theorem opener_of_isNameChar {c : Char} (h : isNameChar c = true) : opener c = false := by
  simp [opener, isNameChar_ne h (d := '"') (by decide +kernel),
    isNameChar_ne h (d := '-') (by decide +kernel), isNameChar_ne h (d := '/') (by decide +kernel)]

theorem isComment_head {w : List Char} (h : isComment w = true) :
    w.head? = some '-' ∨ w.head? = some '/' := by
  rw [isComment, Bool.or_eq_true, accepts_iff, accepts_iff] at h
  rcases h with h | h
  · obtain ⟨a, ha, b, -, rfl⟩ := mem_seq.mp h
    rw [mem_text.mp ha]
    exact .inl rfl
  · obtain ⟨a, ha, b, -, rfl⟩ := mem_seq.mp h
    rw [mem_text.mp ha]
    exact .inr rfl

theorem isString_head {w : List Char} (h : isString w = true) : w.head? = some '"' := by
  obtain ⟨b, -, rfl⟩ := isString_iff.mp h
  rfl

theorem isComment_of_isString {w : List Char} (h : isString w = true) : isComment w = false := by
  rw [← Bool.not_eq_true]
  intro hcomment
  rcases isComment_head hcomment with hhead | hhead
  · rw [isString_head h] at hhead
    cases hhead
  · rw [isString_head h] at hhead
    cases hhead

/-- The lexeme that a text begins in begins the text. -/
theorem lexemeAt_zero {τ : Type} {ls : List (Lexeme τ)} {l : Lexeme τ}
    (h : lexemeAt ls 0 = some l) : l.text.head? = (texts ls).head? := by
  induction ls with
  | nil => cases h
  | cons m ls ih =>
      rw [lexemeAt] at h
      rw [texts_cons]
      split at h
      · rename_i hpos
        cases h
        obtain ⟨c, t, hct⟩ := List.exists_cons_of_length_pos hpos
        rw [hct]
        rfl
      · rename_i hpos
        have hnil : m.text = [] := List.length_eq_zero_iff.mp (by omega)
        rw [Nat.zero_sub] at h
        rw [hnil, List.nil_append]
        exact ih h

/-- A lexeme that has a position, and does not begin there, has the one before. -/
theorem lexemeAt_pred {τ : Type} {ls : List (Lexeme τ)} {i : Nat} {l : Lexeme τ}
    (h : lexemeAt ls (i + 1) = some l) (hhead : l.text.head? ≠ (texts ls)[i + 1]?) :
    lexemeAt ls i = some l := by
  induction ls generalizing i with
  | nil => cases h
  | cons m ls ih =>
      rw [texts_cons] at hhead
      rw [lexemeAt] at h ⊢
      split at h
      · rename_i hlt
        rw [if_pos (by omega)]
        exact h
      rename_i hge
      rw [List.getElem?_append_right (by omega)] at hhead
      by_cases hlt : i < m.text.length
      · have hzero : i + 1 - m.text.length = 0 := by omega
        rw [hzero] at h hhead
        rw [← List.head?_eq_getElem?] at hhead
        exact absurd (lexemeAt_zero h) hhead
      · rw [if_neg hlt]
        have hsucc : i + 1 - m.text.length = i - m.text.length + 1 := by omega
        rw [hsucc] at h hhead
        exact ih h hhead

/-- In a string or comment, and not at its beginning: so is the position before. -/
theorem sheltered_pred {sql : List Char} {i : Nat} {c : Char} (hi : sql[i + 1]? = some c)
    (hc : opener c = false)
    (h : inString sql (i + 1) = true ∨ inComment sql (i + 1) = true) :
    inString sql i = true ∨ inComment sql i = true := by
  simp only [opener, Bool.or_eq_false_iff, decide_eq_false_iff_not] at hc
  rw [← texts_scan covers sql] at hi
  simp only [inString, inComment, Option.any_eq_true] at h ⊢
  rcases h with ⟨l, hl, hstring⟩ | ⟨l, hl, hcomment⟩
  · refine .inl ⟨l, lexemeAt_pred hl ?_, hstring⟩
    rw [hi, isString_head hstring]
    rintro ⟨⟩
    exact hc.1.1 rfl
  · refine .inr ⟨l, lexemeAt_pred hl ?_, hcomment⟩
    rw [hi]
    rcases isComment_head hcomment with hhead | hhead
    · rw [hhead]
      rintro ⟨⟩
      exact hc.1.2 rfl
    · rw [hhead]
      rintro ⟨⟩
      exact hc.2 rfl

/-! ### Agreement -/

/-- What stands at a placeholder is no quote. -/
theorem marksHere_getElem {sql : List Char} {i : Nat} (h : marksHere (sql.drop i) = true) :
    ∃ c, sql[i]? = some c ∧ c ≠ '"' := by
  cases hdrop : sql.drop i with
  | nil =>
      rw [hdrop] at h
      cases h
  | cons c cs =>
      refine ⟨c, ?_, ?_⟩
      · rw [← List.head?_drop, hdrop, List.head?_cons]
      · rintro rfl
        rw [hdrop, marksHere_of_quote] at h
        cases h

/-- Whether the scanner and the lexer agree at one placeholder. -/
theorem agrees_at {sql : List Char} {i : Nat} (hmark : marksHere (sql.drop i) = true) :
    (i ∈ (template sql).places ↔ ¬(inString sql i = true ∨ inComment sql i = true)) ↔
      strayQuotes (scan rules sql) i % 2 = if inComment sql i = true then 1 else 0 := by
  obtain ⟨c, hi, hc⟩ := marksHere_getElem hmark
  have hquotes := quotes_before (scan rules sql) (by rw [texts_scan covers]; exact hi) hc
  rw [texts_scan covers, ← inString] at hquotes
  rw [template_reads sql i, QuotesClosed, and_iff_right hmark, Bool.toNat_false, Nat.add_zero,
    hquotes]
  by_cases hstring : inString sql i = true
  · have hcomment : inComment sql i = false := by
      obtain ⟨l, hl, hstring⟩ := (Option.any_eq_true _ _).mp hstring
      rw [inComment, hl]
      exact isComment_of_isString hstring
    simp only [hstring, hcomment, Bool.false_eq_true, if_true, if_false, true_or, not_true_eq_false,
      iff_false]
    omega
  · rw [Bool.not_eq_true] at hstring
    by_cases hcomment : inComment sql i = true
    · simp only [hstring, hcomment, Bool.false_eq_true, if_true, if_false, or_true,
        not_true_eq_false, iff_false]
      omega
    · rw [Bool.not_eq_true] at hcomment
      simp only [hstring, hcomment, Bool.false_eq_true, if_false, or_self, not_false_eq_true,
        iff_true]
      omega

/-- At each place of a template stands what the place is. -/
theorem spansFrom_text {n : Nat} {rest : List (Mark × List Char)} {before : List Char}
    (hn : before.length = n) {span : Nat × Mark} (h : span ∈ Template.spansFrom n rest) :
    span.2.text <+: (before ++ rest.flatMap fun piece => piece.1.text ++ piece.2).drop span.1 := by
  induction rest generalizing n before with
  | nil => cases h
  | cons piece rest ih =>
      obtain ⟨m, text⟩ := piece
      rw [List.flatMap_cons]
      rcases List.mem_cons.mp h with rfl | h
      · dsimp only
        rw [← hn, List.drop_left, List.append_assoc]
        exact List.prefix_append _ _
      · have hlength : (before ++ (m.text ++ text)).length = n + m.text.length + text.length := by
          rw [List.length_append, List.length_append, hn]
          omega
        rw [← List.append_assoc]
        exact ih hlength h

theorem span_text {sql : List Char} {span : Nat × Mark} (h : span ∈ (template sql).spans) :
    span.2.text <+: sql.drop span.1 := by
  have htext := spansFrom_text rfl h
  rwa [← Template.write, template_text] at htext

/-- Nothing within a string or a comment is replaced where no place begins there. -/
theorem copies_of_places {sql : List Char} {span : Nat × Mark} (hspan : span ∈ (template sql).spans)
    (hplace : ¬(inString sql span.1 = true ∨ inComment sql span.1 = true)) {k : Nat}
    (hk : k < span.2.text.length) :
    ¬(inString sql (span.1 + k) = true ∨ inComment sql (span.1 + k) = true) := by
  induction k with
  | zero => exact hplace
  | succ k ih =>
      obtain ⟨after, hafter⟩ := span_text hspan
      have hchar : sql[span.1 + k + 1]? = some span.2.text[k + 1] := by
        rw [Nat.add_assoc, ← List.getElem?_drop, ← hafter, List.getElem?_append_left hk,
          List.getElem?_eq_getElem hk]
      have hmark : span.2 ∈ (template sql).marks := by
        rw [← Template.spans_marks]
        exact List.mem_map_of_mem hspan
      have htail : span.2.text[k + 1] ∈ span.2.text.tail := by
        apply List.mem_of_getElem? (i := k)
        rw [List.getElem?_tail, List.getElem?_eq_getElem hk]
      have hname := templateLoop_wellFormed span.2 hmark _ htail
      intro hshelter
      apply ih (by omega)
      exact sheltered_pred hchar (opener_of_isNameChar hname) hshelter

/-- The scanner agrees with the lexer exactly where the stray quotes are paired. -/
theorem placeholders_agree_iff (sql : List Char) :
    AgreesWithLexer sql ↔ StrayQuotesPaired sql := by
  constructor
  · intro h i hmark
    exact (agrees_at hmark).mp (h.places i hmark)
  · intro h
    refine ⟨?_, fun i hmark => (agrees_at hmark).mpr (h i hmark), ?_⟩
    · rintro p rfl herror
      rw [expand_eq, herror]
    · intro span hspan k hk
      apply copies_of_places hspan _ hk
      have hplace : span.1 ∈ (template sql).places := List.mem_map_of_mem hspan
      have hmark := ((template_reads sql span.1).mp hplace).1
      exact ((agrees_at hmark).mpr (h span.1 hmark)).mp hplace

/-- A quote in a comment hides the placeholder after it. -/
theorem quoteInComment_hides :
    ¬AgreesWithLexer "-- 5\" disks\nselect * from t where id = ?;".toList := by
  intro h
  have hplace : 39 ∉ (template "-- 5\" disks\nselect * from t where id = ?;".toList).places := by
    decide +kernel
  have hstring : inString "-- 5\" disks\nselect * from t where id = ?;".toList 39 = false := by
    decide +kernel
  have hcomment : inComment "-- 5\" disks\nselect * from t where id = ?;".toList 39 = false := by
    decide +kernel
  apply hplace
  rw [h.places 39 (by decide +kernel), hstring, hcomment]
  decide

end DdbShell
