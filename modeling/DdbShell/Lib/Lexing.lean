import Mathlib.Tactic.Common

/-!
A lexer by character classes: maximal runs of one class make a lexeme, single
characters of another stand alone, and blanks separate. `lex_append` is the
rule for reasoning about assembled text: two pieces lex separately whenever no
run goes across the border between them.
-/

namespace Lexing

inductive CharClass where
  /-- runs of these are words -/
  | word
  /-- runs of these are operators -/
  | operator
  /-- each of these is a lexeme of its own -/
  | single
  | blank
  deriving DecidableEq, Repr

inductive Lexeme where
  | word (chars : List Char)
  | operator (chars : List Char)
  | single (c : Char)
  deriving DecidableEq, Repr

/-- Put a character in front of the lexemes of the text after it; `joins` says
that the text goes on with the same class. -/
def push (cls : CharClass) (c : Char) (joins : Bool) (ls : List Lexeme) : List Lexeme :=
  match cls, joins, ls with
  | .blank, _, ls => ls
  | .single, _, ls => .single c :: ls
  | .word, true, .word cs :: ls => .word (c :: cs) :: ls
  | .word, _, ls => .word [c] :: ls
  | .operator, true, .operator cs :: ls => .operator (c :: cs) :: ls
  | .operator, _, ls => .operator [c] :: ls

/-- The class of the first character. -/
def headIs (cls : Char → CharClass) (k : CharClass) : List Char → Bool
  | [] => false
  | c :: _ => cls c = k

def lex (cls : Char → CharClass) : List Char → List Lexeme
  | [] => []
  | c :: cs => push (cls c) c (headIs cls (cls c) cs) (lex cls cs)

/-- No run of words or operators goes across the border. -/
def Apart (cls : Char → CharClass) (a b : List Char) : Prop :=
  ∀ c ∈ a.getLast?, headIs cls (cls c) b = true → cls c ≠ .word ∧ cls c ≠ .operator

variable {cls : Char → CharClass}

theorem push_append {k : CharClass} {c : Char} {joins : Bool} {ls ms : List Lexeme}
    (h : joins = true → ls ≠ []) : push k c joins (ls ++ ms) = push k c joins ls ++ ms := by
  cases k with
  | blank => rfl
  | single => rfl
  | word =>
      cases joins with
      | false => rfl
      | true =>
          cases ls with
          | nil => exact absurd rfl (h rfl)
          | cons l ls => cases l <;> rfl
  | operator =>
      cases joins with
      | false => rfl
      | true =>
          cases ls with
          | nil => exact absurd rfl (h rfl)
          | cons l ls => cases l <;> rfl

theorem push_ne_nil {k : CharClass} (hk : k ≠ .blank) (c : Char) (joins : Bool)
    (ls : List Lexeme) : push k c joins ls ≠ [] := by
  cases k with
  | blank => exact absurd rfl hk
  | single => simp [push]
  | word => unfold push; split <;> simp_all
  | operator => unfold push; split <;> simp_all

theorem lex_append {a b : List Char} (h : Apart cls a b) :
    lex cls (a ++ b) = lex cls a ++ lex cls b := by
  induction a with
  | nil => rfl
  | cons c cs ih =>
      cases cs with
      | nil =>
          -- the border: the run of `c` must not go on in `b`
          have hborder := h c rfl
          rw [List.singleton_append, lex, lex]
          cases hhead : headIs cls (cls c) b with
          | false => cases cls c <;> rfl
          | true =>
              obtain ⟨hword, hop⟩ := hborder hhead
              cases hk : cls c with
              | word => exact absurd hk hword
              | operator => exact absurd hk hop
              | single => rfl
              | blank => rfl
      | cons d ds =>
          have htail : lex cls (d :: ds ++ b) = lex cls (d :: ds) ++ lex cls b :=
            ih fun e he => h e (by simpa using he)
          have hhead : ∀ k, headIs cls k (d :: ds ++ b) = headIs cls k (d :: ds) := fun _ => rfl
          have hleft : lex cls (c :: d :: ds) =
              push (cls c) c (headIs cls (cls c) (d :: ds)) (lex cls (d :: ds)) := rfl
          rw [List.cons_append, lex, htail, hhead, hleft]
          by_cases hk : cls c = .blank
          · rw [hk]
            rfl
          · refine push_append ?_
            intro hsame
            have hd : cls d = cls c := by simpa [headIs] using hsame
            rw [lex]
            exact push_ne_nil (hd ▸ hk) _ _ _

theorem lex_word {w : List Char} (hne : w ≠ []) (h : ∀ c ∈ w, cls c = .word) :
    lex cls w = [.word w] := by
  induction w with
  | nil => exact absurd rfl hne
  | cons c cs ih =>
      have hc := h c (by simp)
      cases cs with
      | nil => simp [lex, push, hc, headIs]
      | cons d ds =>
          have hd := h d (by simp)
          rw [lex, ih (by simp) fun e he => h e (List.mem_cons_of_mem _ he), hc]
          simp [push, headIs, hd]

theorem mem_word_of_mem_push {k : CharClass} {c : Char} {joins : Bool} {ls : List Lexeme}
    {w : List Char} (hk : cls c = k)
    (hls : ∀ w, .word w ∈ ls → ∀ d ∈ w, cls d = .word) (h : .word w ∈ push k c joins ls) :
    ∀ d ∈ w, cls d = .word := by
  unfold push at h
  split at h
  · exact hls w h
  · exact hls w (by simpa using h)
  · rename_i cs ls'
    rcases List.mem_cons.mp h with hw | hw
    · cases hw
      intro d hd
      rcases List.mem_cons.mp hd with rfl | hd
      · exact hk
      · exact hls cs List.mem_cons_self d hd
    · exact hls w (List.mem_cons_of_mem _ hw)
  · rcases List.mem_cons.mp h with hw | hw
    · cases hw
      intro d hd
      rw [List.mem_singleton.mp hd]
      exact hk
    · exact hls w hw
  · exact hls w (by simpa using h)
  · exact hls w (by simpa using h)

/-- The characters of a word are word characters. -/
theorem mem_word_of_mem_lex {cs w : List Char} (h : .word w ∈ lex cls cs) :
    ∀ c ∈ w, cls c = .word := by
  induction cs generalizing w with
  | nil => cases h
  | cons c cs ih => exact mem_word_of_mem_push rfl (fun w hw => ih hw) h

/-! ### Characters -/

def Lexeme.chars : Lexeme → List Char
  | .word cs | .operator cs => cs
  | .single c => [c]

theorem chars_push (k : CharClass) (c : Char) (joins : Bool) (ls : List Lexeme) :
    (push k c joins ls).flatMap Lexeme.chars =
      if k = .blank then ls.flatMap Lexeme.chars else c :: ls.flatMap Lexeme.chars := by
  unfold push
  split <;> rfl

/-- A lexer drops nothing but blanks. -/
theorem chars_lex (cs : List Char) :
    (lex cls cs).flatMap Lexeme.chars = cs.filter (cls · ≠ .blank) := by
  induction cs with
  | nil => rfl
  | cons c cs ih =>
      rw [lex, chars_push, ih, List.filter_cons]
      by_cases hblank : cls c = .blank <;> simp [hblank]

end Lexing
