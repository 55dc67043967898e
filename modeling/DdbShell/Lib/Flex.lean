import Mathlib.Computability.Language
import Mathlib.Tactic.Common

/-!
Scanning by rules. A rule is a pattern with an action; at each place the rule
that matches the longest text is taken, and of several the one written first.

Patterns are regular expressions over character classes, matched by
derivatives. Mathlib's regular expressions have single characters for letters,
which would spell a negated class out over the whole alphabet.

`Stops` is the rule for reasoning about a text in its context: a text is cut
off as one lexeme when no rule matches it together with some of what follows.
`scan_append_iff` says the same of any text: what stands after it leaves its
lexemes alone exactly when every place where a lexeme of it begins is closed.
-/

namespace Flex

open Computability

inductive Pattern where
  | never
  | empty
  | chars (p : Char → Bool)
  | seq (p q : Pattern)
  | alt (p q : Pattern)
  | star (p : Pattern)

namespace Pattern

def lang : Pattern → Language Char
  | never => 0
  | empty => 1
  | chars p => fun w => ∃ c, p c = true ∧ w = [c]
  | seq p q => p.lang * q.lang
  | alt p q => p.lang + q.lang
  | star p => p.lang∗

def char (c : Char) : Pattern := chars (· = c)

/-- The characters of a text, one after the other. -/
def text (s : String) : Pattern := s.toList.foldr (fun c p => seq (char c) p) empty

def opt (p : Pattern) : Pattern := alt p empty

def plus (p : Pattern) : Pattern := seq p (star p)

def times : Nat → Pattern → Pattern
  | 0, _ => empty
  | n + 1, p => seq p (times n p)

/-! ### Matching -/

def nullable : Pattern → Bool
  | never => false
  | empty => true
  | chars _ => false
  | seq p q => p.nullable && q.nullable
  | alt p q => p.nullable || q.nullable
  | star _ => true

/-- `seq`, with nothing left of it where nothing can match. -/
def join : Pattern → Pattern → Pattern
  | never, _ => never
  | empty, q => q
  | p, q => seq p q

/-- `alt`, without the side that cannot match. -/
def either : Pattern → Pattern → Pattern
  | never, q => q
  | p, never => p
  | p, q => alt p q

/-- What is left to match after a character. -/
def deriv (c : Char) : Pattern → Pattern
  | never => never
  | empty => never
  | chars p => if p c then empty else never
  | seq p q =>
      if p.nullable then either (join (p.deriv c) q) (q.deriv c) else join (p.deriv c) q
  | alt p q => either (p.deriv c) (q.deriv c)
  | star p => join (p.deriv c) (star p)

def accepts (p : Pattern) (w : List Char) : Bool := (w.foldl (fun p c => p.deriv c) p).nullable

/-- The length of the longest match at the front of a text. -/
def longest : Pattern → List Char → Option Nat
  | never, _ => none
  | p, [] => if p.nullable then some 0 else none
  | p, c :: s =>
      match longest (p.deriv c) s with
      | some n => some (n + 1)
      | none => if p.nullable then some 0 else none

/-- The characters a match can begin with. -/
def first : Pattern → Char → Bool
  | never, _ => false
  | empty, _ => false
  | chars p, c => p c
  | seq p q, c => p.first c || p.nullable && q.first c
  | alt p q, c => p.first c || q.first c
  | star p, c => p.first c

/-- The characters a match can have. -/
def uses : Pattern → Char → Bool
  | never, _ => false
  | empty, _ => false
  | chars p, c => p c
  | seq p q, c => p.uses c || q.uses c
  | alt p q, c => p.uses c || q.uses c
  | star p, c => p.uses c

/-! ### What the patterns match -/

@[simp] theorem not_mem_never {w : List Char} : w ∉ never.lang := Language.notMem_zero w

@[simp] theorem mem_empty {w : List Char} : w ∈ empty.lang ↔ w = [] := Language.mem_one w

@[simp] theorem mem_chars {p : Char → Bool} {w : List Char} :
    w ∈ (chars p).lang ↔ ∃ c, p c = true ∧ w = [c] := Iff.rfl

@[simp] theorem mem_char {c : Char} {w : List Char} : w ∈ (char c).lang ↔ w = [c] := by
  simp [char]

@[simp] theorem mem_seq {p q : Pattern} {w : List Char} :
    w ∈ (seq p q).lang ↔ ∃ a ∈ p.lang, ∃ b ∈ q.lang, a ++ b = w := Language.mem_mul

@[simp] theorem mem_alt {p q : Pattern} {w : List Char} :
    w ∈ (alt p q).lang ↔ w ∈ p.lang ∨ w ∈ q.lang := Language.mem_add _ _ _

@[simp] theorem mem_opt {p : Pattern} {w : List Char} :
    w ∈ (opt p).lang ↔ w ∈ p.lang ∨ w = [] := by
  simp [opt]

theorem mem_star {p : Pattern} {w : List Char} :
    w ∈ (star p).lang ↔ w = [] ∨ ∃ a ∈ p.lang, ∃ b ∈ (star p).lang, a ++ b = w := by
  have h := Language.one_add_self_mul_kstar_eq_kstar p.lang
  change w ∈ p.lang∗ ↔ _
  rw [← h, Language.mem_add, Language.mem_one, Language.mem_mul]
  rfl

theorem nil_mem_star (p : Pattern) : [] ∈ (star p).lang := Language.nil_mem_kstar _

theorem append_mem_star {p : Pattern} {a b : List Char} (ha : a ∈ p.lang)
    (hb : b ∈ (star p).lang) : a ++ b ∈ (star p).lang :=
  mem_star.mpr (.inr ⟨a, ha, b, hb, rfl⟩)

theorem star_append {p : Pattern} {a b : List Char} (ha : a ∈ (star p).lang)
    (hb : b ∈ (star p).lang) : a ++ b ∈ (star p).lang := by
  obtain ⟨xs, rfl, hxs⟩ := Language.mem_kstar.mp ha
  obtain ⟨ys, rfl, hys⟩ := Language.mem_kstar.mp hb
  refine Language.mem_kstar.mpr ⟨xs ++ ys, by simp, ?_⟩
  intro z hz
  exact (List.mem_append.mp hz).elim (hxs z) (hys z)

theorem mem_star_chars {p : Char → Bool} {w : List Char} :
    w ∈ (star (chars p)).lang ↔ ∀ c ∈ w, p c = true := by
  induction w with
  | nil => simp [nil_mem_star]
  | cons c s ih =>
      rw [mem_star]
      constructor
      · rintro (h | ⟨a, ⟨d, hd, rfl⟩, b, hb, heq⟩)
        · cases h
        · obtain ⟨rfl, rfl⟩ := List.cons.inj heq
          simpa [hd] using ih.mp hb
      · intro h
        exact .inr ⟨[c], ⟨c, h c (by simp), rfl⟩, s,
          ih.mpr fun d hd => h d (List.mem_cons_of_mem c hd), rfl⟩

theorem mem_plus_chars {p : Char → Bool} {w : List Char} :
    w ∈ (plus (chars p)).lang ↔ w ≠ [] ∧ ∀ c ∈ w, p c = true := by
  rw [plus, mem_seq]
  constructor
  · rintro ⟨a, ⟨c, hc, rfl⟩, b, hb, rfl⟩
    exact ⟨by simp, by simpa [hc] using mem_star_chars.mp hb⟩
  · rintro ⟨hne, h⟩
    cases w with
    | nil => exact absurd rfl hne
    | cons c s =>
        exact ⟨[c], ⟨c, h c (by simp), rfl⟩, s,
          mem_star_chars.mpr fun d hd => h d (List.mem_cons_of_mem c hd), rfl⟩

@[simp] theorem mem_text {s : String} {w : List Char} : w ∈ (text s).lang ↔ w = s.toList := by
  have h : ∀ cs : List Char,
      w ∈ (cs.foldr (fun c p => seq (char c) p) empty).lang ↔ w = cs := by
    intro cs
    induction cs generalizing w with
    | nil => exact mem_empty
    | cons c cs ih =>
        rw [List.foldr_cons, mem_seq]
        constructor
        · rintro ⟨a, ha, b, hb, rfl⟩
          rw [mem_char.mp ha, ih.mp hb, List.singleton_append]
        · rintro rfl
          exact ⟨[c], mem_char.mpr rfl, cs, ih.mpr rfl, rfl⟩
  exact h s.toList

/-- A star eats at least a character at each turn that matters. -/
theorem cons_mem_star {p : Pattern} {c : Char} {w : List Char} :
    c :: w ∈ (star p).lang ↔ ∃ a b, c :: a ∈ p.lang ∧ b ∈ (star p).lang ∧ a ++ b = w := by
  constructor
  · intro h
    change c :: w ∈ p.lang∗ at h
    rw [Language.kstar_def_nonempty] at h
    obtain ⟨S, hw, hS⟩ := h
    cases S with
    | nil => cases hw
    | cons x S =>
        have hx := hS x (by simp)
        cases x with
        | nil => exact absurd rfl hx.2
        | cons d a =>
            obtain ⟨rfl, rfl⟩ := List.cons.inj hw
            exact ⟨a, S.flatten, hx.1,
              Language.join_mem_kstar fun y hy => (hS y (List.mem_cons_of_mem _ hy)).1, rfl⟩
  · rintro ⟨a, b, ha, hb, rfl⟩
    exact append_mem_star ha hb

/-! ### Matching is right -/

theorem nullable_iff (p : Pattern) : p.nullable = true ↔ [] ∈ p.lang := by
  induction p with
  | never => simp [nullable]
  | empty => simp [nullable]
  | chars p => simp [nullable]
  | seq p q ihp ihq => simp [nullable, ihp, ihq]
  | alt p q ihp ihq => simp [nullable, ihp, ihq]
  | star p ih => simp [nullable, nil_mem_star]

theorem lang_join (p q : Pattern) : (join p q).lang = (seq p q).lang := by
  cases p <;> simp [join, lang]

theorem lang_either (p q : Pattern) : (either p q).lang = (alt p q).lang := by
  ext w
  cases p <;> cases q <;> simp [either]

theorem mem_deriv (c : Char) (p : Pattern) (w : List Char) :
    w ∈ (p.deriv c).lang ↔ c :: w ∈ p.lang := by
  induction p generalizing w with
  | never => simp [deriv]
  | empty => simp [deriv]
  | chars p =>
      by_cases hp : p c = true
      · simp [deriv, hp]
      · simp only [deriv, hp, Bool.false_eq_true, if_false, not_mem_never, mem_chars,
          List.cons.injEq, false_iff]
        rintro ⟨d, hd, rfl, -⟩
        exact hp hd
  | seq p q ihp ihq =>
      have hjoin : w ∈ (join (p.deriv c) q).lang ↔
          ∃ a, c :: a ∈ p.lang ∧ ∃ b ∈ q.lang, a ++ b = w := by
        rw [lang_join, mem_seq]
        constructor
        · rintro ⟨a, ha, hb⟩
          exact ⟨a, (ihp a).mp ha, hb⟩
        · rintro ⟨a, ha, hb⟩
          exact ⟨a, (ihp a).mpr ha, hb⟩
      have hseq : c :: w ∈ (seq p q).lang ↔
          (∃ a, c :: a ∈ p.lang ∧ ∃ b ∈ q.lang, a ++ b = w) ∨ [] ∈ p.lang ∧ c :: w ∈ q.lang := by
        rw [mem_seq]
        constructor
        · rintro ⟨a, ha, b, hb, heq⟩
          cases a with
          | nil => exact .inr ⟨ha, heq ▸ hb⟩
          | cons d a =>
              obtain ⟨rfl, rfl⟩ := List.cons.inj heq
              exact .inl ⟨a, ha, b, hb, rfl⟩
        · rintro (⟨a, ha, b, hb, rfl⟩ | ⟨hp, hq⟩)
          · exact ⟨c :: a, ha, b, hb, rfl⟩
          · exact ⟨[], hp, c :: w, hq, rfl⟩
      rw [deriv, hseq]
      by_cases hnull : p.nullable = true
      · rw [if_pos hnull, lang_either, mem_alt, hjoin, ihq,
          and_iff_right ((nullable_iff p).mp hnull)]
      · rw [if_neg hnull, hjoin, ← nullable_iff]
        simp [hnull]
  | alt p q ihp ihq => rw [deriv, lang_either, mem_alt, mem_alt, ihp, ihq]
  | star p ih =>
      rw [deriv, lang_join, mem_seq, cons_mem_star]
      constructor
      · rintro ⟨a, ha, b, hb, rfl⟩
        exact ⟨a, b, (ih a).mp ha, hb, rfl⟩
      · rintro ⟨a, b, ha, hb, rfl⟩
        exact ⟨a, (ih a).mpr ha, b, hb, rfl⟩

theorem accepts_iff (p : Pattern) (w : List Char) : p.accepts w = true ↔ w ∈ p.lang := by
  induction w generalizing p with
  | nil => exact nullable_iff p
  | cons c s ih => exact (ih (p.deriv c)).trans (mem_deriv c p s)

theorem first_of_mem {p : Pattern} {c : Char} {w : List Char} (h : c :: w ∈ p.lang) :
    p.first c = true := by
  induction p generalizing w with
  | never => exact absurd h not_mem_never
  | empty => simp at h
  | chars p =>
      obtain ⟨d, hd, heq⟩ := h
      obtain ⟨rfl, -⟩ := List.cons.inj heq
      exact hd
  | seq p q ihp ihq =>
      obtain ⟨a, ha, b, hb, heq⟩ := mem_seq.mp h
      cases a with
      | nil =>
          rw [List.nil_append] at heq
          subst heq
          simp [first, (nullable_iff p).mpr ha, ihq hb]
      | cons d a =>
          obtain ⟨rfl, -⟩ := List.cons.inj heq
          simp [first, ihp ha]
  | alt p q ihp ihq =>
      rcases mem_alt.mp h with h | h
      · simp [first, ihp h]
      · simp [first, ihq h]
  | star p ih =>
      obtain ⟨a, b, ha, -, -⟩ := cons_mem_star.mp h
      exact ih ha

theorem uses_of_mem {p : Pattern} {w : List Char} (h : w ∈ p.lang) {c : Char} (hc : c ∈ w) :
    p.uses c = true := by
  induction p generalizing w with
  | never => exact absurd h not_mem_never
  | empty => rw [mem_empty.mp h] at hc; cases hc
  | chars p =>
      obtain ⟨d, hd, rfl⟩ := h
      rw [List.mem_singleton.mp hc]
      exact hd
  | seq p q ihp ihq =>
      obtain ⟨a, ha, b, hb, rfl⟩ := mem_seq.mp h
      rcases List.mem_append.mp hc with hc | hc
      · simp [uses, ihp ha hc]
      · simp [uses, ihq hb hc]
  | alt p q ihp ihq =>
      rcases mem_alt.mp h with h | h
      · simp [uses, ihp h hc]
      · simp [uses, ihq h hc]
  | star p ih =>
      obtain ⟨parts, rfl, hparts⟩ := Language.mem_kstar.mp h
      obtain ⟨part, hpart, hc⟩ := List.mem_flatten.mp hc
      exact ih (hparts part hpart) hc

/-- The longest match: none when no front of the text matches. -/
theorem longest_spec (p : Pattern) (s : List Char) :
    match p.longest s with
    | some n => ∃ w rest, s = w ++ rest ∧ w.length = n ∧ w ∈ p.lang ∧
        ∀ v, v ≠ [] → v <+: rest → w ++ v ∉ p.lang
    | none => ∀ w, w <+: s → w ∉ p.lang := by
  induction s generalizing p with
  | nil =>
      have hcase : p.longest [] = if p.nullable then some 0 else none := by
        cases p <;> rfl
      rw [hcase]
      by_cases hnull : p.nullable = true
      · rw [if_pos hnull]
        exact ⟨[], [], rfl, rfl, (nullable_iff p).mp hnull, fun v hv hfront =>
          absurd (List.prefix_nil.mp hfront) hv⟩
      · rw [if_neg hnull]
        intro w hw
        rw [List.prefix_nil.mp hw, ← nullable_iff]
        exact hnull
  | cons c s ih =>
      by_cases hnever : p = never
      · subst hnever
        exact fun w _ => not_mem_never
      have hcase : p.longest (c :: s) =
          match (p.deriv c).longest s with
          | some n => some (n + 1)
          | none => if p.nullable then some 0 else none := by
        cases p <;> first | rfl | exact absurd rfl hnever
      have hrest := ih (p.deriv c)
      rw [hcase]
      cases hlong : (p.deriv c).longest s with
      | some n =>
          rw [hlong] at hrest
          obtain ⟨w, rest, rfl, rfl, hw, hmax⟩ := hrest
          refine ⟨c :: w, rest, rfl, rfl, (mem_deriv c p w).mp hw, ?_⟩
          intro v hv hfront hmem
          exact hmax v hv hfront ((mem_deriv c p (w ++ v)).mpr hmem)
      | none =>
          rw [hlong] at hrest
          have hlonger : ∀ w, w <+: s → c :: w ∉ p.lang := fun w hw hmem =>
            hrest w hw ((mem_deriv c p w).mpr hmem)
          by_cases hnull : p.nullable = true
          · simp only [hnull, if_true]
            refine ⟨[], c :: s, rfl, rfl, (nullable_iff p).mp hnull, ?_⟩
            intro v hv hfront
            cases v with
            | nil => exact absurd rfl hv
            | cons d v =>
                obtain ⟨rfl, hshort⟩ := List.cons_prefix_cons.mp hfront
                exact hlonger v hshort
          · simp only [hnull]
            intro w hw
            cases w with
            | nil => exact fun hmem => hnull ((nullable_iff p).mpr hmem)
            | cons d w =>
                obtain ⟨rfl, hshort⟩ := List.cons_prefix_cons.mp hw
                exact hlonger w hshort

end Pattern

/-! ### Rules -/

structure Rule (τ : Type) where
  pattern : Pattern
  /-- what is returned for a text; nothing when it is discarded -/
  action : List Char → Option τ

structure Lexeme (τ : Type) where
  text : List Char
  token : Option τ
  deriving DecidableEq, Repr

variable {τ : Type}

/-- The rule for the front of a text, with the length it takes. -/
def pick : List (Rule τ) → List Char → Option (Nat × Rule τ)
  | [], _ => none
  | r :: rs, s =>
      match r.pattern.longest s, pick rs s with
      | none, later => later
      | some n, none => some (n, r)
      | some n, some (m, r') => if m ≤ n then some (n, r) else some (m, r')

/-- The first of the rules that match the whole of a text. -/
def firstRule (rules : List (Rule τ)) (w : List Char) : Option (Rule τ) :=
  rules.find? fun r => r.pattern.accepts w

/-- No rule matches the text with some of what follows it. -/
def Stops (rules : List (Rule τ)) (w rest : List Char) : Prop :=
  ∀ r ∈ rules, ∀ v, v ≠ [] → v <+: rest → w ++ v ∉ r.pattern.lang

/-- Each turn takes at least a character, also where no rule matches. -/
def scanFuel (rules : List (Rule τ)) : Nat → List Char → List (Lexeme τ)
  | 0, _ => []
  | _ + 1, [] => []
  | fuel + 1, c :: s =>
      match pick rules (c :: s) with
      | some (n + 1, r) =>
          let text := c :: s.take n
          ⟨text, r.action text⟩ :: scanFuel rules fuel (s.drop n)
      | some (0, _) | none => ⟨[c], none⟩ :: scanFuel rules fuel s

def scan (rules : List (Rule τ)) (s : List Char) : List (Lexeme τ) :=
  scanFuel rules s.length s

def texts (ls : List (Lexeme τ)) : List Char := (ls.map Lexeme.text).flatten

def tokens (ls : List (Lexeme τ)) : List τ := ls.filterMap Lexeme.token

/-- Some rule takes each character. -/
def Covers (rules : List (Rule τ)) : Prop := ∀ c, ∃ r ∈ rules, [c] ∈ r.pattern.lang

variable {rules : List (Rule τ)}

theorem append_split {a b x y : List Char} (h : a ++ x = b ++ y) (hle : a.length ≤ b.length) :
    ∃ v, b = a ++ v ∧ x = v ++ y := by
  rcases List.append_eq_append_iff.mp h with ⟨v, rfl, rfl⟩ | ⟨v, rfl, rfl⟩
  · exact ⟨v, rfl, rfl⟩
  · have hv : v = [] := by
      rw [List.length_append] at hle
      exact List.length_eq_zero_iff.mp (by omega)
    subst hv
    exact ⟨[], by simp, by simp⟩

/-- A front of two texts ends in the first or goes on into the second. -/
theorem prefix_append_cases {v a b : List Char} (h : v <+: a ++ b) :
    v <+: a ∨ ∃ u, v = a ++ u ∧ u ≠ [] ∧ u <+: b := by
  obtain ⟨z, hz⟩ := h
  by_cases hle : v.length ≤ a.length
  · obtain ⟨u, rfl, -⟩ := append_split hz hle
    exact .inl ⟨u, rfl⟩
  · obtain ⟨u, rfl, rfl⟩ := append_split hz.symm (by omega)
    exact .inr ⟨u, rfl, by rintro rfl; simp at hle, ⟨z, rfl⟩⟩

theorem firstRule_some {w : List Char} {r : Rule τ} (h : firstRule rules w = some r) :
    r ∈ rules ∧ w ∈ r.pattern.lang := by
  refine ⟨List.mem_of_find?_eq_some h, ?_⟩
  have hr := List.find?_some h
  exact (Pattern.accepts_iff r.pattern w).mp hr

theorem firstRule_cons_of_mem {r : Rule τ} {w : List Char} (h : w ∈ r.pattern.lang) :
    firstRule (r :: rules) w = some r := by
  simp [firstRule, (Pattern.accepts_iff r.pattern w).mpr h]

theorem firstRule_cons_of_not_mem {r : Rule τ} {w : List Char} (h : w ∉ r.pattern.lang) :
    firstRule (r :: rules) w = firstRule rules w := by
  have hr : r.pattern.accepts w = false := by
    rw [← Bool.not_eq_true, Pattern.accepts_iff]
    exact h
  simp [firstRule, hr]

/-- The longest match among the rules, and the first rule that makes it. -/
theorem pick_spec (rules : List (Rule τ)) (s : List Char) :
    match pick rules s with
    | some (n, r) => ∃ w rest, s = w ++ rest ∧ w.length = n ∧ firstRule rules w = some r ∧
        Stops rules w rest
    | none => ∀ r ∈ rules, ∀ w, w <+: s → w ∉ r.pattern.lang := by
  induction rules with
  | nil => exact fun r hr => absurd hr List.not_mem_nil
  | cons r rs ih =>
      have hone := r.pattern.longest_spec s
      rw [pick]
      cases hlong : r.pattern.longest s with
      | none =>
          simp only [hlong] at hone ⊢
          cases hlater : pick rs s with
          | none =>
              simp only [hlater] at ih ⊢
              intro q hq w hw
              rcases List.mem_cons.mp hq with rfl | hq
              · exact hone w hw
              · exact ih q hq w hw
          | some later =>
              obtain ⟨m, r'⟩ := later
              simp only [hlater] at ih ⊢
              obtain ⟨w, rest, hs, hlen, hfirst, hstops⟩ := ih
              have hmiss : ∀ v, v <+: rest → w ++ v ∉ r.pattern.lang := by
                rintro v ⟨z, rfl⟩
                exact hone _ ⟨z, by rw [hs, List.append_assoc]⟩
              refine ⟨w, rest, hs, hlen, ?_, ?_⟩
              · have hw := hmiss [] List.nil_prefix
                rw [List.append_nil] at hw
                rw [firstRule_cons_of_not_mem hw, hfirst]
              · intro q hq v hv hfront
                rcases List.mem_cons.mp hq with rfl | hq
                · exact hmiss v hfront
                · exact hstops q hq v hv hfront
      | some n =>
          simp only [hlong] at hone ⊢
          obtain ⟨w, rest, hs, hlen, hw, hmax⟩ := hone
          cases hlater : pick rs s with
          | none =>
              simp only [hlater] at ih ⊢
              refine ⟨w, rest, hs, hlen, firstRule_cons_of_mem hw, ?_⟩
              rintro q hq v hv ⟨z, rfl⟩
              rcases List.mem_cons.mp hq with rfl | hq
              · exact hmax v hv ⟨z, rfl⟩
              · exact ih q hq _ ⟨z, by rw [hs, List.append_assoc]⟩
          | some later =>
              obtain ⟨m, r'⟩ := later
              simp only [hlater] at ih ⊢
              obtain ⟨w', rest', hs', hlen', hfirst, hstops⟩ := ih
              have hsame : w ++ rest = w' ++ rest' := hs.symm.trans hs'
              by_cases hmn : m ≤ n
              · rw [if_pos hmn]
                obtain ⟨u, rfl, rfl⟩ := append_split hsame.symm (by omega)
                refine ⟨w' ++ u, rest, hs, hlen, firstRule_cons_of_mem hw, ?_⟩
                rintro q hq v hv ⟨z, rfl⟩
                rcases List.mem_cons.mp hq with rfl | hq
                · exact hmax v hv ⟨z, rfl⟩
                · rw [List.append_assoc]
                  exact hstops q hq (u ++ v) (by simp [hv]) ⟨z, by simp⟩
              · rw [if_neg hmn]
                obtain ⟨u, rfl, rfl⟩ := append_split hsame (by omega)
                have hu : u ≠ [] := by
                  rintro rfl
                  simp only [List.append_nil] at hlen'
                  omega
                refine ⟨w ++ u, rest', hs', hlen', ?_, ?_⟩
                · rw [firstRule_cons_of_not_mem (hmax u hu ⟨rest', rfl⟩), hfirst]
                · rintro q hq v hv ⟨z, rfl⟩
                  rcases List.mem_cons.mp hq with rfl | hq
                  · rw [List.append_assoc]
                    exact hmax (u ++ v) (by simp [hv]) ⟨z, by simp⟩
                  · exact hstops q hq v hv ⟨z, rfl⟩

theorem pick_of_stops {w rest : List Char} {r : Rule τ} (hr : firstRule rules w = some r)
    (hstops : Stops rules w rest) : pick rules (w ++ rest) = some (w.length, r) := by
  have hspec := pick_spec rules (w ++ rest)
  obtain ⟨hmem, hmatch⟩ := firstRule_some hr
  cases hpick : pick rules (w ++ rest) with
  | none =>
      rw [hpick] at hspec
      exact absurd hmatch (hspec r hmem w ⟨rest, rfl⟩)
  | some found =>
      obtain ⟨n, r'⟩ := found
      rw [hpick] at hspec
      obtain ⟨w', rest', hs, rfl, hr', hstops'⟩ := hspec
      obtain ⟨hmem', hmatch'⟩ := firstRule_some hr'
      -- neither of the two matches can go on beyond the other
      have hle : w'.length ≤ w.length := by
        by_contra hlt
        obtain ⟨v, rfl, rfl⟩ := append_split hs (by omega)
        exact hstops r' hmem' v (by rintro rfl; simp at hlt) ⟨rest', rfl⟩ hmatch'
      have hge : w.length ≤ w'.length := by
        by_contra hlt
        obtain ⟨v, rfl, rfl⟩ := append_split hs.symm (by omega)
        exact hstops' r hmem v (by rintro rfl; simp at hlt) ⟨rest, rfl⟩ hmatch
      obtain ⟨rfl, -⟩ := List.append_inj hs (by omega)
      rw [hr] at hr'
      cases hr'
      rfl

/-- Only the rules that can begin as the text does matter. -/
theorem stops_of_live {c : Char} {w rest : List Char}
    (h : Stops (rules.filter fun r => r.pattern.first c) (c :: w) rest) :
    Stops rules (c :: w) rest := by
  intro r hr v hv hfront hmem
  exact h r (List.mem_filter.mpr ⟨hr, Pattern.first_of_mem hmem⟩) v hv hfront hmem

theorem firstRule_live (rules : List (Rule τ)) (c : Char) (w : List Char) :
    firstRule rules (c :: w) = firstRule (rules.filter fun r => r.pattern.first c) (c :: w) := by
  induction rules with
  | nil => rfl
  | cons r rs ih =>
      rw [List.filter_cons]
      by_cases hmem : c :: w ∈ r.pattern.lang
      · rw [if_pos (Pattern.first_of_mem hmem), firstRule_cons_of_mem hmem,
          firstRule_cons_of_mem hmem]
      · rw [firstRule_cons_of_not_mem hmem, ih]
        by_cases hfirst : r.pattern.first c = true
        · rw [if_pos hfirst, firstRule_cons_of_not_mem hmem]
        · rw [if_neg hfirst]

/-! ### Scanning -/

theorem scanFuel_enough (rules : List (Rule τ)) {n m : Nat} {s : List Char}
    (hn : s.length ≤ n) (hm : s.length ≤ m) : scanFuel rules n s = scanFuel rules m s := by
  induction n generalizing m s with
  | zero =>
      obtain rfl : s = [] := List.length_eq_zero_iff.mp (by omega)
      cases m <;> rfl
  | succ n ih =>
      cases s with
      | nil => cases m <;> rfl
      | cons c s =>
          simp only [List.length_cons] at hn hm
          obtain ⟨m, rfl⟩ : ∃ k, m = k + 1 := ⟨m - 1, by omega⟩
          have hone : scanFuel rules n s = scanFuel rules m s := ih (by omega) (by omega)
          have hrest : ∀ k, scanFuel rules n (s.drop k) = scanFuel rules m (s.drop k) := fun k =>
            ih (by rw [List.length_drop]; omega) (by rw [List.length_drop]; omega)
          simp only [scanFuel, hone, hrest]

@[simp] theorem scan_nil (rules : List (Rule τ)) : scan rules [] = [] := rfl

/-- A text that no rule carries on is cut off as one lexeme. -/
theorem scan_append_of_stops {w rest : List Char} {r : Rule τ} (hne : w ≠ [])
    (hr : firstRule rules w = some r) (hstops : Stops rules w rest) :
    scan rules (w ++ rest) = ⟨w, r.action w⟩ :: scan rules rest := by
  have hpick := pick_of_stops hr hstops
  cases w with
  | nil => exact absurd rfl hne
  | cons c w =>
      rw [List.cons_append, List.length_cons] at hpick
      have htake : (w ++ rest).take w.length = w := by simp
      have hdrop : (w ++ rest).drop w.length = rest := by simp
      rw [scan, List.cons_append, List.length_cons, scanFuel, hpick]
      simp only [htake, hdrop]
      rw [scan, scanFuel_enough rules (m := rest.length) (by simp) (by omega)]

/-- What the first lexeme of a text is. -/
theorem scan_eq_cons (hcovers : Covers rules) {s : List Char} {l : Lexeme τ}
    {ls : List (Lexeme τ)} (h : scan rules s = l :: ls) :
    ∃ rest r, s = l.text ++ rest ∧ l.text ≠ [] ∧ firstRule rules l.text = some r ∧
      l.token = r.action l.text ∧ Stops rules l.text rest ∧ scan rules rest = ls := by
  cases s with
  | nil => cases h
  | cons c s =>
      have hspec := pick_spec rules (c :: s)
      obtain ⟨q, hq, hqc⟩ := hcovers c
      cases hpick : pick rules (c :: s) with
      | none =>
          rw [hpick] at hspec
          exact absurd hqc (hspec q hq [c] ⟨s, rfl⟩)
      | some found =>
          obtain ⟨n, r⟩ := found
          rw [hpick] at hspec
          obtain ⟨w, rest, hs, hlen, hr, hstops⟩ := hspec
          have hne : w ≠ [] := by
            rintro rfl
            rw [List.nil_append] at hs
            exact hstops q hq [c] (by simp) ⟨s, by rw [← hs]; rfl⟩ hqc
          rw [hs, scan_append_of_stops hne hr hstops] at h
          obtain ⟨rfl, rfl⟩ := List.cons.inj h
          exact ⟨rest, r, hs, hne, hr, rfl, hstops, rfl⟩

@[simp] theorem texts_nil : texts ([] : List (Lexeme τ)) = [] := rfl

@[simp] theorem texts_cons (l : Lexeme τ) (ls : List (Lexeme τ)) :
    texts (l :: ls) = l.text ++ texts ls := rfl

@[simp] theorem texts_append (ls ms : List (Lexeme τ)) :
    texts (ls ++ ms) = texts ls ++ texts ms := by
  simp [texts]

@[simp] theorem tokens_nil : tokens ([] : List (Lexeme τ)) = [] := rfl

@[simp] theorem tokens_append (ls ms : List (Lexeme τ)) :
    tokens (ls ++ ms) = tokens ls ++ tokens ms := List.filterMap_append

/-- Lexemes with a token among them have a last one. -/
theorem exists_last_token {ls : List (Lexeme τ)} (h : tokens ls ≠ []) :
    ∃ xs l ys, ls = xs ++ l :: ys ∧ l.token.isSome = true ∧ tokens ys = [] := by
  induction ls with
  | nil => exact absurd rfl h
  | cons l ls ih =>
      by_cases hrest : tokens ls = []
      · refine ⟨[], l, ls, rfl, ?_, hrest⟩
        cases htoken : l.token with
        | some t => rfl
        | none =>
            rw [tokens, List.filterMap_cons_none htoken] at h
            exact absurd hrest h
      · obtain ⟨xs, m, ys, rfl, hm, hys⟩ := ih hrest
        exact ⟨l :: xs, m, ys, rfl, hm, hys⟩

theorem scan_ne_nil {s : List Char} (hs : s ≠ []) : scan rules s ≠ [] := by
  intro h
  cases s with
  | nil => exact hs rfl
  | cons c s =>
      rw [scan, List.length_cons, scanFuel] at h
      split at h <;> cases h

section Covered

variable (hcovers : Covers rules)
include hcovers

/-- The lexemes are the text, cut. -/
theorem texts_scan (s : List Char) : texts (scan rules s) = s := by
  induction hlen : s.length using Nat.strong_induction_on generalizing s with
  | _ n ih =>
      cases hscan : scan rules s with
      | nil =>
          by_contra hne
          exact scan_ne_nil (fun hs => hne (by rw [hs]; rfl)) hscan
      | cons l ls =>
          obtain ⟨rest, r, rfl, hne, -, -, -, hrest⟩ := scan_eq_cons hcovers hscan
          have hpos := List.length_pos_of_ne_nil hne
          rw [List.length_append] at hlen
          rw [texts_cons, ← hrest, ih rest.length (by omega) rest rfl]

/-- Scanning goes on from a place where a lexeme ends as from the beginning. -/
theorem scan_texts_right {s : List Char} {ls ms : List (Lexeme τ)}
    (h : scan rules s = ls ++ ms) : scan rules (texts ms) = ms := by
  induction ls generalizing s with
  | nil => rw [List.nil_append] at h; rw [← h, texts_scan hcovers]
  | cons l ls ih =>
      obtain ⟨rest, r, -, -, -, -, -, hrest⟩ := scan_eq_cons hcovers h
      exact ih hrest

/-- Where a lexeme ends, what comes later has no part in the lexemes before. -/
theorem scan_texts_left {s : List Char} {ls ms : List (Lexeme τ)}
    (h : scan rules s = ls ++ ms) : scan rules (texts ls) = ls := by
  induction ls generalizing s with
  | nil => rfl
  | cons l ls ih =>
      obtain ⟨rest, r, rfl, hne, hr, htoken, hstops, hrest⟩ := scan_eq_cons hcovers h
      replace hrest : scan rules rest = ls ++ ms := hrest
      have hsplit : rest = texts ls ++ texts ms := by
        rw [← texts_append, ← hrest, texts_scan hcovers]
      have hshort : Stops rules l.text (texts ls) := by
        rintro q hq v hv ⟨z, hz⟩
        exact hstops q hq v hv ⟨z ++ texts ms, by rw [hsplit, ← hz, List.append_assoc]⟩
      rw [texts_cons, scan_append_of_stops hne hr hshort, ih hrest, ← htoken]

/-- Every lexeme has a text, and its token is what its rule makes of that. -/
theorem scan_lexeme {s : List Char} {ls ms : List (Lexeme τ)} {l : Lexeme τ}
    (h : scan rules s = ls ++ l :: ms) :
    l.text ≠ [] ∧ ∃ r, firstRule rules l.text = some r ∧ l.token = r.action l.text := by
  have hright := scan_texts_right hcovers h
  obtain ⟨-, r, -, hne, hr, htoken, -, -⟩ := scan_eq_cons hcovers hright
  exact ⟨hne, r, hr, htoken⟩

/-- Every place of a text where a lexeme begins is closed to what follows: no
rule matches from there across the end. -/
def Closed (rules : List (Rule τ)) (a b : List Char) : Prop :=
  ∀ ls ms, scan rules a = ls ++ ms → ms ≠ [] → Stops rules (texts ms) b

/-- Two texts are scanned separately exactly when the first is closed. -/
theorem scan_append_iff {a b : List Char} :
    scan rules (a ++ b) = scan rules a ++ scan rules b ↔ Closed rules a b := by
  constructor
  · intro h ls ms hms hne
    -- the same lexemes begin there in the longer text, and none of them goes on
    have htail : scan rules (texts ms ++ b) = ms ++ scan rules b := by
      have hall : scan rules (a ++ b) = ls ++ (ms ++ scan rules b) := by
        rw [h, hms, List.append_assoc]
      have := scan_texts_right hcovers hall
      rwa [texts_append, texts_scan hcovers] at this
    cases ms with
    | nil => exact absurd rfl hne
    | cons m ms =>
        obtain ⟨rest, r, hsplit, hmne, -, -, hstops, hrest⟩ := scan_eq_cons hcovers htail
        replace hrest : scan rules rest = ms ++ scan rules b := hrest
        have hafter : rest = texts ms ++ b := by
          rw [← texts_scan hcovers rest, hrest, texts_append, texts_scan hcovers]
        rintro q hq v hv ⟨z, rfl⟩
        rw [texts_cons, List.append_assoc]
        exact hstops q hq _ (by simp [hv]) ⟨z, by rw [hafter, List.append_assoc]⟩
  · intro hclosed
    induction hlen : a.length using Nat.strong_induction_on generalizing a with
    | _ n ih =>
        cases hscan : scan rules a with
        | nil =>
            have ha := texts_scan hcovers a
            rw [hscan] at ha
            rw [← ha]
            rfl
        | cons l ls =>
            obtain ⟨rest, r, rfl, hne, hr, htoken, hstops, hrest⟩ := scan_eq_cons hcovers hscan
            have hpos := List.length_pos_of_ne_nil hne
            rw [List.length_append] at hlen
            have hlater : Closed rules rest b := by
              intro xs ms hms hmne
              exact hclosed (l :: xs) ms (by rw [hscan, ← hrest, hms, List.cons_append]) hmne
            have hlong : Stops rules l.text (rest ++ b) := by
              intro q hq v hv hfront
              rcases prefix_append_cases hfront with hshort | ⟨v', rfl, hnil, hv'⟩
              · exact hstops q hq v hv hshort
              · have hwhole := hclosed [] (l :: ls) hscan (by simp) q hq v' hnil hv'
                rwa [← hscan, texts_scan hcovers, List.append_assoc] at hwhole
            rw [List.append_assoc, scan_append_of_stops hne hr hlong,
              ih rest.length (by omega) hlater rfl, ← htoken, hrest, List.cons_append]

end Covered

end Flex
