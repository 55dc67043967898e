import DdbShell.Connection.Literal

/-!
Where a literal can stand in a text. `shut` says of the text before it that a
literal starts a token of its own there, `clear` of the text after it that the
literal ends one. Both are exact: a text that is not shut, or not clear, joins
some literal, be it the number 5 or the empty string.
-/

namespace DdbShell

open Flex (Pattern Lexeme Rule scan Stops Closed texts firstRule)
open Flex.Pattern
open Lexer

/-! ### The conditions -/

/-- A number that waits for the digits of its exponent. -/
def danglingExponent : Pattern :=
  .seq sign (.seq (.alt digits (.alt pointed pointFirst)) (.seq (char 'E') (char '+')))

def isComment (w : List Char) : Bool := dashComment.accepts w || slashComment.accepts w

/-- A literal after the text starts a token of its own: the text does not end
in a comment, in the middle of a word, in a number or a string that could go
on, or with a string open. -/
def shut (t : List Char) : Bool :=
  t.getLast?.all (fun c => !identChar c && c ≠ '.' && c ≠ '"') &&
  (scan rules t).getLast?.all (fun l => !isComment l.text) &&
  (scan rules t).all (fun l => l.text ≠ ['"']) &&
  (scan rules t).tails.all (fun ms => !danglingExponent.accepts (texts ms))

/-- A literal before the text ends a token: the text does not begin with what
could carry a word, a number or a string on. Between two literals there has to
be some text, and no quote at its beginning. -/
def clear (last : Bool) : List Char → Bool
  | [] => last
  | c :: cs => !identChar c && c ≠ '.' && (c ≠ '"' || last && !cs.contains '"')

structure Shut (t : List Char) : Prop where
  last : ∀ c ∈ t.getLast?, identChar c = false ∧ c ≠ '.' ∧ c ≠ '"'
  comment : ∀ l ∈ (scan rules t).getLast?, isComment l.text = false
  quote : ∀ l ∈ scan rules t, l.text ≠ ['"']
  exponent : ∀ ls ms, scan rules t = ls ++ ms → texts ms ∉ danglingExponent.lang

theorem shut_iff (t : List Char) : shut t = true ↔ Shut t := by
  have hall : ∀ {α : Type} (p : α → Bool) (o : Option α), o.all p = true ↔ ∀ a ∈ o, p a = true := by
    intro α p o
    cases o <;> simp
  rw [shut, Bool.and_eq_true, Bool.and_eq_true, Bool.and_eq_true, hall, hall, List.all_eq_true,
    List.all_eq_true]
  constructor
  · rintro ⟨⟨⟨hlast, hcomment⟩, hquote⟩, hexponent⟩
    refine ⟨?_, ?_, ?_, ?_⟩
    · intro c hc
      simpa [and_assoc] using hlast c hc
    · intro l hl
      simpa using hcomment l hl
    · intro l hl
      simpa using hquote l hl
    · intro ls ms hms
      have hmem : ms ∈ (scan rules t).tails := (List.mem_tails _ _).mpr ⟨ls, hms.symm⟩
      have hno := hexponent ms hmem
      rw [Bool.not_eq_true', ← Bool.not_eq_true, accepts_iff] at hno
      exact hno
  · intro h
    refine ⟨⟨⟨?_, ?_⟩, ?_⟩, ?_⟩
    · intro c hc
      simpa [and_assoc] using h.last c hc
    · intro l hl
      simpa using h.comment l hl
    · intro l hl
      simpa using h.quote l hl
    · intro ms hms
      obtain ⟨ls, hls⟩ := (List.mem_tails _ _).mp hms
      rw [Bool.not_eq_true', ← Bool.not_eq_true, accepts_iff]
      exact h.exponent ls ms hls.symm

/-! ### A shut text is closed to literals -/

/-- A text that some rule takes as a whole is one lexeme. -/
theorem whole_lexeme {x : List Char} {m : Lexeme SymbolType} {ms : List (Lexeme SymbolType)}
    (hscan : scan rules x = m :: ms) {r : Rule SymbolType} (hr : r ∈ rules)
    (hmem : x ∈ r.pattern.lang) : ms = [] := by
  obtain ⟨rest, q, rfl, -, -, -, hstops, hrest⟩ := Flex.scan_eq_cons covers hscan
  by_cases hnil : rest = []
  · subst hnil
    exact hrest.symm
  · exact absurd hmem (hstops r hr rest hnil (List.prefix_refl rest))

theorem plus_not_mem_digits {w : List Char} (h : w ∈ digits.lang) : '+' ∉ w := by
  intro hmem
  have huse := uses_of_mem h hmem
  revert huse
  decide

theorem plus_not_mem_pointed {w : List Char} (h : w ∈ pointed.lang) : '+' ∉ w := by
  intro hmem
  have huse := uses_of_mem h hmem
  revert huse
  decide

theorem plus_not_mem_pointFirst {w : List Char} (h : w ∈ pointFirst.lang) : '+' ∉ w := by
  intro hmem
  have huse := uses_of_mem h hmem
  revert huse
  decide

/-- A number cut after its plus is a number that waits for its exponent. -/
theorem dangling_of_exponent {m : Pattern} (hplus : ∀ w ∈ m.lang, '+' ∉ w)
    (hm : ∀ w ∈ m.lang, w ∈ (alt digits (alt pointed pointFirst)).lang) {x y : List Char}
    (h : x ++ '+' :: y ∈ (seq sign (seq m exponent)).lang) :
    x ++ ['+'] ∈ danglingExponent.lang := by
  obtain ⟨s, hs, z, hz, hsplit⟩ := mem_seq.mp h
  obtain ⟨w, hw, e, he, rfl⟩ := mem_seq.mp hz
  obtain ⟨g, d, rfl, hg, -, hd⟩ := mem_exponent he
  have hsign : '+' ∉ s := by
    rcases mem_sign hs with rfl | rfl <;> decide
  have hdigits : '+' ∉ d := by
    intro hmem
    have hdigit := hd '+' hmem
    revert hdigit
    decide
  have hfront : '+' ∉ s ++ (w ++ ['E']) := by
    simp [hsign, hplus w hw]
  have hg : g = ['+'] := by
    rcases hg with rfl | rfl | rfl
    · have hmem : '+' ∈ s ++ (w ++ 'E' :: ([] ++ d)) := by rw [hsplit]; simp
      simp [hsign, hplus w hw, hdigits] at hmem
    · have hmem : '+' ∈ s ++ (w ++ 'E' :: (['-'] ++ d)) := by rw [hsplit]; simp
      simp [hsign, hplus w hw, hdigits] at hmem
    · rfl
  subst hg
  have hsame : (s ++ (w ++ ['E'])) ++ '+' :: d = x ++ '+' :: y := by
    rw [← hsplit]
    simp
  -- the only plus of the number stands there
  obtain ⟨rfl, -⟩ : s ++ (w ++ ['E']) = x ∧ d = y := by
    rcases List.append_eq_append_iff.mp hsame with ⟨v, hv, hy⟩ | ⟨v, hv, hy⟩
    · cases v with
      | nil => exact ⟨by simpa using hv.symm, by simpa using hy⟩
      | cons c v =>
          obtain ⟨rfl, rfl⟩ := List.cons.inj hy
          simp at hdigits
    · cases v with
      | nil => exact ⟨by simpa using hv, by simpa using hy.symm⟩
      | cons c v =>
          obtain ⟨rfl, -⟩ := List.cons.inj hy
          rw [hv] at hfront
          simp at hfront
  refine mem_seq.mpr ⟨s, hs, w ++ ['E', '+'], mem_seq.mpr ⟨w, hm w hw, ['E', '+'], ?_, rfl⟩, ?_⟩
  · exact mem_seq.mpr ⟨['E'], mem_char.mpr rfl, ['+'], mem_char.mpr rfl, rfl⟩
  · simp

theorem dangling_of_floatingPoint {x y : List Char} (h : x ++ '+' :: y ∈ floatingPoint.lang) :
    x ++ ['+'] ∈ danglingExponent.lang := by
  have hnone : ∀ {p : Pattern}, p.uses '+' = false → x ++ '+' :: y ∉ p.lang := by
    intro p huse hmem
    rw [uses_of_mem hmem (c := '+') (by simp)] at huse
    cases huse
  simp only [floatingPoint, mem_alt (p := seq sign pointed), mem_alt (p := seq sign pointFirst),
    mem_alt (p := seq sign (seq digits exponent)),
    mem_alt (p := seq sign (seq pointed exponent))] at h
  rcases h with h | h | h | h | h
  · exact absurd h (hnone rfl)
  · exact absurd h (hnone rfl)
  · exact dangling_of_exponent (fun _ => plus_not_mem_digits)
      (fun _ hw => mem_alt.mpr (.inl hw)) h
  · exact dangling_of_exponent (fun _ => plus_not_mem_pointed)
      (fun _ hw => mem_alt.mpr (.inr (mem_alt.mpr (.inl hw)))) h
  · exact dangling_of_exponent (fun _ => plus_not_mem_pointFirst)
      (fun _ hw => mem_alt.mpr (.inr (mem_alt.mpr (.inr hw)))) h

/-- What a comment goes on with is not what makes it one, unless the text is
only the first of the two characters. -/
theorem comment_of_append {d : Char} {s : String} (hs : s.toList = [d, d]) {x y : List Char}
    (h : x ++ y ∈ (seq (text s) (star (chars (· ≠ '\n')))).lang) (hx : x ≠ []) (hone : x ≠ [d]) :
    x ∈ (seq (text s) (star (chars (· ≠ '\n')))).lang := by
  obtain ⟨a, ha, b, hb, hsplit⟩ := mem_seq.mp h
  rw [mem_text.mp ha, hs] at hsplit
  match x, hx, hone with
  | [e], _, hone =>
      obtain ⟨rfl, -⟩ := List.cons.inj hsplit
      exact absurd rfl hone
  | e :: e' :: x, _, _ =>
      obtain ⟨rfl, htail⟩ := List.cons.inj hsplit
      obtain ⟨rfl, rfl⟩ := List.cons.inj htail
      refine mem_seq.mpr ⟨[d, d], mem_text.mpr hs.symm, x, ?_, rfl⟩
      exact mem_star_chars.mpr fun c hc => mem_star_chars.mp hb c (List.mem_append_left y hc)

/-- A lexeme that begins with a quote is a string or the quote alone. -/
theorem quote_lexeme {w : List Char} {r : Rule SymbolType}
    (h : firstRule rules ('"' :: w) = some r) :
    w = [] ∨ ∃ b ∈ quotedBody.lang, w = b ++ ['"'] := by
  rw [Flex.firstRule_live, live_quote] at h
  obtain ⟨hr, hmem⟩ := Flex.firstRule_some h
  simp only [quoteRules, List.mem_cons, List.not_mem_nil, or_false] at hr
  rcases hr with rfl | rfl | rfl
  · obtain ⟨b, hb, heq⟩ := mem_timestamp.mp hmem
    exact .inr ⟨b, mem_quotedBody_of_plain (quote_not_mem_timestamp hb), (List.cons.inj heq).2⟩
  · obtain ⟨b, hb, heq⟩ := mem_dquoted.mp hmem
    exact .inr ⟨b, hb, (List.cons.inj heq).2⟩
  · obtain ⟨c, -, heq⟩ := mem_chars.mp hmem
    exact .inl (List.cons.inj heq).2

/-- Two strings side by side are one. -/
theorem dquoted_append {a b : List Char} (ha : a ∈ quotedBody.lang) (hb : b ∈ quotedBody.lang) :
    '"' :: (a ++ ['"']) ++ '"' :: (b ++ ['"']) ∈ dquoted.lang := by
  refine mem_dquoted.mpr ⟨a ++ '"' :: '"' :: b, ?_, by simp⟩
  exact star_append ha (cons_mem_quotedBody.mpr (.inr ⟨rfl, b, rfl, hb⟩))

theorem dquoted_mem_rules : (⟨dquoted, make .tDquotedString⟩ : Rule SymbolType) ∈ rules := by
  simp [rules]

/-- No string goes on beyond a text whose strings are all closed and which does
not end in a quote. -/
theorem no_string_across {x y : List Char} {m : Lexeme SymbolType}
    {ms : List (Lexeme SymbolType)} (hscan : scan rules x = m :: ms)
    (hquote : ∀ l ∈ m :: ms, l.text ≠ ['"']) (hlast : x.getLast? ≠ some '"')
    {b : List Char} (hb : b ∈ quotedBody.lang) : x ++ y ≠ '"' :: (b ++ ['"']) := by
  intro heq
  obtain ⟨rest, r, rfl, hne, hr, -, hstops, hrest⟩ := Flex.scan_eq_cons covers hscan
  obtain ⟨c, w, hm⟩ := List.exists_cons_of_ne_nil hne
  rw [hm] at heq hr hstops hlast
  obtain ⟨rfl, htail⟩ := List.cons.inj heq
  rcases quote_lexeme hr with rfl | ⟨b', hb', rfl⟩
  · exact hquote m (by simp) hm
  cases rest with
  | nil => simp [List.getLast?_cons] at hlast
  | cons d rest =>
      -- the string could only go on with the quote that begins the next lexeme
      have hgo : b' ++ '"' :: d :: (rest ++ y) = b ++ ['"'] := by simpa using htail
      obtain ⟨rfl, -⟩ := quotedBody_goes_on hb' hb hgo
      obtain ⟨m', ms', rfl⟩ : ∃ m' ms', ms = m' :: ms' := by
        rw [← hrest]
        exact List.exists_cons_of_ne_nil (Flex.scan_ne_nil (by simp))
      obtain ⟨rest', r', hsplit, hne', hr', -, -, -⟩ := Flex.scan_eq_cons covers hrest
      obtain ⟨c', w', hm'⟩ := List.exists_cons_of_ne_nil hne'
      rw [hm'] at hsplit hr'
      obtain ⟨rfl, rfl⟩ := List.cons.inj hsplit
      rcases quote_lexeme hr' with rfl | ⟨b'', hb'', rfl⟩
      · exact hquote m' (by simp) hm'
      · exact hstops _ dquoted_mem_rules _ (by simp) ⟨rest', rfl⟩ (dquoted_append hb' hb'')

theorem not_literalStart {c d : Char} (hc : literalStart c = true) (hd : literalStart d = false) :
    c ≠ d := by
  rintro rfl
  rw [hc] at hd
  cases hd

/-- Nothing that a literal begins with joins a shut text. -/
theorem Shut.closed {t : List Char} (h : Shut t) {c : Char} (hc : literalStart c = true)
    (y : List Char) : Closed rules t (c :: y) := by
  intro ls ms hms hne r hr v hv hfront hmem
  obtain ⟨m, ms, rfl⟩ := List.exists_cons_of_ne_nil hne
  obtain ⟨d, v, rfl⟩ := List.exists_cons_of_ne_nil hv
  obtain rfl : d = c := (List.cons_prefix_cons.mp hfront).1
  have hscan : scan rules (texts (m :: ms)) = m :: ms := Flex.scan_texts_right covers hms
  have hsplit : t = texts ls ++ texts (m :: ms) := by
    rw [← Flex.texts_append, ← hms, Flex.texts_scan covers]
  generalize hx : texts (m :: ms) = x at hmem hscan hsplit
  have hxne : x ≠ [] := by
    rintro rfl
    cases hscan
  have hlast : ∀ z ∈ x.getLast?, identChar z = false ∧ z ≠ '.' ∧ z ≠ '"' := by
    intro z hz
    refine h.last z ?_
    rw [hsplit, List.getLast?_append_of_ne_nil _ hxne]
    exact hz
  have hquote : ∀ l ∈ m :: ms, l.text ≠ ['"'] := by
    intro l hl
    refine h.quote l ?_
    rw [hms]
    exact List.mem_append_right ls hl
  have hnoquote : x.getLast? ≠ some '"' := fun hz => (hlast '"' hz).2.2 rfl
  have hcomment : r ∈ rules → x ∈ r.pattern.lang → isComment x = true → False := by
    intro hr hxr hisComment
    obtain rfl := whole_lexeme hscan hr hxr
    have hone := h.comment m (by rw [hms, List.getLast?_concat]; rfl)
    rw [Flex.texts_cons, Flex.texts_nil, List.append_nil] at hx
    rw [hx, hisComment] at hone
    cases hone
  obtain ⟨z, hz⟩ : ∃ z, x.getLast? = some z := by
    cases hcase : x.getLast? with
    | none => exact absurd (List.getLast?_eq_none_iff.mp hcase) hxne
    | some z => exact ⟨z, rfl⟩
  obtain ⟨hident, hpoint, -⟩ := hlast z hz
  have hzx : z ∈ x := List.mem_of_getLast? hz
  have hplus : ∀ {s m e}, NumberShape (x ++ d :: v) s m e → z = '+' := by
    intro s m e hshape
    rcases hshape.mem z (List.mem_append_left _ hzx) with hz | hz | hz | hz | hz
    · rw [identChar_of_identStart (identStart_of_digit hz)] at hident
      cases hident
    · exact absurd hz hpoint
    · subst hz
      cases hident
    · exact hz
    · subst hz
      cases hident
  have hlong : ∀ w : List Char, w.length ≤ 1 → x ++ d :: v ≠ w := by
    rintro w hw rfl
    have hpos := List.length_pos_of_ne_nil hxne
    simp only [List.length_append, List.length_cons] at hw
    omega
  have hpair : ∀ e e', literalStart e' = false → x ++ d :: v ≠ [e, e'] := by
    intro e e' he' heq
    have hlen := congrArg List.length heq
    have hpos := List.length_pos_of_ne_nil hxne
    simp only [List.length_append, List.length_cons, List.length_nil] at hlen
    obtain ⟨e₀, rfl⟩ := List.length_eq_one_iff.mp (show x.length = 1 by omega)
    obtain ⟨-, htail⟩ := List.cons.inj heq
    exact not_literalStart hc he' (List.cons.inj htail).1
  simp only [rules, List.mem_cons, List.not_mem_nil, or_false] at hr
  rcases hr with rfl | rfl | rfl | rfl | rfl | rfl | rfl | rfl | rfl | rfl | rfl | rfl | rfl |
    rfl | rfl | rfl | rfl | rfl
  · have hdash : x ≠ ['-'] := by
      rintro rfl
      obtain rfl : '-' = z := Option.some.inj hz
      cases hident
    have hxr := comment_of_append (s := "--") rfl hmem hxne hdash
    exact hcomment (by simp [rules]) hxr (by simp [isComment, (accepts_iff dashComment x).mpr hxr])
  · have hslash : x ≠ ['/'] := by
      rintro rfl
      obtain ⟨a, ha, b, -, heq⟩ := mem_seq.mp hmem
      rw [mem_text.mp ha] at heq
      obtain ⟨-, htail⟩ := List.cons.inj heq
      exact not_literalStart hc rfl (List.cons.inj htail).1.symm
    have hxr := comment_of_append (s := "//") rfl hmem hxne hslash
    exact hcomment (by simp [rules]) hxr (by simp [isComment, (accepts_iff slashComment x).mpr hxr])
  · have hblank := (mem_plus_chars.mp hmem).2 d (by simp)
    rw [blank_of_literalStart hc] at hblank
    cases hblank
  · obtain ⟨b, hb, heq⟩ := mem_timestamp.mp hmem
    exact no_string_across hscan hquote hnoquote
      (mem_quotedBody_of_plain (quote_not_mem_timestamp hb)) heq
  · obtain ⟨b, hb, heq⟩ := mem_dquoted.mp hmem
    exact no_string_across hscan hquote hnoquote hb heq
  · obtain ⟨s, m, e, hshape⟩ := wholeNumber_shape hmem
    have huse := uses_of_mem hmem (List.mem_append_left _ hzx)
    rw [hplus hshape] at huse
    revert huse
    decide
  · exact hlong _ (by decide) (mem_text.mp hmem)
  · obtain ⟨s, m', e, hshape⟩ := floatingPoint_shape hmem
    rw [hplus hshape] at hz
    obtain ⟨x', rfl⟩ := List.getLast?_eq_some_iff.mp hz
    rw [List.append_assoc] at hmem
    have hdangling := dangling_of_floatingPoint hmem
    rw [← hx] at hdangling
    exact h.exponent ls (m :: ms) hms hdangling
  · obtain ⟨e, es, heq, he, hes⟩ := mem_identifier.mp hmem
    have hall : ∀ a ∈ x ++ d :: v, identChar a = true := by
      rw [heq]
      exact List.forall_mem_cons.mpr ⟨identChar_of_identStart he, hes⟩
    rw [hall z (List.mem_append_left _ hzx)] at hident
    cases hident
  · exact hpair '<' '=' rfl (mem_text.mp hmem)
  · exact hpair '>' '=' rfl (mem_text.mp hmem)
  · exact hpair '<' '>' rfl (mem_text.mp hmem)
  · exact hpair '!' '=' rfl (mem_text.mp hmem)
  · exact hlong _ (by decide) (mem_text.mp hmem)
  · exact hlong _ (by decide) (mem_text.mp hmem)
  · exact hlong _ (by decide) (mem_text.mp hmem)
  · exact hlong _ (by decide) (mem_text.mp hmem)
  · obtain ⟨e, -, heq⟩ := mem_chars.mp hmem
    exact hlong [e] (by simp) heq

/-! ### A text that literals do not join is shut -/

/-- Every match of the pattern goes on with the text. -/
def RunsOn (p : Pattern) (v : List Char) : Prop := ∀ w ∈ p.lang, w ++ v ∈ p.lang

theorem runsOn_star_chars {p : Char → Bool} {v : List Char} (hv : ∀ c ∈ v, p c = true) :
    RunsOn (star (chars p)) v := by
  intro w hw
  rw [mem_star_chars] at hw ⊢
  exact List.forall_mem_append.mpr ⟨hw, hv⟩

theorem runsOn_seq {p q : Pattern} {v : List Char} (hq : RunsOn q v) : RunsOn (seq p q) v := by
  intro w hw
  obtain ⟨a, ha, b, hb, rfl⟩ := mem_seq.mp hw
  exact mem_seq.mpr ⟨a, ha, b ++ v, hq b hb, by simp⟩

theorem runsOn_alt {p q : Pattern} {v : List Char} (hp : RunsOn p v) (hq : RunsOn q v) :
    RunsOn (alt p q) v := by
  intro w hw
  exact mem_alt.mpr ((mem_alt.mp hw).imp (hp w) (hq w))

theorem runsOn_digits : RunsOn digits ['5'] :=
  runsOn_seq (runsOn_star_chars (List.all_eq_true.mp (by decide +kernel)))

theorem runsOn_exponent : RunsOn exponent ['5'] := runsOn_seq (runsOn_seq runsOn_digits)

theorem runsOn_floatingPoint : RunsOn floatingPoint ['5'] :=
  runsOn_alt (runsOn_seq (runsOn_seq (runsOn_seq
      (runsOn_star_chars (List.all_eq_true.mp (by decide +kernel))))))
    (runsOn_alt (runsOn_seq (runsOn_seq runsOn_digits))
      (runsOn_alt (runsOn_seq (runsOn_seq runsOn_exponent))
        (runsOn_alt (runsOn_seq (runsOn_seq runsOn_exponent))
          (runsOn_seq (runsOn_seq runsOn_exponent)))))

theorem runsOn_wholeNumber : RunsOn wholeNumber ['5'] :=
  runsOn_seq (runsOn_seq (runsOn_star_chars (List.all_eq_true.mp (by decide +kernel))))

theorem runsOn_identifier {v : List Char} (hv : ∀ c ∈ v, identChar c = true) :
    RunsOn identifier v :=
  runsOn_seq (runsOn_star_chars hv)

theorem runsOn_comment (s : String) {v : List Char} (hv : '\n' ∉ v) :
    RunsOn (seq (text s) (star (chars (· ≠ '\n')))) v := by
  refine runsOn_seq (runsOn_star_chars ?_)
  intro c hc
  rw [decide_eq_true_eq]
  rintro rfl
  exact hv hc

/-- A digit joins every lexeme that ends in a word character or a point. -/
theorem digit_joins {w : List Char} {r : Rule SymbolType} (hr : firstRule rules w = some r)
    {c : Char} (hc : w.getLast? = some c) (hword : identChar c = true ∨ c = '.') :
    ∃ q ∈ rules, w ++ ['5'] ∈ q.pattern.lang := by
  obtain ⟨hmem, hw⟩ := Flex.firstRule_some hr
  have hcw : c ∈ w := List.mem_of_getLast? hc
  have hnot : ∀ d, identChar d = false → d ≠ '.' → c ≠ d := by
    rintro d hd hpoint rfl
    rcases hword with h | h
    · rw [hd] at h
      cases h
    · exact hpoint h
  have htext : ∀ {s : String} {d : Char}, w ∈ (text s).lang → s.toList.getLast? = some d →
      c = d := by
    intro s d hw hd
    rw [mem_text.mp hw, hd] at hc
    exact (Option.some.inj hc).symm
  have hquoted : ∀ b : List Char, w = '"' :: (b ++ ['"']) → c = '"' := by
    rintro b rfl
    rw [← List.cons_append, List.getLast?_concat] at hc
    exact (Option.some.inj hc).symm
  simp only [rules, List.mem_cons, List.not_mem_nil, or_false] at hmem
  rcases hmem with rfl | rfl | rfl | rfl | rfl | rfl | rfl | rfl | rfl | rfl | rfl | rfl | rfl |
    rfl | rfl | rfl | rfl | rfl
  · exact ⟨⟨dashComment, discard⟩, by simp [rules], runsOn_comment "--" (by decide) w hw⟩
  · exact ⟨⟨slashComment, discard⟩, by simp [rules], runsOn_comment "//" (by decide) w hw⟩
  · have hblank := (mem_plus_chars.mp hw).2 c hcw
    simp only [blank, Bool.or_eq_true, decide_eq_true_eq] at hblank
    rcases hblank with ((h | h) | h) | h
    · exact absurd h (hnot _ rfl (by decide))
    · exact absurd h (hnot _ rfl (by decide))
    · exact absurd h (hnot _ rfl (by decide))
    · exact absurd h (hnot _ rfl (by decide))
  · obtain ⟨b, -, heq⟩ := mem_timestamp.mp hw
    exact absurd (hquoted b heq) (hnot _ rfl (by decide))
  · obtain ⟨b, -, heq⟩ := mem_dquoted.mp hw
    exact absurd (hquoted b heq) (hnot _ rfl (by decide))
  · exact ⟨⟨wholeNumber, make .tWholeNumber⟩, by simp [rules], runsOn_wholeNumber w hw⟩
  · refine ⟨⟨identifier, identifierAction⟩, by simp [rules], ?_⟩
    rw [mem_text.mp hw]
    exact (accepts_iff _ _).mp (by decide)
  · exact ⟨⟨floatingPoint, make .tFloatingPointNumber⟩, by simp [rules],
      runsOn_floatingPoint w hw⟩
  · exact ⟨⟨identifier, identifierAction⟩, by simp [rules],
      runsOn_identifier (List.all_eq_true.mp (by decide +kernel)) w hw⟩
  · exact absurd (htext hw rfl) (hnot '=' rfl (by decide))
  · exact absurd (htext hw rfl) (hnot '=' rfl (by decide))
  · exact absurd (htext hw rfl) (hnot '>' rfl (by decide))
  · exact absurd (htext hw rfl) (hnot '=' rfl (by decide))
  · exact absurd (htext hw rfl) (hnot '<' rfl (by decide))
  · exact absurd (htext hw rfl) (hnot '>' rfl (by decide))
  · exact absurd (htext hw rfl) (hnot '=' rfl (by decide))
  · exact absurd (htext hw rfl) (hnot ';' rfl (by decide))
  · obtain ⟨d, -, rfl⟩ := mem_chars.mp hw
    obtain rfl : d = c := Option.some.inj hc
    rcases hword with h | rfl
    · rw [identChar, Bool.or_eq_true, decide_eq_true_eq] at h
      rcases h with h | rfl
      · exact ⟨⟨identifier, identifierAction⟩, by simp [rules],
          mem_identifier.mpr ⟨d, ['5'], rfl, h, List.all_eq_true.mp (by decide +kernel)⟩⟩
      · exact ⟨⟨wholeNumber, make .tWholeNumber⟩, by simp [rules],
          (accepts_iff _ _).mp (by decide)⟩
    · exact ⟨⟨floatingPoint, make .tFloatingPointNumber⟩, by simp [rules],
        (accepts_iff _ _).mp (by decide)⟩

/-- A string joins every lexeme that ends in a quote. -/
theorem string_joins {w : List Char} {r : Rule SymbolType} (hr : firstRule rules w = some r)
    (hc : w.getLast? = some '"') :
    w ++ ['"'] ∈ dashComment.lang ∨ w ++ ['"'] ∈ slashComment.lang ∨ w ++ ['"'] ∈ dquoted.lang ∨
      w ++ ['"', '"'] ∈ dquoted.lang := by
  obtain ⟨hmem, hw⟩ := Flex.firstRule_some hr
  have hcw : '"' ∈ w := List.mem_of_getLast? hc
  have huse : ∀ {p : Pattern}, w ∈ p.lang → p.uses '"' = true := fun h => uses_of_mem h hcw
  have hstring : ∀ b ∈ quotedBody.lang, w = '"' :: (b ++ ['"']) →
      w ++ ['"', '"'] ∈ dquoted.lang := by
    rintro b hb rfl
    exact dquoted_append hb (nil_mem_star _)
  simp only [rules, List.mem_cons, List.not_mem_nil, or_false] at hmem
  rcases hmem with rfl | rfl | rfl | rfl | rfl | rfl | rfl | rfl | rfl | rfl | rfl | rfl | rfl |
    rfl | rfl | rfl | rfl | rfl
  · exact .inl (runsOn_comment "--" (by decide) w hw)
  · exact .inr (.inl (runsOn_comment "//" (by decide) w hw))
  · exact absurd (huse hw) (by decide)
  · obtain ⟨b, hb, heq⟩ := mem_timestamp.mp hw
    exact .inr (.inr (.inr (hstring b (mem_quotedBody_of_plain (quote_not_mem_timestamp hb)) heq)))
  · obtain ⟨b, hb, heq⟩ := mem_dquoted.mp hw
    exact .inr (.inr (.inr (hstring b hb heq)))
  · exact absurd (huse hw) (by decide)
  · exact absurd (huse hw) (by decide)
  · exact absurd (huse hw) (by decide)
  · exact absurd (huse hw) (by decide)
  · exact absurd (huse hw) (by decide)
  · exact absurd (huse hw) (by decide)
  · exact absurd (huse hw) (by decide)
  · exact absurd (huse hw) (by decide)
  · exact absurd (huse hw) (by decide)
  · exact absurd (huse hw) (by decide)
  · exact absurd (huse hw) (by decide)
  · exact absurd (huse hw) (by decide)
  · obtain ⟨d, -, rfl⟩ := mem_chars.mp hw
    obtain rfl : d = '"' := Option.some.inj hc
    exact .inr (.inr (.inl (mem_dquoted.mpr ⟨[], nil_mem_star _, rfl⟩)))

/-- The last lexeme of a text. -/
theorem scan_last {t : List Char} {c : Char} (hc : t.getLast? = some c) :
    ∃ ls m r, scan rules t = ls ++ [m] ∧ firstRule rules m.text = some r ∧
      m.text.getLast? = some c := by
  have hne : t ≠ [] := by
    rintro rfl
    cases hc
  have hscan : scan rules t ≠ [] := Flex.scan_ne_nil hne
  have hsplit := List.dropLast_append_getLast hscan
  generalize (scan rules t).dropLast = ls at hsplit
  generalize (scan rules t).getLast _ = m at hsplit
  have hone : scan rules (texts [m]) = [m] := Flex.scan_texts_right covers hsplit.symm
  obtain ⟨-, r, -, hmne, hr, -, -, -⟩ := Flex.scan_eq_cons covers hone
  refine ⟨ls, m, r, hsplit.symm, hr, ?_⟩
  have ht : t = texts ls ++ m.text := by
    have hall := Flex.texts_scan covers t
    rw [← hsplit, Flex.texts_append, Flex.texts_cons, Flex.texts_nil, List.append_nil] at hall
    exact hall.symm
  rwa [ht, List.getLast?_append_of_ne_nil _ hmne] at hc

theorem five_of_dangling {w : List Char} (h : w ∈ danglingExponent.lang) :
    w ++ ['5'] ∈ floatingPoint.lang := by
  obtain ⟨s, hs, z, hz, rfl⟩ := mem_seq.mp h
  obtain ⟨m, hm, e, he, rfl⟩ := mem_seq.mp hz
  obtain ⟨a, ha, b, hb, rfl⟩ := mem_seq.mp he
  obtain rfl := mem_char.mp ha
  obtain rfl := mem_char.mp hb
  have hexp : ['E', '+', '5'] ∈ exponent.lang := (accepts_iff _ _).mp (by decide)
  have hnumber : ∀ p : Pattern, m ∈ p.lang →
      s ++ (m ++ (['E'] ++ ['+'])) ++ ['5'] ∈ (seq sign (seq p exponent)).lang := fun p hp =>
    mem_seq.mpr ⟨s, hs, m ++ ['E', '+', '5'],
      mem_seq.mpr ⟨m, hp, ['E', '+', '5'], hexp, rfl⟩, by simp⟩
  rw [floatingPoint, mem_alt, mem_alt, mem_alt, mem_alt]
  rcases mem_alt.mp hm with hm | hm
  · exact .inr (.inr (.inl (hnumber digits hm)))
  · rcases mem_alt.mp hm with hm | hm
    · exact .inr (.inr (.inr (.inl (hnumber pointed hm))))
    · exact .inr (.inr (.inr (.inr (hnumber pointFirst hm))))

/-- A text that neither the number 5 nor the empty string joins is shut. -/
theorem shut_of_closed {t y z : List Char} (hfive : Closed rules t ('5' :: y))
    (hstring : Closed rules t ('"' :: '"' :: z)) : Shut t := by
  have hno : ∀ ls ms, scan rules t = ls ++ ms → ms ≠ [] →
      ∀ r ∈ rules, texts ms ++ ['5'] ∉ r.pattern.lang := fun ls ms hms hne r hr =>
    hfive ls ms hms hne r hr ['5'] (by simp) ⟨y, rfl⟩
  have hnoquote : ∀ ls ms, scan rules t = ls ++ ms → ms ≠ [] →
      ∀ r ∈ rules, texts ms ++ ['"'] ∉ r.pattern.lang := fun ls ms hms hne r hr =>
    hstring ls ms hms hne r hr ['"'] (by simp) ⟨'"' :: z, rfl⟩
  have hnotwo : ∀ ls ms, scan rules t = ls ++ ms → ms ≠ [] →
      ∀ r ∈ rules, texts ms ++ ['"', '"'] ∉ r.pattern.lang := fun ls ms hms hne r hr =>
    hstring ls ms hms hne r hr ['"', '"'] (by simp) ⟨z, rfl⟩
  refine ⟨?_, ?_, ?_, ?_⟩
  · intro c hc
    obtain ⟨ls, m, r, hscan, hr, hlast⟩ := scan_last hc
    have hm : texts [m] = m.text := by simp
    have hword : ¬(identChar c = true ∨ c = '.') := by
      intro hword
      obtain ⟨q, hq, hjoin⟩ := digit_joins hr hlast hword
      exact hno ls [m] hscan (by simp) q hq (by rw [hm]; exact hjoin)
    refine ⟨by simpa using fun h => hword (.inl h), fun h => hword (.inr h), ?_⟩
    rintro rfl
    rcases string_joins hr hlast with h | h | h | h
    · exact hnoquote ls [m] hscan (by simp) ⟨dashComment, discard⟩ (by simp [rules])
        (by rw [hm]; exact h)
    · exact hnoquote ls [m] hscan (by simp) ⟨slashComment, discard⟩ (by simp [rules])
        (by rw [hm]; exact h)
    · exact hnoquote ls [m] hscan (by simp) _ dquoted_mem_rules (by rw [hm]; exact h)
    · exact hnotwo ls [m] hscan (by simp) _ dquoted_mem_rules (by rw [hm]; exact h)
  · intro m hm
    obtain ⟨ls, hscan⟩ := List.getLast?_eq_some_iff.mp hm
    have htext : texts [m] = m.text := by simp
    rw [← Bool.not_eq_true]
    intro hcomment
    rw [isComment, Bool.or_eq_true, accepts_iff, accepts_iff] at hcomment
    rcases hcomment with h | h
    · exact hno ls [m] hscan (by simp) ⟨dashComment, discard⟩ (by simp [rules])
        (by rw [htext]; exact runsOn_comment "--" (by decide) _ h)
    · exact hno ls [m] hscan (by simp) ⟨slashComment, discard⟩ (by simp [rules])
        (by rw [htext]; exact runsOn_comment "//" (by decide) _ h)
  · intro m hm hquote
    obtain ⟨ls, ms, hscan⟩ := List.append_of_mem hm
    have htail : scan rules (texts (m :: ms)) = m :: ms := Flex.scan_texts_right covers hscan
    obtain ⟨rest, r, hsplit, -, -, -, hstops, hrest⟩ := Flex.scan_eq_cons covers htail
    rw [hquote] at hsplit hstops
    -- the rest has no quote that would close the string
    have hopen : '"' ∉ rest := by
      intro hmem
      obtain ⟨a, b, rfl, ha⟩ := List.eq_append_cons_of_mem hmem
      refine hstops _ dquoted_mem_rules (a ++ ['"']) (by simp) ⟨b, by simp⟩ ?_
      exact mem_dquoted.mpr ⟨a, mem_quotedBody_of_plain ha, rfl⟩
    refine hnoquote ls (m :: ms) hscan (by simp) _ dquoted_mem_rules ?_
    rw [hsplit]
    exact mem_dquoted.mpr ⟨rest, mem_quotedBody_of_plain hopen, rfl⟩
  · intro ls ms hms hdangling
    have hne : ms ≠ [] := by
      rintro rfl
      have hempty := (accepts_iff danglingExponent []).mpr hdangling
      revert hempty
      decide
    exact hno ls ms hms hne ⟨floatingPoint, make .tFloatingPointNumber⟩ (by simp [rules])
      (five_of_dangling hdangling)

/-! ### After a literal -/

theorem follows_of_clear {t more : List Char} {last : Bool} (h : clear last t = true)
    (hlast : last = true → more = []) : Follows (t ++ more) := by
  cases t with
  | nil =>
      rw [hlast h]
      exact follows_nil
  | cons c cs =>
      simp only [clear, Bool.and_eq_true, Bool.or_eq_true, Bool.not_eq_true',
        decide_eq_true_eq] at h
      obtain ⟨⟨hident, hpoint⟩, hquote⟩ := h
      refine ⟨?_, ?_⟩
      · intro d hd
        obtain rfl : c = d := by simpa using hd
        exact ⟨hident, hpoint⟩
      · intro z hz
        obtain ⟨rfl, hrest⟩ := List.cons.inj hz
        replace hrest : cs ++ more = z := hrest
        rcases hquote with hquote | ⟨hl, hquote⟩
        · exact absurd rfl hquote
        · rw [← hrest, hlast hl, List.append_nil]
          simpa using hquote

theorem stops_of_closed {t y : List Char} (hne : t ≠ []) (h : Closed rules t y) :
    Stops rules t y := by
  have hwhole := h [] (scan rules t) rfl (Flex.scan_ne_nil hne)
  rwa [Flex.texts_scan covers] at hwhole

/-- A text that joins neither the number 5 nor the empty string is clear. What
comes after it is another literal, unless it is the last. -/
theorem clear_of_closed {t y z : List Char} {last : Bool}
    (hfive : Closed rules ['5'] (t ++ y)) (hstring : Closed rules ['"', '"'] (t ++ z))
    (hy : last = false → ∃ w, y = '5' :: w) (hz : last = false → '"' ∈ z) :
    clear last t = true := by
  have hno := stops_of_closed (by simp) hfive
  have hnoquote := stops_of_closed (by simp) hstring
  cases t with
  | nil =>
      cases last with
      | true => rfl
      | false =>
          obtain ⟨w, rfl⟩ := hy rfl
          refine absurd ?_ (hno ⟨wholeNumber, make .tWholeNumber⟩ (by simp [rules]) ['5']
            (by simp) ⟨w, rfl⟩)
          exact (accepts_iff _ _).mp (by decide)
  | cons c cs =>
      have hident : identChar c = false := by
        rw [← Bool.not_eq_true]
        intro hc
        exact hno ⟨identifier, identifierAction⟩ (by simp [rules]) [c] (by simp) ⟨cs ++ y, rfl⟩
          (mem_identifier.mpr ⟨'5', [c], rfl, by decide, by simpa using hc⟩)
      have hpoint : c ≠ '.' := by
        rintro rfl
        exact hno ⟨floatingPoint, make .tFloatingPointNumber⟩ (by simp [rules]) ['.'] (by simp)
          ⟨cs ++ y, rfl⟩ ((accepts_iff _ _).mp (by decide))
      have hquote : c = '"' → '"' ∉ cs ++ z := by
        rintro rfl hmem
        obtain ⟨a, b, hab, ha⟩ := List.eq_append_cons_of_mem hmem
        refine hnoquote _ dquoted_mem_rules ('"' :: (a ++ ['"'])) (by simp)
          ⟨b, by rw [List.cons_append, List.cons_append, hab]; simp⟩ ?_
        exact dquoted_append (a := []) (nil_mem_star _) (mem_quotedBody_of_plain ha)
      simp only [clear, Bool.and_eq_true, Bool.or_eq_true, Bool.not_eq_true', decide_eq_true_eq]
      refine ⟨⟨hident, hpoint⟩, ?_⟩
      by_cases hc : c = '"'
      · right
        have hnone := hquote hc
        rw [List.mem_append, not_or] at hnone
        cases last with
        | true => exact ⟨rfl, by simpa using hnone.1⟩
        | false => exact absurd (hz rfl) hnone.2
      · exact .inl hc

end DdbShell
