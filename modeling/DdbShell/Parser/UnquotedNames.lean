import DdbShell.Parser.IncludeLists

/-!
Names that are written without quotes. Where the scanner makes the name itself
of such a text, the text was a plain word. A comment is the one thing to rule
out: it could end in a later line right before a string that has the same text
in quotes.
-/

namespace DdbShell

open Lexer
open Literal (stringValue)

/-! ### Ends and beginnings of a text -/

/-- The blanks at the end of a text. -/
def trailing (s : List Char) : List Char := s.reverse.takeWhile blank

/-- There is no line break among the blanks at the end. -/
def EndsInLine (s : List Char) : Prop := '\n' ∉ trailing s

/-- Behind its blanks the text does not begin as a comment does. -/
def NoComment (s : List Char) : Prop := ∀ d ∈ (s.dropWhile blank).head?, d ≠ '-' ∧ d ≠ '/'

/-- Every quote stands in a line with what is before it, or has no comment
behind it. -/
def QuotesApart (s : List Char) : Prop :=
  ∀ front, EndsInLine front → ∀ a b, s = a ++ '"' :: b → EndsInLine (front ++ a) ∨ NoComment b

theorem trailing_append (a b : List Char) : trailing b <+: trailing (a ++ b) := by
  rw [trailing, trailing, List.reverse_append, List.takeWhile_append]
  split
  · next hall =>
      have hwhole := (List.takeWhile_prefix (p := blank) (l := b.reverse)).eq_of_length hall
      rw [hwhole]
      exact List.prefix_append _ _
  · exact List.prefix_refl _

theorem trailing_append_of_mem {a b : List Char} {c : Char} (hc : c ∈ b)
    (hblank : blank c = false) : trailing (a ++ b) = trailing b := by
  rw [trailing, trailing, List.reverse_append, List.takeWhile_append, if_neg]
  intro hall
  have hwhole := (List.takeWhile_prefix (p := blank) (l := b.reverse)).eq_of_length hall
  have hmem : c ∈ b.reverse.takeWhile blank := by
    rw [hwhole]
    exact List.mem_reverse.mpr hc
  rw [List.mem_takeWhile_imp hmem] at hblank
  cases hblank

theorem endsInLine_nil : EndsInLine [] := List.not_mem_nil

theorem endsInLine_concat (s : List Char) {c : Char} (hc : blank c = false) :
    EndsInLine (s ++ [c]) := by
  rw [EndsInLine, trailing, List.reverse_append, List.reverse_singleton, List.singleton_append,
    List.takeWhile_cons_of_neg (by simp [hc])]
  exact List.not_mem_nil

theorem EndsInLine.append {s w : List Char} (h : EndsInLine s) (hw : '\n' ∉ w) :
    EndsInLine (s ++ w) := by
  rw [EndsInLine, trailing, List.reverse_append, List.takeWhile_append]
  split
  · intro hmem
    rcases List.mem_append.mp hmem with hmem | hmem
    · exact hw (List.mem_reverse.mp hmem)
    · exact h hmem
  · intro hmem
    exact hw (List.mem_reverse.mp ((List.takeWhile_prefix _).subset hmem))

namespace QuotesApart

variable {w s : List Char}

theorem nil : QuotesApart [] := by
  intro front _ a b heq
  cases a <;> cases heq

/-- A front that has no quote and keeps to its line. -/
theorem append (h : QuotesApart s) (hquote : '"' ∉ w)
    (hline : ∀ front, EndsInLine front → EndsInLine (front ++ w)) : QuotesApart (w ++ s) := by
  intro front hfront a b heq
  rcases List.append_eq_append_iff.mp heq with ⟨a', rfl, hs⟩ | ⟨b', rfl, hb⟩
  · rw [← List.append_assoc]
    exact h _ (hline front hfront) a' b hs
  · cases b' with
    | nil =>
        rw [List.append_nil] at hquote hline
        exact .inl (hline front hfront)
    | cons c b' =>
        obtain ⟨rfl, -⟩ := List.cons.inj hb
        exact absurd (by simp) hquote

theorem words (h : QuotesApart s) (hquote : '"' ∉ w) (hbreak : '\n' ∉ w) :
    QuotesApart (w ++ s) :=
  h.append hquote fun _ hfront => hfront.append hbreak

theorem closed (h : QuotesApart s) (hquote : '"' ∉ w) {c : Char} (hc : blank c = false)
    (hne : c ≠ '"') : QuotesApart (w ++ c :: s) := by
  have hboth : QuotesApart ((w ++ [c]) ++ s) := by
    refine h.append ?_ fun front _ => ?_
    · simp [hquote, Ne.symm hne]
    · rw [← List.append_assoc]
      exact endsInLine_concat _ hc
  rwa [List.append_assoc] at hboth

/-- A name in quotes. -/
theorem quoted {name : String} (h : QuotesApart s) (hquote : '"' ∉ name.toList)
    (hs : NoComment s) : QuotesApart (quoteName name ++ s) := by
  intro front hfront a b heq
  cases a with
  | nil =>
      rw [List.append_nil]
      exact .inl hfront
  | cons c a =>
      obtain ⟨rfl, htail⟩ := List.cons.inj heq
      rw [List.append_eq, List.append_assoc] at htail
      rcases List.append_eq_append_iff.mp htail with ⟨a', rfl, hrest⟩ | ⟨b', hname, hrest⟩
      · cases a' with
        | nil =>
            obtain ⟨-, rfl⟩ := List.cons.inj hrest
            exact .inr hs
        | cons d a' =>
            obtain ⟨rfl, hbehind⟩ := List.cons.inj hrest
            have hline := endsInLine_concat (front ++ '"' :: name.toList) (c := '"') (by decide)
            have hboth := h _ hline a' b hbehind
            simpa using hboth
      · cases b' with
        | nil =>
            obtain ⟨-, rfl⟩ := List.cons.inj hrest
            exact .inr hs
        | cons d b' =>
            obtain ⟨rfl, -⟩ := List.cons.inj hrest
            rw [hname] at hquote
            exact absurd (by simp) hquote

end QuotesApart

/-! ### What is skipped before a token -/

/-- Blanks and comments in front of a token. Where there is a comment, the line
it stands in has ended. -/
structure Skipped (s : List Char) : Prop where
  shape : (∀ c ∈ s, blank c = true) ∨
    (∃ d ∈ (s.dropWhile blank).head?, d = '-' ∨ d = '/') ∧ '\n' ∈ trailing s

theorem Skipped.blanks {w s : List Char} (hw : ∀ c ∈ w, blank c = true) (h : Skipped s) :
    Skipped (w ++ s) := by
  rcases h.shape with hblank | ⟨hhead, hbreak⟩
  · refine ⟨.inl fun c hc => ?_⟩
    exact (List.mem_append.mp hc).elim (hw c) (hblank c)
  · refine ⟨.inr ⟨?_, (trailing_append w s).subset hbreak⟩⟩
    rwa [List.dropWhile_append_of_pos hw]

/-- A comment, and the line break that ends it. -/
theorem Skipped.comment {c : Char} (hc : c = '-' ∨ c = '/') (w : List Char) {s : List Char}
    (h : Skipped ('\n' :: s)) : Skipped (c :: w ++ '\n' :: s) := by
  have hfirst : blank c = false := by rcases hc with rfl | rfl <;> decide
  refine ⟨.inr ⟨⟨c, ?_, hc⟩, ?_⟩⟩
  · rw [List.cons_append, List.dropWhile_cons_of_neg (by simp [hfirst])]
    rfl
  · refine (trailing_append _ _).subset ?_
    rcases h.shape with hblank | ⟨-, hbreak⟩
    · have hall : trailing ('\n' :: s) = ('\n' :: s).reverse :=
        List.takeWhile_eq_self_iff.mpr fun d hd => hblank d (List.mem_reverse.mp hd)
      rw [hall]
      simp
    · exact hbreak

theorem make_ne_none {kind : TokenKind} {w : List Char} : make kind w ≠ none :=
  fun h => by cases h

theorem identifierAction_ne_none {w : List Char} : identifierAction w ≠ none := by
  unfold identifierAction
  split <;> exact make_ne_none

/-- Only comments and blanks are discarded. -/
theorem discarded_rule {r : Flex.Rule SymbolType} (hr : r ∈ rules) {w : List Char} (hne : w ≠ [])
    (haction : r.action w = none) :
    r.pattern = dashComment ∨ r.pattern = slashComment ∨ r.pattern = whitespace := by
  simp only [rules, List.mem_cons, List.not_mem_nil, or_false] at hr
  rcases hr with rfl | rfl | rfl | rfl | rfl | rfl | rfl | rfl | rfl | rfl | rfl | rfl | rfl | rfl |
    rfl | rfl | rfl | rfl
  · exact .inl rfl
  · exact .inr (.inl rfl)
  · exact .inr (.inr rfl)
  · exact absurd haction make_ne_none
  · exact absurd haction make_ne_none
  · exact absurd haction make_ne_none
  · exact absurd haction make_ne_none
  · exact absurd haction make_ne_none
  · exact absurd haction identifierAction_ne_none
  · exact absurd haction make_ne_none
  · exact absurd haction make_ne_none
  · exact absurd haction make_ne_none
  · exact absurd haction make_ne_none
  · exact absurd haction make_ne_none
  · exact absurd haction make_ne_none
  · exact absurd haction make_ne_none
  · exact absurd haction make_ne_none
  · obtain ⟨c, w, rfl⟩ := List.exists_cons_of_ne_nil hne
    cases haction

/-- A comment goes on to the end of its line. -/
theorem comment_ends {p : Flex.Pattern} (hp : p = dashComment ∨ p = slashComment)
    {w rest : List Char} (hmem : w ∈ p.lang)
    (hstops : ∀ v, v ≠ [] → v <+: rest → w ++ v ∉ p.lang) :
    (∃ c v, w = c :: v ∧ (c = '-' ∨ c = '/')) ∧ ∀ d ∈ rest.head?, d = '\n' := by
  have hboth : ∀ {o : String}, w ∈ (Flex.Pattern.seq (.text o)
        (.star (.chars (· ≠ '\n')))).lang →
      (∀ v, v ≠ [] → v <+: rest → w ++ v ∉ (Flex.Pattern.seq (.text o)
        (.star (.chars (· ≠ '\n')))).lang) →
      (∃ v, w = o.toList ++ v) ∧ ∀ d ∈ rest.head?, d = '\n' := by
    intro o hmem hstops
    obtain ⟨a, ha, b, hb, rfl⟩ := Flex.Pattern.mem_seq.mp hmem
    obtain rfl := Flex.Pattern.mem_text.mp ha
    refine ⟨⟨b, rfl⟩, fun d hd => ?_⟩
    by_contra hne
    refine hstops [d] (by simp) ?_ ?_
    · cases rest with
      | nil => cases hd
      | cons e rest =>
          cases hd
          exact ⟨rest, rfl⟩
    · refine Flex.Pattern.mem_seq.mpr ⟨_, ha, b ++ [d], ?_, (List.append_assoc _ _ _).symm⟩
      refine Flex.Pattern.star_append hb (Flex.Pattern.mem_star_chars.mpr ?_)
      simpa using hne
  rcases hp with rfl | rfl
  · obtain ⟨⟨v, hw⟩, hbreak⟩ := hboth hmem hstops
    exact ⟨⟨'-', '-' :: v, hw, .inl rfl⟩, hbreak⟩
  · obtain ⟨⟨v, hw⟩, hbreak⟩ := hboth hmem hstops
    exact ⟨⟨'/', '/' :: v, hw, .inr rfl⟩, hbreak⟩

/-- No token begins with a line break. -/
theorem lineBreak_discarded {r : Flex.Rule SymbolType} {w : List Char}
    (hr : Flex.firstRule rules ('\n' :: w) = some r) : r.action ('\n' :: w) = none := by
  have hlive : rules.filter (fun r => r.pattern.first '\n') = [⟨whitespace, discard⟩] := rfl
  rw [Flex.firstRule_live, hlive] at hr
  obtain ⟨hmem, -⟩ := Flex.firstRule_some hr
  rw [List.mem_singleton.mp hmem]
  rfl

/-- The first token of a text: its lexeme, with what is skipped before it. -/
theorem lex_eq_cons {s : List Char} {t : SymbolType} {ts : List SymbolType}
    (h : lex s = t :: ts) : ∃ skipped w rest r, s = skipped ++ (w ++ rest) ∧ Skipped skipped ∧
      w ≠ [] ∧ Flex.firstRule rules w = some r ∧ r.action w = some t ∧ lex rest = ts := by
  induction hlength : s.length using Nat.strong_induction_on generalizing s with
  | _ n ih =>
      cases hscan : Flex.scan rules s with
      | nil =>
          rw [lex, hscan] at h
          cases h
      | cons l ls =>
          obtain ⟨rest, r, rfl, hne, hr, htoken, hstops, hrest⟩ := Flex.scan_eq_cons covers hscan
          cases haction : r.action l.text with
          | some u =>
              have hlex : lex (l.text ++ rest) = u :: lex rest := by
                rw [lex, hscan, Flex.tokens, List.filterMap_cons, htoken, haction, lex, hrest]
                rfl
              obtain ⟨rfl, hts⟩ := List.cons.inj (hlex.symm.trans h)
              exact ⟨[], l.text, rest, r, rfl, ⟨.inl fun _ hc => by cases hc⟩, hne, hr, haction,
                hts⟩
          | none =>
              have hlex : lex (l.text ++ rest) = lex rest := by
                rw [lex, hscan, Flex.tokens, List.filterMap_cons, htoken, haction, lex, hrest]
                rfl
              have hshorter : rest.length < n := by
                have hpos := List.length_pos_of_ne_nil hne
                rw [List.length_append] at hlength
                omega
              obtain ⟨skipped, w, rest', r', rfl, hskipped, hw, hr', haction', hts⟩ :=
                ih rest.length hshorter (hlex.symm.trans h) rfl
              refine ⟨l.text ++ skipped, w, rest', r', (List.append_assoc _ _ _).symm, ?_, hw, hr',
                haction', hts⟩
              obtain ⟨hmem, hmatch⟩ := Flex.firstRule_some hr
              have hcomment : r.pattern = dashComment ∨ r.pattern = slashComment →
                  Skipped (l.text ++ skipped) := by
                intro hp
                obtain ⟨⟨c, v, htext, hc⟩, hbreak⟩ := comment_ends hp hmatch (hstops r hmem)
                rw [htext]
                cases skipped with
                | nil =>
                    obtain ⟨d, w, rfl⟩ := List.exists_cons_of_ne_nil hw
                    obtain rfl : d = '\n' := hbreak d rfl
                    rw [lineBreak_discarded hr'] at haction'
                    cases haction'
                | cons d skipped =>
                    obtain rfl : d = '\n' := hbreak d rfl
                    exact .comment hc v hskipped
              rcases discarded_rule hmem hne haction with hp | hp | hp
              · exact hcomment (.inl hp)
              · exact hcomment (.inr hp)
              · rw [hp] at hmatch
                exact hskipped.blanks (Flex.Pattern.mem_plus_chars.mp hmatch).2

theorem rule_of_mem_lex {s : List Char} {t : SymbolType} (h : t ∈ lex s) :
    ∃ w r, Flex.firstRule rules w = some r ∧ r.action w = some t := by
  induction hts : lex s generalizing s with
  | nil =>
      rw [hts] at h
      cases h
  | cons u us ih =>
      obtain ⟨-, w, rest, r, -, -, -, hr, haction, hrest⟩ := lex_eq_cons hts
      rw [hts] at h
      rcases List.mem_cons.mp h with rfl | h
      · exact ⟨w, r, hr, haction⟩
      · exact ih (hrest.symm ▸ h) hrest

/-! ### Names from tokens -/

theorem keyword_ne_dquoted {text : String} {kind : TokenKind}
    (h : ddbshKeyword text = some kind) : kind ≠ .tDquotedString := by
  have hnone : (Lexer.keywords.all fun word => word.2 ≠ .tDquotedString) = true := by
    decide +kernel
  obtain ⟨before, after, heq, -⟩ := List.lookup_eq_some_iff.mp h
  rw [heq, List.all_append, List.all_cons, Bool.and_eq_true, Bool.and_eq_true] at hnone
  exact of_decide_eq_true hnone.2.1

/-- The lexemes that a name is made from: a word, or a string in quotes. -/
theorem string_rule {r : Flex.Rule SymbolType} {v : List Char}
    (hr : Flex.firstRule rules v = some r) {t : SymbolType} (haction : r.action v = some t)
    {name : String} (ht : stringValue t = some name) :
    (v ∈ identifier.lang ∧ isNumber v = false ∧ name = yytext v ∧
        identifierAction v = some ⟨.kind .tUnquotedString, name⟩) ∨
      ∃ b ∈ quotedBody.lang, v = '"' :: (b ++ ['"']) ∧ name = unquote (yytext v) := by
  obtain ⟨hmem, hmatch⟩ := Flex.firstRule_some hr
  have hother : ∀ {kind : TokenKind}, make kind v = some t → kind ≠ .tDquotedString →
      kind = .tUnquotedString ∧ name = yytext v ∧ t = ⟨.kind .tUnquotedString, name⟩ := by
    intro kind hmake hne
    cases hmake
    unfold stringValue at ht
    split at ht
    · next hkind => exact absurd (Terminal.kind.inj hkind) hne
    · next hkind =>
        obtain rfl := Terminal.kind.inj hkind
        obtain rfl := Option.some.inj ht
        exact ⟨rfl, rfl, rfl⟩
    · cases ht
  have hnone : ∀ {kind : TokenKind}, make kind v = some t → kind ≠ .tDquotedString →
      kind ≠ .tUnquotedString → False :=
    fun hmake hne hne' => hne' (hother hmake hne).1
  simp only [rules, List.mem_cons, List.not_mem_nil, or_false] at hmem
  rcases hmem with rfl | rfl | rfl | rfl | rfl | rfl | rfl | rfl | rfl | rfl | rfl | rfl | rfl |
    rfl | rfl | rfl | rfl | rfl
  · cases haction
  · cases haction
  · cases haction
  · exact (hnone haction (by decide) (by decide)).elim
  · obtain ⟨b, hb, hv⟩ := mem_dquoted.mp hmatch
    cases haction
    exact .inr ⟨b, hb, hv, (Option.some.inj ht).symm⟩
  · exact (hnone haction (by decide) (by decide)).elim
  · exact (hnone haction (by decide) (by decide)).elim
  · exact (hnone haction (by decide) (by decide)).elim
  · have hnumber : isNumber v = false := by
      by_contra hnot
      obtain ⟨r, hr', haction'⟩ := number_rule (by simpa using hnot)
      cases hr.symm.trans hr'
      cases haction.symm.trans haction'
      unfold numberToken at ht
      split at ht <;> cases ht
    have hword : name = yytext v ∧ t = ⟨.kind .tUnquotedString, name⟩ := by
      change identifierAction v = some t at haction
      unfold identifierAction at haction
      split at haction
      · next kind hkind => exact (hother haction (keyword_ne_dquoted hkind)).2
      · exact (hother haction (by decide)).2
    exact .inl ⟨hmatch, hnumber, hword.1, hword.2 ▸ haction⟩
  · exact (hnone haction (by decide) (by decide)).elim
  · exact (hnone haction (by decide) (by decide)).elim
  · exact (hnone haction (by decide) (by decide)).elim
  · exact (hnone haction (by decide) (by decide)).elim
  · exact (hnone haction (by decide) (by decide)).elim
  · exact (hnone haction (by decide) (by decide)).elim
  · exact (hnone haction (by decide) (by decide)).elim
  · exact (hnone haction (by decide) (by decide)).elim
  · cases v with
    | nil => cases haction
    | cons c v =>
        change characterAction (c :: v) = some t at haction
        cases haction
        cases hends : endsInput c <;> rw [stringValue, hends] at ht <;> cases ht

/-- The first quote inside a string has another one behind it. -/
theorem quotes_paired {w z : List Char} (hw : '"' ∉ w) (h : w ++ '"' :: z ∈ quotedBody.lang) :
    ∃ others, z = '"' :: others := by
  induction w with
  | nil =>
      rcases cons_mem_quotedBody.mp h with ⟨hne, -⟩ | ⟨-, others, hz, -⟩
      · exact absurd rfl hne
      · exact ⟨others, hz⟩
  | cons c w ih =>
      rw [List.mem_cons, not_or] at hw
      rcases cons_mem_quotedBody.mp h with ⟨-, hrest⟩ | ⟨hc, -⟩
      · exact ih hw.2 hrest
      · exact absurd hc.symm hw.1

/-- What is between the quotes, where there is no quote in it: there is no NUL
in it either, as a string that is cut there does not end in a quote. -/
theorem unquote_yytext {b : List Char} (hb : b ∈ quotedBody.lang) {name : String}
    (hname : name = unquote (yytext ('"' :: (b ++ ['"'])))) (hquote : '"' ∉ name.toList) :
    name.toList = b ∧ '\x00' ∉ b := by
  have hyytext : yytext ('"' :: (b ++ ['"'])) =
      String.ofList ('"' :: (b ++ ['"']).takeWhile (· ≠ '\x00')) := rfl
  have hnul : '\x00' ∉ b := by
    intro hmem
    obtain ⟨front, rest, rfl, hfront⟩ := List.eq_append_cons_of_mem hmem
    have hcut : (front ++ '\x00' :: rest ++ ['"']).takeWhile (· ≠ '\x00') = front := by
      have hpos : ∀ c ∈ front, decide (c ≠ '\x00') = true := fun c hc =>
        decide_eq_true fun heq => hfront (heq ▸ hc)
      rw [List.append_assoc, List.takeWhile_append_of_pos hpos, List.cons_append,
        List.takeWhile_cons_of_neg (by simp), List.append_nil]
    rw [hyytext, hcut, unquote, String.toList_ofList] at hname
    split at hname
    · next hshape =>
        rcases List.eq_nil_or_concat front with rfl | ⟨inner, last, rfl⟩
        · exact absurd hshape.1 (by decide)
        · rw [List.concat_eq_append] at hshape hname hb
          rw [← List.cons_append, List.getLast?_concat] at hshape
          obtain rfl := Option.some.inj hshape.2.2
          rw [List.tail_cons, List.dropLast_concat] at hname
          rw [hname, String.toList_ofList] at hquote
          rw [List.append_assoc, List.singleton_append] at hb
          obtain ⟨others, heq⟩ := quotes_paired hquote hb
          exact absurd (List.cons.inj heq).1 (by decide)
    · rw [hname, String.toList_ofList] at hquote
      exact hquote List.mem_cons_self
  have hall : (b ++ ['"']).takeWhile (· ≠ '\x00') = b ++ ['"'] := by
    refine List.takeWhile_eq_self_iff.mpr fun c hc => decide_eq_true ?_
    rintro rfl
    simp [hnul] at hc
  have hwhole : '"' :: (b ++ ['"']) = quoteName (String.ofList b) := by
    rw [quoteName, String.toList_ofList]
  rw [hyytext, hall, hwhole, unquote_quoteName] at hname
  rw [hname, String.toList_ofList]
  exact ⟨rfl, hnul⟩

theorem identifier_noNul {w : List Char} (h : w ∈ identifier.lang) : '\x00' ∉ w := by
  intro hmem
  have huse := Flex.Pattern.uses_of_mem h hmem
  revert huse
  decide

theorem yytext_identifier {w : List Char} (h : w ∈ identifier.lang) :
    (yytext w).toList = w := by
  have hall : ∀ c ∈ w, decide (c ≠ '\x00') = true := fun c hc =>
    decide_eq_true fun heq => identifier_noNul h (heq ▸ hc)
  rw [yytext, List.takeWhile_eq_self_iff.mpr hall, String.toList_ofList]

theorem mem_behind {p q : Flex.Pattern} {c : Char} (h : ∀ b ∈ q.lang, c ∈ b) :
    ∀ b ∈ (p.seq q).lang, c ∈ b := by
  intro b hb
  obtain ⟨front, -, behind, hbehind, rfl⟩ := Flex.Pattern.mem_seq.mp hb
  exact List.mem_append_right front (h behind hbehind)

theorem colon_mem_timestamp {b : List Char} (h : isTimestamp b = true) : ':' ∈ b := by
  have htime : ∀ b ∈ (Flex.Pattern.seq (.char ':') (.seq digitPair (.seq (.char ':')
      (.seq digitPair (.char 'Z'))))).lang, ':' ∈ b := by
    intro b hb
    obtain ⟨colon, hcolon, _, -, rfl⟩ := Flex.Pattern.mem_seq.mp hb
    rw [Flex.Pattern.mem_char.mp hcolon]
    exact List.mem_cons_self
  -- year, month and day with their dashes, then the hour
  exact mem_behind (mem_behind (mem_behind (mem_behind (mem_behind (mem_behind
    (mem_behind htime)))))) b ((Flex.Pattern.accepts_iff _ _).mp h)

/-- A name that some statement can spell. -/
def Spellable (name : String) : Prop := ∃ text, ∃ t ∈ lex text, stringValue t = some name

theorem Quotable.spellable {name : String} (h : Quotable name) : Spellable name := by
  refine ⟨quoteName name, ⟨.kind .tDquotedString, String.ofList (quoteName name)⟩, ?_, ?_⟩
  · have hlex := lex_quoteName h [] fun _ hd => by cases hd
    rw [List.append_nil] at hlex
    rw [hlex]
    exact List.mem_cons_self
  · exact congrArg some (unquote_quoteName name)

/-- What a statement can spell can be quoted: the scanner makes no name of a
string that is a timestamp or has a NUL in it. -/
theorem Spellable.quotable {name : String} (h : Spellable name) (hquote : '"' ∉ name.toList) :
    Quotable name := by
  obtain ⟨text, t, hmem, ht⟩ := h
  obtain ⟨v, r, hr, haction⟩ := rule_of_mem_lex hmem
  rcases string_rule hr haction ht with ⟨hword, -, rfl, -⟩ | ⟨b, hb, rfl, hname⟩
  · refine ⟨mem_quotedBody_of_plain hquote, ?_, ?_⟩
    · rw [yytext_identifier hword]
      exact identifier_noNul hword
    · rw [yytext_identifier hword, Bool.eq_false_iff]
      intro htime
      have huse := Flex.Pattern.uses_of_mem hword (colon_mem_timestamp htime)
      revert huse
      decide
  · obtain ⟨rfl, hnul⟩ := unquote_yytext hb hname hquote
    refine ⟨hb, hnul, ?_⟩
    obtain ⟨r', hr', haction'⟩ := quoted_rule hb
    cases hr.symm.trans hr'
    cases haction.symm.trans haction'
    rw [Bool.eq_false_iff]
    intro htime
    rw [quotedToken, htime] at ht
    cases ht

/-- A text whose first token makes a name that is the text is a plain word. -/
theorem bare_of_lex {name : String} (hquote : '"' ∉ name.toList) {d : Char} {rest : List Char}
    (hd : d = ',' ∨ d = ')') (hapart : QuotesApart (d :: rest)) {t : SymbolType}
    {ts : List SymbolType} (hlex : lex (name.toList ++ d :: rest) = t :: ts)
    (ht : stringValue t = some name) : Bare name := by
  have hgap : identChar d = false ∧ blank d = false ∧ d ≠ '"' ∧ d ≠ '-' ∧ d ≠ '/' := by
    rcases hd with rfl | rfl <;> decide
  obtain ⟨hident, hblank, hnotQuote, hdash, hslash⟩ := hgap
  obtain ⟨skipped, v, behind, r, hsplit, hskipped, -, hr, haction, -⟩ := lex_eq_cons hlex
  rcases string_rule hr haction ht with ⟨hword, hnumber, hname, htoken⟩ | ⟨b, hb, rfl, hname⟩
  · have hwhole : name.toList = v := hname ▸ yytext_identifier hword
    exact ⟨hwhole ▸ hword, hwhole ▸ hnumber, hwhole ▸ htoken⟩
  · exfalso
    obtain ⟨rfl, -⟩ := unquote_yytext hb hname hquote
    rcases List.append_eq_append_iff.mp hsplit with ⟨a, rfl, hrest⟩ | ⟨a, hinside, hrest⟩
    · cases a with
      | nil => exact hnotQuote (List.cons.inj hrest).1
      | cons e a =>
          obtain ⟨rfl, hbehind⟩ := List.cons.inj hrest
          rcases hskipped.shape with hall | ⟨⟨x, hx, hcomment⟩, hbreak⟩
          · rw [hall d (by simp)] at hblank
            cases hblank
          · rcases hapart [] endsInLine_nil (d :: a) _ hrest with hline | hnone
            · rw [trailing_append_of_mem List.mem_cons_self hblank] at hbreak
              exact hline hbreak
            · -- the comment would begin inside the name
              rw [List.dropWhile_append] at hx
              split at hx
              · rw [List.dropWhile_cons_of_neg (by simp [hblank])] at hx
                cases hx
                exact hcomment.elim hdash hslash
              · next hsome =>
                  have hne : name.toList.dropWhile blank ≠ [] :=
                    fun hnil => hsome (by rw [hnil]; rfl)
                  obtain ⟨e, es, hes⟩ := List.exists_cons_of_ne_nil hne
                  rw [hes] at hx
                  cases hx
                  refine hcomment.elim (hnone x ?_).1 (hnone x ?_).2 <;>
                    rw [List.append_eq, List.append_assoc, List.dropWhile_append, if_neg hsome,
                      hes] <;> rfl
    · cases a with
      | nil => exact hnotQuote (List.cons.inj hrest).1.symm
      | cons e a =>
          obtain ⟨rfl, -⟩ := List.cons.inj hrest
          rw [hinside] at hquote
          exact hquote (by simp)

theorem lex_comma (rest : List Char) : lex (',' :: rest) = comma :: lex rest := by
  rw [lex, scan_single (by decide)]
  rfl

theorem lex_close (rest : List Char) : lex (')' :: rest) = punctuation ')' :: lex rest := by
  rw [lex, scan_single (by decide)]
  rfl

theorem commaSeparated_cons (part : List Char) {parts : List (List Char)} (hne : parts ≠ []) :
    commaSeparated (part :: parts) = part ++ ',' :: ' ' :: commaSeparated parts := by
  obtain ⟨other, others, rfl⟩ := List.exists_cons_of_ne_nil hne
  rfl

theorem not_mem_commaSeparated {c : Char} (hc : c ∉ ", ".toList) {parts : List (List Char)}
    (h : ∀ part ∈ parts, c ∉ part) : c ∉ commaSeparated parts := by
  cases parts with
  | nil => exact List.not_mem_nil
  | cons part parts =>
      intro hmem
      rcases List.mem_append.mp hmem with hmem | hmem
      · exact h part List.mem_cons_self hmem
      · obtain ⟨other, hother, hmem⟩ := List.mem_flatMap.mp hmem
        rcases List.mem_append.mp hmem with hmem | hmem
        · exact hc hmem
        · exact h other (List.mem_cons_of_mem part hother) hmem

theorem QuotesApart.list {names : List String} (hquote : ∀ name ∈ names, '"' ∉ name.toList)
    {tail : List Char} (h : QuotesApart tail) :
    QuotesApart (commaSeparated (names.map String.toList) ++ ')' :: tail) := by
  refine h.closed (not_mem_commaSeparated (by decide) ?_) (by decide) (by decide)
  intro part hpart
  obtain ⟨name, hname, rfl⟩ := List.mem_map.mp hpart
  exact hquote name hname

/-- A list without quotes whose tokens are read as the names in it: the names
are plain words, and the list ends where it was closed. -/
theorem bare_of_nameList {ss : List SymbolType} {names : List String} (h : NameList ss names)
    (hquote : ∀ name ∈ names, '"' ∉ name.toList) {tail : List Char} (hapart : QuotesApart tail)
    {c : SymbolType} {us : List SymbolType}
    (hlex : lex (commaSeparated (names.map String.toList) ++ ')' :: tail) = ss ++ c :: us) :
    (∀ name ∈ names, Bare name) ∧ lex tail = us := by
  induction h with
  | @one t name ht =>
      have hclosed : QuotesApart (')' :: tail) :=
        hapart.closed (w := []) List.not_mem_nil (by decide) (by decide)
      change lex ((name.toList ++ []) ++ ')' :: tail) = [t] ++ c :: us at hlex
      rw [List.append_nil] at hlex
      have hbare := bare_of_lex (hquote name (by simp)) (.inr rfl) hclosed hlex ht
      rw [lex_bare hbare (parted_of_head rfl), lex_close] at hlex
      obtain ⟨-, hrest⟩ := List.cons.inj hlex
      obtain ⟨-, hrest⟩ := List.cons.inj hrest
      exact ⟨fun other hother => List.mem_singleton.mp hother ▸ hbare, hrest⟩
  | @more t _ ts name names ht _ hrest ih =>
      have hne : names.map String.toList ≠ [] := by cases hrest <;> exact List.cons_ne_nil _ _
      have hothers : ∀ other ∈ names, '"' ∉ other.toList :=
        fun other hother => hquote other (List.mem_cons_of_mem name hother)
      have hbehind : QuotesApart
          (',' :: ' ' :: (commaSeparated (names.map String.toList) ++ ')' :: tail)) :=
        (hapart.list hothers).words (w := ", ".toList) (by decide) (by decide)
      rw [List.map_cons, commaSeparated_cons _ hne, List.append_assoc] at hlex
      have hbare := bare_of_lex (hquote name List.mem_cons_self) (.inl rfl) hbehind hlex ht
      rw [List.cons_append, List.cons_append, lex_bare hbare (parted_of_head rfl), lex_comma,
        lex_blank] at hlex
      obtain ⟨-, hlist⟩ := List.cons.inj hlex
      obtain ⟨-, hlist⟩ := List.cons.inj hlist
      obtain ⟨hbares, htail⟩ := ih hothers hlist
      refine ⟨fun other hother => ?_, htail⟩
      rcases List.mem_cons.mp hother with rfl | hother
      · exact hbare
      · exact hbares other hother

end DdbShell
