import DdbShell.Parser.Actions
import DdbShell.Parser.Complete

/-!
Texts that a symbol is read from. Fixed words are scanned apart from what comes
behind them, and blanks do not count, so a text is scanned part by part.
`Reads` puts the scanner and the grammar together: the text is scanned to
tokens that the symbol derives, wherever it stands, with a value.
-/

namespace DdbShell

open LR (ParsesAll ParsesAnywhere)
open Lexer

/-! ### Scanning part by part -/

theorem live_blank {c : Char} (h : blank c = true) : ∃ others,
    rules.filter (fun r => r.pattern.first c) = ⟨whitespace, discard⟩ :: others ∧
      ∀ r ∈ others, r.pattern = Flex.Pattern.chars (· ≠ '\n') := by
  simp only [blank, Bool.or_eq_true, decide_eq_true_eq] at h
  rcases h with ((rfl | rfl) | rfl) | rfl
  · exact ⟨[⟨Flex.Pattern.chars (· ≠ '\n'), characterAction⟩], rfl, by simp⟩
  · exact ⟨[⟨Flex.Pattern.chars (· ≠ '\n'), characterAction⟩], rfl, by simp⟩
  · exact ⟨[⟨Flex.Pattern.chars (· ≠ '\n'), characterAction⟩], rfl, by simp⟩
  · exact ⟨[], rfl, by simp⟩

/-- A run of blanks is one lexeme. -/
theorem scan_blanks {w rest : List Char} (hne : w ≠ []) (hw : ∀ c ∈ w, blank c = true)
    (hrest : ∀ d ∈ rest.head?, blank d = false) :
    Flex.scan rules (w ++ rest) = ⟨w, none⟩ :: Flex.scan rules rest := by
  obtain ⟨c, cs, rfl⟩ := List.exists_cons_of_ne_nil hne
  obtain ⟨others, hlive, hothers⟩ := live_blank (hw c List.mem_cons_self)
  have hmem : c :: cs ∈ whitespace.lang := Flex.Pattern.mem_plus_chars.mpr ⟨by simp, hw⟩
  have hr : Flex.firstRule rules (c :: cs) = some ⟨whitespace, discard⟩ := by
    rw [Flex.firstRule_live, hlive]
    exact Flex.firstRule_cons_of_mem hmem
  have hstops : Flex.Stops rules (c :: cs) rest := by
    refine Flex.stops_of_live ?_
    rw [hlive]
    intro r hr v hv hfront hlong
    obtain ⟨d, v, rfl⟩ := List.exists_cons_of_ne_nil hv
    obtain ⟨z, rfl⟩ := hfront
    rcases List.mem_cons.mp hr with rfl | hr
    · have hd := (Flex.Pattern.mem_plus_chars.mp hlong).2 d (by simp)
      rw [hrest d rfl] at hd
      cases hd
    · rw [hothers r hr] at hlong
      obtain ⟨x, -, heq⟩ := Flex.Pattern.mem_chars.mp hlong
      simp at heq
  exact Flex.scan_append_of_stops (by simp) hr hstops

theorem lex_blanks {w rest : List Char} (hw : ∀ c ∈ w, blank c = true)
    (hrest : ∀ d ∈ rest.head?, blank d = false) : lex (w ++ rest) = lex rest := by
  by_cases hne : w = []
  · rw [hne, List.nil_append]
  · rw [lex, scan_blanks hne hw hrest]
    rfl

/-- A blank does not count. -/
theorem lex_blank (rest : List Char) : lex (' ' :: rest) = lex rest := by
  have hrun : ∀ c ∈ rest.takeWhile blank, blank c = true := fun c hc => List.mem_takeWhile_imp hc
  have hbehind : ∀ d ∈ (rest.dropWhile blank).head?, blank d = false := by
    intro d hd
    have hnot := List.head?_dropWhile_not blank rest
    rw [Option.mem_def.mp hd] at hnot
    simpa using hnot
  have hsplit := List.takeWhile_append_dropWhile (p := blank) (l := rest)
  have hone := lex_blanks (w := ' ' :: rest.takeWhile blank) (by simpa [blank] using hrun) hbehind
  have hother := lex_blanks hrun hbehind
  rw [List.cons_append, hsplit] at hone
  rw [hsplit] at hother
  rw [hone, hother]

/-- What keeps a word from going on. -/
def gap (c : Char) : Bool := c = ' ' || c = '(' || c = ')' || c = ','

def Parted (rest : List Char) : Prop := ∀ d ∈ rest.head?, gap d = true

theorem parted_of_head {rest : List Char} (h : (rest.head?.all gap) = true) : Parted rest := by
  intro d hd
  rwa [Option.mem_def.mp hd] at h

theorem eq_of_gap {c : Char} (h : gap c = true) : c = ' ' ∨ c = '(' ∨ c = ')' ∨ c = ',' := by
  simpa [gap, or_assoc] using h

theorem Parted.apart {rest : List Char} (h : Parted rest) (w : List Char) : Apart w rest := by
  intro d hd
  rcases eq_of_gap (h d hd) with rfl | rfl | rfl | rfl <;>
    exact ⟨rfl, by decide, fun heq => absurd heq (by decide)⟩

/-- A word is one token whatever gap is behind it. -/
theorem lex_word {w : List Char} (hw : w ∈ identifier.lang) :
    ∃ ts, ∀ rest, Parted rest → lex (w ++ rest) = ts ++ lex rest := by
  cases hnumber : isNumber w with
  | true =>
      refine ⟨[numberToken w], fun rest hrest => ?_⟩
      rw [lex, scan_number hnumber (hrest.apart w)]
      rfl
  | false =>
      refine ⟨(identifierAction w).toList, fun rest hrest => ?_⟩
      rw [lex, scan_identifier hw hnumber (hrest.apart w)]
      cases identifierAction w <;> rfl

theorem lex_gap {c : Char} (h : gap c = true) :
    ∃ ts, ∀ rest, lex (c :: rest) = ts ++ lex rest := by
  by_cases hblank : c = ' '
  · subst hblank
    exact ⟨[], lex_blank⟩
  · have hsingle : isSingle c = true := by
      rcases eq_of_gap h with rfl | rfl | rfl | rfl
      · exact absurd rfl hblank
      all_goals decide
    refine ⟨[⟨.character c, String.ofList [c]⟩], fun rest => ?_⟩
    rw [lex, scan_single hsingle]
    rfl

/-- Words with gaps between them. -/
def plain (w : List Char) : Bool := w.all fun c => identStart c || gap c

/-- A word at the end of the text does not go on. -/
def Ends (w rest : List Char) : Prop := ∀ c ∈ w.getLast?, identStart c = true → Parted rest

theorem ends_of_gap {w rest : List Char} (h : (w.getLast?.all fun c => !identStart c) = true) :
    Ends w rest := by
  intro c hc hstart
  rw [Option.mem_def.mp hc, Option.all_some, hstart] at h
  cases h

/-- Fixed words are scanned by themselves. -/
theorem lex_append {w rest : List Char} (hplain : plain w = true) (hends : Ends w rest) :
    lex (w ++ rest) = lex w ++ lex rest := by
  induction hlength : w.length using Nat.strong_induction_on generalizing w with
  | _ n ih =>
      cases w with
      | nil => rfl
      | cons c cs =>
          simp only [plain, List.all_cons, Bool.and_eq_true, Bool.or_eq_true] at hplain
          obtain ⟨hc, hcs⟩ := hplain
          by_cases hstart : identStart c = true
          · -- the word that begins here, and what is behind it
            have hsplit := List.takeWhile_append_dropWhile (p := identStart) (l := cs)
            have hword : c :: cs.takeWhile identStart ∈ identifier.lang :=
              mem_identifier.mpr ⟨c, _, rfl, hstart, fun d hd =>
                identChar_of_identStart (List.mem_takeWhile_imp hd)⟩
            obtain ⟨ts, hts⟩ := lex_word hword
            have hrest : plain (cs.dropWhile identStart) = true :=
              List.all_eq_true.mpr fun d hd =>
                List.all_eq_true.mp hcs d ((List.dropWhile_sublist _).subset hd)
            have hlater : Ends (cs.dropWhile identStart) rest := by
              intro d hd hid
              refine hends d ?_ hid
              rw [← hsplit, ← List.cons_append, List.getLast?_append_of_ne_nil]
              · exact hd
              · rintro hnil
                rw [hnil] at hd
                cases hd
            have hparted : Parted (cs.dropWhile identStart) := by
              intro d hd
              have hnot := List.head?_dropWhile_not identStart cs
              rw [Option.mem_def.mp hd] at hnot
              have hmem := List.all_eq_true.mp hrest d (List.mem_of_mem_head? hd)
              simpa [hnot] using hmem
            have hboth : Parted (cs.dropWhile identStart ++ rest) := by
              cases hdrop : cs.dropWhile identStart with
              | nil =>
                  rw [List.nil_append]
                  rw [hdrop, List.append_nil] at hsplit
                  have hlast := List.getLast?_eq_some_getLast (List.cons_ne_nil c cs)
                  refine hends _ hlast ?_
                  rcases List.mem_cons.mp (List.getLast_mem (List.cons_ne_nil c cs)) with
                    heq | hmem
                  · rw [heq]
                    exact hstart
                  · have hall : ∀ d ∈ cs, identStart d = true := by
                      rw [← hsplit]
                      exact fun d hd => List.mem_takeWhile_imp hd
                    exact hall _ hmem
              | cons d ds =>
                  rw [hdrop] at hparted
                  exact hparted
            have hshorter : (cs.dropWhile identStart).length < n := by
              rw [← hlength]
              exact Nat.lt_succ_of_le (List.dropWhile_sublist _).length_le
            rw [← hsplit, ← List.cons_append, List.append_assoc, hts _ hboth, hts _ hparted,
              ih _ hshorter hrest hlater rfl, List.append_assoc]
          · obtain ⟨ts, hts⟩ := lex_gap (hc.resolve_left hstart)
            have hlater : Ends cs rest := by
              intro d hd
              refine hends d ?_
              rw [List.getLast?_cons, Option.mem_def.mp hd]
              rfl
            rw [List.cons_append, hts, hts,
              ih cs.length (by rw [← hlength]; simp) hcs hlater rfl, List.append_assoc]

/-! ### Symbols and their texts -/

/-- Before a gap the text is scanned by itself. -/
def ScansApart (text : List Char) : Prop :=
  ∀ rest, Parted rest → lex (text ++ rest) = lex text ++ lex rest

/-- No token of the text can be part of a semantic error. -/
def Unlimited (text : List Char) : Prop := ∀ t ∈ lex text, t.kind ≠ .kind .kRatelimit

structure Reads (X : Symbol) (v : Semantic) (text : List Char) : Prop where
  apart : ScansApart text
  unlimited : Unlimited text
  parses : ParsesAnywhere statementGrammar SymbolType.kind actions X v (lex text)

/-- Symbols one behind the other. -/
structure ReadsAll (Xs : List Symbol) (vs : List Semantic) (text : List Char) : Prop where
  apart : ScansApart text
  unlimited : Unlimited text
  parses : ∀ below next,
    ParsesAll statementGrammar SymbolType.kind actions below next Xs vs (lex text)

/-- Tokens that have no precedence, with no rate limit among them. -/
def quiet (ts : List SymbolType) : Bool :=
  ts.all fun t => (precedence t.kind).isNone && t.kind ≠ .kind .kRatelimit

theorem scansApart_of_plain {w : List Char} (h : plain w = true) : ScansApart w :=
  fun _ hrest => lex_append h fun _ _ _ => hrest

theorem scansApart_append {w text : List Char} (hplain : plain w = true) (hends : Ends w text)
    (h : ScansApart text) : ScansApart (w ++ text) := by
  intro rest hrest
  have hboth : Ends w (text ++ rest) := by
    intro c hc hstart
    cases text with
    | nil => exact hrest
    | cons d ds => exact hends c hc hstart
  rw [List.append_assoc, lex_append hplain hboth, h rest hrest, lex_append hplain hends,
    List.append_assoc]

theorem parsesAll_tokens {ts us : List SymbolType} {Xs : List Symbol} {vs : List Semantic}
    (hquiet : quiet ts = true)
    (h : ∀ below next,
      ParsesAll statementGrammar SymbolType.kind actions below next Xs vs us) :
    ∀ below next, ParsesAll statementGrammar SymbolType.kind actions below next
      (ts.map (fun t => .t t.kind) ++ Xs) (ts.map .token ++ vs) (ts ++ us) := by
  induction ts with
  | nil => exact h
  | cons t ts ih =>
      rw [quiet, List.all_cons, Bool.and_eq_true, Bool.and_eq_true] at hquiet
      exact fun below next =>
        .token rfl (Option.isNone_iff_eq_none.mp hquiet.1.1) (ih hquiet.2 _ next)

/-- The words are scanned to the tokens, which leave no choice to the parser. -/
def fixed (w : String) (ts : List SymbolType) : Bool :=
  plain w.toList && (lex w.toList = ts) && quiet ts

theorem fixed_iff {w : String} {ts : List SymbolType} :
    fixed w ts = true ↔ plain w.toList = true ∧ lex w.toList = ts ∧ quiet ts = true := by
  simp [fixed, and_assoc]

theorem unlimited_of_quiet {ts : List SymbolType} (h : quiet ts = true) :
    ∀ t ∈ ts, t.kind ≠ .kind .kRatelimit := by
  intro t ht
  have hboth := List.all_eq_true.mp h t ht
  rw [Bool.and_eq_true] at hboth
  exact of_decide_eq_true hboth.2

namespace ReadsAll

variable {Xs : List Symbol} {vs : List Semantic} {X : Symbol} {v : Semantic}
  {a text : List Char} {ts : List SymbolType}

theorem nil : ReadsAll [] [] [] :=
  ⟨fun _ _ => rfl, fun _ ht => (List.not_mem_nil ht).elim, fun _ _ => .nil⟩

/-- Fixed words in front. -/
theorem words (w : String) (ts : List SymbolType) (hfixed : fixed w ts = true)
    (hends : Ends w.toList text) (h : ReadsAll Xs vs text) :
    ReadsAll (ts.map (fun t => .t t.kind) ++ Xs) (ts.map .token ++ vs) (w.toList ++ text) := by
  obtain ⟨hplain, hts, hquiet⟩ := fixed_iff.mp hfixed
  refine ⟨scansApart_append hplain hends h.apart, ?_, ?_⟩
  · intro t ht
    rw [lex_append hplain hends, hts, List.mem_append] at ht
    exact ht.elim (unlimited_of_quiet hquiet t) (h.unlimited t)
  · rw [lex_append hplain hends, hts]
    exact parsesAll_tokens hquiet h.parses

theorem sub (hX : Reads X v a) (hparted : Parted text) (h : ReadsAll Xs vs text) :
    ReadsAll (X :: Xs) (v :: vs) (a ++ text) := by
  refine ⟨?_, ?_, fun below next => ?_⟩
  · intro rest hrest
    have hboth : Parted (text ++ rest) := by
      cases text with
      | nil => exact hrest
      | cons d ds => exact hparted
    rw [List.append_assoc, hX.apart _ hboth, h.apart rest hrest, hX.apart _ hparted,
      List.append_assoc]
  · intro t ht
    rw [hX.apart _ hparted, List.mem_append] at ht
    exact ht.elim (hX.unlimited t) (h.unlimited t)
  · rw [hX.apart _ hparted]
    exact .sub hX.parses (h.parses _ next)

theorem last (hX : Reads X v a) : ReadsAll [X] [v] a := by
  have h := sub hX (fun _ hd => by cases hd) nil
  rwa [List.append_nil] at h

/-- Fixed words and nothing else. -/
theorem ends (w : String) (ts : List SymbolType) (hfixed : fixed w ts = true) :
    ReadsAll (ts.map fun t => .t t.kind) (ts.map .token) w.toList := by
  have h := words w ts hfixed (fun _ _ _ _ hd => by cases hd) nil
  rwa [List.append_nil, List.append_nil, List.append_nil] at h

/-- A clause that is not there. -/
theorem absent (hX : ParsesAnywhere statementGrammar SymbolType.kind actions X v [])
    (h : ReadsAll Xs vs text) : ReadsAll (X :: Xs) (v :: vs) text :=
  ⟨h.apart, h.unlimited, fun _ next => .empty hX (h.parses _ next)⟩

end ReadsAll

namespace Reads

variable {A : Nonterminal} {vs : List Semantic} {v : Semantic}
  {text : List Char}

theorem node (rhs : List Symbol) (rule : rhs ∈ productions A)
    (hprec : statementGrammar.rulePrec rhs = none)
    (h : ReadsAll rhs vs text) (hv : ruleAction A vs = v) : Reads (nt A) v text :=
  ⟨h.apart, h.unlimited,
    fun below next => hv ▸ LR.Parses.plain rule hprec (h.parses below next)⟩

/-- A rule of fixed words only. -/
theorem words (w : String) (ts : List SymbolType) (hfixed : fixed w ts = true)
    (rule : ts.map (fun t => LR.Sym.t t.kind) ∈ productions A)
    (hprec : statementGrammar.rulePrec (ts.map fun t => LR.Sym.t t.kind) = none)
    (hv : ruleAction A (ts.map .token) = v) : Reads (nt A) v w.toList :=
  node _ rule hprec (.ends w ts hfixed) hv

theorem token {t : SymbolType} (hquiet : quiet [t] = true) (hapart : ScansApart text)
    (hlex : lex text = [t]) : Reads (.t t.kind) (.token t) text := by
  refine ⟨hapart, fun u hu => unlimited_of_quiet hquiet u (hlex ▸ hu), fun _ _ => ?_⟩
  rw [quiet, List.all_cons, Bool.and_eq_true, Bool.and_eq_true] at hquiet
  exact hlex ▸ LR.Parses.token
    (LR.admits_of_prec (Option.isNone_iff_eq_none.mp hquiet.1.1))

end Reads

/-! ### Names and numbers -/

def quoteName (name : String) : List Char := '"' :: (name.toList ++ ['"'])

/-- A name that stands between quotes as it is: its quotes come in pairs, a
C string holds it, and it is no timestamp. -/
structure Quotable (name : String) : Prop where
  pairs : name.toList ∈ quotedBody.lang
  noNul : '\x00' ∉ name.toList
  noTimestamp : isTimestamp name.toList = false

/-- A name that stands by itself. -/
structure Bare (name : String) : Prop where
  identifier : name.toList ∈ identifier.lang
  noNumber : isNumber name.toList = false
  noKeyword : identifierAction name.toList = some ⟨.kind .tUnquotedString, name⟩

instance (name : String) : Decidable (Quotable name) :=
  decidable_of_iff (quotedBody.accepts name.toList = true ∧ '\x00' ∉ name.toList ∧
      isTimestamp name.toList = false)
    ⟨fun h => ⟨(Flex.Pattern.accepts_iff _ _).mp h.1, h.2.1, h.2.2⟩,
      fun h => ⟨(Flex.Pattern.accepts_iff _ _).mpr h.pairs, h.noNul, h.noTimestamp⟩⟩

instance (name : String) : Decidable (Bare name) :=
  decidable_of_iff (identifier.accepts name.toList = true ∧ isNumber name.toList = false ∧
      identifierAction name.toList = some ⟨.kind .tUnquotedString, name⟩)
    ⟨fun h => ⟨(Flex.Pattern.accepts_iff _ _).mp h.1, h.2.1, h.2.2⟩,
      fun h => ⟨(Flex.Pattern.accepts_iff _ _).mpr h.identifier, h.noNumber, h.noKeyword⟩⟩

theorem quotedToken_eq {name : String} (h : Quotable name) : quotedToken name.toList =
    ⟨.kind .tDquotedString, String.ofList (quoteName name)⟩ := by
  have hall : ∀ c ∈ quoteName name, decide (c ≠ '\x00') = true := by
    intro c hc
    refine decide_eq_true ?_
    rintro rfl
    simp [quoteName, h.noNul] at hc
  rw [quotedToken, h.noTimestamp, yytext, ← quoteName, List.takeWhile_eq_self_iff.mpr hall]
  rfl

theorem lex_quoteName {name : String} (h : Quotable name) (rest : List Char)
    (hrest : Parted rest) :
    lex (quoteName name ++ rest) = ⟨.kind .tDquotedString, String.ofList (quoteName name)⟩ ::
      lex rest := by
  have hquote : ∀ z, rest = '"' :: z → '"' ∉ z := by
    rintro z rfl
    exact absurd (hrest '"' rfl) (by decide)
  rw [lex, quoteName, scan_quoted h.pairs hquote, quotedToken_eq h]
  rfl

theorem unquote_quoteName (name : String) :
    unquote (String.ofList (quoteName name)) = name := by
  have hlast : (quoteName name).getLast? = some '"' := by
    rw [quoteName, ← List.cons_append, List.getLast?_concat]
  have hlength : 2 ≤ (quoteName name).length := by simp [quoteName]
  rw [unquote, String.toList_ofList, if_pos ⟨hlength, rfl, hlast⟩, quoteName, List.tail_cons,
    List.dropLast_concat, String.ofList_toList]

theorem reads_quoted {name : String} (h : Quotable name) :
    Reads (nt .string) (.string name) (quoteName name) := by
  have hlex : lex (quoteName name) =
      [⟨.kind .tDquotedString, String.ofList (quoteName name)⟩] := by
    have hone := lex_quoteName h [] fun _ hd => by cases hd
    rwa [List.append_nil] at hone
  have hapart : ScansApart (quoteName name) := by
    intro rest hrest
    rw [lex_quoteName h rest hrest, hlex]
    rfl
  refine .node [tok .tDquotedString] (by decide) rfl (.last (.token rfl hapart hlex)) ?_
  exact congrArg Semantic.string (unquote_quoteName name)

theorem lex_bare {name : String} (h : Bare name) {rest : List Char} (hrest : Parted rest) :
    lex (name.toList ++ rest) = ⟨.kind .tUnquotedString, name⟩ :: lex rest := by
  rw [lex, scan_identifier h.identifier h.noNumber (hrest.apart _), h.noKeyword]
  rfl

theorem reads_bare {name : String} (h : Bare name) :
    Reads (nt .string) (.string name) name.toList := by
  have hlex : lex name.toList = [⟨.kind .tUnquotedString, name⟩] := by
    have hone := @lex_bare name h [] fun _ hd => by cases hd
    rwa [List.append_nil] at hone
  have hapart : ScansApart name.toList := by
    intro rest hrest
    rw [lex_bare h hrest, hlex]
    rfl
  exact .node [tok .tUnquotedString] (by decide) rfl (.last (.token rfl hapart hlex)) rfl

def numeral (n : Int) : List Char := (toString n).toList

/-- A numeral has digits and a sign only. -/
theorem not_mem_numeral (n : Int) {c : Char} (hc : (digit c || c = '-') = false) :
    c ∉ numeral n := by
  intro hmem
  rw [Bool.or_eq_false_iff] at hc
  obtain ⟨ds, hds, -, hshape⟩ := isWholeNumber_shape (isWholeNumber_toString n)
  have hnone : c ∉ ds := fun hmem => by simp [hds c hmem] at hc
  rcases hshape with heq | heq
  · exact hnone (heq ▸ hmem)
  · rw [numeral, heq] at hmem
    rcases List.mem_cons.mp hmem with heq | hmem
    · simp [heq] at hc
    · exact hnone hmem

theorem lex_numeral (n : Int) {rest : List Char} (hrest : Parted rest) :
    lex (numeral n ++ rest) = ⟨.kind .tWholeNumber, toString n⟩ :: lex rest := by
  have hcases : (wholeNumber.accepts (numeral n) ||
      (Flex.Pattern.text "0").accepts (numeral n)) = true := by
    rcases isWholeNumber_toString n with h | h
    · rw [numeral, (Flex.Pattern.accepts_iff _ _).mpr h]
      rfl
    · rw [numeral, h]
      rfl
  have hnumber : isNumber (numeral n) = true := by
    rw [isNumber, hcases]
    rfl
  have htoken : numberToken (numeral n) = ⟨.kind .tWholeNumber, toString n⟩ := by
    have hall : ∀ c ∈ numeral n, decide (c ≠ '\x00') = true := by
      intro c hc
      refine decide_eq_true ?_
      rintro rfl
      exact not_mem_numeral n (by decide) hc
    rw [numberToken, hcases, yytext, List.takeWhile_eq_self_iff.mpr hall, numeral,
      String.ofList_toList]
    rfl
  rw [lex, scan_number hnumber (hrest.apart _), htoken]
  rfl

theorem reads_numeral (n : Int) :
    Reads (tok .tWholeNumber) (.token ⟨.kind .tWholeNumber, toString n⟩) (numeral n) := by
  have hlex : lex (numeral n) = [⟨.kind .tWholeNumber, toString n⟩] := by
    have hone := @lex_numeral n [] fun _ hd => by cases hd
    rwa [List.append_nil] at hone
  refine .token rfl ?_ hlex
  intro rest hrest
  rw [lex_numeral n hrest, hlex]
  rfl

/-! ### Lists -/

/-- Parts with a comma and a blank between them. -/
def commaSeparated : List (List Char) → List Char
  | [] => []
  | part :: parts => part ++ parts.flatMap fun other => ", ".toList ++ other

def punctuation (c : Char) : SymbolType := ⟨.character c, String.ofList [c]⟩

def comma : SymbolType := punctuation ','

theorem parted_commas (parts : List (List Char)) {rest : List Char} (hrest : Parted rest) :
    Parted ((parts.flatMap fun other => ", ".toList ++ other) ++ rest) := by
  cases parts with
  | nil => exact hrest
  | cons part parts =>
      intro d hd
      obtain rfl : ',' = d := by simpa using hd
      rfl

theorem lex_commas {parts : List (List Char)} (h : ∀ part ∈ parts, ScansApart part)
    {rest : List Char} (hrest : Parted rest) :
    lex ((parts.flatMap fun other => ", ".toList ++ other) ++ rest) =
      (parts.flatMap fun other => comma :: lex other) ++ lex rest := by
  induction parts with
  | nil => rfl
  | cons part parts ih =>
      have hlater := ih fun other hother => h other (List.mem_cons_of_mem part hother)
      have hcomma : lex ", ".toList = [comma] := by decide +kernel
      rw [List.flatMap_cons, List.flatMap_cons, List.append_assoc, List.append_assoc,
        lex_append (by decide) (ends_of_gap (by decide)), hcomma,
        h part List.mem_cons_self _ (parted_commas parts hrest), hlater]
      simp

theorem lex_commaSeparated {parts : List (List Char)} (h : ∀ part ∈ parts, ScansApart part)
    (rest : List Char) (hrest : Parted rest) :
    lex (commaSeparated parts ++ rest) =
      LR.separated comma (parts.map lex) ++ lex rest := by
  cases parts with
  | nil => rfl
  | cons part parts =>
      have hothers : ∀ other ∈ parts, ScansApart other :=
        fun other hother => h other (List.mem_cons_of_mem part hother)
      rw [commaSeparated, List.append_assoc,
        h part List.mem_cons_self _ (parted_commas parts hrest), lex_commas hothers hrest,
        List.map_cons, LR.separated, List.append_assoc, List.flatMap_map]

/-- A list nonterminal reads its elements. -/
theorem reads_list {α : Type} (A B : Nonterminal) (element : α → Semantic)
    (list : List α → Semantic) {text : α → List Char}
    (hrules : productions A = [[nt B], [nt A, chr ',', nt B]])
    (hfirst : ∀ x, ruleAction A [element x] = list [x])
    (hnext : ∀ xs x, ruleAction A [list xs, .token comma, element x] = list (xs ++ [x]))
    {xs : List α} (hne : xs ≠ []) (h : ∀ x ∈ xs, Reads (nt B) (element x) (text x)) :
    Reads (nt A) (list xs) (commaSeparated (xs.map text)) := by
  have hone : [nt B] ∈ productions A := by simp [hrules]
  have hmore : [nt A, chr ',', nt B] ∈ productions A := by simp [hrules]
  have hparts : ∀ part ∈ xs.map text, ScansApart part := by
    intro part hpart
    obtain ⟨x, hx, rfl⟩ := List.mem_map.mp hpart
    exact (h x hx).apart
  have hlex : lex (commaSeparated (xs.map text)) =
      LR.separated comma (xs.map fun x => lex (text x)) := by
    have hall := lex_commaSeparated hparts [] fun _ hd => by cases hd
    rw [List.append_nil, List.map_map] at hall
    exact hall.trans (List.append_nil _)
  refine ⟨?_, ?_, ?_⟩
  · intro rest hrest
    rw [lex_commaSeparated hparts rest hrest, hlex, List.map_map]
    rfl
  · intro t ht
    rw [hlex] at ht
    rcases LR.mem_separated ht with rfl | ⟨ts, hts, ht⟩
    · decide
    · obtain ⟨x, hx, rfl⟩ := List.mem_map.mp hts
      exact (h x hx).unlimited t ht
  · rw [hlex]
    exact @LR.parsesAnywhere_list _ _ _ _ statementGrammar SymbolType.kind actions A (nt B)
      comma α element list _ hone hmore rfl rfl rfl hfirst hnext xs hne
      fun x hx => (h x hx).parses

/-! ### Statements -/

theorem semanticErrorIn_eq_false {trees : List ParseTree}
    (h : ∀ tree ∈ trees, semanticError tree = false) : semanticErrorIn trees = false := by
  induction trees with
  | nil => rfl
  | cons tree trees ih =>
      rw [semanticErrorIn, h tree List.mem_cons_self,
        ih fun other hother => h other (List.mem_cons_of_mem tree hother)]
      rfl

/-- A rate limit has its keyword. -/
theorem exists_ratelimit {tree : ParseTree}
    (hvalid : tree.Valid SymbolType.kind statementGrammar)
    (hsymbol : tree.symbol SymbolType.kind = nt .ratelimit) :
    ∃ t ∈ tree.yield, t.kind = .kind .kRatelimit := by
  cases hvalid with
  | leaf token => cases hsymbol
  | @node A children hrule _ =>
      obtain rfl : A = .ratelimit := LR.Sym.n.inj hsymbol
      have hword : tok .kRatelimit ∈ children.map (LR.Tree.symbol SymbolType.kind) := by
        have hall : ∀ rhs ∈ productions .ratelimit, tok .kRatelimit ∈ rhs := by decide
        exact hall _ hrule
      obtain ⟨child, hchild, hkind⟩ := List.mem_map.mp hword
      cases child with
      | node B others => cases hkind
      | leaf token =>
          exact ⟨token, LR.Tree.mem_yieldAll.mpr ⟨_, hchild, List.mem_cons_self⟩,
            LR.Sym.t.inj hkind⟩

/-- Without a rate limit there is no semantic error. -/
theorem sound_of_unlimited {tree : ParseTree}
    (hvalid : tree.Valid SymbolType.kind statementGrammar)
    (h : ∀ t ∈ tree.yield, t.kind ≠ .kind .kRatelimit) : semanticError tree = false := by
  induction hvalid with
  | leaf token => rfl
  | @node A children hrule hchildren ih =>
      have hothers : semanticErrorIn children = false :=
        semanticErrorIn_eq_false fun tree htree =>
          ih tree htree fun t ht => h t (LR.Tree.mem_yieldAll.mpr ⟨tree, htree, ht⟩)
      rw [semanticError.eq_def]
      simp only [hothers, Bool.or_false]
      split
      · next a b c d e f g A' i j B limit limits =>
          -- the rate limit of the SELECT would have its keyword
          exfalso
          have hlast : LR.Sym.n B = nt .optionalRatelimit := by
            have hall : ∀ rhs ∈ productions .selectCommand,
                rhs.getLast? = some (nt .optionalRatelimit) := by decide
            have hlast := hall _ hrule
            exact Option.some.inj hlast
          obtain rfl : B = .optionalRatelimit := LR.Sym.n.inj hlast
          have hmem : LR.Tree.node .optionalRatelimit (limit :: limits) ∈
              [a, b, c, d, e, f, g, .node A' (i :: j),
                .node .optionalRatelimit (limit :: limits)] := by simp
          have hvalid := hchildren _ hmem
          cases hvalid with
          | node hclause hlimits =>
              have hall : ∀ rhs ∈ productions .optionalRatelimit,
                  ∀ X ∈ rhs.head?, X = nt .ratelimit := by decide
              obtain ⟨t, ht, hkind⟩ :=
                exists_ratelimit (hlimits limit List.mem_cons_self) (hall _ hclause _ rfl)
              have hinside : t ∈ LR.Tree.yieldAll (limit :: limits) :=
                LR.Tree.mem_yieldAll.mpr ⟨limit, List.mem_cons_self, ht⟩
              exact h t (LR.Tree.mem_yieldAll.mpr ⟨_, hmem, hinside⟩) hkind
      · rfl

/-- The text is a whole batch of these statements. -/
def ParsesTo (text : List Char) (list : List (Option ParsedStatement)) : Prop :=
  (parse (lex text)).phase = .finished ∧ statements (parse (lex text)) = list

/-- A text of one command is a batch by itself. -/
theorem Reads.parsesTo {node : CommandNode} {text : List Char}
    (h : Reads (nt .command) (.command node) text) (hne : lex text ≠ []) :
    ParsesTo text [some ⟨node, false⟩] := by
  have hinput : LR.Parses statementGrammar SymbolType.kind actions [] none (nt .input)
      (.statement (some ⟨node, false⟩)) (lex text) :=
    .plain (show [nt .command] ∈ productions .input by decide) rfl (.last (h.parses [] none))
  obtain ⟨tree, hvalid, hsymbol, hvalue, hyield, hobeys⟩ := hinput
  have htree : BatchTrees [tree] :=
    ⟨⟨hvalid, hsymbol, by rwa [hyield], hobeys, .inl rfl,
      sound_of_unlimited hvalid (hyield ▸ h.unlimited)⟩, trivial⟩
  have htokens : statementTokens [tree] = lex text := by
    rw [statementTokens, List.flatMap_singleton, hyield]
  have hparse := htree.parse_eq htokens
  refine ⟨by rw [hparse], ?_⟩
  rw [hparse, statements, List.map_singleton, statementOf, hvalue]

end DdbShell
