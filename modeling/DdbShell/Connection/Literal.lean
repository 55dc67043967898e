import DdbShell.Client
import DdbShell.Parser.Literal
import Mathlib.Data.List.TakeWhile

/-!
Rendering a value as the source literal meant to be read back as it. Encoder
and decoder live apart: `render_literal` doubles the quotes of a string, and
the grammar's `unquote` leaves them doubled; the scanner has a timestamp rule
of its own, and hands over its lexemes as C strings. `literal_round_trip_iff`
puts the two together.
-/

namespace DdbShell

open Flex (Lexeme scan)
open Lexer Literal

/-- SQL-style doubling of the quotes inside a string. -/
def doubled (s : List Char) : List Char := s.flatMap fun c => if c = '"' then ['"', '"'] else [c]

def quoteLiteral (s : String) : List Char := '"' :: (doubled s.toList ++ ['"'])

mutual

def renderLiteral : Value → Except Error (List Char)
  | .S s => .ok (quoteLiteral s)
  | .N s => .ok s.toList
  | .BOOL boolean => .ok (if boolean then "true" else "false").toList
  | .NUL => .ok "null".toList
  | .L list => (renderElements list).map fun text => '[' :: (text ++ [']'])
  | .M map => (renderEntries map).map fun text => '{' :: (text ++ ['}'])
  | .B _ | .SS _ | .NS _ | .BS _ =>
      .error ⟨.invalidArgument, "cannot bind a DynamoDB binary or set value: no literal syntax"⟩

/-- The elements of a list, with a comma and a blank between them. -/
def renderElements : List Value → Except Error (List Char)
  | [] => .ok []
  | [v] => renderLiteral v
  | v :: w :: vs => do
      let text ← renderLiteral v
      let rest ← renderElements (w :: vs)
      return text ++ (',' :: ' ' :: rest)

def renderEntries : List (String × Value) → Except Error (List Char)
  | [] => .ok []
  | [(key, v)] => do
      let text ← renderLiteral v
      return quoteLiteral key ++ (':' :: text)
  | (key, v) :: e :: es => do
      let text ← renderLiteral v
      let rest ← renderEntries (e :: es)
      return quoteLiteral key ++ (':' :: (text ++ (',' :: ' ' :: rest)))

end

/-! ### Which values -/

mutual

/-- The value has literal syntax: no binaries, no sets, and every number is a
lexeme of the number rules. -/
def bindable : Value → Bool
  | .N s => isNumber s.toList
  | .S _ | .BOOL _ | .NUL => true
  | .L list => bindableAll list
  | .M map => bindableEntries map
  | .B _ | .SS _ | .NS _ | .BS _ => false

def bindableAll : List Value → Bool
  | [] => true
  | v :: vs => bindable v && bindableAll vs

def bindableEntries : List (String × Value) → Bool
  | [] => true
  | (_, v) :: es => bindable v && bindableEntries es

end

mutual

/-- The strings and map keys of a value. -/
def strings : Value → List String
  | .S s => [s]
  | .L list => stringsAll list
  | .M map => stringsEntries map
  | .N _ | .B _ | .BOOL _ | .NUL | .SS _ | .NS _ | .BS _ => []

def stringsAll : List Value → List String
  | [] => []
  | v :: vs => strings v ++ stringsAll vs

def stringsEntries : List (String × Value) → List String
  | [] => []
  | (key, v) :: es => key :: (strings v ++ stringsEntries es)

end

/-- A string that the scanner and the grammar give back: no quote, no NUL, and
not of the shape of a timestamp. -/
def isPlain (s : String) : Bool :=
  !s.toList.contains '"' && !s.toList.contains '\x00' && !isTimestamp s.toList

/-! ### The tokens of a literal -/

def characterToken (c : Char) : SymbolType := ⟨.character c, String.ofList [c]⟩

def boolToken (boolean : Bool) : SymbolType :=
  if boolean then ⟨.kind .kTrue, "true"⟩ else ⟨.kind .kFalse, "false"⟩

def stringToken (s : String) : SymbolType := quotedToken (doubled s.toList)

mutual

def literalTokens : Value → List SymbolType
  | .S s => [stringToken s]
  | .N s => [numberToken s.toList]
  | .BOOL boolean => [boolToken boolean]
  | .NUL => [⟨.kind .kNull, "null"⟩]
  | .L list => characterToken '[' :: (elementTokens list ++ [characterToken ']'])
  | .M map => characterToken '{' :: (entryTokens map ++ [characterToken '}'])
  | .B _ | .SS _ | .NS _ | .BS _ => []

def elementTokens : List Value → List SymbolType
  | [] => []
  | [v] => literalTokens v
  | v :: w :: vs => literalTokens v ++ characterToken ',' :: elementTokens (w :: vs)

def entryTokens : List (String × Value) → List SymbolType
  | [] => []
  | [(key, v)] => stringToken key :: characterToken ':' :: literalTokens v
  | (key, v) :: e :: es =>
      stringToken key :: characterToken ':' ::
        (literalTokens v ++ characterToken ',' :: entryTokens (e :: es))

end

/-- What the grammar makes of a string's token. -/
def rereadString (s : String) : String := unquote (stringToken s).lexeme

mutual

/-- What the grammar makes of a value's tokens. -/
def reread : Value → Value
  | .S s => .S (rereadString s)
  | .L list => .L (rereadAll list)
  | .M map => .M (rereadEntries map)
  | v => v

def rereadAll : List Value → List Value
  | [] => []
  | v :: vs => reread v :: rereadAll vs

def rereadEntries : List (String × Value) → List (String × Value)
  | [] => []
  | (key, v) :: es => (rereadString key, reread v) :: rereadEntries es

end

/-! ### Scanning a literal -/

/-- The characters a literal begins with. -/
def literalStart (c : Char) : Bool :=
  digit c || ['"', '-', '.', 't', 'f', 'n', '[', '{'].contains c

/-- What may follow a literal that is not to be read on. -/
structure Follows (rest : List Char) : Prop where
  apart : ∀ d ∈ rest.head?, identChar d = false ∧ d ≠ '.'
  quote : ∀ z, rest = '"' :: z → '"' ∉ z

theorem follows_nil : Follows [] := by
  refine ⟨?_, ?_⟩
  · intro d hd
    cases hd
  · intro z hz
    cases hz

/-- Punctuation may follow. -/
theorem follows_cons {c : Char} (rest : List Char) (hident : identChar c = false)
    (hpoint : c ≠ '.') (hquote : c ≠ '"') : Follows (c :: rest) := by
  refine ⟨?_, ?_⟩
  · intro d hd
    obtain rfl : c = d := by simpa using hd
    exact ⟨hident, hpoint⟩
  · intro z hz
    exact absurd (List.cons.inj hz).1 hquote

/-- The text is scanned to the tokens, whatever follows it. -/
structure Scans (text : List Char) (ts : List SymbolType) : Prop where
  head : ∃ c cs, text = c :: cs ∧ literalStart c = true
  lexemes : ∃ ls, Flex.tokens ls = ts ∧
    ∀ rest, Follows rest → scan rules (text ++ rest) = ls ++ scan rules rest

theorem blank_of_literalStart {c : Char} (h : literalStart c = true) : blank c = false := by
  have hne : ∀ d, literalStart d = false → c ≠ d := by
    rintro d hd rfl
    rw [h] at hd
    cases hd
  simp [blank, hne ' ' rfl, hne '\t' rfl, hne '\r' rfl, hne '\n' rfl]

namespace Scans

variable {a b : List Char} {ts us : List SymbolType}

theorem word (hstart : ∃ c cs, a = c :: cs ∧ literalStart c = true) {t : SymbolType}
    (hlast : a.getLast? ≠ some 'E')
    (hscan : ∀ rest, Apart a rest → scan rules (a ++ rest) = ⟨a, some t⟩ :: scan rules rest) :
    Scans a [t] := by
  refine ⟨hstart, [⟨a, some t⟩], rfl, ?_⟩
  intro rest hrest
  exact hscan rest fun d hd => ⟨(hrest.apart d hd).1, (hrest.apart d hd).2, fun _ => hlast⟩

theorem quoted {body : List Char} (hbody : body ∈ quotedBody.lang) :
    Scans ('"' :: (body ++ ['"'])) [quotedToken body] := by
  refine ⟨⟨'"', body ++ ['"'], rfl, rfl⟩,
    [⟨'"' :: (body ++ ['"']), some (quotedToken body)⟩], rfl, ?_⟩
  intro rest hrest
  exact scan_quoted hbody hrest.quote

theorem commaBlank (ha : Scans a ts) (hb : Scans b us) :
    Scans (a ++ ',' :: ' ' :: b) (ts ++ characterToken ',' :: us) := by
  obtain ⟨c, cs, hcs, hc⟩ := ha.head
  obtain ⟨ls, hls, hfirst⟩ := ha.lexemes
  obtain ⟨ms, hms, hsecond⟩ := hb.lexemes
  obtain ⟨d, ds, hds, hd⟩ := hb.head
  refine ⟨⟨c, cs ++ ',' :: ' ' :: b, by rw [hcs]; rfl, hc⟩,
    ls ++ ⟨[','], some (characterToken ',')⟩ :: ⟨[' '], none⟩ :: ms, ?_, ?_⟩
  · rw [Flex.tokens_append, hls]
    exact congrArg (fun x => ts ++ characterToken ',' :: x) hms
  · intro rest hrest
    have hblank : ∀ x ∈ (b ++ rest).head?, blank x = false := by
      intro x hx
      rw [hds] at hx
      obtain rfl : d = x := by simpa using hx
      exact blank_of_literalStart hd
    rw [List.append_assoc, List.cons_append, List.cons_append,
      hfirst _ (follows_cons _ rfl (by decide) (by decide)), scan_single rfl,
      scan_blank hblank, hsecond rest hrest]
    simp [characterToken]

/-- A text between two characters that stand alone. -/
theorem bracketed {o c : Char} (ho : isSingle o = true) (hstart : literalStart o = true)
    (hc : isSingle c = true) (hfollows : ∀ rest, Follows (c :: rest)) (ha : Scans a ts) :
    Scans (o :: (a ++ [c])) (characterToken o :: (ts ++ [characterToken c])) := by
  obtain ⟨ls, hls, hfirst⟩ := ha.lexemes
  refine ⟨⟨o, _, rfl, hstart⟩,
    ⟨[o], some (characterToken o)⟩ :: (ls ++ [⟨[c], some (characterToken c)⟩]), ?_, ?_⟩
  · rw [← hls]
    exact congrArg (characterToken o :: ·) (Flex.tokens_append ls _)
  · intro rest _
    rw [List.cons_append, scan_single ho, List.append_assoc, List.singleton_append,
      hfirst _ (hfollows rest), scan_single hc]
    simp [characterToken]

theorem brackets {o c : Char} (ho : isSingle o = true) (hstart : literalStart o = true)
    (hc : isSingle c = true) : Scans [o, c] [characterToken o, characterToken c] := by
  refine ⟨⟨o, [c], rfl, hstart⟩,
    [⟨[o], some (characterToken o)⟩, ⟨[c], some (characterToken c)⟩], rfl, ?_⟩
  intro rest _
  rw [List.cons_append, scan_single ho, List.cons_append, List.nil_append, scan_single hc]
  rfl

theorem entry {t : SymbolType} (ha : Scans a [t]) (hb : Scans b us) :
    Scans (a ++ ':' :: b) (t :: characterToken ':' :: us) := by
  obtain ⟨c, cs, hcs, hc⟩ := ha.head
  obtain ⟨ls, hls, hfirst⟩ := ha.lexemes
  obtain ⟨ms, hms, hsecond⟩ := hb.lexemes
  refine ⟨⟨c, cs ++ ':' :: b, by rw [hcs]; rfl, hc⟩,
    ls ++ ⟨[':'], some (characterToken ':')⟩ :: ms, ?_, ?_⟩
  · rw [Flex.tokens_append, hls]
    exact congrArg (fun x => t :: characterToken ':' :: x) hms
  · intro rest hrest
    rw [List.append_assoc, List.cons_append,
      hfirst _ (follows_cons _ rfl (by decide) (by decide)), scan_single rfl, hsecond rest hrest]
    simp [characterToken]

end Scans

theorem doubled_mem_quotedBody (s : List Char) : doubled s ∈ quotedBody.lang := by
  induction s with
  | nil => exact Flex.Pattern.nil_mem_star _
  | cons c s ih =>
      rw [doubled, List.flatMap_cons]
      by_cases hc : c = '"'
      · rw [if_pos hc]
        exact cons_mem_quotedBody.mpr (.inr ⟨rfl, doubled s, rfl, ih⟩)
      · rw [if_neg hc]
        exact cons_mem_quotedBody.mpr (.inl ⟨hc, ih⟩)

theorem scans_quoteLiteral (s : String) : Scans (quoteLiteral s) [stringToken s] :=
  .quoted (doubled_mem_quotedBody s.toList)

theorem scans_number {s : List Char} (h : isNumber s = true) : Scans s [numberToken s] := by
  obtain ⟨sign, mantissa, exponent, hshape⟩ := isNumber_shape h
  refine .word ?_ ?_ fun rest hrest => scan_number h hrest
  · have hstart : ∀ c, digit c = true ∨ c = '.' → literalStart c = true := by
      rintro c (hc | rfl)
      · simp [literalStart, hc]
      · rfl
    cases hcase : mantissa with
    | nil => exact absurd hcase hshape.nonempty
    | cons c cs =>
        rcases hshape.sign with rfl | rfl
        · exact ⟨c, cs ++ exponent, by rw [hshape.split, hcase]; rfl,
            hstart c (hshape.mantissa c (by simp [hcase]))⟩
        · exact ⟨'-', mantissa ++ exponent, by rw [hshape.split]; rfl, rfl⟩
  · intro hlast
    have hE := hshape.getLast 'E' hlast
    revert hE
    decide

/-- The three keywords that are values. -/
theorem scans_keyword {w : String} {t : SymbolType}
    (hident : identifier.accepts w.toList = true) (hnumber : isNumber w.toList = false)
    (hstart : w.toList.head?.any literalStart = true) (hlast : w.toList.getLast? ≠ some 'E')
    (haction : identifierAction w.toList = some t) : Scans w.toList [t] := by
  refine .word ?_ hlast ?_
  · cases hw : w.toList with
    | nil => rw [hw] at hstart; cases hstart
    | cons c cs => exact ⟨c, cs, rfl, by rw [hw] at hstart; exact hstart⟩
  · intro rest hrest
    rw [scan_identifier ((Flex.Pattern.accepts_iff _ _).mp hident) hnumber hrest, haction]

mutual

/-- A value with literal syntax is rendered, and scanned to its tokens. -/
theorem scans_literal (v : Value) (h : bindable v = true) :
    ∃ text, renderLiteral v = .ok text ∧ Scans text (literalTokens v) := by
  cases v with
  | S s => exact ⟨_, rfl, scans_quoteLiteral s⟩
  | N s => exact ⟨_, rfl, scans_number h⟩
  | BOOL boolean =>
      refine ⟨_, rfl, ?_⟩
      cases boolean with
      | true => exact scans_keyword (by decide) (by decide) (by decide) (by decide) (by decide)
      | false => exact scans_keyword (by decide) (by decide) (by decide) (by decide) (by decide)
  | NUL =>
      exact ⟨_, rfl,
        scans_keyword (by decide) (by decide) (by decide) (by decide) (by decide)⟩
  | L list =>
      cases list with
      | nil => exact ⟨_, rfl, .brackets rfl rfl rfl⟩
      | cons v vs =>
          obtain ⟨text, htext, hscans⟩ := scans_elements (v :: vs) h (by simp)
          refine ⟨'[' :: (text ++ [']']), by rw [renderLiteral, htext]; rfl, ?_⟩
          exact .bracketed rfl rfl rfl (fun _ => follows_cons _ rfl (by decide) (by decide)) hscans
  | M map =>
      cases map with
      | nil => exact ⟨_, rfl, .brackets rfl rfl rfl⟩
      | cons e es =>
          obtain ⟨text, htext, hscans⟩ := scans_entries (e :: es) h (by simp)
          refine ⟨'{' :: (text ++ ['}']), by rw [renderLiteral, htext]; rfl, ?_⟩
          exact .bracketed rfl rfl rfl (fun _ => follows_cons _ rfl (by decide) (by decide)) hscans
  | B s | SS set | NS set | BS set => cases h

theorem scans_elements (vs : List Value) (h : bindableAll vs = true) (hne : vs ≠ []) :
    ∃ text, renderElements vs = .ok text ∧ Scans text (elementTokens vs) := by
  cases vs with
  | nil => exact absurd rfl hne
  | cons v vs =>
      rw [bindableAll, Bool.and_eq_true] at h
      obtain ⟨text, htext, hscans⟩ := scans_literal v h.1
      cases vs with
      | nil => exact ⟨text, htext, hscans⟩
      | cons w vs =>
          obtain ⟨rest, hrest, hlater⟩ := scans_elements (w :: vs) h.2 (by simp)
          refine ⟨text ++ (',' :: ' ' :: rest), ?_, hscans.commaBlank hlater⟩
          rw [renderElements, htext, hrest]
          rfl

theorem scans_entries (es : List (String × Value)) (h : bindableEntries es = true)
    (hne : es ≠ []) : ∃ text, renderEntries es = .ok text ∧ Scans text (entryTokens es) := by
  cases es with
  | nil => exact absurd rfl hne
  | cons e es =>
      obtain ⟨key, v⟩ := e
      rw [bindableEntries, Bool.and_eq_true] at h
      obtain ⟨text, htext, hscans⟩ := scans_literal v h.1
      have hentry := (scans_quoteLiteral key).entry hscans
      cases es with
      | nil =>
          refine ⟨quoteLiteral key ++ (':' :: text), ?_, hentry⟩
          rw [renderEntries, htext]
          rfl
      | cons e es =>
          obtain ⟨rest, hrest, hlater⟩ := scans_entries (e :: es) h.2 (by simp)
          refine ⟨quoteLiteral key ++ (':' :: (text ++ (',' :: ' ' :: rest))), ?_, ?_⟩
          · rw [renderEntries, htext, hrest]
            rfl
          · have hjoin := hentry.commaBlank hlater
            rwa [List.append_assoc, List.cons_append] at hjoin

end

/-! ### What is read back -/

theorem length_doubled (s : List Char) : (doubled s).length = s.length + s.count '"' := by
  induction s with
  | nil => rfl
  | cons c s ih =>
      have hcons : doubled (c :: s) = (if c = '"' then ['"', '"'] else [c]) ++ doubled s := rfl
      rw [hcons, List.length_append, ih, List.count_cons, List.length_cons]
      by_cases hc : c = '"'
      · simp only [hc, if_true, beq_self_eq_true, List.length_cons, List.length_nil]
        omega
      · simp only [hc, if_false, beq_iff_eq, List.length_cons, List.length_nil]
        omega

theorem doubled_eq_self_iff {s : List Char} : doubled s = s ↔ '"' ∉ s := by
  constructor
  · intro h
    have hlen := length_doubled s
    rw [h] at hlen
    exact List.count_eq_zero.mp (by omega)
  · intro h
    induction s with
    | nil => rfl
    | cons c s ih =>
        rw [List.mem_cons, not_or] at h
        have hcons : doubled (c :: s) = (if c = '"' then ['"', '"'] else [c]) ++ doubled s := rfl
        rw [hcons, if_neg (Ne.symm h.1), ih h.2, List.singleton_append]

theorem mem_doubled {s : List Char} {c : Char} : c ∈ doubled s ↔ c ∈ s := by
  rw [doubled, List.mem_flatMap]
  constructor
  · rintro ⟨d, hd, hc⟩
    split at hc
    · rename_i hquote
      subst hquote
      simp only [List.mem_cons, List.not_mem_nil, or_false, or_self] at hc
      rwa [hc]
    · rwa [List.mem_singleton.mp hc]
  · intro hc
    refine ⟨c, hc, ?_⟩
    split <;> simp_all

theorem isTimestamp_doubled (s : List Char) : isTimestamp (doubled s) = isTimestamp s := by
  by_cases hquote : '"' ∈ s
  · have hneither : ∀ b, '"' ∈ b → isTimestamp b = false := by
      intro b hb
      rw [← Bool.not_eq_true]
      exact fun h => quote_not_mem_timestamp h hb
    rw [hneither s hquote, hneither (doubled s) (mem_doubled.mpr hquote)]
  · rw [doubled_eq_self_iff.mpr hquote]

theorem stringToken_timestamp {s : String} (h : isTimestamp s.toList = true) :
    (stringToken s).kind = .kind .tTimestamp := by
  rw [stringToken, quotedToken, isTimestamp_doubled, h]
  rfl

theorem stringToken_dquoted {s : String} (h : isTimestamp s.toList = false) :
    (stringToken s).kind = .kind .tDquotedString := by
  rw [stringToken, quotedToken, isTimestamp_doubled, h]
  rfl

theorem stringValue_stringToken {s : String} (h : isTimestamp s.toList = false) :
    stringValue (stringToken s) = some (rereadString s) := by
  rw [stringValue, stringToken_dquoted h]
  rfl

theorem yytext_of_no_nul {w : List Char} (h : '\x00' ∉ w) : yytext w = String.ofList w := by
  rw [yytext, List.takeWhile_eq_self_iff.mpr]
  intro c hc
  rw [decide_eq_true_eq]
  rintro rfl
  exact h hc

theorem nul_not_mem_yytext (w : List Char) : '\x00' ∉ (yytext w).toList := by
  intro h
  rw [yytext, String.toList_ofList] at h
  simpa using List.mem_takeWhile_imp h

theorem mem_unquote {s : String} {c : Char} (h : c ∈ (unquote s).toList) : c ∈ s.toList := by
  rw [unquote] at h
  split at h
  · rw [String.toList_ofList] at h
    exact List.mem_of_mem_tail (List.mem_of_mem_dropLast h)
  · exact h

theorem unquote_quoted (b : List Char) :
    unquote (String.ofList ('"' :: (b ++ ['"']))) = String.ofList b := by
  have hlast : ('"' :: (b ++ ['"'])).getLast? = some '"' := by
    rw [← List.cons_append, List.getLast?_concat]
  rw [unquote, String.toList_ofList, if_pos ⟨by simp, rfl, hlast⟩, List.tail_cons,
    List.dropLast_concat]

/-- A string comes back when it has no quote and no NUL. -/
theorem rereadString_eq_self_iff {s : String} :
    rereadString s = s ↔ '"' ∉ s.toList ∧ '\x00' ∉ s.toList := by
  rw [rereadString, stringToken, quotedToken]
  by_cases hnul : '\x00' ∈ s.toList
  · have hne : unquote (yytext ('"' :: (doubled s.toList ++ ['"']))) ≠ s := by
      intro heq
      rw [← heq] at hnul
      exact nul_not_mem_yytext _ (mem_unquote hnul)
    simp [hne, hnul]
  · have hwhole : '\x00' ∉ '"' :: (doubled s.toList ++ ['"']) := by
      simp [mem_doubled, hnul]
    rw [yytext_of_no_nul hwhole, unquote_quoted]
    constructor
    · intro heq
      have hsame : doubled s.toList = s.toList := by
        have hchars := congrArg String.toList heq
        rwa [String.toList_ofList] at hchars
      exact ⟨doubled_eq_self_iff.mp hsame, hnul⟩
    · intro h
      rw [doubled_eq_self_iff.mpr h.1, String.ofList_toList]

theorem numberToken_lexeme {s : String} (h : isNumber s.toList = true) :
    (numberToken s.toList).lexeme = s := by
  obtain ⟨sign, mantissa, exponent, hshape⟩ := isNumber_shape h
  have hnul : '\x00' ∉ s.toList := by
    intro hmem
    have hchar := hshape.mem _ hmem
    revert hchar
    decide
  rw [numberToken, yytext_of_no_nul hnul, String.ofList_toList]

theorem derives_number {s : String} (h : isNumber s.toList = true) :
    LeeRhs [numberToken s.toList] (.N s) := by
  have hlexeme := numberToken_lexeme h
  by_cases hwhole : (wholeNumber.accepts s.toList ||
      (Flex.Pattern.text "0").accepts s.toList) = true
  · have hd : LeeRhs [numberToken s.toList] (.N (numberToken s.toList).lexeme) :=
      .wholeNumber (by simp [numberToken, hwhole])
    rwa [hlexeme] at hd
  · have hd : LeeRhs [numberToken s.toList] (.N (numberToken s.toList).lexeme) :=
      .floatingPoint (by simp [numberToken, hwhole])
    rwa [hlexeme] at hd

/-- No string or key of the value has the shape of a timestamp. -/
def NoTimestamps (ss : List String) : Prop := ∀ s ∈ ss, isTimestamp s.toList = false

theorem noTimestamps_append {ss ts : List String} :
    NoTimestamps (ss ++ ts) ↔ NoTimestamps ss ∧ NoTimestamps ts :=
  List.forall_mem_append

theorem noTimestamps_cons {s : String} {ss : List String} :
    NoTimestamps (s :: ss) ↔ isTimestamp s.toList = false ∧ NoTimestamps ss :=
  List.forall_mem_cons

mutual

theorem derives_literal (v : Value) (hb : bindable v = true) (ht : NoTimestamps (strings v)) :
    LeeRhs (literalTokens v) (reread v) := by
  cases v with
  | S s => exact .dquoted (stringToken_dquoted (ht s (by simp [strings])))
  | N s => exact derives_number hb
  | BOOL boolean =>
      cases boolean with
      | true => exact .true rfl
      | false => exact .false rfl
  | NUL => exact .null rfl
  | L list =>
      cases list with
      | nil => exact .emptyList rfl rfl
      | cons v vs => exact .list rfl (derives_elements (v :: vs) hb ht (by simp)) rfl
  | M map =>
      cases map with
      | nil => exact .emptyMap rfl rfl
      | cons e es => exact .map rfl (derives_entries (e :: es) hb ht (by simp)) rfl
  | B s | SS set | NS set | BS set => cases hb

theorem derives_elements (vs : List Value) (hb : bindableAll vs = true)
    (ht : NoTimestamps (stringsAll vs)) (hne : vs ≠ []) :
    Derives (elementTokens vs) (.leeRhsList (rereadAll vs)) := by
  cases vs with
  | nil => exact absurd rfl hne
  | cons v vs =>
      rw [bindableAll, Bool.and_eq_true] at hb
      rw [stringsAll, noTimestamps_append] at ht
      have hv := derives_literal v hb.1 ht.1
      cases vs with
      | nil => exact .listOne hv
      | cons w vs => exact Derives.listCons hv rfl (derives_elements (w :: vs) hb.2 ht.2 (by simp))

theorem derives_entries (es : List (String × Value)) (hb : bindableEntries es = true)
    (ht : NoTimestamps (stringsEntries es)) (hne : es ≠ []) :
    Derives (entryTokens es) (.mapElementList (rereadEntries es)) := by
  cases es with
  | nil => exact absurd rfl hne
  | cons e es =>
      obtain ⟨key, v⟩ := e
      rw [bindableEntries, Bool.and_eq_true] at hb
      rw [stringsEntries, noTimestamps_cons, noTimestamps_append] at ht
      have hkey := stringValue_stringToken ht.1
      have hv := derives_literal v hb.1 ht.2.1
      cases es with
      | nil => exact .mapOne hkey rfl hv
      | cons e es =>
          exact Derives.mapCons hkey rfl hv rfl (derives_entries (e :: es) hb.2 ht.2.2 (by simp))

end

mutual

theorem reread_eq_self_iff (v : Value) :
    reread v = v ↔ ∀ s ∈ strings v, rereadString s = s := by
  cases v with
  | S s => simp [reread, strings]
  | L list => simpa [reread, strings] using rereadAll_eq_self_iff list
  | M map => simpa [reread, strings] using rereadEntries_eq_self_iff map
  | N s | B s | BOOL boolean | NUL | SS set | NS set | BS set => simp [reread, strings]

theorem rereadAll_eq_self_iff (vs : List Value) :
    rereadAll vs = vs ↔ ∀ s ∈ stringsAll vs, rereadString s = s := by
  cases vs with
  | nil => simp [rereadAll, stringsAll]
  | cons v vs =>
      rw [rereadAll, stringsAll, List.forall_mem_append, List.cons.injEq, reread_eq_self_iff v,
        rereadAll_eq_self_iff vs]

theorem rereadEntries_eq_self_iff (es : List (String × Value)) :
    rereadEntries es = es ↔ ∀ s ∈ stringsEntries es, rereadString s = s := by
  cases es with
  | nil => simp [rereadEntries, stringsEntries]
  | cons e es =>
      obtain ⟨key, v⟩ := e
      rw [rereadEntries, stringsEntries, List.forall_mem_cons, List.forall_mem_append,
        List.cons.injEq, Prod.mk.injEq, reread_eq_self_iff v, rereadEntries_eq_self_iff es,
        and_assoc]

end

mutual

/-- A string of the shape of a timestamp has a timestamp's token. -/
theorem timestamp_mem_literalTokens (v : Value) {s : String} (hs : s ∈ strings v)
    (ht : isTimestamp s.toList = true) : stringToken s ∈ literalTokens v := by
  cases v with
  | S t =>
      rw [strings, List.mem_singleton] at hs
      rw [literalTokens, hs, List.mem_singleton]
  | L list =>
      have hmem := timestamp_mem_elementTokens list hs ht
      simp [literalTokens, hmem]
  | M map =>
      have hmem := timestamp_mem_entryTokens map hs ht
      simp [literalTokens, hmem]
  | N t | B t | BOOL boolean | NUL | SS set | NS set | BS set => cases hs

theorem timestamp_mem_elementTokens (vs : List Value) {s : String} (hs : s ∈ stringsAll vs)
    (ht : isTimestamp s.toList = true) : stringToken s ∈ elementTokens vs := by
  cases vs with
  | nil => cases hs
  | cons v vs =>
      rw [stringsAll, List.mem_append] at hs
      have hfirst := fun h => timestamp_mem_literalTokens v (s := s) h ht
      cases vs with
      | nil => exact hfirst (hs.resolve_right List.not_mem_nil)
      | cons w vs =>
          rw [elementTokens, List.mem_append, List.mem_cons]
          rcases hs with hs | hs
          · exact .inl (hfirst hs)
          · exact .inr (.inr (timestamp_mem_elementTokens (w :: vs) hs ht))

theorem timestamp_mem_entryTokens (es : List (String × Value)) {s : String}
    (hs : s ∈ stringsEntries es) (ht : isTimestamp s.toList = true) :
    stringToken s ∈ entryTokens es := by
  cases es with
  | nil => cases hs
  | cons e es =>
      obtain ⟨key, v⟩ := e
      rw [stringsEntries, List.mem_cons, List.mem_append] at hs
      have hfirst := fun h => timestamp_mem_literalTokens v (s := s) h ht
      cases es with
      | nil =>
          rw [entryTokens, List.mem_cons, List.mem_cons]
          rcases hs with rfl | hs | hs
          · exact .inl rfl
          · exact .inr (.inr (hfirst hs))
          · cases hs
      | cons e es =>
          rw [entryTokens, List.mem_cons, List.mem_cons, List.mem_append, List.mem_cons]
          rcases hs with rfl | hs | hs
          · exact .inl rfl
          · exact .inr (.inr (.inl (hfirst hs)))
          · exact .inr (.inr (.inr (.inr (timestamp_mem_entryTokens (e :: es) hs ht))))

end

/-- The literal of a value, alone in its text. -/
theorem lex_literal {v : Value} (h : bindable v = true) :
    ∃ text, renderLiteral v = .ok text ∧ lex text = literalTokens v := by
  obtain ⟨text, htext, hscans⟩ := scans_literal v h
  obtain ⟨ls, hls, hscan⟩ := hscans.lexemes
  refine ⟨text, htext, ?_⟩
  have hall := hscan [] follows_nil
  rw [List.append_nil, Flex.scan_nil, List.append_nil] at hall
  rw [lex, hall, hls]

/-- The tokens of a value are one complete literal unless one of its strings is
taken for a timestamp. -/
theorem literalTokens_leeRhs_iff {v : Value} (h : bindable v = true) :
    (∃ w, LeeRhs (literalTokens v) w) ↔ NoTimestamps (strings v) := by
  constructor
  · rintro ⟨w, hw⟩ s hs
    rw [← Bool.not_eq_true]
    intro ht
    exact hw.no_timestamp _ (timestamp_mem_literalTokens v hs ht) (stringToken_timestamp ht)
  · intro ht
    exact ⟨reread v, derives_literal v h ht⟩

/-- The value is rendered, and its literal is read back as it. -/
def RoundTrips (v : Value) : Prop :=
  ∃ text, renderLiteral v = .ok text ∧ parseLeeRhs (lex text) = some v

theorem isPlain_iff {s : String} :
    isPlain s = true ↔ rereadString s = s ∧ isTimestamp s.toList = false := by
  rw [rereadString_eq_self_iff]
  simp [isPlain]

/-- A value is read back from its literal exactly when each of its strings and
map keys is plain. -/
theorem literal_round_trip_iff (v : Value) (h : bindable v = true) :
    RoundTrips v ↔ ∀ s ∈ strings v, isPlain s = true := by
  obtain ⟨text, htext, hlex⟩ := lex_literal h
  constructor
  · rintro ⟨text', htext', hparse⟩ s hs
    obtain rfl : text = text' := Except.ok.inj (htext.symm.trans htext')
    rw [hlex] at hparse
    have hw : LeeRhs (literalTokens v) v := parseLeeRhs_iff.mp hparse
    have ht : NoTimestamps (strings v) := (literalTokens_leeRhs_iff h).mp ⟨v, hw⟩
    have hreread := parseLeeRhs_iff.mpr (derives_literal v h ht)
    rw [hparse] at hreread
    have hself : reread v = v := (Option.some.inj hreread).symm
    exact isPlain_iff.mpr ⟨(reread_eq_self_iff v).mp hself s hs, ht s hs⟩
  · intro hplain
    have ht : NoTimestamps (strings v) := fun s hs => (isPlain_iff.mp (hplain s hs)).2
    have hself : reread v = v :=
      (reread_eq_self_iff v).mpr fun s hs => (isPlain_iff.mp (hplain s hs)).1
    have hw := derives_literal v h ht
    rw [hself] at hw
    exact ⟨text, htext, by rw [hlex]; exact parseLeeRhs_iff.mpr hw⟩

/-- A map with an empty key, an empty list and numbers of several shapes. -/
theorem mixed_round_trips :
    RoundTrips (.M [("", .L []), ("a b", .L [.N "-1.5E+3", .S "x", .NUL]), ("k", .M [])]) :=
  (literal_round_trip_iff _ (by decide)).mpr (by decide)

/-- One quote inside a string comes back as two. -/
theorem quote_not_round_trips : bindable (.S "\"") = true ∧ ¬RoundTrips (.S "\"") := by
  refine ⟨rfl, ?_⟩
  rintro ⟨text, htext, hparse⟩
  obtain rfl : quoteLiteral "\"" = text := Except.ok.inj htext
  revert hparse
  decide

end DdbShell
