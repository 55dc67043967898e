import DdbShell.Lib.Flex
import DdbShell.Parser.StatementGrammar
import Mathlib.Data.List.Chain

/-!
The scanner: the rules of the lexical grammar in their order, the keyword
table, and what the scanner makes of the texts the shell itself writes.

Characters stand for bytes. A token's lexeme is handed over as a C string, so
it ends before the first NUL.
-/

namespace DdbShell.Lexer

open Flex (Pattern Rule Lexeme Stops Covers firstRule scan scan_append_of_stops)
open Flex.Pattern

/-! ### The rules -/

def digit (c : Char) : Bool := '0' ≤ c && c ≤ '9'

def letter (c : Char) : Bool := 'a' ≤ c && c ≤ 'z' || 'A' ≤ c && c ≤ 'Z'

def identStart (c : Char) : Bool := letter c || digit c || c = '_'

def identChar (c : Char) : Bool := identStart c || c = '-'

def blank (c : Char) : Bool := c = ' ' || c = '\t' || c = '\r' || c = '\n'

/-- The keyword table: several words may share a token. -/
def keywords : List (String × TokenKind) := [
  ("access", .kAccess), ("add", .kAdd), ("aes256", .kAes256), ("all", .kAll), ("alter", .kAlter),
  ("and", .kAnd), ("as", .kAs), ("attribute_exists", .kAttributeExists),
  ("attribute_not_exists", .kAttributeNotExists), ("attribute_type", .kAttributeType),
  ("backup", .kBackup), ("backups", .kBackups), ("begin", .kBegin), ("begins_with", .kBeginsWith),
  ("between", .kBetween), ("billing", .kBilling), ("binary", .kAttributeTypeBinary),
  ("both", .kBoth), ("brief", .kBrief), ("called", .kCalled), ("capacity", .kCapacity),
  ("check", .kCheck), ("class", .kClass), ("commit", .kCommit), ("connect", .kConnect),
  ("consistent", .kConsistent), ("consumed", .kConsumed), ("contains", .kContains),
  ("cosine", .kCosine), ("create", .kCreate), ("delete", .kDelete), ("deletion", .kDeletion),
  ("demand", .kDemand), ("describe", .kDescribe), ("dimensions", .kDimensions),
  ("disabled", .kDisabled), ("distance", .kDistance), ("dot_product", .kDotProduct),
  ("drop", .kDrop), ("enabled", .kEnabled), ("end", .kCommit), ("endpoint", .kEndpoint),
  ("euclidean", .kEuclidean), ("exists", .kExists), ("explain", .kExplain), ("false", .kFalse),
  ("filter", .kFilter), ("from", .kFrom), ("global", .kGlobal), ("gsi", .kGsi), ("hash", .kHash),
  ("help", .kHelp), ("if", .kIf), ("if_not_exists", .kIfNotExists), ("image", .kImage),
  ("images", .kImages), ("in", .kIn), ("include", .kInclude), ("index", .kIndex),
  ("indexes", .kIndexes), ("infrequent", .kInfrequent), ("insert", .kInsert), ("into", .kInto),
  ("is", .kIs), ("key", .kKey), ("keyid", .kKeyid), ("keys", .kKeys), ("kms", .kKms),
  ("like", .kLike), ("limit", .kLimit), ("limits", .kLimits), ("lsi", .kLsi), ("mode", .kMode),
  ("nearest", .kNearest), ("new", .kNew), ("not", .kNot), ("nowait", .kNowait), ("null", .kNull),
  ("number", .kAttributeTypeNumber), ("numeric", .kNumber), ("old", .kOld), ("on", .kOn),
  ("only", .kOnly), ("or", .kOr), ("pitr", .kPitr), ("primary", .kPrimary),
  ("projecting", .kProjecting), ("protection", .kProtection), ("provisioned", .kProvisioned),
  ("quit", .kQuit), ("range", .kRange), ("ratelimit", .kRatelimit), ("rcu", .kRcu),
  ("remove", .kRemove), ("replace", .kReplace), ("replica", .kReplica), ("restore", .kRestore),
  ("return", .kReturn), ("rollback", .kRollback), ("select", .kSelect), ("search", .kSearch),
  ("set", .kSet), ("show", .kShow), ("size", .kSize), ("sse", .kSse), ("standard", .kStandard),
  ("stream", .kStream), ("string", .kAttributeTypeString), ("table", .kTable),
  ("tables", .kTables), ("tags", .kTags), ("throughput", .kThroughput), ("to", .kTo),
  ("total", .kTotal), ("true", .kTrue), ("ttl", .kTtl), ("unlimited", .kUnlimited),
  ("update", .kUpdate), ("updated", .kUpdated), ("upsert", .kUpsert), ("values", .kValues),
  ("vector", .kVector), ("version", .kVersion), ("vsi", .kVsi), ("warm", .kWarm), ("wcu", .kWcu),
  ("where", .kWhere), ("with", .kWith)]

/-- Lookup folds the case. -/
def ddbshKeyword (text : String) : Option TokenKind :=
  keywords.lookup (String.ofList (text.toList.map Char.toLower))

/-- The matched text as a C string. -/
def yytext (w : List Char) : String := String.ofList (w.takeWhile (· ≠ '\x00'))

def make (kind : TokenKind) (w : List Char) : Option SymbolType := some ⟨.kind kind, yytext w⟩

def discard (_ : List Char) : Option SymbolType := none

/-- An identifier is a keyword or an unquoted string. -/
def identifierAction (w : List Char) : Option SymbolType :=
  match ddbshKeyword (yytext w) with
  | some kind => make kind w
  | none => make .tUnquotedString w

/-- The character codes that are not positive: `char` is signed. -/
def endsInput (c : Char) : Bool := c = '\x00' || 0x80 ≤ c.toNat

/-- A character no other rule takes goes to the grammar as it is; the parser
takes a code that is not positive for the end of the input. -/
def characterAction : List Char → Option SymbolType
  | [] => none
  | c :: _ => some ⟨if endsInput c then .endOfInput else .character c, String.ofList [c]⟩

def digits : Pattern := plus (chars digit)

def sign : Pattern := opt (char '-')

def exponent : Pattern :=
  .seq (char 'E') (.seq (opt (chars fun c => c = '-' || c = '+')) digits)

def dashComment : Pattern := .seq (text "--") (.star (chars (· ≠ '\n')))

def slashComment : Pattern := .seq (text "//") (.star (chars (· ≠ '\n')))

def whitespace : Pattern := plus (chars blank)

def digitPair : Pattern := times 2 (chars digit)

def timestampBody : Pattern :=
  .seq (times 4 (chars digit)) (.seq (char '-') (.seq digitPair (.seq (char '-') (.seq digitPair
    (.seq (char 'T') (.seq digitPair (.seq (char ':') (.seq digitPair (.seq (char ':')
      (.seq digitPair (char 'Z')))))))))))

def timestamp : Pattern := .seq (char '"') (.seq timestampBody (char '"'))

def quotedBody : Pattern := .star (.alt (chars (· ≠ '"')) (text "\"\""))

def dquoted : Pattern := .seq (char '"') (.seq quotedBody (char '"'))

def wholeNumber : Pattern :=
  .seq sign (.seq (chars fun c => '1' ≤ c && c ≤ '9') (.star (chars digit)))

def pointed : Pattern := .seq digits (.seq (char '.') (.star (chars digit)))

def pointFirst : Pattern := .seq (char '.') digits

def floatingPoint : Pattern :=
  .alt (.seq sign pointed) (.alt (.seq sign pointFirst) (.alt (.seq sign (.seq digits exponent))
    (.alt (.seq sign (.seq pointed exponent)) (.seq sign (.seq pointFirst exponent)))))

def identifier : Pattern := .seq (chars identStart) (.star (chars identChar))

def rules : List (Rule SymbolType) := [
  ⟨dashComment, discard⟩,
  ⟨slashComment, discard⟩,
  ⟨whitespace, discard⟩,
  ⟨timestamp, make .tTimestamp⟩,
  ⟨dquoted, make .tDquotedString⟩,
  ⟨wholeNumber, make .tWholeNumber⟩,
  ⟨text "0", make .tWholeNumber⟩,
  ⟨floatingPoint, make .tFloatingPointNumber⟩,
  ⟨identifier, identifierAction⟩,
  ⟨text "<=", make .tLessThanOrEqual⟩,
  ⟨text ">=", make .tGreaterThanOrEqual⟩,
  ⟨text "<>", make .tNotEqual⟩,
  ⟨text "!=", make .tNotEqual⟩,
  ⟨text "<", make .tLessThan⟩,
  ⟨text ">", make .tGreaterThan⟩,
  ⟨text "=", make .tEqual⟩,
  ⟨text ";", make .semicolon⟩,
  ⟨chars (· ≠ '\n'), characterAction⟩]

/-- The tokens of a text. -/
def lex (s : List Char) : List SymbolType := Flex.tokens (scan rules s)

/-- A lexeme that the number rules accept. -/
def isNumber (w : List Char) : Bool :=
  wholeNumber.accepts w || (text "0").accepts w || floatingPoint.accepts w

theorem covers : Covers rules := by
  intro c
  by_cases hc : c = '\n'
  · subst hc
    exact ⟨⟨whitespace, discard⟩, by simp [rules],
      mem_plus_chars.mpr ⟨by simp, List.all_eq_true.mp (by decide +kernel)⟩⟩
  · exact ⟨⟨chars (· ≠ '\n'), characterAction⟩, by simp [rules], by simp [hc]⟩

/-! ### Numbers -/

/-- Number lexemes are a sign, digits and points, and perhaps an exponent. -/
structure NumberShape (w sign mantissa exponent : List Char) : Prop where
  split : w = sign ++ mantissa ++ exponent
  sign : sign = [] ∨ sign = ['-']
  nonempty : mantissa ≠ []
  mantissa : ∀ c ∈ mantissa, digit c = true ∨ c = '.'
  exponent : exponent = [] ∨ ∃ g d, exponent = 'E' :: (g ++ d) ∧
    (g = [] ∨ g = ['-'] ∨ g = ['+']) ∧ d ≠ [] ∧ ∀ c ∈ d, digit c = true

theorem mem_sign {w : List Char} (h : w ∈ sign.lang) : w = [] ∨ w = ['-'] := by
  rcases mem_opt.mp h with h | h
  · exact .inr (mem_char.mp h)
  · exact .inl h

theorem mem_digits {w : List Char} : w ∈ digits.lang ↔ w ≠ [] ∧ ∀ c ∈ w, digit c = true :=
  mem_plus_chars

theorem mem_exponent {w : List Char} (h : w ∈ exponent.lang) : ∃ g d, w = 'E' :: (g ++ d) ∧
    (g = [] ∨ g = ['-'] ∨ g = ['+']) ∧ d ≠ [] ∧ ∀ c ∈ d, digit c = true := by
  obtain ⟨a, ha, b, hb, rfl⟩ := mem_seq.mp h
  obtain ⟨g, hg, d, hd, rfl⟩ := mem_seq.mp hb
  obtain rfl := mem_char.mp ha
  obtain ⟨hne, hall⟩ := mem_digits.mp hd
  refine ⟨g, d, rfl, ?_, hne, hall⟩
  rcases mem_opt.mp hg with hg | rfl
  · obtain ⟨c, hc, rfl⟩ := hg
    have hc : c = '-' ∨ c = '+' := by simpa using hc
    rcases hc with rfl | rfl
    · exact .inr (.inl rfl)
    · exact .inr (.inr rfl)
  · exact .inl rfl

/-- Digits and points, with a digit or a point among them. -/
def Mantissa (w : List Char) : Prop := w ≠ [] ∧ ∀ c ∈ w, digit c = true ∨ c = '.'

theorem mantissa_of_digits {w : List Char} (h : w ∈ digits.lang) : Mantissa w := by
  obtain ⟨hne, hall⟩ := mem_digits.mp h
  exact ⟨hne, fun c hc => .inl (hall c hc)⟩

theorem mantissa_of_pointed {w : List Char} (h : w ∈ pointed.lang) : Mantissa w := by
  obtain ⟨a, ha, x, hx, rfl⟩ := mem_seq.mp h
  obtain ⟨p, hp, b, hb, rfl⟩ := mem_seq.mp hx
  obtain rfl := mem_char.mp hp
  obtain ⟨hne, hall⟩ := mem_digits.mp ha
  refine ⟨by simp, ?_⟩
  intro c hc
  simp only [List.mem_append, List.mem_singleton] at hc
  rcases hc with hc | hc | hc
  · exact .inl (hall c hc)
  · exact .inr hc
  · exact .inl (mem_star_chars.mp hb c hc)

theorem mantissa_of_pointFirst {w : List Char} (h : w ∈ pointFirst.lang) : Mantissa w := by
  obtain ⟨p, hp, b, hb, rfl⟩ := mem_seq.mp h
  obtain rfl := mem_char.mp hp
  obtain ⟨hne, hall⟩ := mem_digits.mp hb
  refine ⟨by simp, ?_⟩
  intro c hc
  simp only [List.mem_append, List.mem_singleton] at hc
  rcases hc with hc | hc
  · exact .inr hc
  · exact .inl (hall c hc)

theorem mantissa_of_wholeNumber {a b : List Char}
    (ha : a ∈ (chars fun c => '1' ≤ c && c ≤ '9').lang) (hb : b ∈ (star (chars digit)).lang) :
    Mantissa (a ++ b) := by
  obtain ⟨c, hc, rfl⟩ := ha
  refine ⟨by simp, ?_⟩
  intro d hd
  rcases List.mem_cons.mp hd with rfl | hd
  · simp only [Bool.and_eq_true, decide_eq_true_eq] at hc
    refine .inl ?_
    simp only [digit, Bool.and_eq_true, decide_eq_true_eq]
    exact ⟨Char.le_trans (show '0' ≤ '1' by decide) hc.1, hc.2⟩
  · exact .inl (mem_star_chars.mp hb d hd)

theorem shape_of_signed {p : Pattern} (hp : ∀ w ∈ p.lang, Mantissa w) {w : List Char}
    (h : w ∈ (seq sign p).lang) : ∃ s m e, NumberShape w s m e := by
  obtain ⟨s, hs, m, hm, rfl⟩ := mem_seq.mp h
  exact ⟨s, m, [], by simp, mem_sign hs, (hp m hm).1, (hp m hm).2, .inl rfl⟩

theorem shape_of_exponent {p : Pattern} (hp : ∀ w ∈ p.lang, Mantissa w) {w : List Char}
    (h : w ∈ (seq sign (seq p exponent)).lang) : ∃ s m e, NumberShape w s m e := by
  obtain ⟨s, hs, x, hx, rfl⟩ := mem_seq.mp h
  obtain ⟨m, hm, e, he, rfl⟩ := mem_seq.mp hx
  exact ⟨s, m, e, by simp, mem_sign hs, (hp m hm).1, (hp m hm).2, .inr (mem_exponent he)⟩

theorem floatingPoint_shape {w : List Char} (h : w ∈ floatingPoint.lang) :
    ∃ s m e, NumberShape w s m e := by
  simp only [floatingPoint, mem_alt] at h
  rcases h with h | h | h | h | h
  · exact shape_of_signed (fun _ => mantissa_of_pointed) h
  · exact shape_of_signed (fun _ => mantissa_of_pointFirst) h
  · exact shape_of_exponent (fun _ => mantissa_of_digits) h
  · exact shape_of_exponent (fun _ => mantissa_of_pointed) h
  · exact shape_of_exponent (fun _ => mantissa_of_pointFirst) h

theorem wholeNumber_shape {w : List Char} (h : w ∈ wholeNumber.lang) :
    ∃ s m e, NumberShape w s m e := by
  refine shape_of_signed ?_ h
  intro m hm
  obtain ⟨a, ha, b, hb, rfl⟩ := mem_seq.mp hm
  exact mantissa_of_wholeNumber ha hb

/-- What two neighbours in a number can be. -/
def NumberPair (x y : Char) : Prop := (y = '+' → x = 'E') ∧ (x = '-' → y ≠ '-')

theorem digit_ne {c d : Char} (hc : digit c = true) (hd : digit d = false) : c ≠ d := by
  rintro rfl
  rw [hc] at hd
  cases hd

theorem digit_or_point_ne {c d : Char} (hc : digit c = true ∨ c = '.') (hd : digit d = false)
    (hpoint : d ≠ '.') : c ≠ d := by
  rcases hc with hc | rfl
  · exact digit_ne hc hd
  · exact hpoint.symm

theorem plain_isChain {l : List Char} (h : ∀ c ∈ l, c ≠ '+' ∧ c ≠ '-') (x : Char) :
    (x :: l).IsChain NumberPair := by
  induction l generalizing x with
  | nil => exact .singleton x
  | cons c l ih =>
      obtain ⟨hplus, hdash⟩ := h c (by simp)
      exact .cons_cons ⟨fun hc => absurd hc hplus, fun _ => hdash⟩
        (ih (fun d hd => h d (List.mem_cons_of_mem c hd)) c)

namespace NumberShape

variable {w s m e : List Char}

theorem mantissa_plain (h : NumberShape w s m e) : ∀ c ∈ m, c ≠ '+' ∧ c ≠ '-' ∧ c ≠ 'E' := by
  intro c hc
  have hne := fun d => digit_or_point_ne (d := d) (h.mantissa c hc)
  exact ⟨hne '+' rfl (by decide), hne '-' rfl (by decide), hne 'E' rfl (by decide)⟩

theorem exponent_isChain (h : NumberShape w s m e) : e.IsChain NumberPair := by
  rcases h.exponent with rfl | ⟨g, d, rfl, hg, -, hd⟩
  · exact .nil
  · have hplain : ∀ c ∈ d, c ≠ '+' ∧ c ≠ '-' := fun c hc =>
      ⟨digit_ne (hd c hc) rfl, digit_ne (hd c hc) rfl⟩
    rcases hg with rfl | rfl | rfl
    · exact plain_isChain hplain 'E'
    · exact .cons_cons ⟨by decide, by decide⟩ (plain_isChain hplain '-')
    · exact .cons_cons ⟨fun _ => rfl, by decide⟩ (plain_isChain hplain '+')

theorem isChain (h : NumberShape w s m e) : w.IsChain NumberPair := by
  have hm := h.mantissa_plain
  have hbody : (m ++ e).IsChain NumberPair := by
    refine List.isChain_append.mpr ⟨?_, h.exponent_isChain, ?_⟩
    · exact (plain_isChain (fun c hc => ⟨(hm c hc).1, (hm c hc).2.1⟩) 'E').tail
    · intro x _ y hy
      rcases h.exponent with rfl | ⟨g, d, rfl, -⟩
      · cases hy
      · obtain rfl : 'E' = y := by simpa using hy
        exact ⟨fun hy => absurd hy (by decide), fun _ => by decide⟩
  rw [h.split, List.append_assoc]
  rcases h.sign with rfl | rfl
  · exact hbody
  · refine List.isChain_cons.mpr ⟨?_, hbody⟩
    intro y hy
    cases hcase : m with
    | nil => exact absurd hcase h.nonempty
    | cons c cs =>
        rw [hcase] at hy
        obtain rfl : c = y := by simpa using hy
        have hc := hm c (by simp [hcase])
        exact ⟨fun hplus => absurd hplus hc.1, fun _ => hc.2.1⟩

/-- A number ends in a digit or a point. -/
theorem getLast (h : NumberShape w s m e) : ∀ c ∈ w.getLast?, digit c = true ∨ c = '.' := by
  intro c hc
  rw [h.split] at hc
  rcases h.exponent with rfl | ⟨g, d, rfl, -, hne, hd⟩
  · rw [List.append_nil, List.getLast?_append_of_ne_nil _ h.nonempty] at hc
    exact h.mantissa c (List.mem_of_mem_getLast? hc)
  · rw [show s ++ m ++ 'E' :: (g ++ d) = (s ++ m ++ 'E' :: g) ++ d by simp,
      List.getLast?_append_of_ne_nil _ hne] at hc
    exact .inl (hd c (List.mem_of_mem_getLast? hc))

/-- The characters of a number. -/
theorem mem (h : NumberShape w s m e) :
    ∀ c ∈ w, digit c = true ∨ c = '.' ∨ c = '-' ∨ c = '+' ∨ c = 'E' := by
  intro c hc
  rw [h.split, List.mem_append, List.mem_append] at hc
  rcases hc with (hc | hc) | hc
  · rcases h.sign with rfl | rfl
    · cases hc
    · simp [List.mem_singleton.mp hc]
  · rcases h.mantissa c hc with hd | hd
    · exact .inl hd
    · exact .inr (.inl hd)
  · rcases h.exponent with rfl | ⟨g, d, rfl, hg, -, hd⟩
    · cases hc
    · rcases List.mem_cons.mp hc with rfl | hc
      · simp
      · rcases List.mem_append.mp hc with hc | hc
        · rcases hg with rfl | rfl | rfl <;> simp_all
        · exact .inl (hd c hc)

end NumberShape

theorem isNumber_shape {w : List Char} (h : isNumber w = true) :
    ∃ s m e, NumberShape w s m e := by
  simp only [isNumber, Bool.or_eq_true, accepts_iff, mem_text] at h
  rcases h with (h | rfl) | h
  · exact wholeNumber_shape h
  · exact ⟨[], ['0'], [], rfl, .inl rfl, by simp,
      List.forall_mem_singleton.mpr (.inl (by decide +kernel)), .inl rfl⟩
  · exact floatingPoint_shape h

/-! ### Words -/

/-- A word is a number, an identifier or a keyword. -/
def IsWord (w : List Char) : Prop := isNumber w = true ∨ w ∈ identifier.lang

/-- What may follow a word that is not to go on. -/
def Apart (w rest : List Char) : Prop :=
  ∀ d ∈ rest.head?, identChar d = false ∧ d ≠ '.' ∧ (d = '+' → w.getLast? ≠ some 'E')

theorem mem_identifier {w : List Char} : w ∈ identifier.lang ↔
    ∃ c cs, w = c :: cs ∧ identStart c = true ∧ ∀ d ∈ cs, identChar d = true := by
  rw [identifier, mem_seq]
  constructor
  · rintro ⟨a, ⟨c, hc, rfl⟩, cs, hcs, rfl⟩
    exact ⟨c, cs, rfl, hc, mem_star_chars.mp hcs⟩
  · rintro ⟨c, cs, rfl, hc, hcs⟩
    exact ⟨[c], ⟨c, hc, rfl⟩, cs, mem_star_chars.mpr hcs, rfl⟩

theorem identChar_of_identStart {c : Char} (h : identStart c = true) : identChar c = true := by
  simp [identChar, h]

theorem identStart_of_digit {c : Char} (h : digit c = true) : identStart c = true := by
  simp [identStart, h]

theorem IsWord.head {w : List Char} (h : IsWord w) :
    ∃ c cs, w = c :: cs ∧ (identStart c = true ∨ c = '-' ∨ c = '.') := by
  rcases h with h | h
  · obtain ⟨s, m, e, hw⟩ := isNumber_shape h
    have hm : ∀ c ∈ m, identStart c = true ∨ c = '-' ∨ c = '.' := fun c hc =>
      (hw.mantissa c hc).imp identStart_of_digit .inr
    cases hcase : m with
    | nil => exact absurd hcase hw.nonempty
    | cons c cs =>
        rcases hw.sign with rfl | rfl
        · exact ⟨c, cs ++ e, by rw [hw.split, hcase]; rfl, hm c (by simp [hcase])⟩
        · exact ⟨'-', m ++ e, by rw [hw.split]; rfl, .inr (.inl rfl)⟩
  · obtain ⟨c, cs, rfl, hc, -⟩ := mem_identifier.mp h
    exact ⟨c, cs, rfl, .inl hc⟩

/-- A word is no beginning of a comment. -/
theorem IsWord.no_comment {w : List Char} (h : IsWord w) {v t : List Char} :
    w ++ v ≠ '-' :: '-' :: t := by
  intro heq
  obtain ⟨c, cs, rfl, hc⟩ := h.head
  obtain ⟨rfl, hrest⟩ := List.cons.inj heq
  rcases h with h | h
  · obtain ⟨s, m, e, hw⟩ := isNumber_shape h
    cases cs with
    | nil =>
        have hlast := hw.getLast '-' rfl
        revert hlast
        decide
    | cons d cs =>
        obtain ⟨rfl, -⟩ := List.cons.inj hrest
        exact (List.isChain_cons_cons.mp hw.isChain).1.2 rfl rfl
  · obtain ⟨d, ds, heq, hd, -⟩ := mem_identifier.mp h
    obtain ⟨rfl, -⟩ := List.cons.inj heq
    revert hd
    decide

/-- Nor does a number go on after it. -/
theorem Apart.no_number {w rest v s m e : List Char} {d : Char} (h : Apart w rest)
    (hd : d ∈ rest.head?) : ¬NumberShape (w ++ d :: v) s m e := by
  intro hshape
  obtain ⟨hident, hpoint, hplus⟩ := h d hd
  have hmem := hshape.mem d (by simp)
  have hchain := (List.isChain_append.mp hshape.isChain).2.2
  rcases hmem with hmem | hmem | rfl | rfl | rfl
  · rw [identChar_of_identStart (identStart_of_digit hmem)] at hident
    cases hident
  · exact hpoint hmem
  · exact absurd hident (by decide)
  · have hlast : w.getLast? = some 'E' := by
      cases hw : w.getLast? with
      | none =>
          rw [List.getLast?_eq_none_iff] at hw
          subst hw
          -- no number begins with a plus
          have hhead := hshape.split
          rcases hshape.sign with rfl | rfl
          · cases hcase : m with
            | nil => exact absurd hcase hshape.nonempty
            | cons c cs =>
                rw [hcase] at hhead
                obtain ⟨rfl, -⟩ := List.cons.inj hhead
                exact absurd rfl (hshape.mantissa_plain '+' (by simp [hcase])).1
          · cases hhead
      | some x => rw [(hchain x hw '+' rfl).1 rfl]
    exact hplus rfl hlast
  · exact absurd hident (by decide)

/-- The rules that can begin as a word does. -/
def wordRules : List (Rule SymbolType) := [
  ⟨dashComment, discard⟩,
  ⟨wholeNumber, make .tWholeNumber⟩,
  ⟨text "0", make .tWholeNumber⟩,
  ⟨floatingPoint, make .tFloatingPointNumber⟩,
  ⟨identifier, identifierAction⟩,
  ⟨chars (· ≠ '\n'), characterAction⟩]

theorem first_text_ne {c d : Char} (h : c ≠ d) (s : List Char) :
    (text (String.ofList (d :: s))).first c = false := by
  simp [text, char, Pattern.first, nullable, h]

theorem first_seq_text_ne {c d : Char} (h : c ≠ d) (s : List Char) (p : Pattern) :
    (seq (text (String.ofList (d :: s))) p).first c = false := by
  have hnull : (text (String.ofList (d :: s))).nullable = false := by
    simp [text, char, nullable]
  rw [Pattern.first, first_text_ne h, hnull]
  rfl

theorem first_seq_char_ne {c d : Char} (h : c ≠ d) (p : Pattern) :
    (seq (char d) p).first c = false := by
  simp [char, Pattern.first, nullable, h]

theorem live_word {c : Char} (hc : identStart c = true ∨ c = '-' ∨ c = '.') :
    rules.filter (fun r => r.pattern.first c) = wordRules.filter fun r => r.pattern.first c := by
  have hne : ∀ d, identStart d = false → d ≠ '-' → d ≠ '.' → c ≠ d := by
    rintro d hstart hdash hpoint rfl
    simp [hstart, hdash, hpoint] at hc
  have hblank : blank c = false := by
    simp [blank, hne ' ' rfl (by decide) (by decide), hne '\t' rfl (by decide) (by decide),
      hne '\r' rfl (by decide) (by decide), hne '\n' rfl (by decide) (by decide)]
  have hspace : whitespace.first c = false := by
    simp [whitespace, plus, Pattern.first, nullable, hblank]
  have hslash : slashComment.first c = false :=
    first_seq_text_ne (hne '/' rfl (by decide) (by decide)) _ _
  have hquote := hne '"' rfl (by decide) (by decide)
  have hless := hne '<' rfl (by decide) (by decide)
  have hgreater := hne '>' rfl (by decide) (by decide)
  have htime : timestamp.first c = false := first_seq_char_ne hquote _
  have hquoted : dquoted.first c = false := first_seq_char_ne hquote _
  have hle : (text "<=").first c = false := first_text_ne hless _
  have hge : (text ">=").first c = false := first_text_ne hgreater _
  have hne1 : (text "<>").first c = false := first_text_ne hless _
  have hne2 : (text "!=").first c = false :=
    first_text_ne (hne '!' rfl (by decide) (by decide)) _
  have hlt : (text "<").first c = false := first_text_ne hless _
  have hgt : (text ">").first c = false := first_text_ne hgreater _
  have heq : (text "=").first c = false := first_text_ne (hne '=' rfl (by decide) (by decide)) _
  have hsemi : (text ";").first c = false := first_text_ne (hne ';' rfl (by decide) (by decide)) _
  simp only [rules, wordRules, List.filter_cons, hslash, hspace, htime, hquoted, hle, hge, hne1,
    hne2, hlt, hgt, heq, hsemi, Bool.false_eq_true, if_false]

theorem word_stops {w rest : List Char} (hw : IsWord w) (hapart : Apart w rest) :
    Stops rules w rest := by
  obtain ⟨c, cs, rfl, hc⟩ := hw.head
  refine Flex.stops_of_live ?_
  rw [live_word hc]
  intro r hr v hv hfront hmem
  obtain ⟨d, v, rfl⟩ := List.exists_cons_of_ne_nil hv
  have hd : d ∈ rest.head? := by
    obtain ⟨z, rfl⟩ := hfront
    rfl
  have hlong : ∀ x, c :: cs ++ d :: v ≠ [x] := by simp
  replace hr := List.mem_of_mem_filter hr
  simp only [wordRules, List.mem_cons, List.not_mem_nil, or_false] at hr
  rcases hr with rfl | rfl | rfl | rfl | rfl | rfl
  · obtain ⟨a, ha, b, -, heq⟩ := mem_seq.mp hmem
    rw [mem_text.mp ha] at heq
    exact hw.no_comment heq.symm
  · obtain ⟨s, m, e, hshape⟩ := wholeNumber_shape hmem
    exact hapart.no_number hd hshape
  · exact hlong '0' (mem_text.mp hmem)
  · obtain ⟨s, m, e, hshape⟩ := floatingPoint_shape hmem
    exact hapart.no_number hd hshape
  · obtain ⟨x, xs, heq, -, hxs⟩ := mem_identifier.mp hmem
    obtain ⟨-, rfl⟩ := List.cons.inj heq
    have hident := hxs d (by simp)
    rw [(hapart d hd).1] at hident
    cases hident
  · obtain ⟨x, -, heq⟩ := mem_chars.mp hmem
    exact hlong x heq

/-- The token of a number. -/
def numberToken (w : List Char) : SymbolType :=
  ⟨.kind (if wholeNumber.accepts w || (text "0").accepts w then .tWholeNumber
    else .tFloatingPointNumber), yytext w⟩

theorem IsWord.firstRule_eq {w : List Char} (h : IsWord w) :
    firstRule rules w = firstRule wordRules w := by
  obtain ⟨c, cs, rfl, hc⟩ := h.head
  rw [Flex.firstRule_live, live_word hc, ← Flex.firstRule_live]

theorem IsWord.not_mem_dashComment {w : List Char} (h : IsWord w) : w ∉ dashComment.lang := by
  intro hmem
  obtain ⟨a, ha, b, -, heq⟩ := mem_seq.mp hmem
  rw [mem_text.mp ha] at heq
  exact h.no_comment (v := []) (t := b) (by rw [List.append_nil, ← heq]; rfl)

theorem number_rule {w : List Char} (hw : isNumber w = true) :
    ∃ r, firstRule rules w = some r ∧ r.action w = some (numberToken w) := by
  have hword : IsWord w := .inl hw
  rw [hword.firstRule_eq, wordRules, Flex.firstRule_cons_of_not_mem hword.not_mem_dashComment]
  by_cases hwhole : w ∈ wholeNumber.lang
  · exact ⟨_, Flex.firstRule_cons_of_mem hwhole,
      by simp [make, numberToken, (accepts_iff _ _).mpr hwhole]⟩
  rw [Flex.firstRule_cons_of_not_mem hwhole]
  by_cases hzero : w ∈ (text "0").lang
  · exact ⟨_, Flex.firstRule_cons_of_mem hzero,
      by simp [make, numberToken, (accepts_iff _ _).mpr hzero]⟩
  rw [Flex.firstRule_cons_of_not_mem hzero]
  have hfloat : w ∈ floatingPoint.lang := by
    simp only [isNumber, Bool.or_eq_true, accepts_iff] at hw
    exact hw.resolve_left fun h => h.elim hwhole hzero
  refine ⟨_, Flex.firstRule_cons_of_mem hfloat, ?_⟩
  rw [← accepts_iff, Bool.not_eq_true] at hwhole hzero
  simp [make, numberToken, hwhole, hzero]

theorem scan_number {w rest : List Char} (hw : isNumber w = true) (hapart : Apart w rest) :
    scan rules (w ++ rest) = ⟨w, some (numberToken w)⟩ :: scan rules rest := by
  have hword : IsWord w := .inl hw
  obtain ⟨r, hr, haction⟩ := number_rule hw
  obtain ⟨c, cs, hcs, -⟩ := hword.head
  rw [scan_append_of_stops (by simp [hcs]) hr (word_stops hword hapart), haction]

/-- An identifier that is no number is a keyword or a name. -/
theorem scan_identifier {w rest : List Char} (hw : w ∈ identifier.lang)
    (hnumber : isNumber w = false) (hapart : Apart w rest) :
    scan rules (w ++ rest) = ⟨w, identifierAction w⟩ :: scan rules rest := by
  have hword : IsWord w := .inr hw
  obtain ⟨c, cs, hcs, -⟩ := hword.head
  have hr : firstRule rules w = some ⟨identifier, identifierAction⟩ := by
    rw [isNumber, Bool.or_eq_false_iff, Bool.or_eq_false_iff] at hnumber
    simp only [← Bool.not_eq_true, accepts_iff] at hnumber
    obtain ⟨⟨hwhole, hzero⟩, hfloat⟩ := hnumber
    rw [hword.firstRule_eq, wordRules, Flex.firstRule_cons_of_not_mem hword.not_mem_dashComment,
      Flex.firstRule_cons_of_not_mem hwhole, Flex.firstRule_cons_of_not_mem hzero,
      Flex.firstRule_cons_of_not_mem hfloat, Flex.firstRule_cons_of_mem hw]
  exact scan_append_of_stops (by simp [hcs]) hr (word_stops hword hapart)

/-! ### Quoted strings -/

theorem cons_mem_quotedBody {c : Char} {w : List Char} : c :: w ∈ quotedBody.lang ↔
    c ≠ '"' ∧ w ∈ quotedBody.lang ∨ c = '"' ∧ ∃ t, w = '"' :: t ∧ t ∈ quotedBody.lang := by
  rw [quotedBody, cons_mem_star]
  constructor
  · rintro ⟨a, b, ha, hb, rfl⟩
    rcases mem_alt.mp ha with ha | ha
    · obtain ⟨d, hd, heq⟩ := mem_chars.mp ha
      obtain ⟨rfl, rfl⟩ := List.cons.inj heq
      exact .inl ⟨by simpa using hd, hb⟩
    · obtain ⟨rfl, rfl⟩ := List.cons.inj (mem_text.mp ha)
      exact .inr ⟨rfl, b, rfl, hb⟩
  · rintro (⟨hc, hw⟩ | ⟨rfl, t, rfl, ht⟩)
    · exact ⟨[], w, mem_alt.mpr (.inl ⟨c, by simpa using hc, rfl⟩), hw, rfl⟩
    · exact ⟨['"'], t, mem_alt.mpr (.inr (mem_text.mpr rfl)), ht, rfl⟩

theorem mem_dquoted {w : List Char} :
    w ∈ dquoted.lang ↔ ∃ b ∈ quotedBody.lang, w = '"' :: (b ++ ['"']) := by
  rw [dquoted, mem_seq]
  constructor
  · rintro ⟨q, hq, x, hx, rfl⟩
    obtain ⟨b, hb, z, hz, rfl⟩ := mem_seq.mp hx
    exact ⟨b, hb, by rw [mem_char.mp hq, mem_char.mp hz]; rfl⟩
  · rintro ⟨b, hb, rfl⟩
    exact ⟨['"'], mem_char.mpr rfl, b ++ ['"'],
      mem_seq.mpr ⟨b, hb, ['"'], mem_char.mpr rfl, rfl⟩, rfl⟩

/-- A closed string can go on only by a quote, and must then be closed again. -/
theorem quotedBody_goes_on {b b' v : List Char} {d : Char} (hb : b ∈ quotedBody.lang)
    (hb' : b' ∈ quotedBody.lang) (h : b ++ '"' :: d :: v = b' ++ ['"']) : d = '"' ∧ '"' ∈ v := by
  induction hlen : b.length using Nat.strong_induction_on generalizing b b' with
  | _ n ih =>
      cases b' with
      | nil =>
          have hone := congrArg List.length h
          simp at hone
          omega
      | cons c' b' =>
          cases b with
          | nil =>
              obtain ⟨rfl, htail⟩ := List.cons.inj h
              rcases cons_mem_quotedBody.mp hb' with ⟨hc, -⟩ | ⟨-, t, rfl, -⟩
              · exact absurd rfl hc
              · obtain ⟨rfl, rfl⟩ := List.cons.inj htail
                exact ⟨rfl, by simp⟩
          | cons c b =>
              obtain ⟨rfl, htail⟩ := List.cons.inj h
              rw [List.length_cons] at hlen
              rcases cons_mem_quotedBody.mp hb with ⟨hc, hb⟩ | ⟨rfl, t, rfl, ht⟩
              · rcases cons_mem_quotedBody.mp hb' with ⟨-, hb'⟩ | ⟨hq, -⟩
                · exact ih b.length (by omega) hb hb' htail rfl
                · exact absurd hq hc
              · rcases cons_mem_quotedBody.mp hb' with ⟨hc, -⟩ | ⟨-, t', rfl, ht'⟩
                · exact absurd rfl hc
                · obtain ⟨-, htail⟩ := List.cons.inj htail
                  rw [List.length_cons] at hlen
                  exact ih t.length (by omega) ht ht' htail rfl

/-- The rules that can begin with a quote. -/
def quoteRules : List (Rule SymbolType) := [
  ⟨timestamp, make .tTimestamp⟩,
  ⟨dquoted, make .tDquotedString⟩,
  ⟨chars (· ≠ '\n'), characterAction⟩]

theorem live_quote : rules.filter (fun r => r.pattern.first '"') = quoteRules := rfl

/-- The content of a quoted string that the timestamp rule takes. -/
def isTimestamp (b : List Char) : Bool := timestampBody.accepts b

/-- The token of a quoted string. -/
def quotedToken (b : List Char) : SymbolType :=
  ⟨.kind (if isTimestamp b then .tTimestamp else .tDquotedString), yytext ('"' :: (b ++ ['"']))⟩

theorem mem_timestamp {w : List Char} :
    w ∈ timestamp.lang ↔ ∃ b, isTimestamp b = true ∧ w = '"' :: (b ++ ['"']) := by
  rw [timestamp, mem_seq]
  constructor
  · rintro ⟨q, hq, x, hx, rfl⟩
    obtain ⟨b, hb, z, hz, rfl⟩ := mem_seq.mp hx
    exact ⟨b, (accepts_iff _ _).mpr hb, by rw [mem_char.mp hq, mem_char.mp hz]; rfl⟩
  · rintro ⟨b, hb, rfl⟩
    exact ⟨['"'], mem_char.mpr rfl, b ++ ['"'],
      mem_seq.mpr ⟨b, (accepts_iff _ _).mp hb, ['"'], mem_char.mpr rfl, rfl⟩, rfl⟩

theorem mem_quotedBody_of_plain {b : List Char} (h : '"' ∉ b) : b ∈ quotedBody.lang := by
  induction b with
  | nil => exact nil_mem_star _
  | cons c b ih =>
      rw [List.mem_cons, not_or] at h
      exact cons_mem_quotedBody.mpr (.inl ⟨Ne.symm h.1, ih h.2⟩)

theorem quote_not_mem_timestamp {b : List Char} (h : isTimestamp b = true) : '"' ∉ b := by
  intro hmem
  have huse := uses_of_mem ((accepts_iff _ _).mp h) hmem
  revert huse
  decide

theorem quoted_stops {b rest : List Char} (hb : b ∈ quotedBody.lang)
    (hrest : ∀ z, rest = '"' :: z → '"' ∉ z) : Stops rules ('"' :: (b ++ ['"'])) rest := by
  refine Flex.stops_of_live ?_
  rw [live_quote]
  intro r hr v hv hfront hmem
  obtain ⟨d, v, rfl⟩ := List.exists_cons_of_ne_nil hv
  obtain ⟨z, rfl⟩ := hfront
  -- a longer match is a longer string
  have hlonger : ∀ b', b' ∈ quotedBody.lang →
      '"' :: (b ++ ['"']) ++ d :: v ≠ '"' :: (b' ++ ['"']) := by
    intro b' hb' heq
    have htail : b ++ '"' :: d :: v = b' ++ ['"'] := by simpa using heq
    obtain ⟨rfl, hclose⟩ := quotedBody_goes_on hb hb' htail
    exact hrest (v ++ z) rfl (List.mem_append_left z hclose)
  simp only [quoteRules, List.mem_cons, List.not_mem_nil, or_false] at hr
  rcases hr with rfl | rfl | rfl
  · obtain ⟨b', hb', heq⟩ := mem_timestamp.mp hmem
    exact hlonger b' (mem_quotedBody_of_plain (quote_not_mem_timestamp hb')) heq
  · obtain ⟨b', hb', heq⟩ := mem_dquoted.mp hmem
    exact hlonger b' hb' heq
  · obtain ⟨x, -, heq⟩ := mem_chars.mp hmem
    simp at heq

theorem quoted_rule {b : List Char} (hb : b ∈ quotedBody.lang) :
    ∃ r, firstRule rules ('"' :: (b ++ ['"'])) = some r ∧
      r.action ('"' :: (b ++ ['"'])) = some (quotedToken b) := by
  rw [Flex.firstRule_live, live_quote, quoteRules]
  by_cases htime : isTimestamp b = true
  · exact ⟨_, Flex.firstRule_cons_of_mem (mem_timestamp.mpr ⟨b, htime, rfl⟩),
      by simp [make, quotedToken, htime]⟩
  · have hnot : '"' :: (b ++ ['"']) ∉ timestamp.lang := by
      intro hmem
      obtain ⟨b', hb', heq⟩ := mem_timestamp.mp hmem
      obtain rfl : b = b' := by simpa using heq
      exact htime hb'
    rw [Flex.firstRule_cons_of_not_mem hnot]
    exact ⟨_, Flex.firstRule_cons_of_mem (mem_dquoted.mpr ⟨b, hb, rfl⟩),
      by simp [make, quotedToken, htime]⟩

theorem scan_quoted {b rest : List Char} (hb : b ∈ quotedBody.lang)
    (hrest : ∀ z, rest = '"' :: z → '"' ∉ z) :
    scan rules ('"' :: (b ++ ['"']) ++ rest) =
      ⟨'"' :: (b ++ ['"']), some (quotedToken b)⟩ :: scan rules rest := by
  obtain ⟨r, hr, haction⟩ := quoted_rule hb
  rw [scan_append_of_stops (by simp) hr (quoted_stops hb hrest), haction]

/-! ### Single characters -/

/-- A character that begins no other rule is a token by itself. -/
def isSingle (c : Char) : Bool :=
  c ≠ '\n' && !endsInput c && rules.dropLast.all fun r => !r.pattern.first c

theorem isSingle_iff {c : Char} : isSingle c = true ↔ (decide (c ≠ '\n') = true ∧
    endsInput c = false) ∧ ∀ r ∈ rules.dropLast, r.pattern.first c = false := by
  simp only [isSingle, Bool.and_eq_true, Bool.not_eq_true', List.all_eq_true]

theorem live_single {c : Char} (h : isSingle c = true) :
    rules.filter (fun r => r.pattern.first c) = [⟨chars (· ≠ '\n'), characterAction⟩] := by
  rw [isSingle_iff] at h
  have hsplit : rules = rules.dropLast ++ [⟨chars (· ≠ '\n'), characterAction⟩] := rfl
  have hnone : rules.dropLast.filter (fun r => r.pattern.first c) = [] := by
    refine List.filter_eq_nil_iff.mpr fun r hr => ?_
    simpa using h.2 r hr
  rw [hsplit, List.filter_append, hnone, List.nil_append, List.filter_cons]
  exact if_pos h.1.1

theorem scan_single {c : Char} (h : isSingle c = true) (rest : List Char) :
    scan rules (c :: rest) = ⟨[c], some ⟨.character c, String.ofList [c]⟩⟩ :: scan rules rest := by
  have hmem : [c] ∈ (chars (· ≠ '\n')).lang := by
    exact ⟨c, (isSingle_iff.mp h).1.1, rfl⟩
  have hr : firstRule rules [c] = some ⟨chars (· ≠ '\n'), characterAction⟩ := by
    rw [Flex.firstRule_live, live_single h, Flex.firstRule_cons_of_mem hmem]
  have hstops : Stops rules [c] rest := by
    refine Flex.stops_of_live ?_
    rw [live_single h]
    intro r hr v hv _ hlong
    obtain rfl := List.mem_singleton.mp hr
    obtain ⟨x, -, heq⟩ := mem_chars.mp hlong
    exact hv (by simpa using (List.cons.inj heq).2)
  have haction : characterAction [c] = some ⟨.character c, String.ofList [c]⟩ := by
    rw [characterAction, (isSingle_iff.mp h).1.2]
    rfl
  rw [← haction]
  exact scan_append_of_stops (w := [c]) (by simp) hr hstops

theorem scan_blank {rest : List Char} (hrest : ∀ d ∈ rest.head?, blank d = false) :
    scan rules (' ' :: rest) = ⟨[' '], none⟩ :: scan rules rest := by
  have hr : firstRule rules [' '] = some ⟨whitespace, discard⟩ := rfl
  have hlive : rules.filter (fun r => r.pattern.first ' ') =
      [⟨whitespace, discard⟩, ⟨chars (· ≠ '\n'), characterAction⟩] := rfl
  have hstops : Stops rules [' '] rest := by
    refine Flex.stops_of_live ?_
    rw [hlive]
    intro r hr v hv hfront hlong
    obtain ⟨d, v, rfl⟩ := List.exists_cons_of_ne_nil hv
    obtain ⟨z, rfl⟩ := hfront
    simp only [List.mem_cons, List.not_mem_nil, or_false] at hr
    rcases hr with rfl | rfl
    · have hd := (mem_plus_chars.mp hlong).2 d (by simp)
      rw [hrest d rfl] at hd
      cases hd
    · obtain ⟨x, -, heq⟩ := mem_chars.mp hlong
      simp at heq
  exact scan_append_of_stops (w := [' ']) (by simp) hr hstops

end DdbShell.Lexer
