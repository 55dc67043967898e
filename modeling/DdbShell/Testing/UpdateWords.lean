import DdbShell.Execute.UpdateText
import DdbShell.Expressions.AliasLaws
import DdbShell.Testing.KeyConditionWords
import DdbShell.Testing.MemoryTables

/-!
The update expressions that the engine spells, read word by word. Blanks and
commas are the only breaks, so an assignment is read as one exactly where the
last word of its target stands in front of the `=`, and whatever follows the
first word of the other side is passed over. A target that is one plain name is
one word, which resolves to it.
-/

namespace DdbShell

open Lexing (Lexeme lex chars_lex)
open SymbolTable
open Words

/-! ### Words -/

/-- What separates the words of an update expression. -/
def updateBreaks : List Char := [' ', ',']

def updateWords (text : String) : List String := splitWords updateBreaks text

/-- A character of `=`, SET or REMOVE, in either case. -/
def inSyntax (c : Char) : Bool := "=SETREMOV".toList.contains c.toUpper

/-- A word that the client takes for no part of the syntax. -/
structure Passive (word : String) : Prop where
  equals : word ≠ "="
  set : word.toUpper ≠ "SET"
  remove : word.toUpper ≠ "REMOVE"

instance (word : String) : Decidable (Passive word) :=
  decidable_of_iff (word ≠ "=" ∧ word.toList.map Char.toUpper ≠ "SET".toList ∧
      word.toList.map Char.toUpper ≠ "REMOVE".toList)
    ⟨fun h => ⟨h.1, mt toUpper_eq_iff.mp h.2.1, mt toUpper_eq_iff.mp h.2.2⟩,
      fun h => ⟨h.equals, mt toUpper_eq_iff.mpr h.set, mt toUpper_eq_iff.mpr h.remove⟩⟩

theorem passive_of_mem {word : String} {c : Char} (hmem : c ∈ word.toList)
    (hc : inSyntax c = false) : Passive word := by
  have hfree : c.toUpper ∉ "=SETREMOV".toList := by simpa [inSyntax] using hc
  have hupper : ∀ {keyword : String}, keyword.toList ⊆ "=SETREMOV".toList →
      word.toUpper ≠ keyword := by
    intro keyword hsub h
    refine hfree (hsub ?_)
    rw [← toUpper_eq_iff.mp h]
    exact List.mem_map_of_mem hmem
  refine ⟨?_, hupper (by decide), hupper (by decide)⟩
  rintro rfl
  obtain rfl : c = '=' := by simpa using hmem
  exact absurd hc (by decide)

theorem passive_of_head {word : String} {c : Char} (hhead : word.toList.head? = some c)
    (hc : inSyntax c = false) : Passive word :=
  passive_of_mem (List.mem_of_head? hhead) hc

theorem not_break_of_word {c : Char} (h : charClass c = .word) : c ∉ updateBreaks := by
  intro hmem
  simp only [updateBreaks, List.mem_cons, List.not_mem_nil, or_false] at hmem
  rcases hmem with rfl | rfl <;> exact absurd h (by decide)

/-- A text that brings in no part of the syntax. -/
def Inert (text : List Char) : Prop := ∀ w ∈ updateWords (String.ofList text), Passive w

instance (text : List Char) : Decidable (Inert text) :=
  inferInstanceAs (Decidable (∀ w ∈ updateWords (String.ofList text), Passive w))

theorem mem_updateWords {text : List Char} {w : String} :
    w ∈ updateWords (String.ofList text) ↔
      ∃ word ∈ words (updateBreaks.contains ·) text, String.ofList word = w := by
  rw [updateWords, splitWords_eq, String.toList_ofList, List.mem_map]

theorem inert_nil : Inert [] := by decide

/-- A text that meets another in a mark, which is no break and in none of the
syntax. -/
theorem Inert.append {a b : List Char} {m : Char} (hbreak : m ∉ updateBreaks)
    (hm : inSyntax m = false) (ha : Inert a) (hb : Inert (m :: b)) : Inert (a ++ m :: b) := by
  intro w hw
  obtain ⟨word, hword, rfl⟩ := mem_updateWords.mp hw
  rcases Words.mem_words_append (by simpa using hbreak) hword with hmem | hword | hword
  · exact passive_of_mem (by simpa using hmem) hm
  · exact ha _ (mem_updateWords.mpr ⟨word, hword, rfl⟩)
  · exact hb _ (mem_updateWords.mpr ⟨word, hword, rfl⟩)

/-- A text none of whose characters is one of the syntax. -/
theorem inert_of_forall {text : List Char} (h : ∀ c ∈ text, inSyntax c = false) : Inert text := by
  intro w hw
  obtain ⟨word, hword, rfl⟩ := mem_updateWords.mp hw
  obtain ⟨front, c, rest, rfl, hhead, -⟩ := mem_words hword
  exact passive_of_head (by simpa using hhead) (h c (by simp))

/-- A text that starts with a mark and has no breaks. -/
theorem inert_of_free {m : Char} {text : List Char} (hm : inSyntax m = false)
    (hfree : ∀ c ∈ m :: text, c ∉ updateBreaks) : Inert (m :: text) := by
  intro w hw
  obtain ⟨word, hword, rfl⟩ := mem_updateWords.mp hw
  rw [words_word (List.cons_ne_nil _ _) (by simpa using hfree), List.mem_singleton] at hword
  exact passive_of_head (c := m) (by simp [hword]) hm

/-! ### Words of operands -/

/-- No subscript has a word of the syntax. -/
def inertSubscripts (operand : String) : Bool :=
  (pieces operand).all fun piece => decide (Inert (subscriptOf piece))

/-! ### Document paths bring in none of the syntax -/

theorem not_inSyntax_of_isDigit {c : Char} (h : c.isDigit = true) : inSyntax c = false := by
  have hupper : c.toUpper = c := by
    rw [Char.isDigit, Bool.and_eq_true, decide_eq_true_eq, decide_eq_true_eq] at h
    refine dif_neg fun hlower => ?_
    exact absurd (UInt32.le_trans hlower.1 h.2) (by decide)
  rw [inSyntax, hupper]
  have hletters : ("=SETREMOV".toList.all fun d => !d.isDigit) = true := by decide
  by_contra hin
  rw [Bool.not_eq_false, List.contains_iff_mem] at hin
  have hnot := List.all_eq_true.mp hletters c hin
  rw [h] at hnot
  cases hnot

theorem readSubscripts_inert {ls : List Lexeme} (h : (readSubscripts ls).isSome = true) :
    ∀ c ∈ ls.flatMap Lexeme.chars, inSyntax c = false := by
  fun_induction readSubscripts ls with
  | case1 => simp
  | case2 w rest n hn ih =>
      intro c hc
      rw [Option.isSome_map] at h
      have hdigits : w.all Char.isDigit = true := by
        unfold readNumber at hn
        split at hn
        · rename_i hw
          exact hw.2
        · cases hn
      simp only [List.flatMap_cons, Lexeme.chars, List.singleton_append, List.mem_cons,
        List.mem_append] at hc
      rcases hc with rfl | hc | rfl | hc
      · decide
      · exact not_inSyntax_of_isDigit (List.all_eq_true.mp hdigits c hc)
      · decide
      · exact ih h c hc
  | case3 => cases h
  | case4 => cases h

theorem not_inSyntax_of_blank {c : Char} (h : charClass c = .blank) :
    inSyntax c = false := by
  have hblank : c.isWhitespace = true := by
    unfold charClass at h
    split_ifs at h with hword hop hwhite
    exact hwhite
  simp only [Char.isWhitespace, Bool.or_eq_true, decide_eq_true_eq] at hblank
  rcases hblank with ((rfl | rfl) | rfl) | rfl <;> decide

/-- A document path is one of those operands. -/
theorem inertSubscripts_of_operandPath {operand : String}
    (h : (operandPath operand).isSome = true) : inertSubscripts operand = true := by
  have hpieces : ∀ ws : List (List Char),
      ((ws.map String.ofList).mapM segmentPath).isSome = true →
      ∀ w ∈ ws, ∀ c ∈ subscriptOf w, inSyntax c = false := by
    intro ws hws
    induction ws with
    | nil => exact fun w hw => absurd hw List.not_mem_nil
    | cons w ws ih =>
        obtain ⟨path, hpath⟩ := Option.isSome_iff_exists.mp hws
        obtain ⟨step, steps, hstep, hsteps, -⟩ := mapM_cons_eq_some hpath
        refine List.forall_mem_cons.mpr ⟨fun c hc => ?_, ih (by rw [hsteps]; rfl)⟩
        have hread : (readSubscripts (lex charClass (subscriptOf w))).isSome = true := by
          obtain ⟨ns, hns, -⟩ := Option.map_eq_some_iff.mp hstep
          rw [String.toList_ofList] at hns
          rw [subscriptOf, hns]
          rfl
        by_cases hblank : charClass c = .blank
        · exact not_inSyntax_of_blank hblank
        · refine readSubscripts_inert hread c ?_
          rw [chars_lex]
          exact List.mem_filter.mpr ⟨hc, by simpa using hblank⟩
  refine List.all_eq_true.mpr fun w hw => decide_eq_true (inert_of_forall ?_)
  exact hpieces (pieces operand) h w hw

/-! ### Operands as the client reads them -/

/-- What the client makes of the words of an operand. -/
def clientNames (st : SymbolTable) (operand : String) : List String :=
  (updateWords (pathText st operand)).map (resolveName (namesOf st))

section Operands

variable {st : SymbolTable} (hst : Valid st)

include hst

theorem inert_pieceText {piece : List Char}
    (hknown : ∃ token, st.names[String.ofList (bareOf piece)]? = some token)
    (hinert : Inert (subscriptOf piece)) :
    Inert (pieceText st piece) ∧ (pieceText st piece).head? = some '#' := by
  obtain ⟨token, htoken⟩ := hknown
  obtain ⟨i, -, rfl⟩ := hst.names _ _ htoken
  rw [pieceText, tokenOf, htoken, Option.getD_some]
  have hfree : ∀ c ∈ (attrToken st.namePrefix i).toList, c ∉ updateBreaks :=
    fun c hc => not_break_of_word (attrToken_word hst.wordPrefix i c hc)
  rw [attrToken_toList] at hfree ⊢
  have htext := inert_of_free (by decide) hfree
  refine ⟨?_, rfl⟩
  cases hsub : subscriptOf piece with
  | nil => rwa [List.append_nil]
  | cons c rest =>
      obtain rfl : c = '[' := by
        have hstop := List.head?_dropWhile_not (· ≠ '[') piece
        rw [← subscriptOf, hsub] at hstop
        simpa using hstop
      rw [hsub] at hinert
      exact htext.append (by decide) (by decide) hinert

theorem inert_pathText {path : String} (hknown : Knows st path)
    (hinert : inertSubscripts path = true) : Inert (pathText st path).toList := by
  have hpieces : ∀ ws : List (List Char),
      (∀ w ∈ ws, Inert (pieceText st w) ∧ (pieceText st w).head? = some '#') →
      Inert (['.'].intercalate (ws.map (pieceText st))) := by
    intro ws hws
    induction ws with
    | nil => exact inert_nil
    | cons w ws ih =>
        obtain ⟨hw, -⟩ := hws w List.mem_cons_self
        have hrest := ih fun v hv => hws v (List.mem_cons_of_mem _ hv)
        cases ws with
        | nil => simpa using hw
        | cons v vs =>
            obtain ⟨rest, hhead⟩ : ∃ rest,
                ['.'].intercalate ((v :: vs).map (pieceText st)) = '#' :: rest := by
              obtain ⟨front, hfront⟩ := List.head?_eq_some_iff.mp (hws v (by simp)).2
              cases vs with
              | nil => exact ⟨front, by simpa using hfront⟩
              | cons u us =>
                  rw [List.map_cons, List.map_cons, List.intercalate_cons_cons, hfront]
                  exact ⟨_, rfl⟩
            rw [hhead] at hrest
            have hdot : Inert ['.'] := inert_of_forall (List.forall_mem_singleton.mpr rfl)
            have hjoin : Inert (['.'] ++ '#' :: rest) := hdot.append (by decide) (by decide) hrest
            rw [List.map_cons, List.map_cons, List.intercalate_cons_cons, ← List.map_cons, hhead,
              List.append_assoc]
            rw [List.singleton_append] at hjoin ⊢
            exact hw.append (by decide) (by decide) hjoin
  rw [pathText, String.toList_ofList]
  refine hpieces _ fun w hw => inert_pieceText hst (hknown w hw) ?_
  simpa using List.all_eq_true.mp hinert w hw

theorem pathText_head {path : String} (hknown : Knows st path) :
    ∃ rest, (pathText st path).toList = '#' :: rest := by
  rw [pathText, String.toList_ofList]
  cases hpieces : pieces path with
  | nil => exact absurd hpieces (List.splitOnP_ne_nil _ _)
  | cons w ws =>
      obtain ⟨i, htoken⟩ := tokenOf_eq hst (hknown w (by simp [hpieces]))
      have hw : ∃ rest, pieceText st w = '#' :: rest := ⟨_, by rw [pieceText, htoken]; rfl⟩
      obtain ⟨rest, hrest⟩ := hw
      cases ws with
      | nil => exact ⟨rest, by simpa using hrest⟩
      | cons v vs =>
          rw [List.map_cons, List.map_cons, List.intercalate_cons_cons, hrest]
          exact ⟨_, rfl⟩

/-- The first word of an operand starts at its first token. -/
theorem updateWords_pathText {path : String} (hknown : Knows st path) :
    ∃ w ws, updateWords (pathText st path) = w :: ws ∧ w.toList.head? = some '#' := by
  obtain ⟨rest, hhead⟩ := pathText_head hst hknown
  rw [updateWords, splitWords_eq, hhead, words_cons_of_free (by decide)]
  exact ⟨_, _, rfl, by simp⟩

omit hst in
theorem pieces_plain {name : String} (hplain : isPlainName name = true) :
    pieces name = [name.toList] := by
  have hsegs := segments_plain hplain
  rw [segments, List.map_eq_singleton_iff] at hsegs
  obtain ⟨piece, hpiece, hname⟩ := hsegs
  rw [pieces, hpiece, ← hname, String.toList_ofList]

/-- A plain name is one word, which resolves to it. -/
theorem clientNames_plain {name : String} (hplain : isPlainName name = true)
    (hknown : Knows st name) : clientNames st name = [name] := by
  have hpieces := pieces_plain hplain
  obtain ⟨hbare, hsub⟩ := subscript_plain hplain
  obtain ⟨token, htoken⟩ := hknown name.toList (by simp [hpieces])
  have hbare' : String.ofList (bareOf name.toList) = name := by
    rw [bareOf, hbare, String.ofList_toList]
  have htext : pathText st name = token := by
    rw [pathText, hpieces, List.map_singleton, pieceText, tokenOf, htoken, subscriptOf, hsub]
    simp
  obtain ⟨i, -, htoken'⟩ := hst.names _ _ htoken
  have hword : updateWords token = [token] := by
    refine splitWords_word (by simp [htoken', attrToken]) fun c hc => ?_
    rw [htoken'] at hc
    exact not_break_of_word (attrToken_word hst.wordPrefix i c hc)
  have hlookup : (namesOf st).lookup token = some name := by
    rw [namesOf, Maps.lookup_toList, hst.getNames htoken, hbare']
  rw [clientNames, htext, hword, List.map_singleton, resolveName, hlookup, Option.getD_some]

end Operands

/-! ### Words of an assignment -/

def SetElement.lhs : SetElement → String
  | .value lhs _ | .plus lhs _ _ | .minus lhs _ _ | .copy lhs _ => lhs

/-- The value of a plain assignment. -/
def SetElement.bound : SetElement → Option Value
  | .value _ rhs => some rhs
  | .plus _ _ _ | .minus _ _ _ | .copy _ _ => none

/-- What the client assigns: no other form starts with a value alias. -/
def SetElement.clientValue (e : SetElement) : Value := e.bound.getD .NUL

theorem UnquotedString.isPlain (name : UnquotedString) : isPlainName name.text = true := by
  refine List.all_eq_true.mpr fun c hc => ?_
  have hclass := List.all_eq_true.mp name.chars c hc
  have hne : c ≠ '.' ∧ c ≠ '[' := by
    constructor <;> (rintro rfl; revert hclass; decide)
  simpa using hne

/-- What may follow a source or a value without a break. -/
def Tight (text : String) : Prop := ∀ c ∈ text.toList, c ∉ updateBreaks

theorem Tight.append {a b : String} (ha : Tight a) (hb : Tight b) : Tight (a ++ b) := by
  intro c hc
  rw [String.toList_append] at hc
  exact (List.mem_append.mp hc).elim (ha c) (hb c)

theorem Tight.words {s : String} (h : Tight s) {c : Char} (hhead : s.toList.head? = some c) :
    updateWords s = [s] := by
  refine splitWords_word ?_ h
  rintro rfl
  cases hhead

theorem tight_newBare {st : SymbolTable} (hst : Valid st) (name : String) :
    Tight (newBare name st).1 ∧ ∃ rest, (newBare name st).1.toList = '#' :: rest := by
  have hmid := hst.newBare name
  obtain ⟨i, -, htoken⟩ := hmid.names _ _ (newBare_names name st)
  rw [htoken]
  exact ⟨fun c hc => not_break_of_word (attrToken_word hmid.wordPrefix i c hc),
    _, attrToken_toList _ i⟩

theorem tight_newValue {st : SymbolTable} (hst : Valid st) (v : Value) :
    Tight (newValue v st).1 ∧ ∃ rest, (newValue v st).1.toList = ':' :: rest :=
  ⟨fun c hc => not_break_of_word (valueToken_word hst.wordPrefix _ c hc), _, valueToken_toList _ _⟩

/-- A token that is no value alias resolves to NULL. -/
theorem resolveValue_other {st : SymbolTable} (hst : Valid st) {word : String}
    (h : word.toList.head? ≠ some ':') : resolveValue (valuesOf st) word = .NUL := by
  cases hlookup : (valuesOf st).lookup word with
  | none => rw [resolveValue, hlookup]; rfl
  | some v =>
      rw [valuesOf, Maps.lookup_toList] at hlookup
      obtain ⟨i, -, rfl⟩ := hst.values _ _ hlookup
      rw [valueToken_toList] at h
      exact absurd rfl h

/-- Commas separate words and are none. -/
theorem updateWords_comma {s : String} (hs : s = "," ∨ s = ", ") (a b : String) :
    updateWords (a ++ s ++ b) = updateWords a ++ updateWords b := by
  have hnone : splitWords updateBreaks s = [] := by rcases hs with rfl | rfl <;> decide
  rw [updateWords, splitWords_between (by rcases hs with rfl | rfl <;> decide)
    (by rcases hs with rfl | rfl <;> decide), hnone, List.append_nil]
  rfl

/-- The words of a source, and of what follows it without a break. -/
theorem setSource_words {source : UseLhs} (hwritten : source.written = true)
    (hinert : ∀ path ∈ source.operands, inertSubscripts path = true) {st st' : SymbolTable}
    (hst : Valid st) (hst' : Valid st') (hext : Extends (setSource source.build st).2 st')
    {tail : String} (htail : Tight tail) :
    ∃ r rs, updateWords ((setSource source.build st).1 ++ tail) = r :: rs ∧
      (∀ w ∈ r :: rs, Passive w) ∧ r.toList.head? ≠ some ':' := by
  cases source with
  | attr name =>
      rw [setSource_attr, newAttribute_plain name.isPlain]
      obtain ⟨htight, rest, hhead⟩ := tight_newBare hst name.text
      have hstart : ((newBare name.text st).1 ++ tail).toList.head? = some '#' := by
        rw [String.toList_append, hhead]
        rfl
      refine ⟨_, [], (htight.append htail).words hstart, ?_, by rw [hstart]; decide⟩
      intro w hw
      rw [List.mem_singleton.mp hw]
      exact passive_of_head hstart (by decide)
  | ifNotExists path value =>
      have hne : path ≠ "" := by simpa [UseLhs.written] using hwritten
      rw [setSource_ifNotExists hne] at hext ⊢
      obtain ⟨hmid, _⟩ := newAttribute_grows path st hst
      obtain ⟨htext, hknown⟩ := newAttribute_text hst ((newValue_grows value _ hmid).2.trans hext)
      obtain ⟨hvalue, more, hcolon⟩ := tight_newValue hmid value
      obtain ⟨rest, hhead⟩ := pathText_head hst' hknown
      -- the last word starts at the value alias
      have hlast : ((newValue value (newAttribute path st).2).1 ++ ")" ++ tail).toList.head? =
          some ':' := by
        rw [String.toList_append, String.toList_append, hcolon]
        rfl
      have hclose : Tight ")" := List.forall_mem_singleton.mpr (by decide)
      have hlastWords := ((hvalue.append hclose).append htail).words
        hlast
      -- the first word runs into the path
      obtain ⟨h, ws, hpath⟩ : ∃ h ws, words (updateBreaks.contains ·) (pathText st' path).toList =
          h :: ws := by
        rw [hhead, words_cons_of_free (by decide)]
        exact ⟨_, _, rfl⟩
      have hfirstWords : updateWords ("if_not_exists(" ++ pathText st' path) =
          ("if_not_exists(" ++ String.ofList h) :: ws.map String.ofList := by
        have hglue : words (updateBreaks.contains ·) ("if_not_exists(".toList ++ '#' :: rest) =
            (words (updateBreaks.contains ·) ('#' :: rest)).modifyHead
              ("if_not_exists(".toList ++ ·) :=
          words_append_free (by simp [updateBreaks]) (by decide) rest
        rw [updateWords, splitWords_eq, String.toList_append, hhead, hglue, ← hhead, hpath,
          List.modifyHead_cons, List.map_cons, String.ofList_append, String.ofList_toList]
      have hpassive : ∀ w ∈ ws.map String.ofList, Passive w := by
        intro w hw
        refine inert_pathText hst' hknown (hinert path (by simp [UseLhs.operands])) w ?_
        rw [updateWords, splitWords_eq, String.toList_ofList, hpath, List.map_cons]
        exact List.mem_cons_of_mem _ hw
      refine ⟨"if_not_exists(" ++ String.ofList h, ws.map String.ofList ++
        [(newValue value (newAttribute path st).2).1 ++ ")" ++ tail], ?_, ?_, ?_⟩
      · rw [htext, ← List.cons_append, ← hfirstWords, ← hlastWords,
          ← updateWords_comma (.inl rfl)]
        simp only [String.append_assoc]
      · intro w hw
        rcases List.mem_cons.mp hw with rfl | hw
        · exact passive_of_head (c := 'i') (by simp) (by decide)
        · rcases List.mem_append.mp hw with hw | hw
          · exact hpassive w hw
          · rw [List.mem_singleton.mp hw]
            exact passive_of_head hlast (by decide)
      · simp

theorem tight_setOperand {st : SymbolTable} (hst : Valid st) (v : Option Value) :
    Tight (setOperand v st).1 := by
  cases v with
  | none => unfold Tight; simp [setOperand]
  | some v => exact (tight_newValue hst v).1

theorem updateWords_assignment (lhs rhs : String) :
    updateWords (lhs ++ " = " ++ rhs) = updateWords lhs ++ "=" :: updateWords rhs := by
  have hequals : splitWords updateBreaks " = " = ["="] := by decide
  rw [updateWords, splitWords_between (s := " = ") (by decide) (by decide), hequals,
    List.append_assoc, List.singleton_append]
  rfl

/-- Nothing is written to the right of the `=`. -/
def SetElement.dangling : SetElement → Bool
  | .copy _ source => !source.written
  | .value _ _ | .plus _ _ _ | .minus _ _ _ => false

/-- The words to the right of the `=`. -/
structure RightWords (st : SymbolTable) (e : SetElement) (right : List String) : Prop where
  passive : ∀ w ∈ right, Passive w
  dangling : e.dangling = true → right = []
  value : e.dangling = false →
    ∃ r rs, right = r :: rs ∧ resolveValue (valuesOf st) r = e.clientValue

/-- The words of an assignment that is no plain value. -/
theorem sourceAssignment_words (lhs : String) (source : UseLhs)
    (hinert : ∀ path ∈ source.operands, inertSubscripts path = true) {op : String}
    (hop : op = "+" ∨ op = "-" ∨ op = "") {v : Option Value} (hv : op = "" → v = none)
    {st st' : SymbolTable} (hst : Valid st) (hst' : Valid st')
    (hext : Extends (setOperand v (setSource source.build (newAttribute lhs st).2).2).2 st') :
    Knows st' lhs ∧ (∀ v' ∈ (none : Option Value), v' ∈ (valuesOf st').map Prod.snd) ∧
      ∃ right, updateWords ((newAttribute lhs st).1 ++ " = " ++
          (setSource source.build (newAttribute lhs st).2).1 ++ op ++
          (setOperand v (setSource source.build (newAttribute lhs st).2).2).1) =
            updateWords (pathText st' lhs) ++ "=" :: right ∧
        (∀ w ∈ right, Passive w) ∧ (source.written = false → op = "" → right = []) ∧
        (source.written = true ∨ op ≠ "" →
          ∃ r rs, right = r :: rs ∧ resolveValue (valuesOf st') r = .NUL) := by
  obtain ⟨hmid, _⟩ := newAttribute_grows lhs st hst
  obtain ⟨hsource, hgrown⟩ := (setSource_mints source.build).grows _ hmid
  have hext' := ((setOperand_mints v).grows _ hsource).2.trans hext
  obtain ⟨htext, hknown⟩ := newAttribute_text hst (hgrown.trans hext')
  have htight : Tight op := by
    rcases hop with rfl | rfl | rfl <;> simp [Tight, updateBreaks]
  have htail := htight.append (tight_setOperand hsource v)
  refine ⟨hknown, by simp, ?_⟩
  have hright : ∀ right, updateWords ((setSource source.build (newAttribute lhs st).2).1 ++
        (op ++ (setOperand v (setSource source.build (newAttribute lhs st).2).2).1)) = right →
      updateWords ((newAttribute lhs st).1 ++ " = " ++
        (setSource source.build (newAttribute lhs st).2).1 ++ op ++
        (setOperand v (setSource source.build (newAttribute lhs st).2).2).1) =
          updateWords (pathText st' lhs) ++ "=" :: right := by
    rintro right rfl
    rw [← htext, ← updateWords_assignment]
    simp only [String.append_assoc]
  cases hw : source.written with
  | true =>
      obtain ⟨r, rs, hwords, hpassive, hcolon⟩ := setSource_words hw hinert hmid hst' hext' htail
      exact ⟨r :: rs, hright _ hwords, hpassive, fun h => absurd h (by decide), fun _ =>
        ⟨r, rs, rfl, resolveValue_other hst' hcolon⟩⟩
  | false =>
      simp only [setSource_unwritten hw, String.empty_append] at hright htail ⊢
      by_cases hnone : op = ""
      · have hempty : updateWords (op ++ (setOperand v (newAttribute lhs st).2).1) = [] := by
          rw [hnone, hv hnone]
          rfl
        exact ⟨[], hright [] hempty, by simp, fun _ _ => rfl,
          fun h => absurd hnone (h.resolve_left (by decide))⟩
      · -- the operator starts the only word
        obtain ⟨c, hop', hc, hcolon⟩ : ∃ c, op.toList.head? = some c ∧ inSyntax c = false ∧
            c ≠ ':' := by
          rcases hop with rfl | rfl | rfl
          · exact ⟨'+', rfl, by decide, by decide⟩
          · exact ⟨'-', rfl, by decide, by decide⟩
          · exact absurd rfl hnone
        have hhead : (op ++ (setOperand v (newAttribute lhs st).2).1).toList.head? = some c := by
          rw [String.toList_append, List.head?_append, hop']
          rfl
        refine ⟨_, hright _ (htail.words hhead), ?_, fun _ h => absurd h hnone,
          fun _ => ⟨_, [], rfl, resolveValue_other hst' ?_⟩⟩
        · intro w hword
          rw [List.mem_singleton.mp hword]
          exact passive_of_head hhead hc
        · rw [hhead]
          exact fun heq => hcolon (Option.some.inj heq)

/-- The words of an assignment: its target, the `=`, and what stands there. -/
theorem serializeSetElement_words (e : SetElement)
    (hinert : ∀ path ∈ e.operands, inertSubscripts path = true) {st st' : SymbolTable}
    (hst : Valid st) (hst' : Valid st') (hext : Extends (serializeSetElement e.build st).2 st') :
    Knows st' e.lhs ∧ (∀ v ∈ e.bound, v ∈ (valuesOf st').map Prod.snd) ∧
      ∃ right, updateWords (serializeSetElement e.build st).1 =
          updateWords (pathText st' e.lhs) ++ "=" :: right ∧ RightWords st' e right := by
  have hrest : ∀ {lhs : String} {source : UseLhs}, e.operands = lhs :: source.operands →
      ∀ path ∈ source.operands, inertSubscripts path = true :=
    fun h path hpath => hinert path (h ▸ List.mem_cons_of_mem _ hpath)
  cases e with
  | value lhs rhs =>
      obtain ⟨hmid, _⟩ := newAttribute_grows lhs st hst
      have htext : serializeSetElement (SetElement.value lhs rhs).build st =
          ((newAttribute lhs st).1 ++ " = " ++ (newValue rhs (newAttribute lhs st).2).1,
            (newValue rhs (newAttribute lhs st).2).2) := by
        simp [serializeSetElement, SetElement.build, setSource, setOperand]
      rw [htext] at hext ⊢
      obtain ⟨hattr, hknown⟩ := newAttribute_text hst ((newValue_grows rhs _ hmid).2.trans hext)
      obtain ⟨htight, rest, hcolon⟩ := tight_newValue hmid rhs
      have hhead : (newValue rhs (newAttribute lhs st).2).1.toList.head? = some ':' := by
        rw [hcolon]
        rfl
      have hbound : rhs ∈ (valuesOf st').map Prod.snd := by
        have hvalue := hext.values _ _ (newValue_values hmid rhs)
        exact List.mem_map_of_mem (Std.TreeMap.mem_toList_iff_getElem?_eq_some.mpr hvalue)
      refine ⟨hknown, by simpa [SetElement.bound] using hbound,
        [(newValue rhs (newAttribute lhs st).2).1], ?_, ?_, by simp [SetElement.dangling],
        fun _ => ?_⟩
      · rw [updateWords_assignment, hattr, htight.words hhead]
        rfl
      · intro w hw
        rw [List.mem_singleton.mp hw]
        exact passive_of_head hhead (by decide)
      · exact ⟨_, [], rfl, (newValue_token hmid rhs hext).resolves⟩
  | plus lhs source rhs =>
      obtain ⟨hknown, hbound, right, hwords, hpassive, -, hvalue⟩ := sourceAssignment_words lhs
        source (hrest rfl) (.inl rfl) (v := some rhs) (fun h => absurd h (by decide)) hst hst' hext
      exact ⟨hknown, hbound, right, hwords, hpassive, by simp [SetElement.dangling],
        fun _ => hvalue (.inr (by decide))⟩
  | minus lhs source rhs =>
      obtain ⟨hknown, hbound, right, hwords, hpassive, -, hvalue⟩ := sourceAssignment_words lhs
        source (hrest rfl) (.inr (.inl rfl)) (v := some rhs) (fun h => absurd h (by decide)) hst
        hst' hext
      exact ⟨hknown, hbound, right, hwords, hpassive, by simp [SetElement.dangling],
        fun _ => hvalue (.inr (by decide))⟩
  | copy lhs source =>
      have hsource := sourceAssignment_words lhs source (hrest rfl) (.inr (.inr rfl)) (v := none)
        (fun _ => rfl) hst hst' (by cases source <;> exact hext)
      obtain ⟨hknown, hbound, right, hwords, hpassive, hnone, hvalue⟩ := hsource
      refine ⟨hknown, hbound, right, ?_, hpassive, fun hdangling => ?_, fun hdangling => ?_⟩
      · cases source <;> exact hwords
      · exact hnone (by simpa [SetElement.dangling] using hdangling) rfl
      · exact hvalue (.inl (by simpa [SetElement.dangling] using hdangling))

/-! ### Reading -/

section Reading

variable {names : ExpressionAttributeNames} {values : ValueMap}

theorem assignedAt_eq_none {rest : List String} (h : rest.head? ≠ some "=") :
    assignedAt rest = none := by
  unfold assignedAt
  split
  · exact if_neg fun heq => h (by rw [heq]; rfl)
  · rfl

theorem readActions_other {w : String} (hset : w.toUpper ≠ "SET") (hremove : w.toUpper ≠ "REMOVE")
    {rest : List String} (hrest : assignedAt rest = none) :
    readActions names values .set 0 (w :: rest) = readActions names values .set 0 rest := by
  rw [readActions, if_neg hset, if_neg hremove, hrest]

/-- An `=` where a name should stand is passed over. -/
theorem readActions_equals {rest : List String} (hrest : rest.head? ≠ some "=") :
    readActions names values .set 0 ("=" :: rest) = readActions names values .set 0 rest :=
  readActions_other (by rw [ne_eq, toUpper_eq_iff]; decide) (by rw [ne_eq, toUpper_eq_iff]; decide)
    (assignedAt_eq_none hrest)

/-- Words that no `=` follows are passed over. -/
theorem readActions_pass {ws rest : List String} (hws : ∀ w ∈ ws, Passive w)
    (hrest : rest.head? ≠ some "=") :
    readActions names values .set 0 (ws ++ rest) = readActions names values .set 0 rest := by
  induction ws with
  | nil => rfl
  | cons w ws ih =>
      have hw := hws w List.mem_cons_self
      have htail := fun v hv => hws v (List.mem_cons_of_mem _ hv)
      have hhead : (ws ++ rest).head? ≠ some "=" := by
        cases ws with
        | nil => exact hrest
        | cons v ws => simpa using (htail v List.mem_cons_self).equals
      rw [List.cons_append, readActions_other hw.set hw.remove (assignedAt_eq_none hhead)]
      exact ih htail

/-- The words in front of an `=` but the last. -/
theorem readActions_last {ws : List String} (hne : ws ≠ []) (hws : ∀ w ∈ ws, Passive w)
    (rest : List String) :
    readActions names values .set 0 (ws ++ "=" :: rest) =
      readActions names values .set 0 (ws.getLast hne :: "=" :: rest) := by
  have hfront : ∀ w ∈ ws.dropLast, Passive w :=
    fun w hw => hws w (List.dropLast_subset ws hw)
  have hhead : (ws.getLast hne :: "=" :: rest).head? ≠ some "=" := by
    simpa using (hws _ (List.getLast_mem hne)).equals
  rw [← readActions_pass hfront hhead, List.append_cons ws.dropLast, List.dropLast_concat_getLast]

/-- The last word in front of the `=` is assigned the word after it. -/
theorem readActions_assign {ws : List String} (hne : ws ≠ []) (hws : ∀ w ∈ ws, Passive w)
    (r : String) (rest : List String) :
    readActions names values .set 0 (ws ++ "=" :: r :: rest) =
      (resolveName names (ws.getLast hne), some (resolveValue values r)) ::
        readActions names values .set 0 rest := by
  have hlast := hws _ (List.getLast_mem hne)
  rw [readActions_last hne hws, readActions, if_neg hlast.set, if_neg hlast.remove]
  rfl

/-- Nothing is assigned where no word follows the `=`. -/
theorem readActions_dangling {ws : List String} (hne : ws ≠ []) (hws : ∀ w ∈ ws, Passive w) :
    readActions names values .set 0 (ws ++ ["="]) = [] := by
  have hlast := hws _ (List.getLast_mem hne)
  rw [readActions_last hne hws, readActions_other hlast.set hlast.remove rfl,
    readActions_equals (by simp)]
  rfl

/-- Under REMOVE every word is a name. -/
theorem readActions_remove {ws : List String} (hws : ∀ w ∈ ws, Passive w) :
    readActions names values .remove 0 ws =
      ws.map fun w => (resolveName names w, none) := by
  induction ws with
  | nil => rfl
  | cons w ws ih =>
      have hw := hws w List.mem_cons_self
      rw [readActions, if_neg hw.set, if_neg hw.remove,
        ih fun v hv => hws v (List.mem_cons_of_mem _ hv)]
      rfl

end Reading

/-! ### What the client does -/

/-- The assignments that the client reads. Where nothing is written after an `=`
the first word of the next target is taken for the value, and is not there
any more when that target is read. -/
def clientWrites (st : SymbolTable) : Bool → List SetElement → List (String × Value)
  | _, [] => []
  | taken, e :: es =>
      let names := if taken then (clientNames st e.lhs).tail else clientNames st e.lhs
      match names.getLast? with
      | none => clientWrites st false es
      | some name =>
          if !e.dangling then (name, e.clientValue) :: clientWrites st false es
          else if es.isEmpty then []
          else (name, .NUL) :: clientWrites st true es

/-- What the client makes of an update expression, with the tokens of a table. -/
def UpdateClause.clientActions (st : SymbolTable) : UpdateClause → List AttrAction
  | .set first rest => (clientWrites st false (first :: rest)).map fun w => (w.1, some w.2)
  | .remove first rest =>
      ((first :: rest).flatMap (clientNames st)).map fun name => (name, none)

/-- The attribute operands of an assignment or a removal. -/
def UpdateClause.targets : UpdateClause → List String
  | .set first rest => (first :: rest).map SetElement.lhs
  | .remove first rest => first :: rest

/-- The values of the plain assignments. -/
def UpdateClause.bound : UpdateClause → List Value
  | .set first rest => (first :: rest).filterMap SetElement.bound
  | .remove _ _ => []

theorem serializeProjection_words (paths : List String) {st st' : SymbolTable} (hst : Valid st)
    (hext : Extends (serializeProjection paths st).2 st') :
    updateWords (serializeProjection paths st).1 =
      paths.flatMap (fun path => updateWords (pathText st' path)) ∧
    ∀ path ∈ paths, Knows st' path := by
  match paths with
  | [] => exact ⟨rfl, by simp⟩
  | [path] =>
      obtain ⟨htext, hknown⟩ := newAttribute_text hst hext
      refine ⟨?_, by simpa using hknown⟩
      rw [serializeProjection, htext]
      simp
  | path :: next :: rest =>
      obtain ⟨hmid, _⟩ := newAttribute_grows path st hst
      have hext' := ((serializeProjection_mints (next :: rest)).grows _ hmid).2.trans hext
      obtain ⟨htext, hknown⟩ := newAttribute_text hst hext'
      obtain ⟨hwords, hknowns⟩ := serializeProjection_words (next :: rest) hmid hext
      refine ⟨?_, List.forall_mem_cons.mpr ⟨hknown, hknowns⟩⟩
      rw [serializeProjection, Alias.bind_apply, Alias.bind_apply, Alias.pure_apply]
      rw [updateWords_comma (.inr rfl), htext, hwords]
      rfl

section Whole

variable {st' : SymbolTable} (hst' : Valid st')

include hst'

theorem passive_pathText {path : String} (hknown : Knows st' path)
    (hinert : inertSubscripts path = true) : ∀ w ∈ updateWords (pathText st' path), Passive w := by
  have htext := inert_pathText hst' hknown hinert
  rwa [Inert, String.ofList_toList] at htext

/-- Words that the client reads as these assignments, the first word there or
taken for a value. -/
structure ReadsOn (st : SymbolTable) (es : List SetElement) (more : List String) : Prop where
  reads : ∀ taken : Bool,
    readActions (namesOf st) (valuesOf st) .set 0 (if taken then more.tail else more) =
      (clientWrites st taken es).map fun w => (w.1, some w.2)
  starts : es = [] ∧ more = [] ∨ ∃ next rest w ws, es = next :: rest ∧ more = w :: ws ∧
    Passive w ∧ resolveValue (valuesOf st) w = .NUL

omit hst' in
theorem ReadsOn.nil (st : SymbolTable) : ReadsOn st [] [] :=
  ⟨fun taken => by cases taken <;> rfl, .inl ⟨rfl, rfl⟩⟩

omit hst' in
theorem ReadsOn.head {es : List SetElement} {more : List String} (h : ReadsOn st' es more) :
    more.head? ≠ some "=" := by
  rcases h.starts with ⟨-, rfl⟩ | ⟨-, -, w, ws, -, rfl, hw, -⟩
  · simp
  · simpa using hw.equals

/-- One more assignment in front. -/
theorem ReadsOn.cons {e : SetElement} (hknown : Knows st' e.lhs)
    (hinert : inertSubscripts e.lhs = true) {right : List String} (hright : RightWords st' e right)
    {es : List SetElement} {more : List String} (h : ReadsOn st' es more) :
    ReadsOn st' (e :: es) (updateWords (pathText st' e.lhs) ++ "=" :: right ++ more) := by
  obtain ⟨w, ws, hwords, hhash⟩ := updateWords_pathText hst' hknown
  have hpassive := passive_pathText hst' hknown hinert
  refine ⟨fun taken => ?_, .inr ⟨e, es, w, _, rfl, by rw [hwords]; rfl,
    hpassive w (by simp [hwords]), resolveValue_other hst' (by rw [hhash]; decide)⟩⟩
  rw [hwords] at hpassive
  -- the words of the target that are left
  obtain ⟨left, hleft, hnames, hpassive'⟩ : ∃ left,
      (if taken then (updateWords (pathText st' e.lhs) ++ "=" :: right ++ more).tail
        else updateWords (pathText st' e.lhs) ++ "=" :: right ++ more) =
          left ++ "=" :: (right ++ more) ∧
      (if taken then (clientNames st' e.lhs).tail else clientNames st' e.lhs) =
        left.map (resolveName (namesOf st')) ∧ ∀ v ∈ left, Passive v := by
    rw [clientNames, hwords]
    cases taken with
    | true =>
        exact ⟨ws, by simp, rfl, fun v hv => hpassive v (List.mem_cons_of_mem _ hv)⟩
    | false => exact ⟨w :: ws, by simp, rfl, hpassive⟩
  have hafter : (right ++ more).head? ≠ some "=" := by
    cases hr : right with
    | nil => exact h.head
    | cons r rs => simpa using (hright.passive r (by simp [hr])).equals
  simp only [hleft, clientWrites, hnames, List.getLast?_map]
  cases hlast : left.getLast? with
  | none =>
      rw [List.getLast?_eq_none_iff.mp hlast, List.nil_append, readActions_equals hafter,
        readActions_pass hright.passive h.head]
      exact h.reads false
  | some v =>
      have hne : left ≠ [] := by
        rintro rfl
        cases hlast
      have hv : left.getLast hne = v := by
        rw [List.getLast?_eq_getLast_of_ne_nil hne] at hlast
        exact Option.some.inj hlast
      cases hdangling : e.dangling with
      | false =>
          obtain ⟨r, rs, rfl, hvalue⟩ := hright.value hdangling
          rw [List.cons_append, readActions_assign hne hpassive', hv, hvalue, readActions_pass
            (fun u hu => hright.passive u (List.mem_cons_of_mem _ hu)) h.head]
          exact congrArg _ (h.reads false)
      | true =>
          rw [hright.dangling hdangling, List.nil_append]
          rcases h.starts with ⟨rfl, rfl⟩ | ⟨next, rest, u, us, rfl, rfl, -, hnull⟩
          · rw [readActions_dangling hne hpassive']
            rfl
          · rw [readActions_assign hne hpassive', hv, hnull]
            exact congrArg _ (h.reads true)

theorem serializeSet_readsOn (e : SetElement) (es : List SetElement)
    (hinert : ∀ x ∈ e :: es, ∀ path ∈ x.operands, inertSubscripts path = true)
    {st : SymbolTable} (hst : Valid st)
    (hext : Extends (serializeSet ((e :: es).map SetElement.build) st).2 st') :
    ReadsOn st' (e :: es) (updateWords (serializeSet ((e :: es).map SetElement.build) st).1) ∧
    ∀ x ∈ e :: es, Knows st' x.lhs ∧ ∀ v ∈ x.bound, v ∈ (valuesOf st').map Prod.snd := by
  have hpaths := hinert e List.mem_cons_self
  have hlhs : inertSubscripts e.lhs = true :=
    hpaths _ (by cases e <;> simp [SetElement.operands, SetElement.lhs])
  induction es generalizing e st with
  | nil =>
      obtain ⟨hknown, hbound, right, hwords, hright⟩ :=
        serializeSetElement_words e hpaths hst hst' hext
      have hreads := (ReadsOn.nil st').cons hst' hknown hlhs hright
      rw [List.append_nil, ← hwords] at hreads
      exact ⟨hreads, List.forall_mem_singleton.mpr ⟨hknown, hbound⟩⟩
  | cons next rest ih =>
      obtain ⟨hmid, _⟩ := (serializeSetElement_mints e.build).grows st hst
      simp only [List.map_cons, serializeSet, Alias.bind_apply, Alias.pure_apply] at hext ⊢
      have hmore := serializeSet_mints ((next :: rest).map SetElement.build)
      have hext' := (hmore.grows _ hmid).2.trans hext
      have hnext := hinert next (by simp)
      obtain ⟨hreads, hcarried⟩ := ih next (fun x hx => hinert x (List.mem_cons_of_mem _ hx)) hmid
        hext hnext (hnext _ (by cases next <;> simp [SetElement.operands, SetElement.lhs]))
      obtain ⟨hknown, hbound, right, hwords, hright⟩ :=
        serializeSetElement_words e hpaths hst hst' hext'
      refine ⟨?_, List.forall_mem_cons.mpr ⟨⟨hknown, hbound⟩, hcarried⟩⟩
      rw [updateWords_comma (.inr rfl), hwords]
      exact hreads.cons hst' hknown hlhs hright

/-- What the client makes of an update expression. -/
theorem updateExpression_actions {u : UpdateClause}
    (hinert : ∀ path ∈ u.operands, inertSubscripts path = true) {st : SymbolTable}
    (hst : Valid st) (hext : Extends (updateExpression u.build st).2 st') :
    readActions (namesOf st') (valuesOf st') .none 0
        (updateWords (updateExpression u.build st).1) = u.clientActions st' ∧
      (∀ path ∈ u.targets, Knows st' path) ∧
      ∀ v ∈ u.bound, v ∈ (valuesOf st').map Prod.snd := by
  have hkeyword : ∀ s a : String, s = "SET " ∨ s = "REMOVE " →
      updateWords (s ++ a) = updateWords s ++ updateWords a := by
    intro s a hs
    exact splitWords_ending (by rcases hs with rfl | rfl <;> decide) a
  cases u with
  | set first rest =>
      have hset : updateWords "SET " = ["SET"] := by decide
      obtain ⟨hreads, hcarried⟩ := serializeSet_readsOn hst' first rest
        (fun x hx path hpath => hinert path (List.mem_flatMap.mpr ⟨x, hx, hpath⟩)) hst hext
      refine ⟨?_, ?_, ?_⟩
      · change readActions _ _ .none 0 (updateWords ("SET " ++ _)) = _
        rw [hkeyword _ _ (.inl rfl), hset, List.singleton_append, readActions,
          if_pos (toUpper_eq_iff.mpr (by decide))]
        exact hreads.reads false
      · intro path hpath
        obtain ⟨x, hx, rfl⟩ := List.mem_map.mp hpath
        exact (hcarried x hx).1
      · intro v hv
        obtain ⟨x, hx, hbound⟩ := List.mem_filterMap.mp hv
        exact (hcarried x hx).2 v hbound
  | remove first rest =>
      have hremove : updateWords "REMOVE " = ["REMOVE"] := by decide
      obtain ⟨hwords, hknown⟩ := serializeProjection_words (first :: rest) hst hext
      refine ⟨?_, hknown, by simp [UpdateClause.bound]⟩
      change readActions _ _ .none 0 (updateWords ("REMOVE " ++ _)) = _
      rw [hkeyword _ _ (.inr rfl), hremove, List.singleton_append, readActions,
        if_neg (by rw [toUpper_eq_iff]; decide), if_pos (toUpper_eq_iff.mpr (by decide)), hwords,
        readActions_remove]
      · simp only [UpdateClause.clientActions, clientNames, List.map_flatMap, List.map_map]
        rfl
      · intro w hw
        obtain ⟨path, hpath, hw⟩ := List.mem_flatMap.mp hw
        exact passive_pathText hst' (hknown path hpath) (hinert path hpath) w hw

end Whole

end DdbShell
