import DdbShell.Expressions.Aliases
import Mathlib.Logic.Relation

/-!
Operand texts read back as document paths. `operandPath` is the path an operand
text stands for, its subscripts being list indices; `newAttribute` spells that
path under the aliases of every later symbol table of the run.
-/

namespace DdbShell

open Lexing (Lexeme lex lex_append lex_word Apart headIs)
open SymbolTable

/-! ### Assembled text -/

/-- No word or operator runs across a border next to this character. -/
def opens (c : Char) : Bool := charClass c = .blank || charClass c = .single

theorem opens_ne {c : Char} (h : opens c = true) :
    charClass c ≠ .word ∧ charClass c ≠ .operator := by
  simp only [opens, Bool.or_eq_true, decide_eq_true_eq] at h
  rcases h with h | h <;> simp [h]

theorem apart_of_last {a b : List Char} (h : a.getLast?.all opens = true) :
    Apart charClass a b := by
  intro c hc _
  exact opens_ne ((Option.all_eq_true _ _).mp h c hc)

theorem apart_of_head {a b : List Char} (h : b.head?.all opens = true) :
    Apart charClass a b := by
  intro c _ hsame
  cases b with
  | nil => cases hsame
  | cons d ds =>
      have hd : charClass d = charClass c := by simpa [headIs] using hsame
      rw [← hd]
      exact opens_ne ((Option.all_eq_true _ _).mp h d rfl)

theorem lexemes_ending {s : String} (h : s.toList.getLast?.all opens = true) (b : String) :
    lexemes (s ++ b) = lexemes s ++ lexemes b := by
  unfold lexemes
  rw [String.toList_append]
  exact lex_append (apart_of_last h)

theorem lexemes_starting {s : String} (h : s.toList.head?.all opens = true) (a : String) :
    lexemes (a ++ s) = lexemes a ++ lexemes s := by
  unfold lexemes
  rw [String.toList_append]
  exact lex_append (apart_of_head h)

/-- The end of a text whose last piece ends openly. -/
theorem append_opens {s : String} (h : s.toList.getLast?.any opens = true) (a : String) :
    (a ++ s).toList.getLast?.all opens = true := by
  obtain ⟨c, hc, hopen⟩ := Option.any_eq_true _ _ |>.mp h
  simp [List.getLast?_append, hc, hopen]

/-- Literal text that keeps what stands before and after it apart. -/
def isGap (s : String) : Bool := s.toList.head?.any opens && s.toList.getLast?.any opens

theorem lexemes_gap {s : String} (h : isGap s = true) (a b : String) :
    lexemes (a ++ s ++ b) = lexemes a ++ (lexemes s ++ lexemes b) := by
  simp only [isGap, Bool.and_eq_true] at h
  obtain ⟨c, hc, hopen⟩ := Option.any_eq_true _ _ |>.mp h.1
  rw [lexemes_ending (append_opens h.2 a), lexemes_starting (by simp [hc, hopen]),
    List.append_assoc]

/-! ### The path an operand text stands for -/

def readSubscripts : List Lexeme → Option (List Nat)
  | [] => some []
  | .single '[' :: .word w :: .single ']' :: rest =>
      match readNumber w with
      | some n => (readSubscripts rest).map (n :: ·)
      | none => none
  | _ => none

def segmentPath (segment : String) : Option (String × List Nat) :=
  let subscript := segment.toList.dropWhile (· ≠ '[')
  (readSubscripts (lex charClass subscript)).map fun indices =>
    (String.ofList (segment.toList.takeWhile (· ≠ '[')), indices)

/-- The document path of an operand text, or `none` where what stands from a
`[` on is no list of subscripts. -/
def operandPath (lhs : String) : Option Path := (segments lhs).mapM segmentPath

example : operandPath "a.b[0][12].c" = some [("a", []), ("b", [0, 12]), ("c", [])] := by
  decide +kernel

/-! ### Reading on from a path step -/

def startsWith (c : Char) : List Lexeme → Bool
  | .single d :: _ => c = d
  | _ => false

/-- Nothing here continues a document path. -/
def Stops (rest : List Lexeme) : Prop := startsWith '[' rest = false ∧ startsWith '.' rest = false

theorem readTail_stops {al : Aliases} {name : String} {indices : List Nat} {rest : List Lexeme}
    (h : Stops rest) : readTail al name indices rest = some ([(name, indices)], rest) := by
  obtain ⟨hbracket, hdot⟩ := h
  unfold readTail
  split <;> simp_all [startsWith]

theorem readTail_subscripts {al : Aliases} {name : String} {ls rest : List Lexeme}
    {indices more : List Nat} (h : readSubscripts ls = some more) :
    readTail al name indices (ls ++ rest) = readTail al name (indices ++ more) rest := by
  fun_induction readSubscripts ls generalizing indices more with
  | case1 =>
      cases h
      simp
  | case2 w rest' n hn ih =>
      obtain ⟨tail, htail, rfl⟩ := Option.map_eq_some_iff.mp h
      have hstep : readTail al name indices
          (.single '[' :: .word w :: .single ']' :: (rest' ++ rest)) =
            readTail al name (indices ++ [n]) (rest' ++ rest) := by
        rw [readTail, hn]
      rw [List.cons_append, List.cons_append, List.cons_append, hstep, ih htail]
      simp
  | case3 => cases h
  | case4 => cases h

/-- The lexemes read as the steps `front` and a last one, `name[indices]`,
which what follows may still continue. -/
def Continues (al : Aliases) (ls : List Lexeme) (front : Path) (name : String)
    (indices : List Nat) : Prop :=
  ∀ rest, readPath al (ls ++ rest) =
    (readTail al name indices rest).map fun r => (front ++ r.1, r.2)

theorem Continues.stop {al : Aliases} {ls : List Lexeme} {front : Path} {name : String}
    {indices : List Nat} (h : Continues al ls front name indices) {rest : List Lexeme}
    (hstop : Stops rest) :
    readPath al (ls ++ rest) = some (front ++ [(name, indices)], rest) := by
  rw [h rest, readTail_stops hstop]
  rfl

theorem continues_segment {al : Aliases} {w : List Char} {name : String} {ls : List Lexeme}
    {indices : List Nat} (hname : readName al w = some name)
    (hls : readSubscripts ls = some indices) :
    Continues al (.word w :: ls) [] name indices := by
  intro rest
  rw [List.cons_append, readPath, hname]
  simp [readTail_subscripts hls]

theorem Continues.segment {al : Aliases} {w : List Char} {name next : String}
    {ls ms : List Lexeme} {front : Path} {indices more : List Nat}
    (h : Continues al ls front name indices) (hname : readName al w = some next)
    (hms : readSubscripts ms = some more) :
    Continues al (ls ++ .single '.' :: .word w :: ms) (front ++ [(name, indices)]) next more := by
  intro rest
  have hdot : readTail al name indices (.single '.' :: .word w :: (ms ++ rest)) =
      (readTail al next more rest).map fun r => ((name, indices) :: r.1, r.2) := by
    rw [readTail, hname]
    simp [readTail_subscripts hms]
  rw [List.append_assoc, h]
  simp [hdot, Function.comp_def]

/-! ### Minted names -/

/-- A minted name is one word that every later table resolves. -/
theorem newBare_reads {st st' : SymbolTable} (hst : Valid st) (hst' : Valid st') (name : String)
    (hext : Extends (newBare name st).2 st') :
    lexemes (newBare name st).1 = [.word (newBare name st).1.toList] ∧
      readName st'.aliases (newBare name st).1.toList = some name := by
  obtain ⟨i, _, htoken⟩ := (hst.newBare name).names _ _ (newBare_names name st)
  have hresolved := hst'.getNames (hext.names _ _ (newBare_names name st))
  rw [htoken] at hresolved ⊢
  constructor
  · refine lex_word ?_ (attrToken_word (hst.newBare name).wordPrefix i)
    simp [attrToken]
  · have hhash : (attrToken (newBare name st).2.namePrefix i).toList =
        '#' :: ('a' :: (newBare name st).2.namePrefix.toList ++ (toString i).toList) := by
      simp [attrToken]
    rw [hhash, readName, ← hhash, String.ofList_toList]
    exact hresolved

theorem newSegment_grows (segment : String) : Grows (newSegment segment) :=
  (newBare_grows _).bind fun _ => .pure _

theorem newSegments_grows (token : String) (segments : List String) :
    Grows (newSegments token segments) := by
  induction segments generalizing token with
  | nil => exact .pure token
  | cons segment rest ih => exact (newSegment_grows segment).bind fun _ => ih _

theorem newAttribute_grows (name : String) : Grows (newAttribute name) := newSegments_grows _ _

/-! ### Runs of the table -/

/-- One call of the table. -/
inductive MintStep : SymbolTable → SymbolTable → Prop where
  | name (name : String) (st : SymbolTable) : MintStep st (newAttribute name st).2
  | value (v : Value) (st : SymbolTable) : MintStep st (newValue v st).2

/-- A computation that does nothing to the table but call it. -/
def Mints {α : Type} (x : Alias α) : Prop := ∀ st, Relation.ReflTransGen MintStep st (x st).2

theorem newAttribute_mints (name : String) : Mints (newAttribute name) :=
  fun st => .single (.name name st)

theorem newValue_mints (v : Value) : Mints (newValue v) := fun st => .single (.value v st)

namespace Mints

variable {α β : Type} {x : Alias α} {f : α → Alias β}

theorem pure (a : α) : Mints (Pure.pure a : Alias α) := fun _ => .refl

theorem bind (hx : Mints x) (hf : ∀ a, Mints (f a)) : Mints (x >>= f) :=
  fun st => (hx st).trans (hf (x st).1 (x st).2)

theorem map (hx : Mints x) (g : α → β) : Mints (g <$> x) := hx

theorem grows (hx : Mints x) : Grows x := by
  intro st hst
  have hreach := hx st
  generalize (x st).2 = st' at hreach ⊢
  induction hreach with
  | refl => exact ⟨hst, .refl st⟩
  | tail _ hstep ih =>
      obtain ⟨hmid, hext⟩ := ih
      cases hstep with
      | name name =>
          obtain ⟨hend, hext'⟩ := newAttribute_grows name _ hmid
          exact ⟨hend, hext.trans hext'⟩
      | value v =>
          obtain ⟨hend, hext'⟩ := newValue_grows v _ hmid
          exact ⟨hend, hext.trans hext'⟩

end Mints

theorem newSegment_reads {st st' : SymbolTable} (hst : Valid st) (hst' : Valid st')
    {segment name : String} {indices : List Nat}
    (hpath : segmentPath segment = some (name, indices))
    (hext : Extends (newSegment segment st).2 st') :
    ∃ w ls, lexemes (newSegment segment st).1 = .word w :: ls ∧
      readName st'.aliases w = some name ∧ readSubscripts ls = some indices := by
  obtain ⟨indices', hsub, hsame⟩ := Option.map_eq_some_iff.mp hpath
  obtain ⟨rfl, rfl⟩ := Prod.mk.inj hsame
  obtain ⟨hword, hname⟩ := newBare_reads hst hst' _ hext
  refine ⟨_, lex charClass (segment.toList.dropWhile (· ≠ '[')), ?_, hname, hsub⟩
  have hopen : (segment.toList.dropWhile (· ≠ '[')).head?.all opens = true := by
    have hhead := List.head?_dropWhile_not (· ≠ '[') segment.toList
    cases hcs : (segment.toList.dropWhile (· ≠ '[')).head? with
    | none => rfl
    | some c =>
        rw [hcs] at hhead
        have hc : c = '[' := by simpa using hhead
        rw [hc]
        decide
  have hsplit := lexemes_starting (s := String.ofList (segment.toList.dropWhile (· ≠ '[')))
    (by simpa using hopen) (newBare (String.ofList (segment.toList.takeWhile (· ≠ '['))) st).1
  rw [hword] at hsplit
  simpa [newSegment, lexemes] using hsplit

theorem mapM_cons_eq_some {segment : String} {segments : List String} {path : Path}
    (h : (segment :: segments).mapM segmentPath = some path) :
    ∃ step steps, segmentPath segment = some step ∧ segments.mapM segmentPath = some steps ∧
      path = step :: steps := by
  rw [List.mapM_cons] at h
  obtain ⟨step, hstep, h⟩ := Option.bind_eq_some_iff.mp h
  obtain ⟨steps, hsteps, h⟩ := Option.bind_eq_some_iff.mp h
  cases h
  exact ⟨step, steps, hstep, hsteps, rfl⟩

theorem newSegments_reads {st st' : SymbolTable} (hst : Valid st) (hst' : Valid st')
    {token : String} {front path : Path} {name : String} {indices : List Nat}
    {segments : List String} (htoken : token ≠ "")
    (hread : Continues st'.aliases (lexemes token) front name indices)
    (hpath : segments.mapM segmentPath = some path)
    (hext : Extends (newSegments token segments st).2 st') {rest : List Lexeme}
    (hstop : Stops rest) :
    readPath st'.aliases (lexemes (newSegments token segments st).1 ++ rest) =
      some (front ++ (name, indices) :: path, rest) := by
  induction segments generalizing st token front name indices path with
  | nil =>
      cases hpath
      exact hread.stop hstop
  | cons segment segments ih =>
      obtain ⟨⟨next, more⟩, steps, hseg, hsteps, rfl⟩ := mapM_cons_eq_some hpath
      obtain ⟨hmid, _⟩ := newSegment_grows segment st hst
      simp only [newSegments, Alias.bind_apply, if_neg htoken] at hext ⊢
      have hext' := (newSegments_grows _ segments _ hmid).2.trans hext
      obtain ⟨w, ls, htext, hname, hsub⟩ := newSegment_reads hst hst' hseg hext'
      have hstep := hread.segment hname hsub
      rw [← htext] at hstep
      have hlex : lexemes (token ++ "." ++ (newSegment segment st).1) =
          lexemes token ++ .single '.' :: lexemes (newSegment segment st).1 := by
        rw [lexemes_ending (append_opens (by decide) token), lexemes_starting (by decide)]
        simp [show lexemes "." = [.single '.'] by decide]
      rw [← hlex] at hstep
      have hnext := ih hmid (by simp) hstep hsteps hext
      simpa using hnext

/-- An operand text is spelled as the path it stands for. -/
theorem newAttribute_reads {st st' : SymbolTable} (hst : Valid st) (hst' : Valid st')
    {lhs : String} {path : Path} (hpath : operandPath lhs = some path)
    (hext : Extends (newAttribute lhs st).2 st') {rest : List Lexeme} (hstop : Stops rest) :
    readPath st'.aliases (lexemes (newAttribute lhs st).1 ++ rest) = some (path, rest) := by
  unfold operandPath at hpath
  unfold newAttribute at hext ⊢
  cases hsegs : segments lhs with
  | nil => simp [segments, List.splitOn_ne_nil] at hsegs
  | cons segment more =>
      rw [hsegs] at hpath hext
      obtain ⟨⟨name, indices⟩, steps, hseg, hsteps, rfl⟩ := mapM_cons_eq_some hpath
      obtain ⟨hmid, _⟩ := newSegment_grows segment st hst
      simp only [newSegments, Alias.bind_apply, if_true] at hext ⊢
      have hext' := (newSegments_grows _ more _ hmid).2.trans hext
      obtain ⟨w, ls, htext, hname, hsub⟩ := newSegment_reads hst hst' hseg hext'
      have hread := continues_segment hname hsub
      rw [← htext] at hread
      refine newSegments_reads hmid hst' ?_ hread hsteps hext hstop
      intro hempty
      rw [hempty] at htext
      cases htext

end DdbShell
