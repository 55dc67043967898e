import DdbShell.Lib.Placeholder
import DdbShell.Expressions.PathText
import Mathlib.Data.List.Basic

/-!
The laws of the symbol table over any sequence of calls. In every later table
of the run the text a path was given is the path with each bare name replaced
by its token, so equal texts are equal paths, and replacing the tokens gives
the path back, as long as its subscripts do not spell a token themselves: they
are copied as they are.
-/

namespace DdbShell

open Placeholder
open SymbolTable

/-! ### Tokens in a text -/

inductive AliasKind where
  | name
  | value
  deriving DecidableEq, Repr

def AliasKind.mark : AliasKind → Char
  | .name => '#'
  | .value => ':'

def tokenChar (c : Char) : Bool := c.isAlphanum || c = '_'

/-- The tokens that occur in an expression: a mark and the longest word after
it. -/
def placeholders (kind : AliasKind) (text : String) : List String :=
  (found tokenChar kind.mark text.toList).map String.ofList

/-- The alias prefix of a statement, or any other word. -/
def IsPlain (namePrefix : String) : Prop := ∀ c ∈ namePrefix.toList, tokenChar c = true

theorem charClass_of_tokenChar {c : Char} (h : tokenChar c = true) : charClass c = .word := by
  rw [tokenChar] at h
  simp [charClass, h]

theorem isPlain_uniquePrefix (counter : Nat) : IsPlain (uniquePrefix counter) := by
  have hdigits : ∀ length value, ∀ c ∈ prefixDigits length value, tokenChar c = true := by
    intro length
    induction length with
    | zero => simp [prefixDigits]
    | succ length ih =>
        intro value c hc
        rcases List.mem_cons.mp hc with rfl | hc
        · have hall : ∀ c ∈ prefixChars, tokenChar c = true :=
            List.all_eq_true.mp (by decide +kernel)
          have hlt := Nat.mod_lt value (show 0 < prefixChars.length by decide)
          rw [List.getD_eq_getElem?_getD, List.getElem?_eq_getElem hlt]
          exact hall _ (List.getElem_mem hlt)
        · exact ih _ c hc
  intro c hc
  rw [uniquePrefix, String.toList_ofList] at hc
  exact hdigits 3 counter c hc

/-- What follows the mark of a token. -/
def tokenWord (letter : Char) (namePrefix : String) (i : Nat) : List Char :=
  letter :: (namePrefix.toList ++ (toString i).toList)

theorem attrToken_toList (p : String) (i : Nat) :
    (attrToken p i).toList = '#' :: tokenWord 'a' p i := by
  simp [attrToken, tokenWord]

theorem valueToken_toList (p : String) (i : Nat) :
    (valueToken p i).toList = ':' :: tokenWord 'v' p i := by
  simp [valueToken, tokenWord]

theorem tokenChar_tokenWord {letter : Char} (hletter : tokenChar letter = true) {p : String}
    (hp : IsPlain p) (i : Nat) : ∀ c ∈ tokenWord letter p i, tokenChar c = true := by
  intro c hc
  rcases List.mem_cons.mp hc with rfl | hc
  · exact hletter
  · rcases List.mem_append.mp hc with hc | hc
    · exact hp c hc
    · rw [Nat.toString_eq_ofList_toDigits, String.toList_ofList] at hc
      have hdigit := Nat.isDigit_of_mem_toDigits (by decide) (by decide) hc
      simp [tokenChar, Char.isAlphanum, hdigit]

theorem notMem_tokenWord {letter c : Char} (hletter : tokenChar letter = true) {p : String}
    (hp : IsPlain p) (i : Nat) (hc : tokenChar c = false) : c ∉ tokenWord letter p i := by
  intro hmem
  rw [tokenChar_tokenWord hletter hp i c hmem] at hc
  cases hc

/-! ### The text of a path -/

/-- The dot-separated pieces of a path. -/
def pieces (path : String) : List (List Char) := path.toList.splitOn '.'

def bareOf (piece : List Char) : List Char := piece.takeWhile (· ≠ '[')

def subscriptOf (piece : List Char) : List Char := piece.dropWhile (· ≠ '[')

theorem bareOf_append_subscriptOf (piece : List Char) : bareOf piece ++ subscriptOf piece = piece :=
  List.takeWhile_append_dropWhile

/-- The token a table has for a name. -/
def tokenOf (st : SymbolTable) (name : List Char) : List Char :=
  (st.names[String.ofList name]?.getD "").toList

def pieceText (st : SymbolTable) (piece : List Char) : List Char :=
  tokenOf st (bareOf piece) ++ subscriptOf piece

/-- The text of a path in a table that knows its names. -/
def pathText (st : SymbolTable) (path : String) : String :=
  String.ofList (['.'].intercalate ((pieces path).map (pieceText st)))

/-- Every name of the path has a token. -/
def Knows (st : SymbolTable) (path : String) : Prop :=
  ∀ piece ∈ pieces path, ∃ token, st.names[String.ofList (bareOf piece)]? = some token

theorem newSegment_eq (piece : List Char) (st : SymbolTable) :
    newSegment (String.ofList piece) st =
      ((newBare (String.ofList (bareOf piece)) st).1 ++ String.ofList (subscriptOf piece),
        (newBare (String.ofList (bareOf piece)) st).2) := by
  simp [newSegment, bareOf, subscriptOf]

theorem newSegment_text {piece : List Char} {st st' : SymbolTable}
    (hext : Extends (newSegment (String.ofList piece) st).2 st') :
    (newSegment (String.ofList piece) st).1.toList = pieceText st' piece ∧
      ∃ token, st'.names[String.ofList (bareOf piece)]? = some token := by
  rw [newSegment_eq] at hext ⊢
  have hname := hext.names _ _ (newBare_names (String.ofList (bareOf piece)) st)
  refine ⟨?_, _, hname⟩
  rw [pieceText, tokenOf, hname, Option.getD_some, String.toList_append, String.toList_ofList]

theorem newBare_ne_empty {st : SymbolTable} (hst : Valid st) (name : String) :
    (newBare name st).1 ≠ "" := by
  obtain ⟨i, -, htoken⟩ := (hst.newBare name).names _ _ (newBare_names name st)
  rw [htoken]
  intro hempty
  have hlist := congrArg String.toList hempty
  rw [attrToken_toList] at hlist
  cases hlist

theorem newSegment_ne_empty {st : SymbolTable} (hst : Valid st) (piece : List Char) :
    (newSegment (String.ofList piece) st).1 ≠ "" := by
  rw [newSegment_eq]
  intro hempty
  exact newBare_ne_empty hst _ (String.append_eq_empty_iff.mp hempty).1

/-- A text that was begun, and the pieces that follow it. -/
theorem newSegments_text {front : String} (hfront : front ≠ "") {ws : List (List Char)}
    {st st' : SymbolTable} (hst : Valid st)
    (hext : Extends (newSegments front (ws.map String.ofList) st).2 st') :
    (newSegments front (ws.map String.ofList) st).1.toList =
        ['.'].intercalate (front.toList :: ws.map (pieceText st')) ∧
      ∀ w ∈ ws, ∃ token, st'.names[String.ofList (bareOf w)]? = some token := by
  induction ws generalizing front st with
  | nil => simp [newSegments]
  | cons w ws ih =>
      rw [List.map_cons, newSegments, Alias.bind_apply, if_neg hfront] at hext ⊢
      have hmid : Valid (newSegment (String.ofList w) st).2 := (newSegment_grows _ st hst).1
      have hne : front ++ "." ++ (newSegment (String.ofList w) st).1 ≠ "" := by
        intro hempty
        exact newSegment_ne_empty hst w (String.append_eq_empty_iff.mp hempty).2
      obtain ⟨htext, hknown⟩ := ih hne hmid hext
      obtain ⟨hw, hname⟩ := newSegment_text ((newSegments_grows _ _ _ hmid).2.trans hext)
      refine ⟨?_, ?_⟩
      · rw [htext, List.map_cons, ← hw]
        cases ws with
        | nil => simp
        | cons v vs => simp
      · intro v hv
        rcases List.mem_cons.mp hv with rfl | hv
        · exact hname
        · exact hknown v hv

/-- In every later table of the run the text of a path is the path with its
names replaced by their tokens. -/
theorem newAttribute_text {path : String} {st st' : SymbolTable} (hst : Valid st)
    (hext : Extends (newAttribute path st).2 st') :
    (newAttribute path st).1 = pathText st' path ∧ Knows st' path := by
  unfold newAttribute segments at hext ⊢
  unfold pathText Knows
  change Extends (newSegments "" ((pieces path).map String.ofList) st).2 st' at hext
  change (newSegments "" ((pieces path).map String.ofList) st).1 = _ ∧ _
  cases hpieces : pieces path with
  | nil => exact absurd hpieces (List.splitOnP_ne_nil _ _)
  | cons w ws =>
      rw [hpieces, List.map_cons, newSegments, Alias.bind_apply, if_pos rfl] at hext
      rw [List.map_cons, newSegments, Alias.bind_apply, if_pos rfl]
      have hmid : Valid (newSegment (String.ofList w) st).2 := (newSegment_grows _ st hst).1
      obtain ⟨htext, hknown⟩ := newSegments_text (newSegment_ne_empty hst w) hmid hext
      obtain ⟨hw, hname⟩ := newSegment_text ((newSegments_grows _ _ _ hmid).2.trans hext)
      refine ⟨?_, ?_⟩
      · rw [← String.toList_inj, htext, String.toList_ofList, List.map_cons, hw]
      · intro v hv
        rcases List.mem_cons.mp hv with rfl | hv
        · exact hname
        · exact hknown v hv

/-! ### Paths from their texts -/

theorem eq_intercalate_pieces (path : String) :
    path = String.ofList (['.'].intercalate (pieces path)) := by
  rw [pieces, List.intercalate_splitOn, String.ofList_toList]

theorem notMem_of_mem_splitOn {c : Char} {cs piece : List Char} (h : piece ∈ cs.splitOn c) :
    c ∉ piece := by
  induction cs generalizing piece with
  | nil =>
      rw [List.splitOn_nil, List.mem_singleton] at h
      simp [h]
  | cons d ds ih =>
      rw [List.splitOn_cons_eq_if_modifyHead] at h
      split at h
      · rcases List.mem_cons.mp h with rfl | h
        · simp
        · exact ih h
      · rename_i hd
        cases hsplit : ds.splitOn c with
        | nil => exact absurd hsplit (List.splitOn_ne_nil c ds)
        | cons w ws =>
            rw [hsplit, List.modifyHead_cons] at h
            rcases List.mem_cons.mp h with rfl | h
            · have hw := ih (hsplit ▸ List.mem_cons_self)
              have hne : c ≠ d := fun heq => hd (by simp [heq])
              simp [hne, hw]
            · exact ih (hsplit ▸ List.mem_cons_of_mem _ h)

/-- Nothing but a subscript has a `[`, and it starts with one. -/
theorem subscriptOf_cases (piece : List Char) :
    subscriptOf piece = [] ∨ ∃ rest, subscriptOf piece = '[' :: rest := by
  cases h : subscriptOf piece with
  | nil => exact .inl rfl
  | cons c rest =>
      have hc := List.head?_dropWhile_not (fun c => decide (c ≠ '[')) piece
      rw [show piece.dropWhile (fun c => decide (c ≠ '[')) = c :: rest from h] at hc
      have heq : c = '[' := by simpa using hc
      exact .inr ⟨rest, by rw [heq]⟩

theorem eq_of_map_eq {α β : Type} {f : α → β} {xs ys : List α}
    (hinj : ∀ x ∈ xs, ∀ y ∈ ys, f x = f y → x = y) (h : xs.map f = ys.map f) : xs = ys := by
  induction xs generalizing ys with
  | nil => rw [List.map_nil, eq_comm, List.map_eq_nil_iff] at h; rw [h]
  | cons x xs ih =>
      cases ys with
      | nil => cases h
      | cons y ys =>
          obtain ⟨hhead, htail⟩ := List.cons.inj h
          rw [hinj x List.mem_cons_self y List.mem_cons_self hhead,
            ih (fun a ha b hb => hinj a (List.mem_cons_of_mem _ ha) b (List.mem_cons_of_mem _ hb))
              htail]

section Known

variable {st : SymbolTable} (hst : Valid st) (hplain : IsPlain st.namePrefix)

include hst

theorem tokenOf_eq {piece : List Char}
    (h : ∃ token, st.names[String.ofList (bareOf piece)]? = some token) :
    ∃ i, tokenOf st (bareOf piece) = '#' :: tokenWord 'a' st.namePrefix i := by
  obtain ⟨token, htoken⟩ := h
  obtain ⟨i, -, rfl⟩ := hst.names _ _ htoken
  exact ⟨i, by rw [tokenOf, htoken, Option.getD_some, attrToken_toList]⟩

theorem tokenOf_injective {piece piece' : List Char}
    (h : ∃ token, st.names[String.ofList (bareOf piece)]? = some token)
    (h' : ∃ token, st.names[String.ofList (bareOf piece')]? = some token)
    (heq : tokenOf st (bareOf piece) = tokenOf st (bareOf piece')) :
    bareOf piece = bareOf piece' := by
  obtain ⟨token, htoken⟩ := h
  obtain ⟨token', htoken'⟩ := h'
  rw [tokenOf, tokenOf, htoken, htoken', Option.getD_some, Option.getD_some,
    String.toList_inj] at heq
  subst heq
  exact String.ofList_injective (hst.injective _ _ _ htoken htoken')

include hplain

theorem pieceText_injective {piece piece' : List Char}
    (h : ∃ token, st.names[String.ofList (bareOf piece)]? = some token)
    (h' : ∃ token, st.names[String.ofList (bareOf piece')]? = some token)
    (heq : pieceText st piece = pieceText st piece') : piece = piece' := by
  have hcut : ∀ w, (∃ token, st.names[String.ofList (bareOf w)]? = some token) →
      bareOf (pieceText st w) = tokenOf st (bareOf w) ∧
        subscriptOf (pieceText st w) = subscriptOf w := by
    intro w hw
    obtain ⟨i, htoken⟩ := tokenOf_eq hst hw
    have hbracket : '[' ∉ tokenOf st (bareOf w) := by
      rw [htoken, List.mem_cons, not_or]
      exact ⟨by decide, notMem_tokenWord (by decide) hplain i (by decide)⟩
    have hkeep : ∀ c ∈ tokenOf st (bareOf w), decide (c ≠ '[') = true := by
      intro c hc
      simpa using fun hc' : c = '[' => hbracket (hc' ▸ hc)
    have hstop : (subscriptOf w).takeWhile (fun c => decide (c ≠ '[')) = [] ∧
        (subscriptOf w).dropWhile (fun c => decide (c ≠ '[')) = subscriptOf w := by
      rcases subscriptOf_cases w with hsub | ⟨rest, hsub⟩ <;> simp [hsub]
    rw [pieceText]
    constructor
    · rw [bareOf, List.takeWhile_append_of_pos hkeep, hstop.1, List.append_nil]
    · rw [subscriptOf, List.dropWhile_append_of_pos hkeep, hstop.2]
  have hbare := congrArg bareOf heq
  have hsub := congrArg subscriptOf heq
  rw [(hcut piece h).1, (hcut piece' h').1] at hbare
  rw [(hcut piece h).2, (hcut piece' h').2] at hsub
  rw [← bareOf_append_subscriptOf piece, ← bareOf_append_subscriptOf piece',
    tokenOf_injective hst h h' hbare, hsub]

/-- Equal texts are equal paths. -/
theorem pathText_injective {path path' : String} (h : Knows st path) (h' : Knows st path')
    (heq : pathText st path = pathText st path') : path = path' := by
  have hdots : ∀ p, Knows st p → ∀ text ∈ (pieces p).map (pieceText st), '.' ∉ text := by
    intro p hp text htext
    obtain ⟨w, hw, rfl⟩ := List.mem_map.mp htext
    obtain ⟨i, htoken⟩ := tokenOf_eq hst (hp w hw)
    rw [pieceText, htoken, List.mem_append, List.mem_cons, not_or, not_or]
    refine ⟨⟨by decide, notMem_tokenWord (by decide) hplain i (by decide)⟩, fun hmem => ?_⟩
    exact notMem_of_mem_splitOn hw ((List.dropWhile_sublist _).subset hmem)
  have hsome : ∀ p, (pieces p).map (pieceText st) ≠ [] := by
    intro p hnil
    exact List.splitOn_ne_nil '.' p.toList (List.map_eq_nil_iff.mp hnil)
  have htexts : (pieces path).map (pieceText st) = (pieces path').map (pieceText st) := by
    have hsplit := congrArg (List.splitOn '.') (String.ofList_injective heq)
    rwa [List.splitOn_intercalate '.' (hdots path h) (hsome path),
      List.splitOn_intercalate '.' (hdots path' h') (hsome path')] at hsplit
  have hpieces : pieces path = pieces path' :=
    eq_of_map_eq (fun w hw w' hw' => pieceText_injective hst hplain (h w hw) (h' w' hw')) htexts
  rw [eq_intercalate_pieces path, eq_intercalate_pieces path', hpieces]

end Known

/-! ### Putting the names back -/

/-- The tokens a path's subscripts spell. -/
def strays (kind : AliasKind) (path : String) : List String :=
  (pieces path).flatMap fun piece =>
    (found tokenChar kind.mark (subscriptOf piece)).map String.ofList

/-- A subscript, and the text after it, do not run on from a token. -/
theorem opens_subscriptOf (piece : List Char) {rest : List Char} (h : Opens tokenChar rest) :
    Opens tokenChar (subscriptOf piece ++ rest) := by
  rcases subscriptOf_cases piece with hsub | ⟨more, hsub⟩
  · rwa [hsub]
  · rw [hsub]
    rfl

/-- The tokens a path's text has of its own. -/
def ownTokens (kind : AliasKind) (st : SymbolTable) (path : String) : List String :=
  match kind with
  | .name => (pieces path).map fun piece => String.ofList (tokenOf st (bareOf piece))
  | .value => []

/-- The tokens of a path's text are those of its names and those its subscripts
spell. -/
theorem mem_placeholders_pathText {st : SymbolTable} (hst : Valid st)
    (hplain : IsPlain st.namePrefix) {path : String} (hknown : Knows st path) (kind : AliasKind)
    (token : String) :
    token ∈ placeholders kind (pathText st path) ↔
      token ∈ ownTokens kind st path ∨ token ∈ strays kind path := by
  have hpiece : ∀ piece ∈ pieces path, found tokenChar kind.mark (pieceText st piece) =
      (match kind with | .name => [tokenOf st (bareOf piece)] | .value => []) ++
        found tokenChar kind.mark (subscriptOf piece) := by
    intro piece hmem
    obtain ⟨i, htoken⟩ := tokenOf_eq hst (hknown piece hmem)
    have hopen : Opens tokenChar (subscriptOf piece) := by
      have happend := opens_subscriptOf piece (show Opens tokenChar [] from rfl)
      rwa [List.append_nil] at happend
    have hword := tokenChar_tokenWord (show tokenChar 'a' = true by decide) hplain i
    rw [pieceText, found_append hopen, htoken]
    cases kind with
    | name => exact congrArg (· ++ _) (found_single
        (notMem_tokenWord (by decide) hplain i (by decide)) hword)
    | value => exact congrArg (· ++ _) (found_of_notMem (by
        rw [List.mem_cons, not_or]
        exact ⟨by decide, notMem_tokenWord (by decide) hplain i (by decide)⟩))
  have hfound : found tokenChar kind.mark (pathText st path).toList =
      (pieces path).flatMap fun piece =>
        (match kind with | .name => [tokenOf st (bareOf piece)] | .value => []) ++
          found tokenChar kind.mark (subscriptOf piece) := by
    rw [pathText, String.toList_ofList, found_intercalate (by decide) (by cases kind <;> decide),
      List.flatMap_map]
    exact List.flatMap_congr hpiece
  rw [placeholders, hfound, strays]
  cases kind with
  | name =>
      simp only [List.mem_map, List.mem_flatMap, List.mem_append, List.mem_singleton, ownTokens]
      constructor
      · rintro ⟨text, ⟨piece, hmem, rfl | htext⟩, rfl⟩
        · exact .inl ⟨piece, hmem, rfl⟩
        · exact .inr ⟨piece, hmem, text, htext, rfl⟩
      · rintro (⟨piece, hmem, rfl⟩ | ⟨piece, hmem, text, htext, rfl⟩)
        · exact ⟨_, ⟨piece, hmem, .inl rfl⟩, rfl⟩
        · exact ⟨text, ⟨piece, hmem, .inr htext⟩, rfl⟩
  | value =>
      simp only [ownTokens, List.nil_append, List.map_flatMap, List.not_mem_nil, false_or]

/-- Replace every token of a text by the name the table gives for it. -/
def restoreNames (st : SymbolTable) (text : String) : String :=
  String.ofList (substitute tokenChar '#'
    (fun token => st.getNames[String.ofList token]?.map String.toList) 0 text.toList)

theorem getNames_eq_some {st : SymbolTable} {name token : String}
    (h : st.getNames[token]? = some name) : st.names[name]? = some token := by
  have hfold : st.getNames = (st.names.toList.map Prod.swap).foldl
      (fun inverted entry => inverted.insertIfNew entry.1 entry.2) ∅ := by
    rw [SymbolTable.getNames, List.foldl_map]
    rfl
  rw [hfold, Maps.foldl_insertIfNew_getElem?, Std.TreeMap.getElem?_emptyc, Option.none_or] at h
  obtain ⟨before, after, hsplit, -⟩ := List.lookup_eq_some_iff.mp h
  have hmem : (token, name) ∈ st.names.toList.map Prod.swap := by simp [hsplit]
  obtain ⟨entry, hentry, hswap⟩ := List.mem_map.mp hmem
  cases hswap
  exact Std.TreeMap.mem_toList_iff_getElem?_eq_some.mp hentry

section Restore

variable {st : SymbolTable} (hst : Valid st) (hplain : IsPlain st.namePrefix)

include hst hplain

/-- One piece, whatever comes after it. -/
theorem substitute_pieceText {piece rest : List Char} (hrest : Opens tokenChar rest)
    (hknown : ∃ token, st.names[String.ofList (bareOf piece)]? = some token)
    (hstray : ∀ token ∈ found tokenChar '#' (subscriptOf piece),
      st.getNames[String.ofList token]? = none) :
    substitute tokenChar '#' (fun token => st.getNames[String.ofList token]?.map String.toList) 0
        (pieceText st piece ++ rest) =
      piece ++ substitute tokenChar '#'
        (fun token => st.getNames[String.ofList token]?.map String.toList) 0 rest := by
  obtain ⟨token, htoken⟩ := hknown
  obtain ⟨i, -, rfl⟩ := hst.names _ _ htoken
  have htext : pieceText st piece ++ rest =
      '#' :: tokenWord 'a' st.namePrefix i ++ (subscriptOf piece ++ rest) := by
    rw [pieceText, tokenOf, htoken, Option.getD_some, attrToken_toList, List.append_assoc]
  have hname : (st.getNames[String.ofList ('#' :: tokenWord 'a' st.namePrefix i)]?).map
      String.toList = some (bareOf piece) := by
    rw [← attrToken_toList, String.ofList_toList, hst.getNames htoken, Option.map_some,
      String.toList_ofList]
  rw [htext, substitute_known (tokenChar_tokenWord (by decide) hplain i)
      (opens_subscriptOf piece hrest) hname,
    substitute_unknown hrest (fun token htoken => by rw [hstray token htoken]; rfl),
    ← List.append_assoc, bareOf_append_subscriptOf]

/-- Replacing the tokens of a path's text gives the path. -/
theorem restoreNames_pathText {path : String} (hknown : Knows st path)
    (hstray : ∀ token ∈ strays .name path, st.getNames[token]? = none) :
    restoreNames st (pathText st path) = path := by
  have hpieces : ∀ ws : List (List Char),
      (∀ w ∈ ws, ∃ token, st.names[String.ofList (bareOf w)]? = some token) →
      (∀ w ∈ ws, ∀ token ∈ found tokenChar '#' (subscriptOf w),
        st.getNames[String.ofList token]? = none) →
      substitute tokenChar '#' (fun token => st.getNames[String.ofList token]?.map String.toList) 0
        (['.'].intercalate (ws.map (pieceText st))) = ['.'].intercalate ws := by
    intro ws hknown hstray
    induction ws with
    | nil => rfl
    | cons w ws ih =>
        have hw := hknown w List.mem_cons_self
        have hs := hstray w List.mem_cons_self
        have hrest := ih (fun v hv => hknown v (List.mem_cons_of_mem _ hv))
          (fun v hv => hstray v (List.mem_cons_of_mem _ hv))
        cases ws with
        | nil =>
            have hone := substitute_pieceText hst hplain (show Opens tokenChar [] from rfl) hw hs
            simpa [substitute] using hone
        | cons v vs =>
            have hdot : Opens tokenChar ('.' :: ['.'].intercalate ((v :: vs).map (pieceText st))) :=
              rfl
            rw [List.map_cons, List.map_cons, List.intercalate_cons_cons,
              List.intercalate_cons_cons, ← List.map_cons, List.append_assoc, List.singleton_append,
              substitute_pieceText hst hplain hdot hw hs, substitute, if_neg (by decide), hrest]
            simp
  rw [restoreNames, pathText, String.toList_ofList, hpieces _ hknown ?_, ← eq_intercalate_pieces]
  intro w hw token htoken
  exact hstray _ (List.mem_flatMap.mpr ⟨w, hw, List.mem_map_of_mem htoken⟩)

end Restore

/-! ### Runs -/

inductive AliasCall where
  | newAttribute (path : String)
  | newValue (v : Value)

namespace AliasCall

def make : AliasCall → Alias String
  | .newAttribute path => SymbolTable.newAttribute path
  | .newValue v => SymbolTable.newValue v

def isValue : AliasCall → Bool
  | .newAttribute _ => false
  | .newValue _ => true

theorem make_mints (c : AliasCall) : Mints c.make := by
  cases c with
  | newAttribute path => exact newAttribute_mints path
  | newValue v => exact newValue_mints v

end AliasCall

/-- Make the calls in order and keep what each returned. -/
def runCalls : List AliasCall → Alias (List (AliasCall × String))
  | [] => return []
  | c :: cs => do
      let token ← c.make
      return (c, token) :: (← runCalls cs)

theorem runCalls_mints (cs : List AliasCall) : Mints (runCalls cs) := by
  induction cs with
  | nil => exact .pure _
  | cons c cs ih => exact c.make_mints.bind fun _ => ih.bind fun _ => .pure _

/-- Every result was returned by a table that the last one extends. -/
theorem mem_runCalls {cs : List AliasCall} {st : SymbolTable} (hst : Valid st)
    {entry : AliasCall × String} (h : entry ∈ (runCalls cs st).1) :
    ∃ before, Valid before ∧ entry.2 = (entry.1.make before).1 ∧
      Extends (entry.1.make before).2 (runCalls cs st).2 := by
  induction cs generalizing st with
  | nil => cases h
  | cons c cs ih =>
      have hmid := (c.make_mints.grows st hst).1
      rw [runCalls] at h ⊢
      simp only [Alias.bind_apply, Alias.pure_apply] at h ⊢
      rcases List.mem_cons.mp h with rfl | h
      · exact ⟨st, hst, rfl, ((runCalls_mints cs).grows _ hmid).2⟩
      · exact ih hmid h

theorem newValue_fresh {st : SymbolTable} (hst : Valid st) (v : Value) :
    (newValue v st).1 ∉ st.values := by
  intro hmem
  obtain ⟨x, hx⟩ := Option.isSome_iff_exists.mp (Std.TreeMap.mem_iff_isSome_getElem?.mp hmem)
  obtain ⟨i, hi, hsame⟩ := hst.values _ _ hx
  have hix := valueToken_injective hsame
  omega

/-- The values of a run have tokens the table did not have before it. -/
theorem runCalls_fresh {cs : List AliasCall} {st : SymbolTable} (hst : Valid st)
    {entry : AliasCall × String} (h : entry ∈ (runCalls cs st).1)
    (hvalue : entry.1.isValue = true) : entry.2 ∉ st.values := by
  induction cs generalizing st with
  | nil => cases h
  | cons c cs ih =>
      obtain ⟨hmid, hext⟩ := c.make_mints.grows st hst
      rw [runCalls] at h
      simp only [Alias.bind_apply, Alias.pure_apply] at h
      rcases List.mem_cons.mp h with rfl | h
      · cases c with
        | newAttribute path => cases hvalue
        | newValue v => exact newValue_fresh hst v
      · intro hmem
        refine ih hmid h ?_
        obtain ⟨x, hx⟩ := Option.isSome_iff_exists.mp (Std.TreeMap.mem_iff_isSome_getElem?.mp hmem)
        exact Std.TreeMap.mem_iff_isSome_getElem?.mpr (by rw [hext.values _ _ hx]; rfl)

/-- The text of a path starts with a token. -/
theorem newAttribute_head {st : SymbolTable} (hst : Valid st) (path : String) :
    (newAttribute path st).1.toList.head? = some '#' := by
  obtain ⟨htext, hknown⟩ := newAttribute_text hst (.refl (newAttribute path st).2)
  have hvalid := (newAttribute_grows path st hst).1
  rw [htext, pathText, String.toList_ofList]
  unfold Knows at hknown
  cases hpieces : pieces path with
  | nil => exact absurd hpieces (List.splitOn_ne_nil _ _)
  | cons w ws =>
      obtain ⟨i, htoken⟩ := tokenOf_eq hvalid (hknown w (hpieces ▸ List.mem_cons_self))
      cases ws with
      | nil => simp [pieceText, htoken]
      | cons v vs => simp [pieceText, htoken]

/-- The laws of a run: one text for each path, a name for each token in the
map, and a fresh token for each value, bound to it. -/
structure AliasLaws (log : List (AliasCall × String)) (st : SymbolTable) : Prop where
  same_iff : ∀ {p r p' r'}, (.newAttribute p, r) ∈ log → (.newAttribute p', r') ∈ log →
    (r = r' ↔ p = p')
  bound : ∀ {v r}, (.newValue v, r) ∈ log → st.values[r]? = some v
  fresh : log.Pairwise fun earlier later => later.1.isValue = true → later.2 ≠ earlier.2

theorem runCalls_text {cs : List AliasCall} {st : SymbolTable} (hst : Valid st) {p r : String}
    (h : (.newAttribute p, r) ∈ (runCalls cs st).1) :
    r = pathText (runCalls cs st).2 p ∧ Knows (runCalls cs st).2 p := by
  obtain ⟨before, hbefore, hresult, hafter⟩ := mem_runCalls hst h
  dsimp only [AliasCall.make] at hresult hafter
  rw [hresult]
  exact newAttribute_text hbefore hafter

theorem runCalls_laws {st : SymbolTable} (hst : Valid st) (hplain : IsPlain st.namePrefix)
    (cs : List AliasCall) : AliasLaws (runCalls cs st).1 (runCalls cs st).2 := by
  obtain ⟨hlast, hextends⟩ := (runCalls_mints cs).grows st hst
  have hplain' : IsPlain (runCalls cs st).2.namePrefix := hextends.samePrefix ▸ hplain
  refine ⟨?_, ?_, ?_⟩
  · intro p r p' r' h h'
    obtain ⟨rfl, hknown⟩ := runCalls_text hst h
    obtain ⟨rfl, hknown'⟩ := runCalls_text hst h'
    constructor
    · exact pathText_injective hlast hplain' hknown hknown'
    · rintro rfl
      rfl
  · intro v r h
    obtain ⟨before, hbefore, hresult, hafter⟩ := mem_runCalls hst h
    dsimp only [AliasCall.make] at hresult hafter
    rw [hresult]
    exact hafter.values _ _ (newValue_values hbefore v)
  · clear hplain' hlast hextends
    induction cs generalizing st with
    | nil => exact .nil
    | cons c cs ih =>
        obtain ⟨hmid, hext⟩ := c.make_mints.grows st hst
        rw [runCalls]
        simp only [Alias.bind_apply, Alias.pure_apply]
        refine .cons ?_ (ih hmid (hext.samePrefix ▸ hplain))
        intro later hlater hvalue heq
        have hnew := runCalls_fresh hmid hlater hvalue
        cases c with
        | newValue v =>
            have hold : ((AliasCall.newValue v).make st).2.values[
                ((AliasCall.newValue v).make st).1]? = some v := newValue_values hst v
            rw [heq] at hnew
            exact hnew (Std.TreeMap.mem_iff_isSome_getElem?.mpr (by
              rw [hold]
              rfl))
        | newAttribute path =>
            have hmark := newAttribute_head hst path
            obtain ⟨before, -, hresult, -⟩ := mem_runCalls hmid hlater
            obtain ⟨call, token⟩ := later
            cases call with
            | newAttribute other => cases hvalue
            | newValue v =>
                have hcolon : token.toList =
                    ':' :: tokenWord 'v' before.namePrefix before.valueIx := by
                  rw [show token = valueToken before.namePrefix before.valueIx from hresult,
                    valueToken_toList]
                rw [← show token = (newAttribute path st).1 from heq, hcolon] at hmark
                cases hmark

/-! ### Restoring a path after every run -/

theorem runCalls_append (cs ds : List AliasCall) (st : SymbolTable) :
    runCalls (cs ++ ds) st =
      ((runCalls cs st).1 ++ (runCalls ds (runCalls cs st).2).1,
        (runCalls ds (runCalls cs st).2).2) := by
  induction cs generalizing st with
  | nil => rfl
  | cons c cs ih =>
      rw [List.cons_append, runCalls, runCalls]
      simp only [Alias.bind_apply, Alias.pure_apply, ih, List.cons_append]

def freshTable (namePrefix : String) : SymbolTable := ⟨namePrefix, 1, 1, ∅, ∅⟩

theorem valid_freshTable {namePrefix : String} (h : IsPlain namePrefix) :
    Valid (freshTable namePrefix) :=
  valid_empty fun c hc => charClass_of_tokenChar (h c hc)

/-- A name of that many characters. -/
def filler (n : Nat) : String := String.ofList (List.replicate n 'x')

theorem newAttribute_filler (n : Nat) : newAttribute (filler n) = newBare (filler n) := by
  have hall : ∀ c ∈ List.replicate n 'x', c ≠ '.' ∧ c ≠ '[' := by
    intro c hc
    rw [List.eq_of_mem_replicate hc]
    decide
  have hsplit : (List.replicate n 'x').splitOn '.' = [List.replicate n 'x'] := by
    refine List.splitOnP_eq_singleton fun c hc => ?_
    simpa using (hall c hc).1
  have hkeep : ∀ c ∈ List.replicate n 'x', decide (c ≠ '[') = true := by
    intro c hc
    simpa using (hall c hc).2
  funext st
  rw [newAttribute, segments, filler, String.toList_ofList, hsplit, List.map_singleton, newSegments,
    Alias.bind_apply, if_pos rfl, newSegment_eq, bareOf, subscriptOf,
    List.takeWhile_eq_self_iff.mpr hkeep, List.dropWhile_eq_nil_iff.mpr hkeep]
  simp only [newSegments, String.ofList_nil, String.append_empty]
  rfl

/-- Give tokens to `count` long names. -/
def longCalls (long count : Nat) : List AliasCall :=
  (List.range count).map fun k => .newAttribute (filler (long + k))

theorem filler_injective {m n : Nat} (h : filler m = filler n) : m = n := by
  have hlength := congrArg List.length (String.ofList_injective h)
  rwa [List.length_replicate, List.length_replicate] at hlength

/-- After them the next number is free, and the last one has a long name. -/
theorem runCalls_long {namePrefix : String} (hplain : IsPlain namePrefix) (long count : Nat) :
    let st := (runCalls (longCalls long count) (freshTable namePrefix)).2
    st.attrIx = count + 1 ∧ (∀ k, count ≤ k → st.names[filler (long + k)]? = none) ∧
      ∀ k, k + 1 = count → st.names[filler (long + k)]? = some (attrToken namePrefix count) := by
  induction count with
  | zero =>
      refine ⟨rfl, fun k _ => ?_, fun k hk => ?_⟩
      · exact Std.TreeMap.getElem?_emptyc
      · omega
  | succ count ih =>
      have hgrown := (runCalls_mints (longCalls long count)).grows _ (valid_freshTable hplain)
      have hsame := hgrown.2.samePrefix
      obtain ⟨hix, hnone, -⟩ := ih
      have hlast := hnone count (Nat.le_refl _)
      have hsplit : longCalls long (count + 1) =
          longCalls long count ++ [.newAttribute (filler (long + count))] := by
        simp [longCalls, List.range_succ]
      rw [hsplit, runCalls_append]
      generalize (runCalls (longCalls long count) (freshTable namePrefix)).2 = st at *
      simp only [runCalls, AliasCall.make, newAttribute_filler, Alias.bind_apply, Alias.pure_apply]
      have hnew : newBare (filler (long + count)) st = (attrToken namePrefix (count + 1),
          { st with
            attrIx := st.attrIx + 1
            names := st.names.insertIfNew (filler (long + count))
              (attrToken namePrefix (count + 1)) }) := by
        rw [newBare, hlast, hix, hsame]
        rfl
      have hfree : filler (long + count) ∉ st.names := by
        simp [Std.TreeMap.mem_iff_isSome_getElem?, hlast]
      rw [hnew]
      refine ⟨by simp [hix], fun k hk => ?_, fun k hk => ?_⟩
      · have hne : filler (long + count) ≠ filler (long + k) := by
          intro heq
          have hlong := filler_injective heq
          omega
        simp only [Std.TreeMap.getElem?_insertIfNew]
        rw [if_neg (by simpa using fun heq => absurd heq hne), hnone k (by omega)]
      · obtain rfl : k = count := by omega
        simp only [Std.TreeMap.getElem?_insertIfNew]
        rw [if_pos ⟨by simp, hfree⟩]

/-- Every token has a number from 1 on. -/
def Numbered (st : SymbolTable) : Prop :=
  0 < st.attrIx ∧ ∀ name token : String, st.names[name]? = some token →
    ∃ i, 0 < i ∧ token = attrToken st.namePrefix i

theorem Numbered.newBare {st : SymbolTable} (h : Numbered st) (name : String) :
    Numbered (newBare name st).2 := by
  unfold SymbolTable.newBare
  cases hname : st.names[name]? with
  | some known => exact h
  | none =>
      refine ⟨Nat.succ_pos _, fun other token ht => ?_⟩
      simp only [Std.TreeMap.getElem?_insertIfNew] at ht
      split at ht
      · cases ht
        exact ⟨st.attrIx, h.1, rfl⟩
      · exact h.2 other token ht

theorem Numbered.newSegments {st : SymbolTable} (h : Numbered st) (front : String)
    (segments : List String) : Numbered (newSegments front segments st).2 := by
  induction segments generalizing front st with
  | nil => exact h
  | cons segment segments ih => exact ih (h.newBare _) _

theorem Numbered.runCalls {st : SymbolTable} (h : Numbered st) (cs : List AliasCall) :
    Numbered (runCalls cs st).2 := by
  induction cs generalizing st with
  | nil => exact h
  | cons c cs ih =>
      cases c with
      | newAttribute path => exact ih (h.newSegments "" (segments path))
      | newValue v => exact ih (show Numbered (newValue v st).2 from h)

/-- A path comes back from its text after every run exactly when none of its
subscripts spells a token: the text a long name would give is longer than the
path. -/
theorem restored_iff {namePrefix : String} (hplain : IsPlain namePrefix) (path : String) :
    (∀ cs text, (.newAttribute path, text) ∈ (runCalls cs (freshTable namePrefix)).1 →
        restoreNames (runCalls cs (freshTable namePrefix)).2 text = path) ↔
      ∀ token ∈ strays .name path, ∀ i, 0 < i → token ≠ attrToken namePrefix i := by
  have hfresh := valid_freshTable hplain
  constructor
  · rintro h token htoken i hi rfl
    obtain ⟨k, rfl⟩ : ∃ k, i = k + 1 := ⟨i - 1, by omega⟩
    have hlong := (runCalls_long hplain (path.length + 1) (k + 1)).2.2 k rfl
    have hgrown := (runCalls_mints (longCalls (path.length + 1) (k + 1))).grows _ hfresh
    have hback := h (longCalls (path.length + 1) (k + 1) ++ [.newAttribute path])
    rw [runCalls_append] at hback
    generalize (runCalls (longCalls (path.length + 1) (k + 1)) (freshTable namePrefix)).2 = st at *
    obtain ⟨hmid, hsame⟩ := hgrown
    obtain ⟨hlast, hext⟩ := newAttribute_grows path st hmid
    obtain ⟨htext, hknown⟩ := newAttribute_text hmid (.refl (newAttribute path st).2)
    have hrestored : restoreNames (newAttribute path st).2 (newAttribute path st).1 = path :=
      hback _ (List.mem_append_right _ List.mem_cons_self)
    -- the token's name is longer than the path
    have hname := hlast.getNames (hext.names _ _ hlong)
    have hspelled : attrToken namePrefix (k + 1) ∈ placeholders .name (newAttribute path st).1 := by
      rw [htext]
      refine (mem_placeholders_pathText hlast ?_ hknown .name _).mpr (.inr htoken)
      rw [hext.samePrefix, hsame.samePrefix]
      exact hplain
    obtain ⟨word, hword, heq⟩ := List.mem_map.mp hspelled
    have hlength : (filler (path.length + 1 + k)).toList.length ≤
        (substitute tokenChar '#'
          (fun token => (newAttribute path st).2.getNames[String.ofList token]?.map String.toList) 0
          (newAttribute path st).1.toList).length :=
      length_le_substitute (by decide) (by rw [heq, hname]; rfl) hword (by simp)
    have hpath := congrArg String.length hrestored
    rw [restoreNames, String.length_ofList] at hpath
    rw [filler, String.toList_ofList, List.length_replicate] at hlength
    omega
  · intro hstray cs text hmem
    obtain ⟨hlast, hext⟩ := (runCalls_mints cs).grows _ hfresh
    obtain ⟨rfl, hknown⟩ := runCalls_text hfresh hmem
    have hnumbered : Numbered (runCalls cs (freshTable namePrefix)).2 := by
      refine Numbered.runCalls ⟨Nat.one_pos, fun name token h => ?_⟩ cs
      rw [show (freshTable namePrefix).names[name]? = none from Std.TreeMap.getElem?_emptyc] at h
      cases h
    refine restoreNames_pathText hlast (hext.samePrefix ▸ hplain) hknown fun token htoken => ?_
    cases hname : (runCalls cs (freshTable namePrefix)).2.getNames[token]? with
    | none => rfl
    | some name =>
        obtain ⟨i, hi, heq⟩ := hnumbered.2 _ _ (getNames_eq_some hname)
        rw [hext.samePrefix] at heq
        exact absurd heq (hstray token htoken i hi)

end DdbShell
