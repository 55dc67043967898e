import DdbShell.Parser.Lexer
import DdbShell.Value

/-!
Value literals: the productions of `lee_rhs` with their actions, and a reader
for them. `parseLeeRhs_iff` says that the reader finds exactly the derivations,
so that no literal has two values.
-/

namespace DdbShell

/-- Strip one pair of surrounding quotes; doubled quotes inside survive. -/
def unquote (s : String) : String :=
  let cs := s.toList
  if 2 ≤ cs.length ∧ cs.head? = some '"' ∧ cs.getLast? = some '"' then
    String.ofList cs.tail.dropLast
  else s

namespace Literal

/-- What a phrase of the literal grammar stands for. -/
inductive Phrase where
  | leeRhs (value : Value)
  | leeRhsList (list : List Value)
  | mapElementList (map : List (String × Value))

/-- `string`: double-quoted, or a bare identifier. -/
def stringValue (t : SymbolType) : Option String :=
  match t.kind with
  | .kind .tDquotedString => some (unquote t.lexeme)
  | .kind .tUnquotedString => some t.lexeme
  | _ => none

/-- One constructor for each alternative, with the value its action builds. -/
inductive Derives : List SymbolType → Phrase → Prop where
  | wholeNumber {t : SymbolType} (kind : t.kind = .kind .tWholeNumber) :
      Derives [t] (.leeRhs (.N t.lexeme))
  | floatingPoint {t : SymbolType} (kind : t.kind = .kind .tFloatingPointNumber) :
      Derives [t] (.leeRhs (.N t.lexeme))
  | dquoted {t : SymbolType} (kind : t.kind = .kind .tDquotedString) :
      Derives [t] (.leeRhs (.S (unquote t.lexeme)))
  | list {o c : SymbolType} {ts : List SymbolType} {vs : List Value}
      (opens : o.kind = .character '[') (elements : Derives ts (.leeRhsList vs))
      (closes : c.kind = .character ']') : Derives (o :: (ts ++ [c])) (.leeRhs (.L vs))
  | true {t : SymbolType} (kind : t.kind = .kind .kTrue) : Derives [t] (.leeRhs (.BOOL true))
  | false {t : SymbolType} (kind : t.kind = .kind .kFalse) : Derives [t] (.leeRhs (.BOOL false))
  | map {o c : SymbolType} {ts : List SymbolType} {es : List (String × Value)}
      (opens : o.kind = .character '{') (elements : Derives ts (.mapElementList es))
      (closes : c.kind = .character '}') : Derives (o :: (ts ++ [c])) (.leeRhs (.M es))
  | null {t : SymbolType} (kind : t.kind = .kind .kNull) : Derives [t] (.leeRhs .NUL)
  | emptyList {o c : SymbolType} (opens : o.kind = .character '[')
      (closes : c.kind = .character ']') : Derives [o, c] (.leeRhs (.L []))
  | emptyMap {o c : SymbolType} (opens : o.kind = .character '{')
      (closes : c.kind = .character '}') : Derives [o, c] (.leeRhs (.M []))
  | listOne {ts : List SymbolType} {v : Value} (element : Derives ts (.leeRhs v)) :
      Derives ts (.leeRhsList [v])
  | listMore {ts us : List SymbolType} {s : SymbolType} {vs : List Value} {v : Value}
      (front : Derives ts (.leeRhsList vs)) (comma : s.kind = .character ',')
      (element : Derives us (.leeRhs v)) : Derives (ts ++ s :: us) (.leeRhsList (vs ++ [v]))
  | mapOne {ts : List SymbolType} {k c : SymbolType} {key : String} {v : Value}
      (name : stringValue k = some key) (colon : c.kind = .character ':')
      (element : Derives ts (.leeRhs v)) : Derives (k :: c :: ts) (.mapElementList [(key, v)])
  | mapMore {ts us : List SymbolType} {s k c : SymbolType} {es : List (String × Value)}
      {key : String} {v : Value} (front : Derives ts (.mapElementList es))
      (comma : s.kind = .character ',') (name : stringValue k = some key)
      (colon : c.kind = .character ':') (element : Derives us (.leeRhs v)) :
      Derives (ts ++ s :: k :: c :: us) (.mapElementList (es ++ [(key, v)]))

/-- The tokens are one complete value literal. -/
def LeeRhs (ts : List SymbolType) (v : Value) : Prop := Derives ts (.leeRhs v)

/-! ### Reading -/

def isNext (c : Char) : List SymbolType → Bool
  | t :: _ => t.kind = .character c
  | [] => false

/-- Go past a character that has to come next. -/
def closes {α : Type} (c : Char) (result : α) (ts : List SymbolType) :
    Option (α × List SymbolType) :=
  if isNext c ts then some (result, ts.tail) else none

/-- The key of a map element, with the colon after it. -/
def readKey : List SymbolType → Option (String × List SymbolType)
  | [] => none
  | k :: ts => (stringValue k).bind fun key => closes ':' key ts

mutual

def readLeeRhs : Nat → List SymbolType → Option (Value × List SymbolType)
  | 0, _ => none
  | _ + 1, [] => none
  | n + 1, t :: ts =>
      match t.kind with
      | .kind .tWholeNumber | .kind .tFloatingPointNumber => some (.N t.lexeme, ts)
      | .kind .tDquotedString => some (.S (unquote t.lexeme), ts)
      | .kind .kTrue => some (.BOOL true, ts)
      | .kind .kFalse => some (.BOOL false, ts)
      | .kind .kNull => some (.NUL, ts)
      | .character '[' =>
          if isNext ']' ts then some (.L [], ts.tail)
          else (readLeeRhsList n ts).bind fun r => closes ']' (.L r.1) r.2
      | .character '{' =>
          if isNext '}' ts then some (.M [], ts.tail)
          else (readMapElementList n ts).bind fun r => closes '}' (.M r.1) r.2
      | _ => none

def readLeeRhsList : Nat → List SymbolType → Option (List Value × List SymbolType)
  | 0, _ => none
  | n + 1, ts =>
      (readLeeRhs n ts).bind fun r =>
        if isNext ',' r.2 then (readLeeRhsList n r.2.tail).map fun q => (r.1 :: q.1, q.2)
        else some ([r.1], r.2)

def readMapElementList : Nat → List SymbolType →
    Option (List (String × Value) × List SymbolType)
  | 0, _ => none
  | n + 1, ts =>
      (readKey ts).bind fun k => (readLeeRhs n k.2).bind fun r =>
        if isNext ',' r.2 then
          (readMapElementList n r.2.tail).map fun q => ((k.1, r.1) :: q.1, q.2)
        else some ([(k.1, r.1)], r.2)

end

/-- A token takes at most two turns. -/
def parseLeeRhs (ts : List SymbolType) : Option Value :=
  match readLeeRhs (2 * ts.length) ts with
  | some (v, []) => some v
  | _ => none

theorem isNext_iff {c : Char} {ts : List SymbolType} :
    isNext c ts = true ↔ ∃ t rest, ts = t :: rest ∧ t.kind = .character c := by
  cases ts with
  | nil => simp [isNext]
  | cons t rest => simp [isNext]

theorem closes_eq_some {α : Type} {c : Char} {result x : α} {ts rest : List SymbolType} :
    closes c result ts = some (x, rest) ↔
      x = result ∧ ∃ t, ts = t :: rest ∧ t.kind = .character c := by
  unfold closes
  constructor
  · intro h
    split at h
    · rename_i hnext
      obtain ⟨t, tail, rfl, hkind⟩ := isNext_iff.mp hnext
      cases h
      exact ⟨rfl, t, rfl, hkind⟩
    · cases h
  · rintro ⟨rfl, t, rfl, hkind⟩
    rw [if_pos (isNext_iff.mpr ⟨t, rest, rfl, hkind⟩)]
    rfl

theorem readKey_eq_some {key : String} {ts rest : List SymbolType} :
    readKey ts = some (key, rest) ↔
      ∃ k c, ts = k :: c :: rest ∧ stringValue k = some key ∧ c.kind = .character ':' := by
  cases ts with
  | nil => simp [readKey]
  | cons k ts =>
      rw [readKey, Option.bind_eq_some_iff]
      constructor
      · rintro ⟨name, hname, hcloses⟩
        obtain ⟨rfl, c, rfl, hc⟩ := closes_eq_some.mp hcloses
        exact ⟨k, c, rfl, hname, hc⟩
      · rintro ⟨k', c, heq, hname, hc⟩
        obtain ⟨rfl, rfl⟩ := List.cons.inj heq
        exact ⟨key, hname, closes_eq_some.mpr ⟨rfl, c, rfl, hc⟩⟩

/-! ### The reader finds derivations -/

theorem Derives.listCons {ts us : List SymbolType} {s : SymbolType} {v : Value}
    {vs : List Value} (element : Derives ts (.leeRhs v)) (comma : s.kind = .character ',')
    (later : Derives us (.leeRhsList vs)) : Derives (ts ++ s :: us) (.leeRhsList (v :: vs)) := by
  generalize hp : Phrase.leeRhsList vs = p at later
  induction later generalizing vs with
  | listOne h =>
      cases hp
      exact .listMore (.listOne element) comma h
  | listMore front hs h ihfront _ =>
      cases hp
      have hlong := Derives.listMore (ihfront rfl) hs h
      rwa [List.append_assoc, List.cons_append] at hlong
  | _ => cases hp

theorem Derives.mapCons {ts us : List SymbolType} {s k c : SymbolType} {key : String} {v : Value}
    {es : List (String × Value)} (name : stringValue k = some key)
    (colon : c.kind = .character ':') (element : Derives ts (.leeRhs v))
    (comma : s.kind = .character ',') (later : Derives us (.mapElementList es)) :
    Derives (k :: c :: (ts ++ s :: us)) (.mapElementList ((key, v) :: es)) := by
  generalize hp : Phrase.mapElementList es = p at later
  induction later generalizing es with
  | mapOne hname hcolon h =>
      cases hp
      exact .mapMore (.mapOne name colon element) comma hname hcolon h
  | mapMore front hs hname hcolon h ihfront _ =>
      cases hp
      have hlong := Derives.mapMore (ihfront rfl) hs hname hcolon h
      simpa using hlong
  | _ => cases hp

/-- What each of the three readers returns is a derivation of what it took. -/
theorem read_sound (n : Nat) :
    (∀ {ts rest v}, readLeeRhs n ts = some (v, rest) →
      ∃ used, ts = used ++ rest ∧ Derives used (.leeRhs v)) ∧
    (∀ {ts rest vs}, readLeeRhsList n ts = some (vs, rest) →
      ∃ used, ts = used ++ rest ∧ Derives used (.leeRhsList vs)) ∧
    (∀ {ts rest es}, readMapElementList n ts = some (es, rest) →
      ∃ used, ts = used ++ rest ∧ Derives used (.mapElementList es)) := by
  induction n with
  | zero =>
      refine ⟨?_, ?_, ?_⟩ <;>
      · intro ts rest x h
        cases h
  | succ n ih =>
      obtain ⟨ihvalue, ihlist, ihmap⟩ := ih
      refine ⟨?_, ?_, ?_⟩
      · intro ts rest v h
        cases ts with
        | nil => cases h
        | cons t ts =>
            rw [readLeeRhs] at h
            split at h
            case h_1 hkind => cases h; exact ⟨[t], rfl, .wholeNumber hkind⟩
            case h_2 hkind => cases h; exact ⟨[t], rfl, .floatingPoint hkind⟩
            case h_3 hkind => cases h; exact ⟨[t], rfl, .dquoted hkind⟩
            case h_4 hkind => cases h; exact ⟨[t], rfl, .true hkind⟩
            case h_5 hkind => cases h; exact ⟨[t], rfl, .false hkind⟩
            case h_6 hkind => cases h; exact ⟨[t], rfl, .null hkind⟩
            case h_7 hkind =>
                split at h
                · rename_i hnext
                  obtain ⟨c, tail, rfl, hc⟩ := isNext_iff.mp hnext
                  cases h
                  exact ⟨[t, c], rfl, .emptyList hkind hc⟩
                · obtain ⟨⟨vs, after⟩, hread, hcloses⟩ := Option.bind_eq_some_iff.mp h
                  obtain ⟨rfl, c, rfl, hc⟩ := closes_eq_some.mp hcloses
                  obtain ⟨used, rfl, hused⟩ := ihlist hread
                  exact ⟨t :: (used ++ [c]), by simp, .list hkind hused hc⟩
            case h_8 hkind =>
                split at h
                · rename_i hnext
                  obtain ⟨c, tail, rfl, hc⟩ := isNext_iff.mp hnext
                  cases h
                  exact ⟨[t, c], rfl, .emptyMap hkind hc⟩
                · obtain ⟨⟨es, after⟩, hread, hcloses⟩ := Option.bind_eq_some_iff.mp h
                  obtain ⟨rfl, c, rfl, hc⟩ := closes_eq_some.mp hcloses
                  obtain ⟨used, rfl, hused⟩ := ihmap hread
                  exact ⟨t :: (used ++ [c]), by simp, .map hkind hused hc⟩
            case h_9 => cases h
      · intro ts rest vs h
        obtain ⟨⟨v, after⟩, hread, hnext⟩ := Option.bind_eq_some_iff.mp h
        obtain ⟨used, rfl, hused⟩ := ihvalue hread
        split at hnext
        · rename_i hcomma
          obtain ⟨s, tail, rfl, hs⟩ := isNext_iff.mp hcomma
          obtain ⟨⟨vs', rest'⟩, hlater, heq⟩ := Option.map_eq_some_iff.mp hnext
          cases heq
          obtain ⟨used', rfl, hused'⟩ := ihlist hlater
          exact ⟨used ++ s :: used', by simp, hused.listCons hs hused'⟩
        · cases hnext
          exact ⟨used, rfl, .listOne hused⟩
      · intro ts rest es h
        obtain ⟨⟨key, afterKey⟩, hkey, helement⟩ := Option.bind_eq_some_iff.mp h
        obtain ⟨k, c, rfl, hname, hcolon⟩ := readKey_eq_some.mp hkey
        obtain ⟨⟨v, after⟩, hread, hnext⟩ := Option.bind_eq_some_iff.mp helement
        obtain ⟨used, hsplit, hused⟩ := ihvalue hread
        obtain rfl : afterKey = used ++ after := hsplit
        split at hnext
        · rename_i hcomma
          obtain ⟨s, tail, rfl, hs⟩ := isNext_iff.mp hcomma
          obtain ⟨⟨es', rest'⟩, hlater, heq⟩ := Option.map_eq_some_iff.mp hnext
          cases heq
          obtain ⟨used', rfl, hused'⟩ := ihmap hlater
          exact ⟨k :: c :: (used ++ s :: used'), by simp, hused.mapCons hname hcolon hs hused'⟩
        · cases hnext
          exact ⟨k :: c :: used, rfl, .mapOne hname hcolon hused⟩

/-! ### It finds all of them -/

/-- How a phrase begins: not with what ends it. -/
theorem Derives.head {ts : List SymbolType} {p : Phrase} (h : Derives ts p) :
    ∃ t rest, ts = t :: rest ∧ t.kind ≠ .character ']' ∧ t.kind ≠ .character '}' := by
  have hname : ∀ {t : SymbolType} {key : String}, stringValue t = some key →
      t.kind ≠ .character ']' ∧ t.kind ≠ .character '}' := by
    intro t key hkey
    constructor <;>
    · intro hkind
      simp [stringValue, hkind] at hkey
  induction h with
  | wholeNumber kind | floatingPoint kind | dquoted kind | true kind | false kind | null kind =>
      exact ⟨_, _, rfl, by simp [kind], by simp [kind]⟩
  | list opens | map opens => exact ⟨_, _, rfl, by simp [opens], by simp [opens]⟩
  | emptyList opens | emptyMap opens => exact ⟨_, _, rfl, by simp [opens], by simp [opens]⟩
  | listOne _ ih => exact ih
  | listMore _ _ _ ih =>
      obtain ⟨t, rest, rfl, hkind⟩ := ih
      exact ⟨t, _, rfl, hkind⟩
  | mapOne name => exact ⟨_, _, rfl, hname name⟩
  | mapMore _ _ _ _ _ ih =>
      obtain ⟨t, rest, rfl, hkind⟩ := ih
      exact ⟨t, _, rfl, hkind⟩

/-- A phrase is read wherever it stands, given turns enough. A list is read
together with what a comma joins to it. -/
def ReadsAs (ts : List SymbolType) : Phrase → Prop
  | .leeRhs v => ∀ n rest, 2 * ts.length ≤ n → readLeeRhs n (ts ++ rest) = some (v, rest)
  | .leeRhsList vs =>
      (∀ n rest, 2 * ts.length + 1 ≤ n → isNext ',' rest = false →
        readLeeRhsList n (ts ++ rest) = some (vs, rest)) ∧
      ∀ n us s r, s.kind = .character ',' → (∀ m, n ≤ m → readLeeRhsList m us = some r) →
        ∀ m, n + 2 * ts.length + 1 ≤ m →
          readLeeRhsList m (ts ++ s :: us) = some (vs ++ r.1, r.2)
  | .mapElementList es =>
      (∀ n rest, 2 * ts.length + 1 ≤ n → isNext ',' rest = false →
        readMapElementList n (ts ++ rest) = some (es, rest)) ∧
      ∀ n us s r, s.kind = .character ',' → (∀ m, n ≤ m → readMapElementList m us = some r) →
        ∀ m, n + 2 * ts.length + 1 ≤ m →
          readMapElementList m (ts ++ s :: us) = some (es ++ r.1, r.2)

theorem ReadsAs.listOne {ts : List SymbolType} {v : Value} (h : ReadsAs ts (.leeRhs v)) :
    ReadsAs ts (.leeRhsList [v]) := by
  refine ⟨?_, ?_⟩
  · intro n rest hn hnext
    obtain ⟨n, rfl⟩ : ∃ k, n = k + 1 := ⟨n - 1, by omega⟩
    rw [readLeeRhsList, h n rest (by omega)]
    simp [hnext]
  · intro n us s r hs hlater m hm
    obtain ⟨m, rfl⟩ : ∃ k, m = k + 1 := ⟨m - 1, by omega⟩
    rw [readLeeRhsList, h m (s :: us) (by omega)]
    simp [isNext, hs, hlater m (by omega)]

theorem ReadsAs.mapOne {ts : List SymbolType} {k c : SymbolType} {key : String} {v : Value}
    (name : stringValue k = some key) (colon : c.kind = .character ':')
    (h : ReadsAs ts (.leeRhs v)) : ReadsAs (k :: c :: ts) (.mapElementList [(key, v)]) := by
  have hkey : ∀ rest, readKey (k :: c :: ts ++ rest) = some (key, ts ++ rest) := fun rest =>
    readKey_eq_some.mpr ⟨k, c, rfl, name, colon⟩
  refine ⟨?_, ?_⟩
  · intro n rest hn hnext
    simp only [List.length_cons] at hn
    obtain ⟨n, rfl⟩ : ∃ k, n = k + 1 := ⟨n - 1, by omega⟩
    rw [readMapElementList, hkey, Option.bind_some, h n rest (by omega)]
    simp [hnext]
  · intro n us s r hs hlater m hm
    simp only [List.length_cons] at hm
    obtain ⟨m, rfl⟩ : ∃ k, m = k + 1 := ⟨m - 1, by omega⟩
    rw [readMapElementList, hkey, Option.bind_some, h m (s :: us) (by omega)]
    simp [isNext, hs, hlater m (by omega)]

theorem isNext_of_head {ts rest : List SymbolType} {c : Char}
    (h : ∃ t ts', ts = t :: ts' ∧ t.kind ≠ .character c) : isNext c (ts ++ rest) = false := by
  obtain ⟨t, ts', rfl, hkind⟩ := h
  simp [isNext, hkind]

/-- Every derivation is found, whatever follows it. -/
theorem read_complete {ts : List SymbolType} {p : Phrase} (h : Derives ts p) : ReadsAs ts p := by
  induction h with
  | wholeNumber kind | floatingPoint kind | dquoted kind | true kind | false kind | null kind =>
      intro n rest hn
      simp only [List.length_singleton] at hn
      obtain ⟨n, rfl⟩ : ∃ k, n = k + 1 := ⟨n - 1, by omega⟩
      simp [readLeeRhs, kind]
  | @list o c ts vs opens elements closes ih =>
      intro n rest hn
      simp only [List.length_cons, List.length_append, List.length_nil] at hn
      obtain ⟨n, rfl⟩ : ∃ k, n = k + 1 := ⟨n - 1, by omega⟩
      obtain ⟨t, ts', hts, hclose, -⟩ := elements.head
      have hnext : isNext ']' (ts ++ (c :: rest)) = false :=
        isNext_of_head ⟨t, ts', hts, hclose⟩
      have hread := ih.1 n (c :: rest) (by omega) (by simp [isNext, closes])
      have hend : Literal.closes ']' (Value.L vs) (c :: rest) = some (.L vs, rest) :=
        closes_eq_some.mpr ⟨rfl, c, rfl, closes⟩
      simp [readLeeRhs, opens, hnext, hread, hend]
  | @map o c ts es opens elements closes ih =>
      intro n rest hn
      simp only [List.length_cons, List.length_append, List.length_nil] at hn
      obtain ⟨n, rfl⟩ : ∃ k, n = k + 1 := ⟨n - 1, by omega⟩
      obtain ⟨t, ts', hts, -, hclose⟩ := elements.head
      have hnext : isNext '}' (ts ++ (c :: rest)) = false :=
        isNext_of_head ⟨t, ts', hts, hclose⟩
      have hread := ih.1 n (c :: rest) (by omega) (by simp [isNext, closes])
      have hend : Literal.closes '}' (Value.M es) (c :: rest) = some (.M es, rest) :=
        closes_eq_some.mpr ⟨rfl, c, rfl, closes⟩
      simp [readLeeRhs, opens, hnext, hread, hend]
  | emptyList opens closes | emptyMap opens closes =>
      intro n rest hn
      simp only [List.length_cons, List.length_nil] at hn
      obtain ⟨n, rfl⟩ : ∃ k, n = k + 1 := ⟨n - 1, by omega⟩
      simp [readLeeRhs, opens, isNext, closes]
  | listOne _ ih => exact ih.listOne
  | mapOne name colon _ ih => exact ih.mapOne name colon
  | @listMore ts us s vs v _ comma _ ihfront ihelement =>
      have hone := ihelement.listOne
      refine ⟨?_, ?_⟩
      · intro n rest hn hnext
        simp only [List.length_append, List.length_cons] at hn
        rw [List.append_assoc, List.cons_append]
        exact ihfront.2 (2 * us.length + 1) (us ++ rest) s ([v], rest) comma
          (fun m hm => hone.1 m rest hm hnext) n (by omega)
      · intro n us' s' r hs' hlater m hm
        simp only [List.length_append, List.length_cons] at hm
        rw [List.append_assoc, List.cons_append]
        have hjoin := ihfront.2 _ _ s _ comma (hone.2 n us' s' r hs' hlater) m (by omega)
        simpa using hjoin
  | @mapMore ts us s k c es key v _ comma name colon _ ihfront ihelement =>
      have hone := ihelement.mapOne name colon
      refine ⟨?_, ?_⟩
      · intro n rest hn hnext
        simp only [List.length_append, List.length_cons] at hn
        rw [List.append_assoc, List.cons_append]
        exact ihfront.2 (2 * (k :: c :: us).length + 1) (k :: c :: us ++ rest) s
          ([(key, v)], rest) comma (fun m hm => hone.1 m rest hm hnext) n
          (by simp only [List.length_cons]; omega)
      · intro n us' s' r hs' hlater m hm
        simp only [List.length_append, List.length_cons] at hm
        rw [List.append_assoc, List.cons_append]
        have hjoin := ihfront.2 _ _ s _ comma (hone.2 n us' s' r hs' hlater) m
          (by simp only [List.length_cons]; omega)
        simpa using hjoin

/-- The reader finds exactly the derivations. -/
theorem parseLeeRhs_iff {ts : List SymbolType} {v : Value} :
    parseLeeRhs ts = some v ↔ LeeRhs ts v := by
  constructor
  · intro h
    unfold parseLeeRhs at h
    split at h
    · rename_i w hread
      cases h
      obtain ⟨used, hsplit, hused⟩ := (read_sound _).1 hread
      rw [List.append_nil] at hsplit
      exact hsplit ▸ hused
    · cases h
  · intro h
    have hread := read_complete h (2 * ts.length) [] (by omega)
    rw [List.append_nil] at hread
    rw [parseLeeRhs, hread]

/-- No production of a literal has a timestamp. -/
theorem Derives.no_timestamp {ts : List SymbolType} {p : Phrase} (h : Derives ts p) :
    ∀ t ∈ ts, t.kind ≠ .kind .tTimestamp := by
  have hname : ∀ {t : SymbolType} {key : String}, stringValue t = some key →
      t.kind ≠ .kind .tTimestamp := by
    intro t key hkey hkind
    simp [stringValue, hkind] at hkey
  induction h with
  | wholeNumber kind | floatingPoint kind | dquoted kind | true kind | false kind | null kind =>
      simp [kind]
  | list opens _ closes ih | map opens _ closes ih =>
      intro t ht
      rcases List.mem_cons.mp ht with rfl | ht
      · simp [opens]
      · rcases List.mem_append.mp ht with ht | ht
        · exact ih t ht
        · rw [List.mem_singleton.mp ht]
          simp [closes]
  | emptyList opens closes | emptyMap opens closes => simp [opens, closes]
  | listOne _ ih => exact ih
  | listMore _ comma _ ihfront ihelement =>
      intro t ht
      rcases List.mem_append.mp ht with ht | ht
      · exact ihfront t ht
      · rcases List.mem_cons.mp ht with rfl | ht
        · simp [comma]
        · exact ihelement t ht
  | mapOne name colon _ ih =>
      intro t ht
      rcases List.mem_cons.mp ht with rfl | ht
      · exact hname name
      · rcases List.mem_cons.mp ht with rfl | ht
        · simp [colon]
        · exact ih t ht
  | mapMore _ comma name colon _ ihfront ihelement =>
      intro t ht
      rcases List.mem_append.mp ht with ht | ht
      · exact ihfront t ht
      · simp only [List.mem_cons] at ht
        rcases ht with rfl | rfl | rfl | ht
        · simp [comma]
        · exact hname name
        · simp [colon]
        · exact ihelement t ht

end Literal

end DdbShell
