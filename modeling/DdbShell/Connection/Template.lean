import DdbShell.Connection.Prepared

/-!
A template read without its bindings: its placeholders, `:name` ones also where
nothing is bound to the name, and the text around them. The expansion loop reads
its template so and then fills the placeholders in order, which separates where
it looks for placeholders from what it puts there.
-/

namespace DdbShell

/-- A place to bind. Positions are counted from zero. -/
inductive Mark where
  | positional (index : Nat)
  | named (name : String)
  deriving DecidableEq, Repr

/-- How a place is written in the template. -/
def Mark.text : Mark → List Char
  | .positional _ => ['?']
  | .named name => ':' :: name.toList

structure Template where
  first : List Char
  rest : List (Mark × List Char)
  deriving DecidableEq, Repr

namespace Template

def push (c : Char) (t : Template) : Template := { t with first := c :: t.first }

def mark (m : Mark) (t : Template) : Template := ⟨[], (m, t.first) :: t.rest⟩

def marks (t : Template) : List Mark := t.rest.map Prod.fst

/-- The text with something written at each place. -/
def write (t : Template) (written : Mark → List Char) : List Char :=
  t.first ++ t.rest.flatMap fun piece => written piece.1 ++ piece.2

/-- Where in the text the places of some pieces begin, from a position on. -/
def spansFrom : Nat → List (Mark × List Char) → List (Nat × Mark)
  | _, [] => []
  | n, (m, text) :: rest => (n, m) :: spansFrom (n + m.text.length + text.length) rest

def spans (t : Template) : List (Nat × Mark) := spansFrom t.first.length t.rest

end Template

/-- The walk of the expansion loop over the template alone. -/
def templateLoop : Nat → Bool → Nat → List Char → Template
  | 0, _, _, _ => ⟨[], []⟩
  | _ + 1, _, _, [] => ⟨[], []⟩
  | fuel + 1, true, next, c :: cs =>
      if c = '"' then
        match cs with
        | '"' :: rest => ((templateLoop fuel true next rest).push '"').push '"'
        | _ => (templateLoop fuel false next cs).push '"'
      else (templateLoop fuel true next cs).push c
  | fuel + 1, false, next, c :: cs =>
      if c = '"' then (templateLoop fuel true next cs).push c
      else if c = '?' then (templateLoop fuel false (next + 1) cs).mark (.positional next)
      else if c = ':' && startsName cs then
        (templateLoop fuel false next (cs.dropWhile isNameChar)).mark
          (.named (String.ofList (cs.takeWhile isNameChar)))
      else (templateLoop fuel false next cs).push c

def template (sql : List Char) : Template := templateLoop (sql.length + 1) false 0 sql

/-! ### A placeholder at the front of a text -/

/-- A `?` or a `:name` stands here. -/
def marksHere : List Char → Bool
  | c :: cs => c = '?' || c = ':' && startsName cs
  | [] => false

theorem isNameChar_ne {c d : Char} (hc : isNameChar c = true) (hd : isNameChar d = false) :
    c ≠ d := by
  rintro rfl
  rw [hc] at hd
  cases hd

theorem marksHere_of_isNameChar {c : Char} (hc : isNameChar c = true) (cs : List Char) :
    marksHere (c :: cs) = false := by
  simp [marksHere, isNameChar_ne hc (d := '?') (by decide +kernel),
    isNameChar_ne hc (d := ':') (by decide +kernel)]

theorem marksHere_of_quote (cs : List Char) : marksHere ('"' :: cs) = false := by
  simp [marksHere]

/-- The name that the front of a text has, and what is after it. -/
theorem mark_source {cs : List Char} :
    (Mark.named (String.ofList (cs.takeWhile isNameChar))).text ++ cs.dropWhile isNameChar =
      ':' :: cs := by
  simp [Mark.text]

/-! ### Reading keeps the text -/

namespace Template

variable {t : Template}

@[simp] theorem write_push (c : Char) (t : Template) (written : Mark → List Char) :
    (t.push c).write written = c :: t.write written := rfl

@[simp] theorem write_mark (m : Mark) (t : Template) (written : Mark → List Char) :
    (t.mark m).write written = written m ++ t.write written := by
  simp [mark, write]

@[simp] theorem marks_push (c : Char) (t : Template) : (t.push c).marks = t.marks := rfl

@[simp] theorem marks_mark (m : Mark) (t : Template) : (t.mark m).marks = m :: t.marks := rfl

theorem spansFrom_shift (n k : Nat) (rest : List (Mark × List Char)) :
    spansFrom (n + k) rest = (spansFrom n rest).map fun span => (span.1 + k, span.2) := by
  induction rest generalizing n with
  | nil => rfl
  | cons piece rest ih =>
      have hstart : n + k + piece.1.text.length + piece.2.length =
          n + piece.1.text.length + piece.2.length + k := by omega
      rw [spansFrom, spansFrom, hstart, ih, List.map_cons]

/-- The places of a text go one further with a character before it. -/
theorem spans_push (c : Char) (t : Template) :
    (t.push c).spans = t.spans.map fun span => (span.1 + 1, span.2) :=
  spansFrom_shift t.first.length 1 t.rest

theorem spans_mark (m : Mark) (t : Template) :
    (t.mark m).spans = (0, m) :: t.spans.map fun span => (span.1 + m.text.length, span.2) := by
  have hshift := spansFrom_shift t.first.length m.text.length t.rest
  rw [spans, mark, spansFrom, spans, ← hshift, List.length_nil, Nat.zero_add, Nat.add_comm]

end Template

/-- Written as it was, a template is its text. -/
theorem write_text {fuel : Nat} {inString : Bool} {next : Nat} {cs : List Char}
    (hfuel : cs.length < fuel) :
    (templateLoop fuel inString next cs).write Mark.text = cs := by
  induction fuel generalizing inString next cs with
  | zero => omega
  | succ fuel ih =>
      cases cs with
      | nil => rfl
      | cons c cs =>
          rw [List.length_cons] at hfuel
          have hcs : cs.length < fuel := by omega
          cases inString with
          | true =>
              simp only [templateLoop]
              split
              · rename_i hc
                subst hc
                split
                · rename_i rest
                  rw [List.length_cons] at hcs
                  rw [Template.write_push, Template.write_push, ih (by omega)]
                · rw [Template.write_push, ih hcs]
              · rw [Template.write_push, ih hcs]
          | false =>
              rw [templateLoop]
              split
              · rw [Template.write_push, ih hcs]
              split
              · rename_i hc
                subst hc
                rw [Template.write_mark, ih hcs]
                rfl
              split
              · rename_i hname
                obtain ⟨rfl, -⟩ : c = ':' ∧ startsName cs = true := by simpa using hname
                have hdrop := List.length_dropWhile_le isNameChar cs
                rw [Template.write_mark, ih (by omega), mark_source]
              · rw [Template.write_push, ih hcs]

theorem template_text (sql : List Char) : (template sql).write Mark.text = sql :=
  write_text (Nat.lt_succ_self _)

/-! ### Where the places are -/

namespace Template

def places (t : Template) : List Nat := t.spans.map Prod.fst

theorem mem_shifted {i k : Nat} {ns : List Nat} :
    i ∈ ns.map (· + k) ↔ k ≤ i ∧ i - k ∈ ns := by
  rw [List.mem_map]
  constructor
  · rintro ⟨n, hn, rfl⟩
    exact ⟨by omega, by rwa [Nat.add_sub_cancel]⟩
  · rintro ⟨hle, hmem⟩
    exact ⟨i - k, hmem, by omega⟩

theorem places_push (c : Char) (t : Template) : (t.push c).places = t.places.map (· + 1) := by
  rw [places, places, spans_push, List.map_map, List.map_map]
  rfl

theorem places_mark (m : Mark) (t : Template) :
    (t.mark m).places = 0 :: t.places.map (· + m.text.length) := by
  rw [places, places, spans_mark, List.map_cons, List.map_map, List.map_map]
  rfl

end Template

/-- A position has an even number of quotes before it, or an odd one in a text
that begins within a string. -/
def QuotesClosed (inString : Bool) (cs : List Char) (i : Nat) : Prop :=
  ((cs.take i).count '"' + inString.toNat) % 2 = 0

/-- The positions are those of the placeholders with their quotes closed. -/
def ReadOutside (inString : Bool) (cs : List Char) (places : List Nat) : Prop :=
  ∀ i, i ∈ places ↔ marksHere (cs.drop i) = true ∧ QuotesClosed inString cs i

/-- A character that is read on its own; a quote opens or closes a string. -/
theorem readOutside_push {before after : Bool} {c : Char} {cs : List Char} {t : Template}
    (h : ReadOutside after cs t.places) (hc : marksHere (c :: cs) = true → before = true)
    (hafter : after = if c = '"' then !before else before) :
    ReadOutside before (c :: cs) (t.push c).places := by
  intro i
  rw [Template.places_push, Template.mem_shifted]
  cases i with
  | zero =>
      constructor
      · rintro ⟨hle, -⟩
        omega
      · rintro ⟨hmark, hclosed⟩
        rw [hc hmark] at hclosed
        simp [QuotesClosed] at hclosed
  | succ i =>
      rw [Nat.add_sub_cancel, h i, List.drop_succ_cons]
      have hparity : QuotesClosed after cs i ↔ QuotesClosed before (c :: cs) (i + 1) := by
        rw [QuotesClosed, QuotesClosed, List.take_succ_cons, List.count_cons, hafter]
        by_cases hquote : c = '"'
        · cases before with
          | true => simp [hquote]; omega
          | false => simp [hquote]
        · simp [hquote]
      rw [hparity]
      constructor
      · rintro ⟨-, hread⟩
        exact hread
      · intro hread
        exact ⟨by omega, hread⟩

/-- A placeholder, none of whose characters but the first begins another. -/
theorem readOutside_mark {m : Mark} {cs : List Char} {t : Template}
    (h : ReadOutside false cs t.places) (hquote : '"' ∉ m.text)
    (hfirst : marksHere (m.text ++ cs) = true)
    (hlater : ∀ i, 0 < i → i < m.text.length → marksHere ((m.text ++ cs).drop i) = false) :
    ReadOutside false (m.text ++ cs) (t.mark m).places := by
  intro i
  rw [Template.places_mark, List.mem_cons, Template.mem_shifted]
  by_cases hzero : i = 0
  · subst hzero
    simp [hfirst, QuotesClosed]
  by_cases hlt : i < m.text.length
  · rw [hlater i (by omega) hlt]
    constructor
    · rintro (heq | ⟨hle, -⟩)
      · exact absurd heq hzero
      · omega
    · rintro ⟨hfalse, -⟩
      cases hfalse
  · have hle : m.text.length ≤ i := by omega
    have hparity : QuotesClosed false cs (i - m.text.length) ↔
        QuotesClosed false (m.text ++ cs) i := by
      rw [QuotesClosed, QuotesClosed, List.take_append, List.take_of_length_le hle,
        List.count_append, List.count_eq_zero_of_not_mem hquote, Nat.zero_add]
    rw [h, hparity, List.drop_append, List.drop_eq_nil_of_le hle, List.nil_append]
    constructor
    · rintro (heq | ⟨-, hread⟩)
      · exact absurd heq hzero
      · exact hread
    · intro hread
      exact .inr ⟨hle, hread⟩

theorem readOutside_name {cs : List Char} {t : Template} (hname : startsName cs = true)
    (h : ReadOutside false (cs.dropWhile isNameChar) t.places) :
    ReadOutside false (':' :: cs)
      (t.mark (.named (String.ofList (cs.takeWhile isNameChar)))).places := by
  have hchars : ∀ c ∈ cs.takeWhile isNameChar, isNameChar c = true := fun c hc =>
    List.mem_takeWhile_imp hc
  have htext : (Mark.named (String.ofList (cs.takeWhile isNameChar))).text =
      ':' :: cs.takeWhile isNameChar := by
    rw [Mark.text, String.toList_ofList]
  have hread := readOutside_mark (m := .named (String.ofList (cs.takeWhile isNameChar))) h
  rw [mark_source, htext] at hread
  apply hread
  · rw [List.mem_cons, not_or]
    exact ⟨by decide, fun hmem => isNameChar_ne (hchars _ hmem) (by decide +kernel) rfl⟩
  · simp [marksHere, hname]
  · intro i hpos hlt
    obtain ⟨i, rfl⟩ : ∃ k, i = k + 1 := ⟨i - 1, by omega⟩
    rw [List.length_cons] at hlt
    have hlt' : i < (cs.takeWhile isNameChar).length := by omega
    have hsplit : (':' :: cs).drop (i + 1) =
        (cs.takeWhile isNameChar).drop i ++ cs.dropWhile isNameChar := by
      rw [List.drop_succ_cons]
      conv_lhs => rw [← List.takeWhile_append_dropWhile (p := isNameChar) (l := cs)]
      rw [List.drop_append_of_le_length (by omega)]
    rw [hsplit, List.drop_eq_getElem_cons hlt', List.cons_append]
    exact marksHere_of_isNameChar (hchars _ (List.getElem_mem hlt')) _

/-- The walk finds the placeholders that have their quotes closed. -/
theorem templateLoop_reads {fuel : Nat} {inString : Bool} {next : Nat} {cs : List Char}
    (hfuel : cs.length < fuel) :
    ReadOutside inString cs (templateLoop fuel inString next cs).places := by
  induction fuel generalizing inString next cs with
  | zero => omega
  | succ fuel ih =>
      cases cs with
      | nil =>
          intro i
          simp [templateLoop, Template.places, Template.spans, Template.spansFrom, marksHere]
      | cons c cs =>
          rw [List.length_cons] at hfuel
          have hcs : cs.length < fuel := by omega
          cases inString with
          | true =>
              simp only [templateLoop]
              split
              · rename_i hc
                subst hc
                split
                · rename_i rest
                  rw [List.length_cons] at hcs
                  have hrest : ReadOutside true rest (templateLoop fuel true next rest).places :=
                    ih (by omega)
                  have hinner : ReadOutside false ('"' :: rest) _ :=
                    readOutside_push hrest (by simp [marksHere_of_quote]) rfl
                  exact readOutside_push hinner (fun _ => rfl) rfl
                · exact readOutside_push (ih hcs) (fun _ => rfl) rfl
              · rename_i hc
                exact readOutside_push (ih hcs) (fun _ => rfl) (by rw [if_neg hc])
          | false =>
              rw [templateLoop]
              split
              · rename_i hc
                subst hc
                exact readOutside_push (ih hcs) (by simp [marksHere_of_quote]) rfl
              rename_i hquote
              split
              · rename_i hc
                subst hc
                exact readOutside_mark (m := .positional next) (ih hcs) (by simp [Mark.text])
                  rfl (by simp only [Mark.text, List.length_singleton]; omega)
              rename_i hmark
              split
              · rename_i hname
                obtain ⟨rfl, hstarts⟩ : c = ':' ∧ startsName cs = true := by simpa using hname
                have hdrop := List.length_dropWhile_le isNameChar cs
                exact readOutside_name hstarts (ih (by omega))
              · rename_i hname
                have hnone : marksHere (c :: cs) = false := by
                  simpa [marksHere, hmark] using hname
                exact readOutside_push (ih hcs) (by simp [hnone]) (by rw [if_neg hquote])

theorem template_reads (sql : List Char) : ReadOutside false sql (template sql).places :=
  templateLoop_reads (Nat.lt_succ_self _)

/-- A place takes up nothing but name characters after its first one. -/
def Mark.WellFormed (m : Mark) : Prop := ∀ c ∈ m.text.tail, isNameChar c = true

theorem templateLoop_wellFormed {fuel : Nat} {inString : Bool} {next : Nat} {cs : List Char} :
    ∀ m ∈ (templateLoop fuel inString next cs).marks, m.WellFormed := by
  induction fuel generalizing inString next cs with
  | zero => exact fun m hm => absurd hm List.not_mem_nil
  | succ fuel ih =>
      cases cs with
      | nil => exact fun m hm => absurd hm List.not_mem_nil
      | cons c cs =>
          cases inString with
          | true =>
              simp only [templateLoop]
              split
              · split
                · exact ih
                · exact ih
              · exact ih
          | false =>
              rw [templateLoop]
              split
              · exact ih
              split
              · rw [Template.marks_mark]
                refine List.forall_mem_cons.mpr ⟨?_, ih⟩
                exact fun d hd => absurd hd List.not_mem_nil
              split
              · rw [Template.marks_mark]
                refine List.forall_mem_cons.mpr ⟨?_, ih⟩
                intro d hd
                rw [Mark.text, String.toList_ofList, List.tail_cons] at hd
                exact List.mem_takeWhile_imp hd
              · exact ih

/-- The places have the marks of the template. -/
theorem Template.spans_marks (t : Template) : t.spans.map Prod.snd = t.marks := by
  have hfrom : ∀ n rest, (spansFrom n rest).map Prod.snd = rest.map Prod.fst := by
    intro n rest
    induction rest generalizing n with
    | nil => rfl
    | cons piece rest ih => rw [spansFrom, List.map_cons, List.map_cons, ih]
  exact hfrom _ _

/-! ### The expansion loop fills a template -/

namespace PreparedStatement

/-- What goes in the place of a placeholder; an unbound name stays as it is. -/
def literalFor (p : PreparedStatement) : Mark → Except Error (List Char)
  | .positional k =>
      match p.positional[k]? with
      | none => .error ⟨.invalidArgument, "positional placeholder #" ++ toString (k + 1) ++
          " has no bound value"⟩
      | some v => renderLiteral v
  | .named name =>
      match p.named.findIdx? fun entry => entry.1 = name with
      | none => .ok (Mark.named name).text
      | some k => renderLiteral ((p.named[k]?).elim .NUL Prod.snd)

/-- The named values used once a placeholder is filled. -/
def usedBy (p : PreparedStatement) (used : List Bool) : Mark → List Bool
  | .positional _ => used
  | .named name =>
      match p.named.findIdx? fun entry => entry.1 = name with
      | none => used
      | some k => used.set k true

end PreparedStatement

/-- The position after a placeholder. -/
def Mark.next (next : Nat) : Mark → Nat
  | .positional k => k + 1
  | .named _ => next

/-- A literal and then the rest of the text. -/
def behind (literal : Except Error (List Char)) (text : Except Error (List Char)) :
    Except Error (List Char) := do
  let literal ← literal
  let text ← text
  return literal ++ text

/-- The pieces of a template filled in order, with what has to be used up at
the end: the positional values so far and the named ones seen. -/
def fillMarks (p : PreparedStatement) :
    Nat → List Bool → List (Mark × List Char) → Except Error (List Char)
  | next, used, [] =>
      match unusedError p next used with
      | some e => .error e
      | none => .ok []
  | next, used, (m, text) :: rest =>
      behind (p.literalFor m)
        ((fillMarks p (m.next next) (p.usedBy used m) rest).map (text ++ ·))

namespace Template

def fill (p : PreparedStatement) (next : Nat) (used : List Bool) (t : Template) :
    Except Error (List Char) := (fillMarks p next used t.rest).map (t.first ++ ·)

variable (p : PreparedStatement) (next : Nat) (used : List Bool) (t : Template)

theorem fill_push (c : Char) : (t.push c).fill p next used = (t.fill p next used).map (c :: ·) := by
  rw [fill, fill, push]
  cases fillMarks p next used t.rest <;> rfl

theorem fill_mark (m : Mark) : (t.mark m).fill p next used =
    behind (p.literalFor m) (t.fill p (m.next next) (p.usedBy used m)) := by
  rw [fill, mark, fillMarks, fill]
  cases behind (p.literalFor m)
    ((fillMarks p (m.next next) (p.usedBy used m) t.rest).map (t.first ++ ·)) <;> rfl

end Template

theorem text_literal (literal : List Char) (e : Expansion) :
    (e.literal literal).text = literal ++ e.text := by
  simp [Expansion.literal, Expansion.text]

theorem map_push {r : Except Error Expansion} (c : Char) :
    (r.map (Expansion.push c)).map Expansion.text = (r.map Expansion.text).map (c :: ·) := by
  cases r <;> rfl

theorem map_literal (literal : Except Error (List Char)) (r : Except Error Expansion) :
    (do
      let text ← literal
      let e ← r
      return e.literal text : Except Error Expansion).map Expansion.text =
      behind literal (r.map Expansion.text) := by
  cases literal with
  | error e => rfl
  | ok literal =>
      cases r with
      | error e => rfl
      | ok e => exact congrArg Except.ok (text_literal literal e)

/-- The loop takes the characters of a name as they are. -/
theorem expandLoop_name {p : PreparedStatement} {k next : Nat} {used : List Bool}
    {w rest : List Char} (hw : ∀ c ∈ w, isNameChar c = true) :
    (expandLoop p (k + w.length) false next used (w ++ rest)).map Expansion.text =
      ((expandLoop p k false next used rest).map Expansion.text).map (w ++ ·) := by
  induction w with
  | nil => cases hloop : expandLoop p k false next used rest <;> simp [hloop, Except.map]
  | cons c w ih =>
      have hc := hw c (by simp)
      have hplain : (c = ':' && startsName (w ++ rest)) = false := by
        simp [isNameChar_ne hc (d := ':') (by decide +kernel)]
      have hih := ih fun d hd => hw d (List.mem_cons_of_mem c hd)
      rw [List.length_cons, ← Nat.add_assoc, List.cons_append, expandLoop,
        if_neg (isNameChar_ne hc (by decide +kernel)),
        if_neg (isNameChar_ne hc (by decide +kernel)), hplain, if_neg Bool.false_ne_true, map_push,
        hih]
      cases expandLoop p k false next used rest <;> rfl

/-- A doubled quote stays in the string. -/
theorem expandLoop_doubled {p : PreparedStatement} {k next : Nat} {used : List Bool}
    {rest : List Char} : expandLoop p (k + 1) true next used ('"' :: '"' :: rest) =
      (expandLoop p k true next used rest).map fun e => (e.push '"').push '"' := by
  rw [expandLoop, if_pos rfl]

theorem templateLoop_doubled {k next : Nat} {rest : List Char} :
    templateLoop (k + 1) true next ('"' :: '"' :: rest) =
      ((templateLoop k true next rest).push '"').push '"' := by
  rw [templateLoop, if_pos rfl]

/-- Any other quote closes it. -/
theorem expandLoop_close {p : PreparedStatement} {k next : Nat} {used : List Bool}
    {cs : List Char} (h : ∀ rest, cs ≠ '"' :: rest) :
    expandLoop p (k + 1) true next used ('"' :: cs) =
      (expandLoop p k false next used cs).map (·.push '"') := by
  rw [expandLoop, if_pos rfl]
  exact h

theorem templateLoop_close {k next : Nat} {cs : List Char} (h : ∀ rest, cs ≠ '"' :: rest) :
    templateLoop (k + 1) true next ('"' :: cs) = (templateLoop k false next cs).push '"' := by
  rw [templateLoop, if_pos rfl]
  exact h

theorem expandLoop_inside {p : PreparedStatement} {k next : Nat} {used : List Bool} {c : Char}
    (hc : c ≠ '"') (cs : List Char) : expandLoop p (k + 1) true next used (c :: cs) =
      (expandLoop p k true next used cs).map (·.push c) :=
  if_neg hc

theorem templateLoop_inside {k next : Nat} {c : Char} (hc : c ≠ '"') (cs : List Char) :
    templateLoop (k + 1) true next (c :: cs) = (templateLoop k true next cs).push c :=
  if_neg hc

/-- The loop reads its template and fills the placeholders in order. -/
theorem expandLoop_eq {p : PreparedStatement} {fuel fuel' : Nat} {inString : Bool} {next : Nat}
    {used : List Bool} {cs : List Char} (hfuel : cs.length < fuel) (hfuel' : cs.length < fuel') :
    (expandLoop p fuel inString next used cs).map Expansion.text =
      (templateLoop fuel' inString next cs).fill p next used := by
  induction fuel using Nat.strong_induction_on generalizing fuel' inString next used cs with
  | _ fuel ih =>
      obtain ⟨fuel, rfl⟩ : ∃ k, fuel = k + 1 := ⟨fuel - 1, by omega⟩
      obtain ⟨fuel', rfl⟩ : ∃ k, fuel' = k + 1 := ⟨fuel' - 1, by omega⟩
      cases cs with
      | nil =>
          rw [expandLoop, templateLoop, Template.fill, fillMarks]
          cases unusedError p next used <;> rfl
      | cons c cs =>
          rw [List.length_cons] at hfuel hfuel'
          have hcs : cs.length < fuel := by omega
          have hcs' : cs.length < fuel' := by omega
          have hloop := @ih fuel (by omega)
          cases inString with
          | true =>
              by_cases hc : c = '"'
              · subst hc
                by_cases hdouble : ∃ rest, cs = '"' :: rest
                · obtain ⟨rest, rfl⟩ := hdouble
                  rw [List.length_cons] at hcs hcs'
                  rw [expandLoop_doubled, templateLoop_doubled, Template.fill_push,
                    Template.fill_push,
                    ← hloop (show rest.length < fuel by omega) (show rest.length < fuel' by omega)]
                  cases expandLoop p fuel true next used rest <;> rfl
                · have hone : ∀ rest, cs ≠ '"' :: rest := fun rest hcs => hdouble ⟨rest, hcs⟩
                  rw [expandLoop_close hone, templateLoop_close hone, map_push, hloop hcs hcs',
                    ← Template.fill_push]
              · rw [expandLoop_inside hc, templateLoop_inside hc, map_push, Template.fill_push,
                  hloop hcs hcs']
          | false =>
              rw [expandLoop, templateLoop]
              split
              · rw [map_push, Template.fill_push, hloop hcs hcs']
              split
              · rw [Template.fill_mark, PreparedStatement.literalFor]
                cases p.positional[next]? with
                | none => rfl
                | some v =>
                    dsimp only
                    rw [map_literal, hloop hcs hcs']
                    rfl
              split
              · rename_i hname
                obtain ⟨rfl, -⟩ : c = ':' ∧ startsName cs = true := by simpa using hname
                have hsplit := List.takeWhile_append_dropWhile (p := isNameChar) (l := cs)
                have hlength := congrArg List.length hsplit
                rw [List.length_append] at hlength
                rw [Template.fill_mark, PreparedStatement.literalFor, PreparedStatement.usedBy,
                  Mark.next]
                dsimp only
                cases p.named.findIdx? fun entry =>
                    decide (entry.1 = String.ofList (cs.takeWhile isNameChar)) with
                | none =>
                    obtain ⟨k, hk⟩ : ∃ k, fuel = k + (cs.takeWhile isNameChar).length :=
                      ⟨fuel - (cs.takeWhile isNameChar).length, by omega⟩
                    have hrest : (expandLoop p k false next used (cs.dropWhile isNameChar)).map
                        Expansion.text =
                        (templateLoop fuel' false next
                          (cs.dropWhile isNameChar)).fill p next used :=
                      ih k (by omega) (by omega) (by omega)
                    have hname : (expandLoop p (k + (cs.takeWhile isNameChar).length) false next
                        used (cs.takeWhile isNameChar ++ cs.dropWhile isNameChar)).map
                        Expansion.text = _ :=
                      expandLoop_name fun c hc => List.mem_takeWhile_imp hc
                    rw [hsplit, ← hk, hrest] at hname
                    dsimp only
                    rw [map_push, hname, Mark.text, String.toList_ofList]
                    cases (templateLoop fuel' false next (cs.dropWhile isNameChar)).fill p next used
                      <;> rfl
                | some k =>
                    have hrest : (expandLoop p fuel false next (used.set k true)
                        (cs.dropWhile isNameChar)).map Expansion.text =
                        (templateLoop fuel' false next (cs.dropWhile isNameChar)).fill p next
                          (used.set k true) :=
                      hloop (by omega) (by omega)
                    dsimp only
                    rw [map_literal, hrest]
              · rw [map_push, Template.fill_push, hloop hcs hcs']

/-- What a statement's expansion is, by its template. -/
theorem expand_eq (p : PreparedStatement) : p.expand = match p.bindError with
    | some e => .error e
    | none => (template p.sql).fill p 0 (List.replicate p.named.length false) := by
  rw [PreparedStatement.expand, PreparedStatement.expandPlaces]
  cases p.bindError with
  | some e => rfl
  | none => exact expandLoop_eq (Nat.lt_succ_self _) (Nat.lt_succ_self _)

end DdbShell
