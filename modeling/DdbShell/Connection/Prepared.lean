import DdbShell.Connection.Literal

/-!
Prepared statements: binding, and the expansion of the placeholders before the
text is scanned. The expanded text is kept as its pieces, so that the places of
the placeholders can be told; `Frame` is what of it the template alone decides.
-/

namespace DdbShell

structure PreparedStatement where
  sql : List Char
  positional : List Value
  named : List (String × Value)
  bindError : Option Error

namespace PreparedStatement

def new (sql : String) : PreparedStatement := ⟨sql.toList, [], [], none⟩

/-- Bind by 1-based position. Skipped positions hold a null. -/
def bindIndex (p : PreparedStatement) (index1 : Int) (v : Value) : PreparedStatement :=
  if index1 < 1 then
    let e : Error :=
      ⟨.invalidArgument, "positional bind index must be >= 1, got " ++ toString index1⟩
    { p with bindError := some (p.bindError.getD e) }
  else
    let idx := (index1 - 1).toNat
    { p with positional :=
        (p.positional ++ List.replicate (idx + 1 - p.positional.length) Value.NUL).set idx v }

/-- Bind by name; a name bound again keeps its place. -/
def bindName (p : PreparedStatement) (name : String) (v : Value) : PreparedStatement :=
  if p.named.any fun entry => entry.1 = name then
    { p with named := p.named.map fun entry => if entry.1 = name then (name, v) else entry }
  else { p with named := p.named ++ [(name, v)] }

end PreparedStatement

def isNameChar (c : Char) : Bool :=
  'a' ≤ c && c ≤ 'z' || 'A' ≤ c && c ≤ 'Z' || '0' ≤ c && c ≤ '9' || c = '_'

/-- A name begins here, and not with a digit. -/
def startsName : List Char → Bool
  | c :: _ => isNameChar c && !('0' ≤ c && c ≤ '9')
  | [] => false

/-- An expanded text: what stands before the first placeholder, then each
literal with the template's text after it. -/
structure Expansion where
  first : List Char
  rest : List (List Char × List Char)
  deriving DecidableEq, Repr

namespace Expansion

def push (c : Char) (e : Expansion) : Expansion := { e with first := c :: e.first }

def literal (text : List Char) (e : Expansion) : Expansion := ⟨[], (text, e.first) :: e.rest⟩

def text (e : Expansion) : List Char := e.first ++ e.rest.flatMap fun piece => piece.1 ++ piece.2

end Expansion

/-- What the loop has to have used up when it ends. -/
def unusedError (p : PreparedStatement) (next : Nat) (used : List Bool) : Option Error :=
  if next < p.positional.length then
    some ⟨.invalidArgument, "bound positional parameter #" ++ toString (next + 1) ++
      " has no matching ? placeholder"⟩
  else
    ((p.named.zip used).find? fun entry => !entry.2).map fun entry =>
      ⟨.invalidArgument, "bound parameter :" ++ entry.1.1 ++ " has no matching placeholder"⟩

/-- The loop over the template: whether it is in a string, the next positional
parameter, and the named ones seen. Each turn takes at least a character. -/
def expandLoop (p : PreparedStatement) :
    Nat → Bool → Nat → List Bool → List Char → Except Error Expansion
  | 0, _, _, _, _ => .ok ⟨[], []⟩
  | _ + 1, _, next, used, [] =>
      match unusedError p next used with
      | some e => .error e
      | none => .ok ⟨[], []⟩
  | fuel + 1, true, next, used, c :: cs =>
      if c = '"' then
        match cs with
        -- a doubled quote stays in the string
        | '"' :: rest =>
            (expandLoop p fuel true next used rest).map fun e => (e.push '"').push '"'
        | _ => (expandLoop p fuel false next used cs).map (·.push '"')
      else (expandLoop p fuel true next used cs).map (·.push c)
  | fuel + 1, false, next, used, c :: cs =>
      if c = '"' then (expandLoop p fuel true next used cs).map (·.push c)
      else if c = '?' then
        match p.positional[next]? with
        | none => .error ⟨.invalidArgument, "positional placeholder #" ++ toString (next + 1) ++
            " has no bound value"⟩
        | some v => do
            let text ← renderLiteral v
            let e ← expandLoop p fuel false (next + 1) used cs
            return e.literal text
      else if c = ':' && startsName cs then
        let name := String.ofList (cs.takeWhile isNameChar)
        match p.named.findIdx? fun entry => entry.1 = name with
        | none => (expandLoop p fuel false next used cs).map (·.push c)
        | some k => do
            let text ← renderLiteral ((p.named[k]?).elim .NUL Prod.snd)
            let e ← expandLoop p fuel false next (used.set k true) (cs.dropWhile isNameChar)
            return e.literal text
      else (expandLoop p fuel false next used cs).map (·.push c)

namespace PreparedStatement

/-- The expansion with its places. -/
def expandPlaces (p : PreparedStatement) : Except Error Expansion :=
  match p.bindError with
  | some e => .error e
  | none =>
      expandLoop p (p.sql.length + 1) false 0 (List.replicate p.named.length false) p.sql

def expand (p : PreparedStatement) : Except Error (List Char) := p.expandPlaces.map (·.text)

end PreparedStatement

/-! ### What the template decides -/

inductive Slot where
  | positional (index : Nat)
  | named (name : String)
  deriving DecidableEq, Repr

/-- The texts of a template around its placeholders. -/
structure Frame where
  first : List Char
  rest : List (Slot × List Char)
  deriving DecidableEq, Repr

namespace Frame

def push (c : Char) (f : Frame) : Frame := { f with first := c :: f.first }

def placeholder (slot : Slot) (f : Frame) : Frame := ⟨[], (slot, f.first) :: f.rest⟩

end Frame

/-- The same walk over the template, without the values. -/
def frameLoop (names : List String) : Nat → Bool → Nat → List Char → Frame
  | 0, _, _, _ => ⟨[], []⟩
  | _ + 1, _, _, [] => ⟨[], []⟩
  | fuel + 1, true, next, c :: cs =>
      if c = '"' then
        match cs with
        | '"' :: rest => ((frameLoop names fuel true next rest).push '"').push '"'
        | _ => (frameLoop names fuel false next cs).push '"'
      else (frameLoop names fuel true next cs).push c
  | fuel + 1, false, next, c :: cs =>
      if c = '"' then (frameLoop names fuel true next cs).push c
      else if c = '?' then (frameLoop names fuel false (next + 1) cs).placeholder (.positional next)
      else if c = ':' && startsName cs then
        let name := String.ofList (cs.takeWhile isNameChar)
        if name ∈ names then
          (frameLoop names fuel false next (cs.dropWhile isNameChar)).placeholder (.named name)
        else (frameLoop names fuel false next cs).push c
      else (frameLoop names fuel false next cs).push c

namespace PreparedStatement

def names (p : PreparedStatement) : List String := p.named.map Prod.fst

def frame (p : PreparedStatement) : Frame :=
  frameLoop p.names (p.sql.length + 1) false 0 p.sql

/-- The value bound to a placeholder. -/
def value (p : PreparedStatement) : Slot → Option Value
  | .positional index => p.positional[index]?
  | .named name => (p.named.find? fun entry => entry.1 = name).map Prod.snd

end PreparedStatement

/-- An expansion puts a rendered value at each placeholder of a frame and has
its texts elsewhere. -/
structure Frame.FilledBy (p : PreparedStatement) (f : Frame) (e : Expansion) : Prop where
  first : e.first = f.first
  rest : List.Forall₂ (fun place piece => piece.2 = place.2 ∧
    ∃ v, p.value place.1 = some v ∧ renderLiteral v = .ok piece.1) f.rest e.rest

namespace Frame.FilledBy

variable {p : PreparedStatement} {f : Frame} {e : Expansion}

theorem push (h : f.FilledBy p e) (c : Char) : (f.push c).FilledBy p (e.push c) :=
  ⟨congrArg (c :: ·) h.first, h.rest⟩

theorem literal (h : f.FilledBy p e) {slot : Slot} {v : Value} {text : List Char}
    (hv : p.value slot = some v) (htext : renderLiteral v = .ok text) :
    (f.placeholder slot).FilledBy p (e.literal text) :=
  ⟨rfl, .cons ⟨h.first, v, hv, htext⟩ h.rest⟩

end Frame.FilledBy

/-- A named placeholder has its name's first entry. -/
theorem value_of_findIdx {p : PreparedStatement} {name : String} {k : Nat}
    (h : (p.named.findIdx? fun entry => entry.1 = name) = some k) :
    p.value (.named name) = some ((p.named[k]?).elim .NUL Prod.snd) := by
  obtain ⟨hk, hname, hfirst⟩ := List.findIdx?_eq_some_iff_getElem.mp h
  have hfind : (p.named.find? fun entry => decide (entry.1 = name)) = some p.named[k] :=
    List.find?_eq_some_iff_getElem.mpr ⟨hname, k, hk, rfl, fun j hj => by simpa using hfirst j hj⟩
  simp [PreparedStatement.value, hfind, List.getElem?_eq_getElem hk]

theorem mem_names_iff {p : PreparedStatement} {name : String} :
    name ∈ p.names ↔ (p.named.findIdx? fun entry => entry.1 = name) ≠ none := by
  rw [ne_eq, List.findIdx?_eq_none_iff, PreparedStatement.names, List.mem_map]
  simp

theorem expandLoop_filled {p : PreparedStatement} {fuel : Nat} {inString : Bool} {next : Nat}
    {used : List Bool} {cs : List Char} {e : Expansion}
    (h : expandLoop p fuel inString next used cs = .ok e) :
    (frameLoop p.names fuel inString next cs).FilledBy p e := by
  induction fuel generalizing inString next used cs e with
  | zero =>
      cases h
      exact ⟨rfl, .nil⟩
  | succ fuel ih =>
      cases cs with
      | nil =>
          rw [expandLoop] at h
          split at h
          · cases h
          · cases h
            exact ⟨rfl, .nil⟩
      | cons c cs =>
          cases inString with
          | true =>
              simp only [expandLoop, frameLoop] at h ⊢
              split at h
              · rename_i hc
                rw [if_pos hc]
                split at h
                · obtain ⟨e', he', rfl⟩ := map_eq_ok h
                  exact ((ih he').push '"').push '"'
                · obtain ⟨e', he', rfl⟩ := map_eq_ok h
                  exact (ih he').push '"'
              · rename_i hc
                rw [if_neg hc]
                obtain ⟨e', he', rfl⟩ := map_eq_ok h
                exact (ih he').push c
          | false =>
              rw [expandLoop] at h
              rw [frameLoop]
              split at h
              · rename_i hc
                rw [if_pos hc]
                obtain ⟨e', he', rfl⟩ := map_eq_ok h
                exact (ih he').push c
              rename_i hquote
              rw [if_neg hquote]
              split at h
              · rename_i hc
                rw [if_pos hc]
                split at h
                · cases h
                · rename_i v hv
                  obtain ⟨text, htext, h⟩ := bind_eq_ok h
                  obtain ⟨e', he', h⟩ := bind_eq_ok h
                  cases h
                  exact (ih he').literal hv htext
              rename_i hmark
              rw [if_neg hmark]
              split at h
              · rename_i hc
                rw [if_pos hc]
                dsimp only at h ⊢
                split at h
                · rename_i hk
                  rw [if_neg fun hmem => mem_names_iff.mp hmem hk]
                  obtain ⟨e', he', rfl⟩ := map_eq_ok h
                  exact (ih he').push c
                · rename_i k hk
                  rw [if_pos (mem_names_iff.mpr (by rw [hk]; exact Option.some_ne_none k))]
                  obtain ⟨text, htext, h⟩ := bind_eq_ok h
                  obtain ⟨e', he', h⟩ := bind_eq_ok h
                  cases h
                  exact (ih he').literal (value_of_findIdx hk) htext
              · rename_i hc
                rw [if_neg hc]
                obtain ⟨e', he', rfl⟩ := map_eq_ok h
                exact (ih he').push c

/-- Every expansion of a statement fills its frame. -/
theorem expandPlaces_filled {p : PreparedStatement} {e : Expansion}
    (h : p.expandPlaces = .ok e) : p.frame.FilledBy p e := by
  rw [PreparedStatement.expandPlaces] at h
  split at h
  · cases h
  · exact expandLoop_filled h

/-! ### Two bindings of one template -/

/-- Two bindings of the same placeholders of one template, the names in any
order. -/
structure SamePlaceholders (p q : PreparedStatement) : Prop where
  sql : q.sql = p.sql
  positional : q.positional.length = p.positional.length
  named : q.names.Perm p.names

namespace PreparedStatement

def bound (p : PreparedStatement) : List Value := p.positional ++ p.named.map Prod.snd

end PreparedStatement

theorem value_mem_bound {p : PreparedStatement} {slot : Slot} {v : Value}
    (h : p.value slot = some v) : v ∈ p.bound := by
  rw [PreparedStatement.bound, List.mem_append]
  cases slot with
  | positional index => exact .inl (List.mem_of_getElem? h)
  | named name =>
      obtain ⟨entry, hentry, rfl⟩ := Option.map_eq_some_iff.mp h
      exact .inr (List.mem_map_of_mem (List.mem_of_find?_eq_some hentry))

/-- A frame knows of the names only which there are. -/
theorem frameLoop_congr {names names' : List String} (h : ∀ name, name ∈ names ↔ name ∈ names')
    (fuel : Nat) (inString : Bool) (next : Nat) (cs : List Char) :
    frameLoop names fuel inString next cs = frameLoop names' fuel inString next cs := by
  induction fuel generalizing inString next cs with
  | zero => rfl
  | succ fuel ih =>
      cases cs with
      | nil => rfl
      | cons c cs => cases inString <;> simp only [frameLoop, ih, h]

theorem SamePlaceholders.frame_eq {p q : PreparedStatement} (h : SamePlaceholders p q) :
    q.frame = p.frame := by
  rw [PreparedStatement.frame, PreparedStatement.frame, h.sql]
  exact frameLoop_congr (fun _ => h.named.mem_iff) _ _ _ _

end DdbShell
