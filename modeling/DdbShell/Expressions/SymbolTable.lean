import DdbShell.Value

/-!
The alias builder behind ExpressionAttributeNames and
ExpressionAttributeValues. Attribute names dedupe by real name, values never
do, dotted paths are aliased segment by segment and a `[subscript]` suffix
stays on its segment as it was written.
-/

namespace DdbShell

structure SymbolTable where
  namePrefix : String
  attrIx : Nat := 1
  valueIx : Nat := 1
  /-- real name to token -/
  names : Std.TreeMap String String := ∅
  /-- token to value -/
  values : Std.TreeMap String Value := ∅

/-- A computation that may mint aliases. -/
abbrev Alias := StateM SymbolTable

namespace Alias

variable {α β : Type}

@[simp] theorem pure_apply (a : α) (st : SymbolTable) : (pure a : Alias α) st = (a, st) := rfl

@[simp] theorem bind_apply (x : Alias α) (f : α → Alias β) (st : SymbolTable) :
    (x >>= f) st = f (x st).1 (x st).2 := rfl

@[simp] theorem get_apply (st : SymbolTable) : (get : Alias SymbolTable) st = (st, st) := rfl

@[simp] theorem map_apply (f : α → β) (x : Alias α) (st : SymbolTable) :
    (f <$> x) st = (f (x st).1, (x st).2) := rfl

end Alias

/-! ### The per-statement prefix -/

def prefixChars : List Char := "abcdefghijklmnopqrstuvwxyzABCDEFGHIJKLMNOPQRSTUVWXYZ".toList

/-- The low `length` digits of a counter in base 52, lowest first. -/
def prefixDigits : Nat → Nat → List Char
  | 0, _ => []
  | length + 1, value =>
      prefixChars.getD (value % prefixChars.length) 'a' ::
        prefixDigits length (value / prefixChars.length)

def uniquePrefix (counter : Nat) : String := String.ofList (prefixDigits 3 counter)

example : uniquePrefix 1 = "baa" := by decide

namespace SymbolTable

def newBare (name : String) : Alias String := fun st =>
  let token := "#a" ++ st.namePrefix ++ toString st.attrIx
  match st.names[name]? with
  | none =>
      (token, { st with attrIx := st.attrIx + 1, names := st.names.insertIfNew name token })
  | some known => (known, st)

/-- Alias the bare name and keep a subscript verbatim on the token. -/
def newSegment (name : String) : Alias String := do
  let bare := name.toList.takeWhile (· ≠ '[')
  let subscript := name.toList.dropWhile (· ≠ '[')
  return (← newBare (String.ofList bare)) ++ String.ofList subscript

/-- The segments of a document path. There is always at least one. -/
def segments (name : String) : List String :=
  (name.toList.splitOn '.').map String.ofList

def newSegments (token : String) : List String → Alias String
  | [] => return token
  | segment :: rest => do
      let next ← newSegment segment
      newSegments (if token = "" then next else token ++ "." ++ next) rest

def newAttribute (name : String) : Alias String :=
  newSegments "" (segments name)

def newValue (value : Value) : Alias String := fun st =>
  let token := ":v" ++ st.namePrefix ++ toString st.valueIx
  (token, { st with valueIx := st.valueIx + 1, values := st.values.insertIfNew token value })

/-- Token to real name, ordered by token. -/
def getNames (st : SymbolTable) : Std.TreeMap String String :=
  st.names.toList.foldl (fun inverted entry => inverted.insertIfNew entry.2 entry.1) ∅

end SymbolTable

end DdbShell
