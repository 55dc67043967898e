import DdbShell.Connection.Results

/-!
From outcomes to the bytes of the shell. Attributes are sorted by name, the
items of a write are printed token by token, and only the diagnostics of a
status or a transaction go to stderr. How `std::to_string` prints a double is a
parameter.
-/

namespace DdbShell

namespace Renderer

/-! ### Values and items -/

/-- The characters that a bare string does not have. A C string ends at NUL. -/
def quotedChars : List Char := [' ', '\t', ',', ':', '\n', '[', ']', '{', '}', Char.ofNat 0]

def quoteIfRequired (input : String) : String :=
  if input.toList.any quotedChars.contains then "\"" ++ input ++ "\"" else input

def sortedByName (entries : List (String × String)) : List (String × String) :=
  entries.mergeSort fun a b => !(b.1 < a.1)

/-- Parts in brackets, separated by commas. -/
def bracketed (left right : String) (parts : List String) : String :=
  left ++ joinWith ", " parts ++ right

mutual

def renderValue : Value → String
  | .S s => quoteIfRequired s
  | .N s => s
  | .BOOL b => if b then "TRUE" else "FALSE"
  | .NUL => "NULL"
  | .L list => bracketed "[" "]" (renderList list)
  | .M map =>
      bracketed "\x7b" "\x7d" ((sortedByName (renderEntries map)).map fun entry =>
        quoteIfRequired entry.1 ++ ":" ++ entry.2)
  | .B _ | .SS _ | .NS _ | .BS _ => "Unknown Type"

def renderList : List Value → List String
  | [] => []
  | v :: vs => renderValue v :: renderList vs

def renderEntries : List (String × Value) → List (String × String)
  | [] => []
  | (name, v) :: rest => (name, renderValue v) :: renderEntries rest

end

/-- An item without attributes is shown as nothing. -/
def showItem (item : ItemRow) : String :=
  if item.attributes.isEmpty then ""
  else
    bracketed "\x7b" "\x7d" ((sortedByName (renderEntries item.attributes)).map fun entry =>
      quoteIfRequired entry.1 ++ ": " ++ entry.2)

/-! ### Numbers

`doubleText` is `std::to_string` of a double. -/

/-- Digits and commas with a fraction lose the zeros at its end. -/
def trimDouble (input : String) : String :=
  let whole := input.toList.takeWhile fun c => c.isDigit || c = ','
  match input.toList.dropWhile fun c => c.isDigit || c = ',' with
  | '.' :: fraction =>
      if whole ≠ [] ∧ fraction.all Char.isDigit then
        match fraction.reverse.dropWhile (· = '0') with
        | [] => String.ofList whole
        | kept => String.ofList (whole ++ '.' :: kept.reverse)
      else input
  | _ => input

section Doubles

variable (doubleText : Double → String)

def figure (v : Option Double) : String := (v.map fun d => trimDouble (doubleText d)).getD "0"

/-- Shown only with a table name and a figure. -/
def renderConsumedCapacity (cc : ConsumedCapacity) : String :=
  match cc.tableName with
  | none => ""
  | some table =>
      if cc.capacityUnits.isSome || cc.readCapacityUnits.isSome || cc.writeCapacityUnits.isSome then
        "SELECT (" ++ table ++ ", " ++ figure doubleText cc.capacityUnits ++ ", " ++
          figure doubleText cc.readCapacityUnits ++ ", " ++
          figure doubleText cc.writeCapacityUnits ++ ")\n"
      else ""

/-- The sign is set aside while the zeros are trimmed. -/
def formatScore (score : Double) : String :=
  match (doubleText score).toList with
  | '-' :: digits => "-" ++ trimDouble (String.ofList digits)
  | _ => trimDouble (doubleText score)

/-! ### Outcomes -/

def lines (texts : List String) : String := String.join (texts.map (· ++ "\n"))

/-- Empty items are left out. -/
def renderSelect (items : List ItemRow) (cc : Option ConsumedCapacity) : String :=
  lines ((items.map showItem).filter (· ≠ "")) ++
    (cc.map (renderConsumedCapacity doubleText)).getD ""

def renderVectorRow (row : VectorSearchRow) : String :=
  let item := showItem row.item
  if item = "" then "score " ++ formatScore doubleText row.score ++ "\n"
  else item ++ " score " ++ formatScore doubleText row.score ++ "\n"

def renderVectorSearch (rows : List VectorSearchRow) (capacity : Option VectorConsumedCapacity) :
    String :=
  String.join (rows.map (renderVectorRow doubleText)) ++
    (capacity.map fun vc =>
      "SELECT (" ++ figure doubleText vc.vectorSearchRequestBytes ++
        " vector search request bytes, " ++ figure doubleText vc.vectorWriteRequestBytes ++
          " vector write request bytes)\n").getD ""

/-- A returned item stands behind its token. -/
def renderWrite : List String → List (Option ItemRow) → String
  | [], _ => ""
  | token :: tokens, items =>
      (match items.head? with
        | some (some item) => token ++ ": " ++ showItem item ++ "\n"
        | _ => token ++ "\n") ++ renderWrite tokens items.tail

def verbText : WriteVerb → String
  | .update => "UPDATE"
  | .upsert => "UPSERT"
  | .del => "DELETE"

/-- Returned items come before the accounting line. -/
def renderBulkWrite (b : BulkWriteOutcome) : String :=
  lines (b.returnedItems.map showItem) ++
    (verbText b.verb ++ " (" ++ toString b.read ++ " read, " ++ toString b.modified ++
      " modified, " ++ toString b.ccf ++ " ccf)\n")

/-- Every tab becomes three blanks. -/
def explainString (s : String) : String :=
  String.ofList (s.toList.flatMap fun c => if c = '\t' then [' ', ' ', ' '] else [c])

/-- A line break with the tabs after it becomes a blank; `broken` says that a
line break came before. -/
def joinLines (broken : Bool) : List Char → List Char
  | [] => []
  | c :: rest =>
      if c = '\n' ∨ c = '\r' then ' ' :: joinLines true rest
      else if broken && c = '\t' then joinLines true rest
      else c :: joinLines false rest

/-- A tab after a colon becomes a blank. -/
def colonTabs : List Char → List Char
  | ':' :: '\t' :: rest => ':' :: ' ' :: colonTabs rest
  | c :: rest => c :: colonTabs rest
  | [] => []

def stripNewlines (s : String) : String := String.ofList (colonTabs (joinLines false s.toList))

def renderBlock (block : ExplainBlock) : String :=
  block.apiName ++ "(" ++
    (match block.format with
      | .compact => stripNewlines block.body
      | .pretty => explainString block.body) ++ ")\n"

def renderExplain (blocks : List ExplainBlock) (trailingStatus : Option String) : String :=
  String.join (blocks.map renderBlock) ++ (trailingStatus.map (· ++ "\n")).getD ""

mutual

def render : ExecOutcome → String
  | .status token _ => token ++ "\n"
  | .report texts => lines texts
  | .empty => ""
  | .select items cc => renderSelect doubleText items cc
  | .write tokens items => renderWrite tokens items
  | .explain blocks trailingStatus => renderExplain blocks trailingStatus
  | .bulkWrite b => renderBulkWrite b
  | .transact token _ => token ++ "\n"
  | .transactRead items => lines (items.map showItem)
  | .vectorSearch rows capacity => renderVectorSearch doubleText rows capacity
  | .multi parts => renderParts parts

def renderParts : List ExecOutcome → String
  | [] => ""
  | part :: parts => render part ++ renderParts parts

end

end Doubles

mutual

/-- What belongs on stderr. -/
def renderStderr : ExecOutcome → String
  | .status _ diagnostics | .transact _ diagnostics => lines diagnostics
  | .multi parts => renderStderrParts parts
  | .report _ | .empty | .select _ _ | .write _ _ | .explain _ _ | .bulkWrite _ | .transactRead _
  | .vectorSearch _ _ => ""

def renderStderrParts : List ExecOutcome → String
  | [] => ""
  | part :: parts => renderStderr part ++ renderStderrParts parts

end

def renderError (error : Error) : String := error.message ++ "\n"

end Renderer

end DdbShell
