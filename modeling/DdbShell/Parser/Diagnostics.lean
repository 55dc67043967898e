import DdbShell.Lib.Lines
import DdbShell.Parser.Batch
import DdbShell.Parser.Lexer

/-!
Where a syntax error is reported. The scanner moves a line and column cursor
over every lexeme it matches, also over those it discards, and keeps the last
one; an error is composed from the cursor and a caret under the source line.

`Driver` runs the batch with the scanner beside it: its cursor moves exactly
when the parser reads a token, and it runs on from statement to statement.
-/

namespace DdbShell

open Flex (Lexeme scan)
open Lexer (lex)
open LR (Config)
open Lines

/-! ### The cursor -/

structure Cursor where
  line : Nat := 1
  column : Nat := 1
  lastLexeme : List Char := []
  deriving DecidableEq, Repr

/-- What resets the column: each of the two characters of a CRLF does. -/
def breaksLine (c : Char) : Bool := c = '\n' || c = '\r'

namespace Cursor

def advance (cur : Cursor) (c : Char) : Cursor :=
  if breaksLine c then { cur with line := cur.line + 1, column := 1 }
  else { cur with column := cur.column + 1 }

def onToken (cur : Cursor) (text : List Char) : Cursor :=
  text.foldl advance { cur with lastLexeme := text }

end Cursor

/-! ### The caret -/

/-- What ends a line of the input where the diagnostic looks for it. -/
def newline (c : Char) : Bool := c = '\n'

/-- The offset at which the search for a line ends, so many line ends after
`start`, or as far as there are any. -/
def findLine (input : List Char) : Nat → Nat → Nat
  | 0, start => start
  | n + 1, start =>
      match (input.drop start).findIdx? newline with
      | some nl => findLine input n (start + nl + 1)
      | none => start

/-- A line without the carriage return of a CRLF. -/
def chomp (line : List Char) : List Char :=
  if line.getLast? = some '\r' then line.dropLast else line

structure Caret where
  lineStart : Nat
  srcLine : List Char
  indent : Nat
  deriving DecidableEq, Repr

namespace Caret

/-- What stands before the caret; tabs are kept so that they line up. -/
def padding (caret : Caret) : List Char :=
  (caret.srcLine.take caret.indent).map fun c => if c = '\t' then '\t' else ' '

/-- The line, and the caret under it. -/
def text (caret : Caret) : List Char := caret.srcLine ++ '\n' :: caret.padding ++ ['^']

/-- The caret under the place between two parts of a text. -/
def under (before after : List Char) : Caret :=
  let left := lastLine newline before
  ⟨before.length - left.length, chomp (left ++ firstLine newline after), left.length⟩

end Caret

def buildCaret (input : List Char) (cur : Cursor) : Option Caret :=
  let lineStart := findLine input (cur.line - 1) 0
  let srcLine := chomp (firstLine newline (input.drop lineStart))
  if srcLine.isEmpty then none
  else
    let lexemeLen := cur.lastLexeme.length
    let caretCol := if lexemeLen < cur.column then cur.column - lexemeLen else cur.column
    some ⟨lineStart, srcLine, min (max caretCol 1 - 1) srcLine.length⟩

structure SyntaxError where
  line : Nat
  column : Nat
  lexeme : List Char
  caret : Option Caret
  deriving DecidableEq, Repr

def setError (input : List Char) (cur : Cursor) : SyntaxError :=
  ⟨cur.line, cur.column, cur.lastLexeme, buildCaret input cur⟩

/-- The text of the error. -/
def SyntaxError.composed (e : SyntaxError) (message : String) : List Char :=
  let location := s!"[{e.line}, {e.column}] {message} at "
  let caret := match e.caret with
    | some caret => '\n' :: caret.text
    | none => []
  location.toList ++ e.lexeme ++ caret

/-! ### The driver -/

/-- What the scanner has left after the next token, and its cursor there. At
the end of the input the last lexeme stays that of the last rule matched. -/
def yylex : List (Lexeme SymbolType) → Cursor → List (Lexeme SymbolType) × Cursor
  | [], cur => ([], cur)
  | l :: ls, cur =>
      match l.token with
      | some _ => (ls, cur.onToken l.text)
      | none => yylex ls (cur.onToken l.text)

namespace BatchState

/-- Whether the next move of the parser reads a token. -/
def reads (b : BatchState) : Bool :=
  b.phase = .running && b.parser.look.isUnread &&
    statementGrammar.needsToken (statementGrammar.items SymbolType.kind b.parser)

/-- The end of the input, or a character that is taken for it. -/
def endsStatement : LR.Look SymbolType → Bool
  | .atEnd => true
  | .token token => token.kind = .endOfInput
  | .unread => false

/-- The parser at which the next move reports a syntax error, if it does. -/
def failsAt (b : BatchState) : Option (Config SymbolType Nonterminal) :=
  match b.phase with
  | .running =>
      match statementGrammar.step SymbolType.kind b.parser with
      | .accept (.node _ []) c => if endsStatement c.look then none else some c
      | .accept _ _ | .next _ => none
      | .error => some b.parser
  | .finished | .failed _ => none

end BatchState

structure Driver where
  batch : BatchState
  /-- the lexemes the scanner has not come to -/
  unread : List (Lexeme SymbolType)
  cursor : Cursor

namespace Driver

def start (input : List Char) : Driver := ⟨.start (lex input), scan Lexer.rules input, {}⟩

def step (d : Driver) : Driver :=
  if d.batch.reads then
    let (unread, cursor) := yylex d.unread d.cursor
    ⟨d.batch.step, unread, cursor⟩
  else { d with batch := d.batch.step }

/-- The driver after so many moves of its parsers. -/
def run (input : List Char) : Nat → Driver
  | 0 => start input
  | n + 1 => (run input n).step

/-- The batch is the one its tokens alone give. -/
theorem run_batch (input : List Char) (n : Nat) :
    (run input n).batch = parseBatch (lex input) n := by
  induction n with
  | zero => rfl
  | succ n ih =>
      rw [run, step, parseBatch, ← ih]
      split <;> rfl

end Driver

end DdbShell
