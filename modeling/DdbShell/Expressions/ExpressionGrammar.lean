import DdbShell.Client
import DdbShell.Lib.Infix
import DdbShell.Lib.Lexing
import DdbShell.Service

/-!
The service's side of an expression string: its lexical structure, document
paths, leaf conditions, and the condition, projection and update expressions
made of them, with the request's aliases resolved on the way. `size()` is left
out, as no supported rendering produces it.
-/

namespace DdbShell

open Lexing (CharClass Lexeme lex)
open Infix (Token)

/-! ### Lexical structure -/

def charClass (c : Char) : CharClass :=
  if c.isAlphanum || c = '_' || c = '#' || c = ':' then .word
  else if c = '<' || c = '>' || c = '=' then .operator
  else if c.isWhitespace then .blank
  else .single

def lexemes (text : String) : List Lexeme := lex charClass text.toList

/-- The names and values a request gives for its placeholders. -/
structure Aliases where
  names : String → Option String
  values : String → Option Value

def SymbolTable.aliases (st : SymbolTable) : Aliases :=
  ⟨fun token => st.getNames[token]?, fun token => st.values[token]?⟩

/-! ### Document paths -/

/-- An attribute and what is reached inside it: a name and its list indices at
each step. -/
abbrev Path := List (String × List Nat)

def readNumber (w : List Char) : Option Nat :=
  if w ≠ [] ∧ w.all Char.isDigit then some (Nat.ofDigitChars 10 w 0) else none

def keywords : List String := ["AND", "OR", "NOT", "BETWEEN", "IN", "SET", "REMOVE"]

/-- A `#` placeholder, or an attribute name written out. -/
def readName (al : Aliases) (w : List Char) : Option String :=
  match w with
  | '#' :: _ => al.names (String.ofList w)
  | c :: _ =>
      if c.isAlpha ∧ ':' ∉ w ∧ '#' ∉ w ∧ String.ofList w ∉ keywords then some (String.ofList w)
      else none
  | [] => none

/-- What follows the name of a path step. -/
def readTail (al : Aliases) (name : String) (indices : List Nat) :
    List Lexeme → Option (Path × List Lexeme)
  | .single '[' :: .word w :: .single ']' :: rest =>
      match readNumber w with
      | some n => readTail al name (indices ++ [n]) rest
      | none => none
  | .single '[' :: _ => none
  | .single '.' :: .word w :: rest =>
      match readName al w with
      | some next => (readTail al next [] rest).map fun r => ((name, indices) :: r.1, r.2)
      | none => none
  | .single '.' :: _ => none
  | rest => some ([(name, indices)], rest)

def readPath (al : Aliases) : List Lexeme → Option (Path × List Lexeme)
  | .word w :: rest =>
      match readName al w with
      | some name => readTail al name [] rest
      | none => none
  | _ => none

/-! ### Leaf conditions -/

inductive Operand where
  | path (p : Path)
  | value (v : Value)
  deriving DecidableEq, Repr

inductive Condition where
  | compare (op : ComparisonOp) (lhs rhs : Operand)
  | between (operand lo hi : Operand)
  | isIn (operand : Operand) (list : List Operand)
  | exists (p : Path)
  | notExists (p : Path)
  | type (p : Path) (operand : Operand)
  | beginsWith (p : Path) (operand : Operand)
  | contains (p : Path) (operand : Operand)
  deriving DecidableEq, Repr

def readOperand (al : Aliases) : List Lexeme → Option (Operand × List Lexeme)
  | .word (':' :: w) :: rest =>
      (al.values (String.ofList (':' :: w))).map fun v => (.value v, rest)
  | ls => (readPath al ls).map fun r => (.path r.1, r.2)

def readComparator : List Char → Option ComparisonOp
  | ['='] => some .equal
  | ['>'] => some .greaterThan
  | ['>', '='] => some .greaterThanOrEqual
  | ['<'] => some .lessThan
  | ['<', '='] => some .lessThanOrEqual
  | ['<', '>'] => some .notEqual
  | _ => none

/-- The rest of an operand list, up to the closing parenthesis. -/
def readOperands (al : Aliases) : Nat → List Lexeme → Option (List Operand × List Lexeme)
  | 0, _ => none
  | n + 1, ls =>
      match readOperand al ls with
      | some (o, .single ',' :: rest) => (readOperands al n rest).map fun r => (o :: r.1, r.2)
      | some (o, .single ')' :: rest) => some ([o], rest)
      | _ => none

/-- The argument list of a function of one path. -/
def readArgument (al : Aliases) (ls : List Lexeme) : Option (Path × List Lexeme) :=
  match readPath al ls with
  | some (p, .single ')' :: rest) => some (p, rest)
  | _ => none

/-- The argument list of a function of a path and an operand. -/
def readArguments (al : Aliases) (ls : List Lexeme) : Option ((Path × Operand) × List Lexeme) :=
  match readPath al ls with
  | some (p, .single ',' :: rest) =>
      match readOperand al rest with
      | some (o, .single ')' :: rest) => some ((p, o), rest)
      | _ => none
  | _ => none

/-- The condition after its first operand. -/
def readComparison (al : Aliases) (operand : Operand) :
    List Lexeme → Option (Condition × List Lexeme)
  | .operator op :: rest =>
      match readComparator op, readOperand al rest with
      | some op, some (rhs, rest) => some (.compare op operand rhs, rest)
      | _, _ => none
  | .word ['B', 'E', 'T', 'W', 'E', 'E', 'N'] :: rest =>
      match readOperand al rest with
      | some (lo, .word ['A', 'N', 'D'] :: rest) =>
          (readOperand al rest).map fun r => (.between operand lo r.1, r.2)
      | _ => none
  | .word ['I', 'N'] :: .single '(' :: rest =>
      (readOperands al rest.length rest).map fun r => (.isIn operand r.1, r.2)
  | _ => none

/-- One leaf condition off the front. -/
def readCondition (al : Aliases) : List Lexeme → Option (Condition × List Lexeme)
  | .word w :: .single '(' :: rest =>
      if w = "attribute_exists".toList then
        (readArgument al rest).map fun r => (.exists r.1, r.2)
      else if w = "attribute_not_exists".toList then
        (readArgument al rest).map fun r => (.notExists r.1, r.2)
      else if w = "attribute_type".toList then
        (readArguments al rest).map fun r => (.type r.1.1 r.1.2, r.2)
      else if w = "begins_with".toList then
        (readArguments al rest).map fun r => (.beginsWith r.1.1 r.1.2, r.2)
      else if w = "contains".toList then
        (readArguments al rest).map fun r => (.contains r.1.1 r.1.2, r.2)
      else none
  | ls =>
      match readOperand al ls with
      | some (o, rest) => readComparison al o rest
      | none => none

/-! ### Whole expressions -/

/-- The connectives and leaf conditions of a condition expression. Every step
takes at least one lexeme, so their number is fuel enough. -/
def readTokens (al : Aliases) : Nat → List Lexeme → Option (List (Token Condition))
  | _, [] => some []
  | 0, _ => none
  | n + 1, .single '(' :: rest => (readTokens al n rest).map (.lparen :: ·)
  | n + 1, .single ')' :: rest => (readTokens al n rest).map (.rparen :: ·)
  | n + 1, .word ['N', 'O', 'T'] :: rest => (readTokens al n rest).map (.not :: ·)
  | n + 1, .word ['A', 'N', 'D'] :: rest => (readTokens al n rest).map (.and :: ·)
  | n + 1, .word ['O', 'R'] :: rest => (readTokens al n rest).map (.or :: ·)
  | n + 1, ls =>
      match readCondition al ls with
      | some (c, rest) => (readTokens al n rest).map (.atom c :: ·)
      | none => none

/-- Key conditions, filters and condition expressions. -/
def readConditionExpression (al : Aliases) (text : String) : Option (Infix.Expr Condition) :=
  let ls := lexemes text
  (readTokens al ls.length ls).bind Infix.parse

/-- A comma-separated list of paths. -/
def readPaths (al : Aliases) : Nat → List Lexeme → Option (List Path)
  | 0, _ => none
  | n + 1, ls =>
      match readPath al ls with
      | some (p, []) => some [p]
      | some (p, .single ',' :: rest) => (readPaths al n rest).map (p :: ·)
      | _ => none

def readProjectionExpression (al : Aliases) (text : String) : Option (List Path) :=
  let ls := lexemes text
  readPaths al ls.length ls

/-- An operand of a SET assignment. -/
inductive SetOperand where
  | operand (o : Operand)
  | ifNotExists (p : Path) (o : Operand)
  deriving DecidableEq, Repr

/-- The right-hand side of a SET assignment. -/
inductive SetValue where
  | operand (o : SetOperand)
  | plus (l r : SetOperand)
  | minus (l r : SetOperand)
  deriving DecidableEq, Repr

inductive UpdateAction where
  | set (assignments : List (Path × SetValue))
  | remove (paths : List Path)
  deriving DecidableEq, Repr

def readSetOperand (al : Aliases) : List Lexeme → Option (SetOperand × List Lexeme)
  | .word w :: .single '(' :: rest =>
      if w = "if_not_exists".toList then
        (readArguments al rest).map fun r => (.ifNotExists r.1.1 r.1.2, r.2)
      else none
  | ls => (readOperand al ls).map fun r => (.operand r.1, r.2)

def readSetValue (al : Aliases) (ls : List Lexeme) : Option (SetValue × List Lexeme) :=
  match readSetOperand al ls with
  | some (l, .single '+' :: rest) => (readSetOperand al rest).map fun r => (.plus l r.1, r.2)
  | some (l, .single '-' :: rest) => (readSetOperand al rest).map fun r => (.minus l r.1, r.2)
  | some (l, rest) => some (.operand l, rest)
  | none => none

def readAssignment (al : Aliases) (ls : List Lexeme) : Option ((Path × SetValue) × List Lexeme) :=
  match readPath al ls with
  | some (p, .operator ['='] :: rest) => (readSetValue al rest).map fun r => ((p, r.1), r.2)
  | _ => none

def readAssignments (al : Aliases) : Nat → List Lexeme → Option (List (Path × SetValue))
  | 0, _ => none
  | n + 1, ls =>
      match readAssignment al ls with
      | some (a, []) => some [a]
      | some (a, .single ',' :: rest) => (readAssignments al n rest).map (a :: ·)
      | _ => none

def readUpdateExpression (al : Aliases) (text : String) : Option UpdateAction :=
  match lexemes text with
  | .word ['S', 'E', 'T'] :: rest => (readAssignments al rest.length rest).map .set
  | .word ['R', 'E', 'M', 'O', 'V', 'E'] :: rest => (readPaths al rest.length rest).map .remove
  | _ => none

/-! ### Truth on an item -/

/-- An item as document paths see it. -/
abbrev Document := Path → Option Value

def Operand.resolve (doc : Document) : Operand → Option Value
  | .path p => doc p
  | .value v => some v

namespace Service

/-- A predicate applied to an operand that may be absent. -/
def testOperand (svc : Service) (x : Option Value) (p : Option Predicate) : Bool :=
  match x, p with
  | some x, some p => svc.test p x
  | _, _ => false

def scalarType : Value → Option ScalarType
  | .S "N" => some .n
  | .S "S" => some .s
  | .S "B" => some .b
  | _ => none

def conditionHolds (svc : Service) (doc : Document) : Condition → Bool
  | .compare .notEqual l r =>
      !svc.testOperand (l.resolve doc) ((r.resolve doc).map (.comparison .equal))
  | .compare op l r => svc.testOperand (l.resolve doc) ((r.resolve doc).map (.comparison op))
  | .between o lo hi =>
      svc.testOperand (o.resolve doc)
        ((lo.resolve doc).bind fun lo => (hi.resolve doc).map (.between lo))
  | .isIn o list =>
      svc.testOperand (o.resolve doc) (some (.isIn (list.filterMap (Operand.resolve doc))))
  | .exists p => (doc p).isSome
  | .notExists p => (doc p).isNone
  | .type p o => svc.testOperand (doc p) (((o.resolve doc).bind scalarType).map .attributeType)
  | .beginsWith p o => svc.testOperand (doc p) ((o.resolve doc).map .beginsWith)
  | .contains p o => svc.testOperand (doc p) ((o.resolve doc).map .contains)

end Service

end DdbShell
