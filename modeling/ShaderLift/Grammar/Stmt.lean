import ShaderLift.Grammar.Expr
import ShaderLift.Tree.Stmt

/-!
Reading types, declarations of variables, and statements.
-/

namespace ShaderLift.Grammar

def dataType : Reader DataType := next fun
  | .ident name => DataType.ofText? name.toList
  | _ => none

def precision : Reader Precision := next fun
  | .keyword .highp => some .high
  | .keyword .mediump => some .medium
  | .keyword .lowp => some .low
  | _ => none

/-- A layout value is a whole number from zero up. -/
def layoutValue : Reader UInt32 := next fun
  | .int v => if 0 ≤ v then some v.toUInt32 else none
  | _ => none

def plainQualifier : Reader Qualifier := next fun
  | .keyword .const => some .const
  | .keyword .uniform => some .uniform
  | .keyword .in_ => some .input
  | .keyword .out => some .output
  | .keyword .inout => some .inout
  | .keyword .flat => some .flat
  | .keyword .buffer => some .buffer
  | _ => none

def jump : Reader Jump := next fun
  | .keyword .break_ => some .breakLoop
  | .keyword .continue_ => some .continueLoop
  | .keyword .discard => some .discard
  | _ => none

section

variable (limit : Nat)

def layoutItem : Reader LayoutItem := do
  let name ← ident
  let value ← optional do symbol .assign; layoutValue
  return ⟨name, value⟩

def qualifier : Reader Qualifier :=
  plainQualifier <|> (return .precision (← precision)) <|> do
    keyword .layout
    return .layout (← between .lparen .rparen (commaList1 limit layoutItem))

def qualifiedType : Reader QualifiedType :=
  return ⟨← many limit (qualifier limit), ← dataType⟩

def arraySuffix : Reader ArraySuffix :=
  return ⟨← between .lbracket .rbracket (optional (expr limit))⟩

def declarator : Reader Declarator := do
  let name ← ident
  let array ← optional (arraySuffix limit)
  let init ← optional do symbol .assign; expr limit
  return ⟨name, array, init⟩

def variableList : Reader Variables := do
  let type ← qualifiedType limit
  let vars ← commaList1 limit (declarator limit)
  symbol .semi
  return ⟨type, vars⟩

def declareStmt : Reader Stmt := return .declare .unassigned (← variableList limit)

def exprStmt : Reader Stmt := do
  let e ← expr limit
  symbol .semi
  return .expr .unassigned e

def emptyStmt : Reader Stmt := do
  symbol .semi
  return .empty .unassigned

def loopInit : Reader Stmt := declareStmt limit <|> exprStmt limit <|> emptyStmt

def returnStmt : Reader Stmt := do
  keyword .return_
  let value ← optional (expr limit)
  symbol .semi
  return .ret .unassigned value

def jumpStmt : Reader Stmt := do
  let kind ← jump
  symbol .semi
  return .jump .unassigned kind

variable (stmt : Reader Stmt)

def body : Reader (List Stmt) := between .lbrace .rbrace (many limit stmt)

def condition : Reader Expr := between .lparen .rparen (expr limit)

def ifStmt : Reader Stmt := do
  keyword .if_
  let cond ← condition limit
  let yes ← stmt
  match ← optional (do keyword .else_; stmt) with
  | some no => return .ifElse .unassigned cond yes no
  | none => return .ifThen .unassigned cond yes

def forStmt : Reader Stmt := do
  keyword .for_
  symbol .lparen
  let init ← loopInit limit
  let cond ← optional (expr limit)
  symbol .semi
  let step ← optional (expr limit)
  symbol .rparen
  return .forLoop .unassigned init cond step (← stmt)

def whileStmt : Reader Stmt := do
  keyword .while_
  return .whileLoop .unassigned (← condition limit) (← stmt)

def doStmt : Reader Stmt := do
  keyword .do_
  let inner ← stmt
  keyword .while_
  let cond ← condition limit
  symbol .semi
  return .doWhile .unassigned inner cond

def anyStmt : Reader Stmt :=
  (return .block .unassigned (← body limit stmt)) <|> ifStmt limit stmt <|> forStmt limit stmt <|>
    whileStmt limit stmt <|> doStmt limit stmt <|> returnStmt limit <|> jumpStmt <|> emptyStmt <|>
    declareStmt limit <|> exprStmt limit

end

/-- The limit bounds how deep statements and expressions nest and how many items a row has. -/
def stmt : Nat → Reader Stmt
  | 0 => failure
  | limit + 1 => anyStmt limit (stmt limit)

end ShaderLift.Grammar
