import ShaderLift.Grammar.Reader
import ShaderLift.Tree.Expr

/-!
Reading expressions. Binary operators bind by level and to the left; a conditional may follow the
loosest of them, and an assignment may follow that and binds to the right.
-/

namespace ShaderLift.Grammar

def literal : Reader Literal := next fun
  | .int v => some (.int v)
  | .uint v => some (.uint v)
  | .float v => some (.float v)
  | .bool v => some (.bool v)
  | _ => none

def signOp : Reader UnaryOp := next fun
  | .symbol .minus => some .neg
  | .symbol .plus => some .plus
  | .symbol .bang => some .not
  | .symbol .tilde => some .bitNot
  | .symbol .inc => some .preInc
  | .symbol .dec => some .preDec
  | _ => none

def binaryOpOf : Token → Option BinaryOp
  | .symbol .star => some .mul
  | .symbol .slash => some .div
  | .symbol .percent => some .rem
  | .symbol .plus => some .add
  | .symbol .minus => some .sub
  | .symbol .shl => some .shl
  | .symbol .shr => some .shr
  | .symbol .lt => some .lt
  | .symbol .gt => some .gt
  | .symbol .le => some .le
  | .symbol .ge => some .ge
  | .symbol .eqEq => some .eq
  | .symbol .notEq => some .ne
  | .symbol .amp => some .bitAnd
  | .symbol .caret => some .bitXor
  | .symbol .pipe => some .bitOr
  | .symbol .andAnd => some .logicalAnd
  | .symbol .xorXor => some .logicalXor
  | .symbol .orOr => some .logicalOr
  | _ => none

def binaryOp (level : Nat) : Reader BinaryOp :=
  next fun t => (binaryOpOf t).filter fun op => op.level = level

def assignOp : Reader AssignOp := next fun
  | .symbol .assign => some .assign
  | .symbol .addAssign => some .add
  | .symbol .subAssign => some .sub
  | .symbol .mulAssign => some .mul
  | .symbol .divAssign => some .div
  | .symbol .remAssign => some .rem
  | _ => none

/-- What can follow a primary expression. -/
inductive Suffix where
  | index (position : Expr)
  | member (field : String)
  | inc
  | dec

def Suffix.apply (base : Expr) : Suffix → Expr
  | index position => .index .unassigned base position
  | member field => .member .unassigned base field
  | inc => .unary .unassigned .postInc base
  | dec => .unary .unassigned .postDec base

/-! The readers below take the reader of whole expressions, which stand in brackets, between the
marks of a conditional and after an assignment operator. -/

section

variable (limit : Nat) (expr : Reader Expr)

def callOrName : Reader Expr := do
  let name ← ident
  match ← optional (between .lparen .rparen (commaList limit expr)) with
  | some args => return .call .unassigned name args
  | none => return .name .unassigned name

def primary : Reader Expr :=
  (return .literal .unassigned (← literal)) <|> callOrName limit expr <|>
    (return .paren .unassigned (← between .lparen .rparen expr))

def suffix : Reader Suffix :=
  (return .index (← between .lbracket .rbracket expr)) <|>
    (do symbol .dot; return .member (← ident)) <|>
    (do symbol .inc; return .inc) <|>
    (do symbol .dec; return .dec)

def withSuffixes : Reader Expr := do
  let base ← primary limit expr
  return (← many limit (suffix expr)).foldl Suffix.apply base

def unary : Reader Expr := do
  let ops ← many limit signOp
  let operand ← withSuffixes limit expr
  return ops.foldr (fun op e => .unary .unassigned op e) operand

/-- An expression of binary operators up to a level. -/
def binary : Nat → Reader Expr
  | 0 => unary limit expr
  | level + 1 => do
    let first ← binary level
    let rest ← many limit do return (← binaryOp (level + 1), ← binary level)
    return rest.foldl (fun l (op, r) => .binary .unassigned op l r) first

def conditional : Reader Expr := do
  let cond ← binary limit expr BinaryOp.loosest
  let branches ← optional do
    symbol .question
    let yes ← expr
    symbol .colon
    return (yes, ← expr)
  match branches with
  | some (yes, no) => return .ternary .unassigned cond yes no
  | none => return cond

def assignment : Reader Expr := do
  let lhs ← conditional limit expr
  match ← optional (do return (← assignOp, ← expr)) with
  | some (op, rhs) => return .assign .unassigned op lhs rhs
  | none => return lhs

end

/-- The limit bounds both how deep expressions nest and how many items a row has; the number of
tokens is enough for either. -/
def expr : Nat → Reader Expr
  | 0 => failure
  | limit + 1 => assignment limit (expr limit)

end ShaderLift.Grammar
