import ShaderLift.Grammar.Stmt
import ShaderLift.Token.Lexer
import ShaderLift.Tree.Numbering

/-!
Reading a whole shader, from tokens and from source text.
-/

namespace ShaderLift.Grammar

section

variable (limit : Nat)

def directive : Reader Declaration := next fun
  | .directive text => some (.directive .unassigned text)
  | _ => none

def precisionDecl : Reader Declaration := do
  keyword .precision
  let p ← precision
  let t ← dataType
  symbol .semi
  return .precision .unassigned p t

def param : Reader Param :=
  return ⟨← qualifiedType limit, ← optional ident, ← optional (arraySuffix limit)⟩

/-- A lone `void` stands for no parameters. -/
def withoutVoid : List Param → List Param
  | [⟨⟨[], .void⟩, none, none⟩] => []
  | params => params

def functionBody : Reader (Option (List Stmt)) :=
  (return some (← body limit (stmt limit))) <|> do symbol .semi; return none

def function : Reader Declaration := do
  let returns ← qualifiedType limit
  let name ← ident
  let params ← between .lparen .rparen (commaList limit (param limit))
  return .function .unassigned ⟨returns, name, withoutVoid params, ← functionBody limit⟩

def blockMember : Reader BlockMember := do
  let type ← qualifiedType limit
  let name ← ident
  let array ← optional (arraySuffix limit)
  symbol .semi
  return ⟨type, name, array⟩

def interfaceBlock : Reader Declaration := do
  let qualifiers ← many1 limit (qualifier limit)
  let name ← ident
  let members ← between .lbrace .rbrace (many limit (blockMember limit))
  let instanceName ← optional ident
  symbol .semi
  return .interfaceBlock .unassigned ⟨qualifiers, name, members, instanceName⟩

def qualifiersDecl : Reader Declaration := do
  let qualifiers ← many1 limit (qualifier limit)
  symbol .semi
  return .qualifiers .unassigned qualifiers

def declaration : Reader Declaration :=
  directive <|> precisionDecl <|> function limit <|> interfaceBlock limit <|>
    (return .globals .unassigned (← variableList limit)) <|> qualifiersDecl limit

end

end ShaderLift.Grammar

namespace ShaderLift

/-- The shader that the tokens spell, if they spell one to the end. Its nodes are unassigned. -/
def Shader.ofTokens? (tokens : List Token) : Option Shader :=
  let limit := tokens.length + 1
  match Grammar.many limit (Grammar.declaration limit) tokens with
  | some (declarations, []) => some ⟨declarations⟩
  | _ => none

/-- What a source text amounts to: the stretches that are no tokens, and the shader that the tokens
between them spell, if they do. -/
structure Parsed where
  lexErrors : List LexError
  shader : Option Shader
  deriving Repr

def Parsed.ofSource (source : String) : Parsed :=
  let lexed := lex source.toList
  ⟨lexed.errors, Shader.ofTokens? (lexed.tokens.map Prod.fst)⟩

/-- Why a source text is refused. -/
structure Rejection where
  lexErrors : List LexError
  /-- Whether the tokens that were found spell no shader. -/
  malformed : Bool
  deriving DecidableEq, Repr

/-- The shader that the tokens spell, whatever stands between them. -/
def Parsed.spelled (p : Parsed) : Except Rejection Shader :=
  match p.shader with
  | some shader => .ok shader
  | none => .error ⟨p.lexErrors, true⟩

/-- Reads a shader and numbers its nodes. The supply comes back with a refusal as well. -/
def Shader.read (source : String) (ids : IdSupply) : Except Rejection Shader × IdSupply :=
  match Parsed.ofSource source with
  | ⟨[], some shader⟩ =>
    let (shader, ids) := shader.number ids
    (.ok shader, ids)
  | ⟨errors, shader⟩ => (.error ⟨errors, shader.isNone⟩, ids)

end ShaderLift
