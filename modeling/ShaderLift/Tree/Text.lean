import ShaderLift.Tree.Shader

/-!
The source text of a shader, in one fixed layout: a declaration or statement to a line, bodies
indented by two spaces, one space around binary operators.
-/

namespace ShaderLift

def ArraySuffix.text (a : ArraySuffix) : List Char :=
  match a.size with
  | some e => '[' :: e.text ++ [']']
  | none => ['[', ']']

/-- The text of what may be absent, which is then empty. -/
def textOrEmpty {α : Type} (text : α → List Char) : Option α → List Char
  | some a => text a
  | none => []

def Declarator.text (v : Declarator) : List Char :=
  v.name.toList ++ textOrEmpty ArraySuffix.text v.array ++
    textOrEmpty (fun e => " = ".toList ++ e.text) v.init

def Variables.text (v : Variables) : List Char :=
  v.type.text ++ ' ' :: joinTexts ", ".toList (v.vars.map Declarator.text) ++ [';']

def Jump.text : Jump → List Char
  | breakLoop => "break;".toList
  | continueLoop => "continue;".toList
  | discard => "discard;".toList

def indent (depth : Nat) : List Char := List.replicate (2 * depth) ' '

namespace Stmt

/-- Where a statement stands: on a line of its own, after the head of a loop or branch, or after
`else`. -/
inductive Place where
  | line
  | branch
  | otherwise
  deriving DecidableEq, Repr

def isBlock : Stmt → Bool
  | block _ _ => true
  | _ => false

def isIf : Stmt → Bool
  | ifThen _ _ _ => true
  | ifElse _ _ _ _ => true
  | _ => false

/-- What comes between the head and the statement: a block opens on the same line, and so does an
`if` after `else`; anything else starts a line of its own, one level deeper. -/
def lead (place : Place) (depth : Nat) (s : Stmt) : List Char :=
  match place with
  | .line => []
  | .branch => if s.isBlock then [' '] else '\n' :: indent (depth + 1)
  | .otherwise => if s.isBlock || s.isIf then [' '] else '\n' :: indent (depth + 1)

/-- The depth at which the statement's own lines stand. -/
def depthAt (place : Place) (depth : Nat) (s : Stmt) : Nat :=
  match place with
  | .line => depth
  | .branch => if s.isBlock then depth else depth + 1
  | .otherwise => if s.isBlock || s.isIf then depth else depth + 1

mutual

/-- The statement with its lead, up to and with the end of its last line. -/
def text (place : Place) (depth : Nat) : Stmt → List Char
  | block id body =>
    let s := block id body
    let d := s.depthAt place depth
    s.lead place depth ++ '\x7b' :: '\n' :: textOfBody (d + 1) body ++ indent d ++ ['\x7d', '\n']
  | ifThen id c yes =>
    let s := ifThen id c yes
    let d := s.depthAt place depth
    s.lead place depth ++ "if (".toList ++ c.text ++ ')' :: yes.text .branch d
  | ifElse id c yes no =>
    let s := ifElse id c yes no
    let d := s.depthAt place depth
    s.lead place depth ++ "if (".toList ++ c.text ++ ')' :: yes.text .branch d ++ indent d ++
      "else".toList ++ no.text .otherwise d
  | forLoop id init c step body =>
    let s := forLoop id init c step body
    let d := s.depthAt place depth
    s.lead place depth ++ "for (".toList ++ (init.text .line 0).dropLast ++
      ' ' :: textOrEmpty Expr.text c ++ "; ".toList ++ textOrEmpty Expr.text step ++
      ')' :: body.text .branch d
  | whileLoop id c body =>
    let s := whileLoop id c body
    let d := s.depthAt place depth
    s.lead place depth ++ "while (".toList ++ c.text ++ ')' :: body.text .branch d
  | doWhile id body c =>
    let s := doWhile id body c
    let d := s.depthAt place depth
    s.lead place depth ++ "do".toList ++ body.text .branch d ++ indent d ++
      "while (".toList ++ c.text ++ ");\n".toList
  | declare id vars => (declare id vars).lead place depth ++ vars.text ++ ['\n']
  | expr id e => (expr id e).lead place depth ++ e.text ++ ";\n".toList
  | ret id e =>
    (ret id e).lead place depth ++ "return".toList ++ textOrEmpty (fun e => ' ' :: e.text) e ++
      ";\n".toList
  | jump id k => (jump id k).lead place depth ++ k.text ++ ['\n']
  | empty id => (empty id).lead place depth ++ ";\n".toList

/-- Statements on lines of their own. -/
def textOfBody (depth : Nat) : List Stmt → List Char
  | [] => []
  | s :: rest => indent depth ++ s.text .line depth ++ textOfBody depth rest

end

end Stmt

def BlockMember.text (m : BlockMember) : List Char :=
  indent 1 ++ m.type.text ++ ' ' :: m.name.toList ++ textOrEmpty ArraySuffix.text m.array ++
    ";\n".toList

def InterfaceBlock.text (b : InterfaceBlock) : List Char :=
  b.qualifiers.flatMap (fun q => q.text ++ [' ']) ++ b.name.toList ++ " \x7b\n".toList ++
    b.members.flatMap BlockMember.text ++ '\x7d' ::
    textOrEmpty (fun (n : String) => ' ' :: n.toList) b.instanceName ++ ";\n".toList

/-- A parameter without a name is written as its type only. -/
def Param.text (p : Param) : List Char :=
  match p.name with
  | some name =>
    p.type.text ++ ' ' :: name.toList ++ textOrEmpty ArraySuffix.text p.array
  | none => p.type.text

def Function.text (f : Function) : List Char :=
  f.returns.text ++ ' ' :: f.name.toList ++
    '(' :: joinTexts ", ".toList (f.params.map Param.text) ++ ')' ::
    match f.body with
    | some body => " \x7b\n".toList ++ Stmt.textOfBody 1 body ++ "\x7d\n".toList
    | none => ";\n".toList

def Declaration.text : Declaration → List Char
  | directive _ text => text.toList ++ ['\n']
  | precision _ p t => "precision ".toList ++ p.text ++ ' ' :: t.text ++ ";\n".toList
  | globals _ vars => vars.text ++ ['\n']
  | interfaceBlock _ b => b.text
  | qualifiers _ list => joinTexts [' '] (list.map Qualifier.text) ++ ";\n".toList
  | function _ f => f.text

def Shader.text (s : Shader) : List Char := s.declarations.flatMap Declaration.text

end ShaderLift
