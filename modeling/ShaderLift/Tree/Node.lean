import ShaderLift.Tree.Shader

/-!
One view of declarations, statements and expressions alike: a node has children, each in a slot,
and a child can be exchanged for another of its kind. A path is a list of slots from the top; what
a path leads to is read and exchanged by recursion on the path.
-/

namespace ShaderLift

/-- The place of a node in its parent. -/
inductive Slot where
  | topLevel (i : Nat)
  | arraySize (i : Nat)
  | init (i : Nat)
  | paramArraySize (i : Nat)
  | memberArraySize (i : Nat)
  | body (i : Nat)
  | expr
  | cond
  | yes
  | no
  | forInit
  | step
  | loopBody
  | operand
  | lhs
  | rhs
  | arg (i : Nat)
  | base
  | position
  deriving DecidableEq, Repr

abbrev Path := List Slot

inductive Node where
  | declaration (d : Declaration)
  | statement (s : Stmt)
  | expression (e : Expr)
  deriving BEq, Repr

namespace Node

def id : Node → NodeId
  | declaration d => d.id
  | statement s => s.id
  | expression e => e.id

def withId (new : NodeId) : Node → Node
  | declaration d => declaration (d.withId new)
  | statement s => statement (s.withId new)
  | expression e => expression (e.withId new)

def expression? : Node → Option Expr
  | expression e => some e
  | _ => none

end Node

def exprIn (slot : Slot) : Option Expr → List (Slot × Node)
  | some e => [(slot, .expression e)]
  | none => []

def sizeIn (slot : Slot) (array : Option ArraySuffix) : List (Slot × Node) :=
  exprIn slot (array.bind ArraySuffix.size)

def statementsIn (body : List Stmt) : List (Slot × Node) :=
  body.zipIdx.map fun (s, i) => (.body i, .statement s)

def Variables.children (v : Variables) : List (Slot × Node) :=
  v.vars.zipIdx.flatMap fun (d, i) => sizeIn (.arraySize i) d.array ++ exprIn (.init i) d.init

def Expr.children : Expr → List (Slot × Node)
  | literal _ _ => []
  | name _ _ => []
  | paren _ e => [(.operand, .expression e)]
  | unary _ _ e => [(.operand, .expression e)]
  | binary _ _ l r => [(.lhs, .expression l), (.rhs, .expression r)]
  | assign _ _ l r => [(.lhs, .expression l), (.rhs, .expression r)]
  | ternary _ c y n => [(.cond, .expression c), (.yes, .expression y), (.no, .expression n)]
  | call _ _ args => args.zipIdx.map fun (e, i) => (.arg i, .expression e)
  | index _ b i => [(.base, .expression b), (.position, .expression i)]
  | member _ b _ => [(.base, .expression b)]

def Stmt.children : Stmt → List (Slot × Node)
  | block _ body => statementsIn body
  | declare _ vars => vars.children
  | expr _ e => [(.expr, .expression e)]
  | ifThen _ c y => [(.cond, .expression c), (.yes, .statement y)]
  | ifElse _ c y n => [(.cond, .expression c), (.yes, .statement y), (.no, .statement n)]
  | forLoop _ init c s body =>
    (.forInit, .statement init) :: exprIn .cond c ++ exprIn .step s ++
      [(.loopBody, .statement body)]
  | whileLoop _ c body => [(.cond, .expression c), (.loopBody, .statement body)]
  | doWhile _ body c => [(.loopBody, .statement body), (.cond, .expression c)]
  | ret _ e => exprIn .expr e
  | jump _ _ => []
  | empty _ => []

def Declaration.children : Declaration → List (Slot × Node)
  | directive _ _ => []
  | precision _ _ _ => []
  | globals _ vars => vars.children
  | interfaceBlock _ b =>
    b.members.zipIdx.flatMap fun (m, i) => sizeIn (.memberArraySize i) m.array
  | qualifiers _ _ => []
  | function _ f =>
    f.params.zipIdx.flatMap (fun (p, i) => sizeIn (.paramArraySize i) p.array) ++
      statementsIn (f.body.getD [])

def Node.children : Node → List (Slot × Node)
  | declaration d => d.children
  | statement s => s.children
  | expression e => e.children

def Shader.children (s : Shader) : List (Slot × Node) :=
  s.declarations.zipIdx.map fun (d, i) => (.topLevel i, .declaration d)

def Node.child? (n : Node) (slot : Slot) : Option Node :=
  (n.children.find? fun c => c.1 = slot).map Prod.snd

/-! Exchanging a child. Nothing changes where there is no child in the slot, or one of another
kind. -/

/-- A size takes the place of a size only. -/
def ArraySuffix.setSize (a : ArraySuffix) (e : Expr) : ArraySuffix :=
  ⟨a.size.map fun _ => e⟩

def Variables.setChild (v : Variables) (slot : Slot) (e : Expr) : Variables :=
  match slot with
  | .arraySize i =>
    { v with vars := v.vars.modify i fun d => { d with array := d.array.map (·.setSize e) } }
  | .init i => { v with vars := v.vars.modify i fun d => { d with init := d.init.map fun _ => e } }
  | _ => v

def Expr.setChild : Expr → Slot → Expr → Expr
  | paren id _, .operand, e => paren id e
  | unary id op _, .operand, e => unary id op e
  | binary id op _ r, .lhs, e => binary id op e r
  | binary id op l _, .rhs, e => binary id op l e
  | assign id op _ r, .lhs, e => assign id op e r
  | assign id op l _, .rhs, e => assign id op l e
  | ternary id _ y n, .cond, e => ternary id e y n
  | ternary id c _ n, .yes, e => ternary id c e n
  | ternary id c y _, .no, e => ternary id c y e
  | call id f args, .arg i, e => call id f (args.set i e)
  | index id _ p, .base, e => index id e p
  | index id b _, .position, e => index id b e
  | member id _ f, .base, e => member id e f
  | self, _, _ => self

def Stmt.setChild : Stmt → Slot → Node → Stmt
  | block id body, .body i, .statement s => block id (body.set i s)
  | declare id vars, slot, .expression e => declare id (vars.setChild slot e)
  | expr id _, .expr, .expression e => expr id e
  | ifThen id _ y, .cond, .expression e => ifThen id e y
  | ifThen id c _, .yes, .statement s => ifThen id c s
  | ifElse id _ y n, .cond, .expression e => ifElse id e y n
  | ifElse id c _ n, .yes, .statement s => ifElse id c s n
  | ifElse id c y _, .no, .statement s => ifElse id c y s
  | forLoop id _ c t b, .forInit, .statement s => forLoop id s c t b
  | forLoop id i c t b, .cond, .expression e => forLoop id i (c.map fun _ => e) t b
  | forLoop id i c t b, .step, .expression e => forLoop id i c (t.map fun _ => e) b
  | forLoop id i c t _, .loopBody, .statement s => forLoop id i c t s
  | whileLoop id _ b, .cond, .expression e => whileLoop id e b
  | whileLoop id c _, .loopBody, .statement s => whileLoop id c s
  | doWhile id _ c, .loopBody, .statement s => doWhile id s c
  | doWhile id b _, .cond, .expression e => doWhile id b e
  | ret id v, .expr, .expression e => ret id (v.map fun _ => e)
  | self, _, _ => self

def Declaration.setChild : Declaration → Slot → Node → Declaration
  | globals id vars, slot, .expression e => globals id (vars.setChild slot e)
  | interfaceBlock id b, .memberArraySize i, .expression e =>
    interfaceBlock id { b with
      members := b.members.modify i fun m => { m with array := m.array.map (·.setSize e) } }
  | function id f, .paramArraySize i, .expression e =>
    function id { f with
      params := f.params.modify i fun p => { p with array := p.array.map (·.setSize e) } }
  | function id f, .body i, .statement s =>
    function id { f with body := f.body.map fun body => body.set i s }
  | self, _, _ => self

def Node.setChild : Node → Slot → Node → Node
  | declaration d, slot, new => declaration (d.setChild slot new)
  | statement s, slot, new => statement (s.setChild slot new)
  | expression e, slot, .expression new => expression (e.setChild slot new)
  | self, _, _ => self

def Node.at? (n : Node) : Path → Option Node
  | [] => some n
  | slot :: path => (n.child? slot).bind fun c => c.at? path

def Node.setAt (n : Node) (path : Path) (new : Node) : Node :=
  match path with
  | [] => new
  | slot :: rest =>
    match n.child? slot with
    | some c => n.setChild slot (c.setAt rest new)
    | none => n

def Shader.at? (s : Shader) : Path → Option Node
  | .topLevel i :: path => s.declarations[i]?.bind fun d => (Node.declaration d).at? path
  | _ => none

def Shader.setAt (s : Shader) (path : Path) (new : Node) : Shader :=
  match path with
  | .topLevel i :: rest =>
    ⟨s.declarations.modify i fun d =>
      match (Node.declaration d).setAt rest new with
      | .declaration d' => d'
      | _ => d⟩
  | _ => s

end ShaderLift
