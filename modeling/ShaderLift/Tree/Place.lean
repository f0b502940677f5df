import ShaderLift.Tree.Search

/-!
Nodes in their places. A place has the node that stands in it and tells what the whole around it
becomes when another node of the same kind is put there. A search can keep places on its stack, so
that what it finds can be exchanged. While several nodes of a whole are being exchanged, each is kept
track of by the path to it, which leads to the node whatever is put into other places.
-/

namespace ShaderLift

/-- A place for a node in something of type `α`. -/
inductive NodePlace (α : Type) where
  | declaration (d : Declaration) (put : Declaration → α)
  | statement (s : Stmt) (put : Stmt → α)
  | expression (e : Expr) (put : Expr → α)

namespace NodePlace

variable {α β : Type}

def node : NodePlace α → Node
  | declaration d _ => .declaration d
  | statement s _ => .statement s
  | expression e _ => .expression e

/-- A node of another kind is not taken. -/
def put : NodePlace α → Node → α
  | declaration _ put, .declaration new => put new
  | statement _ put, .statement new => put new
  | expression _ put, .expression new => put new
  | declaration d put, _ => put d
  | statement s put, _ => put s
  | expression e put, _ => put e

/-- The same place, seen from further out. -/
def within (around : α → β) : NodePlace α → NodePlace β
  | declaration d put => declaration d fun new => around (put new)
  | statement s put => statement s fun new => around (put new)
  | expression e put => expression e fun new => around (put new)

end NodePlace

section

variable {α : Type}

def exprPlace (slot : Slot) (put : Expr → α) : Option Expr → List (Slot × NodePlace α)
  | some e => [(slot, .expression e put)]
  | none => []

def sizePlace (slot : Slot) (put : ArraySuffix → α) (array : Option ArraySuffix) :
    List (Slot × NodePlace α) :=
  exprPlace slot (fun new => put ⟨some new⟩) (array.bind ArraySuffix.size)

def statementPlaces (body : List Stmt) (put : List Stmt → α) : List (Slot × NodePlace α) :=
  body.zipIdx.map fun (s, i) => (.body i, .statement s fun new => put (body.set i new))

end

def Variables.places (v : Variables) : List (Slot × NodePlace Variables) :=
  v.vars.zipIdx.flatMap fun (d, i) =>
    let put (new : Declarator) : Variables := { v with vars := v.vars.set i new }
    sizePlace (.arraySize i) (fun a => put { d with array := some a }) d.array ++
      exprPlace (.init i) (fun e => put { d with init := some e }) d.init

def Expr.places : Expr → List (Slot × NodePlace Expr)
  | literal _ _ => []
  | name _ _ => []
  | paren id e => [(.operand, .expression e fun new => paren id new)]
  | unary id op e => [(.operand, .expression e fun new => unary id op new)]
  | binary id op l r =>
    [(.lhs, .expression l fun new => binary id op new r),
      (.rhs, .expression r fun new => binary id op l new)]
  | assign id op l r =>
    [(.lhs, .expression l fun new => assign id op new r),
      (.rhs, .expression r fun new => assign id op l new)]
  | ternary id c y n =>
    [(.cond, .expression c fun new => ternary id new y n),
      (.yes, .expression y fun new => ternary id c new n),
      (.no, .expression n fun new => ternary id c y new)]
  | call id f args =>
    args.zipIdx.map fun (e, i) => (.arg i, .expression e fun new => call id f (args.set i new))
  | index id b i =>
    [(.base, .expression b fun new => index id new i),
      (.position, .expression i fun new => index id b new)]
  | member id b f => [(.base, .expression b fun new => member id new f)]

def Stmt.places : Stmt → List (Slot × NodePlace Stmt)
  | block id body => statementPlaces body fun new => block id new
  | declare id vars => vars.places.map fun (slot, p) => (slot, p.within fun new => declare id new)
  | expr id e => [(.expr, .expression e fun new => expr id new)]
  | ifThen id c y =>
    [(.cond, .expression c fun new => ifThen id new y),
      (.yes, .statement y fun new => ifThen id c new)]
  | ifElse id c y n =>
    [(.cond, .expression c fun new => ifElse id new y n),
      (.yes, .statement y fun new => ifElse id c new n),
      (.no, .statement n fun new => ifElse id c y new)]
  | forLoop id init c s body =>
    (.forInit, .statement init fun new => forLoop id new c s body) ::
      exprPlace .cond (fun new => forLoop id init (some new) s body) c ++
      exprPlace .step (fun new => forLoop id init c (some new) body) s ++
      [(.loopBody, .statement body fun new => forLoop id init c s new)]
  | whileLoop id c body =>
    [(.cond, .expression c fun new => whileLoop id new body),
      (.loopBody, .statement body fun new => whileLoop id c new)]
  | doWhile id body c =>
    [(.loopBody, .statement body fun new => doWhile id new c),
      (.cond, .expression c fun new => doWhile id body new)]
  | ret id e => exprPlace .expr (fun new => ret id (some new)) e
  | jump _ _ => []
  | empty _ => []

def Declaration.places : Declaration → List (Slot × NodePlace Declaration)
  | directive _ _ => []
  | precision _ _ _ => []
  | globals id vars => vars.places.map fun (slot, p) => (slot, p.within fun new => globals id new)
  | interfaceBlock id b =>
    b.members.zipIdx.flatMap fun (m, i) =>
      let put (new : BlockMember) : Declaration :=
        interfaceBlock id { b with members := b.members.set i new }
      sizePlace (.memberArraySize i) (fun a => put { m with array := some a }) m.array
  | qualifiers _ _ => []
  | function id f =>
    (f.params.zipIdx.flatMap fun (p, i) =>
      let put (new : Param) : Declaration := function id { f with params := f.params.set i new }
      sizePlace (.paramArraySize i) (fun a => put { p with array := some a }) p.array) ++
      statementPlaces (f.body.getD []) fun new => function id { f with body := some new }

namespace NodePlace

variable {α : Type}

/-- The places of the children, in the whole that the parent has its place in. -/
def children : NodePlace α → List (Slot × NodePlace α)
  | declaration d put => d.places.map fun (slot, p) => (slot, p.within put)
  | statement s put => s.places.map fun (slot, p) => (slot, p.within put)
  | expression e put => e.places.map fun (slot, p) => (slot, p.within put)

def child? (p : NodePlace α) (slot : Slot) : Option (NodePlace α) :=
  (p.children.find? fun c => c.1 = slot).map Prod.snd

/-- The place that a path leads to from here. -/
def follow? (p : NodePlace α) : Path → Option (NodePlace α)
  | [] => some p
  | slot :: path => (p.child? slot).bind fun c => c.follow? path

/-- The children as they come onto a stack. -/
def below (p : NodePlace α) : List (NodePlace α) := (p.children.map Prod.snd).reverse

def searchFuel (id : NodeId) : Nat → List (NodePlace α) → Option (NodePlace α)
  | 0, _ => none
  | _ + 1, [] => none
  | fuel + 1, p :: stack =>
    if p.node.id = id then some p else searchFuel id fuel (p.below ++ stack)

end NodePlace

namespace Shader

/-- The places of the declarations. -/
def places (s : Shader) : List (Slot × NodePlace Shader) :=
  s.declarations.zipIdx.map fun (d, i) =>
    (.topLevel i, .declaration d fun new => ⟨s.declarations.set i new⟩)

/-- The place that a path leads to. -/
def follow? (s : Shader) : Path → Option (NodePlace Shader)
  | [] => none
  | slot :: path =>
    ((s.places.find? fun c => c.1 = slot).map Prod.snd).bind fun p => p.follow? path

/-- The place of a node with the identity. -/
def place? (s : Shader) (id : NodeId) : Option (NodePlace Shader) :=
  NodePlace.searchFuel id s.size (s.places.map Prod.snd).reverse

end Shader

end ShaderLift
