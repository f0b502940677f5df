import ShaderLift.Tree.Place

/-!
Giving identities to the nodes that have none, each parent before its children and siblings from
first to last: by recursion, and by a loop with a stack of paths that numbers each node in its place.
-/

namespace ShaderLift

/-- Hands out identities in increasing order. Identities are 32-bit numbers of which the greatest is
kept for nodes without one, but a supply never runs out: what needs identities to be assigned or
different says that `next` is not past `NodeId.unassigned`. -/
structure IdSupply where
  next : NodeId := 0
  deriving DecidableEq, Repr

abbrev Numbered := StateM IdSupply

def fresh : Numbered NodeId := modifyGet fun ids => (ids.next, ⟨ids.next + 1⟩)

/-- An identity that is assigned already stays. -/
def numberId (id : NodeId) : Numbered NodeId :=
  if id = .unassigned then fresh else return id

mutual

def Expr.number : Expr → Numbered Expr
  | literal id v => return literal (← numberId id) v
  | name id n => return name (← numberId id) n
  | paren id e => return paren (← numberId id) (← e.number)
  | unary id op e => return unary (← numberId id) op (← e.number)
  | binary id op l r => return binary (← numberId id) op (← l.number) (← r.number)
  | assign id op l r => return assign (← numberId id) op (← l.number) (← r.number)
  | ternary id c y n => return ternary (← numberId id) (← c.number) (← y.number) (← n.number)
  | call id f args => return call (← numberId id) f (← Expr.numberArgs args)
  | index id b i => return index (← numberId id) (← b.number) (← i.number)
  | member id b f => return member (← numberId id) (← b.number) f

def Expr.numberArgs : List Expr → Numbered (List Expr)
  | [] => return []
  | e :: es => return (← e.number) :: (← Expr.numberArgs es)

end

def numberOption : Option Expr → Numbered (Option Expr)
  | some e => return some (← e.number)
  | none => return none

def numberSuffix : Option ArraySuffix → Numbered (Option ArraySuffix)
  | some a => return some ⟨← numberOption a.size⟩
  | none => return none

def Declarator.number (d : Declarator) : Numbered Declarator :=
  return { d with array := ← numberSuffix d.array, init := ← numberOption d.init }

def Variables.number (v : Variables) : Numbered Variables :=
  return { v with vars := ← v.vars.mapM Declarator.number }

mutual

def Stmt.number : Stmt → Numbered Stmt
  | block id body => return block (← numberId id) (← Stmt.numberBody body)
  | declare id vars => return declare (← numberId id) (← vars.number)
  | expr id e => return expr (← numberId id) (← e.number)
  | ifThen id c y => return ifThen (← numberId id) (← c.number) (← y.number)
  | ifElse id c y n => return ifElse (← numberId id) (← c.number) (← y.number) (← n.number)
  | forLoop id init c s body =>
    return forLoop (← numberId id) (← init.number) (← numberOption c) (← numberOption s)
      (← body.number)
  | whileLoop id c body => return whileLoop (← numberId id) (← c.number) (← body.number)
  | doWhile id body c => return doWhile (← numberId id) (← body.number) (← c.number)
  | ret id e => return ret (← numberId id) (← numberOption e)
  | jump id k => return jump (← numberId id) k
  | empty id => return empty (← numberId id)

def Stmt.numberBody : List Stmt → Numbered (List Stmt)
  | [] => return []
  | s :: rest => return (← s.number) :: (← Stmt.numberBody rest)

end

def BlockMember.number (m : BlockMember) : Numbered BlockMember :=
  return { m with array := ← numberSuffix m.array }

def Param.number (p : Param) : Numbered Param :=
  return { p with array := ← numberSuffix p.array }

def Function.number (f : Function) : Numbered Function := do
  let params ← f.params.mapM Param.number
  match f.body with
  | some body => return { f with params, body := some (← Stmt.numberBody body) }
  | none => return { f with params }

def Declaration.number : Declaration → Numbered Declaration
  | directive id t => return directive (← numberId id) t
  | precision id p t => return precision (← numberId id) p t
  | globals id vars => return globals (← numberId id) (← vars.number)
  | interfaceBlock id b =>
    return interfaceBlock (← numberId id) { b with members := ← b.members.mapM BlockMember.number }
  | qualifiers id q => return qualifiers (← numberId id) q
  | function id f => return function (← numberId id) (← f.number)

def Shader.number (s : Shader) : Numbered Shader :=
  return ⟨← s.declarations.mapM Declaration.number⟩

/-- Puts things onto a stack one after the other, so that the last is on top. -/
def pushAll {α : Type} (stack things : List α) : List α :=
  things.foldl (fun stack x => x :: stack) stack

/-- Takes the path to a node off the stack, numbers the node in its place, and puts the paths to its
children onto the stack from the last to the first. -/
def numberFuel : Nat → List Path → Shader → Numbered Shader
  | 0, _, s => return s
  | _ + 1, [], s => return s
  | fuel + 1, path :: stack, s =>
    match s.follow? path with
    | none => numberFuel fuel stack s
    | some p => do
      let new := p.node.withId (← numberId p.node.id)
      let below := p.children.map fun (slot, _) => path ++ [slot]
      numberFuel fuel (pushAll stack below.reverse) (p.put new)

/-- The shader with its nodes numbered by the loop. Every step takes one path off the stack for good.
A path is followed from the top of the shader, so on long shaders the recursion is faster. -/
def Shader.numberByStack (s : Shader) : Numbered Shader :=
  numberFuel s.size (pushAll [] (s.places.map fun (slot, _) => [slot]).reverse) s

end ShaderLift
