import Mathlib
import ShaderLift.Proofs.Nodes

/-!
Putting expressions in the place of others that are known by their identities. Nothing changes
where there is no identity to substitute for, two substitutions in a row are one, and the
identities afterwards are those from before and those of what was put in.
-/

namespace ShaderLift

abbrev Substitution := NodeId → Option Expr

def Substitution.single (id : NodeId) (new : Expr) : Substitution :=
  fun i => if i = id then some new else none

mutual

/-- What is put in a node's place is not looked into. -/
def Expr.substitute (σ : Substitution) : Expr → Expr
  | literal id v => (σ id).getD (literal id v)
  | name id n => (σ id).getD (name id n)
  | paren id e => (σ id).getD (paren id (e.substitute σ))
  | unary id op e => (σ id).getD (unary id op (e.substitute σ))
  | binary id op l r => (σ id).getD (binary id op (l.substitute σ) (r.substitute σ))
  | assign id op l r => (σ id).getD (assign id op (l.substitute σ) (r.substitute σ))
  | ternary id c y n =>
    (σ id).getD (ternary id (c.substitute σ) (y.substitute σ) (n.substitute σ))
  | call id f args => (σ id).getD (call id f (Expr.substituteArgs σ args))
  | index id b i => (σ id).getD (index id (b.substitute σ) (i.substitute σ))
  | member id b f => (σ id).getD (member id (b.substitute σ) f)

def Expr.substituteArgs (σ : Substitution) : List Expr → List Expr
  | [] => []
  | e :: es => e.substitute σ :: Expr.substituteArgs σ es

end

def ArraySuffix.substitute (σ : Substitution) (a : ArraySuffix) : ArraySuffix :=
  ⟨a.size.map (Expr.substitute σ)⟩

def Declarator.substitute (σ : Substitution) (d : Declarator) : Declarator :=
  { d with
    array := d.array.map (ArraySuffix.substitute σ)
    init := d.init.map (Expr.substitute σ) }

def Variables.substitute (σ : Substitution) (v : Variables) : Variables :=
  { v with vars := v.vars.map (Declarator.substitute σ) }

mutual

def Stmt.substitute (σ : Substitution) : Stmt → Stmt
  | block id body => block id (Stmt.substituteBody σ body)
  | declare id vars => declare id (vars.substitute σ)
  | expr id e => expr id (e.substitute σ)
  | ifThen id c y => ifThen id (c.substitute σ) (y.substitute σ)
  | ifElse id c y n => ifElse id (c.substitute σ) (y.substitute σ) (n.substitute σ)
  | forLoop id init c s body =>
    forLoop id (init.substitute σ) (c.map (Expr.substitute σ)) (s.map (Expr.substitute σ))
      (body.substitute σ)
  | whileLoop id c body => whileLoop id (c.substitute σ) (body.substitute σ)
  | doWhile id body c => doWhile id (body.substitute σ) (c.substitute σ)
  | ret id e => ret id (e.map (Expr.substitute σ))
  | jump id k => jump id k
  | empty id => empty id

def Stmt.substituteBody (σ : Substitution) : List Stmt → List Stmt
  | [] => []
  | s :: rest => s.substitute σ :: Stmt.substituteBody σ rest

end

def BlockMember.substitute (σ : Substitution) (m : BlockMember) : BlockMember :=
  { m with array := m.array.map (ArraySuffix.substitute σ) }

def Param.substitute (σ : Substitution) (p : Param) : Param :=
  { p with array := p.array.map (ArraySuffix.substitute σ) }

def Function.substitute (σ : Substitution) (f : Function) : Function :=
  { f with
    params := f.params.map (Param.substitute σ)
    body := f.body.map (Stmt.substituteBody σ) }

def Declaration.substitute (σ : Substitution) : Declaration → Declaration
  | directive id t => directive id t
  | precision id p t => precision id p t
  | globals id vars => globals id (vars.substitute σ)
  | interfaceBlock id b =>
    interfaceBlock id { b with members := b.members.map (BlockMember.substitute σ) }
  | qualifiers id list => qualifiers id list
  | function id f => function id (f.substitute σ)

def Node.substitute (σ : Substitution) : Node → Node
  | declaration d => declaration (d.substitute σ)
  | statement s => statement (s.substitute σ)
  | expression e => expression (e.substitute σ)

def Shader.substitute (σ : Substitution) (s : Shader) : Shader :=
  ⟨s.declarations.map (Declaration.substitute σ)⟩

theorem Expr.substituteArgs_eq (σ : Substitution) (args : List Expr) :
    substituteArgs σ args = args.map (substitute σ) := by
  induction args with
  | nil => rfl
  | cons e es ih => simp [substituteArgs, ih]

theorem Stmt.substituteBody_eq (σ : Substitution) (body : List Stmt) :
    substituteBody σ body = body.map (substitute σ) := by
  induction body with
  | nil => rfl
  | cons s rest ih => simp [substituteBody, ih]

/-- No node of the list is replaced. -/
def Substitution.Spares (σ : Substitution) (nodes : List Node) : Prop :=
  ∀ n ∈ nodes, σ n.id = none

namespace Substitution.Spares

variable {σ : Substitution} {n : Node} {a b : List Node}

@[simp] theorem nil_iff : σ.Spares [] ↔ True := by simp [Spares]

@[simp] theorem cons_iff : σ.Spares (n :: a) ↔ σ n.id = none ∧ σ.Spares a := by simp [Spares]

@[simp] theorem append_iff : σ.Spares (a ++ b) ↔ σ.Spares a ∧ σ.Spares b := by
  simp [Spares, or_imp, forall_and]

@[simp] theorem flatMap_iff {α : Type} {f : α → List Node} {xs : List α} :
    σ.Spares (xs.flatMap f) ↔ ∀ x ∈ xs, σ.Spares (f x) := by
  simp only [Spares, List.mem_flatMap]
  grind

end Substitution.Spares

variable {σ : Substitution}

mutual

theorem Expr.substitute_spared : ∀ (e : Expr), σ.Spares e.nodes → e.substitute σ = e
  | literal id v, h => by simp_all [nodes, substitute, Node.id, Expr.id]
  | name id n, h => by simp_all [nodes, substitute, Node.id, Expr.id]
  | paren id e, h => by
    simp [nodes, Node.id, Expr.id] at h
    simp [substitute, h.1, e.substitute_spared h.2]
  | unary id op e, h => by
    simp [nodes, Node.id, Expr.id] at h
    simp [substitute, h.1, e.substitute_spared h.2]
  | binary id op l r, h => by
    simp [nodes, Node.id, Expr.id] at h
    simp [substitute, h.1, l.substitute_spared h.2.1, r.substitute_spared h.2.2]
  | assign id op l r, h => by
    simp [nodes, Node.id, Expr.id] at h
    simp [substitute, h.1, l.substitute_spared h.2.1, r.substitute_spared h.2.2]
  | ternary id c y n, h => by
    simp [nodes, Node.id, Expr.id] at h
    simp [substitute, h.1, c.substitute_spared h.2.1, y.substitute_spared h.2.2.1,
      n.substitute_spared h.2.2.2]
  | call id f args, h => by
    simp [nodes, Node.id, Expr.id] at h
    simp [substitute, h.1, substituteArgs_spared args h.2]
  | index id b i, h => by
    simp [nodes, Node.id, Expr.id] at h
    simp [substitute, h.1, b.substitute_spared h.2.1, i.substitute_spared h.2.2]
  | member id b f, h => by
    simp [nodes, Node.id, Expr.id] at h
    simp [substitute, h.1, b.substitute_spared h.2]

theorem Expr.substituteArgs_spared :
    ∀ (args : List Expr), σ.Spares (nodesOfArgs args) → substituteArgs σ args = args
  | [], _ => rfl
  | e :: es, h => by
    simp [nodesOfArgs] at h
    simp [substituteArgs, e.substitute_spared h.1, substituteArgs_spared es h.2]

end

theorem substituteOption_spared {e : Option Expr} (h : σ.Spares (nodesOfOption e)) :
    e.map (Expr.substitute σ) = e := by
  cases e with
  | none => rfl
  | some e => simp [e.substitute_spared h]

theorem substituteSuffix_spared {a : Option ArraySuffix} (h : σ.Spares (nodesOfSuffix a)) :
    a.map (ArraySuffix.substitute σ) = a := by
  cases a with
  | none => rfl
  | some a =>
    have hsize : a.size.map (Expr.substitute σ) = a.size := substituteOption_spared h
    simp [ArraySuffix.substitute, hsize]

theorem Declarator.substitute_spared {d : Declarator} (h : σ.Spares d.nodes) :
    d.substitute σ = d := by
  simp [nodes] at h
  simp [substitute, substituteSuffix_spared h.1, substituteOption_spared h.2]

theorem Variables.substitute_spared {v : Variables} (h : σ.Spares v.nodes) :
    v.substitute σ = v := by
  simp only [nodes, Substitution.Spares.flatMap_iff] at h
  have hvars : v.vars.map (Declarator.substitute σ) = v.vars :=
    map_eq_self fun d hd => Declarator.substitute_spared (h d hd)
  simp [substitute, hvars]

mutual

theorem Stmt.substitute_spared : ∀ (s : Stmt), σ.Spares s.nodes → s.substitute σ = s
  | block id body, h => by
    simp [nodes] at h
    simp [substitute, substituteBody_spared body h.2]
  | declare id vars, h => by
    simp [nodes] at h
    simp [substitute, Variables.substitute_spared h.2]
  | expr id e, h => by
    simp [nodes] at h
    simp [substitute, e.substitute_spared h.2]
  | ifThen id c y, h => by
    simp [nodes] at h
    simp [substitute, c.substitute_spared h.2.1, y.substitute_spared h.2.2]
  | ifElse id c y n, h => by
    simp [nodes] at h
    simp [substitute, c.substitute_spared h.2.1, y.substitute_spared h.2.2.1,
      n.substitute_spared h.2.2.2]
  | forLoop id init c t body, h => by
    simp [nodes] at h
    simp [substitute, init.substitute_spared h.2.1, substituteOption_spared h.2.2.1,
      substituteOption_spared h.2.2.2.1, body.substitute_spared h.2.2.2.2]
  | whileLoop id c body, h => by
    simp [nodes] at h
    simp [substitute, c.substitute_spared h.2.1, body.substitute_spared h.2.2]
  | doWhile id body c, h => by
    simp [nodes] at h
    simp [substitute, body.substitute_spared h.2.1, c.substitute_spared h.2.2]
  | ret id e, h => by
    simp [nodes] at h
    simp [substitute, substituteOption_spared h.2]
  | jump id k, _ => rfl
  | empty id, _ => rfl

theorem Stmt.substituteBody_spared :
    ∀ (body : List Stmt), σ.Spares (nodesOfBody body) → substituteBody σ body = body
  | [], _ => rfl
  | s :: rest, h => by
    simp [nodesOfBody] at h
    simp [substituteBody, s.substitute_spared h.1, substituteBody_spared rest h.2]

end

theorem Declaration.substitute_spared {d : Declaration} (h : σ.Spares d.nodes) :
    d.substitute σ = d := by
  cases d with
  | directive id t => rfl
  | precision id p t => rfl
  | globals id vars =>
    simp [nodes] at h
    simp [substitute, Variables.substitute_spared h.2]
  | interfaceBlock id b =>
    simp [nodes] at h
    have hmembers : b.members.map (BlockMember.substitute σ) = b.members :=
      map_eq_self fun m hm => by simp [BlockMember.substitute, substituteSuffix_spared (h.2 m hm)]
    simp [substitute, hmembers]
  | qualifiers id list => rfl
  | function id f =>
    simp [nodes] at h
    have hparams : f.params.map (Param.substitute σ) = f.params :=
      map_eq_self fun p hp => by simp [Param.substitute, substituteSuffix_spared (h.2.1 p hp)]
    have hbody : f.body.map (Stmt.substituteBody σ) = f.body := by
      cases hf : f.body with
      | none => rfl
      | some body =>
        have hspared := h.2.2
        rw [hf] at hspared
        simp [Stmt.substituteBody_spared body hspared]
    simp [substitute, Function.substitute, hparams, hbody]

theorem Node.substitute_spared {n : Node} (h : σ.Spares n.nodes) : n.substitute σ = n := by
  cases n with
  | declaration d => exact congrArg declaration (Declaration.substitute_spared h)
  | statement s => exact congrArg statement (s.substitute_spared h)
  | expression e => exact congrArg expression (e.substitute_spared h)

theorem Shader.substitute_spared {s : Shader} (h : σ.Spares s.nodes) : s.substitute σ = s := by
  simp only [nodes, Substitution.Spares.flatMap_iff] at h
  have hds : s.declarations.map (Declaration.substitute σ) = s.declarations :=
    map_eq_self fun d hd => Declaration.substitute_spared (h d hd)
  simp [substitute, hds]

def Substitution.andThen (σ τ : Substitution) : Substitution := fun id =>
  match σ id with
  | some e => some (e.substitute τ)
  | none => τ id

section

variable (σ τ : Substitution)

mutual

theorem Expr.substitute_substitute :
    ∀ e : Expr, (e.substitute σ).substitute τ = e.substitute (σ.andThen τ)
  | literal id v => by cases h : σ id <;> simp [substitute, Substitution.andThen, h]
  | name id n => by cases h : σ id <;> simp [substitute, Substitution.andThen, h]
  | paren id e => by
    cases h : σ id <;> simp [substitute, Substitution.andThen, h, e.substitute_substitute]
  | unary id op e => by
    cases h : σ id <;> simp [substitute, Substitution.andThen, h, e.substitute_substitute]
  | binary id op l r => by
    cases h : σ id <;>
      simp [substitute, Substitution.andThen, h, l.substitute_substitute, r.substitute_substitute]
  | assign id op l r => by
    cases h : σ id <;>
      simp [substitute, Substitution.andThen, h, l.substitute_substitute, r.substitute_substitute]
  | ternary id c y n => by
    cases h : σ id <;>
      simp [substitute, Substitution.andThen, h, c.substitute_substitute, y.substitute_substitute,
        n.substitute_substitute]
  | call id f args => by
    cases h : σ id <;> simp [substitute, Substitution.andThen, h, substituteArgs_substituteArgs]
  | index id b i => by
    cases h : σ id <;>
      simp [substitute, Substitution.andThen, h, b.substitute_substitute, i.substitute_substitute]
  | member id b f => by
    cases h : σ id <;> simp [substitute, Substitution.andThen, h, b.substitute_substitute]

theorem Expr.substituteArgs_substituteArgs :
    ∀ args : List Expr,
      substituteArgs τ (substituteArgs σ args) = substituteArgs (σ.andThen τ) args
  | [] => rfl
  | e :: es => by
    simp [substituteArgs, e.substitute_substitute, substituteArgs_substituteArgs es]

end

theorem substituteOption_substitute (e : Option Expr) :
    (e.map (Expr.substitute σ)).map (Expr.substitute τ) =
      e.map (Expr.substitute (σ.andThen τ)) := by
  cases e <;> simp [Expr.substitute_substitute]

theorem ArraySuffix.substitute_substitute (a : ArraySuffix) :
    (a.substitute σ).substitute τ = a.substitute (σ.andThen τ) := by
  simp only [substitute, substituteOption_substitute]

theorem substituteSuffix_substitute (a : Option ArraySuffix) :
    (a.map (ArraySuffix.substitute σ)).map (ArraySuffix.substitute τ) =
      a.map (ArraySuffix.substitute (σ.andThen τ)) := by
  cases a <;> simp [ArraySuffix.substitute_substitute]

theorem Variables.substitute_substitute (v : Variables) :
    (v.substitute σ).substitute τ = v.substitute (σ.andThen τ) := by
  simp [substitute, Declarator.substitute, Function.comp_def, substituteSuffix_substitute,
    substituteOption_substitute, -Option.map_map]

mutual

theorem Stmt.substitute_substitute :
    ∀ s : Stmt, (s.substitute σ).substitute τ = s.substitute (σ.andThen τ)
  | block id body => by simp [substitute, substituteBody_substituteBody]
  | declare id vars => by simp [substitute, Variables.substitute_substitute]
  | expr id e => by simp [substitute, Expr.substitute_substitute]
  | ifThen id c y => by
    simp [substitute, Expr.substitute_substitute, y.substitute_substitute]
  | ifElse id c y n => by
    simp [substitute, Expr.substitute_substitute, y.substitute_substitute, n.substitute_substitute]
  | forLoop id init c t body => by
    simp [substitute, substituteOption_substitute, init.substitute_substitute,
      body.substitute_substitute, -Option.map_map]
  | whileLoop id c body => by
    simp [substitute, Expr.substitute_substitute, body.substitute_substitute]
  | doWhile id body c => by
    simp [substitute, Expr.substitute_substitute, body.substitute_substitute]
  | ret id e => by simp [substitute, substituteOption_substitute, -Option.map_map]
  | jump id k => rfl
  | empty id => rfl

theorem Stmt.substituteBody_substituteBody :
    ∀ body : List Stmt,
      substituteBody τ (substituteBody σ body) = substituteBody (σ.andThen τ) body
  | [] => rfl
  | s :: rest => by
    simp [substituteBody, s.substitute_substitute, substituteBody_substituteBody rest]

end

theorem Declaration.substitute_substitute (d : Declaration) :
    (d.substitute σ).substitute τ = d.substitute (σ.andThen τ) := by
  cases d with
  | globals id vars => simp [substitute, Variables.substitute_substitute]
  | interfaceBlock id b =>
    simp [substitute, BlockMember.substitute, Function.comp_def, substituteSuffix_substitute,
      -Option.map_map]
  | function id f =>
    have hbody : ∀ body, Stmt.substituteBody τ (Stmt.substituteBody σ body) =
        Stmt.substituteBody (σ.andThen τ) body := Stmt.substituteBody_substituteBody σ τ
    simp [substitute, Function.substitute, Param.substitute, Function.comp_def,
      substituteSuffix_substitute, -Option.map_map]
    simp [Function.comp_def, hbody]
  | _ => rfl

end

def countId (x : NodeId) (nodes : List Node) : Nat := (nodes.map Node.id).count x

@[simp] theorem countId_nil (x : NodeId) : countId x [] = 0 := rfl

@[simp] theorem countId_cons (x : NodeId) (n : Node) (nodes : List Node) :
    countId x (n :: nodes) = countId x nodes + if n.id = x then 1 else 0 := by
  simp [countId, List.count_cons]

@[simp] theorem countId_append (x : NodeId) (a b : List Node) :
    countId x (a ++ b) = countId x a + countId x b := by simp [countId]

/-- A tree before and after `new` took the place of `id`: every identity comes from the tree, or
from as many copies of `new` as the tree had nodes with the identity. -/
def CountBounded (id : NodeId) (new : Expr) (before after : List Node) : Prop :=
  ∀ x, countId x after ≤ countId x before + countId id before * countId x new.nodes

section

variable {id : NodeId} {new : Expr}

theorem CountBounded.cons {n m : Node} {a b : List Node} (hid : n.id = m.id)
    (h : CountBounded id new a b) : CountBounded id new (n :: a) (m :: b) := by
  intro x
  have := h x
  simp [hid]
  grind

theorem CountBounded.append {a b c d : List Node} (hab : CountBounded id new a b)
    (hcd : CountBounded id new c d) : CountBounded id new (a ++ c) (b ++ d) := by
  intro x
  have h₁ := hab x
  have h₂ := hcd x
  simp [Nat.add_mul]
  omega

theorem CountBounded.nil : CountBounded id new [] [] := by
  intro x
  simp

theorem CountBounded.flatMap {α : Type} {f g : α → List Node} {xs : List α}
    (h : ∀ x ∈ xs, CountBounded id new (f x) (g x)) :
    CountBounded id new (xs.flatMap f) (xs.flatMap g) := by
  induction xs with
  | nil => exact .nil
  | cons x xs ih =>
    simp only [List.flatMap_cons]
    exact (h x List.mem_cons_self).append (ih fun y hy => h y (List.mem_cons_of_mem _ hy))

theorem CountBounded.replaced {n : Node} {a : List Node} (hid : n.id = id) :
    CountBounded id new (n :: a) new.nodes := by
  intro x
  simp [hid, Nat.add_mul]
  omega

theorem CountBounded.rebuilt {i : NodeId} {e : Expr} {n m : Node} {a b : List Node}
    (he : e.nodes = m :: b) (hn : n.id = i) (hm : m.id = i) (h : CountBounded id new a b) :
    CountBounded id new (n :: a) ((Substitution.single id new i).getD e).nodes := by
  by_cases hi : i = id
  · simp only [Substitution.single, hi, if_true, Option.getD_some]
    exact .replaced (hn.trans hi)
  · simp only [Substitution.single, hi, if_false, Option.getD_none, he]
    exact .cons (hn.trans hm.symm) h

mutual

theorem Expr.countBounded :
    ∀ e : Expr, CountBounded id new e.nodes (e.substitute (.single id new)).nodes
  | literal _ _ => .rebuilt rfl rfl rfl .nil
  | name _ _ => .rebuilt rfl rfl rfl .nil
  | paren _ e => .rebuilt rfl rfl rfl e.countBounded
  | unary _ _ e => .rebuilt rfl rfl rfl e.countBounded
  | binary _ _ l r => .rebuilt rfl rfl rfl (l.countBounded.append r.countBounded)
  | assign _ _ l r => .rebuilt rfl rfl rfl (l.countBounded.append r.countBounded)
  | ternary _ c y n =>
    .rebuilt rfl rfl rfl ((c.countBounded.append y.countBounded).append n.countBounded)
  | call _ _ args => .rebuilt rfl rfl rfl (countBounded_args args)
  | index _ b p => .rebuilt rfl rfl rfl (b.countBounded.append p.countBounded)
  | member _ b _ => .rebuilt rfl rfl rfl b.countBounded

theorem Expr.countBounded_args : ∀ args : List Expr,
    CountBounded id new (nodesOfArgs args) (nodesOfArgs (substituteArgs (.single id new) args))
  | [] => .nil
  | e :: es => e.countBounded.append (countBounded_args es)

end

theorem countBounded_option (e : Option Expr) :
    CountBounded id new (nodesOfOption e)
      (nodesOfOption (e.map (Expr.substitute (.single id new)))) := by
  cases e with
  | none => exact .nil
  | some e => exact Expr.countBounded e

theorem countBounded_suffix (a : Option ArraySuffix) :
    CountBounded id new (nodesOfSuffix a)
      (nodesOfSuffix (a.map (ArraySuffix.substitute (.single id new)))) := by
  cases a with
  | none => exact .nil
  | some a => exact countBounded_option a.size

theorem Variables.countBounded (v : Variables) :
    CountBounded id new v.nodes (v.substitute (.single id new)).nodes := by
  simp only [nodes, substitute, List.flatMap_map]
  exact .flatMap fun d _ => (countBounded_suffix d.array).append (countBounded_option d.init)

mutual

theorem Stmt.countBounded :
    ∀ s : Stmt, CountBounded id new s.nodes (s.substitute (.single id new)).nodes
  | block _ body => .cons rfl (countBounded_body body)
  | declare _ vars => .cons rfl vars.countBounded
  | expr _ e => .cons rfl (Expr.countBounded e)
  | ifThen _ c y => .cons rfl ((Expr.countBounded c).append y.countBounded)
  | ifElse _ c y n => .cons rfl (((Expr.countBounded c).append y.countBounded).append n.countBounded)
  | forLoop _ init c t body =>
    .cons rfl (((init.countBounded.append (countBounded_option c)).append
      (countBounded_option t)).append body.countBounded)
  | whileLoop _ c body => .cons rfl ((Expr.countBounded c).append body.countBounded)
  | doWhile _ body c => .cons rfl (body.countBounded.append (Expr.countBounded c))
  | ret _ e => .cons rfl (countBounded_option e)
  | jump _ _ => .cons rfl .nil
  | empty _ => .cons rfl .nil

theorem Stmt.countBounded_body : ∀ body : List Stmt,
    CountBounded id new (nodesOfBody body) (nodesOfBody (substituteBody (.single id new) body))
  | [] => .nil
  | s :: rest => s.countBounded.append (countBounded_body rest)

end

theorem Declaration.countBounded (d : Declaration) :
    CountBounded id new d.nodes (d.substitute (.single id new)).nodes := by
  cases d with
  | globals i vars => exact .cons rfl vars.countBounded
  | interfaceBlock i b =>
    refine .cons rfl ?_
    simp only [List.flatMap_map]
    exact .flatMap fun m _ => countBounded_suffix m.array
  | function i f =>
    refine .cons rfl ?_
    simp only [Function.substitute, List.flatMap_map]
    refine (CountBounded.flatMap fun p _ => countBounded_suffix p.array).append ?_
    cases f.body with
    | none => exact .nil
    | some body => exact Stmt.countBounded_body body
  | _ => exact .cons rfl .nil

theorem Shader.countBounded (s : Shader) :
    CountBounded id new s.nodes (s.substitute (.single id new)).nodes := by
  simp only [nodes, substitute, List.flatMap_map]
  exact .flatMap fun d _ => d.countBounded

end

end ShaderLift
