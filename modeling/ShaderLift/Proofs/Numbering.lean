import Mathlib
import ShaderLift.Proofs.Nodes
import ShaderLift.Tree.UniformArray

/-!
Numbering. Nodes that have an identity keep it; the others get the next ones of the supply, in the
order of the nodes.
-/

namespace ShaderLift

/-- Identities with the unassigned ones among them replaced by `next` and those after it. -/
def fillIds (next : NodeId) : List NodeId → List NodeId
  | [] => []
  | id :: rest =>
    if id = .unassigned then next :: fillIds (next + 1) rest else id :: fillIds next rest

/-- The supply after the unassigned ones among the identities were filled. -/
def IdSupply.past (ids : IdSupply) (list : List NodeId) : IdSupply :=
  ⟨ids.next + list.count .unassigned⟩

@[simp] theorem IdSupply.past_append (ids : IdSupply) (a b : List NodeId) :
    ids.past (a ++ b) = (ids.past a).past b := by
  simp [past, Nat.add_assoc]

@[simp] theorem IdSupply.past_nil (ids : IdSupply) : ids.past [] = ids := rfl

theorem numberId_eq (id : NodeId) (ids : IdSupply) :
    numberId id ids = (if id = .unassigned then ids.next else id, ids.past [id]) := by
  by_cases h : id = .unassigned
  · simp [numberId, h, IdSupply.past]
    rfl
  · simp [numberId, h, IdSupply.past]
    rfl

@[simp] theorem fillIds_nil (next : NodeId) : fillIds next [] = [] := rfl

@[simp] theorem fillIds_append (ids : IdSupply) (a b : List NodeId) :
    fillIds ids.next (a ++ b) = fillIds ids.next a ++ fillIds (ids.past a).next b := by
  induction a generalizing ids with
  | nil => rfl
  | cons id rest ih =>
    by_cases h : id = .unassigned
    · have hrest := ih ⟨ids.next + 1⟩
      simp only [IdSupply.past] at hrest ⊢
      simp [fillIds, h, hrest]
      grind
    · have hrest := ih ids
      simp only [IdSupply.past] at hrest ⊢
      simp [fillIds, h, hrest]

@[simp] theorem fillIds_cons (ids : IdSupply) (id : NodeId) (rest : List NodeId) :
    fillIds ids.next (id :: rest) =
      (numberId id ids).1 :: fillIds (numberId id ids).2.next rest := by
  by_cases h : id = .unassigned
  · simp [numberId_eq, fillIds, IdSupply.past, h]
  · simp [numberId_eq, fillIds, IdSupply.past, h]

@[simp] theorem IdSupply.past_cons (ids : IdSupply) (id : NodeId) (rest : List NodeId) :
    ids.past (id :: rest) = (numberId id ids).2.past rest := by
  rw [numberId_eq]
  exact ids.past_append [id] rest

@[simp] theorem Numbered.bind_apply {α β : Type} (m : Numbered α) (f : α → Numbered β)
    (ids : IdSupply) : (m >>= f) ids = f (m ids).1 (m ids).2 := rfl

@[simp] theorem Numbered.pure_apply {α : Type} (a : α) (ids : IdSupply) :
    (pure a : Numbered α) ids = (a, ids) := rfl

@[simp] theorem Numbered.map_apply {α β : Type} (f : α → β) (m : Numbered α) (ids : IdSupply) :
    (f <$> m) ids = (f (m ids).1, (m ids).2) := rfl

/-- The identities of what `m` makes of `before`, whose parts are `nodes`. -/
def Numbers {α : Type} (nodes : α → List Node) (before : α) (m : Numbered α) : Prop :=
  ∀ ids : IdSupply,
    (nodes (m ids).1).map Node.id = fillIds ids.next ((nodes before).map Node.id) ∧
      (m ids).2 = ids.past ((nodes before).map Node.id)

theorem Numbers.list {α : Type} {nodes : α → List Node} {number : α → Numbered α} {xs : List α}
    (h : ∀ x ∈ xs, Numbers nodes x (number x)) :
    Numbers (fun ys => ys.flatMap nodes) xs (xs.mapM number) := by
  induction xs with
  | nil => exact fun ids => by simp
  | cons x xs ih =>
    intro ids
    have hx := h x List.mem_cons_self
    have hxs := ih fun y hy => h y (List.mem_cons_of_mem _ hy)
    simp only [Numbers] at hx hxs
    simp [hx, hxs]

mutual

theorem Expr.number_numbers : ∀ e : Expr, Numbers nodes e e.number
  | literal id v => fun ids => by
    simp [number, nodes, Node.id, Expr.id]
  | name id n => fun ids => by
    simp [number, nodes, Node.id, Expr.id]
  | paren id e => fun ids => by
    have he := e.number_numbers
    simp only [Numbers] at he
    simp [number, nodes, Node.id, Expr.id, he]
  | unary id op e => fun ids => by
    have he := e.number_numbers
    simp only [Numbers] at he
    simp [number, nodes, Node.id, Expr.id, he]
  | binary id op l r => fun ids => by
    have hl := l.number_numbers
    have hr := r.number_numbers
    simp only [Numbers] at hl hr
    simp [number, nodes, Node.id, Expr.id, hl, hr]
  | assign id op l r => fun ids => by
    have hl := l.number_numbers
    have hr := r.number_numbers
    simp only [Numbers] at hl hr
    simp [number, nodes, Node.id, Expr.id, hl, hr]
  | ternary id c y n => fun ids => by
    have hc := c.number_numbers
    have hy := y.number_numbers
    have hn := n.number_numbers
    simp only [Numbers] at hc hy hn
    simp [number, nodes, Node.id, Expr.id, hc, hy, hn]
  | call id f args => fun ids => by
    have hargs := numberArgs_numbers args
    simp only [Numbers] at hargs
    simp [number, nodes, Node.id, Expr.id, hargs]
  | index id b i => fun ids => by
    have hb := b.number_numbers
    have hi := i.number_numbers
    simp only [Numbers] at hb hi
    simp [number, nodes, Node.id, Expr.id, hb, hi]
  | member id b f => fun ids => by
    have hb := b.number_numbers
    simp only [Numbers] at hb
    simp [number, nodes, Node.id, Expr.id, hb]

theorem Expr.numberArgs_numbers :
    ∀ args : List Expr, Numbers nodesOfArgs args (numberArgs args)
  | [] => fun ids => by simp [numberArgs, nodesOfArgs]
  | e :: es => fun ids => by
    have he := e.number_numbers
    have hes := numberArgs_numbers es
    simp only [Numbers] at he hes
    simp [numberArgs, nodesOfArgs, he, hes]

end

theorem numberOption_numbers (e : Option Expr) : Numbers nodesOfOption e (numberOption e) := by
  intro ids
  cases e with
  | none => simp [numberOption, nodesOfOption]
  | some e =>
    have he := e.number_numbers
    simp only [Numbers] at he
    simp [numberOption, nodesOfOption, he]

theorem numberSuffix_numbers (a : Option ArraySuffix) : Numbers nodesOfSuffix a (numberSuffix a) := by
  intro ids
  cases a with
  | none => simp [numberSuffix, nodesOfSuffix, nodesOfOption]
  | some a =>
    have ha := numberOption_numbers a.size
    simp only [Numbers] at ha
    simp [numberSuffix, nodesOfSuffix, ha]

theorem Declarator.number_numbers (d : Declarator) : Numbers nodes d d.number := by
  intro ids
  have ha := numberSuffix_numbers d.array
  have hi := numberOption_numbers d.init
  simp only [Numbers] at ha hi
  simp [number, nodes, ha, hi]

theorem Variables.number_numbers (v : Variables) : Numbers nodes v v.number := by
  intro ids
  have hv := Numbers.list fun d (_ : d ∈ v.vars) => d.number_numbers
  simp only [Numbers] at hv
  simp [number, nodes, hv]

mutual

theorem Stmt.number_numbers : ∀ s : Stmt, Numbers nodes s s.number
  | block id body => fun ids => by
    have hb := numberBody_numbers body
    simp only [Numbers] at hb
    simp [number, nodes, Node.id, Stmt.id, hb]
  | declare id vars => fun ids => by
    have hv := vars.number_numbers
    simp only [Numbers] at hv
    simp [number, nodes, Node.id, Stmt.id, hv]
  | expr id e => fun ids => by
    have he := e.number_numbers
    simp only [Numbers] at he
    simp [number, nodes, Node.id, Stmt.id, he]
  | ifThen id c y => fun ids => by
    have hc := c.number_numbers
    have hy := y.number_numbers
    simp only [Numbers] at hc hy
    simp [number, nodes, Node.id, Stmt.id, hc, hy]
  | ifElse id c y n => fun ids => by
    have hc := c.number_numbers
    have hy := y.number_numbers
    have hn := n.number_numbers
    simp only [Numbers] at hc hy hn
    simp [number, nodes, Node.id, Stmt.id, hc, hy, hn]
  | forLoop id init c t body => fun ids => by
    have hi := init.number_numbers
    have hc := numberOption_numbers c
    have ht := numberOption_numbers t
    have hb := body.number_numbers
    simp only [Numbers] at hi hc ht hb
    simp [number, nodes, Node.id, Stmt.id, hi, hc, ht, hb]
  | whileLoop id c body => fun ids => by
    have hc := c.number_numbers
    have hb := body.number_numbers
    simp only [Numbers] at hc hb
    simp [number, nodes, Node.id, Stmt.id, hc, hb]
  | doWhile id body c => fun ids => by
    have hc := c.number_numbers
    have hb := body.number_numbers
    simp only [Numbers] at hc hb
    simp [number, nodes, Node.id, Stmt.id, hc, hb]
  | ret id e => fun ids => by
    have he := numberOption_numbers e
    simp only [Numbers] at he
    simp [number, nodes, Node.id, Stmt.id, he]
  | jump id k => fun ids => by simp [number, nodes, Node.id, Stmt.id]
  | empty id => fun ids => by simp [number, nodes, Node.id, Stmt.id]

theorem Stmt.numberBody_numbers : ∀ body : List Stmt, Numbers nodesOfBody body (numberBody body)
  | [] => fun ids => by simp [numberBody, nodesOfBody]
  | s :: rest => fun ids => by
    have hs := s.number_numbers
    have hrest := numberBody_numbers rest
    simp only [Numbers] at hs hrest
    simp [numberBody, nodesOfBody, hs, hrest]

end

theorem Function.number_numbers (f : Function) :
    Numbers (fun f : Function => f.params.flatMap (fun p => nodesOfSuffix p.array) ++
      Stmt.nodesOfBody (f.body.getD [])) f f.number := by
  intro ids
  have hp : Numbers (fun ps => ps.flatMap fun p : Param => nodesOfSuffix p.array) f.params
      (f.params.mapM Param.number) := Numbers.list fun p _ ids => by
    have ha := numberSuffix_numbers p.array
    simp only [Numbers] at ha
    simp [Param.number, ha]
  simp only [Numbers] at hp
  cases hf : f.body with
  | none => simp [number, hf, hp, Stmt.nodesOfBody]
  | some body =>
    have hb := Stmt.numberBody_numbers body
    simp only [Numbers] at hb
    simp [number, hf, hp, hb]

theorem Declaration.number_numbers (d : Declaration) : Numbers nodes d d.number := by
  intro ids
  cases d with
  | globals id vars =>
    have hv := vars.number_numbers
    simp only [Numbers] at hv
    simp [number, nodes, Node.id, Declaration.id, hv]
  | interfaceBlock id b =>
    have hm : Numbers (fun ms => ms.flatMap fun m : BlockMember => nodesOfSuffix m.array) b.members
        (b.members.mapM BlockMember.number) := Numbers.list fun m _ ids => by
      have ha := numberSuffix_numbers m.array
      simp only [Numbers] at ha
      simp [BlockMember.number, ha]
    simp only [Numbers] at hm
    simp [number, nodes, Node.id, Declaration.id, hm]
  | function id f =>
    have hf := f.number_numbers
    simp only [Numbers] at hf
    simp [number, nodes, Node.id, Declaration.id, hf]
  | _ => simp [number, nodes, Node.id, Declaration.id]

theorem Shader.number_numbers (s : Shader) : Numbers nodes s s.number := by
  intro ids
  have hd := Numbers.list fun d (_ : d ∈ s.declarations) => d.number_numbers
  simp only [Numbers] at hd
  simp [number, nodes, hd]

mutual

/-- The expression with no node numbered. Two trees are equal but for their identities when these
are equal. -/
def Expr.unnumbered : Expr → Expr
  | literal _ v => literal .unassigned v
  | name _ n => name .unassigned n
  | paren _ e => paren .unassigned e.unnumbered
  | unary _ op e => unary .unassigned op e.unnumbered
  | binary _ op l r => binary .unassigned op l.unnumbered r.unnumbered
  | assign _ op l r => assign .unassigned op l.unnumbered r.unnumbered
  | ternary _ c y n => ternary .unassigned c.unnumbered y.unnumbered n.unnumbered
  | call _ f args => call .unassigned f (unnumberedArgs args)
  | index _ b i => index .unassigned b.unnumbered i.unnumbered
  | member _ b f => member .unassigned b.unnumbered f

def Expr.unnumberedArgs : List Expr → List Expr
  | [] => []
  | e :: es => e.unnumbered :: unnumberedArgs es

end

def ArraySuffix.unnumbered (a : ArraySuffix) : ArraySuffix := ⟨a.size.map Expr.unnumbered⟩

def Declarator.unnumbered (d : Declarator) : Declarator :=
  { d with array := d.array.map ArraySuffix.unnumbered, init := d.init.map Expr.unnumbered }

def Variables.unnumbered (v : Variables) : Variables :=
  { v with vars := v.vars.map Declarator.unnumbered }

mutual

def Stmt.unnumbered : Stmt → Stmt
  | block _ body => block .unassigned (unnumberedBody body)
  | declare _ vars => declare .unassigned vars.unnumbered
  | expr _ e => expr .unassigned e.unnumbered
  | ifThen _ c y => ifThen .unassigned c.unnumbered y.unnumbered
  | ifElse _ c y n => ifElse .unassigned c.unnumbered y.unnumbered n.unnumbered
  | forLoop _ init c s body =>
    forLoop .unassigned init.unnumbered (c.map Expr.unnumbered) (s.map Expr.unnumbered)
      body.unnumbered
  | whileLoop _ c body => whileLoop .unassigned c.unnumbered body.unnumbered
  | doWhile _ body c => doWhile .unassigned body.unnumbered c.unnumbered
  | ret _ e => ret .unassigned (e.map Expr.unnumbered)
  | jump _ k => jump .unassigned k
  | empty _ => empty .unassigned

def Stmt.unnumberedBody : List Stmt → List Stmt
  | [] => []
  | s :: rest => s.unnumbered :: unnumberedBody rest

end

def BlockMember.unnumbered (m : BlockMember) : BlockMember :=
  { m with array := m.array.map ArraySuffix.unnumbered }

def Param.unnumbered (p : Param) : Param :=
  { p with array := p.array.map ArraySuffix.unnumbered }

def Function.unnumbered (f : Function) : Function :=
  { f with params := f.params.map Param.unnumbered, body := f.body.map Stmt.unnumberedBody }

def Declaration.unnumbered : Declaration → Declaration
  | directive _ t => directive .unassigned t
  | precision _ p t => precision .unassigned p t
  | globals _ vars => globals .unassigned vars.unnumbered
  | interfaceBlock _ b =>
    interfaceBlock .unassigned { b with members := b.members.map BlockMember.unnumbered }
  | qualifiers _ q => qualifiers .unassigned q
  | function _ f => function .unassigned f.unnumbered

def Shader.unnumbered (s : Shader) : Shader := ⟨s.declarations.map Declaration.unnumbered⟩

theorem Expr.unnumberedArgs_eq (args : List Expr) :
    unnumberedArgs args = args.map unnumbered := by
  induction args with
  | nil => rfl
  | cons e es ih => simp [unnumberedArgs, ih]

theorem Stmt.unnumberedBody_eq (body : List Stmt) :
    unnumberedBody body = body.map unnumbered := by
  induction body with
  | nil => rfl
  | cons s rest ih => simp [unnumberedBody, ih]

theorem map_mapM_numbered {α β : Type} {number : α → Numbered α} {f : α → β} {xs : List α}
    (h : ∀ x ∈ xs, ∀ ids, f (number x ids).1 = f x) (ids : IdSupply) :
    (xs.mapM number ids).1.map f = xs.map f := by
  induction xs generalizing ids with
  | nil => rfl
  | cons x xs ih =>
    have hxs := ih fun y hy => h y (List.mem_cons_of_mem _ hy)
    simp [h x List.mem_cons_self, hxs]

mutual

theorem Expr.unnumbered_number : ∀ (e : Expr) (ids : IdSupply),
    (e.number ids).1.unnumbered = e.unnumbered
  | literal _ _, ids | name _ _, ids => by simp [number, unnumbered]
  | paren _ e, ids | unary _ _ e, ids | member _ e _, ids => by
    simp [number, unnumbered, e.unnumbered_number]
  | binary _ _ l r, ids | assign _ _ l r, ids | index _ l r, ids => by
    simp [number, unnumbered, l.unnumbered_number, r.unnumbered_number]
  | ternary _ c y n, ids => by
    simp [number, unnumbered, c.unnumbered_number, y.unnumbered_number, n.unnumbered_number]
  | call _ f args, ids => by simp [number, unnumbered, unnumberedArgs_numberArgs args]

theorem Expr.unnumberedArgs_numberArgs : ∀ (args : List Expr) (ids : IdSupply),
    unnumberedArgs (numberArgs args ids).1 = unnumberedArgs args
  | [], ids => rfl
  | e :: es, ids => by
    simp [numberArgs, unnumberedArgs, e.unnumbered_number, unnumberedArgs_numberArgs es]

end

theorem unnumbered_numberOption (e : Option Expr) (ids : IdSupply) :
    (numberOption e ids).1.map Expr.unnumbered = e.map Expr.unnumbered := by
  cases e with
  | none => rfl
  | some e => simp [numberOption, e.unnumbered_number]

theorem unnumbered_numberSuffix (a : Option ArraySuffix) (ids : IdSupply) :
    (numberSuffix a ids).1.map ArraySuffix.unnumbered = a.map ArraySuffix.unnumbered := by
  cases a with
  | none => rfl
  | some a => simp [numberSuffix, ArraySuffix.unnumbered, unnumbered_numberOption]

theorem Declarator.unnumbered_number (d : Declarator) (ids : IdSupply) :
    (d.number ids).1.unnumbered = d.unnumbered := by
  simp [number, unnumbered, unnumbered_numberOption, unnumbered_numberSuffix]

theorem Variables.unnumbered_number (v : Variables) (ids : IdSupply) :
    (v.number ids).1.unnumbered = v.unnumbered := by
  have h := map_mapM_numbered fun d (_ : d ∈ v.vars) => d.unnumbered_number
  simp [number, unnumbered, h]

mutual

theorem Stmt.unnumbered_number : ∀ (s : Stmt) (ids : IdSupply),
    (s.number ids).1.unnumbered = s.unnumbered
  | block _ body, ids => by simp [number, unnumbered, unnumberedBody_numberBody body]
  | declare _ vars, ids => by simp [number, unnumbered, vars.unnumbered_number]
  | expr _ e, ids => by simp [number, unnumbered, e.unnumbered_number]
  | ifThen _ c y, ids => by
    simp [number, unnumbered, c.unnumbered_number, y.unnumbered_number]
  | ifElse _ c y n, ids => by
    simp [number, unnumbered, c.unnumbered_number, y.unnumbered_number, n.unnumbered_number]
  | forLoop _ init c t body, ids => by
    simp [number, unnumbered, init.unnumbered_number, unnumbered_numberOption,
      body.unnumbered_number]
  | whileLoop _ c body, ids | doWhile _ body c, ids => by
    simp [number, unnumbered, c.unnumbered_number, body.unnumbered_number]
  | ret _ e, ids => by simp [number, unnumbered, unnumbered_numberOption]
  | jump _ _, ids | empty _, ids => by simp [number, unnumbered]

theorem Stmt.unnumberedBody_numberBody : ∀ (body : List Stmt) (ids : IdSupply),
    unnumberedBody (numberBody body ids).1 = unnumberedBody body
  | [], ids => rfl
  | s :: rest, ids => by
    simp [numberBody, unnumberedBody, s.unnumbered_number, unnumberedBody_numberBody rest]

end

theorem Function.unnumbered_number (f : Function) (ids : IdSupply) :
    (f.number ids).1.unnumbered = f.unnumbered := by
  have hparam (p : Param) (ids : IdSupply) : (p.number ids).1.unnumbered = p.unnumbered := by
    simp [Param.number, Param.unnumbered, unnumbered_numberSuffix]
  have hp := map_mapM_numbered fun p (_ : p ∈ f.params) => hparam p
  cases hf : f.body with
  | none => simp [number, unnumbered, hf, hp]
  | some body => simp [number, unnumbered, hf, hp, Stmt.unnumberedBody_numberBody]

theorem Declaration.unnumbered_number (d : Declaration) (ids : IdSupply) :
    (d.number ids).1.unnumbered = d.unnumbered := by
  cases d with
  | globals id vars => simp [number, unnumbered, vars.unnumbered_number]
  | interfaceBlock id b =>
    have hmember (m : BlockMember) (ids : IdSupply) :
        (m.number ids).1.unnumbered = m.unnumbered := by
      simp [BlockMember.number, BlockMember.unnumbered, unnumbered_numberSuffix]
    have hm := map_mapM_numbered fun m (_ : m ∈ b.members) => hmember m
    simp [number, unnumbered, hm]
  | function id f => simp [number, unnumbered, f.unnumbered_number]
  | _ => simp [number, unnumbered]

theorem Shader.unnumbered_number (s : Shader) (ids : IdSupply) :
    (s.number ids).1.unnumbered = s.unnumbered := by
  have h := map_mapM_numbered fun d (_ : d ∈ s.declarations) => d.unnumbered_number
  simp [number, unnumbered, h]

def Unassigned (nodes : List Node) : Prop := ∀ n ∈ nodes, n.id = .unassigned

namespace Unassigned

variable {n : Node} {a b : List Node}

@[simp] theorem nil_iff : Unassigned [] ↔ True := by simp [Unassigned]

@[simp] theorem cons_iff : Unassigned (n :: a) ↔ n.id = .unassigned ∧ Unassigned a := by
  simp [Unassigned]

@[simp] theorem append_iff : Unassigned (a ++ b) ↔ Unassigned a ∧ Unassigned b := by
  simp [Unassigned, or_imp, forall_and]

@[simp] theorem flatMap_iff {α : Type} {f : α → List Node} {xs : List α} :
    Unassigned (xs.flatMap f) ↔ ∀ x ∈ xs, Unassigned (f x) := by
  simp only [Unassigned, List.mem_flatMap]
  grind

end Unassigned

mutual

theorem Expr.nodes_unnumbered : ∀ e : Expr, Unassigned e.unnumbered.nodes
  | literal _ _ | name _ _ => by simp [unnumbered, nodes, Node.id, Expr.id]
  | paren _ e | unary _ _ e | member _ e _ => by
    simp [unnumbered, nodes, Node.id, Expr.id, e.nodes_unnumbered]
  | binary _ _ l r | assign _ _ l r | index _ l r => by
    simp [unnumbered, nodes, Node.id, Expr.id, l.nodes_unnumbered, r.nodes_unnumbered]
  | ternary _ c y n => by
    simp [unnumbered, nodes, Node.id, Expr.id, c.nodes_unnumbered, y.nodes_unnumbered,
      n.nodes_unnumbered]
  | call _ f args => by
    simp [unnumbered, nodes, Node.id, Expr.id, nodesOfArgs_unnumbered args]

theorem Expr.nodesOfArgs_unnumbered :
    ∀ args : List Expr, Unassigned (nodesOfArgs (unnumberedArgs args))
  | [] => by simp [unnumberedArgs, nodesOfArgs]
  | e :: es => by
    simp [unnumberedArgs, nodesOfArgs, e.nodes_unnumbered, nodesOfArgs_unnumbered es]

end

theorem nodesOfOption_unnumbered (e : Option Expr) :
    Unassigned (nodesOfOption (e.map Expr.unnumbered)) := by
  cases e with
  | none => simp [nodesOfOption]
  | some e => simp [nodesOfOption, e.nodes_unnumbered]

theorem nodesOfSuffix_unnumbered (a : Option ArraySuffix) :
    Unassigned (nodesOfSuffix (a.map ArraySuffix.unnumbered)) := by
  cases a with
  | none => simp [nodesOfSuffix, nodesOfOption]
  | some a => simp [nodesOfSuffix, ArraySuffix.unnumbered, nodesOfOption_unnumbered]

theorem Variables.nodes_unnumbered (v : Variables) : Unassigned v.unnumbered.nodes := by
  simp [nodes, unnumbered, Declarator.nodes, Declarator.unnumbered, nodesOfOption_unnumbered,
    nodesOfSuffix_unnumbered]

mutual

theorem Stmt.nodes_unnumbered : ∀ s : Stmt, Unassigned s.unnumbered.nodes
  | block _ body => by
    simp [unnumbered, nodes, Node.id, Stmt.id, nodesOfBody_unnumbered body]
  | declare _ vars => by simp [unnumbered, nodes, Node.id, Stmt.id, vars.nodes_unnumbered]
  | expr _ e => by simp [unnumbered, nodes, Node.id, Stmt.id, e.nodes_unnumbered]
  | ifThen _ c y => by
    simp [unnumbered, nodes, Node.id, Stmt.id, c.nodes_unnumbered, y.nodes_unnumbered]
  | ifElse _ c y n => by
    simp [unnumbered, nodes, Node.id, Stmt.id, c.nodes_unnumbered, y.nodes_unnumbered,
      n.nodes_unnumbered]
  | forLoop _ init c t body => by
    simp [unnumbered, nodes, Node.id, Stmt.id, init.nodes_unnumbered, nodesOfOption_unnumbered,
      body.nodes_unnumbered]
  | whileLoop _ c body | doWhile _ body c => by
    simp [unnumbered, nodes, Node.id, Stmt.id, c.nodes_unnumbered, body.nodes_unnumbered]
  | ret _ e => by simp [unnumbered, nodes, Node.id, Stmt.id, nodesOfOption_unnumbered]
  | jump _ _ | empty _ => by simp [unnumbered, nodes, Node.id, Stmt.id]

theorem Stmt.nodesOfBody_unnumbered :
    ∀ body : List Stmt, Unassigned (nodesOfBody (unnumberedBody body))
  | [] => by simp [unnumberedBody, nodesOfBody]
  | s :: rest => by
    simp [unnumberedBody, nodesOfBody, s.nodes_unnumbered, nodesOfBody_unnumbered rest]

end

theorem Declaration.nodes_unnumbered (d : Declaration) : Unassigned d.unnumbered.nodes := by
  cases d with
  | globals id vars =>
    simp [unnumbered, nodes, Node.id, Declaration.id, vars.nodes_unnumbered]
  | interfaceBlock id b =>
    simp [unnumbered, nodes, Node.id, Declaration.id, BlockMember.unnumbered,
      nodesOfSuffix_unnumbered]
  | function id f =>
    cases hf : f.body with
    | none =>
      simp [unnumbered, nodes, Node.id, Declaration.id, Function.unnumbered, Param.unnumbered,
        nodesOfSuffix_unnumbered, hf, Stmt.nodesOfBody]
    | some body =>
      simp [unnumbered, nodes, Node.id, Declaration.id, Function.unnumbered, Param.unnumbered,
        nodesOfSuffix_unnumbered, hf, Stmt.nodesOfBody_unnumbered]
  | _ => simp [unnumbered, nodes, Node.id, Declaration.id]

theorem Shader.nodes_unnumbered (s : Shader) : Unassigned s.unnumbered.nodes := by
  simp [nodes, unnumbered, Declaration.nodes_unnumbered]

theorem fillIds_replicate (next : NodeId) (k : Nat) :
    fillIds next (List.replicate k .unassigned) = List.range' next k := by
  induction k generalizing next with
  | zero => rfl
  | succ k ih => simp [List.replicate_succ, List.range'_succ, fillIds, ih]

/-- The nodes of a tree without identities get consecutive ones. -/
theorem Shader.number_ids {s : Shader} (hs : s.unnumbered = s) (ids : IdSupply) :
    (s.number ids).1.ids = List.range' ids.next s.nodes.length ∧
      (s.number ids).2.next = ids.next + s.nodes.length := by
  have hnodes : s.nodes.map Node.id = List.replicate s.nodes.length .unassigned := by
    have h := s.nodes_unnumbered
    rw [hs] at h
    simpa [List.eq_replicate_iff, Unassigned] using h
  obtain ⟨hids, hnext⟩ := s.number_numbers ids
  constructor
  · rw [Shader.ids, hids, hnodes, fillIds_replicate]
  · rw [hnext, hnodes, IdSupply.past, List.count_replicate_self]

end ShaderLift
