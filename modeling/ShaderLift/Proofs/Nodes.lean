import Mathlib
import ShaderLift.Tree.ParentIndex

/-!
The nodes of a shader, taken as one tree. A node has as many nodes below it as its children have
together, so the searches never run out of steps, and they go through the nodes in the order of the
walk from the last to the first. A slot holds one child, and a visit's path leads to its node.
-/

namespace ShaderLift

theorem map_zipIdx {α β : Type} (f : α → β) (xs : List α) (k : Nat) :
    ((xs.zipIdx k).map fun x => f x.1) = xs.map f := by
  induction xs generalizing k with
  | nil => rfl
  | cons x xs ih => simp [ih]

theorem flatMap_zipIdx {α β : Type} (f : α → List β) (xs : List α) (k : Nat) :
    ((xs.zipIdx k).flatMap fun x => f x.1) = xs.flatMap f := by
  simp only [List.flatMap_def, map_zipIdx]

theorem map_eq_self {α : Type} {f : α → α} {xs : List α} (h : ∀ x ∈ xs, f x = x) :
    xs.map f = xs := (List.map_congr_left h).trans (List.map_id' xs)

theorem Expr.sizeOfArgs_eq (args : List Expr) : sizeOfArgs args = (args.map size).sum := by
  induction args with
  | nil => rfl
  | cons e es ih => simp [sizeOfArgs, ih]

theorem Stmt.sizeOfBody_eq (body : List Stmt) : sizeOfBody body = (body.map size).sum := by
  induction body with
  | nil => rfl
  | cons s rest ih => simp [sizeOfBody, ih]

def childSizes (children : List (Slot × Node)) : Nat := (children.map fun c => c.2.size).sum

@[simp] theorem childSizes_nil : childSizes [] = 0 := rfl

@[simp] theorem childSizes_cons (c : Slot × Node) (rest : List (Slot × Node)) :
    childSizes (c :: rest) = c.2.size + childSizes rest := by simp [childSizes]

@[simp] theorem childSizes_append (a b : List (Slot × Node)) :
    childSizes (a ++ b) = childSizes a + childSizes b := by simp [childSizes]

@[simp] theorem childSizes_exprIn (slot : Slot) (e : Option Expr) :
    childSizes (exprIn slot e) = sizeOfOption e := by
  cases e <;> simp [exprIn, sizeOfOption, Node.size]

@[simp] theorem childSizes_sizeIn (slot : Slot) (a : Option ArraySuffix) :
    childSizes (sizeIn slot a) = sizeOfSuffix a := childSizes_exprIn _ _

@[simp] theorem childSizes_statementsIn (body : List Stmt) :
    childSizes (statementsIn body) = Stmt.sizeOfBody body := by
  have h := map_zipIdx Stmt.size body 0
  simp only [childSizes, statementsIn, List.map_map, Stmt.sizeOfBody_eq]
  exact congrArg List.sum h

theorem childSizes_args (args : List Expr) :
    childSizes (args.zipIdx.map fun (e, i) => (Slot.arg i, Node.expression e)) =
      Expr.sizeOfArgs args := by
  have h := map_zipIdx Expr.size args 0
  simp only [childSizes, List.map_map, Expr.sizeOfArgs_eq]
  exact congrArg List.sum h

theorem childSizes_declarators (vars : List Declarator) (k : Nat) :
    childSizes ((vars.zipIdx k).flatMap fun (d, i) =>
      sizeIn (.arraySize i) d.array ++ exprIn (.init i) d.init) = sizeOfDeclarators vars := by
  induction vars generalizing k with
  | nil => rfl
  | cons d rest ih => simp [sizeOfDeclarators, ih, Nat.add_assoc]

theorem childSizes_suffixes {α : Type} (array : α → Option ArraySuffix) (slot : Nat → Slot)
    (xs : List α) (k : Nat) :
    childSizes ((xs.zipIdx k).flatMap fun (x, i) => sizeIn (slot i) (array x)) =
      sizeOfSuffixes (xs.map array) := by
  induction xs generalizing k with
  | nil => rfl
  | cons x rest ih => simp [sizeOfSuffixes, ih]

theorem Variables.size_children (v : Variables) : childSizes v.children = v.size :=
  childSizes_declarators v.vars 0

theorem Expr.size_children (e : Expr) : e.size = childSizes e.children + 1 := by
  cases e <;> simp [Expr.size, Expr.children, Node.size, childSizes_args]
  all_goals omega

theorem Stmt.size_children (s : Stmt) : s.size = childSizes s.children + 1 := by
  cases s <;> simp [Stmt.size, Stmt.children, Node.size, Variables.size_children]
  all_goals omega

theorem Declaration.size_children (d : Declaration) : d.size = childSizes d.children + 1 := by
  cases d <;>
    simp [Declaration.size, Declaration.children, Variables.size_children, childSizes_suffixes]

theorem Node.size_children (n : Node) : n.size = childSizes n.children + 1 := by
  cases n with
  | declaration d => exact d.size_children
  | statement s => exact s.size_children
  | expression e => exact e.size_children

theorem Node.size_lt_of_mem {n c : Node} {slot : Slot} (h : (slot, c) ∈ n.children) :
    c.size < n.size := by
  have hc : c.size ∈ n.children.map fun c => c.2.size := List.mem_map_of_mem h
  have hle := List.le_sum_of_mem hc
  have hn := n.size_children
  simp only [childSizes] at hn
  omega

/-- What holds of a node when it holds of all its children holds of every node. -/
theorem Node.induction {motive : Node → Prop}
    (step : ∀ n : Node, (∀ slot c, (slot, c) ∈ n.children → motive c) → motive n) (n : Node) :
    motive n :=
  step n fun _ c _ => Node.induction step c
termination_by n.size
decreasing_by exact Node.size_lt_of_mem ‹_›

mutual

def Expr.nodes : Expr → List Node
  | literal id v => [.expression (literal id v)]
  | name id n => [.expression (name id n)]
  | paren id e => .expression (paren id e) :: e.nodes
  | unary id op e => .expression (unary id op e) :: e.nodes
  | binary id op l r => .expression (binary id op l r) :: (l.nodes ++ r.nodes)
  | assign id op l r => .expression (assign id op l r) :: (l.nodes ++ r.nodes)
  | ternary id c y n => .expression (ternary id c y n) :: (c.nodes ++ y.nodes ++ n.nodes)
  | call id f args => .expression (call id f args) :: Expr.nodesOfArgs args
  | index id b i => .expression (index id b i) :: (b.nodes ++ i.nodes)
  | member id b f => .expression (member id b f) :: b.nodes

def Expr.nodesOfArgs : List Expr → List Node
  | [] => []
  | e :: es => e.nodes ++ Expr.nodesOfArgs es

end

def nodesOfOption : Option Expr → List Node
  | some e => e.nodes
  | none => []

def nodesOfSuffix (a : Option ArraySuffix) : List Node := nodesOfOption (a.bind ArraySuffix.size)

def Declarator.nodes (d : Declarator) : List Node := nodesOfSuffix d.array ++ nodesOfOption d.init

def Variables.nodes (v : Variables) : List Node := v.vars.flatMap Declarator.nodes

mutual

def Stmt.nodes : Stmt → List Node
  | block id body => .statement (block id body) :: Stmt.nodesOfBody body
  | declare id vars => .statement (declare id vars) :: vars.nodes
  | expr id e => .statement (expr id e) :: e.nodes
  | ifThen id c y => .statement (ifThen id c y) :: (c.nodes ++ y.nodes)
  | ifElse id c y n => .statement (ifElse id c y n) :: (c.nodes ++ y.nodes ++ n.nodes)
  | forLoop id init c s body =>
    .statement (forLoop id init c s body) ::
      (init.nodes ++ nodesOfOption c ++ nodesOfOption s ++ body.nodes)
  | whileLoop id c body => .statement (whileLoop id c body) :: (c.nodes ++ body.nodes)
  | doWhile id body c => .statement (doWhile id body c) :: (body.nodes ++ c.nodes)
  | ret id e => .statement (ret id e) :: nodesOfOption e
  | jump id k => [.statement (jump id k)]
  | empty id => [.statement (empty id)]

def Stmt.nodesOfBody : List Stmt → List Node
  | [] => []
  | s :: rest => s.nodes ++ Stmt.nodesOfBody rest

end

def Declaration.nodes : Declaration → List Node
  | directive id t => [.declaration (directive id t)]
  | precision id p t => [.declaration (precision id p t)]
  | globals id vars => .declaration (globals id vars) :: vars.nodes
  | interfaceBlock id b =>
    .declaration (interfaceBlock id b) :: b.members.flatMap fun m => nodesOfSuffix m.array
  | qualifiers id list => [.declaration (qualifiers id list)]
  | function id f =>
    .declaration (function id f) ::
      (f.params.flatMap (fun p => nodesOfSuffix p.array) ++ Stmt.nodesOfBody (f.body.getD []))

/-- A node and all below it, each before its children and siblings from first to last. -/
def Node.nodes : Node → List Node
  | declaration d => d.nodes
  | statement s => s.nodes
  | expression e => e.nodes

def Node.ids (n : Node) : List NodeId := n.nodes.map Node.id

theorem Expr.nodesOfArgs_eq (args : List Expr) : nodesOfArgs args = args.flatMap nodes := by
  induction args with
  | nil => rfl
  | cons e es ih => simp [nodesOfArgs, ih]

theorem Stmt.nodesOfBody_eq (body : List Stmt) : nodesOfBody body = body.flatMap nodes := by
  induction body with
  | nil => rfl
  | cons s rest ih => simp [nodesOfBody, ih]

def childNodes (children : List (Slot × Node)) : List Node := children.flatMap fun c => c.2.nodes

@[simp] theorem childNodes_nil : childNodes [] = [] := rfl

@[simp] theorem childNodes_cons (c : Slot × Node) (rest : List (Slot × Node)) :
    childNodes (c :: rest) = c.2.nodes ++ childNodes rest := by simp [childNodes]

@[simp] theorem childNodes_append (a b : List (Slot × Node)) :
    childNodes (a ++ b) = childNodes a ++ childNodes b := by simp [childNodes]

@[simp] theorem childNodes_exprIn (slot : Slot) (e : Option Expr) :
    childNodes (exprIn slot e) = nodesOfOption e := by
  cases e <;> simp [exprIn, nodesOfOption, Node.nodes]

@[simp] theorem childNodes_sizeIn (slot : Slot) (a : Option ArraySuffix) :
    childNodes (sizeIn slot a) = nodesOfSuffix a := childNodes_exprIn _ _

@[simp] theorem childNodes_statementsIn (body : List Stmt) :
    childNodes (statementsIn body) = Stmt.nodesOfBody body := by
  rw [childNodes, statementsIn, List.flatMap_map, Stmt.nodesOfBody_eq]
  exact flatMap_zipIdx Stmt.nodes body 0

theorem childNodes_args (args : List Expr) :
    childNodes (args.zipIdx.map fun (e, i) => (Slot.arg i, Node.expression e)) =
      Expr.nodesOfArgs args := by
  rw [childNodes, List.flatMap_map, Expr.nodesOfArgs_eq]
  exact flatMap_zipIdx Expr.nodes args 0

theorem childNodes_suffixes {α : Type} (array : α → Option ArraySuffix) (slot : Nat → Slot)
    (xs : List α) (k : Nat) :
    childNodes ((xs.zipIdx k).flatMap fun (x, i) => sizeIn (slot i) (array x)) =
      xs.flatMap fun x => nodesOfSuffix (array x) := by
  induction xs generalizing k with
  | nil => rfl
  | cons x rest ih => simp [ih]

theorem childNodes_declarators (vars : List Declarator) (k : Nat) :
    childNodes ((vars.zipIdx k).flatMap fun (d, i) =>
      sizeIn (.arraySize i) d.array ++ exprIn (.init i) d.init) = vars.flatMap Declarator.nodes := by
  induction vars generalizing k with
  | nil => rfl
  | cons d rest ih => simp [Declarator.nodes, ih]

theorem Variables.nodes_children (v : Variables) : childNodes v.children = v.nodes :=
  childNodes_declarators v.vars 0

theorem Node.nodes_eq (n : Node) : n.nodes = n :: childNodes n.children := by
  cases n with
  | declaration d =>
    cases d <;> simp [nodes, Declaration.nodes, children, Declaration.children,
      Variables.nodes_children, childNodes_suffixes]
  | statement s =>
    cases s <;> simp [nodes, Stmt.nodes, children, Stmt.children, Variables.nodes_children]
  | expression e =>
    cases e <;> simp [nodes, Expr.nodes, children, Expr.children, childNodes_args]

theorem Visit.walkFuel_congr (dir : Direction) (a b : Nat) (v : Visit) (ha : v.node.size ≤ a)
    (hb : v.node.size ≤ b) : v.walkFuel dir a = v.walkFuel dir b := by
  induction a generalizing b v with
  | zero => have h := v.node.size_children; omega
  | succ a ih =>
    cases b with
    | zero => have h := v.node.size_children; omega
    | succ b =>
      simp only [walkFuel, List.cons.injEq, true_and]
      refine List.flatMap_congr fun c hc => ?_
      have hm : (c.1, c.2) ∈ v.node.children := by cases dir <;> simpa [Direction.arrange] using hc
      have hlt := Node.size_lt_of_mem hm
      exact ih b (v.child c.1 c.2) (by simp only [child]; omega) (by simp only [child]; omega)

theorem Visit.walk_eq (dir : Direction) (v : Visit) :
    v.walk dir = v :: (dir.arrange v.node.children).flatMap fun c => (v.child c.1 c.2).walk dir := by
  have h := v.node.size_children
  rw [walk, h, walkFuel]
  simp only [List.cons.injEq, true_and]
  refine List.flatMap_congr fun c hc => ?_
  have hm : (c.1, c.2) ∈ v.node.children := by cases dir <;> simpa [Direction.arrange] using hc
  have hlt := Node.size_lt_of_mem hm
  exact walkFuel_congr dir _ _ _ (by simp only [child]; omega) (le_refl _)

theorem Direction.arrange_perm {α : Type} (dir : Direction) (xs : List α) :
    (dir.arrange xs).Perm xs := by
  cases dir with
  | forward => exact List.Perm.refl _
  | backward => exact List.reverse_perm xs

theorem Visit.walk_nodes (dir : Direction) (v : Visit) :
    ((v.walk dir).map Visit.node).Perm v.node.nodes := by
  induction hn : v.node using Node.induction generalizing v with
  | step n ih =>
    subst hn
    rw [walk_eq, Node.nodes_eq, childNodes, List.map_cons, List.map_flatMap]
    refine List.Perm.cons _ ?_
    refine (List.Perm.flatMap_right _ (dir.arrange_perm _)).trans ?_
    exact List.Perm.flatMap_left _ fun c hc => ih c.1 c.2 hc (v.child c.1 c.2) rfl

def Visit.walkAll (stack : List Visit) : List Visit := stack.flatMap (Visit.walk .backward)

def Visit.sizes (stack : List Visit) : Nat := (stack.map fun v => v.node.size).sum

theorem Visit.sizes_below (v : Visit) : sizes v.below = childSizes v.node.children := by
  simp [sizes, below, childSizes, Function.comp_def, Visit.child, List.sum_reverse]

theorem Visit.walkAll_cons (v : Visit) (stack : List Visit) :
    walkAll (v :: stack) = v :: walkAll (v.below ++ stack) := by
  simp [walkAll, walk_eq .backward v, Direction.arrange, below, -List.map_reverse, List.flatMap_map]

theorem searchFuel_eq (id : NodeId) (fuel : Nat) (stack : List Visit)
    (h : Visit.sizes stack ≤ fuel) :
    searchFuel id fuel stack = (Visit.walkAll stack).find? fun v => v.node.id = id := by
  induction fuel generalizing stack with
  | zero =>
    cases stack with
    | nil => rfl
    | cons v stack =>
      have hv := v.node.size_children
      simp [Visit.sizes] at h
      omega
  | succ fuel ih =>
    cases stack with
    | nil => rfl
    | cons v stack =>
      have hv := v.node.size_children
      have hb := v.sizes_below
      have hs : Visit.sizes (v.below ++ stack) ≤ fuel := by simp [Visit.sizes] at *; omega
      rw [searchFuel, Visit.walkAll_cons, List.find?_cons]
      by_cases hid : v.node.id = id
      · simp [hid]
      · simp [hid, ih _ hs]

namespace ParentIndex

theorem gatherFuel_eq (fuel : Nat) (stack : List Visit) (links : List (NodeId × Link))
    (h : Visit.sizes stack ≤ fuel) :
    gatherFuel fuel stack links =
      ((Visit.walkAll stack).map fun v => (v.node.id, v.link)).reverse ++ links := by
  induction fuel generalizing stack links with
  | zero =>
    cases stack with
    | nil => rfl
    | cons v stack =>
      have hv := v.node.size_children
      simp [Visit.sizes] at h
      omega
  | succ fuel ih =>
    cases stack with
    | nil => rfl
    | cons v stack =>
      have hv := v.node.size_children
      have hb := v.sizes_below
      have hs : Visit.sizes (v.below ++ stack) ≤ fuel := by simp [Visit.sizes] at *; omega
      rw [gatherFuel, Visit.walkAll_cons, ih _ _ hs]
      simp

end ParentIndex

theorem Shader.walkAll_tops (s : Shader) : Visit.walkAll s.tops = s.walk .backward := by
  simp [Visit.walkAll, tops, walk, Direction.arrange, -List.map_reverse, List.flatMap_map]

theorem sizeOfDeclarations_eq (ds : List Declaration) :
    sizeOfDeclarations ds = (ds.map Declaration.size).sum := by
  induction ds with
  | nil => rfl
  | cons d rest ih => simp [sizeOfDeclarations, ih]

theorem Shader.sizes_tops (s : Shader) : Visit.sizes s.tops = s.size := by
  have h := map_zipIdx Declaration.size s.declarations 0
  simp only [Visit.sizes, tops, children, Shader.size, sizeOfDeclarations_eq, List.map_map,
    List.map_reverse, List.sum_reverse]
  exact congrArg List.sum h

/-- A search finds the first node with the identity on the walk from the last to the first. -/
theorem Shader.visit?_eq (s : Shader) (id : NodeId) :
    s.visit? id = (s.walk .backward).find? fun v => v.node.id = id := by
  rw [visit?, searchFuel_eq id s.size s.tops (by rw [sizes_tops]), walkAll_tops]

theorem ParentIndex.links_ofShader (s : Shader) :
    (ofShader s).links = ((s.walk .backward).map fun v => (v.node.id, v.link)).reverse := by
  simp [ofShader, gatherFuel_eq s.size s.tops [] (by rw [Shader.sizes_tops]), Shader.walkAll_tops]

theorem mem_exprIn {slot at' : Slot} {e : Option Expr} {c : Node} :
    (slot, c) ∈ exprIn at' e ↔ slot = at' ∧ ∃ x, e = some x ∧ c = .expression x := by
  cases e <;> simp [exprIn]

theorem mem_sizeIn {slot at' : Slot} {a : Option ArraySuffix} {c : Node} :
    (slot, c) ∈ sizeIn at' a ↔
      slot = at' ∧ ∃ x, a.bind ArraySuffix.size = some x ∧ c = .expression x := mem_exprIn

theorem mem_statementsIn {slot : Slot} {body : List Stmt} {c : Node} :
    (slot, c) ∈ statementsIn body ↔ ∃ i s, body[i]? = some s ∧ slot = .body i ∧ c = .statement s := by
  simp [statementsIn, List.mem_zipIdx_iff_getElem?]
  grind

theorem mem_args {slot : Slot} {args : List Expr} {c : Node} :
    (slot, c) ∈ args.zipIdx.map (fun (e, i) => (Slot.arg i, Node.expression e)) ↔
      ∃ i e, args[i]? = some e ∧ slot = .arg i ∧ c = .expression e := by
  simp [List.mem_zipIdx_iff_getElem?]
  grind

theorem Expr.child_expression {e : Expr} {slot : Slot} {c : Node} (hc : (slot, c) ∈ e.children) :
    ∃ x, c = .expression x := by
  cases e with
  | call id f args =>
    obtain ⟨i, x, -, -, rfl⟩ := mem_args.1 hc
    exact ⟨x, rfl⟩
  | _ => simp [children] at hc <;> grind

theorem mem_suffixes {α : Type} {array : α → Option ArraySuffix} {at' : Nat → Slot}
    {xs : List α} {slot : Slot} {c : Node} :
    (slot, c) ∈ (xs.zipIdx.flatMap fun (x, i) => sizeIn (at' i) (array x)) ↔
      ∃ i x, xs[i]? = some x ∧ slot = at' i ∧
        ∃ e, (array x).bind ArraySuffix.size = some e ∧ c = .expression e := by
  simp [List.mem_zipIdx_iff_getElem?, mem_sizeIn]
  grind

theorem Variables.mem_children {v : Variables} {slot : Slot} {c : Node} :
    (slot, c) ∈ v.children ↔ ∃ i d, v.vars[i]? = some d ∧
      ((slot = .arraySize i ∧ ∃ e, d.array.bind ArraySuffix.size = some e ∧ c = .expression e) ∨
        (slot = .init i ∧ ∃ e, d.init = some e ∧ c = .expression e)) := by
  simp [children, List.mem_zipIdx_iff_getElem?, mem_sizeIn, mem_exprIn]
  grind

theorem slots_exprIn (slot : Slot) (e : Option Expr) :
    (exprIn slot e).map Prod.fst = if e.isSome then [slot] else [] := by
  cases e <;> rfl

section

variable {α : Type}

/-- The children that a row of items has, each in slots of its own number, are in different slots. -/
theorem row_slots (list : α → Nat → List (Slot × Node))
    (hitem : ∀ x i, ((list x i).map Prod.fst).Nodup)
    (happart : ∀ x y i j slot c d, (slot, c) ∈ list x i → (slot, d) ∈ list y j → i = j)
    (xs : List α) : ((xs.zipIdx.flatMap fun x => list x.1 x.2).map Prod.fst).Nodup := by
  rw [List.map_flatMap]
  refine List.nodup_flatMap.2 ⟨fun x _ => hitem x.1 x.2, ?_⟩
  have hnumbers : (xs.zipIdx.map Prod.snd).Nodup := by
    rw [List.zipIdx_map_snd]
    exact List.nodup_range'
  refine (List.pairwise_map.1 hnumbers).imp fun hne slot hx hy => hne ?_
  obtain ⟨⟨slot, c⟩, hc, rfl⟩ := List.mem_map.1 hx
  obtain ⟨⟨slot', d⟩, hd, rfl⟩ := List.mem_map.1 hy
  exact happart _ _ _ _ _ c d hc hd

theorem suffixes_slots (array : α → Option ArraySuffix) {slot : Nat → Slot}
    (hslot : Function.Injective slot) (xs : List α) :
    ((xs.zipIdx.flatMap fun x => sizeIn (slot x.2) (array x.1)).map Prod.fst).Nodup := by
  refine row_slots (fun x i => sizeIn (slot i) (array x)) (fun x i => ?_)
    (fun x y i j at' c d hc hd => ?_) xs
  · rw [sizeIn, slots_exprIn]
    split <;> simp
  · obtain ⟨rfl, -⟩ := mem_exprIn.1 hc
    obtain ⟨hij, -⟩ := mem_exprIn.1 hd
    exact hslot hij

theorem items_slots {slot : Nat → Slot} (hslot : Function.Injective slot) (node : α → Node)
    (xs : List α) : ((xs.zipIdx.map fun x => (slot x.2, node x.1)).map Prod.fst).Nodup := by
  have hrow : (xs.zipIdx.map fun x => (slot x.2, node x.1)) =
      xs.zipIdx.flatMap fun x => [(slot x.2, node x.1)] := List.map_eq_flatMap
  rw [hrow]
  refine row_slots (fun x i => [(slot i, node x)]) (fun _ _ => by simp)
    (fun x y i j at' c d hc hd => ?_) xs
  simp only [List.mem_singleton, Prod.mk.injEq] at hc hd
  exact hslot (hc.1.symm.trans hd.1)

end

theorem Variables.slots_nodup (v : Variables) : (v.children.map Prod.fst).Nodup := by
  refine row_slots (fun d i => sizeIn (.arraySize i) d.array ++ exprIn (.init i) d.init)
    (fun d i => ?_) (fun d d' i j slot a b ha hb => ?_) v.vars
  · rw [List.map_append, sizeIn, slots_exprIn, slots_exprIn]
    split <;> split <;> simp
  · simp only [sizeIn, List.mem_append, mem_exprIn] at ha hb
    grind

theorem Node.slots_nodup (n : Node) : (n.children.map Prod.fst).Nodup := by
  cases n with
  | declaration d =>
    cases d with
    | globals id vars => exact vars.slots_nodup
    | interfaceBlock id b =>
      exact suffixes_slots BlockMember.array (fun _ _ => Slot.memberArraySize.inj) b.members
    | function id f =>
      have hparams := suffixes_slots Param.array (fun _ _ => Slot.paramArraySize.inj) f.params
      have hbody := items_slots (fun _ _ => Slot.body.inj) Node.statement (f.body.getD [])
      simp only [children, Declaration.children, List.map_append]
      refine hparams.append hbody fun slot hparam hslot => ?_
      obtain ⟨⟨slot, c⟩, hc, rfl⟩ := List.mem_map.1 hparam
      obtain ⟨⟨slot', d⟩, hd, hsame⟩ := List.mem_map.1 hslot
      obtain ⟨i, p, -, rfl, -⟩ := mem_suffixes.1 hc
      obtain ⟨j, s, -, rfl, -⟩ := mem_statementsIn.1 hd
      cases hsame
    | _ => simp [children, Declaration.children]
  | statement s =>
    cases s with
    | block id body => exact items_slots (fun _ _ => Slot.body.inj) Node.statement body
    | declare id vars => exact vars.slots_nodup
    | forLoop id init cond step body =>
      simp only [children, Stmt.children, List.map_append, List.map_cons, slots_exprIn]
      split <;> split <;> simp
    | ret id e =>
      simp only [children, Stmt.children, slots_exprIn]
      split <;> simp
    | _ => simp [children, Stmt.children]
  | expression e =>
    cases e with
    | call id f args => exact items_slots (fun _ _ => Slot.arg.inj) Node.expression args
    | _ => simp [children, Expr.children]

theorem Node.child_unique {n : Node} {slot : Slot} {a b : Node}
    (ha : (slot, a) ∈ n.children) (hb : (slot, b) ∈ n.children) : a = b :=
  (Prod.mk.inj (List.inj_on_of_nodup_map n.slots_nodup ha hb rfl)).2

theorem Node.child?_eq_some {n c : Node} {slot : Slot} :
    n.child? slot = some c ↔ (slot, c) ∈ n.children := by
  constructor
  · intro h
    obtain ⟨⟨slot', c'⟩, hfind, rfl⟩ := Option.map_eq_some_iff.1 h
    have hmem := List.mem_of_find?_eq_some hfind
    have hslot := List.find?_some hfind
    simp only [decide_eq_true_eq] at hslot
    subst hslot
    exact hmem
  · intro h
    cases hfind : n.children.find? fun c => c.1 = slot with
    | none =>
      have hnone := List.find?_eq_none.1 hfind (slot, c) h
      simp at hnone
    | some found =>
      obtain ⟨slot', c'⟩ := found
      have hmem := List.mem_of_find?_eq_some hfind
      have hslot := List.find?_some hfind
      simp only [decide_eq_true_eq] at hslot
      subst hslot
      simp [child?, hfind, Node.child_unique hmem h]

theorem Node.at?_append (n : Node) (p q : Path) :
    n.at? (p ++ q) = (n.at? p).bind fun c => c.at? q := by
  induction p generalizing n with
  | nil => rfl
  | cons slot p ih =>
    simp only [List.cons_append, at?]
    cases n.child? slot with
    | none => rfl
    | some c => exact ih c

theorem Shader.at?_append (s : Shader) (p q : Path) (hp : p ≠ []) :
    s.at? (p ++ q) = (s.at? p).bind fun c => c.at? q := by
  cases p with
  | nil => exact absurd rfl hp
  | cons slot p =>
    cases slot <;> simp only [List.cons_append, at?, Option.bind_none, Option.bind_assoc]
    simp only [Node.at?_append]

theorem Visit.walk_path {dir : Direction} {v w : Visit} (h : w ∈ v.walk dir) :
    ∃ p, w.path = v.path ++ p ∧ v.node.at? p = some w.node := by
  induction hn : v.node using Node.induction generalizing v with
  | step n ih =>
    subst hn
    rw [walk_eq, List.mem_cons, List.mem_flatMap] at h
    rcases h with rfl | ⟨c, hc, hw⟩
    · exact ⟨[], by simp, rfl⟩
    · have hm : (c.1, c.2) ∈ v.node.children := (dir.arrange_perm _).mem_iff.1 hc
      obtain ⟨p, hp, hat⟩ := ih c.1 c.2 hm hw rfl
      refine ⟨c.1 :: p, by simp [hp, child], ?_⟩
      simpa [Node.at?, Node.child?_eq_some.2 hm] using hat

theorem Shader.mem_children {s : Shader} {slot : Slot} {n : Node} :
    (slot, n) ∈ s.children ↔
      ∃ i d, s.declarations[i]? = some d ∧ slot = .topLevel i ∧ n = .declaration d := by
  simp [children, List.mem_zipIdx_iff_getElem?]
  grind

theorem Shader.walk_path {s : Shader} {dir : Direction} {v : Visit} (h : v ∈ s.walk dir) :
    v.path ≠ [] ∧ s.at? v.path = some v.node := by
  obtain ⟨⟨slot, n⟩, hc, hv⟩ := List.mem_flatMap.1 h
  have hm : (slot, n) ∈ s.children := (dir.arrange_perm _).mem_iff.1 hc
  obtain ⟨i, d, hd, rfl, rfl⟩ := mem_children.1 hm
  obtain ⟨p, hp, hat⟩ := Visit.walk_path hv
  refine ⟨by simp [hp, Visit.top], ?_⟩
  simp only [hp, Visit.top, List.singleton_append, at?, hd]
  exact hat

/-- A node on a walk is a declaration at the top or a child of another node on it. -/
theorem Visit.walk_parent {dir : Direction} {v w : Visit} (h : w ∈ v.walk dir) :
    w = v ∨ ∃ u ∈ v.walk dir, ∃ slot c, (slot, c) ∈ u.node.children ∧ w = u.child slot c := by
  induction hn : v.node using Node.induction generalizing v with
  | step n ih =>
    subst hn
    rw [walk_eq, List.mem_cons, List.mem_flatMap] at h
    rcases h with rfl | ⟨c, hc, hw⟩
    · exact .inl rfl
    · have hm : (c.1, c.2) ∈ v.node.children := (dir.arrange_perm _).mem_iff.1 hc
      rw [walk_eq]
      rcases ih c.1 c.2 hm hw rfl with rfl | ⟨u, hu, slot, c', hc', rfl⟩
      · exact .inr ⟨v, List.mem_cons_self, c.1, c.2, hm, rfl⟩
      · exact .inr ⟨u, List.mem_cons_of_mem _ (List.mem_flatMap.2 ⟨c, hc, hu⟩), slot, c', hc', rfl⟩

theorem Shader.walk_parent {s : Shader} {dir : Direction} {v : Visit} (h : v ∈ s.walk dir) :
    (∃ slot d, (slot, .declaration d) ∈ s.children ∧ v = Visit.top slot (.declaration d)) ∨
      ∃ u ∈ s.walk dir, ∃ slot c, (slot, c) ∈ u.node.children ∧ v = u.child slot c := by
  obtain ⟨⟨slot, n⟩, hc, hv⟩ := List.mem_flatMap.1 h
  have hm : (slot, n) ∈ s.children := (dir.arrange_perm _).mem_iff.1 hc
  rcases Visit.walk_parent hv with rfl | ⟨u, hu, slot', c, hc', rfl⟩
  · obtain ⟨i, d, -, -, rfl⟩ := mem_children.1 hm
    exact .inl ⟨slot, d, hm, rfl⟩
  · exact .inr ⟨u, List.mem_flatMap.2 ⟨(slot, n), hc, hu⟩, slot', c, hc', rfl⟩

def Shader.nodes (s : Shader) : List Node := s.declarations.flatMap Declaration.nodes

def Shader.ids (s : Shader) : List NodeId := s.nodes.map Node.id

theorem Shader.nodes_children (s : Shader) : s.nodes = childNodes s.children := by
  rw [childNodes, children, List.flatMap_map]
  exact (flatMap_zipIdx Declaration.nodes s.declarations 0).symm

theorem Shader.walk_nodes (s : Shader) (dir : Direction) :
    ((s.walk dir).map Visit.node).Perm s.nodes := by
  rw [walk, List.map_flatMap, nodes_children]
  refine (List.Perm.flatMap_right _ (dir.arrange_perm _)).trans ?_
  exact List.Perm.flatMap_left _ fun c _ => Visit.walk_nodes dir _

theorem Shader.mem_nodes_iff {s : Shader} {n : Node} (dir : Direction) :
    n ∈ s.nodes ↔ ∃ v ∈ s.walk dir, v.node = n := by
  rw [← (s.walk_nodes dir).mem_iff, List.mem_map]

theorem Shader.visit_unique {s : Shader} {dir : Direction} (hs : s.ids.Nodup) {v w : Visit}
    (hv : v ∈ s.walk dir) (hw : w ∈ s.walk dir) (hid : v.node.id = w.node.id) : v = w := by
  have hperm := (s.walk_nodes dir).map Node.id
  have hnodup : ((s.walk dir).map fun v => v.node.id).Nodup := by
    have h := hperm.nodup_iff.2 hs
    rwa [List.map_map] at h
  exact List.inj_on_of_nodup_map hnodup hv hw hid

end ShaderLift
