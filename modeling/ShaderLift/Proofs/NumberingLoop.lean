import Mathlib
import ShaderLift.Proofs.Numbering
import ShaderLift.Proofs.Places
import ShaderLift.Tree.Numbering

/-!
Numbering with a stack of paths. The loop comes to a node before its children and to these from the
first to the last, and each is numbered in its place while the rest stays as it is. So it does what
the recursion does.
-/

namespace ShaderLift

def Node.number : Node → Numbered Node
  | declaration d => return declaration (← d.number)
  | statement s => return statement (← s.number)
  | expression e => return expression (← e.number)

/-- Numbers children one after the other and puts them back into their slots. -/
def Node.numberChildren (n : Node) : List (Slot × Node) → Numbered Node
  | [] => return n
  | (slot, c) :: rest => do (n.setChild slot (← c.number)).numberChildren rest

namespace Node

@[simp] theorem numberChildren_nil (n : Node) : n.numberChildren [] = pure n := rfl

@[simp] theorem numberChildren_cons (n : Node) (slot : Slot) (c : Node) (rest : List (Slot × Node)) :
    n.numberChildren ((slot, c) :: rest) =
      c.number >>= fun new => (n.setChild slot new).numberChildren rest := rfl

theorem numberChildren_append (n : Node) (a b : List (Slot × Node)) :
    n.numberChildren (a ++ b) = n.numberChildren a >>= fun m => m.numberChildren b := by
  induction a generalizing n with
  | nil => simp
  | cons c a ih =>
    obtain ⟨slot, c⟩ := c
    simp [ih]

theorem modify_item {α : Type} (before after : List α) (x : α) (f : α → α) :
    (before ++ x :: after).modify before.length f = before ++ f x :: after := by
  rw [modify_of_getElem? (x := x) (by simp)]
  simp

theorem numberChildren_row {α : Type} (number : α → Numbered α) (build : List α → Node)
    (list : α → Nat → List (Slot × Node))
    (hitem : ∀ before x after, (build (before ++ x :: after)).numberChildren (list x before.length) =
      number x >>= fun y => pure (build (before ++ y :: after))) (before xs : List α) :
    (build (before ++ xs)).numberChildren
        ((xs.zipIdx before.length).flatMap fun x => list x.1 x.2) =
      xs.mapM number >>= fun ys => pure (build (before ++ ys)) := by
  induction xs generalizing before with
  | nil => simp
  | cons x xs ih =>
    have hnext (y : α) := ih (before ++ [y])
    simp only [List.append_assoc, List.singleton_append, List.length_append,
      List.length_singleton] at hnext
    rw [List.zipIdx_cons, List.flatMap_cons, numberChildren_append, hitem]
    simp [hnext]

theorem numberChildren_exprIn (slot : Slot) (build : Option Expr → Node) {e : Option Expr}
    (hset : ∀ x new, e = some x → (build e).setChild slot (.expression new) = build (some new)) :
    (build e).numberChildren (exprIn slot e) =
      numberOption e >>= fun new => pure (build new) := by
  cases e with
  | none => simp [exprIn, numberOption]
  | some x => simp [exprIn, numberOption, number, hset x _ rfl]

theorem numberChildren_sizeIn (slot : Slot) (build : Option ArraySuffix → Node)
    {a : Option ArraySuffix}
    (hset : ∀ new, (build a).setChild slot (.expression new) = build (a.map (·.setSize new))) :
    (build a).numberChildren (sizeIn slot a) =
      numberSuffix a >>= fun new => pure (build new) := by
  rcases a with _ | ⟨_ | e⟩
  · simp [sizeIn, exprIn, numberSuffix]
  · simp [sizeIn, exprIn, numberSuffix, numberOption]
  · simp [sizeIn, exprIn, numberSuffix, numberOption, number, hset, ArraySuffix.setSize]

theorem numberChildren_suffixes {α : Type} (array : α → Option ArraySuffix)
    (put : α → Option ArraySuffix → α) (hput : ∀ x, put x (array x) = x) (slot : Nat → Slot)
    (build : List α → Node) (number : α → Numbered α)
    (hnumber : ∀ x, number x = numberSuffix (array x) >>= fun a => pure (put x a))
    (hset : ∀ xs i new, (build xs).setChild (slot i) (.expression new) =
      build (xs.modify i fun x => put x ((array x).map (·.setSize new)))) (xs : List α) :
    (build xs).numberChildren (xs.zipIdx.flatMap fun x => sizeIn (slot x.2) (array x.1)) =
      xs.mapM number >>= fun ys => pure (build ys) := by
  refine numberChildren_row number build (fun x i => sizeIn (slot i) (array x))
    (fun before x after => ?_) [] xs
  have h := numberChildren_sizeIn (slot before.length)
    (fun a => build (before ++ put x a :: after)) (a := array x) fun new => by
      simp [hput, hset, modify_item]
  simpa [hput, hnumber] using h

theorem numberChildren_variables (wrap : Variables → Node)
    (hset : ∀ v slot new, (wrap v).setChild slot (.expression new) = wrap (v.setChild slot new))
    (v : Variables) :
    (wrap v).numberChildren v.children = v.number >>= fun new => pure (wrap new) := by
  have hrow := numberChildren_row Declarator.number (fun vars => wrap { v with vars })
    (fun d i => sizeIn (.arraySize i) d.array ++ exprIn (.init i) d.init) (fun before d after => ?_)
    [] v.vars
  · simpa [Variables.number, Variables.children] using hrow
  · have hsize := numberChildren_sizeIn (.arraySize before.length)
      (fun a => wrap { v with vars := before ++ { d with array := a } :: after }) (a := d.array)
      fun new => by simp [hset, Variables.setChild, modify_item]
    have hinit (a : Option ArraySuffix) := numberChildren_exprIn (.init before.length)
      (fun e => wrap { v with vars := before ++ { d with array := a, init := e } :: after })
      (e := d.init) fun x new hx => by simp [hset, Variables.setChild, modify_item, hx]
    rw [numberChildren_append, hsize]
    simp [hinit, Declarator.number]

theorem numberArgs_eq (args : List Expr) : Expr.numberArgs args = args.mapM Expr.number := by
  induction args with
  | nil => rfl
  | cons e es ih => simp [Expr.numberArgs, ih]

theorem numberBody_eq (body : List Stmt) : Stmt.numberBody body = body.mapM Stmt.number := by
  induction body with
  | nil => rfl
  | cons s rest ih => simp [Stmt.numberBody, ih]

theorem numberChildren_statements (build : List Stmt → Node)
    (hset : ∀ body i new, (build body).setChild (.body i) (.statement new) = build (body.set i new))
    (body : List Stmt) :
    (build body).numberChildren (statementsIn body) =
      Stmt.numberBody body >>= fun new => pure (build new) := by
  have hrow := numberChildren_row Stmt.number build
    (fun s i => [(.body i, .statement s)]) (fun before s after => ?_) [] body
  · rw [numberBody_eq, statementsIn]
    simpa [List.map_eq_flatMap] using hrow
  · simp [number, hset]

theorem numberChildren_args (id : NodeId) (f : String) (args : List Expr) :
    (expression (.call id f args)).numberChildren (Expr.call id f args).children =
      Expr.numberArgs args >>= fun new => pure (.expression (.call id f new)) := by
  have hrow := numberChildren_row Expr.number
    (fun args => .expression (.call id f args)) (fun e i => [(.arg i, .expression e)])
    (fun before e after => by simp [number, setChild, Expr.setChild]) [] args
  rw [numberArgs_eq, Expr.children]
  simpa [List.map_eq_flatMap] using hrow

theorem Expr.number_children (e : Expr) :
    (expression e).number =
      numberId e.id >>= fun id => ((expression e).withId id).numberChildren e.children := by
  cases e with
  | call id f args =>
    simp only [number, Expr.number, Expr.id, withId, Expr.withId, bind_assoc, pure_bind]
    refine congrArg _ (funext fun new => ?_)
    exact (numberChildren_args new f args).symm
  | _ =>
    simp [number, Expr.number, Expr.children, Expr.id, withId, Expr.withId, setChild, Expr.setChild]

theorem Stmt.number_children (s : Stmt) :
    (statement s).number =
      numberId s.id >>= fun id => ((statement s).withId id).numberChildren s.children := by
  cases s with
  | block id body =>
    simp only [number, Stmt.number, Stmt.id, withId, Stmt.withId, bind_assoc, pure_bind]
    refine congrArg _ (funext fun new => ?_)
    exact (numberChildren_statements (fun body => .statement (.block new body)) (fun _ _ _ => rfl)
      body).symm
  | declare id vars =>
    simp only [number, Stmt.number, Stmt.id, withId, Stmt.withId, bind_assoc, pure_bind]
    refine congrArg _ (funext fun new => ?_)
    exact (numberChildren_variables (fun vars => .statement (.declare new vars)) (fun _ _ _ => rfl)
      vars).symm
  | forLoop id init c t body =>
    simp only [number, Stmt.number, Stmt.id, withId, Stmt.withId, bind_assoc, pure_bind]
    refine congrArg _ (funext fun new => ?_)
    have hcond (first : Stmt) := numberChildren_exprIn .cond
      (fun e => .statement (.forLoop new first e t body)) (e := c) fun x y hx => by
        simp [setChild, Stmt.setChild, hx]
    have hstep (first : Stmt) (cond : Option Expr) := numberChildren_exprIn .step
      (fun e => .statement (.forLoop new first cond e body)) (e := t) fun x y hx => by
        simp [setChild, Stmt.setChild, hx]
    simp [Stmt.children, number, setChild, Stmt.setChild, numberChildren_append, hcond, hstep]
  | ret id e =>
    simp only [number, Stmt.number, Stmt.id, withId, Stmt.withId, bind_assoc, pure_bind]
    refine congrArg _ (funext fun new => ?_)
    refine (numberChildren_exprIn .expr (fun e => .statement (.ret new e)) fun x y hx => ?_).symm
    simp [setChild, Stmt.setChild, hx]
  | _ =>
    simp [number, Stmt.number, Stmt.children, Stmt.id, withId, Stmt.withId, setChild,
      Stmt.setChild]

theorem Declaration.number_children (d : Declaration) :
    (declaration d).number =
      numberId d.id >>= fun id => ((declaration d).withId id).numberChildren d.children := by
  cases d with
  | globals id vars =>
    simp only [number, Declaration.number, Declaration.id, withId, Declaration.withId, bind_assoc,
      pure_bind]
    refine congrArg _ (funext fun new => ?_)
    exact (numberChildren_variables (fun vars => .declaration (.globals new vars))
      (fun _ _ _ => rfl) vars).symm
  | interfaceBlock id b =>
    simp only [number, Declaration.number, Declaration.id, withId, Declaration.withId, bind_assoc,
      pure_bind]
    refine congrArg _ (funext fun new => ?_)
    exact (numberChildren_suffixes BlockMember.array (fun m a => { m with array := a })
      (fun _ => rfl) .memberArraySize
      (fun members => .declaration (.interfaceBlock new { b with members })) BlockMember.number
      (fun _ => rfl) (fun _ _ _ => rfl) b.members).symm
  | function id f =>
    simp only [number, Declaration.number, Declaration.id, withId, Declaration.withId, bind_assoc,
      pure_bind]
    refine congrArg _ (funext fun new => ?_)
    have hparams := numberChildren_suffixes Param.array (fun p a => { p with array := a })
      (fun _ => rfl) .paramArraySize
      (fun params => .declaration (.function new { f with params })) Param.number
      (fun _ => rfl) (fun _ _ _ => rfl) f.params
    rw [Declaration.children, numberChildren_append, hparams, Function.number]
    obtain ⟨returns, name, params, body⟩ := f
    cases body with
    | none => simp [statementsIn]
    | some body =>
      have hbody (params : List Param) := numberChildren_statements
        (fun body => .declaration (.function new ⟨returns, name, params, some body⟩))
        (fun _ _ _ => rfl) body
      simp [hbody]
  | _ =>
    simp [number, Declaration.number, Declaration.children, Declaration.id, withId,
      Declaration.withId]

/-- A node is numbered before its children, and these from the first to the last. -/
theorem number_eq (n : Node) :
    n.number = numberId n.id >>= fun id => (n.withId id).numberChildren n.children := by
  cases n with
  | expression e => exact Expr.number_children e
  | statement s => exact Stmt.number_children s
  | declaration d => exact Declaration.number_children d

end Node

theorem pushAll_eq {α : Type} (stack things : List α) :
    pushAll stack things = things.reverse ++ stack := by
  induction things generalizing stack with
  | nil => rfl
  | cons x things ih =>
    rw [pushAll, List.foldl_cons, ← pushAll, ih]
    simp

theorem Node.kind_withId (n : Node) (id : NodeId) : (n.withId id).kind = n.kind := by
  cases n <;> rfl

theorem Node.children_withId (n : Node) (id : NodeId) : (n.withId id).children = n.children := by
  rcases n with d | s | e
  · cases d <;> rfl
  · cases s <;> rfl
  · cases e <;> rfl

theorem Node.kind_number (n : Node) (ids : IdSupply) : (n.number ids).1.kind = n.kind := by
  cases n <;> rfl

/-- One step of the loop: the node at the path is numbered, and its children come next. -/
theorem numberFuel_step {s : Shader} {path : Path} {n : Node} (h : s.at? path = some n)
    (fuel : Nat) (stack : List Path) (ids : IdSupply) :
    numberFuel (fuel + 1) (path :: stack) s ids =
      numberFuel fuel (n.children.map (fun c => path ++ [c.1]) ++ stack)
        (s.setAt path (n.withId (numberId n.id ids).1)) (numberId n.id ids).2 := by
  have hfollow : s.follow? path = some (.of n (s.setAt path)) := by rw [s.follow?_eq, h]; rfl
  have hslots : ((NodePlace.of n (s.setAt path)).children.map fun c => path ++ [c.1]) =
      n.children.map fun c => path ++ [c.1] := by
    rw [NodePlace.children_eq, NodePlace.node_of, List.map_map]
    rfl
  simp only [numberFuel, hfollow, NodePlace.node_of, Numbered.bind_apply, pushAll_eq,
    List.reverse_reverse, hslots, NodePlace.put_of (n.kind_withId _)]

theorem numberFuel_children {s : Shader} {path : Path} {n m : Node} (hat : s.at? path = some n)
    (hkind : m.kind = n.kind) {cs : List (Slot × Node)} (hcs : ∀ c ∈ cs, c ∈ m.children)
    (hnodup : (cs.map Prod.fst).Nodup)
    (hchild : ∀ c ∈ cs, ∀ {s : Shader} {path : Path}, s.at? path = some c.2 → ∀ fuel stack ids,
      numberFuel (c.2.size + fuel) (path :: stack) s ids =
        numberFuel fuel stack (s.setAt path (c.2.number ids).1) (c.2.number ids).2)
    (fuel : Nat) (stack : List Path) (ids : IdSupply) :
    numberFuel (childSizes cs + fuel) (cs.map (fun c => path ++ [c.1]) ++ stack) (s.setAt path m)
        ids =
      numberFuel fuel stack (s.setAt path (m.numberChildren cs ids).1)
        (m.numberChildren cs ids).2 := by
  induction cs generalizing m ids with
  | nil => simp
  | cons c cs ih =>
    obtain ⟨slot, c⟩ := c
    obtain ⟨hc, hcs⟩ := List.forall_mem_cons.1 hcs
    obtain ⟨hfirst, hchild⟩ := List.forall_mem_cons.1 hchild
    obtain ⟨hslot, hnodup⟩ := List.nodup_cons.1 hnodup
    have hm := Shader.at?_setAt hat hkind
    have hnew := c.kind_number ids
    have hput : (s.setAt path m).setAt (path ++ [slot]) (c.number ids).1 =
        s.setAt path (m.setChild slot (c.number ids).1) := by
      rw [Shader.setAt_append hm, Node.setAt, Node.child?_eq_some.2 hc]
      exact Shader.setAt_setAt hat hkind ((Node.kind_setChild _ _ _).trans hkind)
    have hothers : ∀ d ∈ cs, d ∈ (m.setChild slot (c.number ids).1).children := by
      intro d hd
      have hne : d.1 ≠ slot := fun heq => hslot (List.mem_map.2 ⟨d, hd, heq⟩)
      refine Node.child?_eq_some.1 ?_
      rw [Node.child?_setChild hc hnew, if_neg hne]
      exact Node.child?_eq_some.2 (hcs d hd)
    rw [childSizes_cons, Nat.add_assoc, List.map_cons, List.cons_append,
      hfirst (Shader.at?_child hm hc), hput,
      ih ((Node.kind_setChild _ _ _).trans hkind) hothers hnodup hchild]
    rfl

/-- The loop over a node numbers it in its place, and goes on with the rest of the stack. -/
theorem numberFuel_node (n : Node) {s : Shader} {path : Path} (hat : s.at? path = some n)
    (fuel : Nat) (stack : List Path) (ids : IdSupply) :
    numberFuel (n.size + fuel) (path :: stack) s ids =
      numberFuel fuel stack (s.setAt path (n.number ids).1) (n.number ids).2 := by
  induction n using Node.induction generalizing s path fuel stack ids with
  | step n ih =>
    have hkind := n.kind_withId (numberId n.id ids).1
    have hchildren := n.children_withId (numberId n.id ids).1
    rw [n.size_children, Nat.add_right_comm, numberFuel_step hat,
      numberFuel_children hat hkind (fun c hc => hchildren ▸ hc) n.slots_nodup
        fun c hc => ih c.1 c.2 hc, n.number_eq]
    rfl

theorem numberFuel_declarations (before rest : List Declaration) (ids : IdSupply) :
    numberFuel (sizeOfDeclarations rest)
        ((rest.zipIdx before.length).map fun x => [Slot.topLevel x.2]) ⟨before ++ rest⟩ ids =
      (⟨before ++ (rest.mapM Declaration.number ids).1⟩, (rest.mapM Declaration.number ids).2) := by
  induction rest generalizing before ids with
  | nil => simp [sizeOfDeclarations, numberFuel]
  | cons d rest ih =>
    have hat : (⟨before ++ d :: rest⟩ : Shader).at? [.topLevel before.length] =
        some (.declaration d) := by simp [Shader.at?, Node.at?]
    have hput (d' : Declaration) :
        (⟨before ++ d :: rest⟩ : Shader).setAt [.topLevel before.length] (.declaration d') =
          ⟨before ++ [d'] ++ rest⟩ := by
      simp [Shader.setAt, Node.setAt, Node.modify_item]
    have hnode := numberFuel_node (.declaration d) hat (sizeOfDeclarations rest)
      ((rest.zipIdx (before.length + 1)).map fun x => [Slot.topLevel x.2]) ids
    have hrest := ih (before ++ [(d.number ids).1]) (d.number ids).2
    rw [List.length_append, List.length_singleton] at hrest
    rw [sizeOfDeclarations, List.zipIdx_cons, List.map_cons]
    refine hnode.trans ?_
    simp only [Node.number, Numbered.bind_apply, Numbered.pure_apply, hput, hrest]
    simp

/-- The loop and the recursion come to the same. -/
theorem Shader.numberByStack_eq (s : Shader) : s.numberByStack = s.number := by
  funext ids
  have hloop := numberFuel_declarations [] s.declarations ids
  rw [numberByStack, pushAll_eq, List.reverse_reverse, List.append_nil, places, List.map_map]
  refine hloop.trans ?_
  simp [number]

end ShaderLift
