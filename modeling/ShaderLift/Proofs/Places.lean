import Mathlib
import ShaderLift.Proofs.ChildExchange
import ShaderLift.Tree.Place

/-!
Places. They list the children that nodes list, and what is put into one is what exchanging the child
makes of the shader. A search for a place finds the place of the node that a search finds, and a path
leads to the place of the node that it leads to.
-/

namespace ShaderLift

theorem Visit.self_mem_walk (dir : Direction) (v : Visit) : v ∈ v.walk dir := by
  rw [walk_eq]
  exact List.mem_cons_self

theorem Visit.child_mem_walk {dir : Direction} {v w : Visit} (h : w ∈ v.walk dir) {slot : Slot}
    {c : Node} (hc : (slot, c) ∈ w.node.children) : w.child slot c ∈ v.walk dir := by
  induction hn : v.node using Node.induction generalizing v with
  | step n ih =>
    subst hn
    rw [walk_eq, List.mem_cons, List.mem_flatMap] at h ⊢
    rcases h with rfl | ⟨b, hb, hw⟩
    · exact .inr ⟨(slot, c), (dir.arrange_perm _).mem_iff.2 hc, self_mem_walk dir _⟩
    · exact .inr ⟨b, hb, ih b.1 b.2 ((dir.arrange_perm _).mem_iff.1 hb) hw rfl⟩

theorem Shader.top_mem_walk {s : Shader} (dir : Direction) {slot : Slot} {n : Node}
    (h : (slot, n) ∈ s.children) : Visit.top slot n ∈ s.walk dir :=
  List.mem_flatMap.2 ⟨(slot, n), (dir.arrange_perm _).mem_iff.2 h, Visit.self_mem_walk dir _⟩

theorem Shader.child_mem_walk {s : Shader} {dir : Direction} {v : Visit} (h : v ∈ s.walk dir)
    {slot : Slot} {c : Node} (hc : (slot, c) ∈ v.node.children) : v.child slot c ∈ s.walk dir := by
  obtain ⟨top, htop, hv⟩ := List.mem_flatMap.1 h
  exact List.mem_flatMap.2 ⟨top, htop, Visit.child_mem_walk hv hc⟩

namespace NodePlace

variable {α β : Type}

/-- The place of the node in a whole that becomes `put new` with another node there. -/
def of (n : Node) (put : Node → α) : NodePlace α :=
  match n with
  | .declaration d => .declaration d fun new => put (.declaration new)
  | .statement s => .statement s fun new => put (.statement new)
  | .expression e => .expression e fun new => put (.expression new)

@[simp] theorem node_of (n : Node) (put : Node → α) : (of n put).node = n := by
  cases n <;> rfl

theorem put_of {n new : Node} (h : new.kind = n.kind) (put : Node → α) :
    (of n put).put new = put new := by
  cases n with
  | declaration d =>
    cases new with
    | declaration => rfl
    | _ => cases h
  | statement s =>
    obtain ⟨x, rfl⟩ := Node.exists_statement h
    rfl
  | expression e =>
    obtain ⟨x, rfl⟩ := Node.exists_expression h
    rfl

theorem within_of (n : Node) (put : Node → α) (around : α → β) :
    (of n put).within around = of n fun new => around (put new) := by
  cases n <;> rfl

def ofChild (put : Slot → Node → α) (c : Slot × Node) : Slot × NodePlace α :=
  (c.1, of c.2 (put c.1))

end NodePlace

open NodePlace (ofChild)

section

variable {α : Type} {put : Slot → Node → α}

theorem exprPlace_eq {slot : Slot} {set : Expr → α} {e : Option Expr}
    (h : ∀ x, e = some x → ∀ new, set new = put slot (.expression new)) :
    exprPlace slot set e = (exprIn slot e).map (ofChild put) := by
  cases e with
  | none => rfl
  | some x =>
    have hset : set = fun new => put slot (.expression new) := funext (h x rfl)
    rw [hset]
    rfl

theorem sizePlace_eq {slot : Slot} {set : ArraySuffix → α} {a : Option ArraySuffix}
    (h : ∀ new, a.map (·.setSize new) = some ⟨some new⟩ →
      set ⟨some new⟩ = put slot (.expression new)) :
    sizePlace slot set a = (sizeIn slot a).map (ofChild put) := by
  refine exprPlace_eq fun x hx new => h new ?_
  obtain ⟨suffix, rfl, hsize⟩ := Option.bind_eq_some_iff.1 hx
  rw [Option.map_some, ArraySuffix.setSize, hsize]
  rfl

theorem suffixPlaces_eq {β : Type} (array : β → Option ArraySuffix) (slot : Nat → Slot)
    (set : β → Nat → ArraySuffix → α) {xs : List β}
    (h : ∀ x i new, xs[i]? = some x → (array x).map (·.setSize new) = some ⟨some new⟩ →
      set x i ⟨some new⟩ = put (slot i) (.expression new)) :
    (xs.zipIdx.flatMap fun x => sizePlace (slot x.2) (set x.1 x.2) (array x.1)) =
      (xs.zipIdx.flatMap fun x => sizeIn (slot x.2) (array x.1)).map (ofChild put) := by
  rw [List.map_flatMap]
  refine List.flatMap_congr fun x hx => sizePlace_eq fun new => ?_
  exact h x.1 x.2 new (List.mem_zipIdx_iff_getElem?.1 hx)

theorem statementPlaces_eq {body : List Stmt} {set : List Stmt → α}
    (h : ∀ i s new, body[i]? = some s → set (body.set i new) = put (.body i) (.statement new)) :
    statementPlaces body set = (statementsIn body).map (ofChild put) := by
  rw [statementPlaces, statementsIn, List.map_map]
  refine List.map_congr_left fun x hx => ?_
  simp only [fun new => h x.2 x.1 new (List.mem_zipIdx_iff_getElem?.1 hx)]
  rfl

end

def Variables.setNode (v : Variables) (slot : Slot) : Node → Variables
  | .expression e => v.setChild slot e
  | _ => v

theorem Variables.places_eq (v : Variables) : v.places = v.children.map (ofChild v.setNode) := by
  rw [places, children, List.map_flatMap]
  refine List.flatMap_congr fun x hx => ?_
  have hget := List.mem_zipIdx_iff_getElem?.1 hx
  rw [List.map_append]
  refine congrArg₂ (· ++ ·) (sizePlace_eq fun new hnew => ?_) (exprPlace_eq fun e he new => ?_)
  · simp only [setNode, setChild, modify_of_getElem? hget, hnew]
  · simp only [setNode, setChild, modify_of_getElem? hget, he, Option.map_some]

def Expr.setNode (e : Expr) (slot : Slot) : Node → Expr
  | .expression new => e.setChild slot new
  | _ => e

theorem Expr.places_eq (e : Expr) : e.places = e.children.map (ofChild e.setNode) := by
  cases e with
  | call id f args =>
    rw [places, children, List.map_map]
    rfl
  | _ => rfl

theorem map_within {α β : Type} {places : List (Slot × NodePlace α)} {children : List (Slot × Node)}
    {put : Slot → Node → α} (h : places = children.map (ofChild put)) (around : α → β) :
    (places.map fun c => (c.1, c.2.within around)) =
      children.map (ofChild fun slot new => around (put slot new)) := by
  rw [h, List.map_map]
  refine List.map_congr_left fun c _ => ?_
  simp only [Function.comp_apply, ofChild, NodePlace.within_of]

theorem ofChild_congr {α : Type} {put put' : Slot → Node → α} {children : List (Slot × Node)}
    (h : ∀ c ∈ children, ∀ new : Node, new.kind = c.2.kind → put c.1 new = put' c.1 new) :
    children.map (ofChild put) = children.map (ofChild put') := by
  refine List.map_congr_left fun c hc => ?_
  obtain ⟨slot, n⟩ := c
  have hput := h _ hc
  cases n with
  | declaration d => simp only [ofChild, NodePlace.of, funext fun x => hput (.declaration x) rfl]
  | statement s => simp only [ofChild, NodePlace.of, funext fun x => hput (.statement x) rfl]
  | expression e => simp only [ofChild, NodePlace.of, funext fun x => hput (.expression x) rfl]

theorem ofChild_congr_expression {α : Type} {put put' : Slot → Node → α}
    {children : List (Slot × Node)} (hchildren : ∀ c ∈ children, ∃ e, c.2 = .expression e)
    (h : ∀ slot new, put slot (.expression new) = put' slot (.expression new)) :
    children.map (ofChild put) = children.map (ofChild put') := by
  refine ofChild_congr fun c hc new hkind => ?_
  obtain ⟨e, he⟩ := hchildren c hc
  rw [he] at hkind
  obtain ⟨x, rfl⟩ := Node.exists_expression hkind
  exact h c.1 x

theorem Stmt.places_eq (s : Stmt) : s.places = s.children.map (ofChild s.setChild) := by
  cases s with
  | block id body => exact statementPlaces_eq fun _ _ _ _ => rfl
  | declare id vars =>
    refine (map_within vars.places_eq _).trans (ofChild_congr_expression ?_ fun _ _ => rfl)
    exact fun c hc => Variables.child_expression hc
  | forLoop id init cond step body =>
    have hcond : exprPlace .cond (fun new => forLoop id init (some new) step body) cond =
        (exprIn .cond cond).map (ofChild (forLoop id init cond step body).setChild) :=
      exprPlace_eq fun x hx new => by rw [hx]; rfl
    have hstep : exprPlace .step (fun new => forLoop id init cond (some new) body) step =
        (exprIn .step step).map (ofChild (forLoop id init cond step body).setChild) :=
      exprPlace_eq fun x hx new => by rw [hx]; rfl
    rw [places, children, List.map_append, List.map_append, List.map_cons, hcond, hstep]
    rfl
  | ret id e =>
    refine exprPlace_eq fun x hx new => ?_
    rw [hx]
    rfl
  | _ => rfl

theorem Declaration.places_eq (d : Declaration) :
    d.places = d.children.map (ofChild d.setChild) := by
  cases d with
  | globals id vars =>
    refine (map_within vars.places_eq _).trans (ofChild_congr_expression ?_ fun _ _ => rfl)
    exact fun c hc => Variables.child_expression hc
  | interfaceBlock id b =>
    refine suffixPlaces_eq BlockMember.array .memberArraySize (fun m i a =>
      interfaceBlock id { b with members := b.members.set i { m with array := some a } })
      fun m i new hget hnew => ?_
    simp only [setChild, modify_of_getElem? hget, hnew]
  | function id f =>
    rw [places, children, List.map_append]
    refine congrArg₂ (· ++ ·) (suffixPlaces_eq Param.array .paramArraySize (fun p i a =>
      function id { f with params := f.params.set i { p with array := some a } })
      fun p i new hget hnew => ?_) (statementPlaces_eq fun i s new hget => ?_)
    · simp only [setChild, modify_of_getElem? hget, hnew]
    · cases hbody : f.body with
      | none => simp [hbody] at hget
      | some body => simp only [setChild, hbody, Option.getD_some, Option.map_some]
  | _ => rfl

namespace NodePlace

variable {α : Type}

/-- Places list the same children as nodes do, and what is put into one of them is what exchanging
the child makes of the parent. -/
theorem children_eq (p : NodePlace α) :
    p.children = p.node.children.map (ofChild fun slot new => p.put (p.node.setChild slot new)) := by
  cases p with
  | declaration d put => exact map_within d.places_eq put
  | statement s put => exact map_within s.places_eq put
  | expression e put =>
    refine (map_within e.places_eq put).trans (ofChild_congr_expression ?_ fun _ _ => rfl)
    exact fun c hc => Expr.child_expression hc

theorem children_nodes (p : NodePlace α) :
    (p.children.map fun c => (c.1, c.2.node)) = p.node.children := by
  rw [children_eq, List.map_map]
  refine map_eq_self fun c _ => ?_
  simp only [Function.comp_apply, ofChild, node_of]

end NodePlace

namespace Shader

variable {s : Shader}

/-- The place of a visit's node in the shader. -/
def placeAt (s : Shader) (v : Visit) : NodePlace Shader := .of v.node (s.setAt v.path)

@[simp] theorem node_placeAt (s : Shader) (v : Visit) : (s.placeAt v).node = v.node :=
  NodePlace.node_of _ _

theorem places_eq (s : Shader) :
    s.places = s.children.map fun c => (c.1, s.placeAt (.top c.1 c.2)) := by
  rw [places, children, List.map_map]
  refine List.map_congr_left fun x _ => ?_
  simp only [Function.comp_apply, placeAt, Visit.top, NodePlace.of, setAt, Node.setAt,
    ← List.set_eq_modify]

theorem places_nodes (s : Shader) : (s.places.map fun c => (c.1, c.2.node)) = s.children := by
  rw [places_eq, List.map_map]
  refine map_eq_self fun c _ => ?_
  simp only [Function.comp_apply, node_placeAt]
  rfl

theorem children_placeAt {v : Visit} (h : s.at? v.path = some v.node) :
    (s.placeAt v).children = v.node.children.map fun c => (c.1, s.placeAt (v.child c.1 c.2)) := by
  have hput : ∀ c ∈ v.node.children, ∀ new : Node, new.kind = c.2.kind →
      (s.placeAt v).put (v.node.setChild c.1 new) = s.setAt (v.path ++ [c.1]) new := by
    intro c hc new _
    rw [placeAt, NodePlace.put_of (Node.kind_setChild _ _ _), setAt_append h, Node.setAt,
      Node.child?_eq_some.2 hc]
    rfl
  rw [NodePlace.children_eq, node_placeAt]
  change _ = v.node.children.map (ofChild fun slot => s.setAt (v.path ++ [slot]))
  exact ofChild_congr hput

theorem child?_placeAt {v : Visit} (h : s.at? v.path = some v.node) (slot : Slot) :
    (s.placeAt v).child? slot =
      (v.node.child? slot).map fun c => s.placeAt (v.child slot c) := by
  rw [NodePlace.child?, children_placeAt h, List.find?_map, Node.child?]
  cases hfind : v.node.children.find? fun c => c.1 = slot with
  | none => simp [hfind]
  | some c =>
    have hslot : c.1 = slot := by simpa using List.find?_some hfind
    simp [hfind, hslot]

theorem follow?_placeAt {v : Visit} (h : s.at? v.path = some v.node) (path : Path) :
    (s.placeAt v).follow? path =
      (v.node.at? path).map fun n => .of n (s.setAt (v.path ++ path)) := by
  induction path generalizing v with
  | nil => simp [NodePlace.follow?, Node.at?, placeAt]
  | cons slot path ih =>
    rw [NodePlace.follow?, child?_placeAt h, Node.at?]
    cases hc : v.node.child? slot with
    | none => rfl
    | some c =>
      have hat : s.at? (v.child slot c).path = some c := at?_child h (Node.child?_eq_some.1 hc)
      simp only [Option.map_some, Option.bind_some, ih hat]
      simp [Visit.child]

theorem follow?_eq (s : Shader) (path : Path) :
    s.follow? path = (s.at? path).map fun n => .of n (s.setAt path) := by
  cases path with
  | nil => rfl
  | cons slot path =>
    rw [follow?, places_eq, List.find?_map]
    cases hfind : s.children.find? fun c => c.1 = slot with
    | none =>
      have hnone : s.at? (slot :: path) = none := by
        cases slot with
        | topLevel i =>
          cases hd : s.declarations[i]? with
          | none => simp [at?, hd]
          | some d =>
            have hmem : (Slot.topLevel i, Node.declaration d) ∈ s.children :=
              mem_children.2 ⟨i, d, hd, rfl, rfl⟩
            simpa using List.find?_eq_none.1 hfind _ hmem
        | _ => rfl
      simp [hfind, hnone]
    | some c =>
      have hslot : c.1 = slot := by simpa using List.find?_some hfind
      have hmem := List.mem_of_find?_eq_some hfind
      obtain ⟨i, d, hd, htop, hnode⟩ := mem_children.1 hmem
      have hat : s.at? (Visit.top c.1 c.2).path = some c.2 := by
        simp [Visit.top, htop, hnode, at?, hd, Node.at?]
      have hfollow := follow?_placeAt (v := Visit.top c.1 c.2) hat path
      simp only [Function.comp_def, hfind, Option.map_some, Option.bind_some, hfollow]
      rw [← hslot, htop]
      simp [Visit.top, hnode, at?, hd]

/-- The stack of a search for a place has the places of what is on the stack of a search. -/
theorem searchFuel_placeAt (id : NodeId) (fuel : Nat) {stack : List Visit}
    (h : ∀ v ∈ stack, s.at? v.path = some v.node) :
    NodePlace.searchFuel id fuel (stack.map s.placeAt) =
      (searchFuel id fuel stack).map s.placeAt := by
  induction fuel generalizing stack with
  | zero => rfl
  | succ fuel ih =>
    cases stack with
    | nil => rfl
    | cons v stack =>
      obtain ⟨hat, hstack⟩ := List.forall_mem_cons.1 h
      have hbelow : (s.placeAt v).below = v.below.map s.placeAt := by
        rw [NodePlace.below, children_placeAt hat, Visit.below, List.map_map, List.map_map,
          ← List.map_reverse]
        rfl
      rw [List.map_cons, NodePlace.searchFuel, searchFuel, node_placeAt, hbelow, ← List.map_append]
      split
      · rfl
      · refine ih (List.forall_mem_append.2 ⟨fun w hw => ?_, hstack⟩)
        obtain ⟨c, hc, rfl⟩ := List.mem_map.1 hw
        exact at?_child hat (List.mem_reverse.1 hc)

theorem place?_eq (s : Shader) (id : NodeId) : s.place? id = (s.visit? id).map s.placeAt := by
  have hstack : (s.places.map Prod.snd).reverse = s.tops.map s.placeAt := by
    rw [places_eq, tops, List.map_map, List.map_map, ← List.map_reverse]
    rfl
  rw [place?, visit?, hstack]
  refine searchFuel_placeAt id s.size fun v hv => ?_
  obtain ⟨c, hc, rfl⟩ := List.mem_map.1 hv
  exact (walk_path (top_mem_walk .backward (List.mem_reverse.1 hc))).2

end Shader

end ShaderLift
