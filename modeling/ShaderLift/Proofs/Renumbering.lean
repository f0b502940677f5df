import Mathlib
import ShaderLift.Proofs.Finding

/-!
Shaders that differ in their identities only. The same literals are found in them, at the same paths,
and putting the same expression there leaves them alike.
-/

namespace ShaderLift

def Node.unnumbered : Node → Node
  | declaration d => declaration d.unnumbered
  | statement s => statement s.unnumbered
  | expression e => expression e.unnumbered

theorem exprIn_unnumbered (slot : Slot) (e : Option Expr) :
    exprIn slot (e.map Expr.unnumbered) = (exprIn slot e).map fun c => (c.1, c.2.unnumbered) :=
  exprIn_map (fun _ => rfl) slot e

theorem statementsIn_unnumbered (body : List Stmt) :
    statementsIn (Stmt.unnumberedBody body) =
      (statementsIn body).map fun c => (c.1, c.2.unnumbered) := by
  rw [Stmt.unnumberedBody_eq]
  exact statementsIn_map (fun _ => rfl) body

theorem Variables.children_unnumbered (v : Variables) :
    v.unnumbered.children = v.children.map fun c => (c.1, c.2.unnumbered) :=
  children_map (fun _ => rfl) (fun a => (rfl : a.unnumbered.size = _)) v

theorem suffixes_unnumbered {α : Type} (array : α → Option ArraySuffix) (new : α → α)
    (hnew : ∀ x, array (new x) = (array x).map ArraySuffix.unnumbered) (slot : Nat → Slot)
    (xs : List α) :
    ((xs.map new).zipIdx.flatMap fun (x, i) => sizeIn (slot i) (array x)) =
      (xs.zipIdx.flatMap fun (x, i) => sizeIn (slot i) (array x)).map
        fun c => (c.1, c.2.unnumbered) :=
  suffixes_map (fun _ => rfl) (fun _ => rfl) array new hnew slot xs

namespace Node

theorem children_unnumbered (n : Node) :
    n.unnumbered.children = n.children.map fun c => (c.1, c.2.unnumbered) := by
  cases n with
  | declaration d =>
    cases d with
    | globals id vars => exact Variables.children_unnumbered vars
    | interfaceBlock id b =>
      exact suffixes_unnumbered BlockMember.array BlockMember.unnumbered (fun _ => rfl) _ _
    | function id f =>
      have hparams := suffixes_unnumbered Param.array Param.unnumbered (fun _ => rfl)
        Slot.paramArraySize f.params
      have hbody : (f.body.map Stmt.unnumberedBody).getD [] =
          Stmt.unnumberedBody (f.body.getD []) := by cases f.body <;> rfl
      have hstatements := statementsIn_unnumbered (f.body.getD [])
      rw [← hbody] at hstatements
      exact (congrArg₂ (· ++ ·) hparams hstatements).trans List.map_append.symm
    | _ => rfl
  | statement s =>
    cases s <;>
      simp [unnumbered, Stmt.unnumbered, children, Stmt.children, exprIn_unnumbered,
        statementsIn_unnumbered, Variables.children_unnumbered]
  | expression e =>
    cases e <;>
      simp [unnumbered, Expr.unnumbered, children, Expr.children, Expr.unnumberedArgs_eq,
        List.zipIdx_map, Function.comp_def]

theorem child?_unnumbered (n : Node) (slot : Slot) :
    n.unnumbered.child? slot = (n.child? slot).map unnumbered := by
  rw [child?, children_unnumbered, List.find?_map, child?, Option.map_map, Option.map_map]
  rfl

end Node

theorem setSize_unnumbered (a : Option ArraySuffix) (e : Expr) :
    (a.map (ArraySuffix.setSize · e)).map ArraySuffix.unnumbered =
      (a.map ArraySuffix.unnumbered).map (ArraySuffix.setSize · e.unnumbered) := by
  cases a with
  | none => rfl
  | some a =>
    obtain ⟨size⟩ := a
    cases size <;> rfl

theorem map_modify {α : Type} {f g h : α → α} (hfg : ∀ x, f (g x) = h (f x)) (xs : List α) (i : Nat) :
    (xs.modify i g).map f = (xs.map f).modify i h := by
  apply List.ext_getElem?
  intro j
  simp only [List.getElem?_map, List.getElem?_modify]
  cases xs[j]? with
  | none => rfl
  | some x => by_cases hij : i = j <;> simp [hij, hfg]

theorem Variables.setChild_unnumbered (v : Variables) (slot : Slot) (e : Expr) :
    (v.setChild slot e).unnumbered = v.unnumbered.setChild slot e.unnumbered := by
  cases slot with
  | arraySize i =>
    simp only [setChild, unnumbered, mk.injEq, true_and]
    refine map_modify (fun d => ?_) v.vars i
    simp only [Declarator.unnumbered, setSize_unnumbered]
  | init i =>
    simp only [setChild, unnumbered, mk.injEq, true_and]
    refine map_modify (fun d => ?_) v.vars i
    simp [Declarator.unnumbered, Function.comp_def]
  | _ => rfl

theorem Expr.setChild_unnumbered (e : Expr) (slot : Slot) (c : Expr) :
    (e.setChild slot c).unnumbered = e.unnumbered.setChild slot c.unnumbered := by
  cases e <;> cases slot <;> simp [setChild, unnumbered, unnumberedArgs_eq]

theorem Stmt.setChild_unnumbered (s : Stmt) (slot : Slot) (c : Node) :
    (s.setChild slot c).unnumbered = s.unnumbered.setChild slot c.unnumbered := by
  cases s <;> cases c <;> cases slot <;>
    simp [setChild, unnumbered, unnumberedBody_eq, Node.unnumbered, Variables.setChild_unnumbered,
      Function.comp_def]

theorem Declaration.setChild_unnumbered (d : Declaration) (slot : Slot) (c : Node) :
    (d.setChild slot c).unnumbered = d.unnumbered.setChild slot c.unnumbered := by
  cases d with
  | globals id vars =>
    cases c <;> simp [setChild, unnumbered, Node.unnumbered, Variables.setChild_unnumbered]
  | interfaceBlock id b =>
    cases c with
    | expression e =>
      cases slot with
      | memberArraySize i =>
        refine congrArg (fun members => interfaceBlock .unassigned { b with members }) ?_
        refine map_modify (fun m => ?_) b.members i
        simp only [BlockMember.unnumbered, setSize_unnumbered]
      | _ => rfl
    | _ => cases slot <;> rfl
  | function id f =>
    cases c with
    | expression e =>
      cases slot with
      | paramArraySize i =>
        refine congrArg (fun params => function .unassigned
          { f with params, body := f.body.map Stmt.unnumberedBody }) ?_
        refine map_modify (fun p => ?_) f.params i
        simp only [Param.unnumbered, setSize_unnumbered]
      | _ => rfl
    | statement s =>
      cases slot with
      | body i =>
        simp [setChild, unnumbered, Node.unnumbered, Function.unnumbered, Stmt.unnumberedBody_eq,
          Function.comp_def]
      | _ => rfl
    | declaration d => cases slot <;> rfl
  | _ => cases c <;> cases slot <;> rfl

namespace Node

theorem setChild_unnumbered (n : Node) (slot : Slot) (c : Node) :
    (n.setChild slot c).unnumbered = n.unnumbered.setChild slot c.unnumbered := by
  cases n with
  | declaration d => exact congrArg declaration (d.setChild_unnumbered slot c)
  | statement s => exact congrArg statement (s.setChild_unnumbered slot c)
  | expression e =>
    cases c with
    | expression c => exact congrArg expression (e.setChild_unnumbered slot c)
    | _ => rfl

theorem setAt_unnumbered (n : Node) (path : Path) (new : Node) :
    (n.setAt path new).unnumbered = n.unnumbered.setAt path new.unnumbered := by
  induction path generalizing n with
  | nil => rfl
  | cons slot path ih =>
    rw [setAt, setAt, child?_unnumbered]
    cases n.child? slot with
    | none => rfl
    | some c => exact (n.setChild_unnumbered slot _).trans (congrArg _ (ih c))

end Node

namespace Shader

theorem setAt_unnumbered (s : Shader) (path : Path) (new : Node) :
    (s.setAt path new).unnumbered = s.unnumbered.setAt path new.unnumbered := by
  cases path with
  | nil => rfl
  | cons slot path =>
    cases slot with
    | topLevel i =>
      simp only [setAt, unnumbered, mk.injEq]
      refine map_modify (fun d => ?_) s.declarations i
      have hset := (Node.declaration d).setAt_unnumbered path new
      rw [← Node.unnumbered, ← hset]
      cases (Node.declaration d).setAt path new <;> rfl
    | _ => rfl

/-- The same expression put in the same place of two shaders that are alike. -/
theorem substitute_alike {s t : Shader} (h : s.unnumbered = t.unnumbered) (hs : s.ids.Nodup)
    (ht : t.ids.Nodup) {path : Path} {e f : Expr} (he : s.at? path = some (.expression e))
    (hf : t.at? path = some (.expression f)) {new new' : Expr}
    (hnew : new.unnumbered = new'.unnumbered) :
    (s.substitute (.single e.id new)).unnumbered = (t.substitute (.single f.id new')).unnumbered := by
  rw [← setAt_eq_substitute hs he, ← setAt_eq_substitute ht hf, setAt_unnumbered, setAt_unnumbered, h,
    Node.unnumbered, hnew]
  rfl

theorem withoutDeclarator_unnumbered (name : String) (d : Declaration) :
    withoutDeclarator name d.unnumbered = (withoutDeclarator name d).map Declaration.unnumbered := by
  cases d with
  | globals id vars =>
    exact withoutDeclarator_map name (f := Declarator.unnumbered) (fun _ => rfl) (fun _ => rfl) vars
  | _ => rfl

theorem removeUniform_unnumbered (s : Shader) (name : String) :
    (s.removeUniform name).unnumbered = s.unnumbered.removeUniform name := by
  simp only [removeUniform, unnumbered, List.map_filterMap, List.filterMap_map, Function.comp_def,
    withoutDeclarator_unnumbered]

theorem isPreamble_unnumbered (d : Declaration) : d.unnumbered.isPreamble = d.isPreamble := by
  cases d <;> rfl

theorem addDeclaration_unnumbered (s : Shader) (d : Declaration) :
    (s.addDeclaration d).unnumbered = s.unnumbered.addDeclaration d.unnumbered := by
  simp only [addDeclaration, unnumbered, List.map_append, List.map_cons, List.takeWhile_map,
    List.dropWhile_map, Function.comp_def, isPreamble_unnumbered]

theorem redeclared_unnumbered (s : Shader) (id : NodeId) (name : String) (type : ScalarType)
    (length : Nat) :
    (s.redeclared id name type length).unnumbered =
      (s.unnumbered.removeUniform name).addDeclaration
        (arrayDeclarationAt 0 name type length).unnumbered := by
  rw [redeclared, addDeclaration_unnumbered, removeUniform_unnumbered]
  rfl

end Shader

/-- Promotions of literals that stand in the same place of two trees, where `look` and `look'` give
what a path leads to. -/
structure Promotion.Matches (stage : Stage) (look look' : Path → Option Node) (p q : Promotion) :
    Prop where
  left : p.stage = stage
  right : q.stage = stage
  value : p.value = q.value
  place : ∃ path v w, look path = some (.expression (.literal p.node v)) ∧
    look' path = some (.expression (.literal q.node w))

theorem Promotion.Matches.within {stage : Stage} {look look' below below' : Path → Option Node}
    {p q : Promotion} (h : p.Matches stage below below' q) {slot : Slot}
    (hlook : ∀ path, look (slot :: path) = below path)
    (hlook' : ∀ path, look' (slot :: path) = below' path) : p.Matches stage look look' q := by
  obtain ⟨hleft, hright, hvalue, path, v, w, hp, hq⟩ := h
  exact ⟨hleft, hright, hvalue, slot :: path, v, w, (hlook path).trans hp, (hlook' path).trans hq⟩

theorem forall₂_of_map_eq {α β : Type} {f : α → β} {xs ys : List α} (h : xs.map f = ys.map f) :
    List.Forall₂ (fun x y => f x = f y ∧ ∃ i : Nat, xs[i]? = some x ∧ ys[i]? = some y) xs ys := by
  refine List.forall₂_iff_get.2 ⟨by simpa using congrArg List.length h, fun i hx hy => ?_⟩
  have hi := congrArg (fun zs => zs[i]?) h
  simp only [List.getElem?_map, List.getElem?_eq_getElem hx, List.getElem?_eq_getElem hy,
    Option.map_some, Option.some.injEq] at hi
  exact ⟨hi, i, List.getElem?_eq_getElem hx, List.getElem?_eq_getElem hy⟩

namespace Node

theorem literal?_unnumbered (n : Node) :
    n.unnumbered.literal? = n.literal?.map fun x => (.unassigned, x.2) := by
  cases n with
  | expression e =>
    cases e with
    | literal id v => simp [unnumbered, Expr.unnumbered, literal?, Function.comp_def]
    | _ => rfl
  | _ => rfl

theorem isSealed_unnumbered (n : Node) : n.unnumbered.isSealed = n.isSealed := by
  cases n with
  | declaration d => rfl
  | statement s => cases s <;> rfl
  | expression e =>
    cases e with
    | index id b p =>
      cases b with
      | name j x => cases p <;> rfl
      | _ => rfl
    | _ => rfl

theorem at?_cons {n c : Node} {slot : Slot} (h : (slot, c) ∈ n.children) (path : Path) :
    n.at? (slot :: path) = c.at? path := by
  rw [at?, child?_eq_some.2 h, Option.bind_some]

theorem openChildren_alike {n m : Node} (h : n.unnumbered = m.unnumbered) :
    List.Forall₂ (fun c d => c.unnumbered = d.unnumbered ∧
      ∃ slot, (slot, c) ∈ n.children ∧ (slot, d) ∈ m.children) n.openChildren m.openChildren := by
  have hsealed : n.isSealed = m.isSealed := by
    rw [← isSealed_unnumbered, h, isSealed_unnumbered]
  have hchildren : n.children.map (fun c => (c.1, c.2.unnumbered)) =
      m.children.map fun c => (c.1, c.2.unnumbered) := by
    rw [← children_unnumbered, h, children_unnumbered]
  rw [openChildren, openChildren, hsealed]
  split
  · exact .nil
  · rw [List.forall₂_map_left_iff, List.forall₂_map_right_iff]
    refine (List.rel_filter ?_ (forall₂_of_map_eq hchildren)).imp ?_
    · rintro c d ⟨heq, -⟩
      simp only [(Prod.mk.inj heq).1]
    · rintro ⟨slot, c⟩ ⟨slot', d⟩ ⟨heq, i, hc, hd⟩
      obtain ⟨rfl, hcd⟩ := Prod.mk.inj heq
      exact ⟨hcd, slot, List.mem_of_getElem? hc, List.mem_of_getElem? hd⟩

theorem promotionsAt_alike (stage : Stage) (depth : Nat) {n m : Node} (h : n.unnumbered = m.unnumbered) :
    List.Forall₂ (Promotion.Matches stage n.at? m.at?) (n.promotionsAt stage depth)
      (m.promotionsAt stage depth) := by
  induction n using Node.induction generalizing m depth with
  | step n ih =>
    rw [promotionsAt_eq, promotionsAt_eq]
    refine List.rel_append ?_ (List.rel_flatMap (openChildren_alike h) ?_)
    · have hliteral : n.literal?.map (fun x => (NodeId.unassigned, x.2)) =
          m.literal?.map fun x => (NodeId.unassigned, x.2) := by
        rw [← literal?_unnumbered, h, literal?_unnumbered]
      cases hn : n.literal? with
      | none =>
        rw [hn, Option.map_none, eq_comm, Option.map_eq_none_iff] at hliteral
        rw [hliteral]
        exact .nil
      | some x =>
        rw [hn, Option.map_some, eq_comm, Option.map_eq_some_iff] at hliteral
        obtain ⟨y, hm, hvalue⟩ := hliteral
        obtain ⟨v, hv, -⟩ := literal?_eq_some hn
        obtain ⟨w, hw, -⟩ := literal?_eq_some hm
        rw [hm]
        refine .cons ⟨rfl, rfl, (Prod.mk.inj hvalue).2.symm, [], v, w, ?_, ?_⟩ .nil
        · rw [hv]
          rfl
        · rw [hw]
          rfl
    · rintro c d ⟨hcd, slot, hc, hd⟩
      exact (ih slot c hc (depth + 1) hcd).imp fun p q hpq => hpq.within (at?_cons hc) (at?_cons hd)

end Node

theorem Shader.promotions_alike (stage : Stage) {s t : Shader} (h : s.unnumbered = t.unnumbered) :
    List.Forall₂ (Promotion.Matches stage s.at? t.at?) (s.promotions stage) (t.promotions stage) := by
  have hbody (d : Declaration) : d.unnumbered.hasBody = d.hasBody := by
    cases d with
    | function id f => simp [Declaration.unnumbered, Function.unnumbered, Declaration.hasBody]
    | _ => rfl
  have hdeclarations := forall₂_of_map_eq (congrArg Shader.declarations h)
  refine List.rel_flatMap (List.rel_filter ?_ hdeclarations) ?_
  · rintro d e ⟨heq, -⟩
    simp only [← hbody d, heq, hbody e]
  · rintro d e ⟨heq, i, hd, he⟩
    have hnodes : (Node.declaration d).unnumbered = (Node.declaration e).unnumbered :=
      congrArg Node.declaration heq
    have hlook (path : Path) : s.at? (.topLevel i :: path) = (Node.declaration d).at? path := by
      rw [at?, hd, Option.bind_some]
    have hlook' (path : Path) : t.at? (.topLevel i :: path) = (Node.declaration e).at? path := by
      rw [at?, he, Option.bind_some]
    exact (Node.promotionsAt_alike stage 0 hnodes).imp fun p q hpq => hpq.within hlook hlook'

end ShaderLift
