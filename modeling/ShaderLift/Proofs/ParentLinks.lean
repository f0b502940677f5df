import Mathlib
import ShaderLift.Proofs.Places

/-!
The parent index of a shader whose identities are distinct, used on that shader. It has one link for
each node: the place at the top for a declaration, and otherwise the one parent that lists the node
among its children, with the slot. So a replacement reaches every expression and nothing else.
-/

namespace ShaderLift

theorem eraseDups_of_nodup {α : Type} [BEq α] [LawfulBEq α] {xs : List α} (h : xs.Nodup) :
    xs.eraseDups = xs := by
  induction xs with
  | nil => rfl
  | cons x xs ih =>
    obtain ⟨hx, hxs⟩ := List.nodup_cons.1 h
    have hothers : xs.filter (fun y => !y == x) = xs := by
      refine List.filter_eq_self.2 fun y hy => ?_
      have hne : y ≠ x := fun heq => hx (heq ▸ hy)
      simpa using hne
    rw [List.eraseDups_cons, hothers, ih hxs]

namespace ParentIndex

variable {s : Shader} {id : NodeId}

theorem size_ofShader (hs : s.ids.Nodup) : (ofShader s).size = s.nodes.length := by
  have hperm : ((ofShader s).links.map Prod.fst).Perm s.ids := by
    rw [keys_ofShader]
    exact (List.reverse_perm _).trans (s.walk_ids .backward)
  rw [size, eraseDups_of_nodup (hperm.nodup_iff.2 hs), hperm.length_eq, Shader.ids, List.length_map]

theorem link?_eq_some (hs : s.ids.Nodup) {link : Link} :
    (ofShader s).link? id = some link ↔ ∃ v ∈ s.walk .backward, v.node.id = id ∧ v.link = link := by
  constructor
  · intro h
    have hid : id ∈ s.ids := by
      by_contra hmissing
      rw [link?_eq_none hmissing] at h
      cases h
    obtain ⟨v, hv, rfl⟩ := List.mem_map.1 ((s.walk_ids .backward).mem_iff.2 hid)
    rw [link?_of_mem hs hv] at h
    exact ⟨v, hv, rfl, Option.some.inj h⟩
  · rintro ⟨v, hv, rfl, rfl⟩
    exact link?_of_mem hs hv

theorem link?_isSome (hs : s.ids.Nodup) : ((ofShader s).link? id).isSome ↔ id ∈ s.ids := by
  constructor
  · intro h
    by_contra hmissing
    rw [link?_eq_none hmissing] at h
    cases h
  · intro hid
    obtain ⟨v, hv, rfl⟩ := List.mem_map.1 ((s.walk_ids .backward).mem_iff.2 hid)
    rw [link?_of_mem hs hv]
    rfl

theorem link?_root (hs : s.ids.Nodup) {slot : Slot} :
    (ofShader s).link? id = some ⟨.root, slot⟩ ↔
      ∃ i d, s.declarations[i]? = some d ∧ d.id = id ∧ slot = .topLevel i := by
  rw [link?_eq_some hs]
  constructor
  · rintro ⟨v, hv, hid, hlink⟩
    rcases Shader.walk_parent hv with ⟨at', d, hd, rfl⟩ | ⟨u, -, at', c, -, rfl⟩
    · obtain ⟨i, d', hi, rfl, heq⟩ := Shader.mem_children.1 hd
      obtain rfl := Node.declaration.inj heq
      exact ⟨i, d, hi, hid, (congrArg Link.slot hlink).symm⟩
    · cases hlink
  · rintro ⟨i, d, hi, rfl, rfl⟩
    exact ⟨_, Shader.top_mem_walk .backward (Shader.mem_children.2 ⟨i, d, hi, rfl, rfl⟩), rfl, rfl⟩

theorem link?_node (hs : s.ids.Nodup) {parent : NodeId} {slot : Slot} :
    (ofShader s).link? id = some ⟨.node parent, slot⟩ ↔
      ∃ n ∈ s.nodes, n.id = parent ∧ ∃ c, (slot, c) ∈ n.children ∧ c.id = id := by
  rw [link?_eq_some hs]
  constructor
  · rintro ⟨v, hv, hid, hlink⟩
    rcases Shader.walk_parent hv with ⟨at', d, -, rfl⟩ | ⟨u, hu, at', c, hc, rfl⟩
    · cases hlink
    · obtain ⟨hparent, rfl⟩ := Link.mk.inj hlink
      exact ⟨u.node, (Shader.mem_nodes_iff .backward).2 ⟨u, hu, rfl⟩, Parent.node.inj hparent, c, hc,
        hid⟩
  · rintro ⟨n, hn, rfl, c, hc, rfl⟩
    obtain ⟨u, hu, rfl⟩ := (Shader.mem_nodes_iff .backward).1 hn
    exact ⟨_, Shader.child_mem_walk hu hc, rfl, rfl⟩

/-- A replacement in terms of nodes and paths: the parent that the index names is looked up, and the
expression in the slot that the index names is exchanged where the path leads. -/
theorem replace_eq (index : ParentIndex) (s : Shader) (id : NodeId) (new : Expr) :
    index.replace s id new =
      match index.link? id with
      | none => (.error (.nodeNotFound id), s)
      | some ⟨.root, _⟩ => (.error (.notAnExpression id), s)
      | some ⟨.node parent, slot⟩ =>
        match s.visit? parent with
        | none => (.error (.nodeNotFound id), s)
        | some v =>
          match v.node.child? slot with
          | none => (.error (.nodeNotFound id), s)
          | some (.expression e) =>
            if e.id = id then (.ok e, s.setAt (v.path ++ [slot]) (.expression new))
            else (.error (.nodeNotFound id), s)
          | some _ => (.error (.notAnExpression id), s) := by
  rw [replace]
  rcases index.link? id with _ | ⟨_ | parent, slot⟩
  · rfl
  · rfl
  · simp only [s.place?_eq]
    cases hv : s.visit? parent with
    | none => rfl
    | some v =>
      obtain ⟨-, hat⟩ := Shader.walk_path (Shader.visit?_eq_some hv).1
      simp only [Option.map_some, Shader.child?_placeAt hat]
      cases v.node.child? slot with
      | none => rfl
      | some c => cases c <;> rfl

theorem replace_expression (hs : s.ids.Nodup) {e : Expr} (he : .expression e ∈ s.nodes) (new : Expr) :
    (ofShader s).replace s e.id new = (.ok e, s.substitute (.single e.id new)) := by
  obtain ⟨v, hv, hnode⟩ := (Shader.mem_nodes_iff .backward).1 he
  rcases Shader.walk_parent hv with ⟨slot, d, -, rfl⟩ | ⟨u, hu, slot, c, hc, rfl⟩
  · simp [Visit.top] at hnode
  · simp only [Visit.child] at hnode
    subst hnode
    have hlink : (ofShader s).link? e.id = some ⟨.node u.node.id, slot⟩ := link?_of_mem hs hv
    have hvisit := Shader.visit?_of_mem hs hu
    have hchild := Node.child?_eq_some.2 hc
    have hpath : s.at? (u.path ++ [slot]) = some (.expression e) := (Shader.walk_path hv).2
    simp [replace_eq, hlink, hvisit, hchild, Shader.setAt_eq_substitute hs hpath]

theorem replace_missing (h : id ∉ s.ids) (new : Expr) :
    (ofShader s).replace s id new = (.error (.nodeNotFound id), s) := by
  rw [replace, link?_eq_none h]

theorem replace_other (hs : s.ids.Nodup) {n : Node} (hn : n ∈ s.nodes) (hother : n.expression? = none)
    (new : Expr) : (ofShader s).replace s n.id new = (.error (.notAnExpression n.id), s) := by
  obtain ⟨v, hv, rfl⟩ := (Shader.mem_nodes_iff .backward).1 hn
  have hlink := link?_of_mem hs hv
  rcases Shader.walk_parent hv with ⟨slot, d, -, rfl⟩ | ⟨u, hu, slot, c, hc, rfl⟩
  · simp only [Visit.top] at hlink ⊢
    simp only [replace, hlink]
  · simp only [Visit.child] at hlink hother ⊢
    simp only [replace_eq, hlink, Shader.visit?_of_mem hs hu, Node.child?_eq_some.2 hc]
    cases c with
    | expression e => cases hother
    | _ => rfl

/-- What can come of a replacement, by what the identity stands for. -/
theorem replace_cases (hs : s.ids.Nodup) (id : NodeId) (new : Expr) :
    (id ∉ s.ids ∧ (ofShader s).replace s id new = (.error (.nodeNotFound id), s)) ∨
    ((∃ n ∈ s.nodes, n.id = id ∧ n.expression? = none) ∧
      (ofShader s).replace s id new = (.error (.notAnExpression id), s)) ∨
    ∃ e, .expression e ∈ s.nodes ∧ e.id = id ∧
      (ofShader s).replace s id new = (.ok e, s.substitute (.single id new)) := by
  by_cases hid : id ∈ s.ids
  · obtain ⟨n, hn, rfl⟩ := List.mem_map.1 hid
    cases n with
    | expression e => exact .inr (.inr ⟨e, hn, rfl, replace_expression hs hn new⟩)
    | _ => exact .inr (.inl ⟨⟨_, hn, rfl, rfl⟩, replace_other hs hn rfl new⟩)
  · exact .inl ⟨hid, replace_missing hid new⟩

/-- The index of a shader with distinct identities links every node and nothing else: declarations
to the top, all other nodes to the one parent and slot that they are a child in. A replacement
through it is refused where there is no node or one of another kind, and leaves the shader alone then;
otherwise it puts the new expression in the place of the old one. -/
theorem ofShader_exact (hs : s.ids.Nodup) (id : NodeId) (new : Expr) :
    (((ofShader s).link? id).isSome ↔ id ∈ s.ids) ∧
    (∀ slot, (ofShader s).link? id = some ⟨.root, slot⟩ ↔
      ∃ i d, s.declarations[i]? = some d ∧ d.id = id ∧ slot = .topLevel i) ∧
    (∀ parent slot, (ofShader s).link? id = some ⟨.node parent, slot⟩ ↔
      ∃ n ∈ s.nodes, n.id = parent ∧ ∃ c, (slot, c) ∈ n.children ∧ c.id = id) ∧
    (ofShader s).size = s.nodes.length ∧
    (((ofShader s).replace s id new).1 = .error (.nodeNotFound id) ↔ id ∉ s.ids) ∧
    (((ofShader s).replace s id new).1 = .error (.notAnExpression id) ↔
      ∃ n ∈ s.nodes, n.id = id ∧ n.expression? = none) ∧
    (∀ e, .expression e ∈ s.nodes → e.id = id →
      (ofShader s).replace s id new = (.ok e, s.substitute (.single id new))) ∧
    ∀ fault after, (ofShader s).replace s id new = (.error fault, after) → after = s := by
  refine ⟨link?_isSome hs, fun _ => link?_root hs, fun _ _ => link?_node hs, size_ofShader hs,
    ⟨fun herror => ?_, fun h => ?_⟩, ⟨fun herror => ?_, ?_⟩, ?_, fun fault after herror => ?_⟩
  · rcases replace_cases hs id new with ⟨hid, -⟩ | ⟨-, hother⟩ | ⟨e, -, -, hok⟩
    · exact hid
    · rw [hother] at herror
      cases herror
    · rw [hok] at herror
      cases herror
  · rw [replace_missing h]
  · rcases replace_cases hs id new with ⟨-, hmissing⟩ | ⟨hother, -⟩ | ⟨e, -, -, hok⟩
    · rw [hmissing] at herror
      cases herror
    · exact hother
    · rw [hok] at herror
      cases herror
  · rintro ⟨n, hn, rfl, hother⟩
    rw [replace_other hs hn hother]
  · rintro e he rfl
    exact replace_expression hs he new
  · rcases replace_cases hs id new with ⟨-, hleft⟩ | ⟨-, hleft⟩ | ⟨e, -, -, hok⟩
    · exact (Prod.mk.inj (hleft.symm.trans herror)).2.symm
    · exact (Prod.mk.inj (hleft.symm.trans herror)).2.symm
    · cases (Prod.mk.inj (hok.symm.trans herror)).1

/-- A variable with an initial value, and a function that reads an element of its argument. -/
def twoDeclarations : Shader :=
  ⟨[.globals 0 ⟨⟨[], .int⟩, [⟨"n", none, some (.literal 1 (.int 4))⟩]⟩,
    .function 2 ⟨⟨[], .int⟩, "f", [⟨⟨[], .int⟩, some "a", some ⟨some (.literal 3 (.int 2))⟩⟩],
      some [.ret 4 (some (.index 5 (.name 6 "a") (.literal 7 (.int 1))))]⟩]⟩

theorem twoDeclarations_indexed :
    twoDeclarations.ids.Nodup ∧
      (ofShader twoDeclarations).link? 2 = some ⟨.root, .topLevel 1⟩ ∧
      (ofShader twoDeclarations).link? 3 = some ⟨.node 2, .paramArraySize 0⟩ ∧
      (ofShader twoDeclarations).link? 8 = none ∧
      (ofShader twoDeclarations).size = 8 ∧
      (ofShader twoDeclarations).replace twoDeclarations 8 (.name 9 "n") =
        (.error (.nodeNotFound 8), twoDeclarations) ∧
      (ofShader twoDeclarations).replace twoDeclarations 4 (.name 9 "n") =
        (.error (.notAnExpression 4), twoDeclarations) ∧
      (ofShader twoDeclarations).replace twoDeclarations 7 (.name 9 "n") =
        (.ok (.literal 7 (.int 1)), twoDeclarations.substitute (.single 7 (.name 9 "n"))) := by
  have hs : twoDeclarations.ids.Nodup := by decide
  obtain ⟨-, hroot, -, hsize, -⟩ := ofShader_exact hs 2 (.name 9 "n")
  obtain ⟨-, -, hnode, -⟩ := ofShader_exact hs 3 (.name 9 "n")
  obtain ⟨hlink, -, -, -, hmissing, -, -, hgap⟩ := ofShader_exact hs 8 (.name 9 "n")
  obtain ⟨-, -, -, -, -, hother, -, hkept⟩ := ofShader_exact hs 4 (.name 9 "n")
  obtain ⟨-, -, -, -, -, -, hexpression, -⟩ := ofShader_exact hs 7 (.name 9 "n")
  have hgone : 8 ∉ twoDeclarations.ids := by decide
  have hstatement : ∃ n ∈ twoDeclarations.nodes, n.id = 4 ∧ n.expression? = none :=
    ⟨_, List.mem_flatMap.2 ⟨_, .tail _ (.head _), .tail _ (.tail _ (.head _))⟩, rfl, rfl⟩
  refine ⟨hs, (hroot _).2 ⟨1, _, rfl, rfl, rfl⟩, (hnode _ _).2 ?_, ?_, hsize, ?_, ?_,
    hexpression _ ?_ rfl⟩
  · exact ⟨_, List.mem_flatMap.2 ⟨_, .tail _ (.head _), .head _⟩, rfl, _, .head _, rfl⟩
  · exact Option.not_isSome_iff_eq_none.1 fun h => hgone (hlink.1 h)
  · have herror := hmissing.2 hgone
    exact Prod.ext herror (hgap _ _ (Prod.ext herror rfl))
  · have herror := hother.2 hstatement
    exact Prod.ext herror (hkept _ _ (Prod.ext herror rfl))
  · simp [twoDeclarations, Shader.nodes, Declaration.nodes, Stmt.nodesOfBody, Stmt.nodes,
      nodesOfOption, Expr.nodes]

end ParentIndex
end ShaderLift
