import Mathlib
import ShaderLift.Proofs.Identities
import ShaderLift.Proofs.ParentLinks
import ShaderLift.Proofs.PromotionOrder

/-!
What a promotion leaves as it was. In the metadata that is every entry but the array. In the stages
the array is declared anew, so they are compared without it: then every stage is the same as before,
and in the stage of the promotion one expression is replaced where it stood.
-/

namespace ShaderLift

namespace Node

theorem child_mem_nodes {n k c : Node} {slot : Slot} (hk : k ∈ n.nodes)
    (hc : (slot, c) ∈ k.children) : c ∈ n.nodes := by
  induction n using Node.induction with
  | step n ih =>
    rw [nodes_eq, List.mem_cons] at hk
    rcases hk with rfl | hk
    · exact nodes_subset hc (mem_nodes_self c)
    · obtain ⟨⟨at', b⟩, hb, hk⟩ := List.mem_flatMap.1 hk
      exact nodes_subset hb (ih at' b hb hk)

theorem id_ne_of_child {n c m : Node} {slot : Slot} (hn : n.ids.Nodup) (hc : (slot, c) ∈ n.children)
    (hm : m ∈ c.nodes) : n.id ≠ m.id := by
  rw [ids, nodes_eq, List.map_cons, List.nodup_cons] at hn
  intro heq
  exact hn.1 (heq ▸ List.mem_map_of_mem (List.mem_flatMap.2 ⟨(slot, c), hc, hm⟩))

theorem child_ids_nodup {n c : Node} {slot : Slot} (hn : n.ids.Nodup)
    (hc : (slot, c) ∈ n.children) : c.ids.Nodup := by
  rw [ids, nodes_eq, childNodes, List.map_cons, List.map_flatMap, List.nodup_cons] at hn
  exact (List.nodup_flatMap.1 hn.2).1 _ hc

theorem mem_children_substitute {σ : Substitution} {n c : Node} {slot : Slot} (h : σ n.id = none)
    (hc : (slot, c) ∈ n.children) : (slot, c.substitute σ) ∈ (n.substitute σ).children := by
  rw [children_substitute _ h]
  exact List.mem_map.2 ⟨_, hc, rfl⟩

/-- The parent of an expression stays when that is replaced, and has the new one in the same slot. -/
theorem parent_substitute {n k : Node} (hn : n.ids.Nodup) (hk : k ∈ n.nodes) {slot : Slot} {e : Expr}
    (he : (slot, .expression e) ∈ k.children) (new : Expr) :
    ∃ m ∈ (n.substitute (.single e.id new)).nodes, m.id = k.id ∧
      (slot, .expression new) ∈ m.children := by
  induction n using Node.induction with
  | step n ih =>
    rw [nodes_eq, List.mem_cons] at hk
    rcases hk with rfl | hk
    · have hroot : Substitution.single e.id new k.id = none :=
        if_neg (id_ne_of_child hn he (mem_nodes_self _))
      have hnew : (expression e).substitute (.single e.id new) = .expression new :=
        congrArg expression (Expr.substitute_root (if_pos rfl))
      refine ⟨_, mem_nodes_self _, id_substitute hroot, ?_⟩
      rw [← hnew]
      exact mem_children_substitute hroot he
    · obtain ⟨⟨at', c⟩, hc, hk⟩ := List.mem_flatMap.1 hk
      have hroot : Substitution.single e.id new n.id = none :=
        if_neg (id_ne_of_child hn hc (child_mem_nodes hk he))
      obtain ⟨m, hm, hparent⟩ := ih at' c hc (child_ids_nodup hn hc) hk
      exact ⟨m, nodes_subset (mem_children_substitute hroot hc) hm, hparent⟩

end Node

namespace Shader

/-- The second shader is the first with an expression put in the place of the one that has the
identity. It has the same parent and the same slot. -/
structure Replaces (s : Shader) (id : NodeId) (new : Expr) (t : Shader) : Prop where
  place : ∃ path e, s.at? path = some (.expression e) ∧ e.id = id ∧
    t = s.setAt path (.expression new)
  link : ∃ parent slot, (ParentIndex.ofShader s).link? id = some ⟨.node parent, slot⟩ ∧
    (ParentIndex.ofShader t).link? new.id = some ⟨.node parent, slot⟩

theorem replaces_substitute {s : Shader} (hs : s.ids.Nodup) {e : Expr} (he : .expression e ∈ s.nodes)
    {new : Expr} (hnew : (s.substitute (.single e.id new)).ids.Nodup) :
    s.Replaces e.id new (s.substitute (.single e.id new)) := by
  obtain ⟨v, hv, hnode⟩ := (mem_nodes_iff .backward).1 he
  have hat := (walk_path hv).2
  rw [hnode] at hat
  refine ⟨⟨v.path, e, hat, rfl, (setAt_eq_substitute hs hat new).symm⟩, ?_⟩
  rcases walk_parent hv with ⟨slot, d, -, rfl⟩ | ⟨u, hu, slot, c, hc, rfl⟩
  · cases hnode
  · have hnode : c = .expression e := hnode
    subst hnode
    have hparent := (mem_nodes_iff .backward).2 ⟨u, hu, rfl⟩
    refine ⟨u.node.id, slot, (ParentIndex.link?_node hs).2 ⟨_, hparent, rfl, _, hc, rfl⟩,
      (ParentIndex.link?_node hnew).2 ?_⟩
    obtain ⟨d, hd, hk⟩ := List.mem_flatMap.1 hparent
    have hnodup : (Node.declaration d).ids.Nodup := by
      rw [ids_eq] at hs
      exact (List.nodup_flatMap.1 hs).1 d hd
    obtain ⟨m, hm, hid, hchild⟩ := Node.parent_substitute hnodup hk hc new
    exact ⟨m, List.mem_flatMap.2 ⟨_, List.mem_map_of_mem hd, hm⟩, hid, _, hchild, rfl⟩

theorem removeUniform_substitute (s : Shader) (name : String) (σ : Substitution) :
    (s.substitute σ).removeUniform name = (s.removeUniform name).substitute σ :=
  congrArg mk (filterMap_substitute name σ s.declarations)

theorem addDeclaration_removeUniform (s : Shader) {name : String} {d : Declaration}
    (h : withoutDeclarator name d = none) :
    (s.addDeclaration d).removeUniform name = s.removeUniform name := by
  rw [removeUniform, addDeclaration, List.filterMap_append, List.filterMap_cons_none h,
    ← List.filterMap_append, List.takeWhile_append_dropWhile]
  rfl

theorem redeclared_removeUniform (s : Shader) (id : NodeId) (name : String) (type : ScalarType)
    (length : Nat) : (s.redeclared id name type length).removeUniform name = s.removeUniform name := by
  have hnone : withoutDeclarator name (arrayDeclarationAt id name type length) = none := by
    simp [withoutDeclarator, arrayDeclarationAt, Variables.hasQualifier]
  exact (addDeclaration_removeUniform _ hnone).trans (removeUniform_twice s name)

end Shader

namespace Job

theorem tracked_of_nodeIds {job : Job} (hordered : Ordered job.stages) (hnodup : job.nodeIds.Nodup)
    (hassigned : ∀ id ∈ job.nodeIds, id < job.ids.next) : job.Tracked := by
  refine ⟨hordered, fun x hx => ⟨(List.nodup_flatMap.1 hnodup).1 x hx, fun i hi => ?_⟩⟩
  exact hassigned i (List.mem_flatMap.2 ⟨x, hx, hi⟩)

/-- Without the array a stage is as it was, but for the element that is read in it. -/
theorem Declares.readElement_stages {job declared : Job} {p : Promotion} {position : Nat}
    {values : List Scalar} (h : job.Declares p.value position values declared) :
    List.Forall₂ (fun x y => y.1 = x.1 ∧ y.2.removeUniform p.arrayName =
        (x.2.removeUniform p.arrayName).substitute
          (p.substitution (elementAt declared.ids.next p.arrayName position) x.1))
      job.stages (declared.readElement p position).stages := by
  refine List.forall₂_map_right_iff.2 (h.stages.imp fun x y hxy => ?_)
  obtain ⟨hstage, id, -, -, hshader⟩ := hxy
  refine ⟨hstage, ?_⟩
  rw [Shader.removeUniform_substitute, hshader, hstage]
  exact congrArg (Shader.substitute _) (Shader.redeclared_removeUniform x.2 id _ _ _)

/-- A promotion changes one entry of the metadata. The stages are the same without the array, except
that the stage of the promotion has the element in the place of the node. -/
theorem apply_frame {job after : Job} {p : Promotion} (hordered : Ordered job.stages)
    (hnodup : job.nodeIds.Nodup) (hassigned : ∀ id ∈ job.nodeIds, id < job.ids.next)
    (happly : job.apply p = (.ok (), after)) :
    (∀ name, name ≠ p.arrayName →
      after.metadata.table.get? name = job.metadata.table.get? name) ∧
    (∃ s, (p.stage, s) ∈ job.stages) ∧
    ∃ id position, job.ids.next ≤ id ∧
      job.metadata.intern p.arrayName p.value = (.ok position, after.metadata) ∧
      List.Forall₂ (fun x y => y.1 = x.1 ∧
        (x.1 ≠ p.stage → y.2.removeUniform p.arrayName = x.2.removeUniform p.arrayName) ∧
        (x.1 = p.stage → (x.2.removeUniform p.arrayName).Replaces p.node
          (elementAt id p.arrayName position) (y.2.removeUniform p.arrayName)))
        job.stages after.stages := by
  have htracked := tracked_of_nodeIds hordered hnodup hassigned
  obtain ⟨s, position, values, declared, ⟨hs, e, he, hid⟩, hdeclares, hnode, rfl⟩ :=
    (htracked.outcome p).promotes happly
  refine ⟨fun name hname => ?_, ⟨s, hs⟩, declared.ids.next, position, hdeclares.supply,
    hdeclares.interned, ?_⟩
  · obtain ⟨-, -, -, new, -, -, -, -, hset, -⟩ := Metadata.intern_spec hdeclares.interned
    change declared.metadata.table.get? name = _
    rw [hset, Metadata.get?_setUniform]
    exact if_neg hname
  · have hstages := (List.forall₂_and_left _ _).2 ⟨fun x hx => hx, hdeclares.readElement_stages⟩
    refine hstages.imp fun x y hxy => ?_
    obtain ⟨hx, hstage, hrest⟩ := hxy
    refine ⟨hstage, fun hother => ?_, fun howner => ?_⟩
    · rw [hrest, Promotion.substitution, if_neg hother, Shader.substitute_spared fun _ _ => rfl]
    · have hsame : s = x.2 := shader_unique hordered hs (howner ▸ hx)
      subst hsame
      have hold := htracked.shaders _ hs
      have hsub := Shader.removeUniform_ids x.2 p.arrayName
      have hkept := Shader.removeUniform_expression hold.nodup he (hid ▸ hnode)
      have hbounded : ∀ i ∈ (x.2.removeUniform p.arrayName).ids, i < declared.ids.next :=
        fun i hi => Nat.lt_of_lt_of_le (hold.bounded i (hsub.subset hi)) hdeclares.supply
      obtain ⟨hnew, -⟩ := Shader.element_ids (hold.nodup.sublist hsub) hbounded e.id p.arrayName
        position
      rw [hrest, Promotion.substitution, if_pos howner, ← hid]
      exact Shader.replaces_substitute (hold.nodup.sublist hsub) hkept hnew

/-- The array is declared along with another one. -/
def siblingsVertex : Shader :=
  ⟨[.globals 0 ⟨⟨[.uniform], .int⟩,
      [⟨"_GLF_uniform_int_values", some ⟨some (.literal 1 (.int 1))⟩, none⟩,
        ⟨"n", some ⟨some (.literal 2 (.int 3))⟩, none⟩]⟩,
    .function 3 ⟨⟨[], .void⟩, "main", [], some []⟩]⟩

def siblingsFragment : Shader :=
  ⟨[.globals 4 ⟨⟨[.uniform], .int⟩,
      [⟨"_GLF_uniform_int_values", some ⟨some (.literal 5 (.int 1))⟩, none⟩]⟩,
    .function 6 ⟨⟨[], .void⟩, "main", [], some []⟩]⟩

def siblings : Job :=
  ⟨[(.vertex, siblingsVertex), (.fragment, siblingsFragment)],
    ⟨.ofList [("_GLF_uniform_int_values", .uniform ⟨"glUniform1iv", some 1, [.whole 7], some 0, false⟩),
      ("n", .uniform ⟨"glUniform1iv", some 1, [.whole 7], some 1, false⟩)]⟩, ⟨7⟩⟩

/-- The size of the other array is promoted. -/
theorem siblings_frame :
    Ordered siblings.stages ∧ siblings.nodeIds.Nodup ∧
    (∀ id ∈ siblings.nodeIds, id < siblings.ids.next) ∧
    ∃ after id, siblings.apply ⟨.vertex, 2, .int 3, 0⟩ = (.ok (), after) ∧
      after.metadata.table.get? "n" = siblings.metadata.table.get? "n" ∧
      ∃ v f, after.stages = [(.vertex, v), (.fragment, f)] ∧
        f.removeUniform "_GLF_uniform_int_values" =
          siblingsFragment.removeUniform "_GLF_uniform_int_values" ∧
        (siblingsVertex.removeUniform "_GLF_uniform_int_values").Replaces 2
          (elementAt id "_GLF_uniform_int_values" 1) (v.removeUniform "_GLF_uniform_int_values") := by
  have hordered : Ordered siblings.stages := by
    unfold Ordered
    decide
  have hnodup : siblings.nodeIds.Nodup := by decide
  have hassigned : ∀ id ∈ siblings.nodeIds, id < siblings.ids.next := by decide
  have happly : ∃ after, siblings.apply ⟨.vertex, 2, .int 3, 0⟩ = (.ok (), after) := ⟨_, rfl⟩
  obtain ⟨after, happly⟩ := happly
  obtain ⟨hothers, -, id, position, -, hintern, hstages⟩ :=
    apply_frame hordered hnodup hassigned happly
  have hposition : ∃ m, siblings.metadata.intern "_GLF_uniform_int_values" (.int 3) = (.ok 1, m) :=
    ⟨_, rfl⟩
  obtain ⟨m, hposition⟩ := hposition
  obtain rfl := Except.ok.inj (Prod.mk.inj (hposition.symm.trans hintern)).1
  refine ⟨hordered, hnodup, hassigned, after, id, happly, hothers "n" (by decide), ?_⟩
  obtain ⟨⟨_, v⟩, _, ⟨rfl, -, hv⟩, hrest, hfirst⟩ := List.forall₂_cons_left_iff.1 hstages
  obtain ⟨⟨_, f⟩, _, ⟨rfl, hf, -⟩, hnil, rfl⟩ := List.forall₂_cons_left_iff.1 hrest
  obtain rfl := List.forall₂_nil_left_iff.1 hnil
  exact ⟨v, f, hfirst, hf (by decide), hv rfl⟩

end Job
end ShaderLift
