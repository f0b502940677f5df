import Mathlib
import ShaderLift.Proofs.Identities

/-!
Promotions that fail. A promotion is refused before anything changes, unless it is of an expression
in the old declaration of its own array: that one is gone when the value has been declared, and the
job stays half changed.
-/

namespace ShaderLift

namespace Shader

/-- The identity is of an expression in a declarator of a uniform with that name. -/
def InUniform (s : Shader) (name : String) (id : NodeId) : Prop :=
  ∃ i vars, (i, vars) ∈ s.uniformDeclarations ∧ ∃ v ∈ vars.vars, v.name = name ∧
    ∃ e, Node.expression e ∈ v.nodes ∧ e.id = id

theorem mem_uniformDeclarations {s : Shader} {i : NodeId} {vars : Variables} :
    (i, vars) ∈ s.uniformDeclarations ↔
      .globals i vars ∈ s.declarations ∧ vars.hasQualifier .uniform := by
  rw [uniformDeclarations, List.mem_filterMap]
  constructor
  · rintro ⟨d, hd, hsome⟩
    cases d with
    | globals id vs =>
      simp only at hsome
      split at hsome
      · next huniform =>
        obtain ⟨rfl, rfl⟩ := Prod.mk.inj (Option.some.inj hsome)
        exact ⟨hd, huniform⟩
      · cases hsome
    | _ => cases hsome
  · rintro ⟨hd, huniform⟩
    exact ⟨_, hd, if_pos huniform⟩

theorem InUniform.expression {s : Shader} {name : String} {id : NodeId} (h : s.InUniform name id) :
    ∃ e, .expression e ∈ s.nodes ∧ e.id = id := by
  obtain ⟨i, vars, hvars, v, hv, -, e, he, hid⟩ := h
  obtain ⟨hd, -⟩ := mem_uniformDeclarations.1 hvars
  refine ⟨e, List.mem_flatMap.2 ⟨_, hd, List.mem_cons_of_mem _ ?_⟩, hid⟩
  exact List.mem_flatMap.2 ⟨v, hv, he⟩

theorem withoutDeclarator_keeps {name : String} {d : Declaration} {e : Expr}
    (he : .expression e ∈ d.nodes)
    (hout : ∀ i vars, d = .globals i vars → vars.hasQualifier .uniform → ∀ v ∈ vars.vars,
      v.name = name → .expression e ∉ v.nodes) :
    ∃ d', withoutDeclarator name d = some d' ∧ .expression e ∈ d'.nodes := by
  cases d with
  | globals i vars =>
    cases huniform : vars.hasQualifier .uniform with
    | false => exact ⟨_, by simp [withoutDeclarator, huniform], he⟩
    | true =>
      have hvars : Node.expression e ∈ vars.nodes := by simpa [Declaration.nodes] using he
      obtain ⟨v, hv, hev⟩ := List.mem_flatMap.1 hvars
      have hname : v.name ≠ name := fun heq => hout i vars rfl huniform v hv heq hev
      have hsome : ¬vars.vars.all fun v => v.name = name := fun hall =>
        hname (of_decide_eq_true (List.all_eq_true.1 hall v hv))
      refine ⟨_, by rw [withoutDeclarator_uniform name i huniform, if_neg hsome], ?_⟩
      have hfilter : v ∈ vars.vars.filter fun v => v.name ≠ name :=
        List.mem_filter.2 ⟨hv, by simpa using hname⟩
      exact List.mem_cons_of_mem _ (List.mem_flatMap.2 ⟨v, hfilter, hev⟩)
  | _ => exact ⟨_, rfl, he⟩

theorem withoutDeclarator_drops {name : String} {i : NodeId} {vars : Variables} {d' : Declaration}
    (huniform : vars.hasQualifier .uniform) (hids : (Declaration.globals i vars).ids.Nodup)
    (h : withoutDeclarator name (.globals i vars) = some d') {v : Declarator} (hv : v ∈ vars.vars)
    (hname : v.name = name) {n : Node} (hn : n ∈ v.nodes) : n.id ∉ d'.ids := by
  have heq : (Declaration.globals i vars).ids =
      i :: vars.vars.flatMap fun v => v.nodes.map Node.id := by
    simp [Declaration.ids, Declaration.nodes, Variables.nodes, List.map_flatMap, Node.id,
      Declaration.id]
  rw [heq, List.nodup_cons] at hids
  have hid : n.id ∈ v.nodes.map Node.id := List.mem_map_of_mem hn
  rw [withoutDeclarator_uniform name i huniform] at h
  split at h
  · cases h
  · obtain rfl := Option.some.inj h
    intro hmem
    simp only [Declaration.ids, Declaration.nodes, Variables.nodes, List.map_cons,
      List.map_flatMap, List.mem_cons, List.mem_flatMap, List.mem_filter] at hmem
    rcases hmem with hroot | ⟨v', ⟨hv', hother⟩, hn'⟩
    · have hroot : n.id = i := hroot
      exact hids.1 (hroot ▸ List.mem_flatMap.2 ⟨v, hv, hid⟩)
    · obtain rfl := eq_of_mem_flatMap hids.2 hv' hv hn' hid
      exact of_decide_eq_true hother hname

/-- Taking the uniforms of a name out removes exactly the expressions in their declarators. -/
theorem mem_removeUniform_ids {s : Shader} (hs : s.ids.Nodup) {e : Expr}
    (he : .expression e ∈ s.nodes) (name : String) :
    e.id ∈ (s.removeUniform name).ids ↔ ¬s.InUniform name e.id := by
  have hnodup := hs
  rw [ids_eq] at hnodup
  constructor
  · rintro hmem ⟨i, vars, hvars, v, hv, hname, x, hx, hid⟩
    obtain ⟨hd, huniform⟩ := mem_uniformDeclarations.1 hvars
    have hinside : e.id ∈ (Declaration.globals i vars).ids :=
      List.mem_cons_of_mem _ (List.mem_map.2 ⟨_, List.mem_flatMap.2 ⟨v, hv, hx⟩, hid⟩)
    rw [ids_eq] at hmem
    obtain ⟨d', hd', hnode⟩ := List.mem_flatMap.1 hmem
    obtain ⟨d, hd₀, hrest⟩ := List.mem_filterMap.1 hd'
    -- the identity is in one declaration only, the one with the declarator
    obtain rfl := eq_of_mem_flatMap hnodup hd₀ hd ((withoutDeclarator_ids hrest).subset hnode) hinside
    have hdeclaration := (List.nodup_flatMap.1 hnodup).1 _ hd
    rw [← hid] at hnode
    exact withoutDeclarator_drops huniform hdeclaration hrest hv hname hx hnode
  · intro hout
    obtain ⟨d, hd, hed⟩ := List.mem_flatMap.1 he
    have hkept : ∃ d', withoutDeclarator name d = some d' ∧ Node.expression e ∈ d'.nodes := by
      refine withoutDeclarator_keeps hed ?_
      rintro i vars rfl huniform v hv hname hev
      exact hout ⟨i, vars, mem_uniformDeclarations.2 ⟨hd, huniform⟩, v, hv, hname, e, hev, rfl⟩
    obtain ⟨d', hd', hed'⟩ := hkept
    exact List.mem_map.2 ⟨_, List.mem_flatMap.2 ⟨d', List.mem_filterMap.2 ⟨d, hd, hd'⟩, hed'⟩, rfl⟩

end Shader

namespace Job

/-- A promotion fails without a change of the metadata or a stage, unless it is of an expression in
a declaration of its own array and its value could be interned. -/
theorem failed_apply_unchanged_iff {job : Job} (h : job.Reachable) (p : Promotion)
    (hfailed : (job.apply p).1 ≠ .ok ()) :
    ((job.apply p).2.metadata = job.metadata ∧ (job.apply p).2.stages = job.stages) ↔
      ¬∃ s, (p.stage, s) ∈ job.stages ∧ s.InUniform p.arrayName p.node ∧
        ∃ position, (job.metadata.intern p.arrayName p.value).1 = .ok position := by
  rcases apply_cases h.sound p with
    ⟨e, happly, hrefused⟩ | ⟨s, position, values, after, ⟨hs, x, hx, hid⟩, hdeclares, hcases⟩
  · rw [happly]
    refine iff_of_true ⟨rfl, rfl⟩ ?_
    rintro ⟨s, hs, hinside, position, hposition⟩
    exact hrefused s ⟨hs, hinside.expression⟩ position hposition
  · rcases hcases with ⟨-, happly⟩ | ⟨hgone, happly⟩
    · rw [happly] at hfailed
      exact absurd rfl hfailed
    · have hnodup := (h.sound.shaders _ hs).nodup
      have hinside : s.InUniform p.arrayName p.node := by
        rw [← hid] at hgone ⊢
        exact not_not.1 fun hout => hgone ((Shader.mem_removeUniform_ids hnodup hx _).2 hout)
      refine iff_of_false ?_ (not_not.2 ⟨s, hs, hinside, _, congrArg Prod.fst hdeclares.interned⟩)
      rw [happly]
      rintro ⟨-, hstages⟩
      -- the stage has lost the identity
      obtain ⟨id, hfirst, -, hmem⟩ := hdeclares.stages.mem hs
      simp only at hstages
      rw [hstages] at hmem
      have hsame := Option.some.inj (((shader?_eq_some h.sound.ordered).2 hs).symm.trans
        ((shader?_eq_some h.sound.ordered).2 hmem))
      have hnode : p.node ∈ s.ids := hid ▸ List.mem_map_of_mem (f := Node.id) hx
      have hlt : p.node < id := Nat.lt_of_lt_of_le ((h.sound.shaders _ hs).bounded _ hnode) hfirst
      rw [hsame, (Shader.redeclared_ids s id _ _ _).mem_iff] at hnode
      simp only [List.mem_cons] at hnode
      have hrest : p.node ∉ (s.removeUniform p.value.type.arrayName).ids := hgone
      grind

/-- A job whose array holds numbers of another type. -/
def mistyped : Job :=
  (⟨[], ⟨.ofList [("_GLF_uniform_int_values",
    .uniform ⟨"glUniform1fv", some 0, [], some 0, false⟩)]⟩, {}⟩ : Job).serveAll
      [.add .fragment "void main() { int x = 7; }", .find]

theorem mistyped_reachable : mistyped.Reachable := (empty_reachable _).serveAll _

theorem mistyped_unchanged :
    (mistyped.apply ⟨.fragment, 2, .int 7, 2⟩).1 =
        .error (.typeMismatch "_GLF_uniform_int_values" .float .int) ∧
      (mistyped.apply ⟨.fragment, 2, .int 7, 2⟩).2.metadata = mistyped.metadata ∧
      (mistyped.apply ⟨.fragment, 2, .int 7, 2⟩).2.stages = mistyped.stages := by
  have hfailed : (mistyped.apply ⟨.fragment, 2, .int 7, 2⟩).1 =
      .error (.typeMismatch "_GLF_uniform_int_values" .float .int) := by decide +kernel
  have hintern : (mistyped.metadata.intern "_GLF_uniform_int_values" (.int 7)).1.isOk = false := by
    decide +kernel
  have hrefused : (mistyped.apply ⟨.fragment, 2, .int 7, 2⟩).1 ≠ .ok () := by
    rw [hfailed]
    exact nofun
  refine ⟨hfailed, (failed_apply_unchanged_iff mistyped_reachable _ hrefused).2 ?_⟩
  rintro ⟨s, -, -, position, hposition⟩
  have hposition : (mistyped.metadata.intern "_GLF_uniform_int_values" (.int 7)).1 =
    .ok position := hposition
  rw [hposition] at hintern
  cases hintern

/-- A job that declares its array already. -/
def declared : Job :=
  (⟨[], ⟨.ofList []⟩, {}⟩ : Job).serveAll
    [.add .fragment "uniform int _GLF_uniform_int_values[3]; void main() {}",
      .new .fragment 1 (.int 7) 0]

/-- The size of that array cannot be promoted. The promotion fails, but only after the array has
grown in the metadata and was declared anew. -/
theorem declared_half_changed :
    (declared.apply ⟨.fragment, 1, .int 7, 0⟩).1 = .error (.nodeNotFound 1) ∧
      declared.metadata.contents "_GLF_uniform_int_values" = .ok ⟨.int, []⟩ ∧
      (declared.apply ⟨.fragment, 1, .int 7, 0⟩).2.metadata.contents "_GLF_uniform_int_values" =
        .ok ⟨.int, [.int 7]⟩ ∧
      declared.nodeIds = [0, 1, 2] ∧
      (declared.apply ⟨.fragment, 1, .int 7, 0⟩).2.nodeIds = [4, 3, 2] := by
  decide +kernel

end Job
end ShaderLift
