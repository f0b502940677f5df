import Mathlib
import ShaderLift.Job.Promotion
import ShaderLift.Proofs.Numbering
import ShaderLift.Proofs.Replacement
import ShaderLift.Proofs.WellFormedness

/-!
Declaring an array anew in a shader: the uniforms of that name go, one declaration comes in front
of all that is not preamble, and the functions stay as they are. Then an expression that reads an
element takes the place of another.
-/

namespace ShaderLift

def Declaration.isFunction : Declaration → Bool
  | function _ _ => true
  | _ => false

def Shader.functions (s : Shader) : List Declaration :=
  s.declarations.filter Declaration.isFunction

def Declaration.ids (d : Declaration) : List NodeId := d.nodes.map Node.id

theorem Shader.ids_eq (s : Shader) : s.ids = s.declarations.flatMap Declaration.ids := by
  rw [ids, nodes, List.map_flatMap]
  rfl

namespace Shader

theorem withoutDeclarator_eq_some {name : String} {d d' : Declaration}
    (h : withoutDeclarator name d = some d') :
    d' = d ∨ ∃ id vars, d = .globals id vars ∧ vars.hasQualifier .uniform ∧
      vars.vars.filter (fun v => v.name ≠ name) ≠ [] ∧
      d' = .globals id { vars with vars := vars.vars.filter fun v => v.name ≠ name } := by
  cases d with
  | globals id vars =>
    simp only [withoutDeclarator] at h
    split at h
    · next huniform =>
      split at h
      · cases h
      · next hrest =>
        obtain rfl := Option.some.inj h
        exact .inr ⟨id, vars, rfl, huniform, by simpa using hrest, rfl⟩
    · exact .inl (Option.some.inj h).symm
  | _ => exact .inl (Option.some.inj h).symm

theorem withoutDeclarator_uniform (a : String) (id : NodeId) {vars : Variables}
    (h : vars.hasQualifier .uniform) : withoutDeclarator a (.globals id vars) =
      if vars.vars.all (fun v => v.name = a) then none
      else some (.globals id { vars with vars := vars.vars.filter fun v => v.name ≠ a }) := by
  have hempty : (vars.vars.filter fun v => v.name ≠ a).isEmpty = vars.vars.all fun v => v.name = a := by
    rw [Bool.eq_iff_iff]
    simp [List.filter_eq_nil_iff]
  simp only [withoutDeclarator, h, if_true, hempty]

theorem withoutDeclarator_map (name : String) {id id' : NodeId} {g : Declaration → Declaration}
    {f : Declarator → Declarator} (hf : ∀ v, (f v).name = v.name)
    (hg : ∀ vars : Variables, g (.globals id vars) = .globals id' { vars with vars := vars.vars.map f })
    (vars : Variables) :
    withoutDeclarator name (g (.globals id vars)) = (withoutDeclarator name (.globals id vars)).map g := by
  have hfilter : ((vars.vars.map f).filter fun v => v.name ≠ name) =
      (vars.vars.filter fun v => v.name ≠ name).map f := by
    rw [List.filter_map]
    refine congrArg _ (List.filter_congr fun v _ => ?_)
    simp only [Function.comp_apply, hf]
  rw [hg]
  cases huniform : vars.hasQualifier .uniform with
  | false =>
    have hsame : ({ vars with vars := vars.vars.map f } : Variables).hasQualifier .uniform = false :=
      huniform
    simp [withoutDeclarator, huniform, hsame, hg]
  | true =>
    have hsame : ({ vars with vars := vars.vars.map f } : Variables).hasQualifier .uniform := huniform
    have hall : ((vars.vars.map f).all fun v => v.name = name) = vars.vars.all fun v => v.name = name := by
      rw [List.all_map]
      simp only [Function.comp_def, hf]
    rw [withoutDeclarator_uniform name id huniform, withoutDeclarator_uniform name id' hsame, hall,
      hfilter]
    split
    · rfl
    · rw [Option.map_some, hg]

theorem withoutDeclarator_function {name : String} {d : Declaration} (h : d.isFunction) :
    withoutDeclarator name d = some d := by
  cases d with
  | function id f => rfl
  | _ => cases h

theorem withoutDeclarator_isFunction {name : String} {d d' : Declaration}
    (h : withoutDeclarator name d = some d') : d'.isFunction = d.isFunction := by
  obtain rfl | ⟨id, vars, rfl, -, -, rfl⟩ := withoutDeclarator_eq_some h
  · rfl
  · rfl

theorem removeUniform_functions (s : Shader) (name : String) :
    (s.removeUniform name).functions = s.functions := by
  obtain ⟨ds⟩ := s
  simp only [functions, removeUniform]
  induction ds with
  | nil => rfl
  | cons d ds ih =>
    cases hd : d.isFunction with
    | true => simp [withoutDeclarator_function hd, hd, ih]
    | false =>
      cases hrest : withoutDeclarator name d with
      | none => simp [hrest, hd, ih]
      | some d' =>
        have hd' := withoutDeclarator_isFunction hrest
        simp [hrest, hd, hd', ih]

theorem filter_nodes_sublist (vars : List Declarator) (p : Declarator → Bool) :
    ((vars.filter p).flatMap Declarator.nodes).Sublist (vars.flatMap Declarator.nodes) := by
  induction vars with
  | nil => simp
  | cons v vars ih =>
    cases hv : p v with
    | true => simpa [hv] using ih
    | false => simpa [hv] using ih.trans (List.sublist_append_right _ _)

theorem withoutDeclarator_ids {name : String} {d d' : Declaration}
    (h : withoutDeclarator name d = some d') : d'.ids.Sublist d.ids := by
  obtain rfl | ⟨id, vars, rfl, -, -, rfl⟩ := withoutDeclarator_eq_some h
  · exact List.Sublist.refl _
  · simpa [Declaration.ids, Declaration.nodes, Variables.nodes, Node.id, Declaration.id] using
      (filter_nodes_sublist vars.vars _).map Node.id

theorem removeUniform_ids (s : Shader) (name : String) :
    (s.removeUniform name).ids.Sublist s.ids := by
  obtain ⟨ds⟩ := s
  simp only [ids_eq, removeUniform]
  induction ds with
  | nil => simp
  | cons d ds ih =>
    cases hrest : withoutDeclarator name d with
    | none => simpa [hrest] using ih.trans (List.sublist_append_right _ _)
    | some d' => simpa [hrest] using (withoutDeclarator_ids hrest).append ih

theorem removeUniform_wellFormed {s : Shader} (h : s.WellFormed) (name : String) :
    (s.removeUniform name).WellFormed := by
  intro d' hd'
  obtain ⟨d, hd, hrest⟩ := List.mem_filterMap.1 hd'
  have hwf := h d hd
  obtain rfl | ⟨id, vars, rfl, -, hne, rfl⟩ := withoutDeclarator_eq_some hrest
  · exact hwf
  · exact ⟨hwf.1, hne, fun v hv => hwf.2.2 v (List.mem_of_mem_filter hv)⟩

/-- A node below what is left stood there before, or is the declaration that lost a variable. -/
theorem withoutDeclarator_nodes {name : String} {d d' : Declaration}
    (h : withoutDeclarator name d = some d') {n : Node} (hn : n ∈ d'.nodes) :
    n ∈ d.nodes ∨ n = .declaration d' ∧ d'.id = d.id := by
  obtain rfl | ⟨id, vars, rfl, -, -, rfl⟩ := withoutDeclarator_eq_some h
  · exact .inl hn
  · obtain rfl | hn := List.mem_cons.1 hn
    · exact .inr ⟨rfl, rfl⟩
    · exact .inl (List.mem_cons_of_mem _ ((filter_nodes_sublist vars.vars _).subset hn))

theorem addDeclaration_perm (s : Shader) (d : Declaration) :
    (s.addDeclaration d).declarations.Perm (d :: s.declarations) := by
  have hsplit := s.declarations.takeWhile_append_dropWhile (p := Declaration.isPreamble)
  have hperm : (s.addDeclaration d).declarations.Perm
      (d :: (s.declarations.takeWhile Declaration.isPreamble ++
        s.declarations.dropWhile Declaration.isPreamble)) := List.perm_middle
  rwa [hsplit] at hperm

theorem addDeclaration_ids (s : Shader) (d : Declaration) :
    (s.addDeclaration d).ids.Perm (d.ids ++ s.ids) := by
  simpa [ids_eq] using (addDeclaration_perm s d).flatMap_right Declaration.ids

theorem addDeclaration_functions (s : Shader) {d : Declaration} (hd : d.isFunction = false) :
    (s.addDeclaration d).functions = s.functions := by
  rw [functions, addDeclaration, List.filter_append, List.filter_cons_of_neg (by simp [hd]),
    ← List.filter_append, List.takeWhile_append_dropWhile]
  rfl

theorem addDeclaration_wellFormed {s : Shader} (hs : s.WellFormed) {d : Declaration}
    (hd : d.WellFormed) : (s.addDeclaration d).WellFormed := by
  intro x hx
  obtain rfl | hx := List.mem_cons.1 ((addDeclaration_perm s d).mem_iff.1 hx)
  · exact hd
  · exact hs x hx

end Shader

theorem countLiteral_eq {n : Nat} (h : n < 2 ^ 31) :
    ∃ v : Int32, countLiteral n = .int v ∧ v.toInt = n := by
  refine ⟨.ofNat (min n 2147483647), rfl, ?_⟩
  rw [Nat.min_eq_left (by omega), Int32.toInt_ofNat_of_lt (by omega)]

/-- The declaration of an array, with `id` for its size and the next identity for itself. -/
def arrayDeclarationAt (id : NodeId) (name : String) (type : ScalarType) (length : Nat) :
    Declaration :=
  .globals (id + 1)
    ⟨⟨[.uniform], type.dataType⟩, [⟨name, some ⟨some (.literal id (countLiteral length))⟩, none⟩]⟩

theorem arrayDeclaration_eq (name : String) (type : ScalarType) (length : Nat) (ids : IdSupply) :
    arrayDeclaration name type length ids =
      (arrayDeclarationAt ids.next name type length, ⟨ids.next + 2⟩) := rfl

theorem arrayDeclarationAt_ids (id : NodeId) (name : String) (type : ScalarType) (length : Nat) :
    (arrayDeclarationAt id name type length).ids = [id + 1, id] := rfl

theorem ScalarType.arrayName_proper (type : ScalarType) : ProperName type.arrayName := by
  cases type <;> exact ⟨by decide, by decide, by decide⟩

theorem arrayDeclarationAt_wellFormed (id : NodeId) (type : ScalarType) (length : Nat) :
    (arrayDeclarationAt id type.arrayName type length).WellFormed := by
  refine ⟨?_, by simp, ?_⟩
  · intro q hq
    obtain rfl := List.mem_singleton.1 hq
    trivial
  · intro d hd
    obtain rfl := List.mem_singleton.1 hd
    refine ⟨type.arrayName_proper, ?_, by simp⟩
    rintro _ ⟨⟩ _ ⟨⟩
    trivial

namespace Shader

def redeclared (s : Shader) (id : NodeId) (name : String) (type : ScalarType) (length : Nat) :
    Shader :=
  (s.removeUniform name).addDeclaration (arrayDeclarationAt id name type length)

section

variable (s : Shader) (id : NodeId) (name : String) (type : ScalarType) (length : Nat)

theorem redeclare_eq (ids : IdSupply) :
    Job.redeclare name type length s ids =
      (s.redeclared ids.next name type length, ⟨ids.next + 2⟩) := by
  rw [Job.redeclare, Numbered.bind_apply, arrayDeclaration_eq]
  rfl

theorem redeclared_functions : (s.redeclared id name type length).functions = s.functions := by
  rw [redeclared, addDeclaration_functions _ rfl, removeUniform_functions]

theorem redeclared_ids :
    (s.redeclared id name type length).ids.Perm ((id + 1) :: id :: (s.removeUniform name).ids) :=
  addDeclaration_ids _ _

theorem redeclared_wellFormed (h : s.WellFormed) :
    (s.redeclared id type.arrayName type length).WellFormed :=
  addDeclaration_wellFormed (removeUniform_wellFormed h _) (arrayDeclarationAt_wellFormed _ _ _)

end

theorem eq_of_mem_nodes {s : Shader} (hs : s.ids.Nodup) {a b : Node} (ha : a ∈ s.nodes)
    (hb : b ∈ s.nodes) (hid : a.id = b.id) : a = b :=
  List.inj_on_of_nodup_map hs ha hb hid

theorem mem_nodes_redeclared {s : Shader} {id : NodeId} {name : String} {type : ScalarType}
    {length : Nat} {n : Node} (hn : n ∈ (s.removeUniform name).nodes) :
    n ∈ (s.redeclared id name type length).nodes := by
  obtain ⟨d, hd, hn⟩ := List.mem_flatMap.1 hn
  have hd' := (addDeclaration_perm _ (arrayDeclarationAt id name type length)).mem_iff.2
    (List.mem_cons_of_mem _ hd)
  exact List.mem_flatMap.2 ⟨d, hd', hn⟩

theorem removeUniform_expression {s : Shader} (hs : s.ids.Nodup) {name : String} {e : Expr}
    (he : .expression e ∈ s.nodes) (hmem : e.id ∈ (s.removeUniform name).ids) :
    .expression e ∈ (s.removeUniform name).nodes := by
  obtain ⟨n, hn, hnid⟩ := List.mem_map.1 hmem
  obtain ⟨d', hd', hnd'⟩ := List.mem_flatMap.1 hn
  obtain ⟨d, hd, hwithout⟩ := List.mem_filterMap.1 hd'
  rcases withoutDeclarator_nodes hwithout hnd' with hnd | ⟨rfl, hdid⟩
  · obtain rfl := eq_of_mem_nodes hs (List.mem_flatMap.2 ⟨d, hd, hnd⟩) he hnid
    exact hn
  · have hself : Node.declaration d ∈ s.nodes :=
      List.mem_flatMap.2 ⟨d, hd, Node.mem_nodes_self (.declaration d)⟩
    cases eq_of_mem_nodes hs hself he (hdid.symm.trans hnid)

theorem redeclared_expression {s : Shader} (hs : s.ids.Nodup) {id : NodeId}
    (hid : ∀ i ∈ s.ids, i < id) {name : String} {type : ScalarType} {length : Nat} {e : Expr}
    (he : .expression e ∈ s.nodes) (hmem : e.id ∈ (s.redeclared id name type length).ids) :
    .expression e ∈ (s.redeclared id name type length).nodes := by
  have hlt : e.id < id := hid e.id (List.mem_map_of_mem he)
  have hrest : e.id ∈ (s.removeUniform name).ids := by
    have hcases := (redeclared_ids s id name type length).mem_iff.1 hmem
    simp only [List.mem_cons] at hcases
    rcases hcases with h | h | h
    · grind
    · grind
    · exact h
  exact mem_nodes_redeclared (removeUniform_expression hs he hrest)

theorem mem_nodes_of_functions {s : Shader} {d : Declaration} (hd : d ∈ s.functions) {n : Node}
    (hn : n ∈ d.nodes) : n ∈ s.nodes :=
  List.mem_flatMap.2 ⟨d, List.mem_of_mem_filter hd, hn⟩

end Shader

/-- The expression that reads an element, with identities from `id` on. -/
def elementAt (id : NodeId) (name : String) (position : Nat) : Expr :=
  .index (id + 2) (.name id name) (.literal (id + 1) (countLiteral position))

theorem elementExpr_eq (name : String) (position : Nat) (ids : IdSupply) :
    elementExpr name position ids = (elementAt ids.next name position, ⟨ids.next + 3⟩) := rfl

theorem elementAt_operands (node id : NodeId) (type : ScalarType) (position : Nat) :
    (Substitution.single node (elementAt id type.arrayName position)).Operands := by
  intro i e h
  simp only [Substitution.single] at h
  split at h
  · obtain rfl := Option.some.inj h
    exact ⟨⟨type.arrayName_proper, trivial, rfl⟩, rfl⟩
  · cases h

theorem countId_elementAt (x id : NodeId) (name : String) (position : Nat) :
    countId x (elementAt id name position).nodes = if id ≤ x ∧ x < id + 3 then 1 else 0 := by
  have hids : (elementAt id name position).nodes.map Node.id = [id + 2, id, id + 1] := rfl
  rw [countId, hids]
  simp only [List.count_cons, List.count_nil, beq_iff_eq]
  grind

theorem Shader.element_ids {s : Shader} (hs : s.ids.Nodup) {id : NodeId}
    (hid : ∀ i ∈ s.ids, i < id) (node : NodeId) (name : String) (position : Nat) :
    (s.substitute (.single node (elementAt id name position))).ids.Nodup ∧
      ∀ i ∈ (s.substitute (.single node (elementAt id name position))).ids, i < id + 3 := by
  have hold : ∀ x, countId x s.nodes ≤ if x < id then 1 else 0 := by
    intro x
    split
    · exact List.nodup_iff_count_le_one.1 hs x
    · next hx => exact Nat.le_of_eq (List.count_eq_zero.2 fun hmem => hx (hid x hmem))
  have hcount : ∀ x, countId x (s.substitute (.single node (elementAt id name position))).nodes ≤
      if x < id + 3 then 1 else 0 := by
    intro x
    have hone : countId node s.nodes ≤ 1 := List.nodup_iff_count_le_one.1 hs node
    have hbound : countId x (s.substitute (.single node (elementAt id name position))).nodes ≤
        countId x s.nodes + countId node s.nodes * countId x (elementAt id name position).nodes :=
      Shader.countBounded s x
    have hnew := Nat.mul_le_mul_right (countId x (elementAt id name position).nodes) hone
    have hx := hold x
    rw [countId_elementAt] at hbound hnew
    grind
  constructor
  · refine List.nodup_iff_count_le_one.2 fun x => (hcount x).trans ?_
    split <;> omega
  · intro x hx
    have hpos : 0 < countId x (s.substitute (.single node (elementAt id name position))).nodes :=
      List.count_pos_iff.2 hx
    have hle := hcount x
    grind

end ShaderLift
