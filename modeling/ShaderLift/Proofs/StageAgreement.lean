import Mathlib
import ShaderLift.Proofs.Finding

/-!
The stages of a job agree with its metadata. Once a value was promoted, every stage declares the
array of its type once, alone and before all functions, at the length that the metadata give, and
all later steps keep it so.
-/

namespace ShaderLift

theorem ScalarType.arrayName_injective : Function.Injective ScalarType.arrayName := by
  intro a b h
  cases a <;> cases b <;> first | rfl | exact absurd h (by decide)

def Declaration.uniformNames : Declaration → List String
  | globals _ vars => if vars.hasQualifier .uniform then vars.vars.map Declarator.name else []
  | _ => []

theorem Declaration.substitute_isFunction (σ : Substitution) (d : Declaration) :
    (d.substitute σ).isFunction = d.isFunction := by
  cases d <;> rfl

theorem Declaration.substitute_uniformNames (σ : Substitution) (d : Declaration) :
    (d.substitute σ).uniformNames = d.uniformNames := by
  cases d with
  | globals id vars =>
    have hnames : (vars.vars.map (Declarator.substitute σ)).map Declarator.name =
        vars.vars.map Declarator.name := by
      rw [List.map_map]
      rfl
    simp only [substitute, uniformNames, Variables.substitute, Variables.hasQualifier, hnames]
    rfl
  | _ => rfl

namespace Shader

def uniformNames (s : Shader) : List String := s.declarations.flatMap Declaration.uniformNames

theorem countUniforms_eq (s : Shader) (name : String) :
    s.countUniforms name = s.uniformNames.count name := by
  obtain ⟨ds⟩ := s
  simp only [countUniforms, uniformNames, uniformDeclarations]
  induction ds with
  | nil => rfl
  | cons d ds ih =>
    cases d with
    | globals id vars =>
      cases huniform : vars.hasQualifier .uniform with
      | true =>
        have hvars : vars.vars.countP (fun v => v.name = name) =
            (vars.vars.map Declarator.name).count name := by
          rw [List.count, List.countP_map]
          rfl
        simp [huniform, Declaration.uniformNames, ih, hvars]
      | false => simpa [huniform, Declaration.uniformNames] using ih
    | _ => simpa [Declaration.uniformNames] using ih

theorem withoutDeclarator_names (name : String) (d : Declaration) :
    (withoutDeclarator name d).toList.flatMap Declaration.uniformNames =
      d.uniformNames.filter fun x => x ≠ name := by
  cases d with
  | globals id vars =>
    cases huniform : vars.hasQualifier .uniform with
    | true =>
      have hnames : (vars.vars.filter fun v => v.name ≠ name).map Declarator.name =
          (vars.vars.map Declarator.name).filter fun x => x ≠ name := by
        rw [List.filter_map]
        rfl
      simp only [withoutDeclarator, huniform, if_true, Declaration.uniformNames, ← hnames]
      split
      · next hempty =>
        rw [List.isEmpty_iff.1 hempty]
        rfl
      · simp only [Option.toList_some, List.flatMap_singleton, Declaration.uniformNames]
        exact if_pos huniform
    | false => simp [withoutDeclarator, huniform, Declaration.uniformNames]
  | _ => rfl

theorem removeUniform_names (s : Shader) (name : String) :
    (s.removeUniform name).uniformNames = s.uniformNames.filter fun x => x ≠ name := by
  obtain ⟨ds⟩ := s
  simp only [removeUniform, uniformNames]
  induction ds with
  | nil => rfl
  | cons d ds ih =>
    have hd := withoutDeclarator_names name d
    rw [List.flatMap_cons, List.filter_append, ← ih, ← hd, List.filterMap_cons]
    cases withoutDeclarator name d <;> simp

theorem addDeclaration_names (s : Shader) (d : Declaration) :
    (s.addDeclaration d).uniformNames.Perm (d.uniformNames ++ s.uniformNames) := by
  simpa [uniformNames] using (addDeclaration_perm s d).flatMap_right Declaration.uniformNames

theorem substitute_names (σ : Substitution) (s : Shader) :
    (s.substitute σ).uniformNames = s.uniformNames := by
  simp only [uniformNames, substitute, List.flatMap_map, Declaration.substitute_uniformNames]

/-- The only uniform with the array's name is the array, declared on its own and before all
functions. -/
structure DeclaresOnce (s : Shader) (type : ScalarType) (length : Nat) : Prop where
  once : s.countUniforms type.arrayName = 1
  alone : ∃ id before after,
    s.declarations = before ++ arrayDeclarationAt id type.arrayName type length :: after ∧
      ∀ d ∈ before, d.isFunction = false

theorem redeclared_names (s : Shader) (id : NodeId) (type : ScalarType) (length : Nat) :
    (s.redeclared id type.arrayName type length).uniformNames.Perm
      (type.arrayName :: s.uniformNames.filter fun x => x ≠ type.arrayName) := by
  rw [← removeUniform_names]
  exact addDeclaration_names _ _

theorem redeclared_declaresOnce (s : Shader) (id : NodeId) (type : ScalarType) (length : Nat) :
    (s.redeclared id type.arrayName type length).DeclaresOnce type length := by
  constructor
  · rw [countUniforms_eq, (redeclared_names s id type length).count_eq, List.count_cons_self,
      List.count_eq_zero.2 (by simp)]
  · refine ⟨id, _, _, rfl, fun d hd => ?_⟩
    have hpreamble := List.mem_takeWhile_imp hd
    cases d with
    | function i f => cases hpreamble
    | _ => rfl

theorem addDeclaration_before {before after : List Declaration} {d : Declaration}
    (hd : d.isPreamble = false) (new : Declaration) :
    (⟨before ++ d :: after⟩ : Shader).addDeclaration new =
      ⟨((⟨before⟩ : Shader).addDeclaration new).declarations ++ d :: after⟩ := by
  simp only [addDeclaration, mk.injEq]
  induction before with
  | nil => simp [hd]
  | cons b before ih =>
    cases hb : b.isPreamble with
    | true => simpa [hb] using ih
    | false => simp [hb]

theorem DeclaresOnce.redeclared {s : Shader} {type other : ScalarType} {n : Nat}
    (h : s.DeclaresOnce type n) (hother : other ≠ type) (id : NodeId) (length : Nat) :
    (s.redeclared id other.arrayName other length).DeclaresOnce type n := by
  have hname : type.arrayName ≠ other.arrayName := fun heq =>
    hother (ScalarType.arrayName_injective heq).symm
  obtain ⟨honce, i, before, after, hdeclarations, hbefore⟩ := h
  constructor
  · rw [countUniforms_eq] at honce ⊢
    rw [(redeclared_names s id other length).count_eq, List.count_cons_of_ne hname.symm,
      List.count_filter (by simpa using hname), honce]
  · have hkept : withoutDeclarator other.arrayName (arrayDeclarationAt i type.arrayName type n) =
        some (arrayDeclarationAt i type.arrayName type n) := by
      simp [withoutDeclarator, arrayDeclarationAt, Variables.hasQualifier, hname]
    have hremoved : s.removeUniform other.arrayName =
        ⟨before.filterMap (withoutDeclarator other.arrayName) ++
          arrayDeclarationAt i type.arrayName type n ::
            after.filterMap (withoutDeclarator other.arrayName)⟩ := by
      simp [removeUniform, hdeclarations, hkept]
    rw [Shader.redeclared, hremoved, addDeclaration_before rfl]
    refine ⟨i, _, _, rfl, fun d hd => ?_⟩
    rcases List.mem_cons.1 ((addDeclaration_perm _ _).mem_iff.1 hd) with rfl | hd
    · rfl
    · obtain ⟨d', hd', hrest⟩ := List.mem_filterMap.1 hd
      rw [withoutDeclarator_isFunction hrest, hbefore d' hd']

theorem DeclaresOnce.substitute {s : Shader} {type : ScalarType} {n : Nat}
    (h : s.DeclaresOnce type n) {σ : Substitution}
    (hσ : ∀ id, arrayDeclarationAt id type.arrayName type n ∈ s.declarations →
      σ.Spares (arrayDeclarationAt id type.arrayName type n).nodes) :
    (s.substitute σ).DeclaresOnce type n := by
  obtain ⟨honce, i, before, after, hdeclarations, hbefore⟩ := h
  constructor
  · rwa [countUniforms_eq, substitute_names, ← countUniforms_eq]
  · refine ⟨i, before.map (Declaration.substitute σ), after.map (Declaration.substitute σ), ?_, ?_⟩
    · have hspared := Declaration.substitute_spared (hσ i (by simp [hdeclarations]))
      simp [Shader.substitute, hdeclarations, hspared]
    · intro d hd
      obtain ⟨d', hd', rfl⟩ := List.mem_map.1 hd
      rw [Declaration.substitute_isFunction, hbefore d' hd']

end Shader

namespace Job

/-- The metadata hold the array of the type, and every stage declares it at its length. -/
def Agrees (job : Job) (type : ScalarType) : Prop :=
  ∃ values, job.metadata.HasArray type.arrayName type values ∧
    ∀ x ∈ job.stages, x.2.DeclaresOnce type values.length

theorem Agrees.reserves {job after : Job} {type : ScalarType} (h : job.Agrees type)
    (hreserves : job.Reserves after) : after.Agrees type := by
  obtain ⟨values, ⟨r, hr, hrecord⟩, hstages⟩ := h
  refine ⟨values, ⟨r, hreserves.uniforms _ _ hr, hrecord⟩, ?_⟩
  rwa [hreserves.stages]

theorem Declares.agrees {job after : Job} {value : Scalar} {position : Nat} {values : List Scalar}
    (h : job.Declares value position values after) : after.Agrees value.type := by
  refine ⟨values, h.array, fun y hy => ?_⟩
  obtain ⟨s, id, -, -, -, hshader⟩ := h.stages.mem_after hy
  rw [hshader]
  exact Shader.redeclared_declaresOnce s id value.type values.length

/-- Declaring a value of one type leaves the array of the other type as it was. -/
theorem Agrees.declares {job after : Job} {type : ScalarType} (hjob : job.Agrees type)
    {value : Scalar} {position : Nat} {values : List Scalar}
    (h : job.Declares value position values after) : after.Agrees type := by
  by_cases htype : value.type = type
  · exact htype ▸ h.agrees
  · obtain ⟨values', ⟨r, hr, hrecord⟩, hstages⟩ := hjob
    obtain ⟨-, -, -, -, -, -, -, -, hothers⟩ := Metadata.intern_array h.interned
    have hname : type.arrayName ≠ value.type.arrayName := fun heq =>
      htype (ScalarType.arrayName_injective heq).symm
    refine ⟨values', ⟨r, (hothers _ hname).trans hr, hrecord⟩, fun y hy => ?_⟩
    obtain ⟨s, id, hs, -, -, hshader⟩ := h.stages.mem_after hy
    rw [hshader]
    exact (hstages _ hs).redeclared htype id values.length

/-- In the stage of the promotion its node can be in functions only. Nodes that are yet to come are
not meant by it. -/
structure InFunctions (job : Job) (p : Promotion) : Prop where
  old : p.node < job.ids.next
  inside : ∀ s, (p.stage, s) ∈ job.stages → ∀ d ∈ s.declarations, p.node ∈ d.ids → d.isFunction

theorem InFunctions.found {job : Job} (h : job.Sound) {p : Promotion} (hp : p ∈ job.promotions) :
    job.InFunctions p := by
  obtain ⟨s, hs, hps⟩ := mem_promotions hp
  obtain ⟨-, d, hd, v, hv, -⟩ := Shader.mem_promotions hps
  have hnode : p.node ∈ d.ids := List.mem_map_of_mem (f := Node.id) hv
  have hsound := h.shaders _ hs
  refine ⟨hsound.bounded _ (List.mem_map_of_mem (f := Node.id)
    (Shader.mem_nodes_of_functions hd hv)), ?_⟩
  intro t ht d' hd' hnode'
  obtain rfl := shader_unique h.ordered hs ht
  have hnodup := hsound.nodup
  rw [Shader.ids_eq] at hnodup
  obtain rfl := eq_of_mem_flatMap hnodup (List.mem_of_mem_filter hd) hd' hnode hnode'
  exact List.of_mem_filter hd

theorem InFunctions.reserves {job after : Job} {p : Promotion} (h : job.InFunctions p)
    (hreserves : job.Reserves after) : after.InFunctions p := by
  refine ⟨?_, ?_⟩
  · rw [hreserves.ids]
    exact h.old
  · rw [hreserves.stages]
    exact h.inside

theorem InFunctions.declares {job after : Job} {p : Promotion} (h : job.InFunctions p)
    {value : Scalar} {position : Nat} {values : List Scalar}
    (hdeclares : job.Declares value position values after) : after.InFunctions p := by
  refine ⟨Nat.lt_of_lt_of_le h.old hdeclares.supply, fun t ht d hd hnode => ?_⟩
  obtain ⟨s, id, hs, hid, -, rfl⟩ := hdeclares.stages.mem_after ht
  rcases List.mem_cons.1 ((Shader.addDeclaration_perm _ _).mem_iff.1 hd) with rfl | hd
  · rw [arrayDeclarationAt_ids] at hnode
    have hold := h.old
    simp only [List.mem_cons, List.not_mem_nil, or_false] at hnode
    grind
  · obtain ⟨d', hd', hrest⟩ := List.mem_filterMap.1 hd
    rw [Shader.withoutDeclarator_isFunction hrest]
    exact h.inside s hs d' hd' ((Shader.withoutDeclarator_ids hrest).subset hnode)

theorem mem_ids_of_substitute {d : Declaration} {node id i : NodeId} {name : String}
    {position : Nat} (hi : i < id)
    (h : i ∈ (d.substitute (.single node (elementAt id name position))).ids) : i ∈ d.ids := by
  have hbound : countId i (d.substitute (.single node (elementAt id name position))).nodes ≤
      countId i d.nodes + countId node d.nodes * countId i (elementAt id name position).nodes :=
    d.countBounded i
  have hnew : countId i (elementAt id name position).nodes = 0 := by
    rw [countId_elementAt, if_neg (by grind)]
  have hpos : 0 < countId i (d.substitute (.single node (elementAt id name position))).nodes :=
    List.count_pos_iff.2 h
  rw [hnew] at hbound
  exact List.count_pos_iff.1 (Nat.lt_of_lt_of_le hpos hbound)

theorem InFunctions.readElement {job : Job} {p : Promotion} (h : job.InFunctions p)
    (q : Promotion) (position : Nat) : (job.readElement q position).InFunctions p := by
  refine ⟨Nat.lt_of_lt_of_le h.old (Nat.le_add_right _ _), fun t ht d hd hnode => ?_⟩
  obtain ⟨x, hx, heq⟩ := List.mem_map.1 ht
  obtain ⟨hstage, rfl⟩ := Prod.mk.inj heq
  obtain ⟨d', hd', rfl⟩ := List.mem_map.1 hd
  rw [Declaration.substitute_isFunction]
  refine h.inside x.2 (by rwa [← hstage]) d' hd' ?_
  rw [Promotion.substitution] at hnode
  split at hnode
  · exact mem_ids_of_substitute h.old hnode
  · rwa [Declaration.substitute_spared fun _ _ => rfl] at hnode

theorem Agrees.readElement {job : Job} {type : ScalarType} (h : job.Agrees type) {p : Promotion}
    (hp : job.InFunctions p) (position : Nat) : (job.readElement p position).Agrees type := by
  obtain ⟨values, harray, hstages⟩ := h
  refine ⟨values, harray, fun y hy => ?_⟩
  obtain ⟨x, hx, rfl⟩ := List.mem_map.1 hy
  refine (hstages x hx).substitute fun id hd => ?_
  rw [Promotion.substitution]
  split
  · next hstage =>
    refine Substitution.single_spares fun hnode => ?_
    have hfunction := hp.inside x.2 (by rwa [← hstage]) _ hd hnode
    cases hfunction
  · exact fun _ _ => rfl

/-- One step of a run: look for promotions, or apply one of those that were found at some time. -/
inductive Explores : Job × List Promotion → Job × List Promotion → Prop where
  | find {job after : Job} {known found : List Promotion}
      (h : job.findPromotions = (.ok found, after)) : Explores (job, known) (after, known ++ found)
  | apply {job : Job} {known : List Promotion} {p : Promotion} (h : p ∈ known) :
      Explores (job, known) ((job.apply p).2, known)

/-- A sound job, with promotions that are all of nodes in functions. -/
def Explored (x : Job × List Promotion) : Prop :=
  x.1.Sound ∧ ∀ p ∈ x.2, x.1.InFunctions p

theorem InFunctions.apply {job : Job} (hjob : job.Sound) {p : Promotion} (h : job.InFunctions p)
    (q : Promotion) : (job.apply q).2.InFunctions p := by
  refine apply_invariant hjob q (P := fun job => job.InFunctions p) h (fun hdeclares => ?_)
    fun hdeclares => ?_
  · exact (h.declares hdeclares).readElement q _
  · obtain ⟨hold, hinside⟩ := h.declares hdeclares
    exact ⟨Nat.lt_of_lt_of_le hold (Nat.le_add_right _ _), hinside⟩

theorem Explored.step {x y : Job × List Promotion} (h : Explored x) (hstep : Explores x y) :
    Explored y := by
  obtain ⟨hsound, hknown⟩ := h
  cases hstep with
  | find hfind =>
    obtain ⟨rfl, hreserves⟩ := findPromotions_found hfind
    refine ⟨hreserves.sound hsound, fun p hp => ?_⟩
    rcases List.mem_append.1 hp with hp | hp
    · exact (hknown p hp).reserves hreserves
    · exact (InFunctions.found hsound hp).reserves hreserves
  | apply hp => exact ⟨hsound.apply _, fun q hq => (hknown q hq).apply hsound _⟩

theorem Agrees.step {x y : Job × List Promotion} {type : ScalarType} (hx : Explored x)
    (h : x.1.Agrees type) (hstep : Explores x y) : y.1.Agrees type := by
  obtain ⟨hsound, hknown⟩ := hx
  cases hstep with
  | find hfind => exact h.reserves (findPromotions_found hfind).2
  | apply hp =>
    refine apply_invariant hsound _ (P := fun job => job.Agrees type) h (fun hdeclares => ?_)
      fun hdeclares => ?_
    · exact (h.declares hdeclares).readElement ((hknown _ hp).declares hdeclares) _
    · obtain ⟨values, harray, hstages⟩ := h.declares hdeclares
      exact ⟨values, harray, hstages⟩

theorem Explored.run {x y : Job × List Promotion} (h : Explored x)
    (hrun : Relation.ReflTransGen Explores x y) : Explored y := by
  induction hrun with
  | refl => exact h
  | tail _ hstep ih => exact ih.step hstep

theorem Agrees.run {x y : Job × List Promotion} {type : ScalarType} (hx : Explored x)
    (h : x.1.Agrees type) (hrun : Relation.ReflTransGen Explores x y) : y.1.Agrees type := by
  induction hrun with
  | refl => exact h
  | tail hbefore hstep ih => exact ih.step (hx.run hbefore) hstep

/-- From the first value of a type that is promoted on, at every point of a run, every stage has
one uniform with the name of the type's array. It is declared alone, before all functions, and at
the length of the array in the metadata. -/
theorem stages_agree {start job after later : Job} {known known' : List Promotion}
    (hstart : start.Assembled) (hrun : Relation.ReflTransGen Explores (start, []) (job, known))
    {p : Promotion} (hp : p ∈ known) (happly : job.apply p = (.ok (), after))
    (hlater : Relation.ReflTransGen Explores (after, known) (later, known'))
    (hlength : ∀ c, later.metadata.contents p.arrayName = .ok c → c.values.length < 2 ^ 31) :
    ∃ (values : List Scalar) (r : UniformRecord),
      later.metadata.contents p.arrayName = .ok ⟨p.value.type, values⟩ ∧
      later.metadata.uniform? p.arrayName = some r ∧ r.count = some values.length ∧
      r.args.length = values.length ∧
      ∀ stage s, (stage, s) ∈ later.stages → s.countUniforms p.arrayName = 1 ∧
        ∃ (i j : NodeId) (n : Int32) (front back : List Declaration),
          s.declarations = front ++ .globals i ⟨⟨[.uniform], p.value.type.dataType⟩,
            [⟨p.arrayName, some ⟨some (.literal j (.int n))⟩, none⟩]⟩ :: back ∧
          n.toInt = values.length ∧ ∀ d ∈ front, d.isFunction = false := by
  have hexplored : Explored (job, known) :=
    Explored.run ⟨hstart.sound, by simp⟩ hrun
  have hafter : after.Agrees p.value.type := by
    obtain ⟨s, position, values, declared, -, hdeclares, -, rfl⟩ := apply_eq_ok hexplored.1 happly
    exact hdeclares.agrees.readElement ((hexplored.2 p hp).declares hdeclares) position
  have hstep : Explored (after, known) := by
    have h := hexplored.step (.apply hp)
    rwa [happly] at h
  obtain ⟨values, harray, hstages⟩ := hafter.run hstep hlater
  obtain ⟨n, hn, hsize⟩ := countLiteral_eq (hlength _ harray.contents)
  have hcontents := harray.contents
  obtain ⟨r, hr, hcount, hdecode⟩ := harray
  refine ⟨values, r, hcontents, hr, hcount, UniformRecord.decode_length hdecode, ?_⟩
  intro stage s hs
  obtain ⟨honce, id, front, back, hdeclarations, hfront⟩ := hstages _ hs
  simp only [arrayDeclarationAt, hn] at hdeclarations
  exact ⟨honce, id + 1, id, n, front, back, hdeclarations, hsize, hfront⟩

/-- One promotion is applied, then it fails, and then another one adds a second value. -/
theorem sample_stages_agree :
    ∃ found after failed later, sample.findPromotions = (.ok samplePromotions, found) ∧
      found.apply ⟨.fragment, 7, .int 7, 2⟩ = (.ok (), after) ∧
      after.apply ⟨.fragment, 7, .int 7, 2⟩ = (.error (.nodeNotFound 7), failed) ∧
      failed.apply ⟨.fragment, 11, .int 3, 3⟩ = (.ok (), later) ∧
      later.metadata.contents "_GLF_uniform_int_values" = .ok ⟨.int, [.int 7, .int 3]⟩ ∧
      ∃ s, (Stage.vertex, s) ∈ later.stages ∧ s.countUniforms "_GLF_uniform_int_values" = 1 ∧
        ∃ (i j : NodeId) (n : Int32) (front back : List Declaration),
          s.declarations = front ++ .globals i ⟨⟨[.uniform], .int⟩,
            [⟨"_GLF_uniform_int_values", some ⟨some (.literal j (.int n))⟩, none⟩]⟩ :: back ∧
          n.toInt = 2 ∧ ∀ d ∈ front, d.isFunction = false := by
  have hruns : ∃ found after failed later, sample.findPromotions = (.ok samplePromotions, found) ∧
      found.apply ⟨.fragment, 7, .int 7, 2⟩ = (.ok (), after) ∧
      after.apply ⟨.fragment, 7, .int 7, 2⟩ = (.error (.nodeNotFound 7), failed) ∧
      failed.apply ⟨.fragment, 11, .int 3, 3⟩ = (.ok (), later) ∧
      later.metadata.contents "_GLF_uniform_int_values" = .ok ⟨.int, [.int 7, .int 3]⟩ ∧
      ∃ s, (Stage.vertex, s) ∈ later.stages :=
    ⟨_, _, _, _, rfl, rfl, rfl, rfl, rfl, _, List.mem_cons_self⟩
  obtain ⟨found, after, failed, later, hfind, hfirst, hagain, hsecond, hcontents, s, hs⟩ := hruns
  have hrun : Relation.ReflTransGen Explores (sample, []) (found, samplePromotions) :=
    .single (.find hfind)
  have hfailed : Explores (after, samplePromotions) (failed, samplePromotions) := by
    have h : Explores (after, samplePromotions) _ :=
      .apply (p := ⟨.fragment, 7, .int 7, 2⟩) (by decide)
    rwa [hagain] at h
  have hlater : Explores (failed, samplePromotions) (later, samplePromotions) := by
    have h : Explores (failed, samplePromotions) _ :=
      .apply (p := ⟨.fragment, 11, .int 3, 3⟩) (by decide)
    rwa [hsecond] at h
  have hlength : ∀ c, later.metadata.contents "_GLF_uniform_int_values" = .ok c →
      c.values.length < 2 ^ 31 := by
    intro c hc
    obtain rfl := Except.ok.inj (hcontents.symm.trans hc)
    decide
  obtain ⟨values, r, hvalues, -, -, -, hstages⟩ := stages_agree sample_assembled hrun
    (p := ⟨.fragment, 7, .int 7, 2⟩) (by decide) hfirst (.tail (.single hfailed) hlater) hlength
  obtain ⟨-, rfl⟩ := ArrayContents.mk.inj (Except.ok.inj (hcontents.symm.trans hvalues))
  exact ⟨found, after, failed, later, hfind, hfirst, hagain, hsecond, hcontents, s, hs,
    hstages _ s hs⟩

end Job
end ShaderLift
