import Mathlib
import ShaderLift.Proofs.Finding

/-!
What a run of promotions does to the functions of a job. Each applied literal is replaced by an
expression that reads its value from the array of its type, and nothing else changes. An index that
was handed out once reads the same value through all later steps.
-/

namespace ShaderLift

/-- Every value that is read back as it was written stands where it stood. -/
def Metadata.Keeps (m m' : Metadata) : Prop :=
  ∀ (name : String) (type : ScalarType) (values : List Scalar) (i : Nat) (v : Scalar),
    m.contents name = .ok ⟨type, values⟩ → values[i]? = some v → v.Stable →
    ∃ values', m'.contents name = .ok ⟨type, values'⟩ ∧ values'[i]? = some v

theorem Metadata.Keeps.refl (m : Metadata) : m.Keeps m :=
  fun _ _ values _ _ hcontents hv _ => ⟨values, hcontents, hv⟩

theorem Metadata.Keeps.trans {a b c : Metadata} (hab : a.Keeps b) (hbc : b.Keeps c) :
    a.Keeps c := by
  intro name type values i v hcontents hv hstable
  obtain ⟨values', hcontents', hv'⟩ := hab name type values i v hcontents hv hstable
  exact hbc name type values' i v hcontents' hv' hstable

theorem Metadata.intern_keeps {m m' : Metadata} {name : String} {value : Scalar} {position : Nat}
    (h : m.intern name value = (.ok position, m')) : m.Keeps m' := by
  obtain ⟨before, after, hbefore, hafter, -, -, hkept, -, hothers⟩ := intern_array h
  intro other type values i v hcontents hv hstable
  by_cases heq : other = name
  · subst heq
    rw [hbefore] at hcontents
    obtain ⟨rfl, rfl⟩ := ArrayContents.mk.inj (Except.ok.inj hcontents)
    exact ⟨after, hafter.contents, hkept i v hv hstable⟩
  · obtain ⟨r, hr, hdecode⟩ := contents_eq_ok.1 hcontents
    exact ⟨values, contents_eq_ok.2 ⟨r, (hothers other heq).trans hr, hdecode⟩, hv⟩

theorem Scalar.toLiteral_of_ofLiteral? {v : Literal} {x : Scalar}
    (h : Scalar.ofLiteral? v = some x) : x.toLiteral = v := by
  cases v with
  | float y =>
    simp only [ofLiteral?] at h
    split at h
    · exact Option.some.inj h ▸ rfl
    · cases h
  | int y => exact Option.some.inj h ▸ rfl
  | _ => cases h

theorem Promotion.substitution_apply (p : Promotion) (e : Expr) (stage : Stage) (id : NodeId) :
    p.substitution e stage id = if (stage, id) = p.place then some e else none := by
  by_cases hstage : stage = p.stage <;>
    simp [substitution, Substitution.single, place, hstage]

namespace Job

def functions (job : Job) : List (Stage × List Declaration) :=
  job.stages.map fun x => (x.1, x.2.functions)

theorem Redeclared.functions {first last : NodeId} {type : ScalarType} {length : Nat}
    {xs ys : List (Stage × Shader)} (h : Redeclared first last type length xs ys) :
    (ys.map fun y => (y.1, y.2.functions)) = xs.map fun x => (x.1, x.2.functions) := by
  induction h with
  | nil => rfl
  | cons hxy _ ih =>
    obtain ⟨hstage, id, -, -, hshader⟩ := hxy
    rw [List.map_cons, List.map_cons, ih, hstage, hshader, Shader.redeclared_functions]

def substituteFunctions (σ : Stage → Substitution) (stages : List (Stage × List Declaration)) :
    List (Stage × List Declaration) :=
  stages.map fun x => (x.1, x.2.map (Declaration.substitute (σ x.1)))

theorem substituteFunctions_none (stages : List (Stage × List Declaration)) :
    substituteFunctions (fun _ _ => none) stages = stages := by
  refine map_eq_self fun x _ => ?_
  have hsame : x.2.map (Declaration.substitute fun _ => none) = x.2 :=
    map_eq_self fun d _ => Declaration.substitute_spared fun _ _ => rfl
  rw [hsame]

theorem substituteFunctions_twice (σ τ : Stage → Substitution)
    (stages : List (Stage × List Declaration)) :
    substituteFunctions τ (substituteFunctions σ stages) =
      substituteFunctions (fun stage => (σ stage).andThen (τ stage)) stages := by
  simp [substituteFunctions, Function.comp_def, Declaration.substitute_substitute]

theorem Declares.reads {job after : Job} {value : Scalar} {position : Nat} {values : List Scalar}
    (h : job.Declares value position values after) (hstable : value.Stable) :
    values[position]? = some value := by
  obtain ⟨-, read, -, hread, -, -, -, hvalue, -⟩ := Metadata.intern_array h.interned
  have hsame := hread.contents.symm.trans h.array.contents
  obtain ⟨-, rfl⟩ := ArrayContents.mk.inj (Except.ok.inj hsame)
  exact hvalue hstable

theorem apply_functions {job after : Job} (h : job.Sound) {p : Promotion}
    (happly : job.apply p = (.ok (), after)) :
    ∃ id position values, job.ids.next ≤ id ∧
      after.functions = substituteFunctions
        (p.substitution (elementAt id p.arrayName position)) job.functions ∧
      job.metadata.Keeps after.metadata ∧
      after.metadata.contents p.arrayName = .ok ⟨p.value.type, values⟩ ∧
      (p.value.Stable → values[position]? = some p.value) := by
  obtain ⟨s, position, values, declared, -, hdeclares, -, rfl⟩ := apply_eq_ok h happly
  refine ⟨declared.ids.next, position, values, hdeclares.supply, ?_, ?_, ?_, hdeclares.reads⟩
  · have hsame : declared.functions = job.functions := hdeclares.stages.functions
    rw [← hsame, functions, readElement, List.map_map, functions, substituteFunctions, List.map_map]
    refine List.map_congr_left fun x _ => ?_
    simp only [Function.comp_apply, Shader.substitute_functions]
  · exact Metadata.intern_keeps hdeclares.interned
  · exact hdeclares.array.contents

/-- How a run has changed a job: the substitution is for the places of the run and no others, and
what it puts there reads the promoted value at the end of the run. -/
structure Lifts (job : Job) (run : List Promotion) (after : Job) (σ : Stage → Substitution) :
    Prop where
  functions : after.functions = substituteFunctions σ job.functions
  places : ∀ stage id, (σ stage id).isSome ↔ (stage, id) ∈ run.map Promotion.place
  reads : ∀ p ∈ run, ∃ id position values,
    σ p.stage p.node = some (elementAt id p.arrayName position) ∧
      after.metadata.contents p.arrayName = .ok ⟨p.value.type, values⟩ ∧
      values[position]? = some p.value
  keeps : job.metadata.Keeps after.metadata

theorem Lifts.nil (job : Job) : job.Lifts [] job fun _ _ => none :=
  ⟨(substituteFunctions_none _).symm, by simp, by simp, .refl _⟩

/-- The element that was put in first is not touched by what comes later. -/
theorem elementAt_spared {σ : Substitution} {id : NodeId} {name : String} {position : Nat}
    (h : ∀ i, id ≤ i → σ i = none) :
    (elementAt id name position).substitute σ = elementAt id name position := by
  refine Expr.substitute_spared _ fun n hn => h n.id ?_
  have hids : n.id ∈ [id + 2, id, id + 1] := List.mem_map_of_mem (f := Node.id) hn
  simp only [List.mem_cons, List.not_mem_nil, or_false] at hids
  grind

theorem Lifts.cons {job mid after : Job} (h : job.Sound) {p : Promotion} {run : List Promotion}
    (happly : job.apply p = (.ok (), mid)) (hstable : p.value.Stable)
    (hp : p.place ∉ run.map Promotion.place) (hrun : ∀ q ∈ run, q.node < job.ids.next)
    {σ : Stage → Substitution} (hrest : mid.Lifts run after σ) :
    ∃ σ', job.Lifts (p :: run) after σ' := by
  obtain ⟨id, position, values, hid, hfunctions, hkeeps, hcontents, hvalue⟩ :=
    apply_functions h happly
  -- later replacements hit nodes that were there before, so they spare the new element
  have hfresh : ∀ i, id ≤ i → σ p.stage i = none := by
    intro i hi
    refine Option.not_isSome_iff_eq_none.1 fun hsome => ?_
    obtain ⟨q, hq, hplace⟩ := List.mem_map.1 ((hrest.places p.stage i).1 hsome)
    have hnode : q.node = i := congrArg Prod.snd hplace
    have hlt := hrun q hq
    grind
  have hspared : (elementAt id p.arrayName position).substitute (σ p.stage) =
      elementAt id p.arrayName position := elementAt_spared hfresh
  have hboth : ∀ stage i,
      (p.substitution (elementAt id p.arrayName position) stage).andThen (σ stage) i =
        if (stage, i) = p.place then some (elementAt id p.arrayName position) else σ stage i := by
    intro stage i
    rw [Substitution.andThen, Promotion.substitution_apply]
    by_cases hplace : (stage, i) = p.place
    · obtain rfl : stage = p.stage := congrArg Prod.fst hplace
      simp only [if_pos hplace, hspared]
    · simp only [if_neg hplace]
  refine ⟨fun stage =>
    (p.substitution (elementAt id p.arrayName position) stage).andThen (σ stage), ?_, ?_, ?_, ?_⟩
  · rw [hrest.functions, hfunctions, substituteFunctions_twice]
  · intro stage i
    rw [hboth, List.map_cons, List.mem_cons, ← hrest.places]
    split
    · next hplace => simp [hplace]
    · next hplace => simp [hplace]
  · intro q hq
    rw [hboth]
    rcases List.mem_cons.1 hq with rfl | hq
    · obtain ⟨values', hcontents', hread⟩ :=
        hrest.keeps _ _ _ _ _ hcontents (hvalue hstable) hstable
      exact ⟨id, position, values', if_pos rfl, hcontents', hread⟩
    · have hother : (q.stage, q.node) ≠ p.place := fun heq =>
        hp (heq ▸ List.mem_map_of_mem (f := Promotion.place) hq)
      obtain ⟨id', position', values', hreads⟩ := hrest.reads q hq
      exact ⟨id', position', values', by rwa [if_neg hother]⟩
  · exact hkeeps.trans hrest.keeps

theorem applyAll_lifts {job : Job} (h : job.Sound) {run : List Promotion}
    (hplaces : (run.map Promotion.place).Nodup) (hrun : ∀ p ∈ run, p ∈ job.promotions)
    (hstable : ∀ p ∈ run, p.value.Stable) (hok : (job.applyAll run).failure = none) :
    ∃ σ, job.Lifts run (job.applyAll run).job σ := by
  induction run generalizing job with
  | nil => exact ⟨_, .nil job⟩
  | cons p rest ih =>
    obtain ⟨hp, hrest⟩ := List.nodup_cons.1 hplaces
    rcases happly : job.apply p with ⟨result, mid⟩
    cases result with
    | error e => simp [applyAll, happly] at hok
    | ok u =>
      simp only [applyAll, happly] at hok ⊢
      have hsound := h.apply p
      rw [happly] at hsound
      have hlater : ∀ q ∈ rest, q ∈ job.promotions ∧ q.place ≠ p.place := fun q hq =>
        ⟨hrun q (List.mem_cons_of_mem _ hq), fun heq => hp (heq ▸ List.mem_map_of_mem hq)⟩
      have hmid : ∀ q ∈ rest, q ∈ mid.promotions := by
        intro q hq
        rw [apply_promotions h (hrun p List.mem_cons_self) happly]
        exact List.mem_filter.2 ⟨(hlater q hq).1, decide_eq_true (hlater q hq).2⟩
      obtain ⟨σ, hσ⟩ := ih hsound hrest hmid (fun q hq => hstable q (List.mem_cons_of_mem _ hq)) hok
      refine hσ.cons h happly (hstable p List.mem_cons_self) hp fun q hq => ?_
      obtain ⟨s, hs, hqs⟩ := mem_promotions (hlater q hq).1
      exact (h.shaders _ hs).bounded _
        ((Shader.promotions_ids q.stage s).subset (List.mem_map_of_mem hqs))

/-- Promotions change the functions of a job at the places of their literals and nowhere else. At
each of these stands an element of the array of the literal's type, and once all is done the
element has the literal's value. -/
theorem applyAll_preserves_values {job found : Job} {ops run : List Promotion} (h : job.Assembled)
    (hfind : job.findPromotions = (.ok ops, found)) (hrun : run.Nodup) (hops : ∀ p ∈ run, p ∈ ops)
    (hok : (found.applyAll run).failure = none)
    (hstable : ∀ p ∈ run, p.value.type = .float → p.value.Stable)
    (hlength : ∀ (type : ScalarType) (c : ArrayContents),
      (found.applyAll run).job.metadata.contents type.arrayName = .ok c → c.values.length < 2 ^ 31) :
    ∃ σ : Stage → Substitution,
      (found.applyAll run).job.functions = substituteFunctions σ job.functions ∧
      (∀ stage id, (σ stage id).isSome ↔ ∃ p ∈ run, p.stage = stage ∧ p.node = id) ∧
      ∀ p ∈ run,
        (∃ s d, (p.stage, s) ∈ job.stages ∧ d ∈ s.functions ∧
          .expression (.literal p.node p.value.toLiteral) ∈ d.nodes) ∧
        ∃ (i j k : NodeId) (n : Int32) (position : Nat) (values : List Scalar),
          σ p.stage p.node = some (.index i (.name j p.arrayName) (.literal k (.int n))) ∧
          n.toInt = position ∧
          (found.applyAll run).job.metadata.contents p.arrayName = .ok ⟨p.value.type, values⟩ ∧
          values[position]? = some p.value := by
  obtain ⟨rfl, hreserves⟩ := findPromotions_found hfind
  have hsame : found.promotions = job.promotions := by rw [promotions, hreserves.stages, promotions]
  have hsound : found.Sound := hreserves.sound h.sound
  have hplaces : (run.map Promotion.place).Nodup := by
    refine hrun.map_on fun p hp q hq heq => ?_
    exact List.inj_on_of_nodup_map (promotions_nodup h.sound) (hops p hp) (hops q hq) heq
  have hvalues : ∀ p ∈ run, p.value.Stable := by
    intro p hp
    cases hv : p.value with
    | int x => exact Scalar.int_stable x
    | float x => exact hv ▸ hstable p hp (by rw [hv]; rfl)
  obtain ⟨σ, hσ⟩ := applyAll_lifts hsound hplaces (fun p hp => hsame ▸ hops p hp) hvalues hok
  refine ⟨σ, ?_, ?_, fun p hp => ⟨?_, ?_⟩⟩
  · rw [hσ.functions, functions, hreserves.stages, functions]
  · intro stage id
    simp [hσ.places, Promotion.place]
  · obtain ⟨s, hs, hps⟩ := mem_promotions (hops p hp)
    obtain ⟨-, d, hd, v, hv, hvalue⟩ := Shader.mem_promotions hps
    rw [Scalar.toLiteral_of_ofLiteral? hvalue]
    exact ⟨s, d, hs, hd, hv⟩
  · obtain ⟨id, position, values, hreads, hcontents, hvalue⟩ := hσ.reads p hp
    have hlt : position < values.length := (List.getElem?_eq_some_iff.1 hvalue).1
    obtain ⟨n, hn, hposition⟩ := countLiteral_eq (hlt.trans (hlength _ _ hcontents))
    rw [elementAt, hn] at hreads
    exact ⟨_, _, _, n, position, values, hreads, hposition, hcontents, hvalue⟩

/-- The stage declares one array itself, before a default precision. -/
def mixedShader : Shader :=
  ⟨[.globals 0 ⟨⟨[.uniform], .float⟩,
      [⟨"_GLF_uniform_float_values", some ⟨some (.literal 1 (.int 1))⟩, none⟩]⟩,
    .precision 2 .high .float,
    .function 3 ⟨⟨[], .void⟩, "main", [],
      some [.expr 4 (.literal 5 (.int 1)), .expr 6 (.literal 7 (.int 2)),
        .expr 8 (.literal 9 (.float ⟨0x3f800000⟩))]⟩]⟩

/-- Neither array has a binding. -/
def mixed : Job :=
  ⟨[(.fragment, mixedShader)],
    ⟨.ofList [("_GLF_uniform_float_values", .uniform ⟨"glUniform1fv", some 0, [], none, false⟩),
      ("_GLF_uniform_int_values", .uniform ⟨"glUniform1iv", some 0, [], none, false⟩)]⟩, ⟨10⟩⟩

def mixedPromotions : List Promotion :=
  [⟨.fragment, 5, .int 1, 2⟩, ⟨.fragment, 7, .int 2, 2⟩,
    ⟨.fragment, 9, .float ⟨0x3f800000⟩, 2⟩]

theorem mixedShader_assembled (metadata : Metadata) :
    Assembled ⟨[(.fragment, mixedShader)], metadata, ⟨10⟩⟩ := by
  have hname : ProperName "main" ∧ ProperName "_GLF_uniform_float_values" := by
    unfold ProperName
    decide
  have hfloat : (⟨0x3f800000⟩ : Single).isFinite ∧ (⟨0x3f800000⟩ : Single).negative = false := by decide
  have hwf : mixedShader.WellFormed := by
    simp [mixedShader, Shader.WellFormed, Declaration.WellFormed, Function.WellFormed,
      QualifiedType.WellFormed, Variables.WellFormed, Declarator.WellFormed, ArraySuffix.WellFormed,
      Stmt.WellFormedBody, Stmt.WellFormed, Expr.WellFormed, hname, hfloat, Literal.token, Token.Proper,
      Qualifier.WellFormed]
  have hadd := addShader_of_tokens hwf
    (by decide +kernel : (lex ("uniform float _GLF_uniform_float_values[1]; precision highp float; " ++
      "void main() { 1; 2; 1.0; }").toList).tokens.map Prod.fst = _)
    (by decide +kernel) ⟨[], metadata, {}⟩ .fragment
  exact .addShader (.empty metadata) hadd

theorem mixed_assembled : mixed.Assembled := mixedShader_assembled _

theorem mixed_found : mixed.findPromotions = (.ok mixedPromotions, mixed) := rfl

theorem mixed_stable : ∀ p ∈ mixedPromotions, p.value.Stable := by
  unfold Scalar.Stable
  decide +kernel

theorem mixedPromotions_preserve_values :
    ∃ σ, (mixed.applyAll mixedPromotions.reverse).failure = none ∧
      (mixed.applyAll mixedPromotions.reverse).job.functions =
        substituteFunctions σ mixed.functions ∧
      σ .fragment 8 = none ∧
      ∃ (i j k : NodeId) (n : Int32) (position : Nat) (values : List Scalar),
        σ .fragment 9 = some (.index i (.name j "_GLF_uniform_float_values") (.literal k (.int n))) ∧
        n.toInt = position ∧
        (mixed.applyAll mixedPromotions.reverse).job.metadata.contents "_GLF_uniform_float_values" =
          .ok ⟨.float, values⟩ ∧
        values[position]? = some (.float ⟨0x3f800000⟩) := by
  have hok : (mixed.applyAll mixedPromotions.reverse).failure = none := by decide +kernel
  have hint : (mixed.applyAll mixedPromotions.reverse).job.metadata.contents
      ScalarType.int.arrayName = .ok ⟨.int, [.int 2, .int 1]⟩ := by decide +kernel
  have hfloat : (mixed.applyAll mixedPromotions.reverse).job.metadata.contents
      ScalarType.float.arrayName = .ok ⟨.float, [.float ⟨0x3f800000⟩]⟩ := by decide +kernel
  have hlength : ∀ (type : ScalarType) (c : ArrayContents),
      (mixed.applyAll mixedPromotions.reverse).job.metadata.contents type.arrayName = .ok c →
        c.values.length < 2 ^ 31 := by
    intro type c hc
    cases type with
    | int =>
      obtain rfl := Except.ok.inj (hint.symm.trans hc)
      decide
    | float =>
      obtain rfl := Except.ok.inj (hfloat.symm.trans hc)
      decide
  obtain ⟨σ, hfunctions, hplaces, hvalues⟩ := applyAll_preserves_values mixed_assembled mixed_found
    (by decide) (fun p hp => List.mem_reverse.1 hp) hok
    (fun p hp _ => mixed_stable p (List.mem_reverse.1 hp)) hlength
  refine ⟨σ, hok, hfunctions, ?_,
    (hvalues ⟨.fragment, 9, .float ⟨0x3f800000⟩, 2⟩ (by decide)).2⟩
  refine Option.not_isSome_iff_eq_none.1 fun hsome => ?_
  obtain ⟨p, hp, -, hnode⟩ := (hplaces .fragment 8).1 hsome
  revert p
  decide

end Job
end ShaderLift
