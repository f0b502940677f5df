import Mathlib
import ShaderLift.Proofs.ArrayContents
import ShaderLift.Proofs.Lexing
import ShaderLift.Proofs.ParentLinks
import ShaderLift.Proofs.ReaderResults
import ShaderLift.Proofs.UniformArrays

/-!
What applying a promotion does to a job. The job has to be sound: its stages in order, the
identities of a shader different and taken from the supply, and the shaders well formed. Reading
shaders makes such jobs, and promotions keep them so.
-/

namespace ShaderLift

/-- The identities of a shader are different and below `next`. -/
structure Shader.Tracked (s : Shader) (next : NodeId) : Prop where
  nodup : s.ids.Nodup
  bounded : ∀ i ∈ s.ids, i < next

namespace Shader.Tracked

variable {s : Shader} {next : NodeId}

theorem mono (h : s.Tracked next) {later : NodeId} (hle : next ≤ later) : s.Tracked later :=
  ⟨h.nodup, fun i hi => Nat.lt_of_lt_of_le (h.bounded i hi) hle⟩

theorem redeclared (h : s.Tracked next) {id : NodeId} (hid : next ≤ id) (type : ScalarType)
    (length : Nat) : (s.redeclared id type.arrayName type length).Tracked (id + 2) := by
  have hperm := redeclared_ids s id type.arrayName type length
  have hsub := removeUniform_ids s type.arrayName
  have hold : ∀ i ∈ (s.removeUniform type.arrayName).ids, i < id := fun i hi =>
    Nat.lt_of_lt_of_le (h.bounded i (hsub.subset hi)) hid
  refine ⟨hperm.nodup_iff.2 ?_, ?_⟩
  · refine List.nodup_cons.2 ⟨?_, List.nodup_cons.2 ⟨?_, h.nodup.sublist hsub⟩⟩
    · grind
    · grind
  · intro i hi
    have hcases := hperm.mem_iff.1 hi
    simp only [List.mem_cons] at hcases
    grind

theorem element (h : s.Tracked next) (node : NodeId) (name : String) (position : Nat) :
    (s.substitute (.single node (elementAt next name position))).Tracked (next + 3) := by
  obtain ⟨hnodup, hbounded⟩ := Shader.element_ids h.nodup h.bounded node name position
  exact ⟨hnodup, hbounded⟩

end Shader.Tracked

/-- A well formed shader whose identities are different and below `next`. -/
structure Shader.Sound (s : Shader) (next : NodeId) : Prop extends s.Tracked next where
  wellFormed : s.WellFormed

theorem Parsed.ofSource_given {source : String} {s : Shader}
    (h : (Parsed.ofSource source).shader = some s) : s.WellFormed ∧ s.unnumbered = s := by
  have hproper : Grammar.ProperTokens ((lex source.toList).tokens.map Prod.fst) :=
    List.forall_mem_map.2 (lex_proper source.toList)
  exact Shader.ofTokens?_given hproper h

theorem Shader.read_of_parsed {source : String} {s : Shader}
    (h : Parsed.ofSource source = ⟨[], some s⟩) (ids : IdSupply) :
    Shader.read source ids = (.ok (s.number ids).1, (s.number ids).2) := by
  rw [read, h]
  rfl

/-- What is read is the shader of the tokens, with identities from the supply. -/
theorem Shader.read_eq_ok {source : String} {ids ids' : IdSupply} {s : Shader}
    (h : Shader.read source ids = (.ok s, ids')) :
    ∃ t : Shader, t.WellFormed ∧ t.unnumbered = t ∧ t.number ids = (s, ids') := by
  rw [Shader.read] at h
  split at h
  · next t hparsed =>
    obtain ⟨hs, hids⟩ := Prod.mk.inj h
    obtain ⟨hwf, hunnumbered⟩ := Parsed.ofSource_given (congrArg Parsed.shader hparsed)
    exact ⟨t, hwf, hunnumbered, Prod.ext (Except.ok.inj hs) hids⟩
  · cases (Prod.mk.inj h).1

theorem Shader.read_eq_error {source : String} {ids ids' : IdSupply} {r : Rejection}
    (h : Shader.read source ids = (.error r, ids')) : ids' = ids := by
  rw [Shader.read] at h
  split at h
  · cases (Prod.mk.inj h).1
  · exact (Prod.mk.inj h).2.symm

theorem Shader.read_sound {source : String} {ids ids' : IdSupply} {s : Shader}
    (h : Shader.read source ids = (.ok s, ids')) :
    s.Sound ids'.next ∧ ids.next ≤ ids'.next := by
  obtain ⟨t, hwf, hunnumbered, hnumber⟩ := read_eq_ok h
  obtain ⟨hids, hnext⟩ := number_ids hunnumbered ids
  have hnumbered := hwf.number ids
  rw [hnumber] at hids hnext hnumbered
  simp only at hids hnext hnumbered
  refine ⟨⟨⟨?_, ?_⟩, hnumbered⟩, ?_⟩
  · rw [hids]
    exact List.nodup_range'
  · intro i hi
    rw [hids, List.mem_range'_1] at hi
    rw [hnext]
    exact hi.2
  · rw [hnext]
    exact Nat.le_add_right _ _

namespace Job

/-- The stages stand in the order of the pipeline, each of them once. -/
def Ordered (stages : List (Stage × Shader)) : Prop :=
  stages.Pairwise fun x y => x.1.rank < y.1.rank

theorem rank_injective : Function.Injective Stage.rank := by
  intro a b h
  cases a <;> cases b <;> first | rfl | cases h

theorem mem_putStage {stage : Stage} {s : Shader} {stages : List (Stage × Shader)}
    {x : Stage × Shader} (hx : x ∈ putStage stage s stages) : x = (stage, s) ∨ x ∈ stages := by
  induction stages with
  | nil => simpa [putStage] using hx
  | cons y rest ih =>
    obtain ⟨st, t⟩ := y
    simp only [putStage] at hx
    split at hx
    · simpa using hx
    · split at hx
      · rcases List.mem_cons.1 hx with rfl | hx
        · exact .inl rfl
        · exact .inr (List.mem_cons_of_mem _ hx)
      · rcases List.mem_cons.1 hx with rfl | hx
        · exact .inr List.mem_cons_self
        · exact (ih hx).imp_right (List.mem_cons_of_mem _)

theorem putStage_ordered (stage : Stage) (s : Shader) {stages : List (Stage × Shader)}
    (h : Ordered stages) : Ordered (putStage stage s stages) := by
  induction stages with
  | nil => exact List.pairwise_singleton _ _
  | cons y rest ih =>
    obtain ⟨st, t⟩ := y
    obtain ⟨hfirst, hrest⟩ := List.pairwise_cons.1 h
    simp only [putStage]
    split
    · next hlt =>
      refine List.pairwise_cons.2 ⟨?_, h⟩
      intro x hx
      rcases List.mem_cons.1 hx with rfl | hx
      · exact hlt
      · exact Nat.lt_trans hlt (hfirst x hx)
    · next hge =>
      split
      · next heq =>
        subst heq
        exact List.pairwise_cons.2 ⟨hfirst, hrest⟩
      · next hne =>
        refine List.pairwise_cons.2 ⟨?_, ih hrest⟩
        intro x hx
        rcases mem_putStage hx with rfl | hx
        · have hranks : st.rank ≠ stage.rank := fun heq => hne (rank_injective heq).symm
          simp only
          omega
        · exact hfirst x hx

theorem setStage_eq_map {stages : List (Stage × Shader)} (h : Ordered stages) (stage : Stage)
    (new : Shader) :
    setStage stage new stages = stages.map fun x => (x.1, if x.1 = stage then new else x.2) := by
  induction stages with
  | nil => rfl
  | cons y rest ih =>
    obtain ⟨st, t⟩ := y
    obtain ⟨hfirst, hrest⟩ := List.pairwise_cons.1 h
    simp only [setStage]
    by_cases heq : stage = st
    · subst heq
      have hothers : ∀ x ∈ rest, (x.1, if x.1 = stage then new else x.2) = x := by
        intro x hx
        have hne : x.1 ≠ stage := by
          rintro hx1
          exact Nat.lt_irrefl _ (hx1 ▸ hfirst x hx)
        rw [if_neg hne]
      simp [map_eq_self hothers]
    · have hne : ¬st = stage := fun h => heq h.symm
      simp [heq, hne, ih hrest]

theorem setStage_lookup {stages : List (Stage × Shader)} {stage : Stage} {s : Shader}
    (h : stages.lookup stage = some s) : setStage stage s stages = stages := by
  induction stages with
  | nil => rfl
  | cons y rest ih =>
    obtain ⟨st, t⟩ := y
    rw [List.lookup_cons] at h
    by_cases heq : stage = st
    · subst heq
      simp only [beq_self_eq_true, Option.some.injEq] at h
      simp [setStage, h]
    · simp only [beq_false_of_ne heq] at h
      simp [setStage, heq, ih h]

theorem shader?_eq_some {job : Job} (h : Ordered job.stages) {stage : Stage} {s : Shader} :
    job.shader? stage = some s ↔ (stage, s) ∈ job.stages := by
  have hkeys : (job.stages.map Prod.fst).Nodup := by
    refine List.pairwise_map.2 (h.imp fun {x y} hlt heq => ?_)
    rw [heq] at hlt
    exact Nat.lt_irrefl _ hlt
  constructor
  · intro hlookup
    obtain ⟨before, after, hsplit, -⟩ := List.lookup_eq_some_iff.1 hlookup
    simp [hsplit]
  · exact lookup_of_mem hkeys

theorem shader_unique {job : Job} (h : Ordered job.stages) {stage : Stage} {s t : Shader}
    (hs : (stage, s) ∈ job.stages) (ht : (stage, t) ∈ job.stages) : s = t := by
  rw [← shader?_eq_some h] at hs ht
  exact Option.some.inj (hs.symm.trans ht)

/-- The stages are in order, and the identities of each shader are different and from the supply. -/
structure Tracked (job : Job) : Prop where
  ordered : Ordered job.stages
  shaders : ∀ x ∈ job.stages, x.2.Tracked job.ids.next

structure Sound (job : Job) : Prop extends job.Tracked where
  wellFormed : ∀ x ∈ job.stages, x.2.WellFormed

theorem addShader_eq_ok {job after : Job} {stage : Stage} {source : String} :
    job.addShader stage source = (.ok (), after) ↔ ∃ s ids,
      Shader.read source job.ids = (.ok s, ids) ∧
      after = { job with stages := putStage stage s job.stages, ids } := by
  rw [addShader]
  rcases Shader.read source job.ids with ⟨r | s, ids⟩
  · simp
  · simp [eq_comm]

theorem addShader_eq_error {job after : Job} {stage : Stage} {source : String} {r : Rejection}
    (h : job.addShader stage source = (.error r, after)) : after = job := by
  rw [addShader] at h
  split at h
  · cases (Prod.mk.inj h).1
  · next hread =>
    obtain ⟨-, rfl⟩ := Prod.mk.inj h
    rw [Shader.read_eq_error hread]

theorem Sound.addShader {job after : Job} (h : job.Sound) {stage : Stage} {source : String}
    {outcome : Except Rejection Unit} (hadd : job.addShader stage source = (outcome, after)) :
    after.Sound := by
  cases outcome with
  | error r =>
    obtain rfl := addShader_eq_error hadd
    exact h
  | ok u =>
    obtain ⟨s, ids, hread, rfl⟩ := addShader_eq_ok.1 hadd
    obtain ⟨hs, hle⟩ := Shader.read_sound hread
    refine ⟨⟨putStage_ordered stage s h.ordered, fun x hx => ?_⟩, fun x hx => ?_⟩
    · rcases mem_putStage hx with rfl | hx
      · exact hs.toTracked
      · exact (h.shaders x hx).mono hle
    · rcases mem_putStage hx with rfl | hx
      · exact hs.wellFormed
      · exact h.wellFormed x hx

/-- Whether a promotion names an expression of a shader of the job. -/
def Finds (job : Job) (p : Promotion) (s : Shader) : Prop :=
  (p.stage, s) ∈ job.stages ∧ ∃ e, .expression e ∈ s.nodes ∧ e.id = p.node

theorem checkPlace_eq_ok {job : Job} (h : job.Tracked) {p : Promotion} :
    job.checkPlace p = .ok () ↔ ∃ s, job.Finds p s := by
  cases hlookup : job.shader? p.stage with
  | none =>
    have hmissing : ¬∃ s, job.Finds p s := by
      rintro ⟨s, hs, -⟩
      rw [(shader?_eq_some h.ordered).2 hs] at hlookup
      cases hlookup
    simp [checkPlace, hlookup, hmissing]
  | some s =>
    have hs := (shader?_eq_some h.ordered).1 hlookup
    have hnodup := (h.shaders _ hs).nodup
    have hfinds : (∃ s, job.Finds p s) ↔ ∃ e, .expression e ∈ s.nodes ∧ e.id = p.node := by
      constructor
      · rintro ⟨t, ht, he⟩
        rw [(shader?_eq_some h.ordered).2 ht] at hlookup
        obtain rfl := Option.some.inj hlookup
        exact he
      · exact fun he => ⟨s, hs, he⟩
    rw [hfinds]
    simp only [checkPlace, hlookup]
    constructor
    · intro hok
      split at hok
      · cases hok
      · split at hok
        · cases hok
        · next hfind =>
          obtain ⟨e, he⟩ := Option.ne_none_iff_exists'.1 (by simpa using hfind)
          exact ⟨e, (Shader.findExpr?_eq_some hnodup).1 he⟩
    · rintro ⟨e, he, hid⟩
      obtain ⟨v, hv, hnode⟩ := (Shader.mem_nodes_iff .backward).1 he
      have hlink := ParentIndex.link?_of_mem hnodup hv
      have hvid : v.node.id = p.node := by rw [hnode, ← hid]; rfl
      rw [hvid] at hlink
      simp [hlink, (Shader.findExpr?_eq_some hnodup).2 ⟨he, hid⟩]

/-- Every stage declares the array anew, with identities between `first` and `last`. -/
def Redeclared (first last : NodeId) (type : ScalarType) (length : Nat) :
    List (Stage × Shader) → List (Stage × Shader) → Prop :=
  List.Forall₂ fun x y => y.1 = x.1 ∧ ∃ id, first ≤ id ∧ id + 2 ≤ last ∧
    y.2 = x.2.redeclared id type.arrayName type length

theorem Redeclared.mono {first first' last : NodeId} {type : ScalarType} {length : Nat}
    {xs ys : List (Stage × Shader)} (hle : first' ≤ first)
    (h : Redeclared first last type length xs ys) : Redeclared first' last type length xs ys :=
  h.imp fun _ _ ⟨hstage, id, hfirst, hrest⟩ => ⟨hstage, id, Nat.le_trans hle hfirst, hrest⟩

theorem redeclareAll_cons (name : String) (type : ScalarType) (length : Nat) (x : Stage × Shader)
    (rest : List (Stage × Shader)) (ids : IdSupply) :
    redeclareAll name type length (x :: rest) ids =
      ((x.1, x.2.redeclared ids.next name type length) ::
        (redeclareAll name type length rest ⟨ids.next + 2⟩).1,
        (redeclareAll name type length rest ⟨ids.next + 2⟩).2) := by
  simp only [redeclareAll, List.mapM_cons, Numbered.bind_apply, Shader.redeclare_eq]
  rfl

theorem redeclareAll_redeclared (type : ScalarType) (length : Nat) (stages : List (Stage × Shader))
    (ids : IdSupply) :
    ids.next ≤ (redeclareAll type.arrayName type length stages ids).2.next ∧
      Redeclared ids.next (redeclareAll type.arrayName type length stages ids).2.next type length
        stages (redeclareAll type.arrayName type length stages ids).1 := by
  induction stages generalizing ids with
  | nil => exact ⟨Nat.le_refl _, .nil⟩
  | cons x rest ih =>
    obtain ⟨hle, hrest⟩ := ih ⟨ids.next + 2⟩
    rw [redeclareAll_cons]
    exact ⟨Nat.le_trans (Nat.le_add_right _ _) hle,
      .cons ⟨rfl, ids.next, Nat.le_refl _, hle, rfl⟩ (hrest.mono (Nat.le_add_right _ _))⟩

theorem Redeclared.stages_eq {first last : NodeId} {type : ScalarType} {length : Nat}
    {xs ys : List (Stage × Shader)} (h : Redeclared first last type length xs ys) :
    ys.map Prod.fst = xs.map Prod.fst := by
  induction h with
  | nil => rfl
  | cons hxy _ ih => rw [List.map_cons, List.map_cons, hxy.1, ih]

theorem Redeclared.mem {first last : NodeId} {type : ScalarType} {length : Nat}
    {xs ys : List (Stage × Shader)} (h : Redeclared first last type length xs ys)
    {x : Stage × Shader} (hx : x ∈ xs) : ∃ id, first ≤ id ∧ id + 2 ≤ last ∧
      (x.1, x.2.redeclared id type.arrayName type length) ∈ ys := by
  induction h with
  | nil => simp at hx
  | @cons x' y' xs ys hxy _ ih =>
    rcases List.mem_cons.1 hx with rfl | hx
    · obtain ⟨hstage, id, hfirst, hlast, hshader⟩ := hxy
      exact ⟨id, hfirst, hlast, by simp [← hstage, ← hshader]⟩
    · obtain ⟨id, hfirst, hlast, hmem⟩ := ih hx
      exact ⟨id, hfirst, hlast, List.mem_cons_of_mem _ hmem⟩

theorem Redeclared.mem_after {first last : NodeId} {type : ScalarType} {length : Nat}
    {xs ys : List (Stage × Shader)} (h : Redeclared first last type length xs ys)
    {y : Stage × Shader} (hy : y ∈ ys) : ∃ s id, (y.1, s) ∈ xs ∧ first ≤ id ∧ id + 2 ≤ last ∧
      y.2 = s.redeclared id type.arrayName type length := by
  induction h with
  | nil => simp at hy
  | @cons x' y' xs ys hxy _ ih =>
    rcases List.mem_cons.1 hy with rfl | hy
    · obtain ⟨hstage, id, hfirst, hlast, hshader⟩ := hxy
      exact ⟨x'.2, id, by simp [hstage], hfirst, hlast, hshader⟩
    · obtain ⟨s, id, hs, hid⟩ := ih hy
      exact ⟨s, id, List.mem_cons_of_mem _ hs, hid⟩

theorem ordered_iff (stages : List (Stage × Shader)) :
    Ordered stages ↔ (stages.map Prod.fst).Pairwise fun a b => a.rank < b.rank := by
  rw [Ordered, List.pairwise_map]

/-- A value is interned at a position, and every stage declares its array at the new length. -/
structure Declares (job : Job) (value : Scalar) (position : Nat) (values : List Scalar)
    (after : Job) : Prop where
  interned : job.metadata.intern value.type.arrayName value = (.ok position, after.metadata)
  array : after.metadata.HasArray value.type.arrayName value.type values
  position_lt : position < values.length
  supply : job.ids.next ≤ after.ids.next
  declared : redeclareAll value.type.arrayName value.type values.length job.stages job.ids =
    (after.stages, after.ids)
  stages : Redeclared job.ids.next after.ids.next value.type values.length job.stages after.stages

theorem declareValue_error {job : Job} {value : Scalar} {e : Fault} {metadata : Metadata}
    (h : job.metadata.intern value.type.arrayName value = (.error e, metadata)) :
    job.declareValue value = (.error e, job) := by
  obtain ⟨-, rfl⟩ := Metadata.intern_eq_error.1 h
  simp only [declareValue, h]

theorem declareValue_ok {job : Job} {value : Scalar} {position : Nat} {metadata : Metadata}
    (h : job.metadata.intern value.type.arrayName value = (.ok position, metadata)) :
    ∃ values after, job.Declares value position values after ∧
      job.declareValue value = (.ok position, after) := by
  obtain ⟨-, values, -, harray, -, hposition, -⟩ := Metadata.intern_array h
  obtain ⟨hle, hstages⟩ := redeclareAll_redeclared value.type values.length job.stages job.ids
  refine ⟨values, ⟨_, metadata, _⟩, ⟨h, harray, hposition, hle, rfl, hstages⟩, ?_⟩
  simp only [declareValue, h, harray.contents]
  rfl

theorem Declares.tracked {job after : Job} {value : Scalar} {position : Nat} {values : List Scalar}
    (hjob : job.Tracked) (h : job.Declares value position values after) : after.Tracked := by
  constructor
  · have hordered := (ordered_iff _).1 hjob.ordered
    rw [← h.stages.stages_eq] at hordered
    exact (ordered_iff _).2 hordered
  · intro y hy
    obtain ⟨s, id, hs, hfirst, hlast, hshader⟩ := h.stages.mem_after hy
    rw [hshader]
    exact ((hjob.shaders _ hs).redeclared hfirst value.type values.length).mono hlast

theorem Declares.sound {job after : Job} {value : Scalar} {position : Nat} {values : List Scalar}
    (hjob : job.Sound) (h : job.Declares value position values after) : after.Sound := by
  refine ⟨h.tracked hjob.toTracked, fun y hy => ?_⟩
  obtain ⟨s, id, hs, -, -, hshader⟩ := h.stages.mem_after hy
  rw [hshader]
  exact Shader.redeclared_wellFormed s id value.type values.length (hjob.wellFormed _ hs)

end Job

/-- What a promotion puts into the shader of a stage. -/
def Promotion.substitution (p : Promotion) (element : Expr) (stage : Stage) : Substitution :=
  if stage = p.stage then .single p.node element else fun _ => none

namespace Job

/-- The job with an element read in the place of the literal that a promotion names. -/
def readElement (job : Job) (p : Promotion) (position : Nat) : Job :=
  ⟨job.stages.map fun x =>
      (x.1, x.2.substitute (p.substitution (elementAt job.ids.next p.arrayName position) x.1)),
    job.metadata, ⟨job.ids.next + 3⟩⟩

theorem readElement_tracked {job : Job} (h : job.Tracked) (p : Promotion) (position : Nat) :
    (job.readElement p position).Tracked := by
  constructor
  · refine (ordered_iff _).2 ?_
    rw [readElement, List.map_map]
    exact (ordered_iff _).1 h.ordered
  · intro y hy
    obtain ⟨x, hx, rfl⟩ := List.mem_map.1 hy
    have hs := h.shaders x hx
    simp only [Promotion.substitution]
    split
    · exact hs.element p.node p.arrayName position
    · rw [Shader.substitute_spared fun _ _ => rfl]
      exact hs.mono (Nat.le_add_right _ _)

theorem readElement_sound {job : Job} (h : job.Sound) (p : Promotion) (position : Nat) :
    (job.readElement p position).Sound := by
  refine ⟨readElement_tracked h.toTracked p position, fun y hy => ?_⟩
  obtain ⟨x, hx, rfl⟩ := List.mem_map.1 hy
  have hwf := h.wellFormed x hx
  simp only [Promotion.substitution]
  split
  · exact Shader.substitute_wellFormed (elementAt_operands _ _ p.value.type _) hwf
  · rwa [Shader.substitute_spared fun _ _ => rfl]

theorem replaceNode_eq {job : Job} (h : job.Tracked) {p : Promotion} {s : Shader}
    (hs : (p.stage, s) ∈ job.stages) {e : Expr} (he : .expression e ∈ s.nodes)
    (hid : e.id = p.node) (element : Expr) :
    job.replaceNode p.stage p.node element =
      (.ok (), { job with stages := job.stages.map fun x =>
        (x.1, x.2.substitute (p.substitution element x.1)) }) := by
  have hreplace := ParentIndex.replace_expression (h.shaders _ hs).nodup he element
  rw [hid] at hreplace
  have hstages : setStage p.stage (s.substitute (.single p.node element)) job.stages =
      job.stages.map fun x => (x.1, x.2.substitute (p.substitution element x.1)) := by
    rw [setStage_eq_map h.ordered]
    refine List.map_congr_left fun x hx => ?_
    by_cases hx1 : x.1 = p.stage
    · have hxs : x.2 = s := shader_unique h.ordered (hx1 ▸ hx) hs
      simp [Promotion.substitution, hx1, hxs]
    · rw [if_neg hx1, Promotion.substitution, if_neg hx1, Shader.substitute_spared fun _ _ => rfl]
  simp only [replaceNode, (shader?_eq_some h.ordered).2 hs, hreplace, ← hstages]
  rfl

theorem replaceNode_missing {job : Job} (h : job.Tracked) {p : Promotion} {s : Shader}
    (hs : (p.stage, s) ∈ job.stages) (hid : p.node ∉ s.ids) (element : Expr) :
    job.replaceNode p.stage p.node element = (.error (.nodeNotFound p.node), job) := by
  have hlookup := (shader?_eq_some h.ordered).2 hs
  simp only [replaceNode, hlookup, ParentIndex.replace_missing hid]
  rw [setStage_lookup hlookup]
  rfl

/-- What can come of applying a promotion. Either it is refused and nothing changes, or its value
is declared. Then the place of the literal is still there, unless it was in the old declaration. -/
def Outcome (job : Job) (p : Promotion) : Prop :=
  (∃ e, job.apply p = (.error e, job) ∧
    ∀ s, job.Finds p s → ∀ position, (job.metadata.intern p.arrayName p.value).1 ≠ .ok position) ∨
  ∃ s position values after, job.Finds p s ∧ job.Declares p.value position values after ∧
    (p.node ∈ (s.removeUniform p.arrayName).ids ∧
        job.apply p = (.ok (), after.readElement p position) ∨
      p.node ∉ (s.removeUniform p.arrayName).ids ∧
        job.apply p = (.error (.nodeNotFound p.node),
          { after with ids := ⟨after.ids.next + 3⟩ }))

theorem Tracked.outcome {job : Job} (h : job.Tracked) (p : Promotion) : job.Outcome p := by
  cases hplace : job.checkPlace p with
  | error e =>
    refine .inl ⟨e, by simp only [apply, hplace], fun s hs => ?_⟩
    rw [(checkPlace_eq_ok h).2 ⟨s, hs⟩] at hplace
    cases hplace
  | ok u =>
    obtain ⟨s, hs⟩ := (checkPlace_eq_ok h).1 hplace
    rcases hintern : job.metadata.intern p.arrayName p.value with ⟨e | position, metadata⟩
    · refine .inl ⟨e, ?_, fun _ _ _ hr => by cases (congrArg Prod.fst hintern).symm.trans hr⟩
      simp only [apply, hplace, declareValue_error hintern]
    · obtain ⟨values, after, hafter, hdeclare⟩ := declareValue_ok hintern
      refine .inr ⟨s, position, values, after, hs, hafter, ?_⟩
      obtain ⟨hstage, e, he, hid⟩ := hs
      obtain ⟨id, hfirst, hlast, hmem⟩ := hafter.stages.mem hstage
      have htracked := hafter.tracked h
      have hnumbered : ({ after with ids := ⟨after.ids.next + 3⟩ } : Job).Tracked :=
        ⟨htracked.ordered, fun x hx => (htracked.shaders x hx).mono (Nat.le_add_right _ _)⟩
      have hold := (h.shaders _ hstage)
      have hids := Shader.redeclared_ids s id p.arrayName p.value.type values.length
      have hlt : p.node < id :=
        Nat.lt_of_lt_of_le (hid ▸ hold.bounded e.id (List.mem_map_of_mem he)) hfirst
      by_cases hnode : p.node ∈ (s.removeUniform p.arrayName).ids
      · have hthere : e.id ∈ (s.redeclared id p.arrayName p.value.type values.length).ids :=
          hids.mem_iff.2 (List.mem_cons_of_mem _ (List.mem_cons_of_mem _ (hid ▸ hnode)))
        have he' := Shader.redeclared_expression hold.nodup
          (fun i hi => Nat.lt_of_lt_of_le (hold.bounded i hi) hfirst) he hthere
        refine .inl ⟨hnode, ?_⟩
        simp only [apply, hplace, hdeclare, elementExpr_eq,
          replaceNode_eq hnumbered hmem he' hid]
        rfl
      · have hgone : p.node ∉ (s.redeclared id p.arrayName p.value.type values.length).ids := by
          intro hthere
          have hcases := hids.mem_iff.1 hthere
          simp only [List.mem_cons, hnode, or_false] at hcases
          grind
        refine .inr ⟨hnode, ?_⟩
        simp only [apply, hplace, hdeclare, elementExpr_eq,
          replaceNode_missing hnumbered hmem hgone]

theorem apply_cases {job : Job} (h : job.Sound) (p : Promotion) : job.Outcome p :=
  h.toTracked.outcome p

/-- The value of a promotion is interned, and its element is read. -/
def Promotes (job : Job) (p : Promotion) (after : Job) : Prop :=
  ∃ s position values declared, job.Finds p s ∧ job.Declares p.value position values declared ∧
    p.node ∈ (s.removeUniform p.arrayName).ids ∧ after = declared.readElement p position

theorem Outcome.promotes {job after : Job} {p : Promotion} (h : job.Outcome p)
    (happly : job.apply p = (.ok (), after)) : job.Promotes p after := by
  rcases h with ⟨e, herror, -⟩ | ⟨s, position, values, declared, hs, hdeclares, hcases⟩
  · rw [herror] at happly
    cases happly
  · rcases hcases with ⟨hnode, hok⟩ | ⟨-, herror⟩
    · rw [hok] at happly
      exact ⟨s, position, values, declared, hs, hdeclares, hnode, (Prod.mk.inj happly).2.symm⟩
    · rw [herror] at happly
      cases happly

theorem apply_eq_ok {job after : Job} (h : job.Sound) {p : Promotion}
    (happly : job.apply p = (.ok (), after)) : job.Promotes p after :=
  (apply_cases h p).promotes happly

/-- What holds of the job before, and of what comes of declaring the value, holds afterwards. -/
theorem apply_invariant {job : Job} (h : job.Sound) (p : Promotion) {P : Job → Prop}
    (hsame : P job)
    (hread : ∀ {position : Nat} {values : List Scalar} {declared : Job},
      job.Declares p.value position values declared → P (declared.readElement p position))
    (hgone : ∀ {position : Nat} {values : List Scalar} {declared : Job},
      job.Declares p.value position values declared →
        P { declared with ids := ⟨declared.ids.next + 3⟩ }) : P (job.apply p).2 := by
  rcases apply_cases h p with ⟨e, happly, -⟩ | ⟨s, position, values, after, -, hafter, hcases⟩
  · rwa [happly]
  · rcases hcases with ⟨-, happly⟩ | ⟨-, happly⟩
    · rw [happly]
      exact hread hafter
    · rw [happly]
      exact hgone hafter

theorem Sound.apply {job : Job} (h : job.Sound) (p : Promotion) : (job.apply p).2.Sound := by
  refine apply_invariant h p h (fun hdeclares => ?_) fun hdeclares => ?_
  · exact readElement_sound (hdeclares.sound h) p _
  · have hsound := hdeclares.sound h
    exact ⟨⟨hsound.ordered, fun x hx => (hsound.shaders x hx).mono (Nat.le_add_right _ _)⟩,
      hsound.wellFormed⟩

/-- The job with more uniforms in its metadata. -/
structure Reserves (job after : Job) : Prop where
  stages : after.stages = job.stages
  ids : after.ids = job.ids
  uniforms : ∀ name r, job.metadata.uniform? name = some r →
    after.metadata.uniform? name = some r

theorem Reserves.refl (job : Job) : job.Reserves job := ⟨rfl, rfl, fun _ _ h => h⟩

theorem Reserves.trans {a b c : Job} (hab : a.Reserves b) (hbc : b.Reserves c) : a.Reserves c :=
  ⟨hbc.stages.trans hab.stages, hbc.ids.trans hab.ids,
    fun name r h => hbc.uniforms name r (hab.uniforms name r h)⟩

theorem Reserves.sound {job after : Job} (hjob : job.Sound) (h : job.Reserves after) :
    after.Sound := by
  obtain ⟨stages, metadata, ids⟩ := after
  obtain ⟨rfl, rfl, -⟩ := h
  exact ⟨⟨hjob.ordered, hjob.shaders⟩, hjob.wellFormed⟩

theorem reserveArray_eq_ok {job after : Job} {type : ScalarType} :
    job.reserveArray type = (.ok (), after) ↔ ∃ metadata,
      job.metadata.reserve type.arrayName type = (.ok (), metadata) ∧
      after = { job with metadata } := by
  rw [reserveArray]
  rcases job.metadata.reserve type.arrayName type with ⟨e | u, metadata⟩
  · simp
  · simp [eq_comm]

theorem reserveArray_reserves (job : Job) (type : ScalarType) :
    job.Reserves (job.reserveArray type).2 :=
  ⟨rfl, rfl, fun _ _ hr => Metadata.reserve_uniform? rfl hr⟩

theorem reserveArrays_reserves (job : Job) (ps : List Promotion) :
    job.Reserves (job.reserveArrays ps).2 := by
  induction ps generalizing job with
  | nil => exact .refl _
  | cons p ps ih =>
    have hfirst := job.reserveArray_reserves p.value.type
    rw [reserveArrays]
    split
    · next hreserve => rwa [hreserve] at hfirst
    · next next hreserve =>
      rw [hreserve] at hfirst
      exact hfirst.trans (ih next)

theorem reserveArrays_ok {job after : Job} {ps : List Promotion}
    (h : job.reserveArrays ps = (.ok (), after)) : job.Reserves after := by
  have hreserves := job.reserveArrays_reserves ps
  rwa [h] at hreserves

theorem reserveArrays_cons_ok {job after : Job} {p : Promotion} {ps : List Promotion} :
    job.reserveArrays (p :: ps) = (.ok (), after) ↔ ∃ next,
      job.reserveArray p.value.type = (.ok (), next) ∧ next.reserveArrays ps = (.ok (), after) := by
  rw [reserveArrays]
  rcases job.reserveArray p.value.type with ⟨e | u, next⟩
  · simp
  · simp

theorem findPromotions_reserves (job : Job) : job.Reserves job.findPromotions.2 := by
  have h := job.reserveArrays_reserves job.promotions
  rw [findPromotions]
  split
  · next hreserve => rwa [hreserve] at h
  · next hreserve => rwa [hreserve] at h

theorem findPromotions_eq_ok {job after : Job} {found : List Promotion} :
    job.findPromotions = (.ok found, after) ↔
      found = job.promotions ∧ job.reserveArrays job.promotions = (.ok (), after) := by
  rw [findPromotions]
  rcases job.reserveArrays job.promotions with ⟨e | u, reserved⟩
  · simp
  · simp [eq_comm]

theorem findPromotions_found {job after : Job} {found : List Promotion}
    (h : job.findPromotions = (.ok found, after)) :
    found = job.promotions ∧ job.Reserves after := by
  have hreserves := job.findPromotions_reserves
  rw [h] at hreserves
  exact ⟨(findPromotions_eq_ok.1 h).1, hreserves⟩

theorem newPromotion_reserves (job : Job) (stage : Stage) (node : NodeId) (literal : Literal)
    (depth : Nat) : job.Reserves (job.newPromotion stage node literal depth).2 := by
  rw [newPromotion]
  split
  · exact .refl _
  · next value _ =>
    have h := job.reserveArray_reserves value.type
    split
    · next hreserve => rwa [hreserve] at h
    · next hreserve => rwa [hreserve] at h

/-- A job as it is after its shaders were read, over any metadata. -/
inductive Assembled : Job → Prop where
  | empty (metadata : Metadata) : Assembled ⟨[], metadata, {}⟩
  | addShader {job after : Job} {stage : Stage} {source : String} {outcome : Except Rejection Unit}
      (h : Assembled job) (hadd : job.addShader stage source = (outcome, after)) : Assembled after

theorem Assembled.sound {job : Job} (h : job.Assembled) : job.Sound := by
  induction h with
  | empty metadata => exact ⟨⟨List.Pairwise.nil, by simp⟩, by simp⟩
  | addShader _ hadd ih => exact ih.addShader hadd

/-- A job after any history of reading shaders, looking for promotions and applying them, with or
without success. -/
inductive Reachable : Job → Prop where
  | assembled {job : Job} (h : job.Assembled) : Reachable job
  | addShader {job after : Job} {stage : Stage} {source : String} {outcome : Except Rejection Unit}
      (h : Reachable job) (hadd : job.addShader stage source = (outcome, after)) : Reachable after
  | find {job after : Job} {outcome : Except Fault (List Promotion)} (h : Reachable job)
      (hfind : job.findPromotions = (outcome, after)) : Reachable after
  | new {job after : Job} {stage : Stage} {node : NodeId} {literal : Literal} {depth : Nat}
      {outcome : Except Fault Promotion} (h : Reachable job)
      (hnew : job.newPromotion stage node literal depth = (outcome, after)) : Reachable after
  | apply {job : Job} (h : Reachable job) (p : Promotion) : Reachable (job.apply p).2

theorem Reachable.sound {job : Job} (h : job.Reachable) : job.Sound := by
  induction h with
  | assembled h => exact h.sound
  | addShader _ hadd ih => exact ih.addShader hadd
  | @find job after outcome _ hfind ih =>
    have hreserves := job.findPromotions_reserves
    rw [hfind] at hreserves
    exact hreserves.sound ih
  | @new job after stage node literal depth outcome _ hnew ih =>
    have hreserves := job.newPromotion_reserves stage node literal depth
    rw [hnew] at hreserves
    exact hreserves.sound ih
  | apply _ p ih => exact ih.apply p

end Job

end ShaderLift
