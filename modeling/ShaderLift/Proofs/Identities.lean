import Mathlib
import ShaderLift.Proofs.JobSteps

/-!
The identities of a job over all that can be asked of it. Every identity is handed out once: it is
in one place of one stage, or it is gone and does not come back.
-/

namespace ShaderLift

namespace Job

/-- What can be asked of a job. -/
inductive Request where
  | add (stage : Stage) (source : String)
  | find
  | new (stage : Stage) (node : NodeId) (literal : Literal) (depth : Nat)
  | apply (p : Promotion)

/-- The job that a request leaves, whether it is met or refused. -/
def serve (job : Job) : Request → Job
  | .add stage source => (job.addShader stage source).2
  | .find => job.findPromotions.2
  | .new stage node literal depth => (job.newPromotion stage node literal depth).2
  | .apply p => (job.apply p).2

def serveAll (job : Job) (requests : List Request) : Job := requests.foldl serve job

theorem Reachable.serve {job : Job} (h : job.Reachable) (request : Request) :
    (job.serve request).Reachable := by
  cases request with
  | add stage source => exact h.addShader rfl
  | find => exact h.find rfl
  | new stage node literal depth => exact h.new rfl
  | apply p => exact h.apply p

theorem Reachable.serveAll {job : Job} (h : job.Reachable) (requests : List Request) :
    (job.serveAll requests).Reachable := by
  induction requests generalizing job with
  | nil => exact h
  | cons request rest ih => exact ih (h.serve request)

theorem empty_reachable (metadata : Metadata) : (⟨[], metadata, {}⟩ : Job).Reachable :=
  .assembled (.empty metadata)

def idsOfStages (stages : List (Stage × Shader)) : List NodeId := stages.flatMap fun x => x.2.ids

def nodeIds (job : Job) : List NodeId := idsOfStages job.stages

/-- Identities after a step: those from before, each at most as often, and those that were handed
out, each at most once. -/
structure Draws (job after : Job) : Prop where
  supply : job.ids.next ≤ after.ids.next
  count : ∀ i, after.nodeIds.count i ≤
    job.nodeIds.count i + if job.ids.next ≤ i ∧ i < after.ids.next then 1 else 0

theorem Draws.refl (job : Job) : job.Draws job := ⟨Nat.le_refl _, fun _ => Nat.le_add_right _ _⟩

theorem Draws.trans {a b c : Job} (hab : a.Draws b) (hbc : b.Draws c) : a.Draws c := by
  refine ⟨Nat.le_trans hab.supply hbc.supply, fun i => ?_⟩
  have hfirst := hab.count i
  have hsecond := hbc.count i
  have hle := hab.supply
  have hle' := hbc.supply
  grind

theorem Draws.of_reserves {job after : Job} (h : job.Reserves after) : job.Draws after := by
  obtain ⟨stages, metadata, ids⟩ := after
  obtain ⟨rfl, rfl, -⟩ := h
  exact ⟨Nat.le_refl _, fun _ => Nat.le_add_right _ _⟩

theorem putStage_count (stage : Stage) (s : Shader) (stages : List (Stage × Shader)) (i : NodeId) :
    (idsOfStages (putStage stage s stages)).count i ≤
      (idsOfStages stages).count i + s.ids.count i := by
  induction stages with
  | nil => simp [putStage, idsOfStages]
  | cons y rest ih =>
    obtain ⟨st, t⟩ := y
    simp only [idsOfStages] at ih
    simp only [putStage]
    split
    · simp only [idsOfStages, List.flatMap_cons, List.count_append]
      omega
    · split
      · simp only [idsOfStages, List.flatMap_cons, List.count_append]
        omega
      · simp only [idsOfStages, List.flatMap_cons, List.count_append]
        omega

theorem Draws.addShader {job after : Job} {stage : Stage} {source : String}
    (h : job.addShader stage source = (.ok (), after)) : job.Draws after := by
  obtain ⟨s, ids, hread, rfl⟩ := addShader_eq_ok.1 h
  obtain ⟨t, -, hunnumbered, hnumber⟩ := Shader.read_eq_ok hread
  obtain ⟨hids, hnext⟩ := Shader.number_ids hunnumbered job.ids
  rw [hnumber] at hids hnext
  simp only at hids hnext
  refine ⟨by rw [hnext]; exact Nat.le_add_right _ _, fun i => ?_⟩
  refine (putStage_count stage s job.stages i).trans (Nat.add_le_add_left ?_ _)
  split
  · exact List.nodup_iff_count_le_one.1 (hids ▸ List.nodup_range') i
  · next hi =>
    refine Nat.le_of_eq (List.count_eq_zero.2 fun hmem => hi ?_)
    rw [hids, List.mem_range'_1] at hmem
    rw [hnext]
    exact hmem

theorem redeclareAll_count (type : ScalarType) (length : Nat) (stages : List (Stage × Shader))
    (ids : IdSupply) (i : NodeId) :
    (idsOfStages (redeclareAll type.arrayName type length stages ids).1).count i ≤
      (idsOfStages stages).count i +
        if ids.next ≤ i ∧ i < (redeclareAll type.arrayName type length stages ids).2.next then 1
        else 0 := by
  induction stages generalizing ids with
  | nil => exact Nat.zero_le _
  | cons x rest ih =>
    have hrest := ih ⟨ids.next + 2⟩
    have hsupply := (redeclareAll_redeclared type length rest ⟨ids.next + 2⟩).1
    have hremoved := (Shader.removeUniform_ids x.2 type.arrayName).count_le i
    have hshader : (x.2.redeclared ids.next type.arrayName type length).ids.count i ≤
        x.2.ids.count i + if ids.next ≤ i ∧ i < ids.next + 2 then 1 else 0 := by
      rw [(Shader.redeclared_ids x.2 ids.next type.arrayName type length).count_eq]
      simp only [List.count_cons, beq_iff_eq]
      grind
    rw [redeclareAll_cons]
    simp only [idsOfStages, List.flatMap_cons, List.count_append] at hrest ⊢
    grind

theorem Draws.declares {job after : Job} {value : Scalar} {position : Nat} {values : List Scalar}
    (h : job.Declares value position values after) : job.Draws after := by
  refine ⟨h.supply, fun i => ?_⟩
  have hcount := redeclareAll_count value.type values.length job.stages job.ids i
  rwa [h.declared] at hcount

theorem readElement_count {stages : List (Stage × Shader)} (hordered : Ordered stages)
    (hnodup : ∀ x ∈ stages, x.2.ids.Nodup) (p : Promotion) (id : NodeId) (name : String)
    (position : Nat) (i : NodeId) :
    (idsOfStages (stages.map fun x =>
      (x.1, x.2.substitute (p.substitution (elementAt id name position) x.1)))).count i ≤
        (idsOfStages stages).count i + if id ≤ i ∧ i < id + 3 then 1 else 0 := by
  induction stages with
  | nil => exact Nat.zero_le _
  | cons x rest ih =>
    obtain ⟨hfirst, hrest⟩ := List.pairwise_cons.1 hordered
    simp only [idsOfStages, List.map_cons, List.flatMap_cons, List.count_append] at ih ⊢
    by_cases hstage : x.1 = p.stage
    · -- no other stage has the place
      have hothers : (rest.map fun y =>
          (y.1, y.2.substitute (p.substitution (elementAt id name position) y.1))) = rest := by
        refine map_eq_self fun y hy => ?_
        have hy1 : y.1 ≠ p.stage := by
          intro heq
          have hlt := hfirst y hy
          rw [heq, hstage] at hlt
          exact Nat.lt_irrefl _ hlt
        rw [Promotion.substitution, if_neg hy1, Shader.substitute_spared fun _ _ => rfl]
      have hbound : countId i (x.2.substitute (.single p.node (elementAt id name position))).nodes ≤
          countId i x.2.nodes +
            countId p.node x.2.nodes * countId i (elementAt id name position).nodes :=
        Shader.countBounded x.2 i
      have hone : countId p.node x.2.nodes ≤ 1 :=
        List.nodup_iff_count_le_one.1 (hnodup x List.mem_cons_self) p.node
      have hnew := Nat.mul_le_mul_right (countId i (elementAt id name position).nodes) hone
      rw [countId_elementAt] at hbound hnew
      rw [hothers, Promotion.substitution, if_pos hstage]
      have hx : (x.2.substitute (.single p.node (elementAt id name position))).ids.count i ≤
          x.2.ids.count i + if id ≤ i ∧ i < id + 3 then 1 else 0 := by
        rw [Nat.one_mul] at hnew
        exact hbound.trans (Nat.add_le_add_left hnew _)
      omega
    · rw [Promotion.substitution, if_neg hstage, Shader.substitute_spared fun _ _ => rfl]
      have hlater := ih hrest fun y hy => hnodup y (List.mem_cons_of_mem _ hy)
      omega

theorem Draws.readElement {job : Job} (h : job.Sound) (p : Promotion) (position : Nat) :
    job.Draws (job.readElement p position) :=
  ⟨Nat.le_add_right _ _, fun i => readElement_count h.ordered
    (fun x hx => (h.shaders x hx).nodup) p job.ids.next p.arrayName position i⟩

theorem Draws.apply {job : Job} (h : job.Sound) (p : Promotion) : job.Draws (job.apply p).2 := by
  refine apply_invariant h p (P := fun after => job.Draws after) (.refl job) (fun hdeclares => ?_)
    fun hdeclares => ?_
  · exact (Draws.declares hdeclares).trans (.readElement (hdeclares.sound h) p _)
  · refine (Draws.declares hdeclares).trans ⟨Nat.le_add_right _ _, fun i => Nat.le_add_right _ _⟩

theorem Draws.serve {job : Job} (h : job.Reachable) (request : Request) :
    job.Draws (job.serve request) := by
  cases request with
  | add stage source =>
    rw [Job.serve]
    rcases hadd : job.addShader stage source with ⟨r | u, after⟩
    · rw [addShader_eq_error hadd]
      exact .refl job
    · exact .addShader hadd
  | find => exact .of_reserves job.findPromotions_reserves
  | new stage node literal depth =>
    exact .of_reserves (job.newPromotion_reserves stage node literal depth)
  | apply p => exact .apply h.sound p

theorem Draws.serveAll {job : Job} (h : job.Reachable) (requests : List Request) :
    job.Draws (job.serveAll requests) := by
  induction requests generalizing job with
  | nil => exact .refl job
  | cons request rest ih => exact (Draws.serve h request).trans (ih (h.serve request))

/-- What was handed out and is gone stays gone. -/
theorem Draws.gone {job after : Job} (h : job.Draws after) {id : NodeId} (hid : id < job.ids.next)
    (hgone : id ∉ job.nodeIds) : id ∉ after.nodeIds := by
  have hcount := h.count id
  rw [List.count_eq_zero.2 hgone, if_neg (by grind)] at hcount
  exact List.count_eq_zero.1 (Nat.le_zero.1 hcount)

/-- From an empty job on, as long as identities are left: the stages are in order, all identities
are assigned, different and from the supply, none comes back that is gone, and a refused shader
leaves the job as it was. -/
theorem identities_kept_apart (metadata : Metadata) (requests : List Request) {job : Job}
    (h : (⟨[], metadata, {}⟩ : Job).serveAll requests = job)
    (hids : job.ids.next < NodeId.unassigned) :
    Ordered job.stages ∧
    (∀ id ∈ job.nodeIds, id ≠ NodeId.unassigned ∧ id < job.ids.next) ∧
    job.nodeIds.Nodup ∧
    (∀ (later : List Request) (id : NodeId), id < job.ids.next → id ∉ job.nodeIds →
      id ∉ (job.serveAll later).nodeIds) ∧
    ∀ (stage : Stage) (source : String) (r : Rejection) (after : Job),
      job.addShader stage source = (.error r, after) → after = job := by
  have hdraws := Draws.serveAll (empty_reachable metadata) requests
  have hreachable := (empty_reachable metadata).serveAll requests
  rw [h] at hdraws hreachable
  have hcount : ∀ i, job.nodeIds.count i ≤ if i < job.ids.next then 1 else 0 := by
    intro i
    have hi := hdraws.count i
    have hnone : (⟨[], metadata, {}⟩ : Job).nodeIds.count i = 0 := rfl
    have hzero : (⟨[], metadata, {}⟩ : Job).ids.next = 0 := rfl
    rw [hnone, hzero] at hi
    simpa using hi
  have hbound : ∀ id ∈ job.nodeIds, id < job.ids.next := by
    intro id hid
    have hpos := List.count_pos_iff.2 hid
    have hle := hcount id
    grind
  refine ⟨hreachable.sound.ordered, fun id hid => ⟨?_, hbound id hid⟩, ?_, ?_, ?_⟩
  · exact Nat.ne_of_lt (Nat.lt_trans (hbound id hid) hids)
  · refine List.nodup_iff_count_le_one.2 fun i => (hcount i).trans ?_
    split <;> omega
  · exact fun later id hid hgone => (Draws.serveAll hreachable later).gone hid hgone
  · exact fun stage source r after hrefused => addShader_eq_error hrefused

/-- A shader is read, another is refused, the first is read anew, and a literal is promoted after a
promotion that fails. -/
def sampleRequests : List Request :=
  [.add .fragment "void main() { discard; }", .add .vertex "void main(",
    .add .fragment "void main() { int x = 7; }", .find, .new .vertex 1 (.int 1) 0,
    .apply ⟨.vertex, 1, .int 1, 0⟩, .apply ⟨.fragment, 4, .int 7, 2⟩]

theorem sampleRequests_kept_apart :
    ((⟨[], {}, {}⟩ : Job).serveAll sampleRequests).ids.next < NodeId.unassigned ∧
      ((⟨[], {}, {}⟩ : Job).serveAll sampleRequests).nodeIds.Nodup ∧
      4 < ((⟨[], {}, {}⟩ : Job).serveAll sampleRequests).ids.next ∧
      4 ∉ ((⟨[], {}, {}⟩ : Job).serveAll sampleRequests).nodeIds ∧
      4 ∉ (((⟨[], {}, {}⟩ : Job).serveAll sampleRequests).serveAll
        [.find, .add .vertex "void main() {}"]).nodeIds ∧
      ∃ r, ((⟨[], {}, {}⟩ : Job).serveAll sampleRequests).addShader .vertex "void main(" =
        (.error r, (⟨[], {}, {}⟩ : Job).serveAll sampleRequests) := by
  have hids : ((⟨[], {}, {}⟩ : Job).serveAll sampleRequests).ids.next < NodeId.unassigned := by
    decide +kernel
  have hsupply : 4 < ((⟨[], {}, {}⟩ : Job).serveAll sampleRequests).ids.next := by decide +kernel
  have hgone : 4 ∉ ((⟨[], {}, {}⟩ : Job).serveAll sampleRequests).nodeIds := by decide +kernel
  obtain ⟨-, -, hnodup, hlater, hrefused⟩ := identities_kept_apart {} sampleRequests rfl hids
  refine ⟨hids, hnodup, hsupply, hgone, hlater _ 4 hsupply hgone, ?_⟩
  have hresult : (((⟨[], {}, {}⟩ : Job).serveAll sampleRequests).addShader .vertex
      "void main(").1.isOk = false := by decide +kernel
  rcases hadd : ((⟨[], {}, {}⟩ : Job).serveAll sampleRequests).addShader .vertex "void main("
    with ⟨r | u, after⟩
  · rw [hrefused _ _ r after hadd]
    exact ⟨r, rfl⟩
  · rw [hadd] at hresult
    cases hresult

end Job
end ShaderLift
