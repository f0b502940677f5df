import Mathlib
import ShaderLift.Proofs.Candidates
import ShaderLift.Proofs.PromotionOrder

/-!
Promotions that were found, tried in any order and any number of times. One fails for two reasons only:
its literal has been promoted before, or its array does not hold values of its type. Which arrays do
is settled before the first attempt. What fails changes nothing.
-/

namespace ShaderLift

theorem Scalar.writable_of_ofNumber? {type : ScalarType} {n : Number} {v : Scalar}
    (h : ofNumber? type n = some v) : v.toNumber?.isSome := by
  cases type with
  | int =>
    obtain ⟨x, rfl⟩ := ofNumber?_int h
    rfl
  | float =>
    obtain ⟨x, rfl, hx⟩ := ofNumber?_float h
    simp [toNumber?, hx]

theorem Scalar.writable_of_ofLiteral? {v : Literal} {x : Scalar} (h : ofLiteral? v = some x) :
    x.toNumber?.isSome := by
  rcases ofLiteral?_isSome.1 (Option.isSome_of_eq_some h) with ⟨n, rfl⟩ | ⟨y, rfl, hy⟩
  · obtain rfl := Option.some.inj h
    rfl
  · simp only [ofLiteral?, hy, if_true, Option.some.injEq] at h
    subst h
    simp [toNumber?, hy]

namespace UniformRecord

theorem decode_writable {name : String} {r : UniformRecord} {type : ScalarType} {values : List Scalar}
    (h : r.decode name = .ok (type, values)) {v : Scalar} (hv : v ∈ values) : v.toNumber?.isSome := by
  obtain ⟨i, hi⟩ := List.mem_iff_getElem?.1 hv
  obtain ⟨n, -, hn⟩ := Metadata.forall₂_getElem? (decode_eq_ok.1 h).2.flip hi
  exact Scalar.writable_of_ofNumber? hn

theorem exists_encode {values : List Scalar} (name : String) (h : ∀ v ∈ values, v.toNumber?.isSome) :
    ∃ numbers, encode name values = .ok numbers := by
  induction values with
  | nil => exact ⟨[], rfl⟩
  | cons v values ih =>
    obtain ⟨numbers, hnumbers⟩ := ih fun w hw => h w (List.mem_cons_of_mem _ hw)
    obtain ⟨n, hn⟩ := Option.isSome_iff_exists.1 (h v List.mem_cons_self)
    exact ⟨n :: numbers, encode_eq_ok.2 (.cons hn (encode_eq_ok.1 hnumbers))⟩

end UniformRecord

namespace Metadata

theorem settledBinding_error {m : Metadata} {r : UniformRecord} {e : Fault}
    (h : m.settledBinding r = .error e) : e = .bindingsExhausted := by
  rw [settledBinding] at h
  split at h
  · cases h
  · split at h
    · cases h
    · cases hnext : m.nextBinding with
      | ok b =>
        rw [hnext] at h
        cases h
      | error e' =>
        rw [hnext] at h
        obtain rfl := Except.error.inj h
        exact nextBinding_error hnext

/-- The array of a type is there, and its values are of that type. -/
def Holds (m : Metadata) (type : ScalarType) : Prop :=
  ∃ values, m.contents type.arrayName = .ok ⟨type, values⟩

/-- A value can be interned in an array that holds its type, unless that takes a binding and none is
left. -/
theorem Holds.intern_error {m : Metadata} {v : Scalar} (h : m.Holds v.type)
    (hv : v.toNumber?.isSome) {e : Fault} (herror : (m.intern v.type.arrayName v).1 = .error e) :
    e = .bindingsExhausted := by
  obtain ⟨values, hcontents⟩ := h
  obtain ⟨old, hold, hdecode⟩ := contents_eq_ok.1 hcontents
  have hplaced : ∀ w ∈ (place values v).2, w.toNumber?.isSome :=
    place_forall (fun _ => UniformRecord.decode_writable hdecode) hv
  obtain ⟨numbers, hencode⟩ := UniformRecord.exists_encode v.type.arrayName hplaced
  have hnumber : v.toNumber?.isNone = false := by simpa using hv
  obtain ⟨herror, -⟩ := intern_eq_error.1 (Prod.ext herror rfl)
  simp only [grown, hold] at herror
  obtain herror | ⟨read, hread, herror⟩ := bind_eq_error.1 herror
  · cases hdecode.symm.trans herror
  obtain rfl := Except.ok.inj (hdecode.symm.trans hread)
  simp only [hnumber, ne_eq, not_true_eq_false, if_false, Bool.false_eq_true] at herror
  obtain herror | ⟨new, -, herror⟩ := bind_eq_error.1 herror
  · obtain herror | ⟨numbers', -, herror⟩ := bind_eq_error.1 herror
    · cases hencode.symm.trans herror
    · cases herror
  obtain herror | ⟨binding, -, herror⟩ := bind_eq_error.1 herror
  · exact settledBinding_error herror
  · cases herror

theorem holds_of_intern {m m' : Metadata} {v : Scalar} {i : Nat}
    (h : m.intern v.type.arrayName v = (.ok i, m')) : m.Holds v.type := by
  obtain ⟨before, -, hcontents, -⟩ := intern_array h
  exact ⟨before, hcontents⟩

end Metadata

theorem Job.Declares.holds {job after : Job} {value : Scalar} {position : Nat} {values : List Scalar}
    (h : job.Declares value position values after) (type : ScalarType) :
    after.metadata.Holds type ↔ job.metadata.Holds type := by
  by_cases htype : type = value.type
  · subst htype
    exact iff_of_true ⟨values, h.array.contents⟩ (Metadata.holds_of_intern h.interned)
  · obtain ⟨-, -, -, -, -, -, -, -, hothers⟩ := Metadata.intern_array h.interned
    have hname : type.arrayName ≠ value.type.arrayName := fun heq =>
      htype (ScalarType.arrayName_injective heq)
    simp only [Metadata.Holds, Metadata.contents, hothers _ hname]

namespace Node

theorem not_mem_ids_substitute {id : NodeId} {new : Expr} (hnew : ∀ m ∈ new.nodes, m.id ≠ id)
    {n : Node} (h : LiteralAt id n.nodes) : ∀ m ∈ (n.substitute (.single id new)).nodes, m.id ≠ id := by
  induction n using Node.induction with
  | step n ih =>
    by_cases hid : n.id = id
    · obtain ⟨v, rfl⟩ := h n (mem_nodes_self n) hid
      simpa [substitute, Expr.substitute, Substitution.single, nodes] using hnew
    · have hroot : Substitution.single id new n.id = none := if_neg hid
      intro m hm
      rw [nodes_eq, children_substitute _ hroot, childNodes, List.flatMap_map] at hm
      rcases List.mem_cons.1 hm with rfl | hm
      · rwa [id_substitute hroot]
      · obtain ⟨⟨slot, c⟩, hc, hm⟩ := List.mem_flatMap.1 hm
        exact ih slot c hc (fun k hk => h k (nodes_subset hc hk)) m hm

end Node

theorem Shader.not_mem_ids_substitute {id : NodeId} {new : Expr} (hnew : ∀ m ∈ new.nodes, m.id ≠ id)
    {s : Shader} (h : LiteralAt id s.nodes) : id ∉ (s.substitute (.single id new)).ids := by
  intro hmem
  obtain ⟨m, hm, hid⟩ := List.mem_map.1 hmem
  obtain ⟨d', hd', hm⟩ := List.mem_flatMap.1 hm
  obtain ⟨d, hd, rfl⟩ := List.mem_map.1 hd'
  refine Node.not_mem_ids_substitute hnew (n := .declaration d) (fun k hk => h k ?_) m hm hid
  exact List.mem_flatMap.2 ⟨d, hd, hk⟩

namespace Job

/-- The node of the promotion was in its stage at some time and is there no more. -/
structure Gone (job : Job) (p : Promotion) : Prop where
  old : p.node < job.ids.next
  away : ∀ s, (p.stage, s) ∈ job.stages → p.node ∉ s.ids

theorem Gone.declares {job after : Job} {p : Promotion} (h : job.Gone p) {value : Scalar}
    {position : Nat} {values : List Scalar} (hdeclares : job.Declares value position values after) :
    after.Gone p := by
  refine ⟨Nat.lt_of_lt_of_le h.old hdeclares.supply, fun t ht hnode => ?_⟩
  obtain ⟨s, id, hs, hid, -, rfl⟩ := hdeclares.stages.mem_after ht
  have hcases := (Shader.redeclared_ids s id _ _ _).mem_iff.1 hnode
  have hremoved : p.node ∉ (s.removeUniform value.type.arrayName).ids := fun hmem =>
    h.away s hs ((Shader.removeUniform_ids s _).subset hmem)
  have hold := h.old
  simp only [List.mem_cons, hremoved, or_false] at hcases
  grind

theorem Gone.readElement {job : Job} {p : Promotion} (h : job.Gone p) (q : Promotion)
    (position : Nat) : (job.readElement q position).Gone p := by
  refine ⟨Nat.lt_of_lt_of_le h.old (Nat.le_add_right _ _), fun t ht hnode => ?_⟩
  obtain ⟨x, hx, heq⟩ := List.mem_map.1 ht
  obtain ⟨hstage, rfl⟩ := Prod.mk.inj heq
  refine h.away x.2 (by rwa [← hstage]) ?_
  rw [Shader.ids_eq] at hnode ⊢
  obtain ⟨d', hd', hnode⟩ := List.mem_flatMap.1 hnode
  obtain ⟨d, hd, rfl⟩ := List.mem_map.1 hd'
  refine List.mem_flatMap.2 ⟨d, hd, ?_⟩
  rw [Promotion.substitution] at hnode
  split at hnode
  · exact mem_ids_of_substitute h.old hnode
  · rwa [Declaration.substitute_spared fun _ _ => rfl] at hnode

theorem Gone.promoted {job : Job} (h : job.Sound) {p : Promotion} (hp : p ∈ job.promotions)
    (position : Nat) : (job.readElement p position).Gone p := by
  obtain ⟨s, hs, hps⟩ := mem_promotions hp
  have hnode : p.node ∈ s.ids := by
    obtain ⟨-, d, hd, v, hv, -⟩ := Shader.mem_promotions hps
    exact List.mem_map_of_mem (f := Node.id) (Shader.mem_nodes_of_functions hd hv)
  have hold : p.node < job.ids.next := (h.shaders _ hs).bounded _ hnode
  refine ⟨Nat.lt_of_lt_of_le hold (Nat.le_add_right _ _), fun t ht => ?_⟩
  obtain ⟨x, hx, heq⟩ := List.mem_map.1 ht
  obtain ⟨hstage, rfl⟩ := Prod.mk.inj heq
  rw [Promotion.substitution, if_pos hstage]
  refine Shader.not_mem_ids_substitute (fun m hm hid => ?_)
    (literalAt_of_mem_promotions h hp (hstage ▸ hx))
  have hcount := countId_elementAt p.node job.ids.next p.arrayName position
  rw [if_neg (by grind)] at hcount
  exact List.count_eq_zero.1 hcount (List.mem_map.2 ⟨m, hm, hid⟩)

theorem Gone.apply_eq {job : Job} (h : job.Sound) {p : Promotion} (hp : job.Gone p) :
    job.apply p = (.error (.nodeNotFound p.node), job) := by
  have hplace : job.checkPlace p = .error (.nodeNotFound p.node) := by
    cases hlookup : job.shader? p.stage with
    | none => simp only [checkPlace, hlookup]
    | some s =>
      have hlink := ParentIndex.link?_eq_none (hp.away s ((shader?_eq_some h.ordered).1 hlookup))
      simp [checkPlace, hlookup, hlink]
  simp only [Job.apply, hplace]

/-- The literal of a promotion is found, so all depends on its value. -/
theorem apply_pending {job : Job} (h : job.Sound) {p : Promotion} (hp : p ∈ job.promotions) :
    (∃ e, (job.metadata.intern p.arrayName p.value).1 = .error e ∧ job.apply p = (.error e, job)) ∨
      ∃ position values declared, job.Declares p.value position values declared ∧
        job.apply p = (.ok (), declared.readElement p position) := by
  obtain ⟨s, hs, hps⟩ := mem_promotions hp
  obtain ⟨-, d, hd, v, hv, -⟩ := Shader.mem_promotions hps
  have hfinds : job.Finds p s := ⟨hs, _, Shader.mem_nodes_of_functions hd hv, rfl⟩
  rcases hintern : job.metadata.intern p.arrayName p.value with ⟨e | position, metadata⟩
  · have hplace := (checkPlace_eq_ok h.toTracked).2 ⟨s, hfinds⟩
    exact .inl ⟨e, rfl, by simp only [apply, hplace, declareValue_error hintern]⟩
  · rcases apply_cases h p with
      ⟨e, -, hrefused⟩ | ⟨t, position, values, declared, ⟨ht, -⟩, hdeclares, hcases⟩
    · exact absurd (congrArg Prod.fst hintern) (hrefused s hfinds position)
    · obtain rfl := shader_unique h.ordered hs ht
      -- no function is in the declaration of an array
      have hkept : p.node ∈ (s.removeUniform p.arrayName).ids := by
        rw [← Shader.removeUniform_functions s p.arrayName] at hd
        exact List.mem_map_of_mem (f := Node.id) (Shader.mem_nodes_of_functions hd hv)
      rcases hcases with ⟨-, happly⟩ | ⟨hgone, -⟩
      · exact .inr ⟨position, values, declared, hdeclares, happly⟩
      · exact absurd hkept hgone

theorem promotion_writable {job : Job} {p : Promotion} (hp : p ∈ job.promotions) :
    p.value.toNumber?.isSome := by
  obtain ⟨s, -, hps⟩ := mem_promotions hp
  obtain ⟨-, -, -, v, -, hvalue⟩ := Shader.mem_promotions hps
  exact Scalar.writable_of_ofLiteral? hvalue

theorem apply_pending_eq_ok {job : Job} (h : job.Sound) {p : Promotion} (hp : p ∈ job.promotions)
    (hbindings : (job.apply p).1 ≠ .error .bindingsExhausted) :
    (job.apply p).1 = .ok () ↔ job.metadata.Holds p.value.type := by
  rcases apply_pending h hp with ⟨e, hintern, happly⟩ | ⟨position, values, declared, hdeclares, happly⟩
  · rw [happly] at hbindings ⊢
    refine iff_of_false (fun hok => by cases hok) fun hholds => ?_
    obtain rfl := hholds.intern_error (promotion_writable hp) hintern
    exact hbindings rfl
  · rw [happly]
    exact iff_of_true rfl (Metadata.holds_of_intern hdeclares.interned)

/-- A job after some attempts, with the promotions that were made. -/
structure Attempts where
  done : List Promotion
  job : Job

def Attempts.attempt (a : Attempts) (p : Promotion) : Attempts :=
  match a.job.apply p with
  | (.ok (), job) => ⟨a.done ++ [p], job⟩
  | (.error _, job) => ⟨a.done, job⟩

/-- Tries promotions in turn, also after one that failed. -/
def attemptAll (job : Job) (run : List Promotion) : Attempts := run.foldl Attempts.attempt ⟨[], job⟩

/-- What holds after any attempts at promotions of a job. -/
structure Attempted (start : Job) (a : Attempts) : Prop where
  sound : a.job.Sound
  pending : ∀ p ∈ start.promotions, p ∉ a.done → p ∈ a.job.promotions
  gone : ∀ p ∈ a.done, a.job.Gone p
  arrays : ∀ type, a.job.metadata.Holds type ↔ start.metadata.Holds type

theorem Attempted.start {job : Job} (h : job.Sound) : job.Attempted ⟨[], job⟩ :=
  ⟨h, fun _ hp _ => hp, fun _ hp => absurd hp List.not_mem_nil, fun _ => Iff.rfl⟩

theorem Attempted.attempt {start : Job} (hstart : start.Sound) {a : Attempts} (h : start.Attempted a)
    {p : Promotion} (hp : p ∈ start.promotions) : start.Attempted (a.attempt p) := by
  by_cases hdone : p ∈ a.done
  · have hsame : a.attempt p = a := by
      simp only [Attempts.attempt, (h.gone p hdone).apply_eq h.sound]
    rwa [hsame]
  · have hpending := h.pending p hp hdone
    rcases apply_pending h.sound hpending with
      ⟨e, -, happly⟩ | ⟨position, values, declared, hdeclares, happly⟩
    · have hsame : a.attempt p = a := by simp only [Attempts.attempt, happly]
      rwa [hsame]
    · have hmade : a.attempt p = ⟨a.done ++ [p], declared.readElement p position⟩ := by
        simp only [Attempts.attempt, happly]
      have hsound := hdeclares.sound h.sound
      have hpromotions : declared.promotions = a.job.promotions := hdeclares.stages.promotions
      rw [hmade]
      refine ⟨readElement_sound hsound p position, ?_, ?_, ?_⟩
      · intro q hq hqdone
        simp only [List.mem_append, List.mem_singleton, not_or] at hqdone
        have hplace : q.place ≠ p.place := fun heq =>
          hqdone.2 (List.inj_on_of_nodup_map (promotions_nodup hstart) hq hp heq)
        rw [readElement_promotions hsound (hpromotions ▸ hpending), hpromotions]
        exact List.mem_filter.2 ⟨h.pending q hq hqdone.1, by simpa using hplace⟩
      · intro q hq
        rcases List.mem_append.1 hq with hq | hq
        · exact ((h.gone q hq).declares hdeclares).readElement p position
        · obtain rfl := List.mem_singleton.1 hq
          exact .promoted hsound (hpromotions ▸ hpending) position
      · exact fun type => (hdeclares.holds type).trans (h.arrays type)

theorem Attempted.attemptAll {start : Job} (hstart : start.Sound) {run : List Promotion}
    (hrun : ∀ p ∈ run, p ∈ start.promotions) : start.Attempted (start.attemptAll run) := by
  have hfold : ∀ (run : List Promotion) (a : Attempts), (∀ p ∈ run, p ∈ start.promotions) →
      start.Attempted a → start.Attempted (run.foldl Attempts.attempt a) := by
    intro run
    induction run with
    | nil => exact fun a _ ha => ha
    | cons p rest ih =>
      intro a hrun ha
      exact ih _ (fun q hq => hrun q (List.mem_cons_of_mem _ hq))
        (ha.attempt hstart (hrun p List.mem_cons_self))
  exact hfold run _ hrun (.start hstart)

/-- After any attempts at the promotions that were found: one that was not made yet can be made if
and only if its array held its type when the promotions were found. One that was made does not find
its node any more. What fails leaves the job as it is. -/
theorem attemptAll_outcomes {job found : Job} {ops run : List Promotion} {p : Promotion}
    (h : job.Assembled) (hfind : job.findPromotions = (.ok ops, found)) (hrun : ∀ q ∈ run, q ∈ ops)
    (hp : p ∈ ops) :
    (p ∉ (found.attemptAll run).done →
      ((found.attemptAll run).job.apply p).1 ≠ .error .bindingsExhausted →
      (((found.attemptAll run).job.apply p).1 = .ok () ↔
        ∃ values, found.metadata.contents p.arrayName = .ok ⟨p.value.type, values⟩)) ∧
    (p ∈ (found.attemptAll run).done →
      (found.attemptAll run).job.apply p =
        (.error (.nodeNotFound p.node), (found.attemptAll run).job)) ∧
    (((found.attemptAll run).job.apply p).1 ≠ .ok () →
      ((found.attemptAll run).job.apply p).2 = (found.attemptAll run).job) := by
  obtain ⟨rfl, -⟩ := findPromotions_settled hfind
  have hsound : found.Sound := (findPromotions_found hfind).2.sound h.sound
  have hattempted := Attempted.attemptAll hsound hrun
  refine ⟨fun hdone hbindings => ?_, fun hdone => ?_, fun hfailed => ?_⟩
  · rw [apply_pending_eq_ok hattempted.sound (hattempted.pending p hp hdone) hbindings]
    exact hattempted.arrays p.value.type
  · exact (hattempted.gone p hdone).apply_eq hattempted.sound
  · by_cases hdone : p ∈ (found.attemptAll run).done
    · rw [(hattempted.gone p hdone).apply_eq hattempted.sound]
    · rcases apply_pending hattempted.sound (hattempted.pending p hp hdone) with
        ⟨e, -, happly⟩ | ⟨position, values, declared, -, happly⟩
      · rw [happly]
      · rw [happly] at hfailed
        exact absurd rfl hfailed

/-- The array of whole numbers is there already and holds others. -/
def uneven : Job :=
  ⟨[(.fragment, mixedShader)],
    ⟨.ofList [("_GLF_uniform_int_values", .uniform ⟨"glUniform1fv", some 0, [], some 0, false⟩)]⟩, ⟨10⟩⟩

/-- Of the promotions the last can be made, once. The others cannot. -/
theorem uneven_outcomes :
    ∃ found, uneven.findPromotions = (.ok mixedPromotions, found) ∧
      ((found.attemptAll [⟨.fragment, 5, .int 1, 2⟩]).job.apply
        ⟨.fragment, 9, .float ⟨0x3f800000⟩, 2⟩).1 = .ok () ∧
      (found.attemptAll mixedPromotions).done = [⟨.fragment, 9, .float ⟨0x3f800000⟩, 2⟩] ∧
      (found.attemptAll mixedPromotions).job.apply ⟨.fragment, 9, .float ⟨0x3f800000⟩, 2⟩ =
        (.error (.nodeNotFound 9), (found.attemptAll mixedPromotions).job) ∧
      ((found.attemptAll mixedPromotions).job.apply ⟨.fragment, 5, .int 1, 2⟩).1 ≠ .ok () ∧
      ((found.attemptAll mixedPromotions).job.apply ⟨.fragment, 5, .int 1, 2⟩).2 =
        (found.attemptAll mixedPromotions).job := by
  have hassembled : uneven.Assembled := mixedShader_assembled _
  have hruns : ∃ found, uneven.findPromotions = (.ok mixedPromotions, found) ∧
      (found.attemptAll [⟨.fragment, 5, .int 1, 2⟩]).done = [] ∧
      ((found.attemptAll [⟨.fragment, 5, .int 1, 2⟩]).job.apply
        ⟨.fragment, 9, .float ⟨0x3f800000⟩, 2⟩).1 ≠ .error .bindingsExhausted ∧
      found.metadata.contents "_GLF_uniform_float_values" = .ok ⟨.float, []⟩ ∧
      (found.attemptAll mixedPromotions).done = [⟨.fragment, 9, .float ⟨0x3f800000⟩, 2⟩] ∧
      ((found.attemptAll mixedPromotions).job.apply ⟨.fragment, 5, .int 1, 2⟩).1 ≠ .ok () :=
    ⟨_, rfl, by decide +kernel⟩
  obtain ⟨found, hfind, hnone, hbindings, hcontents, hdone, hrefused⟩ := hruns
  have hfloat : (⟨.fragment, 9, .float ⟨0x3f800000⟩, 2⟩ : Promotion) ∈ mixedPromotions := by decide
  have hint : (⟨.fragment, 5, .int 1, 2⟩ : Promotion) ∈ mixedPromotions := by decide
  have hfirst : ∀ q ∈ ([⟨.fragment, 5, .int 1, 2⟩] : List Promotion), q ∈ mixedPromotions := by decide
  obtain ⟨hpending, -, -⟩ := attemptAll_outcomes hassembled hfind hfirst hfloat
  obtain ⟨-, hmade, -⟩ := attemptAll_outcomes hassembled hfind (fun _ hq => hq) hfloat
  obtain ⟨-, -, hfailed⟩ := attemptAll_outcomes hassembled hfind (fun _ hq => hq) hint
  refine ⟨found, hfind, (hpending ?_ hbindings).2 ⟨[], hcontents⟩, hdone, hmade ?_, hrefused,
    hfailed hrefused⟩
  · rw [hnone]
    exact List.not_mem_nil
  · rw [hdone]
    exact List.mem_cons_self

end Job
end ShaderLift
