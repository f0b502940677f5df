import Mathlib
import ShaderLift.Proofs.Reloading
import ShaderLift.Proofs.Renumbering

/-!
Promotions that are interrupted. The job is written after some of its promotions and loaded again,
with other identities. The promotions that are found then are the others, in their order, and once
they are applied the job is as if nothing had happened in between.
-/

namespace ShaderLift

theorem countLiteral_printable (id : NodeId) (n : Nat) :
    (Node.expression (.literal id (countLiteral n))).Printable := by
  have hlt : min n 2147483647 < 2 ^ 31 := by omega
  change (0 : Int32) ≤ .ofNat (min n 2147483647)
  rw [Int32.le_iff_toInt_le, Int32.toInt_ofNat_of_lt hlt]
  exact Int.natCast_nonneg _

theorem elementAt_printable (id : NodeId) (name : String) (position : Nat) :
    AllPrintable (elementAt id name position).nodes := by
  simp only [elementAt, Expr.nodes, AllPrintable.cons_iff, AllPrintable.append_iff,
    AllPrintable.nil_iff, and_true]
  exact ⟨trivial, trivial, countLiteral_printable _ _⟩

namespace Node

variable {id : NodeId} {new : Expr}

/-- A node that is not replaced itself stays printable: what is put below it is not a literal. -/
theorem Printable.substitute (hnew : new.readsLiteralArray) {n : Node} (hid : n.id ≠ id)
    (h : n.Printable) : (n.substitute (.single id new)).Printable := by
  cases n with
  | declaration d =>
    cases d with
    | function i f =>
      intro p hp hname
      obtain ⟨q, hq, rfl⟩ := List.mem_map.1 hp
      have harray : q.array = none := h q hq hname
      simp [Param.substitute, harray]
    | _ => trivial
  | statement s => trivial
  | expression e =>
    simp only [Node.id] at hid
    have hnone : Substitution.single id new e.id = none := if_neg hid
    cases e with
    | literal i v =>
      simp only [Expr.id] at hnone
      simpa [Node.substitute, Expr.substitute, hnone] using h
    | member i b f =>
      simp only [Expr.id] at hnone
      simp only [Node.substitute, Expr.substitute, hnone, Option.getD_none]
      cases hb : b.substitute (.single id new) with
      | literal j v =>
        obtain rfl := eq_of_substitute hnew hb rfl
        exact h
      | _ => trivial
    | _ =>
      simp only [Expr.id] at hnone
      simp [Node.substitute, Expr.substitute, hnone, Printable]

theorem substitute_printable (hnew : new.readsLiteralArray) (hprint : AllPrintable new.nodes)
    {n : Node} (hliteral : LiteralAt id n.nodes) (h : AllPrintable n.nodes) :
    AllPrintable (n.substitute (.single id new)).nodes := by
  induction n using Node.induction with
  | step n ih =>
    by_cases hid : n.id = id
    · obtain ⟨v, rfl⟩ := hliteral n (mem_nodes_self n) hid
      have hnew : (expression (.literal id v)).substitute (.single id new) = .expression new := by
        simp [substitute, Expr.substitute, Substitution.single]
      rw [hnew]
      exact hprint
    · have hroot : Substitution.single id new n.id = none := if_neg hid
      rw [nodes_eq, children_substitute _ hroot, childNodes, List.flatMap_map]
      refine AllPrintable.cons_iff.2 ⟨(h n (mem_nodes_self n)).substitute hnew hid, ?_⟩
      refine AllPrintable.flatMap_iff.2 fun c hc => ih c.1 c.2 hc (fun m hm => ?_) fun m hm => ?_
      · exact hliteral m (nodes_subset hc hm)
      · exact h m (nodes_subset hc hm)

end Node

namespace Shader

theorem substitute_printable {s : Shader} {id : NodeId} {new : Expr} (hnew : new.readsLiteralArray)
    (hprint : AllPrintable new.nodes) (hliteral : LiteralAt id s.nodes) (h : AllPrintable s.nodes) :
    AllPrintable (s.substitute (.single id new)).nodes := by
  rw [nodes, substitute, List.flatMap_map]
  refine AllPrintable.flatMap_iff.2 fun d hd => ?_
  have hsub : ∀ n ∈ d.nodes, n ∈ s.nodes := fun n hn => List.mem_flatMap.2 ⟨d, hd, hn⟩
  exact Node.substitute_printable (n := .declaration d) hnew hprint
    (fun n hn => hliteral n (hsub n hn)) fun n hn => h n (hsub n hn)

theorem redeclared_printable {s : Shader} (h : AllPrintable s.nodes) (id : NodeId) (name : String)
    (type : ScalarType) (length : Nat) : AllPrintable (s.redeclared id name type length).nodes := by
  refine AllPrintable.flatMap_iff.2 fun d hd => ?_
  obtain rfl | hd := List.mem_cons.1 ((addDeclaration_perm _ _).mem_iff.1 hd)
  · rw [arrayDeclarationAt, Declaration.nodes, AllPrintable.cons_iff]
    refine ⟨trivial, AllPrintable.cons_iff.2 ⟨countLiteral_printable id length, ?_⟩⟩
    exact AllPrintable.nil_iff.2 trivial
  · obtain ⟨d₀, hd₀, hrest⟩ := List.mem_filterMap.1 hd
    have hold : AllPrintable d₀.nodes := fun n hn => h n (List.mem_flatMap.2 ⟨d₀, hd₀, hn⟩)
    intro n hn
    obtain rfl | ⟨i, vars, rfl, -, -, rfl⟩ := withoutDeclarator_eq_some hrest
    · exact hold n hn
    · obtain rfl | hn := List.mem_cons.1 hn
      · trivial
      · exact hold n (List.mem_cons_of_mem _ ((filter_nodes_sublist vars.vars _).subset hn))

theorem promotions_kept {stage : Stage} {s : Shader} {p : Promotion} (h : p ∈ s.promotions stage)
    (name : String) : p.node ∈ (s.removeUniform name).ids := by
  obtain ⟨-, d, hd, v, hv, -⟩ := mem_promotions h
  rw [← removeUniform_functions s name] at hd
  exact List.mem_map.2 ⟨_, mem_nodes_of_functions hd hv, rfl⟩

end Shader

namespace Job

theorem apply_printable {job after : Job} (h : job.Sound)
    (hprint : ∀ x ∈ job.stages, AllPrintable x.2.nodes) {p : Promotion} (hp : p ∈ job.promotions)
    (happly : job.apply p = (.ok (), after)) : ∀ x ∈ after.stages, AllPrintable x.2.nodes := by
  obtain ⟨s, position, values, declared, -, hdeclares, -, rfl⟩ := apply_eq_ok h happly
  have hsound := hdeclares.sound h
  have hsame : declared.promotions = job.promotions := hdeclares.stages.promotions
  have hdeclared : ∀ x ∈ declared.stages, AllPrintable x.2.nodes := by
    intro x hx
    obtain ⟨t, id, ht, -, -, hshader⟩ := hdeclares.stages.mem_after hx
    rw [hshader]
    exact Shader.redeclared_printable (hprint _ ht) _ _ _ _
  intro y hy
  obtain ⟨x, hx, rfl⟩ := List.mem_map.1 hy
  by_cases hstage : x.1 = p.stage
  · have hliteral := literalAt_of_mem_promotions hsound (hsame ▸ hp)
      (hstage ▸ hx : (p.stage, x.2) ∈ declared.stages)
    simp only [Promotion.substitution, if_pos hstage]
    exact Shader.substitute_printable (elementAt_readsLiteralArray _ p.value.type _)
      (elementAt_printable _ _ _) hliteral (hdeclared x hx)
  · change AllPrintable (x.2.substitute (p.substitution _ x.1)).nodes
    rw [Promotion.substitution, if_neg hstage, Shader.substitute_spared fun _ _ => rfl]
    exact hdeclared x hx

theorem apply_stages {job after : Job} (h : job.Sound) {p : Promotion}
    (happly : job.apply p = (.ok (), after)) : after.stages.map Prod.fst = job.stages.map Prod.fst := by
  obtain ⟨s, position, values, declared, -, hdeclares, -, rfl⟩ := apply_eq_ok h happly
  rw [← hdeclares.stages.stages_eq, readElement, List.map_map]
  rfl

/-- A sound job with `rest` to be promoted, and with the arrays for it in the metadata. -/
structure Awaits (job : Job) (rest : List Promotion) : Prop where
  sound : job.Sound
  settled : job.Settled
  promotions : job.promotions = rest

theorem Awaits.apply {job after : Job} {p : Promotion} {rest : List Promotion}
    (h : job.Awaits (p :: rest)) (happly : job.apply p = (.ok (), after)) : after.Awaits rest := by
  have hp : p ∈ job.promotions := h.promotions ▸ List.mem_cons_self
  have hnodup := promotions_nodup h.sound
  have hsound := h.sound.apply p
  rw [happly] at hsound
  refine ⟨hsound, h.settled.apply h.sound hp happly, ?_⟩
  rw [h.promotions] at hnodup
  rw [apply_promotions h.sound hp happly, h.promotions, filter_ne_eq_eraseIdx hnodup (i := 0) rfl]
  rfl

/-- After the first promotions the job awaits the others, and it can be written. -/
theorem Awaits.applyAll {job : Job} {first rest : List Promotion} (h : job.Awaits (first ++ rest))
    (hstages : job.stages ≠ []) (hprint : ∀ x ∈ job.stages, AllPrintable x.2.nodes)
    (hok : (job.applyAll first).failure = none) :
    (job.applyAll first).job.Awaits rest ∧ (job.applyAll first).job.stages ≠ [] ∧
      ∀ x ∈ (job.applyAll first).job.stages, AllPrintable x.2.nodes := by
  induction first generalizing job with
  | nil => exact ⟨h, hstages, hprint⟩
  | cons p first ih =>
    rcases happly : job.apply p with ⟨result, after⟩
    rw [List.cons_append] at h
    cases result with
    | error e => simp [Job.applyAll, happly] at hok
    | ok u =>
      simp only [Job.applyAll, happly] at hok ⊢
      have hp : p ∈ job.promotions := h.promotions ▸ List.mem_cons_self
      have hsome : after.stages ≠ [] := by
        have hnames := apply_stages h.sound happly
        rintro hnone
        rw [hnone, List.map_nil, eq_comm, List.map_eq_nil_iff] at hnames
        exact hstages hnames
      exact ih (h.apply happly) hsome (apply_printable h.sound hprint hp happly) hok

theorem applyAll_append (job : Job) (first rest : List Promotion)
    (hok : (job.applyAll (first ++ rest)).failure = none) :
    (job.applyAll first).failure = none ∧
      ((job.applyAll first).job.applyAll rest).failure = none ∧
      ((job.applyAll first).job.applyAll rest).job = (job.applyAll (first ++ rest)).job := by
  induction first generalizing job with
  | nil => exact ⟨rfl, hok, rfl⟩
  | cons p first ih =>
    rcases happly : job.apply p with ⟨result, after⟩
    rw [List.cons_append] at hok ⊢
    cases result with
    | error e => simp [Job.applyAll, happly] at hok
    | ok u =>
      simp only [Job.applyAll, happly] at hok ⊢
      exact ih after hok

theorem promotions_alike {a b : Job} (h : a.Alike b) {ps qs : List Promotion}
    (ha : a.promotions = ps) (hb : b.promotions = qs) :
    List.Forall₂ (fun p q => ∃ stage s t, (stage, s) ∈ a.stages ∧ (stage, t) ∈ b.stages ∧
      p.Matches stage s.at? t.at? q) ps qs := by
  rw [← ha, ← hb]
  refine List.rel_flatMap (forall₂_of_map_eq h.shapes) ?_
  rintro ⟨stage, s⟩ ⟨stage', t⟩ ⟨heq, i, hs, ht⟩
  obtain ⟨rfl, hshape⟩ := Prod.mk.inj heq
  exact (Shader.promotions_alike stage hshape).imp fun p q hpq =>
    ⟨stage, s, t, List.mem_of_getElem? hs, List.mem_of_getElem? ht, hpq⟩

/-- The same values are to be promoted, so the arrays for them are the same. -/
theorem Alike.settled {a b : Job} (h : a.Alike b) (ha : a.Settled) : b.Settled := by
  have hvalues : a.promotions.map Promotion.value = b.promotions.map Promotion.value := by
    rw [← List.forall₂_eq_eq_eq, List.forall₂_map_left_iff, List.forall₂_map_right_iff]
    exact (promotions_alike h rfl rfl).imp fun p q ⟨_, _, _, _, _, hpq⟩ => hpq.value
  intro q hq
  have hvalue : q.value ∈ a.promotions.map Promotion.value := hvalues ▸ List.mem_map_of_mem hq
  obtain ⟨p, hp, heq⟩ := List.mem_map.1 hvalue
  have hp := ha p hp
  rwa [Promotion.arrayName, heq, h.metadata] at hp

theorem Redeclared.shapes {first last : NodeId} {type : ScalarType} {length : Nat}
    {xs ys : List (Stage × Shader)} (h : Redeclared first last type length xs ys) :
    (ys.map fun y => (y.1, y.2.unnumbered)) = (xs.map fun x => (x.1, x.2.unnumbered)).map fun x =>
      (x.1, (x.2.removeUniform type.arrayName).addDeclaration
        (arrayDeclarationAt 0 type.arrayName type length).unnumbered) := by
  induction h with
  | nil => rfl
  | cons hxy _ ih =>
    obtain ⟨hstage, id, -, -, hshader⟩ := hxy
    rw [List.map_cons, ih, hstage, hshader, Shader.redeclared_unnumbered]
    rfl

theorem Declares.alike {a b a' b' : Job} {value : Scalar} {position position' : Nat}
    {values values' : List Scalar} (h : a.Alike b) (ha : a.Declares value position values a')
    (hb : b.Declares value position' values' b') : position = position' ∧ a'.Alike b' := by
  have hinterned := ha.interned
  rw [h.metadata, hb.interned] at hinterned
  obtain ⟨hposition, hmetadata⟩ := Prod.mk.inj hinterned
  obtain rfl := Except.ok.inj hposition
  have hvalues := ha.array.contents
  rw [← hmetadata, hb.array.contents] at hvalues
  obtain rfl : values' = values := congrArg ArrayContents.values (Except.ok.inj hvalues)
  refine ⟨rfl, hmetadata.symm, ?_⟩
  rw [Job.shapes, Job.shapes, ha.stages.shapes, hb.stages.shapes]
  exact congrArg _ h.shapes

theorem readElement_alike {a b : Job} (h : a.Alike b) (ha : a.Sound) (hb : b.Sound)
    {p q : Promotion} {stage : Stage} {s t : Shader} (hs : (stage, s) ∈ a.stages)
    (ht : (stage, t) ∈ b.stages) (hpq : p.Matches stage s.at? t.at? q) (position : Nat) :
    (a.readElement p position).Alike (b.readElement q position) := by
  obtain ⟨rfl, hstage, hvalue, path, v, w, hv, hw⟩ := hpq
  refine ⟨h.metadata, ?_⟩
  rw [shapes, shapes, readElement, readElement, List.map_map, List.map_map, ← List.forall₂_eq_eq_eq,
    List.forall₂_map_left_iff, List.forall₂_map_right_iff]
  refine (forall₂_of_map_eq h.shapes).imp ?_
  rintro ⟨st, x⟩ ⟨st', y⟩ ⟨heq, i, hx, hy⟩
  obtain ⟨rfl, hxy⟩ := Prod.mk.inj heq
  simp only [Function.comp_apply, Promotion.substitution, hstage]
  split
  · next hst =>
    subst hst
    obtain rfl := shader_unique ha.ordered (List.mem_of_getElem? hx) hs
    obtain rfl := shader_unique hb.ordered (List.mem_of_getElem? hy) ht
    have hnew : (elementAt a.ids.next p.arrayName position).unnumbered =
        (elementAt b.ids.next q.arrayName position).unnumbered := by
      rw [Promotion.arrayName, Promotion.arrayName, hvalue]
      rfl
    exact congrArg _ (Shader.substitute_alike hxy (ha.shaders _ hs).nodup (hb.shaders _ ht).nodup
      hv hw hnew)
  · rw [Shader.substitute_spared fun _ _ => rfl, Shader.substitute_spared fun _ _ => rfl]
    exact congrArg _ hxy

/-- The first promotions of both do the same. -/
theorem Alike.apply {a b a' : Job} (h : a.Alike b) {p q : Promotion} {ps qs : List Promotion}
    (ha : a.Awaits (p :: ps)) (hb : b.Awaits (q :: qs)) (happly : a.apply p = (.ok (), a')) :
    ∃ b', b.apply q = (.ok (), b') ∧ a'.Alike b' := by
  obtain ⟨⟨_, _, _, -, -, hpq⟩, -⟩ :=
    List.forall₂_cons.1 (promotions_alike h ha.promotions hb.promotions)
  have hvalue : q.value = p.value := hpq.value.symm
  obtain ⟨s, position, values, declared, -, hdeclares, -, rfl⟩ := apply_eq_ok ha.sound happly
  have hq : q ∈ b.promotions := hb.promotions ▸ List.mem_cons_self
  obtain ⟨t, ht, hqt⟩ := mem_promotions hq
  rcases apply_cases hb.sound q with
    ⟨e, -, hrefused⟩ | ⟨t', position', values', declared', hfinds, hdeclares', hcases⟩
  · -- the value is interned in the one job, so it is in the other
    obtain ⟨-, d, hd, v, hv, -⟩ := Shader.mem_promotions hqt
    have hinterned := hdeclares.interned
    rw [h.metadata, ← hvalue] at hinterned
    exact absurd (congrArg Prod.fst hinterned)
      (hrefused t ⟨ht, _, Shader.mem_nodes_of_functions hd hv, rfl⟩ _)
  · rcases hcases with ⟨-, happly'⟩ | ⟨hgone, -⟩
    · rw [hvalue] at hdeclares'
      obtain ⟨rfl, halike⟩ := Declares.alike h hdeclares hdeclares'
      refine ⟨_, happly', ?_⟩
      -- declaring the array moves the functions, so the literals are looked up once more
      have hsame : declared.promotions = p :: ps := hdeclares.stages.promotions.trans ha.promotions
      have hsame' : declared'.promotions = q :: qs :=
        hdeclares'.stages.promotions.trans hb.promotions
      obtain ⟨⟨stage, s, t, hs, ht, hpq⟩, -⟩ :=
        List.forall₂_cons.1 (promotions_alike halike hsame hsame')
      exact readElement_alike halike (hdeclares.sound ha.sound) (hdeclares'.sound hb.sound) hs ht
        hpq _
    · obtain rfl := shader_unique hb.sound.ordered hfinds.1 ht
      exact absurd (Shader.promotions_kept hqt _) hgone

theorem Alike.applyAll {a b : Job} (h : a.Alike b) {ps qs : List Promotion} (ha : a.Awaits ps)
    (hb : b.Awaits qs) (hok : (a.applyAll ps).failure = none) :
    (b.applyAll qs).failure = none ∧ (a.applyAll ps).job.Alike (b.applyAll qs).job := by
  induction ps generalizing a b qs with
  | nil =>
    obtain rfl := List.forall₂_nil_left_iff.1 (promotions_alike h ha.promotions hb.promotions)
    exact ⟨rfl, h⟩
  | cons p ps ih =>
    obtain ⟨q, qs, -, -, rfl⟩ :=
      List.forall₂_cons_left_iff.1 (promotions_alike h ha.promotions hb.promotions)
    rcases happly : a.apply p with ⟨result, a'⟩
    cases result with
    | error e => simp [Job.applyAll, happly] at hok
    | ok u =>
      obtain ⟨b', happly', halike⟩ := h.apply ha hb happly
      simp only [Job.applyAll, happly, happly'] at hok ⊢
      exact ih halike (ha.apply happly) (hb.apply happly') hok

/-- After any number of the promotions that were found, the job is written and loaded again. What is
found then can be applied, and the job has in the end the texts and the metadata that it has without
the interruption. -/
theorem applyAll_resumed {job found : Job} {ops : List Promotion} (h : job.Assembled)
    (hstages : job.stages ≠ []) (hprint : ∀ x ∈ job.stages, AllPrintable x.2.nodes)
    (hfind : job.findPromotions = (.ok ops, found)) (hok : (found.applyAll ops).failure = none)
    {k : Nat} {midway : Job} (hmidway : (found.applyAll (ops.take k)).job = midway)
    (hmetadata : Metadata.ofText (midway.metadata.pretty ++ "\n") = .ok midway.metadata)
    {path : String} (hnames : NamesApart path) {before written : FileTree}
    (hwrite : (midway.write FileTree.system path).run before = (.ok (), written))
    (habsent : ∀ stage, midway.shader? stage = none →
      before.exists? (stageFile path stage) = false) :
    ∃ loaded again rest, (load FileTree.system path).run written = (.ok loaded, written) ∧
      loaded.findPromotions = (.ok rest, again) ∧ (again.applyAll rest).failure = none ∧
      (again.applyAll rest).job.sources = (found.applyAll ops).job.sources ∧
      (again.applyAll rest).job.metadata = (found.applyAll ops).job.metadata := by
  obtain ⟨-, hreserves⟩ := findPromotions_found hfind
  obtain ⟨hops, hsettled⟩ := findPromotions_settled hfind
  have hfound : found.Awaits (ops.take k ++ ops.drop k) :=
    ⟨hreserves.sound h.sound, hsettled, by rw [hops, List.take_append_drop]⟩
  rw [← hreserves.stages] at hstages hprint
  rw [← List.take_append_drop k ops] at hok
  obtain ⟨hfirst, hrest, hsame⟩ := applyAll_append _ _ _ hok
  obtain ⟨hawaits, hstages, hprint⟩ := hfound.applyAll hstages hprint hfirst
  rw [hmidway] at hawaits hstages hprint hrest hsame
  rw [List.take_append_drop] at hsame
  have hstored := stored_of_write hawaits.sound.ordered hnames hwrite habsent
  obtain ⟨loaded, hload, hsound, halike⟩ := load_alike hawaits.sound hstages hmetadata hprint hstored
  have hloaded : loaded.Awaits loaded.promotions := ⟨hsound, halike.symm.settled hawaits.settled, rfl⟩
  obtain ⟨hdone, hend⟩ := halike.symm.applyAll hawaits hloaded hrest
  rw [hsame] at hend
  exact ⟨loaded, loaded, _, hload, hloaded.settled.findPromotions, hdone, hend.sources.symm,
    hend.metadata.symm⟩

def sampleMetadata : Metadata :=
  ⟨⟨[("_GLF_uniform_int_values", .uniform ⟨"glUniform1iv", some 1, [.whole 7], some 0, false⟩)],
    List.pairwise_singleton _ _⟩⟩

/-- The second literal is the same as the first, which is found in the array that was read. -/
theorem sample_resumed :
    ∃ found midway written loaded again rest, sample.findPromotions = (.ok samplePromotions, found) ∧
      (found.applyAll (samplePromotions.take 1)).job = midway ∧
      (found.applyAll samplePromotions).failure = none ∧
      Metadata.ofText (midway.metadata.pretty ++ "\n") = .ok midway.metadata ∧
      (midway.write FileTree.system "job.json").run {} = (.ok (), written) ∧
      (load FileTree.system "job.json").run written = (.ok loaded, written) ∧
      loaded.findPromotions = (.ok rest, again) ∧ (again.applyAll rest).failure = none ∧
      (again.applyAll rest).job.sources = (found.applyAll samplePromotions).job.sources ∧
      (again.applyAll rest).job.metadata = (found.applyAll samplePromotions).job.metadata := by
  have hruns : ∃ found midway written, sample.findPromotions = (.ok samplePromotions, found) ∧
      (found.applyAll (samplePromotions.take 1)).job = midway ∧
      midway.metadata = sampleMetadata ∧
      (midway.write FileTree.system "job.json").run {} = (.ok (), written) ∧
      (found.applyAll samplePromotions).failure = none :=
    ⟨_, _, _, rfl, rfl, rfl, rfl, Option.isNone_iff_eq_none.1 (by decide +kernel)⟩
  obtain ⟨found, midway, written, hfind, hmidway, hsame, hwrite, hok⟩ := hruns
  have hproper : ∀ e ∈ sampleMetadata.table.entries, e.2.Proper := by
    refine List.forall_mem_singleton.2 ⟨?_, ?_, ?_⟩
    · rintro _ ⟨⟩
      decide
    · rintro _ ⟨⟩
      decide
    · simp [Number.InRange]
  have hplain : ∀ e ∈ sampleMetadata.table.entries, e.2.Plain := by decide +kernel
  have hkept : ∀ n ∈ sampleMetadata.toJson.numbers, n.Kept := by decide +kernel
  have hmetadata := Metadata.ofText_pretty hproper hplain hkept ['\n'] (by simp [Json.isSpace])
  rw [← hsame] at hmetadata
  have hnames : NamesApart "job.json" := by decide +kernel
  obtain ⟨loaded, again, rest, hresumed⟩ := applyAll_resumed sample_assembled (List.cons_ne_nil _ _)
    sample_stages_printable hfind hok hmidway hmetadata hnames hwrite fun stage _ => by
      cases stage <;> decide +kernel
  exact ⟨found, midway, written, loaded, again, rest, hfind, hmidway, hok, hmetadata, hwrite,
    hresumed⟩

end Job
end ShaderLift
