import Mathlib
import ShaderLift.Proofs.InterningOrder
import ShaderLift.Proofs.ValuePreservation

/-!
The same promotions in two orders. What they make of a stage is described without going through the
steps: the arrays are taken out of the stage, the literals are replaced, and the arrays are declared
in one place. The order of the promotions tells in the order of the arrays, and in how much of the
preamble stands before them.
-/

namespace ShaderLift

namespace Shader

theorem withoutDeclarator_comm (a b : String) (d : Declaration) :
    (withoutDeclarator a d).bind (withoutDeclarator b) =
      (withoutDeclarator b d).bind (withoutDeclarator a) := by
  cases d with
  | globals id vars =>
    cases huniform : vars.hasQualifier .uniform with
    | false => simp [withoutDeclarator, huniform]
    | true =>
      have hrest : ∀ p, ({ vars with vars := vars.vars.filter p } : Variables).hasQualifier .uniform :=
        fun _ => huniform
      rw [withoutDeclarator_uniform a id huniform, withoutDeclarator_uniform b id huniform]
      split <;> split
      · rfl
      · next ha hb =>
        rw [Option.bind_none, Option.bind_some, withoutDeclarator_uniform a id (hrest _), if_pos]
        simp only [List.all_eq_true] at ha ⊢
        exact fun v hv => ha v (List.mem_of_mem_filter hv)
      · next ha hb =>
        rw [Option.bind_none, Option.bind_some, withoutDeclarator_uniform b id (hrest _), if_pos]
        simp only [List.all_eq_true] at hb ⊢
        exact fun v hv => hb v (List.mem_of_mem_filter hv)
      · rw [Option.bind_some, Option.bind_some, withoutDeclarator_uniform b id (hrest _),
          withoutDeclarator_uniform a id (hrest _)]
        have hall : ((vars.vars.filter fun v => v.name ≠ a).all fun v => v.name = b) =
            (vars.vars.filter fun v => v.name ≠ b).all fun v => v.name = a := by
          rw [Bool.eq_iff_iff]
          simp only [List.all_eq_true, List.mem_filter, decide_eq_true_eq]
          grind
        simp only [hall, List.filter_filter, Bool.and_comm]
  | _ => rfl

theorem withoutDeclarator_twice (a : String) (d : Declaration) :
    (withoutDeclarator a d).bind (withoutDeclarator a) = withoutDeclarator a d := by
  cases d with
  | globals id vars =>
    cases huniform : vars.hasQualifier .uniform with
    | false => simp [withoutDeclarator, huniform]
    | true =>
      have hrest : ∀ p, ({ vars with vars := vars.vars.filter p } : Variables).hasQualifier .uniform :=
        fun _ => huniform
      rw [withoutDeclarator_uniform a id huniform]
      split
      · rfl
      · next hall =>
        rw [Option.bind_some, withoutDeclarator_uniform a id (hrest _), if_neg]
        · simp [List.filter_filter]
        · simp only [List.all_eq_true, List.mem_filter, decide_eq_true_eq] at hall ⊢
          grind
  | _ => rfl

theorem withoutDeclarator_preamble (a : String) {d : Declaration} (h : d.isPreamble) :
    withoutDeclarator a d = some d := by
  cases d <;> first | rfl | cases h

theorem substitute_preamble (σ : Substitution) {d : Declaration} (h : d.isPreamble) :
    d.substitute σ = d := by
  cases d <;> first | rfl | cases h

theorem substitute_isPreamble (σ : Substitution) (d : Declaration) :
    (d.substitute σ).isPreamble = d.isPreamble := by
  cases d <;> rfl

theorem withoutDeclarator_substitute (a : String) (σ : Substitution) (d : Declaration) :
    withoutDeclarator a (d.substitute σ) = (withoutDeclarator a d).map (Declaration.substitute σ) := by
  cases d with
  | globals id vars =>
    exact withoutDeclarator_map a (f := Declarator.substitute σ) (fun _ => rfl) (fun _ => rfl) vars
  | _ => rfl

theorem removeUniform_comm (s : Shader) (a b : String) :
    (s.removeUniform a).removeUniform b = (s.removeUniform b).removeUniform a := by
  simp only [removeUniform, List.filterMap_filterMap, withoutDeclarator_comm a b]

theorem removeUniform_twice (s : Shader) (a : String) :
    (s.removeUniform a).removeUniform a = s.removeUniform a := by
  simp only [removeUniform, List.filterMap_filterMap, withoutDeclarator_twice]

theorem filterMap_preamble (a : String) {ds : List Declaration} (h : ∀ d ∈ ds, d.isPreamble) :
    ds.filterMap (withoutDeclarator a) = ds := by
  rw [List.filterMap_congr fun d hd => withoutDeclarator_preamble a (h d hd), List.filterMap_some]

theorem map_preamble (σ : Substitution) {ds : List Declaration} (h : ∀ d ∈ ds, d.isPreamble) :
    ds.map (Declaration.substitute σ) = ds :=
  map_eq_self fun d hd => substitute_preamble σ (h d hd)

theorem filterMap_substitute (a : String) (σ : Substitution) (ds : List Declaration) :
    (ds.map (Declaration.substitute σ)).filterMap (withoutDeclarator a) =
      (ds.filterMap (withoutDeclarator a)).map (Declaration.substitute σ) := by
  rw [List.filterMap_map, List.map_filterMap]
  exact List.filterMap_congr fun d _ => withoutDeclarator_substitute a σ d

theorem takeWhile_substitute (σ : Substitution) (ds : List Declaration) :
    (ds.map (Declaration.substitute σ)).takeWhile Declaration.isPreamble =
      (ds.takeWhile Declaration.isPreamble).map (Declaration.substitute σ) := by
  rw [List.takeWhile_map]
  simp only [Function.comp_def, substitute_isPreamble]

def withoutArrays (s : Shader) (types : List ScalarType) : Shader :=
  types.foldl (fun s type => s.removeUniform type.arrayName) s

theorem withoutArrays_perm (s : Shader) {types types' : List ScalarType} (h : types.Perm types') :
    s.withoutArrays types = s.withoutArrays types' :=
  h.foldl_eq' (fun _ _ _ _ s => s.removeUniform_comm _ _) s

theorem withoutArrays_of_all (s : Shader) {types : List ScalarType} {type : ScalarType}
    (hne : types ≠ []) (h : ∀ t ∈ types, t = type) :
    s.withoutArrays types = s.removeUniform type.arrayName := by
  induction types generalizing s with
  | nil => exact absurd rfl hne
  | cons t types ih =>
    obtain rfl : t = type := h t List.mem_cons_self
    cases types with
    | nil => rfl
    | cons u types =>
      have hrest := ih (s.removeUniform t.arrayName) (by simp) fun x hx => h x (List.mem_cons_of_mem _ hx)
      rwa [removeUniform_twice] at hrest

/-- What stands before the arrays: the preamble as far as it reaches once the array of the type that
was promoted first is out of the way. -/
def front (s : Shader) (start : Option ScalarType) : List Declaration :=
  (s.withoutArrays start.toList).declarations.takeWhile Declaration.isPreamble

theorem front_preamble {s : Shader} {start : Option ScalarType} {d : Declaration}
    (h : d ∈ s.front start) : d.isPreamble :=
  List.mem_takeWhile_imp h

end Shader

/-- The types of the arrays in the order of their declarations, when they were declared in turn: the
last one comes in front. -/
def arrayOrder (types : List ScalarType) : List ScalarType :=
  types.foldl (fun order type => type :: order.filter fun t => t ≠ type) []

theorem arrayOrder_snoc (types : List ScalarType) (type : ScalarType) :
    arrayOrder (types ++ [type]) = type :: (arrayOrder types).filter fun t => t ≠ type := by
  rw [arrayOrder, List.foldl_append]
  rfl

theorem mem_arrayOrder {types : List ScalarType} {type : ScalarType} :
    type ∈ arrayOrder types ↔ type ∈ types := by
  induction types using List.reverseRecOn with
  | nil => simp [arrayOrder]
  | append_singleton types t ih =>
    rw [arrayOrder_snoc, List.mem_cons, List.mem_filter, ih]
    by_cases h : type = t <;> simp [h]

theorem arrayOrder_nodup (types : List ScalarType) : (arrayOrder types).Nodup := by
  induction types using List.reverseRecOn with
  | nil => exact List.nodup_nil
  | append_singleton types t ih =>
    rw [arrayOrder_snoc]
    exact List.nodup_cons.2 ⟨by simp, ih.filter _⟩

theorem arrayOrder_perm {types types' : List ScalarType} (h : types.Perm types') :
    (arrayOrder types).Perm (arrayOrder types') := by
  refine (List.perm_ext_iff_of_nodup (arrayOrder_nodup _) (arrayOrder_nodup _)).2 fun t => ?_
  rw [mem_arrayOrder, mem_arrayOrder, h.mem_iff]

def arrayDeclarations (id : ScalarType → NodeId) (length : ScalarType → Nat)
    (order : List ScalarType) : List Declaration :=
  order.map fun type => arrayDeclarationAt (id type) type.arrayName type (length type)

theorem withoutDeclarator_array (id : NodeId) (type other : ScalarType) (length : Nat) :
    Shader.withoutDeclarator other.arrayName (arrayDeclarationAt id type.arrayName type length) =
      if type = other then none else some (arrayDeclarationAt id type.arrayName type length) := by
  by_cases h : type = other
  · simp [h, Shader.withoutDeclarator, arrayDeclarationAt, Variables.hasQualifier]
  · have hname : type.arrayName ≠ other.arrayName := fun heq => h (ScalarType.arrayName_injective heq)
    simp [h, hname, Shader.withoutDeclarator, arrayDeclarationAt, Variables.hasQualifier]

theorem arrayDeclarations_without (id : ScalarType → NodeId) (length : ScalarType → Nat)
    (order : List ScalarType) (other : ScalarType) :
    (arrayDeclarations id length order).filterMap (Shader.withoutDeclarator other.arrayName) =
      arrayDeclarations id length (order.filter fun t => t ≠ other) := by
  induction order with
  | nil => rfl
  | cons type order ih =>
    simp only [arrayDeclarations, List.map_cons, List.filterMap_cons, withoutDeclarator_array] at ih ⊢
    by_cases h : type = other
    · simp [h, ih]
    · simp [h, ih]

namespace Shader

theorem addDeclaration_behind {front rest : List Declaration} (hfront : ∀ d ∈ front, d.isPreamble)
    (hrest : rest.takeWhile Declaration.isPreamble = []) (new : Declaration) :
    (⟨front ++ rest⟩ : Shader).addDeclaration new = ⟨front ++ new :: rest⟩ := by
  have hdrop := rest.takeWhile_append_dropWhile (p := Declaration.isPreamble)
  rw [hrest, List.nil_append] at hdrop
  rw [addDeclaration, List.takeWhile_append_of_pos hfront, List.dropWhile_append_of_pos hfront, hrest,
    hdrop, List.append_nil]

/-- The shader as it is after promotions of the types: without its own declarations of their arrays,
with the arrays declared behind the front and everything else substituted. The new declarations have
identities from `next` on. -/
def Arranged (s : Shader) (types : List ScalarType) (length : ScalarType → Nat) (next : NodeId)
    (σ : Substitution) (t : Shader) : Prop :=
  ∃ (id : ScalarType → NodeId) (rest : List Declaration), (∀ type ∈ types, next ≤ id type) ∧
    s.front types.head? ++ rest = (s.withoutArrays types).declarations ∧
    t.declarations = s.front types.head? ++ (arrayDeclarations id length (arrayOrder types) ++
      rest.map (Declaration.substitute σ))

theorem Arranged.nil (s : Shader) (length : ScalarType → Nat) (next : NodeId) :
    s.Arranged [] length next (fun _ => none) s := by
  have hspared : ∀ ds : List Declaration, ds.map (Declaration.substitute fun _ => none) = ds :=
    fun ds => map_eq_self fun d _ => Declaration.substitute_spared fun _ _ => rfl
  refine ⟨fun _ => 0, s.declarations.dropWhile Declaration.isPreamble, by simp,
    List.takeWhile_append_dropWhile, ?_⟩
  rw [hspared]
  exact List.takeWhile_append_dropWhile.symm

theorem takeWhile_rest {ds rest : List Declaration}
    (h : ds.takeWhile Declaration.isPreamble ++ rest = ds) :
    rest.takeWhile Declaration.isPreamble = [] := by
  have hall : ∀ d ∈ ds.takeWhile Declaration.isPreamble, d.isPreamble := fun d hd =>
    List.mem_takeWhile_imp hd
  have hsame := congrArg (List.takeWhile Declaration.isPreamble) h
  rw [List.takeWhile_append_of_pos hall] at hsame
  exact List.append_right_eq_self.1 hsame

/-- If no array stays, then only this one was declared so far, and what is behind the front does not
go on with preamble. -/
theorem takeWhile_behind {s : Shader} {types : List ScalarType} {type : ScalarType}
    {rest : List Declaration} (hne : types ≠ [])
    (hrest : s.front types.head? ++ rest = (s.withoutArrays types).declarations)
    (hnone : (arrayOrder types).filter (fun t => t ≠ type) = []) :
    (rest.filterMap (withoutDeclarator type.arrayName)).takeWhile Declaration.isPreamble = [] := by
  have hall : ∀ t ∈ types, t = type := fun t ht => by
    have hmem := List.filter_eq_nil_iff.1 hnone t (mem_arrayOrder.2 ht)
    simpa using hmem
  have hstart : s.withoutArrays types.head?.toList = s.removeUniform type.arrayName := by
    cases types with
    | nil => exact absurd rfl hne
    | cons t types => exact withoutArrays_of_all s (by simp) (by simpa using hall t (by simp))
  have hpreamble : ∀ d ∈ s.front types.head?, d.isPreamble := fun d hd => front_preamble hd
  have htwice := congrArg (List.filterMap (withoutDeclarator type.arrayName)) hrest
  rw [List.filterMap_append, filterMap_preamble _ hpreamble, withoutArrays_of_all s hne hall] at htwice
  have hsplit : (s.removeUniform type.arrayName).declarations.takeWhile Declaration.isPreamble ++
      rest.filterMap (withoutDeclarator type.arrayName) =
        (s.removeUniform type.arrayName).declarations := by
    rw [← hstart]
    refine htwice.trans ?_
    rw [hstart]
    exact congrArg declarations (s.removeUniform_twice type.arrayName)
  exact takeWhile_rest hsplit

theorem Arranged.removeUniform {s t : Shader} {types : List ScalarType} {length : ScalarType → Nat}
    {next : NodeId} {σ : Substitution} (h : s.Arranged types length next σ t) (type : ScalarType) :
    ∃ (id : ScalarType → NodeId) (rest : List Declaration), (∀ t ∈ types, next ≤ id t) ∧
      s.front (types ++ [type]).head? ++ rest = (s.withoutArrays (types ++ [type])).declarations ∧
      (arrayDeclarations id length ((arrayOrder types).filter fun t => t ≠ type) ++
        rest.map (Declaration.substitute σ)).takeWhile Declaration.isPreamble = [] ∧
      t.removeUniform type.arrayName = ⟨s.front (types ++ [type]).head? ++
        (arrayDeclarations id length ((arrayOrder types).filter fun t => t ≠ type) ++
          rest.map (Declaration.substitute σ))⟩ := by
  obtain ⟨id, rest, hid, hrest, ht⟩ := h
  have hpreamble : ∀ start, ∀ d ∈ s.front start, d.isPreamble := fun _ d hd => front_preamble hd
  cases types with
  | nil =>
    have hsplit : s.front (some type) ++
        (s.removeUniform type.arrayName).declarations.dropWhile Declaration.isPreamble =
          (s.removeUniform type.arrayName).declarations := List.takeWhile_append_dropWhile
    refine ⟨id, _, by simp, hsplit, ?_, ?_⟩
    · simpa [arrayDeclarations, arrayOrder, takeWhile_substitute] using takeWhile_rest hsplit
    · have hall : t.declarations = s.declarations.map (Declaration.substitute σ) := by
        have hrest : s.front none ++ rest = s.declarations := hrest
        rw [ht, ← hrest, List.map_append, map_preamble σ (hpreamble none)]
        rfl
      have hremoved := filterMap_substitute type.arrayName σ s.declarations
      have hsplit := congrArg (List.map (Declaration.substitute σ)) hsplit
      rw [List.map_append, map_preamble σ (hpreamble _)] at hsplit
      rw [Shader.removeUniform, hall, hremoved]
      exact congrArg mk hsplit.symm
  | cons first types =>
    refine ⟨id, rest.filterMap (withoutDeclarator type.arrayName), hid, ?_, ?_, ?_⟩
    · have hremoved := congrArg (List.filterMap (withoutDeclarator type.arrayName)) hrest
      rw [List.filterMap_append, filterMap_preamble _ (hpreamble _)] at hremoved
      rw [withoutArrays, List.foldl_append]
      exact hremoved
    · cases horder : (arrayOrder (first :: types)).filter fun t => t ≠ type with
      | nil =>
        simpa [arrayDeclarations, takeWhile_substitute] using takeWhile_behind (by simp) hrest horder
      | cons other order => rfl
    · rw [Shader.removeUniform, ht, List.filterMap_append, List.filterMap_append,
        filterMap_preamble _ (hpreamble _), arrayDeclarations_without, filterMap_substitute]
      rfl

/-- Declaring an array anew puts it in front of the other one. -/
theorem Arranged.redeclared {s t : Shader} {types : List ScalarType} {length length' : ScalarType → Nat}
    {next id : NodeId} {σ : Substitution} (h : s.Arranged types length next σ t) (type : ScalarType)
    (hid : next ≤ id) (hlength : ∀ other, other ≠ type → length' other = length other) :
    s.Arranged (types ++ [type]) length' next σ
      (t.redeclared id type.arrayName type (length' type)) := by
  obtain ⟨ids, rest, hids, hrest, hstop, hremoved⟩ := h.removeUniform type
  have hpreamble : ∀ d ∈ s.front (types ++ [type]).head?, d.isPreamble := fun d hd => front_preamble hd
  refine ⟨Function.update ids type id, rest, fun other hother => ?_, hrest, ?_⟩
  · by_cases heq : other = type
    · rw [heq, Function.update_self]
      exact hid
    · rw [Function.update_of_ne heq]
      exact hids other (by simpa [heq] using hother)
  · have hothers : arrayDeclarations (Function.update ids type id) length'
          ((arrayOrder types).filter fun t => t ≠ type) =
        arrayDeclarations ids length ((arrayOrder types).filter fun t => t ≠ type) := by
      refine List.map_congr_left fun other hother => ?_
      have hne : other ≠ type := by simpa using List.of_mem_filter hother
      rw [Function.update_of_ne hne, hlength other hne]
    rw [Shader.redeclared, hremoved, addDeclaration_behind hpreamble hstop, arrayOrder_snoc, ← hothers]
    simp [arrayDeclarations]

theorem Arranged.substitute {s t : Shader} {types : List ScalarType} {length : ScalarType → Nat}
    {next : NodeId} {σ τ : Substitution} (h : s.Arranged types length next σ t)
    (hτ : ∀ i, next ≤ i → τ i = none) :
    s.Arranged types length next (σ.andThen τ) (t.substitute τ) := by
  obtain ⟨id, rest, hid, hrest, ht⟩ := h
  refine ⟨id, rest, hid, hrest, ?_⟩
  have harrays : (arrayDeclarations id length (arrayOrder types)).map (Declaration.substitute τ) =
      arrayDeclarations id length (arrayOrder types) := by
    refine map_eq_self fun d hd => Declaration.substitute_spared fun n hn => hτ n.id ?_
    obtain ⟨type, htype, rfl⟩ := List.mem_map.1 hd
    have hnew := hid type (mem_arrayOrder.1 htype)
    have hids : n.id ∈ (arrayDeclarationAt (id type) type.arrayName type (length type)).ids :=
      List.mem_map_of_mem hn
    rw [arrayDeclarationAt_ids] at hids
    simp only [List.mem_cons, List.not_mem_nil, or_false] at hids
    grind
  rw [Shader.substitute, ht, List.map_append, List.map_append,
    map_preamble τ fun d hd => front_preamble hd, harrays, List.map_map]
  simp only [Function.comp_def, Declaration.substitute_substitute]

end Shader

def Metadata.arrayLength (m : Metadata) (type : ScalarType) : Nat :=
  match m.contents type.arrayName with
  | .ok c => c.values.length
  | .error _ => 0

theorem Metadata.arrayLength_eq {m : Metadata} {type : ScalarType} {c : ArrayContents}
    (h : m.contents type.arrayName = .ok c) : m.arrayLength type = c.values.length := by
  rw [arrayLength, h]

def promotedTypes (run : List Promotion) : List ScalarType := (run.map Promotion.value).map Scalar.type

theorem promotedTypes_snoc (run : List Promotion) (p : Promotion) :
    promotedTypes (run ++ [p]) = promotedTypes run ++ [p.value.type] := by
  simp [promotedTypes]

theorem Substitution.andThen_isSome {σ τ : Substitution} {i : NodeId} :
    (σ.andThen τ i).isSome ↔ (σ i).isSome ∨ (τ i).isSome := by
  rw [andThen]
  cases σ i <;> simp

namespace Job

/-- What a run makes of a job, its stages arranged and the values of its literals in the arrays. -/
structure Carries (job : Job) (run : List Promotion) (after : Job) (σ : Stage → Substitution) :
    Prop where
  sound : after.Sound
  supply : job.ids.next ≤ after.ids.next
  names : after.stages.map Prod.fst = job.stages.map Prod.fst
  stages : ∀ stage s, (stage, s) ∈ job.stages → ∃ t, (stage, t) ∈ after.stages ∧
    s.Arranged (promotedTypes run) after.metadata.arrayLength job.ids.next (σ stage) t
  places : ∀ stage id, (σ stage id).isSome ↔ (stage, id) ∈ run.map Promotion.place
  reads : ∀ p ∈ run, ∃ id position values, job.ids.next ≤ id ∧
    σ p.stage p.node = some (elementAt id p.arrayName position) ∧
    after.metadata.contents p.arrayName = .ok ⟨p.value.type, values⟩ ∧
    values[position]? = some p.value
  interned : ∀ first, (∀ type ∈ (promotedTypes run).head?, type = first) →
    job.metadata.Interned first (run.map Promotion.value) after.metadata

theorem Carries.nil {job : Job} (h : job.Sound) : job.Carries [] job fun _ _ => none :=
  ⟨h, Nat.le_refl _, rfl, fun _ s hs => ⟨s, hs, .nil s _ _⟩, by simp, by simp,
    fun first _ => .nil _ first⟩

theorem Declares.arrayLength {job after : Job} {value : Scalar} {position : Nat} {values : List Scalar}
    (h : job.Declares value position values after) :
    after.metadata.arrayLength value.type = values.length ∧
      ∀ other, other ≠ value.type →
        after.metadata.arrayLength other = job.metadata.arrayLength other := by
  refine ⟨Metadata.arrayLength_eq h.array.contents, fun other hother => ?_⟩
  obtain ⟨-, -, -, -, -, -, -, -, hothers⟩ := Metadata.intern_array h.interned
  have hname : other.arrayName ≠ value.type.arrayName := fun heq =>
    hother (ScalarType.arrayName_injective heq)
  rw [Metadata.arrayLength, Metadata.arrayLength, Metadata.contents, Metadata.contents,
    hothers _ hname]

theorem Carries.snoc {job mid after : Job} {run : List Promotion} {p : Promotion}
    {σ : Stage → Substitution} (h : job.Carries run mid σ) (hold : p.node < job.ids.next)
    (hp : p.place ∉ run.map Promotion.place) (hvalues : ∀ q ∈ run, q.value.Stable)
    (hvalue : p.value.Stable)
    (hstored : ∀ (type : ScalarType) (c : ArrayContents),
      job.metadata.contents type.arrayName = .ok c → ∀ v ∈ c.values, v.Stable)
    (happly : mid.apply p = (.ok (), after)) : ∃ σ', job.Carries (run ++ [p]) after σ' := by
  obtain ⟨s, position, values, declared, -, hdeclares, -, rfl⟩ := apply_eq_ok h.sound happly
  have hsound := hdeclares.sound h.sound
  have hnew : job.ids.next ≤ declared.ids.next := h.supply.trans hdeclares.supply
  have hread := hdeclares.reads hvalue
  have hcontents := hdeclares.array.contents
  obtain ⟨hlength, hlengths⟩ := hdeclares.arrayLength
  -- the literal is older than all that the run has put in, so that stays
  have hspared : ∀ stage i, job.ids.next ≤ i →
      p.substitution (elementAt declared.ids.next p.arrayName position) stage i = none := by
    intro stage i hi
    rw [Promotion.substitution_apply, if_neg]
    intro heq
    have hnode : i = p.node := congrArg Prod.snd heq
    exact absurd hold (Nat.not_lt.2 (hnode ▸ hi))
  refine ⟨fun stage => (σ stage).andThen
    (p.substitution (elementAt declared.ids.next p.arrayName position) stage), ?_⟩
  refine ⟨readElement_sound hsound p position, hnew.trans (Nat.le_add_right _ _), ?_, ?_, ?_, ?_, ?_⟩
  · rw [readElement, List.map_map]
    exact hdeclares.stages.stages_eq.trans h.names
  · intro stage x hx
    obtain ⟨t, ht, harranged⟩ := h.stages stage x hx
    obtain ⟨id, hid, -, hredeclared⟩ := hdeclares.stages.mem ht
    have hagain := harranged.redeclared p.value.type (h.supply.trans hid) hlengths
    rw [hlength] at hagain
    rw [promotedTypes_snoc]
    exact ⟨_, List.mem_map_of_mem hredeclared, hagain.substitute (hspared stage)⟩
  · intro stage i
    rw [Substitution.andThen_isSome, h.places, Promotion.substitution_apply, List.map_append,
      List.mem_append]
    simp [apply_ite Option.isSome]
  · intro q hq
    rcases List.mem_append.1 hq with hq | hq
    · obtain ⟨id, i, before, hid, hσ, hbefore, hi⟩ := h.reads q hq
      obtain ⟨later, hlater, hi'⟩ := Metadata.intern_keeps hdeclares.interned _ _ _ _ _ hbefore hi
        (hvalues q hq)
      refine ⟨id, i, later, hid, ?_, hlater, hi'⟩
      simp only [Substitution.andThen, hσ]
      rw [elementAt_spared fun j hj => hspared q.stage j (Nat.le_trans hid hj)]
    · obtain rfl := List.mem_singleton.1 hq
      refine ⟨declared.ids.next, position, values, hnew, ?_, hcontents, hread⟩
      have hnone : σ q.stage q.node = none :=
        Option.not_isSome_iff_eq_none.1 fun hsome => hp ((h.places _ _).1 hsome)
      simp only [Substitution.andThen, hnone]
      rw [Promotion.substitution_apply]
      exact if_pos rfl
  · intro first hfirst
    have hrun : ∀ type ∈ (promotedTypes run).head?, type = first := by
      intro type htype
      refine hfirst type ?_
      rw [promotedTypes_snoc, List.head?_append, Option.mem_def.1 htype]
      rfl
    obtain ⟨type, htype⟩ : ∃ type, (promotedTypes (run ++ [p])).head? = some type := by
      cases run <;> exact ⟨_, rfl⟩
    obtain rfl := hfirst type htype
    rw [promotedTypes, List.map_append] at htype
    rw [List.map_append]
    exact (h.interned type hrun).snoc htype (fun values hvalues => hstored _ _ hvalues)
      (List.forall_mem_map.2 hvalues) hvalue hdeclares.interned

theorem Carries.append {job mid : Job} {run rest : List Promotion} {σ : Stage → Substitution}
    (h : job.Carries run mid σ) (hold : ∀ p ∈ rest, p.node < job.ids.next)
    (hplaces : ((run ++ rest).map Promotion.place).Nodup)
    (hvalues : ∀ p ∈ run ++ rest, p.value.Stable)
    (hstored : ∀ (type : ScalarType) (c : ArrayContents),
      job.metadata.contents type.arrayName = .ok c → ∀ v ∈ c.values, v.Stable)
    (hok : (mid.applyAll rest).failure = none) :
    ∃ σ', job.Carries (run ++ rest) (mid.applyAll rest).job σ' := by
  induction rest generalizing mid run σ with
  | nil =>
    rw [List.append_nil]
    exact ⟨σ, h⟩
  | cons p rest ih =>
    rcases happly : mid.apply p with ⟨result, after⟩
    cases result with
    | error e => simp [applyAll, happly] at hok
    | ok u =>
      simp only [applyAll, happly] at hok ⊢
      have hp : p.place ∉ run.map Promotion.place := by
        rw [List.map_append, List.map_cons] at hplaces
        exact fun hmem => (List.nodup_append.1 hplaces).2.2 _ hmem _ List.mem_cons_self rfl
      rw [List.append_cons] at hplaces hvalues ⊢
      obtain ⟨σ', hσ'⟩ := h.snoc (hold p List.mem_cons_self) hp
        (fun q hq => hvalues q (by simp [hq])) (hvalues p (by simp)) hstored happly
      exact ih hσ' (fun q hq => hold q (List.mem_cons_of_mem _ hq)) hplaces hvalues hok

theorem applyAll_carries {job : Job} (h : job.Sound) {run : List Promotion} (hrun : run.Nodup)
    (hfound : ∀ p ∈ run, p ∈ job.promotions) (hvalues : ∀ p ∈ run, p.value.Stable)
    (hstored : ∀ (type : ScalarType) (c : ArrayContents),
      job.metadata.contents type.arrayName = .ok c → ∀ v ∈ c.values, v.Stable)
    (hok : (job.applyAll run).failure = none) :
    ∃ σ, job.Carries run (job.applyAll run).job σ := by
  have hplaces : (run.map Promotion.place).Nodup := by
    refine hrun.map_on fun p hp q hq heq => ?_
    exact List.inj_on_of_nodup_map (promotions_nodup h) (hfound p hp) (hfound q hq) heq
  refine (Carries.nil h).append (fun p hp => ?_) hplaces hvalues hstored hok
  obtain ⟨s, hs, hps⟩ := mem_promotions (hfound p hp)
  exact (h.shaders _ hs).bounded _ ((Shader.promotions_ids p.stage s).subset (List.mem_map_of_mem hps))

end Job

/-- Two shaders that came of `s` when the same literals were promoted in two orders, the types of the
values being `types` and `types'`. Both have the declarations of `s` without the arrays, and in one
place the arrays. The identities and the order of these are their own, and how much of the preamble
stands before them depends on the type that came first. -/
def Shader.SameUpToOrder (s : Shader) (types types' : List ScalarType) (length : ScalarType → Nat)
    (σ σ' : Substitution) (t t' : Shader) : Prop :=
  ∃ (order order' : List ScalarType) (id id' : ScalarType → NodeId) (rest rest' : List Declaration),
    order.Perm order' ∧ order.Nodup ∧ (∀ type, type ∈ order ↔ type ∈ types) ∧
    s.front types.head? ++ rest = (s.withoutArrays types).declarations ∧
    s.front types'.head? ++ rest' = (s.withoutArrays types).declarations ∧
    t = ⟨s.front types.head? ++
      (arrayDeclarations id length order ++ rest.map (Declaration.substitute σ))⟩ ∧
    t' = ⟨s.front types'.head? ++
      (arrayDeclarations id' length order' ++ rest'.map (Declaration.substitute σ'))⟩

/-- Metadata that came of `m` when the same values were interned in two orders. The bindings are the
same, unless both arrays have none at first and the orders begin with different types. Then they are
exchanged. -/
structure Metadata.SameUpToOrder (m : Metadata) (types types' : List ScalarType) (a b : Metadata) :
    Prop where
  arrays : ∀ type ∈ types, a.SameArray b type
  others : ∀ name, (∀ type ∈ types, name ≠ type.arrayName) → a.table.get? name = b.table.get? name
  bindings : (∀ type, a.binding? type = b.binding? type) ∨
    types.head? ≠ types'.head? ∧ (∀ type, m.unbound type) ∧
      ∀ type other, type ≠ other → a.binding? type = b.binding? other

/-- The substitution is for the places of the run, and what it puts there reads the values. -/
structure Job.Reads (job : Job) (run : List Promotion) (σ : Stage → Substitution) : Prop where
  places : ∀ stage id, (σ stage id).isSome ↔ ∃ p ∈ run, p.stage = stage ∧ p.node = id
  values : ∀ p ∈ run, ∃ id position values, σ p.stage p.node = some (elementAt id p.arrayName position) ∧
    job.metadata.contents p.arrayName = .ok ⟨p.value.type, values⟩ ∧ values[position]? = some p.value

theorem Shader.Arranged.sameUpToOrder {s t t' : Shader} {types types' : List ScalarType}
    {length length' : ScalarType → Nat} {next : NodeId} {σ σ' : Substitution}
    (h : s.Arranged types length next σ t) (h' : s.Arranged types' length' next σ' t')
    (hperm : types.Perm types') (hlength : ∀ type ∈ types, length' type = length type) :
    s.SameUpToOrder types types' length σ σ' t t' := by
  obtain ⟨id, rest, -, hrest, ht⟩ := h
  obtain ⟨id', rest', -, hrest', ht'⟩ := h'
  rw [← s.withoutArrays_perm hperm] at hrest'
  have horder := arrayOrder_perm hperm
  have harrays : arrayDeclarations id' length' (arrayOrder types') =
      arrayDeclarations id' length (arrayOrder types') := by
    refine List.map_congr_left fun type htype => ?_
    rw [hlength type (hperm.mem_iff.2 (mem_arrayOrder.1 htype))]
  rw [harrays] at ht'
  exact ⟨_, _, id, id', rest, rest', horder, arrayOrder_nodup _, fun _ => mem_arrayOrder, hrest, hrest',
    congrArg Shader.mk ht, congrArg Shader.mk ht'⟩

namespace Metadata

theorem SameArray.arrayLength {a b : Metadata} {type : ScalarType} (h : a.SameArray b type) :
    b.arrayLength type = a.arrayLength type := by
  obtain ⟨r, s, values, values', hr, hs, hdecode, hdecode', hperm, -⟩ := h
  have ha : a.contents type.arrayName = .ok ⟨type, values⟩ := contents_eq_ok.2 ⟨r, hr, hdecode⟩
  have hb : b.contents type.arrayName = .ok ⟨type, values'⟩ := contents_eq_ok.2 ⟨s, hs, hdecode'⟩
  rw [arrayLength_eq ha, arrayLength_eq hb]
  exact hperm.length_eq.symm

theorem Interned.sameUpToOrder {m a b : Metadata} {xs ys : List Scalar}
    (ha : ∀ first, (∀ type ∈ (xs.map Scalar.type).head?, type = first) → m.Interned first xs a)
    (hb : ∀ first, (∀ type ∈ (ys.map Scalar.type).head?, type = first) → m.Interned first ys b)
    (h : xs.Perm ys) : m.SameUpToOrder (xs.map Scalar.type) (ys.map Scalar.type) a b := by
  cases xs with
  | nil =>
    obtain rfl := h.nil_eq
    have ha := ha .int (by simp)
    have hb := hb .int (by simp)
    exact ⟨by simp, fun name _ => ha.sameEntry hb h (by simp), .inl (ha.sameBindings hb h (.inl rfl))⟩
  | cons x xs =>
    have hys : ys ≠ [] := by
      rintro rfl
      cases h.eq_nil
    obtain ⟨y, ys', rfl⟩ := List.exists_cons_of_ne_nil hys
    have ha := ha x.type (by simp)
    have hb := hb y.type (by simp)
    refine ⟨List.forall_mem_map.2 fun v hv => ha.sameArray hb h hv, fun name hname => ?_, ?_⟩
    · exact ha.sameEntry hb h fun v hv => hname v.type (List.mem_map_of_mem hv)
    · by_cases hsame : x.type = y.type ∨ m.unbound x.type = false ∨ m.unbound y.type = false
      · exact .inl (ha.sameBindings hb h hsame)
      · simp only [not_or, Bool.not_eq_false] at hsame
        obtain ⟨hne, hunbound, hunbound'⟩ := hsame
        refine .inr ⟨by simpa using hne, fun type => ?_, fun type other hother => ?_⟩
        · by_cases htype : type = x.type
          · rwa [htype]
          · rwa [ScalarType.eq_of_ne htype (Ne.symm hne)]
        · exact ha.swappedBindings hb h rfl rfl hne hunbound hunbound' hother

end Metadata

namespace Job

theorem Carries.jobReads {job after : Job} {run : List Promotion} {σ : Stage → Substitution}
    (h : job.Carries run after σ) : after.Reads run σ := by
  refine ⟨fun stage id => ?_, fun p hp => ?_⟩
  · simp [h.places, Promotion.place]
  · obtain ⟨id, position, values, -, hreads⟩ := h.reads p hp
    exact ⟨id, position, values, hreads⟩

/-- Promotions in two orders make the same of a job, up to the order of the arrays and of the values in
them. At each promoted literal both jobs read its value, and nothing else in the functions differs. -/
theorem applyAll_orders {job found a b : Job} {ops run run' : List Promotion} (h : job.Assembled)
    (hfind : job.findPromotions = (.ok ops, found)) (hrun : run.Nodup) (hops : ∀ p ∈ run, p ∈ ops)
    (hperm : run.Perm run') (hok : (found.applyAll run).failure = none)
    (hok' : (found.applyAll run').failure = none) (ha : a = (found.applyAll run).job)
    (hb : b = (found.applyAll run').job) (hvalues : ∀ p ∈ run, p.value.Stable)
    (hstored : ∀ (type : ScalarType) (c : ArrayContents),
      found.metadata.contents type.arrayName = .ok c → ∀ v ∈ c.values, v.Stable) :
    found.metadata.SameUpToOrder (promotedTypes run) (promotedTypes run') a.metadata b.metadata ∧
    a.stages.map Prod.fst = b.stages.map Prod.fst ∧
    ∃ σ σ' : Stage → Substitution, a.Reads run σ ∧ b.Reads run σ' ∧
      ∀ stage s, (stage, s) ∈ job.stages → ∃ t t', (stage, t) ∈ a.stages ∧ (stage, t') ∈ b.stages ∧
        s.SameUpToOrder (promotedTypes run) (promotedTypes run') a.metadata.arrayLength
          (σ stage) (σ' stage) t t' := by
  subst ha hb
  obtain ⟨rfl, hreserves⟩ := findPromotions_found hfind
  have hsame : found.promotions = job.promotions := by rw [promotions, hreserves.stages, promotions]
  have hsound : found.Sound := hreserves.sound h.sound
  obtain ⟨σ, hσ⟩ := applyAll_carries hsound hrun (fun p hp => hsame ▸ hops p hp) hvalues hstored hok
  obtain ⟨σ', hσ'⟩ := applyAll_carries hsound (hperm.nodup_iff.1 hrun)
    (fun p hp => hsame ▸ hops p (hperm.mem_iff.2 hp)) (fun p hp => hvalues p (hperm.mem_iff.2 hp))
    hstored hok'
  have hmetadata := Metadata.Interned.sameUpToOrder hσ.interned hσ'.interned
    (hperm.map Promotion.value)
  have hreads := hσ'.jobReads
  refine ⟨hmetadata, hσ.names.trans hσ'.names.symm, σ, σ', hσ.jobReads, ⟨?_, ?_⟩, ?_⟩
  · intro stage id
    simp only [hreads.places, hperm.mem_iff]
  · exact fun p hp => hreads.values p (hperm.mem_iff.1 hp)
  · intro stage s hs
    rw [← hreserves.stages] at hs
    obtain ⟨t, ht, harranged⟩ := hσ.stages stage s hs
    obtain ⟨t', ht', harranged'⟩ := hσ'.stages stage s hs
    refine ⟨t, t', ht, ht', harranged.sameUpToOrder harranged' ?_ fun type htype => ?_⟩
    · exact (hperm.map Promotion.value).map Scalar.type
    · exact (hmetadata.arrays type htype).arrayLength

/-- The whole numbers change places, so that both are read at another index. -/
theorem mixed_orders_agree :
    (mixed.applyAll mixedPromotions).failure = none ∧
      (mixed.applyAll mixedPromotions.reverse).failure = none ∧
      (mixed.applyAll mixedPromotions).job.metadata.contents "_GLF_uniform_int_values" =
        .ok ⟨.int, [.int 1, .int 2]⟩ ∧
      (mixed.applyAll mixedPromotions.reverse).job.metadata.contents "_GLF_uniform_int_values" =
        .ok ⟨.int, [.int 2, .int 1]⟩ ∧
      mixed.metadata.SameUpToOrder [.int, .int, .float] [.float, .int, .int]
        (mixed.applyAll mixedPromotions).job.metadata
        (mixed.applyAll mixedPromotions.reverse).job.metadata ∧
      ∃ σ σ' : Stage → Substitution, (mixed.applyAll mixedPromotions).job.Reads mixedPromotions σ ∧
        (mixed.applyAll mixedPromotions.reverse).job.Reads mixedPromotions σ' ∧
        (∃ id id', σ .fragment 7 = some (elementAt id "_GLF_uniform_int_values" 1) ∧
          σ' .fragment 7 = some (elementAt id' "_GLF_uniform_int_values" 0)) ∧
        ∃ t t', (.fragment, t) ∈ (mixed.applyAll mixedPromotions).job.stages ∧
          (.fragment, t') ∈ (mixed.applyAll mixedPromotions.reverse).job.stages ∧
          mixedShader.SameUpToOrder [.int, .int, .float] [.float, .int, .int]
            (mixed.applyAll mixedPromotions).job.metadata.arrayLength (σ .fragment) (σ' .fragment)
            t t' := by
  have hints : (mixed.applyAll mixedPromotions).job.metadata.contents "_GLF_uniform_int_values" =
        .ok ⟨.int, [.int 1, .int 2]⟩ ∧
      (mixed.applyAll mixedPromotions.reverse).job.metadata.contents "_GLF_uniform_int_values" =
        .ok ⟨.int, [.int 2, .int 1]⟩ := by decide +kernel
  have hok : (mixed.applyAll mixedPromotions).failure = none ∧
      (mixed.applyAll mixedPromotions.reverse).failure = none := by decide +kernel
  have hcontents : ∀ type : ScalarType, mixed.metadata.contents type.arrayName = .ok ⟨type, []⟩ := by
    intro type
    cases type <;> rfl
  have hstored : ∀ (type : ScalarType) (c : ArrayContents),
      mixed.metadata.contents type.arrayName = .ok c → ∀ v ∈ c.values, v.Stable := by
    intro type c hc
    obtain rfl := Except.ok.inj ((hcontents type).symm.trans hc)
    simp
  obtain ⟨hmetadata, -, σ, σ', hσ, hσ', hstages⟩ := applyAll_orders mixed_assembled mixed_found
    (by decide) (fun _ hp => hp) (List.reverse_perm mixedPromotions).symm hok.1 hok.2 rfl rfl
    mixed_stable hstored
  have htwo : (⟨.fragment, 7, .int 2, 2⟩ : Promotion) ∈ mixedPromotions := by decide
  -- there is one index at which the value is read
  have hindex : ∀ {values : List Scalar} {i j : Nat}, values.Nodup → values[i]? = some (.int 2) →
      values[j]? = some (.int 2) → i = j := by
    intro values i j hnodup hi hj
    obtain ⟨hlt, -⟩ := List.getElem?_eq_some_iff.1 hi
    exact (List.getElem?_inj hlt hnodup).1 (hi.trans hj.symm)
  obtain ⟨id, i, values, hread, hcontents₁, hvalue⟩ := hσ.values _ htwo
  obtain ⟨id', j, values', hread', hcontents₂, hvalue'⟩ := hσ'.values _ htwo
  obtain ⟨-, rfl⟩ := ArrayContents.mk.inj (Except.ok.inj (hints.1.symm.trans hcontents₁))
  obtain ⟨-, rfl⟩ := ArrayContents.mk.inj (Except.ok.inj (hints.2.symm.trans hcontents₂))
  obtain rfl := hindex (by decide) hvalue (rfl : [.int 1, .int 2][1]? = some (Scalar.int 2))
  obtain rfl := hindex (by decide) hvalue' (rfl : [.int 2, .int 1][0]? = some (Scalar.int 2))
  exact ⟨hok.1, hok.2, hints.1, hints.2, hmetadata, σ, σ', hσ, hσ', ⟨id, id', hread, hread'⟩,
    hstages _ _ List.mem_cons_self⟩

/-- One order exchanges the bindings and brings the default precision before the arrays, while it stays
behind them in the other. -/
theorem orders_told_apart :
    mixed.Assembled ∧ mixed.findPromotions = (.ok mixedPromotions, mixed) ∧
      (∀ p ∈ mixedPromotions, p.value.Stable) ∧
      (mixed.applyAll mixedPromotions).failure = none ∧
      (mixed.applyAll mixedPromotions.reverse).failure = none ∧
      (mixed.applyAll mixedPromotions).job.metadata.binding? .int = some 0 ∧
      (mixed.applyAll mixedPromotions.reverse).job.metadata.binding? .int = some 1 ∧
      (mixed.applyAll mixedPromotions).job.stages.map
        (fun x => x.2.declarations.map Declaration.isPreamble) = [[false, false, true, false]] ∧
      (mixed.applyAll mixedPromotions.reverse).job.stages.map
        (fun x => x.2.declarations.map Declaration.isPreamble) = [[true, false, false, false]] :=
  ⟨mixed_assembled, mixed_found, mixed_stable, by decide +kernel⟩

end Job
end ShaderLift
