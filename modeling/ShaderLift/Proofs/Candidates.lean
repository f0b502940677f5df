import Mathlib
import ShaderLift.Proofs.ValuePreservation

/-!
Which literals of a job are found, and in which order. What is found is said by paths: a path leads
from a function with a body down to the literal, and around array sizes, constants and what reads a
literal array. There is one promotion for each of these paths and none besides, in the order of the
source.
-/

namespace ShaderLift

/-- One path comes before another: a node comes before all below it, and of two children the one that
is listed first comes before the other, each with all below it. -/
inductive Precedes : List (Slot × Node) → Path → Path → Prop where
  | above (children : List (Slot × Node)) (slot : Slot) (rest : Path) :
      Precedes children [] (slot :: rest)
  | beside {children : List (Slot × Node)} {a b : Slot}
      (h : [a, b].Sublist (children.map Prod.fst)) (p q : Path) : Precedes children (a :: p) (b :: q)
  | inside {children : List (Slot × Node)} {slot : Slot} {c : Node} (hc : (slot, c) ∈ children)
      {p q : Path} (h : Precedes c.children p q) : Precedes children (slot :: p) (slot :: q)

theorem zipIdx_increases {α : Type} (xs : List α) : xs.zipIdx.Pairwise fun x y => x.2 < y.2 := by
  refine List.pairwise_map.1 ?_
  rw [List.zipIdx_map_snd]
  exact List.pairwise_lt_range'

theorem Shader.slots_nodup (s : Shader) : (s.children.map Prod.fst).Nodup :=
  items_slots (fun _ _ => Slot.topLevel.inj) .declaration s.declarations

theorem Precedes.irrefl {children : List (Slot × Node)} (hslots : (children.map Prod.fst).Nodup)
    {p q : Path} (h : Precedes children p q) : p ≠ q := by
  induction h with
  | above => exact (List.cons_ne_nil _ _).symm
  | beside h p q =>
    intro heq
    obtain ⟨rfl, -⟩ := List.cons.inj heq
    exact List.nodup_iff_sublist.1 hslots _ h
  | @inside _ _ c _ _ _ _ ih =>
    intro heq
    exact ih c.slots_nodup (List.cons.inj heq).2

theorem Precedes.pairwise_children {children kept : List (Slot × Node)} (hkept : kept.Sublist children)
    {paths : Slot × Node → List Path} (h : ∀ c ∈ kept, (paths c).Pairwise (Precedes c.2.children)) :
    (kept.flatMap fun c => (paths c).map (c.1 :: ·)).Pairwise (Precedes children) := by
  rw [List.pairwise_flatMap]
  constructor
  · intro c hc
    exact List.pairwise_map.2 ((h c hc).imp fun hpq => .inside (hkept.subset hc) hpq)
  · refine List.pairwise_iff_forall_sublist.2 fun {a b} hab p hp q hq => ?_
    obtain ⟨p', -, rfl⟩ := List.mem_map.1 hp
    obtain ⟨q', -, rfl⟩ := List.mem_map.1 hq
    exact .beside ((hab.trans hkept).map Prod.fst) p' q'

theorem forall₂_flatMap {α β γ : Type} {R : β → γ → Prop} {f : α → List β} {g : α → List γ}
    {xs : List α} (h : ∀ x ∈ xs, List.Forall₂ R (f x) (g x)) :
    List.Forall₂ R (xs.flatMap f) (xs.flatMap g) := by
  induction xs with
  | nil => exact .nil
  | cons x xs ih =>
    rw [List.flatMap_cons, List.flatMap_cons]
    exact List.rel_append (h x List.mem_cons_self) (ih fun y hy => h y (List.mem_cons_of_mem _ hy))

namespace Node

/-- The path leads from the node to a literal that can be promoted, and there is a way along it. -/
structure Leads (n : Node) (path : Path) : Prop where
  literal : ∃ m, n.at? path = some m ∧ m.literal?.isSome
  slots : ∀ slot ∈ path, slot.isArraySize = false
  unsealed : ∀ q m, q <+: path → q ≠ path → n.at? q = some m → m.isSealed = false

theorem leads_nil {n : Node} : n.Leads [] ↔ n.literal?.isSome := by
  constructor
  · rintro ⟨⟨m, hm, hliteral⟩, -, -⟩
    obtain rfl := Option.some.inj hm
    exact hliteral
  · intro h
    refine ⟨⟨n, rfl, h⟩, by simp, fun q m hq hne => ?_⟩
    exact absurd (List.prefix_nil.1 hq) hne

theorem leads_cons {n : Node} {slot : Slot} {rest : Path} :
    n.Leads (slot :: rest) ↔ n.isSealed = false ∧ slot.isArraySize = false ∧
      ∃ c, (slot, c) ∈ n.children ∧ c.Leads rest := by
  constructor
  · rintro ⟨⟨m, hm, hliteral⟩, hslots, hunsealed⟩
    obtain ⟨c, hc, hat⟩ := Option.bind_eq_some_iff.1 hm
    refine ⟨hunsealed [] n List.nil_prefix (by simp) rfl, hslots slot List.mem_cons_self, c,
      child?_eq_some.1 hc, ⟨m, hat, hliteral⟩, fun x hx => hslots x (List.mem_cons_of_mem _ hx), ?_⟩
    intro q k hq hne hk
    refine hunsealed (slot :: q) k ((List.prefix_cons_inj slot).2 hq) (by simpa using hne) ?_
    rw [at?, hc]
    exact hk
  · rintro ⟨hopen, hslot, c, hc, ⟨m, hm, hliteral⟩, hslots, hunsealed⟩
    have hchild := child?_eq_some.2 hc
    refine ⟨⟨m, by rw [at?, hchild]; exact hm, hliteral⟩, ?_, ?_⟩
    · intro x hx
      rcases List.mem_cons.1 hx with rfl | hx
      · exact hslot
      · exact hslots x hx
    · intro q k hq hne hk
      cases q with
      | nil =>
        obtain rfl := Option.some.inj hk
        exact hopen
      | cons x q =>
        obtain ⟨rfl, hrest⟩ := List.cons_prefix_cons.1 hq
        rw [at?, hchild] at hk
        exact hunsealed q k hrest (fun heq => hne (heq ▸ rfl)) hk

/-- The promotion is of the literal that the path leads to from a node at some depth. -/
structure Marks (n : Node) (stage : Stage) (depth : Nat) (path : Path) (p : Promotion) : Prop where
  stage : p.stage = stage
  depth : p.depth = depth + path.length
  literal : n.at? path = some (.expression (.literal p.node p.value.toLiteral))

theorem Marks.cons {n c : Node} {slot : Slot} (hc : (slot, c) ∈ n.children) {stage : Stage}
    {depth : Nat} {path : Path} {p : Promotion} (h : c.Marks stage (depth + 1) path p) :
    n.Marks stage depth (slot :: path) p := by
  refine ⟨h.stage, ?_, ?_⟩
  · rw [h.depth, List.length_cons]
    omega
  · rw [at?, child?_eq_some.2 hc]
    exact h.literal

/-- The paths that lead to literals below a node, in the order of the source, and the promotions of
these literals. -/
structure Places (n : Node) (stage : Stage) (depth : Nat) (paths : List Path)
    (found : List Promotion) : Prop where
  mem : ∀ path, path ∈ paths ↔ n.Leads path
  ordered : paths.Pairwise (Precedes n.children)
  marks : List.Forall₂ (n.Marks stage depth) paths found

section

variable {n : Node} {stage : Stage} {depth : Nat}

theorem Places.of_sealed (h : n.isSealed) : n.Places stage depth [] (n.promotionsAt stage depth) := by
  refine ⟨fun path => iff_of_false List.not_mem_nil fun hleads => ?_, .nil, ?_⟩
  · cases path with
    | nil =>
      obtain ⟨⟨id, x⟩, hliteral⟩ := Option.isSome_iff_exists.1 (leads_nil.1 hleads)
      obtain ⟨v, rfl, -⟩ := literal?_eq_some hliteral
      cases h
    | cons slot rest =>
      rw [(leads_cons.1 hleads).1] at h
      cases h
  · rw [promotionsAt_of_sealed h]
    exact .nil

theorem Places.of_literal {id : NodeId} {v : Literal} {x : Scalar} (h : Scalar.ofLiteral? v = some x) :
    (expression (.literal id v)).Places stage depth [[]]
      ((expression (.literal id v)).promotionsAt stage depth) := by
  have hliteral : (expression (.literal id v)).literal? = some (id, x) := by simp [literal?, h]
  refine ⟨fun path => ?_, List.pairwise_singleton _ _, ?_⟩
  · cases path with
    | nil => simp [leads_nil, hliteral]
    | cons slot rest => simp [leads_cons, children, Expr.children]
  · have hpromotions : (expression (.literal id v)).promotionsAt stage depth =
        [⟨stage, id, x, depth⟩] := by
      rw [promotionsAt_eq, hliteral]
      rfl
    rw [hpromotions]
    refine .cons ⟨rfl, rfl, ?_⟩ .nil
    rw [Scalar.toLiteral_of_ofLiteral? h]
    rfl

theorem Places.of_children (hopen : n.isSealed = false) (hliteral : n.literal? = none)
    {paths : Slot × Node → List Path}
    (h : ∀ c ∈ n.children.filter fun c => !c.1.isArraySize,
      c.2.Places stage (depth + 1) (paths c) (c.2.promotionsAt stage (depth + 1))) :
    n.Places stage depth
      ((n.children.filter fun c => !c.1.isArraySize).flatMap fun c => (paths c).map (c.1 :: ·))
      (n.promotionsAt stage depth) := by
  constructor
  · intro path
    cases path with
    | nil => simp [leads_nil, hliteral]
    | cons slot rest =>
      rw [leads_cons]
      constructor
      · intro hmem
        obtain ⟨⟨slot', c⟩, hc, hmem⟩ := List.mem_flatMap.1 hmem
        obtain ⟨rest', hrest, heq⟩ := List.mem_map.1 hmem
        obtain ⟨rfl, rfl⟩ := List.cons.inj heq
        have hslot := List.of_mem_filter hc
        exact ⟨hopen, by simpa using hslot, c, List.mem_of_mem_filter hc, ((h _ hc).mem _).1 hrest⟩
      · rintro ⟨-, hslot, c, hc, hleads⟩
        have hmem : (slot, c) ∈ n.children.filter fun c => !c.1.isArraySize :=
          List.mem_filter.2 ⟨hc, by simp [hslot]⟩
        exact List.mem_flatMap.2 ⟨_, hmem, List.mem_map.2 ⟨rest, ((h _ hmem).mem _).2 hleads, rfl⟩⟩
  · exact Precedes.pairwise_children List.filter_sublist fun c hc => (h c hc).ordered
  · have hchildren : n.openChildren = (n.children.filter fun c => !c.1.isArraySize).map Prod.snd := by
      rw [openChildren, hopen]
      rfl
    rw [promotionsAt_eq, hliteral, hchildren, List.flatMap_map]
    refine forall₂_flatMap fun c hc => List.forall₂_map_left_iff.2 ?_
    exact (h c hc).marks.imp fun _ _ hmarks => hmarks.cons (List.mem_of_mem_filter hc)

end

theorem exists_places (stage : Stage) (n : Node) (depth : Nat) :
    ∃ paths, n.Places stage depth paths (n.promotionsAt stage depth) := by
  induction n using Node.induction generalizing depth with
  | step n ih =>
    cases hsealed : n.isSealed with
    | true => exact ⟨[], .of_sealed hsealed⟩
    | false =>
      cases hliteral : n.literal? with
      | some found =>
        obtain ⟨id, x⟩ := found
        obtain ⟨v, rfl, hx⟩ := literal?_eq_some hliteral
        exact ⟨[[]], .of_literal hx⟩
      | none =>
        have hbelow : ∀ c ∈ n.children.filter fun c => !c.1.isArraySize, ∃ paths,
            c.2.Places stage (depth + 1) paths (c.2.promotionsAt stage (depth + 1)) :=
          fun c hc => ih c.1 c.2 (List.mem_of_mem_filter hc) (depth + 1)
        choose! paths hpaths using hbelow
        exact ⟨_, .of_children hsealed hliteral hpaths⟩

end Node

namespace Shader

/-- The path leads to a literal that can be promoted. It starts at a function with a body and ends at
a whole or a finite number. It goes through no array size, through no declaration of constants, and
not through what reads a literal array at a literal position. -/
structure Promotable (s : Shader) (path : Path) : Prop where
  function : ∃ i rest id f, path = .topLevel i :: rest ∧
    s.declarations[i]? = some (.function id f) ∧ f.body.isSome
  literal : ∃ id v, s.at? path = some (.expression (.literal id v)) ∧
    ((∃ n, v = .int n) ∨ ∃ x : Single, v = .float x ∧ x.isFinite)
  sizes : ∀ i, .arraySize i ∉ path ∧ .paramArraySize i ∉ path ∧ .memberArraySize i ∉ path
  constants : ∀ q id vars, q <+: path → s.at? q = some (.statement (.declare id vars)) →
    vars.hasQualifier .const = false
  elements : ∀ q, q <+: path → q ≠ path → ∀ (type : ScalarType) (i j k : NodeId) (v : Literal),
    s.at? q ≠ some (.expression (.index i (.name j type.arrayName) (.literal k v)))

end Shader

theorem Scalar.ofLiteral?_isSome {v : Literal} :
    (Scalar.ofLiteral? v).isSome ↔ (∃ n, v = .int n) ∨ ∃ x : Single, v = .float x ∧ x.isFinite := by
  cases v <;> simp [ofLiteral?]

theorem Slot.isArraySize_eq_false {slot : Slot} :
    slot.isArraySize = false ↔
      ∀ i, slot ≠ .arraySize i ∧ slot ≠ .paramArraySize i ∧ slot ≠ .memberArraySize i := by
  cases slot <;> simp [isArraySize]

theorem Node.isSealed_eq_false {n : Node} :
    n.isSealed = false ↔
      (∀ id vars, n = .statement (.declare id vars) → vars.hasQualifier .const = false) ∧
      ∀ (type : ScalarType) (i j k : NodeId) (v : Literal),
        n ≠ .expression (.index i (.name j type.arrayName) (.literal k v)) := by
  cases n with
  | declaration d => simp [isSealed]
  | statement s => cases s <;> simp [isSealed]
  | expression e =>
    simp only [isSealed, reduceCtorEq, false_imp_iff, implies_true, true_and, ne_eq,
      Node.expression.injEq]
    rw [← Bool.not_eq_true, Expr.readsLiteralArray_iff]
    simp only [not_exists]

namespace Shader

theorem at?_topLevel {s : Shader} {i : Nat} {d : Declaration} (h : s.declarations[i]? = some d)
    (path : Path) : s.at? (.topLevel i :: path) = (Node.declaration d).at? path := by
  rw [at?, h]
  rfl

theorem promotable_iff {s : Shader} {path : Path} :
    s.Promotable path ↔ ∃ i d rest, path = .topLevel i :: rest ∧ s.declarations[i]? = some d ∧
      d.hasBody ∧ (Node.declaration d).Leads rest := by
  constructor
  · rintro ⟨⟨i, rest, id, f, rfl, hd, hbody⟩, ⟨_, v, hat, hv⟩, hsizes, hconstants, helements⟩
    have hinside := at?_topLevel hd
    refine ⟨i, _, rest, rfl, hd, hbody, ⟨_, (hinside rest).symm.trans hat, ?_⟩, ?_, ?_⟩
    · simpa [Node.literal?] using Scalar.ofLiteral?_isSome.2 hv
    · intro slot hslot
      refine Slot.isArraySize_eq_false.2 fun j => ⟨?_, ?_, ?_⟩
      · exact fun heq => (hsizes j).1 (heq ▸ List.mem_cons_of_mem _ hslot)
      · exact fun heq => (hsizes j).2.1 (heq ▸ List.mem_cons_of_mem _ hslot)
      · exact fun heq => (hsizes j).2.2 (heq ▸ List.mem_cons_of_mem _ hslot)
    · intro q m hq hne hm
      have hq' := (List.prefix_cons_inj (Slot.topLevel i)).2 hq
      refine Node.isSealed_eq_false.2 ⟨?_, ?_⟩
      · rintro j vars rfl
        exact hconstants _ j vars hq' ((hinside q).trans hm)
      · rintro type j k l w rfl
        exact helements _ hq' (by simpa using hne) type j k l w ((hinside q).trans hm)
  · rintro ⟨i, d, rest, rfl, hd, hbody, ⟨m, hm, hliteral⟩, hslots, hunsealed⟩
    have hinside := at?_topLevel hd
    obtain ⟨⟨id, x⟩, hx⟩ := Option.isSome_iff_exists.1 hliteral
    obtain ⟨v, rfl, hv⟩ := Node.literal?_eq_some hx
    -- the declaration itself is on the way, so a shorter path is one within the declaration
    have hway : ∀ q n, q <+: Slot.topLevel i :: rest → q ≠ Slot.topLevel i :: rest → s.at? q = some n →
        n.isSealed = false := by
      intro q n hq hne hn
      cases q with
      | nil => cases hn
      | cons slot q =>
        obtain ⟨rfl, hrest⟩ := List.cons_prefix_cons.1 hq
        exact hunsealed q n hrest (fun heq => hne (heq ▸ rfl)) ((hinside q).symm.trans hn)
    have hsizes : ∀ slot ∈ Slot.topLevel i :: rest, slot.isArraySize = false :=
      List.forall_mem_cons.2 ⟨rfl, hslots⟩
    refine ⟨?_, ⟨id, v, (hinside rest).trans hm, ?_⟩, fun j => ⟨?_, ?_, ?_⟩, ?_, ?_⟩
    · cases d with
      | function id f => exact ⟨i, rest, id, f, rfl, hd, hbody⟩
      | _ => cases hbody
    · exact Scalar.ofLiteral?_isSome.1 (hv ▸ rfl)
    · exact fun hmem => (Slot.isArraySize_eq_false.1 (hsizes _ hmem) j).1 rfl
    · exact fun hmem => (Slot.isArraySize_eq_false.1 (hsizes _ hmem) j).2.1 rfl
    · exact fun hmem => (Slot.isArraySize_eq_false.1 (hsizes _ hmem) j).2.2 rfl
    · intro q j vars hq hn
      refine (Node.isSealed_eq_false.1 (hway q _ hq ?_ hn)).1 j vars rfl
      rintro rfl
      rw [hinside, hm] at hn
      cases hn
    · intro q hq hne type j k l w hn
      exact (Node.isSealed_eq_false.1 (hway q _ hq hne hn)).2 type j k l w rfl

def openFunctions (s : Shader) : List (Slot × Node) :=
  (s.declarations.zipIdx.filter fun x => x.1.hasBody).map fun x => (.topLevel x.2, .declaration x.1)

theorem mem_openFunctions {s : Shader} {c : Slot × Node} :
    c ∈ s.openFunctions ↔ ∃ i d, s.declarations[i]? = some d ∧ d.hasBody ∧
      c = (.topLevel i, .declaration d) := by
  simp only [openFunctions, List.mem_map, List.mem_filter, Prod.exists, List.mem_zipIdx_iff_getElem?]
  constructor
  · rintro ⟨d, i, ⟨hd, hbody⟩, rfl⟩
    exact ⟨i, d, hd, hbody, rfl⟩
  · rintro ⟨i, d, hd, hbody, rfl⟩
    exact ⟨d, i, ⟨hd, hbody⟩, rfl⟩

theorem promotions_openFunctions (stage : Stage) (s : Shader) :
    s.promotions stage = s.openFunctions.flatMap fun c => c.2.promotionsAt stage 0 := by
  have hfilter : s.declarations.filter Declaration.hasBody =
      (s.declarations.zipIdx.filter fun x => x.1.hasBody).map Prod.fst := by
    conv_lhs => rw [← List.zipIdx_map_fst 0 s.declarations, List.filter_map]
    rfl
  rw [promotions, hfilter, List.flatMap_map, openFunctions, List.flatMap_map]
  rfl

/-- The promotion is of the literal that the path leads to. -/
structure Marks (s : Shader) (path : Path) (p : Promotion) : Prop where
  literal : s.at? path = some (.expression (.literal p.node p.value.toLiteral))
  depth : p.depth + 1 = path.length

/-- The promotions of a shader are those of its promotable literals, in the order of the source. -/
theorem exists_places (stage : Stage) (s : Shader) :
    ∃ paths : List Path, (∀ path, path ∈ paths ↔ s.Promotable path) ∧
      paths.Pairwise (Precedes s.children) ∧
      List.Forall₂ (fun path p => p.stage = stage ∧ s.Marks path p) paths (s.promotions stage) := by
  choose paths hpaths using fun c : Slot × Node => Node.exists_places stage c.2 0
  refine ⟨s.openFunctions.flatMap fun c => (paths c).map (c.1 :: ·), fun path => ?_, ?_, ?_⟩
  · simp only [promotable_iff, List.mem_flatMap, mem_openFunctions, List.mem_map]
    constructor
    · rintro ⟨_, ⟨i, d, hd, hbody, rfl⟩, rest, hrest, rfl⟩
      exact ⟨i, d, rest, rfl, hd, hbody, ((hpaths _).mem _).1 hrest⟩
    · rintro ⟨i, d, rest, rfl, hd, hbody, hleads⟩
      exact ⟨_, ⟨i, d, hd, hbody, rfl⟩, rest, ((hpaths _).mem _).2 hleads, rfl⟩
  · exact Precedes.pairwise_children (List.filter_sublist.map _) fun c _ => (hpaths c).ordered
  · rw [promotions_openFunctions]
    refine forall₂_flatMap fun c hc => List.forall₂_map_left_iff.2 ?_
    obtain ⟨i, d, hd, -, rfl⟩ := mem_openFunctions.1 hc
    refine (hpaths _).marks.imp fun path p hmarks => ⟨hmarks.stage, ?_, ?_⟩
    · exact (at?_topLevel hd path).trans hmarks.literal
    · rw [hmarks.depth, List.length_cons]
      omega

end Shader

theorem Metadata.nextBinding_error {m : Metadata} {e : Fault} (h : m.nextBinding = .error e) :
    e = .bindingsExhausted := by
  rw [nextBinding] at h
  split at h
  · cases h
  · split at h
    · cases h
    · exact (Except.error.inj h).symm

namespace Job

theorem reserveArray_error {job after : Job} {type : ScalarType} {e : Fault}
    (h : job.reserveArray type = (.error e, after)) : e = .bindingsExhausted := by
  have hreserve : job.metadata.reserve type.arrayName type = (.error e, after.metadata) := by
    obtain ⟨he, rfl⟩ := Prod.mk.inj h
    exact Prod.ext he rfl
  obtain ⟨-, hnext, -⟩ := Metadata.reserve_eq_error.1 hreserve
  exact Metadata.nextBinding_error hnext

theorem reserveArrays_error {job after : Job} {ps : List Promotion} {e : Fault}
    (h : job.reserveArrays ps = (.error e, after)) : e = .bindingsExhausted := by
  induction ps generalizing job with
  | nil => cases (Prod.mk.inj h).1
  | cons p ps ih =>
    rw [reserveArrays] at h
    split at h
    · next hreserve =>
      obtain rfl := Except.error.inj (Prod.mk.inj h).1
      exact reserveArray_error hreserve
    · exact ih h

theorem findPromotions_error {job after : Job} {e : Fault}
    (h : job.findPromotions = (.error e, after)) : e = .bindingsExhausted := by
  rw [findPromotions] at h
  split at h
  · next hreserve =>
    obtain rfl := Except.error.inj (Prod.mk.inj h).1
    exact reserveArrays_error hreserve
  · cases (Prod.mk.inj h).1

/-- A place in a job is a path in one of its stages. It comes before the places in later stages, and
in its own stage before those that the source has later. -/
def Before (job : Job) (a b : Nat × Path) : Prop :=
  a.1 < b.1 ∨ a.1 = b.1 ∧ ∃ stage s, job.stages[a.1]? = some (stage, s) ∧
    Precedes s.children a.2 b.2

theorem Before.ne {job : Job} {a b : Nat × Path} (h : job.Before a b) : a ≠ b := by
  rintro rfl
  rcases h with hlt | ⟨-, stage, s, -, hprecedes⟩
  · exact Nat.lt_irrefl _ hlt
  · exact hprecedes.irrefl s.slots_nodup rfl

/-- The promotion is of the literal at a place of the job. -/
def Marks (job : Job) (place : Nat × Path) (p : Promotion) : Prop :=
  ∃ s, job.stages[place.1]? = some (p.stage, s) ∧ s.Marks place.2 p

theorem exists_places (job : Job) :
    ∃ places : List (Nat × Path),
      (∀ i path, (i, path) ∈ places ↔
        ∃ stage s, job.stages[i]? = some (stage, s) ∧ s.Promotable path) ∧
      places.Pairwise job.Before ∧ List.Forall₂ job.Marks places job.promotions := by
  choose paths hmem hordered hmarks using fun x : Stage × Shader => x.2.exists_places x.1
  refine ⟨job.stages.zipIdx.flatMap fun x => (paths x.1).map (x.2, ·), fun i path => ?_, ?_, ?_⟩
  · simp only [List.mem_flatMap, List.mem_map, Prod.exists, List.mem_zipIdx_iff_getElem?, hmem,
      Prod.mk.injEq]
    constructor
    · rintro ⟨stage, s, j, hs, path', hpath, rfl, rfl⟩
      exact ⟨stage, s, hs, hpath⟩
    · rintro ⟨stage, s, hs, hpath⟩
      exact ⟨stage, s, i, hs, path, hpath, rfl, rfl⟩
  · rw [List.pairwise_flatMap]
    constructor
    · intro x hx
      have hs := List.mem_zipIdx_iff_getElem?.1 hx
      exact List.pairwise_map.2 ((hordered x.1).imp fun hpq => .inr ⟨rfl, x.1.1, x.1.2, hs, hpq⟩)
    · refine (zipIdx_increases job.stages).imp fun hlt p hp q hq => ?_
      obtain ⟨p', -, rfl⟩ := List.mem_map.1 hp
      obtain ⟨q', -, rfl⟩ := List.mem_map.1 hq
      exact .inl hlt
  · have hpromotions : job.promotions =
        job.stages.zipIdx.flatMap fun x => x.1.2.promotions x.1.1 := by
      rw [promotions]
      conv_lhs => rw [← List.zipIdx_map_fst 0 job.stages, List.flatMap_map]
    rw [hpromotions]
    refine forall₂_flatMap fun x hx => List.forall₂_map_left_iff.2 ?_
    have hs := List.mem_zipIdx_iff_getElem?.1 hx
    exact (hmarks x.1).imp fun path p hp => ⟨x.1.2, hp.1 ▸ hs, hp.2⟩

theorem promotions_ordered {job : Job} (h : Ordered job.stages) :
    job.promotions.Pairwise fun p q => p.stage.rank ≤ q.stage.rank := by
  rw [promotions, List.pairwise_flatMap]
  constructor
  · intro x _
    refine List.pairwise_of_forall_mem_list fun p hp q hq => ?_
    rw [(Shader.mem_promotions hp).1, (Shader.mem_promotions hq).1]
  · refine h.imp fun hlt p hp q hq => ?_
    rw [(Shader.mem_promotions hp).1, (Shader.mem_promotions hq).1]
    exact Nat.le_of_lt hlt

/-- Looking for promotions finds the literals that can be promoted, all of them and each once, in the
order of the stages and of the source. A promotion names the stage, the node and the value of its
literal, and how far the literal is below the function. -/
theorem findPromotions_exact (job : Job) (h : job.findPromotions.1 ≠ .error .bindingsExhausted) :
    ∃ (found : List Promotion) (after : Job) (places : List (Nat × Path)),
      job.findPromotions = (.ok found, after) ∧
      (∀ i path, (i, path) ∈ places ↔
        ∃ stage s, job.stages[i]? = some (stage, s) ∧ s.Promotable path) ∧
      places.Nodup ∧ places.Pairwise job.Before ∧
      List.Forall₂ job.Marks places found ∧
      (Ordered job.stages → found.Pairwise fun p q => p.stage.rank ≤ q.stage.rank) := by
  rcases hfind : job.findPromotions with ⟨e | found, after⟩
  · rw [hfind, findPromotions_error hfind] at h
    exact absurd rfl h
  · obtain ⟨rfl, -⟩ := findPromotions_found hfind
    obtain ⟨places, hmem, hordered, hmarks⟩ := job.exists_places
    exact ⟨_, after, places, rfl, hmem, hordered.imp Before.ne, hordered, hmarks,
      promotions_ordered⟩

/-- A constant, an array size and an element of a literal array are around the one literal of the
fragment shader that can be promoted. -/
def shelteredFragment : Shader :=
  ⟨[.function 5 ⟨⟨[], .void⟩, "main", [],
    some [.declare 6 ⟨⟨[.const], .int⟩, [⟨"n", none, some (.literal 7 (.int 2))⟩]⟩,
      .declare 8 ⟨⟨[], .int⟩, [⟨"x", some ⟨some (.literal 9 (.int 3))⟩, none⟩]⟩,
      .expr 10 (.assign 11 .assign (.index 12 (.name 13 "x") (.literal 14 (.int 1)))
        (.index 15 (.name 16 "_GLF_uniform_int_values") (.literal 17 (.int 0))))]⟩]⟩

def sheltered : Job :=
  ⟨[(.vertex, sampleVertex), (.fragment, shelteredFragment)], ⟨.ofList []⟩, ⟨18⟩⟩

theorem sheltered_found :
    sheltered.findPromotions.1 ≠ .error .bindingsExhausted ∧
    ∃ (after : Job) (places : List (Nat × Path)),
      sheltered.findPromotions =
        (.ok [⟨.vertex, 4, .int 7, 3⟩, ⟨.fragment, 14, .int 1, 4⟩], after) ∧
      (∀ i path, (i, path) ∈ places ↔
        ∃ stage s, sheltered.stages[i]? = some (stage, s) ∧ s.Promotable path) ∧
      places.Nodup ∧ places.Pairwise sheltered.Before ∧
      List.Forall₂ sheltered.Marks places
        [⟨.vertex, 4, .int 7, 3⟩, ⟨.fragment, 14, .int 1, 4⟩] := by
  have hok : ∃ after, sheltered.findPromotions =
      (.ok [⟨.vertex, 4, .int 7, 3⟩, ⟨.fragment, 14, .int 1, 4⟩], after) := ⟨_, rfl⟩
  obtain ⟨after, hok⟩ := hok
  have hbindings : sheltered.findPromotions.1 ≠ .error .bindingsExhausted := by
    rw [hok]
    exact nofun
  obtain ⟨found, after', places, hfind, hmem, hnodup, hordered, hmarks, -⟩ :=
    findPromotions_exact sheltered hbindings
  obtain ⟨hfound, rfl⟩ := Prod.mk.inj (hok.symm.trans hfind)
  obtain rfl := Except.ok.inj hfound
  exact ⟨hbindings, after, places, hok, hmem, hnodup, hordered, hmarks⟩

end Job

end ShaderLift
