import Mathlib
import ShaderLift.Proofs.Interning
import ShaderLift.Proofs.StageAgreement

/-!
Interning values of both types, each in the array of its type, in any order. The order has no part in
what the arrays hold and in the other entries. It can tell in the bindings, where both arrays get
theirs on the way.
-/

namespace ShaderLift

theorem map_eq_ok {α β ε : Type} {x : Except ε α} {f : α → β} {b : β} :
    x.map f = .ok b ↔ ∃ a, x = .ok a ∧ f a = b := by
  cases x <;> simp [Except.map]

theorem ScalarType.eq_of_ne {a b c : ScalarType} (ha : a ≠ c) (hb : b ≠ c) : a = b := by
  cases a <;> cases b <;> cases c <;> first | rfl | exact absurd rfl ha | exact absurd rfl hb

namespace Metadata

theorem place_perm {xs ys : List Scalar} (h : xs.Perm ys) (v : Scalar) :
    (place xs v).2.Perm (place ys v).2 := by
  by_cases hv : v ∈ xs
  · rwa [place_of_mem hv, place_of_mem (h.mem_iff.1 hv)]
  · rw [place_of_not_mem hv, place_of_not_mem fun hy => hv (h.mem_iff.2 hy)]
    exact h.append_right [v]

theorem place_place_perm (values : List Scalar) (v w : Scalar) :
    (place (place values v).2 w).2.Perm (place (place values w).2 v).2 := by
  by_cases hvw : v = w
  · rw [hvw]
  by_cases hv : v ∈ values
  · have hv' : v ∈ (place values w).2 := (place_spec values w).2.1.subset hv
    rw [place_of_mem hv, place_of_mem hv']
  by_cases hw : w ∈ values
  · have hw' : w ∈ (place values v).2 := (place_spec values v).2.1.subset hw
    rw [place_of_mem hw, place_of_mem hw']
  rw [place_of_not_mem hv, place_of_not_mem hw, place_of_not_mem (by simp [hw, Ne.symm hvw]),
    place_of_not_mem (by simp [hv, hvw]), List.append_assoc, List.append_assoc]
  exact (List.Perm.swap w v []).append_left values

theorem placeAll_perm_left {xs ys : List Scalar} (h : xs.Perm ys) (more : List Scalar) :
    (placeAll xs more).Perm (placeAll ys more) := by
  induction more generalizing xs ys with
  | nil => exact h
  | cons v more ih => exact ih (place_perm h v)

theorem placeAll_perm {xs ys : List Scalar} (h : xs.Perm ys) (values : List Scalar) :
    (placeAll values xs).Perm (placeAll values ys) := by
  induction h generalizing values with
  | nil => exact .refl _
  | cons v _ ih => exact ih _
  | swap v w more => exact placeAll_perm_left (place_place_perm values w v) more
  | trans _ _ ih ih' => exact (ih values).trans (ih' values)

theorem get?_eq_some {m : Metadata} {name : String} {e : Entry} :
    m.table.get? name = some e ↔ (name, e) ∈ m.table.entries := by
  have hkeys : (m.table.entries.map Prod.fst).Nodup := by
    refine List.pairwise_map.2 (m.table.increase.imp fun {x y} hlt heq => ?_)
    rw [heq] at hlt
    exact String.lt_irrefl _ hlt
  constructor
  · intro hlookup
    obtain ⟨before, after, hsplit, -⟩ := List.lookup_eq_some_iff.1 hlookup
    simp [hsplit]
  · exact lookup_of_mem hkeys

theorem uniform?_eq_some {m : Metadata} {name : String} {r : UniformRecord} :
    m.uniform? name = some r ↔ m.table.get? name = some (.uniform r) := by
  rw [uniform?]
  cases m.table.get? name with
  | none => simp
  | some e => cases e <;> simp [Entry.uniform?]

theorem get?_setUniform (m : Metadata) (name : String) (r : UniformRecord) (other : String) :
    (m.setUniform name r).table.get? other =
      if other = name then some (.uniform r) else m.table.get? other :=
  lookup_insertEntry _ _ _ _

theorem mem_bindings {m : Metadata} {b : Nat} :
    b ∈ m.bindings ↔ ∃ name r, m.uniform? name = some r ∧ r.binding = some b := by
  simp only [bindings, uniforms, uniform?_eq_some, get?_eq_some, List.mem_filterMap, Prod.exists,
    Option.map_eq_some_iff, Prod.mk.injEq]
  constructor
  · rintro ⟨name, r, ⟨name', e, he, r', hr', rfl, rfl⟩, hb⟩
    cases e with
    | uniform x =>
      obtain rfl := Option.some.inj hr'
      exact ⟨_, _, he, hb⟩
    | other v => cases hr'
  · rintro ⟨name, r, hr, hb⟩
    exact ⟨name, r, ⟨name, _, hr, r, rfl, rfl, rfl⟩, hb⟩

theorem nextBinding_congr {m m' : Metadata} (h : ∀ b, b ∈ m'.bindings ↔ b ∈ m.bindings) :
    m'.nextBinding = m.nextBinding := by
  have hmax : m'.bindings.max? = m.bindings.max? := by
    refine Option.ext fun b => ?_
    rw [List.max?_eq_some_iff, List.max?_eq_some_iff]
    simp only [h]
  rw [nextBinding, nextBinding, hmax]

theorem lt_nextBinding {m : Metadata} {n : Nat} (h : m.nextBinding = .ok n) {b : Nat}
    (hb : b ∈ m.bindings) : b < n := by
  rw [nextBinding] at h
  split at h
  · next hnone =>
    rw [List.max?_eq_none_iff.1 hnone] at hb
    cases hb
  · next highest hmax =>
    have hle := (List.max?_eq_some_iff.1 hmax).2 b hb
    split at h
    · obtain rfl := Except.ok.inj h
      omega
    · cases h

section

variable {m after : Metadata} {name : String} {r new : UniformRecord}

theorem mem_bindings_at (hr : m.uniform? name = some r) {b : Nat} :
    b ∈ m.bindings ↔
      r.binding = some b ∨ ∃ other x, other ≠ name ∧ m.uniform? other = some x ∧ x.binding = some b := by
  rw [mem_bindings]
  constructor
  · rintro ⟨other, x, hx, hb⟩
    by_cases hother : other = name
    · subst hother
      obtain rfl := Option.some.inj (hr.symm.trans hx)
      exact .inl hb
    · exact .inr ⟨other, x, hother, hx, hb⟩
  · rintro (hb | ⟨other, x, -, hx, hb⟩)
    · exact ⟨name, r, hr, hb⟩
    · exact ⟨other, x, hx, hb⟩

theorem mem_bindings_after (hr : m.uniform? name = some r) (hnew : after.uniform? name = some new)
    (hothers : ∀ other, other ≠ name → after.uniform? other = m.uniform? other) (b : Nat)
    (h : r.binding = some b → new.binding = some b) :
    b ∈ after.bindings ↔ new.binding = some b ∨ b ∈ m.bindings := by
  rw [mem_bindings_at hr, mem_bindings_at hnew]
  have hsame : ∀ other x, other ≠ name ∧ after.uniform? other = some x ∧ x.binding = some b ↔
      other ≠ name ∧ m.uniform? other = some x ∧ x.binding = some b := fun other x =>
    and_congr_right fun hother => by rw [hothers other hother]
  simp only [hsame]
  tauto

theorem nextBinding_kept (hr : m.uniform? name = some r) (hnew : after.uniform? name = some new)
    (hothers : ∀ other, other ≠ name → after.uniform? other = m.uniform? other)
    (hbinding : new.binding = r.binding) : after.nextBinding = m.nextBinding := by
  refine nextBinding_congr fun b => ?_
  rw [mem_bindings_after hr hnew hothers b fun hb => hbinding.trans hb, hbinding, mem_bindings_at hr]
  tauto

theorem nextBinding_taken {n k : Nat} (hr : m.uniform? name = some r)
    (hnew : after.uniform? name = some new)
    (hothers : ∀ other, other ≠ name → after.uniform? other = m.uniform? other)
    (hnone : r.binding = none) (hn : m.nextBinding = .ok n) (htaken : new.binding = some n)
    (hk : after.nextBinding = .ok k) : k = n + 1 := by
  have hmem : ∀ b, b ∈ after.bindings ↔ new.binding = some b ∨ b ∈ m.bindings := fun b =>
    mem_bindings_after hr hnew hothers b fun hb => by simp [hnone] at hb
  have hmax : after.bindings.max? = some n := by
    refine List.max?_eq_some_iff.2 ⟨(hmem n).2 (.inl htaken), fun b hb => ?_⟩
    rcases (hmem b).1 hb with hb | hb
    · exact (Option.some.inj (hb.symm.trans htaken)).le
    · exact (lt_nextBinding hn hb).le
  rw [nextBinding, hmax] at hk
  simp only at hk
  split at hk
  · exact (Except.ok.inj hk).symm
  · cases hk

end

/-- The array of a type is there and gets its binding with the first value. -/
def unbound (m : Metadata) (type : ScalarType) : Bool :=
  (m.uniform? type.arrayName).any fun r => r.binding.isNone && !r.pushConstant

theorem unbound_eq {m : Metadata} {type : ScalarType} {r : UniformRecord}
    (h : m.uniform? type.arrayName = some r) :
    m.unbound type = (r.binding.isNone && !r.pushConstant) := by
  rw [unbound, h, Option.any_some]

theorem settledBinding_bound {m : Metadata} {r : UniformRecord}
    (h : (r.binding.isNone && !r.pushConstant) = false) : m.settledBinding r = .ok r.binding := by
  cases hb : r.binding with
  | some b => simp [settledBinding, hb]
  | none =>
    have hpush : r.pushConstant = true := by simpa [hb] using h
    simp [settledBinding, hb, hpush]

theorem settledBinding_unbound {m : Metadata} {r : UniformRecord}
    (h : (r.binding.isNone && !r.pushConstant) = true) :
    m.settledBinding r = m.nextBinding.map some := by
  simp only [Bool.and_eq_true, Option.isNone_iff_eq_none, Bool.not_eq_true'] at h
  simp [settledBinding, h.1, h.2]

/-- Interning a stable value among such values writes the record with the value placed in it. -/
theorem intern_placed {m after : Metadata} {name : String} {v : Scalar} {i : Nat}
    (h : m.intern name v = (.ok i, after)) (hv : v.Stable) :
    ∃ old values, m.uniform? name = some old ∧ old.decode name = .ok (v.type, values) ∧
      ((∀ w ∈ values, w.Stable) → ∃ new, after = m.setUniform name new ∧
        new.decode name = .ok (v.type, (place values v).2) ∧
        new.count = some (place values v).2.length ∧ new.func = v.type.setter true ∧
        new.pushConstant = old.pushConstant ∧ m.settledBinding old = .ok new.binding) := by
  obtain ⟨old, values, new, binding, hold, hdecode, -, -, hnew, hbinding, rfl⟩ := intern_eq_ok.1 h
  refine ⟨old, values, hold, hdecode, fun hvalues => ?_⟩
  have htypes : ∀ w ∈ (place values v).2, w.type = v.type :=
    place_forall (fun _ => UniformRecord.decode_type hdecode) rfl
  obtain ⟨numbers, hwritten, hread⟩ :=
    UniformRecord.ofScalars_stable name htypes (place_forall hvalues hv)
  obtain rfl := Except.ok.inj (hwritten.symm.trans hnew)
  exact ⟨_, rfl, hread _ _, rfl, rfl, rfl, hbinding⟩

/-- The binding of an array once values are in it, where the first value of all was of type `first`. If
both arrays get their bindings on the way, the other one's is one more. -/
def laterBinding (m : Metadata) (first type : ScalarType) (binding : Option Nat) :
    Except Fault (Option Nat) :=
  if m.unbound type then
    m.nextBinding.map fun n => some (if m.unbound first && type ≠ first then n + 1 else n)
  else .ok binding

/-- The array of a type after values of both types, the first of them of type `first`. -/
structure Filled (m : Metadata) (first : ScalarType) (vs : List Scalar) (type : ScalarType)
    (old : UniformRecord) (values : List Scalar) (new : UniformRecord) : Prop where
  before : m.uniform? type.arrayName = some old
  decode_old : old.decode type.arrayName = .ok (type, values)
  decode_new : new.decode type.arrayName =
    .ok (type, placeAll values (vs.filter fun v => v.type = type))
  count : new.count = some (placeAll values (vs.filter fun v => v.type = type)).length
  func : new.func = type.setter true
  pushConstant : new.pushConstant = old.pushConstant
  binding : m.laterBinding first type old.binding = .ok new.binding

/-- What becomes of metadata when values are interned in the arrays of their types. -/
structure Interned (m : Metadata) (first : ScalarType) (vs : List Scalar) (after : Metadata) :
    Prop where
  others : ∀ name, (∀ v ∈ vs, name ≠ v.type.arrayName) →
    after.table.get? name = m.table.get? name
  arrays : ∀ v ∈ vs, ∃ old values new, m.Filled first vs v.type old values new ∧
    after.uniform? v.type.arrayName = some new

theorem Interned.nil (m : Metadata) (first : ScalarType) : m.Interned first [] m :=
  ⟨fun _ _ => rfl, by simp⟩

theorem Filled.bound {m : Metadata} {first type : ScalarType} {vs : List Scalar}
    {old new : UniformRecord} {values : List Scalar} (h : m.Filled first vs type old values new) :
    (new.binding.isNone && !new.pushConstant) = false := by
  have hbinding := h.binding
  rw [laterBinding, unbound_eq h.before] at hbinding
  rw [h.pushConstant]
  split at hbinding
  · obtain ⟨n, -, hn⟩ := map_eq_ok.1 hbinding
    rw [← hn]
    rfl
  · next hbound => simpa [← Except.ok.inj hbinding] using hbound

/-- The binding that an array gets with its first value depends on the other array only. -/
theorem Interned.settledBinding {m mid : Metadata} {first type : ScalarType} {vs : List Scalar}
    (h : m.Interned first vs mid) (hfirst : (vs.map Scalar.type ++ [type]).head? = some first)
    (hfresh : ∀ v ∈ vs, v.type ≠ type) {old : UniformRecord} {binding : Option Nat}
    (hold : m.uniform? type.arrayName = some old)
    (hbinding : mid.settledBinding old = .ok binding) :
    m.laterBinding first type old.binding = .ok binding := by
  rw [laterBinding, unbound_eq hold]
  cases hbound : (old.binding.isNone && !old.pushConstant) with
  | false => simpa [settledBinding_bound hbound] using hbinding
  | true =>
    rw [settledBinding_unbound hbound] at hbinding
    rw [if_pos rfl]
    cases vs with
    | nil =>
      obtain rfl : type = first := by simpa using hfirst
      have hsame : ∀ name, mid.uniform? name = m.uniform? name := fun name => by
        rw [uniform?, uniform?, h.others name (by simp)]
      have hnext : mid.nextBinding = m.nextBinding := by
        refine nextBinding_congr fun b => ?_
        simp only [mem_bindings, hsame]
      simpa [hnext] using hbinding
    | cons v vs =>
      obtain rfl : v.type = first := by simpa using hfirst
      have hne : v.type ≠ type := hfresh v List.mem_cons_self
      obtain ⟨r, values, new, hfilled, hnew⟩ := h.arrays v List.mem_cons_self
      -- there are two arrays, so all values so far went into the other one
      have hothers : ∀ name, name ≠ v.type.arrayName → mid.uniform? name = m.uniform? name := by
        intro name hname
        rw [uniform?, uniform?, h.others name fun w hw => ?_]
        rwa [ScalarType.eq_of_ne (hfresh w hw) hne]
      have hr := hfilled.before
      have hother := hfilled.binding
      rw [laterBinding, unbound_eq hr] at hother
      rw [unbound_eq hr]
      cases hbound' : (r.binding.isNone && !r.pushConstant) with
      | false =>
        rw [hbound'] at hother
        have hkept : new.binding = r.binding := (Except.ok.inj hother).symm
        simpa [nextBinding_kept hr hnew hothers hkept] using hbinding
      | true =>
        have hnone : r.binding = none := by
          simp only [Bool.and_eq_true, Option.isNone_iff_eq_none] at hbound'
          exact hbound'.1
        rw [hbound', if_pos rfl] at hother
        obtain ⟨n, hn, htaken⟩ := map_eq_ok.1 hother
        obtain ⟨k, hk, rfl⟩ := map_eq_ok.1 hbinding
        have htaken : new.binding = some n := by simpa using htaken.symm
        rw [nextBinding_taken hr hnew hothers hnone hn htaken hk, hn]
        simp [Except.map, hne.symm]

theorem mem_of_mem_placeAll {values more : List Scalar} {v : Scalar} (h : v ∈ placeAll values more) :
    v ∈ values ∨ v ∈ more := by
  induction more generalizing values with
  | nil => exact .inl h
  | cons w more ih =>
    rcases ih h with hv | hv
    · rcases (place_spec values w).2.2 v hv with hv | rfl
      · exact .inl hv
      · exact .inr List.mem_cons_self
    · exact .inr (List.mem_cons_of_mem _ hv)

theorem Filled.other {m : Metadata} {first type : ScalarType} {vs : List Scalar}
    {old new : UniformRecord} {values : List Scalar} (h : m.Filled first vs type old values new)
    {v : Scalar} (hv : v.type ≠ type) : m.Filled first (vs ++ [v]) type old values new := by
  have hfilter : (vs ++ [v]).filter (fun w => w.type = type) = vs.filter fun w => w.type = type := by
    simp [List.filter_append, hv]
  refine ⟨h.before, h.decode_old, ?_, ?_, h.func, h.pushConstant, h.binding⟩
  · rw [hfilter]
    exact h.decode_new
  · rw [hfilter]
    exact h.count

theorem Interned.filled_next {m mid after : Metadata} {first : ScalarType} {vs : List Scalar}
    {v : Scalar} {i : Nat} (h : m.Interned first vs mid)
    (hfirst : ((vs ++ [v]).map Scalar.type).head? = some first)
    (hstored : ∀ values, m.contents v.type.arrayName = .ok ⟨v.type, values⟩ → ∀ w ∈ values, w.Stable)
    (hvs : ∀ w ∈ vs, w.Stable) (hv : v.Stable)
    (hintern : mid.intern v.type.arrayName v = (.ok i, after)) :
    ∃ old values new, m.Filled first (vs ++ [v]) v.type old values new ∧
      after = mid.setUniform v.type.arrayName new := by
  obtain ⟨last, placed, hlast, hdecode, hplaced⟩ := intern_placed hintern hv
  have hfilter : (vs ++ [v]).filter (fun w => w.type = v.type) =
      vs.filter (fun w => w.type = v.type) ++ [v] := by
    simp [List.filter_append]
  have hall : ∀ values, placeAll values ((vs ++ [v]).filter fun w => w.type = v.type) =
      (place (placeAll values (vs.filter fun w => w.type = v.type)) v).2 := fun values => by
    rw [hfilter, placeAll, placeAll, List.foldl_append]
    rfl
  by_cases hseen : ∃ w ∈ vs, w.type = v.type
  · obtain ⟨w, hw, htype⟩ := hseen
    obtain ⟨old, values, new, hfilled, hnew⟩ := h.arrays w hw
    rw [htype] at hfilled hnew
    obtain rfl := Option.some.inj (hnew.symm.trans hlast)
    obtain ⟨-, rfl⟩ := Prod.mk.inj (Except.ok.inj (hfilled.decode_new.symm.trans hdecode))
    have hstable : ∀ x ∈ placeAll values (vs.filter fun w => w.type = v.type), x.Stable := by
      intro x hx
      rcases mem_of_mem_placeAll hx with hx | hx
      · exact hstored values (contents_eq_ok.2 ⟨old, hfilled.before, hfilled.decode_old⟩) x hx
      · exact hvs x (List.mem_of_mem_filter hx)
    obtain ⟨next, hafter, hnext, hcount, hfunc, hpush, hbinding⟩ := hplaced hstable
    rw [settledBinding_bound hfilled.bound] at hbinding
    refine ⟨old, values, next, ⟨hfilled.before, hfilled.decode_old, ?_, ?_, hfunc,
      hpush.trans hfilled.pushConstant, ?_⟩, hafter⟩
    · rwa [hall]
    · rwa [hall]
    · rw [hfilled.binding, ← Except.ok.inj hbinding]
  · have hfresh : ∀ w ∈ vs, w.type ≠ v.type := fun w hw heq => hseen ⟨w, hw, heq⟩
    have hnone : vs.filter (fun w => w.type = v.type) = [] := by
      simpa [List.filter_eq_nil_iff] using hfresh
    have hsame : mid.uniform? v.type.arrayName = m.uniform? v.type.arrayName := by
      rw [uniform?, uniform?, h.others _ fun w hw heq =>
        hfresh w hw (ScalarType.arrayName_injective heq).symm]
    rw [hsame] at hlast
    have hstable := hstored placed (contents_eq_ok.2 ⟨last, hlast, hdecode⟩)
    obtain ⟨next, hafter, hnext, hcount, hfunc, hpush, hbinding⟩ := hplaced hstable
    rw [List.map_append] at hfirst
    refine ⟨last, placed, next, ⟨hlast, hdecode, ?_, ?_, hfunc, hpush,
      h.settledBinding hfirst hfresh hlast hbinding⟩, hafter⟩
    · rw [hall, hnone]
      exact hnext
    · rw [hall, hnone]
      exact hcount

theorem Interned.snoc {m mid after : Metadata} {first : ScalarType} {vs : List Scalar} {v : Scalar}
    {i : Nat} (h : m.Interned first vs mid)
    (hfirst : ((vs ++ [v]).map Scalar.type).head? = some first)
    (hstored : ∀ values, m.contents v.type.arrayName = .ok ⟨v.type, values⟩ → ∀ w ∈ values, w.Stable)
    (hvs : ∀ w ∈ vs, w.Stable) (hv : v.Stable)
    (hintern : mid.intern v.type.arrayName v = (.ok i, after)) :
    m.Interned first (vs ++ [v]) after := by
  obtain ⟨old, values, new, hfilled, rfl⟩ := h.filled_next hfirst hstored hvs hv hintern
  have hnew : (mid.setUniform v.type.arrayName new).uniform? v.type.arrayName = some new := by
    rw [uniform?_setUniform, if_pos rfl]
  constructor
  · intro name hname
    have hother : name ≠ v.type.arrayName := hname v (by simp)
    rw [get?_setUniform, if_neg hother]
    exact h.others name fun w hw => hname w (List.mem_append_left _ hw)
  · intro w hw
    by_cases htype : w.type = v.type
    · rw [htype]
      exact ⟨old, values, new, hfilled, hnew⟩
    · have hwvs : w ∈ vs := by
        rcases List.mem_append.1 hw with hw | hw
        · exact hw
        · exact absurd (congrArg Scalar.type (List.mem_singleton.1 hw)) htype
      obtain ⟨old', values', new', hfilled', hnew'⟩ := h.arrays w hwvs
      refine ⟨old', values', new', hfilled'.other (Ne.symm htype), ?_⟩
      rw [uniform?_setUniform, if_neg fun heq => htype (ScalarType.arrayName_injective heq), hnew']

def binding? (m : Metadata) (type : ScalarType) : Option Nat :=
  (m.uniform? type.arrayName).bind UniformRecord.binding

/-- The arrays of a type in two metadata differ in the order of their values, and perhaps in their
bindings. -/
def SameArray (a b : Metadata) (type : ScalarType) : Prop :=
  ∃ r s : UniformRecord, ∃ values values' : List Scalar,
    a.uniform? type.arrayName = some r ∧ b.uniform? type.arrayName = some s ∧
    r.decode type.arrayName = .ok (type, values) ∧ s.decode type.arrayName = .ok (type, values') ∧
    values.Perm values' ∧ r.func = s.func ∧ r.count = s.count ∧ r.pushConstant = s.pushConstant

theorem laterBinding_same {m : Metadata} {first first' : ScalarType}
    (h : first = first' ∨ m.unbound first = false ∨ m.unbound first' = false) (type : ScalarType)
    (binding : Option Nat) :
    m.laterBinding first type binding = m.laterBinding first' type binding := by
  rw [laterBinding, laterBinding]
  by_cases hsame : first = first'
  · rw [hsame]
  split
  · next hunbound =>
    have h := h.resolve_left hsame
    by_cases htype : type = first
    · subst htype
      simp [hunbound] at h
      simp [h]
    · obtain rfl : type = first' := ScalarType.eq_of_ne htype (Ne.symm hsame)
      simp [hunbound] at h
      simp [h]
  · rfl

section

variable {m a b : Metadata} {first first' : ScalarType} {xs ys : List Scalar}

theorem Interned.binding? (h : m.Interned first xs a) {type : ScalarType}
    (htype : type ∈ xs.map Scalar.type) : ∃ old, m.uniform? type.arrayName = some old ∧
      m.laterBinding first type old.binding = .ok (a.binding? type) := by
  obtain ⟨v, hv, rfl⟩ := List.mem_map.1 htype
  obtain ⟨old, values, new, hfilled, hnew⟩ := h.arrays v hv
  refine ⟨old, hfilled.before, ?_⟩
  rw [hfilled.binding, Metadata.binding?, hnew]
  rfl

theorem Interned.sameArray (ha : m.Interned first xs a) (hb : m.Interned first' ys b)
    (h : xs.Perm ys) {v : Scalar} (hv : v ∈ xs) : a.SameArray b v.type := by
  obtain ⟨old, values, r, hr, har⟩ := ha.arrays v hv
  obtain ⟨old', values', s, hs, hbs⟩ := hb.arrays v (h.mem_iff.1 hv)
  obtain rfl := Option.some.inj (hr.before.symm.trans hs.before)
  obtain ⟨-, rfl⟩ := Prod.mk.inj (Except.ok.inj (hr.decode_old.symm.trans hs.decode_old))
  have hperm := placeAll_perm (h.filter fun w => w.type = v.type) values
  refine ⟨r, s, _, _, har, hbs, hr.decode_new, hs.decode_new, hperm, hr.func.trans hs.func.symm, ?_,
    hr.pushConstant.trans hs.pushConstant.symm⟩
  rw [hr.count, hs.count, hperm.length_eq]

theorem Interned.sameEntry (ha : m.Interned first xs a) (hb : m.Interned first' ys b)
    (h : xs.Perm ys) {name : String} (hname : ∀ v ∈ xs, name ≠ v.type.arrayName) :
    a.table.get? name = b.table.get? name := by
  rw [ha.others name hname, hb.others name fun v hv => hname v (h.mem_iff.2 hv)]

/-- In two orders the arrays have the same bindings, unless both get theirs on the way and the orders
begin with different types. -/
theorem Interned.sameBindings (ha : m.Interned first xs a) (hb : m.Interned first' ys b)
    (h : xs.Perm ys) (hsame : first = first' ∨ m.unbound first = false ∨ m.unbound first' = false)
    (type : ScalarType) : a.binding? type = b.binding? type := by
  by_cases htype : type ∈ xs.map Scalar.type
  · obtain ⟨old, hold, hbinding⟩ := ha.binding? htype
    obtain ⟨old', hold', hbinding'⟩ := hb.binding? ((h.map Scalar.type).mem_iff.1 htype)
    obtain rfl := Option.some.inj (hold.symm.trans hold')
    rw [laterBinding_same hsame, hbinding'] at hbinding
    exact (Except.ok.inj hbinding).symm
  · have hname : ∀ v ∈ xs, type.arrayName ≠ v.type.arrayName := fun v hv heq =>
      htype (ScalarType.arrayName_injective heq ▸ List.mem_map_of_mem hv)
    rw [Metadata.binding?, Metadata.binding?, uniform?, uniform?, ha.sameEntry hb h hname]

/-- In that case the array that is the first one gets the next binding, and the other the one after
it. -/
theorem Interned.swappedBindings (ha : m.Interned first xs a) (hb : m.Interned first' ys b)
    (h : xs.Perm ys) (hfirst : (xs.map Scalar.type).head? = some first)
    (hfirst' : (ys.map Scalar.type).head? = some first') (hne : first ≠ first')
    (hunbound : m.unbound first) (hunbound' : m.unbound first') {type other : ScalarType}
    (hother : type ≠ other) : a.binding? type = b.binding? other := by
  have hall : ∀ t, m.unbound t := fun t => by
    by_cases ht : t = first
    · rwa [ht]
    · rwa [ScalarType.eq_of_ne ht (Ne.symm hne)]
  have hmem : ∀ t, t ∈ xs.map Scalar.type := fun t => by
    by_cases ht : t = first
    · exact ht ▸ List.mem_of_mem_head? hfirst
    · rw [ScalarType.eq_of_ne ht (Ne.symm hne)]
      exact (h.map Scalar.type).mem_iff.2 (List.mem_of_mem_head? hfirst')
  obtain ⟨old, hold, hbinding⟩ := ha.binding? (hmem type)
  obtain ⟨old', hold', hbinding'⟩ := hb.binding? ((h.map Scalar.type).mem_iff.1 (hmem other))
  rw [laterBinding, if_pos (hall _), hunbound] at hbinding
  rw [laterBinding, if_pos (hall _), hunbound'] at hbinding'
  obtain ⟨n, hn, hn'⟩ := map_eq_ok.1 hbinding
  obtain ⟨k, hk, hk'⟩ := map_eq_ok.1 hbinding'
  obtain rfl := Except.ok.inj (hn.symm.trans hk)
  rw [← hn', ← hk']
  by_cases ht : type = first
  · have ho : other = first' := ScalarType.eq_of_ne (ht ▸ hother.symm) (Ne.symm hne)
    simp [ht, ho]
  · have ho : other = first := ScalarType.eq_of_ne hother.symm (Ne.symm ht)
    simp [ht, ho, hne]

end

end Metadata
end ShaderLift
