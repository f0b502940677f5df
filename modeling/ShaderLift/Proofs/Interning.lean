import Mathlib
import ShaderLift.Proofs.ArrayContents

/-!
Interning many values one after another. The array that comes of it is the old one with the new
values behind it, each of them once, so an index is the same whenever its value is asked for.
-/

namespace ShaderLift

theorem Scalar.Stable.number {v : Scalar} (h : v.Stable) :
    ∃ n, v.toNumber? = some n ∧ Scalar.ofNumber? v.type n = some v :=
  Option.bind_eq_some_iff.1 h

theorem Scalar.exists_numbers {type : ScalarType} {values : List Scalar}
    (htype : ∀ v ∈ values, v.type = type) (hstable : ∀ v ∈ values, v.Stable) :
    ∃ numbers, List.Forall₂ (fun v n => v.toNumber? = some n) values numbers ∧
      List.Forall₂ (fun n v => Scalar.ofNumber? type n = some v) numbers values := by
  induction values with
  | nil => exact ⟨[], .nil, .nil⟩
  | cons v values ih =>
    obtain ⟨numbers, hwritten, hread⟩ := ih (fun w hw => htype w (List.mem_cons_of_mem _ hw))
      fun w hw => hstable w (List.mem_cons_of_mem _ hw)
    obtain ⟨n, hn, hv⟩ := (hstable v List.mem_cons_self).number
    rw [htype v List.mem_cons_self] at hv
    exact ⟨n :: numbers, .cons hn hwritten, .cons hv hread⟩

theorem UniformRecord.ofScalars_stable (name : String) {type : ScalarType} {values : List Scalar}
    (htype : ∀ v ∈ values, v.type = type) (hstable : ∀ v ∈ values, v.Stable) :
    ∃ numbers, ofScalars name type (some values.length) values =
        .ok ⟨type.setter true, some values.length, numbers, none, false⟩ ∧
      ∀ binding pushConstant,
        decode name ⟨type.setter true, some values.length, numbers, binding, pushConstant⟩ =
          .ok (type, values) := by
  obtain ⟨numbers, hwritten, hread⟩ := Scalar.exists_numbers htype hstable
  refine ⟨numbers, bind_eq_ok.2 ⟨numbers, encode_eq_ok.2 hwritten, rfl⟩, fun _ _ => ?_⟩
  exact decode_eq_ok.2 ⟨type.ofSetter?_setter true, hread⟩

namespace Metadata

def placeAll (values more : List Scalar) : List Scalar :=
  more.foldl (fun placed v => (place placed v).2) values

theorem place_of_mem {values : List Scalar} {v : Scalar} (h : v ∈ values) :
    place values v = (values.idxOf v, values) := by
  have hfound : values.idxOf? v = some (values.idxOf v) := by
    rw [List.idxOf?_eq_some_iff]
    refine ⟨List.idxOf_lt_length_iff.2 h, List.getElem_idxOf _, fun j hj => ?_⟩
    exact beq_eq_false_iff_ne.1 (List.not_of_lt_findIdx hj)
  rw [place, hfound]

theorem place_of_not_mem {values : List Scalar} {v : Scalar} (h : v ∉ values) :
    place values v = (values.length, values ++ [v]) := by
  rw [place, List.idxOf?_eq_none_iff.2 h]

theorem place_index (values : List Scalar) (v : Scalar) :
    (place values v).1 = (place values v).2.idxOf v := by
  by_cases h : v ∈ values
  · rw [place_of_mem h]
  · rw [place_of_not_mem h]
    simp [List.idxOf_append_of_notMem h]

theorem mem_place (values : List Scalar) (v : Scalar) : v ∈ (place values v).2 := by
  by_cases h : v ∈ values
  · rwa [place_of_mem h]
  · rw [place_of_not_mem h]
    exact List.mem_append_right _ (List.mem_singleton_self v)

theorem placeAll_extends (values more : List Scalar) : values <+: placeAll values more := by
  induction more generalizing values with
  | nil => exact List.prefix_refl _
  | cons v more ih => exact (place_spec values v).2.1.trans (ih _)

theorem mem_placeAll {values more : List Scalar} {v : Scalar} (h : v ∈ more) :
    v ∈ placeAll values more := by
  induction more generalizing values with
  | nil => simp at h
  | cons w more ih =>
    rcases List.mem_cons.1 h with rfl | h
    · exact (placeAll_extends _ more).subset (mem_place values v)
    · exact ih h

theorem idxOf_placeAll {values : List Scalar} {v : Scalar} (h : v ∈ values) (more : List Scalar) :
    (placeAll values more).idxOf v = values.idxOf v := by
  obtain ⟨added, hadded⟩ := placeAll_extends values more
  rw [← hadded, List.idxOf_append_of_mem h]

theorem placeAll_length (values more : List Scalar) :
    (placeAll values more).length =
      values.length + (more.toFinset \ values.toFinset).card := by
  induction more generalizing values with
  | nil => simp [placeAll]
  | cons v more ih =>
    have hstep : placeAll values (v :: more) = placeAll (place values v).2 more := rfl
    rw [hstep, ih]
    by_cases h : v ∈ values
    · have hsame : (v :: more).toFinset \ values.toFinset = more.toFinset \ values.toFinset := by
        ext w
        simp only [Finset.mem_sdiff, List.mem_toFinset, List.mem_cons]
        grind
      rw [place_of_mem h, hsame]
    · have hnew : (v :: more).toFinset \ values.toFinset =
          insert v (more.toFinset \ (values ++ [v]).toFinset) := by
        ext w
        simp only [Finset.mem_sdiff, Finset.mem_insert, List.mem_toFinset, List.mem_cons,
          List.mem_append, List.not_mem_nil]
        grind
      rw [place_of_not_mem h, hnew, Finset.card_insert_of_notMem (by simp)]
      simp only [List.length_append, List.length_singleton]
      omega

variable {m : Metadata} {name : String} {r : UniformRecord} {type : ScalarType}
  {values : List Scalar}

/-- Interning a stable value into an array of such values places it, and keeps the binding. -/
theorem intern_stable (hr : m.uniform? name = some r) (hdecode : r.decode name = .ok (type, values))
    (hsettled : r.binding.isSome ∨ r.pushConstant) (hvalues : ∀ v ∈ values, v.Stable) {v : Scalar}
    (htype : v.type = type) (hv : v.Stable) :
    ∃ new, m.intern name v = (.ok (place values v).1, m.setUniform name new) ∧
      new.decode name = .ok (type, (place values v).2) ∧
      new.count = some (place values v).2.length ∧ new.func = type.setter true ∧
      new.binding = r.binding ∧ new.pushConstant = r.pushConstant := by
  have htypes : ∀ w ∈ (place values v).2, w.type = type :=
    place_forall (fun _ => UniformRecord.decode_type hdecode) htype
  obtain ⟨numbers, hwritten, hread⟩ :=
    UniformRecord.ofScalars_stable name htypes (place_forall hvalues hv)
  obtain ⟨n, hn, -⟩ := hv.number
  have hbinding : m.settledBinding r = .ok r.binding := by
    cases hb : r.binding with
    | some b => simp [settledBinding, hb]
    | none =>
      have hpush : r.pushConstant = true := by simpa [hb] using hsettled
      simp [settledBinding, hb, hpush]
  subst htype
  exact ⟨_, intern_eq_ok.2 ⟨r, values, _, r.binding, hr, hdecode, by rw [hn]; rfl, rfl, hwritten,
    hbinding, rfl⟩, hread _ _, rfl, rfl, rfl, rfl⟩

/-- Interns values in turn, up to the first that fails. Gives the index of each. -/
def internAll (m : Metadata) (name : String) : List Scalar → Except Fault (List Nat) × Metadata
  | [] => (.ok [], m)
  | v :: rest =>
    match m.intern name v with
    | (.error e, m) => (.error e, m)
    | (.ok i, m) =>
      let (indices, m) := m.internAll name rest
      (indices.map (i :: ·), m)

/-- Interning stable values places them all. The record changes with the first of them, and what it
keeps, it keeps to the end. -/
theorem internAll_stable (hr : m.uniform? name = some r)
    (hdecode : r.decode name = .ok (type, values)) (hsettled : r.binding.isSome ∨ r.pushConstant)
    (hvalues : ∀ v ∈ values, v.Stable) {vs : List Scalar} (htypes : ∀ v ∈ vs, v.type = type)
    (hvs : ∀ v ∈ vs, v.Stable) :
    ∃ after new, m.internAll name vs = (.ok (vs.map (placeAll values vs).idxOf), after) ∧
      after.uniform? name = some new ∧ new.decode name = .ok (type, placeAll values vs) ∧
      new.binding = r.binding ∧ new.pushConstant = r.pushConstant ∧
      (vs ≠ [] → new.count = some (placeAll values vs).length ∧ new.func = type.setter true) ∧
      ∀ other, other ≠ name → after.table.get? other = m.table.get? other := by
  induction vs generalizing m r values with
  | nil =>
    exact ⟨m, r, rfl, hr, hdecode, rfl, rfl, fun h => absurd rfl h, fun _ _ => rfl⟩
  | cons v vs ih =>
    have hv := hvs v List.mem_cons_self
    obtain ⟨new, hintern, hnew, hcount, hfunc, hbinding, hpush⟩ :=
      intern_stable hr hdecode hsettled hvalues (htypes v List.mem_cons_self) hv
    have hplaced : ∀ w ∈ (place values v).2, w.Stable := place_forall hvalues hv
    have huniform : (m.setUniform name new).uniform? name = some new := by
      rw [uniform?_setUniform, if_pos rfl]
    obtain ⟨after, last, hrest, hlast, hdecoded, hkept, hkeptPush, hrecord, hothers⟩ :=
      ih huniform hnew (by rwa [hbinding, hpush]) hplaced
        (fun w hw => htypes w (List.mem_cons_of_mem _ hw))
        fun w hw => hvs w (List.mem_cons_of_mem _ hw)
    have hall : placeAll values (v :: vs) = placeAll (place values v).2 vs := rfl
    rw [hall]
    refine ⟨after, last, ?_, hlast, hdecoded, hkept.trans hbinding, hkeptPush.trans hpush, ?_, ?_⟩
    · have hindex : (place values v).1 = (placeAll (place values v).2 vs).idxOf v := by
        rw [idxOf_placeAll (mem_place values v), place_index]
      rw [internAll, List.map_cons, ← hindex]
      simp only [hintern, hrest]
      rfl
    · intro _
      cases vs with
      | nil =>
        -- nothing follows, so the record is still the first value's
        obtain ⟨-, rfl⟩ := Prod.mk.inj hrest
        rw [huniform] at hlast
        obtain rfl := Option.some.inj hlast
        exact ⟨hcount, hfunc⟩
      | cons w ws => exact hrecord (by simp)
    · intro other hother
      rw [hothers other hother]
      simp only [setUniform, Dictionary.get?, Dictionary.insert, lookup_insertEntry, if_neg hother]

/-- Interning a run of values into an array. Every one of them gets an index, two the same index
exactly when they are equal, and the value stands there in the end; the values from before stay in
front, and as many follow as are new. The record counts them and keeps its binding. -/
theorem internAll_laws (hr : m.uniform? name = some r)
    (hcontents : m.contents name = .ok ⟨type, values⟩)
    (hsettled : r.binding.isSome ∨ r.pushConstant) (hvalues : ∀ v ∈ values, v.Stable)
    {vs : List Scalar} (htypes : ∀ v ∈ vs, v.type = type) (hvs : ∀ v ∈ vs, v.Stable) :
    ∃ indices after final, m.internAll name vs = (.ok indices, after) ∧
      indices.length = vs.length ∧
      after.contents name = .ok ⟨type, final⟩ ∧
      values <+: final ∧
      (∀ (i k : Nat) (v : Scalar), indices[i]? = some k → vs[i]? = some v → final[k]? = some v) ∧
      (∀ i j : Nat, i < vs.length → j < vs.length → (indices[i]? = indices[j]? ↔ vs[i]? = vs[j]?)) ∧
      final.length = values.length + (vs.toFinset \ values.toFinset).card ∧
      (vs ≠ [] → ∃ new, after.uniform? name = some new ∧ new.count = some final.length ∧
        new.args.length = final.length ∧ new.func = type.setter true ∧
        new.binding = r.binding ∧ new.pushConstant = r.pushConstant) ∧
      ∀ other, other ≠ name → after.table.get? other = m.table.get? other := by
  obtain ⟨r', hr', hdecode⟩ := contents_eq_ok.1 hcontents
  rw [hr] at hr'
  obtain rfl := Option.some.inj hr'
  obtain ⟨after, new, hrun, hnew, hdecoded, hbinding, hpush, hrecord, hothers⟩ :=
    internAll_stable hr hdecode hsettled hvalues htypes hvs
  have hmem : ∀ {i : Nat} {v : Scalar}, vs[i]? = some v → v ∈ placeAll values vs := fun h =>
    mem_placeAll (List.mem_of_getElem? h)
  refine ⟨_, after, placeAll values vs, hrun, List.length_map _,
    contents_eq_ok.2 ⟨new, hnew, hdecoded⟩, placeAll_extends values vs, ?_, ?_,
    placeAll_length values vs, ?_, hothers⟩
  · intro i k v hk hv
    rw [List.getElem?_map, hv, Option.map_some, Option.some.injEq] at hk
    rw [← hk, List.getElem?_eq_getElem (List.idxOf_lt_length_iff.2 (hmem hv)), List.getElem_idxOf]
  · intro i j hi hj
    have hvi := List.getElem?_eq_getElem hi
    have hvj := List.getElem?_eq_getElem hj
    rw [List.getElem?_map, List.getElem?_map, hvi, hvj]
    simp only [Option.map_some, Option.some.injEq]
    exact List.idxOf_inj (hmem hvi)
  · intro hne
    obtain ⟨hcount, hfunc⟩ := hrecord hne
    exact ⟨new, hnew, hcount, UniformRecord.decode_length hdecoded, hfunc, hbinding, hpush⟩

/-- A push constant with a count that is wrong and a value that stands twice. -/
def weightsRecord : UniformRecord :=
  ⟨"glUniform1f", some 7, [.whole 3, .real ⟨0x3fe0000000000000⟩, .whole 3], none, true⟩

def weights : Metadata := ({} : Metadata).setUniform "weights" weightsRecord

/-- The numbers 3, a half, a tenth and negative zero. -/
def three : Scalar := .float ⟨0x40400000⟩

def half : Scalar := .float ⟨0x3f000000⟩

def tenth : Scalar := .float ⟨0x3dcccccd⟩

def negativeZero : Scalar := .float ⟨0x80000000⟩

theorem weights_interned : ∃ indices after final,
    weights.internAll "weights" [half, tenth, negativeZero, tenth, three] = (.ok indices, after) ∧
      [three, half, three] <+: final ∧ final.length = 5 ∧ indices[1]? = indices[3]? ∧
      ¬indices[1]? = indices[2]? := by
  have huniform : weights.uniform? "weights" = some weightsRecord := by decide +kernel
  have hread : weightsRecord.decode "weights" = .ok (.float, [three, half, three]) :=
    UniformRecord.decode_eq_ok.2 ⟨by decide, .cons (by decide +kernel)
      (.cons (by decide +kernel) (.cons (by decide +kernel) .nil))⟩
  have hstable : ∀ v ∈ [three, half, tenth, negativeZero], v.Stable := by
    unfold Scalar.Stable
    decide +kernel
  have htypes : ∀ v ∈ [half, tenth, negativeZero, tenth, three], v.type = .float := by decide
  obtain ⟨indices, after, final, hrun, -, -, hfront, -, hsame, hlength, -⟩ :=
    internAll_laws huniform (contents_eq_ok.2 ⟨_, huniform, hread⟩) (by decide)
      (fun v hv => hstable v (by revert v; decide)) htypes
      fun v hv => hstable v (by revert v; decide)
  refine ⟨indices, after, final, hrun, hfront, hlength.trans (by decide), ?_, ?_⟩
  · exact (hsame 1 3 (by decide) (by decide)).2 rfl
  · exact fun h => absurd ((hsame 1 2 (by decide) (by decide)).1 h) (by decide)

end Metadata
end ShaderLift
