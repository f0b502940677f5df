import Mathlib
import ShaderLift.Proofs.Bindings

/-!
What becomes of the entries of the metadata when arrays are reserved. A uniform stays as it is. An
entry of another kind stays too, unless it has the name of an array that is reserved: the array then
takes its place, since it counts as absent.
-/

namespace ShaderLift

namespace Metadata

variable {m next : Metadata} {name : String} {type : ScalarType}

theorem hasUniform_iff : m.hasUniform name ↔ ∃ r, m.table.get? name = some (.uniform r) := by
  simp only [hasUniform, Option.isSome_iff_exists, uniform?_eq_some]

/-- The name has an empty array with a binding. -/
def HasEmptyArray (m : Metadata) (name : String) (type : ScalarType) : Prop :=
  ∃ b, m.table.get? name =
    some (.uniform { UniformRecord.emptyArray type with binding := some b })

/-- Nothing happens to a name, or it gets an empty array because it had no uniform. -/
theorem reserve_get? (h : m.reserve name type = (.ok (), next)) (other : String) :
    next.table.get? other = m.table.get? other ∨
      other = name ∧ ¬m.hasUniform name ∧ next.HasEmptyArray name type := by
  obtain ⟨-, rfl⟩ | ⟨hnone, b, -, rfl⟩ := reserve_eq_ok.1 h
  · exact .inl rfl
  · by_cases hother : other = name
    · exact .inr ⟨hother, hnone, b, by rw [get?_setUniform, if_pos rfl]⟩
    · exact .inl (by rw [get?_setUniform, if_neg hother])

theorem uniform_of_kept {e : Entry} (hkept : next.table.get? name = some e)
    (hname : next.hasUniform name) : ∃ r, e = .uniform r := by
  obtain ⟨r, hr⟩ := hasUniform_iff.1 hname
  exact ⟨r, Option.some.inj (hkept.symm.trans hr)⟩

end Metadata

namespace Job

variable {job after : Job} {ps found : List Promotion}

/-- A name keeps what it has, or it gets the empty array of one of the promotions. -/
theorem reserveArrays_get? (h : job.reserveArrays ps = (.ok (), after)) (name : String) :
    after.metadata.table.get? name = job.metadata.table.get? name ∨
      ∃ p ∈ ps, p.arrayName = name ∧ after.metadata.HasEmptyArray name p.value.type := by
  induction ps generalizing job with
  | nil =>
    obtain ⟨-, rfl⟩ := Prod.mk.inj h
    exact .inl rfl
  | cons p ps ih =>
    obtain ⟨next, hnext, hrest⟩ := reserveArrays_cons_ok.1 h
    obtain ⟨metadata, hreserve, rfl⟩ := reserveArray_eq_ok.1 hnext
    rcases ih hrest with hsame | ⟨q, hq, hname, harray⟩
    · rcases Metadata.reserve_get? hreserve name with hkept | ⟨rfl, -, harray⟩
      · exact .inl (hsame.trans hkept)
      · obtain ⟨b, hb⟩ := harray
        exact .inr ⟨p, List.mem_cons_self, rfl, b, hsame.trans hb⟩
    · exact .inr ⟨q, List.mem_cons_of_mem _ hq, hname, harray⟩

theorem findPromotions_get? (h : job.findPromotions = (.ok found, after)) (name : String) :
    after.metadata.table.get? name = job.metadata.table.get? name ∨
      ∃ p ∈ job.promotions, p.arrayName = name ∧
        after.metadata.HasEmptyArray name p.value.type :=
  reserveArrays_get? (findPromotions_eq_ok.1 h).2 name

/-- An entry outlasts the reservation of an array exactly if it is a uniform or has another name,
and the search for promotions exactly if it is a uniform or has the name of no promotion's array.
Where the search does change what is under a name, it puts the empty array of a promotion there. -/
theorem findPromotions_keeps_iff (job : Job) :
    (∀ name type next, job.metadata.reserve name type = (.ok (), next) →
      ∀ other e, job.metadata.table.get? other = some e →
        (next.table.get? other = some e ↔ (∃ r, e = .uniform r) ∨ other ≠ name)) ∧
    ∀ after found, job.findPromotions = (.ok found, after) →
      (∀ name e, job.metadata.table.get? name = some e →
        (after.metadata.table.get? name = some e ↔
          (∃ r, e = .uniform r) ∨ ∀ p ∈ job.promotions, p.arrayName ≠ name)) ∧
      ∀ name, after.metadata.table.get? name ≠ job.metadata.table.get? name →
        ∃ p ∈ job.promotions, p.arrayName = name ∧
          ∃ b, after.metadata.table.get? name =
            some (.uniform { UniformRecord.emptyArray p.value.type with binding := some b }) := by
  refine ⟨fun name type next h other e he => ⟨fun hkept => ?_, ?_⟩,
    fun after found h => ⟨fun name e he => ⟨fun hkept => ?_, ?_⟩, fun name hne => ?_⟩⟩
  · by_cases hother : other = name
    · subst hother
      exact .inl (Metadata.uniform_of_kept hkept (Metadata.reserve_hasUniform h))
    · exact .inr hother
  · intro hstays
    rcases Metadata.reserve_get? h other with hsame | ⟨rfl, hnone, -⟩
    · exact hsame.trans he
    · rcases hstays with ⟨r, rfl⟩ | hother
      · exact absurd (Metadata.hasUniform_iff.2 ⟨r, he⟩) hnone
      · exact absurd rfl hother
  · by_cases hnamed : ∃ p ∈ job.promotions, p.arrayName = name
    · obtain ⟨p, hp, rfl⟩ := hnamed
      obtain ⟨rfl, hsettled⟩ := findPromotions_settled h
      have hsame : after.promotions = job.promotions := (findPromotions_found h).1
      exact .inl (Metadata.uniform_of_kept hkept (hsettled p (hsame ▸ hp)))
    · exact .inr fun p hp hname => hnamed ⟨p, hp, hname⟩
  · rintro (⟨r, rfl⟩ | hother)
    · have hkept := (findPromotions_found h).2.uniforms name r
      exact Metadata.uniform?_eq_some.1 (hkept (Metadata.uniform?_eq_some.2 he))
    · rcases findPromotions_get? h name with hsame | ⟨p, hp, hname, -⟩
      · exact hsame.trans he
      · exact absurd hname (hother p hp)
  · exact (findPromotions_get? h name).resolve_left hne

/-- A literal to be promoted, and entries of all kinds: one has the name of the literal's array. -/
def occupied : Job :=
  ⟨[(.fragment, ⟨[.function 0 ⟨⟨[], .void⟩, "main", [], some [.expr 1 (.literal 2 (.int 1))]⟩]⟩)],
    ⟨⟨[("_GLF_uniform_int_values", .other (.number (.whole 5))), ("groups", .other (.array [])),
      ("weight", .uniform ⟨"glUniform1f", none, [.whole 2], some 7, false⟩)],
      by unfold KeysIncrease; decide⟩⟩, ⟨3⟩⟩

theorem occupied_kept :
    ∃ found after, occupied.findPromotions = (.ok found, after) ∧
      after.metadata.table.get? "groups" = some (.other (.array [])) ∧
      after.metadata.table.get? "weight" =
        some (.uniform ⟨"glUniform1f", none, [.whole 2], some 7, false⟩) ∧
      after.metadata.table.get? "_GLF_uniform_int_values" ≠ some (.other (.number (.whole 5))) := by
  have hfound : ∃ found after, occupied.findPromotions = (.ok found, after) := ⟨_, _, rfl⟩
  have hnames : ∀ p ∈ occupied.promotions, p.arrayName = "_GLF_uniform_int_values" := by decide
  have hmember : (⟨.fragment, 2, .int 1, 2⟩ : Promotion) ∈ occupied.promotions := by decide
  obtain ⟨found, after, hfind⟩ := hfound
  obtain ⟨hkeeps, -⟩ := (findPromotions_keeps_iff occupied).2 _ _ hfind
  refine ⟨found, after, hfind, (hkeeps _ _ rfl).2 (.inr fun p hp => ?_),
    (hkeeps _ _ rfl).2 (.inl ⟨_, rfl⟩), fun hkept => ?_⟩
  · rw [hnames p hp]
    decide
  · rcases (hkeeps _ _ rfl).1 hkept with ⟨r, hr⟩ | hother
    · cases hr
    · exact hother _ hmember rfl

def textsUnder (name text source : String) : Option (Option String × Option String) := do
  let metadata ← (Metadata.ofText text).toOption
  let (.ok (), job) := (⟨[], metadata, {}⟩ : Job).addShader .fragment source | none
  let (.ok _, found) := job.findPromotions | none
  let textOf (m : Metadata) := (m.table.get? name).map fun e => String.ofList e.toJson.compact
  return (textOf job.metadata, textOf found.metadata)

/-- A number under the name of an array gives way to the array. -/
theorem number_gives_way :
    textsUnder "_GLF_uniform_int_values" "\x7b\"_GLF_uniform_int_values\":5\x7d"
        "void main() \x7b 1; \x7d" =
      some (some "5",
        some "\x7b\"func\":\"glUniform1iv\",\"count\":0,\"args\":[],\"binding\":0\x7d") := by
  decide +kernel

end Job
end ShaderLift
