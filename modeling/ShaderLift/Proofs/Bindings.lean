import Mathlib
import ShaderLift.Proofs.Candidates
import ShaderLift.Proofs.InterningOrder

/-!
Which bindings uniforms get. A new one is one more than the highest, so bindings never collide, and
none is taken from its uniform. Where nothing was before, the arrays that are reserved are numbered
from zero. Finding promotions reserves at most one array for each type, and fails only if the highest
binding leaves no room for them.
-/

namespace ShaderLift

def Entry.binding? (e : Entry) : Option Nat := e.uniform?.bind UniformRecord.binding

namespace Metadata

variable {m next : Metadata} {name : String}

def bindingOf? (m : Metadata) (name : String) : Option Nat :=
  (m.uniform? name).bind UniformRecord.binding

theorem bindingOf?_uniform {r : UniformRecord} (h : m.uniform? name = some r) :
    m.bindingOf? name = r.binding := by
  rw [bindingOf?, h, Option.bind_some]

theorem bindingOf?_setUniform (m : Metadata) (name : String) (r : UniformRecord) (other : String) :
    (m.setUniform name r).bindingOf? other =
      if other = name then r.binding else m.bindingOf? other := by
  rw [bindingOf?, uniform?_setUniform]
  split <;> rfl

theorem hasUniform_setUniform (m : Metadata) (name : String) (r : UniformRecord) (other : String) :
    (m.setUniform name r).hasUniform other ↔ other = name ∨ m.hasUniform other := by
  rw [hasUniform, uniform?_setUniform, hasUniform]
  split <;> simp_all

theorem mem_bindings_iff {b : Nat} : b ∈ m.bindings ↔ ∃ name, m.bindingOf? name = some b := by
  simp only [mem_bindings, bindingOf?, Option.bind_eq_some_iff]

theorem bindingOf?_eq_some {n : Nat} : m.bindingOf? name = some n ↔
    ∃ e, (name, e) ∈ m.table.entries ∧ e.binding? = some n := by
  simp only [bindingOf?, uniform?, Entry.binding?, Option.bind_assoc, Option.bind_eq_some_iff,
    get?_eq_some]

theorem bindings_eq (m : Metadata) :
    m.bindings = m.table.entries.filterMap fun x => x.2.binding? := by
  rw [bindings, uniforms, List.filterMap_filterMap]
  congr 1
  funext x
  obtain ⟨name, e⟩ := x
  cases e <;> rfl

theorem bindings_nodup_iff :
    m.bindings.Nodup ↔ ∀ a b n, m.bindingOf? a = some n → m.bindingOf? b = some n → a = b := by
  rw [bindings_eq, List.Nodup, List.pairwise_filterMap]
  constructor
  · intro h a b n ha hb
    obtain ⟨e, he, hn⟩ := bindingOf?_eq_some.1 ha
    obtain ⟨f, hf, hn'⟩ := bindingOf?_eq_some.1 hb
    by_contra hne
    -- the entries are listed by name, and which of the two comes first is not known
    have hsymm : Std.Symm fun x y : String × Entry =>
        ∀ k, x.2.binding? = some k → ∀ k', y.2.binding? = some k' → k ≠ k' :=
      ⟨fun x y hxy k hk k' hk' heq => hxy k' hk' k hk heq.symm⟩
    exact h.forall he hf (fun heq => hne (congrArg Prod.fst heq)) n hn n hn' rfl
  · intro h
    refine m.table.increase.imp_of_mem fun {x y} hx hy hlt k hk k' hk' heq => ?_
    subst heq
    have hkeys := h x.1 y.1 k (bindingOf?_eq_some.2 ⟨x.2, hx, hk⟩)
      (bindingOf?_eq_some.2 ⟨y.2, hy, hk'⟩)
    rw [hkeys] at hlt
    exact String.lt_irrefl _ hlt

def free (m : Metadata) : Nat := m.bindings.max?.elim 0 (· + 1)

theorem nextBinding_eq (m : Metadata) :
    m.nextBinding = if m.free < UInt32.size then .ok m.free else .error .bindingsExhausted := by
  rw [nextBinding, free]
  cases m.bindings.max? with
  | none => rfl
  | some highest => rfl

theorem free_eq {n : Nat} (hlt : ∀ b ∈ m.bindings, b < n)
    (hlast : ∀ k, n = k + 1 → k ∈ m.bindings) : m.free = n := by
  rw [free]
  cases hmax : m.bindings.max? with
  | none =>
    cases n with
    | zero => rfl
    | succ k =>
      have hk := hlast k rfl
      rw [List.max?_eq_none_iff.1 hmax] at hk
      cases hk
  | some highest =>
    obtain ⟨hmem, hle⟩ := List.max?_eq_some_iff.1 hmax
    have hhighest := hlt highest hmem
    obtain ⟨k, rfl⟩ : ∃ k, n = k + 1 := ⟨n - 1, by omega⟩
    have hk := hle k (hlast k rfl)
    simp only [Option.elim_some]
    omega

theorem lt_free {b : Nat} (hb : b ∈ m.bindings) : b < m.free := by
  rw [free]
  cases hmax : m.bindings.max? with
  | none =>
    rw [List.max?_eq_none_iff.1 hmax] at hb
    cases hb
  | some highest =>
    have hle := (List.max?_eq_some_iff.1 hmax).2 b hb
    exact Nat.lt_succ_of_le hle

theorem free_le (h : ∀ b ∈ m.bindings, b < UInt32.size) : m.free ≤ UInt32.size := by
  rw [free]
  cases hmax : m.bindings.max? with
  | none => exact Nat.zero_le _
  | some highest => exact h highest (List.max?_eq_some_iff.1 hmax).1

/-- An empty array is put under a name, with the free binding. -/
def withArray (m : Metadata) (name : String) (type : ScalarType) : Metadata :=
  m.setUniform name { UniformRecord.emptyArray type with binding := some m.free }

theorem bindingOf?_withArray (m : Metadata) (name : String) (type : ScalarType) (other : String) :
    (m.withArray name type).bindingOf? other =
      if other = name then some m.free else m.bindingOf? other :=
  bindingOf?_setUniform _ _ _ _

theorem hasUniform_withArray (m : Metadata) (name : String) (type : ScalarType) (other : String) :
    (m.withArray name type).hasUniform other ↔ other = name ∨ m.hasUniform other :=
  hasUniform_setUniform _ _ _ _

theorem free_withArray (m : Metadata) (name : String) (type : ScalarType) :
    (m.withArray name type).free = m.free + 1 := by
  refine free_eq (fun b hb => ?_) fun k hk => ?_
  · obtain ⟨other, hother⟩ := mem_bindings_iff.1 hb
    rw [bindingOf?_withArray] at hother
    split at hother
    · obtain rfl := Option.some.inj hother
      exact Nat.lt_succ_self _
    · exact Nat.lt_succ_of_lt (lt_free (mem_bindings_iff.2 ⟨other, hother⟩))
  · obtain rfl := Nat.succ.inj hk
    exact mem_bindings_iff.2 ⟨name, by rw [bindingOf?_withArray, if_pos rfl]⟩

theorem reserve_eq (m : Metadata) (name : String) (type : ScalarType) :
    m.reserve name type =
      if m.hasUniform name then (.ok (), m)
      else if m.free < UInt32.size then (.ok (), m.withArray name type)
      else (.error .bindingsExhausted, m) := by
  rw [reserve, nextBinding_eq]
  by_cases hroom : m.free < UInt32.size
  · rw [if_pos hroom, if_pos hroom]
    rfl
  · rw [if_neg hroom, if_neg hroom]

/-- What is asked of the arrays in the metadata. -/
inductive Call where
  | reserve (name : String) (type : ScalarType)
  | intern (name : String) (value : Scalar)

/-- The metadata that a call leaves, whether it fails or not. -/
def after (m : Metadata) : Call → Metadata
  | .reserve name type => (m.reserve name type).2
  | .intern name value => (m.intern name value).2

def run (m : Metadata) (calls : List Call) : Metadata := calls.foldl after m

theorem intern_binding {value : Scalar} {i : Nat} (h : m.intern name value = (.ok i, next)) :
    ∃ old new, m.uniform? name = some old ∧ m.settledBinding old = .ok new.binding ∧
      next = m.setUniform name new := by
  obtain ⟨old, -, new, binding, hold, -, -, -, -, hbinding, rfl⟩ := intern_eq_ok.1 h
  exact ⟨old, _, hold, hbinding, rfl⟩

theorem settledBinding_cases {r : UniformRecord} {binding : Option Nat}
    (h : m.settledBinding r = .ok binding) :
    binding = r.binding ∨ r.binding = none ∧ binding = some m.free := by
  rw [settledBinding] at h
  split at h
  · next b hb => exact .inl (hb.symm ▸ (Except.ok.inj h).symm)
  · next hnone =>
    split at h
    · exact .inl (hnone.symm ▸ (Except.ok.inj h).symm)
    · obtain ⟨n, hn, rfl⟩ := map_eq_ok.1 h
      rw [nextBinding_eq] at hn
      split at hn
      · exact .inr ⟨hnone, congrArg some (Except.ok.inj hn).symm⟩
      · cases hn

/-- A call does nothing, or writes one record. This has the binding that was there, or else the free
one where there was none. -/
theorem after_cases (m : Metadata) (call : Call) :
    m.after call = m ∨ ∃ name r, m.after call = m.setUniform name r ∧
      (r.binding = m.bindingOf? name ∨ m.bindingOf? name = none ∧ r.binding = some m.free) := by
  cases call with
  | reserve name type =>
    rw [after, reserve_eq]
    split
    · exact .inl rfl
    · next hnone =>
      split
      · have hunbound : m.bindingOf? name = none := by
          rw [hasUniform, Option.not_isSome_iff_eq_none] at hnone
          rw [bindingOf?, hnone, Option.bind_none]
        exact .inr ⟨name, _, rfl, .inr ⟨hunbound, rfl⟩⟩
      · exact .inl rfl
  | intern name value =>
    rw [after]
    rcases hintern : m.intern name value with ⟨e | i, next⟩
    · exact .inl (intern_eq_error.1 hintern).2
    · obtain ⟨old, new, hold, hsettled, rfl⟩ := intern_binding hintern
      refine .inr ⟨name, new, rfl, ?_⟩
      rw [bindingOf?_uniform hold]
      exact settledBinding_cases hsettled

/-- The bindings of the first are kept in the second, and new ones are above them. -/
structure Extends (m next : Metadata) : Prop where
  nodup : m.bindings.Nodup → next.bindings.Nodup
  kept : ∀ name b, m.bindingOf? name = some b → next.bindingOf? name = some b
  above : ∀ name b, next.bindingOf? name = some b →
    m.bindingOf? name = some b ∨ ∀ c ∈ m.bindings, c < b

theorem extends_setUniform {r : UniformRecord}
    (h : r.binding = m.bindingOf? name ∨ m.bindingOf? name = none ∧ r.binding = some m.free) :
    m.Extends (m.setUniform name r) := by
  -- a binding after the write was there before, or is the free one under this name
  have hat : ∀ other b, (m.setUniform name r).bindingOf? other = some b →
      m.bindingOf? other = some b ∨ other = name ∧ b = m.free := by
    intro other b hb
    rw [bindingOf?_setUniform] at hb
    split at hb
    · next heq =>
      subst heq
      rcases h with hkept | ⟨-, hfree⟩
      · exact .inl (hkept.symm.trans hb)
      · exact .inr ⟨rfl, Option.some.inj (hb.symm.trans hfree)⟩
    · exact .inl hb
  have hused : ∀ other b, m.bindingOf? other = some b → b < m.free := fun other b hb =>
    lt_free (mem_bindings_iff.2 ⟨other, hb⟩)
  refine ⟨fun hnodup => ?_, fun other b hb => ?_, fun other b hb => ?_⟩
  · rw [bindings_nodup_iff] at hnodup ⊢
    intro a b n ha hb
    rcases hat a n ha with hold | ⟨rfl, hfree⟩
    · rcases hat b n hb with hold' | ⟨-, hfree⟩
      · exact hnodup a b n hold hold'
      · exact absurd hfree (hused a n hold).ne
    · rcases hat b n hb with hold | ⟨rfl, -⟩
      · exact absurd hfree (hused b n hold).ne
      · rfl
  · rw [bindingOf?_setUniform]
    split
    · next heq =>
      subst heq
      rcases h with hkept | ⟨hnone, -⟩
      · exact hkept.trans hb
      · cases hnone.symm.trans hb
    · exact hb
  · rcases hat other b hb with hb | ⟨-, rfl⟩
    · exact .inl hb
    · exact .inr fun c hc => lt_free hc

theorem extends_after (m : Metadata) (call : Call) : m.Extends (m.after call) := by
  obtain hsame | ⟨name, r, hset, hr⟩ := m.after_cases call
  · rw [hsame]
    exact ⟨id, fun _ _ h => h, fun _ _ h => .inl h⟩
  · rw [hset]
    exact extends_setUniform hr

theorem nodup_run {calls : List Call} (h : m.bindings.Nodup) : (m.run calls).bindings.Nodup := by
  induction calls generalizing m with
  | nil => exact h
  | cons call calls ih => exact ih ((m.extends_after call).nodup h)

theorem run_concat (m : Metadata) (calls : List Call) (call : Call) :
    m.run (calls ++ [call]) = (m.run calls).after call := by
  rw [run, List.foldl_append]
  rfl

/-- The uniforms are these names, and their bindings number them. -/
structure Dense (names : List String) (m : Metadata) : Prop where
  nodup : names.Nodup
  uniform : ∀ name, m.hasUniform name ↔ name ∈ names
  binding : ∀ i name, names[i]? = some name → m.bindingOf? name = some i

namespace Dense

variable {names : List String}

theorem bindingOf?_eq (h : Dense names m) {b : Nat} (hb : m.bindingOf? name = some b) :
    names[b]? = some name := by
  have hname : m.hasUniform name := by
    obtain ⟨r, hr, -⟩ := Option.bind_eq_some_iff.1 hb
    rw [hasUniform, hr]
    rfl
  obtain ⟨i, hi⟩ := List.getElem?_of_mem ((h.uniform name).1 hname)
  rwa [Option.some.inj ((h.binding i name hi).symm.trans hb)] at hi

theorem free (h : Dense names m) : m.free = names.length := by
  refine free_eq (fun b hb => ?_) fun k hk => ?_
  · obtain ⟨name, hname⟩ := mem_bindings_iff.1 hb
    exact (List.getElem?_eq_some_iff.1 (h.bindingOf?_eq hname)).1
  · have hlast : names[k]? = some names[k] := List.getElem?_eq_getElem (by omega)
    exact mem_bindings_iff.2 ⟨_, h.binding k _ hlast⟩

theorem intern (h : Dense names m) (name : String) (value : Scalar) :
    Dense names (m.after (.intern name value)) := by
  have hextends := m.extends_after (.intern name value)
  refine ⟨h.nodup, fun other => ?_, fun i other hi => hextends.kept _ _ (h.binding i other hi)⟩
  rw [← h.uniform other, after]
  rcases hintern : m.intern name value with ⟨e | i, next⟩
  · rw [(intern_eq_error.1 hintern).2]
  · obtain ⟨old, new, hold, -, rfl⟩ := intern_binding hintern
    rw [hasUniform_setUniform]
    refine or_iff_right_of_imp ?_
    rintro rfl
    rw [hasUniform, hold]
    rfl

theorem reserve_old (h : Dense names m) (hname : name ∈ names) (type : ScalarType) :
    Dense names (m.after (.reserve name type)) := by
  have hsame : m.after (.reserve name type) = m := by
    rw [after, reserve_eq, if_pos ((h.uniform name).2 hname)]
  rwa [hsame]

theorem reserve_new (h : Dense names m) (hname : name ∉ names) (hroom : names.length < UInt32.size)
    (type : ScalarType) : Dense (names ++ [name]) (m.after (.reserve name type)) := by
  have hnone : ¬m.hasUniform name := fun hhas => hname ((h.uniform name).1 hhas)
  have hset : m.after (.reserve name type) = m.withArray name type := by
    rw [after, reserve_eq, if_neg hnone, if_pos (h.free.trans_lt hroom)]
  rw [hset]
  refine ⟨List.nodup_append_comm.1 (List.nodup_cons.2 ⟨hname, h.nodup⟩), fun other => ?_,
    fun i other hi => ?_⟩
  · rw [hasUniform_withArray, h.uniform other, List.mem_append, List.mem_singleton, or_comm]
  · rw [bindingOf?_withArray, h.free]
    by_cases hold : i < names.length
    · rw [List.getElem?_append_left hold] at hi
      have hne : other ≠ name := fun heq => hname (heq ▸ List.mem_of_getElem? hi)
      rw [if_neg hne, h.binding i other hi]
    · rw [List.getElem?_append_right (Nat.le_of_not_lt hold), List.getElem?_singleton] at hi
      split at hi
      · obtain rfl := Option.some.inj hi
        rw [if_pos rfl, show i = names.length by omega]
      · cases hi

end Dense

theorem eraseDups_concat {α : Type} [BEq α] [LawfulBEq α] (xs : List α) (x : α) :
    (xs ++ [x]).eraseDups = if x ∈ xs then xs.eraseDups else xs.eraseDups ++ [x] := by
  rw [List.eraseDups_append]
  split
  · next hx => simp [List.removeAll, hx]
  · next hx => simp [List.removeAll, hx, List.eraseDups_cons]

def Call.reserved? : Call → Option String
  | reserve name _ => some name
  | intern _ _ => none

/-- The names that calls reserve, in the order in which they come first. -/
def reserved (calls : List Call) : List String := (calls.filterMap Call.reserved?).eraseDups

theorem dense_empty : Dense [] ⟨.ofList []⟩ :=
  ⟨List.nodup_nil, fun _ => iff_of_false Bool.false_ne_true List.not_mem_nil, by simp⟩

theorem dense_run (calls : List Call) (h : (reserved calls).length ≤ UInt32.size) :
    Dense (reserved calls) (run ⟨.ofList []⟩ calls) := by
  -- from the end, since the last call meets what those before it left
  induction calls using List.reverseRecOn with
  | nil => exact dense_empty
  | append_singleton calls call ih =>
    rw [run_concat]
    cases call with
    | intern name value =>
      have hsame : reserved (calls ++ [.intern name value]) = reserved calls := by
        simp [reserved, List.filterMap_cons, Call.reserved?]
      rw [hsame] at h ⊢
      exact (ih h).intern name value
    | reserve name type =>
      have hmem : name ∈ reserved calls ↔ name ∈ calls.filterMap Call.reserved? :=
        List.mem_eraseDups
      have hmore : reserved (calls ++ [.reserve name type]) =
          if name ∈ reserved calls then reserved calls else reserved calls ++ [name] := by
        simp only [hmem]
        rw [reserved, List.filterMap_append]
        exact eraseDups_concat _ _
      rw [hmore] at h ⊢
      split
      · next hold =>
        rw [if_pos hold] at h
        exact (ih h).reserve_old hold type
      · next hnew =>
        rw [if_neg hnew, List.length_append, List.length_singleton] at h
        exact (ih (by omega)).reserve_new hnew (by omega) type

/-- Bindings never collide, whatever is reserved and interned, with or without success. After each
call they are still distinct, every uniform has the binding that it had, and a new one is above all
that were in use. Where nothing was before, the names that are reserved get the numbers from zero on,
in the order in which they come first, and keep them. -/
theorem run_bindings :
    (∀ (m : Metadata) (calls : List Call) (call : Call), m.bindings.Nodup →
      (m.run (calls ++ [call])).bindings.Nodup ∧
      (∀ name b, (m.run calls).bindingOf? name = some b →
        (m.run (calls ++ [call])).bindingOf? name = some b) ∧
      ∀ name b, (m.run (calls ++ [call])).bindingOf? name = some b →
        (m.run calls).bindingOf? name = some b ∨ ∀ c ∈ (m.run calls).bindings, c < b) ∧
    ∀ calls : List Call, (reserved calls).length ≤ UInt32.size →
      ∀ i name, (reserved calls)[i]? = some name →
        (run ⟨.ofList []⟩ calls).bindingOf? name = some i := by
  refine ⟨fun m calls call h => ?_, fun calls h => (dense_run calls h).binding⟩
  have hextends := (m.run calls).extends_after call
  rw [run_concat]
  exact ⟨hextends.nodup (nodup_run h), hextends.kept, hextends.above⟩

/-- An array with a binding, and one that waits for its own. -/
def twoArrays : Metadata :=
  ⟨.ofList [("a", .uniform ⟨"glUniform1iv", some 0, [], some 7, false⟩),
    ("b", .uniform ⟨"glUniform1iv", some 1, [.whole 3], none, false⟩)]⟩

theorem twoArrays_bindings :
    twoArrays.bindings.Nodup ∧
    (twoArrays.run [.reserve "c" .float, .intern "b" (.int 4)]).bindings.Nodup ∧
    (twoArrays.run [.reserve "c" .float, .intern "b" (.int 4)]).bindingOf? "c" = some 8 ∧
    (twoArrays.run [.reserve "c" .float, .intern "b" (.int 4)]).bindingOf? "b" = some 9 ∧
    (∀ c ∈ (twoArrays.run [.reserve "c" .float]).bindings, c < 9) ∧
    (run ⟨.ofList []⟩ [.reserve "x" .int, .intern "x" (.int 3), .intern "z" (.int 3),
      .reserve "y" .float]).bindingOf? "y" = some 1 := by
  have hnodup : twoArrays.bindings.Nodup := by decide
  have hb : (twoArrays.run [.reserve "c" .float, .intern "b" (.int 4)]).bindingOf? "b" = some 9 := by
    decide
  have hwait : (twoArrays.run [.reserve "c" .float]).bindingOf? "b" ≠ some 9 := by decide
  obtain ⟨hsteps, hdense⟩ := run_bindings
  obtain ⟨hafter, hkept, habove⟩ :=
    hsteps twoArrays [.reserve "c" .float] (.intern "b" (.int 4)) hnodup
  exact ⟨hnodup, hafter, hkept "c" 8 (by decide), hb, (habove "b" 9 hb).resolve_left hwait,
    hdense _ (by decide) 1 "y" (by decide)⟩

end Metadata

namespace Metadata

variable {m : Metadata} {t : ScalarType}

def highest (m : Metadata) : Int := m.bindings.max?.elim (-1) fun b => b

theorem highest_eq (m : Metadata) : m.highest = m.free - 1 := by
  rw [highest, free]
  cases m.bindings.max? with
  | none => rfl
  | some b => simp

/-- The types whose arrays are not there, in the order in which they come first. -/
def lacking (m : Metadata) (types : List ScalarType) : List ScalarType :=
  (types.filter fun t => !m.hasUniform t.arrayName).eraseDups

theorem lacking_cons_old (h : m.hasUniform t.arrayName) (types : List ScalarType) :
    m.lacking (t :: types) = m.lacking types := by
  rw [lacking, List.filter_cons_of_neg (by simp [h]), lacking]

theorem lacking_cons_new (h : ¬m.hasUniform t.arrayName) (types : List ScalarType) :
    m.lacking (t :: types) = t :: (m.withArray t.arrayName t).lacking types := by
  rw [lacking, List.filter_cons_of_pos (by simp [h]), List.eraseDups_cons, List.filter_filter,
    lacking]
  congr 2
  refine List.filter_congr fun u _ => ?_
  have hu := m.hasUniform_withArray t.arrayName t u.arrayName
  rw [ScalarType.arrayName_injective.eq_iff] at hu
  grind

end Metadata

namespace Job

variable {job after : Job} {ps : List Promotion}

theorem reserveArray_eq (job : Job) (type : ScalarType) :
    job.reserveArray type =
      if job.metadata.hasUniform type.arrayName then (.ok (), job)
      else if job.metadata.free < UInt32.size then
        (.ok (), { job with metadata := job.metadata.withArray type.arrayName type })
      else (.error .bindingsExhausted, job) := by
  rw [reserveArray, Metadata.reserve_eq]
  by_cases hold : job.metadata.hasUniform type.arrayName
  · rw [if_pos hold, if_pos hold]
  · rw [if_neg hold, if_neg hold]
    by_cases hroom : job.metadata.free < UInt32.size
    · rw [if_pos hroom, if_pos hroom]
    · rw [if_neg hroom, if_neg hroom]

theorem Reserves.bindingOf? (h : job.Reserves after) {name : String} {b : Nat}
    (hb : job.metadata.bindingOf? name = some b) : after.metadata.bindingOf? name = some b := by
  obtain ⟨r, hr, hbinding⟩ := Option.bind_eq_some_iff.1 hb
  rw [Metadata.bindingOf?_uniform (h.uniforms name r hr), hbinding]

/-- The arrays that are lacking get the bindings from the free one on. -/
theorem reserves_bindings (hfree : job.metadata.free ≤ UInt32.size)
    (h : job.reserveArrays ps = (.ok (), after)) :
    job.metadata.free + (job.metadata.lacking (ps.map fun p => p.value.type)).length ≤
        UInt32.size ∧
      ∀ i t, (job.metadata.lacking (ps.map fun p => p.value.type))[i]? = some t →
        after.metadata.bindingOf? t.arrayName = some (job.metadata.free + i) := by
  induction ps generalizing job with
  | nil => exact ⟨hfree, by simp [Metadata.lacking]⟩
  | cons p ps ih =>
    obtain ⟨next, hnext, hrest⟩ := reserveArrays_cons_ok.1 h
    rw [reserveArray_eq] at hnext
    rw [List.map_cons]
    split at hnext
    · next hold =>
      obtain ⟨-, rfl⟩ := Prod.mk.inj hnext
      rw [Metadata.lacking_cons_old hold]
      exact ih hfree hrest
    · next hnew =>
      split at hnext
      · next hroom =>
        obtain ⟨-, rfl⟩ := Prod.mk.inj hnext
        have htaken := job.metadata.free_withArray p.value.type.arrayName p.value.type
        obtain ⟨hsize, hothers⟩ := ih (htaken.trans_le hroom) hrest
        simp only [htaken] at hsize hothers
        rw [Metadata.lacking_cons_new hnew]
        refine ⟨?_, fun i t hi => ?_⟩
        · rw [List.length_cons]
          omega
        · cases i with
          | zero =>
            obtain rfl := Option.some.inj hi
            refine (reserveArrays_ok hrest).bindingOf? ?_
            rw [Metadata.bindingOf?_withArray, if_pos rfl, Nat.add_zero]
          | succ i => rw [hothers i t hi, Nat.add_assoc, Nat.add_comm 1]
      · cases (Prod.mk.inj hnext).1

theorem reserves_exhausted {fault : Fault}
    (h : job.reserveArrays ps = (.error fault, after)) :
    UInt32.size <
      job.metadata.free + (job.metadata.lacking (ps.map fun p => p.value.type)).length := by
  induction ps generalizing job with
  | nil => cases (Prod.mk.inj h).1
  | cons p ps ih =>
    rw [reserveArrays, reserveArray_eq] at h
    rw [List.map_cons]
    by_cases hold : job.metadata.hasUniform p.value.type.arrayName
    · rw [if_pos hold] at h
      rw [Metadata.lacking_cons_old hold]
      exact ih h
    · rw [if_neg hold] at h
      rw [Metadata.lacking_cons_new hold, List.length_cons]
      by_cases hroom : job.metadata.free < UInt32.size
      · rw [if_pos hroom] at h
        have hrest := ih h
        simp only [Metadata.free_withArray] at hrest
        omega
      · omega

/-- The types of the values to be promoted whose arrays are not in the metadata, in the order of their
first values. -/
def lacking (job : Job) : List ScalarType :=
  job.metadata.lacking (job.promotions.map fun p => p.value.type)

theorem findPromotions_numbered {found : List Promotion}
    (hfree : job.metadata.free ≤ UInt32.size) (h : job.findPromotions = (.ok found, after)) :
    job.metadata.free + job.lacking.length ≤ UInt32.size ∧
      ∀ (i : Nat) (t : ScalarType), job.lacking[i]? = some t →
        after.metadata.bindingOf? t.arrayName = some (job.metadata.free + i) := by
  exact reserves_bindings hfree (findPromotions_eq_ok.1 h).2

theorem findPromotions_exhausted {fault : Fault} (h : job.findPromotions = (.error fault, after)) :
    UInt32.size < job.metadata.free + job.lacking.length := by
  rw [findPromotions] at h
  split at h
  · next hreserve => exact reserves_exhausted hreserve
  · cases (Prod.mk.inj h).1

/-- Finding promotions goes through if and only if the bindings above the highest are enough for the
arrays that are lacking, and gives these the bindings that follow it, in the order of their first
values. The values are those of the literals that can be promoted, as they come in the job. -/
theorem findPromotions_bindings (job : Job) (h : ∀ b ∈ job.metadata.bindings, b < UInt32.size) :
    (∃ places : List (Nat × Path),
      (∀ i path, (i, path) ∈ places ↔
        ∃ stage s, job.stages[i]? = some (stage, s) ∧ s.Promotable path) ∧
      places.Pairwise job.Before ∧ List.Forall₂ job.Marks places job.promotions) ∧
    ((∃ found after, job.findPromotions = (.ok found, after)) ↔
      job.metadata.highest + job.lacking.length ≤ 2 ^ 32 - 1) ∧
    (∀ fault after, job.findPromotions = (.error fault, after) → fault = .bindingsExhausted) ∧
    ∀ found after, job.findPromotions = (.ok found, after) →
      ∀ (i : Nat) (t : ScalarType), job.lacking[i]? = some t →
        ∃ b : Nat, after.metadata.bindingOf? t.arrayName = some b ∧
          b = job.metadata.highest + 1 + i := by
  have hsize : UInt32.size = 2 ^ 32 := rfl
  have hfree := Metadata.free_le h
  rw [Metadata.highest_eq]
  refine ⟨job.exists_places, ⟨?_, fun hle => ?_⟩,
    fun fault after hfault => findPromotions_error hfault, fun found after hfind i t hi => ?_⟩
  · rintro ⟨found, after, hfind⟩
    have hle := (findPromotions_numbered hfree hfind).1
    omega
  · rcases hfind : job.findPromotions with ⟨fault | found, after⟩
    · have hlt := findPromotions_exhausted hfind
      omega
    · exact ⟨found, after, rfl⟩
  · exact ⟨_, (findPromotions_numbered hfree hfind).2 i t hi, by omega⟩

/-- Literals of both types, and metadata with one binding. -/
def twoLiterals (binding : Nat) : Job :=
  ⟨[(.fragment, ⟨[.function 0 ⟨⟨[], .void⟩, "main", [],
    some [.expr 1 (.call 2 "f" [.literal 3 (.float ⟨1065353216⟩), .literal 4 (.int 4)])]⟩]⟩)],
    ⟨.ofList [("a", .uniform ⟨"glUniform1iv", some 0, [], some binding, false⟩)]⟩, ⟨5⟩⟩

/-- With room for one array finding fails, with room for two both get what is left. -/
theorem twoLiterals_bindings :
    (∀ b ∈ (twoLiterals 4294967294).metadata.bindings, b < UInt32.size) ∧
    (twoLiterals 4294967294).findPromotions.1 = .error .bindingsExhausted ∧
    (∀ b ∈ (twoLiterals 4294967293).metadata.bindings, b < UInt32.size) ∧
    ∃ found after, (twoLiterals 4294967293).findPromotions = (.ok found, after) ∧
      ∃ b : Nat, after.metadata.bindingOf? ScalarType.int.arrayName = some b ∧
        (b : Int) = 4294967295 := by
  have hbelow : ∀ b ∈ (twoLiterals 4294967294).metadata.bindings, b < UInt32.size := by decide
  have hbelow' : ∀ b ∈ (twoLiterals 4294967293).metadata.bindings, b < UInt32.size := by decide
  have hroom : ¬(twoLiterals 4294967294).metadata.highest +
      (twoLiterals 4294967294).lacking.length ≤ 2 ^ 32 - 1 := by decide
  obtain ⟨-, hone, hfault, -⟩ := findPromotions_bindings _ hbelow
  obtain ⟨-, htwo, -, hbindings⟩ := findPromotions_bindings _ hbelow'
  obtain ⟨found, after, hfind⟩ := htwo.2 (by decide)
  refine ⟨hbelow, ?_, hbelow', found, after, hfind, hbindings found after hfind 1 .int (by decide)⟩
  rcases hresult : (twoLiterals 4294967294).findPromotions with ⟨fault | found, after⟩
  · rw [hfault fault after hresult]
  · exact absurd (hone.1 ⟨found, after, hresult⟩) hroom

end Job
end ShaderLift
