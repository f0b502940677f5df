import Mathlib
import ShaderLift.Metadata.LiteralArray
import ShaderLift.Proofs.Rounding

/-!
The contents of arrays in the metadata. Values are written as numbers and read back; what comes
back has the same type, and is the same for every whole number.
-/

namespace ShaderLift

open Numeral BinaryFormat

def greatestSingle : Nat := 1151 * 2 ^ 52 - 2 ^ 29

theorem units_greatestSingle :
    double.units greatestSingle * 2 ^ single.scale =
      single.units (single.infinity - 1) * 2 ^ double.scale := by
  decide +kernel

theorem convert_finite {x : Nat} (hx : x ≤ greatestSingle) :
    double.convert .single x < single.infinity := by
  have hpos : 0 < single.infinity := by decide
  have hle := convert_le (by decide) (Nat.le_of_eq units_greatestSingle) hx
  omega

theorem convert_shortest_finite {k : Nat} (hpos : 0 < k) (hk : k < single.infinity) :
    let d := single.shortest .up k
    double.convert .single (double.ofDecimal d.digits d.exponent) < single.infinity := by
  intro d
  by_cases htop : k + 1 = single.infinity
  · -- the shortest decimal of the greatest single exceeds it, so it has to be looked at
    obtain rfl : k = single.infinity - 1 := by omega
    have hd : d = ⟨34028235, 31⟩ := by decide +kernel
    rw [hd]
    decide +kernel
  · have hcell : single.DecimalInCell k d.digits d.exponent := shortest_inCell .up hpos
    have hexponent := hcell.exponent_le single_regular hpos hk
    obtain ⟨-, hhigh, -⟩ := hcell
    have hself : single.units k ≤ single.units (single.infinity - 1) :=
      single.units_strictMono.monotone (by omega)
    have hnext : single.units (k + 1) ≤ single.units (single.infinity - 1) :=
      single.units_strictMono.monotone (by omega)
    have hbound : d.digits * 10 ^ d.exponent.toNat * 2 ^ single.scale ≤
        single.units (single.infinity - 1) * 10 ^ (-d.exponent).toNat := by
      have hsum := Nat.mul_le_mul_right (10 ^ (-d.exponent).toNat) (Nat.add_le_add hself hnext)
      rw [← Nat.two_mul, Nat.mul_assoc] at hsum
      omega
    refine convert_finite (ofDecimal_le_of_le (by decide) (hexponent.trans (by decide)) ?_)
    refine Nat.le_of_mul_le_mul_right ?_ (Nat.two_pow_pos single.scale)
    calc d.digits * 10 ^ d.exponent.toNat * 2 ^ double.scale * 2 ^ single.scale
        = d.digits * 10 ^ d.exponent.toNat * 2 ^ single.scale * 2 ^ double.scale :=
          Nat.mul_right_comm _ _ _
      _ ≤ single.units (single.infinity - 1) * 10 ^ (-d.exponent).toNat * 2 ^ double.scale :=
          Nat.mul_le_mul_right _ hbound
      _ = single.units (single.infinity - 1) * 2 ^ double.scale * 10 ^ (-d.exponent).toNat :=
          Nat.mul_right_comm _ _ _
      _ = double.units greatestSingle * 2 ^ single.scale * 10 ^ (-d.exponent).toNat := by
          rw [units_greatestSingle]
      _ = double.units greatestSingle * 10 ^ (-d.exponent).toNat * 2 ^ single.scale :=
          Nat.mul_right_comm _ _ _

theorem Double.pattern_ofPattern (negative : Bool) {p : Nat} (hp : p < double.signBit) :
    (ofPattern negative p).pattern = p := by
  have hbit : double.signBit = 2 ^ 63 := by decide
  rw [hbit] at hp
  simp only [pattern, ofPattern, UInt64.toNat_ofNat', hbit]
  cases negative <;> simp <;> omega

theorem Single.pattern_ofPattern (negative : Bool) {p : Nat} (hp : p < single.signBit) :
    (ofPattern negative p).pattern = p := by
  have hbit : single.signBit = 2 ^ 31 := by decide
  rw [hbit] at hp
  simp only [pattern, ofPattern, UInt32.toNat_ofNat', hbit]
  cases negative <;> simp <;> omega

theorem toSingle_ofSingle_finite {v : Single} (hv : v.isFinite) :
    (Double.ofSingle v).toSingle.isFinite := by
  have hk : v.pattern < single.infinity := by simpa [Single.isFinite] using hv
  have hinfinity : single.infinity < single.signBit := by decide
  have hdecimal : double.ofDecimal v.decimal.digits v.decimal.exponent < double.signBit :=
    Nat.lt_of_le_of_lt (ofDecimal_le _ _ _) (by decide)
  have hfinite : double.convert .single (double.ofDecimal v.decimal.digits v.decimal.exponent) <
      single.infinity := by
    by_cases hzero : v.pattern = 0
    · have hd : v.decimal = ⟨0, 0⟩ := if_pos hzero
      rw [hd]
      decide +kernel
    · have hd : v.decimal = single.shortest .up v.pattern := if_neg hzero
      rw [hd]
      exact convert_shortest_finite (Nat.pos_of_ne_zero hzero) hk
  rw [Single.isFinite, Double.toSingle, Double.ofSingle, Double.pattern_ofPattern _ hdecimal,
    Single.pattern_ofPattern _ (hfinite.trans hinfinity)]
  simpa using hfinite

namespace Scalar

/-- What is read back once the value was written as a number. -/
def recode? (v : Scalar) : Option Scalar := v.toNumber?.bind (ofNumber? v.type)

/-- The value is read back as it was. -/
def Stable (v : Scalar) : Prop := v.recode? = some v

theorem int_stable (v : Int32) : (int v).Stable := by
  have hlow : Int32.minValue.toInt ≤ v.toInt := Int32.minValue_le_toInt v
  have hhigh : v.toInt ≤ Int32.maxValue.toInt := Int32.toInt_le v
  have hread : ofNumber? .int (.whole v.toInt) = some (int (.ofInt v.toInt)) :=
    if_pos (by simp only [hlow, hhigh, decide_true, Bool.and_self])
  rw [Int32.ofInt_toInt] at hread
  exact hread

theorem ofNumber?_float {n : Number} {v : Scalar} (h : ofNumber? .float n = some v) :
    ∃ x : Single, v = float x ∧ x.isFinite := by
  cases n with
  | whole i | real x =>
    simp only [ofNumber?] at h
    split at h
    · next hfinite => exact ⟨_, (Option.some.inj h).symm, hfinite⟩
    · cases h

theorem ofNumber?_int {n : Number} {v : Scalar} (h : ofNumber? .int n = some v) :
    ∃ x : Int32, v = int x := by
  cases n with
  | whole i =>
    simp only [ofNumber?] at h
    split at h
    · exact ⟨_, (Option.some.inj h).symm⟩
    · cases h
  | real x => cases h

theorem ofNumber?_type {type : ScalarType} {n : Number} {v : Scalar}
    (h : ofNumber? type n = some v) : v.type = type := by
  cases type with
  | int =>
    obtain ⟨x, rfl⟩ := ofNumber?_int h
    rfl
  | float =>
    obtain ⟨x, rfl, -⟩ := ofNumber?_float h
    rfl

theorem ofNumber?_of_toNumber? {v : Scalar} {n : Number} (h : v.toNumber? = some n) :
    ∃ w, ofNumber? v.type n = some w := by
  cases v with
  | int x =>
    have hstable := int_stable x
    obtain rfl := Option.some.inj h
    exact ⟨_, hstable⟩
  | float x =>
    simp only [toNumber?] at h
    split at h
    · next hx =>
      obtain rfl := Option.some.inj h
      exact ⟨_, if_pos (toSingle_ofSingle_finite hx)⟩
    · cases h

end Scalar

theorem bind_eq_ok {α β ε : Type} {x : Except ε α} {f : α → Except ε β} {b : β} :
    x >>= f = .ok b ↔ ∃ a, x = .ok a ∧ f a = .ok b := by
  cases x <;> simp [bind, Except.bind]

theorem bind_eq_error {α β ε : Type} {x : Except ε α} {f : α → Except ε β} {e : ε} :
    x >>= f = .error e ↔ x = .error e ∨ ∃ a, x = .ok a ∧ f a = .error e := by
  cases x <;> simp [bind, Except.bind]

theorem mapM_eq_ok {α β ε : Type} {f : α → Except ε β} {xs : List α} {ys : List β} :
    xs.mapM f = .ok ys ↔ List.Forall₂ (fun x y => f x = .ok y) xs ys := by
  induction xs generalizing ys with
  | nil => simp [pure, Except.pure, eq_comm]
  | cons x xs ih =>
    rw [List.mapM_cons, List.forall₂_cons_left_iff]
    cases hx : f x with
    | error e => simp [bind, Except.bind]
    | ok y =>
      cases hxs : xs.mapM f with
      | error e =>
        have hnone : ∀ zs, ¬List.Forall₂ (fun x y => f x = .ok y) xs zs := fun zs hzs => by
          rw [ih.2 hzs] at hxs
          cases hxs
        simp [bind, Except.bind, hnone]
      | ok zs =>
        have hread : ∀ us, List.Forall₂ (fun x y => f x = .ok y) xs us ↔ zs = us := fun us => by
          rw [← ih, hxs, Except.ok.injEq]
        simp [bind, Except.bind, pure, Except.pure, hread, eq_comm]

theorem ScalarType.ofSetter?_setter (type : ScalarType) (array : Bool) :
    ofSetter? (type.setter array) = some type := by
  cases type <;> cases array <;> decide

namespace UniformRecord

theorem decode_eq_ok {name : String} {r : UniformRecord} {type : ScalarType}
    {values : List Scalar} :
    r.decode name = .ok (type, values) ↔ r.type? = some type ∧
      List.Forall₂ (fun n v => Scalar.ofNumber? type n = some v) r.args values := by
  rw [decode]
  cases htype : r.type? with
  | none => simp [throw, throwThe, MonadExceptOf.throw]
  | some t =>
    simp only [bind_eq_ok, mapM_eq_ok, pure, Except.pure, Except.ok.injEq, Prod.mk.injEq,
      Option.some.injEq]
    constructor
    · rintro ⟨read, hread, rfl, rfl⟩
      refine ⟨rfl, hread.imp fun n v hv => ?_⟩
      cases hn : Scalar.ofNumber? t n with
      | none => simp [hn] at hv
      | some x => simpa [hn] using hv
    · rintro ⟨rfl, hread⟩
      refine ⟨values, hread.imp fun n v hv => ?_, rfl, rfl⟩
      rw [hv]

theorem encode_eq_ok {name : String} {values : List Scalar} {numbers : List Number} :
    encode name values = .ok numbers ↔
      List.Forall₂ (fun v n => v.toNumber? = some n) values numbers := by
  rw [encode, mapM_eq_ok]
  constructor
  · intro h
    refine h.imp fun v n hv => ?_
    cases hx : v.toNumber? with
    | none => simp [hx] at hv
    | some m => simpa [hx] using hv
  · intro h
    refine h.imp fun v n hv => ?_
    rw [hv]

theorem decode_length {name : String} {r : UniformRecord} {type : ScalarType}
    {values : List Scalar} (h : r.decode name = .ok (type, values)) :
    r.args.length = values.length :=
  (decode_eq_ok.1 h).2.length_eq

theorem decode_type {name : String} {r : UniformRecord} {type : ScalarType} {values : List Scalar}
    (h : r.decode name = .ok (type, values)) {v : Scalar} (hv : v ∈ values) : v.type = type := by
  obtain ⟨-, hread⟩ := decode_eq_ok.1 h
  clear h
  generalize r.args = args at hread
  induction hread with
  | nil => simp at hv
  | cons hitem _ ih =>
    obtain rfl | hv := List.mem_cons.1 hv
    · exact Scalar.ofNumber?_type hitem
    · exact ih hv

theorem ofScalars_decode {name : String} {type : ScalarType} {count : Nat} {values : List Scalar}
    (htype : ∀ v ∈ values, v.type = type) {r : UniformRecord}
    (h : ofScalars name type (some count) values = .ok r) :
    r.count = some count ∧ ∃ read, List.Forall₂ (fun v w => v.recode? = some w) values read ∧
      ∀ pushConstant binding, { r with pushConstant, binding }.decode name = .ok (type, read) := by
  obtain ⟨numbers, hnumbers, hr⟩ := bind_eq_ok.1 h
  obtain rfl := Except.ok.inj hr
  rw [encode_eq_ok] at hnumbers
  have hread : ∃ read, List.Forall₂ (fun v w => v.recode? = some w) values read ∧
      List.Forall₂ (fun n w => Scalar.ofNumber? type n = some w) numbers read := by
    clear hr h
    induction hnumbers with
    | nil => exact ⟨[], .nil, .nil⟩
    | @cons v n values numbers hv _ ih =>
      obtain ⟨read, hvalues, hnumbers⟩ := ih fun w hw => htype w (List.mem_cons_of_mem _ hw)
      obtain ⟨w, hw⟩ := Scalar.ofNumber?_of_toNumber? hv
      have hrecode : v.recode? = some w := by rw [Scalar.recode?, hv, Option.bind_some, hw]
      rw [htype v List.mem_cons_self] at hw
      exact ⟨w :: read, .cons hrecode hvalues, .cons hw hnumbers⟩
  obtain ⟨read, hvalues, hnumbers⟩ := hread
  exact ⟨rfl, read, hvalues, fun _ _ => decode_eq_ok.2 ⟨type.ofSetter?_setter true, hnumbers⟩⟩

end UniformRecord

theorem lookup_insertEntry {α : Type} (key : String) (value : α) (entries : List (String × α))
    (other : String) :
    (insertEntry key value entries).lookup other =
      if other = key then some value else entries.lookup other := by
  induction entries with
  | nil =>
    by_cases h : other = key
    · simp [insertEntry, h]
    · simp [insertEntry, h, List.lookup, beq_false_of_ne h]
  | cons e rest ih =>
    obtain ⟨k, v⟩ := e
    simp only [insertEntry]
    split
    · by_cases h : other = key
      · simp [h]
      · rw [List.lookup_cons, beq_false_of_ne h, if_neg h]
    · split
      · next hk =>
        subst hk
        by_cases h : other = key
        · simp [h]
        · simp [List.lookup_cons, beq_false_of_ne h, h]
      · next hk =>
        by_cases h : other = k
        · subst h
          have hne : ¬other = key := fun heq => hk heq.symm
          simp [hne]
        · simp [List.lookup_cons, beq_false_of_ne h, ih]

namespace Metadata

variable {m : Metadata} {name : String}

theorem uniform?_setUniform (m : Metadata) (name : String) (r : UniformRecord) (other : String) :
    (m.setUniform name r).uniform? other = if other = name then some r else m.uniform? other := by
  simp only [uniform?, setUniform, Dictionary.get?, Dictionary.insert, lookup_insertEntry]
  split <;> rfl

theorem contents_eq_ok {c : ArrayContents} :
    m.contents name = .ok c ↔
      ∃ r, m.uniform? name = some r ∧ r.decode name = .ok (c.type, c.values) := by
  rw [contents]
  cases hr : m.uniform? name with
  | none => simp
  | some r =>
    simp only [bind_eq_ok, pure, Except.pure, Except.ok.injEq, Option.some.injEq, exists_eq_left']
    constructor
    · rintro ⟨⟨type, values⟩, hdecode, rfl⟩
      exact hdecode
    · intro hdecode
      exact ⟨_, hdecode, rfl⟩

theorem place_spec (values : List Scalar) (value : Scalar) :
    (place values value).2[(place values value).1]? = some value ∧
      values <+: (place values value).2 ∧
      ∀ v ∈ (place values value).2, v ∈ values ∨ v = value := by
  cases h : values.idxOf? value with
  | none => simp [place, h]
  | some i =>
    obtain ⟨hi, hvalue, -⟩ := List.idxOf?_eq_some_iff.1 h
    have hplace : place values value = (i, values) := by rw [place, h]
    rw [hplace]
    exact ⟨by rw [List.getElem?_eq_getElem hi, hvalue], List.prefix_refl _, fun v hv => .inl hv⟩

theorem place_forall {P : Scalar → Prop} {values : List Scalar} {value : Scalar}
    (hvalues : ∀ v ∈ values, P v) (hvalue : P value) : ∀ v ∈ (place values value).2, P v := by
  intro v hv
  rcases (place_spec values value).2.2 v hv with hv | rfl
  · exact hvalues v hv
  · exact hvalue

/-- An array can grow exactly where it holds the value's type, the value can be written and there is a
binding for the array. Its record is written anew, with the value placed among the others. -/
theorem grown_eq_ok {value : Scalar} {i : Nat} {r : UniformRecord} :
    m.grown name value = .ok (i, r) ↔ ∃ old values new binding,
      m.uniform? name = some old ∧ old.decode name = .ok (value.type, values) ∧
      value.toNumber?.isSome ∧ i = (place values value).1 ∧
      UniformRecord.ofScalars name value.type (some (place values value).2.length)
        (place values value).2 = .ok new ∧
      m.settledBinding old = .ok binding ∧
      r = { new with pushConstant := old.pushConstant, binding } := by
  constructor
  · intro h
    rw [grown] at h
    cases hold : m.uniform? name with
    | none => simp [hold] at h
    | some old =>
      simp only [hold, bind_eq_ok] at h
      obtain ⟨⟨type, values⟩, hdecode, h⟩ := h
      split at h
      · obtain ⟨_, hthrow, -⟩ := bind_eq_ok.1 h
        cases hthrow
      · next htype =>
        obtain rfl := not_not.1 htype
        split at h
        · obtain ⟨_, hthrow, -⟩ := bind_eq_ok.1 h
          cases hthrow
        · next hnumber =>
          obtain ⟨new, hnew, h⟩ := bind_eq_ok.1 h
          obtain ⟨binding, hbinding, h⟩ := bind_eq_ok.1 h
          obtain ⟨rfl, rfl⟩ := Prod.mk.inj (Except.ok.inj h)
          have hsome : value.toNumber?.isSome := by
            simpa [Option.isSome_iff_ne_none] using hnumber
          exact ⟨old, values, new, binding, rfl, hdecode, hsome, rfl, hnew, hbinding, rfl⟩
  · rintro ⟨old, values, new, binding, hold, hdecode, hnumber, rfl, hnew, hbinding, rfl⟩
    have hsome : value.toNumber?.isNone = false := by simpa using hnumber
    simp only [grown, hold]
    refine bind_eq_ok.2 ⟨_, hdecode, ?_⟩
    simp only [hsome, ne_eq, not_true_eq_false, if_false, Bool.false_eq_true]
    exact bind_eq_ok.2 ⟨new, hnew, bind_eq_ok.2 ⟨binding, hbinding, rfl⟩⟩

theorem intern_eq_ok {value : Scalar} {i : Nat} {m' : Metadata} :
    m.intern name value = (.ok i, m') ↔ ∃ old values new binding,
      m.uniform? name = some old ∧ old.decode name = .ok (value.type, values) ∧
      value.toNumber?.isSome ∧ i = (place values value).1 ∧
      UniformRecord.ofScalars name value.type (some (place values value).2.length)
        (place values value).2 = .ok new ∧
      m.settledBinding old = .ok binding ∧
      m' = m.setUniform name { new with pushConstant := old.pushConstant, binding } := by
  constructor
  · intro h
    rw [intern] at h
    split at h
    · cases (Prod.mk.inj h).1
    · next j r hgrown =>
      obtain ⟨hi, rfl⟩ := Prod.mk.inj h
      obtain rfl := Except.ok.inj hi
      obtain ⟨old, values, new, binding, hold, hdecode, hnumber, hi, hnew, hbinding, rfl⟩ :=
        grown_eq_ok.1 hgrown
      exact ⟨old, values, new, binding, hold, hdecode, hnumber, hi, hnew, hbinding, rfl⟩
  · rintro ⟨old, values, new, binding, hold, hdecode, hnumber, hi, hnew, hbinding, rfl⟩
    rw [intern, grown_eq_ok.2 ⟨old, values, new, binding, hold, hdecode, hnumber, hi, hnew, hbinding,
      rfl⟩]

theorem intern_eq_error {value : Scalar} {e : Fault} {m' : Metadata} :
    m.intern name value = (.error e, m') ↔ m.grown name value = .error e ∧ m' = m := by
  rw [intern]
  cases m.grown name value with
  | error e' => simp [eq_comm]
  | ok x => simp

theorem intern_spec {value : Scalar} {i : Nat} {m' : Metadata}
    (h : m.intern name value = (.ok i, m')) :
    ∃ old values read new, m.uniform? name = some old ∧
      old.decode name = .ok (value.type, values) ∧ i = (place values value).1 ∧
      List.Forall₂ (fun v w => v.recode? = some w) (place values value).2 read ∧
      m' = m.setUniform name new ∧ new.count = some read.length ∧
      new.decode name = .ok (value.type, read) := by
  obtain ⟨old, values, new, binding, hold, hdecode, -, hi, hnew, -, rfl⟩ := intern_eq_ok.1 h
  have htypes : ∀ v ∈ (place values value).2, v.type = value.type :=
    place_forall (fun _ => UniformRecord.decode_type hdecode) rfl
  obtain ⟨hcount, read, hread, hagain⟩ := UniformRecord.ofScalars_decode htypes hnew
  refine ⟨old, values, read, _, hold, hdecode, hi, hread, rfl, ?_, hagain _ _⟩
  rw [hcount, hread.length_eq]

/-- Reserving goes through where there is a uniform of the name, and changes nothing then, or else where
a binding is left, which an empty array gets under the name. -/
theorem reserve_eq_ok {type : ScalarType} {m' : Metadata} :
    m.reserve name type = (.ok (), m') ↔ m.hasUniform name ∧ m' = m ∨
      ¬m.hasUniform name ∧ ∃ b, m.nextBinding = .ok b ∧
        m' = m.setUniform name { UniformRecord.emptyArray type with binding := some b } := by
  rw [reserve]
  split
  · next hname => simp [hname, eq_comm]
  · next hname =>
    cases m.nextBinding with
    | error e => simp [hname]
    | ok b => simp [hname, eq_comm]

theorem reserve_eq_error {type : ScalarType} {e : Fault} {m' : Metadata} :
    m.reserve name type = (.error e, m') ↔
      ¬m.hasUniform name ∧ m.nextBinding = .error e ∧ m' = m := by
  rw [reserve]
  split
  · next hname => simp [hname]
  · next hname =>
    cases m.nextBinding with
    | error e' => simp [hname, eq_comm]
    | ok b => simp [hname]

theorem reserve_hasUniform {type : ScalarType} {m' : Metadata}
    (h : m.reserve name type = (.ok (), m')) : m'.hasUniform name := by
  obtain ⟨hname, rfl⟩ | ⟨-, b, -, rfl⟩ := reserve_eq_ok.1 h
  · exact hname
  · simp [hasUniform, uniform?_setUniform]

/-- There is an array of that name with these values, and its record counts them. -/
def HasArray (m : Metadata) (name : String) (type : ScalarType) (values : List Scalar) : Prop :=
  ∃ r, m.uniform? name = some r ∧ r.count = some values.length ∧
    r.decode name = .ok (type, values)

theorem HasArray.contents {type : ScalarType} {values : List Scalar}
    (h : m.HasArray name type values) : m.contents name = .ok ⟨type, values⟩ := by
  obtain ⟨r, hr, -, hdecode⟩ := h
  exact contents_eq_ok.2 ⟨r, hr, hdecode⟩

theorem forall₂_getElem? {α β : Type} {R : α → β → Prop} {xs : List α} {ys : List β}
    (h : List.Forall₂ R xs ys) {i : Nat} {x : α} (hx : xs[i]? = some x) :
    ∃ y, ys[i]? = some y ∧ R x y := by
  induction h generalizing i with
  | nil => simp at hx
  | @cons a b xs ys hab _ ih =>
    cases i with
    | zero =>
      obtain rfl : a = x := by simpa using hx
      exact ⟨b, by simp, hab⟩
    | succ i => exact ih (by simpa using hx)

/-- After interning the array has the value at its index, and every value that is read back as it
was written has kept its index. Other arrays are as they were. -/
theorem intern_array {value : Scalar} {i : Nat} {m' : Metadata}
    (h : m.intern name value = (.ok i, m')) :
    ∃ before after, m.contents name = .ok ⟨value.type, before⟩ ∧
      m'.HasArray name value.type after ∧ before.length ≤ after.length ∧ i < after.length ∧
      (∀ (j : Nat) (v : Scalar), before[j]? = some v → v.Stable → after[j]? = some v) ∧
      (value.Stable → after[i]? = some value) ∧
      ∀ other, other ≠ name → m'.uniform? other = m.uniform? other := by
  obtain ⟨old, values, read, new, hold, hdecode, rfl, hread, rfl, hcount, hnew⟩ := intern_spec h
  obtain ⟨hplaced, hfront, -⟩ := place_spec values value
  have hlength := hread.length_eq
  have hstable : ∀ (j : Nat) (v : Scalar), (place values value).2[j]? = some v → v.Stable →
      read[j]? = some v := by
    intro j v hv hs
    obtain ⟨w, hw, hrecode⟩ := forall₂_getElem? hread hv
    rw [hs] at hrecode
    rw [hw, hrecode]
  refine ⟨values, read, contents_eq_ok.2 ⟨old, hold, hdecode⟩, ⟨new, ?_, hcount, hnew⟩, ?_, ?_, ?_,
    hstable _ _ hplaced, ?_⟩
  · rw [uniform?_setUniform, if_pos rfl]
  · rw [← hlength]
    exact hfront.length_le
  · rw [← hlength]
    exact (List.getElem?_eq_some_iff.1 hplaced).1
  · intro j v hv hs
    refine hstable j v ?_ hs
    obtain ⟨hj, -⟩ := List.getElem?_eq_some_iff.1 hv
    obtain ⟨added, hadded⟩ := hfront
    rw [← hadded, List.getElem?_append_left hj, hv]
  · intro other hother
    rw [uniform?_setUniform, if_neg hother]

theorem reserve_uniform? {type : ScalarType} {outcome : Except Fault Unit} {m' : Metadata}
    (h : m.reserve name type = (outcome, m')) {other : String} {r : UniformRecord}
    (hr : m.uniform? other = some r) : m'.uniform? other = some r := by
  cases outcome with
  | error e =>
    obtain ⟨-, -, rfl⟩ := reserve_eq_error.1 h
    exact hr
  | ok u =>
    obtain ⟨-, rfl⟩ | ⟨hnone, b, -, rfl⟩ := reserve_eq_ok.1 h
    · exact hr
    · have hother : other ≠ name := by
        rintro rfl
        exact hnone (Option.isSome_iff_exists.2 ⟨r, hr⟩)
      rw [uniform?_setUniform, if_neg hother, hr]

end Metadata

end ShaderLift
