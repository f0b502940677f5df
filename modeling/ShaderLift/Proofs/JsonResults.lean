import Mathlib
import ShaderLift.Proofs.JsonText

/-!
What JSON readers give: values that nest no deeper than they may, with whole numbers of 64 bits.
Sorting the fields of every object changes neither, and does nothing the second time.
-/

namespace ShaderLift

section

variable {α : Type}

theorem insertEntry_last {key : String} {entries : List (String × α)}
    (h : ∀ e ∈ entries, e.1 < key) (value : α) :
    insertEntry key value entries = entries ++ [(key, value)] := by
  induction entries with
  | nil => rfl
  | cons first rest ih =>
    obtain ⟨k, v⟩ := first
    have hk : k < key := h _ List.mem_cons_self
    rw [insertEntry, if_neg (String.lt_asymm hk), if_neg (ne_of_gt hk),
      ih fun e he => h e (List.mem_cons_of_mem _ he)]
    rfl

theorem foldl_insert_entries (d : Dictionary α) (entries : List (String × α))
    (h : KeysIncrease (d.entries ++ entries)) :
    (entries.foldl (fun d e => d.insert e.1 e.2) d).entries = d.entries ++ entries := by
  induction entries generalizing d with
  | nil => simp
  | cons e rest ih =>
    have hlast : (d.insert e.1 e.2).entries = d.entries ++ [e] :=
      insertEntry_last (fun x hx => (List.pairwise_append.1 h).2.2 x hx e List.mem_cons_self) e.2
    rw [List.foldl_cons, ih _ (by rw [hlast]; simpa using h), hlast]
    simp

theorem Dictionary.ofList_entries {entries : List (String × α)} (h : KeysIncrease entries) :
    (Dictionary.ofList entries).entries = entries :=
  foldl_insert_entries {} entries h

theorem Dictionary.mem_ofList {entries : List (String × α)} {e : String × α}
    (h : e ∈ (Dictionary.ofList entries).entries) : e ∈ entries := by
  have hfold : ∀ (entries : List (String × α)) (d : Dictionary α),
      e ∈ (entries.foldl (fun d e => d.insert e.1 e.2) d).entries → e ∈ d.entries ∨ e ∈ entries := by
    intro entries
    induction entries with
    | nil => exact fun d h => .inl h
    | cons first rest ih =>
      intro d h
      rcases ih _ h with h | h
      · rcases mem_insertEntry h with h | h
        · exact .inr (h ▸ List.mem_cons_self)
        · exact .inl h
      · exact .inr (List.mem_cons_of_mem _ h)
  exact (hfold entries {} h).resolve_left List.not_mem_nil

end

namespace Json

/-- Whatever the reader returns satisfies the property. -/
def Gives {α : Type} (m : Reader α) (P : α → Prop) : Prop :=
  ∀ cs a cs', m cs = .ok (a, cs') → P a

namespace Gives

variable {α β : Type} {P : α → Prop} {Q : β → Prop}

theorem any (m : Reader α) : Gives m fun _ => True := fun _ _ _ _ => trivial

theorem pure {a : α} (h : P a) : Gives (Pure.pure a) P := by
  intro cs b cs' hb
  obtain ⟨rfl, -⟩ := Prod.mk.inj (Except.ok.inj hb)
  exact h

theorem throw (e : JsonError) : Gives (throw e : Reader α) P := by
  intro cs a cs' h
  cases h

theorem failHere : Gives (failHere : Reader α) P := by
  intro cs a cs' h
  cases cs <;> cases h

theorem bind {m : Reader α} {f : α → Reader β} (hm : Gives m P) (hf : ∀ a, P a → Gives (f a) Q) :
    Gives (m >>= f) Q := by
  intro cs b cs'' h
  cases hcs : m cs with
  | error e => simp [Bind.bind, StateT.bind, hcs, Except.bind] at h
  | ok r =>
    obtain ⟨a, cs'⟩ := r
    rw [reader_bind hcs] at h
    exact hf a (hm _ _ _ hcs) _ _ _ h

theorem next {m : Reader α} {f : α → Reader β} (hf : ∀ a, Gives (f a) Q) : Gives (m >>= f) Q :=
  (any m).bind fun a _ => hf a

end Gives

theorem accumulate_lt (ds : List Char) {n : Nat} (hn : n < UInt64.size) :
    (accumulate n ds).1 < UInt64.size := by
  induction ds generalizing n with
  | nil => exact hn
  | cons c ds ih =>
    simp only [accumulate]
    split
    · next h => exact ih h
    · exact hn

theorem gives_readReal (negative : Bool) (significand : Nat) (exponent : Int) :
    Gives (readReal negative significand exponent) Number.InRange := by
  unfold readReal
  split
  · exact .pure trivial
  · exact .throw _

theorem gives_exponentDigits (negative : Bool) (significand : Nat) (start : Int)
    (sign : Option Char) :
    Gives (exponentDigits negative significand start sign) Number.InRange := by
  have hvalue (n : Nat) (exponent : Int) :
      Gives (if n < 2147483648 then readReal negative significand exponent
        else if significand ≠ 0 && sign ≠ some '-' then throw .malformed
        else return .real (.ofPattern negative 0) : Reader Number) Number.InRange := by
    split
    · exact gives_readReal _ _ _
    · split
      · exact .throw _
      · exact .pure trivial
  refine .next fun digits => ?_
  simp only
  split
  · exact .next fun _ => hvalue _ _
  · exact hvalue _ _

theorem gives_readExponent (negative : Bool) (significand : Nat) (start : Int) :
    Gives (readExponent negative significand start) Number.InRange := by
  rw [readExponent_eq]
  refine .next fun cs => ?_
  unfold exponentFrom
  split
  · exact .next fun _ => gives_exponentDigits _ _ _ _
  · exact gives_exponentDigits _ _ _ _

theorem gives_readFraction (negative : Bool) (significand dropped : Nat) :
    Gives (readFraction negative significand dropped) Number.InRange := by
  have hrest (significand : Nat) (exponent : Int) :
      Gives (do fractionFrom negative significand exponent (← get).head?) Number.InRange := by
    refine .next fun cs => ?_
    unfold fractionFrom
    split
    · exact .next fun _ => gives_readExponent _ _ _
    · exact gives_readReal _ _ _
  rw [readFraction_eq]
  refine .next fun digits => ?_
  simp only
  split
  · exact .next fun _ => hrest _ _
  · exact hrest _ _

theorem gives_numberFrom (negative : Bool) {significand : Nat} (h : significand < UInt64.size)
    (rest : List Char) (next : Option Char) :
    Gives (numberFrom negative significand rest next) Number.InRange := by
  unfold numberFrom
  split
  · exact .next fun _ => gives_readFraction _ _ _
  split
  · exact .next fun _ => gives_readExponent _ _ _
  split
  · exact gives_readReal _ _ _
  split
  · exact .pure ⟨by omega, Int.ofNat_lt.2 h⟩
  split
  · exact gives_readReal _ _ _
  · next hsmall =>
    simp only [Bool.or_eq_true, decide_eq_true_eq, not_or, not_lt] at hsmall
    refine .pure ⟨by omega, ?_⟩
    have : (0 : Int) < UInt64.size := by decide
    omega

theorem gives_readNumber (negative : Bool) : Gives (readNumber negative) Number.InRange := by
  rw [readNumber_eq]
  refine .next fun digits => ?_
  unfold numberOf
  split
  · exact .failHere
  · exact .throw _
  · exact .next fun cs => gives_numberFrom _ (accumulate_lt _ (by decide)) _ _

/-- The value nests at most `room` deep, and its whole numbers fit 64 bits. -/
structure Fits (room : Nat) (v : Json) : Prop where
  depth_le : v.depth ≤ room
  inRange : ∀ n ∈ v.numbers, n.InRange

theorem fits_plain {room : Nat} {v : Json} (hdepth : v.depth = 0) (hnumbers : v.numbers = []) :
    Fits room v :=
  ⟨by omega, by simp [hnumbers]⟩

theorem depthItems_le {items : List Json} {room : Nat} :
    depthItems items ≤ room ↔ ∀ v ∈ items, v.depth ≤ room := by
  induction items with
  | nil => simp [depthItems]
  | cons v rest ih => simp [depthItems, ih]

theorem depthFields_le {fields : List (String × Json)} {room : Nat} :
    depthFields fields ≤ room ↔ ∀ f ∈ fields, f.2.depth ≤ room := by
  induction fields with
  | nil => simp [depthFields]
  | cons f rest ih => simp [depthFields, ih]

theorem mem_numbersItems {items : List Json} {n : Number} :
    n ∈ numbersItems items ↔ ∃ v ∈ items, n ∈ v.numbers := by
  induction items with
  | nil => simp [numbersItems]
  | cons v rest ih => simp [numbersItems, ih]

theorem mem_numbersFields {fields : List (String × Json)} {n : Number} :
    n ∈ numbersFields fields ↔ ∃ f ∈ fields, n ∈ f.2.numbers := by
  induction fields with
  | nil => simp [numbersFields]
  | cons f rest ih => simp [numbersFields, ih]

theorem fits_array {room : Nat} {items : List Json} :
    Fits (room + 1) (.array items) ↔ ∀ v ∈ items, Fits room v := by
  constructor
  · intro h v hv
    have hdepth := h.depth_le
    rw [depth, Nat.add_le_add_iff_right, depthItems_le] at hdepth
    exact ⟨hdepth v hv, fun n hn => h.inRange n (mem_numbersItems.2 ⟨v, hv, hn⟩)⟩
  · intro h
    refine ⟨?_, fun n hn => ?_⟩
    · rw [depth, Nat.add_le_add_iff_right, depthItems_le]
      exact fun v hv => (h v hv).depth_le
    · obtain ⟨v, hv, hn⟩ := mem_numbersItems.1 hn
      exact (h v hv).inRange n hn

theorem fits_object {room : Nat} {fields : List (String × Json)} :
    Fits (room + 1) (.object fields) ↔ ∀ f ∈ fields, Fits room f.2 := by
  constructor
  · intro h f hf
    have hdepth := h.depth_le
    rw [depth, Nat.add_le_add_iff_right, depthFields_le] at hdepth
    exact ⟨hdepth f hf, fun n hn => h.inRange n (mem_numbersFields.2 ⟨f, hf, hn⟩)⟩
  · intro h
    refine ⟨?_, fun n hn => ?_⟩
    · rw [depth, Nat.add_le_add_iff_right, depthFields_le]
      exact fun f hf => (h f hf).depth_le
    · obtain ⟨f, hf, hn⟩ := mem_numbersFields.1 hn
      exact (h f hf).inRange n hn

theorem gives_readAtom (room : Nat) : Gives readAtom (Fits room) := by
  have hnumber (n : Number) (hn : n.InRange) : Fits room (.number n) :=
    ⟨Nat.zero_le _, by simpa [numbers] using hn⟩
  rw [readAtom_eq]
  refine .next fun next => ?_
  unfold atomFrom
  split
  · exact .next fun _ => .pure (fits_plain rfl rfl)
  · exact .next fun _ => .pure (fits_plain rfl rfl)
  · exact .next fun _ => .pure (fits_plain rfl rfl)
  · exact .next fun _ => .next fun _ => .pure (fits_plain rfl rfl)
  · exact .next fun _ => (gives_readNumber _).bind fun n hn => .pure (hnumber n hn)
  · split
    · exact (gives_readNumber _).bind fun n hn => .pure (hnumber n hn)
    · exact .throw _
  · exact .throw _

section

variable {item : Reader Json} {P : Json → Prop}

theorem gives_readMoreItems (hitem : Gives item P) (fuel : Nat) :
    Gives (readMoreItems item fuel) fun vs => ∀ v ∈ vs, P v := by
  induction fuel with
  | zero => exact .throw _
  | succ fuel ih =>
    refine .next fun next => ?_
    split
    · exact .next fun _ => .pure (by simp)
    · refine .next fun _ => .next fun next => ?_
      split
      · exact .next fun _ => hitem.bind fun v hv => ih.bind fun vs hvs =>
          .pure (List.forall_mem_cons.2 ⟨hv, hvs⟩)
      · exact hitem.bind fun v hv => ih.bind fun vs hvs =>
          .pure (List.forall_mem_cons.2 ⟨hv, hvs⟩)
    · exact .failHere

theorem gives_readItems (hitem : Gives item P) :
    Gives (readItems item) fun vs => ∀ v ∈ vs, P v := by
  refine .next fun next => ?_
  split
  · exact .next fun _ => .pure (by simp)
  · exact hitem.bind fun v hv => .next fun cs => (gives_readMoreItems hitem _).bind fun vs hvs =>
      .pure (List.forall_mem_cons.2 ⟨hv, hvs⟩)

theorem gives_readField (hitem : Gives item P) : Gives (readField item) fun f => P f.2 := by
  have hvalue (name : String) : Gives (do advance; return (name, ← item)) fun f => P f.2 :=
    .next fun _ => hitem.bind fun v hv => .pure hv
  refine .next fun next => ?_
  split
  · exact .next fun _ => .next fun _ => .next fun name => .next fun next => by
      split
      · exact .next fun _ => hvalue name
      · exact hvalue name
  · exact .next fun _ => .next fun name => .next fun next => by
      split
      · exact .next fun _ => hvalue name
      · exact hvalue name

theorem gives_readMoreFields (hitem : Gives item P) (fuel : Nat) :
    Gives (readMoreFields item fuel) fun fields => ∀ f ∈ fields, P f.2 := by
  induction fuel with
  | zero => exact .throw _
  | succ fuel ih =>
    refine .next fun next => ?_
    split
    · exact .next fun _ => .pure (by simp)
    · exact .next fun _ => (gives_readField hitem).bind fun f hf => ih.bind fun fields hfields =>
        .pure (List.forall_mem_cons.2 ⟨hf, hfields⟩)
    · exact .failHere

theorem gives_readFields (hitem : Gives item P) :
    Gives (readFields item) fun fields => ∀ f ∈ fields, P f.2 := by
  refine .next fun next => ?_
  split
  · exact .next fun _ => .pure (by simp)
  · exact (gives_readField hitem).bind fun f hf => .next fun cs =>
      (gives_readMoreFields hitem _).bind fun fields hfields =>
        .pure (List.forall_mem_cons.2 ⟨hf, hfields⟩)

end

theorem gives_readValue (room : Nat) : Gives (readValue room) (Fits room) := by
  induction room with
  | zero => exact gives_readAtom 0
  | succ room ih =>
    rw [readValue_succ]
    refine .next fun next => ?_
    unfold valueFrom
    split
    · exact .next fun _ => (gives_readItems ih).bind fun vs hvs => .pure (fits_array.2 hvs)
    · exact .next fun _ => (gives_readFields ih).bind fun fs hfs => .pure (fits_object.2 hfs)
    · exact gives_readAtom _

theorem normalFields_eq (fields : List (String × Json)) :
    normalFields fields = fields.map fun f => (f.1, f.2.normal) := by
  induction fields with
  | nil => rfl
  | cons f rest ih => rw [normalFields, ih, List.map_cons]

mutual

theorem Fits.normal {v : Json} {room : Nat} (h : Fits room v) : Fits room v.normal := by
  match v, room with
  | null, _ | bool _, _ | number _, _ | string _, _ => exact h
  | array items, 0 => exact absurd h.depth_le (by simp [depth])
  | object fields, 0 => exact absurd h.depth_le (by simp [depth])
  | array items, room + 1 => exact fits_array.2 (fits_normalItems (fits_array.1 h))
  | object fields, room + 1 =>
    exact fits_object.2 fun f hf =>
      fits_normalFields (fits_object.1 h) f (Dictionary.mem_ofList hf)

theorem fits_normalItems {items : List Json} {room : Nat} (h : ∀ v ∈ items, Fits room v) :
    ∀ v ∈ normalItems items, Fits room v := by
  match items with
  | [] => exact h
  | v :: rest =>
    obtain ⟨hv, hrest⟩ := List.forall_mem_cons.1 h
    exact List.forall_mem_cons.2 ⟨hv.normal, fits_normalItems hrest⟩

theorem fits_normalFields {fields : List (String × Json)} {room : Nat}
    (h : ∀ f ∈ fields, Fits room f.2) : ∀ f ∈ normalFields fields, Fits room f.2 := by
  match fields with
  | [] => exact h
  | (name, v) :: rest =>
    obtain ⟨hv, hrest⟩ := List.forall_mem_cons.1 h
    exact List.forall_mem_cons.2 ⟨hv.normal, fits_normalFields hrest⟩

end

mutual

/-- Sorting the fields does nothing the second time. -/
theorem normal_normal (v : Json) : v.normal.normal = v.normal := by
  match v with
  | null | bool _ | number _ | string _ => rfl
  | array items => rw [normal, normal, normalItems_normalItems]
  | object fields =>
    have hkeep : normalFields (Dictionary.ofList (normalFields fields)).entries =
        (Dictionary.ofList (normalFields fields)).entries := by
      rw [normalFields_eq]
      refine (List.map_congr_left fun f hf => ?_).trans (List.map_id _)
      exact Prod.ext rfl (normal_of_mem_normalFields fields f (Dictionary.mem_ofList hf))
    rw [normal, normal, hkeep, Dictionary.ofList_entries (Dictionary.increase _)]

theorem normalItems_normalItems (items : List Json) :
    normalItems (normalItems items) = normalItems items := by
  match items with
  | [] => rfl
  | v :: rest => rw [normalItems, normalItems, normal_normal v, normalItems_normalItems rest]

theorem normal_of_mem_normalFields (fields : List (String × Json)) :
    ∀ f ∈ normalFields fields, f.2.normal = f.2 := by
  match fields with
  | [] => simp [normalFields]
  | (name, v) :: rest =>
    exact List.forall_mem_cons.2 ⟨normal_normal v, normal_of_mem_normalFields rest⟩

end

end Json
end ShaderLift
