import Mathlib
import ShaderLift.Metadata.Basic
import ShaderLift.Proofs.JsonResults

/-!
Metadata are read back from either of their texts, as long as no entry beside the uniforms looks
like the record of one and every number is read back, as whole numbers are.
-/

namespace ShaderLift

namespace UniformRecord

theorem numbers?_number (args : List Number) :
    numbers? (.array (args.map .number)) = some args := by
  change (args.map Json.number).mapM number? = some args
  induction args with
  | nil => rfl
  | cons n args ih => simp [ih, number?]

theorem number?_eq_some {v : Json} {n : Number} (h : number? v = some n) : v = .number n := by
  cases v with
  | number m => rw [Option.some.inj h]
  | _ => cases h

theorem mem_numbers {v : Json} {args : List Number} (h : numbers? v = some args) {n : Number}
    (hn : n ∈ args) : n ∈ v.numbers := by
  cases v with
  | array items =>
    change items.mapM number? = some args at h
    induction items generalizing args with
    | nil =>
      cases h
      cases hn
    | cons v rest ih =>
      rw [List.mapM_cons] at h
      simp only [Option.bind_eq_bind, Option.bind_eq_some_iff] at h
      obtain ⟨m, hm, more, hmore, hargs⟩ := h
      rw [← Option.some.inj hargs] at hn
      rw [number?_eq_some hm, Json.numbers, Json.numbersItems, List.mem_append]
      rcases List.mem_cons.1 hn with rfl | hn
      · exact .inl List.mem_cons_self
      · exact .inr (ih hn hmore)
  | _ => cases h

theorem whole?_lt {bound : Nat} {v : Json} {n : Nat} (h : whole? bound v = some (some n)) :
    n < bound := by
  unfold whole? at h
  split at h
  · cases h
  · split at h
    · next hbound =>
      simp only [Bool.and_eq_true, decide_eq_true_eq] at hbound
      simp only [Option.some.injEq] at h
      omega
    · cases h
  · cases h

/-- Counts, bindings and arguments that a text can hold. -/
structure InBounds (r : UniformRecord) : Prop where
  count : ∀ n ∈ r.count, n < UInt64.size
  binding : ∀ n ∈ r.binding, n < UInt32.size
  args : ∀ n ∈ r.args, n.InRange

theorem InBounds.of_parts {r : UniformRecord} {count args binding : Json}
    (hcount : whole? UInt64.size count = some r.count) (hargs : numbers? args = some r.args)
    (hrange : ∀ n ∈ args.numbers, n.InRange)
    (hbinding : whole? UInt32.size binding = some r.binding) : r.InBounds where
  count _ hn := whole?_lt (hcount.trans (congrArg some hn))
  binding _ hn := whole?_lt (hbinding.trans (congrArg some hn))
  args n hn := hrange n (mem_numbers hargs hn)

theorem ofFields?_inBounds {fields : List (String × Json)} {r : UniformRecord}
    (hrange : ∀ f ∈ fields, ∀ n ∈ f.2.numbers, n.InRange) (h : ofFields? fields = some r) :
    r.InBounds := by
  unfold ofFields? at h
  split at h
  · cases h
  · simp only [Option.bind_eq_bind, Option.bind_eq_some_iff] at h
    obtain ⟨_, -, func, -, count, hcount, args, hargs, ns, hnumbers, binding, hbinding, push, -,
      hr⟩ := h
    cases hr
    obtain ⟨before, after, rfl, -⟩ := List.lookup_eq_some_iff.1 hargs
    exact .of_parts hcount hnumbers (hrange ("args", args) (by simp)) hbinding

theorem ofItems?_inBounds {items : List Json} {r : UniformRecord}
    (hrange : ∀ v ∈ items, ∀ n ∈ v.numbers, n.InRange) (h : ofItems? items = some r) :
    r.InBounds := by
  match items with
  | [] | [_] | [_, _] => cases h
  | func :: count :: args :: rest =>
    have hargs : ∀ n ∈ args.numbers, n.InRange := hrange args (by simp)
    simp only [ofItems?, Option.bind_eq_bind, Option.bind_eq_some_iff] at h
    obtain ⟨_, -, c, hcount, ns, hnumbers, h⟩ := h
    match rest with
    | [] =>
      cases h
      exact .of_parts hcount hnumbers hargs (rfl : whole? UInt32.size .null = _)
    | [binding] =>
      simp only [Option.bind_eq_some_iff] at h
      obtain ⟨b, hbinding, hr⟩ := h
      cases hr
      exact .of_parts hcount hnumbers hargs hbinding
    | [binding, push] =>
      simp only [Option.bind_eq_some_iff] at h
      obtain ⟨b, hbinding, _, -, hr⟩ := h
      cases hr
      exact .of_parts hcount hnumbers hargs hbinding
    | _ :: _ :: _ :: _ => cases h

theorem ofJson?_inBounds {room : Nat} {v : Json} {r : UniformRecord} (hv : v.Fits room)
    (h : ofJson? v = some r) : r.InBounds := by
  cases v with
  | object fields =>
    exact ofFields?_inBounds (fun f hf n hn => hv.inRange n (Json.mem_numbersFields.2 ⟨f, hf, hn⟩)) h
  | array items =>
    exact ofItems?_inBounds (fun v hv' n hn => hv.inRange n (Json.mem_numbersItems.2 ⟨v, hv', hn⟩)) h
  | _ => cases h

theorem whole?_optional {bound : Nat} {n : Option Nat} (h : ∀ k ∈ n, k < bound) :
    whole? bound ((n.map fun k : Nat => Json.number (.whole k)).getD .null) = some n := by
  cases n with
  | none => rfl
  | some k => simp [whole?, h k rfl]

theorem ofJson?_toJson {r : UniformRecord} (h : r.InBounds) : ofJson? r.toJson = some r := by
  obtain ⟨func, count, args, binding, push⟩ := r
  have hcount := whole?_optional h.count
  have hbinding := whole?_optional h.binding
  have hargs := numbers?_number args
  -- each field may be there or not, and is looked up past those in front of it
  cases count <;> cases binding <;> cases push <;>
    simp only [Option.map_none, Option.map_some, Option.getD_none, Option.getD_some]
      at hcount hbinding <;>
    simp [toJson, ofJson?, ofFields?, repeats, List.lookup, text?, flag?, hcount, hbinding, hargs]

theorem fits_toJson {r : UniformRecord} (h : r.InBounds) : Json.Fits 2 r.toJson := by
  have hargs : Json.Fits 1 (.array (r.args.map .number)) := by
    refine Json.fits_array.2 (List.forall_mem_map.2 fun n hn => ⟨Nat.zero_le _, ?_⟩)
    simpa [Json.numbers] using h.args n hn
  have hwhole {n : Nat} (hn : n < UInt64.size) : Json.Fits 1 (.number (.whole n)) := by
    refine ⟨Nat.zero_le _, fun m hm => ?_⟩
    obtain rfl := List.mem_singleton.1 hm
    exact ⟨by omega, Int.ofNat_lt.2 hn⟩
  have hbound : UInt32.size ≤ UInt64.size := by decide
  refine Json.fits_object.2 ?_
  simp only [List.forall_mem_append, List.mem_singleton, forall_eq, Option.mem_toList,
    Option.map_eq_some_iff]
  refine ⟨⟨⟨⟨Json.fits_plain rfl rfl, ?_⟩, hargs⟩, ?_⟩, ?_⟩
  · rintro f ⟨n, hn, rfl⟩
    exact hwhole (h.count n hn)
  · rintro f ⟨n, hn, rfl⟩
    exact hwhole ((h.binding n hn).trans_le hbound)
  · intro f hf
    split at hf
    · obtain rfl := List.mem_singleton.1 hf
      exact Json.fits_plain rfl rfl
    · cases hf

end UniformRecord

namespace Entry

/-- What an entry of a metadata text can be. -/
def Proper : Entry → Prop
  | uniform r => r.InBounds
  | other v => v.normal = v ∧ Json.Fits Metadata.nesting v

/-- Does not look like a record, unless it is one. -/
def Plain : Entry → Prop
  | uniform _ => True
  | other v => UniformRecord.ofJson? v = none

instance (e : Entry) : Decidable e.Plain :=
  match e with
  | uniform _ => .isTrue trivial
  | other v => decidable_of_iff ((UniformRecord.ofJson? v).isNone = true) Option.isNone_iff_eq_none

theorem proper_ofJson {v : Json} (hv : Json.Fits Metadata.nesting v) : (ofJson v).Proper := by
  unfold ofJson
  split
  · next h => exact UniformRecord.ofJson?_inBounds hv h
  · exact ⟨Json.normal_normal v, hv.normal⟩

theorem ofJson_toJson {e : Entry} (hproper : e.Proper) (hplain : e.Plain) :
    ofJson e.toJson = e := by
  cases e with
  | uniform r => rw [toJson, ofJson, UniformRecord.ofJson?_toJson hproper]
  | other v =>
    rw [toJson, ofJson, show UniformRecord.ofJson? v = none from hplain, hproper.1]

theorem Proper.fits {e : Entry} (h : e.Proper) : Json.Fits Metadata.nesting e.toJson := by
  cases e with
  | uniform r => exact ⟨(UniformRecord.fits_toJson h).depth_le.trans (by decide), (UniformRecord.fits_toJson h).inRange⟩
  | other v => exact h.2

end Entry

namespace Metadata

theorem gives_readFields :
    Json.Gives readFields fun fields => ∀ f ∈ fields, Json.Fits nesting f.2 := by
  refine .next fun _ => (Json.gives_readFields (Json.gives_readValue nesting)).bind fun fs hfs =>
    .next fun next => ?_
  split
  · exact .next fun _ => .pure hfs
  · exact .pure hfs

theorem ofText_proper {text : String} {m : Metadata} (h : ofText text = .ok m) :
    ∀ e ∈ m.table.entries, e.2.Proper := by
  unfold ofText at h
  split at h
  · split at h
    · next cs _ fields rest hfields =>
      cases h
      intro e he
      obtain ⟨f, hf, rfl⟩ := List.mem_map.1 (Dictionary.mem_ofList he)
      exact Entry.proper_ofJson (gives_readFields _ _ _ hfields f hf)
    · cases h
  · cases h
  · split at h <;> cases h
  · cases h

theorem fits_toJson {m : Metadata} (h : ∀ e ∈ m.table.entries, e.2.Proper) :
    Json.Fits (nesting + 1) m.toJson :=
  Json.fits_object.2 (List.forall_mem_map.2 fun e he => (h e he).fits)

/-- What is read as the value of the metadata, with or without white space after it, gives the
metadata: every entry is recognised for what it is. -/
theorem ofText_of_reads {m : Metadata} (hproper : ∀ e ∈ m.table.entries, e.2.Proper)
    (hplain : ∀ e ∈ m.table.entries, e.2.Plain) {cs blank : List Char}
    (hreads : Json.Reads (nesting + 1) m.toJson ('\x7b' :: cs))
    (hblank : ∀ c ∈ blank, Json.isSpace c) :
    ofText (String.ofList ('\x7b' :: cs ++ blank)) = .ok m := by
  have hend : Json.Apart blank := by
    have hnothing : Json.Apart [] := by simp [Json.Apart, Stops]
    simpa using hnothing.blank hblank
  have hpeek : Json.peek blank = .ok (none, []) := by
    have hnothing := Json.peek_blank hblank []
    rwa [List.append_nil] at hnothing
  have hfields : readFields ('\x7b' :: (cs ++ blank)) =
      .ok (m.table.entries.map fun e => (e.1, e.2.toJson), []) := by
    rw [readFields, Json.reader_bind (Json.advance_cons _ _),
      Json.reader_bind (hreads.readFields hend), Json.reader_bind hpeek]
    rfl
  have hsame : (m.table.entries.map fun e => (e.1, e.2.toJson)).map
      (fun f => (f.1, Entry.ofJson f.2)) = m.table.entries := by
    rw [List.map_map]
    refine (List.map_congr_left fun e he => ?_).trans (List.map_id _)
    exact Prod.ext rfl (Entry.ofJson_toJson (hproper e he) (hplain e he))
  have htable : Dictionary.ofList m.table.entries = m.table :=
    Dictionary.ext (Dictionary.ofList_entries m.table.increase)
  rw [ofText, String.toList_ofList, List.cons_append, Json.peek_cons rfl]
  simp only
  rw [hfields]
  simp only
  rw [hsame, htable]

theorem pretty_start (m : Metadata) : ∃ cs, m.toJson.pretty 0 = '\x7b' :: cs := by
  rw [toJson]
  cases m.table.entries with
  | nil => exact ⟨_, rfl⟩
  | cons e rest => exact ⟨_, rfl⟩

theorem ofText_pretty {m : Metadata} (hproper : ∀ e ∈ m.table.entries, e.2.Proper)
    (hplain : ∀ e ∈ m.table.entries, e.2.Plain) (hkept : ∀ n ∈ m.toJson.numbers, n.Kept)
    (blank : List Char) (hblank : ∀ c ∈ blank, Json.isSpace c) :
    ofText (m.pretty ++ String.ofList blank) = .ok m := by
  obtain ⟨cs, hcs⟩ := m.pretty_start
  have hreads := Json.reads_pretty m.toJson 0 (fits_toJson hproper).depth_le hkept
  rw [hcs] at hreads
  rw [pretty, hcs, ← String.ofList_append]
  exact ofText_of_reads hproper hplain hreads hblank

theorem ofText_compact {m : Metadata} (hproper : ∀ e ∈ m.table.entries, e.2.Proper)
    (hplain : ∀ e ∈ m.table.entries, e.2.Plain) (hkept : ∀ n ∈ m.toJson.numbers, n.Kept) :
    ofText m.compact = .ok m := by
  have hreads := Json.reads_compact m.toJson (fits_toJson hproper).depth_le hkept
  rw [toJson, Json.compact] at hreads
  rw [compact, toJson, Json.compact, ← List.append_nil (_ :: _ ++ _)]
  exact ofText_of_reads hproper hplain hreads (by simp)

/-- Metadata that came from a text are read back from their own. -/
theorem ofText_again {text : String} {m : Metadata} (h : ofText text = .ok m)
    (hplain : ∀ e ∈ m.table.entries, e.2.Plain)
    (hkept : ∀ x : Double, .real x ∈ m.toJson.numbers → (Number.real x).Kept) :
    ofText (m.pretty ++ "\n") = .ok m := by
  have hproper := ofText_proper h
  refine ofText_pretty hproper hplain (fun n hn => ?_) ['\n'] (by simp [Json.isSpace])
  cases n with
  | whole i => exact Number.kept_whole ((fits_toJson hproper).inRange _ hn)
  | real x => exact hkept x hn

/-- Metadata with whole numbers only are read back from either of their texts. Their entries are
those that texts can hold, which nest below 127 deep and so stay below 128 in the metadata, and none
beside the uniforms looks like the record of one. -/
theorem ofText_both_layouts {m : Metadata} (hproper : ∀ e ∈ m.table.entries, e.2.Proper)
    (hplain : ∀ e ∈ m.table.entries, e.2.Plain)
    (hwhole : ∀ n ∈ m.toJson.numbers, ∃ i, n = .whole i) :
    ofText m.compact = .ok m ∧ ofText m.pretty = .ok m := by
  have hkept : ∀ n ∈ m.toJson.numbers, n.Kept := by
    intro n hn
    obtain ⟨i, rfl⟩ := hwhole n hn
    exact Number.kept_whole ((fits_toJson hproper).inRange _ hn)
  have hpretty := ofText_pretty hproper hplain hkept [] (by simp)
  rw [String.ofList_nil, String.append_empty] at hpretty
  exact ⟨ofText_compact hproper hplain hkept, hpretty⟩

/-- The least and the greatest number, texts that have to be escaped, and what is almost a record. -/
def captioned : Metadata :=
  ⟨⟨[("\"size\"\n", .uniform ⟨"größe", some 2,
        [.whole (-9223372036854775808), .whole 18446744073709551615], some 4294967295, true⟩),
      ("𝄞", .other (.object [("args", .array [.null]), ("func", .string "\\\x1f")]))],
    by unfold KeysIncrease; decide⟩⟩

theorem captioned_read_back :
    (∀ e ∈ captioned.table.entries, e.2.Proper) ∧ (∀ e ∈ captioned.table.entries, e.2.Plain) ∧
      ofText captioned.compact = .ok captioned ∧ ofText captioned.pretty = .ok captioned := by
  have hproper : ∀ e ∈ captioned.table.entries, e.2.Proper := by
    refine List.forall_mem_cons.2 ⟨⟨?_, ?_, ?_⟩, List.forall_mem_singleton.2 ⟨rfl, by decide, ?_⟩⟩
    · rintro _ ⟨⟩
      decide
    · rintro _ ⟨⟩
      decide
    · simp [Number.InRange]
    · simp [Json.numbers, Json.numbersFields, Json.numbersItems]
  have hplain : ∀ e ∈ captioned.table.entries, e.2.Plain := by decide +kernel
  have hwhole : ∀ n ∈ captioned.toJson.numbers, ∃ i, n = .whole i := by
    simp [captioned, toJson, Entry.toJson, UniformRecord.toJson, Json.numbers, Json.numbersFields,
      Json.numbersItems]
  exact ⟨hproper, hplain, ofText_both_layouts hproper hplain hwhole⟩

end Metadata
end ShaderLift
