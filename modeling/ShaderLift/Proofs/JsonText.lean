import Mathlib
import ShaderLift.Proofs.JsonNumbers

/-!
JSON values are read back from their texts. Strings always are; a value is, if its numbers are and
it does not nest deeper than the reader goes. White space between the parts of a value makes no
difference, so what is said of the parts serves every layout.
-/

namespace ShaderLift

namespace Json

theorem nextChar_cons (c : Char) (cs : List Char) : nextChar (c :: cs) = .ok (c, cs) := rfl

theorem readHexUnit_append {ds : List Char} (hlength : ds.length = 4)
    (hds : ds.all Numeral.isHexDigit) (rest : List Char) :
    readHexUnit (ds ++ rest) = .ok (Numeral.value 16 ds, rest) := by
  have hbytes : ∀ cs : List Char, cs.length ≤ Text.byteLength cs := by
    intro cs
    induction cs with
    | nil => exact le_refl _
    | cons c cs ih =>
      have := c.utf8Size_pos
      simp only [List.length_cons, Text.byteLength]
      omega
  have hlong : ¬Text.byteLength (ds ++ rest) < 4 := by
    have := hbytes (ds ++ rest)
    simp only [List.length_append] at this
    omega
  unfold readHexUnit
  rw [reader_bind (get_eq _)]
  have htake : (ds ++ rest).take 4 = ds := by rw [← hlength, List.take_left]
  have hdrop : (ds ++ rest).drop 4 = rest := by rw [← hlength, List.drop_left]
  simp only [if_neg hlong, htake, hdrop, hds, if_true]
  rfl

def controlDigits (n : Nat) : List Char :=
  (if n < 16 then ['0', '0', '0'] else ['0', '0']) ++ Numeral.hexadecimal n

theorem controlDigits_value : ∀ n < 32, (controlDigits n).length = 4 ∧
    (controlDigits n).all Numeral.isHexDigit ∧ Numeral.value 16 (controlDigits n) = n := by
  decide

theorem readEscape_control {c : Char} (hc : c.toNat < 32) (rest : List Char) :
    readEscape ('u' :: controlDigits c.toNat ++ rest) = .ok (c, rest) := by
  obtain ⟨hlength, hds, hvalue⟩ := controlDigits_value _ hc
  have hunit := readHexUnit_append hlength hds rest
  have hunicode : readUnicodeEscape (controlDigits c.toNat ++ rest) = .ok (c, rest) := by
    rw [hvalue] at hunit
    rw [readUnicodeEscape, reader_bind hunit]
    have hlow : ¬0xdc00 ≤ c.toNat := by omega
    have hhigh : ¬0xd800 ≤ c.toNat := by omega
    simp only [hlow, hhigh, decide_false, Bool.false_and, Bool.false_eq_true, if_false,
      Char.ofNat_toNat]
    rfl
  exact hunicode

theorem escapeChar_cases (c : Char) :
    (∃ ds, escapeChar c = '\\' :: ds ∧ ∀ rest, readEscape (ds ++ rest) = .ok (c, rest)) ∨
      escapeChar c = [c] ∧ c ≠ '"' ∧ c ≠ '\\' ∧ ¬c.toNat < 32 := by
  unfold escapeChar
  by_cases hquote : c = '"'
  · subst hquote
    exact .inl ⟨['"'], rfl, fun rest => rfl⟩
  rw [if_neg hquote]
  by_cases hslash : c = '\\'
  · subst hslash
    exact .inl ⟨['\\'], rfl, fun rest => rfl⟩
  rw [if_neg hslash]
  by_cases hback : c = '\x08'
  · subst hback
    exact .inl ⟨['b'], rfl, fun rest => rfl⟩
  rw [if_neg hback]
  by_cases hfeed : c = '\x0c'
  · subst hfeed
    exact .inl ⟨['f'], rfl, fun rest => rfl⟩
  rw [if_neg hfeed]
  by_cases hline : c = '\n'
  · subst hline
    exact .inl ⟨['n'], rfl, fun rest => rfl⟩
  rw [if_neg hline]
  by_cases hreturn : c = '\r'
  · subst hreturn
    exact .inl ⟨['r'], rfl, fun rest => rfl⟩
  rw [if_neg hreturn]
  by_cases htab : c = '\t'
  · subst htab
    exact .inl ⟨['t'], rfl, fun rest => rfl⟩
  rw [if_neg htab]
  by_cases hlow : c.toNat < 32
  · refine .inl ⟨'u' :: controlDigits c.toNat, ?_, readEscape_control hlow⟩
    unfold controlDigits
    by_cases h : c.toNat < 16
    · rw [if_pos h, if_pos h]
      rfl
    · rw [if_neg h, if_neg h, if_pos hlow]
      rfl
  · have h : ¬c.toNat < 16 := by omega
    rw [if_neg h, if_neg hlow]
    exact .inr ⟨rfl, hquote, hslash, hlow⟩

theorem readStringBody_escaped (s : List Char) {fuel : Nat} (h : s.length < fuel)
    (rest : List Char) :
    readStringBody fuel (s.flatMap escapeChar ++ '"' :: rest) = .ok (s, rest) := by
  induction s generalizing fuel with
  | nil =>
    cases fuel with
    | zero => cases h
    | succ fuel => rfl
  | cons c s ih =>
    cases fuel with
    | zero => cases h
    | succ fuel =>
      have hbody := ih (Nat.lt_of_succ_lt_succ h)
      rw [List.flatMap_cons, List.append_assoc, readStringBody]
      rcases escapeChar_cases c with ⟨ds, hds, hread⟩ | ⟨hself, hquote, hslash, hcontrol⟩
      · rw [hds, List.cons_append, reader_bind (nextChar_cons _ _)]
        simp only [if_true]
        rw [if_neg (by decide), reader_bind (hread _), reader_bind hbody]
        rfl
      · rw [hself, List.cons_append, reader_bind (nextChar_cons _ _), if_neg hquote, if_neg hslash,
          if_neg hcontrol, List.nil_append, reader_bind hbody]
        rfl

theorem readString_escaped (s : String) (rest : List Char) :
    readString (s.toList.flatMap escapeChar ++ '"' :: rest) = .ok (s, rest) := by
  have hescape : ∀ c, 0 < (escapeChar c).length := by
    intro c
    rcases escapeChar_cases c with ⟨ds, hds, _⟩ | ⟨hself, _⟩
    · simp [hds]
    · simp [hself]
  have hfuel : s.toList.length < (s.toList.flatMap escapeChar ++ '"' :: rest).length + 1 := by
    have hle : s.toList.length ≤ (s.toList.flatMap escapeChar).length := by
      induction s.toList with
      | nil => exact le_refl _
      | cons c cs ih =>
        have := hescape c
        simp only [List.flatMap_cons, List.length_append, List.length_cons]
        omega
    simp only [List.length_append]
    omega
  have hbody := readStringBody_escaped s.toList hfuel rest
  change (readStringBody _ >>= fun cs => Pure.pure (String.ofList cs)) _ = _
  rw [reader_bind hbody, String.ofList_toList]
  rfl

theorem readAtom_string (s : String) (rest : List Char) :
    readAtom (stringText s ++ rest) = .ok (.string s, rest) := by
  have hbody := readString_escaped s rest
  rw [stringText, List.cons_append, List.cons_append, List.append_assoc, List.cons_append,
    List.nil_append, readAtom_cons rfl, atomFrom, reader_bind (advance_cons _ _),
    reader_bind hbody]
  rfl

theorem Apart.blank {b rest : List Char} (hb : ∀ c ∈ b, isSpace c) (hrest : Apart rest) :
    Apart (b ++ rest) := by
  cases b with
  | nil => exact hrest
  | cons c b =>
    have hc := hb c List.mem_cons_self
    refine stops_cons ?_
    simp only [isSpace, Bool.or_eq_true, decide_eq_true_eq] at hc
    rcases hc with ((rfl | rfl) | rfl) | rfl <;> rfl

/-- The text is read as the value, in front of whatever does not go on with a number. -/
def Reads (room : Nat) (v : Json) (cs : List Char) : Prop :=
  ∀ rest, Apart rest → readValue room (cs ++ rest) = .ok (v, rest)

/-- The text is read as a name and its value. -/
def ReadsField (room : Nat) (field : String × Json) (cs : List Char) : Prop :=
  ∀ rest, Apart rest → readField (readValue room) (cs ++ rest) = .ok (field, rest)

section

variable {room : Nat} {v : Json} {vs : List Json} {field : String × Json}
  {fields : List (String × Json)} {b cs ds : List Char}

def valueFrom (room : Nat) : Option Char → Reader Json
  | some '[' => do advance; return .array (← readItems (readValue room))
  | some '\x7b' => do advance; return .object (← readFields (readValue room))
  | _ => readAtom

theorem readValue_succ (room : Nat) : readValue (room + 1) = peek >>= valueFrom room := rfl

theorem valueFrom_atom {c : Char} (harray : c ≠ '[') (hobject : c ≠ '\x7b') :
    valueFrom room (some c) = readAtom := by
  unfold valueFrom
  split
  · next h => exact absurd (Option.some.inj h) harray
  · next h => exact absurd (Option.some.inj h) hobject
  · rfl

theorem readValue_atom {c : Char} (hspace : isSpace c = false) (harray : c ≠ '[')
    (hobject : c ≠ '\x7b') (cs : List Char) : readValue room (c :: cs) = readAtom (c :: cs) := by
  cases room with
  | zero => rfl
  | succ room => rw [readValue_succ, reader_bind (peek_cons hspace), valueFrom_atom harray hobject]

theorem readValue_blank (hb : ∀ c ∈ b, isSpace c) (cs : List Char) :
    readValue room (b ++ cs) = readValue room cs := by
  cases room with
  | zero => simp only [readValue, readAtom_eq, bind, StateT.bind, peek_blank hb]
  | succ room => simp only [readValue_succ, bind, StateT.bind, peek_blank hb]

theorem Reads.blank (hb : ∀ c ∈ b, isSpace c) (h : Reads room v cs) : Reads room v (b ++ cs) := by
  intro rest hrest
  rw [List.append_assoc, readValue_blank hb]
  exact h rest hrest

theorem readField_blank (hb : ∀ c ∈ b, isSpace c) (cs : List Char) :
    readField (readValue room) (b ++ cs) = readField (readValue room) cs := by
  simp only [readField, bind, StateT.bind, peek_blank hb]

theorem ReadsField.blank (hb : ∀ c ∈ b, isSpace c) (h : ReadsField room field cs) :
    ReadsField room field (b ++ cs) := by
  intro rest hrest
  rw [List.append_assoc, readField_blank hb]
  exact h rest hrest

theorem blank_trim {α : Type} {m : Reader α} (h : ∀ b cs, (∀ c ∈ b, isSpace c) → m (b ++ cs) = m cs)
    (cs : List Char) : m (cs.dropWhile isSpace) = m cs := by
  have hb : ∀ c ∈ cs.takeWhile isSpace, isSpace c := fun c hc => List.mem_takeWhile_imp hc
  have hblank := h _ (cs.dropWhile isSpace) hb
  rw [List.takeWhile_append_dropWhile] at hblank
  exact hblank.symm

theorem readValue_trim (cs : List Char) :
    readValue room (cs.dropWhile isSpace) = readValue room cs :=
  blank_trim (fun _ cs hb => readValue_blank hb cs) cs

theorem readField_trim (cs : List Char) :
    readField (readValue room) (cs.dropWhile isSpace) = readField (readValue room) cs :=
  blank_trim (fun _ cs hb => readField_blank hb cs) cs

theorem ReadsField.head_eq (h : ReadsField room field cs) {rest : List Char} (hrest : Apart rest) :
    ((cs ++ rest).dropWhile isSpace).head? = some '"' := by
  have hread := h rest hrest
  by_contra hne
  rw [readField, reader_bind (peek_eq _)] at hread
  simp only [ne_eq, hne, not_false_eq_true, if_true] at hread
  cases hcs : (cs ++ rest).dropWhile isSpace <;> rw [hcs] at hread <;> cases hread

theorem Reads.head_ne (h : Reads room v cs) {rest : List Char} (hrest : Apart rest) :
    ((cs ++ rest).dropWhile isSpace).head? ≠ some ']' := by
  intro hhead
  have hread := h rest hrest
  obtain ⟨tail, htail⟩ := List.head?_eq_some_iff.1 hhead
  rw [← readValue_trim, htail, readValue_atom rfl (by decide) (by decide)] at hread
  cases hread

theorem readsField_text (name : String) (h : Reads room v cs) :
    ReadsField room (name, v) (stringText name ++ ':' :: cs) := by
  intro rest hrest
  have hname := readString_escaped name (':' :: cs ++ rest)
  have hquote : peek ('"' :: (name.toList.flatMap escapeChar ++ '"' :: (':' :: cs ++ rest))) =
      .ok (some '"', _) := peek_cons rfl
  have hcolon : peek (':' :: cs ++ rest) = .ok (some ':', ':' :: (cs ++ rest)) := peek_cons rfl
  have htext : stringText name ++ ':' :: cs ++ rest =
      '"' :: (name.toList.flatMap escapeChar ++ '"' :: (':' :: cs ++ rest)) := by
    simp [stringText]
  rw [htext, readField, reader_bind hquote]
  simp only [ne_eq, not_true_eq_false, if_false]
  rw [reader_bind (advance_cons _ _), reader_bind hname, reader_bind hcolon]
  simp only [not_true_eq_false, if_false]
  rw [reader_bind (advance_cons _ _), reader_bind (h rest hrest)]
  rfl

/-- The items of an array after the first, with its end. -/
inductive MoreItems (room : Nat) : List Json → List Char → Prop
  | nil {b : List Char} (hb : ∀ c ∈ b, isSpace c) : MoreItems room [] (b ++ [']'])
  | cons {v : Json} {vs : List Json} {cs ds : List Char} (hv : Reads room v cs)
      (hvs : MoreItems room vs ds) : MoreItems room (v :: vs) (',' :: cs ++ ds)

/-- The fields of an object after the first, with its end. -/
inductive MoreFields (room : Nat) : List (String × Json) → List Char → Prop
  | nil {b : List Char} (hb : ∀ c ∈ b, isSpace c) : MoreFields room [] (b ++ ['\x7d'])
  | cons {field : String × Json} {fields : List (String × Json)} {cs ds : List Char}
      (hf : ReadsField room field cs) (hfs : MoreFields room fields ds) :
      MoreFields room (field :: fields) (',' :: cs ++ ds)

theorem MoreItems.apart (h : MoreItems room vs ds) (rest : List Char) : Apart (ds ++ rest) := by
  cases h with
  | nil hb =>
    rw [List.append_assoc]
    exact Apart.blank hb (stops_cons rfl)
  | cons _ _ => exact stops_cons rfl

theorem MoreFields.apart (h : MoreFields room fields ds) (rest : List Char) :
    Apart (ds ++ rest) := by
  cases h with
  | nil hb =>
    rw [List.append_assoc]
    exact Apart.blank hb (stops_cons rfl)
  | cons _ _ => exact stops_cons rfl

theorem MoreItems.reads (h : MoreItems room vs ds) {fuel : Nat} (hfuel : vs.length < fuel)
    (rest : List Char) :
    readMoreItems (readValue room) fuel (ds ++ rest) = .ok (vs, rest) := by
  induction h generalizing fuel with
  | @nil b hb =>
    obtain ⟨fuel, rfl⟩ := Nat.exists_eq_add_one_of_ne_zero (Nat.ne_of_gt hfuel)
    have hend : peek (b ++ [']'] ++ rest) = .ok (some ']', ']' :: rest) := by
      rw [List.append_assoc, peek_blank hb]
      exact peek_cons rfl
    rw [readMoreItems, reader_bind hend]
    rfl
  | @cons v vs cs ds hv hvs ih =>
    obtain ⟨fuel, rfl⟩ := Nat.exists_eq_add_one_of_ne_zero (Nat.ne_of_gt (Nat.zero_lt_of_lt hfuel))
    have hcomma : peek (',' :: cs ++ ds ++ rest) = .ok (some ',', ',' :: (cs ++ (ds ++ rest))) := by
      rw [List.append_assoc, List.cons_append]
      exact peek_cons rfl
    have hitem := hv _ (hvs.apart rest)
    have hmore := ih (Nat.lt_of_succ_lt_succ hfuel)
    rw [readMoreItems, reader_bind hcomma]
    simp only
    rw [reader_bind (advance_cons _ _), reader_bind (peek_eq _),
      if_neg (hv.head_ne (hvs.apart rest)), reader_bind ((readValue_trim _).trans hitem),
      reader_bind hmore]
    rfl

theorem MoreFields.reads (h : MoreFields room fields ds) {fuel : Nat} (hfuel : fields.length < fuel)
    (rest : List Char) :
    readMoreFields (readValue room) fuel (ds ++ rest) = .ok (fields, rest) := by
  induction h generalizing fuel with
  | @nil b hb =>
    obtain ⟨fuel, rfl⟩ := Nat.exists_eq_add_one_of_ne_zero (Nat.ne_of_gt hfuel)
    have hend : peek (b ++ ['\x7d'] ++ rest) = .ok (some '\x7d', '\x7d' :: rest) := by
      rw [List.append_assoc, peek_blank hb]
      exact peek_cons rfl
    rw [readMoreFields, reader_bind hend]
    rfl
  | @cons field fields cs ds hf hfs ih =>
    obtain ⟨fuel, rfl⟩ := Nat.exists_eq_add_one_of_ne_zero (Nat.ne_of_gt (Nat.zero_lt_of_lt hfuel))
    have hcomma : peek (',' :: cs ++ ds ++ rest) = .ok (some ',', ',' :: (cs ++ (ds ++ rest))) := by
      rw [List.append_assoc, List.cons_append]
      exact peek_cons rfl
    have hfield := hf _ (hfs.apart rest)
    have hmore := ih (Nat.lt_of_succ_lt_succ hfuel)
    rw [readMoreFields, reader_bind hcomma]
    simp only
    rw [reader_bind (advance_cons _ _), reader_bind hfield, reader_bind hmore]
    rfl

theorem MoreItems.length_le (h : MoreItems room vs ds) : vs.length ≤ ds.length := by
  induction h with
  | nil _ => exact Nat.zero_le _
  | cons _ _ ih => simp; omega

theorem MoreFields.length_le (h : MoreFields room fields ds) : fields.length ≤ ds.length := by
  induction h with
  | nil _ => exact Nat.zero_le _
  | cons _ _ ih => simp; omega

def ReadsItems (room : Nat) (vs : List Json) (cs : List Char) : Prop :=
  ∀ rest, readItems (readValue room) (cs ++ rest) = .ok (vs, rest)

def ReadsFields (room : Nat) (fields : List (String × Json)) (cs : List Char) : Prop :=
  ∀ rest, Json.readFields (readValue room) (cs ++ rest) = .ok (fields, rest)

theorem readsItems_nil : ReadsItems room [] [']'] := fun _ => rfl

theorem readsFields_nil : ReadsFields room [] ['\x7d'] := fun _ => rfl

theorem readsItems_cons (hv : Reads room v cs) (hvs : MoreItems room vs ds) :
    ReadsItems room (v :: vs) (cs ++ ds) := by
  intro rest
  have hitem := hv _ (hvs.apart rest)
  have hfuel : vs.length < (ds ++ rest).length + 1 := by
    have := hvs.length_le
    simp only [List.length_append]
    omega
  rw [List.append_assoc, readItems, reader_bind (peek_eq _), if_neg (hv.head_ne (hvs.apart rest)),
    reader_bind ((readValue_trim _).trans hitem), reader_bind (get_eq _),
    reader_bind (hvs.reads hfuel rest)]
  rfl

theorem readsFields_cons (hf : ReadsField room field cs) (hfs : MoreFields room fields ds) :
    ReadsFields room (field :: fields) (cs ++ ds) := by
  intro rest
  have hfield := hf _ (hfs.apart rest)
  have hfuel : fields.length < (ds ++ rest).length + 1 := by
    have := hfs.length_le
    simp only [List.length_append]
    omega
  have hhead : ((cs ++ (ds ++ rest)).dropWhile isSpace).head? ≠ some '\x7d' := by
    rw [hf.head_eq (hfs.apart rest)]
    decide
  rw [List.append_assoc, Json.readFields, reader_bind (peek_eq _), if_neg hhead,
    reader_bind ((readField_trim _).trans hfield), reader_bind (get_eq _),
    reader_bind (hfs.reads hfuel rest)]
  rfl

theorem reads_array (h : ReadsItems room vs cs) : Reads (room + 1) (.array vs) ('[' :: cs) := by
  intro rest _
  rw [List.cons_append, readValue_succ, reader_bind (peek_cons rfl), valueFrom,
    reader_bind (advance_cons _ _), reader_bind (h rest)]
  rfl

theorem reads_object (h : ReadsFields room fields cs) :
    Reads (room + 1) (.object fields) ('\x7b' :: cs) := by
  intro rest _
  rw [List.cons_append, readValue_succ, reader_bind (peek_cons rfl), valueFrom,
    reader_bind (advance_cons _ _), reader_bind (h rest)]
  rfl

theorem Reads.readFields (h : Reads (room + 1) (.object fields) ('\x7b' :: cs)) {rest : List Char}
    (hrest : Apart rest) : Json.readFields (readValue room) (cs ++ rest) = .ok (fields, rest) := by
  have hread := h rest hrest
  rw [List.cons_append, readValue_succ, reader_bind (peek_cons rfl), valueFrom,
    reader_bind (advance_cons _ _)] at hread
  cases hcs : Json.readFields (readValue room) (cs ++ rest) with
  | error e =>
    simp only [bind, StateT.bind, hcs, Except.bind] at hread
    cases hread
  | ok r =>
    rw [reader_bind hcs] at hread
    cases hread
    rfl

end

mutual

def depth : Json → Nat
  | null | bool _ | number _ | string _ => 0
  | array items => depthItems items + 1
  | object fields => depthFields fields + 1

def depthItems : List Json → Nat
  | [] => 0
  | v :: rest => max v.depth (depthItems rest)

def depthFields : List (String × Json) → Nat
  | [] => 0
  | (_, v) :: rest => max v.depth (depthFields rest)

end

mutual

def numbers : Json → List Number
  | null | bool _ | string _ => []
  | number n => [n]
  | array items => numbersItems items
  | object fields => numbersFields fields

def numbersItems : List Json → List Number
  | [] => []
  | v :: rest => v.numbers ++ numbersItems rest

def numbersFields : List (String × Json) → List Number
  | [] => []
  | (_, v) :: rest => v.numbers ++ numbersFields rest

end

theorem newLine_blank (depth : Nat) : ∀ c ∈ newLine depth, isSpace c := by
  intro c hc
  rcases List.mem_cons.1 hc with rfl | hc
  · rfl
  · rw [List.eq_of_mem_replicate hc]
    rfl

theorem space_blank : ∀ c ∈ [' '], isSpace c := by
  simp [isSpace]

theorem reads_number {room : Nat} {n : Number} (hn : n.Kept) : Reads room (.number n) n.text := by
  intro rest hrest
  have hread := hn.readAtom hrest
  obtain ⟨negative, c, cs, htext, hc⟩ := n.text_start
  rw [← hread, htext]
  cases negative with
  | true => exact readValue_atom rfl (by decide) (by decide) _
  | false =>
    refine readValue_atom (isSpace_of_isDigit hc) ?_ ?_ _
    · rintro rfl
      cases hc
    · rintro rfl
      cases hc

theorem reads_string {room : Nat} (s : String) : Reads room (.string s) (stringText s) := by
  intro rest _
  rw [← readAtom_string s rest]
  exact readValue_atom rfl (by decide) (by decide) _

mutual

/-- A value is read back from its text, if its numbers are and it does not nest too deep. -/
theorem reads_pretty (v : Json) (level : Nat) {room : Nat} (hdepth : v.depth ≤ room)
    (hnumbers : ∀ n ∈ v.numbers, n.Kept) : Reads room v (v.pretty level) := by
  match v, room with
  | null, room =>
    exact fun rest _ => (readValue_atom (c := 'n') rfl (by decide) (by decide) _).trans rfl
  | bool true, room =>
    exact fun rest _ => (readValue_atom (c := 't') rfl (by decide) (by decide) _).trans rfl
  | bool false, room =>
    exact fun rest _ => (readValue_atom (c := 'f') rfl (by decide) (by decide) _).trans rfl
  | number n, room =>
    rw [pretty]
    exact reads_number (hnumbers n (by simp [numbers]))
  | string s, room =>
    rw [pretty]
    exact reads_string s
  | array items, 0 => simp [depth] at hdepth
  | object fields, 0 => simp [depth] at hdepth
  | array [], room + 1 =>
    rw [pretty]
    exact reads_array readsItems_nil
  | object [], room + 1 =>
    rw [pretty]
    exact reads_object readsFields_nil
  -- the line breaks belong to the items behind them, and the last one to the closing bracket
  | array (v :: rest), room + 1 =>
    simp only [depth, depthItems, Nat.add_le_add_iff_right, max_le_iff] at hdepth
    simp only [numbers, numbersItems, List.forall_mem_append] at hnumbers
    have hv := (reads_pretty v (level + 1) hdepth.1 hnumbers.1).blank (newLine_blank (level + 1))
    have hrest := moreItems_pretty rest (level + 1) hdepth.2 hnumbers.2 (newLine_blank level)
    have htext := reads_array (readsItems_cons hv hrest)
    simpa [pretty] using htext
  | object ((name, v) :: rest), room + 1 =>
    simp only [depth, depthFields, Nat.add_le_add_iff_right, max_le_iff] at hdepth
    simp only [numbers, numbersFields, List.forall_mem_append] at hnumbers
    have hv := (reads_pretty v (level + 1) hdepth.1 hnumbers.1).blank space_blank
    have hfield := (readsField_text name hv).blank (newLine_blank (level + 1))
    have hrest := moreFields_pretty rest (level + 1) hdepth.2 hnumbers.2 (newLine_blank level)
    have htext := reads_object (readsFields_cons hfield hrest)
    simpa [pretty] using htext

theorem moreItems_pretty (items : List Json) (level : Nat) {room : Nat}
    (hdepth : depthItems items ≤ room) (hnumbers : ∀ n ∈ numbersItems items, n.Kept)
    {b : List Char} (hb : ∀ c ∈ b, isSpace c) :
    MoreItems room items (prettyMoreItems level items ++ (b ++ [']'])) := by
  match items with
  | [] => exact .nil hb
  | v :: rest =>
    simp only [depthItems, max_le_iff] at hdepth
    simp only [numbersItems, List.forall_mem_append] at hnumbers
    have hv := (reads_pretty v level hdepth.1 hnumbers.1).blank (newLine_blank level)
    have hrest := moreItems_pretty rest level hdepth.2 hnumbers.2 hb
    simpa [prettyMoreItems] using MoreItems.cons hv hrest

theorem moreFields_pretty (fields : List (String × Json)) (level : Nat) {room : Nat}
    (hdepth : depthFields fields ≤ room) (hnumbers : ∀ n ∈ numbersFields fields, n.Kept)
    {b : List Char} (hb : ∀ c ∈ b, isSpace c) :
    MoreFields room fields (prettyMoreFields level fields ++ (b ++ ['\x7d'])) := by
  match fields with
  | [] => exact .nil hb
  | (name, v) :: rest =>
    simp only [depthFields, max_le_iff] at hdepth
    simp only [numbersFields, List.forall_mem_append] at hnumbers
    have hv := (reads_pretty v level hdepth.1 hnumbers.1).blank space_blank
    have hfield := (readsField_text name hv).blank (newLine_blank level)
    have hrest := moreFields_pretty rest level hdepth.2 hnumbers.2 hb
    simpa [prettyMoreFields] using MoreFields.cons hfield hrest

end

mutual

theorem reads_compact (v : Json) {room : Nat} (hdepth : v.depth ≤ room)
    (hnumbers : ∀ n ∈ v.numbers, n.Kept) : Reads room v v.compact := by
  match v, room with
  | null, room => simpa [compact, pretty] using reads_pretty null 0 hdepth hnumbers
  | bool b, room => simpa [compact, pretty] using reads_pretty (bool b) 0 hdepth hnumbers
  | number n, room => simpa [compact, pretty] using reads_pretty (number n) 0 hdepth hnumbers
  | string s, room => simpa [compact, pretty] using reads_pretty (string s) 0 hdepth hnumbers
  | array items, 0 => simp [depth] at hdepth
  | object fields, 0 => simp [depth] at hdepth
  | array [], room + 1 =>
    rw [compact, compactItems]
    exact reads_array readsItems_nil
  | object [], room + 1 =>
    rw [compact, compactFields]
    exact reads_object readsFields_nil
  | array (v :: rest), room + 1 =>
    simp only [depth, depthItems, Nat.add_le_add_iff_right, max_le_iff] at hdepth
    simp only [numbers, numbersItems, List.forall_mem_append] at hnumbers
    have hv := reads_compact v hdepth.1 hnumbers.1
    have htext := reads_array (readsItems_cons hv (moreItems_compact rest hdepth.2 hnumbers.2))
    simpa [compact, compactItems] using htext
  | object ((name, v) :: rest), room + 1 =>
    simp only [depth, depthFields, Nat.add_le_add_iff_right, max_le_iff] at hdepth
    simp only [numbers, numbersFields, List.forall_mem_append] at hnumbers
    have hfield := readsField_text name (reads_compact v hdepth.1 hnumbers.1)
    have htext := reads_object
      (readsFields_cons hfield (moreFields_compact rest hdepth.2 hnumbers.2))
    simpa [compact, compactFields] using htext

theorem moreItems_compact (items : List Json) {room : Nat} (hdepth : depthItems items ≤ room)
    (hnumbers : ∀ n ∈ numbersItems items, n.Kept) :
    MoreItems room items (compactMoreItems items ++ [']']) := by
  match items with
  | [] => exact .nil (b := []) (by simp)
  | v :: rest =>
    simp only [depthItems, max_le_iff] at hdepth
    simp only [numbersItems, List.forall_mem_append] at hnumbers
    have hv := reads_compact v hdepth.1 hnumbers.1
    have hrest := moreItems_compact rest hdepth.2 hnumbers.2
    simpa [compactMoreItems] using MoreItems.cons hv hrest

theorem moreFields_compact (fields : List (String × Json)) {room : Nat}
    (hdepth : depthFields fields ≤ room) (hnumbers : ∀ n ∈ numbersFields fields, n.Kept) :
    MoreFields room fields (compactMoreFields fields ++ ['\x7d']) := by
  match fields with
  | [] => exact .nil (b := []) (by simp)
  | (name, v) :: rest =>
    simp only [depthFields, max_le_iff] at hdepth
    simp only [numbersFields, List.forall_mem_append] at hnumbers
    have hfield := readsField_text name (reads_compact v hdepth.1 hnumbers.1)
    have hrest := moreFields_compact rest hdepth.2 hnumbers.2
    simpa [compactMoreFields] using MoreFields.cons hfield hrest

end

end Json
end ShaderLift
