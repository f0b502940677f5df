import Mathlib
import ShaderLift.Proofs.Lexing

/-!
The patterns of the tokens and of what is skipped between them, as languages over characters. The
parts of a number are read off the front of a text greedily: no word of the part's language goes
further, and where one part ends the next one can start.
-/

namespace ShaderLift

open scoped Computability

namespace Pattern

def oneOf (p : Char → Bool) : Language Char := {w | ∃ c, p c ∧ w = [c]}

def run (p : Char → Bool) : Language Char := oneOf p * (oneOf p)∗

variable {p : Char → Bool} {w : List Char}

@[simp] theorem mem_oneOf : w ∈ oneOf p ↔ ∃ c, p c ∧ w = [c] := Iff.rfl

@[simp] theorem mem_oneOf_kstar : w ∈ (oneOf p)∗ ↔ ∀ c ∈ w, p c := by
  rw [Language.mem_kstar]
  constructor
  · rintro ⟨words, rfl, hwords⟩ c hc
    obtain ⟨word, hword, hc⟩ := List.mem_flatten.1 hc
    obtain ⟨d, hd, rfl⟩ := mem_oneOf.1 (hwords word hword)
    rwa [List.mem_singleton.1 hc]
  · intro h
    refine ⟨w.map List.singleton, ?_, fun word hword => ?_⟩
    · exact (List.flatMap_singleton' w).symm
    · obtain ⟨c, hc, rfl⟩ := List.mem_map.1 hword
      exact mem_oneOf.2 ⟨c, h c hc, rfl⟩

@[simp] theorem mem_run : w ∈ run p ↔ w ≠ [] ∧ ∀ c ∈ w, p c := by
  rw [run, Language.mem_mul]
  constructor
  · rintro ⟨_, ⟨c, hc, rfl⟩, more, hmore, rfl⟩
    exact ⟨by simp, List.forall_mem_cons.2 ⟨hc, mem_oneOf_kstar.1 hmore⟩⟩
  · rintro ⟨hne, h⟩
    obtain ⟨c, more, rfl⟩ := List.exists_cons_of_ne_nil hne
    obtain ⟨hc, hmore⟩ := List.forall_mem_cons.1 h
    exact ⟨[c], ⟨c, hc, rfl⟩, more, mem_oneOf_kstar.2 hmore, rfl⟩

theorem cons_mem_optional {c : Char} {v : List Char} : c :: v ∈ 1 + oneOf p ↔ p c ∧ v = [] := by
  constructor
  · rintro (h | ⟨d, hd, hdv⟩)
    · cases h
    · obtain ⟨rfl, rfl⟩ := List.cons.inj hdv
      exact ⟨hd, rfl⟩
  · rintro ⟨hc, rfl⟩
    exact .inr ⟨c, hc, rfl⟩

def isExponentMark (c : Char) : Bool := c = 'e' || c = 'E'

def isSign (c : Char) : Bool := c = '+' || c = '-'

def isFloatMark (c : Char) : Bool := c = 'f' || c = 'F'

def isUnsignedMark (c : Char) : Bool := c = 'u' || c = 'U'

def isHexMark (c : Char) : Bool := c = 'x' || c = 'X'

def hexadecimal : Language Char := oneOf (· = '0') * oneOf isHexMark * run Numeral.isHexDigit

def whole : Language Char := run Char.isDigit + hexadecimal

def unsigned : Language Char := whole * oneOf isUnsignedMark

def exponent : Language Char := oneOf isExponentMark * (1 + oneOf isSign) * run Char.isDigit

def floatEnd : Language Char := (1 + exponent) * (1 + oneOf isFloatMark)

/-- A number with a point after its first digits, with a point before them, or with an exponent and
no point. -/
def float : Language Char :=
  run Char.isDigit * (oneOf (· = '.') * ((oneOf Char.isDigit)∗ * floatEnd)) +
    oneOf (· = '.') * (run Char.isDigit * floatEnd) +
    run Char.isDigit * (exponent * (1 + oneOf isFloatMark))

def name : Language Char := oneOf Lexer.isIdentStart * (oneOf Lexer.isIdentChar)∗

def directive : Language Char := oneOf (· = '#') * (oneOf (· ≠ '\n'))∗

def blanks : Language Char := run Lexer.isGapChar

def lineComment : Language Char := oneOf (· = '/') * oneOf (· = '/') * (oneOf (· ≠ '\n'))∗

def commentStart : Language Char := oneOf (· = '/') * oneOf (· = '*')

end Pattern

/-- The texts that a token of this kind is written as. -/
def Token.pattern : Token → Language Char
  | .keyword k => {k.text}
  | .symbol s => {s.text}
  | .bool b => {if b then "true".toList else "false".toList}
  | .int _ => Pattern.whole
  | .uint _ => Pattern.unsigned
  | .float _ => Pattern.float
  | .ident _ => Pattern.name
  | .directive _ => Pattern.directive

/-- A word of some token's pattern, or of one of the patterns that are skipped. -/
def Lexer.IsLexeme (w : List Char) : Prop :=
  (∃ t : Token, w ∈ t.pattern) ∨
    w ∈ Pattern.blanks + Pattern.lineComment + Pattern.commentStart

namespace Pattern

/-- What is read is at the front of the text and in the language, and no word of the language at the
front of the text is longer. -/
structure Greedy (L : Language Char) (read : List Char → List Char) : Prop where
  front (cs : List Char) : read cs <+: cs
  mem (cs : List Char) : read cs ∈ L
  longest {w cs : List Char} (hw : w ∈ L) (hfront : w <+: cs) : w.length ≤ (read cs).length

/-- One greedy part after the other, where no word of the second starts with a character that the
words of the first have. -/
theorem Greedy.append {L M : Language Char} {f g : List Char → List Char} (hf : Greedy L f)
    (hg : Greedy M g) (hapart : ∀ w ∈ L, ∀ c ∈ w, ∀ v, c :: v ∉ M) :
    Greedy (L * M) fun cs => f cs ++ g (cs.drop (f cs).length) where
  front cs := by
    calc f cs ++ g (cs.drop (f cs).length)
        <+: f cs ++ cs.drop (f cs).length := (List.prefix_append_right_inj _).2 (hg.front _)
      _ = cs := List.prefix_iff_eq_append.1 (hf.front cs)
  mem cs := Language.mem_mul.2 ⟨_, hf.mem cs, _, hg.mem _, rfl⟩
  longest := by
    intro w cs hw hfront
    obtain ⟨a, ha, b, hb, rfl⟩ := Language.mem_mul.1 hw
    have ha' : a <+: cs := (List.prefix_append a b).trans hfront
    obtain ⟨more, hmore⟩ := List.prefix_of_prefix_length_le ha' (hf.front cs) (hf.longest ha ha')
    have hrest : b <+: more ++ cs.drop (f cs).length := by
      rw [← List.prefix_append_right_inj a, ← List.append_assoc, hmore,
        List.prefix_iff_eq_append.1 (hf.front cs)]
      exact hfront
    have hlength := congrArg List.length hmore
    rw [List.length_append] at hlength ⊢
    rw [List.length_append]
    cases more with
    | nil =>
      have := hg.longest hb hrest
      simp only [List.length_nil, List.nil_append] at *
      omega
    | cons c more =>
      -- the first part goes on with `c`, which the second one does not start with
      cases b with
      | nil =>
        rw [List.length_nil]
        omega
      | cons d b =>
        obtain rfl : d = c := (List.cons_prefix_cons.1 hrest).1
        exact absurd hb (hapart _ (hf.mem cs) d (by simp [← hmore]) b)

theorem greedy_takeWhile (p : Char → Bool) : Greedy (oneOf p)∗ (List.takeWhile p) where
  front _ := List.takeWhile_prefix p
  mem _ := mem_oneOf_kstar.2 fun _ => List.mem_takeWhile_imp
  longest := by
    intro w cs hw hfront
    obtain ⟨rest, rfl⟩ := hfront
    rw [List.takeWhile_append_of_pos (mem_oneOf_kstar.1 hw), List.length_append]
    omega

theorem greedy_optional (p : Char → Bool) :
    Greedy (1 + oneOf p) fun cs => (cs.take 1).takeWhile p where
  front cs := by
    refine List.IsPrefix.trans ?_ (cs.take_prefix 1)
    exact List.takeWhile_prefix p
  mem cs := by
    cases cs with
    | nil => exact .inl rfl
    | cons c cs =>
      by_cases hc : p c
      · exact .inr ⟨c, hc, by simp [hc]⟩
      · exact .inl ((Language.mem_one _).2 (by simp [hc]))
  longest := by
    rintro w cs (rfl | ⟨c, hc, rfl⟩) hfront
    · simp
    · obtain ⟨rest, rfl⟩ := hfront
      simp [hc]

theorem floatSuffix_eq : Lexer.floatSuffix = fun cs => (cs.take 1).takeWhile isFloatMark := by
  funext cs
  cases cs with
  | nil => rfl
  | cons c cs =>
    have hcons : Lexer.floatSuffix (c :: cs) = if isFloatMark c then [c] else [] := rfl
    by_cases hc : isFloatMark c <;> simp [hcons, hc]

theorem uintSuffix_eq : Lexer.uintSuffix = fun cs => (cs.take 1).takeWhile isUnsignedMark := by
  funext cs
  cases cs with
  | nil => rfl
  | cons c cs =>
    have hcons : Lexer.uintSuffix (c :: cs) = if isUnsignedMark c then [c] else [] := rfl
    by_cases hc : isUnsignedMark c <;> simp [hcons, hc]

theorem greedy_floatSuffix : Greedy (1 + oneOf isFloatMark) Lexer.floatSuffix :=
  floatSuffix_eq ▸ greedy_optional isFloatMark

theorem greedy_uintSuffix : Greedy (1 + oneOf isUnsignedMark) Lexer.uintSuffix :=
  uintSuffix_eq ▸ greedy_optional isUnsignedMark

theorem mem_hexadecimal {w : List Char} : w ∈ hexadecimal ↔
    ∃ x digits, w = '0' :: x :: digits ∧ isHexMark x ∧ digits ≠ [] ∧
      ∀ c ∈ digits, Numeral.isHexDigit c := by
  simp only [hexadecimal, Language.mem_mul, mem_oneOf, mem_run]
  constructor
  · rintro ⟨_, ⟨_, ⟨z, hz, rfl⟩, _, ⟨x, hx, rfl⟩, rfl⟩, digits, hdigits, rfl⟩
    exact ⟨x, digits, by simpa using hz, hx, hdigits⟩
  · rintro ⟨x, digits, rfl, hx, hdigits⟩
    exact ⟨['0', x], ⟨['0'], ⟨'0', by decide, rfl⟩, [x], ⟨x, hx, rfl⟩, rfl⟩, digits, hdigits, rfl⟩

theorem mem_exponent {w : List Char} : w ∈ exponent ↔
    ∃ e sign digits, w = e :: sign ++ digits ∧ isExponentMark e ∧
      (sign = [] ∨ ∃ s, isSign s ∧ sign = [s]) ∧ digits ≠ [] ∧ ∀ c ∈ digits, c.isDigit := by
  simp only [exponent, Language.mem_mul, Language.mem_add, Language.mem_one, mem_oneOf, mem_run]
  constructor
  · rintro ⟨_, ⟨_, ⟨e, he, rfl⟩, sign, hsign, rfl⟩, digits, hdigits, rfl⟩
    exact ⟨e, sign, digits, rfl, he, hsign, hdigits⟩
  · rintro ⟨e, sign, digits, rfl, he, hsign, hdigits⟩
    exact ⟨e :: sign, ⟨[e], ⟨e, he, rfl⟩, sign, hsign, rfl⟩, digits, hdigits, rfl⟩

theorem greedy_hexPart : Greedy (1 + hexadecimal) Lexer.hexPart where
  front cs := by
    unfold Lexer.hexPart
    split
    · next x rest =>
      simp only
      split
      · simpa using List.takeWhile_prefix _
      · exact List.nil_prefix
    · exact List.nil_prefix
  mem cs := by
    unfold Lexer.hexPart
    split
    · next x rest =>
      simp only
      split
      · next h =>
        rw [Bool.and_eq_true, Bool.not_eq_true', List.isEmpty_eq_false_iff] at h
        exact .inr (mem_hexadecimal.2 ⟨x, _, rfl, h.1, h.2, fun _ => List.mem_takeWhile_imp⟩)
      · exact .inl rfl
    · exact .inl rfl
  longest := by
    rintro w cs (rfl | hw) hfront
    · simp
    · obtain ⟨x, digits, rfl, hx, hne, hdigits⟩ := mem_hexadecimal.1 hw
      obtain ⟨rest, rfl⟩ := hfront
      have htake : (digits ++ rest).takeWhile Numeral.isHexDigit =
          digits ++ rest.takeWhile Numeral.isHexDigit := List.takeWhile_append_of_pos hdigits
      have hmark : (decide (x = 'x') || decide (x = 'X')) = true := hx
      simp [Lexer.hexPart, htake, hmark, hne]

theorem isDigit_of_isSign {c : Char} (h : isSign c) : c.isDigit = false := by
  simp only [isSign, Bool.or_eq_true, decide_eq_true_eq] at h
  rcases h with rfl | rfl <;> rfl

theorem greedy_signed : Greedy ((1 + oneOf isSign) * (oneOf Char.isDigit)∗) fun cs =>
    (cs.take 1).takeWhile isSign ++
      (cs.drop ((cs.take 1).takeWhile isSign).length).takeWhile Char.isDigit := by
  refine (greedy_optional isSign).append (greedy_takeWhile Char.isDigit) ?_
  rintro w (rfl | ⟨s, hs, rfl⟩) c hc v hv
  · cases hc
  · obtain rfl := List.mem_singleton.1 hc
    have hdigit := mem_oneOf_kstar.1 hv c List.mem_cons_self
    rw [isDigit_of_isSign hs] at hdigit
    cases hdigit

theorem exponentPart_cons (e : Char) (rest : List Char) :
    Lexer.exponentPart (e :: rest) =
      let sign := (rest.take 1).takeWhile isSign
      let digits := (rest.drop sign.length).takeWhile Char.isDigit
      if isExponentMark e ∧ digits ≠ [] then e :: (sign ++ digits) else [] := by
  have hmark : (decide (e = 'e') || decide (e = 'E')) = isExponentMark e := rfl
  cases rest with
  | nil => simp [Lexer.exponentPart]
  | cons s more =>
    have hsign : (decide (s = '+') || decide (s = '-')) = isSign s := rfl
    rw [Lexer.exponentPart, hmark, hsign]
    by_cases he : isExponentMark e
    · by_cases hs : isSign s
      · cases hdigits : more.takeWhile Char.isDigit <;> simp [he, hs, hdigits]
      · cases hdigits : (s :: more).takeWhile Char.isDigit <;> simp [he, hs, hdigits]
    · simp [he]

theorem greedy_exponentPart : Greedy (1 + exponent) Lexer.exponentPart where
  front cs := by
    cases cs with
    | nil => exact List.nil_prefix
    | cons e rest =>
      rw [exponentPart_cons]
      simp only
      split
      · exact List.cons_prefix_cons.2 ⟨rfl, greedy_signed.front rest⟩
      · exact List.nil_prefix
  mem cs := by
    cases cs with
    | nil => exact .inl rfl
    | cons e rest =>
      rw [exponentPart_cons]
      simp only
      split
      · next h =>
        have hsign := (greedy_optional isSign).mem rest
        exact .inr (mem_exponent.2 ⟨e, _, _, rfl, h.1, hsign, h.2, fun _ => List.mem_takeWhile_imp⟩)
      · exact .inl rfl
  longest := by
    rintro w cs (rfl | hw) hfront
    · simp
    · obtain ⟨e, sign, digits, rfl, he, hsign, hne, hdigits⟩ := mem_exponent.1 hw
      obtain ⟨rest, rfl⟩ := hfront
      have htake : (digits ++ rest).takeWhile Char.isDigit =
          digits ++ rest.takeWhile Char.isDigit := List.takeWhile_append_of_pos hdigits
      have hread : ((sign ++ (digits ++ rest)).take 1).takeWhile isSign = sign := by
        rcases hsign with rfl | ⟨s, hs, rfl⟩
        · obtain ⟨d, digits, rfl⟩ := List.exists_cons_of_ne_nil hne
          have hd : ¬isSign d := fun hd => by
            have hdigit := hdigits d List.mem_cons_self
            rw [isDigit_of_isSign hd] at hdigit
            cases hdigit
          simp [hd]
        · simp [hs]
      simp [exponentPart_cons, hread, htake, he, hne]

theorem mem_exponent_chars {w : List Char} (hw : w ∈ exponent) {c : Char} (hc : c ∈ w) :
    isExponentMark c ∨ isSign c ∨ c.isDigit := by
  obtain ⟨e, sign, digits, rfl, he, hsign, -, hdigits⟩ := mem_exponent.1 hw
  rw [List.cons_append, List.mem_cons, List.mem_append] at hc
  rcases hc with rfl | hc | hc
  · exact .inl he
  · rcases hsign with rfl | ⟨s, hs, rfl⟩
    · cases hc
    · exact .inr (.inl (List.mem_singleton.1 hc ▸ hs))
  · exact .inr (.inr (hdigits c hc))

theorem isFloatMark_apart {c : Char} (h : isFloatMark c) :
    isExponentMark c = false ∧ isSign c = false ∧ c.isDigit = false := by
  simp only [isFloatMark, Bool.or_eq_true, decide_eq_true_eq] at h
  rcases h with rfl | rfl <;> decide

theorem isExponentMark_apart {c : Char} (h : isExponentMark c) : c.isDigit = false ∧ c ≠ '.' := by
  simp only [isExponentMark, Bool.or_eq_true, decide_eq_true_eq] at h
  rcases h with rfl | rfl <;> decide

theorem isUnsignedMark_apart {c : Char} (h : isUnsignedMark c) :
    Numeral.isHexDigit c = false ∧ isHexMark c = false ∧ isExponentMark c = false ∧
      c.isDigit = false ∧ c ≠ '.' := by
  simp only [isUnsignedMark, Bool.or_eq_true, decide_eq_true_eq] at h
  rcases h with rfl | rfl <;> decide

theorem isHexMark_apart {c : Char} (h : isHexMark c) :
    isExponentMark c = false ∧ c.isDigit = false ∧ c ≠ '.' := by
  simp only [isHexMark, Bool.or_eq_true, decide_eq_true_eq] at h
  rcases h with rfl | rfl <;> decide

theorem greedy_floatEnd : Greedy floatEnd fun cs =>
    Lexer.exponentPart cs ++ Lexer.floatSuffix (cs.drop (Lexer.exponentPart cs).length) := by
  refine greedy_exponentPart.append greedy_floatSuffix ?_
  rintro w (rfl | hw) c hc v hv
  · cases hc
  · obtain ⟨hmark, hsign, hdigit⟩ := isFloatMark_apart (cons_mem_optional.1 hv).1
    rcases mem_exponent_chars hw hc with h | h | h <;> simp_all

theorem floatEnd_start {c : Char} {v : List Char} (h : c :: v ∈ floatEnd) : c.isDigit = false := by
  obtain ⟨a, ha, b, hb, hab⟩ := Language.mem_mul.1 h
  rcases ha with rfl | ha
  · obtain rfl : b = c :: v := hab
    exact (isFloatMark_apart (cons_mem_optional.1 hb).1).2.2
  · obtain ⟨e, sign, digits, rfl, he, -⟩ := mem_exponent.1 ha
    obtain rfl : e = c := (List.cons.inj hab).1
    exact (isExponentMark_apart he).1

theorem drop_takeWhile (p : Char → Bool) (cs : List Char) :
    cs.drop (cs.takeWhile p).length = cs.dropWhile p := by
  nth_rewrite 2 [← List.takeWhile_append_dropWhile (p := p) (l := cs)]
  exact List.drop_left

theorem greedy_fraction : Greedy ((oneOf Char.isDigit)∗ * floatEnd) fun cs =>
    cs.takeWhile Char.isDigit ++ (Lexer.exponentPart (cs.dropWhile Char.isDigit) ++
      Lexer.floatSuffix ((cs.dropWhile Char.isDigit).drop
        (Lexer.exponentPart (cs.dropWhile Char.isDigit)).length)) := by
  have h := (greedy_takeWhile Char.isDigit).append greedy_floatEnd fun w hw c hc v hv => by
    have hdigit := mem_oneOf_kstar.1 hw c hc
    rw [floatEnd_start hv] at hdigit
    cases hdigit
  simpa only [drop_takeWhile] using h

theorem greedy_hexadecimal : Greedy ((1 + hexadecimal) * (1 + oneOf isUnsignedMark)) fun cs =>
    Lexer.hexPart cs ++ Lexer.uintSuffix (cs.drop (Lexer.hexPart cs).length) := by
  refine greedy_hexPart.append greedy_uintSuffix ?_
  rintro w (rfl | hw) c hc v hv
  · cases hc
  · have hc' := (cons_mem_optional.1 hv).1
    obtain ⟨hhex, hmark, -⟩ := isUnsignedMark_apart hc'
    obtain ⟨x, digits, rfl, hx, -, hdigits⟩ := mem_hexadecimal.1 hw
    rcases List.mem_cons.1 hc with rfl | hc
    · exact absurd hc' (by decide)
    · rcases List.mem_cons.1 hc with rfl | hc <;> simp_all

theorem run_mul_start {p : Char → Bool} {L : Language Char} {c : Char} {v : List Char}
    (h : c :: v ∈ run p * L) : p c := by
  obtain ⟨a, ha, b, -, hab⟩ := Language.mem_mul.1 h
  obtain ⟨hne, hall⟩ := mem_run.1 ha
  obtain ⟨d, a, rfl⟩ := List.exists_cons_of_ne_nil hne
  obtain rfl : d = c := (List.cons.inj hab).1
  exact hall d List.mem_cons_self

theorem oneOf_mul {p : Char → Bool} {L : Language Char} {w : List Char} :
    w ∈ oneOf p * L ↔ ∃ c v, w = c :: v ∧ p c ∧ v ∈ L := by
  rw [Language.mem_mul]
  constructor
  · rintro ⟨_, ⟨c, hc, rfl⟩, v, hv, rfl⟩
    exact ⟨c, v, rfl, hc, hv⟩
  · rintro ⟨c, v, rfl, hc, hv⟩
    exact ⟨[c], ⟨c, hc, rfl⟩, v, hv, rfl⟩

theorem whole_start {c : Char} {v : List Char} (h : c :: v ∈ whole) : c.isDigit := by
  rcases h with h | h
  · exact (mem_run.1 h).2 c List.mem_cons_self
  · obtain ⟨x, digits, heq, -⟩ := mem_hexadecimal.1 h
    rw [(List.cons.inj heq).1]
    rfl

theorem unsigned_start {c : Char} {v : List Char} (h : c :: v ∈ unsigned) : c.isDigit := by
  obtain ⟨a, ha, b, -, hab⟩ := Language.mem_mul.1 h
  cases a with
  | nil =>
    rcases ha with ha | ha
    · exact absurd rfl (mem_run.1 ha).1
    · obtain ⟨x, digits, heq, -⟩ := mem_hexadecimal.1 ha
      cases heq
  | cons d a =>
    obtain rfl : d = c := (List.cons.inj hab).1
    exact whole_start ha

theorem float_start {c : Char} {v : List Char} (h : c :: v ∈ float) :
    c.isDigit ∨ c = '.' ∧ v ∈ run Char.isDigit * floatEnd := by
  rcases h with (h | h) | h
  · exact .inl (run_mul_start h)
  · obtain ⟨d, u, heq, hd, hu⟩ := oneOf_mul.1 h
    obtain ⟨rfl, rfl⟩ := List.cons.inj heq
    exact .inr ⟨by simpa using hd, hu⟩
  · exact .inl (run_mul_start h)

end Pattern

namespace Lexer

open Pattern

/-- How a word of a pattern can go on after its first character. -/
def Continues (c : Char) (v : List Char) : Prop :=
  if isGapChar c then ∀ d ∈ v, isGapChar d
  else if c = '#' then ∀ d ∈ v, d ≠ '\n'
  else if isIdentStart c then ∀ d ∈ v, isIdentChar d
  else if c.isDigit then c :: v ∈ whole + unsigned + float
  else c = '.' ∧ v ∈ run Char.isDigit * floatEnd ∨ (∃ s : Symbol, c :: v = s.text) ∨
    c = '/' ∧ (v.head? = some '/' ∨ v = ['*'])

namespace Continues

variable {c : Char} {v : List Char}

theorem of_word (hc : isIdentStart c) (hv : ∀ d ∈ v, isIdentChar d) : Continues c v := by
  obtain ⟨-, hgap, hhash⟩ := identStart_apart hc
  rw [Continues, if_neg (by simp [hgap]), if_neg hhash, if_pos hc]
  exact hv

theorem of_texts (hstart : (c :: v).head?.any isIdentStart) (hall : (c :: v).all isIdentChar) :
    Continues c v := by
  refine of_word (by simpa using hstart) fun d hd => ?_
  exact List.all_eq_true.1 hall d (List.mem_cons_of_mem _ hd)

theorem of_number (hc : c.isDigit) (hv : c :: v ∈ whole + unsigned + float) : Continues c v := by
  obtain ⟨-, hgap, hhash, hstart⟩ := digit_apart hc
  rw [Continues, if_neg (by simp [hgap]), if_neg hhash, if_neg (by simp [hstart]), if_pos hc]
  exact hv

theorem of_symbol {s : Symbol} (hv : c :: v = s.text) : Continues c v := by
  obtain ⟨d, more, htext, hgap, hhash, hstart, hdigit, -⟩ := Symbol.text_start s
  obtain ⟨rfl, rfl⟩ := List.cons.inj (hv.trans htext)
  rw [Continues, if_neg (by simp [hgap]), if_neg hhash, if_neg (by simp [hstart]),
    if_neg (by simp [hdigit])]
  exact .inr (.inl ⟨s, hv⟩)

end Continues

theorem pattern_continues {c : Char} {v : List Char} {t : Token} (h : c :: v ∈ t.pattern) :
    Continues c v := by
  cases t with
  | keyword k =>
    have heq : c :: v = k.text := h
    refine .of_texts ?_ ?_
    · rw [heq]
      cases k <;> decide
    · rw [heq]
      cases k <;> decide
  | bool b =>
    have heq : c :: v = if b then "true".toList else "false".toList := h
    refine .of_texts ?_ ?_
    · rw [heq]
      cases b <;> decide
    · rw [heq]
      cases b <;> decide
  | symbol s => exact .of_symbol h
  | int value => exact .of_number (whole_start h) (.inl (.inl h))
  | uint value => exact .of_number (unsigned_start h) (.inl (.inr h))
  | float value =>
    rcases float_start h with hc | ⟨rfl, hv⟩
    · exact .of_number hc (.inr h)
    · exact .inl ⟨rfl, hv⟩
  | ident name =>
    obtain ⟨d, u, heq, hd, hu⟩ := oneOf_mul.1 h
    obtain ⟨rfl, rfl⟩ := List.cons.inj heq
    exact .of_word hd (mem_oneOf_kstar.1 hu)
  | directive text =>
    obtain ⟨d, u, heq, hd, hu⟩ := oneOf_mul.1 h
    obtain ⟨rfl, rfl⟩ := List.cons.inj heq
    obtain rfl : c = '#' := by simpa using hd
    exact fun d hd => by simpa using mem_oneOf_kstar.1 hu d hd

theorem IsLexeme.continues {c : Char} {v : List Char} (h : IsLexeme (c :: v)) : Continues c v := by
  rcases h with ⟨t, ht⟩ | (h | h) | h
  · exact pattern_continues ht
  · obtain ⟨hc, hv⟩ := List.forall_mem_cons.1 (mem_run.1 h).2
    rw [Continues, if_pos hc]
    exact hv
  · rw [lineComment, mul_assoc] at h
    obtain ⟨d, u, heq, hd, hu⟩ := oneOf_mul.1 h
    obtain ⟨rfl, rfl⟩ := List.cons.inj heq
    obtain ⟨e, u, rfl, he, -⟩ := oneOf_mul.1 hu
    obtain rfl : c = '/' := by simpa using hd
    obtain rfl : e = '/' := by simpa using he
    exact .inr (.inr ⟨rfl, .inl rfl⟩)
  · obtain ⟨d, u, heq, hd, e, he, rfl⟩ := oneOf_mul.1 h
    obtain ⟨rfl, rfl⟩ := List.cons.inj heq
    obtain rfl : c = '/' := by simpa using hd
    obtain rfl : e = '*' := by simpa using he
    exact .inr (.inr ⟨rfl, .inr rfl⟩)

end Lexer

end ShaderLift
