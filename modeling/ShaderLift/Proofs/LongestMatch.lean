import Mathlib
import ShaderLift.Proofs.LiteralRanges

/-!
The piece at the front of a text. A token is the longest word of any pattern there, a gap is white
space or one whole comment, and there is an error only where no pattern applies, a literal is out of
range or a comment is not closed.
-/

namespace ShaderLift.Lexer

open scoped Computability
open Pattern

/-- The words of the patterns of numbers, by how they go on after their decimal digits. -/
inductive NumberWord : List Char → Prop
  | digits {ds : List Char} (hds : ∀ d ∈ ds, d.isDigit) : NumberWord ds
  | hexadecimal {w : List Char} (hw : w ∈ Pattern.hexadecimal * (1 + oneOf isUnsignedMark)) :
      NumberWord w
  | marked {ds : List Char} {u : Char} (hds : ∀ d ∈ ds, d.isDigit) (hu : isUnsignedMark u) :
      NumberWord (ds ++ [u])
  | pointed {ds tail : List Char} (hds : ∀ d ∈ ds, d.isDigit)
      (htail : tail ∈ (oneOf Char.isDigit)∗ * floatEnd) : NumberWord (ds ++ '.' :: tail)
  | scaled {ds tail : List Char} (hds : ∀ d ∈ ds, d.isDigit)
      (htail : tail ∈ exponent * (1 + oneOf isFloatMark)) : NumberWord (ds ++ tail)

theorem numberWord_of_mem {w : List Char} (h : w ∈ whole + unsigned + float) : NumberWord w := by
  rcases h with ((h | h) | h) | (h | h) | h
  · exact .digits (mem_run.1 h).2
  · refine .hexadecimal ?_
    simpa using Language.append_mem_mul h (show [] ∈ 1 + oneOf isUnsignedMark from .inl rfl)
  · obtain ⟨a, ha, b, ⟨u, hu, rfl⟩, rfl⟩ := Language.mem_mul.1 h
    rcases ha with ha | ha
    · exact .marked (mem_run.1 ha).2 hu
    · exact .hexadecimal (Language.append_mem_mul ha (.inr ⟨u, hu, rfl⟩))
  · obtain ⟨ds, hds, b, hb, rfl⟩ := Language.mem_mul.1 h
    obtain ⟨c, tail, rfl, hc, htail⟩ := oneOf_mul.1 hb
    obtain rfl : c = '.' := by simpa using hc
    exact .pointed (mem_run.1 hds).2 htail
  · obtain ⟨c, tail, rfl, hc, htail⟩ := oneOf_mul.1 h
    obtain rfl : c = '.' := by simpa using hc
    obtain ⟨ds, hds, b, hb, rfl⟩ := Language.mem_mul.1 htail
    have htail := Language.append_mem_mul (mem_oneOf_kstar.2 (mem_run.1 hds).2) hb
    exact List.nil_append _ ▸ .pointed (List.forall_mem_nil _) htail
  · obtain ⟨ds, hds, tail, htail, rfl⟩ := Language.mem_mul.1 h
    exact .scaled (mem_run.1 hds).2 htail

/-- Where digits end is settled by the character after them. -/
theorem digits_split {ds tail cs : List Char} {z : Char} (hds : ∀ d ∈ ds, d.isDigit)
    (hz : z.isDigit = false) (h : ds ++ z :: tail <+: cs) :
    cs.takeWhile Char.isDigit = ds ∧ z :: tail <+: cs.dropWhile Char.isDigit := by
  obtain ⟨rest, rfl⟩ := h
  have hstop : Stops Char.isDigit (z :: (tail ++ rest)) := stops_cons hz
  rw [List.append_assoc, List.cons_append, takeWhile_append_stops hds hstop,
    dropWhile_append_stops hds hstop]
  exact ⟨rfl, List.prefix_append _ _⟩

variable {cs : List Char}

theorem number_of_hex (h : hexPart cs ≠ []) :
    number cs = (integerPiece (hexPart cs) (!(uintSuffix (cs.drop (hexPart cs).length)).isEmpty),
      hexPart cs ++ uintSuffix (cs.drop (hexPart cs).length)) := by
  simp [number, h]

theorem number_of_point {rest : List Char} (hhex : hexPart cs = [])
    (h : cs.dropWhile Char.isDigit = '.' :: rest) :
    number cs =
      (floatPiece (cs.takeWhile Char.isDigit) (rest.takeWhile Char.isDigit)
          (exponentPart (rest.dropWhile Char.isDigit)),
        cs.takeWhile Char.isDigit ++ '.' :: (rest.takeWhile Char.isDigit ++
          (exponentPart (rest.dropWhile Char.isDigit) ++
            floatSuffix ((rest.dropWhile Char.isDigit).drop
              (exponentPart (rest.dropWhile Char.isDigit)).length)))) := by
  simp [number, hhex, h]

theorem number_of_rest (hhex : hexPart cs = [])
    (hpoint : (cs.dropWhile Char.isDigit).head? ≠ some '.') :
    number cs =
      if exponentPart (cs.dropWhile Char.isDigit) = [] then
        (integerPiece (cs.takeWhile Char.isDigit)
            (!(uintSuffix (cs.dropWhile Char.isDigit)).isEmpty),
          cs.takeWhile Char.isDigit ++ uintSuffix (cs.dropWhile Char.isDigit))
      else
        (floatPiece (cs.takeWhile Char.isDigit) [] (exponentPart (cs.dropWhile Char.isDigit)),
          cs.takeWhile Char.isDigit ++ (exponentPart (cs.dropWhile Char.isDigit) ++
            floatSuffix ((cs.dropWhile Char.isDigit).drop
              (exponentPart (cs.dropWhile Char.isDigit)).length))) := by
  unfold number
  simp only [hhex, List.isEmpty_nil, Bool.not_true, Bool.false_eq_true, if_false]
  split
  · next heq => simp [heq] at hpoint
  · simp only [List.isEmpty_iff, List.append_assoc]

theorem hexPart_mem (h : hexPart cs ≠ []) : hexPart cs ∈ Pattern.hexadecimal :=
  (greedy_hexPart.mem cs).resolve_left h

theorem exponentPart_mem (h : exponentPart cs ≠ []) : exponentPart cs ∈ exponent :=
  (greedy_exponentPart.mem cs).resolve_left h

theorem hexPart_digits_split (h : hexPart cs ≠ []) :
    ∃ x rest, isHexMark x ∧ cs.takeWhile Char.isDigit = ['0'] ∧
      cs.dropWhile Char.isDigit = x :: rest := by
  obtain ⟨x, digits, heq, hx, -⟩ := mem_hexadecimal.1 (hexPart_mem h)
  obtain ⟨rest, hrest⟩ := greedy_hexPart.front cs
  refine ⟨x, digits ++ rest, hx, ?_⟩
  rw [← hrest, heq]
  simp [(isHexMark_apart hx).2.1]

theorem exponent_start {tail : List Char} {L : Language Char} (h : tail ∈ exponent * L) :
    ∃ e more, tail = e :: more ∧ isExponentMark e := by
  obtain ⟨a, ha, b, -, rfl⟩ := Language.mem_mul.1 h
  obtain ⟨e, sign, digits, rfl, he, -⟩ := mem_exponent.1 ha
  exact ⟨e, _, rfl, he⟩

theorem exponentPart_ne_nil {a b : List Char} (ha : a ∈ exponent) (h : a ++ b <+: cs) :
    exponentPart cs ≠ [] := by
  have hle := greedy_exponentPart.longest (.inr ha) ((List.prefix_append a b).trans h)
  obtain ⟨e, sign, digits, rfl, -⟩ := mem_exponent.1 ha
  intro hnil
  simp [hnil] at hle

theorem number_longest_hex (hhex : hexPart cs ≠ []) {w : List Char} (hw : NumberWord w)
    (h : w <+: cs) : w.length ≤ (number cs).2.length := by
  obtain ⟨x, rest, hx, htake, hdrop⟩ := hexPart_digits_split hhex
  obtain ⟨hexponent, -, hpoint⟩ := isHexMark_apart hx
  rw [number_of_hex hhex]
  cases hw with
  | digits hds =>
    have hle := (greedy_takeWhile Char.isDigit).longest (mem_oneOf_kstar.2 hds) h
    have hpos := List.length_pos_iff.2 hhex
    rw [htake, List.length_singleton] at hle
    rw [List.length_append]
    omega
  | hexadecimal hw =>
    obtain ⟨a, ha, b, hb, rfl⟩ := Language.mem_mul.1 hw
    exact greedy_hexadecimal.longest (Language.append_mem_mul (.inr ha) hb) h
  | marked hds hu =>
    obtain ⟨-, hmark, -, hdigit, -⟩ := isUnsignedMark_apart hu
    have hrest := (digits_split hds hdigit h).2
    rw [hdrop, List.cons_prefix_cons] at hrest
    simp [hrest.1, hx] at hmark
  | pointed hds htail =>
    have hrest := (digits_split hds (by decide) h).2
    rw [hdrop, List.cons_prefix_cons] at hrest
    exact absurd hrest.1.symm hpoint
  | scaled hds htail =>
    obtain ⟨e, more, rfl, he⟩ := exponent_start htail
    have hrest := (digits_split hds (isExponentMark_apart he).1 h).2
    rw [hdrop, List.cons_prefix_cons] at hrest
    simp [← hrest.1, he] at hexponent

theorem number_takes_digits (cs : List Char) (hhex : hexPart cs = []) :
    (cs.takeWhile Char.isDigit).length ≤ (number cs).2.length := by
  by_cases hpoint : (cs.dropWhile Char.isDigit).head? = some '.'
  · obtain ⟨rest, hrest⟩ := List.head?_eq_some_iff.1 hpoint
    rw [number_of_point hhex hrest, List.length_append]
    omega
  · rw [number_of_rest hhex hpoint]
    split <;> simp

theorem number_longest_decimal (hhex : hexPart cs = []) {w : List Char} (hw : NumberWord w)
    (h : w <+: cs) : w.length ≤ (number cs).2.length := by
  cases hw with
  | digits hds =>
    exact ((greedy_takeWhile Char.isDigit).longest (mem_oneOf_kstar.2 hds) h).trans
      (number_takes_digits cs hhex)
  | hexadecimal hw =>
    obtain ⟨a, ha, b, -, rfl⟩ := Language.mem_mul.1 hw
    have hle := greedy_hexPart.longest (.inr ha) ((List.prefix_append a b).trans h)
    obtain ⟨x, digits, rfl, -⟩ := mem_hexadecimal.1 ha
    simp [hhex] at hle
  | @marked ds u hds hu =>
    obtain ⟨-, -, hmark, hdigit, hpoint⟩ := isUnsignedMark_apart hu
    obtain ⟨htake, hrest⟩ := digits_split hds hdigit h
    have hsuffix := greedy_uintSuffix.longest (.inr ⟨u, hu, rfl⟩) hrest
    obtain ⟨rest, hdrop⟩ := hrest
    have hexponent : exponentPart (cs.dropWhile Char.isDigit) = [] := by
      rw [← hdrop, List.singleton_append, exponentPart_cons]
      simp [hmark]
    rw [number_of_rest hhex (by simpa [← hdrop] using hpoint), if_pos hexponent, htake]
    simp only [List.length_append]
    omega
  | @pointed ds tail hds htail =>
    obtain ⟨htake, rest, hdrop⟩ := digits_split hds (by decide) h
    rw [List.cons_append] at hdrop
    have hle := greedy_fraction.longest htail (List.prefix_append tail rest)
    rw [number_of_point hhex hdrop.symm, htake]
    simp only [List.length_append, List.length_cons] at hle ⊢
    omega
  | @scaled ds tail hds htail =>
    obtain ⟨e, more, rfl, he⟩ := exponent_start htail
    obtain ⟨hdigit, hpoint⟩ := isExponentMark_apart he
    obtain ⟨htake, hrest⟩ := digits_split hds hdigit h
    obtain ⟨a, ha, b, hb, hab⟩ := Language.mem_mul.1 htail
    rw [← hab] at hrest ⊢
    have hexponent := exponentPart_ne_nil ha hrest
    have hle := greedy_floatEnd.longest (Language.append_mem_mul (.inr ha) hb) hrest
    rw [hab] at hrest
    obtain ⟨rest, hdrop⟩ := hrest
    rw [number_of_rest hhex (by simpa [← hdrop] using hpoint), if_neg hexponent, htake]
    simp only [List.length_append] at hle ⊢
    omega

theorem number_longest {w : List Char} (hw : NumberWord w) (h : w <+: cs) :
    w.length ≤ (number cs).2.length := by
  by_cases hhex : hexPart cs = []
  · exact number_longest_decimal hhex hw h
  · exact number_longest_hex hhex hw h

def Longest (w cs : List Char) : Prop := ∀ v, IsLexeme v → v <+: cs → v.length ≤ w.length

/-- White space and comments, before what comes next. A comment that starts with two slashes goes on
to the end of the line, any other to the first end of a comment. -/
inductive Skipped : List Char → List Char → Prop
  | nil {after : List Char} : Skipped [] after
  | blank {c : Char} {gap after : List Char} (hc : c ∈ [' ', '\t', '\r', '\n', '\x0c'])
      (h : Skipped gap after) : Skipped (c :: gap) after
  | line {body gap after : List Char} (hbody : '\n' ∉ body)
      (hend : ∀ c ∈ (gap ++ after).head?, c = '\n') (h : Skipped gap after) :
      Skipped ('/' :: '/' :: (body ++ gap)) after
  | block {body gap after : List Char} (hbody : ¬['*', '/'] <:+: body) (h : Skipped gap after) :
      Skipped ('/' :: '*' :: (body ++ '*' :: '/' :: gap)) after

/-- A character that no pattern starts with, a literal out of range, or a comment that is not closed
before the end of the source. -/
inductive Misfit : List Char → List Char → Prop
  | stray {c : Char} {after : List Char} (hc : ∀ v, ¬IsLexeme (c :: v)) : Misfit [c] after
  | literal {w after : List Char} (hw : OutOfRange w) (hlongest : Longest w (w ++ after)) :
      Misfit w after
  | comment {body : List Char} (hbody : ¬['*', '/'] <:+: body) : Misfit ('/' :: '*' :: body) []

/-- The characters are such a piece, before what comes next. -/
def Piece.Fits (w after : List Char) : Piece → Prop
  | .gap => Skipped w after
  | .token t => w ∈ t.pattern ∧ Longest w (w ++ after)
  | .error => Misfit w after

/-- The piece that is read is at the front of the text, is not empty and is what it should be. -/
def Found (cs : List Char) (read : Piece × List Char) : Prop :=
  read.2 ≠ [] ∧ ∃ after, cs = read.2 ++ after ∧ read.1.Fits read.2 after

theorem integerPiece_fits {digits suffix after : List Char} (hdigits : digits ∈ whole)
    (hsuffix : suffix ∈ 1 + oneOf isUnsignedMark)
    (hlongest : Longest (digits ++ suffix) (digits ++ suffix ++ after)) :
    (integerPiece digits (!suffix.isEmpty)).Fits (digits ++ suffix) after := by
  unfold integerPiece
  cases hvalue : integerValue digits with
  | none =>
    refine .literal (.of_integer hdigits ?_ hvalue) hlongest
    rcases hsuffix with rfl | ⟨u, hu, rfl⟩
    · exact .inl rfl
    · exact .inr (by simpa [isUnsignedMark] using hu)
  | some n =>
    refine ⟨?_, hlongest⟩
    rcases hsuffix with rfl | ⟨u, hu, rfl⟩
    · rw [List.append_nil]
      exact hdigits
    · exact Language.append_mem_mul hdigits ⟨u, hu, rfl⟩

theorem floatPiece_fits {text whole fraction exponent after : List Char}
    (htext : RealText text (realValue whole fraction exponent))
    (hlongest : Longest text (text ++ after)) :
    (floatPiece whole fraction exponent).Fits text after := by
  unfold floatPiece
  split
  · exact ⟨htext.mem_float, hlongest⟩
  · next hnone => exact .literal (.of_real htext hnone) hlongest

theorem digits_append {x : List Char} (h : x <+: cs.dropWhile Char.isDigit) :
    cs.takeWhile Char.isDigit ++ x <+: cs := by
  nth_rewrite 2 [← List.takeWhile_append_dropWhile (p := Char.isDigit) (l := cs)]
  exact (List.prefix_append_right_inj _).2 h

theorem number_found (hlongest : Longest (number cs).2 cs)
    (hstart : cs.takeWhile Char.isDigit ≠ [] ∨
      ∃ rest, cs = '.' :: rest ∧ rest.takeWhile Char.isDigit ≠ []) : Found cs (number cs) := by
  have hwhole : ∀ c ∈ cs.takeWhile Char.isDigit, c.isDigit := fun _ => List.mem_takeWhile_imp
  by_cases hhex : hexPart cs = []
  · by_cases hpoint : (cs.dropWhile Char.isDigit).head? = some '.'
    · obtain ⟨rest, hrest⟩ := List.head?_eq_some_iff.1 hpoint
      rw [number_of_point hhex hrest] at hlongest ⊢
      have hfront := greedy_fraction.front rest
      obtain ⟨after, hafter⟩ := digits_append (hrest ▸ List.cons_prefix_cons.2 ⟨rfl, hfront⟩)
      refine ⟨by simp, after, hafter.symm, floatPiece_fits ?_ ?_⟩
      · refine .pointed hwhole (fun _ => List.mem_takeWhile_imp) ?_ (greedy_exponentPart.mem _)
          (greedy_floatSuffix.mem _)
        refine hstart.imp_right ?_
        rintro ⟨more, rfl, hmore⟩
        obtain rfl : more = rest := by simpa using hrest
        exact hmore
      · rw [hafter]
        exact hlongest
    · have hdigits : cs.takeWhile Char.isDigit ≠ [] := by
        refine hstart.resolve_right ?_
        rintro ⟨more, rfl, -⟩
        simp at hpoint
      rw [number_of_rest hhex hpoint] at hlongest ⊢
      split_ifs at hlongest ⊢ with hexponent
      · obtain ⟨after, hafter⟩ := digits_append (greedy_uintSuffix.front _)
        refine ⟨by simp [hdigits], after, hafter.symm, integerPiece_fits ?_ ?_ ?_⟩
        · exact .inl (mem_run.2 ⟨hdigits, hwhole⟩)
        · exact greedy_uintSuffix.mem _
        · rw [hafter]
          exact hlongest
      · obtain ⟨after, hafter⟩ := digits_append (greedy_floatEnd.front _)
        refine ⟨by simp [hdigits], after, hafter.symm, floatPiece_fits ?_ ?_⟩
        · exact .scaled hdigits hwhole (exponentPart_mem hexponent) (greedy_floatSuffix.mem _)
        · rw [hafter]
          exact hlongest
  · rw [number_of_hex hhex] at hlongest ⊢
    obtain ⟨after, hafter⟩ := greedy_hexadecimal.front cs
    refine ⟨by simp [hhex], after, hafter.symm, integerPiece_fits ?_ ?_ ?_⟩
    · exact .inr (hexPart_mem hhex)
    · exact greedy_uintSuffix.mem _
    · rw [hafter]
      exact hlongest

theorem longest_cons {c : Char} {rest w : List Char}
    (h : ∀ v, Continues c v → v <+: rest → v.length < w.length) : Longest w (c :: rest) := by
  intro v hv hfront
  cases v with
  | nil => simp
  | cons d v =>
    obtain ⟨rfl, hrest⟩ := List.cons_prefix_cons.1 hfront
    exact h v hv.continues hrest

theorem number_found_digit {c : Char} (hc : c.isDigit) (rest : List Char) :
    Found (c :: rest) (number (c :: rest)) := by
  refine number_found (longest_cons fun v hv hfront => ?_) (.inl (by simp [hc]))
  obtain ⟨-, hgap, hhash, hstart⟩ := digit_apart hc
  simp only [Continues, hgap, hhash, hstart, hc, Bool.false_eq_true, if_false, if_true] at hv
  exact number_longest (numberWord_of_mem hv) (List.cons_prefix_cons.2 ⟨rfl, hfront⟩)

theorem number_found_point {rest : List Char} (hrest : rest.head?.any Char.isDigit) :
    Found ('.' :: rest) (number ('.' :: rest)) := by
  obtain ⟨d, more, rfl⟩ : ∃ d more, rest = d :: more := by
    cases rest with
    | nil => simp at hrest
    | cons d more => exact ⟨d, more, rfl⟩
  have hd : d.isDigit := by simpa using hrest
  refine number_found (longest_cons fun v hv hfront => ?_) (.inr ⟨_, rfl, by simp [hd]⟩)
  have hpointed : ∀ u, u ∈ (oneOf Char.isDigit)∗ * floatEnd → u <+: d :: more →
      u.length < (number ('.' :: d :: more)).2.length := fun u hu hfront =>
    number_longest (.pointed (List.forall_mem_nil _) hu) (List.cons_prefix_cons.2 ⟨rfl, hfront⟩)
  rcases (hv : _ ∨ _) with ⟨-, hv⟩ | ⟨s, hs⟩ | ⟨h, -⟩
  · obtain ⟨ds, hds, tail, htail, rfl⟩ := Language.mem_mul.1 hv
    have hmem := Language.append_mem_mul (mem_oneOf_kstar.2 (mem_run.1 hds).2) htail
    exact hpointed _ hmem hfront
  · -- the only symbol with a point in front is the point itself
    obtain ⟨c, u, htext, -, -, -, -, hdot, -⟩ := Symbol.text_start s
    obtain ⟨rfl, rfl⟩ := List.cons.inj (hs.trans htext)
    rw [(hdot rfl).2]
    have hend : [] ∈ floatEnd := Language.append_mem_mul
      (show [] ∈ 1 + exponent from .inl rfl) (show [] ∈ 1 + oneOf isFloatMark from .inl rfl)
    exact hpointed [] (Language.append_mem_mul (Language.nil_mem_kstar _) hend) List.nil_prefix
  · cases h

theorem word_pattern {name : List Char} (hname : name ∈ Pattern.name) :
    name ∈ (word name).pattern := by
  unfold word
  split
  · next k hk =>
    have htext : k.text = name := by simpa using List.find?_some hk
    exact htext.symm
  · split_ifs with htrue hfalse
    · exact htrue
    · exact hfalse
    · exact hname

theorem takeWhile_found {c : Char} {rest : List Char} {p : Char → Bool} {t : Token} (hc : p c)
    (hmem : (c :: rest).takeWhile p ∈ t.pattern) (h : ∀ v, Continues c v → ∀ d ∈ v, p d) :
    Found (c :: rest) (.token t, (c :: rest).takeWhile p) := by
  obtain ⟨after, hafter⟩ := List.takeWhile_prefix p (l := c :: rest)
  refine ⟨by simp [hc], after, hafter.symm, hmem, ?_⟩
  rw [hafter]
  refine longest_cons fun v hv hfront => ?_
  have hle := (greedy_takeWhile p).longest (mem_oneOf_kstar.2 (h v hv)) hfront
  rw [List.takeWhile_cons_of_pos hc, List.length_cons]
  omega

theorem directive_found (rest : List Char) :
    Found ('#' :: rest)
      (.token (.directive (String.ofList (Text.trimEnd (('#' :: rest).takeWhile (· ≠ '\n'))))),
        ('#' :: rest).takeWhile (· ≠ '\n')) := by
  refine takeWhile_found (by decide) ?_ fun v hv d hd => by simpa using hv d hd
  rw [List.takeWhile_cons_of_pos (by decide)]
  refine oneOf_mul.2 ⟨'#', _, rfl, by decide, mem_oneOf_kstar.2 fun _ => ?_⟩
  exact List.mem_takeWhile_imp

theorem word_found {c : Char} (hc : isIdentStart c) (rest : List Char) :
    Found (c :: rest) (.token (word ((c :: rest).takeWhile isIdentChar)),
      (c :: rest).takeWhile isIdentChar) := by
  obtain ⟨-, hgap, hhash⟩ := identStart_apart hc
  have hchar := isIdentChar_of_isIdentStart hc
  refine takeWhile_found hchar (word_pattern ?_) fun v hv => ?_
  · rw [List.takeWhile_cons_of_pos hchar]
    refine oneOf_mul.2 ⟨c, _, rfl, hc, mem_oneOf_kstar.2 fun _ => ?_⟩
    exact List.mem_takeWhile_imp
  · simpa [Continues, hgap, hhash, hc] using hv

theorem isGapChar_iff {c : Char} : isGapChar c ↔ c ∈ [' ', '\t', '\r', '\n', '\x0c'] := by
  simp [isGapChar, or_assoc]

theorem skipped_blanks {gap after : List Char} (h : ∀ c ∈ gap, isGapChar c) :
    Skipped gap after := by
  induction gap with
  | nil => exact .nil
  | cons c gap ih =>
    obtain ⟨hc, hgap⟩ := List.forall_mem_cons.1 h
    exact .blank (isGapChar_iff.1 hc) (ih hgap)

theorem Symbol.text_of_ofText? {cs : List Char} {s : Symbol} (h : Symbol.ofText? cs = some s) :
    s.text = cs := by
  simpa using List.find?_some h

theorem Symbol.length_text_le (s : Symbol) : s.text.length ≤ 2 := by
  cases s <;> decide

theorem Symbol.starts_with_symbol (s : Symbol) : (Symbol.ofText? (s.text.take 1)).isSome := by
  cases s <;> decide

/-- A character that starts neither white space nor a directive, a word or a number. -/
structure StartsSymbol (c : Char) : Prop where
  gap : isGapChar c = false
  hash : c ≠ '#'
  letter : isIdentStart c = false
  digit : c.isDigit = false

namespace StartsSymbol

variable {c : Char} {rest : List Char}

theorem continues (hc : StartsSymbol c) {v : List Char} (hv : Continues c v) :
    c = '.' ∧ v ∈ run Char.isDigit * floatEnd ∨ (∃ s : Symbol, c :: v = s.text) ∨
      c = '/' ∧ (v.head? = some '/' ∨ v = ['*']) := by
  simpa [Continues, hc.gap, hc.hash, hc.letter, hc.digit] using hv

theorem symbols (hc : StartsSymbol c) (hpoint : c = '.' → rest.head?.any Char.isDigit = false)
    (hslash : c = '/' → rest.head? ≠ some '/' ∧ rest.head? ≠ some '*') {v : List Char}
    (hv : Continues c v) (hfront : v <+: rest) : ∃ s : Symbol, c :: v = s.text := by
  obtain ⟨more, rfl⟩ := hfront
  rcases hc.continues hv with ⟨rfl, hnumber⟩ | hs | ⟨rfl, hline | rfl⟩
  · cases v with
    | nil =>
      obtain ⟨a, ha, b, -, hab⟩ := Language.mem_mul.1 hnumber
      exact absurd (List.append_eq_nil_iff.1 hab).1 (mem_run.1 ha).1
    | cons d u => simp [run_mul_start hnumber] at hpoint
  · exact hs
  · obtain ⟨u, rfl⟩ := List.head?_eq_some_iff.1 hline
    simp at hslash
  · simp at hslash

theorem stray (hc : StartsSymbol c) (h : Symbol.ofText? [c] = none) (v : List Char) :
    ¬IsLexeme (c :: v) := by
  intro hv
  rcases hc.continues hv.continues with ⟨rfl, -⟩ | ⟨s, hs⟩ | ⟨rfl, -⟩
  · exact absurd h (by decide)
  · have hstart := Symbol.starts_with_symbol s
    simp [← hs, h] at hstart
  · exact absurd h (by decide)

theorem found (hc : StartsSymbol c) (hpoint : c = '.' → rest.head?.any Char.isDigit = false)
    (hslash : c = '/' → rest.head? ≠ some '/' ∧ rest.head? ≠ some '*') :
    Found (c :: rest) (symbol (c :: rest)) := by
  have hsymbols := fun v (hv : Continues c v) => hc.symbols hpoint hslash hv
  cases htwo : Symbol.ofText? ((c :: rest).take 2) with
  | some s =>
    have hread : symbol (c :: rest) = (.token (.symbol s), s.text) := by rw [symbol, htwo]
    have htext := Symbol.text_of_ofText? htwo
    obtain ⟨after, hafter⟩ := List.take_prefix 2 (c :: rest)
    rw [← htext] at hafter
    rw [hread]
    refine ⟨by simp [htext], after, hafter.symm, rfl, ?_⟩
    simp only [hafter]
    rw [htext]
    refine longest_cons fun v hv hfront => ?_
    obtain ⟨s', hs'⟩ := hsymbols v hv hfront
    have hlength := Symbol.length_text_le s'
    have hle := hfront.length_le
    simp only [← hs', List.length_cons, List.length_take] at hlength ⊢
    omega
  | none =>
    cases hone : Symbol.ofText? ((c :: rest).take 1) with
    | some s =>
      have hread : symbol (c :: rest) = (.token (.symbol s), s.text) := by rw [symbol, htwo, hone]
      have htext : s.text = [c] := Symbol.text_of_ofText? hone
      rw [hread]
      refine ⟨by simp [htext], rest, by simp [htext], rfl, ?_⟩
      simp only [htext, List.singleton_append]
      refine longest_cons fun v hv hfront => ?_
      obtain ⟨s', hs'⟩ := hsymbols v hv hfront
      cases v with
      | nil => simp
      | cons d u =>
        -- a longer symbol would be the first two characters
        obtain ⟨more, rfl⟩ := hfront
        have hlength := Symbol.length_text_le s'
        obtain rfl : u = [] := by simpa [← hs'] using hlength
        have hpair : Symbol.ofText? [c, d] = none := htwo
        rw [hs', Symbol.ofText?_text] at hpair
        cases hpair
    | none =>
      have hread : symbol (c :: rest) = (.error, [c]) := by
        rw [symbol, htwo, hone]
        rfl
      rw [hread]
      exact ⟨by simp, rest, rfl, .stray (hc.stray hone)⟩

end StartsSymbol

theorem comment_end_cons {c : Char} {cs body : List Char} (hfront : body <+: cs)
    (hend : ∀ rest, c = '*' → cs = '/' :: rest → False) (h : ¬['*', '/'] <:+: body) :
    ¬['*', '/'] <:+: c :: body := by
  rw [List.infix_cons_iff]
  rintro (hcons | hmore)
  · obtain ⟨rfl, hslash⟩ := List.cons_prefix_cons.1 hcons
    obtain ⟨rest, hrest⟩ := hslash.trans hfront
    exact hend rest rfl hrest.symm
  · exact h hmore

theorem blockComment_some {cs comment : List Char} (h : blockComment cs = some comment) :
    ∃ body after, comment = body ++ ['*', '/'] ∧ cs = comment ++ after ∧ ¬['*', '/'] <:+: body := by
  fun_induction blockComment cs generalizing comment with
  | case1 rest =>
    obtain rfl := Option.some.inj h
    exact ⟨[], rest, rfl, rfl, by simp⟩
  | case2 c cs hend ih =>
    obtain ⟨comment, hcomment, rfl⟩ := Option.map_eq_some_iff.1 h
    obtain ⟨body, after, rfl, rfl, hbody⟩ := ih hcomment
    refine ⟨c :: body, after, rfl, rfl, comment_end_cons ?_ hend hbody⟩
    rw [List.append_assoc]
    exact List.prefix_append _ _
  | case3 => cases h

theorem blockComment_none {cs : List Char} (h : blockComment cs = none) : ¬['*', '/'] <:+: cs := by
  fun_induction blockComment cs with
  | case1 rest => cases h
  | case2 c cs hend ih =>
    exact comment_end_cons (List.prefix_refl _) hend (ih (Option.map_eq_none_iff.1 h))
  | case3 => simp

theorem lineComment_skipped (rest : List Char) :
    Skipped ('/' :: '/' :: rest.takeWhile (· ≠ '\n')) (rest.dropWhile (· ≠ '\n')) := by
  have hbody : '\n' ∉ rest.takeWhile (· ≠ '\n') := fun h => by simpa using List.mem_takeWhile_imp h
  have hend : ∀ c ∈ (rest.dropWhile (· ≠ '\n')).head?, c = '\n' := by
    intro c hc
    have := List.head?_dropWhile_not (· ≠ '\n') rest
    rw [Option.mem_def.1 hc] at this
    simpa using this
  have h : Skipped ('/' :: '/' :: (rest.takeWhile (· ≠ '\n') ++ [])) _ := .line hbody hend .nil
  rwa [List.append_nil] at h

theorem blockComment_skipped {body after : List Char} (hbody : ¬['*', '/'] <:+: body) :
    Skipped ('/' :: '*' :: (body ++ ['*', '/'])) after :=
  .block hbody .nil

/-- At the front of every text that is not empty there is a piece, and it is what it should be. -/
theorem piece_found (hne : cs ≠ []) : Found cs (piece cs) := by
  unfold piece
  split
  · exact absurd rfl hne
  · next rest =>
    refine ⟨by simp, rest.dropWhile (· ≠ '\n'), ?_, lineComment_skipped rest⟩
    simp
  · next rest =>
    split
    · next comment hcomment =>
      obtain ⟨body, after, rfl, rfl, hbody⟩ := blockComment_some hcomment
      exact ⟨by simp, after, rfl, blockComment_skipped hbody⟩
    · next hcomment => exact ⟨by simp, [], by simp, .comment (blockComment_none hcomment)⟩
  · next c rest hline hblock =>
    split_ifs with hgap hhash hletter hnumber
    · have hsplit := List.takeWhile_append_dropWhile (p := isGapChar) (l := c :: rest)
      exact ⟨by simp [hgap], _, hsplit.symm, skipped_blanks fun _ => List.mem_takeWhile_imp⟩
    · subst hhash
      exact directive_found rest
    · exact word_found hletter rest
    · simp only [Bool.or_eq_true, Bool.and_eq_true, decide_eq_true_eq] at hnumber
      rcases hnumber with hdigit | ⟨rfl, hrest⟩
      · exact number_found_digit hdigit rest
      · exact number_found_point hrest
    · rw [Bool.or_eq_true, not_or, Bool.and_eq_true, decide_eq_true_eq, not_and] at hnumber
      have hc : StartsSymbol c := ⟨by simpa using hgap, hhash, by simpa using hletter,
        by simpa using hnumber.1⟩
      refine hc.found (fun h => by simpa using hnumber.2 h) fun h => ⟨?_, ?_⟩ <;> intro hhead
      · obtain ⟨more, hmore⟩ := List.head?_eq_some_iff.1 hhead
        exact hline more h hmore
      · obtain ⟨more, hmore⟩ := List.head?_eq_some_iff.1 hhead
        exact hblock more h hmore

end ShaderLift.Lexer
