import Mathlib
import ShaderLift.Proofs.Lexing

/-!
Integer literals of any length. The digits of one denote a number in base ten, eight or sixteen, and
a source that consists of them is cut into one token with that number, or into one error where 32
bits do not hold it.
-/

namespace ShaderLift

namespace Numeral

theorem value_eq_ofDigits (base : Nat) (digits : List Char) :
    value base digits = Nat.ofDigits base (digits.map digitValue).reverse := by
  induction digits using List.reverseRecOn with
  | nil => rfl
  | append_singleton digits c ih =>
    simp only [value, List.foldl_append, List.foldl_cons, List.foldl_nil, List.map_append,
      List.map_cons, List.map_nil, List.reverse_append, List.reverse_singleton,
      List.singleton_append, Nat.ofDigits_cons] at ih ⊢
    rw [ih, Nat.add_comm]

/-- The digits of a whole number, as literals have them: decimal ones have no zero in front, octal
ones come after a zero, hexadecimal ones after a zero and an `x`. -/
inductive WholeText : List Char → Nat → Prop
  | decimal {digits : List Char} (hne : digits ≠ []) (hdigits : ∀ c ∈ digits, c.isDigit)
      (hzero : digits.head? = some '0' → digits = ['0']) :
      WholeText digits (Nat.ofDigits 10 (digits.map digitValue).reverse)
  | octal {digits : List Char} (hne : digits ≠ []) (hdigits : ∀ c ∈ digits, '0' ≤ c ∧ c ≤ '7') :
      WholeText ('0' :: digits) (Nat.ofDigits 8 (digits.map digitValue).reverse)
  | hexadecimal {x : Char} {digits : List Char} (hx : x = 'x' ∨ x = 'X') (hne : digits ≠ [])
      (hdigits : ∀ c ∈ digits, isHexDigit c) :
      WholeText ('0' :: x :: digits) (Nat.ofDigits 16 (digits.map digitValue).reverse)

end Numeral

namespace Lexer

open Numeral

def IsSuffix (suffix : List Char) : Prop := suffix = [] ∨ suffix = ['u'] ∨ suffix = ['U']

theorem number_digits {digits suffix : List Char} (hdigits : ∀ c ∈ digits, c.isDigit)
    (hne : digits ≠ []) (hsuffix : IsSuffix suffix) :
    number (digits ++ suffix) = (integerPiece digits (!suffix.isEmpty), digits ++ suffix) := by
  have hhex : hexPart (digits ++ suffix) = [] := by
    refine hexPart_digits hdigits hne ?_
    rcases hsuffix with rfl | rfl | rfl <;> simp
  have hstop : Stops Char.isDigit suffix := by
    rcases hsuffix with rfl | rfl | rfl <;> simp [Stops]
  simp only [number, hhex, List.isEmpty_nil, Bool.not_true, Bool.false_eq_true, if_false,
    takeWhile_append_stops hdigits hstop, dropWhile_append_stops hdigits hstop]
  rcases hsuffix with rfl | rfl | rfl <;> simp [exponentPart, uintSuffix]

theorem number_hex {x : Char} {digits suffix : List Char} (hx : x = 'x' ∨ x = 'X')
    (hne : digits ≠ []) (hdigits : ∀ c ∈ digits, isHexDigit c) (hsuffix : IsSuffix suffix) :
    number ('0' :: x :: digits ++ suffix) =
      (integerPiece ('0' :: x :: digits) (!suffix.isEmpty), '0' :: x :: digits ++ suffix) := by
  have hstop : Stops isHexDigit suffix := by
    rcases hsuffix with rfl | rfl | rfl
    · simp [Stops]
    · exact stops_cons (by decide)
    · exact stops_cons (by decide)
  have hhex : hexPart ('0' :: x :: (digits ++ suffix)) = '0' :: x :: digits := by
    simp [hexPart, takeWhile_append_stops hdigits hstop, hx, hne]
  have hsame : uintSuffix suffix = suffix := by
    rcases hsuffix with rfl | rfl | rfl <;> rfl
  simp [number, hhex, hsame]

theorem byteLength_ascii {cs : List Char} (h : ∀ c ∈ cs, c.toNat < 128) :
    Text.byteLength cs = cs.length := by
  induction cs with
  | nil => rfl
  | cons c cs ih =>
    have hc : c.utf8Size = 1 := Char.utf8Size_eq_one_iff.2 (by
      have := h c List.mem_cons_self
      rw [UInt32.le_iff_toNat_le]
      exact Nat.le_of_lt_succ this)
    rw [Text.byteLength, hc, ih fun d hd => h d (List.mem_cons_of_mem _ hd), List.length_cons,
      Nat.add_comm]

theorem isDigit_ascii {c : Char} (h : c.isDigit) : c.toNat < 128 := by
  simp only [Char.isDigit, Bool.and_eq_true, decide_eq_true_eq, UInt32.le_iff_toNat_le] at h
  exact Nat.lt_of_le_of_lt h.2 (by decide)

theorem isHexDigit_ascii {c : Char} (h : isHexDigit c) : c.toNat < 128 := by
  simp only [isHexDigit, Bool.or_eq_true, Bool.and_eq_true, decide_eq_true_eq, Char.le_def,
    UInt32.le_iff_toNat_le] at h
  have hsmall : 'f'.val.toNat = 102 := rfl
  have hlarge : 'F'.val.toNat = 70 := rfl
  have hnat : c.toNat = c.val.toNat := rfl
  rcases h with (h | ⟨-, h⟩) | ⟨-, h⟩
  · exact isDigit_ascii h
  · omega
  · omega

theorem IsSuffix.ascii {suffix : List Char} (h : IsSuffix suffix) :
    ∀ c ∈ suffix, c.toNat < 128 := by
  rcases h with rfl | rfl | rfl <;> simp

theorem lex_number {c : Char} {cs : List Char} {p : Piece} (hc : c.isDigit)
    (hnumber : number (c :: cs) = (p, c :: cs)) :
    lex (c :: cs) =
      ⟨[(p, ⟨0, Text.byteLength (c :: cs)⟩, c :: cs)].filterMap tokenOf,
        [(p, ⟨0, Text.byteLength (c :: cs)⟩, c :: cs)].filterMap errorOf⟩ := by
  have hpiece : piece (c :: cs ++ []) = (p, c :: cs) := by
    rw [List.append_nil, piece_number hc, hnumber]
  have hpieces := piecesFrom_append cs.length 0 (by simp) hpiece
  have hnil : ∀ fuel start, piecesFrom fuel start [] = [] := by
    intro fuel start
    cases fuel <;> simp [piecesFrom]
  rw [List.append_nil, hnil, Nat.zero_add] at hpieces
  rw [lex, pieces, List.length_cons, hpieces]

/-- Digits and a suffix that are read as one integer literal. -/
structure IsLiteral (digits suffix : List Char) : Prop where
  digit : ∃ c cs, digits = c :: cs ∧ c.isDigit
  ascii : ∀ c ∈ digits ++ suffix, c.toNat < 128
  number : number (digits ++ suffix) = (integerPiece digits (!suffix.isEmpty), digits ++ suffix)

namespace IsLiteral

variable {digits suffix : List Char}

theorem lex_eq (h : IsLiteral digits suffix) :
    lex (digits ++ suffix) =
      (integerValue digits).elim
        ⟨[], [⟨⟨0, (digits ++ suffix).length⟩, digits ++ suffix⟩]⟩
        fun v => ⟨[(if suffix = [] then .int v.toInt32 else .uint v,
          ⟨0, (digits ++ suffix).length⟩)], []⟩ := by
  obtain ⟨⟨c, cs, rfl, hc⟩, hascii, hnumber⟩ := h
  rw [List.cons_append] at hascii hnumber ⊢
  rw [lex_number hc hnumber, byteLength_ascii hascii, integerPiece]
  cases integerValue (c :: cs) with
  | none => rfl
  | some v => cases suffix <;> rfl

theorem of_digits (hdigits : ∀ c ∈ digits, c.isDigit) (hne : digits ≠ [])
    (hsuffix : IsSuffix suffix) : IsLiteral digits suffix := by
  obtain ⟨c, cs, rfl⟩ := List.exists_cons_of_ne_nil hne
  refine ⟨⟨c, cs, rfl, hdigits c List.mem_cons_self⟩, fun d hd => ?_,
    number_digits hdigits hne hsuffix⟩
  rcases List.mem_append.1 hd with hd | hd
  · exact isDigit_ascii (hdigits d hd)
  · exact hsuffix.ascii d hd

theorem of_hex {x : Char} (hx : x = 'x' ∨ x = 'X') (hne : digits ≠ [])
    (hdigits : ∀ c ∈ digits, isHexDigit c) (hsuffix : IsSuffix suffix) :
    IsLiteral ('0' :: x :: digits) suffix := by
  refine ⟨⟨'0', x :: digits, rfl, by decide⟩, fun d hd => ?_, number_hex hx hne hdigits hsuffix⟩
  simp only [List.cons_append, List.mem_cons, List.mem_append] at hd
  rcases hd with rfl | rfl | hd | hd
  · decide
  · rcases hx with rfl | rfl <;> decide
  · exact isHexDigit_ascii (hdigits d hd)
  · exact hsuffix.ascii d hd

end IsLiteral

theorem digitValue_lt_eight {c : Char} (hc : c.isDigit) : digitValue c < 8 ↔ c ≤ '7' := by
  simp only [digitValue, hc, if_true, Char.le_def, UInt32.le_iff_toNat_le]
  simp only [Char.isDigit, Bool.and_eq_true, decide_eq_true_eq, ge_iff_le,
    UInt32.le_iff_toNat_le] at hc
  have hseven : '7'.val.toNat = 55 := rfl
  have hnat : c.toNat = c.val.toNat := rfl
  have hzero : (48 : UInt32).toNat = 48 := rfl
  omega

theorem isDigit_of_le {c : Char} (hlow : '0' ≤ c) (hhigh : c ≤ '7') : c.isDigit := by
  simp only [Char.le_def, UInt32.le_iff_toNat_le] at hlow hhigh
  simp only [Char.isDigit, Bool.and_eq_true, decide_eq_true_eq, UInt32.le_iff_toNat_le]
  exact ⟨hlow, hhigh.trans (by decide)⟩

theorem integerValue_zero {digits : List Char} (hdigits : ∀ c ∈ digits, c.isDigit) :
    integerValue ('0' :: digits) =
      if ∀ c ∈ digits, c ≤ '7' then
        if value 8 digits < UInt32.size then some (.ofNat (value 8 digits)) else none
      else none := by
  have hall : (digits.all fun c => digitValue c < 8) = decide (∀ c ∈ digits, c ≤ '7') := by
    rw [Bool.eq_iff_iff, List.all_eq_true, decide_eq_true_eq]
    exact forall₂_congr fun c hc => decide_eq_true_iff.trans (digitValue_lt_eight (hdigits c hc))
  have hx : ∀ c ∈ digits.head?, c ≠ 'x' ∧ c ≠ 'X' := by
    intro c hc
    have hdigit := hdigits c (List.mem_of_mem_head? hc)
    constructor <;> rintro rfl <;> simp at hdigit
  unfold integerValue
  split
  · next heq => exact absurd rfl (hx 'x' (by simp [(List.cons.inj heq).2])).1
  · next heq => exact absurd rfl (hx 'X' (by simp [(List.cons.inj heq).2])).2
  · next heq =>
    obtain rfl := (List.cons.inj heq).2
    simp [hall]
  · next hoctal => exact absurd rfl (hoctal digits)

theorem integerValue_wholeText {digits : List Char} {n : Nat} (h : WholeText digits n) :
    integerValue digits = if n < UInt32.size then some (.ofNat n) else none := by
  cases h with
  | @decimal digits hne hdigits hzero =>
    rw [← value_eq_ofDigits]
    unfold integerValue
    split
    · next heq => simp at hzero
    · next heq => simp at hzero
    · next heq =>
      obtain rfl := (List.cons.inj (hzero rfl)).2
      rfl
    · rfl
  | @octal digits hne hdigits =>
    have hdigit : ∀ c ∈ digits, c.isDigit := fun c hc =>
      isDigit_of_le (hdigits c hc).1 (hdigits c hc).2
    rw [integerValue_zero hdigit, if_pos fun c hc => (hdigits c hc).2, value_eq_ofDigits]
  | @hexadecimal x digits hx hne hdigits =>
    rw [← value_eq_ofDigits]
    rcases hx with rfl | rfl <;> rfl

theorem isLiteral_of_wholeText {digits suffix : List Char} {n : Nat} (h : WholeText digits n)
    (hsuffix : IsSuffix suffix) : IsLiteral digits suffix := by
  cases h with
  | decimal hne hdigits _ => exact .of_digits hdigits hne hsuffix
  | octal _ hdigits =>
    refine .of_digits (fun c hc => ?_) (by simp) hsuffix
    rcases List.mem_cons.1 hc with rfl | hc
    · decide
    · exact isDigit_of_le (hdigits c hc).1 (hdigits c hc).2
  | hexadecimal hx hne hdigits => exact .of_hex hx hne hdigits hsuffix

theorem lex_wholeText {digits suffix : List Char} {n : Nat} (h : WholeText digits n)
    (hsuffix : IsSuffix suffix) :
    lex (digits ++ suffix) =
      if n < 2 ^ 32 then
        ⟨[(if suffix = [] then .int (UInt32.ofNat n).toInt32 else .uint (.ofNat n),
          ⟨0, (digits ++ suffix).length⟩)], []⟩
      else ⟨[], [⟨⟨0, (digits ++ suffix).length⟩, digits ++ suffix⟩]⟩ := by
  have hsize : UInt32.size = 2 ^ 32 := rfl
  rw [(isLiteral_of_wholeText h hsuffix).lex_eq, integerValue_wholeText h, hsize]
  split <;> rfl

/-- A digit beyond seven after a leading zero spoils the literal. -/
theorem lex_badOctal {digits suffix : List Char} (hdigits : ∀ c ∈ digits, c.isDigit)
    (hbad : '8' ∈ digits ∨ '9' ∈ digits) (hsuffix : IsSuffix suffix) :
    lex ('0' :: digits ++ suffix) =
      ⟨[], [⟨⟨0, ('0' :: digits ++ suffix).length⟩, '0' :: digits ++ suffix⟩]⟩ := by
  have hnine : ¬∀ c ∈ digits, c ≤ '7' := by
    intro hall
    rcases hbad with hbad | hbad
    · exact absurd (hall _ hbad) (by decide)
    · exact absurd (hall _ hbad) (by decide)
  have hzero : ∀ c ∈ '0' :: digits, c.isDigit := List.forall_mem_cons.2 ⟨by decide, hdigits⟩
  rw [(IsLiteral.of_digits hzero (by simp) hsuffix).lex_eq, integerValue_zero hdigits,
    if_neg hnine]
  rfl

end Lexer

/-- The digits of a number below 2 ^ 32 are one token, with the number as two's complement has it if
there is no suffix, and as it is if there is one. The digits of any other number are one error, and
so are those with a zero in front that go beyond seven. -/
theorem lex_integer_literals :
    (∀ digits n, Numeral.WholeText digits n →
      (n < 2 ^ 32 →
        (∃ v : Int32, v.toInt = (n : Int).bmod (2 ^ 32) ∧
          lex digits = ⟨[(.int v, ⟨0, digits.length⟩)], []⟩) ∧
        ∀ u ∈ ['u', 'U'], ∃ v : UInt32, v.toNat = n ∧
          lex (digits ++ [u]) = ⟨[(.uint v, ⟨0, digits.length + 1⟩)], []⟩) ∧
      (2 ^ 32 ≤ n →
        lex digits = ⟨[], [⟨⟨0, digits.length⟩, digits⟩]⟩ ∧
        ∀ u ∈ ['u', 'U'],
          lex (digits ++ [u]) = ⟨[], [⟨⟨0, digits.length + 1⟩, digits ++ [u]⟩]⟩)) ∧
    ∀ digits : List Char, (∀ c ∈ digits, c.isDigit) → '8' ∈ digits ∨ '9' ∈ digits →
      lex ('0' :: digits) = ⟨[], [⟨⟨0, digits.length + 1⟩, '0' :: digits⟩]⟩ ∧
      ∀ u ∈ ['u', 'U'], lex ('0' :: digits ++ [u]) =
        ⟨[], [⟨⟨0, digits.length + 2⟩, '0' :: digits ++ [u]⟩]⟩ := by
  have hsuffix : ∀ u ∈ ['u', 'U'], Lexer.IsSuffix [u] := by
    intro u hu
    simpa [Lexer.IsSuffix] using hu
  refine ⟨fun digits n h => ?_, fun digits hdigits hbad => ?_⟩
  · have hsigned := Lexer.lex_wholeText h (.inl rfl)
    have hunsigned := fun u hu => Lexer.lex_wholeText h (hsuffix u hu)
    rw [List.append_nil] at hsigned
    refine ⟨fun hlt => ?_, fun hge => ?_⟩
    · rw [if_pos hlt] at hsigned
      refine ⟨⟨(UInt32.ofNat n).toInt32, by simp, hsigned⟩, fun u hu => ⟨.ofNat n, ?_, ?_⟩⟩
      · exact UInt32.toNat_ofNat_of_lt hlt
      · rw [hunsigned u hu, if_pos hlt]
        simp
    · rw [if_neg (Nat.not_lt.2 hge)] at hsigned
      refine ⟨hsigned, fun u hu => ?_⟩
      rw [hunsigned u hu, if_neg (Nat.not_lt.2 hge)]
      simp
  · refine ⟨?_, fun u hu => ?_⟩
    · simpa using Lexer.lex_badOctal hdigits hbad (.inl rfl)
    · simpa using Lexer.lex_badOctal hdigits hbad (hsuffix u hu)

/-- The largest number of 32 bits, a small one with zeros in front, the first one that 32 bits do not
hold, and a digit that octal numbers do not have. -/
theorem long_literals_lexed :
    Numeral.WholeText "4294967295".toList 4294967295 ∧
    (∃ v : Int32, v.toInt = -1 ∧ lex "4294967295".toList = ⟨[(.int v, ⟨0, 10⟩)], []⟩) ∧
    Numeral.WholeText "0X000000000fF".toList 255 ∧
    (∃ v : UInt32, v.toNat = 255 ∧ lex "0X000000000fFU".toList = ⟨[(.uint v, ⟨0, 14⟩)], []⟩) ∧
    Numeral.WholeText "040000000000".toList 4294967296 ∧
    lex "040000000000".toList = ⟨[], [⟨⟨0, 12⟩, "040000000000".toList⟩]⟩ ∧
    lex "0718u".toList = ⟨[], [⟨⟨0, 5⟩, "0718u".toList⟩]⟩ := by
  have hdecimal : Numeral.WholeText "4294967295".toList 4294967295 :=
    .decimal (by decide) (List.all_eq_true.1 (by decide)) (by decide)
  have hhex : Numeral.WholeText ('0' :: 'X' :: "000000000fF".toList) 255 :=
    .hexadecimal (.inr rfl) (by decide) (List.all_eq_true.1 (by decide))
  have hoctal : Numeral.WholeText ('0' :: "40000000000".toList) 4294967296 :=
    .octal (by decide) (by simp)
  obtain ⟨hwhole, hbad⟩ := lex_integer_literals
  exact ⟨hdecimal, ((hwhole _ _ hdecimal).1 (by decide)).1, hhex,
    ((hwhole _ _ hhex).1 (by decide)).2 'U' (by decide), hoctal,
    ((hwhole _ _ hoctal).2 (by decide)).1,
    (hbad "718".toList (List.all_eq_true.1 (by decide)) (by decide)).2 'u' (by decide)⟩

end ShaderLift
