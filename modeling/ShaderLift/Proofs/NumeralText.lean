import Mathlib
import ShaderLift.Proofs.Rounding
import ShaderLift.Token.Lexer

/-!
Numbers are read back from their texts: whole numbers, and single precision numbers that are finite
and have no sign.
-/

namespace ShaderLift

/-- The text ends before a character of the kind. -/
def Stops (p : Char → Bool) (cs : List Char) : Prop := ∀ c ∈ cs.head?, p c = false

theorem Stops.takeWhile {p : Char → Bool} {cs : List Char} (h : Stops p cs) :
    cs.takeWhile p = [] := by
  cases cs with
  | nil => rfl
  | cons c cs => simp [h c rfl]

theorem Stops.dropWhile {p : Char → Bool} {cs : List Char} (h : Stops p cs) :
    cs.dropWhile p = cs := by
  cases cs with
  | nil => rfl
  | cons c cs => simp [h c rfl]

theorem takeWhile_append_stops {p : Char → Bool} {a b : List Char} (ha : ∀ c ∈ a, p c)
    (hb : Stops p b) : (a ++ b).takeWhile p = a := by
  rw [List.takeWhile_append_of_pos ha, hb.takeWhile, List.append_nil]

theorem dropWhile_append_stops {p : Char → Bool} {a b : List Char} (ha : ∀ c ∈ a, p c)
    (hb : Stops p b) : (a ++ b).dropWhile p = b := by
  rw [List.dropWhile_append_of_pos ha, hb.dropWhile]

namespace Numeral

theorem value_append (base : Nat) (a b : List Char) :
    value base (a ++ b) = value base a * base ^ b.length + value base b := by
  induction b using List.reverseRecOn with
  | nil => simp [value]
  | append_singleton b c ih =>
    have hstep (ds : List Char) : value base (ds ++ [c]) = base * value base ds + digitValue c := by
      simp [value]
    rw [← List.append_assoc, hstep, hstep, ih, List.length_append, List.length_singleton,
      Nat.pow_succ]
    ring

theorem value_zeros (base k : Nat) : value base (List.replicate k '0') = 0 := by
  induction k with
  | zero => rfl
  | succ k ih =>
    rw [List.replicate_succ', value_append, ih]
    simp [value, digitValue]

theorem decimal_isDigit {n : Nat} {c : Char} (h : c ∈ decimal n) : c.isDigit :=
  Nat.isDigit_of_mem_toDigits (by omega) (by omega) h

theorem decimal_ne_nil (n : Nat) : decimal n ≠ [] := Nat.toDigits_ne_nil

theorem value_decimal (n : Nat) : value 10 (decimal n) = n := by
  have hfold : value 10 (decimal n) = Nat.ofDigitChars 10 (decimal n) 0 := by
    rw [Nat.ofDigitChars_eq_foldl, value]
    refine List.foldl_ext _ _ _ fun k c hc => ?_
    simp [digitValue, decimal_isDigit hc]
  rw [hfold, decimal, Nat.ofDigitChars_ten_toDigits]

theorem decimal_head {n : Nat} (hn : n ≠ 0) : (decimal n).head? ≠ some '0' := by
  induction n using Nat.strongRecOn with
  | _ n ih =>
    by_cases hlt : n < 10
    · rw [decimal, Nat.toDigits_of_lt_base hlt]
      interval_cases n <;> simp_all
    · rw [decimal, Nat.toDigits_of_base_le (by omega) (by omega), List.head?_append]
      have hrec := ih (n / 10) (by omega) (by omega)
      cases hd : (Nat.toDigits 10 (n / 10)).head? with
      | none => exact absurd (List.head?_eq_none_iff.1 hd) Nat.toDigits_ne_nil
      | some c => simpa [decimal, hd] using hrec

end Numeral

theorem Stops.mono {p q : Char → Bool} {cs : List Char} (h : Stops p cs)
    (hq : ∀ c, q c → p c) : Stops q cs := by
  intro c hc
  have hp := h c hc
  cases hqc : q c with
  | false => rfl
  | true => simp [hq c hqc] at hp

theorem stops_cons {p : Char → Bool} {c : Char} {cs : List Char} (h : p c = false) :
    Stops p (c :: cs) := by
  rintro _ ⟨⟩
  exact h

namespace Lexer

open Numeral

theorem isIdentChar_of_isDigit (c : Char) (h : c.isDigit) : isIdentChar c := by
  simp [isIdentChar, Char.isAlphanum, h]

theorem Stops.isDigit {cs : List Char} (h : Stops isIdentChar cs) : Stops Char.isDigit cs :=
  h.mono isIdentChar_of_isDigit

theorem Stops.head_ne {cs : List Char} (h : Stops isIdentChar cs) {c d : Char} (hc : c ∈ cs.head?)
    (hd : isIdentChar d) : c ≠ d := by
  rintro rfl
  simp [h c hc] at hd

theorem exponentPart_stops {cs : List Char} (h : Stops isIdentChar cs) : exponentPart cs = [] := by
  cases cs with
  | nil => rfl
  | cons c cs =>
    have he : c ≠ 'e' := Stops.head_ne h rfl (by decide)
    have hE : c ≠ 'E' := Stops.head_ne h rfl (by decide)
    simp [exponentPart, he, hE]

theorem floatSuffix_stops {cs : List Char} (h : Stops isIdentChar cs) : floatSuffix cs = [] := by
  cases cs with
  | nil => rfl
  | cons c cs =>
    have hf : c ≠ 'f' := Stops.head_ne h rfl (by decide)
    have hF : c ≠ 'F' := Stops.head_ne h rfl (by decide)
    simp [floatSuffix, hf, hF]

theorem uintSuffix_stops {cs : List Char} (h : Stops isIdentChar cs) : uintSuffix cs = [] := by
  cases cs with
  | nil => rfl
  | cons c cs =>
    have hu : c ≠ 'u' := Stops.head_ne h rfl (by decide)
    have hU : c ≠ 'U' := Stops.head_ne h rfl (by decide)
    simp [uintSuffix, hu, hU]

theorem hexPart_digits {ds rest : List Char} (hds : ∀ c ∈ ds, c.isDigit) (hne : ds ≠ [])
    (hrest : ∀ c ∈ rest.head?, c ≠ 'x' ∧ c ≠ 'X') : hexPart (ds ++ rest) = [] := by
  have hsecond : ∀ c ∈ (ds ++ rest).tail.head?, c ≠ 'x' ∧ c ≠ 'X' := by
    match ds, hne with
    | [_], _ => exact hrest
    | _ :: c :: _, _ =>
      rintro _ ⟨⟩
      have hc := hds c (by simp)
      constructor <;> rintro rfl <;> simp at hc
  cases hcs : ds ++ rest with
  | nil => rfl
  | cons c cs =>
    rw [hcs] at hsecond
    unfold hexPart
    split
    · next x more heq =>
      obtain ⟨rfl, rfl⟩ := List.cons.inj heq
      simp [hsecond x rfl]
    · rfl

theorem number_whole {ds rest : List Char} (hds : ∀ c ∈ ds, c.isDigit) (hne : ds ≠ [])
    (hrest : Stops isIdentChar rest) (hdot : rest.head? ≠ some '.') :
    number (ds ++ rest) = (integerPiece ds false, ds) := by
  have hhex : hexPart (ds ++ rest) = [] := hexPart_digits hds hne fun c hc =>
    ⟨Stops.head_ne hrest hc (by decide), Stops.head_ne hrest hc (by decide)⟩
  have hstop := Stops.isDigit hrest
  simp only [number, hhex, List.isEmpty_nil, Bool.not_true, Bool.false_eq_true, if_false,
    takeWhile_append_stops hds hstop, dropWhile_append_stops hds hstop]
  split
  · next heq => simp at hdot
  · simp [exponentPart_stops hrest, uintSuffix_stops hrest]

theorem number_unsigned {ds : List Char} (hds : ∀ c ∈ ds, c.isDigit) (hne : ds ≠ [])
    (rest : List Char) :
    number (ds ++ 'u' :: rest) = (integerPiece ds true, ds ++ ['u']) := by
  have hhex : hexPart (ds ++ 'u' :: rest) = [] := hexPart_digits hds hne (by simp)
  have hstop : Stops Char.isDigit ('u' :: rest) := stops_cons (by decide)
  simp [number, hhex, takeWhile_append_stops hds hstop, dropWhile_append_stops hds hstop,
    exponentPart, uintSuffix]

theorem decimal_start (n : Nat) : ∃ c cs, decimal n = c :: cs ∧ c.isDigit := by
  obtain ⟨c, cs, hcs⟩ := List.exists_cons_of_ne_nil (decimal_ne_nil n)
  exact ⟨c, cs, hcs, decimal_isDigit (hcs ▸ List.mem_cons_self)⟩

theorem digit_ne_sign {c : Char} (hc : c.isDigit) : c ≠ '+' ∧ c ≠ '-' := by
  constructor <;> rintro rfl <;> simp at hc

theorem exponentPart_integer (x : Int) {rest : List Char} (hrest : Stops isIdentChar rest) :
    exponentPart ('e' :: integer x ++ rest) = 'e' :: integer x := by
  have hstop := Stops.isDigit hrest
  cases x with
  | ofNat n =>
    obtain ⟨c, cs, hd, hc⟩ := decimal_start n
    obtain ⟨hplus, hminus⟩ := digit_ne_sign hc
    have htake := takeWhile_append_stops (a := c :: cs) (fun d h => decimal_isDigit (hd ▸ h)) hstop
    rw [List.cons_append] at htake
    simp [exponentPart, integer, hd, hplus, hminus, htake]
  | negSucc n =>
    have htake := takeWhile_append_stops (fun d h => decimal_isDigit (n := n + 1) h) hstop
    simp [exponentPart, integer, htake, decimal_ne_nil]

theorem exponentValue_integer (x : Int) : exponentValue ('e' :: integer x) = x := by
  cases x with
  | ofNat n =>
    obtain ⟨c, cs, hd, hc⟩ := decimal_start n
    obtain ⟨hplus, hminus⟩ := digit_ne_sign hc
    have hvalue := value_decimal n
    rw [hd] at hvalue
    simp [exponentValue, integer, hd, hplus, hminus, hvalue]
  | negSucc n => simp [exponentValue, integer, value_decimal, Int.negSucc_eq]

/-- The exponent of a number's text, or none. -/
inductive IsExponent : List Char → Int → Prop
  | none : IsExponent [] 0
  | some (x : Int) : IsExponent ('e' :: integer x) x

theorem IsExponent.part {cs rest : List Char} {x : Int} (h : IsExponent cs x)
    (hrest : Stops isIdentChar rest) : exponentPart (cs ++ rest) = cs := by
  cases h with
  | none => exact exponentPart_stops hrest
  | some x => exact exponentPart_integer x hrest

theorem IsExponent.value {cs : List Char} {x : Int} (h : IsExponent cs x) :
    exponentValue cs = x := by
  cases h with
  | none => rfl
  | some x => exact exponentValue_integer x

theorem number_point {whole fraction exponent rest : List Char} {x : Int}
    (hwhole : ∀ c ∈ whole, c.isDigit) (hne : whole ≠ []) (hfraction : ∀ c ∈ fraction, c.isDigit)
    (hexponent : IsExponent exponent x) (hrest : Stops isIdentChar rest) :
    number (whole ++ '.' :: fraction ++ exponent ++ rest) =
      (floatPiece whole fraction exponent, whole ++ '.' :: fraction ++ exponent) := by
  have hshape : whole ++ '.' :: fraction ++ exponent ++ rest =
      whole ++ '.' :: (fraction ++ (exponent ++ rest)) := by simp
  have hhex : hexPart (whole ++ '.' :: (fraction ++ (exponent ++ rest))) = [] :=
    hexPart_digits hwhole hne (by simp)
  have hpoint : Stops Char.isDigit ('.' :: (fraction ++ (exponent ++ rest))) :=
    stops_cons (by decide)
  have hstop : Stops Char.isDigit (exponent ++ rest) := by
    cases hexponent with
    | none => exact Stops.isDigit hrest
    | some x => exact stops_cons (by decide)
  rw [hshape]
  simp [number, hhex, takeWhile_append_stops hwhole hpoint, dropWhile_append_stops hwhole hpoint,
    takeWhile_append_stops hfraction hstop, dropWhile_append_stops hfraction hstop,
    hexponent.part hrest, floatSuffix_stops hrest]

theorem number_exponent {whole rest : List Char} (x : Int) (hwhole : ∀ c ∈ whole, c.isDigit)
    (hne : whole ≠ []) (hrest : Stops isIdentChar rest) :
    number (whole ++ 'e' :: integer x ++ rest) =
      (floatPiece whole [] ('e' :: integer x), whole ++ 'e' :: integer x) := by
  have hshape : whole ++ 'e' :: integer x ++ rest = whole ++ 'e' :: (integer x ++ rest) := by simp
  have hhex : hexPart (whole ++ 'e' :: (integer x ++ rest)) = [] :=
    hexPart_digits hwhole hne (by simp)
  have hstop : Stops Char.isDigit ('e' :: (integer x ++ rest)) := stops_cons (by decide)
  have hpart := exponentPart_integer x hrest
  rw [List.cons_append] at hpart
  rw [hshape]
  simp [number, hhex, takeWhile_append_stops hwhole hstop, dropWhile_append_stops hwhole hstop,
    hpart, floatSuffix_stops hrest]

theorem integerValue_decimal {n : Nat} (hn : n < UInt32.size) :
    integerValue (decimal n) = some (.ofNat n) := by
  by_cases hzero : n = 0
  · subst hzero
    rfl
  · have hhead := decimal_head hzero
    have hvalue := value_decimal n
    unfold integerValue
    split
    · next heq => simp [heq] at hhead
    · next heq => simp [heq] at hhead
    · next heq => simp [heq] at hhead
    · simp [hvalue, hn]

theorem number_uint (v : UInt32) (rest : List Char) :
    number ((Token.uint v).text ++ rest) = (.token (.uint v), (Token.uint v).text) := by
  have h := number_unsigned (fun c hc => decimal_isDigit hc) (decimal_ne_nil v.toNat) rest
  rw [integerPiece, integerValue_decimal v.toNat_lt, UInt32.ofNat_toNat] at h
  simpa [Token.text] using h

theorem toInt_of_nonneg {v : Int32} (h : 0 ≤ v) : v.toInt = v.toUInt32.toNat := by
  have hv : 0 ≤ v.toBitVec.toInt := by simpa [Int32.le_iff_toInt_le] using h
  have hcond := BitVec.toInt_eq_toNat_cond v.toBitVec
  have hbound := v.toBitVec.isLt
  have hint : v.toInt = v.toBitVec.toInt := rfl
  have hnat : v.toUInt32.toNat = v.toBitVec.toNat := rfl
  split at hcond <;> omega

theorem int_text {v : Int32} (hv : 0 ≤ v) : (Token.int v).text = decimal v.toUInt32.toNat := by
  simp only [Token.text, toInt_of_nonneg hv]
  rfl

theorem int_text_of_neg {v : Int32} (hv : v < 0) :
    (Token.int v).text = '-' :: decimal (-v).toUInt32.toNat := by
  have hneg : v.toBitVec.toInt < 0 := by simpa [Int32.lt_iff_toInt_lt] using hv
  have hcond := BitVec.toInt_eq_toNat_cond v.toBitVec
  have hbound := v.toBitVec.isLt
  have hnat : (-v).toUInt32.toNat = (2 ^ 32 - v.toBitVec.toNat) % 2 ^ 32 := BitVec.toNat_neg v.toBitVec
  obtain ⟨n, hn⟩ := Int.eq_negSucc_of_lt_zero hneg
  have hdigits : (-v).toUInt32.toNat = n + 1 := by
    split at hcond <;> omega
  have hint : v.toInt = Int.negSucc n := hn
  rw [hdigits]
  simp [Token.text, hint, integer]

/-- The digits of a whole number without a sign, which can also stand for a negative one. -/
theorem number_int (v : Int32) {rest : List Char} (hrest : Stops isIdentChar rest)
    (hdot : rest.head? ≠ some '.') :
    number (decimal v.toUInt32.toNat ++ rest) =
      (.token (.int v), decimal v.toUInt32.toNat) := by
  have h := number_whole (fun c hc => decimal_isDigit hc) (decimal_ne_nil v.toUInt32.toNat) hrest
    hdot
  rw [integerPiece, integerValue_decimal v.toUInt32.toNat_lt, UInt32.ofNat_toNat] at h
  exact h

/-- A text of the number `digits * 10 ^ exponent`. -/
inductive DecimalText : List Char → Nat → Int → Prop
  | point {whole fraction exponent : List Char} {x : Int} (hwhole : ∀ c ∈ whole, c.isDigit)
      (hne : whole ≠ []) (hfraction : ∀ c ∈ fraction, c.isDigit) (hexp : IsExponent exponent x) :
      DecimalText (whole ++ '.' :: fraction ++ exponent) (value 10 (whole ++ fraction))
        (x - fraction.length)
  | whole {whole : List Char} (x : Int) (hwhole : ∀ c ∈ whole, c.isDigit) (hne : whole ≠ []) :
      DecimalText (whole ++ 'e' :: integer x) (value 10 whole) x

theorem DecimalText.head {cs : List Char} {digits : Nat} {exponent : Int}
    (h : DecimalText cs digits exponent) : ∃ c rest, cs = c :: rest ∧ c.isDigit := by
  cases h with
  | @point whole _ _ _ hwhole hne _ _ =>
    obtain ⟨c, rest, rfl⟩ := List.exists_cons_of_ne_nil hne
    exact ⟨c, _, rfl, hwhole c List.mem_cons_self⟩
  | @whole whole _ hwhole hne =>
    obtain ⟨c, rest, rfl⟩ := List.exists_cons_of_ne_nil hne
    exact ⟨c, _, rfl, hwhole c List.mem_cons_self⟩

theorem DecimalText.number {cs rest : List Char} {digits : Nat} {exponent : Int} {v : Single}
    (h : DecimalText cs digits exponent) (hv : Single.ofDecimal? digits exponent = some v)
    (hrest : Stops isIdentChar rest) : number (cs ++ rest) = (.token (.float v), cs) := by
  cases h with
  | point hwhole hne hfraction hexp =>
    rw [number_point hwhole hne hfraction hexp hrest, floatPiece, hexp.value, hv]
  | whole _ hwhole hne =>
    rw [number_exponent exponent hwhole hne hrest, floatPiece, exponentValue_integer]
    simp [hv]

/-- The digits with a point put in are a text of the number, or of ten times the digits. -/
theorem positional_text (n : Nat) (exponent : Int) :
    DecimalText (positional (decimal n) exponent) n exponent ∨
      ∃ k : Nat, exponent = k ∧
        DecimalText (positional (decimal n) exponent) (n * 10 ^ (k + 1)) (-1) := by
  have hdigits : ∀ c ∈ decimal n, c.isDigit := fun c hc => decimal_isDigit hc
  have hvalue := value_decimal n
  have hzeros (k : Nat) : ∀ c ∈ List.replicate k '0', c.isDigit := by
    intro c hc
    obtain rfl := List.eq_of_mem_replicate hc
    decide
  unfold positional
  split
  · next hge =>
    obtain ⟨k, rfl⟩ := Int.eq_ofNat_of_zero_le hge
    refine .inr ⟨k, rfl, ?_⟩
    have hwhole : ∀ c ∈ decimal n ++ List.replicate k '0', c.isDigit :=
      List.forall_mem_append.2 ⟨hdigits, hzeros k⟩
    have htext := DecimalText.point hwhole (by simp [decimal_ne_nil]) (hzeros 1) IsExponent.none
    have hnumber : value 10 (decimal n ++ List.replicate k '0' ++ List.replicate 1 '0') =
        n * 10 ^ (k + 1) := by
      rw [value_append, value_append, value_zeros, value_zeros, hvalue, Nat.pow_succ]
      simp [Nat.mul_assoc]
    rw [hnumber] at htext
    simpa using htext
  · next hneg =>
    simp only
    split
    · next hplaces =>
      left
      have hwhole : (decimal n).take ((decimal n).length - (-exponent).toNat) ≠ [] := by
        simp [decimal_ne_nil]
        omega
      have htext := DecimalText.point (fun c hc => hdigits c (List.mem_of_mem_take hc)) hwhole
        (fun c hc => hdigits c (List.mem_of_mem_drop (i := (decimal n).length - (-exponent).toNat) hc))
        IsExponent.none
      have hlength : (0 : Int) - ((decimal n).length - ((decimal n).length - (-exponent).toNat) : Nat) =
          exponent := by omega
      rw [List.take_append_drop, hvalue, List.length_drop, hlength] at htext
      simpa using htext
    · next hplaces =>
      left
      have hfraction : ∀ c ∈ List.replicate ((-exponent).toNat - (decimal n).length) '0' ++ decimal n,
          c.isDigit := List.forall_mem_append.2 ⟨hzeros _, hdigits⟩
      have htext := DecimalText.point (hzeros 1) (by simp) hfraction IsExponent.none
      have hnumber : value 10 (List.replicate 1 '0' ++
          (List.replicate ((-exponent).toNat - (decimal n).length) '0' ++ decimal n)) = n := by
        rw [value_append, value_append, value_zeros, value_zeros, hvalue]
        simp
      have hlength : (0 : Int) - ((List.replicate ((-exponent).toNat - (decimal n).length) '0' ++
          decimal n).length : Nat) = exponent := by
        rw [List.length_append, List.length_replicate]
        omega
      rw [hnumber, hlength] at htext
      simpa using htext

theorem scientific_text (n : Nat) (exponent : Int) :
    DecimalText (scientific false (decimal n) (exponent + (decimal n).length - 1)) n exponent := by
  have hdigits : ∀ c ∈ decimal n, c.isDigit := fun c hc => decimal_isDigit hc
  have hvalue := value_decimal n
  unfold scientific
  generalize hd : decimal n = ds at *
  match ds with
  | [] => exact absurd hd (decimal_ne_nil n)
  | [c] =>
    have htext := DecimalText.whole exponent hdigits (by simp)
    rw [hvalue] at htext
    simpa using htext
  | c :: d :: rest =>
    have hwhole : ∀ x ∈ [c], x.isDigit := fun x hx => hdigits x (by simp_all)
    have hfraction : ∀ x ∈ d :: rest, x.isDigit := fun x hx => hdigits x (List.mem_cons_of_mem _ hx)
    have htext := DecimalText.point hwhole (by simp) hfraction
      (IsExponent.some (exponent + ((c :: d :: rest).length : Nat) - 1))
    have hlength : exponent + ((c :: d :: rest).length : Nat) - 1 - ((d :: rest).length : Nat) =
        exponent := by
      simp only [List.length_cons]
      omega
    rw [hlength, show [c] ++ d :: rest = c :: d :: rest from rfl, hvalue] at htext
    simpa using htext

end Lexer

namespace Single

open Numeral Lexer

theorem ofPattern_pattern (v : Single) : ofPattern v.negative v.pattern = v := by
  have hbit : BinaryFormat.single.signBit = 2 ^ 31 := by decide
  obtain ⟨bits⟩ := v
  have hbits := bits.toNat_lt
  simp only [ofPattern, pattern, negative, hbit, decide_eq_true_eq, Single.mk.injEq]
  apply UInt32.toNat_inj.1
  simp only [UInt32.toNat_ofNat']
  split <;> omega

theorem ofDecimal?_of_pattern {v : Single} (hfinite : v.isFinite) (hv : v.negative = false)
    {digits : Nat} {exponent : Int}
    (h : BinaryFormat.single.ofDecimal digits exponent = v.pattern) :
    ofDecimal? digits exponent = some v := by
  rw [ofDecimal?, h, ← hv, ofPattern_pattern, if_pos hfinite]

theorem ofDecimal?_decimal {v : Single} (hfinite : v.isFinite) (hv : v.negative = false) :
    ofDecimal? v.decimal.digits v.decimal.exponent = some v ∧
      ∀ k : Nat, v.decimal.exponent = k →
        ofDecimal? (v.decimal.digits * 10 ^ (k + 1)) (-1) = some v := by
  have hlt : v.pattern < BinaryFormat.single.infinity := of_decide_eq_true hfinite
  by_cases hzero : v.pattern = 0
  · have hread (e : Int) : BinaryFormat.single.ofDecimal 0 e = v.pattern := by
      rw [hzero]
      rfl
    have hdecimal : v.decimal = ⟨0, 0⟩ := if_pos hzero
    rw [hdecimal]
    refine ⟨ofDecimal?_of_pattern hfinite hv (hread 0), fun k _ => ?_⟩
    rw [Nat.zero_mul]
    exact ofDecimal?_of_pattern hfinite hv (hread _)
  · have hpos : 0 < v.pattern := by omega
    have hdecimal : v.decimal = BinaryFormat.single.shortest .up v.pattern := if_neg hzero
    have hcell := BinaryFormat.shortest_inCell (f := .single) .up hpos
    rw [← hdecimal] at hcell
    have hregular := BinaryFormat.single_regular
    refine ⟨ofDecimal?_of_pattern hfinite hv
      (BinaryFormat.ofDecimal_of_cell hregular hpos hlt hcell), fun k hk => ?_⟩
    rw [hk] at hcell
    exact ofDecimal?_of_pattern hfinite hv
      (BinaryFormat.ofDecimal_of_cell hregular hpos hlt hcell.tenfold)

/-- The text of a finite number without a sign is read back as the number. -/
theorem text_decimalText {v : Single} (hfinite : v.isFinite) (hv : v.negative = false) :
    ∃ digits exponent, DecimalText v.text digits exponent ∧
      ofDecimal? digits exponent = some v := by
  obtain ⟨hplain, htenfold⟩ := ofDecimal?_decimal hfinite hv
  have htext : v.text = layout.write v.decimal := by simp [text, hv, hfinite]
  rw [htext]
  simp only [Layout.write]
  split
  · rcases positional_text v.decimal.digits v.decimal.exponent with h | ⟨k, hk, h⟩
    · exact ⟨_, _, h, hplain⟩
    · exact ⟨_, _, h, htenfold k hk⟩
  · exact ⟨_, _, scientific_text _ _, hplain⟩

end Single
end ShaderLift
