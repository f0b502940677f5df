import Mathlib
import ShaderLift.Json.Reader
import ShaderLift.Json.Writer
import ShaderLift.Proofs.NumeralText

/-!
Numbers in JSON text. A reader of numbers does the same whatever follows the number, as long as that
does not go on with it. So a number is read back in front of anything if it is read back alone,
which can be computed; whole numbers that fit 64 bits always are. Of the others each has to be
looked at, because reading rounds more than once.
-/

namespace ShaderLift

namespace Json

section

variable {α β : Type} {cs cs' : List Char}

theorem reader_bind {m : Reader α} {f : α → Reader β} {a : α} (h : m cs = .ok (a, cs')) :
    (m >>= f) cs = f a cs' := by
  simp only [bind, StateT.bind, h, Except.bind]

theorem peek_eq (cs : List Char) :
    peek cs = .ok ((cs.dropWhile isSpace).head?, cs.dropWhile isSpace) := rfl

theorem peek_cons {c : Char} (h : isSpace c = false) :
    peek (c :: cs) = .ok (some c, c :: cs) := by
  rw [peek_eq, List.dropWhile_cons_of_neg (by simp [h])]
  rfl

theorem peek_blank {b : List Char} (h : ∀ c ∈ b, isSpace c) (cs : List Char) :
    peek (b ++ cs) = peek cs := by
  rw [peek_eq, peek_eq, List.dropWhile_append_of_pos h]

theorem get_eq (cs : List Char) : (get : Reader (List Char)) cs = .ok (cs, cs) := rfl

theorem advance_cons (c : Char) (cs : List Char) : advance (c :: cs) = .ok ((), cs) := rfl

end

def isNumberChar (c : Char) : Bool :=
  c.isDigit || c = '.' || c = 'e' || c = 'E' || c = '+' || c = '-'

/-- What comes next does not go on with a number. -/
def Apart (rest : List Char) : Prop := Stops isNumberChar rest

theorem Apart.isDigit {rest : List Char} (h : Apart rest) : Stops Char.isDigit rest :=
  h.mono fun c hc => by simp [isNumberChar, hc]

/-- The reader does the same whatever follows the text. -/
def Local {α : Type} (m : Reader α) : Prop :=
  ∀ cs a cs' rest, m cs = .ok (a, cs') → Apart rest → m (cs ++ rest) = .ok (a, cs' ++ rest)

namespace Local

variable {α β : Type}

theorem pure (a : α) : Local (Pure.pure a : Reader α) := by
  intro cs b cs' rest h _
  obtain ⟨rfl, rfl⟩ := Prod.mk.inj (Except.ok.inj h)
  rfl

theorem throw (e : JsonError) : Local (throw e : Reader α) := by
  intro cs b cs' rest h _
  cases h

theorem failHere : Local (failHere : Reader α) := by
  intro cs b cs' rest h _
  cases cs <;> cases h

theorem bind {m : Reader α} {f : α → Reader β} (hm : Local m) (hf : ∀ a, Local (f a)) :
    Local (m >>= f) := by
  intro cs b cs'' rest h hrest
  cases hcs : m cs with
  | error e => simp [Bind.bind, StateT.bind, hcs, Except.bind] at h
  | ok r =>
    obtain ⟨a, cs'⟩ := r
    rw [reader_bind hcs] at h
    rw [reader_bind (hm _ _ _ _ hcs hrest)]
    exact hf a _ _ _ _ h hrest

theorem readDigits : Local readDigits := by
  intro cs ds cs' rest h hrest
  obtain ⟨rfl, rfl⟩ := Prod.mk.inj (Except.ok.inj h)
  have hstop := hrest.isDigit
  change Except.ok ((cs ++ rest).takeWhile Char.isDigit, (cs ++ rest).dropWhile Char.isDigit) = _
  induction cs with
  | nil => simp [hstop.takeWhile, hstop.dropWhile]
  | cons c cs ih =>
    cases hc : c.isDigit with
    | true => simpa [hc] using ih rfl
    | false => simp [hc]

/-- Like a local reader, on texts that start with the character. -/
def From (c : Option Char) (m : Reader α) : Prop :=
  ∀ cs a cs' rest, cs.head? = c → m cs = .ok (a, cs') → Apart rest →
    m (cs ++ rest) = .ok (a, cs' ++ rest)

theorem starts {m : Reader α} (hm : Local m) (c : Option Char) : From c m :=
  fun cs a cs' rest _ => hm cs a cs' rest

theorem advance {m : Reader α} (hm : Local m) (c : Char) :
    From (some c) (do advance; m) := by
  intro cs a cs' rest hc h hrest
  cases cs with
  | nil => cases hc
  | cons d cs => exact hm cs a cs' rest h hrest

/-- A look at the next character that treats what follows a number like the end of the text. -/
theorem look {f : Option Char → Reader α} (hf : ∀ c, From c (f c))
    (hend : ∀ c, isNumberChar c = false → f (some c) = f none) :
    Local (do f (← get).head?) := by
  intro cs a cs' rest h hrest
  cases cs with
  | cons c cs => exact hf (some c) _ _ _ _ rfl h hrest
  | nil =>
    -- here the look sees the first character of what follows
    have hnone := hf none [] a cs' rest rfl h hrest
    cases rest with
    | nil => exact hnone
    | cons c rest =>
      change f (some c) (c :: rest) = _
      rw [hend c (hrest c rfl)]
      exact hnone

theorem readReal (negative : Bool) (significand : Nat) (exponent : Int) :
    Local (readReal negative significand exponent) := by
  unfold Json.readReal
  split
  · exact .pure _
  · exact .throw _

end Local

def exponentDigits (negative : Bool) (significand : Nat) (start : Int) (sign : Option Char) :
    Reader Number := do
  let digits ← readDigits
  if digits.isEmpty then failHere
  let n := Numeral.value 10 digits
  let exponent := if sign = some '-' then start - n else start + n
  if n < 2147483648 then readReal negative significand exponent
  else if significand ≠ 0 && sign ≠ some '-' then throw .malformed
  else return .real (.ofPattern negative 0)

def exponentFrom (negative : Bool) (significand : Nat) (start : Int) (sign : Option Char) :
    Reader Number :=
  if sign = some '+' || sign = some '-' then do
    advance
    exponentDigits negative significand start sign
  else exponentDigits negative significand start sign

theorem readExponent_eq (negative : Bool) (significand : Nat) (start : Int) :
    readExponent negative significand start =
      (do exponentFrom negative significand start (← get).head?) := rfl

def numberFrom (negative : Bool) (significand : Nat) (rest : List Char) (next : Option Char) :
    Reader Number :=
  if next = some '.' then do
    advance
    readFraction negative significand rest.length
  else if isExponentMark next then do
    advance
    readExponent negative significand rest.length
  else if !rest.isEmpty then readReal negative significand rest.length
  else if !negative then return .whole significand
  else if significand = 0 || 9223372036854775808 < significand then readReal true significand 0
  else return .whole (-significand)

def numberOf (negative : Bool) (digits : List Char) : Reader Number :=
  match digits with
  | [] => failHere
  | '0' :: _ :: _ => throw .malformed
  | _ => do
    let (significand, rest) := accumulate 0 digits
    numberFrom negative significand rest (← get).head?

theorem readNumber_eq (negative : Bool) :
    readNumber negative = (do numberOf negative (← readDigits)) := rfl

def fractionFrom (negative : Bool) (significand : Nat) (exponent : Int) (next : Option Char) :
    Reader Number :=
  if isExponentMark next then do
    advance
    readExponent negative significand exponent
  else readReal negative significand exponent

theorem readFraction_eq (negative : Bool) (significand dropped : Nat) :
    readFraction negative significand dropped = (do
      let digits ← readDigits
      if digits.isEmpty then failHere
      let (significand, rest) := accumulate significand digits
      let exponent := (dropped : Int) - (digits.length - rest.length)
      fractionFrom negative significand exponent (← get).head?) := rfl

namespace Local

theorem exponentDigits (negative : Bool) (significand : Nat) (start : Int) (sign : Option Char) :
    Local (exponentDigits negative significand start sign) := by
  refine .bind .readDigits fun digits => ?_
  have hvalue : Local (let n := Numeral.value 10 digits
      let exponent := if sign = some '-' then start - n else start + n
      if n < 2147483648 then Json.readReal negative significand exponent
      else if significand ≠ 0 && sign ≠ some '-' then MonadExcept.throw .malformed
      else Pure.pure (.real (.ofPattern negative 0)) : Reader Number) := by
    simp only
    split
    · exact .readReal _ _ _
    · split
      · exact .throw _
      · exact .pure _
  simp only
  split
  · exact .bind .failHere fun _ => hvalue
  · exact hvalue

theorem readExponent (negative : Bool) (significand : Nat) (start : Int) :
    Local (readExponent negative significand start) := by
  rw [readExponent_eq]
  refine .look (fun sign => ?_) fun c hc => ?_
  · unfold exponentFrom
    split
    · next hsign =>
      cases sign with
      | none => cases hsign
      | some c => exact Local.advance (.exponentDigits _ _ _ _) c
    · exact (Local.exponentDigits _ _ _ _).starts _
  · have hplus : c ≠ '+' := by rintro rfl; cases hc
    have hminus : c ≠ '-' := by rintro rfl; cases hc
    simp [exponentFrom, Json.exponentDigits, hplus, hminus]

theorem fractionFrom (negative : Bool) (significand : Nat) (exponent : Int) :
    Local (do fractionFrom negative significand exponent (← get).head?) := by
  refine .look (fun next => ?_) fun c hc => ?_
  · unfold Json.fractionFrom
    split
    · next hmark =>
      cases next with
      | none => cases hmark
      | some c => exact Local.advance (.readExponent _ _ _) c
    · exact (Local.readReal _ _ _).starts _
  · have hmark : isExponentMark (some c) = false := by
      simp [isNumberChar] at hc
      simp [isExponentMark, hc]
    simp only [Json.fractionFrom, hmark]
    rfl

theorem readFraction (negative : Bool) (significand dropped : Nat) :
    Local (readFraction negative significand dropped) := by
  rw [readFraction_eq]
  refine .bind .readDigits fun digits => ?_
  simp only
  split
  · exact .bind .failHere fun _ => .fractionFrom _ _ _
  · exact .fractionFrom _ _ _

theorem numberFrom (negative : Bool) (significand : Nat) (rest : List Char) :
    Local (do numberFrom negative significand rest (← get).head?) := by
  refine .look (fun next => ?_) fun c hc => ?_
  · unfold Json.numberFrom
    split
    · next hpoint =>
      subst hpoint
      exact Local.advance (.readFraction _ _ _) '.'
    · split
      · next hmark =>
        cases next with
        | none => cases hmark
        | some c => exact Local.advance (.readExponent _ _ _) c
      · refine Local.starts ?_ _
        split
        · exact .readReal _ _ _
        · split
          · exact .pure _
          · split
            · exact .readReal _ _ _
            · exact .pure _
  · have hpoint : c ≠ '.' := by rintro rfl; cases hc
    have hmark : isExponentMark (some c) = false := by
      simp [isNumberChar] at hc
      simp [isExponentMark, hc]
    simp only [Json.numberFrom, hmark, Option.some.injEq, hpoint]
    rfl

theorem readNumber (negative : Bool) : Local (readNumber negative) := by
  rw [readNumber_eq]
  refine .bind .readDigits fun digits => ?_
  unfold numberOf
  split
  · exact .failHere
  · exact .throw _
  · exact .numberFrom _ _ _

end Local

def atomFrom : Option Char → Reader Json
  | some 'n' => do readWord "null".toList; return .null
  | some 't' => do readWord "true".toList; return .bool true
  | some 'f' => do readWord "false".toList; return .bool false
  | some '"' => do advance; return .string (← readString)
  | some '-' => do advance; return .number (← readNumber true)
  | some c => if c.isDigit then do return .number (← readNumber false) else throw .malformed
  | none => throw .ended

theorem readAtom_eq : readAtom = peek >>= atomFrom := rfl

theorem atomFrom_digit {c : Char} (hc : c.isDigit) :
    atomFrom (some c) = (do return .number (← readNumber false)) := by
  unfold atomFrom
  split
  iterate 5 · next h => cases h; cases hc
  · next h => rw [← Option.some.inj h, if_pos hc]
  · next h => cases h

theorem isSpace_of_isDigit {c : Char} (hc : c.isDigit) : isSpace c = false := by
  cases hspace : isSpace c with
  | false => rfl
  | true =>
    simp only [isSpace, Bool.or_eq_true, decide_eq_true_eq] at hspace
    rcases hspace with ((rfl | rfl) | rfl) | rfl <;> cases hc

theorem readAtom_cons {c : Char} (h : isSpace c = false) (cs : List Char) :
    readAtom (c :: cs) = atomFrom (some c) (c :: cs) := by
  rw [readAtom_eq, reader_bind (peek_cons h)]

theorem readAtom_digit {c : Char} (hc : c.isDigit) (cs : List Char) :
    readAtom (c :: cs) = (do return Json.number (← readNumber false) : Reader Json) (c :: cs) := by
  rw [readAtom_cons (isSpace_of_isDigit hc), atomFrom_digit hc]

theorem readAtom_minus (cs : List Char) :
    readAtom ('-' :: cs) = (do return Json.number (← readNumber true) : Reader Json) cs := rfl

theorem readAtom_local {negative : Bool} {c : Char} (hc : c.isDigit) {cs cs' : List Char} {v : Json}
    (h : readAtom ((if negative then ['-'] else []) ++ c :: cs) = .ok (v, cs')) {rest : List Char}
    (hrest : Apart rest) :
    readAtom ((if negative then ['-'] else []) ++ c :: cs ++ rest) = .ok (v, cs' ++ rest) := by
  have hnumber : Local (do return Json.number (← readNumber negative) : Reader Json) :=
    .bind (.readNumber negative) fun _ => .pure _
  cases negative with
  | true => exact hnumber _ _ _ _ h hrest
  | false =>
    simp only [Bool.false_eq_true, if_false, List.nil_append, List.cons_append] at h ⊢
    rw [readAtom_digit hc] at h ⊢
    exact hnumber _ _ _ _ h hrest

end Json

namespace Number

open Numeral

theorem text_start (n : Number) :
    ∃ (negative : Bool) (c : Char) (cs : List Char),
      n.text = (if negative then ['-'] else []) ++ c :: cs ∧ c.isDigit := by
  cases n with
  | whole i =>
    cases i with
    | ofNat n =>
      obtain ⟨c, cs, hcs, hc⟩ := Lexer.decimal_start n
      exact ⟨false, c, cs, hcs, hc⟩
    | negSucc n =>
      obtain ⟨c, cs, hcs, hc⟩ := Lexer.decimal_start (n + 1)
      exact ⟨true, c, cs, congrArg ('-' :: ·) hcs, hc⟩
  | real x =>
    have hwrite : ∃ c cs, Double.layout.write x.decimal = c :: cs ∧ c.isDigit := by
      unfold Layout.write
      simp only
      split
      · rcases Lexer.positional_text x.decimal.digits x.decimal.exponent with h | ⟨_, _, h⟩
        · exact h.head
        · exact h.head
      · obtain ⟨c, cs, hcs, hc⟩ := Lexer.decimal_start x.decimal.digits
        rw [hcs]
        cases cs with
        | nil => exact ⟨c, _, rfl, hc⟩
        | cons d cs => exact ⟨c, _, rfl, hc⟩
    obtain ⟨c, cs, hcs, hc⟩ := hwrite
    exact ⟨x.negative, c, cs, by rw [text, Double.text, hcs], hc⟩

/-- What is read from the text of a number. -/
def reread? (n : Number) : Option Number :=
  match Json.readAtom n.text with
  | .ok (.number m, []) => some m
  | _ => none

/-- The number is read back from its text. -/
def Kept (n : Number) : Prop := n.reread? = some n

instance (n : Number) : Decidable n.Kept := inferInstanceAs (Decidable (_ = _))

theorem kept_iff (n : Number) : n.Kept ↔ Json.readAtom n.text = .ok (.number n, []) := by
  unfold Kept reread?
  split
  · next m h => simp [h]
  · next hno => exact ⟨nofun, fun h => absurd h (hno n)⟩

theorem Kept.readAtom {n : Number} (hn : n.Kept) {rest : List Char} (hrest : Json.Apart rest) :
    Json.readAtom (n.text ++ rest) = .ok (.number n, rest) := by
  obtain ⟨negative, c, cs, htext, hc⟩ := n.text_start
  have hread := (kept_iff n).1 hn
  rw [htext] at hread ⊢
  exact Json.readAtom_local hc hread hrest

end Number

namespace Json

open Numeral

/-- Digits that fit the significand are all taken into it. -/
theorem accumulate_eq (ds : List Char) (n : Nat)
    (h : ds.foldl (fun n c => 10 * n + digitValue c) n < UInt64.size) :
    accumulate n ds = (ds.foldl (fun n c => 10 * n + digitValue c) n, []) := by
  induction ds generalizing n with
  | nil => rfl
  | cons c ds ih =>
    have hgrow : ∀ (ds : List Char) (n : Nat),
        n ≤ ds.foldl (fun n c => 10 * n + digitValue c) n := by
      intro ds
      induction ds with
      | nil => exact fun n => le_refl n
      | cons c ds ih => exact fun n => le_trans (by omega) (ih (10 * n + digitValue c))
    rw [accumulate, if_pos (lt_of_le_of_lt (hgrow ds _) h)]
    exact ih _ h

theorem numberOf_decimal (negative : Bool) {n : Nat} (hn : n < UInt64.size) :
    numberOf negative (decimal n) = (do numberFrom negative n [] (← get).head?) := by
  have hacc : accumulate 0 (decimal n) = (value 10 (decimal n), []) := by
    refine accumulate_eq _ _ ?_
    change value 10 (decimal n) < _
    rwa [value_decimal]
  rw [value_decimal] at hacc
  unfold numberOf
  split
  · next h => exact absurd h (decimal_ne_nil n)
  · next h =>
    rcases Nat.eq_zero_or_pos n with rfl | hpos
    · cases h
    · exact absurd (by rw [h]; rfl) (decimal_head hpos.ne')
  · rw [hacc]

theorem readNumber_decimal (negative : Bool) {n : Nat} (hn : n < UInt64.size) :
    readNumber negative (decimal n) = numberFrom negative n [] none [] := by
  have hdigits : readDigits (decimal n) = .ok (decimal n, []) := by
    change Except.ok ((decimal n).takeWhile Char.isDigit, (decimal n).dropWhile Char.isDigit) = _
    rw [List.takeWhile_eq_self_iff.2 fun c hc => decimal_isDigit hc,
      List.dropWhile_eq_nil_iff.2 fun c hc => decimal_isDigit hc]
  rw [readNumber_eq, reader_bind hdigits, numberOf_decimal negative hn]
  rfl

end Json

/-- Fits 64 bits, if it is whole. -/
def Number.InRange : Number → Prop
  | .whole i => -9223372036854775808 ≤ i ∧ i < UInt64.size
  | .real _ => True

theorem Number.kept_whole {i : Int} (h : (Number.whole i).InRange) : (Number.whole i).Kept := by
  rw [kept_iff]
  obtain ⟨hlow, hhigh⟩ := h
  cases i with
  | ofNat n =>
    have hn : n < UInt64.size := Int.ofNat_lt.1 hhigh
    obtain ⟨c, cs, hcs, hc⟩ := Lexer.decimal_start n
    have hread := Json.readNumber_decimal false hn
    rw [hcs] at hread
    rw [text, Numeral.integer, hcs, Json.readAtom_digit hc, Json.reader_bind hread]
    rfl
  | negSucc n =>
    have hn : n + 1 < UInt64.size := by
      have : n < 9223372036854775808 := by omega
      exact lt_of_le_of_lt this (by decide)
    have hread := Json.readNumber_decimal true hn
    rw [Json.numberFrom] at hread
    have hfits : ¬9223372036854775808 < n + 1 := by omega
    simp only [Json.isExponentMark, hfits, reduceCtorEq, decide_false, Bool.or_self,
      Bool.false_eq_true, if_false, List.isEmpty_nil, Bool.not_true, Nat.succ_ne_zero] at hread
    rw [text, Numeral.integer, Json.readAtom_minus, Json.reader_bind hread]
    rfl

end ShaderLift
