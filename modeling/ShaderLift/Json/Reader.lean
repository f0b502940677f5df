import ShaderLift.Json.Value
import ShaderLift.Text.Bytes

/-!
Reading JSON text. The first place where the text goes wrong decides what is wrong with it: that
it ended too early, or that it is malformed there.
-/

namespace ShaderLift

inductive JsonError where
  | ended
  | malformed
  deriving DecidableEq, Repr

namespace Json

abbrev Reader := StateT (List Char) (Except JsonError)

def isSpace (c : Char) : Bool := c = ' ' || c = '\n' || c = '\t' || c = '\r'

/-- The next character after white space, which stays in the text. -/
def peek : Reader (Option Char) := do
  modify (List.dropWhile isSpace)
  return (← get).head?

/-- Drops a character that was looked at. -/
def advance : Reader Unit := modify List.tail

/-- The next character of all. -/
def nextChar : Reader Char := do
  match ← get with
  | c :: cs => set cs; return c
  | [] => throw .ended

/-- Reads exactly these characters. -/
def readWord : List Char → Reader Unit
  | [] => return ()
  | w :: ws => do
    if (← nextChar) = w then readWord ws else throw .malformed

/-- Fails as the text ends or goes on. -/
def failHere {α : Type} : Reader α := do
  if (← get).isEmpty then throw .ended else throw .malformed

/-- Appends digits to a 64-bit significand while it has room. The other digits are returned. -/
def accumulate (significand : Nat) : List Char → Nat × List Char
  | [] => (significand, [])
  | c :: cs =>
    let more := 10 * significand + Numeral.digitValue c
    if more < UInt64.size then accumulate more cs else (significand, c :: cs)

/-- The double nearest to a power of ten. -/
def powerOfTen (n : Nat) : Nat := Numeral.BinaryFormat.double.ofDecimal 1 n

/-- Divides by a power of ten, in steps of the greatest that is finite. -/
def divide : Nat → Nat → Nat → Nat
  | 0, x, _ => x
  | fuel + 1, x, n =>
    if n ≤ 308 then Numeral.BinaryFormat.double.quotient x (powerOfTen n)
    else if x = 0 then 0
    else divide fuel (Numeral.BinaryFormat.double.quotient x (powerOfTen 308)) (n - 308)

/-- The significand, rounded to a double, times or divided by the double nearest to the power of
ten, and rounded again. There is none beyond the finite numbers. -/
def scaled (significand : Nat) (exponent : Int) : Option Nat :=
  let x := Numeral.BinaryFormat.double.nearest significand 1
  let n := exponent.natAbs
  if exponent < 0 then some (divide (n / 308 + 1) x n)
  else if x = 0 then some 0
  else if 308 < n then none
  else
    let product := Numeral.BinaryFormat.double.product x (powerOfTen n)
    if product < Numeral.BinaryFormat.double.infinity then some product else none

def readReal (negative : Bool) (significand : Nat) (exponent : Int) : Reader Number :=
  match scaled significand exponent with
  | some pattern => return .real (.ofPattern negative pattern)
  | none => throw .malformed

def readDigits : Reader (List Char) :=
  modifyGet fun cs => (cs.takeWhile Char.isDigit, cs.dropWhile Char.isDigit)

/-- The exponent after its mark. One beyond 31 bits makes a zero, or no number at all. -/
def readExponent (negative : Bool) (significand : Nat) (start : Int) : Reader Number := do
  let sign := (← get).head?
  if sign = some '+' || sign = some '-' then advance
  let digits ← readDigits
  if digits.isEmpty then failHere
  let n := Numeral.value 10 digits
  let exponent := if sign = some '-' then start - n else start + n
  if n < 2147483648 then readReal negative significand exponent
  else if significand ≠ 0 && sign ≠ some '-' then throw .malformed
  else return .real (.ofPattern negative 0)

def isExponentMark (c : Option Char) : Bool := c = some 'e' || c = some 'E'

/-- The digits after the point. -/
def readFraction (negative : Bool) (significand : Nat) (dropped : Nat) : Reader Number := do
  let digits ← readDigits
  if digits.isEmpty then failHere
  let (significand, rest) := accumulate significand digits
  let exponent := (dropped : Int) - (digits.length - rest.length)
  if isExponentMark (← get).head? then
    advance
    readExponent negative significand exponent
  else readReal negative significand exponent

/-- A number without its sign. -/
def readNumber (negative : Bool) : Reader Number := do
  let digits ← readDigits
  match digits with
  | [] => failHere
  | '0' :: _ :: _ => throw .malformed
  | _ =>
    let (significand, rest) := accumulate 0 digits
    let next := (← get).head?
    if next = some '.' then
      advance
      readFraction negative significand rest.length
    else if isExponentMark next then
      advance
      readExponent negative significand rest.length
    else if !rest.isEmpty then readReal negative significand rest.length
    else if !negative then return .whole significand
    else if significand = 0 || 9223372036854775808 < significand then readReal true significand 0
    else return .whole (-significand)

/-- Four hexadecimal digits. -/
def readHexUnit : Reader Nat := do
  let cs ← get
  if Text.byteLength cs < 4 then throw .ended
  let digits := cs.take 4
  if digits.all Numeral.isHexDigit then
    set (cs.drop 4)
    return Numeral.value 16 digits
  else throw .malformed

/-- The character after the mark of a numeric escape; two units where the first asks for it. -/
def readUnicodeEscape : Reader Char := do
  let high ← readHexUnit
  if 0xdc00 ≤ high && high ≤ 0xdfff then throw .malformed
  if 0xd800 ≤ high && high ≤ 0xdbff then
    readWord ['\\', 'u']
    let low ← readHexUnit
    if 0xdc00 ≤ low && low ≤ 0xdfff then
      return .ofNat (0x10000 + (high - 0xd800) * 0x400 + (low - 0xdc00))
    else throw .malformed
  else return .ofNat high

/-- The character after a backslash. -/
def readEscape : Reader Char := do
  let c ← nextChar
  if c = '"' || c = '\\' || c = '/' then return c
  else if c = 'b' then return '\x08'
  else if c = 'f' then return '\x0c'
  else if c = 'n' then return '\n'
  else if c = 'r' then return '\r'
  else if c = 't' then return '\t'
  else if c = 'u' then readUnicodeEscape
  else throw .malformed

/-- A string after its opening quote. Every step takes at least one character. -/
def readStringBody : Nat → Reader (List Char)
  | 0 => throw .ended
  | fuel + 1 => do
    let c ← nextChar
    if c = '"' then return []
    else if c = '\\' then return (← readEscape) :: (← readStringBody fuel)
    else if c.toNat < 32 then throw .malformed
    else return c :: (← readStringBody fuel)

def readString : Reader String :=
  return String.ofList (← readStringBody ((← get).length + 1))

/-- The items of an array after the first, up to its end. -/
def readMoreItems (item : Reader Json) : Nat → Reader (List Json)
  | 0 => throw .ended
  | fuel + 1 => do
    match ← peek with
    | some ']' => advance; return []
    | some ',' =>
      advance
      if (← peek) = some ']' then throw .malformed
      return (← item) :: (← readMoreItems item fuel)
    | _ => failHere

def readItems (item : Reader Json) : Reader (List Json) := do
  if (← peek) = some ']' then
    advance
    return []
  return (← item) :: (← readMoreItems item ((← get).length + 1))

/-- A name and its value. -/
def readField (item : Reader Json) : Reader (String × Json) := do
  if (← peek) ≠ some '"' then failHere
  advance
  let name ← readString
  if (← peek) ≠ some ':' then failHere
  advance
  return (name, ← item)

/-- The fields of an object after the first, up to its end. -/
def readMoreFields (item : Reader Json) : Nat → Reader (List (String × Json))
  | 0 => throw .ended
  | fuel + 1 => do
    match ← peek with
    | some '\x7d' => advance; return []
    | some ',' =>
      advance
      return (← readField item) :: (← readMoreFields item fuel)
    | _ => failHere

/-- The fields of an object after its opening brace, as they stand in the text. -/
def readFields (item : Reader Json) : Reader (List (String × Json)) := do
  if (← peek) = some '\x7d' then
    advance
    return []
  return (← readField item) :: (← readMoreFields item ((← get).length + 1))

/-- A value that is neither array nor object. -/
def readAtom : Reader Json := do
  match ← peek with
  | some 'n' => readWord "null".toList; return .null
  | some 't' => readWord "true".toList; return .bool true
  | some 'f' => readWord "false".toList; return .bool false
  | some '"' => advance; return .string (← readString)
  | some '-' => advance; return .number (← readNumber true)
  | some c => if c.isDigit then return .number (← readNumber false) else throw .malformed
  | none => throw .ended

/-- A value whose arrays and objects nest at most `room` deep. -/
def readValue : Nat → Reader Json
  | 0 => readAtom
  | room + 1 => do
    match ← peek with
    | some '[' => advance; return .array (← readItems (readValue room))
    | some '\x7b' => advance; return .object (← readFields (readValue room))
    | _ => readAtom

end Json
end ShaderLift
