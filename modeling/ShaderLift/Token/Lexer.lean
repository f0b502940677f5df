import ShaderLift.Text.Blank
import ShaderLift.Text.Bytes
import ShaderLift.Text.Quoted
import ShaderLift.Token.Basic

/-!
Cutting a shader source into tokens. At each place the longest piece is taken: a gap (white space
or a comment), a token, or a stretch that is neither, which is reported and passed over. Places
are byte offsets of the UTF-8 text.
-/

namespace ShaderLift

structure Span where
  start : Nat
  stop : Nat
  deriving DecidableEq, Repr

/-- A stretch of the source that is no token. -/
structure LexError where
  span : Span
  slice : List Char
  deriving DecidableEq, Repr

def LexError.message (e : LexError) : String :=
  String.ofList ("unexpected input: ".toList ++ Text.quoted e.slice)

structure Lexed where
  tokens : List (Token × Span)
  errors : List LexError
  deriving DecidableEq, Repr

namespace Lexer

/-- What the next piece of the source is. -/
inductive Piece where
  | gap
  | token (t : Token)
  | error
  deriving DecidableEq, Repr

def isGapChar (c : Char) : Bool :=
  c = ' ' || c = '\t' || c = '\r' || c = '\n' || c = '\x0c'

def isIdentStart (c : Char) : Bool := c.isAlpha || c = '_'

def isIdentChar (c : Char) : Bool := c.isAlphanum || c = '_'

/-- The text up to and with the first end of a block comment. -/
def blockComment : List Char → Option (List Char)
  | '*' :: '/' :: _ => some ['*', '/']
  | c :: cs => (blockComment cs).map (c :: ·)
  | [] => none

/-- The exponent at the front of the text, if there is a whole one. -/
def exponentPart (cs : List Char) : List Char :=
  match cs with
  | e :: rest =>
    if e = 'e' || e = 'E' then
      match rest with
      | s :: more =>
        let (sign, digits) :=
          if s = '+' || s = '-' then ([s], more.takeWhile Char.isDigit)
          else ([], rest.takeWhile Char.isDigit)
        if digits.isEmpty then [] else e :: sign ++ digits
      | [] => []
    else []
  | [] => []

def exponentValue : List Char → Int
  | _ :: '-' :: digits => -Numeral.value 10 digits
  | _ :: '+' :: digits => Numeral.value 10 digits
  | _ :: digits => Numeral.value 10 digits
  | [] => 0

def floatSuffix : List Char → List Char
  | c :: _ => if c = 'f' || c = 'F' then [c] else []
  | [] => []

def uintSuffix : List Char → List Char
  | c :: _ => if c = 'u' || c = 'U' then [c] else []
  | [] => []

/-- The hexadecimal number at the front of the text, with its mark. -/
def hexPart : List Char → List Char
  | '0' :: x :: rest =>
    let digits := rest.takeWhile Numeral.isHexDigit
    if (x = 'x' || x = 'X') && !digits.isEmpty then '0' :: x :: digits else []
  | _ => []

/-- The number that an integer literal's digits denote: hexadecimal after `0x`, octal after a
leading zero, decimal otherwise. There is none beyond 32 bits or with a digit too large. -/
def integerValue (digits : List Char) : Option UInt32 :=
  let fits (n : Nat) : Option UInt32 := if n < UInt32.size then some (.ofNat n) else none
  match digits with
  | '0' :: 'x' :: hex => fits (Numeral.value 16 hex)
  | '0' :: 'X' :: hex => fits (Numeral.value 16 hex)
  | '0' :: octal =>
    if octal.all fun c => Numeral.digitValue c < 8 then fits (Numeral.value 8 octal) else none
  | _ => fits (Numeral.value 10 digits)

def integerPiece (digits : List Char) (unsigned : Bool) : Piece :=
  match integerValue digits with
  | some n => .token (if unsigned then .uint n else .int n.toInt32)
  | none => .error

def floatPiece (whole fraction exponent : List Char) : Piece :=
  match Single.ofDecimal? (Numeral.value 10 (whole ++ fraction))
      (exponentValue exponent - fraction.length) with
  | some x => .token (.float x)
  | none => .error

/-- The number at the front of a text that starts with a digit, or with a point and a digit. -/
def number (cs : List Char) : Piece × List Char :=
  let hex := hexPart cs
  if !hex.isEmpty then
    let suffix := uintSuffix (cs.drop hex.length)
    (integerPiece hex (!suffix.isEmpty), hex ++ suffix)
  else
    let whole := cs.takeWhile Char.isDigit
    match cs.dropWhile Char.isDigit with
    | '.' :: rest =>
      let fraction := rest.takeWhile Char.isDigit
      let exponent := exponentPart (rest.dropWhile Char.isDigit)
      let suffix := floatSuffix ((rest.dropWhile Char.isDigit).drop exponent.length)
      (floatPiece whole fraction exponent, whole ++ '.' :: fraction ++ exponent ++ suffix)
    | rest =>
      let exponent := exponentPart rest
      if exponent.isEmpty then
        let suffix := uintSuffix rest
        (integerPiece whole (!suffix.isEmpty), whole ++ suffix)
      else
        let suffix := floatSuffix (rest.drop exponent.length)
        (floatPiece whole [] exponent, whole ++ exponent ++ suffix)

def word (name : List Char) : Token :=
  match Keyword.ofText? name with
  | some k => .keyword k
  | none =>
    if name = "true".toList then .bool true
    else if name = "false".toList then .bool false
    else .ident (String.ofList name)

/-- The longest symbol at the front of the text. -/
def symbol (cs : List Char) : Piece × List Char :=
  match Symbol.ofText? (cs.take 2) with
  | some s => (.token (.symbol s), s.text)
  | none =>
    match Symbol.ofText? (cs.take 1) with
    | some s => (.token (.symbol s), s.text)
    | none => (.error, cs.take 1)

/-- The piece at the front of the text and the characters it is made of. -/
def piece (cs : List Char) : Piece × List Char :=
  match cs with
  | [] => (.gap, [])
  | '/' :: '/' :: rest => (.gap, '/' :: '/' :: rest.takeWhile (· ≠ '\n'))
  | '/' :: '*' :: rest =>
    match blockComment rest with
    | some comment => (.gap, '/' :: '*' :: comment)
    | none => (.error, cs)
  | c :: rest =>
    if isGapChar c then (.gap, cs.takeWhile isGapChar)
    else if c = '#' then
      let line := cs.takeWhile (· ≠ '\n')
      (.token (.directive (String.ofList (Text.trimEnd line))), line)
    else if isIdentStart c then
      let name := cs.takeWhile isIdentChar
      (.token (word name), name)
    else if c.isDigit || (c = '.' && (rest.head?.any Char.isDigit)) then number cs
    else symbol cs

/-- The pieces of the text from byte `start` on, each with its span and characters. -/
def piecesFrom : Nat → Nat → List Char → List (Piece × Span × List Char)
  | 0, _, _ => []
  | fuel + 1, start, cs =>
    if cs.isEmpty then []
    else
      let (kind, slice) := piece cs
      let stop := start + Text.byteLength slice
      (kind, ⟨start, stop⟩, slice) :: piecesFrom fuel stop (cs.drop slice.length)

/-- Every piece has at least one character, so as many steps as characters are enough. -/
def pieces (cs : List Char) : List (Piece × Span × List Char) := piecesFrom cs.length 0 cs

def tokenOf : Piece × Span × List Char → Option (Token × Span)
  | (.token t, span, _) => some (t, span)
  | _ => none

def errorOf : Piece × Span × List Char → Option LexError
  | (.error, span, slice) => some ⟨span, slice⟩
  | _ => none

end Lexer

def lex (source : List Char) : Lexed :=
  let pieces := Lexer.pieces source
  ⟨pieces.filterMap Lexer.tokenOf, pieces.filterMap Lexer.errorOf⟩

end ShaderLift
