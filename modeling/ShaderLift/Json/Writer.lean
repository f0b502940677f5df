import ShaderLift.Json.Value

/-!
The text of JSON values, without any spaces or with a line to every item.
-/

namespace ShaderLift

def Number.text : Number → List Char
  | whole i => Numeral.integer i
  | real x => x.text

namespace Json

/-- Quotes, backslashes and control characters are escaped, all else stands for itself. -/
def escapeChar (c : Char) : List Char :=
  if c = '"' then ['\\', '"']
  else if c = '\\' then ['\\', '\\']
  else if c = '\x08' then ['\\', 'b']
  else if c = '\x0c' then ['\\', 'f']
  else if c = '\n' then ['\\', 'n']
  else if c = '\r' then ['\\', 'r']
  else if c = '\t' then ['\\', 't']
  else if c.toNat < 16 then ['\\', 'u', '0', '0', '0'] ++ Numeral.hexadecimal c.toNat
  else if c.toNat < 32 then ['\\', 'u', '0', '0'] ++ Numeral.hexadecimal c.toNat
  else [c]

def stringText (s : String) : List Char := '"' :: s.toList.flatMap escapeChar ++ ['"']

mutual

def compact : Json → List Char
  | null => "null".toList
  | bool b => if b then "true".toList else "false".toList
  | number n => n.text
  | string s => stringText s
  | array items => '[' :: compactItems items ++ [']']
  | object fields => '\x7b' :: compactFields fields ++ ['\x7d']

def compactItems : List Json → List Char
  | [] => []
  | v :: rest => v.compact ++ compactMoreItems rest

def compactMoreItems : List Json → List Char
  | [] => []
  | v :: rest => ',' :: v.compact ++ compactMoreItems rest

def compactFields : List (String × Json) → List Char
  | [] => []
  | (name, v) :: rest => stringText name ++ ':' :: v.compact ++ compactMoreFields rest

def compactMoreFields : List (String × Json) → List Char
  | [] => []
  | (name, v) :: rest => ',' :: stringText name ++ ':' :: v.compact ++ compactMoreFields rest

end

/-- The start of a line at a depth. -/
def newLine (depth : Nat) : List Char := '\n' :: List.replicate (2 * depth) ' '

mutual

/-- The value with its items one level below `depth`. -/
def pretty (depth : Nat) : Json → List Char
  | null => "null".toList
  | bool b => if b then "true".toList else "false".toList
  | number n => n.text
  | string s => stringText s
  | array [] => ['[', ']']
  | array (v :: rest) =>
    '[' :: newLine (depth + 1) ++ v.pretty (depth + 1) ++ prettyMoreItems (depth + 1) rest ++
      newLine depth ++ [']']
  | object [] => ['\x7b', '\x7d']
  | object ((name, v) :: rest) =>
    '\x7b' :: newLine (depth + 1) ++ stringText name ++ ": ".toList ++ v.pretty (depth + 1) ++
      prettyMoreFields (depth + 1) rest ++ newLine depth ++ ['\x7d']

def prettyMoreItems (depth : Nat) : List Json → List Char
  | [] => []
  | v :: rest => ',' :: newLine depth ++ v.pretty depth ++ prettyMoreItems depth rest

def prettyMoreFields (depth : Nat) : List (String × Json) → List Char
  | [] => []
  | (name, v) :: rest =>
    ',' :: newLine depth ++ stringText name ++ ": ".toList ++ v.pretty depth ++
      prettyMoreFields depth rest

end

end Json
end ShaderLift
