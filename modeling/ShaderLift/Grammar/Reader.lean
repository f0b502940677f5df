import ShaderLift.Token.Basic

/-!
Readers of token lists. A reader takes tokens off the front or fails without taking any; the first
of two alternatives that succeeds is final.
-/

namespace ShaderLift.Grammar

abbrev Reader := StateT (List Token) Option

/-- Takes one token, if it is of the wanted sort. -/
def next {α : Type} (select : Token → Option α) : Reader α := fun
  | t :: ts => (select t).map fun a => (a, ts)
  | [] => none

def symbol (s : Symbol) : Reader Unit := next fun t => if t = .symbol s then some () else none

def keyword (k : Keyword) : Reader Unit := next fun t => if t = .keyword k then some () else none

def ident : Reader String := next fun
  | .ident name => some name
  | _ => none

/-- As many in a row as there are, but no more than `limit`. -/
def many {α : Type} (limit : Nat) (item : Reader α) : Reader (List α) :=
  match limit with
  | 0 => return []
  | limit + 1 => (do return (← item) :: (← many limit item)) <|> return []

def many1 {α : Type} (limit : Nat) (item : Reader α) : Reader (List α) :=
  return (← item) :: (← many limit item)

/-- One or more with commas between; a comma with nothing after it is not taken. -/
def commaList1 {α : Type} (limit : Nat) (item : Reader α) : Reader (List α) :=
  return (← item) :: (← many limit do symbol .comma; item)

def commaList {α : Type} (limit : Nat) (item : Reader α) : Reader (List α) :=
  commaList1 limit item <|> return []

def between {α : Type} (left right : Symbol) (inner : Reader α) : Reader α := do
  symbol left
  let a ← inner
  symbol right
  return a

end ShaderLift.Grammar
