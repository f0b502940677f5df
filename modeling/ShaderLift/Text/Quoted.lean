import ShaderLift.Numeral.Digits
import ShaderLift.Text.Combining
import ShaderLift.Text.Unprintable

/-!
A piece of text in double quotes for a message, with everything escaped that would not show.
-/

namespace ShaderLift.Text

def escapeChar (c : Char) : List Char :=
  if c = '"' then ['\\', '"']
  else if c = '\\' then ['\\', '\\']
  else if c = '\n' then ['\\', 'n']
  else if c = '\r' then ['\\', 'r']
  else if c = '\t' then ['\\', 't']
  else if c = '\x00' then ['\\', '0']
  else if isUnprintable c || isCombining c then
    ['\\', 'u', '\x7b'] ++ Numeral.hexadecimal c.toNat ++ ['\x7d']
  else [c]

def quoted (cs : List Char) : List Char :=
  '"' :: cs.flatMap escapeChar ++ ['"']

end ShaderLift.Text
