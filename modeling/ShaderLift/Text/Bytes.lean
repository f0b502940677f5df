/-!
The length of a text in UTF-8 bytes.
-/

namespace ShaderLift.Text

def byteLength : List Char → Nat
  | [] => 0
  | c :: cs => c.utf8Size + byteLength cs

end ShaderLift.Text
