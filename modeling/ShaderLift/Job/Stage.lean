/-!
The stages of a pipeline that a job can have shaders for.
-/

namespace ShaderLift

inductive Stage where
  | vertex
  | fragment
  | compute
  deriving DecidableEq, Repr

namespace Stage

/-- In the order of the pipeline. -/
def all : List Stage := [vertex, fragment, compute]

def rank : Stage → Nat
  | vertex => 0
  | fragment => 1
  | compute => 2

def extension : Stage → String
  | vertex => "vert"
  | fragment => "frag"
  | compute => "comp"

def ofExtension? (ext : String) : Option Stage := all.find? fun s => s.extension = ext

end Stage
end ShaderLift
