import ShaderLift.CommandLine.Run

/-!
The command on the machine's own files.
-/

namespace ShaderLift.CommandLine

def fileError : IO.Error → FileError
  | .noFileOrDirectory _ _ _ => .notFound
  | .inappropriateType _ code _ => if code = 21 then .isADirectory else .notADirectory
  | .invalidArgument _ code _ => if code = 22 then .nulInName else .nameTooLong
  | .permissionDenied _ _ _ => .accessDenied
  | e => .other (toString e)

def machine : FileSystem IO where
  read path := do
    try
      match String.fromUTF8? (← IO.FS.readBinFile path) with
      | some text => return .ok text
      | none => return .error .notText
    catch e => return .error (fileError e)
  exists? path := do
    try
      discard (IO.FS.Handle.mk path .read)
      return true
    catch e =>
      return !(fileError e matches .notFound | .notADirectory | .nulInName | .nameTooLong)
  write path text := do
    try
      IO.FS.writeFile path text
      return .ok ()
    catch e => return .error (fileError e)

end ShaderLift.CommandLine

open ShaderLift.CommandLine in
def main (args : List String) : IO UInt32 := do
  let outcome ← run machine args
  IO.print outcome.output
  outcome.messages.forM IO.eprintln
  return outcome.exit.toUInt32
