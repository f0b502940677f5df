/-!
What is asked of a file system, whether it is the machine's or a tree held in memory, and the names
of files that differ in their extension only.
-/

namespace ShaderLift

inductive FileError where
  | notFound
  | notADirectory
  | isADirectory
  | notText
  | nameTooLong
  | nulInName
  | accessDenied
  | other (text : String)
  deriving DecidableEq, Repr

def FileError.message : FileError → String
  | notFound => "No such file or directory (os error 2)"
  | notADirectory => "Not a directory (os error 20)"
  | isADirectory => "Is a directory (os error 21)"
  | notText => "stream did not contain valid UTF-8"
  | nameTooLong => "File name too long (os error 36)"
  | nulInName => "file name contained an unexpected NUL byte"
  | accessDenied => "Permission denied (os error 13)"
  | other text => text

structure FileSystem (m : Type → Type) where
  read : String → m (Except FileError String)
  exists? : String → m Bool
  write : String → String → m (Except FileError Unit)

namespace FileName

/-- A reversed path without the separators and single dots at its end. -/
def trimTail : List Char → List Char
  | '/' :: rest => trimTail rest
  | '.' :: '/' :: rest => trimTail ('/' :: rest)
  | cs => cs

/-- A name before its last dot, unless that is its first character. -/
def stem (name : List Char) : List Char :=
  match name.reverse.dropWhile (· ≠ '.') with
  | _ :: c :: before => (c :: before).reverse
  | _ => name

/-- A path without what follows the last dot of its last name, if something stands before that
dot. The dot itself stays, so the rest can be a step to the parent directory. -/
def dropExtension (path : List Char) : List Char :=
  let (name, folder) := path.reverse.span (· ≠ '/')
  match name.dropWhile (· ≠ '.') with
  | dot :: c :: before => (dot :: c :: before ++ folder).reverse
  | _ => path

/-- Puts an extension after the stem of the last name; a path that ends in no name stays. -/
def setExtension (path extension : List Char) : List Char :=
  let tail := trimTail path.reverse
  let name := (tail.takeWhile (· ≠ '/')).reverse
  if name = [] || name = ['.'] || name = ['.', '.'] then path
  else (tail.drop name.length).reverse ++ stem name ++ '.' :: extension

/-- The path with another extension for its last name. -/
def withExtension (path extension : String) : String :=
  String.ofList (setExtension (dropExtension path.toList) extension.toList)

end FileName
end ShaderLift
