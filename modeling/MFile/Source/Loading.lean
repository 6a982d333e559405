import MFile.Source.Text

/-!
Source text from a file. What reading a path gives is a value, so loading is a function of it;
`Files.bare` is a system that holds nothing but a root directory and the empty device.
-/

namespace MFile

inductive ReadFailure
  | notFound
  | isDirectory
deriving DecidableEq, Repr

def ReadFailure.reason : ReadFailure → String
  | .notFound => "No such file or directory (os error 2)"
  | .isDirectory => "Is a directory (os error 21)"

abbrev Files := String → Except ReadFailure ByteArray

def Files.bare : Files := fun path =>
  if path = "/" then .error .isDirectory
  else if path = "/dev/null" then .ok .empty
  else .error .notFound

structure SourceError where
  path : String
  failure : ReadFailure
deriving DecidableEq, Repr

def SourceError.message (e : SourceError) : String := s!"cannot read {e.path}: {e.failure.reason}"

def SourceText.load (files : Files) (path : String) (settings : Settings) :
    Except SourceError SourceText :=
  match files path with
  | .ok bytes => .ok (ofBytes path bytes settings)
  | .error failure => .error ⟨path, failure⟩

end MFile
