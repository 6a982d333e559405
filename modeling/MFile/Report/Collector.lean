import MFile.Report.Message

/-!
Messages are gathered file by file while files are worked on, and released when a file is done:
sorted by location, with equal neighbours merged. Files may be worked on in any order, or side by
side, without mixing what is said about them. The collector also counts what it has released.
-/

namespace MFile

structure Summary where
  info : Nat := 0
  style : Nat := 0
  warning : Nat := 0
  lexError : Nat := 0
  error : Nat := 0
deriving DecidableEq, Repr

namespace Summary

def record (s : Summary) : Severity → Summary
  | .info => { s with info := s.info + 1 }
  | .style => { s with style := s.style + 1 }
  | .warning => { s with warning := s.warning + 1 }
  | .lexError => { s with lexError := s.lexError + 1 }
  | .error => { s with error := s.error + 1 }

def count (s : Summary) : Severity → Nat
  | .info => s.info
  | .style => s.style
  | .warning => s.warning
  | .lexError => s.lexError
  | .error => s.error

def total (s : Summary) : Nat := s.info + s.style + s.warning + s.lexError + s.error

def hasErrors (s : Summary) : Bool := 0 < s.lexError + s.error

end Summary

structure Collector where
  pending : List (String × List Message) := []
  released : List Message := []
  summary : Summary := {}
  files : Nat := 0

namespace Collector

def mergeRuns : List Message → List Message
  | [] => []
  | m :: rest =>
    match mergeRuns rest with
    | [] => [m]
    | next :: others => if m.agrees next then m :: others else m :: next :: others

def arrange (messages : List Message) : List Message :=
  mergeRuns (messages.mergeSort fun a b => (a.location.order b.location).isLE)

def gathered? (c : Collector) (file : String) : Option (List Message) := c.pending.lookup file

def without (c : Collector) (file : String) : List (String × List Message) :=
  c.pending.filter (·.1 != file)

/-- Opens a file. What was gathered for it before is dropped. -/
def register (c : Collector) (file : String) : Collector :=
  { c with pending := (file, []) :: c.without file }

/-- A message about a file that is not open opens it. -/
def emit (c : Collector) (m : Message) : Collector :=
  let file := m.location.file
  { c with pending := (file, (c.gathered? file).getD [] ++ [m]) :: c.without file }

/-- Closes a file and releases its messages; a file that is not open is left alone. -/
def unregister (c : Collector) (file : String) : Collector :=
  match c.gathered? file with
  | none => c
  | some messages =>
    let batch := arrange messages
    { pending := c.without file
      released := c.released ++ batch
      summary := batch.foldl (fun s m => s.record m.severity) c.summary
      files := c.files + 1 }

def fatal (c : Collector) : Bool := c.released.any (·.fatal)

def exitCode (c : Collector) : Nat := if c.summary.hasErrors then 1 else 0

end Collector

end MFile
