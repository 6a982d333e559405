import MFile.Report.Collector
import MFile.Report.Json

/-!
The report for programs: everything a collector has released, as an indented JSON document. A
location leaves out the source line, and an end or a hint that is not there leaves no trace.
-/

namespace MFile

def Columns.json (c : Columns) : Json :=
  .object [("start", .number c.first), ("end", .number c.last)]

def Position.json (p : Position) : Json :=
  .object [("line", .number p.line), ("column", .number p.column)]

def Location.json (l : Location) : Json :=
  .object ([("filename", .string l.file), ("line", .ofOption .number l.line?),
      ("columns", .ofOption Columns.json l.columns?)] ++
    (l.stop?.map fun p => ("end", p.json)).toList)

def Message.json (m : Message) : Json :=
  .object ([("location", m.location.json), ("severity", .string m.severity.key),
      ("message", .string m.text)] ++
    (m.hint.map fun h => ("hint", .string h)).toList ++ [("fatal", .bool m.fatal)])

def Summary.json (s : Summary) : Json :=
  .object [("info", .number s.info), ("style", .number s.style), ("warning", .number s.warning),
    ("lex_error", .number s.lexError), ("error", .number s.error)]

namespace Collector

def json (c : Collector) : Json :=
  .object [("version", .number 1), ("success", .bool !c.summary.hasErrors),
    ("files", .number c.files), ("summary", c.summary.json),
    ("messages", .array (c.released.map Message.json))]

def report (c : Collector) : String := c.json.pretty

end Collector

end MFile
