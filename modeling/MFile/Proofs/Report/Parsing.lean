import MFile.Proofs.Grammar.Blame.Files
import MFile.Proofs.Report.Interleaving

/-!
Parsing a file in front of a collector. The file is open while it is parsed and no longer; what is
said about it, at most its one error, is released at once, and the other files do not notice.
-/

namespace MFile

namespace Message

theorem ofParseError_location (e : ParseError) :
    (Message.ofParseError e).location = e.location := by
  cases e <;> rfl

end Message

namespace Collector

variable (c : Collector)

theorem arrange_nil : arrange [] = [] := by
  rw [arrange, List.mergeSort_nil]
  rfl

theorem arrange_singleton (m : Message) : arrange [m] = [m] := by
  rw [arrange, List.mergeSort_singleton]
  rfl

theorem unregister_of_gathered {file : String} {messages : List Message}
    (h : c.gathered? file = some messages) :
    (c.unregister file).released = c.released ++ arrange messages ∧
      (c.unregister file).files = c.files + 1 := by
  rw [unregister, h]
  exact ⟨rfl, rfl⟩

variable (source : SourceText) (settings : Settings)

/-- After a parse its file is closed and counted, what was gathered for any other file is still
there, and the only news is the error, which names the file, if there is one. -/
theorem parse_reports :
    (∀ file, (c.parse source settings).2.gathered? file =
      if file = source.name then none else c.gathered? file) ∧
    (c.parse source settings).2.files = c.files + 1 ∧
    ((∃ unit, FileUnit.ofSource source settings = .ok unit ∧
        (c.parse source settings).1 = some unit ∧
        (c.parse source settings).2.released = c.released) ∨
      ∃ e, FileUnit.ofSource source settings = .error e ∧ e.location.file = source.name ∧
        (c.parse source settings).1 = none ∧
        (c.parse source settings).2.released = c.released ++ [Message.ofParseError e]) := by
  have hopened : (c.register source.name).gathered? source.name = some [] := by
    rw [gathered?_register, if_pos rfl]
  rw [parse]
  cases hparse : FileUnit.ofSource source settings with
  | ok unit =>
    obtain ⟨hreleased, hfiles⟩ := unregister_of_gathered _ hopened
    rw [arrange_nil, List.append_nil] at hreleased
    refine ⟨fun file => ?_, hfiles, .inl ⟨unit, rfl, rfl, hreleased⟩⟩
    dsimp only
    rw [gathered?_unregister, gathered?_register]
    split <;> rfl
  | error e =>
    have hfile := FileUnit.error_file hparse
    have hemitted : ((c.register source.name).emit (.ofParseError e)).gathered? source.name =
        some [.ofParseError e] := by
      rw [gathered?_emit, Message.ofParseError_location, hfile, if_pos rfl, hopened]
      rfl
    obtain ⟨hreleased, hfiles⟩ := unregister_of_gathered _ hemitted
    rw [arrange_singleton] at hreleased
    refine ⟨fun file => ?_, hfiles, .inr ⟨e, rfl, hfile, rfl, hreleased⟩⟩
    dsimp only
    rw [gathered?_unregister, gathered?_emit, gathered?_register, Message.ofParseError_location,
      hfile]
    split <;> rfl

end Collector

end MFile
