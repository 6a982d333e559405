import MFile.Proofs.Report.Interleaving
import MFile.Proofs.Text.Position
import MFile.Report.Document
import MFile.Report.Layout

/-!
The counts of a collector. They are kept while files are closed, in any order and however often;
the line under the formatted messages counts once more, and the report hands both on. All of them
are the numbers of released messages.
-/

namespace MFile

open Text

/-! ## Counting by severity -/

theorem Severity.isError_iff (s : Severity) :
    s.isError = true ↔ s = .error ∨ s = .lexError := by
  cases s <;> decide

namespace Summary

theorem count_record (summary : Summary) (s t : Severity) :
    (summary.record t).count s = summary.count s + if t = s then 1 else 0 := by
  cases s <;> cases t <;> rfl

theorem count_foldl (summary : Summary) (messages : List Message) (s : Severity) :
    (messages.foldl (fun counts m => counts.record m.severity) summary).count s =
      summary.count s + messages.countP (·.severity == s) := by
  induction messages generalizing summary with
  | nil => rfl
  | cons m messages ih =>
    rw [List.foldl_cons, ih, count_record, List.countP_cons]
    simp only [beq_iff_eq]
    omega

end Summary

namespace Message

theorem length_eq (messages : List Message) : messages.length =
    messages.countP (·.severity == .info) + messages.countP (·.severity == .style) +
      messages.countP (·.severity == .warning) + messages.countP (·.severity == .lexError) +
        messages.countP (·.severity == .error) := by
  induction messages with
  | nil => rfl
  | cons m messages ih =>
    simp only [List.length_cons, List.countP_cons, ih]
    cases m.severity <;> simp <;> omega

theorem countP_isError (messages : List Message) : messages.countP (·.severity.isError) =
    messages.countP (·.severity == .error) + messages.countP (·.severity == .lexError) := by
  induction messages with
  | nil => rfl
  | cons m messages ih =>
    simp only [List.countP_cons, ih]
    cases m.severity <;> simp [Severity.isError] <;> omega

end Message

/-! ## The line that counts -/

namespace Layout

def Lined (text : String) : Prop := text = "" ∨ ∃ body, text = body ++ "\n"

theorem Lined.append {a b : String} (ha : Lined a) (hb : Lined b) : Lined (a ++ b) := by
  rcases hb with rfl | ⟨body, rfl⟩
  · rwa [String.append_empty]
  · exact .inr ⟨a ++ body, (String.append_assoc ..).symm⟩

theorem Lined.lastLine {text : String} (h : Lined text) : lastLine text.toList = [] := by
  rcases h with rfl | ⟨body, rfl⟩
  · rfl
  · rw [String.toList_append]
    exact lastLine_concat body.toList '\n'

variable (layout : Layout)

theorem lined_source (location : Location) : Lined (layout.source location) := by
  rw [source]
  split
  · refine .append (.inr ⟨_, rfl⟩) ?_
    cases location.columns? with
    | none => exact .inl rfl
    | some columns => exact .inr ⟨_, rfl⟩
  · exact .inl rfl

theorem lined_format (m : Message) : Lined (layout.format m) := by
  have hheader : Lined (layout.header m) := .inr ⟨_, rfl⟩
  rw [format]
  refine hheader.append ?_
  split
  · refine (lined_source layout m.location).append ?_
    cases m.hint with
    | none => exact .inl rfl
    | some hint => exact .inr ⟨_, rfl⟩
  · exact .inl rfl

theorem lined_join (messages : List Message) :
    Lined (String.join (messages.map layout.format)) := by
  induction messages with
  | nil => exact .inl rfl
  | cons m messages ih =>
    rw [List.map_cons, String.join_cons]
    exact (lined_format layout m).append ih

theorem break_notMem_toString (n : Nat) : '\n' ∉ (toString n).toList := by
  intro h
  rw [Nat.toString_eq_ofList_toDigits, String.toList_ofList] at h
  exact absurd (Nat.isDigit_of_mem_toDigits (by decide) (by decide) h) (by decide)

def tallyLine (errors warnings : Nat) : String :=
  toString errors ++ " error(s), " ++ toString warnings ++ " warning(s)"

theorem tally_eq (errors warnings : Nat) :
    tally errors warnings = tallyLine errors warnings ++ "\n" := by
  have hbreak : " warning(s)\n" = " warning(s)" ++ "\n" := rfl
  rw [tally, tallyLine, hbreak, String.append_assoc, String.append_assoc, String.append_assoc,
    String.append_assoc, String.append_assoc]

theorem break_notMem_tallyLine (errors warnings : Nat) :
    '\n' ∉ (tallyLine errors warnings).toList := by
  simp only [tallyLine, String.toList_append, List.mem_append, not_or]
  exact ⟨⟨⟨break_notMem_toString errors, by decide⟩, break_notMem_toString warnings⟩, by decide⟩

theorem formatAll_ends (messages : List Message) :
    ∃ body, layout.formatAll messages = body ++ "\n" ∧ lastLine body.toList =
      (tallyLine (messages.countP (·.severity.isError))
        (messages.countP (·.severity == .warning))).toList := by
  refine ⟨_, by rw [formatAll, tally_eq, ← String.append_assoc], ?_⟩
  rw [String.toList_append, lastLine_append (break_notMem_tallyLine _ _),
    (lined_join layout messages).lastLine, List.nil_append]

end Layout

/-! ## Runs -/

namespace Collector

def Tallied (c : Collector) : Prop :=
  ∀ s, c.summary.count s = c.released.countP (·.severity == s)

namespace Tallied

variable {c : Collector}

theorem after (h : c.Tallied) (call : Call) : (c.after call).Tallied := by
  cases call with
  | register file | emit m => exact h
  | unregister file =>
    rw [Collector.after, unregister]
    split
    · exact h
    · intro s
      rw [Summary.count_foldl, List.countP_append, h s]

theorem total (h : c.Tallied) : c.summary.total = c.released.length := by
  rw [Message.length_eq, ← h .info, ← h .style, ← h .warning, ← h .lexError, ← h .error]
  rfl

theorem errors (h : c.Tallied) : c.summary.count .error + c.summary.count .lexError =
    c.released.countP (·.severity.isError) := by
  rw [h, h, Message.countP_isError]

theorem hasErrors (h : c.Tallied) :
    c.summary.hasErrors = c.released.any (·.severity.isError) := by
  have herrors := h.errors
  rw [Summary.count, Summary.count, Nat.add_comm] at herrors
  rw [Summary.hasErrors, herrors, Bool.eq_iff_iff, decide_eq_true_iff, List.countP_pos_iff,
    List.any_eq_true]

end Tallied

theorem tallied_run (calls : List Call) : (run calls).Tallied := by
  induction calls using List.reverseRecOn with
  | nil => exact fun s => by cases s <;> rfl
  | append_singleton calls call ih =>
    rw [run_concat]
    exact ih.after call

/-- The summary, the exit code, the report and the line under the formatted messages all give the
numbers of released messages. -/
theorem tallies_agree (calls : List Call) :
    (∀ s, (run calls).summary.count s = (run calls).released.countP (·.severity == s)) ∧
    (run calls).summary.total = (run calls).released.length ∧
    (run calls).exitCode =
      (if ∃ m ∈ (run calls).released, m.severity = .error ∨ m.severity = .lexError then 1 else 0) ∧
    (run calls).report = (Json.object [("version", .number 1),
      ("success", .bool ((run calls).exitCode == 0)), ("files", .number (run calls).files),
      ("summary", (run calls).summary.json),
      ("messages", .array ((run calls).released.map Message.json))]).pretty ∧
    ∀ layout : Layout, ∃ body, layout.formatAll (run calls).released = body ++ "\n" ∧
      lastLine body.toList = (Layout.tallyLine
        ((run calls).summary.count .error + (run calls).summary.count .lexError)
        ((run calls).summary.count .warning)).toList := by
  have h := tallied_run calls
  have hexit : ∀ c : Collector, (!c.summary.hasErrors) = (c.exitCode == 0) := by
    intro c
    rw [exitCode]
    cases c.summary.hasErrors <;> rfl
  refine ⟨h, h.total, ?_, ?_, fun layout => ?_⟩
  · rw [exitCode, h.hasErrors]
    refine if_congr ?_ rfl rfl
    simp only [List.any_eq_true, Severity.isError_iff]
  · rw [report, json, hexit]
  · rw [h.errors, h .warning]
    exact layout.formatAll_ends (run calls).released

end Collector

end MFile
