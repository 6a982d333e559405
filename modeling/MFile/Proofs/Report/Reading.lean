import Mathlib.Data.List.Forall2
import MFile.Proofs.Report.JsonReader
import MFile.Report.Document

/-!
What a report tells. It is a JSON document, and everything about the released messages can be read
from it except the source lines: what is absent and what is null are told apart, so a message comes
back with its place and with its hint, if it has one. Two collectors give one report exactly when
they count the same and have released the same messages, one by one.
-/

namespace MFile

namespace Json

def field? (key : String) : Json → Option Json
  | object fields => fields.lookup key
  | _ => none

def number? : Json → Option Nat
  | number n => some n
  | _ => none

def string? : Json → Option String
  | string text => some text
  | _ => none

def bool? : Json → Option Bool
  | bool value => some value
  | _ => none

def array? : Json → Option (List Json)
  | array items => some items
  | _ => none

variable {α : Type}

def orNull? (read? : Json → Option α) : Json → Option (Option α)
  | null => some none
  | j => (read? j).map some

def orAbsent? (read? : Json → Option α) : Option Json → Option (Option α)
  | none => some none
  | some j => (read? j).map some

end Json

open Json

/-! ## Reading the parts -/

def Columns.read? (j : Json) : Option Columns := do
  let first ← number? (← j.field? "start")
  let last ← number? (← j.field? "end")
  (ofBounds first last).toOption

def Position.read? (j : Json) : Option Position := do
  let line ← number? (← j.field? "line")
  let column ← number? (← j.field? "column")
  some ⟨line, column⟩

def Place.ofParts? : Option Nat → Option Columns → Option Position → Option Place
  | none, none, none => some .file
  | some n, none, none => some (.line n)
  | some n, some columns, stop => some (.span n columns stop)
  | _, _, _ => none

def Location.read? (j : Json) : Option Location := do
  let file ← string? (← j.field? "filename")
  let line ← orNull? number? (← j.field? "line")
  let columns ← orNull? Columns.read? (← j.field? "columns")
  let stop ← orAbsent? Position.read? (j.field? "end")
  let place ← Place.ofParts? line columns stop
  some ⟨file, place, none⟩

def Message.read? (j : Json) : Option Message := do
  let location ← Location.read? (← j.field? "location")
  let severity ← Severity.ofKey? (← string? (← j.field? "severity"))
  let text ← string? (← j.field? "message")
  let hint ← orAbsent? string? (j.field? "hint")
  let fatal ← bool? (← j.field? "fatal")
  some ⟨location, severity, text, hint, fatal⟩

def Summary.read? (j : Json) : Option Summary := do
  let info ← number? (← j.field? "info")
  let style ← number? (← j.field? "style")
  let warning ← number? (← j.field? "warning")
  let lexError ← number? (← j.field? "lex_error")
  let error ← number? (← j.field? "error")
  some ⟨info, style, warning, lexError, error⟩

structure Report where
  success : Bool
  files : Nat
  summary : Summary
  messages : List Message
deriving DecidableEq

def Report.read? (text : String) : Option Report := do
  let j ← Json.read? text
  let success ← bool? (← j.field? "success")
  let files ← number? (← j.field? "files")
  let summary ← Summary.read? (← j.field? "summary")
  let messages ← (← array? (← j.field? "messages")).mapM Message.read?
  some ⟨success, files, summary, messages⟩

/-! ## Without source lines -/

def Location.bare (l : Location) : Location := { l with context := none }

def Message.bare (m : Message) : Message := { m with location := m.location.bare }

theorem Columns.ofBounds_self (c : Columns) : ofBounds c.first c.last = .ok c :=
  dif_pos c.first_le_last

def Place.ofRank? : List Nat → Option Place
  | [] => some .file
  | [n] => some (.line n)
  | [n, first, last] => (Columns.ofBounds first last).toOption.map (.span n · none)
  | [n, first, last, endLine, endColumn] =>
    (Columns.ofBounds first last).toOption.map (.span n · (some ⟨endLine, endColumn⟩))
  | _ => none

theorem Location.ofRank?_rank (l : Location) : Place.ofRank? l.rank = some l.place := by
  rw [rank]
  cases l.place with
  | file | line n => rfl
  | span n columns stop =>
    cases stop with
    | none | some stop =>
      rw [Place.ofRank?, Columns.ofBounds_self]
      rfl

theorem Location.agrees_iff (a b : Location) : a.agrees b = true ↔ a.bare = b.bare := by
  rw [agrees, Bool.and_eq_true, beq_iff_eq, beq_iff_eq]
  constructor
  · rintro ⟨hfile, hrank⟩
    have hplace : a.place = b.place := by
      rw [← Option.some.injEq, ← ofRank?_rank, hrank, ofRank?_rank]
    rw [bare, bare, hfile, hplace]
  · intro h
    have hrank := congrArg rank h
    exact ⟨(Location.mk.inj h).1, hrank⟩

theorem Message.agrees_iff (a b : Message) : a.agrees b = true ↔ a.bare = b.bare := by
  simp only [agrees, Bool.and_eq_true, beq_iff_eq, Location.agrees_iff]
  constructor
  · rintro ⟨⟨⟨⟨hlocation, hseverity⟩, htext⟩, hhint⟩, hfatal⟩
    rw [bare, bare, hlocation, hseverity, htext, hhint, hfatal]
  · intro h
    obtain ⟨hlocation, hseverity, htext, hhint, hfatal⟩ := Message.mk.inj h
    exact ⟨⟨⟨⟨hlocation, hseverity⟩, htext⟩, hhint⟩, hfatal⟩

/-! ## Reading back -/

theorem Columns.read?_json (c : Columns) : read? c.json = some c := by
  have hbounds := c.ofBounds_self
  simp [read?, json, field?, List.lookup_cons, number?, hbounds, Except.toOption]

theorem Position.read?_json (p : Position) : read? p.json = some p := by
  simp [read?, json, field?, List.lookup_cons, number?]

theorem orNull?_ofOption {α : Type} {read? : Json → Option α} {f : α → Json} (a : Option α)
    (hread : ∀ a, read? (f a) = some a) (hnull : ∀ a, f a ≠ null) :
    orNull? read? (ofOption f a) = some a := by
  cases a with
  | none => rfl
  | some a =>
    rw [ofOption, orNull?, hread]
    · rfl
    · exact hnull a

theorem orAbsent?_map {α : Type} {read? : Json → Option α} {f : α → Json} (a : Option α)
    (hread : ∀ a, read? (f a) = some a) : orAbsent? read? (a.map f) = some a := by
  cases a with
  | none => rfl
  | some a =>
    rw [Option.map_some, orAbsent?, hread]
    rfl

theorem Place.ofParts?_eq (l : Location) :
    ofParts? l.line? l.columns? l.stop? = some l.place := by
  rw [Location.line?, Location.columns?, Location.stop?]
  cases l.place <;> rfl

theorem Location.read?_json (l : Location) : read? l.json = some l.bare := by
  have hline : orNull? number? (ofOption number l.line?) = some l.line? :=
    orNull?_ofOption l.line? (fun _ => rfl) (fun _ => Json.noConfusion)
  have hcolumns : orNull? Columns.read? (ofOption Columns.json l.columns?) = some l.columns? :=
    orNull?_ofOption l.columns? Columns.read?_json (fun _ => Json.noConfusion)
  have hend : l.json.field? "end" = l.stop?.map Position.json := by
    rw [json, field?]
    cases l.stop? <;> simp [List.lookup_cons]
  have hstop := orAbsent?_map l.stop? Position.read?_json
  have hplace := Place.ofParts?_eq l
  rw [read?, hend, hstop]
  simp [json, field?, List.lookup_cons, string?, hline, hcolumns, hplace, bare]

theorem Message.read?_json (m : Message) : read? m.json = some m.bare := by
  have hhint : m.json.field? "hint" = m.hint.map string := by
    rw [json, field?]
    cases m.hint <;> simp [List.lookup_cons]
  have hfatal : m.json.field? "fatal" = some (bool m.fatal) := by
    rw [json, field?]
    cases m.hint <;> simp [List.lookup_cons]
  have hstring : orAbsent? string? (m.hint.map string) = some m.hint :=
    orAbsent?_map m.hint fun _ => rfl
  have hlocation := m.location.read?_json
  have hseverity := m.severity.ofKey?_key
  rw [read?, hhint, hfatal, hstring]
  simp [json, field?, List.lookup_cons, string?, bool?, hlocation, hseverity, bare]

theorem Summary.read?_json (s : Summary) : read? s.json = some s := by
  simp [read?, json, field?, List.lookup_cons, number?]

theorem Message.mapM_read?_json (messages : List Message) :
    (messages.map json).mapM read? = some (messages.map bare) := by
  induction messages with
  | nil => rfl
  | cons m messages ih => simp [List.mapM_cons, m.read?_json, ih]

theorem Report.read?_report (c : Collector) : read? c.report =
    some ⟨!c.summary.hasErrors, c.files, c.summary, c.released.map Message.bare⟩ := by
  have hsummary := c.summary.read?_json
  have hmessages := Message.mapM_read?_json c.released
  rw [read?, Collector.report, read?_pretty]
  simp [Collector.json, field?, List.lookup_cons, number?, bool?, array?, hsummary, hmessages]

theorem Message.forall₂_agrees_iff (as bs : List Message) :
    List.Forall₂ (fun a b => a.agrees b = true) as bs ↔ as.map bare = bs.map bare := by
  simp only [agrees_iff]
  rw [← List.forall₂_eq_eq_eq, List.forall₂_map_left_iff, List.forall₂_map_right_iff]

theorem Message.json_bare (m : Message) : m.bare.json = m.json := rfl

theorem Message.map_json_bare (messages : List Message) :
    (messages.map bare).map json = messages.map json := by
  rw [List.map_map]
  exact List.map_congr_left fun m _ => m.json_bare

namespace Collector

/-- The report is a JSON document that stands for one value only. What can be read from it are the
counts and the released messages without their source lines, and it depends on nothing else. -/
theorem report_recovers (c : Collector) :
    (∀ j, IsDocument c.report.toList j ↔ j = c.json) ∧
    Report.read? c.report =
      some ⟨!c.summary.hasErrors, c.files, c.summary, c.released.map Message.bare⟩ ∧
    ∀ c' : Collector, c.report = c'.report ↔ c.files = c'.files ∧ c.summary = c'.summary ∧
      List.Forall₂ (fun m m' => m.agrees m' = true) c.released c'.released := by
  have hread := Report.read?_report
  refine ⟨fun j => ⟨fun h => ?_, ?_⟩, hread c, fun c' => ⟨fun h => ?_, ?_⟩⟩
  · have hj := read?_document h
    rw [report, read?_pretty, Option.some.injEq] at hj
    exact hj.symm
  · rintro rfl
    exact isDocument_pretty c.json
  · have hsame := hread c
    rw [h, hread c', Option.some.injEq] at hsame
    obtain ⟨-, hfiles, hsummary, hmessages⟩ := Report.mk.inj hsame
    exact ⟨hfiles.symm, hsummary.symm, (Message.forall₂_agrees_iff _ _).2 hmessages.symm⟩
  · rintro ⟨hfiles, hsummary, hmessages⟩
    rw [Message.forall₂_agrees_iff] at hmessages
    rw [report, report, json, json, hfiles, hsummary, ← Message.map_json_bare, hmessages,
      Message.map_json_bare]

end Collector

end MFile
