import MFile.Grammar.Class
import MFile.Report.Collector
import MFile.Token.Buffer

/-!
Whole files. The first word decides what a file is: a class, functions, or a script. A file whose
messages are collected is open for just as long as it is parsed.
-/

namespace MFile

namespace Grammar.Parse

def wholeFile : Parse Location := return ⟨(← get).file, .file, none⟩

def fileUnit : Parse FileUnit := do
  skipSeparators
  if ← checkWord "function" then
    let id ← freshId
    let functions ← localFunctions
    return .functionFile ⟨id, ← wholeFile⟩ functions
  match ← eatWord "classdef" with
  | some opener =>
    let id ← freshId
    let definition ← inFrame .classBody (classDef opener)
    let functions ← localFunctions
    return .classFile ⟨id, ← wholeFile⟩ definition functions
  | none =>
    let id ← freshId
    let body ← statements
    let functions ← localFunctions
    return .script ⟨id, ← wholeFile⟩ body functions

def outcome {α : Type} : EStateM.Result ParseError State α → Except ParseError α
  | .ok a _ => .ok a
  | .error e _ => .error e

def reached {α : Type} : EStateM.Result ParseError State α → State
  | .ok _ st | .error _ st => st

end Grammar.Parse

open Grammar

namespace FileUnit

def ofTokens (file : String) (tokens : List Token) : Except ParseError FileUnit :=
  Parse.outcome (Parse.fileUnit (State.ofTokens file tokens))

def ofSource (source : SourceText) (settings : Settings) : Except ParseError FileUnit :=
  match TokenBuffer.ofSource source settings with
  | .error e => .error (.lexical e)
  | .ok buffer => ofTokens source.name buffer.tokens

end FileUnit

def Collector.parse (c : Collector) (source : SourceText) (settings : Settings) :
    Option FileUnit × Collector :=
  let opened := c.register source.name
  match FileUnit.ofSource source settings with
  | .ok unit => (some unit, opened.unregister source.name)
  | .error e => (none, (opened.emit (.ofParseError e)).unregister source.name)

end MFile
