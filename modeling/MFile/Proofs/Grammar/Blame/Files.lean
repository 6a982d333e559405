import MFile.Proofs.Grammar.Blame.Statements
import MFile.Proofs.Grammar.Relayout.LineEnds

/-!
Errors in declarations and in whole files are about the file that is read. A function without its
`end` is blamed at its first word, long after it has been read, so the words of the functions that
are still open are kept to the file on the way.
-/

namespace MFile

open Grammar

variable {file : String}

namespace Grammar

namespace Parse

variable {opener : Token} {start : Location}

/-! ## Parts that may be left out -/

theorem blames_optArguments {first close : Kind} : BlamesOnly file (optArguments first close) := by
  refine blames_check.next fun found => ?_
  split
  · exact blames_arguments blames_expression
  · exact .done

theorem blames_optName : BlamesOnly file optName := by
  refine blames_check.next fun found => ?_
  split
  · exact .map_only blames_dottedName
  · exact .done

theorem blames_optValue : BlamesOnly file optValue := by
  refine blames_eatIf.next fun found => ?_
  split
  · exact .map_only blames_expression
  · exact .done

theorem blames_oneAttribute : BlamesOnly file oneAttribute :=
  blames_here.next fun _ => blames_eatIf.next fun _ => blames_expect.next fun _ =>
    blames_optValue.next fun _ => blames_siteFrom.next fun _ => .done

theorem blames_optAttributes : BlamesOnly file optAttributes := by
  refine blames_check.next fun found => ?_
  split
  · rw [attributes_eq]
    refine blames_advance.next fun _ => .rounds_only fun attrs => blames_eatIf.next fun closed => ?_
    have hnext : BlamesOnly file (do
        let attr ← oneAttribute
        return (Round.again (attrs ++ [attr]) : Round (List Attribute) (List Attribute))) :=
      blames_oneAttribute.next fun _ => .done
    split
    · exact .done
    split
    · exact (blames_discard blames_expect).next fun _ => hnext
    · exact hnext
  · exact .done

/-! ## Blocks -/

theorem blames_property : BlamesOnly file property := by
  rw [property_eq]
  exact blames_here.next fun _ => blames_dottedName.next fun _ => blames_optArguments.next fun _ =>
    blames_optName.next fun _ => blames_optArguments.next fun _ => blames_optValue.next fun _ =>
      blames_siteFrom.next fun _ => .done

theorem blames_addItem (hstart : start.file = file) (block : Block) (item : BlockItem) :
    BlamesOnly file (addItem start block item) := by
  rw [addItem]
  split
  · exact .done
  · exact .throw hstart

theorem blames_addStatement (hstart : start.file = file) (block : Block) (item : BlockItem) :
    BlamesOnly file (addStatement start block item) :=
  (blames_addItem hstart block item).next fun _ => blames_endStatement.next fun _ => .done

theorem blames_addProperty (block : Block) : BlamesOnly file (addProperty block) :=
  blames_here.bind fun _ hstart => blames_property.next fun _ => blames_addStatement hstart _ _

theorem blames_block (kind : BlockKind) {addNext : Block → Parse Block}
    (h : ∀ b, BlamesOnly file (addNext b)) : BlamesOnly file (block kind opener addNext) := by
  rw [block_eq]
  refine blames_optAttributes.next fun attrs => blames_siteAt.next fun site =>
    (Blames.rounds_only fun b => ?_).next fun _ => blames_spanFrom.next fun _ => .done
  refine blames_skipSeparators.next fun _ => blames_eatIf.next fun closed => ?_
  split
  · exact .done
  refine blames_atEnd.next fun atEnd => ?_
  split
  · exact .stop blames_failHere
  · exact (h b).next fun _ => .done

/-! ## Signatures -/

theorem blames_outputs : BlamesOnly file outputs := by
  rw [outputs_eq]
  refine .rounds_only fun names => blames_peekKind?.next fun kind => ?_
  split
  · exact blames_advance.next fun _ => .done
  · exact blames_advance.next fun _ => .done
  · exact blames_identifier.next fun _ => .done
  · exact blames_unexpected

theorem blames_signatureHead : BlamesOnly file signatureHead := by
  refine blames_eatIf.next fun bracket => ?_
  split
  · exact blames_outputs.next fun _ => (blames_discard blames_expect).next fun _ =>
      blames_dottedName.next fun _ => .done
  refine blames_dottedName_tidy.bind fun first hfirst => blames_check.next fun equals => ?_
  split
  · split
    · exact .stop (.fail hfirst.range.file_eq)
    · exact blames_advance.next fun _ => blames_dottedName.next fun _ => .done
  · exact .done

theorem blames_signature : BlamesOnly file (signature start) := by
  refine blames_signatureHead.next fun (outs, n) => blames_eatIf.next fun paren => ?_
  dsimp only
  split
  · exact blames_parameters.next fun _ => blames_siteFrom.next fun _ => .done
  · exact Blames.done.next fun _ => blames_siteFrom.next fun _ => .done

/-! ## Functions -/

theorem blames_validationBlocks : BlamesOnly file validationBlocks := by
  rw [validationBlocks_eq]
  refine .rounds_only fun blocks => blames_skipSeparators.next fun _ =>
    blames_eatIf.next fun found => ?_
  cases found with
  | some word => exact (blames_block .arguments blames_addProperty).next fun _ => .done
  | none => exact .done

theorem blames_openFunction (run : FunctionRun) (parent : Option Nat) :
    Blames file (openFunction run parent opener) (·.1.opener = opener) :=
  blames_freshId.next fun _ => blames_signature.next fun _ => .get fun _ _ =>
    .modify (fun _ => rfl) fun _ => blames_validationBlocks.next fun _ => .pure rfl

theorem blames_closeWithEnd (f : OpenFunction) (run : FunctionRun) :
    BlamesOnly file (closeWithEnd f run) := by
  have hrest : BlamesOnly file (do
      endStatement
      popFrame
      return run.fill f.index (f.finish true)) :=
    blames_endStatement.next fun _ => .modify (fun _ => rfl) fun _ => .done
  have hclosed : BlamesOnly file (do
      unless f.inMethod do modify fun st => { st with endUsed := true }
      endStatement
      popFrame
      return run.fill f.index (f.finish true)) := by
    split
    · exact hrest
    · exact .modify (fun _ => rfl) fun _ => hrest
  refine blames_eatIf.next fun closed => ?_
  dsimp only
  split
  · refine blames_current?.bind fun t ht => ?_
    cases t with
    | some t => exact .stop (.fail (ht t rfl))
    | none => exact .stop blames_unexpected
  · exact hclosed

theorem blames_closeAtEndOfFile {fs : List OpenFunction}
    (hfs : ∀ f ∈ fs, f.opener.location.file = file) (run : FunctionRun) :
    BlamesOnly file (closeAtEndOfFile fs run) := by
  refine .get fun s _ => ?_
  dsimp only
  split
  · rename_i f hfound
    exact .fail (hfs f (List.mem_of_find?_eq_some hfound))
  · exact .done

def RunSoFar.Within (file : String) (soFar : RunSoFar) : Prop :=
  ∀ f ∈ soFar.current :: soFar.enclosing, f.opener.location.file = file

theorem blames_functionRound {soFar : RunSoFar} (h : soFar.Within file) :
    Blames file (functionRound soFar) (Round.Holds (RunSoFar.Within file) fun _ => True) := by
  obtain ⟨hcurrent, henclosing⟩ := List.forall_mem_cons.1 h
  refine blames_statements.next fun body => blames_eatIf.bind fun word hword => ?_
  cases word with
  | some word =>
    refine (blames_openFunction _ _).bind fun inner hinner => .pure ?_
    refine List.forall_mem_cons.2 ⟨?_, List.forall_mem_cons.2 ⟨hcurrent, henclosing⟩⟩
    exact hinner ▸ hword word rfl
  | none =>
    refine blames_atEnd.next fun atEnd => ?_
    split
    · refine Blames.next (blames_closeAtEndOfFile ?_ _) fun run => .pure trivial
      exact List.forall_mem_cons.2 ⟨hcurrent, henclosing⟩
    · refine (blames_closeWithEnd _ _).next fun run => ?_
      cases hparents : soFar.enclosing with
      | nil => exact .pure trivial
      | cons parent enclosing =>
        rw [hparents] at henclosing
        exact .pure henclosing

theorem blames_function (run : FunctionRun) (hopener : opener.location.file = file) :
    BlamesOnly file (function run opener) := by
  refine .bracketed ?_ (fun _ => rfl) fun _ _ => rfl
  refine (blames_openFunction run none).bind fun first hfirst =>
    .rounds (RunSoFar.Within file) (fun _ h => blames_functionRound h) ?_
  exact List.forall_mem_singleton.2 (hfirst ▸ hopener)

theorem blames_localFunctions : BlamesOnly file localFunctions := by
  rw [localFunctions_eq]
  refine Blames.next (P := fun _ => True) (.rounds_only fun run => ?_) fun _ => .done
  refine blames_skipSeparators.next fun _ => blames_eatIf.bind fun word hword => ?_
  cases word with
  | some word => exact (blames_function run (hword word rfl)).next fun _ => .done
  | none =>
    refine blames_current?.bind fun t ht => ?_
    cases t with
    | none => exact .done
    | some t =>
      dsimp only
      split
      · exact .fail (ht t rfl)
      · exact blames_failHere

/-! ## Classes -/

theorem blames_addMethods (hstart : start.file = file) (methods : List FunctionDef)
    (block : Block) :
    BlamesOnly file (methods.foldlM (fun b method => addItem start b (.method method)) block) := by
  induction methods generalizing block with
  | nil => exact .done
  | cons method methods ih => exact (blames_addItem hstart _ _).next ih

theorem blames_addMethod (block : Block) : BlamesOnly file (addMethod block) := by
  refine blames_here.bind fun start hstart => blames_eatIf.bind fun word hword => ?_
  cases word with
  | some word =>
    have hfunction : BlamesOnly file (inMethods (function {} word)) :=
      .bracketed (blames_function {} (hword word rfl)) (fun _ => rfl) fun _ _ => rfl
    exact hfunction.next fun _ => blames_addMethods hstart _ _
  | none => exact blames_signature.next fun _ => blames_addStatement hstart _ _

theorem blames_addEvent (block : Block) : BlamesOnly file (addEvent block) :=
  blames_here.bind fun _ hstart => blames_identifier.next fun _ => blames_siteAt.next fun _ =>
    blames_addStatement hstart _ _

theorem blames_addEnumerator (block : Block) : BlamesOnly file (addEnumerator block) := by
  rw [addEnumerator_eq]
  exact blames_here.bind fun _ hstart => blames_identifier.next fun _ =>
    blames_optArguments.next fun _ => blames_siteFrom.next fun _ => blames_addStatement hstart _ _

theorem blames_addNext (kind : BlockKind) (block : Block) : BlamesOnly file (addNext kind block) :=
  match kind with
  | .properties | .arguments => blames_addProperty block
  | .methods => blames_addMethod block
  | .events => blames_addEvent block
  | .enumeration => blames_addEnumerator block

theorem blames_superclasses : BlamesOnly file superclasses := by
  rw [superclasses_eq]
  refine blames_eatIf.next fun found => ?_
  split
  · exact .done
  refine blames_dottedName.next fun first => .rounds_only fun names =>
    blames_eatIf.next fun more => ?_
  split
  · exact blames_dottedName.next fun _ => .done
  · exact .done

theorem blames_classBlocks : BlamesOnly file (classBlocks opener) := by
  rw [classBlocks_eq]
  refine .rounds_only fun blocks => blames_skipSeparators.next fun _ =>
    blames_eatIf.next fun closed => ?_
  split
  · exact blames_endStatement.next fun _ => .done
  refine blames_current?.next fun t => ?_
  cases t with
  | none => exact blames_failHere
  | some t =>
    dsimp only
    split
    · rename_i kind _
      exact blames_advance.next fun _ => (blames_block kind (blames_addNext kind)).next fun _ =>
        .done
    · exact blames_failHere

theorem blames_classDef : BlamesOnly file (classDef opener) :=
  blames_freshId.next fun _ => blames_optAttributes.next fun _ => blames_identifier.next fun _ =>
    blames_superclasses.next fun _ => blames_spanFrom.next fun _ => blames_classBlocks.next fun _ =>
      .done

/-! ## Files -/

theorem blames_fileUnit : BlamesOnly file fileUnit := by
  refine blames_skipSeparators.next fun _ => blames_checkWord.next fun isFunctions => ?_
  split
  · exact blames_freshId.next fun _ => blames_localFunctions.next fun _ =>
      blames_wholeFile.next fun _ => .done
  refine blames_eatIf.next fun word => ?_
  cases word with
  | some word =>
    have hclass : BlamesOnly file (inFrame .classBody (classDef word)) :=
      .bracketed blames_classDef (fun _ => rfl) fun _ _ => rfl
    exact blames_freshId.next fun _ => hclass.next fun _ => blames_localFunctions.next fun _ =>
      blames_wholeFile.next fun _ => .done
  | none =>
    exact blames_freshId.next fun _ => blames_statements.next fun _ =>
      blames_localFunctions.next fun _ => blames_wholeFile.next fun _ => .done

end Parse

theorem State.within_ofTokens {tokens : List Token} (h : Successive file tokens) :
    (State.ofTokens file tokens).Within file :=
  ⟨rfl, h.sublist (significant_sublist _ _)⟩

end Grammar

/-! ## Texts -/

theorem Scan.failure_file (st : Lexing.State) (octave : Bool) :
    ∀ e ∈ (ofState file octave st).failure, e.location.file = file := by
  apply ofState_rec (motive := fun _ scan => ∀ e ∈ scan.failure, e.location.file = file)
  case finished => exact fun st _ e he => absurd he (Option.not_mem_none e)
  case failed =>
    intro st e h e' he
    cases he
    obtain ⟨c, cs, fault, skipped, length, -, -, rfl⟩ := Lexing.State.step_failed h
    rfl
  case taken => exact fun st pieces next later _ ih => ih

namespace FileUnit

theorem error_file {source : SourceText} {settings : Settings} {e : ParseError}
    (h : ofSource source settings = .error e) : e.location.file = source.name := by
  rw [ofSource_eq] at h
  cases hfailure : (Scan.ofSource source settings).failure with
  | some fault =>
    rw [hfailure] at h
    cases h
    exact Scan.failure_file _ _ fault hfailure
  | none =>
    rw [hfailure, Option.elim_none, ofTokens] at h
    have hstart := State.within_ofTokens (Scan.ofSource_successive source settings)
    generalize State.ofTokens source.name (Scan.ofSource source settings).tokens = start at h hstart
    cases hrun : Parse.fileUnit start with
    | ok unit s =>
      rw [hrun] at h
      cases h
    | error found s =>
      rw [hrun] at h
      cases h
      exact Parse.blames_fileUnit.error hstart hrun

end FileUnit

end MFile
