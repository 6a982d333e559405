import MFile.Proofs.Grammar.Exits
import MFile.Proofs.Grammar.Frames.Statements

/-!
What is left of the blocks around a function or a class. The frame of a function is opened in one
place and closed in another, or never, if the file ends first; while its run of functions is read
there is a frame for each function that is still open. The outermost one takes away what is left.
-/

namespace MFile.Grammar.Parse

variable {α : Type} {s : State}

/-! ## Declarations -/

theorem restores_optArguments {opener close : Kind} : Restores (optArguments opener close) := by
  refine restores_check.bind fun found => ?_
  split
  · exact restores_arguments
  · exact .done

theorem restores_optName : Restores optName := by
  refine restores_check.bind fun found => ?_
  split
  · exact restores_dottedName.map
  · exact .done

theorem restores_optValue : Restores optValue := by
  refine restores_eatIf.bind fun found => ?_
  split
  · exact restores_expression.map
  · exact .done

theorem restores_oneAttribute : Restores oneAttribute :=
  restores_here.bind fun _ => restores_eatIf.bind fun _ => restores_expect.bind fun _ =>
    restores_optValue.bind fun _ => restores_siteFrom.bind fun _ => .done

theorem restores_attributes : Restores attributes := by
  rw [attributes_eq]
  refine restores_advance.bind fun _ => .rounds fun attrs => restores_eatIf.bind fun closed => ?_
  have hnext : Restores (do
      let attr ← oneAttribute
      return (Round.again (attrs ++ [attr]) : Round (List Attribute) (List Attribute))) :=
    restores_oneAttribute.bind fun _ => .done
  split
  · exact .done
  split
  · exact restores_expect.discard.bind fun _ => hnext
  · exact hnext

theorem restores_optAttributes : Restores optAttributes := by
  refine restores_check.bind fun found => ?_
  split
  · exact restores_attributes
  · exact .done

theorem restores_property : Restores property := by
  rw [property_eq]
  exact restores_here.bind fun _ => restores_dottedName.bind fun _ =>
    restores_optArguments.bind fun _ => restores_optName.bind fun _ =>
      restores_optArguments.bind fun _ => restores_optValue.bind fun _ =>
        restores_siteFrom.bind fun _ => .done

theorem restores_addItem (start : Location) (block : Block) (item : BlockItem) :
    Restores (addItem start block item) := by
  rw [addItem]
  split
  · exact .done
  · exact .throw

theorem restores_addStatement (start : Location) (block : Block) (item : BlockItem) :
    Restores (addStatement start block item) :=
  (restores_addItem start block item).bind fun _ => restores_endStatement.bind fun _ => .done

theorem restores_addProperty (block : Block) : Restores (addProperty block) :=
  restores_here.bind fun _ => restores_property.bind fun _ => restores_addStatement _ _ _

theorem restores_block (kind : BlockKind) (opener : Token) {addNext : Block → Parse Block}
    (h : ∀ b, Restores (addNext b)) : Restores (block kind opener addNext) := by
  rw [block_eq]
  refine restores_optAttributes.bind fun attrs => restores_siteAt.bind fun site =>
    (Restores.rounds fun b => ?_).bind fun _ => restores_spanFrom.bind fun _ => .done
  refine restores_skipSeparators.bind fun _ => restores_eatIf.bind fun closed => ?_
  split
  · exact .done
  refine restores_atEnd.bind fun atEnd => ?_
  split
  · exact restores_failHere.bind fun _ => (h b).bind fun _ => .done
  · exact (h b).bind fun _ => .done

/-! ## Functions up to their bodies -/

theorem restores_outputs : Restores outputs := by
  rw [outputs_eq]
  refine .rounds fun names => restores_peekKind?.bind fun kind => ?_
  split
  · exact restores_advance.bind fun _ => .done
  · exact restores_advance.bind fun _ => .done
  · exact restores_identifier.bind fun _ => .done
  · exact restores_unexpected

theorem restores_signatureHead : Restores signatureHead := by
  refine restores_eatIf.bind fun bracket => ?_
  split
  · exact restores_outputs.bind fun _ => restores_expect.discard.bind fun _ =>
      restores_dottedName.bind fun _ => .done
  refine restores_dottedName.bind fun first => restores_check.bind fun equals => ?_
  have hrest : Restores (do
      advance
      return ([first], ← dottedName)) :=
    restores_advance.bind fun _ => restores_dottedName.bind fun _ => .done
  split
  · split
    · exact Restores.fail.bind fun _ => hrest
    · exact hrest
  · exact .done

theorem restores_signature (start : Location) : Restores (signature start) := by
  refine restores_signatureHead.bind fun (outs, n) => restores_eatIf.bind fun paren => ?_
  dsimp only
  split
  · exact restores_parameters.bind fun _ => restores_siteFrom.bind fun _ => .done
  · exact Restores.done.bind fun _ => restores_siteFrom.bind fun _ => .done

theorem restores_validationBlocks : Restores validationBlocks := by
  rw [validationBlocks_eq]
  refine .rounds fun blocks => restores_skipSeparators.bind fun _ =>
    restores_eatIf.bind fun found => ?_
  cases found with
  | some word => exact (restores_block .arguments _ restores_addProperty).bind fun _ => .done
  | none => exact .done

/-! ## Runs of functions -/

def RunSoFar.frames (soFar : RunSoFar) : List Frame :=
  (soFar.current :: soFar.enclosing).map fun _ => .function

/-- The frames around are still there, maybe with others inside of them. -/
structure Around (s st : State) : Prop where
  frames : s.frames <:+ st.frames
  methodDepth : st.methodDepth = s.methodDepth

namespace Around

variable {st st' : State}

theorem refl (s : State) : Around s s := ⟨List.suffix_rfl, rfl⟩

theorem same (h : Around s st) (hsame : st.SameBlocks st') : Around s st' :=
  ⟨hsame.frames ▸ h.frames, hsame.methodDepth.trans h.methodDepth⟩

theorem push (h : Around s st) (frame : Frame) :
    Around s { st with frames := frame :: st.frames } :=
  ⟨h.frames.trans (List.suffix_cons _ _), h.methodDepth⟩

end Around

theorem Restores.exits {p : Parse α} (h : Restores p) :
    Exits p s (fun _ s' => s.SameBlocks s') fun s' => s.SameBlocks s' := by
  have hs := h s
  cases hp : p s with
  | ok a s' => exact .of_run hp (by rwa [hp] at hs)
  | error e s' => exact .of_error hp (by rwa [hp] at hs)

variable {st : State}

theorem exits_openFunction (run : FunctionRun) (parent : Option Nat) (opener : Token)
    (hst : Around s st) :
    Exits (openFunction run parent opener) st
      (fun _ st' => State.SameBlocks { st with frames := .function :: st.frames } st')
      (Around s) := by
  refine (restores_freshId.exits.mono (fun _ _ h => h) fun _ => hst.same).bind fun id s₁ hs₁ => ?_
  refine ((restores_signature _).exits.mono (fun _ _ h => hs₁.trans h)
    fun _ h => hst.same (hs₁.trans h)).bind fun sig s₂ hs₂ => ?_
  refine .get (.modify ?_)
  have hpushed : State.SameBlocks { st with frames := .function :: st.frames }
      { s₂ with frames := .function :: s₂.frames } :=
    ⟨congrArg (Frame.function :: ·) hs₂.frames, hs₂.methodDepth⟩
  refine (restores_validationBlocks.exits.mono (fun _ _ h => hpushed.trans h)
    fun _ h => (hst.push .function).same (hpushed.trans h)).bind fun validation s₃ hs₃ => ?_
  exact .pure hs₃

theorem exits_closeWithEnd (f : OpenFunction) (run : FunctionRun) (hst : Around s st) :
    Exits (closeWithEnd f run) st
      (fun _ st' => State.SameBlocks { st with frames := st.frames.tail } st') (Around s) := by
  have hrest : ∀ {mid : State}, st.SameBlocks mid → Exits (do
      endStatement
      popFrame
      return run.fill f.index (f.finish true)) mid
        (fun _ st' => State.SameBlocks { st with frames := st.frames.tail } st') (Around s) := by
    intro mid hmid
    refine (restores_endStatement.exits.mono (fun _ _ h => hmid.trans h)
      fun _ h => hst.same (hmid.trans h)).bind fun _ s₂ hs₂ => .modify (.pure ?_)
    exact ⟨congrArg List.tail hs₂.frames, hs₂.methodDepth⟩
  refine (restores_eatIf.exits.mono (fun _ _ h => h) fun _ => hst.same).bind fun found s₁ hs₁ => ?_
  have hs₁' := hst.same hs₁
  cases found with
  | none =>
    refine (restores_current?.exits.mono (fun _ _ h => h) fun _ => hs₁'.same).bind
      fun t s₂ hs₂ => ?_
    cases t with
    | none => exact .stop (.unexpected (hs₁'.same hs₂))
    | some t => exact .stop (.fail (hs₁'.same hs₂))
  | some t =>
    simp only [Option.isNone_some, Bool.false_eq_true, if_false]
    split
    · exact hrest hs₁
    · have hused : st.SameBlocks { s₁ with endUsed := true } := ⟨hs₁.frames, hs₁.methodDepth⟩
      exact .modify (hrest hused)

theorem restores_closeAtEndOfFile (fs : List OpenFunction) (run : FunctionRun) :
    Restores (closeAtEndOfFile fs run) := by
  refine .get fun s => ?_
  dsimp only
  split
  · exact .fail
  · exact .done

structure InRun (s : State) (soFar : RunSoFar) (st : State) : Prop where
  frames : st.frames = soFar.frames ++ s.frames
  methodDepth : st.methodDepth = s.methodDepth

namespace InRun

variable {soFar : RunSoFar} {st' : State}

theorem around (h : InRun s soFar st) : Around s st :=
  ⟨h.frames ▸ List.suffix_append _ _, h.methodDepth⟩

theorem same (h : InRun s soFar st) (hsame : st.SameBlocks st') : InRun s soFar st' :=
  ⟨hsame.frames.trans h.frames, hsame.methodDepth.trans h.methodDepth⟩

end InRun

theorem exits_functionRound {soFar : RunSoFar} (hst : InRun s soFar st) :
    Exits (functionRound soFar) st (Leaves (InRun s) fun _ => Around s) (Around s) := by
  refine (restores_statements.exits.mono (fun _ _ h => hst.same h)
    fun _ h => (hst.same h).around).bind fun body s₁ hs₁ => ?_
  refine (restores_eatIf.exits.mono (fun _ _ h => hs₁.same h)
    fun _ h => (hs₁.same h).around).bind fun word s₂ hs₂ => ?_
  cases word with
  | some opener =>
    refine (exits_openFunction _ _ opener hs₂.around).bind fun inner s₃ hs₃ => .pure ?_
    exact ⟨hs₃.frames.trans (congrArg (Frame.function :: ·) hs₂.frames),
      hs₃.methodDepth.trans hs₂.methodDepth⟩
  | none =>
    refine .atEnd fun ended => ?_
    split
    · refine ((restores_closeAtEndOfFile _ _).exits.mono (fun _ _ h => hs₂.around.same h)
        fun _ h => hs₂.around.same h).bind fun run s₃ hs₃ => .pure hs₃
    refine (exits_closeWithEnd _ _ hs₂.around).bind fun run s₃ hs₃ => ?_
    have hclosed : s₃.frames = (soFar.enclosing.map fun _ => .function) ++ s.frames :=
      hs₃.frames.trans (congrArg List.tail hs₂.frames)
    have hdepth := hs₃.methodDepth.trans hs₂.methodDepth
    cases henclosing : soFar.enclosing with
    | nil => exact .pure ⟨hclosed ▸ List.suffix_append _ _, hdepth⟩
    | cons parent enclosing => exact .pure ⟨by rw [hclosed, henclosing]; rfl, hdepth⟩

/-- However many functions are still open, none of their frames is left behind. -/
theorem Restores.keepingFrames {p : Parse α}
    (h : ∀ s, Exits p s (fun _ s' => Around s s') (Around s)) : Restores (keepingFrames p) := by
  intro s
  have hcut : ∀ s', Around s s' →
      s.SameBlocks { s' with frames := s'.frames.drop (s'.frames.length - s.frames.length) } :=
    fun s' hs' => ⟨(List.suffix_iff_eq_drop.1 hs'.frames).symm, hs'.methodDepth⟩
  exact (Exits.bracketed ((h s).mono (fun _ => hcut) hcut)).reached

theorem restores_function (run : FunctionRun) (opener : Token) :
    Restores (function run opener) := by
  refine .keepingFrames fun s => ?_
  refine (exits_openFunction run none opener (.refl s)).bind fun first mid hmid => ?_
  have hfirst : InRun s ⟨first.1, [], first.2⟩ mid := ⟨hmid.frames, hmid.methodDepth⟩
  exact .rounds hfirst (fun _ _ h => h.around) fun soFar st h => exits_functionRound h

theorem restores_localFunctions : Restores localFunctions := by
  rw [localFunctions_eq]
  refine (Restores.rounds fun run => ?_).bind fun _ => .done
  refine restores_skipSeparators.bind fun _ => restores_eatIf.bind fun word => ?_
  cases word with
  | some word => exact (restores_function run word).bind fun _ => .done
  | none =>
    refine restores_current?.bind fun t => ?_
    cases t with
    | none => exact .done
    | some t =>
      dsimp only
      split
      · exact .fail
      · exact restores_failHere

/-! ## Classes -/

theorem restores_addMethods (start : Location) (methods : List FunctionDef) (block : Block) :
    Restores (methods.foldlM (fun b method => addItem start b (.method method)) block) := by
  induction methods generalizing block with
  | nil => exact .done
  | cons method methods ih =>
    rw [List.foldlM_cons]
    exact (restores_addItem _ _ _).bind ih

theorem restores_addMethod (block : Block) : Restores (addMethod block) := by
  refine restores_here.bind fun start => restores_eatIf.bind fun word => ?_
  cases word with
  | some word =>
    exact (restores_function {} word).inMethods.bind fun _ => restores_addMethods _ _ _
  | none => exact (restores_signature _).bind fun _ => restores_addStatement _ _ _

theorem restores_addEvent (block : Block) : Restores (addEvent block) :=
  restores_here.bind fun _ => restores_identifier.bind fun _ => restores_siteAt.bind fun _ =>
    restores_addStatement _ _ _

theorem restores_addEnumerator (block : Block) : Restores (addEnumerator block) := by
  rw [addEnumerator_eq]
  exact restores_here.bind fun _ => restores_identifier.bind fun _ =>
    restores_optArguments.bind fun _ => restores_siteFrom.bind fun _ => restores_addStatement _ _ _

theorem restores_addNext (kind : BlockKind) (block : Block) : Restores (addNext kind block) :=
  match kind with
  | .properties | .arguments => restores_addProperty block
  | .methods => restores_addMethod block
  | .events => restores_addEvent block
  | .enumeration => restores_addEnumerator block

theorem restores_superclasses : Restores superclasses := by
  rw [superclasses_eq]
  refine restores_eatIf.bind fun found => ?_
  split
  · exact .done
  refine restores_dottedName.bind fun first => .rounds fun names =>
    restores_eatIf.bind fun more => ?_
  split
  · exact restores_dottedName.bind fun _ => .done
  · exact .done

theorem restores_classBlocks (opener : Token) : Restores (classBlocks opener) := by
  rw [classBlocks_eq]
  refine .rounds fun blocks => restores_skipSeparators.bind fun _ =>
    restores_eatIf.bind fun closed => ?_
  split
  · exact restores_endStatement.bind fun _ => .done
  refine restores_current?.bind fun t => ?_
  cases t with
  | none => exact restores_failHere
  | some t =>
    dsimp only
    split
    · rename_i kind _
      exact restores_advance.bind fun _ =>
        (restores_block kind t (restores_addNext kind)).bind fun _ => .done
    · exact restores_failHere

theorem restores_classDef (opener : Token) : Restores (classDef opener) :=
  restores_freshId.bind fun _ => restores_optAttributes.bind fun _ =>
    restores_identifier.bind fun _ => restores_superclasses.bind fun _ =>
      restores_spanFrom.bind fun _ => (restores_classBlocks opener).bind fun _ => .done

/-! ## Files -/

theorem restores_fileUnit : Restores fileUnit := by
  refine restores_skipSeparators.bind fun _ => restores_checkWord.bind fun isFunctions => ?_
  split
  · exact restores_freshId.bind fun _ => restores_localFunctions.bind fun _ =>
      restores_wholeFile.bind fun _ => .done
  refine restores_eatIf.bind fun word => ?_
  cases word with
  | some word =>
    exact restores_freshId.bind fun _ =>
      ((restores_classDef word).inFrame .classBody).bind fun _ =>
        restores_localFunctions.bind fun _ => restores_wholeFile.bind fun _ => .done
  | none =>
    exact restores_freshId.bind fun _ => restores_statements.bind fun _ =>
      restores_localFunctions.bind fun _ => restores_wholeFile.bind fun _ => .done

end MFile.Grammar.Parse
