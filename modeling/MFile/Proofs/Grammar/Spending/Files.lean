import MFile.Proofs.Grammar.Onward.Files
import MFile.Proofs.Grammar.Spending.Statements

/-!
How many numbers a file takes, whether it is a file of the grammar or not: two for each of its
tokens, and one for the file itself. So the numbers of a file of fewer than `2 ^ 31 - 1` tokens fit
into 32 bits.
-/

namespace MFile

namespace Grammar.Parse

variable {b k n : Nat} {s : State} {t : Token} {rest : List Token}

/-! ## Parts that may be left out -/

theorem pays_optArguments {first close : Kind} : Pays 0 0 (optArguments first close) := by
  refine fun b s hs => .check fun found hfound => ?_
  split
  · obtain ⟨t, rest, hahead, -⟩ := hfound ‹_›
    exact (pays_arguments pays_expression hahead hs).mono (fun _ _ h => by omega) fun _ h => h
  · exact .pure hs

theorem pays_optName : Pays 0 0 optName := by
  refine fun b s hs => .check fun found _ => ?_
  split
  · exact .map ((pays_dottedName b s hs).mono (fun _ _ h => by omega) fun _ h => h)
  · exact .pure hs

theorem pays_optValue : Pays 0 0 optValue := by
  refine pays_eatIf.seq (Nat.le_refl 0) fun found b s hs => ?_
  split
  · exact .map ((pays_expression b s hs).mono (fun _ _ h => by omega) fun _ h => h)
  · exact .pure hs

theorem pays_oneAttribute : Pays 0 0 oneAttribute := by
  refine fun b s hs => .here fun _ => pays_eatIf.bind 0 hs fun negated mid hmid => ?_
  refine pays_expect.bind 0 hmid fun name mid hmid => pays_optValue.bind 1 (by omega)
    fun value mid hmid => .siteFrom fun _ => .pure ?_
  rw [mid.cost_numbered]
  exact hmid

theorem pays_attributesRound : PaysOn (fun _ => 0) 0 attributesRound := by
  refine fun attrs b s hs => pays_eatIf.bind 0 hs fun closed mid hmid => ?_
  split
  · exact .pure hmid
  split
  · refine pays_expect.discard.bind 0 hmid fun _ mid hmid => ?_
    exact pays_oneAttribute.bind 0 (by omega) fun _ _ hmid => .pure hmid
  · exact pays_oneAttribute.bind 0 hmid fun _ _ hmid => .pure hmid

theorem pays_optAttributes : Pays 0 0 optAttributes := by
  refine fun b s hs => .check fun found hfound => ?_
  split
  · obtain ⟨t, rest, hahead, -⟩ := hfound ‹_›
    have hpast := State.cost_past hahead
    rw [attributes_eq]
    exact .advance hahead (pays_attributesRound.rounds [] b _ (by omega))
  · exact .pure hs

/-! ## Blocks -/

theorem pays_property : Pays 0 0 property := by
  rw [property_eq]
  refine fun b s hs => .here fun _ => pays_dottedName.bind 0 hs fun name mid hmid => ?_
  refine pays_optArguments.bind 1 hmid fun dimensions mid hmid => ?_
  refine pays_optName.bind 1 hmid fun className mid hmid => ?_
  refine pays_optArguments.bind 1 hmid fun validators mid hmid => ?_
  refine pays_optValue.bind 1 hmid fun value mid hmid => .siteFrom fun _ => .pure ?_
  rw [mid.cost_numbered]
  exact hmid

theorem pays_addItem (start : Location) (block : Block) (item : BlockItem) :
    Pays 0 0 (addItem start block item) := by
  intro b s hs
  rw [addItem]
  split
  · exact .pure hs
  · exact .throw hs

theorem pays_addStatement (start : Location) (block : Block) (item : BlockItem) :
    Pays 0 0 (addStatement start block item) :=
  (pays_addItem start block item).seq (Nat.le_refl 0) fun _ =>
    pays_endStatement.seq (Nat.le_refl 0) fun _ => .pure _

theorem pays_addProperty (block : Block) : Pays 0 0 (addProperty block) :=
  fun _ _ hs => .here fun _ => pays_property.bind 0 hs fun _ _ hmid =>
    pays_addStatement _ _ _ _ _ hmid

theorem pays_block (kind : BlockKind) (opener : Token) {addNext : Block → Parse Block}
    (h : ∀ b, Pays 0 0 (addNext b)) : Pays 1 0 (block kind opener addNext) := by
  have hround : PaysOn (fun _ => 0) 0 (blockRound opener addNext) := by
    refine fun body b s hs => pays_skipSeparators.bind 0 hs fun _ mid hmid =>
      pays_eatIf.bind 0 hmid fun closed mid hmid => ?_
    split
    · exact .pure hmid
    refine .atEnd fun ended => ?_
    split
    · exact .stop (.failHere hmid)
    · exact (h body).bind 0 hmid fun _ _ hmid => .pure hmid
  rw [block_eq]
  refine fun b s hs => pays_optAttributes.bind 1 hs fun attrs mid hmid => .siteAt fun site => ?_
  refine (hround.rounds _).bind 0 (by rw [mid.cost_numbered]; exact hmid) fun filled _ hmid => ?_
  exact .spanFrom fun _ => .pure hmid

/-! ## Functions -/

theorem pays_outputs : Pays 0 0 outputs := by
  have hround : PaysOn (fun _ => 0) 0 outputsRound := by
    refine fun names b s hs => .peekFirst? (fun _ => .unexpected hs) fun t rest hahead => ?_
    have hpast := State.cost_past hahead
    split
    · exact .advance hahead (.pure (show (s.past t rest).cost + 0 ≤ b by omega))
    · exact .advance hahead (.pure (show (s.past t rest).cost + 0 ≤ b by omega))
    · exact pays_identifier.bind 0 hs fun _ mid hmid => .pure (show mid.cost + 0 ≤ b by omega)
    · exact .unexpected hs
  exact hround.rounds []

theorem pays_signatureHead : Pays 0 1 signatureHead := by
  refine pays_eatIf.seq (Nat.le_refl 0) fun bracket => ?_
  split
  · exact pays_outputs.seq (Nat.le_refl 0) fun _ => pays_expect.discard.seq (Nat.zero_le 2)
      fun _ => pays_dottedName.seq (Nat.le_refl 1) fun _ => .pure _
  refine fun b s hs => pays_dottedName.bind 0 hs fun first mid hmid =>
    .check fun equals hequals => ?_
  have hsecond : ∀ {t rest}, mid.ahead = t :: rest → Exits (do
      advance
      return ([first], ← dottedName)) mid (fun _ s' => s'.cost + 1 ≤ b) (·.cost ≤ b) := by
    intro t rest hahead
    have hpast := State.cost_past hahead
    exact .advance hahead (pays_dottedName.bind 0 (by omega) fun _ _ hmid => .pure hmid)
  split
  · obtain ⟨t, rest, hahead, -⟩ := hequals ‹_›
    split
    · exact .stop (.fail (by omega))
    · exact hsecond hahead
  · exact .pure hmid

theorem pays_signature (start : Location) : Pays 0 0 (signature start) := by
  refine fun b s hs => pays_signatureHead.bind 0 hs fun (outs, name) mid hmid => ?_
  refine pays_eatIf.bind 1 hmid fun paren mid hmid => ?_
  dsimp only
  have hplace : ∀ (st : State) (ins : List Name), st.cost + 1 ≤ b → Exits (do
      return (⟨← siteFrom start, name, ins, outs⟩ : Signature)) st
      (fun _ s' => s'.cost + 0 ≤ b) (·.cost ≤ b) :=
    fun st ins hst => .siteFrom fun _ => .pure (by rw [st.cost_numbered]; exact hst)
  split
  · exact pays_parameters.bind 1 hmid fun ins mid hmid => hplace mid ins hmid
  · exact hplace mid [] hmid

theorem pays_validationBlocks : Pays 0 0 validationBlocks := by
  have hround : PaysOn (fun _ => 0) 0 validationRound := by
    refine fun blocks b s hs => pays_skipSeparators.bind 0 hs fun _ mid hmid => ?_
    refine .eatIf (fun word rest hahead _ => ?_) fun _ => .pure hmid
    have hpast := State.cost_past hahead
    exact (pays_block .arguments word pays_addProperty).bind 0 (by omega) fun _ _ hmid =>
      .pure hmid
  exact hround.rounds []

theorem pays_openFunction (run : FunctionRun) (parent : Option Nat) (opener : Token) :
    Pays 1 0 (openFunction run parent opener) := by
  refine fun b s hs => .freshId fun id => ?_
  refine (pays_signature _).bind 0 (by rw [s.cost_numbered]; exact hs) fun _ mid hmid => .get ?_
  refine .modify (pays_validationBlocks.bind 0 (s := { mid with frames := _ }) hmid ?_)
  exact fun _ _ hmid => .pure hmid

theorem pays_closeWithEnd (f : OpenFunction) (run : FunctionRun) :
    Pays 0 0 (closeWithEnd f run) := by
  have hrest : Pays 0 0 (do
      endStatement
      popFrame
      return run.fill f.index (f.finish true)) :=
    pays_endStatement.seq (Nat.le_refl 0) fun _ b s hs => .modify (.pure hs)
  have hclosed : Pays 0 0 (do
      unless f.inMethod do modify fun st => { st with endUsed := true }
      endStatement
      popFrame
      return run.fill f.index (f.finish true)) := by
    split
    · exact hrest
    · exact fun b s hs => .modify (hrest b { s with endUsed := true } hs)
  refine pays_eatIf.seq (Nat.le_refl 0) fun closed => ?_
  dsimp only
  split
  · refine fun b s hs => .current? (fun _ => .stop (.unexpected hs)) fun t rest _ => ?_
    exact .stop (.fail hs)
  · exact hclosed

theorem pays_closeAtEndOfFile (fs : List OpenFunction) (run : FunctionRun) :
    Pays 0 0 (closeAtEndOfFile fs run) := by
  refine fun b s hs => .get ?_
  dsimp only
  split
  · exact .fail hs
  · exact .pure hs

theorem pays_functionRound : PaysOn (fun _ => 0) 0 functionRound := by
  refine fun soFar b s hs => pays_statements.bind 0 hs fun body mid hmid => ?_
  refine .eatIf (fun word rest hahead _ => ?_) fun _ => .atEnd fun ended => ?_
  · have hpast := State.cost_past hahead
    exact (pays_openFunction _ _ _).bind 0 (by omega) fun _ _ hmid => .pure hmid
  dsimp only
  split
  · exact (pays_closeAtEndOfFile _ _).bind 0 hmid fun _ _ hmid => .pure hmid
  · refine (pays_closeWithEnd _ _).bind 0 hmid fun run mid hmid => ?_
    cases soFar.enclosing <;> exact .pure hmid

theorem pays_function (run : FunctionRun) (opener : Token) : Pays 1 0 (function run opener) := by
  refine fun b s hs => .bracketed ?_
  exact (pays_openFunction run none opener).bind 0 hs fun first mid hmid =>
    pays_functionRound.rounds _ b mid hmid

theorem pays_localFunctions : Pays 0 0 localFunctions := by
  have hround : PaysOn (fun _ => 0) 0 localRound := by
    refine fun run b s hs => pays_skipSeparators.bind 0 hs fun _ mid hmid => ?_
    refine .eatIf (fun word rest hahead _ => ?_) fun _ => ?_
    · have hpast := State.cost_past hahead
      exact (pays_function run word).bind 0 (by omega) fun _ _ hmid => .pure hmid
    · refine .current? (fun _ => .pure hmid) fun t rest _ => ?_
      dsimp only
      split
      · exact .fail hmid
      · exact .failHere hmid
  rw [localFunctions_eq]
  exact (hround.rounds _).seq (Nat.le_refl 0) fun _ => .pure _

/-! ## Classes -/

theorem pays_addMethods (start : Location) (methods : List FunctionDef) (block : Block) :
    Pays 0 0 (methods.foldlM (fun b method => addItem start b (.method method)) block) := by
  induction methods generalizing block with
  | nil => exact .pure _
  | cons method methods ih =>
    rw [List.foldlM_cons]
    exact (pays_addItem _ _ _).seq (Nat.le_refl 0) ih

theorem pays_addMethod (block : Block) : Pays 0 0 (addMethod block) := by
  refine fun b s hs => .here fun start => .eatIf (fun word rest hahead _ => ?_) fun _ => ?_
  · have hpast := State.cost_past hahead
    have hfunction : Pays 1 0 (inMethods (function {} word)) := fun b s hs =>
      .bracketed (pays_function {} word b { s with methodDepth := s.methodDepth + 1 } hs)
    exact hfunction.bind 0 (by omega) fun run mid hmid => pays_addMethods _ _ _ b mid hmid
  · exact (pays_signature _).bind 0 hs fun _ mid hmid => pays_addStatement _ _ _ b mid hmid

theorem pays_addEvent (block : Block) : Pays 0 0 (addEvent block) := by
  refine fun b s hs => .here fun start => pays_identifier.bind 0 hs fun name mid hmid =>
    .siteAt fun site => pays_addStatement _ _ _ b _ ?_
  rw [mid.cost_numbered]
  exact hmid

theorem pays_addEnumerator (block : Block) : Pays 0 0 (addEnumerator block) := by
  rw [addEnumerator_eq]
  refine fun b s hs => .here fun start => pays_identifier.bind 0 hs fun name mid hmid => ?_
  refine pays_optArguments.bind 1 hmid fun args mid hmid => .siteFrom fun site =>
    pays_addStatement _ _ _ b _ ?_
  rw [mid.cost_numbered]
  exact hmid

theorem pays_addNext (kind : BlockKind) (block : Block) : Pays 0 0 (addNext kind block) :=
  match kind with
  | .properties | .arguments => pays_addProperty block
  | .methods => pays_addMethod block
  | .events => pays_addEvent block
  | .enumeration => pays_addEnumerator block

theorem pays_superclasses : Pays 0 0 superclasses := by
  have hround : PaysOn (fun _ => 0) 0 superclassRound := by
    refine fun names b s hs => pays_eatIf.bind 0 hs fun more mid hmid => ?_
    split
    · exact pays_dottedName.bind 0 hmid fun _ mid hmid => .pure (show mid.cost + 0 ≤ b by omega)
    · exact .pure hmid
  rw [superclasses_eq]
  refine pays_eatIf.seq (Nat.le_refl 0) fun found => ?_
  split
  · exact .pure _
  · exact pays_dottedName.seq (Nat.zero_le 1) fun first => hround.rounds _

theorem pays_classBlocks (opener : Token) : Pays 0 0 (classBlocks opener) := by
  have hround : PaysOn (fun _ => 0) 0 (classRound opener) := by
    refine fun blocks b s hs => pays_skipSeparators.bind 0 hs fun _ mid hmid =>
      pays_eatIf.bind 0 hmid fun closed mid hmid => ?_
    split
    · exact pays_endStatement.bind 0 hmid fun _ _ hmid => .pure hmid
    refine .current? (fun _ => .failHere hmid) fun t rest hahead => ?_
    have hpast := State.cost_past hahead
    dsimp only
    split
    · rename_i kind _
      exact .advance hahead ((pays_block kind t (pays_addNext kind)).bind 0 (by omega)
        fun _ _ hmid => .pure hmid)
    · exact .failHere hmid
  rw [classBlocks_eq]
  exact hround.rounds []

theorem pays_classDef (opener : Token) : Pays 1 0 (classDef opener) := by
  refine fun b s hs => .freshId fun id => ?_
  refine pays_optAttributes.bind 0 (by rw [s.cost_numbered]; exact hs) fun attrs mid hmid => ?_
  refine pays_identifier.bind 0 hmid fun name mid hmid => ?_
  refine pays_superclasses.bind 0 (by omega) fun supers mid hmid => .spanFrom fun place => ?_
  exact (pays_classBlocks opener).bind 0 hmid fun _ _ hmid => .pure hmid

/-! ## Files -/

theorem pays_fileUnit : Pays 1 0 fileUnit := by
  have hlast : ∀ (make : List FunctionDef → Location → FileUnit), Pays 0 0 (do
      let functions ← localFunctions
      return make functions (← wholeFile)) :=
    fun make b s hs => pays_localFunctions.bind 0 hs fun _ mid hmid => .wholeFile fun _ =>
      .pure hmid
  refine fun b s hs => pays_skipSeparators.bind 1 hs fun _ mid hmid =>
    .checkWord fun functions => ?_
  have hnumbered := mid.cost_numbered
  split
  · exact .freshId fun id => hlast _ b _ (by omega)
  refine .eatIf (fun word rest hahead _ => .freshId fun id => ?_) fun _ => .freshId fun id => ?_
  · have hpast := State.cost_past hahead
    have hword := (mid.past word rest).cost_numbered
    refine ((pays_classDef word).inFrame .classBody).bind 0 (by omega) fun definition mid hmid => ?_
    exact hlast _ b mid hmid
  · exact pays_statements.bind 0 (by omega) fun body mid hmid => hlast _ b mid hmid

end Grammar.Parse

/-! ## The numbers of a file -/

open Grammar

/-- How many numbers have been taken once `fileUnit` is left, with a file or with an error. -/
def FileUnit.nodeCount (file : String) (tokens : List Token) : Nat :=
  (Parse.reached (Parse.fileUnit (State.ofTokens file tokens))).nodes

/-- There are at most two numbers for each token that the grammar sees, and the one of the file. As
numbers are only ever taken, a counter of 32 bits shows how many there are. -/
theorem FileUnit.nodeCount_le (file : String) (tokens : List Token) :
    nodeCount file tokens ≤ 2 * (significant false tokens).length + 1 ∧
      ((significant false tokens).length < 2 ^ 31 - 1 →
        (UInt32.ofNat (nodeCount file tokens)).toNat = nodeCount file tokens) := by
  have hcost : (State.ofTokens file tokens).cost = 2 * (significant false tokens).length :=
    Nat.zero_add _
  have hreached := (Parse.pays_fileUnit (2 * (significant false tokens).length + 1) _
    (Nat.add_le_add_right hcost.le 1)).reached
  have hcount : nodeCount file tokens ≤ 2 * (significant false tokens).length + 1 :=
    (Nat.le_add_right _ _).trans hreached
  refine ⟨hcount, fun hlength => ?_⟩
  rw [UInt32.toNat_ofNat']
  omega

theorem FileUnit.nodeCount_le_word :
    (significant false [plainToken .identifier "x"]).length < 2 ^ 31 - 1 ∧
      (UInt32.ofNat (nodeCount "x.m" [plainToken .identifier "x"])).toNat =
        nodeCount "x.m" [plainToken .identifier "x"] :=
  ⟨by decide, (FileUnit.nodeCount_le "x.m" [plainToken .identifier "x"]).2 (by decide)⟩

/-- A script of one word takes as many numbers as any file of one token may. -/
example : FileUnit.nodeCount "x.m" [plainToken .identifier "x"] = 2 * 1 + 1 := by decide +kernel

end MFile
