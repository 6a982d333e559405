import MFile.Proofs.Grammar.Progress.Statements

/-!
Whole files get on, so no parse fails but for a reason in the text. A block of declarations is
given items of its own kind only.
-/

namespace MFile.Grammar

namespace Parse

variable {α : Type} {n : Nat} {s : State}

/-! ## Blocks of declarations -/

theorem settles_optArguments {opener close : Kind} : Settles n (optArguments opener close) := by
  refine fun s hs => .check fun found hfound => ?_
  split
  · rename_i h
    obtain ⟨t, rest, hahead, -⟩ := hfound h
    exact (advances_arguments advances_expression hahead (Nat.lt_succ_self _)).mono
      fun _ _ => Nat.le_of_lt
  · exact .pure (Nat.le_refl _)

theorem settles_optName : Settles n optName := by
  refine fun s hs => .check fun found _ => ?_
  split
  · exact (advances_dottedName.settles.map some) s hs
  · exact .pure (Nat.le_refl _)

theorem settles_optValue : Settles n optValue := by
  refine fun s hs => .eat (fun t rest hahead _ => ?_) (.pure (Nat.le_refl _))
  exact ((settles_expression.map some) _ (Nat.lt_succ_self _)).mono
    fun _ _ h => h.trans (State.past_shorter hahead).le

theorem advances_oneAttribute : Advances n oneAttribute := by
  refine fun s hs => .here (settles_eatIf.bind hs fun negated mid hmid => ?_)
  refine advances_expect.bind (Nat.lt_of_le_of_lt hmid hs) fun name mid₁ hmid₁ => ?_
  refine settles_optValue.bind (Nat.lt_succ_self _) fun value mid₂ hmid₂ => .siteFrom (.pure ?_)
  exact Nat.lt_of_le_of_lt hmid₂ (hmid₁.trans_le hmid)

theorem settles_optAttributes : Settles n optAttributes := by
  refine fun s hs => .check fun found hfound => ?_
  split
  · rename_i h
    obtain ⟨t, rest, hahead, -⟩ := hfound h
    rw [attributes_eq]
    have hround : GoesOn n attributesRound := by
      refine fun attrs s hs => .eat (fun t rest hahead _ => ?_) ?_
      · exact .pure (State.past_shorter hahead).le
      have hnext : ∀ st : State, st.ahead.length ≤ s.ahead.length → Meets true
          (do return (.again (attrs ++ [← oneAttribute]) :
            Round (List Attribute) (List Attribute))) st
          (Leaves (fun _ s' => s'.ahead.length < s.ahead.length)
            fun _ s' => s'.ahead.length ≤ s.ahead.length) :=
        fun st hst => advances_oneAttribute.bind (Nat.lt_of_le_of_lt hst hs) fun a mid hmid =>
          .pure (hmid.trans_le hst)
      simp only [Option.isSome_none, Bool.false_eq_true, if_false]
      split
      · exact settles_discardExpect.bind hs fun _ mid hmid => hnext mid hmid
      · exact hnext s (Nat.le_refl _)
    have hshorter := State.past_shorter hahead
    refine .advance hahead (((hround.rounds []) _ (hshorter.trans hs)).mono fun _ _ h => ?_)
    exact h.trans hshorter.le
  · exact .pure (Nat.le_refl _)

theorem advances_property : Advances n property := by
  rw [property_eq]
  refine fun s hs => .here (advances_dottedName.bind hs fun name mid hmid => ?_)
  refine settles_optArguments.bind (Nat.lt_succ_self _) fun dimensions mid₁ hmid₁ => ?_
  refine settles_optName.bind (Nat.lt_succ_self _) fun cls mid₂ hmid₂ => ?_
  refine settles_optArguments.bind (Nat.lt_succ_self _) fun validators mid₃ hmid₃ => ?_
  refine settles_optValue.bind (Nat.lt_succ_self _) fun default mid₄ hmid₄ => ?_
  exact .siteFrom (.pure (show mid₄.ahead.length < _ by omega))

def AddsOne (n : Nat) (kind : BlockKind) (addNext : Block → Parse Block) : Prop :=
  ∀ b s, b.kind = kind → s.ahead.length < n → Meets true (addNext b) s fun b' s' =>
    b'.kind = kind ∧ s'.ahead.length < s.ahead.length

theorem meets_addItem (start : Location) {b : Block} {item : BlockItem}
    (h : b.kind.accepts item = true) :
    Meets true (addItem start b item) s fun b' s' => b'.kind = b.kind ∧ s' = s := by
  rw [addItem, Block.add, if_pos h]
  exact .pure ⟨rfl, rfl⟩

theorem meets_addStatement (start : Location) {b : Block} {item : BlockItem}
    (h : b.kind.accepts item = true) :
    Meets true (addStatement start b item) s fun b' s' =>
      b'.kind = b.kind ∧ s'.ahead.length ≤ s.ahead.length := by
  refine (meets_addItem start h).bind fun b' mid ⟨hkind, hmid⟩ => ?_
  rw [hmid]
  exact settles_endStatement.bind (Nat.lt_succ_self _) fun _ mid₁ hmid₁ => .pure ⟨hkind, hmid₁⟩

theorem addsOne_addProperty {kind : BlockKind} (hkind : ∀ p, kind.accepts (.property p) = true) :
    AddsOne n kind addProperty := by
  rintro b s rfl hs
  refine .here (advances_property.bind hs fun p mid hmid => ?_)
  exact (meets_addStatement _ (hkind p)).mono fun b' s' h => ⟨h.1, Nat.lt_of_le_of_lt h.2 hmid⟩

theorem settles_block {kind : BlockKind} (opener : Token) {addNext : Block → Parse Block}
    (h : AddsOne n kind addNext) : Settles n (block kind opener addNext) := by
  rw [block_eq]
  refine fun s hs => settles_optAttributes.bind hs fun attrs mid hmid => .siteAt ?_
  refine Meets.bind (P := fun _ s' => s'.ahead.length ≤ mid.ahead.length)
    (.rounds_shortening (I := fun b st => b.kind = kind ∧ st.ahead.length ≤ mid.ahead.length)
      ⟨rfl, Nat.le_refl _⟩ ?_) fun filled mid₁ hmid₁ => .spanFrom (.pure (hmid₁.trans hmid))
  intro b st ⟨hkind, hst⟩
  refine settles_skipSeparators.bind (Nat.lt_succ_self _) fun _ st₁ hst₁ => ?_
  refine .eatWord (fun t rest hahead _ => ?_) (.atEnd ?_)
  · exact .pure ((State.past_shorter hahead).le.trans (hst₁.trans hst))
  · split
    · exact .failHere_bind
    · refine (h b st₁ hkind (by omega)).bind fun b' st₂ ⟨hkind', hst₂⟩ => .pure ?_
      exact ⟨⟨hkind', show st₂.ahead.length ≤ _ by omega⟩, show st₂.ahead.length < _ by omega⟩

/-! ## Functions -/

theorem settles_outputs : Settles n outputs := by
  rw [outputs_eq]
  refine GoesOn.rounds (fun names s hs => ?_) []
  refine .peekFirst? (fun _ => .unexpected) fun t rest hahead => ?_
  have hshorter := State.past_shorter hahead
  split
  · exact .advance hahead (.pure hshorter.le)
  · exact .advance hahead (.pure hshorter)
  · exact advances_identifier.bind hs fun name mid hmid => .pure hmid
  · exact .unexpected

theorem advances_signatureHead : Advances n signatureHead := by
  refine fun s hs => .eat (fun t rest hahead _ => ?_) ?_
  · have hshorter := State.past_shorter hahead
    refine settles_outputs.bind (hshorter.trans hs) fun names mid hmid => ?_
    refine settles_discardExpect.bind (Nat.lt_succ_self _) fun _ mid₁ hmid₁ => ?_
    refine advances_dottedName.bind (Nat.lt_succ_self _) fun name mid₂ hmid₂ => .pure ?_
    omega
  · refine advances_dottedName.bind hs fun first mid hmid => .check fun found hfound => ?_
    split
    · rename_i h
      obtain ⟨t, rest, hahead, -⟩ := hfound h
      have hshorter := State.past_shorter hahead
      have hrest : Meets true
          (do
            advance
            return ([first], ← dottedName)) mid fun _ s' => s'.ahead.length < s.ahead.length :=
        .advance hahead (advances_dottedName.bind (Nat.lt_succ_self _) fun name mid₁ hmid₁ =>
          .pure (by omega))
      split
      · exact .fail_bind
      · exact hrest
    · exact .pure hmid

theorem advances_signature (start : Location) : Advances n (signature start) := by
  refine fun s hs => advances_signatureHead.bind hs fun (outs, name) mid hmid => ?_
  refine .eat (fun t rest hahead _ => ?_) ?_
  · refine settles_parameters.bind (Nat.lt_succ_self _) fun ins mid₁ hmid₁ => .siteFrom (.pure ?_)
    exact Nat.lt_of_le_of_lt hmid₁ ((State.past_shorter hahead).trans hmid)
  · exact .step rfl (.siteFrom (.pure hmid))

theorem settles_validationBlocks : Settles n validationBlocks := by
  rw [validationBlocks_eq]
  refine GoesOn.rounds (fun blocks s hs => ?_) []
  refine settles_skipSeparators.bind hs fun _ mid hmid => ?_
  refine .eatWord (fun opener rest hahead _ => ?_) (.pure hmid)
  have hshorter := State.past_shorter hahead
  refine (settles_block opener (addsOne_addProperty fun _ => rfl)).bind (Nat.lt_succ_self _)
    fun b mid₁ hmid₁ => .pure ?_
  exact Nat.lt_of_le_of_lt hmid₁ (hshorter.trans_le hmid)

theorem settles_openFunction (run : FunctionRun) (parent : Option Nat) (opener : Token) :
    Settles n (openFunction run parent opener) := by
  refine fun s hs => .freshId ?_
  refine (advances_signature opener.location).bind (s := s.numbered) hs fun sig mid hmid => .get ?_
  refine .modify (settles_validationBlocks.bind (Nat.lt_succ_self _) fun blocks mid₁ hmid₁ => ?_)
  exact .pure (hmid₁.trans hmid.le)

theorem advances_closeWithEnd (f : OpenFunction) (run : FunctionRun) :
    Advances n (closeWithEnd f run) := by
  refine fun s hs => .eatWord (fun t rest hahead _ => ?_) ?_
  · have hrest : ∀ st : State, st.ahead.length < s.ahead.length → Meets true
        (do
          endStatement
          popFrame
          return run.fill f.index (f.finish true)) st
            fun _ s' => s'.ahead.length < s.ahead.length :=
      fun st hst => settles_endStatement.bind (Nat.lt_succ_self _) fun _ mid hmid =>
        .modify (.pure (Nat.lt_of_le_of_lt hmid hst))
    have hshorter := State.past_shorter hahead
    simp only [Option.isNone_some, Bool.false_eq_true, if_false]
    split
    · exact hrest _ hshorter
    · exact .modify (hrest _ hshorter)
  · refine .current? (fun _ => ?_) fun t rest _ => .fail_bind
    exact Meets.unexpected.bind fun _ _ h => (h : False).elim

theorem settles_closeAtEndOfFile (functions : List OpenFunction) (run : FunctionRun) :
    Settles n (closeAtEndOfFile functions run) := by
  refine fun s _ => .get ?_
  dsimp only
  split
  · exact .fail
  · exact .pure (Nat.le_refl _)

theorem goesOn_functionRound : GoesOn n functionRound := by
  refine fun soFar s hs => settles_statements.bind hs fun body mid hmid => ?_
  refine .eatWord (fun opener rest hahead _ => ?_) (.atEnd ?_)
  · refine (settles_openFunction _ _ opener).bind (Nat.lt_succ_self _)
      fun (inner, run) mid₁ hmid₁ => ?_
    exact .pure (Nat.lt_of_le_of_lt hmid₁ ((State.past_shorter hahead).trans_le hmid))
  · split
    · exact (settles_closeAtEndOfFile _ _).bind (Nat.lt_succ_self _) fun run mid₁ hmid₁ =>
        .pure (hmid₁.trans hmid)
    · refine (advances_closeWithEnd _ _).bind (Nat.lt_succ_self _) fun run mid₁ hmid₁ => ?_
      split
      · exact .pure (hmid₁.le.trans hmid)
      · exact .pure (hmid₁.trans_le hmid)

theorem settles_function (run : FunctionRun) (opener : Token) :
    Settles n (function run opener) := by
  refine fun s hs => .bracketed ?_
  refine (settles_openFunction run none opener).bind hs fun (first, run) mid hmid => ?_
  exact ((goesOn_functionRound.rounds _) mid (Nat.lt_of_le_of_lt hmid hs)).mono
    fun _ _ h => h.trans hmid

theorem settles_localFunctions : Settles n localFunctions := by
  rw [localFunctions_eq]
  refine fun s hs => (GoesOn.rounds (n := n) (fun run s hs => ?_) _).bind hs fun run mid hmid =>
    .pure hmid
  refine settles_skipSeparators.bind hs fun _ mid hmid => ?_
  refine .eatWord (fun opener rest hahead _ => ?_) ?_
  · refine (settles_function run opener).bind (Nat.lt_succ_self _) fun run mid₁ hmid₁ => .pure ?_
    exact Nat.lt_of_le_of_lt hmid₁ ((State.past_shorter hahead).trans_le hmid)
  · refine .current? (fun _ => .pure hmid) fun t rest _ => ?_
    dsimp only
    split
    · exact .fail
    · exact .failHere

/-! ## Classes -/

theorem meets_foldlM_addItem (start : Location) (methods : List FunctionDef) {b : Block}
    (hkind : b.kind = .methods) :
    Meets true (methods.foldlM (fun block method => addItem start block (.method method)) b) s
      fun b' s' => b'.kind = .methods ∧ s' = s := by
  induction methods generalizing b with
  | nil => exact .pure ⟨hkind, rfl⟩
  | cons method methods ih =>
    rw [List.foldlM_cons]
    refine (meets_addItem start (by rw [hkind]; rfl)).bind fun b' mid ⟨hkind', hmid⟩ => ?_
    rw [hmid]
    exact ih (hkind'.trans hkind)

theorem addsOne_addMethod : AddsOne n .methods addMethod := by
  refine fun b s hkind hs => .here (.eatWord (fun opener rest hahead _ => ?_) ?_)
  · refine Meets.bind (P := fun _ s' => s'.ahead.length < s.ahead.length)
      (.bracketed ((settles_function {} opener _ (Nat.lt_succ_self _)).mono fun _ _ h => ?_))
      fun run mid hmid => ?_
    · exact Nat.lt_of_le_of_lt h (State.past_shorter hahead)
    · exact (meets_foldlM_addItem _ _ hkind).mono fun b' s' h => ⟨h.1, h.2 ▸ hmid⟩
  · refine (advances_signature _).bind hs fun sig mid hmid => ?_
    refine (meets_addStatement _ (by rw [hkind]; rfl)).mono fun b' s' h => ?_
    exact ⟨h.1.trans hkind, Nat.lt_of_le_of_lt h.2 hmid⟩

theorem addsOne_addEvent : AddsOne n .events addEvent := by
  refine fun b s hkind hs => .here (advances_identifier.bind hs fun name mid hmid => .siteAt ?_)
  refine (meets_addStatement _ (by rw [hkind]; rfl)).mono fun b' s' h => ?_
  exact ⟨h.1.trans hkind, Nat.lt_of_le_of_lt h.2 hmid⟩

theorem addsOne_addEnumerator : AddsOne n .enumeration addEnumerator := by
  intro b s hkind hs
  rw [addEnumerator_eq]
  refine .here (advances_identifier.bind hs fun name mid hmid => ?_)
  refine settles_optArguments.bind (Nat.lt_succ_self _) fun args mid₁ hmid₁ => .siteFrom ?_
  refine (meets_addStatement _ (by rw [hkind]; rfl)).mono fun b' s' h => ?_
  exact ⟨h.1.trans hkind, Nat.lt_of_le_of_lt h.2 (Nat.lt_of_le_of_lt hmid₁ hmid)⟩

theorem addsOne_addNext (kind : BlockKind) : AddsOne n kind (addNext kind) := by
  cases kind with
  | properties => exact addsOne_addProperty fun _ => rfl
  | methods => exact addsOne_addMethod
  | events => exact addsOne_addEvent
  | enumeration => exact addsOne_addEnumerator
  | arguments => exact addsOne_addProperty fun _ => rfl

theorem settles_superclasses : Settles n superclasses := by
  rw [superclasses_eq]
  refine fun s hs => .eatOperator (fun t rest hahead _ _ => ?_) (.pure (Nat.le_refl _))
  have hround : GoesOn n superclassRound := by
    refine fun names s hs => .eatOperator (fun t rest hahead _ _ => ?_) (.pure (Nat.le_refl _))
    refine advances_dottedName.bind (Nat.lt_succ_self _) fun name mid hmid => .pure ?_
    exact hmid.trans (State.past_shorter hahead)
  have hshorter := State.past_shorter hahead
  refine advances_dottedName.bind (hshorter.trans hs) fun first mid hmid => ?_
  refine (hround.rounds [first] mid (by omega)).mono fun _ s' h => ?_
  exact h.trans (hmid.trans hshorter).le

theorem goesOn_classRound (opener : Token) : GoesOn n (classRound opener) := by
  refine fun blocks s hs => settles_skipSeparators.bind hs fun _ mid hmid => ?_
  refine .eatWord (fun t rest hahead _ => ?_)
    (.current? (fun _ => .failHere) fun t rest hahead => ?_)
  · refine settles_endStatement.bind (Nat.lt_succ_self _) fun _ mid₁ hmid₁ => .pure ?_
    exact hmid₁.trans ((State.past_shorter hahead).le.trans hmid)
  · dsimp only
    split
    · rename_i kind _
      refine .advance hahead ((settles_block t (addsOne_addNext kind)).bind (Nat.lt_succ_self _)
        fun b mid₁ hmid₁ => .pure ?_)
      exact Nat.lt_of_le_of_lt hmid₁ ((State.past_shorter hahead).trans_le hmid)
    · exact .failHere

theorem settles_classDef (opener : Token) : Settles n (classDef opener) := by
  refine fun s hs => .freshId ?_
  refine settles_optAttributes.bind (s := s.numbered) hs fun attrs mid hmid => ?_
  refine advances_identifier.bind (Nat.lt_succ_self _) fun name mid₁ hmid₁ => ?_
  refine settles_superclasses.bind (Nat.lt_succ_self _) fun supers mid₂ hmid₂ => .spanFrom ?_
  rw [classBlocks_eq]
  refine ((goesOn_classRound opener).rounds []).bind (Nat.lt_succ_self _)
    fun blocks mid₃ hmid₃ => ?_
  exact .pure (hmid₃.trans (hmid₂.trans (hmid₁.le.trans hmid)))

theorem settles_fileUnit : Settles n fileUnit := by
  refine fun s hs => settles_skipSeparators.bind hs fun _ mid hmid =>
    .checkWord fun isFunction => ?_
  have hrest : ∀ {st : State} (make : Site → List FunctionDef → FileUnit) (id : NodeId),
      st.ahead.length ≤ s.ahead.length → Meets true
        (do
          let functions ← localFunctions
          return make ⟨id, ← wholeFile⟩ functions) st fun _ s' =>
        s'.ahead.length ≤ s.ahead.length :=
    fun make id hst => settles_localFunctions.bind (Nat.lt_succ_self _) fun functions mid₁ hmid₁ =>
      .wholeFile (.pure (hmid₁.trans hst))
  split
  · exact .freshId (hrest .functionFile _ hmid)
  · refine .eatWord (fun opener rest hahead _ => .freshId ?_) (.freshId ?_)
    · refine Meets.bind (P := fun _ s' => s'.ahead.length ≤ rest.length)
        (.bracketed (settles_classDef opener _ (Nat.lt_succ_self _)))
          fun definition mid₁ hmid₁ => ?_
      exact hrest (.classFile · definition) _
        (hmid₁.trans ((State.past_shorter hahead).le.trans hmid))
    · refine settles_statements.bind (Nat.lt_succ_self _) fun body mid₁ hmid₁ => ?_
      exact hrest (.script · body) _ (hmid₁.trans hmid)

end Parse

/-! ## Parsers in use -/

/-- What a parser can be asked for. -/
inductive Request
  | file
  | expression

def Request.answer : Request → Parse (FileUnit ⊕ Expr)
  | .file => .inl <$> Parse.fileUnit
  | .expression => .inr <$> Parse.expression

/-- The state of a parser that has answered the requests, whether or not it could. -/
def State.after (s : State) (requests : List Request) : State :=
  requests.foldl (fun s request => Parse.reached (request.answer s)) s

namespace Parse

/-- From `s`, `p` fails for a reason that is not in the text. -/
def FailsInternally (p : Parse α) (s : State) : Prop :=
  ∃ l defect s', p s = .error (.internal l defect) s'

theorem Settles.not_failsInternally {p : Parse α} (h : ∀ n, Settles n p) (s : State) :
    ¬ FailsInternally p s := by
  rintro ⟨l, defect, s', hp⟩
  exact nomatch (h _ s (Nat.lt_succ_self _)).not_fatal hp

theorem settles_answer (request : Request) : Settles n request.answer := by
  cases request with
  | file => exact settles_fileUnit.map _
  | expression => exact settles_expression.map _

theorem failsInternally_binary (op : Token) (lhs rhs : Expr) (s : State) :
    FailsInternally (binary op lhs rhs) s ↔ BinaryOp.ofSymbol? op.raw = none := by
  rw [FailsInternally, binary]
  cases BinaryOp.ofSymbol? op.raw with
  | none => exact ⟨fun _ => rfl, fun _ => ⟨_, _, _, rfl⟩⟩
  | some symbol => exact iff_of_false (by rintro ⟨_, _, _, ⟨⟩⟩) (Option.some_ne_none symbol)

theorem failsInternally_addItem (start : Location) (b : Block) (item : BlockItem) (s : State) :
    FailsInternally (addItem start b item) s ↔ b.kind.accepts item = false := by
  rw [FailsInternally, addItem, Block.add]
  cases b.kind.accepts item with
  | false => exact ⟨fun _ => rfl, fun _ => ⟨_, _, _, rfl⟩⟩
  | true => exact iff_of_false (by rintro ⟨_, _, _, ⟨⟩⟩) (by decide)

/-- Whatever tokens a parser is given, and whatever it has been asked for before, no answer is an
internal error. Such an error is what an operator without a place in the tree comes to, and an item
in a block of another kind, so neither is ever reached. -/
theorem not_failsInternally_answer (file : String) (tokens : List Token) (before : List Request)
    (request : Request) :
    ¬ FailsInternally request.answer ((State.ofTokens file tokens).after before) ∧
      (∀ op lhs rhs s,
        FailsInternally (binary op lhs rhs) s ↔ BinaryOp.ofSymbol? op.raw = none) ∧
      ∀ start b item s,
        FailsInternally (addItem start b item) s ↔ b.kind.accepts item = false :=
  ⟨Settles.not_failsInternally (fun _ => settles_answer request) _, failsInternally_binary,
    failsInternally_addItem⟩

end Parse

end MFile.Grammar
