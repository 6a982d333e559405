import MFile.Proofs.Grammar.Functions.Methods
import MFile.Proofs.Grammar.Frames.Bodies

/-!
The frames inside of a file. The bodies of functions are read between the words that open and close
functions, with a frame for each function that is open and one for the class around methods. A file
that is watched in all its bodies is read as one that is not.
-/

namespace MFile.Grammar.Parse

/-! ## Files over a parser of bodies -/

section Over

-- A parser of bodies, which is told the frames of the blocks around.
variable (body : List Frame → Parse (List Stmt))

def afterBody (soFar : RunSoFar) (stmts : List Stmt) : Parse (Round RunSoFar FunctionRun) := do
  let current := { soFar.current with body := soFar.current.body ++ stmts }
  match ← eatWord "function" with
  | some opener =>
    let (inner, run) ← openFunction soFar.run (some current.index) opener
    return .again ⟨inner, current :: soFar.enclosing, run⟩
  | none =>
    if ← atEnd then return .done (← closeAtEndOfFile (current :: soFar.enclosing) soFar.run)
    let run ← closeWithEnd current soFar.run
    match soFar.enclosing with
    | [] => return .done run
    | parent :: enclosing => return .again ⟨parent, enclosing, run⟩

def functionOver (around : List Frame) (run : FunctionRun) (opener : Token) : Parse FunctionRun :=
  keepingFrames do
    let (first, run) ← openFunction run none opener
    rounds ⟨first, [], run⟩ fun soFar => body (soFar.frames ++ around) >>= afterBody soFar

def localRoundOver (run : FunctionRun) : Parse (Round FunctionRun FunctionRun) := do
  skipSeparators
  match ← eatWord "function" with
  | some opener => return .again (← functionOver body [] run opener)
  | none =>
    match ← current? with
    | none => return .done run
    | some t =>
      if t.isCloser then fail t.location (.strayCloser t.raw) else failHere .afterFunctions

def localFunctionsOver : Parse (List FunctionDef) := do
  return (← rounds {} (localRoundOver body)).resolve

def addMethodOver (block : Block) : Parse Block := do
  let start ← here
  match ← eatWord "function" with
  | some opener =>
    let run ← inMethods (functionOver body [.classBody] {} opener)
    run.resolve.foldlM (fun block method => addItem start block (.method method)) block
  | none => addStatement start block (.signature (← signature start))

def addNextOver : BlockKind → Block → Parse Block
  | .properties | .arguments => addProperty
  | .methods => addMethodOver body
  | .events => addEvent
  | .enumeration => addEnumerator

def classRoundOver (opener : Token) (blocks : List Block) :
    Parse (Round (List Block) (List Block)) := do
  skipSeparators
  if (← eatWord "end").isSome then
    endStatement
    return .done blocks
  match ← current? with
  | none => failHere (.openBlock opener.raw (opener.location.line?.getD 0))
  | some t =>
    match classBlock? t with
    | some kind =>
      advance
      return .again (blocks ++ [← block kind t (addNextOver body kind)])
    | none => failHere .classItem

def classDefOver (opener : Token) : Parse ClassDef := do
  let id ← freshId
  let attrs ← optAttributes
  let name ← identifier
  let supers ← superclasses
  let place ← spanFrom opener.location
  let blocks ← rounds [] (classRoundOver body opener)
  return ⟨⟨id, place⟩, name, attrs, supers, blocks⟩

def fileOver : Parse FileUnit := do
  skipSeparators
  if ← checkWord "function" then
    let id ← freshId
    let functions ← localFunctionsOver body
    return .functionFile ⟨id, ← wholeFile⟩ functions
  match ← eatWord "classdef" with
  | some opener =>
    let id ← freshId
    let definition ← inFrame .classBody (classDefOver body opener)
    let functions ← localFunctionsOver body
    return .classFile ⟨id, ← wholeFile⟩ definition functions
  | none =>
    let id ← freshId
    let stmts ← body []
    let functions ← localFunctionsOver body
    return .script ⟨id, ← wholeFile⟩ stmts functions

end Over

/-! ## Between bodies -/

/-- The words of the functions that are open. -/
def RunSoFar.words (soFar : RunSoFar) : List String :=
  (soFar.current :: soFar.enclosing).map fun _ => "function"

variable {s st st' : State} {t : Token} {words : List String} {run run' : FunctionRun}
  {body : List Frame → Parse (List Stmt)}

def SameBodies (body : List Frame → Parse (List Stmt)) (s : State) : Prop :=
  ∀ ⦃words st⦄, s.Amid words st →
    Agrees (body (words.filterMap Frame.ofWord?)) statements st fun _ st' => st.Levels st'

def Resumes (s : State) (words : List String) (st : State) : Prop :=
  s.Amid words st ∨ st.ahead = []

theorem RunSoFar.frames_words (soFar : RunSoFar) (words : List String) :
    (soFar.words ++ words).filterMap Frame.ofWord? =
      soFar.frames ++ words.filterMap Frame.ofWord? := by
  rw [List.filterMap_append, RunSoFar.words, RunSoFar.frames, List.filterMap_map]
  exact congrArg (· ++ _) (List.filterMap_eq_map ▸ rfl)

theorem Resumes.amid {word : String} (h : Resumes s words st)
    (heat : eatWord word st = .ok (some t) st') :
    s.Amid words st ∧ st.Walks [t] st' ∧ t.isWord word = true := by
  obtain ⟨_, hwalks, ⟨rfl, hword, -⟩, -⟩ := tracks_eatWord (n := 0) word heat
  refine ⟨h.resolve_right fun hend => ?_, hwalks, hword t rfl⟩
  have hahead := hwalks.ahead
  rw [hend] at hahead
  cases hahead

theorem Resumes.opening {word : String} (h : Resumes s words st)
    (heat : eatWord word st = .ok (some t) st')
    (hopen : (Lexing.Block.ofWord? word).isSome = true) :
    s.Amid (word :: words) { st' with frames := (Frame.ofWord? word).toList ++ st'.frames } := by
  obtain ⟨hst, hwalks, hword⟩ := h.amid heat
  obtain ⟨hk, rfl⟩ := Shuts.isWord_iff.1 hword
  exact hst.opening hwalks hk hopen

theorem Resumes.closing {word : String} (h : Resumes s (word :: words) st)
    (heat : eatWord "end" st = .ok (some t) st') :
    s.Amid words { st' with frames := st'.frames.drop (Frame.ofWord? word).toList.length } := by
  obtain ⟨hst, hwalks, hword⟩ := h.amid heat
  exact hst.closing hwalks hword

theorem Resumes.walks {passed : List Token} (h : Resumes s words st) (hwalks : st.Walks passed st')
    (hlevel : Level passed) : Resumes s words st' := by
  rcases h with h | hend
  · exact .inl (h.levels (.of_walks hwalks fun _ => hlevel))
  · have hahead := hwalks.ahead
    rw [hend] at hahead
    exact .inr (List.append_eq_nil_iff.1 hahead.symm).2

theorem Resumes.skipSeparators {u : Unit} (h : Resumes s words st)
    (hrun : skipSeparators st = .ok u st') : Resumes s words st' := by
  obtain ⟨_, hwalks, hseps, -⟩ := tracks_skipSeparators (n := 0) hrun
  exact h.walks hwalks (level_separators hseps.1)

/-! ## Functions -/

theorem levels_openFunction {parent : Option Nat} {opener : Token}
    {first : OpenFunction × FunctionRun} (h : openFunction run parent opener st = .ok first st') :
    State.Levels { st with frames := .function :: st.frames } st' := by
  refine ⟨((exits_openFunction run parent opener (.refl st)).ok h).frames, fun hst => ?_⟩
  have hdepth : st.indexDepth = 0 := hst
  obtain ⟨f, run'⟩ := first
  obtain ⟨passed, hwalks, hlevel, -⟩ := openFunction_walks hdepth h
  exact ⟨hwalks.indexDepth.trans hst, passed, hwalks.toPasses, hlevel⟩

theorem amid_closeWithEnd {f : OpenFunction} (hst : s.Amid ("function" :: words) st)
    (h : closeWithEnd f run st = .ok run' st') : s.Amid words st' := by
  obtain ⟨e, s₁, s₂, heat, hend, rfl, -⟩ := closeWithEnd_ok h
  have hclosed := Resumes.closing (.inl hst) heat
  have hused : s.Amid words { useEnd f s₁ with frames := (useEnd f s₁).frames.tail } := by
    rw [useEnd]
    split <;> exact hclosed.same rfl rfl List.drop_one.symm rfl
  exact hused.levels ((levels_endStatement hend).reframe List.tail)

theorem agrees_functionRound {soFar : RunSoFar} (hbody : SameBodies body s)
    (hst : s.Amid (soFar.words ++ words) st) :
    Agrees (body (soFar.frames ++ words.filterMap Frame.ofWord?) >>= afterBody soFar)
      (functionRound soFar) st
      (Leaves (fun soFar st' => s.Amid (soFar.words ++ words) st') fun _ => Resumes s words) := by
  have hsame := hbody hst
  rw [RunSoFar.frames_words] at hsame
  refine ⟨bind_run_congr hsame.same _, fun r st' hrun => ?_⟩
  obtain ⟨stmts, mid, hstmts, hrest⟩ := functionRound_ok hrun
  have hmid := hst.levels (hsame.ok stmts mid hstmts)
  rcases hrest with ⟨opener, m₁, inner, run, heat, hopen, rfl⟩ | ⟨hend, run, hclose, rfl⟩ |
    ⟨run, -, hclose, rfl⟩
  · exact (Resumes.opening (.inl hmid) heat rfl).levels (levels_openFunction hopen)
  · -- The frames of the functions that are closed here are still there, but no body follows.
    obtain ⟨rfl, -⟩ := closeAtEndOfFile_ok hclose
    exact .inr hend
  · have hclosed : s.Amid ((soFar.enclosing.map fun _ => "function") ++ words) st' :=
      amid_closeWithEnd hmid hclose
    cases henclosing : soFar.enclosing with
    | nil =>
      rw [henclosing] at hclosed
      exact .inl hclosed
    | cons parent enclosing =>
      rw [henclosing] at hclosed
      exact hclosed

theorem Resumes.cut {frames : List Frame} (h : Resumes s words st)
    (hframes : frames = words.filterMap Frame.ofWord? ++ s.frames) :
    Resumes s words { st with frames := st.frames.drop (st.frames.length - frames.length) } := by
  refine h.imp (fun h => h.same rfl rfl ?_ rfl) id
  rw [hframes, ← h.frames, Nat.sub_self]
  rfl

theorem agrees_function {opener : Token} (hbody : SameBodies body s)
    (hst : s.Amid ("function" :: words) { st with frames := .function :: st.frames }) :
    Agrees (functionOver body (words.filterMap Frame.ofWord?) run opener) (function run opener) st
      fun _ => Resumes s words := by
  have hframes := List.tail_eq_of_cons_eq hst.frames
  refine .bracketed (.bind (P := fun first mid =>
      s.Amid ((⟨first.1, [], first.2⟩ : RunSoFar).words ++ words) mid)
    (.refl fun first mid hopen => hst.levels (levels_openFunction hopen)) fun first mid hmid => ?_)
  have hrounds := Agrees.rounds
    (I := fun (soFar : RunSoFar) st => s.Amid (soFar.words ++ words) st) hmid
    fun soFar st hst => agrees_functionRound hbody hst
  exact ⟨hrounds.same, fun run st' hrun => (hrounds.ok run st' hrun).cut hframes⟩

theorem agrees_localRound (hbody : SameBodies body s) (hst : Resumes s [] st) :
    Agrees (localRoundOver body run) (localRound run) st
      (Leaves (fun _ => Resumes s []) fun _ _ => True) := by
  refine .bind (.refl fun _ _ hrun => hst.skipSeparators hrun) fun _ mid hmid => ?_
  refine .eatWord (fun opener mid' heat => ?_) (.step (current?_run mid) ?_)
  · exact (agrees_function hbody (hmid.opening heat rfl)).bind fun run _ h => .pure h
  · cases mid.ahead.head? with
    | none => exact .pure trivial
    | some t =>
      dsimp only
      split
      · exact .failing fun _ _ => fail_ok
      · exact .failing fun _ _ => failHere_ok

theorem agrees_localFunctions (hbody : SameBodies body s) (hst : Resumes s [] st) :
    Agrees (localFunctionsOver body) localFunctions st fun _ _ => True :=
  .bind (.rounds (I := fun _ => Resumes s []) (Q := fun _ _ => True) hst
    fun _ _ hst => agrees_localRound hbody hst) fun _ _ _ => .self

/-! ## Classes -/

theorem levels_here : Levels here := by
  intro st l st' hrun
  obtain rfl := here_ok hrun
  exact .refl _

theorem levels_freshId : Levels freshId :=
  .of_tracks restores_freshId fun _ _ => tracks_freshId.mono fun _ _ _ _ h => h.2.1 ▸ .nil

theorem levels_addItem (start : Location) (block : Block) (item : BlockItem) :
    Levels (addItem start block item) :=
  .of_tracks (restores_addItem start block item) fun _ _ =>
    (tracks_addItem start block item).mono fun _ _ _ _ h => h.1 ▸ .nil

theorem levels_addStatement (start : Location) (block : Block) (item : BlockItem) :
    Levels (addStatement start block item) :=
  (levels_addItem start block item).bind fun _ => levels_endStatement.bind fun _ => .pure

theorem levels_spanFrom {start : Location} : Levels (spanFrom start) := by
  intro st l st' hrun
  cases hrun
  exact .refl _

theorem frame_kind (kind : BlockKind) : Frame.ofWord? kind.word = none := by cases kind <;> rfl

theorem agrees_addMethod (hbody : SameBodies body s) (block : Block)
    (hst : s.Amid ["methods", "classdef"] st) :
    Agrees (addMethodOver body block) (addMethod block) st
      fun _ => Resumes s ["methods", "classdef"] := by
  refine .levels levels_here fun start mid hmid => ?_
  have hmid := hst.levels hmid
  refine .eatWord (fun opener mid' heat => ?_) ?_
  · have hopened := Resumes.opening (.inl hmid) heat rfl
    have hfunction : Agrees
        (functionOver body (["methods", "classdef"].filterMap Frame.ofWord?) {} opener)
        (function {} opener) { mid' with methodDepth := mid'.methodDepth + 1 }
        fun _ => Resumes s ["methods", "classdef"] :=
      agrees_function hbody (hopened.same rfl rfl rfl rfl)
    refine .bind (P := fun _ => Resumes s ["methods", "classdef"])
      (.bracketed ⟨hfunction.same, fun run st' hrun => ?_⟩) fun run last hlast =>
        .refl fun block' st' hrun => ?_
    · exact (hfunction.ok run st' hrun).imp_left fun h => h.same rfl rfl rfl rfl
    · obtain ⟨_, hwalks, ⟨rfl, -⟩, -⟩ := tracks_addMethods (n := 0) start block _ hrun
      exact hlast.walks hwalks .nil
  · refine .refl fun block' st' hrun => .inl (hmid.levels ?_)
    exact (Levels.of_steady (steady_signature start)).bind
      (fun sig => levels_addStatement start block (.signature sig)) hrun

theorem levels_addNext {kind : BlockKind} (hkind : kind ≠ .methods) (block : Block) :
    Levels (addNext kind block) := by
  refine .of_tracks (restores_addNext kind block) fun s hs => ?_
  cases kind with
  | methods => exact absurd rfl hkind
  | properties | arguments => exact (tracks_addProperty block hs).mono fun _ _ _ _ h => h.2.2
  | events => exact (tracks_addEvent block hs).mono fun _ _ _ _ h => h.2.2
  | enumeration => exact (tracks_addEnumerator block hs).mono fun _ _ _ _ h => h.2.2

theorem agrees_addNext (kind : BlockKind) (hbody : SameBodies body s) (block : Block)
    (hst : s.Amid [kind.word, "classdef"] st) :
    Agrees (addNextOver body kind block) (addNext kind block) st
      fun _ => Resumes s [kind.word, "classdef"] := by
  have hplain : kind ≠ .methods → Agrees (addNext kind block) (addNext kind block) st
      fun _ => Resumes s [kind.word, "classdef"] :=
    fun hkind => .refl fun _ _ hrun => .inl (hst.levels (levels_addNext hkind block hrun))
  cases kind with
  | methods => exact agrees_addMethod hbody block hst
  | properties | arguments | events | enumeration => exact hplain (by decide)

theorem agrees_blockRound (kind : BlockKind) (opener : Token) (hbody : SameBodies body s)
    (block : Block) (hst : Resumes s [kind.word, "classdef"] st) :
    Agrees (blockRound opener (addNextOver body kind) block)
      (blockRound opener (addNext kind) block) st
      (Leaves (fun _ => Resumes s [kind.word, "classdef"])
        fun _ st' => s.Amid ["classdef"] st') := by
  refine .bind (.refl fun _ _ hrun => hst.skipSeparators hrun) fun _ mid hmid => ?_
  refine .eatWord (fun e mid' heat => .pure ?_) (.step rfl ?_)
  · have hclosed := hmid.closing heat
    rwa [frame_kind kind] at hclosed
  · split
    · exact .stop (.failing fun _ _ => failHere_ok)
    · rename_i hmore
      have hinside := hmid.resolve_right fun hend => hmore (List.isEmpty_iff.2 hend)
      exact (agrees_addNext kind hbody block hinside).bind fun _ _ h => .pure h

theorem agrees_block (kind : BlockKind) (opener : Token) (hbody : SameBodies body s)
    (hst : s.Amid [kind.word, "classdef"] st) :
    Agrees (block kind opener (addNextOver body kind)) (block kind opener (addNext kind)) st
      fun _ st' => s.Amid ["classdef"] st' := by
  rw [block_eq, block_eq]
  refine .levels (.of_steady steady_optAttributes) fun attrs s₁ hs₁ => ?_
  refine .levels levels_siteAt fun site s₂ hs₂ => ?_
  refine .bind (.rounds (I := fun _ => Resumes s [kind.word, "classdef"])
    (.inl ((hst.levels hs₁).levels hs₂))
    fun block _ h => agrees_blockRound kind opener hbody block h)
    fun filled s₃ hs₃ => ?_
  exact .levels levels_spanFrom fun place s₄ hs₄ => .pure (hs₃.levels hs₄)

theorem agrees_classRound (opener : Token) (hbody : SameBodies body s) (blocks : List Block)
    (hst : s.Amid ["classdef"] st) :
    Agrees (classRoundOver body opener blocks) (classRound opener blocks) st
      (Leaves (fun _ st' => s.Amid ["classdef"] st')
        fun _ st' => s.Amid [] { st' with frames := st'.frames.tail }) := by
  refine .levels levels_skipSeparators fun _ mid hmid => ?_
  have hmid := hst.levels hmid
  refine .eatWord (fun e mid' heat => ?_) (.step (current?_run mid) ?_)
  · have hclosed : s.Amid [] { mid' with frames := mid'.frames.tail } :=
      (Resumes.closing (.inl hmid) heat).same rfl rfl List.drop_one.symm rfl
    exact .levels levels_endStatement fun _ last hlast =>
      .pure (hclosed.levels (hlast.reframe List.tail))
  · cases hahead : mid.ahead with
    | nil => exact .failing fun _ _ => failHere_ok
    | cons t rest =>
      rw [List.head?_cons]
      cases hkind : classBlock? t with
      | none =>
        simp only [hkind]
        exact .failing fun _ _ => failHere_ok
      | some kind =>
        simp only [hkind]
        obtain ⟨hk, hraw, -⟩ := ofWord?_word hkind
        have hopened := hmid.opening (.eat rest hahead) hk (by rw [hraw]; cases kind <;> rfl)
        rw [hraw, frame_kind kind] at hopened
        exact .step (advance_run hahead)
          ((agrees_block kind t hbody hopened).bind fun block _ h => .pure h)

theorem agrees_classDef (opener : Token) (hbody : SameBodies body s)
    (hst : s.Amid ["classdef"] st) :
    Agrees (classDefOver body opener) (classDef opener) st
      fun _ st' => s.Amid [] { st' with frames := st'.frames.tail } := by
  refine .levels levels_freshId fun id s₁ hs₁ => ?_
  refine .levels (.of_steady steady_optAttributes) fun attrs s₂ hs₂ => ?_
  refine .levels (.of_steady steady_identifier) fun name s₃ hs₃ => ?_
  refine .levels (.of_steady steady_superclasses) fun supers s₄ hs₄ => ?_
  refine .levels levels_spanFrom fun place s₅ hs₅ => ?_
  have hinside := hst.levels ((((hs₁.trans hs₂).trans hs₃).trans hs₄).trans hs₅)
  refine .bind (.rounds (I := fun _ st => s.Amid ["classdef"] st) hinside
    fun blocks st hst => agrees_classRound opener hbody blocks hst) fun blocks last h => .pure h

/-! ## Files -/

theorem agrees_file (hbody : SameBodies body s) :
    Agrees (fileOver body) fileUnit s fun _ _ => True := by
  refine .levels levels_skipSeparators fun _ mid hmid => ?_
  have hmid := (State.Amid.start s).levels hmid
  refine .step rfl ?_
  split
  · exact .levels levels_freshId fun id s₁ hs₁ =>
      (agrees_localFunctions hbody (.inl (hmid.levels hs₁))).bind fun _ _ _ => .self
  refine .eatWord (fun opener mid' heat => ?_) ?_
  · have hopened := Resumes.opening (.inl hmid) heat rfl
    refine .levels levels_freshId fun id s₁ hs₁ => ?_
    refine .bind (.bracketed (agrees_classDef opener hbody
      (hopened.levels (hs₁.reframe (.classBody :: ·))))) fun definition s₂ hs₂ => ?_
    exact (agrees_localFunctions hbody (.inl hs₂)).bind fun _ _ _ => .self
  · refine .levels levels_freshId fun id s₁ hs₁ => ?_
    have hmid₁ := hmid.levels hs₁
    refine (hbody hmid₁).bind fun stmts s₂ hs₂ => ?_
    exact (agrees_localFunctions hbody (.inl (hmid₁.levels hs₂))).bind fun _ _ _ => .self

theorem fileOver_statements : fileOver (fun _ => statements) = fileUnit :=
  funext fun _ => (agrees_file fun _ _ _ => .refl fun _ _ hrun => levels_statements hrun).same

/-- A file with a probe before each statement of each body. -/
def watchedFile (probe : Probe) : Parse FileUnit := fileOver (watchedStatements probe)

/-- Whether they fail or not, the parsers of whatever has blocks leave those around it as they have
found them. -/
structure Restoring (s : State) : Prop where
  statement : ∀ t, s.SameBlocks (reached (statement nested t s))
  body : ∀ frame, s.SameBlocks (reached (nested frame s))
  function : ∀ run opener, s.SameBlocks (reached (function run opener s))
  block : ∀ kind opener, s.SameBlocks (reached (block kind opener (addNext kind) s))
  classDef : ∀ opener, s.SameBlocks (reached (inFrame .classBody (classDef opener) s))
  file : s.SameBlocks (reached (fileUnit s))

/-- The frames and the depth of methods are always restored. And while a body is read the frames are
those of the blocks that are open around it: no probe that is content with them there ever makes a
difference to how a file is read. -/
theorem frames_restored (s : State) : Restoring s ∧
    ∀ probe, Unnoticed s probe → watchedFile probe s = fileUnit s := by
  constructor
  · exact
      { statement := fun t => restores_statement restores_nested t s
        body := fun frame => restores_nested frame s
        function := fun run opener => restores_function run opener s
        block := fun kind opener => restores_block kind opener (restores_addNext kind) s
        classDef := fun opener => (restores_classDef opener).inFrame .classBody s
        file := restores_fileUnit s }
  · intro probe hprobe
    exact (agrees_file fun words st hst => agrees_watchedStatements hprobe hst).same

/-- `function f`, a loop with a `break` in a condition, and the ends of all three. -/
def breakInLoop : State :=
  let word := plainToken .keyword
  let name := plainToken .identifier
  let lineEnd := plainToken .newline "\n"
  State.ofTokens "t.m" [word "function", name "f", lineEnd, word "while", name "x", lineEnd,
    word "if", name "y", lineEnd, word "break", lineEnd, word "end", lineEnd, word "end", lineEnd,
    word "end"]

/-- It is read to its end under a probe that would fail at any other frames. -/
theorem frames_restored_breakInLoop : Unnoticed breakInLoop (sentry breakInLoop) ∧
    watchedFile (sentry breakInLoop) breakInLoop = fileUnit breakInLoop ∧
      succeeds fileUnit breakInLoop = true :=
  have hprobe : Unnoticed breakInLoop (sentry breakInLoop) := unnoticed_sentry rfl
  ⟨hprobe, (frames_restored breakInLoop).2 _ hprobe, by decide +kernel⟩

/-- The body of the condition is watched, in the frames of all three. -/
example : succeeds (watchedFile (fun around => if around = [.conditional, .loop, .function] then
    stalled else pure ())) breakInLoop = false := by
  decide +kernel

end MFile.Grammar.Parse
