import MFile.Proofs.Grammar.Functions.Steps
import MFile.Proofs.Grammar.Frames.Declarations
import MFile.Proofs.Grammar.Parameters.Lists

/-!
The frames inside of a body. A parse of statements is watched by a probe, which is run before each
statement of each body and is told which blocks are open there. Where the frames and the words that
have been passed are always those of the blocks, such a probe has nothing to notice, and the parse
goes on as if it were not watched.
-/

namespace MFile.Grammar

/-- The frame of the bodies behind a word. Blocks of declarations have no frame of their own. -/
def Frame.ofWord? : String → Option Frame
  | "function" => some .function
  | "classdef" => some .classBody
  | "for" | "parfor" | "while" => some .loop
  | "if" => some .conditional
  | "switch" => some .switch
  | "try" | "spmd" => some .region
  | _ => none

/-- The frames of the words that are still open behind a run, the innermost first. -/
def openFrames (run : List Token) : List Frame :=
  (({} : Depth).past run).blocks.filterMap fun b => Frame.ofWord? b.word

/-- Since `s` the blocks of `around` have been opened and not yet been closed, the innermost first,
and each has its frame. -/
structure State.Enclosed (s : State) (around : List Frame) (st : State) : Prop where
  frames : st.frames = around ++ s.frames
  passed : s.indexDepth = 0 → ∃ run, s.Passes run st ∧ openFrames run = around

/-! ## Level parts -/

/-- Between both states every block that is opened is closed. -/
structure State.Levels (st st' : State) : Prop where
  frames : st'.frames = st.frames
  run : st.indexDepth = 0 → st'.indexDepth = 0 ∧ ∃ run, st.Passes run st' ∧ Level run

namespace State.Levels

variable {st mid st' : State}

theorem refl (st : State) : st.Levels st := ⟨rfl, fun h => ⟨h, [], .refl st, .nil⟩⟩

theorem trans (h : st.Levels mid) (h' : mid.Levels st') : st.Levels st' := by
  refine ⟨h'.frames.trans h.frames, fun hst => ?_⟩
  obtain ⟨hmid, run, hrun, hlevel⟩ := h.run hst
  obtain ⟨hst', run', hrun', hlevel'⟩ := h'.run hmid
  exact ⟨hst', run ++ run', hrun.trans hrun', hlevel.append hlevel'⟩

theorem of_walks {run : List Token} (h : st.Walks run st') (hrun : st.indexDepth = 0 → Level run) :
    st.Levels st' :=
  ⟨h.frames, fun hst => ⟨h.indexDepth.trans hst, run, h.toPasses, hrun hst⟩⟩

theorem reframe (h : st.Levels st') (change : List Frame → List Frame) :
    State.Levels { st with frames := change st.frames } { st' with frames := change st'.frames } :=
  ⟨congrArg change h.frames, fun hst =>
    have ⟨hst', run, hrun, hlevel⟩ := h.run hst
    ⟨hst', run, ⟨hrun.ahead, hrun.behind⟩, hlevel⟩⟩

end State.Levels

structure State.Amid (s : State) (words : List String) (st : State) : Prop where
  frames : st.frames = words.filterMap Frame.ofWord? ++ s.frames
  passed : s.indexDepth = 0 → st.indexDepth = 0 ∧ ∃ run, s.Passes run st ∧
    (({} : Depth).past run).brackets = 0 ∧ (({} : Depth).past run).blocks.map (·.word) = words

namespace State.Amid

variable {s st st' : State} {words : List String} {word : String} {t : Token}

theorem start (s : State) : s.Amid [] s := ⟨rfl, fun hs => ⟨hs, [], .refl s, rfl, rfl⟩⟩

theorem enclosed (h : s.Amid words st) : s.Enclosed (words.filterMap Frame.ofWord?) st := by
  refine ⟨h.frames, fun hs => ?_⟩
  obtain ⟨-, run, hrun, -, hwords⟩ := h.passed hs
  refine ⟨run, hrun, ?_⟩
  rw [← hwords, List.filterMap_map]
  rfl

theorem same (h : s.Amid words st) (hahead : st'.ahead = st.ahead)
    (hbehind : st'.behind = st.behind)
    (hframes : st'.frames = st.frames) (hdepth : st'.indexDepth = st.indexDepth) :
    s.Amid words st' :=
  ⟨hframes.trans h.frames, fun hs =>
    have ⟨hst, run, hrun, hdepth'⟩ := h.passed hs
    ⟨hdepth.trans hst, run, ⟨by rw [hahead, hrun.ahead], by rw [hbehind, hrun.behind]⟩, hdepth'⟩⟩

theorem levels (h : s.Amid words st) (hlevels : st.Levels st') : s.Amid words st' := by
  refine ⟨hlevels.frames.trans h.frames, fun hs => ?_⟩
  obtain ⟨hst, run, hrun, hbrackets, hwords⟩ := h.passed hs
  obtain ⟨hst', more, hmore, hlevel⟩ := hlevels.run hst
  have hsame := hlevel.past_eq _ hbrackets
  refine ⟨hst', run ++ more, hrun.trans hmore, ?_, ?_⟩
  · rw [Depth.past_append, hsame, hbrackets]
  · rw [Depth.past_append, hsame, hwords]

theorem opening (h : s.Amid words st) (hwalks : st.Walks [t] st') (hk : t.kind = .keyword)
    (hopen : (Lexing.Block.ofWord? t.raw).isSome = true) :
    s.Amid (t.raw :: words)
      { st' with frames := (Frame.ofWord? t.raw).toList ++ st'.frames } := by
  constructor
  · change (Frame.ofWord? t.raw).toList ++ st'.frames = _
    rw [hwalks.frames, h.frames, List.filterMap_cons]
    cases Frame.ofWord? t.raw <;> rfl
  · intro hs
    obtain ⟨hst, run, hrun, hbrackets, hwords⟩ := h.passed hs
    have hpast := hrun.trans hwalks.toPasses
    refine ⟨hwalks.indexDepth.trans hst, run ++ [t], ⟨hpast.ahead, hpast.behind⟩, ?_⟩
    rw [Depth.past_append, Depth.past_cons, Depth.past_nil, Depth.step_keyword _ hk hbrackets,
      Depth.blocksAfter, if_pos hopen]
    exact ⟨hbrackets, congrArg (t.raw :: ·) hwords⟩

theorem closing (h : s.Amid (word :: words) st) (hwalks : st.Walks [t] st')
    (ht : t.isWord "end" = true) :
    s.Amid words
      { st' with frames := st'.frames.drop (Frame.ofWord? word).toList.length } := by
  obtain ⟨hk, hraw⟩ := Shuts.isWord_iff.1 ht
  constructor
  · change st'.frames.drop _ = _
    rw [hwalks.frames, h.frames, List.filterMap_cons]
    cases Frame.ofWord? word <;> rfl
  · intro hs
    obtain ⟨hst, run, hrun, hbrackets, hwords⟩ := h.passed hs
    have hpast := hrun.trans hwalks.toPasses
    refine ⟨hwalks.indexDepth.trans hst, run ++ [t], ⟨hpast.ahead, hpast.behind⟩, ?_⟩
    rw [Depth.past_append, Depth.past_cons, Depth.past_nil, Depth.step_keyword _ hk hbrackets, hraw]
    refine ⟨hbrackets, ?_⟩
    change (Depth.past {} run).blocks.tail.map (·.word) = words
    rw [List.map_tail, hwords]
    rfl

end State.Amid

theorem Frame.opens {word : String} {frame : Frame} (h : Frame.ofWord? word = some frame) :
    (Lexing.Block.ofWord? word).isSome = true := by
  unfold Frame.ofWord? at h
  split at h <;> first | rfl | cases h

namespace Parse

variable {α β : Type} {s st : State} {t : Token} {rest : List Token}

def Levels (p : Parse α) : Prop := ∀ ⦃st a st'⦄, p st = .ok a st' → st.Levels st'

namespace Levels

variable {p : Parse α}

theorem pure {a : α} : Levels (Pure.pure a) := by
  intro st b st' hrun
  obtain ⟨-, rfl⟩ := pure_ok hrun
  exact .refl _

theorem bind {f : α → Parse β} (h : Levels p) (hf : ∀ a, Levels (f a)) : Levels (p >>= f) := by
  intro st b st' hrun
  obtain ⟨a, mid, hp, hrest⟩ := bind_ok hrun
  exact (h hp).trans (hf a hrest)

theorem of_steady {k : Nat} (h : Steady k 0 p p) : Levels p := by
  intro st a st' hrun
  obtain ⟨run, hwalks, hpart, -⟩ := h st hrun
  exact .of_walks hwalks fun hst => hpart.level hst

theorem of_tracks (hp : Restores p)
    (h : ∀ s, s.indexDepth = 0 → Tracks 0 p p s fun _ run _ => Level run) : Levels p := by
  intro st a st' hrun
  have hframes : st'.frames = st.frames := by
    have hsame := (hp st).frames
    rwa [hrun] at hsame
  refine ⟨hframes, fun hst => ?_⟩
  obtain ⟨run, hwalks, hlevel, -⟩ := h st hst hrun
  exact ⟨hwalks.indexDepth.trans hst, run, hwalks.toPasses, hlevel⟩

end Levels

theorem levels_expression : Levels expression := .of_steady steady_expression

theorem levels_siteAt {l : Location} : Levels (siteAt l) := .of_steady (steady_siteAt l)

theorem levels_skipSeparators : Levels skipSeparators :=
  .of_tracks restores_skipSeparators fun _ _ =>
    tracks_skipSeparators.mono fun _ _ _ _ h => level_separators h.1

theorem levels_endStatement : Levels endStatement :=
  .of_tracks restores_endStatement fun _ _ =>
    tracks_endStatement.mono fun _ _ _ _ h => level_separators h

theorem levels_eatWord {word : String} (hopen : Lexing.Block.ofWord? word = none)
    (hend : word ≠ "end") : Levels (eatWord word) := by
  refine .of_tracks restores_eatIf fun s _ => (tracks_eatWord word).mono fun found run _ _ h => ?_
  obtain ⟨rfl, hword, -⟩ := h
  cases found with
  | none => exact .nil
  | some t => exact (word_between (hword t rfl) hopen hend).toLevel

theorem levels_statements : Levels statements :=
  .of_tracks restores_statements fun _ hs => tracks_statements hs

theorem levels_statementsWithin (fuel : Nat) : Levels (statementsWithin fuel) :=
  .of_tracks (restores_statementsWithin fuel) fun _ hs =>
    (tracks_statementsWithin (n := 0) fuel hs).alone _

/-! ## Two parses that do the same -/

/-- Both parses do the same from `s`, and what they give has `Q`. -/
structure Agrees (p q : Parse α) (s : State) (Q : α → State → Prop) : Prop where
  same : p s = q s
  ok : ∀ a s', q s = .ok a s' → Q a s'

namespace Agrees

variable {p q : Parse α} {f g : α → Parse β} {P : α → State → Prop} {Q : β → State → Prop}

theorem refl (h : ∀ a s', p s = .ok a s' → P a s') : Agrees p p s P := ⟨rfl, h⟩

theorem self : Agrees p p s fun _ _ => True := ⟨rfl, fun _ _ _ => trivial⟩

theorem pure {a : α} (h : P a s) : Agrees (Pure.pure a) (Pure.pure a) s P :=
  .refl fun b s' hrun => by
    obtain ⟨rfl, rfl⟩ := pure_ok hrun
    exact h

theorem failing (h : ∀ a s', p s ≠ .ok a s') : Agrees p p s P :=
  .refl fun a s' hrun => absurd hrun (h a s')

theorem bind (h : Agrees p q s P) (hf : ∀ a mid, P a mid → Agrees (f a) (g a) mid Q) :
    Agrees (p >>= f) (q >>= g) s Q := by
  constructor
  · cases hq : q s with
    | ok a mid => rw [bind_run hq, bind_run (h.same.trans hq), (hf a mid (h.ok a mid hq)).same]
    | error e mid => rw [bind_error hq, bind_error (h.same.trans hq)]
  · intro b s' hrun
    obtain ⟨a, mid, hq, hrest⟩ := bind_ok hrun
    exact (hf a mid (h.ok a mid hq)).ok b s' hrest

theorem stop (h : Agrees p q s fun _ _ => False) : Agrees (p >>= f) (q >>= g) s Q :=
  h.bind fun _ _ hfalse => hfalse.elim

theorem levels {p : Parse α} (hp : Levels p)
    (hf : ∀ a mid, s.Levels mid → Agrees (f a) (g a) mid Q) :
    Agrees (p >>= f) (p >>= g) s Q :=
  bind (.refl fun _ _ hrun => hp hrun) hf

theorem step {p : Parse α} {a : α} {mid : State} (hp : p s = .ok a mid)
    (h : Agrees (f a) (g a) mid Q) : Agrees (p >>= f) (p >>= g) s Q := by
  refine bind (P := fun a' mid' => a' = a ∧ mid' = mid) (.refl fun a' mid' hrun => ?_) ?_
  · rw [hp] at hrun
    cases hrun
    exact ⟨rfl, rfl⟩
  · rintro _ _ ⟨rfl, rfl⟩
    exact h

theorem eatWord {word : String} {f g : Option Token → Parse β}
    (hsome : ∀ t mid, Parse.eatWord word s = .ok (some t) mid →
      Agrees (f (some t)) (g (some t)) mid Q)
    (hnone : Agrees (f none) (g none) s Q) :
    Agrees (Parse.eatWord word >>= f) (Parse.eatWord word >>= g) s Q := by
  refine bind (P := fun found mid => Parse.eatWord word s = .ok found mid)
    (.refl fun _ _ heat => heat) fun found mid heat => ?_
  cases found with
  | some t => exact hsome t mid heat
  | none =>
    obtain ⟨rfl, -⟩ := eatIf_none heat
    exact hnone

theorem bracketed {change : State → State} {undo : State → State → State}
    (h : Agrees p q (change s) fun a s' => P a (undo s s')) :
    Agrees (Parse.bracketed change undo p) (Parse.bracketed change undo q) s P := by
  refine ⟨by rw [Parse.bracketed, Parse.bracketed, h.same], fun a s' hrun => ?_⟩
  obtain ⟨mid, hq, rfl⟩ := Tracks.bracketed_ok a s' hrun
  exact h.ok a mid hq

section Rounds

variable {body body' : α → Parse (Round α β)} {I : α → State → Prop}

theorem roundsWithin (hbody : ∀ a st, I a st → Agrees (body a) (body' a) st (Leaves I Q))
    (fuel : Nat) {a : α} (hI : I a s) :
    Agrees (Parse.roundsWithin body fuel a) (Parse.roundsWithin body' fuel a) s Q := by
  induction fuel generalizing a s with
  | zero => exact .failing fun _ _ => stalled_ok
  | succ fuel ih =>
    refine (hbody a s hI).bind fun r mid hr => ?_
    cases r with
    | again a' => exact ih hr
    | done b => exact .pure hr

theorem rounds {a : α} (hI : I a s)
    (hbody : ∀ a st, I a st → Agrees (body a) (body' a) st (Leaves I Q)) :
    Agrees (Parse.rounds a body) (Parse.rounds a body') s Q := by
  refine (hbody a s hI).bind fun r mid hr => ?_
  cases r with
  | again a' => exact .step rfl (roundsWithin hbody _ hr)
  | done b => exact .pure hr

end Rounds

end Agrees

/-! ## Statements with blocks -/

/-- Wherever a body of this frame may stand behind `s`, both parsers of bodies do the same. -/
def Inner (block block' : BlockParser) (frame : Frame) (s : State) : Prop :=
  ∀ ⦃st⦄, s.Levels st → Agrees (block frame) (block' frame) st fun _ st' => st.Levels st'

section Blocks

variable {block block' : BlockParser} (opener : Token)

theorem Inner.next {frame : Frame} (h : Inner block block' frame s) (hs : s.Levels st) :
    Inner block block' frame st :=
  fun _ hst => h (hs.trans hst)

theorem agrees_ifStmt (h : Inner block block' .conditional s) :
    Agrees (ifStmt block opener) (ifStmt block' opener) s fun _ _ => True := by
  refine .levels levels_expression fun guard mid hmid => ?_
  refine Agrees.bind (P := fun _ _ => True) ?_ fun branches last _ => .self
  refine .rounds (I := fun _ st => s.Levels st) hmid fun ⟨word, head, branches⟩ st hst => ?_
  refine (h hst).bind fun body s₁ hs₁ => .levels levels_siteAt fun site s₂ hs₂ => ?_
  have hbranch := (hst.trans hs₁).trans hs₂
  split
  · exact .pure trivial
  refine .levels (levels_eatWord rfl (by decide)) fun found s₃ hs₃ => ?_
  cases found with
  | some word =>
    exact .levels levels_expression fun guard s₄ hs₄ => .pure ((hbranch.trans hs₃).trans hs₄)
  | none =>
    refine .levels (levels_eatWord rfl (by decide)) fun found s₄ hs₄ => ?_
    cases found with
    | some word => exact .pure ((hbranch.trans hs₃).trans hs₄)
    | none => exact .pure trivial

theorem agrees_switchStmt (h : Inner block block' .switch s) :
    Agrees (switchStmt block opener) (switchStmt block' opener) s fun _ _ => True := by
  refine .levels levels_expression fun subject mid hmid => ?_
  refine Agrees.bind (P := fun _ _ => True) ?_ fun arms last _ => .self
  refine .rounds (I := fun _ st => s.Levels st) hmid fun arms st hst => ?_
  refine .levels levels_skipSeparators fun _ s₁ hs₁ => ?_
  refine .levels (levels_eatWord rfl (by decide)) fun found s₂ hs₂ => ?_
  have harm := (hst.trans hs₁).trans hs₂
  cases found with
  | some word =>
    refine .levels levels_expression fun value s₃ hs₃ => ?_
    refine (h (harm.trans hs₃)).bind fun body s₄ hs₄ => .levels levels_siteAt fun site s₅ hs₅ => ?_
    exact .pure (((harm.trans hs₃).trans hs₄).trans hs₅)
  | none =>
    refine .levels (levels_eatWord rfl (by decide)) fun found s₃ hs₃ => ?_
    cases found with
    | some word =>
      refine (h (harm.trans hs₃)).bind fun body s₄ hs₄ =>
        .levels levels_siteAt fun site s₅ hs₅ => ?_
      exact .pure (((harm.trans hs₃).trans hs₄).trans hs₅)
    | none =>
      refine .refl fun r st' hrun => ?_
      obtain ⟨closed, _, hword, hrun⟩ := bind_ok hrun
      split at hrun
      · obtain ⟨rfl, rfl⟩ := pure_ok hrun
        trivial
      · exact absurd hrun unexpected_ok

theorem Inner.last {frame : Frame} (h : Inner block block' frame s) {f : List Stmt → Parse β} :
    Agrees (block frame >>= f) (block' frame >>= f) s fun _ _ => True :=
  (h (.refl s)).bind fun _ _ _ => .self

def forHead : Parse (Name × Expr) := do
  let parenthesised := (← eat .lparen).isSome
  let head ← loopHead
  if parenthesised then discard (expect .rparen (.closer .rparen))
  return head

def parForHead : Parse ((Name × Expr) × Option Expr) := do
  let parenthesised := (← eat .lparen).isSome
  let head ← loopHead
  if parenthesised then
    let workers ← if (← eat .comma).isSome then some <$> expression else pure none
    discard (expect .rparen (.closer .rparen))
    return (head, workers)
  else return (head, none)

theorem forStmt_eq : forStmt block opener = do
    let (var, range) ← forHead
    let body ← block .loop
    blockEnd opener
    return (.forLoop · var range body) := by
  simp only [forStmt, forHead, bind_assoc, pure_bind, bind_of_ite]

theorem parForStmt_eq : parForStmt block opener = do
    let ((var, range), workers) ← parForHead
    let body ← block .loop
    blockEnd opener
    return (.parFor · var range workers body) := by
  simp only [parForStmt, parForHead, bind_assoc, pure_bind, bind_of_ite]

theorem spmdStmt_eq : spmdStmt block opener = do
    let options ← optArguments .lparen .rparen
    let body ← block .region
    blockEnd opener
    return (.spmd · options body) := by
  simp only [spmdStmt, optArguments, bind_assoc, bind_of_ite]

theorem levels_forHead : Levels forHead := by
  have hhead : Restores forHead := by
    refine restores_eatIf.bind fun paren => restores_loopHead.bind fun head => ?_
    dsimp only
    split
    · exact restores_expect.discard.bind fun _ => .done
    · exact .done
  refine .of_tracks hhead fun s hs => ?_
  refine (tracks_eatIf _).bind fun found paren mid hwalks hfound => ?_
  obtain ⟨rfl, hparen, -⟩ := hfound
  refine (steady_loopHead mid).bind fun head run mid' _ hrun => ?_
  cases found with
  | none =>
    refine .pure ?_
    rw [List.append_nil]
    exact hrun.level (hwalks.indexDepth.trans hs)
  | some paren =>
    refine (tracks_closer rfl).bind fun _ closing _ _ hclosing => .pure ?_
    have hall := level_parens (hparen paren rfl) hrun.inside hclosing
    simpa using hall

theorem levels_parForHead : Levels parForHead := by
  have hhead : Restores parForHead := by
    refine restores_eatIf.bind fun paren => restores_loopHead.bind fun head => ?_
    dsimp only
    split
    · refine restores_eatIf.bind fun comma => ?_
      split
      · exact restores_expression.map.bind fun _ => restores_expect.discard.bind fun _ => .done
      · exact Restores.done.bind fun _ => restores_expect.discard.bind fun _ => .done
    · exact .done
  refine .of_tracks hhead fun s hs => ?_
  refine (tracks_eatIf _).bind fun found paren mid hwalks hfound => ?_
  obtain ⟨rfl, hparen, -⟩ := hfound
  refine (steady_loopHead mid).bind fun head run mid' _ hrun => ?_
  cases found with
  | none =>
    refine .pure ?_
    rw [List.append_nil]
    exact hrun.level (hwalks.indexDepth.trans hs)
  | some paren =>
    have hend : ∀ {workers : Option Expr} {inside : List Token} {st : State}, Calm true inside →
        Tracks 0
          (do
            discard (expect .rparen (.closer .rparen))
            return (head, workers))
          (do
            discard (expect .rparen (.closer .rparen))
            return (head, workers)) st
          fun _ more _ => Level (paren :: (inside ++ more)) := by
      intro workers inside st hinside
      refine (tracks_closer rfl).bind fun _ closing _ _ hclosing => .pure ?_
      rw [List.append_nil]
      exact level_parens (hparen paren rfl) hinside hclosing
    refine (tracks_eatIf _).bind fun found comma next hnext hfound => ?_
    obtain ⟨rfl, hcomma, -⟩ := hfound
    cases found with
    | none => exact (Tracks.pure (U := fun _ run _ => run = []) rfl).bind fun _ none _ _ hnone =>
        ((hend hrun.inside).mono fun _ _ _ _ hall => by simpa [hnone] using hall).fewer (by omega)
    | some t =>
      have hcalm := hrun.inside.append (calm_separator (beq_iff_eq.1 (hcomma t rfl)) rfl)
      refine Tracks.bind (.map (V := fun _ run _ => Part next 1 run)
        (steady_expression next)) fun workers more _ _ hmore => ?_
      refine ((hend (hcalm.append hmore.inside)).mono fun _ _ _ _ hall => ?_).fewer (by omega)
      simpa only [Option.toList_some, List.cons_append, List.nil_append, List.append_assoc]
        using hall

theorem agrees_forStmt (h : Inner block block' .loop s) :
    Agrees (forStmt block opener) (forStmt block' opener) s fun _ _ => True := by
  rw [forStmt_eq, forStmt_eq]
  exact .levels levels_forHead fun head mid hmid => (h.next hmid).last

theorem agrees_parForStmt (h : Inner block block' .loop s) :
    Agrees (parForStmt block opener) (parForStmt block' opener) s fun _ _ => True := by
  rw [parForStmt_eq, parForStmt_eq]
  exact .levels levels_parForHead fun head mid hmid => (h.next hmid).last

theorem agrees_whileStmt (h : Inner block block' .loop s) :
    Agrees (whileStmt block opener) (whileStmt block' opener) s fun _ _ => True :=
  .levels levels_expression fun _ _ hmid => (h.next hmid).last

theorem agrees_tryStmt (h : Inner block block' .region s) :
    Agrees (tryStmt block opener) (tryStmt block' opener) s fun _ _ => True := by
  refine (h (.refl s)).bind fun body s₁ hs₁ => ?_
  refine .levels (levels_eatWord rfl (by decide)) fun found s₂ hs₂ => ?_
  have hcatch := h.next (hs₁.trans hs₂)
  split
  · refine .step rfl ?_
    split
    · exact .levels (.of_steady steady_identifier.some) fun var s₃ hs₃ => (hcatch.next hs₃).last
    · exact hcatch.last
  · exact .self

theorem agrees_spmdStmt (h : Inner block block' .region s) :
    Agrees (spmdStmt block opener) (spmdStmt block' opener) s fun _ _ => True := by
  rw [spmdStmt_eq, spmdStmt_eq]
  exact .levels (.of_steady (steady_optArguments rfl rfl))
    fun options mid hmid => (h.next hmid).last

end Blocks

/-! ## Statements -/

section Statements

variable {block block' : BlockParser}

theorem agrees_keywordStmt (hahead : s.ahead = t :: rest)
    (h : ∀ frame, Frame.ofWord? t.raw = some frame → Inner block block' frame (s.past t rest)) :
    Agrees (keywordStmt block t) (keywordStmt block' t) s fun _ _ => True := by
  have hopened : ∀ {p : BlockParser → Token → Parse (Site → Stmt)} {frame : Frame},
      Frame.ofWord? t.raw = some frame →
      (Inner block block' frame (s.past t rest) →
        Agrees (p block t) (p block' t) (s.past t rest) fun _ _ => True) →
      Agrees (advance >>= fun _ => p block t) (advance >>= fun _ => p block' t) s
        fun _ _ => True :=
    fun hword hp => .step (advance_run hahead) (hp (h _ hword))
  rw [keywordStmt, keywordStmt]
  generalize t.raw = word at hopened ⊢
  split
  · exact hopened rfl (agrees_ifStmt t)
  · exact hopened rfl (agrees_switchStmt t)
  · exact hopened rfl (agrees_forStmt t)
  · exact hopened rfl (agrees_parForStmt t)
  · exact hopened rfl (agrees_whileStmt t)
  · exact hopened rfl (agrees_tryStmt t)
  · exact hopened rfl (agrees_spmdStmt t)
  all_goals exact .self

theorem agrees_statement (hahead : s.ahead = t :: rest)
    (h : t.kind = .keyword → ∀ frame, Frame.ofWord? t.raw = some frame →
      Inner block block' frame (s.past t rest)) :
    Agrees (statement block t) (statement block' t) s fun _ _ => True := by
  rw [statement_eq, statement_eq]
  refine Agrees.bind (P := fun _ _ => True) (.step rfl ?_) fun stmts mid _ => .self
  split
  · exact .self
  · generalize hkind : t.kind = kind at h
    split
    · exact (agrees_keywordStmt hahead (h rfl)).bind fun make mid _ => .self
    · exact .self
    · exact .self

end Statements

/-! ## Watching -/

/-- What is done before each statement, told which blocks are open there, the innermost first. -/
abbrev Probe := List Frame → Parse Unit

def watchedRound (look : Parse Unit) (block : BlockParser) (stmts : List Stmt) :
    Parse (Round (List Stmt) (List Stmt)) := do
  skipSeparators
  look
  statementChoice block stmts (← current?)

def watchedWithin (probe : Probe) : Nat → List Frame → Parse (List Stmt)
  | 0, _ => stalled
  | fuel + 1, around => rounds [] (watchedRound (probe around) fun frame =>
      inFrame frame (watchedWithin probe fuel (frame :: around)))

def watchedStatements (probe : Probe) (around : List Frame) : Parse (List Stmt) := do
  watchedWithin probe ((← get).ahead.length + 1) around

/-- There is nothing that the probe notices where the frames are those of the blocks around. -/
def Unnoticed (s : State) (probe : Probe) : Prop :=
  ∀ around st, s.Enclosed around st → probe around st = .ok () st

/-- Fails where the frames, or the words that have been passed since `s`, are not those of the
blocks around. -/
def sentry (s : State) : Probe := fun around st =>
  if st.frames = around ++ s.frames ∧
      openFrames (s.ahead.take (s.ahead.length - st.ahead.length)) = around then .ok () st
  else .error (.internal ⟨st.file, .file, none⟩ .stalled) st

theorem unnoticed_sentry (hs : s.indexDepth = 0) : Unnoticed s (sentry s) := by
  intro around st h
  obtain ⟨run, hrun, hopen⟩ := h.passed hs
  refine if_pos ⟨h.frames, ?_⟩
  rw [hrun.ahead, List.length_append, Nat.add_sub_cancel, List.take_left, hopen]

variable {probe : Probe} {words : List String}

theorem inner_inFrame {p q : Frame → Parse (List Stmt)} {frame : Frame} (hst : s.Amid words st)
    (hahead : st.ahead = t :: rest) (hk : t.kind = .keyword)
    (hword : Frame.ofWord? t.raw = some frame)
    (h : ∀ st', s.Amid (t.raw :: words) st' →
      Agrees (p frame) (q frame) st' fun _ st'' => st'.Levels st'') :
    Inner (fun frame => inFrame frame (p frame)) (fun frame => inFrame frame (q frame)) frame
      (st.past t rest) := by
  intro st' hst'
  have hopened := hst.opening (.eat rest hahead) hk (Frame.opens hword)
  rw [hword] at hopened
  have hbody := h _ (hopened.levels (hst'.reframe (frame :: ·)))
  exact .bracketed ⟨hbody.same, fun stmts st'' hrun => (hbody.ok stmts st'' hrun).reframe List.tail⟩

theorem agrees_watchedRound {block block' : BlockParser} (hprobe : Unnoticed s probe)
    (hst : s.Amid words st)
    (hblock : ∀ {st t rest frame}, s.Amid words st → st.ahead = t :: rest → t.kind = .keyword →
      Frame.ofWord? t.raw = some frame → Inner block block' frame (st.past t rest))
    (stmts : List Stmt) :
    Agrees (watchedRound (probe (words.filterMap Frame.ofWord?)) block stmts)
      (statementRound block' stmts) st fun _ _ => True := by
  refine .levels levels_skipSeparators fun _ mid hmid => ?_
  have hmid := hst.levels hmid
  have hchoice : Agrees (current? >>= statementChoice block stmts)
      (current? >>= statementChoice block' stmts) mid fun _ _ => True := by
    refine .step (current?_run mid) ?_
    cases hahead : mid.ahead with
    | nil => exact .self
    | cons t rest =>
      rw [List.head?_cons, statementChoice, statementChoice]
      split
      · exact .self
      split
      · exact .self
      split
      · exact .self
      · refine Agrees.bind (P := fun _ _ => True) (agrees_statement hahead fun hk frame hword => ?_)
          fun more mid' _ => .self
        exact hblock hmid hahead hk hword
  exact ⟨(bind_run (hprobe _ mid hmid.enclosed) _).trans hchoice.same, hchoice.ok⟩

theorem levels_statementRound {block : BlockParser} (hblock : ∀ frame, Restores (block frame))
    (hnested : Nested 0 block block) (stmts : List Stmt) : Levels (statementRound block stmts) := by
  refine .of_tracks (restores_statementRound hblock stmts) fun s hs => ?_
  refine ((tracks_statementRound hnested stmts hs).fewer (Nat.zero_le _)).mono fun r run _ _ h => ?_
  cases r with
  | again more => exact h.2
  | done all => exact h

theorem agrees_watchedWithin (hprobe : Unnoticed s probe) (fuel : Nat) (hst : s.Amid words st) :
    Agrees (watchedWithin probe fuel (words.filterMap Frame.ofWord?)) (statementsWithin fuel) st
      fun _ st' => st.Levels st' := by
  -- On the depth of the bodies; each is read with one more word open than what is around it.
  induction fuel generalizing words st with
  | zero => exact .failing fun _ _ => stalled_ok
  | succ fuel ih =>
    refine ⟨?_, fun stmts st' hrun => levels_statementsWithin _ hrun⟩
    let around := words.filterMap Frame.ofWord?
    let block : BlockParser := fun frame =>
      inFrame frame (watchedWithin probe fuel (frame :: around))
    let block' : BlockParser := fun frame => inFrame frame (statementsWithin fuel)
    have hinner : ∀ {st t rest frame}, s.Amid words st → st.ahead = t :: rest → t.kind = .keyword →
        Frame.ofWord? t.raw = some frame → Inner block block' frame (st.past t rest) := by
      intro st t rest frame hst hahead hk hword
      refine inner_inFrame hst hahead hk hword fun st' hst' => ?_
      have hbody := ih hst'
      rwa [List.filterMap_cons_some hword] at hbody
    have hlevels : ∀ stmts, Levels (statementRound block' stmts) :=
      levels_statementRound (fun frame => (restores_statementsWithin fuel).inFrame frame)
        fun frame s hs => .inFrame ((tracks_statementsWithin (n := 0)
          (s := { s with frames := frame :: s.frames }) fuel hs).alone _)
    rw [watchedWithin, statementsWithin, statementList_eq]
    refine (Agrees.rounds (I := fun _ st' => st.Levels st') (Q := fun _ _ => True) (.refl st)
      fun stmts st' hst' => ⟨?_, fun r st'' hrun => ?_⟩).same
    · exact (agrees_watchedRound hprobe (hst.levels hst') hinner stmts).same
    · cases r with
      | again more => exact hst'.trans (hlevels stmts hrun)
      | done all => trivial

theorem agrees_watchedStatements (hprobe : Unnoticed s probe) (hst : s.Amid words st) :
    Agrees (watchedStatements probe (words.filterMap Frame.ofWord?)) statements st
      fun _ st' => st.Levels st' :=
  .step rfl (agrees_watchedWithin hprobe _ hst)

end Parse

end MFile.Grammar
