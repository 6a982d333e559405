import MFile.Proofs.Grammar.Lockstep.Expression
import MFile.Proofs.Grammar.Rounds

/-!
Statements side by side. Outside of an index a statement passes a level run, so the blocks around
it stay as they are, and the statement itself ends in no separator.
-/

namespace MFile.Grammar.Parse

variable {α β : Type} {n m k : Nat} {s : State} {run : List Token} {block block' : BlockParser}

theorem Part.phrase (h : Part s k run) (hs : s.indexDepth = 0) : Phrase false run := by
  rw [Part, hs] at h
  exact h.1

theorem Part.level (h : Part s k run) (hs : s.indexDepth = 0) : Level run := (h.phrase hs).level

theorem Part.sentence (h : Part s 1 run) (hs : s.indexDepth = 0) : Sentence run :=
  .of_phrase (h.phrase hs) (h.ne_nil (k := 0))

def Nested (n : Nat) (block block' : BlockParser) : Prop :=
  ∀ frame s, s.indexDepth = 0 → Tracks n (block frame) (block' frame) s fun _ run _ => Level run

theorem Nested.fewer (h : Nested n block block') (hm : m ≤ n) : Nested m block block' :=
  fun frame s hs => (h frame s hs).fewer hm

/-! ## Words -/

theorem isLoopOpen_inside (fs : List Frame) : isLoopOpen (framesInside fs) = isLoopOpen fs := by
  induction fs with
  | nil => rfl
  | cons f fs ih =>
    rw [framesInside] at ih ⊢
    cases f <;> simp [isLoopOpen, ih]

theorem isLoopOpen_eq {fs fs' : List Frame} (h : framesInside fs' = framesInside fs) :
    isLoopOpen fs' = isLoopOpen fs := by
  rw [← isLoopOpen_inside fs', h, isLoopOpen_inside]

theorem tracks_requireLoop (t : Token) :
    Tracks n (requireLoop t) (requireLoop t) s fun _ run _ => run = [] := by
  refine .get fun s' hs' _ => ?_
  rw [isLoopOpen_eq hs'.frames]
  split
  · exact .pure rfl
  · exact .failing fun _ _ => fail_ok

theorem tracks_eatWord (word : String) : Tracks n (eatWord word) (eatWord word) s
    fun found run _ => run = found.toList ∧ (∀ t ∈ found, t.isWord word = true) ∧
      (found = none → ∀ t ∈ s.ahead.head?, t.isWord word = false) :=
  tracks_eatIf _

theorem tracks_blockEnd (opener : Token) :
    Tracks n (blockEnd opener) (blockEnd opener) s fun _ run _ => Shuts run := by
  refine (tracks_eatWord "end").bind fun found run mid _ hfound => ?_
  cases found with
  | none =>
    exact .failing fun _ _ => failHere_ok
  | some t =>
    obtain ⟨rfl, hend, -⟩ := hfound
    exact .pure (.single (hend t rfl))

theorem level_separators (h : ∀ t ∈ run, t.isSeparator = true) : Level run :=
  .all (fun _ => .separator) h

theorem tracks_skipSeparators : Tracks n skipSeparators skipSeparators s
    fun _ run s₁ => (∀ t ∈ run, t.isSeparator = true) ∧
      ∀ t ∈ s₁.ahead.head?, t.isSeparator = false := by
  refine Tracks.bind (tracks_eatWhile _) fun taken run mid _ h => .pure ?_
  rw [List.append_nil]
  exact ⟨h.1 ▸ h.2.1, h.2.2⟩

theorem tracks_endStatement : Tracks n endStatement endStatement s
    fun _ run _ => ∀ t ∈ run, t.isSeparator = true := by
  refine (tracks_eatIf _).bind fun found run mid _ hfound => ?_
  cases found with
  | some t =>
    obtain ⟨rfl, hsep, -⟩ := hfound
    refine .pure ?_
    simpa using hsep t rfl
  | none =>
    obtain ⟨rfl, -⟩ := hfound
    refine .current? ?_
    cases mid.ahead.head? with
    | none => exact .pure (by simp)
    | some t =>
      dsimp only
      split
      · exact .failing fun _ _ => unexpected_ok
      · exact .pure (by simp)

/-! ## Heads of blocks -/

theorem word_between {t : Token} {word : String} (h : t.isWord word = true)
    (hopen : Lexing.Block.ofWord? word = none) (hend : word ≠ "end") : Sentence [t] := by
  obtain ⟨hk, rfl⟩ := Shuts.isWord_iff.1 h
  exact .word hk hopen hend

theorem Tracks.silent {x y : Parse α} {f g : α → Parse β} {V : β → List Token → State → Prop}
    {P : α → Prop} (h : Tracks n x y s fun a run _ => P a ∧ run = [])
    (hf : ∀ a mid, s.Walks [] mid → Tracks n (f a) (g a) mid V) :
    Tracks n (x >>= f) (y >>= g) s V :=
  h.bind fun a _ mid hwalks ⟨_, hrun⟩ => by
    subst hrun
    exact hf a mid hwalks

theorem Tracks.siteAt {l : Location} {f g : Site → Parse β} {V : β → List Token → State → Prop}
    (hf : ∀ site mid, s.Walks [] mid → Tracks n (f site) (g site) mid V) :
    Tracks n (Parse.siteAt l >>= f) (Parse.siteAt l >>= g) s V :=
  .silent ((tracks_siteAt l).mono fun _ _ _ _ h => ⟨h.1, h.2.1⟩) hf

theorem Tracks.siteFrom {l : Location} {f g : Site → Parse β} {V : β → List Token → State → Prop}
    (hf : ∀ site mid, s.Walks [] mid → Tracks n (f site) (g site) mid V) :
    Tracks n (Parse.siteFrom l >>= f) (Parse.siteFrom l >>= g) s V :=
  .silent ((tracks_siteFrom l).mono fun _ _ _ _ h => ⟨h.1, h.2.1⟩) hf

def LevelTurn : Round α β → List Token → Prop
  | .again _, run => run ≠ [] ∧ Level run
  | .done _, run => Level run

theorem tracks_rounds_level {body body' : α → Parse (Round α β)} (a : α) (hs : s.indexDepth = 0)
    (hbody : ∀ a s, s.indexDepth = 0 →
      Tracks n (body a) (body' a) s fun r run _ => LevelTurn r run) :
    Tracks n (rounds a body) (rounds a body') s fun _ run _ => Level run := by
  refine Tracks.rounds (I := fun _ run _ => Level run) .nil
    fun a run mid hwalks hlevel => ((hbody a mid (hwalks.indexDepth.trans hs)).fewer
      (Nat.sub_le _ _)).mono fun r more s₁ _ hmore => ?_
  cases r with
  | again b => exact ⟨hmore.1, hlevel.append hmore.2⟩
  | done b => exact hlevel.append hmore

theorem tracks_ifStmt (hblock : Nested n block block') (opener : Token) (hs : s.indexDepth = 0) :
    Tracks n (ifStmt block opener) (ifStmt block' opener) s fun _ run _ => Shuts run := by
  refine (steady_expression s).bind fun guard head mid hwalks hhead => ?_
  have hmid := hwalks.indexDepth.trans hs
  refine Tracks.bind (tracks_rounds_level _ hmid ?_) fun branches body last _ hbody => ?_
  · rintro ⟨word, head, branches⟩ st hst
    refine ((hblock.fewer (Nat.sub_le _ _)) .conditional st hst).bind
      fun body run next hnext hrun => ?_
    refine .siteAt fun site next' hnext' => ?_
    have hdepth := hnext'.indexDepth.trans (hnext.indexDepth.trans hst)
    split
    · refine .pure ?_
      rw [List.append_nil]
      exact hrun
    refine (tracks_eatWord "elseif").bind fun found word st₁ hst₁ hfound => ?_
    cases found with
    | some t =>
      obtain ⟨rfl, hword, -⟩ := hfound
      have helseif := word_between (hword t rfl) rfl (by decide)
      refine (steady_expression st₁).bind fun guard more st₂ _ hmore => .pure ?_
      rw [List.append_nil]
      exact ⟨by simp, hrun.append (helseif.append
        (hmore.phrase (hst₁.indexDepth.trans hdepth))).toLevel⟩
    | none =>
      obtain ⟨rfl, -⟩ := hfound
      refine (tracks_eatWord "else").bind fun found word st₂ hst₂ hfound => ?_
      cases found with
      | some t =>
        obtain ⟨rfl, hword, -⟩ := hfound
        exact .pure ⟨by simp, hrun.append (word_between (hword t rfl) rfl (by decide)).toLevel⟩
      | none =>
        obtain ⟨rfl, -⟩ := hfound
        refine .pure ?_
        rw [Option.toList_none, List.append_nil, List.append_nil, List.append_nil]
        exact hrun
  · refine (tracks_blockEnd opener).bind fun _ closing _ _ hclosing => .pure ?_
    rw [List.append_nil]
    exact .after (hhead.level hs) (.after hbody hclosing)

theorem tracks_switchStmt (hblock : Nested n block block') (opener : Token)
    (hs : s.indexDepth = 0) :
    Tracks n (switchStmt block opener) (switchStmt block' opener) s fun _ run _ => Shuts run := by
  refine (steady_expression s).bind fun subject head mid hwalks hhead => ?_
  have hmid := hwalks.indexDepth.trans hs
  have harm : ∀ (word : Token) (head : Option Expr) (arms : List Clause) (st : State),
      st.indexDepth = 0 → Tracks n
        (do
          let body ← block .switch
          return (Round.again (arms ++ [⟨← siteAt word.location, head, body⟩]) :
            Round (List Clause) (List Clause)))
        (do
          let body ← block' .switch
          return .again (arms ++ [⟨← siteAt word.location, head, body⟩])) st
        fun r run _ => (∃ arms, r = .again arms) ∧ Level run := by
    intro word head arms st hst
    refine (hblock .switch st hst).bind fun body run next _ hrun => .siteAt fun _ _ _ => .pure ?_
    rw [List.append_nil]
    exact ⟨⟨_, rfl⟩, hrun⟩
  refine Tracks.bind (tracks_rounds_level _ hmid ?_) fun branches body last _ hbody => ?_
  · intro arms st hst
    refine tracks_skipSeparators.bind fun _ seps st₁ hst₁ hseps => ?_
    have hdepth₁ := hst₁.indexDepth.trans hst
    have hlevel := level_separators hseps.1
    refine (tracks_eatWord "case").bind fun found word st₂ hst₂ hfound => ?_
    have hdepth₂ := hst₂.indexDepth.trans hdepth₁
    cases found with
    | some t =>
      obtain ⟨rfl, hword, -⟩ := hfound
      have hcase := word_between (hword t rfl) rfl (by decide)
      refine (steady_expression st₂).bind fun guard more st₃ hst₃ hmore => ?_
      refine ((harm _ _ _ st₃ (hst₃.indexDepth.trans hdepth₂)).fewer (by omega)).mono ?_
      rintro _ body _ _ ⟨⟨arms, rfl⟩, hbody⟩
      refine ⟨by simp, hlevel.append (hcase.toLevel.append ?_)⟩
      exact (hmore.level hdepth₂).append hbody
    | none =>
      obtain ⟨rfl, -⟩ := hfound
      refine (tracks_eatWord "otherwise").bind fun found word st₃ hst₃ hfound => ?_
      cases found with
      | some t =>
        obtain ⟨rfl, hword, -⟩ := hfound
        refine ((harm _ _ _ st₃ (hst₃.indexDepth.trans hdepth₂)).fewer (by omega)).mono ?_
        rintro _ body _ _ ⟨⟨arms, rfl⟩, hbody⟩
        refine ⟨by simp, hlevel.append ?_⟩
        exact (word_between (hword t rfl) rfl (by decide)).toLevel.append hbody
      | none =>
        obtain ⟨rfl, -⟩ := hfound
        refine .checkWord ?_
        split
        · refine .pure ?_
          simp only [Option.toList_none, List.append_nil]
          exact hlevel
        · exact .failing fun _ _ => unexpected_ok
  · refine (tracks_blockEnd opener).bind fun _ closing _ _ hclosing => .pure ?_
    rw [List.append_nil]
    exact .after (hhead.level hs) (.after hbody hclosing)

theorem tracks_body (hblock : Nested n block block') {frame : Frame} {opener : Token}
    {make : List Stmt → Site → Stmt} (hs : s.indexDepth = 0) :
    Tracks n
      (do
        let body ← block frame
        blockEnd opener
        return make body)
      (do
        let body ← block' frame
        blockEnd opener
        return make body) s fun _ run _ => Shuts run := by
  refine (hblock frame s hs).bind fun body run mid _ hrun => ?_
  refine (tracks_blockEnd opener).bind fun _ closing _ _ hclosing => .pure ?_
  rw [List.append_nil]
  exact .after hrun hclosing

theorem steady_loopHead : Steady 1 n loopHead loopHead := by
  refine (steady_identifier.bind fun var => ?_ : Steady (1 + 0) _ _ _)
  have hassign : Steady 0 (n - 1) (discard (expect .assignment .loopAssignment))
      (discard (expect .assignment .loopAssignment)) :=
    ((steady_expect (by decide)).bind fun _ => .pure _).least (Nat.zero_le (1 + 0))
  exact hassign.after fun _ => (steady_expression.bind fun range => .pure _).least
    (Nat.zero_le (1 + 0))

theorem level_parens {opener : Token} {closing : List Token}
    (hopener : (opener.kind == .lparen) = true) (hrun : Calm true run) (hclosing : Closes closing) :
    Level (opener :: (run ++ closing)) :=
  ((hclosing.after hrun).calm (by rw [beq_iff_eq.1 hopener]; rfl)).level

theorem tracks_forStmt (hblock : Nested n block block') (opener : Token) (hs : s.indexDepth = 0) :
    Tracks n (forStmt block opener) (forStmt block' opener) s fun _ run _ => Shuts run := by
  refine (tracks_eatIf _).bind fun found paren mid hwalks hfound => ?_
  obtain ⟨rfl, hparen, -⟩ := hfound
  have hmid := hwalks.indexDepth.trans hs
  refine (steady_loopHead mid).bind fun ⟨var, range⟩ head mid' hwalks' hhead => ?_
  have hmid' := hwalks'.indexDepth.trans hmid
  cases found with
  | none =>
    exact ((tracks_body hblock hmid').fewer (by omega)).mono
      fun _ _ _ _ hbody => .after .nil (.after (hhead.level hmid) hbody)
  | some opener =>
    refine (tracks_closer rfl).bind fun _ closing last hlast hclosing => ?_
    refine ((tracks_body hblock (hlast.indexDepth.trans hmid')).fewer (by omega)).mono
      fun _ body _ _ hbody => ?_
    have hparens := level_parens (hparen opener rfl) hhead.inside hclosing
    have hall := Shuts.after hparens hbody
    simpa only [Option.toList_some, List.cons_append, List.nil_append, List.append_assoc] using hall

theorem tracks_parForStmt (hblock : Nested n block block') (opener : Token)
    (hs : s.indexDepth = 0) :
    Tracks n (parForStmt block opener) (parForStmt block' opener) s fun _ run _ => Shuts run := by
  refine (tracks_eatIf _).bind fun found paren mid hwalks hfound => ?_
  obtain ⟨rfl, hparen, -⟩ := hfound
  have hmid := hwalks.indexDepth.trans hs
  refine (steady_loopHead mid).bind fun ⟨var, range⟩ head mid' hwalks' hhead => ?_
  have hmid' := hwalks'.indexDepth.trans hmid
  cases found with
  | none =>
    exact ((tracks_body hblock hmid').fewer (by omega)).mono
      fun _ _ _ _ hbody => .after .nil (.after (hhead.level hmid) hbody)
  | some paren =>
    -- The number of workers stands in the parentheses too.
    have hend : ∀ {workers : Option Expr} {inside : List Token} {st : State},
        st.indexDepth = 0 → Calm true inside → Tracks n
          (do
            discard (expect .rparen (.closer .rparen))
            let body ← block .loop
            blockEnd opener
            return fun site => Stmt.parFor site var range workers body)
          (do
            discard (expect .rparen (.closer .rparen))
            let body ← block' .loop
            blockEnd opener
            return fun site => Stmt.parFor site var range workers body) st
          fun _ more _ => Shuts (paren :: (inside ++ more)) := by
      intro workers inside st hst hinside
      refine (tracks_closer rfl).bind fun _ closing last hlast hclosing => ?_
      refine ((tracks_body hblock (hlast.indexDepth.trans hst)).fewer (by omega)).mono
        fun _ body _ _ hbody => ?_
      have hall := Shuts.after (level_parens (hparen paren rfl) hinside hclosing) hbody
      simpa only [List.cons_append, List.append_assoc] using hall
    refine (tracks_eatIf _).bind fun found comma next hnext hfound => ?_
    obtain ⟨rfl, hcomma, -⟩ := hfound
    have hst := hnext.indexDepth.trans hmid'
    cases found with
    | none => exact (hend hst hhead.inside).fewer (by omega)
    | some t =>
      have hcalm := hhead.inside.append (calm_separator (beq_iff_eq.1 (hcomma t rfl)) rfl)
      refine Tracks.bind (.map (V := fun _ run _ => Part next 1 run)
        (steady_expression next)) fun workers more last hlast hmore => ?_
      refine ((hend (hlast.indexDepth.trans hst) (hcalm.append hmore.inside)).fewer
        (by omega)).mono fun _ _ _ _ hall => ?_
      simpa only [Option.toList_some, List.cons_append, List.nil_append, List.append_assoc]
        using hall

theorem tracks_whileStmt (hblock : Nested n block block') (opener : Token)
    (hs : s.indexDepth = 0) :
    Tracks n (whileStmt block opener) (whileStmt block' opener) s fun _ run _ => Shuts run := by
  refine (steady_expression s).bind fun guard head mid hwalks hhead => ?_
  exact ((tracks_body hblock (hwalks.indexDepth.trans hs)).fewer (Nat.sub_le _ _)).mono
    fun _ _ _ _ hbody => .after (hhead.level hs) hbody

theorem namesError_alike {l l' : List Token} (h : Alike l l') :
    namesError l' = namesError l := by
  have hsep : ∀ {t : Token} (l : List Token), t.isSeparator = true →
    namesError (t :: l) = false := by
    intro t l ht
    have hkind : (t.kind == .identifier) = false := by
      rw [Token.isSeparator] at ht
      generalize t.kind = kind at ht
      cases kind <;> first | rfl | cases ht
    cases l <;> simp only [namesError, hkind, Bool.false_and]
  cases h with
  | nil => rfl
  | stop ht => rw [hsep _ ht, hsep _ ht]
  | cons h => cases h <;> rfl

theorem tracks_tryStmt (hblock : Nested n block block') (opener : Token)
    (hs : s.indexDepth = 0) :
    Tracks n (tryStmt block opener) (tryStmt block' opener) s fun _ run _ => Shuts run := by
  refine (hblock .region s hs).bind fun body run mid hwalks hbody => ?_
  have hmid := hwalks.indexDepth.trans hs
  refine (tracks_eatWord "catch").bind fun found word mid' hwalks' hfound => ?_
  have hmid' := hwalks'.indexDepth.trans hmid
  cases found with
  | none =>
    obtain ⟨rfl, -⟩ := hfound
    refine (tracks_blockEnd opener).bind fun _ closing _ _ hclosing => .pure ?_
    rw [List.append_nil]
    exact .after hbody hclosing
  | some t =>
    obtain ⟨rfl, hword, -⟩ := hfound
    have hbefore := hbody.append (word_between (hword t rfl) rfl (by decide)).toLevel
    have hhandler : ∀ {catchVar : Option Name} {st : State}, st.indexDepth = 0 → Tracks n
        (do
          let handler ← block .region
          blockEnd opener
          return fun site => Stmt.tryCatch site body catchVar (some handler))
        (do
          let handler ← block' .region
          blockEnd opener
          return fun site => Stmt.tryCatch site body catchVar (some handler)) st
        fun _ more _ => Shuts more := by
      intro catchVar st hst
      refine (hblock .region st hst).bind fun handler run _ _ hrun => ?_
      refine (tracks_blockEnd opener).bind fun _ closing _ _ hclosing => .pure ?_
      rw [List.append_nil]
      exact .after hrun hclosing
    refine .get fun s' hs' halike => ?_
    rw [namesError_alike halike]
    split
    · refine Tracks.bind (.map (V := fun _ run _ => Part mid' 1 run) (steady_identifier mid'))
        fun catchVar name last hlast hname => ?_
      refine ((hhandler (hlast.indexDepth.trans hmid')).fewer (by omega)).mono
        fun _ _ _ _ hmore => ?_
      rw [← List.append_assoc]
      exact .after hbefore (.after (hname.level hmid') hmore)
    · refine ((hhandler hmid').fewer (by omega)).mono fun _ _ _ _ hmore => ?_
      rw [← List.append_assoc]
      exact .after hbefore hmore

theorem tracks_spmdStmt (hblock : Nested n block block') (opener : Token)
    (hs : s.indexDepth = 0) :
    Tracks n (spmdStmt block opener) (spmdStmt block' opener) s fun _ run _ => Shuts run := by
  refine .check ?_
  split
  · rename_i hparen
    obtain ⟨t, ht, hkind⟩ := Option.map_eq_some_iff.1 (beq_iff_eq.1 hparen)
    refine ((tracks_arguments steady_expression ht (by rw [hkind]; rfl) rfl).fewer
      (Nat.le_succ n)).bind fun options run mid hwalks hrun => ?_
    exact ((tracks_body hblock (hwalks.indexDepth.trans hs)).fewer (Nat.sub_le _ _)).mono
      fun _ _ _ _ hbody => .after (hrun.level hs) hbody
  · exact (tracks_body hblock hs).mono fun _ _ _ _ hbody => hbody

/-! ## Statements -/

theorem tracks_mapM {f : α → Parse β} (as : List α)
    (hf : ∀ a s, Tracks n (f a) (f a) s fun _ run _ => run = []) :
    Tracks n (as.mapM f) (as.mapM f) s fun _ run _ => run = [] := by
  induction as generalizing s with
  | nil => exact .pure rfl
  | cons a as ih =>
    rw [List.mapM_cons]
    refine (hf a s).bind fun b run mid _ hrun => ?_
    subst hrun
    refine ih.bind fun bs run _ _ hrun => .pure ?_
    subst hrun
    rfl

theorem steady_words {p : Token → Bool} (hp : ∀ t, p t = true → Part.plainKind t.kind = true) :
    Steady 0 n (eatWhile p) (eatWhile p) := by
  refine fun s => (tracks_eatWhile p).mono fun words run _ _ h => ?_
  obtain ⟨rfl, hall, -⟩ := h
  exact .all fun t ht => .of_kind rfl (hp t (hall t ht))

theorem steady_declaredNames : Steady 1 n declaredNames declaredNames := by
  refine (steady_identifier.bind fun first => ?_ : Steady (1 + 0) _ _ _)
  refine (steady_words fun t ht => ?_).after fun more => ?_
  · rw [beq_iff_eq.1 ht]
    rfl
  · refine Steady.after (fun s => ?_) fun names => .pure _
    exact (tracks_mapM more fun t _ => tracks_identifierOf t).mono fun _ _ _ _ h => h ▸ .nil s

theorem tracks_opened {p p' : Parse α} {t : Token} (ht : s.ahead.head? = some t)
    (hk : t.kind = .keyword) (hs : s.indexDepth = 0)
    (hopen : (Lexing.Block.ofWord? t.raw).isSome = true) (hword : t.raw ≠ "function")
    (hp : ∀ s, s.indexDepth = 0 → Tracks n p p' s fun _ run _ => Shuts run) :
    Tracks (n + 1) (advance >>= fun _ => p) (advance >>= fun _ => p') s
      fun _ run _ => Sentence run := by
  refine (tracks_advance ht).bind fun _ run mid hwalks hrun => ?_
  subst hrun
  exact (hp mid (hwalks.indexDepth.trans hs)).mono
    fun _ _ _ _ hshuts => hshuts.sentence hk hopen hword

theorem tracks_keywordStmt (hblock : Nested n block block') {t : Token}
    (ht : s.ahead.head? = some t) (hk : t.kind = .keyword) (hs : s.indexDepth = 0) :
    Tracks (n + 1) (keywordStmt block t) (keywordStmt block' t) s fun _ run _ => Sentence run := by
  have hopened : ∀ {p : BlockParser → Token → Parse (Site → Stmt)},
      (Lexing.Block.ofWord? t.raw).isSome = true ∧ t.raw ≠ "function" →
      (∀ s, s.indexDepth = 0 → Tracks n (p block t) (p block' t) s fun _ run _ => Shuts run) →
      Tracks (n + 1) (advance >>= fun _ => p block t) (advance >>= fun _ => p block' t) s
        fun _ run _ => Sentence run :=
    fun hword hp => tracks_opened ht hk hs hword.1 hword.2 hp
  have hsimple : ∀ {p : Parse (Site → Stmt)},
      Lexing.Block.ofWord? t.raw = none ∧ t.raw ≠ "end" → 
      (∀ s, s.indexDepth = 0 → Tracks (n + 1) p p s fun _ run _ => Phrase false run) →
      Tracks (n + 1) (advance >>= fun _ => p) (advance >>= fun _ => p) s
        fun _ run _ => Sentence run := by
    intro p hword hp
    refine (tracks_advance ht).bind fun _ run mid hwalks hrun => ?_
    subst hrun
    exact ((hp mid (hwalks.indexDepth.trans hs)).fewer (Nat.sub_le _ _)).mono
      fun _ _ _ _ hphrase => (Sentence.word hk hword.1 hword.2).append hphrase
  have hnames : ∀ {make : List Name → Site → Stmt} (s : State), s.indexDepth = 0 →
      Tracks (n + 1) (declaredNames >>= fun names => pure (make names))
        (declaredNames >>= fun names => pure (make names)) s fun _ run _ => Phrase false run :=
    fun s hs => (steady_declaredNames.bind (fun _ => .pure _) s).mono
      fun _ _ _ _ h => h.phrase hs
  have hloop : ∀ {make : Site → Stmt} (s : State), s.indexDepth = 0 →
      Tracks (n + 1) (requireLoop t >>= fun _ => pure make)
        (requireLoop t >>= fun _ => pure make) s fun _ run _ => Phrase false run :=
    fun s hs => (tracks_requireLoop t).bind fun _ _ _ _ h => .pure (by rw [h]; exact .nil)
  rw [keywordStmt, keywordStmt]
  generalize hraw : t.raw = word at hopened hsimple ⊢
  split
  · exact hopened (by decide) fun s hs => tracks_ifStmt hblock t hs
  · exact hopened (by decide) fun s hs => tracks_switchStmt hblock t hs
  · exact hopened (by decide) fun s hs => tracks_forStmt hblock t hs
  · exact hopened (by decide) fun s hs => tracks_parForStmt hblock t hs
  · exact hopened (by decide) fun s hs => tracks_whileStmt hblock t hs
  · exact hopened (by decide) fun s hs => tracks_tryStmt hblock t hs
  · exact hopened (by decide) fun s hs => tracks_spmdStmt hblock t hs
  · exact hsimple (by decide) hnames
  · exact hsimple (by decide) hnames
  · exact hsimple (by decide) hloop
  · exact hsimple (by decide) hloop
  · exact hsimple (by decide) fun s hs => .pure .nil
  · exact .failing fun _ _ => fail_ok

theorem tracks_commandHead (hs : s.indexDepth = 0) :
    Tracks n commandHead commandHead s fun _ run _ => Sentence run := by
  refine (steady_dottedName s).bind fun head run mid hwalks hrun => ?_
  refine (tracks_eatWhile _).bind fun words more mid' _ hwords => ?_
  obtain ⟨rfl, hall, -⟩ := hwords
  have hwords : Sentence (run ++ more) := by
    refine (hrun.sentence hs).all fun t ht => ?_
    have hkind := hall t ht
    simp only [Bool.or_eq_true, beq_iff_eq] at hkind
    refine .single (.of_kind ?_ ?_ ?_) ?_ <;> rcases hkind with hkind | hkind <;>
      simp only [Token.isSeparator, hkind] <;> first | rfl | decide
  split
  · refine (tracks_mapM more fun t s => .siteAt fun _ _ _ => .pure rfl).mono fun _ none _ _ h => ?_
    rwa [h, List.append_nil]
  · refine (tracks_mapM more fun t s => .siteAt fun _ _ _ => .pure rfl).bind
      fun args none _ _ h => .siteFrom fun _ _ _ => .siteFrom fun _ _ _ => .pure ?_
    rwa [h, List.append_nil, List.append_nil]

theorem tracks_assignableName (e : Expr) :
    Tracks n (assignableName e) (assignableName e) s fun _ run _ => run = [] := by
  rw [assignableName]
  split
  · exact .pure rfl
  · exact .failing fun _ _ => fail_ok

theorem tracks_expressionStmt (hs : s.indexDepth = 0) :
    Tracks n expressionStmt expressionStmt s fun _ run _ => Sentence run := by
  refine .check ?_
  refine (tracks_placeholders _).bind fun _ none s₁ hs₁ hnone => ?_
  obtain ⟨rfl, -⟩ := hnone
  have hdepth₁ := hs₁.indexDepth.trans hs
  refine (steady_expression s₁).bind fun lhs left s₂ hs₂ hleft => ?_
  refine (tracks_placeholders _).bind fun _ none s₃ hs₃ hnone => ?_
  obtain ⟨rfl, -⟩ := hnone
  have hdepth₃ := hs₃.indexDepth.trans (hs₂.indexDepth.trans hdepth₁)
  refine (tracks_eatIf _).bind fun found equals s₄ hs₄ hfound => ?_
  obtain ⟨rfl, hassign, -⟩ := hfound
  have hdepth₄ := hs₄.indexDepth.trans hdepth₃
  have hsentence := hleft.sentence hdepth₁
  cases found with
  | none =>
    simp only [Option.isNone_none, if_true]
    split
    · exact .failing fun _ _ h => by
        obtain ⟨_, _, h, -⟩ := bind_ok h
        exact fail_ok h
    · refine .pure ?_
      simpa using hsentence
  | some t =>
    have hleft' := hsentence.toLevel.append (.of_kind (t := t) ?_ ?_ ?_)
    all_goals try rw [beq_iff_eq.1 (hassign t rfl)]; first | rfl | decide
    have hright : ∀ {make : Expr → Site → Stmt} (st : State), st.indexDepth = 0 → Tracks n
        (do
          let rhs ← expression
          return make rhs)
        (do
          let rhs ← expression
          return make rhs) st fun _ more _ => Sentence (left ++ ([t] ++ more)) := by
      intro make st hst
      refine (steady_expression.bind (fun _ => .pure _) st).mono fun _ more _ _ hmore => ?_
      rw [← List.append_assoc]
      exact .after hleft' (hmore.sentence hst)
    simp only [Option.isNone_some, Bool.false_eq_true, if_false]
    split
    · refine (tracks_mapM _ fun e s => tracks_assignableName e).bind fun names none st hst h => ?_
      subst h
      exact (hright st (hst.indexDepth.trans hdepth₄)).fewer (by omega)
    · refine (tracks_assignableName _).bind fun names none st hst h => ?_
      subst h
      exact (hright st (hst.indexDepth.trans hdepth₄)).fewer (by omega)

theorem followedByText_separator {t : Token} (plain : Bool) (l : List Token)
    (h : t.isSeparator = true) : followedByText plain (t :: l) = false := by
  rw [Token.isSeparator] at h
  cases l with
  | nil =>
    rw [followedByText]
    generalize t.kind = kind at h
    cases kind <;> cases h <;> cases plain <;> rfl
  | cons u l =>
    rw [followedByText]
    generalize t.kind = kind at h
    cases kind <;> cases h <;> cases plain <;> rfl

theorem followedByText_alike {l l' : List Token} (plain : Bool) (h : Alike l l') :
    followedByText plain l' = followedByText plain l := by
  induction plain, l using followedByText.induct generalizing l' with
  | case1 plain t u rest hselect ih =>
    cases h with
    | stop ht => rw [followedByText_separator _ _ ht, followedByText_separator _ _ ht]
    | cons h =>
      cases h with
      | stop hu =>
        rw [Token.isSeparator] at hu
        simp only [Bool.and_eq_true, beq_iff_eq] at hselect
        rw [hselect.2] at hu
        cases hu
      | cons h =>
        rw [followedByText, followedByText, if_pos hselect, if_pos hselect]
        exact ih h
  | case2 plain t u rest hselect =>
    cases h with
    | stop ht => rw [followedByText_separator _ _ ht, followedByText_separator _ _ ht]
    | cons h =>
      cases h <;> rw [followedByText, followedByText, if_neg hselect, if_neg hselect]
  | case3 plain t =>
    cases h with
    | stop ht => rw [followedByText_separator _ _ ht, followedByText_separator _ _ ht]
    | cons h =>
      cases h
      rfl
  | case4 plain =>
    cases h
    rfl

theorem tracks_statementHead (hblock : Nested n block block') {t : Token}
    (ht : s.ahead.head? = some t) (hs : s.indexDepth = 0) :
    Tracks (n + 1) (statementHead block t) (statementHead block' t) s
      fun _ run _ => Sentence run := by
  have hmake : ∀ {p p' : Parse (Site → Stmt)},
      Tracks (n + 1) p p' s (fun _ run _ => Sentence run) →
      Tracks (n + 1) (do
        let make ← p
        return [make (← siteFrom t.location)]) (do
        let make ← p'
        return [make (← siteFrom t.location)]) s fun _ run _ => Sentence run :=
    fun hp => hp.bind fun _ run _ _ hrun => .siteFrom fun _ _ _ => .pure (by rwa [List.append_nil])
  refine .get fun s' hs' halike => ?_
  by_cases hword : t.kind = .identifier
  · have htail := halike.tail fun u hu => by
      cases ht.symm.trans hu
      rw [Token.isSeparator, hword]
      rfl
    rw [followedByText_alike true htail]
    split
    · exact tracks_commandHead hs
    · simp only [hword]
      exact hmake (tracks_expressionStmt hs)
  · simp only [hword, false_and, if_false]
    generalize hkind : t.kind = kind
    split
    · exact hmake (tracks_keywordStmt hblock ht hkind hs)
    · refine (tracks_advance_kind ht hkind (by decide)).bind fun _ run _ _ hrun => ?_
      refine (Tracks.pure (U := fun _ run _ => run = []) rfl).bind fun _ none _ _ hnone => ?_
      refine .siteFrom fun _ _ _ => .pure ?_
      rw [hnone, List.append_nil, List.append_nil]
      exact hrun.sentence hs
    · exact hmake (tracks_expressionStmt hs)

theorem tracks_statementRound (hblock : Nested n block block') (stmts : List Stmt)
    (hs : s.indexDepth = 0) :
    Tracks (n + 1) (statementRound block stmts) (statementRound block' stmts) s
      fun r run _ => LevelTurn r run := by
  refine tracks_skipSeparators.bind fun _ seps mid hwalks hseps => ?_
  have hlevel := level_separators hseps.1
  have hmid := hwalks.indexDepth.trans hs
  have hdone : ∀ {n}, Tracks n (pure (.done stmts) : Parse (Round (List Stmt) (List Stmt)))
      (pure (.done stmts)) mid fun r run _ => LevelTurn r (seps ++ run) :=
    fun {n} => Tracks.pure (by rw [List.append_nil]; exact hlevel)
  refine .current? ?_
  cases ht : mid.ahead.head? with
  | none => exact hdone
  | some t =>
    simp only [statementChoice]
    split
    · exact hdone
    split
    · refine .get fun s' hs' _ => ?_
      have hframes := hs'.frames
      generalize mid.frames = fs at hframes ⊢
      generalize s'.frames = fs' at hframes ⊢
      rcases fs with _ | ⟨f, fs⟩ <;> rcases fs' with _ | ⟨f', fs'⟩ <;> (try cases f) <;>
        (try cases f') <;> first
          | exact hdone
          | exact .failing fun _ _ => fail_ok
          | simp [framesInside] at hframes
    split
    · exact .failing fun _ _ => fail_ok
    rw [statement_eq, statement_eq]
    refine Tracks.bind (U := fun _ run _ => run ≠ [] ∧ Level run) ?_
      fun more run _ _ hrun => .pure ?_
    · refine ((tracks_statementHead hblock ht hmid).fewer (Nat.sub_le _ _)).bind
        fun found run last _ hrun => ?_
      refine tracks_endStatement.bind fun _ last _ _ hlast => .pure ?_
      rw [List.append_nil]
      exact ⟨by simp [hrun.ne_nil], hrun.toLevel.append (level_separators hlast)⟩
    · rw [List.append_nil]
      exact ⟨by simp [hrun.1], hlevel.append hrun.2⟩

theorem tracks_statementsWithin (fuel : Nat) (hs : s.indexDepth = 0) :
    Tracks n (statementsWithin fuel) (statementsWithin n) s fun _ run _ => Level run := by
  induction fuel generalizing n s with
  | zero => exact .failing fun _ _ => stalled_ok
  | succ fuel ih =>
    have hblock : ∀ n, Nested n (fun frame => inFrame frame (statementsWithin fuel))
        fun frame => inFrame frame (statementsWithin n) :=
      fun n frame s hs => .inFrame (ih (s := { s with frames := frame :: s.frames }) hs)
    have hlist : ∀ n, Tracks (n + 1) (statementsWithin (fuel + 1)) (statementsWithin (n + 1)) s
        fun _ run _ => Level run :=
      fun n => tracks_rounds_level [] hs fun stmts s hs => tracks_statementRound (hblock n) stmts hs
    cases n with
    | zero => exact (hlist 0).alone _
    | succ n => exact hlist n

theorem tracks_statements (hs : s.indexDepth = 0) :
    Tracks n statements statements s fun _ run _ => Level run := by
  intro stmts s₁ hrun
  obtain ⟨_, _, hget, hrun⟩ := bind_ok hrun
  cases hget
  obtain ⟨run, hwalks, hlevel, -⟩ := tracks_statementsWithin (n := 0) _ hs hrun
  refine ⟨run, hwalks, hlevel, fun _ s' rest hs' hahead halike => ?_⟩
  obtain ⟨run', hwalks', -, htwin⟩ :=
    tracks_statementsWithin (n := s'.ahead.length + 1) _ hs hrun
  obtain rfl := hwalks.unique hwalks'.toPasses
  exact htwin (by rw [hahead, List.length_append]; omega) hs' hahead halike

end MFile.Grammar.Parse
