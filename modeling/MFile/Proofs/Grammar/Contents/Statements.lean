import MFile.Grammar.Stmt
import MFile.Proofs.Grammar.Contents.Expression
import MFile.Proofs.Grammar.Lockstep.Names
import MFile.Proofs.Grammar.Rounds

/-!
Statements lose no token. The `import` of a command is said by the first of its statements and
their numbers, which follow each other, tell where a command ends.
-/

namespace MFile

section Bodies

variable {x : Terminal} {ss ss' : List Stmt}

def ImportsWithin (i j : Nat) (ss : List Stmt) : Prop :=
  ∀ s ∈ ss, ∀ k ∈ s.importId?, i ≤ k ∧ k < j

theorem ImportsWithin.mono {i i' j j' : Nat} (h : ImportsWithin i j ss) (hi : i' ≤ i)
    (hj : j ≤ j') : ImportsWithin i' j' ss :=
  fun s hs k hk => ⟨hi.trans (h s hs k hk).1, (h s hs k hk).2.trans_le hj⟩

theorem ImportsWithin.importCommands_append {i j k : Nat} (h : ImportsWithin i j ss)
    (h' : ImportsWithin (j + 1) k ss') :
    importCommands (ss ++ ss') = importCommands ss + importCommands ss' := by
  refine MFile.importCommands_append fun s hs k hk t ht hnext => ?_
  have hk := (h s hs k hk).2
  have ht := (h' t (List.mem_of_mem_head? ht) _ hnext).1
  omega

theorem tallyBody_append {i j k : Nat} (h : ImportsWithin i j ss)
    (h' : ImportsWithin (j + 1) k ss') :
    tallyBody x (ss ++ ss') = tallyBody x ss + tallyBody x ss' := by
  simp only [tallyBody, tallies_append, importWeight, h.importCommands_append h', Nat.mul_add]
  omega

theorem tallyBody_single {s : Stmt} (h : s.importId? = none) :
    tallyBody x [s] = Node.tally x (.stmt s) := by
  simp [tallyBody, importWeight, importCommands, endsImport, h]

end Bodies

namespace Grammar.Parse

variable {α β : Type} {x : Terminal} {c : Nat} {s : State} {t : Token} {block : BlockParser}

def Makes (x : Terminal) (c : Nat) (make : Site → Stmt) (c' : Nat) (_ : State) : Prop :=
  ∀ site, c' = c + Node.tally x (.stmt (make site)) ∧ (make site).importId? = none

abbrev TellsStmt (x : Terminal) (p : Parse (Site → Stmt)) : Prop :=
  ∀ c s, Says x c p s (Makes x c)

abbrev TellsBlock (x : Terminal) (block : BlockParser) : Prop :=
  ∀ frame, Tells x (block frame) (tallyBody x)

theorem silent_skipSeparators : Silent skipSeparators := by
  refine fun x c s => .of_ok fun _ s₁ hrun => ?_
  cases hrun
  refine ⟨s.ahead.takeWhile (·.isSeparator), List.takeWhile_append_dropWhile.symm, Nat.le_refl _,
    fun _ => ?_⟩
  rw [said_silent fun t ht => ?_]
  have hkind := List.mem_takeWhile_imp ht
  refine Token.content?_silent ?_
  rw [Token.isSeparator] at hkind
  cases hk : t.kind <;> simp [hk, Kind.isSeparator] at hkind <;> rfl

theorem silent_endStatement : Silent endStatement := by
  refine fun x c s => .eatSilent (fun t ht => ?_) (fun t mid _ _ => .pure rfl) ?_
  · refine Token.content?_silent ?_
    rw [Token.isSeparator] at ht
    cases hk : t.kind <;> simp [hk, Kind.isSeparator] at ht <;> rfl
  · refine .current? ?_
    cases s.ahead.head? with
    | none => exact .pure rfl
    | some t =>
      dsimp only
      split
      · exact .failing fun _ _ => unexpected_ok
      · exact .pure rfl

theorem silent_requireLoop (t : Token) : Silent (requireLoop t) := by
  refine fun x c s => .get ?_
  split
  · exact .pure rfl
  · exact .failing fun _ _ => fail_ok

theorem silent_blockEnd (opener : Token) : Silent (blockEnd opener) := by
  exact fun x c s => .eatWord (fun _ _ _ _ => .pure rfl) (.failing fun _ _ => failHere_ok)

theorem Tells.some {node : α → Node} {p : Parse α} (h : Tells x p fun a => (node a).tally x) :
    Tells x (Option.some <$> p) fun a => tallies x node a.toList :=
  fun c s => ((h c s).mono fun a c' _ _ hc' => by simpa using hc').map

/-! ## Blocks of statements -/

theorem tells_loopHead : Tells x loopHead fun h =>
    Node.tally x (.name h.1) + Node.tally x (.expr h.2) := by
  refine fun c s => tells_identifier.bind fun var _ _ => ?_
  exact .discardSilent rfl fun _ => tells_expression.bind fun range _ _ =>
    .pure (Nat.add_assoc _ _ _)

section Blocks

variable (hblock : TellsBlock x block)

include hblock

theorem tells_ifStmt (opener : Token) : TellsStmt x (ifStmt block opener) := by
  refine fun c s => tells_expression.bind fun guard mid _ => ?_
  refine .turns (k := c) (v := fun m => tallies x .expr m.2.1.toList + tallies x .action m.2.2)
    (w := tallies x .action) (by simp) ?_ fun branches _ =>
      (silent_blockEnd opener).bind fun _ _ _ => .pure fun site => ⟨by simp, rfl⟩
  rintro ⟨word, head, branches⟩ c s
  refine (hblock .conditional).bind fun body _ _ => .siteAt fun _ _ => ?_
  split
  · exact .pure (by simp [Round.weigh]; omega)
  refine .eatWord (fun word _ _ _ => tells_expression.bind fun guard _ _ => .pure ?_)
    (.eatWord (fun word _ _ _ => .pure ?_) (.pure ?_))
  all_goals simp [Round.weigh]; omega

theorem tells_switchStmt (opener : Token) : TellsStmt x (switchStmt block opener) := by
  refine fun c s => tells_expression.bind fun subject mid _ => ?_
  refine .turns (k := c + Node.tally x (.expr subject)) (v := tallies x .arm) (w := tallies x .arm)
    (by simp) (fun arms c s => silent_skipSeparators.bind fun _ _ _ => ?_) fun arms _ =>
      (silent_blockEnd opener).bind fun _ _ _ =>
        .pure fun site => ⟨by simp [Nat.add_assoc], rfl⟩
  refine .eatWord (fun word _ _ _ => tells_expression.bind fun value _ _ => ?_)
    (.eatWord (fun word _ _ _ => ?_) (.checkWord fun atEnd => ?_))
  · refine (hblock .switch).bind fun body _ _ => .siteAt fun _ _ => .pure ?_
    simp [Round.weigh]
    omega
  · refine (hblock .switch).bind fun body _ _ => .siteAt fun _ _ => .pure ?_
    simp [Round.weigh]
    omega
  · split
    · exact .pure rfl
    · exact .failing fun _ _ => unexpected_ok

theorem tells_forStmt (opener : Token) : TellsStmt x (forStmt block opener) := by
  have hbody : ∀ (var : Name) (range : Expr) (c : Nat) (s : State), Says x
      (c + (Node.tally x (.name var) + Node.tally x (.expr range)))
      (do
        let body ← block .loop
        blockEnd opener
        return (Stmt.forLoop · var range body)) s (Makes x c) := by
    refine fun var range c s => (hblock .loop).bind fun body _ _ => ?_
    exact (silent_blockEnd opener).bind fun _ _ _ =>
      .pure fun site => ⟨by simp [Nat.add_assoc], rfl⟩
  refine fun c s => .eat rfl (fun _ _ => ?_) ?_
  · exact tells_loopHead.bind fun (var, range) _ _ =>
      .discardSilent rfl fun _ => hbody var range c _
  · exact tells_loopHead.bind fun h _ _ => hbody h.1 h.2 c _

theorem tells_parForStmt (opener : Token) : TellsStmt x (parForStmt block opener) := by
  have hbody : ∀ (var : Name) (range : Expr) (workers : Option Expr) (c : Nat) (s : State), Says x
      (c + (Node.tally x (.name var) + Node.tally x (.expr range)) +
        tallies x .expr workers.toList)
      (do
        let body ← block .loop
        blockEnd opener
        return (Stmt.parFor · var range workers body)) s (Makes x c) := by
    refine fun var range workers c s => (hblock .loop).bind fun body _ _ => ?_
    exact (silent_blockEnd opener).bind fun _ _ _ =>
      .pure fun site => ⟨by simp [Nat.add_assoc], rfl⟩
  refine fun c s => .eat rfl (fun _ _ => ?_) ?_
  · refine tells_loopHead.bind fun (var, range) _ _ => .eat rfl (fun _ _ => ?_) ?_
    · exact tells_expression.some.bind fun workers _ _ =>
        .discardSilent rfl fun _ => hbody var range workers c _
    · exact .discardSilent rfl fun _ => hbody var range none c _
  · exact tells_loopHead.bind fun h _ _ => hbody h.1 h.2 none c _

theorem tells_whileStmt (opener : Token) : TellsStmt x (whileStmt block opener) := by
  refine fun c s => tells_expression.bind fun guard _ _ => (hblock .loop).bind fun body _ _ => ?_
  exact (silent_blockEnd opener).bind fun _ _ _ =>
    .pure fun site => ⟨by simp [Nat.add_assoc], rfl⟩

theorem tells_tryStmt (opener : Token) : TellsStmt x (tryStmt block opener) := by
  have hend : ∀ (body : List Stmt) (var : Option Name) (handler : Option (List Stmt)) (c : Nat)
      (s : State), Says x
      (c + tallyBody x body + tallies x .name var.toList + tallyBody x (handler.getD []))
      (do
        blockEnd opener
        return (Stmt.tryCatch · body var handler)) s (Makes x c) := by
    exact fun body var handler c s => (silent_blockEnd opener).bind fun _ _ _ =>
      .pure fun site => ⟨by simp [Nat.add_assoc], rfl⟩
  refine fun c s => (hblock .region).bind fun body _ _ => .eatWord (fun _ _ _ _ => ?_) ?_
  · refine .get ?_
    have hhandler : ∀ (var : Option Name) (c : Nat) (s : State), Says x
        (c + tallyBody x body + tallies x .name var.toList)
        (do
          let handler ← block .region
          blockEnd opener
          return (Stmt.tryCatch · body var (some handler))) s (Makes x c) := by
      exact fun var c s => (hblock .region).bind fun handler _ _ => hend body var handler c _
    split
    · exact tells_identifier.some.bind fun var _ _ => hhandler var c _
    · exact hhandler none c _
  · exact hend body none none c _

theorem tells_spmdStmt (opener : Token) : TellsStmt x (spmdStmt block opener) := by
  have hbody : ∀ (options : List Expr) (c : Nat) (s : State), Says x
      (c + tallies x .expr options)
      (do
        let body ← block .region
        blockEnd opener
        return (Stmt.spmd · options body)) s (Makes x c) := by
    refine fun options c s => (hblock .region).bind fun body _ _ => ?_
    exact (silent_blockEnd opener).bind fun _ _ _ =>
      .pure fun site => ⟨by simp [Nat.add_assoc], rfl⟩
  refine fun c s => .check fun paren hparen => ?_
  split
  · rename_i h
    refine (says_arguments tells_expression rfl fun t ht =>
      Token.silent_of_eq rfl (hparen h t ht)).bind fun options _ _ _ hoptions => ?_
    subst hoptions
    exact hbody options c _
  · exact hbody [] c _

end Blocks

/-! ## Statements without a block -/

theorem says_identifierOf (t : Token) : Says x c (identifierOf t) s
    fun n c' _ => c' = c ∧ ∃ site, n = .identifier site t.raw :=
  .siteAt fun _ _ => .pure ⟨rfl, _, rfl⟩

theorem tells_declaredNames : Tells x declaredNames (tallies x .name) := by
  refine fun c s => tells_identifier.bind fun first mid _ =>
    .eatWhile fun more mid hmore _ hnamed => ?_
  have hkind : ∀ t ∈ more, t.kind = .identifier := by
    subst hmore
    exact fun t ht => by simpa using List.mem_takeWhile_imp ht
  refine (Says.mapM (R := fun t n => Node.tally x (.name n) = t.content?.toList.count x) more
    (fun t ht s => (says_identifierOf t).mono fun n c' _ _ h => ⟨h.1, ?_⟩) mid).bind
      fun names _ _ _ ⟨hc', hnames⟩ => .pure ?_
  · obtain ⟨-, site, rfl⟩ := h
    rw [Node.tally_named fun hx => hnamed hx t ht (hkind t ht), content?_identifier (hkind t ht)]
    rfl
  · rw [hc', ← tallies_said hnames]
    simp [Nat.add_assoc]

theorem says_assignableName (e : Expr) : Says x c (assignableName e) s
    fun n c' _ => c' = c ∧ Node.tally x (.name n) = Node.tally x (.expr e) := by
  cases e with
  | name n => exact .pure ⟨rfl, Node.tally_name.symm⟩
  | _ => exact .failing fun _ _ => fail_ok

theorem tallies_assignable {es : List Expr} {ns : List Name}
    (h : List.Forall₂ (fun e n => Node.tally x (.name n) = Node.tally x (.expr e)) es ns) :
    tallies x .name ns = tallies x .expr es := by
  induction h with
  | nil => rfl
  | cons h _ ih => rw [tallies_cons, tallies_cons, h, ih]

theorem tells_expressionStmt : TellsStmt x expressionStmt := by
  have hright : ∀ {make : Expr → Site → Stmt} {k : Nat} (c : Nat) (s : State),
      (∀ e site, Node.tally x (.stmt (make e site)) = k + Node.tally x (.expr e) ∧
        (make e site).importId? = none) →
      Says x (c + k)
        (do
          let rhs ← expression
          return make rhs) s (Makes x c) := by
    intro make k c s hmake
    refine tells_expression.bind fun e _ _ => .pure fun site => ⟨?_, (hmake e site).2⟩
    rw [(hmake e site).1, Nat.add_assoc]
  refine fun c s => .check fun _ _ => .modify rfl rfl (tells_expression.bind fun lhs _ _ => ?_)
  refine .modify rfl rfl (.eat rfl (fun _ _ => ?_) ?_)
  · simp only [Option.isNone_some, Bool.false_eq_true, if_false]
    split
    · refine (Says.mapM _ (fun e _ _ => says_assignableName e) _).bind
        fun names c' _ _ ⟨hc', hnames⟩ => ?_
      subst hc'
      exact hright c _ fun e site => ⟨by simp [tallies_assignable hnames], rfl⟩
    · refine (says_assignableName _).bind fun n c' _ _ ⟨hc', hn⟩ => ?_
      subst hc'
      exact hright c _ fun e site => ⟨by simp [hn], rfl⟩
  · simp only [Option.isNone_none, if_true]
    split
    · exact .failing_bind fun _ _ => fail_ok
    · exact .pure fun site => ⟨by simp, rfl⟩

theorem says_keywordStmt (hblock : TellsBlock x block) (ht : s.ahead.head? = some t)
    (hk : t.kind = .keyword) : Says x c (keywordStmt block t) s (Makes x c) := by
  have hpass {f : Unit → Parse (Site → Stmt)} (hf : TellsStmt x (f ())) :
      Says x c (advance >>= f) s (Makes x c) :=
    .pass (silent_head ht rfl hk) fun _ => hf c _
  rw [keywordStmt]
  dsimp only
  split
  · exact hpass (tells_ifStmt hblock t)
  · exact hpass (tells_switchStmt hblock t)
  · exact hpass (tells_forStmt hblock t)
  · exact hpass (tells_parForStmt hblock t)
  · exact hpass (tells_whileStmt hblock t)
  · exact hpass (tells_tryStmt hblock t)
  · exact hpass (tells_spmdStmt hblock t)
  · exact hpass fun c s => tells_declaredNames.bind fun ns _ _ => .pure fun site => ⟨by simp, rfl⟩
  · exact hpass fun c s => tells_declaredNames.bind fun ns _ _ => .pure fun site => ⟨by simp, rfl⟩
  · exact hpass fun c s => (silent_requireLoop t).bind fun _ _ _ => .pure fun site => ⟨by simp, rfl⟩
  · exact hpass fun c s => (silent_requireLoop t).bind fun _ _ _ => .pure fun site => ⟨by simp, rfl⟩
  · exact hpass fun c s => .pure fun site => ⟨by simp, rfl⟩
  · exact .failing fun _ _ => fail_ok

/-! ## Commands -/

def importsFrom : Nat → List Token → List Stmt
  | _, [] => []
  | id, w :: ws =>
    .importNames ⟨id, w.location⟩ ((Text.pieces '.' w.value.toList).map String.ofList) ::
      importsFrom (id + 1) ws

theorem importsFrom_within (id : Nat) (ws : List Token) :
    ImportsWithin id (id + ws.length) (importsFrom id ws) := by
  induction ws generalizing id with
  | nil => exact fun s hs => absurd hs List.not_mem_nil
  | cons w ws ih =>
    refine List.forall_mem_cons.2 ⟨?_, fun s hs k hk => ?_⟩
    · rintro k ⟨⟩
      exact ⟨Nat.le_refl _, Nat.lt_add_of_pos_right (Nat.succ_pos _)⟩
    · obtain ⟨hle, hlt⟩ := ih (id + 1) s hs k hk
      rw [List.length_cons]
      omega

theorem importCommands_importsFrom (id : Nat) (w : Token) (ws : List Token) :
    importCommands (importsFrom id (w :: ws)) = 1 := by
  induction ws generalizing id w with
  | nil => rfl
  | cons w' ws ih =>
    rw [importsFrom, importCommands, ih]
    simp [importsFrom, endsImport, Stmt.importId?]

theorem intercalate_pieces (text : String) :
    ".".intercalate ((Text.pieces '.' text.toList).map String.ofList) = text := by
  have hchars : ∀ cs : List Char, List.intercalate ['.'] (Text.pieces '.' cs) = cs := by
    intro cs
    induction cs with
    | nil => rfl
    | cons c cs ih =>
      rw [Text.pieces]
      cases hp : Text.pieces '.' cs with
      | nil =>
        have hlength := (Text.length_pieces '.' cs).symm.trans (congrArg List.length hp)
        cases hlength
      | cons p ps =>
        rw [hp] at ih
        split
        · rename_i hc
          rw [List.intercalate_cons_cons, ih, hc]
          rfl
        · subst ih
          cases ps with
          | nil => simp [List.intercalate]
          | cons q qs => simp [List.intercalate_cons_cons]
  apply String.toList_injective
  have hlists : String.toList ∘ String.ofList = id := funext fun cs => String.toList_ofList
  rw [String.toList_intercalate, List.map_map, hlists, List.map_id]
  exact hchars text.toList

theorem tallies_importsFrom (id : Nat) {ws : List Token}
    (h : ∀ w ∈ ws, w.content? = some (.charArray w.value)) :
    tallies x .stmt (importsFrom id ws) = said x ws := by
  induction ws generalizing id with
  | nil => rfl
  | cons w ws ih =>
    obtain ⟨hw, hws⟩ := List.forall_mem_cons.1 h
    rw [importsFrom, tallies_cons, ih _ hws, said_cons, Node.tally_importNames,
      intercalate_pieces, hw]
    rfl

theorem imports_run (words : List Token) (s : State) :
    (words.mapM fun word : Token => do
      let chain := (Text.pieces '.' word.value.toList).map String.ofList
      return Stmt.importNames (← siteAt word.location) chain) s =
        .ok (importsFrom s.nodes words) { s with nodes := s.nodes + words.length } := by
  induction words generalizing s with
  | nil => rfl
  | cons w ws ih =>
    have hw : (do
        let chain := (Text.pieces '.' w.value.toList).map String.ofList
        return Stmt.importNames (← siteAt w.location) chain : Parse Stmt) s =
          .ok (.importNames ⟨s.nodes, w.location⟩
            ((Text.pieces '.' w.value.toList).map String.ofList))
            { s with nodes := s.nodes + 1 } := rfl
    rw [List.mapM_cons]
    refine (bind_run hw _).trans ((bind_run (ih _) _).trans ?_)
    rw [importsFrom, List.length_cons, Nat.add_comm ws.length, ← Nat.add_assoc]
    rfl

structure EndsName (s : State) (n : Name) (s₁ : State) : Prop where
  nodes : s.nodes < s₁.nodes
  single : n.identifier?.isSome = true → s₁.ahead = s.ahead.drop 1
  stops : ¬(s₁.ahead[0]?.map (·.kind) = some .selection ∧
    s₁.ahead[1]?.map (·.kind) = some .identifier)

theorem dottedName_ends {n : Name} {s₁ : State} (h : dottedName s = .ok n s₁) :
    EndsName s n s₁ := by
  obtain ⟨first, mid, hfirst, hrounds⟩ := bind_ok h
  obtain ⟨t, m₁, hexpect, hfirst⟩ := bind_ok hfirst
  obtain ⟨site, m₂, hsite, hfirst⟩ := bind_ok hfirst
  obtain ⟨rfl, rfl⟩ := pure_ok hfirst
  obtain ⟨_, hwalks, ⟨rfl, -⟩, -⟩ := tracks_expect (n := 0) _ _ hexpect
  obtain ⟨_, hwalks', ⟨-, rfl, hnodes⟩, -⟩ := tracks_siteAt (n := 0) _ hsite
  have hround : Keeps dottedRound (fun n st => s.nodes < st.nodes ∧
      (n.identifier?.isSome = true → st.ahead = s.ahead.drop 1)) (EndsName s) := by
    intro n st r st' ⟨hlt, hsame⟩ hround
    obtain ⟨run, hpass, -, -⟩ := tracks_dottedRound (n := 0) n hround
    obtain ⟨_, _, hcheck, hround⟩ := bind_ok hround
    obtain ⟨rfl, rfl⟩ := check_ok hcheck
    obtain ⟨_, _, hpeek, hround⟩ := bind_ok hround
    obtain ⟨rfl, rfl⟩ := peekKind?_ok hpeek
    split at hround
    · obtain ⟨_, _, -, hround⟩ := bind_ok hround
      obtain ⟨_, _, -, hround⟩ := bind_ok hround
      obtain ⟨_, _, -, hround⟩ := bind_ok hround
      obtain ⟨rfl, rfl⟩ := pure_ok hround
      exact ⟨hlt.trans_le hpass.nodes, fun hn => absurd hn Bool.false_ne_true⟩
    · rename_i hstops
      obtain ⟨rfl, rfl⟩ := pure_ok hround
      exact ⟨hlt, hsame, by simpa using hstops⟩
  refine hround.rounds ⟨?_, fun _ => ?_⟩ hrounds
  · have := hwalks.nodes
    omega
  · rw [hwalks.ahead, hwalks'.ahead]
    rfl

theorem head_text {l : List Token} (h : followedByText true l = true)
    (hstops : ¬(l[0]?.map (·.kind) = some .selection ∧ l[1]?.map (·.kind) = some .identifier)) :
    ∃ t, l.head? = some t ∧ (t.kind == .charArray || t.kind == .directory) = true := by
  cases l with
  | nil => cases h
  | cons t l =>
    refine ⟨t, rfl, ?_⟩
    cases l with
    | nil => simpa [followedByText] using h
    | cons u l =>
      rw [followedByText, if_neg (by simpa using hstops)] at h
      simpa using h

theorem words_eq_cons {n : Name} {s₁ : State} (hs : followedByText true (s.ahead.drop 1) = true)
    (hends : EndsName s n s₁) (hn : n.identifier?.isSome = true) :
    ∃ w ws,
      s₁.ahead.takeWhile (fun t => t.kind == .charArray || t.kind == .directory) = w :: ws := by
  rw [← hends.single hn] at hs
  obtain ⟨w, hw, htext⟩ := head_text hs hends.stops
  obtain ⟨l, hl⟩ := List.head?_eq_some_iff.1 hw
  rw [hl, List.takeWhile_cons, if_pos htext]
  exact ⟨w, _, rfl⟩

theorem says_commandHead (hs : followedByText true (s.ahead.drop 1) = true) :
    Says x c commandHead s fun ss c' s₁ =>
      c' = c + tallyBody x ss ∧ ImportsWithin (s.nodes + 1) s₁.nodes ss := by
  refine ((tells_dottedName c s).and fun _ _ => dottedName_ends).bind
    fun head c' mid _ hhead => ?_
  obtain ⟨rfl, hends⟩ := hhead
  refine .eatWhile fun words mid' hwords hnodes hnamed => ?_
  have hsaid : ∀ w ∈ words, w.content? = some (.charArray w.value) := by
    subst hwords
    intro w hw
    have hkind := List.mem_takeWhile_imp hw
    rw [Bool.or_eq_true, beq_iff_eq, beq_iff_eq] at hkind
    rw [Token.content?]
    rcases hkind with hkind | hkind <;> rw [hkind]
  split
  · rename_i himport
    obtain ⟨w, ws, hcons⟩ := words_eq_cons hs hends (by rw [himport]; rfl)
    obtain rfl : words = w :: ws := hwords.trans hcons
    have hhead : Node.tally x (.name head) = [Terminal.word "import"].count x := by
      cases head with
      | identifier site text =>
        cases himport
        rw [Node.tally_identifier, if_neg (by decide)]
      | _ => cases himport
    refine .of_ok fun ss s₁ hrun => ?_
    rw [imports_run] at hrun
    cases hrun
    refine ⟨[], rfl, Nat.le_add_right _ _, fun _ => ⟨?_, fun st hst i hi => ?_⟩⟩
    · rw [tallyBody, tallies_importsFrom _ hsaid, importWeight, importCommands_importsFrom,
        Nat.mul_one, ← hhead, said_nil, Nat.add_zero, Nat.add_assoc, Nat.add_comm (said x _)]
    · obtain ⟨hle, hlt⟩ := importsFrom_within _ _ st hst i hi
      have := hends.nodes
      exact ⟨by omega, hlt⟩
  · have hargs := Says.mapM (x := x) (c := c + Node.tally x (.name head) + said x words)
      (R := fun t e => Node.tally x (.expr e) = t.content?.toList.count x) words
      (g := fun w => return Expr.charArray (← siteAt w.location) w.value)
      (fun w hw s => .siteAt fun _ _ => .pure ⟨rfl, by simp [hsaid w hw]⟩) mid'
    refine hargs.bind fun args c' _ _ hargs => ?_
    obtain ⟨rfl, hargs⟩ := hargs
    refine .siteFrom fun _ _ _ => .siteFrom fun _ _ _ => .pure ⟨?_, ?_⟩
    · rw [tallyBody_single rfl, ← tallies_said hargs]
      simp [Nat.add_assoc]
    · simp [ImportsWithin, Stmt.importId?]

/-! ## Lists of statements -/

theorem says_statement (hblock : TellsBlock x block) (ht : s.ahead.head? = some t) :
    Says x c (statement block t) s fun ss c' s₁ =>
      c' = c + tallyBody x ss ∧ ImportsWithin (s.nodes + 1) s₁.nodes ss := by
  have hhead : Says x c (statementHead block t) s fun ss c' s₁ =>
      c' = c + tallyBody x ss ∧ ImportsWithin (s.nodes + 1) s₁.nodes ss := by
    refine .get ?_
    split
    · rename_i h
      exact says_commandHead h.2
    · have hmake : ∀ {p : Parse (Site → Stmt)} {c : Nat} {st : State}, (Says x c p st
          (Makes x c)) →
          Says x c (p >>= fun make => do return [make (← siteFrom t.location)]) st
            fun ss c' s₁ => c' = c + tallyBody x ss ∧ ImportsWithin (s.nodes + 1) s₁.nodes ss := by
        intro p c st hp
        refine hp.bind fun make c' _ _ hmake => .siteFrom fun site _ _ => .pure ?_
        obtain ⟨hc', hnone⟩ := hmake site
        rw [tallyBody_single hnone, hc']
        refine ⟨rfl, List.forall_mem_singleton.2 fun i hi => ?_⟩
        rw [hnone] at hi
        cases hi
      split
      · rename_i hk
        exact hmake (says_keywordStmt hblock ht hk)
      · rename_i hk
        refine .pass (silent_head ht rfl hk) fun _ => hmake (.pure fun site => ⟨?_, rfl⟩)
        rw [Node.tally_shell, Nat.add_zero]
      · exact hmake (tells_expressionStmt c s)
  rw [statement_eq]
  refine hhead.bind fun ss c' mid _ ⟨hc', hss⟩ => silent_endStatement.bind fun _ last hnodes => ?_
  exact .pure ⟨hc', hss.mono (Nat.le_refl _) hnodes⟩

theorem says_statementList (hblock : TellsBlock x block) :
    Says x c (statementList block) s fun ss c' s₁ =>
      c' = c + tallyBody x ss ∧ ImportsWithin (s.nodes + 1) s₁.nodes ss := by
  rw [statementList_eq]
  refine .rounds (I := fun ss c' st => c' = c + tallyBody x ss ∧
    ImportsWithin (s.nodes + 1) st.nodes ss) ⟨rfl, fun _ h => absurd h List.not_mem_nil⟩
      fun ss c' mid hmid ⟨hc', hss⟩ => silent_skipSeparators.bind fun _ st hnodes => .current? ?_
  subst hc'
  have hold : ImportsWithin (s.nodes + 1) st.nodes ss := hss.mono (Nat.le_refl _) hnodes
  cases ht : st.ahead.head? with
  | none => exact .pure ⟨rfl, hold⟩
  | some t =>
    rw [statementChoice]
    split
    · exact .pure ⟨rfl, hold⟩
    split
    · refine .get ?_
      split
      · exact .pure ⟨rfl, hold⟩
      · exact .pure ⟨rfl, hold⟩
      · exact .failing fun _ _ => fail_ok
    split
    · exact .failing fun _ _ => fail_ok
    refine (says_statement hblock ht).bind fun new c' last hlast ⟨hc', hnew⟩ => .pure ?_
    refine ⟨?_, fun u hu => ?_⟩
    · rw [hc', Nat.add_assoc, ← tallyBody_append hold hnew]
    · exact (List.mem_append.1 hu).elim (hold.mono (Nat.le_refl _) hlast u)
        (hnew.mono (Nat.succ_le_succ (hmid.trans hnodes)) (Nat.le_refl _) u)

theorem says_statementsWithin (fuel : Nat) :
    Says x c (statementsWithin fuel) s fun ss c' s₁ =>
      c' = c + tallyBody x ss ∧ ImportsWithin (s.nodes + 1) s₁.nodes ss := by
  induction fuel generalizing c s with
  | zero => exact .failing fun _ _ => stalled_ok
  | succ fuel ih =>
    exact says_statementList fun frame c s =>
      .bracketed ⟨rfl, rfl⟩ (fun _ => ⟨rfl, rfl⟩) (ih.mono fun _ _ _ _ h => h.1)

theorem says_statements : Says x c statements s fun ss c' s₁ =>
    c' = c + tallyBody x ss ∧ ImportsWithin (s.nodes + 1) s₁.nodes ss :=
  .get (says_statementsWithin _)

end Grammar.Parse

end MFile
