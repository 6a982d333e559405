import MFile.Proofs.Grammar.Relayout.Expression
import MFile.Proofs.Grammar.Rounds

/-!
Statements on another layout. Before and after a statement the separators of both texts may be
others; inside of it every token stands in both.
-/

namespace MFile.Grammar

open Parse

def State.Clear (s : State) : Prop := ∀ t, s.ahead.head? = some t → t.isSeparator = false

namespace Relayout

variable (ρ : Relayout)

/-- Outside of all brackets, and where separators may be left of those of a statement before. -/
structure Between (k : Nat) (s s' : State) : Prop where
  rest : s' = s.onto s'.behind s'.ahead
  index : s.indexDepth = 0
  ahead : ∃ n ≤ k, ρ.Matched 0 n (s.ahead.dropWhile (·.isSeparator))
    (s'.ahead.dropWhile (·.isSeparator))
  same : ρ.respaced = false → ρ.At k .outside true s s'

variable {ρ} {α α' β β' : Type} {k j : Nat} {d : Depths} {level : Bool} {s s' : State}
  {t opener : Token}
  {f : Unit → Parse β} {g : Unit → Parse β'} {Q : β → β' → State → State → Prop}

theorem At.between (h : ρ.At k .outside level s s') : ρ.Between k s s' := by
  obtain ⟨n, hn, hahead⟩ := h.ahead
  obtain ⟨m, hm, hdrop⟩ := hahead.skip rfl
  exact ⟨h.rest, h.index, ⟨m, hm.trans hn, hdrop⟩, fun hρ =>
    { h with last := fun _ => h.last (.inl hρ) }⟩

theorem At.clear (h : ρ.At k d level s s') (hs : s.Clear) :
    (s.ahead = [] ∧ s'.ahead = []) ∨ ∃ t, ρ.Facing k d level t s s' := by
  obtain hnone | hfacing | hgap := h.view
  · exact .inl hnone
  · exact .inr hfacing
  · obtain ⟨t, _, ts, _, hahead, -, ht, -⟩ := hgap.next
    exact absurd (ht.symm.trans (hs t (by rw [hahead]; rfl))) (by decide)

namespace Between

theorem mono (h : ρ.Between j s s') (hj : j ≤ k) : ρ.Between k s s' := by
  obtain ⟨n, hn, hahead⟩ := h.ahead
  exact { h with ahead := ⟨n, hn.trans hj, hahead⟩, same := fun hρ => (h.same hρ).mono hj }

theorem exactly (h : ρ.Between k s s') : ∃ j ≤ k, j ≤ s'.ahead.length ∧ ρ.Between j s s' := by
  cases hρ : ρ.respaced with
  | false =>
    obtain ⟨j, hj, hlen, hat⟩ := (h.same hρ).exactly
    exact ⟨j, hj, hlen, hat.between⟩
  | true =>
    obtain ⟨n, hn, hahead⟩ := h.ahead
    refine ⟨n, hn, hahead.le_length.trans (List.length_dropWhile_le _ _), ?_⟩
    exact { h with
      ahead := ⟨n, Nat.le_refl n, hahead⟩
      same := fun h => absurd (hρ.symm.trans h) (by decide) }

theorem length (h : ρ.Between k s s') (hρ : ρ.respaced = false) :
    s'.ahead.length = s.ahead.length := by
  rw [(h.same hρ).ahead_eq hρ, List.length_map]

theorem change (h : ρ.Between k s s') (change : State → State) (hq : Quiet change) :
    ρ.Between k (change s) (change s') := by
  refine ⟨?_, (hq.index s).trans h.index, ?_, fun hρ => (h.same hρ).change change hq⟩
  · rw [hq.behind, hq.ahead, ← hq.onto, ← h.rest]
  · rw [hq.ahead, hq.ahead]
    exact h.ahead

theorem skip (h : ρ.Between k s s')
    (hf : ∀ u u', ρ.At k .outside false u u' → u.Clear → ρ.Repeats (f ()) u (g ()) u' Q) :
    ρ.Repeats (skipSeparators >>= f) s (skipSeparators >>= g) s' Q := by
  let sep (t : Token) : Bool := t.isSeparator
  have hu : ρ.At k .outside false
      (s.onto ((s.ahead.takeWhile sep).reverse ++ s.behind) (s.ahead.dropWhile sep))
      (s'.onto ((s'.ahead.takeWhile sep).reverse ++ s'.behind) (s'.ahead.dropWhile sep)) := by
    refine ⟨State.onto_of_eq h.rest _ _, h.index, h.ahead, fun hl => ?_⟩
    have hρ := hl.resolve_right nofun
    have hsep : sep ∘ ρ.token = sep := funext fun t => ρ.isSeparator_token
    change ((s'.ahead.takeWhile sep).reverse ++ s'.behind).head? =
      ((s.ahead.takeWhile sep).reverse ++ s.behind).head?.map ρ.token
    rw [(h.same hρ).ahead_eq hρ, List.takeWhile_map, hsep, ← List.map_reverse, List.head?_append,
      List.head?_append, List.head?_map, (h.same hρ).last (.inl hρ)]
    cases (s.ahead.takeWhile sep).reverse.head? <;> rfl
  refine (hf _ _ hu fun t ht => ?_).of_eq rfl rfl
  have hhead := List.head?_dropWhile_not sep s.ahead
  change (s.ahead.dropWhile sep).head? = some t at ht
  rw [ht] at hhead
  exact hhead

theorem rounds {body : α → Parse (Round α β)} {body' : α' → Parse (Round α' β')} {F : α → α'}
    {a : α} (h : ρ.Between k s s')
    (hbody : ∀ j ≤ k, ∀ a t t', ρ.Between j t t' →
      ρ.Repeats (body a) t (body' (F a)) t' (Turns ρ.Between j F Q)) :
    ρ.Repeats (Parse.rounds a body) s (Parse.rounds (F a) body') s' Q :=
  .rounds h (fun _ _ _ ht => ht.exactly) (fun hρ _ _ _ ht => ht.length hρ) hbody

end Between

theorem repeats_endStatement (h : ρ.At k .outside level s s') :
    ρ.Repeats endStatement s endStatement s' fun _ _ t t' => ρ.Between k t t' := by
  obtain ⟨hs, hs'⟩ | ⟨t, ht⟩ | hgap := h.view
  · refine .left (by simp [hs]) (by simp [hs']) (.current? ?_)
    rw [hs, hs']
    exact .pure h.between
  · obtain ⟨ts, ts', hs, hs', j, hj, hat⟩ := ht.take
    cases hsep : t.isSeparator with
    | true =>
      refine .taken hs hs' hsep (ρ.isSeparator_token.trans hsep) (.pure ?_)
      have hnest : Depths.outside.nest t.kind = .outside := by
        rw [Depths.nest, Matched.nest_of_separator hsep]
      rw [hnest] at hat
      exact hat.between.mono hj.le
    | false =>
      refine .left (by simpa [hs] using hsep) (by simpa [hs'] using hsep) (.current? ?_)
      rw [ht.current, ht.current']
      dsimp only
      rw [ρ.isCloser_token]
      split
      · exact h.unexpected
      · exact .pure h.between
  · obtain ⟨t, t', ts, ts', hs, hs', ht, ht'⟩ := hgap.next
    refine .taken hs hs' ht ht' (.pure ?_)
    obtain ⟨n, hn, hahead⟩ := h.between.ahead
    rw [hs, hs', List.dropWhile_cons_of_pos ht, List.dropWhile_cons_of_pos ht'] at hahead
    refine ⟨State.onto_of_eq h.rest _ _, h.index, ⟨n, hn, hahead⟩, fun hρ => ?_⟩
    exact absurd (hgap.respaced.symm.trans hρ) (by decide)

/-! ## Parts of statements -/

def Makes (ρ : Relayout) (make make' : Site → Stmt) : Prop :=
  ∀ site, make' (site.relocate ρ.place) = (make site).relocate ρ.place

def Made (ρ : Relayout) (S : State → State → Prop) (make make' : Site → Stmt) (s s' : State) :
    Prop :=
  S s s' ∧ Makes ρ make make'

def Blocks (ρ : Relayout) (k : Nat) (block block' : BlockParser) : Prop :=
  ∀ ⦃j s s'⦄ frame, j < k → ρ.Between j s s' →
    ρ.Repeats (block frame) s (block' frame) s' fun stmts stmts' t t' =>
      ρ.At j .outside false t t' ∧ stmts' = stmts.map (Stmt.relocate ρ.place)

theorem repeats_requireLoop (ht : t.kind = .keyword) (h : ρ.At k .outside level s s') :
    ρ.Repeats (requireLoop t) s (requireLoop (ρ.token t)) s'
      fun _ _ u u' => ρ.At k .outside level u u' := by
  rw [requireLoop, requireLoop, ρ.location_token, ρ.raw_of_kind ht rfl]
  refine .get ?_
  rw [h.frames]
  split
  · exact .pure h
  · exact .fail rfl rfl

theorem repeats_blockEnd (ht : opener.kind = .keyword) (h : ρ.At k .outside level s s') :
    ρ.Repeats (blockEnd opener) s (blockEnd (ρ.token opener)) s'
      fun _ _ t t' => ρ.At k .outside true t t' := by
  rw [blockEnd, blockEnd, ρ.location_token, ρ.raw_of_kind ht rfl, ρ.line_place]
  exact h.eatWord (fun _ u u' j _ hj hu => .pure (hu.mono hj.le)) (h.failHere fun _ => rfl)

section Block

variable {block block' : BlockParser} (hblock : Blocks ρ k block block')

include hblock

theorem repeats_body {frame : Frame} {make make' : List Stmt → Site → Stmt} {i : Nat}
    (ht : opener.kind = .keyword) (hi : i ≤ j) (hj : j < k) (h : ρ.At i .outside true s s')
    (hmake : ∀ body, Makes ρ (make body) (make' (body.map (Stmt.relocate ρ.place)))) :
    ρ.Repeats
      (do
        let body ← block frame
        blockEnd opener
        return make body) s
      (do
        let body ← block' frame
        blockEnd (ρ.token opener)
        return make' body) s' (Made ρ (ρ.At j .outside true)) := by
  refine (hblock frame (hi.trans_lt hj) h.between).bind ?_
  rintro body _ u u' ⟨hu, rfl⟩
  exact (repeats_blockEnd ht hu).bind fun _ _ v v' hv => .pure ⟨hv.mono hi, hmake body⟩

theorem repeats_ifStmt (ht : opener.kind = .keyword) (hj : j < k)
    (h : ρ.At j .outside true s s') :
    ρ.Repeats (ifStmt block opener) s (ifStmt block' (ρ.token opener)) s'
      (Made ρ (ρ.At j .outside true)) := by
  refine (reads_expression (Nat.lt_succ_self j) Depths.sound_outside h).done
    fun guard u u' i hi hu => ?_
  refine Repeats.bind (P := fun branches branches' t t' => ρ.At j .outside false t t' ∧
    branches' = branches.map (Clause.relocate ρ.place)) ?_ ?_
  · refine hu.rounds (F := Prod.map ρ.token (Prod.map (Option.map (Expr.relocate ρ.place))
      (List.map (Clause.relocate ρ.place)))) (a := (opener, some guard, []))
        fun m hm branch v v' hv => ?_
    obtain ⟨word, head, branches⟩ := branch
    refine (hblock .conditional (by omega) hv.between).bind ?_
    rintro body _ w w' ⟨hw, rfl⟩
    dsimp only [Prod.map]
    rw [ρ.location_token]
    refine hw.siteAt fun site x x' hx => ?_
    have hclauses : branches.map (Clause.relocate ρ.place) ++ [⟨site.relocate ρ.place,
        head.map (Expr.relocate ρ.place), body.map (Stmt.relocate ρ.place)⟩] =
        (branches ++ [Clause.mk site head body]).map (Clause.relocate ρ.place) := by simp
    rw [hclauses]
    cases head with
    | none => exact .pure ⟨hx.mono (by omega), rfl⟩
    | some head =>
      refine hx.eatWord (fun word y y' n hword hn hy => ?_) ?_
      · refine (reads_expression (Nat.lt_succ_self n) Depths.sound_outside hy).done
          fun guard z z' l hl hz => .pure ⟨⟨l, by omega, hz⟩, rfl⟩
      · refine hx.eatWord (fun word y y' n hword hn hy => .pure ⟨⟨n, hn, hy⟩, rfl⟩) ?_
        exact .pure ⟨hx.mono (by omega), rfl⟩
  · rintro branches _ v v' ⟨hv, rfl⟩
    exact (repeats_blockEnd ht hv).bind fun _ _ w w' hw => .pure ⟨hw, fun site => by simp⟩

theorem repeats_switchStmt (ht : opener.kind = .keyword) (hj : j < k)
    (h : ρ.At j .outside true s s') :
    ρ.Repeats (switchStmt block opener) s (switchStmt block' (ρ.token opener)) s'
      (Made ρ (ρ.At j .outside true)) := by
  refine (reads_expression (Nat.lt_succ_self j) Depths.sound_outside h).done
    fun subject u u' i hi hu => ?_
  refine Repeats.bind (P := fun arms arms' t t' => ρ.At j .outside false t t' ∧
    arms' = arms.map (Clause.relocate ρ.place)) ?_ ?_
  · refine hu.between.rounds (F := List.map (Clause.relocate ρ.place)) (a := [])
      fun m hm arms v v' hv => ?_
    have harm : ∀ (word : Token) (head : Option Expr) {n : Nat} {x x' : State}, n < m →
        ρ.At n .outside true x x' → ρ.Repeats
          (do
            let body ← block .switch
            return (Round.again (arms ++ [⟨← siteAt word.location, head, body⟩]) :
              Round (List Clause) (List Clause))) x
          (do
            let body ← block' .switch
            return (.again (arms.map (Clause.relocate ρ.place) ++
              [⟨← siteAt (ρ.token word).location,
              head.map (Expr.relocate ρ.place), body⟩]) : Round (List Clause) (List Clause))) x'
          (Turns ρ.Between m (List.map (Clause.relocate ρ.place)) fun arms arms' t t' =>
            ρ.At j .outside false t t' ∧ arms' = arms.map (Clause.relocate ρ.place)) := by
      intro word head n x x' hn hx
      refine (hblock .switch (by omega) hx.between).bind ?_
      rintro body _ y y' ⟨hy, rfl⟩
      rw [ρ.location_token]
      exact hy.siteAt fun site z z' hz => .pure ⟨⟨n, hn, hz.between⟩, by simp⟩
    refine hv.skip fun w w' hw hclear => ?_
    refine hw.eatWord (fun word x x' n hword hn hx => ?_) ?_
    · refine (reads_expression (Nat.lt_succ_self n) Depths.sound_outside hx).done
        fun guard y y' l hl hy => harm word (some guard) (by omega) hy
    refine hw.eatWord (fun word x x' n hword hn hx => harm word none hn hx) ?_
    refine .checkWord ?_
    obtain ⟨hnil, hnil'⟩ | ⟨next, hnext⟩ := hw.clear hclear
    · rw [hnil, hnil']
      exact hw.unexpected
    · rw [hnext.current, hnext.current', Option.any_some, Option.any_some, ρ.isWord_token]
      split
      · exact .pure ⟨hw.mono (by omega), rfl⟩
      · exact hw.unexpected
  · rintro arms _ v v' ⟨hv, rfl⟩
    exact (repeats_blockEnd ht hv).bind fun _ _ w w' hw => .pure ⟨hw, fun site => by simp⟩

omit hblock in
theorem repeats_loopHead (h : ρ.At j d true s s') (hd : d.Sound) :
    ρ.Repeats loopHead s loopHead s'
      (ρ.Done j d (Prod.map (Name.relocate ρ.place) (Expr.relocate ρ.place))) := by
  refine (reads_identifier (Nat.lt_succ_self j) hd h).done fun var u u' i hi hu => ?_
  refine hu.discardExpect (.inr rfl) fun v v' m hm hv => ?_
  refine (reads_expression (Nat.lt_succ_self m) hd hv).done fun range w w' n hn hw => .pure ?_
  exact ⟨⟨n, by omega, hw⟩, rfl⟩

theorem repeats_forStmt (ht : opener.kind = .keyword) (hj : j < k)
    (h : ρ.At j .outside true s s') :
    ρ.Repeats (forStmt block opener) s (forStmt block' (ρ.token opener)) s'
      (Made ρ (ρ.At j .outside true)) := by
  refine h.eat (.inr rfl) (fun _ u u' i _ hi hu => ?_) ?_
  · refine (repeats_loopHead hu (Nat.zero_le _)).done fun head v v' m hm hv => ?_
    obtain ⟨var, range⟩ := head
    refine hv.discardExpect (.inr rfl) fun w w' n hn hw => ?_
    exact repeats_body hblock ht (by omega) hj hw fun body site => by simp
  · refine (repeats_loopHead h (Nat.zero_le _)).done fun head v v' m hm hv => ?_
    obtain ⟨var, range⟩ := head
    exact repeats_body hblock ht hm.le hj hv fun body site => by simp

theorem repeats_parForStmt (ht : opener.kind = .keyword) (hj : j < k)
    (h : ρ.At j .outside true s s') :
    ρ.Repeats (parForStmt block opener) s (parForStmt block' (ρ.token opener)) s'
      (Made ρ (ρ.At j .outside true)) := by
  refine h.eat (.inr rfl) (fun _ u u' i _ hi hu => ?_) ?_
  · refine (repeats_loopHead hu (Nat.zero_le _)).done fun head v v' m hm hv => ?_
    obtain ⟨var, range⟩ := head
    have hrest : ∀ (workers : Option Expr) {n : Nat} {w w' : State}, n ≤ m →
        ρ.At n Depths.outside.deeper true w w' → ρ.Repeats
          (do
            discard (expect .rparen (.closer .rparen))
            let body ← block .loop
            blockEnd opener
            return (Stmt.parFor · var range workers body)) w
          (do
            discard (expect .rparen (.closer .rparen))
            let body ← block' .loop
            blockEnd (ρ.token opener)
            return (Stmt.parFor · (var.relocate ρ.place) (range.relocate ρ.place)
              (workers.map (Expr.relocate ρ.place)) body)) w' (Made ρ (ρ.At j .outside true)) := by
      intro workers n w w' hn hw
      refine hw.discardExpect (.inr rfl) fun x x' l hl hx => ?_
      exact repeats_body hblock ht (by omega) hj hx fun body site => by simp
    simp only [Option.isSome_some, if_true, pure_bind]
    refine hv.eat (.inl (Nat.succ_pos _)) (fun _ w w' n _ hn hw => ?_) (hrest none le_rfl hv)
    refine (reads_expression.some (Nat.lt_succ_self n)
      Depths.sound_outside.deeper hw).done fun workers x x' l hl hx => ?_
    exact hrest workers (by omega) hx
  · refine (repeats_loopHead h (Nat.zero_le _)).done fun head v v' m hm hv => ?_
    obtain ⟨var, range⟩ := head
    exact repeats_body hblock ht hm.le hj hv fun body site => by simp

theorem repeats_whileStmt (ht : opener.kind = .keyword) (hj : j < k)
    (h : ρ.At j .outside true s s') :
    ρ.Repeats (whileStmt block opener) s (whileStmt block' (ρ.token opener)) s'
      (Made ρ (ρ.At j .outside true)) := by
  refine (reads_expression (Nat.lt_succ_self j) Depths.sound_outside h).done
    fun guard u u' i hi hu => ?_
  exact repeats_body hblock ht hi.le hj hu fun body site => by simp

theorem repeats_spmdStmt (ht : opener.kind = .keyword) (hj : j < k)
    (h : ρ.At j .outside true s s') :
    ρ.Repeats (spmdStmt block opener) s (spmdStmt block' (ρ.token opener)) s'
      (Made ρ (ρ.At j .outside true)) := by
  refine .check ?_
  rw [h.head_kind rfl]
  split
  · rename_i hhead
    obtain ⟨paren, hparen, hfacing⟩ := h.facing rfl hhead
    refine (repeats_arguments (reads_expression (k := j)) hfacing (by rw [hparen]; rfl) rfl
      Depths.sound_outside).done fun options u u' i hi hu => ?_
    exact repeats_body hblock ht hi.le hj hu fun body site => by simp
  · simp only [pure_bind]
    exact repeats_body hblock ht le_rfl hj h fun body site => by simp

theorem repeats_tryStmt (ht : opener.kind = .keyword) (hj : j < k)
    (h : ρ.At j .outside true s s') :
    ρ.Repeats (tryStmt block opener) s (tryStmt block' (ρ.token opener)) s'
      (Made ρ (ρ.At j .outside true)) := by
  refine (hblock .region hj h.between).bind ?_
  rintro body _ u u' ⟨hu, rfl⟩
  have hend : ∀ (catchVar : Option Name) (handler : Option (List Stmt)) {i : Nat} {v v' : State},
      i ≤ j → ρ.At i .outside false v v' → ρ.Repeats
        (do
          blockEnd opener
          return (Stmt.tryCatch · body catchVar handler)) v
        (do
          blockEnd (ρ.token opener)
          return (Stmt.tryCatch · (body.map (Stmt.relocate ρ.place))
            (catchVar.map (Name.relocate ρ.place))
            (handler.map (List.map (Stmt.relocate ρ.place))))) v' (Made ρ (ρ.At j .outside true)) :=
    fun catchVar handler i v v' hi hv => (repeats_blockEnd ht hv).bind fun _ _ w w' hw =>
      .pure ⟨hw.mono hi, fun site => (Stmt.relocate_tryCatch site body catchVar handler).symm⟩
  have hhandler : ∀ (catchVar : Option Name) {i : Nat} {v v' : State},
      i ≤ j → ρ.At i .outside true v v' → ρ.Repeats
        (do
          let handler ← block .region
          blockEnd opener
          return (Stmt.tryCatch · body catchVar (some handler))) v
        (do
          let handler ← block' .region
          blockEnd (ρ.token opener)
          return (Stmt.tryCatch · (body.map (Stmt.relocate ρ.place))
            (catchVar.map (Name.relocate ρ.place)) (some handler))) v'
              (Made ρ (ρ.At j .outside true)) := by
    intro catchVar i v v' hi hv
    refine (hblock .region (hi.trans_lt hj) hv.between).bind ?_
    rintro handler _ w w' ⟨hw, rfl⟩
    exact hend catchVar (some handler) hi hw
  refine hu.eatWord (fun _ v v' i _ hi hv => ?_) (hend none none le_rfl hu)
  simp only [Option.isSome_some, if_true]
  refine .get ?_
  obtain ⟨n, -, hahead⟩ := hv.ahead
  rw [hahead.namesError]
  split
  · simp only [pure_bind]
    refine (reads_identifier.some (Nat.lt_succ_self i) Depths.sound_outside hv).done
      fun catchVar w w' m hm hw => hhandler catchVar (by omega) hw
  · simp only [pure_bind]
    exact hhandler none hi.le hv

end Block

/-! ## Names and commands -/

theorem repeats_declaredNames (h : ρ.At j .outside level s s') :
    ρ.Repeats declaredNames s declaredNames s'
      (ρ.Stay j .outside (List.map (Name.relocate ρ.place))) := by
  refine (reads_identifier (Nat.lt_succ_self j) Depths.sound_outside h).done
    fun first u u' i hi hu => ?_
  refine hu.eatWhile (fun t => by rw [ρ.kind_token]) (fun t ht => ?_) (fun t d ht => ?_)
    fun more v v' hmore hv => ?_
  · rw [← Bool.and_true (t.kind == _)]
    exact test_separator rfl ht true
  · rw [eq_of_beq ht]
    rfl
  · refine (hv.mapM (F := Name.relocate ρ.place) more fun t ht w w' hw =>
      repeats_identifierOf hw (eq_of_beq (hmore t ht))).bind ?_
    rintro names _ w w' ⟨hw, rfl⟩
    exact .pure ⟨hw.mono hi.le, rfl⟩

def isText (t : Token) : Bool := t.kind == .charArray || t.kind == .directory

theorem isText_iff : isText t = true ↔ t.kind = .charArray ∨ t.kind = .directory := by
  rw [isText, Bool.or_eq_true, beq_iff_eq, beq_iff_eq]

theorem value_of_isText (ht : isText t = true) : (ρ.token t).value = t.value := by
  obtain hk | hk := isText_iff.1 ht <;> exact ρ.value_of_kind hk rfl

theorem repeats_commandHead (h : ρ.At j .outside level s s') :
    ρ.Repeats commandHead s commandHead s'
      (ρ.Done j .outside (List.map (Stmt.relocate ρ.place))) := by
  refine (reads_dottedName (Nat.lt_succ_self j) Depths.sound_outside h).done
    fun head u u' i hi hu => ?_
  refine hu.eatWhile (P := isText) (fun t => by rw [isText, ρ.kind_token]; rfl) (fun t ht => ?_)
    (fun t d ht => ?_) fun words v v' hwords hv => ?_
  · obtain hk | hk | hk := Kind.isSeparator_iff.1 ht <;> rw [isText, hk] <;> rfl
  · obtain hk | hk := isText_iff.1 ht <;> rw [hk] <;> rfl
  rw [Name.identifier?_relocate, Name.site_relocate, Site.relocate_location]
  split
  · refine (hv.mapM (F := Stmt.relocate ρ.place) words fun t ht w w' hw => ?_).mono ?_
    · rw [value_of_isText (hwords t ht), ρ.location_token]
      exact hw.siteAt fun site x x' hx => .pure ⟨hx, rfl⟩
    · rintro stmts _ w w' ⟨hw, hstmts⟩
      exact ⟨⟨i, hi, hw⟩, hstmts⟩
  · refine Repeats.bind (hv.mapM (F := Expr.relocate ρ.place) words fun t ht w w' hw => ?_) ?_
    · rw [value_of_isText (hwords t ht), ρ.location_token]
      exact hw.siteAt fun site x x' hx => .pure ⟨hx, rfl⟩
    · rintro args _ w w' ⟨hw, rfl⟩
      refine hw.siteFrom fun site x x' hx => hx.siteFrom fun site' y y' hy => .pure ?_
      exact ⟨⟨i, hi, hy⟩, by simp [Expr.relocate]⟩

/-! ## Assignments -/

theorem isPlaceholder_relocate (e : Expr) :
    isPlaceholder (e.relocate ρ.place) = isPlaceholder e := by
  cases e with
  | name n => cases n <;> rfl
  | range => rw [Expr.relocate_range]; rfl
  | _ => rfl

theorem hasPlaceholder_relocate (e : Expr) :
    hasPlaceholder (e.relocate ρ.place) = hasPlaceholder e := by
  cases e with
  | matrix s rows =>
    simp only [Expr.relocate, relocateRows_eq_map, hasPlaceholder, List.any_map]
    refine congrArg (rows.any ·) (funext fun row => ?_)
    obtain ⟨site, items⟩ := row
    simp only [Function.comp_apply, Row.relocate, relocateExprs_eq_map, List.any_map]
    exact congrArg (items.any ·) (funext fun item => isPlaceholder_relocate item)
  | range => rw [Expr.relocate_range]; rfl
  | _ => rfl

theorem repeats_assignableName (e : Expr) (h : ρ.At j .outside level s s') :
    ρ.Repeats (assignableName e) s (assignableName (e.relocate ρ.place)) s'
      fun n n' t t' => ρ.At j .outside level t t' ∧ n' = n.relocate ρ.place := by
  rw [assignableName, assignableName, Expr.name?_relocate]
  cases e.name? with
  | some n => exact .pure ⟨h, rfl⟩
  | none =>
    rw [Option.map_none, notAssignable, notAssignable, Expr.site_relocate,
      Site.relocate_location, Expr.kindName_relocate]
    exact .fail rfl rfl

theorem repeats_expressionStmt (h : ρ.At j .outside level s s') :
    ρ.Repeats expressionStmt s expressionStmt s' (Made ρ (ρ.Past j .outside)) := by
  refine .check ?_
  rw [h.head_kind rfl]
  refine h.modified ⟨fun _ _ _ => rfl, fun _ => rfl⟩ fun hu => ?_
  refine (reads_expression (Nat.lt_succ_self j) Depths.sound_outside hu).done
    fun lhs v v' i hi hv => hv.modified ⟨fun _ _ _ => rfl, fun _ => rfl⟩ fun hv => ?_
  have hassign : ∀ {m : Nat} {w w' : State}, m < i → ρ.At m .outside true w w' → ρ.Repeats
      (do
        let name ← assignableName lhs
        let rhs ← expression
        return (Stmt.assign · name rhs)) w
      (do
        let name ← assignableName (lhs.relocate ρ.place)
        let rhs ← expression
        return (Stmt.assign · name rhs)) w' (Made ρ (ρ.Past j .outside)) := by
    intro m w w' hm hw
    refine (repeats_assignableName lhs hw).bind ?_
    rintro name _ x x' ⟨hx, rfl⟩
    refine (reads_expression (Nat.lt_succ_self m) Depths.sound_outside hx).done
      fun rhs y y' n hn hy => .pure ⟨⟨n, by omega, hy⟩, fun site => by simp⟩
  refine hv.eat (.inr rfl) (fun _ w w' m _ hm hw => ?_) ?_
  · simp only [Option.isNone_some, Bool.false_eq_true, if_false]
    cases lhs with
    | matrix site rows =>
      obtain _ | ⟨⟨site', items⟩, _ | ⟨next, rest⟩⟩ := rows
      · exact hassign hm hw
      · simp only [Expr.relocate, Row.relocate, relocateRows, relocateExprs_eq_map]
        refine (hw.mapM (F := Name.relocate ρ.place) items fun e _ x x' hx =>
          repeats_assignableName e hx).bind ?_
        rintro names _ x x' ⟨hx, rfl⟩
        exact (reads_expression (Nat.lt_succ_self m) Depths.sound_outside hx).done
          fun rhs y y' n hn hy => .pure ⟨⟨n, by omega, hy⟩, fun site => by simp⟩
      · exact hassign hm hw
    | range _ _ stride _ => cases stride <;> exact hassign hm hw
    | _ => exact hassign hm hw
  · rw [hasPlaceholder_relocate, Expr.site_relocate, Site.relocate_location]
    simp only [Option.isNone_none, if_true]
    split
    · exact (Repeats.fail (P := fun _ _ _ _ => False) rfl rfl).bind fun _ _ _ _ h => h.elim
    · exact .pure ⟨⟨i, hi, hv⟩, fun site => by simp⟩

/-! ## Single statements -/

section Block

variable {block block' : BlockParser} (hblock : Blocks ρ k block block')

include hblock

theorem repeats_keywordStmt (hj : j ≤ k) (ht : t.kind = .keyword)
    (h : ρ.Facing j .outside level t s s') :
    ρ.Repeats (keywordStmt block t) s (keywordStmt block' (ρ.token t)) s'
      (Made ρ (ρ.Past j .outside)) := by
  have hopened : ∀ {p p' : BlockParser → Token → Parse (Site → Stmt)},
      (∀ {i : Nat} {u u' : State}, i < k → ρ.At i .outside true u u' →
        ρ.Repeats (p block t) u (p' block' (ρ.token t)) u' (Made ρ (ρ.At i .outside true))) →
      ρ.Repeats
        (do
          advance
          p block t) s
        (do
          advance
          p' block' (ρ.token t)) s' (Made ρ (ρ.Past j .outside)) := by
    intro p p' hp
    refine h.advance fun u u' i hi hu => ?_
    rw [ht] at hu
    refine (hp (hi.trans_le hj) hu).mono ?_
    rintro make make' v v' ⟨hv, hmake⟩
    exact ⟨⟨i, hi, hv⟩, hmake⟩
  have hplain : ∀ {make : Site → Stmt}, Makes ρ make make → ρ.Repeats
      (do
        advance
        requireLoop t
        return make) s
      (do
        advance
        requireLoop (ρ.token t)
        return make) s' (Made ρ (ρ.Past j .outside)) := by
    intro make hmake
    refine h.advance fun u u' i hi hu => ?_
    rw [ht] at hu
    exact (repeats_requireLoop ht hu).bind fun _ _ v v' hv => .pure ⟨⟨i, hi, hv⟩, hmake⟩
  have hnames : ∀ {make : List Name → Site → Stmt},
      (∀ names, Makes ρ (make names) (make (names.map (Name.relocate ρ.place)))) → ρ.Repeats
        (do
          advance
          let names ← declaredNames
          return make names) s
        (do
          advance
          let names ← declaredNames
          return make names) s' (Made ρ (ρ.Past j .outside)) := by
    intro make hmake
    refine h.advance fun u u' i hi hu => ?_
    rw [ht] at hu
    exact (repeats_declaredNames hu).stay fun names v v' hv =>
      .pure ⟨⟨i, hi, hv⟩, hmake names⟩
  rw [keywordStmt, keywordStmt, ρ.raw_of_kind ht rfl, ρ.location_token]
  split
  · exact hopened fun hi hu => repeats_ifStmt hblock ht hi hu
  · exact hopened fun hi hu => repeats_switchStmt hblock ht hi hu
  · exact hopened fun hi hu => repeats_forStmt hblock ht hi hu
  · exact hopened fun hi hu => repeats_parForStmt hblock ht hi hu
  · exact hopened fun hi hu => repeats_whileStmt hblock ht hi hu
  · exact hopened fun hi hu => repeats_tryStmt hblock ht hi hu
  · exact hopened fun hi hu => repeats_spmdStmt hblock ht hi hu
  · exact hnames fun names site => (by simp :
      Stmt.global _ _ = (Stmt.global site names).relocate ρ.place)
  · exact hnames fun names site => (by simp :
      Stmt.persistent _ _ = (Stmt.persistent site names).relocate ρ.place)
  · exact hplain fun site => rfl
  · exact hplain fun site => rfl
  · refine h.advance fun u u' i hi hu => .pure ⟨?_, fun site => rfl⟩
    rw [ht] at hu
    exact ⟨i, hi, hu⟩
  · exact .fail rfl rfl

theorem repeats_statementHead (hj : j ≤ k) (h : ρ.Facing j .outside level t s s') :
    ρ.Repeats (statementHead block t) s (statementHead block' (ρ.token t)) s'
      (ρ.Done j .outside (List.map (Stmt.relocate ρ.place))) := by
  have hmake : ∀ {p p' : Parse (Site → Stmt)},
      ρ.Repeats p s p' s' (Made ρ (ρ.Past j .outside)) → ρ.Repeats
      (do
        let make ← p
        return [make (← siteFrom t.location)]) s
      (do
        let make ← p'
        return [make (← siteFrom (ρ.token t).location)]) s'
      (ρ.Done j .outside (List.map (Stmt.relocate ρ.place))) := by
    intro p p' hp
    refine hp.bind ?_
    rintro make make' u u' ⟨⟨i, hi, hu⟩, hmake⟩
    rw [ρ.location_token]
    exact hu.siteFrom fun site v v' hv => .pure ⟨⟨i, hi, hv⟩, by rw [hmake]; rfl⟩
  rw [statementHead, statementHead, ρ.kind_token]
  refine .get ?_
  obtain ⟨ts, ts', hs, hs', n, -, hahead⟩ := h.next
  rw [hs, hs', List.drop_one, List.drop_one, List.tail_cons, List.tail_cons,
    hahead.followedByText true]
  split
  · exact repeats_commandHead h.toAt
  · generalize hk : t.kind = kind
    cases kind
    case keyword => exact hmake (repeats_keywordStmt hblock hj hk h)
    case bang =>
      refine h.advance fun u u' i hi hu => ?_
      rw [pure_bind, pure_bind, ρ.value_of_kind hk rfl, ρ.location_token]
      rw [hk] at hu
      exact hu.siteFrom fun site v v' hv => .pure ⟨⟨i, hi, hv⟩, rfl⟩
    all_goals exact hmake (repeats_expressionStmt h.toAt)

theorem repeats_statement (hj : j ≤ k) (h : ρ.Facing j .outside level t s s') :
    ρ.Repeats (statement block t) s (statement block' (ρ.token t)) s' fun stmts stmts' u u' =>
      (∃ i < j, ρ.Between i u u') ∧ stmts' = stmts.map (Stmt.relocate ρ.place) := by
  rw [statement_eq, statement_eq]
  exact (repeats_statementHead hblock hj h).done fun stmts u u' i hi hu =>
    (repeats_endStatement hu).bind fun _ _ v v' hv => .pure ⟨⟨i, hi, hv⟩, rfl⟩

/-! ## Lists of statements -/

theorem repeats_statementList (hj : j ≤ k) (h : ρ.Between j s s') :
    ρ.Repeats (statementList block) s (statementList block') s' fun stmts stmts' u u' =>
      u.Clear ∧ ρ.At j .outside false u u' ∧ stmts' = stmts.map (Stmt.relocate ρ.place) := by
  rw [statementList_eq, statementList_eq]
  refine h.rounds (F := List.map (Stmt.relocate ρ.place)) (a := []) fun i hi stmts t t' ht => ?_
  refine ht.skip fun u u' hu hclear => .current? ?_
  have hdone : ρ.Repeats (pure (Round.done stmts) : Parse (Round (List Stmt) (List Stmt))) u
      (pure (Round.done (stmts.map (Stmt.relocate ρ.place))) :
        Parse (Round (List Stmt) (List Stmt))) u'
      (Turns ρ.Between i (List.map (Stmt.relocate ρ.place)) fun stmts stmts' u u' =>
        u.Clear ∧ ρ.At j .outside false u u' ∧ stmts' = stmts.map (Stmt.relocate ρ.place)) :=
    .pure ⟨hclear, hu.mono hi, rfl⟩
  obtain ⟨hnil, hnil'⟩ | ⟨next, hnext⟩ := hu.clear hclear
  · rw [hnil, hnil']
    exact hdone
  rw [hnext.current, hnext.current', statementChoice, statementChoice]
  rw [ρ.isCloser_token, ρ.isWord_token, ρ.isWord_token, ρ.location_token]
  split
  · exact hdone
  split
  · refine .get ?_
    rw [hu.frames]
    split
    · exact hdone
    · exact hdone
    · exact .fail rfl rfl
  split
  · exact .fail rfl rfl
  refine (repeats_statement hblock (hi.trans hj) hnext).bind ?_
  rintro more _ v v' ⟨hv, rfl⟩
  exact .pure ⟨hv, by rw [List.map_append]⟩

end Block

theorem Blocks.inFrame {p p' : Parse (List Stmt)}
    (hp : ∀ {j : Nat} {s s' : State}, j < k → ρ.Between j s s' →
      ρ.Repeats p s p' s' fun stmts stmts' t t' =>
        t.Clear ∧ ρ.At j .outside false t t' ∧ stmts' = stmts.map (Stmt.relocate ρ.place)) :
    Blocks ρ k (fun frame => Parse.inFrame frame p) fun frame => Parse.inFrame frame p' := by
  intro j s s' frame hj h
  refine (hp hj (h.change (fun st => { st with frames := frame :: st.frames })
    ⟨fun _ _ _ => rfl, fun _ => rfl⟩)).bracketed ?_
  rintro stmts _ t t' ⟨-, ht, rfl⟩
  exact ⟨ht.change (fun st => { st with frames := st.frames.tail })
    ⟨fun _ _ _ => rfl, fun _ => rfl⟩, rfl⟩

theorem repeats_statementsWithin {fuel fuel' : Nat} (hfuel : ρ.respaced = false → fuel' = fuel)
    (hj : j < fuel') (h : ρ.Between j s s') :
    ρ.Repeats (statementsWithin fuel) s (statementsWithin fuel') s' fun stmts stmts' t t' =>
      t.Clear ∧ ρ.At j .outside false t t' ∧ stmts' = stmts.map (Stmt.relocate ρ.place) := by
  induction fuel generalizing fuel' j s s' with
  | zero =>
    cases hρ : ρ.respaced with
    | true => exact .failing hρ fun _ _ => stalled_ok
    | false => exact absurd hj (by rw [hfuel hρ]; exact Nat.not_lt_zero j)
  | succ fuel ih =>
    obtain ⟨fuel', rfl⟩ : ∃ n, fuel' = n + 1 := ⟨fuel' - 1, by omega⟩
    refine repeats_statementList (.inFrame fun hi ht => ?_) le_rfl h
    exact ih (fun hρ => Nat.succ.inj (hfuel hρ)) (by omega) ht

theorem repeats_statements (h : ρ.Between k s s') :
    ρ.Repeats statements s statements s' fun stmts stmts' t t' =>
      t.Clear ∧ ρ.At k .outside false t t' ∧ stmts' = stmts.map (Stmt.relocate ρ.place) := by
  obtain ⟨j, hj, hlen, hexact⟩ := h.exactly
  refine .get ((repeats_statementsWithin (fun hρ => ?_) (Nat.lt_succ_of_le hlen) hexact).mono ?_)
  · rw [h.length hρ]
  · rintro stmts _ t t' ⟨hclear, ht, rfl⟩
    exact ⟨hclear, ht.mono hj, rfl⟩

end Relayout

end MFile.Grammar
