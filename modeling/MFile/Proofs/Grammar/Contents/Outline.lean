import MFile.Proofs.Grammar.Contents.Files
import MFile.Proofs.Grammar.Extent.Files
import MFile.Proofs.Lexing.LineUse
import MFile.Proofs.Lexing.Reached
import MFile.Proofs.Tree.Labels
import MFile.Proofs.Tree.Outline

/-!
The outline of a file tells its tree. Only line breaks, continuations and comments reach over the
end of a line, and a tree has nothing of these; so whatever it says, and whatever it hands to the
shell, stays on its line, and each line of the outline is that of a node.
-/

namespace MFile

namespace Scan

open Lexing Lexing.State

variable {source : SourceText} {settings : Settings} {t : Token}

theorem unbroken_raw (h : t ∈ (ofSource source settings).tokens)
    (htrivia : t.kind.isTrivia = false) (hbreak : t.kind ≠ .newline) : Unbroken t.raw := by
  obtain ⟨before, after, hsplit⟩ := List.append_of_mem h
  cases takenAt hsplit with
  | comma _ _ hcomma =>
    rw [(take_comma hcomma).2.2.1]
    exact .of_all rfl
  | @token pieces st c cs kind more mode hreads htakes =>
    rw [take_token_kind] at htrivia hbreak
    rw [Unbroken, htakes.raw source.name]
    cases (lineUse_decide htakes.decides).1 with
    | within _ hstays => exact hstays
    | through front hkind =>
      obtain rfl | rfl := hkind
      · exact absurd rfl hbreak
      · cases htrivia
    | toEnd | block => cases htrivia

theorem unbroken_value (h : t ∈ (ofSource source settings).tokens)
    (htrivia : t.kind.isTrivia = false) (hbreak : t.kind ≠ .newline) : Unbroken t.value :=
  (unbroken_raw h htrivia hbreak).valueOf htrivia

end Scan

theorem unbroken_content {source : SourceText} {settings : Settings} {t : Token}
    (h : t ∈ (Scan.ofSource source settings).tokens) :
    ∀ x ∈ t.content?, ∀ text ∈ x.text?, Unbroken text := by
  intro x hx text htext
  have hraw := Scan.unbroken_raw h
  have hvalue := Scan.unbroken_value h
  rw [Token.content?] at hx
  cases hkind : t.kind <;> rw [hkind] at hx hraw hvalue <;> cases hx <;> cases htext <;>
    first
    | exact hraw rfl Kind.noConfusion
    | exact hvalue rfl Kind.noConfusion

namespace Grammar.Parse

variable {α β : Type} {block : BlockParser} {t : Token}

/-! ## Commands for the shell -/

/-- Whatever `p` reads, it makes no command for the shell. -/
def Quiet (p : Parse (Site → Stmt)) : Prop :=
  ∀ ⦃s make s'⦄, p s = .ok make s' → ∀ site, (make site).shell? = none

namespace Quiet

theorem pure {make : Site → Stmt} (h : ∀ site, (make site).shell? = none) :
    Quiet (Pure.pure make) := by
  intro s make' s' hrun
  obtain ⟨rfl, -⟩ := pure_ok hrun
  exact h

theorem failing {p : Parse (Site → Stmt)} (h : ∀ s make s', p s ≠ .ok make s') : Quiet p :=
  fun s make s' hrun => absurd hrun (h s make s')

theorem bind {p : Parse α} {f : α → Parse (Site → Stmt)} (h : ∀ a, Quiet (f a)) :
    Quiet (p >>= f) := by
  intro s make s' hrun
  obtain ⟨a, mid, -, hrest⟩ := bind_ok hrun
  exact h a hrest

end Quiet

theorem quiet_lastBlock {p : Parse (List Stmt)} {opener : Token} {make : List Stmt → Site → Stmt}
    (h : ∀ body site, (make body site).shell? = none) :
    Quiet (do
      let body ← p
      blockEnd opener
      return make body) :=
  .bind fun body => .bind fun _ => .pure (h body)

theorem quiet_forStmt (opener : Token) : Quiet (forStmt block opener) := by
  refine .bind fun opened => .bind fun (var, range) => ?_
  dsimp only
  split
  · exact .bind fun _ => quiet_lastBlock fun _ _ => rfl
  · exact quiet_lastBlock fun _ _ => rfl

theorem quiet_parForStmt (opener : Token) : Quiet (parForStmt block opener) := by
  refine .bind fun opened => .bind fun (var, range) => ?_
  dsimp only
  split
  · refine .bind fun comma => ?_
    split
    · exact .bind fun _ => .bind fun _ => .bind fun _ => quiet_lastBlock fun _ _ => rfl
    · exact .bind fun _ => .bind fun _ => .bind fun _ => quiet_lastBlock fun _ _ => rfl
  · exact .bind fun _ => quiet_lastBlock fun _ _ => rfl

theorem quiet_tryStmt (opener : Token) : Quiet (tryStmt block opener) := by
  have hend : ∀ (body : List Stmt) (var : Option Name) (handler : Option (List Stmt)), Quiet (do
      blockEnd opener
      return (Stmt.tryCatch · body var handler)) := fun _ _ _ => .bind fun _ => .pure fun _ => rfl
  refine .bind fun body => .bind fun caught => ?_
  split
  · refine .bind fun s => ?_
    split
    · exact .bind fun _ => .bind fun _ => .bind fun _ => hend _ _ _
    · exact .bind fun _ => .bind fun _ => hend _ _ _
  · exact hend body none none

theorem quiet_spmdStmt (opener : Token) : Quiet (spmdStmt block opener) := by
  refine .bind fun opened => ?_
  split
  · exact .bind fun _ => quiet_lastBlock fun _ _ => rfl
  · exact quiet_lastBlock fun _ _ => rfl

theorem quiet_keywordStmt (block : BlockParser) (t : Token) : Quiet (keywordStmt block t) := by
  rw [keywordStmt]
  dsimp only
  split
  · exact .bind fun _ => .bind fun _ => .bind fun _ => .bind fun _ => .pure fun _ => rfl
  · exact .bind fun _ => .bind fun _ => .bind fun _ => .bind fun _ => .pure fun _ => rfl
  · exact .bind fun _ => quiet_forStmt t
  · exact .bind fun _ => quiet_parForStmt t
  · exact .bind fun _ => .bind fun _ => quiet_lastBlock fun _ _ => rfl
  · exact .bind fun _ => quiet_tryStmt t
  · exact .bind fun _ => quiet_spmdStmt t
  · exact .bind fun _ => .bind fun _ => .pure fun _ => rfl
  · exact .bind fun _ => .bind fun _ => .pure fun _ => rfl
  · exact .bind fun _ => .bind fun _ => .pure fun _ => rfl
  · exact .bind fun _ => .bind fun _ => .pure fun _ => rfl
  · exact .bind fun _ => .pure fun _ => rfl
  · exact .failing fun _ _ _ => fail_ok

theorem quiet_expressionStmt : Quiet expressionStmt := by
  refine .bind fun bracketed => .bind fun _ => .bind fun lhs => .bind fun _ =>
    .bind fun equals => ?_
  split
  · split
    · exact .bind fun _ => .pure fun _ => rfl
    · exact .pure fun _ => rfl
  split
  · exact .bind fun _ => .bind fun _ => .pure fun _ => rfl
  · exact .bind fun _ => .bind fun _ => .pure fun _ => rfl

theorem shell_commandHead {s s' : State} {ss : List Stmt} (h : commandHead s = .ok ss s') :
    ∀ stmt ∈ ss, stmt.shell? = none := by
  obtain ⟨head, mid, -, h⟩ := bind_ok h
  obtain ⟨words, mid', -, h⟩ := bind_ok h
  split at h
  · rw [imports_run] at h
    cases h
    intro stmt hstmt
    obtain ⟨_, -, _, rfl⟩ := imports_drafted _ _ stmt hstmt
    rfl
  · obtain ⟨args, mid₁, -, h⟩ := bind_ok h
    obtain ⟨inner, mid₂, -, h⟩ := bind_ok h
    obtain ⟨outer, mid₃, -, h⟩ := bind_ok h
    obtain ⟨rfl, -⟩ := pure_ok h
    exact List.forall_mem_singleton.2 rfl

theorem shell_statementHead {s s' : State} {ss : List Stmt}
    (h : statementHead block t s = .ok ss s') :
    ∀ stmt ∈ ss, ∀ text ∈ stmt.shell?, t.kind = .bang ∧ text = t.value := by
  have hmade : ∀ {p : Parse (Site → Stmt)} {s s' : State} {ss : List Stmt}, Quiet p →
      (do return [(← p) (← siteFrom t.location)] : Parse (List Stmt)) s = .ok ss s' →
        ∀ stmt ∈ ss, ∀ text ∈ stmt.shell?, t.kind = .bang ∧ text = t.value := by
    intro p s s' ss hp h
    obtain ⟨make, mid, hmake, h⟩ := bind_ok h
    obtain ⟨site, mid', -, h⟩ := bind_ok h
    obtain ⟨rfl, -⟩ := pure_ok h
    simp [hp hmake site]
  obtain ⟨_, _, hget, h⟩ := bind_ok h
  cases hget
  split at h
  · intro stmt hstmt text htext
    rw [shell_commandHead h stmt hstmt] at htext
    cases htext
  · split at h
    · exact hmade (quiet_keywordStmt block t) h
    · rename_i hkind
      obtain ⟨_, mid, -, h⟩ := bind_ok h
      rw [pure_bind] at h
      obtain ⟨site, mid', -, h⟩ := bind_ok h
      obtain ⟨rfl, -⟩ := pure_ok h
      rintro stmt hstmt text htext
      obtain rfl := List.mem_singleton.1 hstmt
      cases htext
      exact ⟨hkind, rfl⟩
    · exact hmade quiet_expressionStmt h

end Grammar.Parse

open Grammar Parse

theorem map_node_visitsFrom (depth : Nat) (events : List WalkEvent) :
    (visitsFrom depth events).map Visit.node = events.filterMap WalkEvent.entered? := by
  induction events generalizing depth with
  | nil => rfl
  | cons e events ih =>
    cases e with
    | enter relation node parent =>
      exact congrArg (node :: ·) (ih (depth + 1))
    | leave => exact ih (depth - 1)

namespace FileUnit

variable {source : SourceText} {settings : Settings} {unit : FileUnit}

theorem map_node_visits (unit : FileUnit) : (visits unit.walk).map Visit.node = unit.nodes :=
  map_node_visitsFrom 0 _

theorem staysOnLine (h : ofSource source settings = .ok unit) :
    ∀ d ∈ unit.nodes, d.StaysOnLine := by
  rw [ofSource] at h
  split at h
  · cases h
  rename_i buffer hbuffer
  obtain ⟨st, hparse, -, hperm⟩ := ofTokens_contents (named_ofSource hbuffer) h
  obtain ⟨htokens, hsuccessive⟩ : buffer.tokens = (Scan.ofSource source settings).tokens ∧
      Successive source.name (significant false buffer.tokens) := by
    have hscan := Scan.ofSource_successive source settings
    rw [TokenBuffer.ofSource] at hbuffer
    split at hbuffer
    · cases hbuffer
    · cases hbuffer
      exact ⟨rfl, hscan.sublist (significant_sublist false _)⟩
  have hsound := ((gives_fileUnit hsuccessive _ ⟨rfl, rfl⟩).ok hparse).2
  refine fun d hd => ⟨fun x hx => ?_, ?_⟩
  · have hsaid : x ∈ buffer.tokens.filterMap Token.content? :=
      hperm.subset (List.mem_append_left _ (List.mem_flatMap.2 ⟨d, hd, hx⟩))
    obtain ⟨t, ht, hcontent⟩ := List.mem_filterMap.1 hsaid
    exact unbroken_content (htokens ▸ ht) x hcontent
  · -- A shell command is no content of a token, so its token is found at the front of its run.
    rintro s rfl text htext
    obtain ⟨-, ⟨fuel, t, ss, before, after, -, hfront, hnext, hhead, -, -, hs⟩, -⟩ :=
      (hsound s hd).run
    obtain ⟨hkind, rfl⟩ := shell_statementHead hhead s hs text htext
    have ht : t ∈ significant false buffer.tokens := by
      rw [← hfront]
      exact List.mem_append_right _ (List.mem_of_mem_head? hnext)
    rw [htokens] at ht
    exact Scan.unbroken_value (mem_significant ht).1 (hkind ▸ rfl) fun hbreak =>
      Kind.noConfusion (hkind.symm.trans hbreak)

theorem unbroken_label (h : ofSource source settings = .ok unit) :
    ∀ node ∈ unit.nodes, Unbroken node.label := by
  intro node hnode
  have hbelow : node ∈ (Node.unit unit).nodes := hnode
  exact Node.unbroken_label fun d hd => staysOnLine h d (Node.nodes_trans hbelow hd)

/-- The outline of a file has a line for each node, in the order in which they are entered. Half of
the blanks before a line and what stands before and behind its first colon with a blank are the
depth, the relation and the label of that node, as no label breaks a line; and so the trees of two
files with the same outline have the same shape. -/
theorem ofSource_outline (h : ofSource source settings = .ok unit) :
    (∀ node ∈ unit.nodes, Unbroken node.label) ∧
    Text.pieces '\n' unit.outline.toList = (visits unit.walk).map (·.entry.line) ++ [[]] ∧
    readOutline unit.outline = (visits unit.walk).map Visit.entry ∧
    ∀ {source' : SourceText} {settings' : Settings} {unit' : FileUnit},
      ofSource source' settings' = .ok unit' → unit'.outline = unit.outline →
        unit'.shape = unit.shape := by
  have hlines : ∀ {source : SourceText} {settings : Settings} {unit : FileUnit},
      ofSource source settings = .ok unit →
        ∀ v ∈ visits unit.walk, '\n' ∉ v.node.label.toList := by
    intro source settings unit h v hv hfeed
    have hnode : v.node ∈ unit.nodes := map_node_visits unit ▸ List.mem_map_of_mem hv
    cases unbroken_label h v.node hnode '\n' hfeed
  refine ⟨unbroken_label h, pieces_outline (hlines h), readOutline_outline (hlines h), ?_⟩
  intro source' settings' unit' h' hsame
  have hread := readOutline_outline (hlines h')
  rw [hsame, readOutline_outline (hlines h), entries_visits, entries_visits] at hread
  exact (Shape.entries_injective hread).symm

def colons : SourceText := .ofString "t.m" "x = 'a: b';\n!ls -l: x\n" {}

theorem ofSource_outline_colons : ∃ unit, ofSource colons {} = .ok unit ∧
    unit.outline.toList.count '\n' = 5 ∧ (∀ node ∈ unit.nodes, Unbroken node.label) ∧
    readOutline unit.outline = (visits unit.walk).map Visit.entry := by
  have hrun : (FileUnit.ofSource colons {}).toOption.any
      (·.outline.toList.count '\n' == 5) = true := by
    decide +kernel
  cases hunit : FileUnit.ofSource colons {} with
  | ok unit =>
    obtain ⟨hlabels, -, hread, -⟩ := ofSource_outline hunit
    rw [hunit] at hrun
    exact ⟨unit, rfl, eq_of_beq hrun, hlabels, hread⟩
  | error e =>
    rw [hunit] at hrun
    cases hrun

end FileUnit

end MFile
