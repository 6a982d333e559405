import MFile.Proofs.Lexing.Continuations.Scanners
import MFile.Proofs.Lexing.Shifted

/-!
Decisions before a blank. A token that ends before the blank is decided the same whatever comes
after it, with two exceptions: the first name of a statement looks for the words of a command, and a
path goes on to the end of its line.
-/

namespace MFile.Lexing

open Text

namespace State

variable {st : State} {octave : Bool} {c e : Char} {w rest : List Char} {kind : Kind}
  {more : Nat} {mode : Mode}

def PastChain (w : List Char) : Prop := (w.drop (Command.chain w)).dropWhile isBlank ≠ []

theorem PastChain.nonblank (h : PastChain w) : w.dropWhile isBlank ≠ [] := by
  intro hw
  refine h (List.dropWhile_eq_nil_iff.2 fun c hc => ?_)
  exact List.dropWhile_eq_nil_iff.1 hw c (List.mem_of_mem_drop hc)

theorem opensBlock_blank (hw : w.dropWhile isBlank ≠ []) (word : String) (rest : List Char) :
    st.opensBlock word (w ++ ' ' :: rest) = st.opensBlock word w := by
  rw [opensBlock, opensBlock, Command.dropWhile_blank hw]
  obtain ⟨c, w', hbody⟩ := List.exists_cons_of_ne_nil hw
  rw [hbody]
  rfl

theorem modeAfterName_blank (hw : st.statementStart = true → PastChain w) (word : String)
    (rest : List Char) :
    st.modeAfterName more word (w ++ ' ' :: rest) = st.modeAfterName more word w := by
  rw [modeAfterName, modeAfterName]
  split
  · rename_i hstart
    have hpast := hw (Bool.and_eq_true_iff.1 hstart).1
    dsimp only
    rw [Command.chain_cut cuts_blank, List.drop_append_of_le_length (Command.chain_le w),
      Command.follows_blank hpast]
  · rfl

theorem decideWord_token (st : State) (c : Char) (cs : List Char) (more : Nat) :
    ∃ kind mode, st.decideWord c cs more = .token kind more mode ∧
      (kind = .identifier ∨ kind = .keyword) := by
  rw [decideWord]
  split
  · exact ⟨_, _, rfl, .inl rfl⟩
  split
  · exact ⟨_, _, rfl, .inr rfl⟩
  split
  · exact ⟨_, _, rfl, .inr rfl⟩
  · exact ⟨_, _, rfl, .inl rfl⟩

theorem decideWord_blank (hmore : more ≤ w.length)
    (hw : st.statementStart = true → PastChain (w.drop more)) (rest : List Char) :
    st.decideWord c (w ++ ' ' :: rest) more = st.decideWord c w more := by
  rw [decideWord, decideWord, List.take_append_of_le_length hmore,
    List.drop_append_of_le_length hmore, modeAfterName_blank hw]
  cases hstart : st.statementStart with
  | true => rw [opensBlock_blank (hw hstart).nonblank]
  | false => rfl

theorem decideComment_within (hmore : more ≤ w.length) (rest' : List Char) {n : Nat}
    (h : st.decideComment c (w ++ ' ' :: rest) more = .token kind n mode) (hn : n ≤ w.length) :
    st.decideComment c (w ++ ' ' :: rest') more = .token kind n mode := by
  rw [decideComment, List.take_append_of_le_length hmore,
    List.drop_append_of_le_length hmore] at h ⊢
  split at h
  · split at h
    · rename_i hfirst
      rw [if_pos hfirst]
      split at h
      · rename_i body hbody
        cases h
        rw [blockBody?_within _ rest' hbody (by rw [List.length_drop]; omega)]
      · cases h
    · rename_i hfirst
      rw [if_neg hfirst]
      exact h
  · exact h

theorem token_of_ofExtent {k : Kind} {m : Mode} {extent : Extent}
    (h : Decision.ofExtent k m extent = .token kind more mode) :
    extent = .sound more ∧ k = kind ∧ m = mode := by
  cases extent with
  | sound n =>
    cases h
    exact ⟨rfl, rfl, rfl⟩
  | faulty => cases h

theorem le_of_decideComment {cs : List Char} {n : Nat}
    (h : st.decideComment c cs n = .token kind more mode) : n ≤ more := by
  rw [decideComment] at h
  split at h
  · split at h
    · split at h
      · cases h
        exact Nat.le_add_right _ _
      · cases h
    · cases h
      exact Nat.le_refl _
  · cases h
    exact Nat.le_refl _

theorem decideQuote_within (rest' : List Char)
    (h : st.decideQuote (w ++ ' ' :: rest) = .token kind more mode) (hmore : more ≤ w.length) :
    st.decideQuote (w ++ ' ' :: rest') = .token kind more mode := by
  rw [decideQuote] at h ⊢
  cases hquote : st.quoteReading with
  | transpose =>
    rw [hquote] at h
    exact h
  | ambiguous =>
    rw [hquote] at h
    cases h
  | literal =>
    rw [hquote] at h
    obtain ⟨hextent, rfl, rfl⟩ := token_of_ofExtent h
    dsimp only
    rw [extent_within (by decide) _ _ hextent hmore]
    rfl

theorem le_of_decideBang {cs : List Char} {n : Nat}
    (h : st.decideBang octave cs n = .token kind more mode) : n ≤ more := by
  rw [decideBang] at h
  split at h
  · cases h
    exact Nat.le_refl _
  split at h
  · cases h
    exact Nat.le_add_right _ _
  · cases h

theorem decideBang_within (rest' : List Char) {n : Nat}
    (h : st.decideBang octave (w ++ ' ' :: rest) n = .token kind more mode)
    (hmore : more ≤ w.length) :
    st.decideBang octave (w ++ ' ' :: rest') n = .token kind more mode := by
  have hn : n ≤ w.length := (le_of_decideBang h).trans hmore
  rw [decideBang, List.drop_append_of_le_length hn] at h ⊢
  split at h
  · rename_i hoctave
    rw [if_pos hoctave]
    exact h
  rename_i hoctave
  rw [if_neg hoctave]
  split at h
  · rename_i hstart
    rw [if_pos hstart]
    cases h
    have hline : restOfLine (w.drop n ++ ' ' :: rest) ≤ (w.drop n).length := by
      rw [List.length_drop]
      omega
    rw [restOfLine_within _ hline]
  · cases h

theorem decidePlain_within (he : (isBlank e || isBreak e) = false) (rest' : List Char)
    (h : st.decidePlain octave c (w ++ ' ' :: rest) = .token kind more mode)
    (hmore : more ≤ w.length)
    (hw : kind = .identifier ∨ kind = .keyword → st.statementStart = true →
      PastChain (w.drop more)) :
    st.decidePlain octave c (w ++ ' ' :: e :: rest') = .token kind more mode := by
  rw [decidePlain] at h ⊢
  cases hlexeme : Lexeme.ofChars? c (w ++ ' ' :: rest) with
  | none =>
    rw [hlexeme] at h
    cases h
  | some lexeme =>
    rw [hlexeme] at h
    have hsame : ∀ {lexeme' : Lexeme}, lexeme' = lexeme → lexeme'.reach ≤ w.length →
        (∀ fault n, lexeme' ≠ .text (.faulty fault n)) →
        Lexeme.ofChars? c (w ++ ' ' :: e :: rest') = some lexeme' := by
      rintro _ rfl hreach hsound
      exact Lexeme.ofChars?_within he rest' hlexeme hreach hsound
    cases lexeme with
    | newline n | continuation n | symbol k n =>
      cases h
      rw [hsame rfl hmore fun _ _ => Lexeme.noConfusion]
    | comment n =>
      have hn : n ≤ w.length := (le_of_decideComment h).trans hmore
      rw [hsame rfl hn fun _ _ => Lexeme.noConfusion]
      exact decideComment_within hn _ h hmore
    | word n =>
      obtain ⟨k, m, hdecide, hk⟩ := st.decideWord_token c (w ++ ' ' :: rest) n
      dsimp only at h
      rw [hdecide] at h
      cases h
      rw [hsame rfl hmore fun _ _ => Lexeme.noConfusion]
      dsimp only
      rw [decideWord_blank hmore (hw hk), ← decideWord_blank hmore (hw hk) rest, hdecide]
    | number extent =>
      obtain ⟨rfl, -, -⟩ := token_of_ofExtent h
      rw [hsame rfl hmore fun _ _ => Lexeme.noConfusion]
      exact h
    | text extent =>
      obtain ⟨rfl, -, -⟩ := token_of_ofExtent h
      rw [hsame rfl hmore fun _ _ he => Extent.noConfusion (Lexeme.text.inj he)]
      exact h
    | quote =>
      rw [hsame rfl (Nat.zero_le _) fun _ _ => Lexeme.noConfusion]
      exact decideQuote_within _ h hmore
    | bang n =>
      have hn : n ≤ w.length := (le_of_decideBang h).trans hmore
      rw [hsame rfl hn fun _ _ => Lexeme.noConfusion]
      exact decideBang_within _ h hmore

theorem all_drop_trimEnd (p : Char → Bool) (cs : List Char) :
    ∀ c ∈ cs.drop (trimEnd p cs).length, p c = true := by
  intro c hc
  have hsplit : cs = trimEnd p cs ++ (cs.reverse.takeWhile p).reverse := by
    rw [trimEnd, ← List.reverse_append, List.takeWhile_append_dropWhile, List.reverse_reverse]
  have hdrop : cs.drop (trimEnd p cs).length = (cs.reverse.takeWhile p).reverse :=
    (congrArg (List.drop (trimEnd p cs).length) hsplit).trans List.drop_left
  rw [hdrop] at hc
  exact List.mem_takeWhile_imp (List.mem_reverse.1 hc)

theorem length_le_of_trimEnd {length : Nat}
    (hpath : (trimEnd isBlank ((c :: (w ++ ' ' :: rest)).take length)).length - 1 ≤ w.length)
    (hw : (w.drop ((trimEnd isBlank ((c :: (w ++ ' ' :: rest)).take length)).length - 1)).dropWhile
      isBlank ≠ []) : length ≤ (c :: w).length := by
  by_contra hlength
  obtain ⟨k, rfl⟩ := Nat.exists_eq_add_of_lt (Nat.lt_of_not_le hlength)
  rw [← List.cons_append, Nat.add_assoc, List.take_length_add_append, trimEnd_append] at hpath hw
  split at hw
  · refine hw (List.dropWhile_eq_nil_iff.2 fun ch hch => all_drop_trimEnd isBlank (c :: w) ch ?_)
    cases hend : (trimEnd isBlank (c :: w)).length with
    | zero =>
      rw [hend] at hch
      exact List.mem_cons_of_mem c hch
    | succ n =>
      rw [hend] at hch
      exact hch
  · rename_i hblank
    have hne : trimEnd isBlank ((' ' :: rest).take (k + 1)) ≠ [] := fun h =>
      hblank (trimEnd_eq_nil h)
    have := List.length_pos_iff.2 hne
    rw [if_neg hblank, List.length_append, List.length_cons] at hpath
    omega

theorem decideCommand_within {command : CommandKind} (rest' : List Char)
    (h : st.decideCommand command c (w ++ ' ' :: rest) = .token kind more mode)
    (hmore : more ≤ w.length) (hw : kind = .directory → (w.drop more).dropWhile isBlank ≠ []) :
    st.decideCommand command c (w ++ ' ' :: rest') = .token kind more mode := by
  have hcontinues : ∀ rest,
      Command.continues (c :: (w ++ ' ' :: rest)) = Command.continues (c :: w) :=
    fun rest => Command.continues_blank (c :: w) rest
  rw [decideCommand.eq_def, hcontinues] at h ⊢
  split at h
  · rename_i hc
    rw [if_pos hc]
    cases command with
    | words =>
      cases h
      dsimp only
      rw [throughBreak_within rest' hmore]
    | path => cases h
  · rename_i hc
    rw [if_neg hc]
    cases htext : Command.text command false (c :: (w ++ ' ' :: rest)) with
    | error length =>
      rw [htext] at h
      cases command <;> cases h
    | ok length =>
      rw [htext] at h
      cases command with
      | words =>
        cases h
        have hlater :=
          Command.text_within (w := c :: w) rest' htext (by rw [List.length_cons]; omega)
        rw [List.cons_append] at hlater
        rw [hlater]
      | path =>
        dsimp only at h
        split at h
        · cases h
        rename_i hdots
        cases h
        have hlength := length_le_of_trimEnd hmore (hw rfl)
        have hlater := Command.text_within (w := c :: w) rest' htext hlength
        have htake : ∀ rest, (c :: (w ++ ' ' :: rest)).take length = (c :: w).take length :=
          fun rest => List.take_append_of_le_length hlength
        rw [List.cons_append] at hlater
        rw [htake] at hdots
        rw [hlater, htake]
        dsimp only
        rw [htake, hdots]

theorem decide_within (he : (isBlank e || isBreak e) = false) (rest' : List Char)
    (h : st.decide octave c (w ++ ' ' :: rest) = .token kind more mode) (hmore : more ≤ w.length)
    (hword : kind = .identifier ∨ kind = .keyword → st.statementStart = true →
      PastChain (w.drop more))
    (hpath : kind = .directory → (w.drop more).dropWhile isBlank ≠ []) :
    st.decide octave c (w ++ ' ' :: e :: rest') = .token kind more mode := by
  rw [decide] at h ⊢
  cases hmode : st.mode with
  | command command =>
    rw [hmode] at h
    dsimp only at h ⊢
    by_cases hstop : Command.isStop c = true
    · rw [if_pos hstop] at h ⊢
      exact decidePlain_within he rest' h hmore hword
    · rw [if_neg hstop] at h ⊢
      exact decideCommand_within _ h hmore hpath
  | normal | commandAfter =>
    rw [hmode] at h
    exact decidePlain_within he rest' h hmore hword

end State

end MFile.Lexing
