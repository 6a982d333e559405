import MFile.Grammar.File
import MFile.Proofs.Grammar.Runs
import MFile.Proofs.Tree.Relocate

/-!
Texts that differ in their layout only. A relayout gives every token another face and place, of
which the grammar sees nothing but where the tree lies; if it is `respaced`, separators outside of
brackets may also be others, and more or fewer of them in a row.

`Repeats` says of two runs that the second does on the new layout what the first does on the old
one. How far the tokens are passed is counted in tokens that stand in both texts.
-/

namespace MFile

def Kind.nest (d : Nat) : Kind → Nat
  | lparen | lbracket | lbrace => d + 1
  | rparen | rbracket | rbrace => d - 1
  | _ => d

theorem Kind.isSeparator_iff {kind : Kind} :
    kind.isSeparator = true ↔ kind = .newline ∨ kind = .semicolon ∨ kind = .comma := by
  cases kind <;> simp [isSeparator]

namespace Grammar

open Parse

/-- The brackets that are open, of any kind and of argument lists. -/
structure Depths where
  brackets : Nat := 0
  index : Nat := 0

namespace Depths

def outside : Depths := {}

def nest (d : Depths) (kind : Kind) : Depths := { d with brackets := kind.nest d.brackets }

def deeper (d : Depths) : Depths := { d with brackets := d.brackets + 1 }

def indexed (d : Depths) : Depths := { d with index := d.index + 1 }

def Sound (d : Depths) : Prop := d.index ≤ d.brackets

variable {d : Depths}

theorem sound_outside : outside.Sound := Nat.le_refl 0

theorem Sound.deeper (h : d.Sound) : d.deeper.Sound := Nat.le_succ_of_le h

theorem Sound.indexed (h : d.Sound) : d.deeper.indexed.Sound := Nat.succ_le_succ h

theorem nest_opening {kind : Kind} (h : kind.isOpening = true) : d.nest kind = d.deeper := by
  cases kind <;> first | rfl | cases h

theorem nest_closing {kind : Kind} (h : kind.isClosing = true) : d.deeper.nest kind = d := by
  cases kind <;> first | rfl | cases h

end Depths

def State.onto (s : State) (behind ahead : List Token) : State :=
  { s with behind := behind, ahead := ahead }

theorem State.onto_of_eq {s s' : State} {b a : List Token} (h : s' = s.onto b a)
    (behind ahead : List Token) : s'.onto behind ahead = s.onto behind ahead :=
  (congrArg (State.onto · behind ahead) h).trans rfl

structure Relayout where
  token : Token → Token
  place : Location → Location
  line : Nat → Nat
  respaced : Bool
  kind_token : ∀ t, (token t).kind = t.kind
  raw_token : ∀ t, t.isSeparator = false → (token t).raw = t.raw
  location_token : ∀ t, (token t).location = place t.location
  place_extendTo : ∀ a b, place (a.extendTo b) = (place a).extendTo (place b)
  place_file : ∀ file, place ⟨file, .file, none⟩ = ⟨file, .file, none⟩
  line_place : ∀ l, (place l).line?.getD 0 = line (l.line?.getD 0)

def Relayout.inPlace (token : Token → Token) (respaced : Bool)
    (kind_token : ∀ t, (token t).kind = t.kind)
    (raw_token : ∀ t, t.isSeparator = false → (token t).raw = t.raw)
    (location_token : ∀ t, (token t).location = t.location) : Relayout where
  token := token
  place := id
  line := id
  respaced := respaced
  kind_token := kind_token
  raw_token := raw_token
  location_token := location_token
  place_extendTo _ _ := rfl
  place_file _ := rfl
  line_place _ := rfl

theorem followedByText_cons (plain : Bool) (t : Token) (ts : List Token) :
    followedByText plain (t :: ts) =
      if t.kind == .selection && ts[0]?.map (·.kind) == some .identifier then
        followedByText false (ts.drop 1)
      else t.kind == .charArray || (plain && t.kind == .directory) := by
  cases ts with
  | nil => simp [followedByText]
  | cons u ts =>
    rw [followedByText, List.getElem?_cons_zero, Option.map_some, List.drop_one, List.tail_cons,
      Option.some_beq_some]

theorem followedByText_separator {t : Token} (ht : t.isSeparator = true) (plain : Bool)
    (ts : List Token) : followedByText plain (t :: ts) = false := by
  rw [followedByText_cons]
  obtain hk | hk | hk := Kind.isSeparator_iff.1 ht <;> rw [hk] <;> cases plain <;> rfl

theorem namesError_separator {t : Token} (ht : t.isSeparator = true) (ts : List Token) :
    namesError (t :: ts) = false := by
  cases ts <;> obtain hk | hk | hk := Kind.isSeparator_iff.1 ht <;>
    rw [namesError, hk] <;> rfl

namespace Relayout

variable (ρ : Relayout) {t : Token}

attribute [simp] kind_token location_token

@[simp] theorem isSeparator_token : (ρ.token t).isSeparator = t.isSeparator :=
  congrArg Kind.isSeparator (ρ.kind_token t)

theorem raw_of_kind {kind : Kind} (hkind : t.kind = kind) (h : kind.isSeparator = false) :
    (ρ.token t).raw = t.raw :=
  ρ.raw_token t (by rw [Token.isSeparator, hkind, h])

theorem value_of_kind {kind : Kind} (hkind : t.kind = kind) (h : kind.isSeparator = false) :
    (ρ.token t).value = t.value := by
  rw [Token.value, Token.value, ρ.kind_token, ρ.raw_of_kind hkind h]

theorem test_token {kind : Kind} (hkind : kind.isSeparator = false) (p : String → Bool) :
    ((ρ.token t).kind == kind && p (ρ.token t).raw) = (t.kind == kind && p t.raw) := by
  rw [ρ.kind_token]
  by_cases h : t.kind = kind
  · rw [ρ.raw_of_kind h hkind]
  · rw [beq_eq_false_iff_ne.2 h, Bool.false_and, Bool.false_and]

@[simp] theorem isWord_token (word : String) : (ρ.token t).isWord word = t.isWord word :=
  ρ.test_token rfl (· == word)

@[simp] theorem isOperator_token (symbol : String) :
    (ρ.token t).isOperator symbol = t.isOperator symbol :=
  ρ.test_token rfl (· == symbol)

@[simp] theorem isCloser_token : (ρ.token t).isCloser = t.isCloser :=
  ρ.test_token rfl Word.closers.contains

@[simp] theorem isSign_token : isSign (ρ.token t) = isSign t :=
  ρ.test_token rfl fun raw => ["+", "-", "~", "!"].contains raw

def cause : Cause → Cause
  | .expected what found => .expected what (found.map ρ.token)
  | .openBlock opener line found => .openBlock opener (ρ.line line) (found.map ρ.token)
  | .classItem found => .classItem (found.map ρ.token)
  | .afterFunctions found => .afterFunctions (found.map ρ.token)
  | other => other

def error : ParseError → ParseError
  | .lexical e => .lexical e
  | .grammatical l cause => .grammatical (ρ.place l) (ρ.cause cause)
  | .internal l defect => .internal (ρ.place l) defect

/-- The token stands in both texts: it is no separator that may be another one. -/
def Solid (d : Nat) (t : Token) : Prop := ρ.respaced = true → d = 0 → t.isSeparator = false

/-- Two layouts of `n` tokens, and of separators, where `d` brackets are open. -/
inductive Matched : Nat → Nat → List Token → List Token → Prop
  | nil {d : Nat} : Matched d 0 [] []
  | token {d n : Nat} {t : Token} {ts ts' : List Token} (ht : ρ.Solid d t)
      (h : Matched (t.kind.nest d) n ts ts') : Matched d (n + 1) (t :: ts) (ρ.token t :: ts')
  | gap {n : Nat} {t t' : Token} {seps seps' ts ts' : List Token} (hρ : ρ.respaced = true)
      (hseps : ∀ sep ∈ t :: seps, sep.isSeparator = true)
      (hseps' : ∀ sep ∈ t' :: seps', sep.isSeparator = true) (h : Matched 0 n ts ts') :
      Matched 0 n (t :: (seps ++ ts)) (t' :: (seps' ++ ts'))

namespace Matched

variable {ρ} {d n : Nat} {ts ts' : List Token}

theorem le_length (h : ρ.Matched d n ts ts') : n ≤ ts'.length := by
  induction h with
  | nil => exact Nat.le_refl 0
  | token _ _ ih => exact Nat.succ_le_succ ih
  | gap _ _ _ _ ih =>
    rw [List.length_cons, List.length_append]
    omega

theorem eq_map (hρ : ρ.respaced = false) (h : ρ.Matched d n ts ts') : ts' = ts.map ρ.token := by
  induction h with
  | nil => rfl
  | token _ _ ih => rw [ih, List.map_cons]
  | gap h => exact absurd (h.symm.trans hρ) (by decide)

theorem map (hρ : ρ.respaced = false) (d : Nat) (ts : List Token) :
    ρ.Matched d ts.length ts (ts.map ρ.token) := by
  induction ts generalizing d with
  | nil => exact .nil
  | cons t ts ih => exact .token (fun h => absurd (h.symm.trans hρ) (by decide)) (ih _)

theorem split_while {P : Token → Bool} (hP : ∀ t, P (ρ.token t) = P t)
    (hsep : ∀ t, t.isSeparator = true → P t = false)
    (hnest : ∀ t d, P t = true → t.kind.nest d = d) (h : ρ.Matched d n ts ts') :
    ts'.takeWhile P = (ts.takeWhile P).map ρ.token ∧
      ∃ m ≤ n, ρ.Matched d m (ts.dropWhile P) (ts'.dropWhile P) := by
  induction h with
  | nil => exact ⟨rfl, 0, Nat.le_refl 0, .nil⟩
  | @token d n t ts ts' ht hahead ih =>
    rw [List.takeWhile_cons, List.takeWhile_cons, List.dropWhile_cons, List.dropWhile_cons, hP]
    by_cases hPt : P t = true
    · obtain ⟨htake, m, hm, hdrop⟩ := ih
      rw [if_pos hPt, if_pos hPt, if_pos hPt, if_pos hPt, htake, List.map_cons]
      exact ⟨rfl, m, Nat.le_succ_of_le hm, hnest t d hPt ▸ hdrop⟩
    · rw [if_neg hPt, if_neg hPt, if_neg hPt, if_neg hPt]
      exact ⟨rfl, n + 1, Nat.le_refl _, .token ht hahead⟩
  | @gap n t t' seps seps' ts ts' hρ hseps hseps' hahead =>
    have ht : ¬ P t = true := by simp [hsep t (hseps t List.mem_cons_self)]
    have ht' : ¬ P t' = true := by simp [hsep t' (hseps' t' List.mem_cons_self)]
    rw [List.takeWhile_cons_of_neg ht, List.takeWhile_cons_of_neg ht',
      List.dropWhile_cons_of_neg ht, List.dropWhile_cons_of_neg ht']
    exact ⟨rfl, n, Nat.le_refl n, .gap hρ hseps hseps' hahead⟩

theorem nest_of_separator {t : Token} (h : t.isSeparator = true) (d : Nat) :
    t.kind.nest d = d := by
  cases hk : t.kind <;> first | rfl | simp [Token.isSeparator, Kind.isSeparator, hk] at h

theorem skip (h : ρ.Matched d n ts ts') (hd : d = 0) :
    ∃ m ≤ n, ρ.Matched 0 m (ts.dropWhile (·.isSeparator)) (ts'.dropWhile (·.isSeparator)) := by
  induction h with
  | nil => exact ⟨0, Nat.le_refl 0, .nil⟩
  | @token d n t ts ts' ht hahead ih =>
    rw [List.dropWhile_cons, List.dropWhile_cons, ρ.isSeparator_token]
    by_cases hsep : t.isSeparator = true
    · rw [if_pos hsep, if_pos hsep]
      obtain ⟨m, hm, hdrop⟩ := ih ((nest_of_separator hsep d).trans hd)
      exact ⟨m, Nat.le_succ_of_le hm, hdrop⟩
    · rw [if_neg hsep, if_neg hsep, ← hd]
      exact ⟨n + 1, Nat.le_refl _, .token ht hahead⟩
  | @gap n t t' seps seps' ts ts' hρ hseps hseps' hahead ih =>
    obtain ⟨m, hm, hdrop⟩ := ih rfl
    rw [← List.cons_append, ← List.cons_append,
      List.dropWhile_append_of_pos hseps,
      List.dropWhile_append_of_pos hseps']
    exact ⟨m, hm, hdrop⟩

theorem head_kind {kind : Kind} (hkind : kind.isSeparator = false) (h : ρ.Matched d n ts ts') :
    (ts'[0]?.map (·.kind) == some kind) = (ts[0]?.map (·.kind) == some kind) := by
  have hne : ∀ t : Token, t.isSeparator = true → (some t.kind == some kind) = false := by
    intro t ht
    refine beq_eq_false_iff_ne.2 fun h => ?_
    rw [Token.isSeparator, Option.some.inj h, hkind] at ht
    cases ht
  cases h with
  | nil => rfl
  | @token _ _ t =>
    rw [List.getElem?_cons_zero, List.getElem?_cons_zero, Option.map_some, Option.map_some,
      ρ.kind_token]
  | @gap _ t t' _ _ _ _ _ hseps hseps' =>
    rw [List.getElem?_cons_zero, List.getElem?_cons_zero, Option.map_some, Option.map_some,
      hne t (hseps t List.mem_cons_self), hne t' (hseps' t' List.mem_cons_self)]

theorem followedByText (plain : Bool) (h : ρ.Matched d n ts ts') :
    followedByText plain ts' = followedByText plain ts := by
  induction n using Nat.strong_induction_on generalizing plain d ts ts' with
  | _ n ih =>
    cases h with
    | nil => rfl
    | @token _ n t ts ts' _ hahead =>
      rw [followedByText_cons, followedByText_cons, ρ.kind_token, hahead.head_kind rfl]
      split
      · rename_i hcond
        generalize t.kind.nest d = e at hahead
        cases hahead with
        | nil => cases (Bool.and_eq_true_iff.1 hcond).2
        | token _ hahead => exact ih _ (by omega) false hahead
        | @gap _ u _ _ _ _ _ _ hseps =>
          have hu : u.kind = .identifier :=
            Option.some.inj (eq_of_beq (Bool.and_eq_true_iff.1 hcond).2)
          have hsep := hseps u List.mem_cons_self
          rw [Token.isSeparator, hu] at hsep
          cases hsep
      · rfl
    | @gap _ t t' _ _ _ _ _ hseps hseps' =>
      rw [followedByText_separator (hseps t List.mem_cons_self),
        followedByText_separator (hseps' t' List.mem_cons_self)]

theorem namesError (h : ρ.Matched d n ts ts') : namesError ts' = namesError ts := by
  cases h with
  | nil => rfl
  | @token _ _ t _ _ _ hahead =>
    generalize t.kind.nest d = e at hahead
    cases hahead with
    | nil => simp only [Parse.namesError, ρ.kind_token]
    | token => simp only [Parse.namesError, ρ.kind_token, ρ.isSeparator_token, ρ.isCloser_token]
    | @gap _ u u' _ _ _ _ _ hseps hseps' =>
      simp only [Parse.namesError, ρ.kind_token, hseps u List.mem_cons_self,
        hseps' u' List.mem_cons_self, Bool.true_or]
  | @gap _ t t' seps seps' ts ts' _ hseps hseps' =>
    rw [namesError_separator (hseps t List.mem_cons_self),
      namesError_separator (hseps' t' List.mem_cons_self)]

end Matched

/-- The states differ in the tokens alone, and at most `k` tokens are ahead in both of them. The
last token passed is also the same, if it is `level`. -/
structure At (k : Nat) (d : Depths) (level : Bool) (s s' : State) : Prop where
  rest : s' = s.onto s'.behind s'.ahead
  index : s.indexDepth = d.index
  ahead : ∃ n ≤ k, ρ.Matched d.brackets n s.ahead s'.ahead
  last : ρ.respaced = false ∨ level = true → s'.behind.head? = s.behind.head?.map ρ.token

def Past (k : Nat) (d : Depths) (s s' : State) : Prop := ∃ j < k, ρ.At j d true s s'

structure Facing (k : Nat) (d : Depths) (level : Bool) (t : Token) (s s' : State) : Prop
    extends At ρ k d level s s' where
  next : ∃ ts ts', s.ahead = t :: ts ∧ s'.ahead = ρ.token t :: ts' ∧
    ∃ n < k, ρ.Matched (t.kind.nest d.brackets) n ts ts'

structure Gap (d : Depths) (s s' : State) : Prop where
  respaced : ρ.respaced = true
  depth : d.brackets = 0
  next : ∃ t t' ts ts', s.ahead = t :: ts ∧ s'.ahead = t' :: ts' ∧ t.isSeparator = true ∧
    t'.isSeparator = true

section States

variable {ρ} {k j : Nat} {d : Depths} {level : Bool} {s s' : State}

namespace At

theorem mono (h : ρ.At j d level s s') (hj : j ≤ k) : ρ.At k d level s s' := by
  obtain ⟨n, hn, hahead⟩ := h.ahead
  exact { h with ahead := ⟨n, hn.trans hj, hahead⟩ }

theorem any (h : ρ.At k d true s s') (level : Bool) : ρ.At k d level s s' :=
  { h with last := fun _ => h.last (.inr rfl) }

theorem exactly (h : ρ.At k d level s s') :
    ∃ j ≤ k, j ≤ s'.ahead.length ∧ ρ.At j d level s s' := by
  obtain ⟨n, hn, hahead⟩ := h.ahead
  exact ⟨n, hn, hahead.le_length, { h with ahead := ⟨n, Nat.le_refl n, hahead⟩ }⟩

theorem onto (h : ρ.At k d level s s') {e : Depths} {level' : Bool} {b b' a a' : List Token}
    (he : e.index = d.index) (ha : ∃ n ≤ j, ρ.Matched e.brackets n a a')
    (hb : ρ.respaced = false ∨ level' = true → b'.head? = b.head?.map ρ.token) :
    ρ.At j e level' (s.onto b a) (s'.onto b' a') :=
  ⟨State.onto_of_eq h.rest b' a', h.index.trans he.symm, ha, hb⟩

theorem reindex (h : ρ.At k d level s s') (index : Nat) :
    ρ.At k { d with index := index } level { s with indexDepth := index }
      { s' with indexDepth := index } :=
  ⟨congrArg (fun st : State => { st with indexDepth := index }) h.rest, rfl, h.ahead, h.last⟩

theorem ahead_eq (h : ρ.At k d level s s') (hρ : ρ.respaced = false) :
    s'.ahead = s.ahead.map ρ.token := by
  obtain ⟨n, -, hahead⟩ := h.ahead
  exact hahead.eq_map hρ

theorem file (h : ρ.At k d level s s') : s'.file = s.file :=
  (congrArg State.file h.rest).trans rfl

theorem nodes (h : ρ.At k d level s s') : s'.nodes = s.nodes :=
  (congrArg State.nodes h.rest).trans rfl

theorem frames (h : ρ.At k d level s s') : s'.frames = s.frames :=
  (congrArg State.frames h.rest).trans rfl

theorem indexDepth (h : ρ.At k d level s s') : s'.indexDepth = s.indexDepth :=
  (congrArg State.indexDepth h.rest).trans rfl

theorem methodDepth (h : ρ.At k d level s s') : s'.methodDepth = s.methodDepth :=
  (congrArg State.methodDepth h.rest).trans rfl

theorem endUsed (h : ρ.At k d level s s') : s'.endUsed = s.endUsed :=
  (congrArg State.endUsed h.rest).trans rfl

theorem placeholders (h : ρ.At k d level s s') : s'.placeholders = s.placeholders :=
  (congrArg State.placeholders h.rest).trans rfl

theorem view (h : ρ.At k d level s s') :
    (s.ahead = [] ∧ s'.ahead = []) ∨ (∃ t, ρ.Facing k d level t s s') ∨ ρ.Gap d s s' := by
  obtain ⟨n, hn, hahead⟩ := h.ahead
  generalize hd : d.brackets = e at hahead
  generalize hs : s.ahead = ts at hahead
  generalize hs' : s'.ahead = ts' at hahead
  cases hahead with
  | nil => exact .inl ⟨rfl, rfl⟩
  | @token _ n t ts ts' _ hahead =>
    exact .inr (.inl ⟨t, { h with next := ⟨ts, ts', hs, hs', n, hn, hd ▸ hahead⟩ }⟩)
  | gap hρ hseps hseps' hahead =>
    refine .inr (.inr ⟨hρ, hd, _, _, _, _, hs, hs', ?_, ?_⟩)
    · exact hseps _ List.mem_cons_self
    · exact hseps' _ List.mem_cons_self

theorem head_kind {kind : Kind} (h : ρ.At k d level s s') (hkind : kind.isSeparator = false) :
    (s'.ahead[0]?.map (·.kind) == some kind) = (s.ahead[0]?.map (·.kind) == some kind) := by
  obtain ⟨n, -, hahead⟩ := h.ahead
  exact hahead.head_kind hkind

theorem facing {kind : Kind} (h : ρ.At k d level s s') (hkind : kind.isSeparator = false)
    (hhead : (s.ahead[0]?.map (·.kind) == some kind) = true) :
    ∃ t, t.kind = kind ∧ ρ.Facing k d level t s s' := by
  obtain ⟨hs, -⟩ | ⟨t, ht⟩ | hgap := h.view
  · rw [hs] at hhead
    cases hhead
  · obtain ⟨ts, _, hs, -⟩ := ht.next
    rw [hs] at hhead
    exact ⟨t, Option.some.inj (eq_of_beq hhead), ht⟩
  · obtain ⟨t, _, ts, _, hs, -, ht, -⟩ := hgap.next
    rw [hs] at hhead
    have hk : t.kind = kind := Option.some.inj (eq_of_beq hhead)
    rw [Token.isSeparator, hk, hkind] at ht
    cases ht

theorem inside (h : ρ.At k d level s s') (hd : 0 < d.brackets) :
    (s.ahead = [] ∧ s'.ahead = []) ∨ ∃ t, ρ.Facing k d level t s s' := by
  obtain hnone | hfacing | hgap := h.view
  · exact .inl hnone
  · exact .inr hfacing
  · exact absurd hgap.depth hd.ne'

end At

namespace Past

theorem toAt (h : ρ.Past k d s s') : ρ.At k d true s s' := by
  obtain ⟨j, hj, hat⟩ := h
  exact hat.mono hj.le

theorem mono (h : ρ.Past j d s s') (hj : j ≤ k) : ρ.Past k d s s' := by
  obtain ⟨i, hi, hat⟩ := h
  exact ⟨i, hi.trans_le hj, hat⟩

end Past

namespace Facing

variable {t : Token}

theorem current (h : ρ.Facing k d level t s s') : s.ahead[0]? = some t := by
  obtain ⟨ts, ts', hs, -⟩ := h.next
  rw [hs, List.getElem?_cons_zero]

theorem current' (h : ρ.Facing k d level t s s') : s'.ahead[0]? = some (ρ.token t) := by
  obtain ⟨ts, ts', -, hs', -⟩ := h.next
  rw [hs', List.getElem?_cons_zero]

theorem second_kind {kind : Kind} (h : ρ.Facing k d level t s s')
    (hkind : kind.isSeparator = false) :
    (s'.ahead[1]?.map (·.kind) == some kind) = (s.ahead[1]?.map (·.kind) == some kind) := by
  obtain ⟨ts, ts', hs, hs', n, -, hahead⟩ := h.next
  rw [hs, hs', List.getElem?_cons_succ, List.getElem?_cons_succ]
  exact hahead.head_kind hkind

theorem second_inside (h : ρ.Facing k d level t s s') (hd : 0 < (d.nest t.kind).brackets) :
    s'.ahead[1]?.map (·.kind) = s.ahead[1]?.map (·.kind) := by
  obtain ⟨ts, ts', hs, hs', n, -, hahead⟩ := h.next
  rw [hs, hs', List.getElem?_cons_succ, List.getElem?_cons_succ]
  change 0 < t.kind.nest d.brackets at hd
  generalize t.kind.nest d.brackets = e at hahead hd
  cases hahead with
  | nil => rfl
  | @token _ _ t =>
    rw [List.getElem?_cons_zero, List.getElem?_cons_zero, Option.map_some, Option.map_some,
      ρ.kind_token]
  | gap => exact absurd hd (Nat.lt_irrefl 0)

end Facing

theorem At.two_kinds {first second : Kind} (h : ρ.At k d level s s')
    (hfirst : first.isSeparator = false) (hsecond : second.isSeparator = false) :
    (s'.ahead[0]?.map (·.kind) == some first && s'.ahead[1]?.map (·.kind) == some second) =
      (s.ahead[0]?.map (·.kind) == some first && s.ahead[1]?.map (·.kind) == some second) := by
  rw [h.head_kind hfirst]
  cases hhead : s.ahead[0]?.map (·.kind) == some first with
  | false => rfl
  | true =>
    obtain ⟨t, -, ht⟩ := h.facing hfirst hhead
    rw [ht.second_kind hsecond]

end States

end Relayout

end Grammar

end MFile
