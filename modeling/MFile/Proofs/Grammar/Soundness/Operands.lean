import MFile.Proofs.Grammar.Soundness.Layout

/-!
Names are what they were read from: identifiers, placeholders, suffixes with their argument lists,
and the methods that `@` binds to a name. So are operands. In a literal the rows so far have the
layout of what has been passed, and a row end counts only between two elements.
-/

namespace MFile.Grammar.Parse

variable {inner : Parse Expr} {st st' : State}

/-! ## Names -/

theorem sound_identifier : Sound identifier Name.layout := by
  intro st n st' h
  obtain ⟨t, mid, hexpect, h⟩ := bind_ok h
  obtain ⟨site, last, hsite, h⟩ := bind_ok h
  obtain ⟨rfl, rfl⟩ := pure_ok h
  obtain ⟨hkind, hpass⟩ := expect_ok hexpect
  exact (Covers.terminal hpass (by rw [Token.mark?, hkind])).fresh (siteAt_ok hsite)

theorem keeps_dottedRound {start : State} : Keeps dottedRound
    (fun n s => Covers start n.layout s) fun n s => Covers start n.layout s := by
  intro n s r s' hn hround
  obtain ⟨atDot, s₁, hcheck, hround₁⟩ := bind_ok hround
  obtain ⟨kind, s₂, hpeek, hround₂⟩ := bind_ok hround₁
  obtain ⟨hdot, rfl⟩ := check_ok hcheck
  obtain ⟨-, rfl⟩ := peekKind?_ok hpeek
  split at hround₂
  · rename_i hboth
    obtain ⟨u, s₃, hadvance, hround₃⟩ := bind_ok hround₂
    obtain ⟨field, s₄, hfield, hround₄⟩ := bind_ok hround₃
    obtain ⟨site, s₅, hsite, hdone⟩ := bind_ok hround₄
    obtain ⟨rfl, rfl⟩ := pure_ok hdone
    simp only [hdot, Bool.and_eq_true, beq_iff_eq] at hboth
    obtain ⟨dot, hdotkind, hpass⟩ := advance_kind hboth.1 hadvance
    obtain ⟨hkind, hpass'⟩ := expect_ok hfield
    have hselect := (Covers.terminal hpass (by rw [Token.mark?, hdotkind])).append
      (Covers.terminal hpass' (by rw [Token.mark?, hkind]))
    exact (hn.append hselect).fresh (siteBetween_ok hsite)
  · obtain ⟨rfl, rfl⟩ := pure_ok hround₂
    exact hn

theorem sound_dottedName : Sound dottedName Name.layout := by
  intro st n st' h
  obtain ⟨first, mid, hfirst, hrounds⟩ := bind_ok h
  exact keeps_dottedRound.rounds (sound_identifier hfirst) hrounds

theorem covers_placeholder {t : Token} {n : Name} {mid : State}
    (ht : t.isOperator "~" = true) (hpass : st.Passes [t] mid)
    (h : placeholderOf t mid = .ok n st') : Covers st n.layout st' := by
  obtain ⟨site, last, hsite, hdone⟩ := bind_ok h
  obtain ⟨rfl, rfl⟩ := pure_ok hdone
  simp only [Token.isOperator, Bool.and_eq_true, beq_iff_eq] at ht
  refine (Covers.terminal hpass ?_).fresh (siteAt_ok hsite)
  rw [Token.mark?, ht.1, ht.2]
  rfl

/-! ## Arguments -/

theorem mark?_of_comma {t : Token} (h : t.kind = .comma) : t.mark? = none := by
  rw [Token.mark?, h]

theorem keeps_argumentsRound {close : Kind} {first : State} (hinner : Sound inner Expr.layout) :
    Keeps (argumentsRound inner close)
      (fun args s => args = [] ∧ s = first ∨ Covers first (layoutAll args) s)
      fun args s => ∃ closer last, closer.kind = close ∧ last.Passes [closer] s ∧
        Covers first (layoutAll args) last := by
  intro args s r s' hargs hround
  obtain ⟨e, s₁, he, hround₁⟩ := bind_ok hround
  have hmore : Covers first (layoutAll (args ++ [e])) s₁ := by
    rw [layoutAll_append, layoutAll, layoutAll, List.append_nil]
    rcases hargs with ⟨rfl, rfl⟩ | hargs
    · exact hinner he
    · exact hargs.append (hinner he)
  obtain ⟨found, s₂, heat, hround₂⟩ := bind_ok hround₁
  cases found with
  | some closer =>
    obtain ⟨hclose, hpass⟩ := eatIf_some heat
    obtain ⟨rfl, rfl⟩ := pure_ok hround₂
    exact ⟨closer, s₁, by simpa using hclose, hpass, hmore⟩
  | none =>
    obtain ⟨rfl, -⟩ := eatIf_none heat
    obtain ⟨found, s₃, hcomma, hround₃⟩ := bind_ok hround₂
    cases found with
    | some comma =>
      obtain ⟨hkind, hpass⟩ := eatIf_some hcomma
      obtain ⟨rfl, rfl⟩ := pure_ok hround₃
      exact Or.inr (hmore.before_silent hpass (mark?_of_comma (by simpa using hkind)))
    | none => exact absurd hround₃ unexpected_ok

theorem argumentsInside_ok {close : Kind} {args : List Expr} (hinner : Sound inner Expr.layout)
    (h : argumentsInside inner close st = .ok args st') :
    ∃ closer last, closer.kind = close ∧ last.Passes [closer] st' ∧
      (args = [] ∧ st.Passes [] last ∨ Covers st (layoutAll args) last) := by
  obtain ⟨found, mid, heat, h₁⟩ := bind_ok h
  cases found with
  | some closer =>
    obtain ⟨hclose, hpass⟩ := eatIf_some heat
    obtain ⟨rfl, rfl⟩ := pure_ok h₁
    exact ⟨closer, st, by simpa using hclose, hpass, Or.inl ⟨rfl, .refl _⟩⟩
  | none =>
    obtain ⟨rfl, -⟩ := eatIf_none heat
    obtain ⟨closer, last, hclose, hpass, hcovers⟩ :=
      (keeps_argumentsRound hinner).rounds (Or.inl ⟨rfl, rfl⟩) h₁
    exact ⟨closer, last, hclose, hpass, Or.inr hcovers⟩

theorem arguments_ok {close kind : Kind} {args : List Expr} (hinner : Sound inner Expr.layout)
    (hkind : st.ahead[0]?.map (·.kind) = some kind) (h : arguments inner close st = .ok args st') :
    ∃ opener closer first last, opener.kind = kind ∧ closer.kind = close ∧
      st.Passes [opener] first ∧ last.Passes [closer] st' ∧
      (args = [] ∧ first.Passes [] last ∨ Covers first (layoutAll args) last) := by
  obtain ⟨u, s₁, hadvance, h₁⟩ := bind_ok h
  obtain ⟨u', first, hdeeper, h₂⟩ := bind_ok h₁
  obtain ⟨args', s₂, hinside, h₃⟩ := bind_ok h₂
  obtain ⟨opener, hopener, hpass⟩ := advance_kind hkind hadvance
  obtain ⟨closer, last, hclose, hpass', hall⟩ := argumentsInside_ok hinner hinside
  cases h₃
  cases hdeeper
  exact ⟨opener, closer, { s₁ with indexDepth := s₁.indexDepth + 1 }, last, hopener, hclose,
    ⟨hpass.ahead, hpass.behind⟩, ⟨hpass'.ahead, hpass'.behind⟩, hall⟩

/-! ## Suffixes and names -/

theorem shows_arguments {first last : State} {args : List Expr}
    (h : args = [] ∧ first.Passes [] last ∨ Covers first (layoutAll args) last) :
    Shows .item first (layoutAll args) .item last ∧
      ∃ gap, Shows .start first (layoutAll args) gap last := by
  rcases h with ⟨rfl, hnone⟩ | hcovers
  · exact ⟨⟨[], hnone, .refl _⟩, .start, [], hnone, .refl _⟩
  · exact ⟨hcovers.shows .item, .item, hcovers.shows .start⟩

theorem suffix_ok {n : Name} {found : Option Name} (hinner : Sound inner Expr.layout)
    (h : suffix? inner n st = .ok found st') :
    found = none ∧ st' = st ∨ ∃ longer shown, found = some longer ∧
      longer.layout = n.layout ++ shown ∧ Shows .item st shown .item st' := by
  obtain ⟨kind, s₁, hpeek, h₁⟩ := bind_ok h
  obtain ⟨hkind, rfl⟩ := peekKind?_ok hpeek
  split at h₁
  · -- Parentheses show nothing, so the arguments go on where the name ends.
    obtain ⟨args, s₂, hargs, h₂⟩ := bind_ok h₁
    obtain ⟨site, s₃, hsite, h₃⟩ := bind_ok h₂
    cases h₃
    obtain ⟨opener, closer, first, last, ho, hc, hopen, hclose, hinside⟩ :=
      arguments_ok hinner hkind.symm hargs
    have hbefore := Shows.silent .item hopen (by rw [Token.mark?, ho])
    have hafter := Shows.silent .item hclose (by rw [Token.mark?, hc])
    have hall := (hbefore.trans (shows_arguments hinside).1).trans hafter
    rw [List.nil_append, List.append_nil] at hall
    exact Or.inr ⟨_, layoutAll args, rfl, rfl, hall.fresh (siteFrom_ok hsite)⟩
  · -- Braces are shown.
    obtain ⟨args, s₂, hargs, h₂⟩ := bind_ok h₁
    obtain ⟨site, s₃, hsite, h₃⟩ := bind_ok h₂
    cases h₃
    obtain ⟨opener, closer, first, last, ho, hc, hopen, hclose, hinside⟩ :=
      arguments_ok hinner hkind.symm hargs
    obtain ⟨gap, hshows⟩ := (shows_arguments hinside).2
    have hbraces := Covers.bracketed hopen (by rw [Token.mark?, ho]) hshows hclose
      (by rw [Token.mark?, hc])
    exact Or.inr ⟨_, _, rfl, rfl, (hbraces.fresh (siteFrom_ok hsite)).shows .item⟩
  · obtain ⟨u, s₂, hadvance, h₂⟩ := bind_ok h₁
    obtain ⟨dot, hdot, hpass⟩ := advance_kind hkind.symm hadvance
    have hselect := Covers.terminal hpass (by rw [Token.mark?, hdot])
    obtain ⟨found, s₃, heat, h₃⟩ := bind_ok h₂
    cases found with
    | some opener =>
      obtain ⟨field, s₄, hfield, h₄⟩ := bind_ok h₃
      obtain ⟨u', s₅, hexpect, h₅⟩ := bind_ok h₄
      obtain ⟨site, s₆, hsite, h₆⟩ := bind_ok h₅
      obtain ⟨closer, s₇, hcloser, h₇⟩ := bind_ok hexpect
      cases h₆
      cases h₇
      obtain ⟨hc, hclose⟩ := expect_ok hcloser
      obtain ⟨ho, hopen⟩ := eatIf_some heat
      have hbefore := hselect.before_silent hopen
        (by rw [Token.mark?, show opener.kind = .lparen by simpa using ho])
      have hfull := (hbefore.append (hinner.outsideIndex hfield)).before_silent hclose
        (by rw [Token.mark?, hc])
      exact Or.inr ⟨_, _, rfl, rfl, (hfull.fresh (siteFrom_ok hsite)).shows .item⟩
    | none =>
      obtain ⟨rfl, -⟩ := eatIf_none heat
      obtain ⟨field, s₄, hfield, h₄⟩ := bind_ok h₃
      obtain ⟨site, s₅, hsite, h₅⟩ := bind_ok h₄
      cases h₅
      obtain ⟨hkind', hpass'⟩ := expect_ok hfield
      have hall := hselect.append (Covers.terminal hpass' (by rw [Token.mark?, hkind']))
      exact Or.inr ⟨_, _, rfl, rfl, (hall.fresh (siteFrom_ok hsite)).shows .item⟩
  · cases h₁
    exact Or.inl ⟨rfl, rfl⟩

def methodsLayout : List Name → List Mark
  | [] => []
  | method :: methods => methodsLayout methods ++ method.layout ++ [.terminal (.sign .handle)]

theorem superclassChain_ok {methods : List Name} {last n : Name}
    (h : superclassChain methods last st = .ok n st') :
    st.Passes [] st' ∧ n.layout = methodsLayout methods ++ last.layout := by
  induction methods generalizing last st with
  | nil =>
    obtain ⟨rfl, rfl⟩ := pure_ok h
    exact ⟨.refl _, rfl⟩
  | cons method methods ih =>
    obtain ⟨site, mid, hsite, h₁⟩ := bind_ok h
    obtain ⟨hpass, hlayout⟩ := ih h₁
    refine ⟨(siteBetween_ok hsite).trans hpass, ?_⟩
    rw [hlayout, methodsLayout, Name.layout]
    simp only [List.append_assoc, List.singleton_append]

theorem keeps_methodsRound {start : State} : Keeps methodsRound
    (fun x s => Covers start (methodsLayout x.1 ++ x.2.layout) s)
    fun x s => Covers start (methodsLayout x.1 ++ x.2.layout) s := by
  rintro ⟨methods, last⟩ s r s' hcovers hround
  obtain ⟨atMark, s₁, hcheck, hround₁⟩ := bind_ok hround
  obtain ⟨kind, s₂, hpeek, hround₂⟩ := bind_ok hround₁
  obtain ⟨hmark, rfl⟩ := check_ok hcheck
  obtain ⟨-, rfl⟩ := peekKind?_ok hpeek
  split at hround₂
  · rename_i hboth
    obtain ⟨u, s₃, hadvance, hround₃⟩ := bind_ok hround₂
    obtain ⟨next, s₄, hnext, hdone⟩ := bind_ok hround₃
    obtain ⟨rfl, rfl⟩ := pure_ok hdone
    simp only [hmark, Bool.and_eq_true, beq_iff_eq] at hboth
    obtain ⟨mark, hkind, hpass⟩ := advance_kind hboth.1 hadvance
    have hbound := hcovers.append (Covers.terminal hpass (by rw [Token.mark?, hkind]))
    exact hbound.append (sound_identifier hnext)
  · obtain ⟨rfl, rfl⟩ := pure_ok hround₂
    exact hcovers

theorem keeps_suffixRound {start : State} {shown : List Mark} (hinner : Sound inner Expr.layout) :
    Keeps (suffixRound inner) (fun n s => Covers start (shown ++ n.layout) s)
      fun n s => Covers start (shown ++ n.layout) s := by
  intro n s r s' hcovers hround
  obtain ⟨found, s₁, hsuffix, hround₁⟩ := bind_ok hround
  rcases suffix_ok hinner hsuffix with ⟨rfl, rfl⟩ | ⟨longer, more, rfl, hlayout, hshows⟩
  · obtain ⟨rfl, rfl⟩ := pure_ok hround₁
    exact hcovers
  · obtain ⟨rfl, rfl⟩ := pure_ok hround₁
    change Covers start (shown ++ longer.layout) _
    rw [hlayout, ← List.append_assoc]
    exact hcovers.next hshows

theorem sound_name (hinner : Sound inner Expr.layout) : Sound (name inner) Name.layout := by
  intro st n st' h
  obtain ⟨first, s₁, hfirst, h₁⟩ := bind_ok h
  obtain ⟨⟨methods, head⟩, s₂, hmethods, h₂⟩ := bind_ok h₁
  obtain ⟨last, s₃, hlast, h₃⟩ := bind_ok h₂
  have hhead := keeps_methodsRound.rounds (a := ([], first)) (sound_identifier hfirst) hmethods
  have hall := (keeps_suffixRound hinner).rounds hhead hlast
  obtain ⟨hpass, hlayout⟩ := superclassChain_ok h₃
  rw [hlayout]
  exact hall.fresh hpass

/-! ## Rows -/

namespace RowsSoFar

/-- The rows that have ended and the elements of the one that has not. -/
def layout (soFar : RowsSoFar) : List Mark :=
  match soFar.items with
  | [] => layoutRows soFar.rows
  | items => layoutRows soFar.rows ++ ((Gap.afterRows soFar.rows).lead ++ layoutAll items)

def gap (soFar : RowsSoFar) : Gap :=
  match soFar.items with
  | [] => .afterRows soFar.rows
  | _ => .item

theorem shows_item {first : State} {soFar : RowsSoFar} {e : Expr} (afterItem : Bool)
    (h : Shows .start first soFar.layout soFar.gap st) (he : Covers st e.layout st') :
    let more : RowsSoFar := ⟨soFar.rows, soFar.items ++ [e], afterItem⟩
    Shows .start first more.layout more.gap st' := by
  obtain ⟨rows, items, _⟩ := soFar
  have hall := h.trans (he.shows _)
  cases items with
  | nil =>
    simpa only [layout, gap, List.nil_append, layoutAll, List.append_nil] using hall
  | cons item items =>
    simpa only [layout, gap, List.cons_append, layoutAll, layoutAll_append, List.append_nil,
      List.append_assoc, Gap.lead, List.nil_append] using hall

end RowsSoFar

theorem finishRow_ok {rows all : List Row} {items : List Expr}
    (h : finishRow rows items st = .ok all st') :
    st.Passes [] st' ∧ (items = [] ∧ all = rows ∨
      items ≠ [] ∧ ∃ site, all = rows ++ [⟨site, items⟩]) := by
  cases items with
  | nil =>
    obtain ⟨rfl, rfl⟩ := pure_ok h
    exact ⟨.refl _, Or.inl ⟨rfl, rfl⟩⟩
  | cons item items =>
    obtain ⟨site, mid, hsite, hdone⟩ := bind_ok h
    obtain ⟨rfl, rfl⟩ := pure_ok hdone
    exact ⟨siteBetween_ok hsite, Or.inr ⟨List.cons_ne_nil _ _, site, rfl⟩⟩

theorem shows_rowEnd {first mid : State} {soFar : RowsSoFar} {t : Token} {all : List Row}
    (h : Shows .start first soFar.layout soFar.gap st) (hpass : st.Passes [t] mid)
    (ht : t.mark? = some .rowEnd) (hfinish : finishRow soFar.rows soFar.items mid = .ok all st') :
    Shows .start first (layoutRows all) (.afterRows all) st' := by
  obtain ⟨hfresh, hall⟩ := finishRow_ok hfinish
  have hended := (h.trans ⟨[t], hpass, .rowEnd _ ht⟩).fresh hfresh
  obtain ⟨rows, items, _⟩ := soFar
  rw [List.append_nil] at hended
  rcases hall with ⟨rfl, rfl⟩ | ⟨hne, site, rfl⟩
  · cases all <;> exact hended
  · obtain ⟨item, items, rfl⟩ := List.exists_cons_of_ne_nil hne
    rw [layoutRows_append]
    cases rows <;> exact hended

theorem shows_close {first mid : State} {soFar : RowsSoFar} {all : List Row}
    (h : Shows .start first soFar.layout soFar.gap mid)
    (hfinish : finishRow soFar.rows soFar.items st = .ok all st') :
    ∃ gap, Shows .start first (layoutRows all) gap mid := by
  obtain ⟨-, hall⟩ := finishRow_ok hfinish
  obtain ⟨rows, items, _⟩ := soFar
  rcases hall with ⟨rfl, rfl⟩ | ⟨hne, site, rfl⟩
  · exact ⟨_, h⟩
  · obtain ⟨item, items, rfl⟩ := List.exists_cons_of_ne_nil hne
    rw [layoutRows_append]
    exact ⟨_, h⟩

theorem keeps_rowsRound {close : Kind} {placeholders : Bool} {first : State}
    (hinner : Sound inner Expr.layout) : Keeps (rowsRound inner close placeholders)
      (fun soFar s => Shows .start first soFar.layout soFar.gap s)
      fun all s => ∃ closer last gap, closer.kind = close ∧
        Shows .start first (layoutRows all) gap last ∧ last.Passes [closer] s := by
  intro soFar st r st' hshows h
  obtain ⟨found, s₁, hcurrent, h₁⟩ := bind_ok h
  obtain ⟨hhead, rfl⟩ := current?_ok hcurrent
  cases found with
  | none => exact absurd h₁ unexpected_ok
  | some t =>
    simp only at h₁
    split at h₁
    · -- The closing bracket finishes the last row.
      rename_i hclose
      obtain ⟨u, s₂, hadvance, h₂⟩ := bind_ok h₁
      obtain ⟨all, s₃, hfinish, h₃⟩ := bind_ok h₂
      obtain ⟨rfl, rfl⟩ := pure_ok h₃
      obtain ⟨gap, hall⟩ := shows_close hshows hfinish
      have hpass := (advance_ok hhead.symm hadvance).trans (finishRow_ok hfinish).1
      exact ⟨t, s₁, gap, hclose, hall, hpass⟩
    split at h₁
    · -- A semicolon or a line break may stand before any element, or there may be several.
      rename_i hend
      obtain ⟨u, s₂, hadvance, h₂⟩ := bind_ok h₁
      obtain ⟨all, s₃, hfinish, h₃⟩ := bind_ok h₂
      obtain ⟨rfl, rfl⟩ := pure_ok h₃
      have hmark : t.mark? = some .rowEnd := by
        rcases hend with hkind | hkind <;> rw [Token.mark?, hkind]
      exact shows_rowEnd hshows (advance_ok hhead.symm hadvance) hmark hfinish
    split at h₁
    · rename_i hcomma
      obtain ⟨u, s₂, hadvance, h₂⟩ := bind_ok h₁
      obtain ⟨rfl, rfl⟩ := pure_ok h₂
      have hsame := hshows.trans
        (Shows.silent _ (advance_ok hhead.symm hadvance) (mark?_of_comma hcomma))
      rwa [List.append_nil] at hsame
    split at h₁
    · exact absurd h₁ unexpected_ok
    obtain ⟨next, s₂, hpeek, h₂⟩ := bind_ok h₁
    obtain ⟨-, rfl⟩ := peekKind?_ok hpeek
    split at h₂
    · -- The placeholder is an operator among the tokens.
      rename_i hplaceholder
      obtain ⟨u, s₃, hadvance, h₃⟩ := bind_ok h₂
      obtain ⟨item, s₄, hitem, h₄⟩ := bind_ok h₃
      obtain ⟨rfl, rfl⟩ := pure_ok h₄
      have hop : t.isOperator "~" = true := by
        simp only [Bool.and_eq_true] at hplaceholder
        exact hplaceholder.1.2
      exact RowsSoFar.shows_item true hshows
        (covers_placeholder hop (advance_ok hhead.symm hadvance) hitem)
    · obtain ⟨item, s₃, hitem, h₃⟩ := bind_ok h₂
      obtain ⟨rfl, rfl⟩ := pure_ok h₃
      exact RowsSoFar.shows_item true hshows (hinner hitem)

theorem rows_ok {close kind : Kind} {all : List Row} {place : Location}
    (hinner : Sound inner Expr.layout) (hkind : st.ahead[0]?.map (·.kind) = some kind)
    (h : rows inner close st = .ok (all, place) st') :
    ∃ opener closer first last gap, opener.kind = kind ∧ closer.kind = close ∧
      st.Passes [opener] first ∧ Shows .start first (layoutRows all) gap last ∧
      last.Passes [closer] st' := by
  obtain ⟨start, s₁, hhere, h₁⟩ := bind_ok h
  obtain ⟨u, s₂, hadvance, h₂⟩ := bind_ok h₁
  obtain ⟨s₃, s₄, hget, h₃⟩ := bind_ok h₂
  obtain ⟨u', first, hmodify, h₄⟩ := bind_ok h₃
  obtain ⟨all', s₅, hrounds, h₅⟩ := bind_ok h₄
  obtain ⟨place', s₆, hspan, h₆⟩ := bind_ok h₅
  obtain rfl := here_ok hhere
  obtain ⟨opener, hopener, hpass⟩ := advance_kind hkind hadvance
  cases hget
  cases hmodify
  cases hspan
  cases h₆
  obtain ⟨closer, last, gap, hcloser, hshows, hclose⟩ :=
    (keeps_rowsRound hinner).rounds ⟨[], .refl _, .refl _⟩ hrounds
  exact ⟨opener, closer, { s₂ with placeholders := false }, last, gap, hopener, hcloser,
    ⟨hpass.ahead, hpass.behind⟩, hshows, hclose⟩

/-! ## Operands -/

theorem keeps_parametersRound {start : State} : Keeps parametersRound
    (fun names s => Shows .item start (layoutNames names) .item s)
    fun names s => Shows .item start (layoutNames names) .item s := by
  intro names st r st' hshows h
  have hmore : ∀ {n : Name} {mid : State}, Covers st n.layout mid →
      Shows .item start (layoutNames (names ++ [n])) .item mid := by
    intro n mid hn
    rw [layoutNames_append, layoutNames, layoutNames, List.append_nil]
    exact hshows.trans (hn.shows .item)
  obtain ⟨found, s₁, hcurrent, h₁⟩ := bind_ok h
  obtain ⟨hhead, rfl⟩ := current?_ok hcurrent
  cases found with
  | none => exact absurd h₁ unexpected_ok
  | some t =>
    simp only at h₁
    generalize hkind : t.kind = kind at h₁
    split at h₁
    · obtain ⟨u, s₂, hadvance, h₂⟩ := bind_ok h₁
      obtain ⟨rfl, rfl⟩ := pure_ok h₂
      have hsame := hshows.trans
        (Shows.silent _ (advance_ok hhead.symm hadvance) (by rw [Token.mark?, hkind]))
      rwa [List.append_nil] at hsame
    · obtain ⟨u, s₂, hadvance, h₂⟩ := bind_ok h₁
      obtain ⟨rfl, rfl⟩ := pure_ok h₂
      have hsame := hshows.trans
        (Shows.silent _ (advance_ok hhead.symm hadvance) (mark?_of_comma hkind))
      rwa [List.append_nil] at hsame
    · obtain ⟨n, s₂, hn, h₂⟩ := bind_ok h₁
      obtain ⟨rfl, rfl⟩ := pure_ok h₂
      exact hmore (sound_identifier hn)
    · split at h₁
      · rename_i hraw
        obtain ⟨u, s₂, hadvance, h₂⟩ := bind_ok h₁
        obtain ⟨n, s₃, hn, h₃⟩ := bind_ok h₂
        obtain ⟨rfl, rfl⟩ := pure_ok h₃
        have hop : t.isOperator "~" = true := by
          rw [Token.isOperator, hkind, hraw]
          rfl
        exact hmore (covers_placeholder hop (advance_ok hhead.symm hadvance) hn)
      · exact absurd h₁ unexpected_ok
    · exact absurd h₁ unexpected_ok

theorem covers_handle {mark : Token} {mid : State} {e : Expr} (hinner : Sound inner Expr.layout)
    (hmark : mark.kind = .handle) (hpass : st.Passes [mark] mid)
    (h : handle inner mark mid = .ok e st') : Covers st e.layout st' := by
  have hstart := Covers.terminal hpass (by rw [Token.mark?, hmark])
  obtain ⟨found, s₁, heat, h₁⟩ := bind_ok h
  cases found with
  | some opener =>
    obtain ⟨hopener, hopen⟩ := eatIf_some heat
    obtain ⟨params, s₂, hparams, h₂⟩ := bind_ok h₁
    obtain ⟨body, s₃, hbody, h₃⟩ := bind_ok h₂
    obtain ⟨site, s₄, hsite, h₄⟩ := bind_ok h₃
    obtain ⟨rfl, rfl⟩ := pure_ok h₄
    have hnames := keeps_parametersRound.rounds ⟨[], .refl _, .refl _⟩ hparams
    have hbefore := hstart.before_silent hopen
      (by rw [Token.mark?, show opener.kind = .lparen by simpa using hopener])
    exact ((hbefore.next hnames).append (hinner.outsideIndex hbody)).fresh (siteBetween_ok hsite)
  | none =>
    obtain ⟨rfl, -⟩ := eatIf_none heat
    obtain ⟨n, s₂, hn, h₂⟩ := bind_ok h₁
    obtain ⟨site, s₃, hsite, h₃⟩ := bind_ok h₂
    obtain ⟨rfl, rfl⟩ := pure_ok h₃
    exact (hstart.append (sound_dottedName hn)).fresh (siteBetween_ok hsite)

theorem layout_atom {inIndex : Bool} {t : Token} {next : Option Kind} {make : Site → Expr}
    (h : atom? inIndex t next = some make) (site : Site) :
    ∃ x, t.mark? = some (.terminal x) ∧ (make site).layout = [.terminal x] := by
  rw [atom?] at h
  split at h
  · rename_i hkind
    cases h
    exact ⟨.number t.raw, by rw [Token.mark?, hkind], rfl⟩
  · rename_i hkind
    cases h
    exact ⟨.charArray t.value, by rw [Token.mark?, hkind], rfl⟩
  · rename_i hkind
    cases h
    exact ⟨.string t.value, by rw [Token.mark?, hkind], rfl⟩
  · rename_i hkind
    split at h
    · rename_i hend
      cases h
      exact ⟨.keyword "end", by rw [Token.mark?, hkind, hend.1], rfl⟩
    · cases h
  · rename_i hkind
    split at h
    · cases h
      exact ⟨.sign .colon, by rw [Token.mark?, hkind], rfl⟩
    · cases h
  · cases h

theorem covers_rows {close kind : Kind} {all : List Row} {place : Location}
    (hinner : Sound inner Expr.layout) (hkind : st.ahead[0]?.map (·.kind) = some kind)
    (hopen : kind = .lbracket ∨ kind = .lbrace) (hclose : close = .rbracket ∨ close = .rbrace)
    (h : rows inner close st = .ok (all, place) st') :
    Covers st (.opening kind :: layoutRows all ++ [.closing close]) st' := by
  obtain ⟨opener, closer, first, last, gap, ho, hc, hpass, hshows, hpass'⟩ :=
    rows_ok hinner hkind h
  refine Covers.bracketed hpass ?_ hshows hpass' ?_
  · rcases hopen with rfl | rfl <;> rw [Token.mark?, ho]
  · rcases hclose with rfl | rfl <;> rw [Token.mark?, hc]

theorem sound_operand (hinner : Sound inner Expr.layout) : Sound (operand inner) Expr.layout := by
  intro st e st' h
  obtain ⟨found, s₁, hcurrent, h₁⟩ := bind_ok h
  obtain ⟨hhead, rfl⟩ := current?_ok hcurrent
  cases found with
  | none => exact absurd h₁ unexpected_ok
  | some t =>
    obtain ⟨s₂, s₃, hget, h₂⟩ := bind_ok h₁
    cases hget
    obtain ⟨next, s₄, hpeek, h₃⟩ := bind_ok h₂
    obtain ⟨-, rfl⟩ := peekKind?_ok hpeek
    have hfirst : ∀ {kind : Kind}, t.kind = kind → s₄.ahead[0]?.map (·.kind) = some kind := by
      intro kind hkind
      rw [← List.head?_eq_getElem?, ← hhead, Option.map_some, hkind]
    cases hatom : atom? (decide (0 < s₄.indexDepth)) t next with
    | some make =>
      rw [hatom] at h₃
      obtain ⟨u, s₅, hadvance, h₄⟩ := bind_ok h₃
      obtain ⟨site, s₆, hsite, h₅⟩ := bind_ok h₄
      obtain ⟨rfl, rfl⟩ := pure_ok h₅
      obtain ⟨x, hmark, hlayout⟩ := layout_atom hatom site
      rw [hlayout]
      exact (Covers.terminal (advance_ok hhead.symm hadvance) hmark).fresh (siteAt_ok hsite)
    | none =>
      rw [hatom] at h₃
      simp only [compound] at h₃
      generalize hkind : t.kind = kind at h₃
      split at h₃
      · obtain ⟨n, s₅, hn, h₄⟩ := bind_ok h₃
        obtain ⟨rfl, rfl⟩ := pure_ok h₄
        exact sound_name hinner hn
      · obtain ⟨u, s₅, hadvance, h₄⟩ := bind_ok h₃
        obtain ⟨e', s₆, he, h₅⟩ := bind_ok h₄
        obtain ⟨u', s₇, hdiscard, h₆⟩ := bind_ok h₅
        obtain ⟨closer, s₈, hexpect, h₇⟩ := bind_ok hdiscard
        obtain ⟨rfl, rfl⟩ := pure_ok h₆
        obtain ⟨-, rfl⟩ := pure_ok h₇
        obtain ⟨hclose, hpass⟩ := expect_ok hexpect
        have hopened := Covers.after_silent (advance_ok hhead.symm hadvance)
          (by rw [Token.mark?, hkind]) (hinner he)
        exact hopened.before_silent hpass (by rw [Token.mark?, hclose])
      · obtain ⟨⟨all, place⟩, s₅, hrows, h₄⟩ := bind_ok h₃
        obtain ⟨site, s₆, hsite, h₅⟩ := bind_ok h₄
        obtain ⟨rfl, rfl⟩ := pure_ok h₅
        exact (covers_rows hinner (hfirst hkind) (Or.inl rfl) (Or.inl rfl) hrows).fresh
          (siteAt_ok hsite)
      · obtain ⟨⟨all, place⟩, s₅, hrows, h₄⟩ := bind_ok h₃
        obtain ⟨site, s₆, hsite, h₅⟩ := bind_ok h₄
        obtain ⟨rfl, rfl⟩ := pure_ok h₅
        exact (covers_rows hinner (hfirst hkind) (Or.inr rfl) (Or.inr rfl) hrows).fresh
          (siteAt_ok hsite)
      · obtain ⟨u, s₅, hadvance, h₄⟩ := bind_ok h₃
        exact covers_handle hinner hkind (advance_ok hhead.symm hadvance) h₄
      · obtain ⟨u, s₅, hadvance, h₄⟩ := bind_ok h₃
        obtain ⟨n, s₆, hn, h₅⟩ := bind_ok h₄
        obtain ⟨site, s₇, hsite, h₆⟩ := bind_ok h₅
        obtain ⟨rfl, rfl⟩ := pure_ok h₆
        have hmark := Covers.terminal (advance_ok hhead.symm hadvance)
          (by rw [Token.mark?, hkind])
        exact (hmark.append (sound_dottedName hn)).fresh (siteBetween_ok hsite)
      · exact absurd h₃ unexpected_ok

end MFile.Grammar.Parse
