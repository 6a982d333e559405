import MFile.Proofs.Grammar.Relayout.Repeats

/-! Names and expressions on another layout. -/

namespace MFile.Grammar

open Parse

namespace Relayout

variable {ρ : Relayout} {k : Nat} {d : Depths} {level : Bool} {s s' : State} {t : Token}

theorem repeats_identifierOf (h : ρ.At k d level s s') (ht : t.kind = .identifier) :
    ρ.Repeats (identifierOf t) s (identifierOf (ρ.token t)) s'
      fun n n' u u' => ρ.At k d level u u' ∧ n' = n.relocate ρ.place := by
  rw [identifierOf, identifierOf, ρ.location_token, ρ.raw_of_kind ht rfl]
  exact h.siteAt fun site u u' hu => .pure ⟨hu, rfl⟩

theorem reads_identifier : ρ.Reads k identifier identifier (Name.relocate ρ.place) := by
  intro j d level s s' _ _ hs
  refine hs.expect (.inr rfl) fun t u u' i ht hi hu => (repeats_identifierOf hu ht).mono ?_
  rintro n _ v v' ⟨hv, hn⟩
  exact ⟨⟨i, hi, hv⟩, hn⟩

theorem repeats_placeholderOf (h : ρ.At k d level s s') :
    ρ.Repeats (placeholderOf t) s (placeholderOf (ρ.token t)) s'
      fun n n' u u' => ρ.At k d level u u' ∧ n' = n.relocate ρ.place := by
  rw [placeholderOf, placeholderOf, ρ.location_token]
  exact h.siteAt fun site u u' hu => .pure ⟨hu, rfl⟩

theorem reads_dottedName : ρ.Reads k dottedName dottedName (Name.relocate ρ.place) := by
  intro j d level s s' hj hd hs
  refine (reads_identifier hj hd hs).done fun n t t' i hi ht => ht.rounds fun i' hi' n t t' ht => ?_
  refine .check (.peekKind? ?_)
  rw [ht.two_kinds rfl rfl]
  split
  · rename_i hcond
    obtain ⟨dot, hdot, hfacing⟩ := ht.facing rfl (Bool.and_eq_true_iff.1 hcond).1
    refine hfacing.advance fun u u' m hm hu => ?_
    rw [hdot] at hu
    refine hu.expect (.inr rfl) fun field v v' m' hfield hm' hv => ?_
    rw [Name.site_relocate, Site.relocate_location, ρ.location_token, ρ.raw_of_kind hfield rfl]
    exact hv.siteBetween fun site w w' hw => .pure ⟨⟨m', hm'.trans hm, hw⟩, rfl⟩
  · exact .pure ⟨⟨i', hi'.trans_lt hi, ht⟩, rfl⟩

theorem repeats_parameters (hd : d.Sound) (h : ρ.At k d.deeper true s s') :
    ρ.Repeats parameters s parameters s' (ρ.Done k d (List.map (Name.relocate ρ.place))) := by
  refine h.rounds (F := List.map (Name.relocate ρ.place)) (a := []) fun j hj names t t' ht =>
    .current? ?_
  obtain ⟨hs, hs'⟩ | ⟨next, hnext⟩ := ht.inside (Nat.succ_pos _)
  · rw [hs, hs']
    exact ht.unexpected
  rw [hnext.current, hnext.current']
  dsimp only
  rw [ρ.kind_token]
  cases hk : next.kind
  case rparen =>
    refine hnext.advance fun u u' i hi hu => .pure ?_
    rw [hk] at hu
    exact ⟨⟨i, hi.trans_le hj, hu⟩, rfl⟩
  case comma =>
    refine hnext.advance fun u u' i hi hu => .pure ?_
    rw [hk] at hu
    exact ⟨⟨i, hi, hu⟩, rfl⟩
  case identifier =>
    refine (reads_identifier (Nat.lt_succ_self j) hd.deeper ht).done fun n u u' i hi hu => .pure ?_
    exact ⟨⟨i, hi, hu⟩, by rw [List.map_append]; rfl⟩
  case operator =>
    dsimp only
    rw [ρ.raw_of_kind hk rfl]
    split
    · refine hnext.advance fun u u' i hi hu => (repeats_placeholderOf hu).bind ?_
      rintro n _ v v' ⟨hv, rfl⟩
      rw [hk] at hv
      exact .pure ⟨⟨i, hi, hv⟩, by rw [List.map_append]; rfl⟩
    · exact ht.unexpected
  all_goals exact ht.unexpected

/-! ## Arguments and suffixes -/

section Inner

variable {inner inner' : Parse Expr} (hinner : ρ.Reads k inner inner' (Expr.relocate ρ.place))

include hinner

theorem repeats_argumentsInside {close : Kind} (hclose : close.isClosing = true) {j : Nat}
    (hj : j < k) (hd : d.deeper.Sound) (h : ρ.At j d.deeper true s s') :
    ρ.Repeats (argumentsInside inner close) s (argumentsInside inner' close) s'
      (ρ.Done j d (List.map (Expr.relocate ρ.place))) := by
  have hsep : close.isSeparator = false := by cases close <;> first | rfl | cases hclose
  refine h.eat (.inr hsep) (fun _ u u' i _ hi hu => .pure ?_) ?_
  · rw [Depths.nest_closing hclose] at hu
    exact ⟨⟨i, hi, hu⟩, rfl⟩
  refine h.rounds (F := List.map (Expr.relocate ρ.place)) (a := []) fun i hi es t t' ht => ?_
  refine (hinner (hi.trans_lt hj) hd ht).done fun e u u' m hm hu => ?_
  refine hu.eat (.inr hsep) (fun _ v v' n _ hn hv => .pure ?_) ?_
  · rw [Depths.nest_closing hclose] at hv
    exact ⟨⟨n, by omega, hv⟩, by rw [List.map_append]; rfl⟩
  refine hu.eat (.inl (Nat.succ_pos _)) (fun _ v v' n _ hn hv => .pure ?_) ?_
  · exact ⟨⟨n, hn.trans hm, hv⟩, by rw [List.map_append]; rfl⟩
  · exact hu.unexpected

theorem repeats_arguments {close : Kind} (h : ρ.Facing k d level t s s')
    (hopen : t.kind.isOpening = true) (hclose : close.isClosing = true) (hd : d.Sound) :
    ρ.Repeats (arguments inner close) s (arguments inner' close) s'
      (ρ.Done k d (List.map (Expr.relocate ρ.place))) := by
  refine h.advance fun u u' j hj hu => ?_
  rw [Depths.nest_opening hopen] at hu
  refine hu.reindexed (· + 1) fun v v' hv => ?_
  refine (repeats_argumentsInside (d := d.indexed) hinner hclose hj hd.indexed hv).done
    fun es w w' i hi hw => ?_
  exact hw.reindexed (· - 1) (f := fun _ => pure es)
    (g := fun _ => pure (es.map (Expr.relocate ρ.place))) fun x x' hx =>
      .pure ⟨⟨i, hi.trans hj, hx⟩, rfl⟩

theorem repeats_suffix? {j : Nat} (hj : j ≤ k) (hd : d.Sound) (n : Name)
    (h : ρ.At j d true s s') :
    ρ.Repeats (suffix? inner n) s (suffix? inner' (n.relocate ρ.place)) s'
      fun m m' t t' => m' = m.map (Name.relocate ρ.place) ∧
        ρ.At j d true t t' ∧ (m.isSome = true → ρ.Past j d t t') := by
  rw [suffix?, suffix?]
  refine .peekKind? ?_
  obtain ⟨hs, hs'⟩ | ⟨t, ht⟩ | hgap := h.view
  · rw [hs, hs']
    exact .pure ⟨rfl, h, nofun⟩
  · rw [ht.current, ht.current', Option.map_some, Option.map_some, ρ.kind_token, Name.site_relocate,
      Site.relocate_location]
    cases hk : t.kind
    case lparen =>
      refine (repeats_arguments (hinner.fewer hj) ht (by rw [hk]; rfl) rfl hd).done
        fun es u u' i hi hu => ?_
      refine hu.siteFrom fun site v v' hv => .pure ⟨?_, hv.mono hi.le, fun _ => ⟨i, hi, hv⟩⟩
      simp
    case lbrace =>
      refine (repeats_arguments (hinner.fewer hj) ht (by rw [hk]; rfl) rfl hd).done
        fun es u u' i hi hu => ?_
      refine hu.siteFrom fun site v v' hv => .pure ⟨?_, hv.mono hi.le, fun _ => ⟨i, hi, hv⟩⟩
      simp
    case selection =>
      refine ht.advance fun u u' i hi hu => ?_
      rw [hk] at hu
      refine hu.eat (.inr rfl) (fun _ v v' m _ hm hv => ?_) ?_
      · refine (hv.outsideIndex (by omega) hinner).done fun field w w' l hl hw => ?_
        refine hw.discardExpect (.inr rfl) fun x x' l' hl' hx => ?_
        refine hx.siteFrom fun site y y' hy => .pure ⟨by simp, hy.mono (by omega), fun _ => ?_⟩
        exact ⟨l', by omega, hy⟩
      · refine hu.expect (.inr rfl) fun field v v' m hfield hm hv => ?_
        rw [ρ.raw_of_kind hfield rfl]
        refine hv.siteFrom fun site w w' hw => .pure ⟨by simp, hw.mono (by omega), fun _ => ?_⟩
        exact ⟨m, by omega, hw⟩
    all_goals exact .pure ⟨rfl, h, nofun⟩
  · obtain ⟨t, t', ts, ts', hs, hs', ht, ht'⟩ := hgap.next
    rw [hs, hs', List.getElem?_cons_zero, List.getElem?_cons_zero, Option.map_some, Option.map_some]
    obtain hk | hk | hk := Kind.isSeparator_iff.1 ht <;>
      obtain hk' | hk' | hk' := Kind.isSeparator_iff.1 ht' <;>
        rw [hk, hk'] <;> exact .pure ⟨rfl, h, nofun⟩

end Inner

theorem repeats_superclassChain (methods : List Name) (n : Name) (h : ρ.At k d level s s') :
    ρ.Repeats (superclassChain methods n) s
      (superclassChain (methods.map (Name.relocate ρ.place)) (n.relocate ρ.place)) s'
      fun m m' t t' => ρ.At k d level t t' ∧ m' = m.relocate ρ.place := by
  induction methods generalizing n s s' with
  | nil => exact .pure ⟨h, rfl⟩
  | cons method methods ih =>
    rw [List.map_cons, superclassChain, superclassChain, Name.site_relocate, Name.site_relocate,
      Site.relocate_location, Site.relocate_location]
    exact h.siteBetween fun site t t' ht => ih (.superclass site method n) ht

theorem repeats_methods (first : Name) (hd : d.Sound) (h : ρ.At k d true s s') :
    ρ.Repeats (rounds ([], first) methodsRound) s
      (rounds ([], first.relocate ρ.place) methodsRound) s'
      (ρ.Stay k d (Prod.map (List.map (Name.relocate ρ.place)) (Name.relocate ρ.place))) := by
  refine h.rounds (F := Prod.map (List.map (Name.relocate ρ.place)) (Name.relocate ρ.place))
    (a := ([], first)) fun j hj names t t' ht => ?_
  obtain ⟨methods, last⟩ := names
  refine .check (.peekKind? ?_)
  rw [ht.two_kinds rfl rfl]
  split
  · rename_i hcond
    obtain ⟨mark, hmark, hfacing⟩ := ht.facing rfl (Bool.and_eq_true_iff.1 hcond).1
    refine hfacing.advance fun u u' i hi hu => ?_
    rw [hmark] at hu
    refine (reads_identifier (Nat.lt_succ_self i) hd hu).done fun n v v' m hm hv => .pure ?_
    exact ⟨⟨m, hm.trans hi, hv⟩, rfl⟩
  · exact .pure ⟨ht.mono hj, rfl⟩

theorem reads_name {inner inner' : Parse Expr}
    (hinner : ρ.Reads k inner inner' (Expr.relocate ρ.place)) :
    ρ.Reads (k + 1) (name inner) (name inner') (Name.relocate ρ.place) := by
  intro j d level s s' hj hd hs
  refine (reads_identifier (Nat.lt_succ_self j) hd hs).done fun first t t' i hi ht => ?_
  refine (repeats_methods first hd ht).stay fun names u u' hu => ?_
  obtain ⟨methods, last⟩ := names
  have hsuffixes : ρ.Repeats (rounds last (suffixRound inner)) u
      (rounds (last.relocate ρ.place) (suffixRound inner')) u'
      (ρ.Stay i d (Name.relocate ρ.place)) := by
    refine hu.rounds fun m hm n v v' hv => ?_
    refine (repeats_suffix? hinner (by omega) hd n hv).bind ?_
    rintro longer _ w w' ⟨rfl, hw, hpast⟩
    cases longer with
    | some longer => exact .pure ⟨hpast rfl, rfl⟩
    | none => exact .pure ⟨hw.mono hm, rfl⟩
  refine hsuffixes.stay fun n v v' hv => (repeats_superclassChain methods n hv).mono ?_
  rintro m _ w w' ⟨hw, hm⟩
  exact ⟨⟨i, hi, hw⟩, hm⟩

variable {j : Nat} {inner inner' p p' : Parse Expr}

/-! ## Rows -/

theorem repeats_finishRow (rows : List Row) (items : List Expr) (h : ρ.At k d true s s') :
    ρ.Repeats (finishRow rows items) s
      (finishRow (rows.map (Row.relocate ρ.place)) (items.map (Expr.relocate ρ.place))) s'
      (ρ.Stay k d (List.map (Row.relocate ρ.place))) := by
  cases items with
  | nil => exact .pure ⟨h, rfl⟩
  | cons first rest =>
    have hlast : (rest.map (Expr.relocate ρ.place)).getLastD (first.relocate ρ.place) =
        (rest.getLastD first).relocate ρ.place := by
      rw [List.getLastD_eq_getLast?, List.getLastD_eq_getLast?, List.getLast?_map]
      cases rest.getLast? <;> rfl
    rw [List.map_cons, finishRow, finishRow, hlast, Expr.site_relocate, Expr.site_relocate,
      Site.relocate_location, Site.relocate_location]
    exact h.siteBetween fun site u u' hu => .pure ⟨hu, by simp⟩


def relocateSoFar (place : Location → Location) (r : RowsSoFar) : RowsSoFar :=
  ⟨r.rows.map (Row.relocate place), r.items.map (Expr.relocate place), r.afterItem⟩

theorem separator_operand {inIndex : Bool} {next : Option Kind} {e : Expr} {st st' : State}
    (ht : t.isSeparator = true) :
    (match atom? inIndex t next with
      | some make => do
        advance
        return make (← siteAt t.location)
      | none => compound inner t) st ≠ .ok e st' := by
  unfold atom? compound
  obtain hk | hk | hk := Kind.isSeparator_iff.1 ht <;> rw [hk] <;> exact unexpected_ok

section Inner

variable (hinner : ρ.Reads k inner inner' (Expr.relocate ρ.place))

include hinner

theorem repeats_rowsRound {close : Kind} (hclose : close.isClosing = true) (hd : d.Sound)
    (placeholders : Bool) (soFar : RowsSoFar) (hj : j < k) (h : ρ.At j d.deeper true s s') :
    ρ.Repeats (rowsRound inner close placeholders soFar) s
      (rowsRound inner' close placeholders (relocateSoFar ρ.place soFar)) s'
      (Turn (ρ.Done j d.deeper (relocateSoFar ρ.place))
        (ρ.Done j d (List.map (Row.relocate ρ.place)))) := by
  refine .current? ?_
  obtain ⟨hs, hs'⟩ | ⟨t, ht⟩ := h.inside (Nat.succ_pos _)
  · rw [hs, hs']
    exact h.unexpected
  rw [ht.current, ht.current']
  dsimp only
  rw [ρ.kind_token, ρ.isOperator_token]
  split
  · rename_i hk
    refine ht.advance fun u u' i hi hu => ?_
    rw [hk, Depths.nest_closing hclose] at hu
    exact (repeats_finishRow _ _ hu).stay fun rows v v' hv => .pure ⟨⟨i, hi, hv⟩, rfl⟩
  split
  · rename_i hk
    refine ht.advance fun u u' i hi hu => ?_
    have hnest : d.deeper.nest t.kind = d.deeper := by obtain hk | hk := hk <;> rw [hk] <;> rfl
    rw [hnest] at hu
    exact (repeats_finishRow _ _ hu).stay fun rows v v' hv => .pure ⟨⟨i, hi, hv⟩, rfl⟩
  split
  · rename_i hk
    refine ht.advance fun u u' i hi hu => .pure ?_
    rw [hk] at hu
    exact ⟨⟨i, hi, hu⟩, rfl⟩
  rw [show (relocateSoFar ρ.place soFar).afterItem = soFar.afterItem from rfl]
  split
  · exact h.unexpected
  refine .peekKind? ?_
  have hnext : (placeholders && t.isOperator "~" && endsElement close (s'.ahead[1]?.map (·.kind))) =
      (placeholders && t.isOperator "~" && endsElement close (s.ahead[1]?.map (·.kind))) := by
    cases hop : t.isOperator "~" with
    | false => simp
    | true =>
      have hk : t.kind = .operator := eq_of_beq (Bool.and_eq_true_iff.1 hop).1
      rw [ht.second_inside (by rw [hk]; exact Nat.succ_pos _)]
  rw [hnext]
  split
  · rename_i hcond
    simp only [Bool.and_eq_true] at hcond
    have hk : t.kind = .operator := eq_of_beq (Bool.and_eq_true_iff.1 hcond.1.2).1
    refine ht.advance fun u u' i hi hu => ?_
    rw [hk] at hu
    refine (repeats_placeholderOf hu).bind ?_
    rintro n _ v v' ⟨hv, rfl⟩
    exact .pure ⟨⟨i, hi, hv⟩, by simp [relocateSoFar, Expr.relocate]⟩
  · refine (hinner hj hd.deeper h).done fun e u u' i hi hu => .pure ⟨⟨i, hi, hu⟩, ?_⟩
    simp [relocateSoFar]

theorem repeats_rows {close : Kind} (h : ρ.Facing k d level t s s')
    (hopen : t.kind.isOpening = true) (hclose : close.isClosing = true) (hd : d.Sound) :
    ρ.Repeats (rows inner close) s (rows inner' close) s'
      (ρ.Done k d (Prod.map (List.map (Row.relocate ρ.place)) ρ.place)) := by
  refine h.here (h.advance fun u u' j hj hu => .get ?_)
  rw [Depths.nest_opening hopen] at hu
  rw [hu.placeholders]
  refine hu.modified ⟨fun _ _ _ => rfl, fun _ => rfl⟩ fun hu => ?_
  refine Repeats.done (F := List.map (Row.relocate ρ.place)) (k := j) (d := d) ?_
    fun rows v v' i hi hv => hv.spanFrom fun l => .pure ⟨⟨i, hi.trans hj, hv⟩, rfl⟩
  refine hu.rounds (F := relocateSoFar ρ.place) (a := {}) fun i hi soFar v v' hv => ?_
  refine (repeats_rowsRound hinner hclose hd _ soFar (hi.trans_lt hj) hv).mono
    fun r r' w w' hr => ?_
  cases r <;> cases r'
  case done.done => exact hr.mono hi
  all_goals exact hr

/-! ## Operands -/

theorem repeats_handle {mark : Token} (hj : j < k) (hd : d.Sound) (h : ρ.At j d true s s') :
    ρ.Repeats (handle inner mark) s (handle inner' (ρ.token mark)) s'
      (ρ.Done j d (Expr.relocate ρ.place)) := by
  rw [handle, handle, ρ.location_token]
  refine h.eat (.inr rfl) (fun _ u u' i _ hi hu => ?_) ?_
  · refine (repeats_parameters hd hu).done fun params v v' m hm hv => ?_
    refine (hv.outsideIndex (by omega) hinner).done fun body w w' n hn hw => ?_
    rw [Expr.site_relocate, Site.relocate_location]
    exact hw.siteBetween fun site x x' hx => .pure ⟨⟨n, by omega, hx⟩, by simp [Expr.relocate]⟩
  · refine (reads_dottedName (Nat.lt_succ_self j) hd h).done fun n v v' m hm hv => ?_
    rw [Name.site_relocate, Site.relocate_location]
    exact hv.siteBetween fun site w w' hw => .pure ⟨⟨m, hm, hw⟩, rfl⟩

theorem repeats_compound (hj : j ≤ k) (hd : d.Sound) (h : ρ.Facing j d level t s s') :
    ρ.Repeats (compound inner t) s (compound inner' (ρ.token t)) s'
      (ρ.Done j d (Expr.relocate ρ.place)) := by
  rw [compound, compound, ρ.kind_token, ρ.location_token]
  cases hk : t.kind
  case identifier =>
    refine (reads_name hinner (by omega) hd h.toAt).done fun n u u' i hi hu => .pure ?_
    exact ⟨⟨i, hi, hu⟩, rfl⟩
  case lparen =>
    refine h.advance fun u u' i hi hu => ?_
    rw [hk] at hu
    refine (hinner (by omega) hd.deeper hu).done fun e v v' m hm hv => ?_
    exact hv.discardExpect (.inr rfl) fun w w' n hn hw => .pure ⟨⟨n, by omega, hw⟩, rfl⟩
  case lbracket =>
    refine (repeats_rows (hinner.fewer hj) h (by rw [hk]; rfl) rfl hd).done fun r u u' i hi hu => ?_
    obtain ⟨rows, place⟩ := r
    exact hu.siteAt fun site v v' hv => .pure ⟨⟨i, hi, hv⟩, by simp [Expr.relocate]⟩
  case lbrace =>
    refine (repeats_rows (hinner.fewer hj) h (by rw [hk]; rfl) rfl hd).done fun r u u' i hi hu => ?_
    obtain ⟨rows, place⟩ := r
    exact hu.siteAt fun site v v' hv => .pure ⟨⟨i, hi, hv⟩, by simp [Expr.relocate]⟩
  case handle =>
    refine h.advance fun u u' i hi hu => ?_
    rw [hk] at hu
    refine (repeats_handle hinner (by omega) hd hu).mono ?_
    exact fun _ _ _ _ hdone => hdone.mono hi.le
  case metaclass =>
    refine h.advance fun u u' i hi hu => ?_
    rw [hk] at hu
    refine (reads_dottedName (Nat.lt_succ_self i) hd hu).done fun n v v' m hm hv => ?_
    rw [Name.site_relocate, Site.relocate_location]
    exact hv.siteBetween fun site w w' hw => .pure ⟨⟨m, hm.trans hi, hw⟩, rfl⟩
  all_goals exact h.unexpected

omit hinner in
theorem atom?_relocate {inIndex : Bool} (h : ρ.Facing j d level t s s') (hd : d.Sound)
    (hindex : inIndex = decide (0 < s.indexDepth)) :
    (∃ make, atom? inIndex t (s.ahead[1]?.map (·.kind)) = some make ∧
        atom? inIndex (ρ.token t) (s'.ahead[1]?.map (·.kind)) = some make ∧
        (∀ site, make (site.relocate ρ.place) = (make site).relocate ρ.place) ∧
        d.nest t.kind = d) ∨
      atom? inIndex t (s.ahead[1]?.map (·.kind)) = none ∧
        atom? inIndex (ρ.token t) (s'.ahead[1]?.map (·.kind)) = none := by
  unfold atom?
  rw [ρ.kind_token]
  cases hk : t.kind
  case number =>
    dsimp only
    rw [ρ.raw_of_kind hk rfl]
    exact .inl ⟨_, rfl, rfl, fun _ => rfl, rfl⟩
  case charArray =>
    dsimp only
    rw [ρ.value_of_kind hk rfl]
    exact .inl ⟨_, rfl, rfl, fun _ => rfl, rfl⟩
  case string =>
    dsimp only
    rw [ρ.value_of_kind hk rfl]
    exact .inl ⟨_, rfl, rfl, fun _ => rfl, rfl⟩
  case keyword =>
    dsimp only
    rw [ρ.raw_of_kind hk rfl]
    split
    · exact .inl ⟨_, rfl, rfl, fun _ => rfl, rfl⟩
    · exact .inr ⟨rfl, rfl⟩
  case colon =>
    dsimp only
    cases hin : inIndex with
    | false => exact .inr ⟨rfl, rfl⟩
    | true =>
      have hdepth : 0 < d.brackets := by
        have hpos := of_decide_eq_true (hindex.symm.trans hin)
        rw [h.index] at hpos
        exact hpos.trans_le hd
      rw [h.second_inside (by rw [hk]; exact hdepth)]
      split
      · exact .inl ⟨_, rfl, rfl, fun _ => rfl, rfl⟩
      · exact .inr ⟨rfl, rfl⟩
  all_goals exact .inr ⟨rfl, rfl⟩

theorem reads_operand : ρ.Reads (k + 1) (operand inner) (operand inner')
    (Expr.relocate ρ.place) := by
  intro j d level s s' hj hd h
  refine .current? ?_
  obtain ⟨hs, hs'⟩ | ⟨t, ht⟩ | hgap := h.view
  · rw [hs, hs']
    exact h.unexpected
  · rw [ht.current, ht.current']
    refine .get (.peekKind? ?_)
    rw [h.indexDepth]
    obtain ⟨make, hatom, hatom', hmake, hnest⟩ | ⟨hatom, hatom'⟩ := atom?_relocate ht hd rfl
    · rw [hatom, hatom', ρ.location_token]
      refine ht.advance fun u u' i hi hu => hu.siteAt fun site v v' hv => .pure ?_
      rw [hnest] at hv
      exact ⟨⟨i, hi, hv⟩, hmake site⟩
    · rw [hatom, hatom']
      exact repeats_compound hinner (by omega) hd ht
  · obtain ⟨t, _, ts, _, hs, -, ht, -⟩ := hgap.next
    refine .failing hgap.respaced fun e u hrun => ?_
    rw [hs] at hrun
    obtain ⟨_, _, hget, hrun⟩ := bind_ok hrun
    obtain ⟨next, _, hpeek, hrun⟩ := bind_ok hrun
    cases hget
    cases hpeek
    exact separator_operand ht hrun

end Inner

/-! ## Levels -/

theorem repeats_signed (ht : t.kind = .operator) (e : Expr) (h : ρ.At k d true s s') :
    ρ.Repeats (signed t e) s (signed (ρ.token t) (e.relocate ρ.place)) s'
      (ρ.Stay k d (Expr.relocate ρ.place)) := by
  rw [signed, signed, ρ.location_token, ρ.raw_of_kind ht rfl, Expr.site_relocate,
    Site.relocate_location]
  exact h.siteBetween fun site u u' hu => .pure ⟨hu, rfl⟩

theorem repeats_allSigned {ops : List Token} (hops : ∀ t ∈ ops, isSign t = true) (e : Expr)
    (h : ρ.At k d true s s') :
    ρ.Repeats (allSigned ops e) s (allSigned (ops.map ρ.token) (e.relocate ρ.place)) s'
      (ρ.Stay k d (Expr.relocate ρ.place)) := by
  induction ops with
  | nil => exact .pure ⟨h, rfl⟩
  | cons op ops ih =>
    obtain ⟨hop, hops⟩ := List.forall_mem_cons.1 hops
    refine (ih hops).stay fun e' u u' hu => repeats_signed ?_ e' hu
    exact eq_of_beq (Bool.and_eq_true_iff.1 hop).1

theorem reads_signs (hp : ρ.Reads k p p' (Expr.relocate ρ.place)) :
    ρ.Reads k
      (do
        let signs ← eatWhile isSign
        allSigned signs (← p))
      (do
        let signs ← eatWhile isSign
        allSigned signs (← p'))
      (Expr.relocate ρ.place) := by
  intro j d level s s' hj hd h
  have hkind : ∀ t, isSign t = true → t.kind = .operator := fun t ht =>
    eq_of_beq (Bool.and_eq_true_iff.1 ht).1
  refine h.eatWhile (fun t => ρ.isSign_token) (fun t ht => test_separator rfl ht _) ?_
    fun signs u u' hsigns hu => ?_
  · intro t e ht
    rw [hkind t ht]
    rfl
  refine (hp hj hd hu).done fun e v v' i hi hv => (repeats_allSigned hsigns e hv).mono ?_
  rintro e' _ w w' ⟨hw, he'⟩
  exact ⟨⟨i, hi, hw⟩, he'⟩

theorem repeats_binary (ht : t.kind = .operator) (e e' : Expr) (h : ρ.At k d true s s') :
    ρ.Repeats (binary t e e') s (binary (ρ.token t) (e.relocate ρ.place) (e'.relocate ρ.place)) s'
      (ρ.Stay k d (Expr.relocate ρ.place)) := by
  rw [binary, binary, ρ.location_token, ρ.raw_of_kind ht rfl, Expr.site_relocate,
    Expr.site_relocate, Site.relocate_location, Site.relocate_location]
  split
  · exact h.siteBetween fun site u u' hu => .pure ⟨hu, rfl⟩
  · exact .throw fun _ => rfl

theorem reads_binaryLevel {symbols : List String} (hp : ρ.Reads k p p' (Expr.relocate ρ.place)) :
    ρ.Reads k (binaryLevel symbols p) (binaryLevel symbols p') (Expr.relocate ρ.place) := by
  intro j d level s s' hj hd h
  refine (hp hj hd h).done fun e u u' i hi hu => hu.rounds fun i' hi' e v v' hv => ?_
  refine hv.eatOperator (fun op w w' m hop hm hw => ?_) ?_
  · refine (hp (by omega) hd hw).done fun e' x x' n hn hx => ?_
    refine (repeats_binary hop e e' hx).stay fun joined y y' hy => .pure ?_
    exact ⟨⟨n, by omega, hy⟩, rfl⟩
  · exact .pure ⟨⟨i', hi'.trans_lt hi, hv⟩, rfl⟩

section Inner

variable (hinner : ρ.Reads k inner inner' (Expr.relocate ρ.place))

include hinner

theorem reads_powers :
    ρ.Reads (k + 1) (powers inner) (powers inner') (Expr.relocate ρ.place) := by
  intro j d level s s' hj hd h
  refine (reads_operand hinner hj hd h).done fun e u u' i hi hu => ?_
  refine hu.rounds fun i' hi' e v v' hv => ?_
  refine hv.eatOperator (fun op w w' m hop hm hw => ?_) ?_
  · simp only [transposed, bind_assoc, pure_bind, ρ.location_token, ρ.raw_of_kind hop rfl,
      Expr.site_relocate, Site.relocate_location]
    exact hw.siteBetween fun site x x' hx => .pure ⟨⟨m, hm, hx⟩, rfl⟩
  refine hv.eatOperator (fun op w w' m hop hm hw => ?_) ?_
  · refine (reads_signs (reads_operand hinner) (by omega) hd hw).done fun e' x x' n hn hx => ?_
    refine (repeats_binary hop e e' hx).stay fun joined y y' hy => .pure ?_
    exact ⟨⟨n, by omega, hy⟩, rfl⟩
  · exact .pure ⟨⟨i', hi'.trans_lt hi, hv⟩, rfl⟩

theorem reads_sums : ρ.Reads (k + 1) (sums inner) (sums inner') (Expr.relocate ρ.place) :=
  reads_binaryLevel (reads_binaryLevel (reads_signs (reads_powers hinner)))

theorem reads_ranges : ρ.Reads (k + 1) (ranges inner) (ranges inner') (Expr.relocate ρ.place) := by
  have hsums := reads_sums hinner
  intro j d level s s' hj hd h
  refine (hsums hj hd h).done fun start u u' i hi hu => ?_
  have hrange : ∀ (stride : Option Expr) (stop : Expr) {m : Nat} {v v' : State}, m < j →
      ρ.At m d true v v' → ρ.Repeats
        (do
          return .range (← siteBetween start.site.location stop.site.location) start stride stop)
        v
        (do
          return .range (← siteBetween (start.relocate ρ.place).site.location
            (stop.relocate ρ.place).site.location) (start.relocate ρ.place)
            (stride.map (Expr.relocate ρ.place)) (stop.relocate ρ.place)) v'
        (ρ.Done j d (Expr.relocate ρ.place)) := by
    intro stride stop m v v' hm hv
    rw [Expr.site_relocate, Expr.site_relocate, Site.relocate_location, Site.relocate_location]
    exact hv.siteBetween fun site w w' hw => .pure ⟨⟨m, hm, hw⟩, by simp⟩
  refine hu.eat (.inr rfl) (fun _ v v' m _ hm hv => ?_) (.pure ⟨⟨i, hi, hu⟩, rfl⟩)
  refine (hsums (by omega) hd hv).done fun second w w' n hn hw => ?_
  refine hw.eat (.inr rfl) (fun _ x x' n' _ hn' hx => ?_) ?_
  · refine (hsums (by omega) hd hx).done fun stop y y' l hl hy => ?_
    exact hrange (some second) stop (by omega) hy
  · exact hrange none second (by omega) hw

theorem reads_shortOrs : ρ.Reads (k + 1) (shortOrs inner) (shortOrs inner')
    (Expr.relocate ρ.place) :=
  reads_binaryLevel (reads_binaryLevel (reads_binaryLevel (reads_binaryLevel
    (reads_binaryLevel (reads_ranges hinner)))))

end Inner

theorem reads_expressionWithin {fuel fuel' : Nat} (hfuel : ρ.respaced = false → fuel' = fuel)
    (hk : k ≤ fuel') :
    ρ.Reads k (expressionWithin fuel) (expressionWithin fuel') (Expr.relocate ρ.place) := by
  induction fuel generalizing k fuel' with
  | zero =>
    intro j d level s s' hj hd h
    cases hρ : ρ.respaced with
    | true => exact .failing hρ fun _ _ => stalled_ok
    | false => exact absurd (hj.trans_le hk) (by rw [hfuel hρ]; exact Nat.not_lt_zero j)
  | succ fuel ih =>
    intro j d level s s' hj hd h
    obtain ⟨fuel', rfl⟩ : ∃ n, fuel' = n + 1 := ⟨fuel' - 1, by omega⟩
    refine reads_shortOrs (ih (k := j) (fun hρ => Nat.succ.inj (hfuel hρ)) ?_) ?_ hd h
    · omega
    · exact Nat.lt_succ_self j

theorem reads_expression : ρ.Reads k expression expression (Expr.relocate ρ.place) := by
  intro j d level s s' hj hd h
  obtain ⟨n, hn, hlen, hexact⟩ := h.exactly
  refine .get ((reads_expressionWithin (k := n + 1) (fun hρ => ?_) ?_ (Nat.lt_succ_self n) hd
    hexact).mono fun e e' t t' hdone => hdone.mono hn)
  · rw [h.ahead_eq hρ, List.length_map]
  · exact Nat.succ_le_succ hlen

end Relayout

end MFile.Grammar
