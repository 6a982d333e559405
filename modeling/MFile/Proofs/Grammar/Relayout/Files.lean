import MFile.Proofs.Grammar.Relayout.Functions

/-!
Classes and whole files on another layout. A file that parses still does, and gives the same unit
with its places moved.
-/

namespace MFile.Grammar

open Parse

namespace Relayout

variable {ρ : Relayout} {k j : Nat} {level : Bool} {s s' : State} {t opener : Token}

/-! ## Items of class blocks -/

theorem repeats_addMethods (start : Location) (block : Block) (fs : List FunctionDef)
    (h : ρ.Between j s s') :
    ρ.Repeats (fs.foldlM (fun block method => addItem start block (.method method)) block) s
      ((fs.map (FunctionDef.relocate ρ.place)).foldlM
        (fun block method => addItem (ρ.place start) block (.method method))
        (block.relocate ρ.place)) s'
      fun b b' t t' => ρ.Between j t t' ∧ b' = b.relocate ρ.place := by
  induction fs generalizing block s s' with
  | nil => exact .pure ⟨h, rfl⟩
  | cons f fs ih =>
    rw [List.map_cons, List.foldlM_cons, List.foldlM_cons]
    refine (repeats_addItem start block (.method f) h).bind ?_
    rintro b _ t t' ⟨ht, rfl⟩
    exact ih b ht

theorem adds_method : Adds ρ k addMethod addMethod := by
  intro j s s' block t _ h
  refine h.here (h.toAt.eatWord (fun opener u u' i _ hi hu => ?_) ?_)
  · refine Repeats.bind (P := fun r r' t t' => ρ.Between i t t' ∧ r' = relocateRun ρ.place r) ?_ ?_
    · have hmethods := hu.change (fun st => { st with methodDepth := st.methodDepth + 1 })
        ⟨fun _ _ _ => rfl, fun _ => rfl⟩
      refine (repeats_function {} hmethods).bracketed ?_
      rintro run _ v v' ⟨hv, rfl⟩
      exact ⟨hv.change (fun st => { st with methodDepth := st.methodDepth - 1 })
        ⟨fun _ _ _ => rfl, fun _ => rfl⟩, rfl⟩
    · rintro run _ v v' ⟨hv, rfl⟩
      rw [resolve_relocateRun]
      refine (repeats_addMethods t.location block run.resolve hv).mono ?_
      rintro b _ w w' ⟨hw, rfl⟩
      exact ⟨⟨i, hi, hw⟩, rfl⟩
  · refine (repeats_signature t.location h.toAt).done fun signature u u' i hi hu => ?_
    exact repeats_addStatement t.location block (.signature signature) hi hu

theorem adds_event : Adds ρ k addEvent addEvent := by
  intro j s s' block t _ h
  refine h.here ((reads_identifier (Nat.lt_succ_self j) Depths.sound_outside h.toAt).done
    fun name u u' i hi hu => ?_)
  rw [Name.site_relocate, Site.relocate_location]
  exact hu.siteAt fun site v v' hv =>
    repeats_addStatement t.location block (.event ⟨site, name⟩) hi hv

theorem adds_enumerator : Adds ρ k addEnumerator addEnumerator := by
  intro j s s' block t _ h
  rw [addEnumerator_eq, addEnumerator_eq]
  have hd := Depths.sound_outside
  refine h.here ((reads_identifier (Nat.lt_succ_self j) hd h.toAt).done fun name u u' i hi hu => ?_)
  refine (repeats_optArguments rfl rfl hd hu).stay fun args v v' hv =>
    hv.siteFrom fun site w w' hw => ?_
  exact repeats_addStatement t.location block (.enumerator ⟨site, name, args⟩) hi hw

theorem adds_next (kind : BlockKind) : Adds ρ k (addNext kind) (addNext kind) := by
  cases kind with
  | properties | arguments => exact adds_property
  | methods => exact adds_method
  | events => exact adds_event
  | enumeration => exact adds_enumerator

/-! ## Classes -/

theorem classBlock?_token : classBlock? (ρ.token t) = classBlock? t := by
  rw [classBlock?, classBlock?, ρ.kind_token]
  split
  · rename_i hk
    rw [ρ.raw_of_kind hk rfl]
  · rfl

theorem repeats_superclasses (h : ρ.At j .outside true s s') :
    ρ.Repeats superclasses s superclasses s'
      (ρ.Stay j .outside (List.map (Name.relocate ρ.place))) := by
  have hd := Depths.sound_outside
  rw [superclasses_eq]
  refine h.eatOperator (fun _ u u' i _ hi hu => ?_) (.pure ⟨h, rfl⟩)
  refine (reads_dottedName (Nat.lt_succ_self i) hd hu).done fun first v v' m hm hv => ?_
  refine hv.rounds (F := List.map (Name.relocate ρ.place)) (a := [first])
    fun n hn names w w' hw => ?_
  refine hw.eatOperator (fun _ x x' l _ hl hx => ?_) (.pure ⟨hw.mono (by omega), rfl⟩)
  refine (reads_dottedName (Nat.lt_succ_self l) hd hx).done fun name y y' o ho hy => .pure ?_
  exact ⟨⟨o, by omega, hy⟩, by rw [List.map_append]; rfl⟩

theorem repeats_classRound (hopener : opener.kind = .keyword) (blocks : List Block)
    (h : ρ.Between j s s') :
    ρ.Repeats (classRound opener blocks) s
      (classRound (ρ.token opener) (blocks.map (Block.relocate ρ.place))) s'
      (Turns ρ.Between j (List.map (Block.relocate ρ.place)) fun bs bs' t t' =>
        ρ.Between j t t' ∧ bs' = bs.map (Block.relocate ρ.place)) := by
  refine h.skip fun u u' hu hclear => hu.eatWord (fun _ v v' i _ hi hv => ?_) (.current? ?_)
  · exact (repeats_endStatement hv).bind fun _ _ w w' hw => .pure ⟨hw.mono hi.le, rfl⟩
  obtain ⟨hnil, hnil'⟩ | ⟨next, hnext⟩ := hu.clear hclear
  · rw [hnil, hnil']
    refine hu.failHere fun _ => ?_
    rw [ρ.raw_of_kind hopener rfl, ρ.location_token, ρ.line_place]
    rfl
  rw [hnext.current, hnext.current']
  dsimp only
  rw [classBlock?_token]
  cases hkind : classBlock? next with
  | none => exact hu.failHere fun _ => rfl
  | some kind =>
    have hk : next.kind = .keyword := by
      rw [classBlock?] at hkind
      split at hkind
      · assumption
      · cases hkind
    refine hnext.advance fun v v' i hi hv => ?_
    rw [hk] at hv
    refine (repeats_block (adds_next (k := j) kind) hk hi hv).stay fun block w w' hw => .pure ?_
    exact ⟨⟨i, hi, hw.between⟩, by rw [List.map_append]; rfl⟩

theorem repeats_classDef (ht : opener.kind = .keyword) (h : ρ.At j .outside true s s') :
    ρ.Repeats (classDef opener) s (classDef (ρ.token opener)) s' fun c c' t t' =>
      ρ.Between j t t' ∧ c' = c.relocate ρ.place := by
  have hd := Depths.sound_outside
  rw [classDef, classDef, ρ.location_token]
  refine h.freshId fun id u u' hu => ?_
  refine (repeats_optAttributes hu hd).stay fun attrs u u' hu => ?_
  refine (reads_identifier (Nat.lt_succ_self j) hd hu).done fun name v v' i hi hv => ?_
  refine (repeats_superclasses hv).stay fun supers v v' hv => hv.spanFrom fun l => ?_
  rw [classBlocks_eq, classBlocks_eq]
  refine Repeats.bind (P := fun bs bs' t t' =>
    ρ.Between i t t' ∧ bs' = bs.map (Block.relocate ρ.place)) ?_ ?_
  · refine hv.between.rounds (F := List.map (Block.relocate ρ.place)) (a := [])
      fun m hm blocks w w' hw => (repeats_classRound ht blocks hw).mono fun r r' x x' hr => ?_
    cases r <;> cases r'
    case again.again => exact hr
    case done.done => exact ⟨hr.1.mono hm, hr.2⟩
    all_goals exact hr.elim
  · rintro blocks _ w w' ⟨hw, rfl⟩
    exact .pure ⟨hw.mono hi.le, rfl⟩

/-! ## Whole files -/

theorem repeats_wholeFile {f : Location → Parse FileUnit} {g : Location → Parse FileUnit}
    {Q : FileUnit → FileUnit → State → State → Prop} (hfile : s'.file = s.file)
    (hf : ∀ l, ρ.place l = l → ρ.Repeats (f l) s (g l) s' Q) :
    ρ.Repeats (wholeFile >>= f) s (wholeFile >>= g) s' Q := by
  refine (hf ⟨s.file, .file, none⟩ (ρ.place_file s.file)).of_eq rfl ?_
  rw [← hfile]
  rfl

theorem repeats_fileUnit (h : ρ.Between k s s') :
    ρ.Repeats fileUnit s fileUnit s' fun unit unit' _ _ => unit' = unit.relocate ρ.place := by
  refine h.skip fun u u' hu hclear => .checkWord ?_
  have hword : u'.ahead[0]?.any (·.isWord "function") = u.ahead[0]?.any (·.isWord "function") := by
    obtain ⟨hnil, hnil'⟩ | ⟨next, hnext⟩ := hu.clear hclear
    · rw [hnil, hnil']
    · rw [hnext.current, hnext.current', Option.any_some, Option.any_some, ρ.isWord_token]
  rw [hword]
  split
  · refine hu.freshId fun id v v' hv => (repeats_localFunctions hv.between).bind ?_
    rintro functions _ w w' ⟨hfile, rfl⟩
    refine repeats_wholeFile hfile fun l hl => .pure ?_
    rw [FileUnit.relocate, Site.relocate, hl]
  refine hu.eatWord (fun opener v v' i hopener hi hv => ?_) ?_
  · refine hv.freshId fun id w w' hw => ?_
    have hbody := hw.change (fun st => { st with frames := .classBody :: st.frames })
      ⟨fun _ _ _ => rfl, fun _ => rfl⟩
    refine Repeats.bind (P := fun c c' t t' => ρ.Between i t t' ∧ c' = c.relocate ρ.place) ?_ ?_
    · refine (repeats_classDef hopener hbody).bracketed ?_
      rintro c _ t t' ⟨ht, rfl⟩
      exact ⟨ht.change (fun st => { st with frames := st.frames.tail })
        ⟨fun _ _ _ => rfl, fun _ => rfl⟩, rfl⟩
    rintro definition _ t t' ⟨ht, rfl⟩
    refine (repeats_localFunctions ht).bind ?_
    rintro functions _ w w' ⟨hfile, rfl⟩
    refine repeats_wholeFile hfile fun l hl => .pure ?_
    rw [FileUnit.relocate, Site.relocate, hl]
  · refine hu.freshId fun id v v' hv => (repeats_statements hv.between).bind ?_
    rintro body _ w w' ⟨-, hw, rfl⟩
    refine (repeats_localFunctions hw.between).bind ?_
    rintro functions _ x x' ⟨hfile, rfl⟩
    refine repeats_wholeFile hfile fun l hl => .pure ?_
    rw [FileUnit.relocate, Site.relocate, hl]

def outcome (ρ : Relayout) : Except ParseError FileUnit → Except ParseError FileUnit
  | .ok unit => .ok (unit.relocate ρ.place)
  | .error e => .error (ρ.error e)

section Units

variable {file : String} {ts ts' : List Token} {n : Nat}

theorem repeats_ofTokens (h : ρ.Matched 0 n (significant false ts) (significant false ts')) :
    ρ.Repeats fileUnit (State.ofTokens file ts) fileUnit (State.ofTokens file ts')
      fun unit unit' _ _ => unit' = unit.relocate ρ.place := by
  have hat : ρ.At n .outside true (State.ofTokens file ts) (State.ofTokens file ts') :=
    ⟨rfl, rfl, ⟨n, Nat.le_refl n, h⟩, fun _ => rfl⟩
  exact repeats_fileUnit hat.between

theorem ofTokens_ok (h : ρ.Matched 0 n (significant false ts) (significant false ts'))
    {unit : FileUnit} (hunit : FileUnit.ofTokens file ts = .ok unit) :
    FileUnit.ofTokens file ts' = .ok (unit.relocate ρ.place) := by
  rw [FileUnit.ofTokens] at hunit ⊢
  cases hrun : fileUnit (State.ofTokens file ts) with
  | error e t =>
    rw [hrun] at hunit
    cases hunit
  | ok _ t =>
    rw [hrun] at hunit
    cases hunit
    obtain ⟨unit', t', hrun', rfl⟩ := (repeats_ofTokens h).ok unit t hrun
    rw [hrun']
    rfl

theorem outcome_map (hρ : ρ.respaced = false) (file : String) (ts : List Token) :
    Parse.outcome (fileUnit { file := file, ahead := (significant false ts).map ρ.token }) =
      ρ.outcome (FileUnit.ofTokens file ts) := by
  have hat : ρ.At (significant false ts).length .outside true (State.ofTokens file ts)
      { file := file, ahead := (significant false ts).map ρ.token } :=
    ⟨rfl, rfl, ⟨_, Nat.le_refl _, .map hρ 0 _⟩, fun _ => rfl⟩
  have hrepeats := repeats_fileUnit hat.between
  rw [FileUnit.ofTokens]
  cases hrun : fileUnit (State.ofTokens file ts) with
  | ok unit t =>
    obtain ⟨unit', t', hrun', rfl⟩ := hrepeats.ok unit t hrun
    rw [hrun']
    rfl
  | error e t =>
    obtain ⟨t', hrun'⟩ := hrepeats.error hρ e t hrun
    rw [hrun']
    rfl

end Units

end Relayout

end MFile.Grammar
