import MFile.Proofs.Report.JsonGrammar

/-!
A reader of JSON. It goes through a text once, from the left; the fuel bounds how deep values nest
and how many stand beside each other, and the length of the text is always enough. Every text of the
grammar is read to the value it stands for, so no text stands for two.
-/

namespace MFile.Json

def skipBlanks (cs : List Char) : List Char := cs.dropWhile isBlank

def readInside : List Char → Option (List Char × List Char)
  | [] => none
  | '"' :: rest => some ([], rest)
  | '\\' :: 'u' :: a :: b :: c :: d :: rest => do
    let n ← hexCode? [a, b, c, d]
    let (cs, rest) ← readInside rest
    if n.isValidChar then some (Char.ofNat n :: cs, rest) else none
  | '\\' :: l :: rest => do
    let c ← letter? l
    let (cs, rest) ← readInside rest
    some (c :: cs, rest)
  | c :: rest => do
    let (cs, rest) ← readInside rest
    if c.toNat < 0x20 then none else some (c :: cs, rest)

def readString : List Char → Option (String × List Char)
  | '"' :: rest => (readInside rest).map fun (cs, rest) => (String.ofList cs, rest)
  | _ => none

def readNumber (cs : List Char) : Option (Json × List Char) :=
  let digits := cs.takeWhile Char.isDigit
  if digits = [] ∨ digits.head? = some '0' ∧ digits ≠ ['0'] then none
  else some (number (Nat.ofDigitChars 10 digits 0), cs.dropWhile Char.isDigit)

def readKey (cs : List Char) : Option (String × List Char) := do
  let (key, rest) ← readString (skipBlanks cs)
  match skipBlanks rest with
  | ':' :: rest => some (key, skipBlanks rest)
  | _ => none

mutual

def readValue : Nat → List Char → Option (Json × List Char)
  | 0, _ => none
  | fuel + 1, cs =>
    match cs with
    | 'n' :: 'u' :: 'l' :: 'l' :: rest => some (null, rest)
    | 't' :: 'r' :: 'u' :: 'e' :: rest => some (bool true, rest)
    | 'f' :: 'a' :: 'l' :: 's' :: 'e' :: rest => some (bool false, rest)
    | '"' :: _ => (readString cs).map fun (text, rest) => (string text, rest)
    | '[' :: inside =>
      match skipBlanks inside with
      | ']' :: rest => some (array [], rest)
      | _ => (readItems fuel inside).map fun (items, rest) => (array items, rest)
    | '{' :: inside =>
      match skipBlanks inside with
      | '}' :: rest => some (object [], rest)
      | _ => (readFields fuel inside).map fun (fields, rest) => (object fields, rest)
    | _ => readNumber cs

def readItems : Nat → List Char → Option (List Json × List Char)
  | 0, _ => none
  | fuel + 1, cs => do
    let (item, rest) ← readValue fuel (skipBlanks cs)
    match skipBlanks rest with
    | ',' :: rest => (readItems fuel rest).map fun (items, rest) => (item :: items, rest)
    | ']' :: rest => some ([item], rest)
    | _ => none

def readFields : Nat → List Char → Option (List (String × Json) × List Char)
  | 0, _ => none
  | fuel + 1, cs => do
    let (key, rest) ← readKey cs
    let (value, rest) ← readValue fuel rest
    match skipBlanks rest with
    | ',' :: rest => (readFields fuel rest).map fun (fields, rest) => ((key, value) :: fields, rest)
    | '}' :: rest => some ([(key, value)], rest)
    | _ => none

end

def read? (text : String) : Option Json :=
  match readValue (text.length + 1) (skipBlanks text.toList) with
  | some (j, rest) => if skipBlanks rest = [] then some j else none
  | none => none

/-! ## Blanks and strings -/

/-- Behind a number no digit may follow. -/
def Apart (cs : List Char) : Prop := ∀ c ∈ cs.head?, c.isDigit = false

variable {w blank rest : List Char} {c : Char} {j : Json}

theorem skipBlanks_append (h : Blank blank) (cs : List Char) :
    skipBlanks (blank ++ cs) = skipBlanks cs :=
  List.dropWhile_append_of_pos h

theorem skipBlanks_cons (h : isBlank c = false) (cs : List Char) :
    skipBlanks (c :: cs) = c :: cs :=
  List.dropWhile_cons_of_neg (by rw [h]; exact Bool.false_ne_true)

theorem apart_append (h : Blank blank) (hrest : Apart rest) : Apart (blank ++ rest) := by
  cases blank with
  | nil => exact hrest
  | cons d blank =>
    intro c hc
    obtain rfl := Option.mem_some_iff.1 hc
    have hblank := h d List.mem_cons_self
    simp only [isBlank, Bool.or_eq_true, decide_eq_true_eq] at hblank
    rcases hblank with ((rfl | rfl) | rfl) | rfl <;> rfl

theorem apart_cons (h : c.isDigit = false) : Apart (c :: rest) := by
  intro d hd
  obtain rfl := Option.mem_some_iff.1 hd
  exact h

theorem readInside_spells {inside cs : List Char} (h : SpellsAll inside cs) (rest : List Char) :
    readInside (inside ++ '"' :: rest) = some (cs, rest) := by
  induction h with
  | nil => simp [readInside]
  | cons hc _ ih =>
    rw [List.append_assoc]
    cases hc with
    | plain _ hslash hcontrol =>
      simp [readInside, ih, hslash, Nat.not_lt.2 hcontrol]
    | @letter l c h =>
      have hl : l ≠ 'u' := by
        rintro rfl
        cases h
      simp [readInside, ih, hl, h]
    | code h hn => simp [readInside, ih, h, hn]

theorem readString_spells {text : String} (h : Spells w text) (rest : List Char) :
    readString (w ++ rest) = some (text, rest) := by
  obtain ⟨inside, rfl, hinside⟩ := h
  rw [List.cons_append, List.append_assoc, readString]
  simp only [List.cons_append, List.nil_append, readInside_spells hinside, Option.map_some,
    String.ofList_toList]

/-! ## Numbers -/

theorem readNumber_natural {digits : List Char} (h : IsNatural digits) (hrest : Apart rest) :
    readNumber (digits ++ rest) = some (number (Nat.ofDigitChars 10 digits 0), rest) := by
  have htake : (digits ++ rest).takeWhile Char.isDigit = digits := by
    rw [List.takeWhile_append_of_pos h.isDigit]
    cases rest with
    | nil => simp
    | cons c rest => simp [hrest c rfl]
  have hdrop : (digits ++ rest).dropWhile Char.isDigit = rest := by
    rw [List.dropWhile_append_of_pos h.isDigit]
    cases rest with
    | nil => rfl
    | cons c rest => simp [hrest c rfl]
  have hsound : ¬ (digits = [] ∨ digits.head? = some '0' ∧ digits ≠ ['0']) := by
    rintro (hnil | ⟨hhead, hne⟩)
    · exact h.ne_nil hnil
    · exact hne (h.leading hhead)
  rw [readNumber, htake, hdrop, if_neg hsound]

theorem readValue_number {digits : List Char} (h : IsNatural digits) (hrest : Apart rest)
    (fuel : Nat) : readValue (fuel + 1) (digits ++ rest) =
      some (number (Nat.ofDigitChars 10 digits 0), rest) := by
  rw [← readNumber_natural h hrest]
  obtain ⟨first, digits, rfl⟩ := List.exists_cons_of_ne_nil h.ne_nil
  have hfirst := h.isDigit first List.mem_cons_self
  have hne : ∀ c : Char, c.isDigit = false → first ≠ c := by
    rintro c hc rfl
    rw [hc] at hfirst
    cases hfirst
  simp [readValue, hne 'n' rfl, hne 't' rfl, hne 'f' rfl, hne '"' rfl, hne '[' rfl, hne '{' rfl]

/-! ## Values -/

def Opens (w : List Char) : Prop := ∃ c cs, w = c :: cs ∧ isBlank c = false ∧ c ≠ ']'

theorem opens_natural {digits : List Char} (h : IsNatural digits) : Opens digits := by
  obtain ⟨first, digits, rfl⟩ := List.exists_cons_of_ne_nil h.ne_nil
  have hfirst := h.isDigit first List.mem_cons_self
  refine ⟨first, digits, rfl, ?_, ?_⟩
  · simp only [isBlank, Bool.or_eq_false_iff, decide_eq_false_iff_not]
    refine ⟨⟨⟨?_, ?_⟩, ?_⟩, ?_⟩ <;> (rintro rfl; cases hfirst)
  · rintro rfl
    cases hfirst

theorem opens_writes (h : Writes w j) : Opens w := by
  cases h with
  | null => exact ⟨_, _, rfl, rfl, by decide⟩
  | true => exact ⟨_, _, rfl, rfl, by decide⟩
  | false => exact ⟨_, _, rfl, rfl, by decide⟩
  | number h => exact opens_natural h
  | string h =>
    obtain ⟨inside, rfl, -⟩ := h
    exact ⟨_, _, rfl, rfl, by decide⟩
  | noItems => exact ⟨_, _, rfl, rfl, by decide⟩
  | array => exact ⟨_, _, rfl, rfl, by decide⟩
  | noFields => exact ⟨_, _, rfl, rfl, by decide⟩
  | object => exact ⟨_, _, rfl, rfl, by decide⟩

theorem Opens.append (h : Opens w) (rest : List Char) : Opens (w ++ rest) := by
  obtain ⟨c, cs, rfl, hc⟩ := h
  exact ⟨c, cs ++ rest, rfl, hc⟩

theorem skipBlanks_opens {cs : List Char} (hblank : Blank blank) (h : Opens cs) :
    skipBlanks (blank ++ cs) = cs := by
  obtain ⟨c, cs, rfl, hc, -⟩ := h
  rw [skipBlanks_append hblank, skipBlanks_cons hc]

theorem opens_items {items : List Json} (h : WritesItems w items) (rest : List Char) :
    Opens (skipBlanks (w ++ rest)) := by
  cases h with
  | last hbefore hw hbehind | cons hbefore hw hbehind hrest =>
    rw [List.append_assoc, List.append_assoc, skipBlanks_opens hbefore]
    all_goals exact (opens_writes hw).append _

theorem skipBlanks_field {key : String} {value : Json} (h : WritesField w key value)
    (rest : List Char) : ∃ cs, skipBlanks (w ++ rest) = '"' :: cs := by
  obtain ⟨hbefore, hk, -, -, -⟩ := h
  obtain ⟨inside, rfl, -⟩ := hk
  rw [List.append_assoc, skipBlanks_append hbefore]
  exact ⟨_, skipBlanks_cons rfl _⟩

theorem skipBlanks_fields {fields : List (String × Json)} (h : WritesFields w fields)
    (rest : List Char) : ∃ cs, skipBlanks (w ++ rest) = '"' :: cs := by
  cases h with
  | last hw hbehind | cons hw hbehind hrest =>
    rw [List.append_assoc]
    exact skipBlanks_field hw _

theorem readKey_field {before k between before' w : List Char} {key : String} {value : Json}
    (hbefore : Blank before) (hk : Spells k key) (hbetween : Blank between)
    (hbefore' : Blank before') (hw : Writes w value) (rest : List Char) :
    readKey (before ++ (k ++ (between ++ ':' :: (before' ++ w))) ++ rest) =
      some (key, w ++ rest) := by
  have hopens : Opens (k ++ (between ++ ':' :: (before' ++ w)) ++ rest) :=
    ((opens_writes (.string hk)).append _).append _
  have hcolon : skipBlanks (between ++ (':' :: (before' ++ w) ++ rest)) =
      ':' :: (before' ++ (w ++ rest)) := by
    rw [skipBlanks_append hbetween, List.cons_append, skipBlanks_cons rfl, List.append_assoc]
  rw [readKey, List.append_assoc, skipBlanks_opens hbefore hopens, List.append_assoc,
    readString_spells hk, List.append_assoc]
  simp only [Option.bind_eq_bind, Option.bind_some, hcolon,
    skipBlanks_opens hbefore' ((opens_writes hw).append rest)]

theorem skipBlanks_close (h : Blank blank) (c : Char) (hc : isBlank c = false)
    (rest : List Char) :
    skipBlanks (blank ++ [c] ++ rest) = c :: rest := by
  rw [List.append_assoc, skipBlanks_append h]
  exact skipBlanks_cons hc rest

structure Reads (fuel : Nat) : Prop where
  value : ∀ {w rest : List Char} {j : Json}, Writes w j → Apart rest → w.length < fuel →
    readValue fuel (w ++ rest) = some (j, rest)
  items : ∀ {w rest : List Char} {items : List Json}, WritesItems w items →
    w.length + 1 < fuel → readItems fuel (w ++ ']' :: rest) = some (items, rest)
  fields : ∀ {w rest : List Char} {fields : List (String × Json)}, WritesFields w fields →
    w.length + 1 < fuel → readFields fuel (w ++ '}' :: rest) = some (fields, rest)

variable {fuel : Nat}

theorem Reads.value_succ (ih : Reads fuel) (h : Writes w j) (hrest : Apart rest)
    (hfuel : w.length < fuel + 1) : readValue (fuel + 1) (w ++ rest) = some (j, rest) := by
  cases h with
  | null | true | false => rfl
  | number h => exact readValue_number h hrest fuel
  | string h =>
    have hread := readString_spells h rest
    obtain ⟨inside, rfl, -⟩ := h
    rw [List.cons_append] at hread
    rw [List.cons_append, readValue, hread, Option.map_some]
  | noItems h =>
    rw [List.cons_append, readValue]
    simp only [skipBlanks_close h ']' rfl]
  | array h =>
    obtain ⟨c, cs, hopens, -, hc⟩ := opens_items h (']' :: rest)
    rw [List.length_cons, List.length_append, List.length_singleton] at hfuel
    rw [List.cons_append, List.append_assoc, List.singleton_append, readValue, hopens,
      ih.items h (by omega)]
    simp [hc]
  | noFields h =>
    rw [List.cons_append, readValue]
    simp only [skipBlanks_close h '}' rfl]
  | object h =>
    obtain ⟨cs, hquote⟩ := skipBlanks_fields h ('}' :: rest)
    rw [List.length_cons, List.length_append, List.length_singleton] at hfuel
    rw [List.cons_append, List.append_assoc, List.singleton_append, readValue, hquote,
      ih.fields h (by omega)]
    rfl

theorem Reads.item {before behind : List Char} (ih : Reads fuel) (hbefore : Blank before)
    (hw : Writes w j) (hbehind : Blank behind) (hfuel : w.length < fuel)
    (hc : c.isDigit = false ∧ isBlank c = false) (rest : List Char) :
    readValue fuel (skipBlanks (before ++ (w ++ (behind ++ c :: rest)))) =
        some (j, behind ++ c :: rest) ∧ skipBlanks (behind ++ c :: rest) = c :: rest := by
  rw [skipBlanks_opens hbefore ((opens_writes hw).append _), skipBlanks_append hbehind]
  exact ⟨ih.value hw (apart_append hbehind (apart_cons hc.1)) hfuel, skipBlanks_cons hc.2 rest⟩

theorem Reads.items_succ {items : List Json} (ih : Reads fuel) (h : WritesItems w items)
    (hfuel : w.length + 1 < fuel + 1) :
    readItems (fuel + 1) (w ++ ']' :: rest) = some (items, rest) := by
  cases h with
  | last hbefore hw hbehind =>
    simp only [List.length_append] at hfuel
    obtain ⟨hitem, hclose⟩ := ih.item (c := ']') hbefore hw hbehind (by omega) ⟨rfl, rfl⟩ rest
    rw [readItems]
    simp only [List.append_assoc, hitem, Option.bind_eq_bind, Option.bind_some, hclose]
  | @cons _ _ _ rest' _ items hbefore hw hbehind hrest =>
    simp only [List.length_append, List.length_cons] at hfuel
    obtain ⟨hitem, hcomma⟩ := ih.item (c := ',') hbefore hw hbehind (by omega) ⟨rfl, rfl⟩
      (rest' ++ ']' :: rest)
    rw [readItems]
    simp only [List.append_assoc, List.cons_append, hitem, Option.bind_eq_bind, Option.bind_some,
      hcomma, ih.items hrest (by omega), Option.map_some]

theorem Reads.field {behind : List Char} {key : String} {value : Json} (ih : Reads fuel)
    (hw : WritesField w key value) (hbehind : Blank behind) (hfuel : w.length < fuel)
    (hc : c.isDigit = false ∧ isBlank c = false) (rest : List Char) :
    ∃ v, readKey (w ++ (behind ++ c :: rest)) = some (key, v ++ (behind ++ c :: rest)) ∧
      readValue fuel (v ++ (behind ++ c :: rest)) = some (value, behind ++ c :: rest) ∧
        skipBlanks (behind ++ c :: rest) = c :: rest := by
  cases hw with
  | @field before k between before' v _ _ hbefore hk hbetween hbefore' hv =>
    simp only [List.length_append, List.length_cons] at hfuel
    refine ⟨v, readKey_field hbefore hk hbetween hbefore' hv _, ?_, ?_⟩
    · exact ih.value hv (apart_append hbehind (apart_cons hc.1)) (by omega)
    · rw [skipBlanks_append hbehind, skipBlanks_cons hc.2]

theorem Reads.fields_succ {fields : List (String × Json)} (ih : Reads fuel)
    (h : WritesFields w fields) (hfuel : w.length + 1 < fuel + 1) :
    readFields (fuel + 1) (w ++ '}' :: rest) = some (fields, rest) := by
  cases h with
  | last hw hbehind =>
    simp only [List.length_append] at hfuel
    obtain ⟨v, hkey, hvalue, hclose⟩ := ih.field (c := '}') hw hbehind (by omega) ⟨rfl, rfl⟩ rest
    rw [readFields]
    simp only [List.append_assoc, hkey, hvalue, Option.bind_eq_bind, Option.bind_some, hclose]
  | @cons _ _ rest' _ _ fields hw hbehind hrest =>
    simp only [List.length_append, List.length_cons] at hfuel
    obtain ⟨v, hkey, hvalue, hcomma⟩ := ih.field (c := ',') hw hbehind (by omega) ⟨rfl, rfl⟩
      (rest' ++ '}' :: rest)
    rw [readFields]
    simp only [List.append_assoc, List.cons_append, hkey, hvalue, Option.bind_eq_bind,
      Option.bind_some, hcomma, ih.fields hrest (by omega), Option.map_some]

theorem reads (fuel : Nat) : Reads fuel := by
  induction fuel with
  | zero =>
    exact ⟨fun _ _ h => absurd h (Nat.not_lt_zero _), fun _ h => absurd h (Nat.not_lt_zero _),
      fun _ h => absurd h (Nat.not_lt_zero _)⟩
  | succ fuel ih => exact ⟨ih.value_succ, ih.items_succ, ih.fields_succ⟩

/-- Every document is read, and as what it stands for. -/
theorem read?_document {text : String} (h : IsDocument text.toList j) : read? text = some j := by
  obtain ⟨before, w, behind, htext, hbefore, hw, hbehind⟩ := h
  have hskip : skipBlanks text.toList = w ++ behind := by
    rw [htext, skipBlanks_opens hbefore ((opens_writes hw).append behind)]
  have hfuel : w.length < text.length + 1 := by
    have hlength := congrArg List.length htext
    simp only [List.length_append, String.length_toList] at hlength
    omega
  have hapart : Apart behind := by
    rw [← List.append_nil behind]
    exact apart_append hbehind (fun _ h => nomatch h)
  have hend : skipBlanks behind = [] := by
    rw [← List.append_nil behind]
    exact skipBlanks_append hbehind []
  rw [read?, hskip, (reads _).value hw hapart hfuel]
  simp only [hend, if_true]

theorem read?_pretty (j : Json) : read? j.pretty = some j := read?_document (isDocument_pretty j)

end MFile.Json
