import Mathlib.Data.Nat.Digits.Defs
import Mathlib.Tactic.SplitIfs
import MFile.Report.Json

/-!
Which texts are JSON, and what they stand for. Blanks may stand around every token; a string writes
a character as it is, by a letter or by its code, and a control in one of the last two ways only.
Numbers are natural and have no leading zeros, since a report writes no others. The indented form of
a value is a text of this grammar, and it stands for that value.
-/

namespace MFile.Json

def isBlank (c : Char) : Bool := c = ' ' || c = '\n' || c = '\r' || c = '\t'

def Blank (cs : List Char) : Prop := ∀ c ∈ cs, isBlank c = true

def hexDigit? (c : Char) : Option Nat :=
  if '0' ≤ c ∧ c ≤ '9' then some (c.toNat - '0'.toNat)
  else if 'a' ≤ c ∧ c ≤ 'f' then some (c.toNat - 'a'.toNat + 10)
  else if 'A' ≤ c ∧ c ≤ 'F' then some (c.toNat - 'A'.toNat + 10)
  else none

def hexCode? (digits : List Char) : Option Nat :=
  (digits.mapM hexDigit?).map (·.foldl (fun n digit => 16 * n + digit) 0)

def letter? : Char → Option Char
  | '"' => some '"'
  | '\\' => some '\\'
  | '/' => some '/'
  | 'b' => some (Char.ofNat 0x08)
  | 'f' => some (Char.ofNat 0x0C)
  | 'n' => some '\n'
  | 'r' => some '\r'
  | 't' => some '\t'
  | _ => none

inductive SpellsChar : List Char → Char → Prop
  | plain {c : Char} (hquote : c ≠ '"') (hslash : c ≠ '\\') (hcontrol : 0x20 ≤ c.toNat) :
    SpellsChar [c] c
  | letter {l c : Char} (h : letter? l = some c) : SpellsChar ['\\', l] c
  | code {a b c d : Char} {n : Nat} (h : hexCode? [a, b, c, d] = some n) (hn : n.isValidChar) :
    SpellsChar ['\\', 'u', a, b, c, d] (Char.ofNat n)

inductive SpellsAll : List Char → List Char → Prop
  | nil : SpellsAll [] []
  | cons {w ws cs : List Char} {c : Char} (hc : SpellsChar w c) (hcs : SpellsAll ws cs) :
    SpellsAll (w ++ ws) (c :: cs)

def Spells (w : List Char) (text : String) : Prop :=
  ∃ inside, w = '"' :: (inside ++ ['"']) ∧ SpellsAll inside text.toList

structure IsNatural (digits : List Char) : Prop where
  ne_nil : digits ≠ []
  isDigit : ∀ c ∈ digits, c.isDigit = true
  leading : digits.head? = some '0' → digits = ['0']

mutual

/-- The text of a value, without blanks around it. -/
inductive Writes : List Char → Json → Prop
  | null : Writes "null".toList null
  | true : Writes "true".toList (bool true)
  | false : Writes "false".toList (bool false)
  | number {digits : List Char} (h : IsNatural digits) :
    Writes digits (number (Nat.ofDigitChars 10 digits 0))
  | string {w : List Char} {text : String} (h : Spells w text) : Writes w (string text)
  | noItems {blank : List Char} (h : Blank blank) : Writes ('[' :: (blank ++ [']'])) (array [])
  | array {w : List Char} {items : List Json} (h : WritesItems w items) :
    Writes ('[' :: (w ++ [']'])) (array items)
  | noFields {blank : List Char} (h : Blank blank) : Writes ('{' :: (blank ++ ['}'])) (object [])
  | object {w : List Char} {fields : List (String × Json)} (h : WritesFields w fields) :
    Writes ('{' :: (w ++ ['}'])) (object fields)

inductive WritesItems : List Char → List Json → Prop
  | last {before w behind : List Char} {item : Json} (hbefore : Blank before) (hw : Writes w item)
    (hbehind : Blank behind) : WritesItems (before ++ (w ++ behind)) [item]
  | cons {before w behind rest : List Char} {item : Json} {items : List Json}
    (hbefore : Blank before) (hw : Writes w item) (hbehind : Blank behind)
    (hrest : WritesItems rest items) :
    WritesItems (before ++ (w ++ (behind ++ ',' :: rest))) (item :: items)

inductive WritesFields : List Char → List (String × Json) → Prop
  | last {w behind : List Char} {key : String} {value : Json} (hw : WritesField w key value)
    (hbehind : Blank behind) : WritesFields (w ++ behind) [(key, value)]
  | cons {w behind rest : List Char} {key : String} {value : Json} {fields : List (String × Json)}
    (hw : WritesField w key value) (hbehind : Blank behind) (hrest : WritesFields rest fields) :
    WritesFields (w ++ (behind ++ ',' :: rest)) ((key, value) :: fields)

inductive WritesField : List Char → String → Json → Prop
  | field {before k between before' w : List Char} {key : String} {value : Json}
    (hbefore : Blank before) (hk : Spells k key) (hbetween : Blank between)
    (hbefore' : Blank before') (hw : Writes w value) :
    WritesField (before ++ (k ++ (between ++ ':' :: (before' ++ w)))) key value

end

/-- A whole text that stands for a value. -/
def IsDocument (text : List Char) (j : Json) : Prop :=
  ∃ before w behind, text = before ++ (w ++ behind) ∧ Blank before ∧ Writes w j ∧ Blank behind

/-! ## What is printed -/

theorem blank_nil : Blank [] := List.forall_mem_nil _

theorem blank_newLine (depth : Nat) : Blank (newLine depth) := by
  intro c hc
  rcases List.mem_cons.1 hc with rfl | hc
  · rfl
  · rw [List.eq_of_mem_replicate hc]
    rfl

theorem hexCode?_hexDigits {n : Nat} (h : n < 0x20) :
    hexCode? (hexDigits n) = some n ∧ n.isValidChar := by
  revert n
  decide

theorem spellsChar_letter {l c : Char} {n : Nat} (hc : c.toNat = n)
    (h : letter? l = some (Char.ofNat n)) : SpellsChar ['\\', l] c := by
  subst hc
  rw [Char.ofNat_toNat] at h
  exact .letter h

theorem spellsChar_escaped (c : Char) : SpellsChar (escaped c) c := by
  rw [escaped]
  split_ifs with hquote hslash hback htab hline hform hreturn hcontrol
  · rw [hquote]
    exact .letter rfl
  · rw [hslash]
    exact .letter rfl
  · exact spellsChar_letter hback rfl
  · exact spellsChar_letter htab rfl
  · exact spellsChar_letter hline rfl
  · exact spellsChar_letter hform rfl
  · exact spellsChar_letter hreturn rfl
  · obtain ⟨hhex, hvalid⟩ := hexCode?_hexDigits hcontrol
    have hspells := SpellsChar.code hhex hvalid
    rwa [Char.ofNat_toNat] at hspells
  · exact .plain hquote hslash (Nat.not_lt.1 hcontrol)

theorem spells_quoted (text : String) : Spells (quoted text) text := by
  refine ⟨text.toList.flatMap escaped, rfl, ?_⟩
  induction text.toList with
  | nil => exact .nil
  | cons c cs ih =>
    rw [List.flatMap_cons]
    exact .cons (spellsChar_escaped c) ih

theorem isNatural_toDigits (n : Nat) : IsNatural (Nat.toDigits 10 n) := by
  refine ⟨Nat.toDigits_ne_nil, fun c hc => Nat.isDigit_of_mem_toDigits (by decide) (by decide) hc,
    ?_⟩
  -- By strong induction: behind the first digit of a longer number stands at least one more.
  induction n using Nat.strong_induction_on with
  | h n ih =>
    rw [Nat.toDigits_eq_if (by decide)]
    split
    · rename_i hn
      intro hhead
      rw [List.head?_cons, Option.some.injEq] at hhead
      rw [hhead]
    · rename_i hn
      intro hhead
      obtain ⟨first, digits, hdigits⟩ := List.exists_cons_of_ne_nil
        (Nat.toDigits_ne_nil (n := n / 10) (b := 10))
      rw [hdigits] at hhead
      have hfront := ih (n / 10) (by omega) (by rwa [hdigits])
      have hvalue := Nat.ofDigitChars_toDigits (n := n / 10) (b := 10) (by decide) (by decide)
      rw [hfront] at hvalue
      have hzero : Nat.ofDigitChars 10 ['0'] 0 = 0 := by decide
      omega

theorem writes_number (n : Nat) : Writes (toString n).toList (number n) := by
  have h := Writes.number (isNatural_toDigits n)
  rw [Nat.toString_eq_ofList_toDigits, String.toList_ofList]
  rwa [Nat.ofDigitChars_toDigits (by decide) (by decide)] at h

theorem blank_space : Blank [' '] := List.forall_mem_singleton.2 rfl

theorem writesField_spread {depth : Nat} {value : Json} (h : Writes (value.spread depth) value)
    (key : String) :
    WritesField (newLine depth ++ (quoted key ++ ':' :: ' ' :: value.spread depth)) key value :=
  .field (blank_newLine depth) (spells_quoted key) blank_nil blank_space h

mutual

theorem writes_spread (depth : Nat) : (j : Json) → Writes (j.spread depth) j
  | .null => by
    rw [spread.eq_def]
    exact .null
  | .bool true => by
    rw [spread.eq_def]
    exact .true
  | .bool false => by
    rw [spread.eq_def]
    exact .false
  | .number n => by
    rw [spread.eq_def]
    exact writes_number n
  | .string text => by
    rw [spread.eq_def]
    exact .string (spells_quoted text)
  | .array [] => by
    rw [spread.eq_def]
    exact .noItems blank_nil
  | .array (item :: items) => by
    rw [spread]
    exact .array (writesItems_spread (depth + 1) (blank_newLine depth) (item :: items)
      (List.cons_ne_nil _ _))
  | .object [] => by
    rw [spread.eq_def]
    exact .noFields blank_nil
  | .object (field :: fields) => by
    rw [spread]
    exact .object (writesFields_spread (depth + 1) (blank_newLine depth) (field :: fields)
      (List.cons_ne_nil _ _))

theorem writesItems_spread (depth : Nat) {behind : List Char} (hbehind : Blank behind) :
    (items : List Json) → items ≠ [] → WritesItems (spreadItems depth items ++ behind) items
  | [], hitems => absurd rfl hitems
  | [item], _ => by
    rw [spreadItems, List.append_assoc]
    exact .last (blank_newLine depth) (writes_spread depth item) hbehind
  | item :: next :: items, _ => by
    have hrest := writesItems_spread depth hbehind (next :: items) (List.cons_ne_nil _ _)
    rw [spreadItems, List.append_assoc, List.append_assoc]
    · exact .cons (blank_newLine depth) (writes_spread depth item) blank_nil hrest
    · exact List.cons_ne_nil _ _

theorem writesFields_spread (depth : Nat) {behind : List Char} (hbehind : Blank behind) :
    (fields : List (String × Json)) → fields ≠ [] →
      WritesFields (spreadFields depth fields ++ behind) fields
  | [], hfields => absurd rfl hfields
  | [(key, value)], _ => by
    rw [spreadFields]
    exact .last (writesField_spread (writes_spread depth value) key) hbehind
  | (key, value) :: next :: fields, _ => by
    have hfield := writesField_spread (writes_spread depth value) key
    have hrest := writesFields_spread depth hbehind (next :: fields) (List.cons_ne_nil _ _)
    rw [spreadFields]
    · simpa using WritesFields.cons hfield blank_nil hrest
    · exact List.cons_ne_nil _ _

end

theorem isDocument_pretty (j : Json) : IsDocument j.pretty.toList j := by
  refine ⟨[], j.spread 0, [], ?_, blank_nil, writes_spread 0 j, blank_nil⟩
  rw [pretty, String.toList_ofList, List.append_nil, List.nil_append]

end MFile.Json
