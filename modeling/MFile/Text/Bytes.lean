/-!
Byte offsets into a text. A text is a list of characters and an offset counts the bytes of its
UTF-8 form, so an offset may fall inside a character; cutting there has no answer. A text is also
cut into pieces at a separator, which belongs to none of them.
-/

namespace MFile.Text

def byteCount : List Char → Nat
  | [] => 0
  | c :: cs => c.utf8Size + byteCount cs

/-- The text after `n` bytes, if they end on a character boundary of it. -/
def dropBytes? : Nat → List Char → Option (List Char)
  | 0, cs => some cs
  | _ + 1, [] => none
  | n + 1, c :: cs => if c.utf8Size ≤ n + 1 then dropBytes? (n + 1 - c.utf8Size) cs else none

def takeBytes? : Nat → List Char → Option (List Char)
  | 0, _ => some []
  | _ + 1, [] => none
  | n + 1, c :: cs =>
    if c.utf8Size ≤ n + 1 then (takeBytes? (n + 1 - c.utf8Size) cs).map (c :: ·) else none

def slice? (cs : List Char) (start stop : Nat) : Option (List Char) :=
  if start ≤ stop then (dropBytes? start cs).bind (takeBytes? (stop - start)) else none

def lastIndex? (c : Char) : List Char → Option Nat
  | [] => none
  | d :: ds =>
    match lastIndex? c ds with
    | some index => some (d.utf8Size + index)
    | none => if d = c then some 0 else none

@[simp] theorem byteCount_nil : byteCount [] = 0 := rfl

@[simp] theorem byteCount_cons (c : Char) (cs : List Char) :
    byteCount (c :: cs) = c.utf8Size + byteCount cs := rfl

@[simp] theorem byteCount_append (a b : List Char) :
    byteCount (a ++ b) = byteCount a + byteCount b := by
  induction a with
  | nil => simp
  | cons c a ih => rw [List.cons_append, byteCount_cons, byteCount_cons, ih, Nat.add_assoc]

theorem dropBytes?_append (a b : List Char) : dropBytes? (byteCount a) (a ++ b) = some b := by
  induction a with
  | nil => simp [dropBytes?]
  | cons c a ih =>
    have hc := Char.utf8Size_pos c
    obtain ⟨n, hn⟩ : ∃ n, c.utf8Size + byteCount a = n + 1 :=
      ⟨c.utf8Size + byteCount a - 1, by omega⟩
    rw [byteCount_cons, hn, List.cons_append, dropBytes?, if_pos (by omega),
      show n + 1 - c.utf8Size = byteCount a by omega, ih]

theorem takeBytes?_append (a b : List Char) : takeBytes? (byteCount a) (a ++ b) = some a := by
  induction a with
  | nil => simp [takeBytes?]
  | cons c a ih =>
    have hc := Char.utf8Size_pos c
    obtain ⟨n, hn⟩ : ∃ n, c.utf8Size + byteCount a = n + 1 :=
      ⟨c.utf8Size + byteCount a - 1, by omega⟩
    rw [byteCount_cons, hn, List.cons_append, takeBytes?, if_pos (by omega),
      show n + 1 - c.utf8Size = byteCount a by omega, ih]
    rfl

/-! ## Pieces -/

/-- There is always one piece more than there are separators. -/
def pieces (separator : Char) : List Char → List (List Char)
  | [] => [[]]
  | c :: cs =>
    if c = separator then [] :: pieces separator cs
    else
      match pieces separator cs with
      | [] => [[c]]
      | piece :: rest => (c :: piece) :: rest

theorem length_pieces (separator : Char) (cs : List Char) :
    (pieces separator cs).length = cs.count separator + 1 := by
  induction cs with
  | nil => rfl
  | cons c cs ih =>
    by_cases h : c = separator
    · simp [pieces, h, ih]
    · simp only [pieces, if_neg h, List.count_cons, beq_iff_eq]
      cases hp : pieces separator cs with
      | nil => simp [hp] at ih
      | cons piece rest => simpa [hp] using ih

end MFile.Text
