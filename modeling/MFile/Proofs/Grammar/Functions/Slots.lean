import Mathlib.Data.List.Basic
import Mathlib.Data.Option.Basic
import MFile.Grammar.Nesting

/-!
The pass that nests a run, read from the front. It goes back through the places of the functions;
each leaves its place for the function it was read inside of, which still waits in its own, and what
has come to a function stands there last first until it leaves. At any point the places hold the
functions not yet reached, with what has come to them from behind. So the pass gives what a reading
from the front gives that takes the functions of each out of those behind it, whatever the run is.
-/

namespace MFile.Grammar.FunctionRun

/-- The functions of the entries from `index` on, each with its nested functions in place, and
with the parent that it still has to find. -/
def nestFrom : Nat → List RunEntry → List (Option Nat × FunctionDef)
  | _, [] => []
  | index, entry :: entries =>
    let later := nestFrom (index + 1) entries
    match entry.function with
    | none => later
    | some function =>
      let inner := later.filter (·.1 == some index)
      (entry.parent, { function with nested := inner.map (·.2) ++ function.nested.reverse }) ::
        later.filter (·.1 != some index)

namespace Slots

variable {es : List RunEntry} {index p : Nat} {slots : Slots} {f outer : FunctionDef}
  {parent : Option Nat} {later : List (Option Nat × FunctionDef)}

def functionAt (es : List RunEntry) (p : Nat) : Option FunctionDef := es[p]?.bind (·.function)

theorem nestFrom_of_none (h : functionAt es index = none) :
    nestFrom index (es.drop index) = nestFrom (index + 1) (es.drop (index + 1)) := by
  by_cases hi : index < es.length
  · rw [functionAt, List.getElem?_eq_getElem hi, Option.bind_some] at h
    rw [List.drop_eq_getElem_cons hi, nestFrom, h]
  · have hi := Nat.le_of_not_lt hi
    rw [List.drop_eq_nil_of_le hi, List.drop_eq_nil_of_le (Nat.le_succ_of_le hi)]
    rfl

theorem nestFrom_of_some (h : functionAt es index = some f) :
    ∃ entry, es[index]? = some entry ∧ nestFrom index (es.drop index) =
      (entry.parent, { f with nested :=
          ((nestFrom (index + 1) (es.drop (index + 1))).filter (·.1 == some index)).map (·.2) ++
            f.nested.reverse }) ::
        (nestFrom (index + 1) (es.drop (index + 1))).filter (·.1 != some index) := by
  obtain ⟨entry, hentry, hf⟩ := Option.bind_eq_some_iff.1 h
  obtain ⟨hi, rfl⟩ := List.getElem?_eq_some_iff.1 hentry
  refine ⟨_, hentry, ?_⟩
  rw [List.drop_eq_getElem_cons hi, nestFrom, hf]

/-! ## Places -/

theorem join_getElem?_set {α : Type} {l : List (Option α)} {i : Nat} {a : α}
    (h : l[i]?.join = some a) (b : Option α) (j : Nat) :
    (l.set i b)[j]?.join = if i = j then b else l[j]?.join := by
  have hi : i < l.length := by
    by_contra hi
    rw [List.getElem?_eq_none (Nat.le_of_not_lt hi)] at h
    cases h
  rw [List.getElem?_set, if_pos hi]
  split <;> rfl

theorem comeTo_some (h : slots.waiting[p]?.join = some outer) (f : FunctionDef) :
    slots.comeTo (some p) f = { slots with
      waiting := slots.waiting.set p (some { outer with nested := outer.nested ++ [f] }) } := by
  rw [comeTo, Option.bind_some, h]
  rfl

theorem comeTo_none (h : ∀ p ∈ parent, slots.waiting[p]?.join = none) (f : FunctionDef) :
    slots.comeTo parent f = { slots with roots := slots.roots ++ [f] } := by
  cases parent with
  | none => rfl
  | some p =>
    rw [comeTo, Option.bind_some, h p rfl]
    rfl

def HasPlace (es : List RunEntry) (index : Nat) (parent : Option Nat) : Prop :=
  ∃ p, parent = some p ∧ p < index ∧ (functionAt es p).isSome = true

instance (es : List RunEntry) (index : Nat) (parent : Option Nat) :
    Decidable (HasPlace es index parent) :=
  match parent with
  | none => .isFalse fun h => nomatch h
  | some p => decidable_of_iff (p < index ∧ (functionAt es p).isSome = true)
      ⟨fun h => ⟨p, rfl, h⟩, fun ⟨_, hp, h⟩ => Option.some.inj hp ▸ h⟩

theorem hasPlace_succ_iff (h : functionAt es index = some f) :
    HasPlace es (index + 1) parent ↔ parent = some index ∨ HasPlace es index parent := by
  constructor
  · rintro ⟨p, rfl, hp, hf⟩
    obtain hp | rfl := Nat.lt_succ_iff_lt_or_eq.1 hp
    · exact .inr ⟨p, rfl, hp, hf⟩
    · exact .inl rfl
  · rintro (rfl | ⟨p, rfl, hp, hf⟩)
    · exact ⟨index, rfl, Nat.lt_succ_self index, h ▸ rfl⟩
    · exact ⟨p, rfl, Nat.lt_succ_of_lt hp, hf⟩

theorem hasPlace_succ_of_none (h : functionAt es index = none) :
    HasPlace es (index + 1) parent ↔ HasPlace es index parent := by
  refine exists_congr fun p => and_congr_right fun _ => and_congr_left fun hf => ?_
  have hne : p ≠ index := by
    rintro rfl
    rw [h] at hf
    cases hf
  omega

def received (later : List (Option Nat × FunctionDef)) (p : Nat) (f : FunctionDef) : FunctionDef :=
  { f with nested := f.nested ++ ((later.filter (·.1 == some p)).map (·.2)).reverse }

theorem received_cons (r : Option Nat × FunctionDef) (f : FunctionDef) :
    received (r :: later) p f = if r.1 = some p then
      { received later p f with nested := (received later p f).nested ++ [r.2] }
    else received later p f := by
  rw [received, List.filter_cons]
  by_cases hr : r.1 = some p
  · rw [if_pos hr, if_pos (beq_iff_eq.2 hr), List.map_cons, List.reverse_cons, ← List.append_assoc]
    rfl
  · rw [if_neg hr, if_neg (by simpa using hr)]
    rfl

theorem received_others (hne : p ≠ index) :
    received (later.filter (·.1 != some index)) p = received later p := by
  have hothers : (later.filter (·.1 != some index)).filter (·.1 == some p) =
      later.filter (·.1 == some p) := by
    rw [List.filter_filter]
    refine List.filter_congr fun r _ => Bool.and_eq_left_iff_imp.2 fun hr => ?_
    rw [beq_iff_eq.1 hr]
    simpa using hne
  funext f
  rw [received, hothers, received]

/-- The pass has gone back to `index`: what it has nested has come to the functions before that, or
is in none. -/
structure Back (es : List RunEntry) (index : Nat) (later : List (Option Nat × FunctionDef))
    (slots : Slots) : Prop where
  waiting : ∀ p, slots.waiting[p]?.join =
    if p < index then (functionAt es p).map (received later p) else none
  roots : slots.roots.reverse = (later.filter fun r => ¬ HasPlace es index r.1).map (·.2)

theorem back_start (es : List RunEntry) : Back es es.length [] ⟨es.map (·.function), []⟩ := by
  refine ⟨fun p => ?_, rfl⟩
  have hreceived : received [] p = id := by
    funext f
    cases f
    simp [received]
  rw [hreceived, Option.map_id_fun, functionAt, List.getElem?_map]
  split
  · rename_i hp
    rw [List.getElem?_eq_getElem hp]
    rfl
  · rename_i hp
    rw [List.getElem?_eq_none (Nat.le_of_not_lt hp)]
    rfl

namespace Back

/-! ## One function leaves its place -/

theorem settle_none (h : Back es (index + 1) later slots) (hf : functionAt es index = none) :
    Back es index later (slots.settle (es.map (·.parent)) index) := by
  have hempty := h.waiting index
  rw [if_pos (Nat.lt_succ_self index), hf, Option.map_none] at hempty
  rw [Slots.settle, hempty]
  refine ⟨fun p => ?_, ?_⟩
  · rw [h.waiting]
    obtain hp | rfl | hp := Nat.lt_trichotomy p index
    · rw [if_pos (Nat.lt_succ_of_lt hp), if_pos hp]
    · rw [if_pos (Nat.lt_succ_self p), if_neg (Nat.lt_irrefl p), hf]
      rfl
    · rw [if_neg (by omega), if_neg (by omega)]
  · rw [h.roots]
    simp only [hasPlace_succ_of_none hf]

theorem waiting_own (h : Back es (index + 1) later slots) (hf : functionAt es index = some f) :
    slots.waiting[index]?.join = some (received later index f) := by
  rw [h.waiting, if_pos (Nat.lt_succ_self index), hf, Option.map_some]

theorem leave (h : Back es (index + 1) later slots) (hf : functionAt es index = some f) :
    Back es index (later.filter (·.1 != some index))
      { slots with waiting := slots.waiting.set index none } := by
  refine ⟨fun p => ?_, ?_⟩
  · rw [join_getElem?_set (h.waiting_own hf), h.waiting]
    obtain hp | rfl | hp := Nat.lt_trichotomy p index
    · rw [if_neg (Nat.ne_of_gt hp), if_pos (Nat.lt_succ_of_lt hp), if_pos hp,
        received_others (Nat.ne_of_lt hp)]
    · rw [if_pos rfl, if_neg (Nat.lt_irrefl p)]
    · rw [if_neg (Nat.ne_of_lt hp), if_neg (by omega), if_neg (by omega)]
  · rw [h.roots, List.filter_filter]
    refine congrArg _ (List.filter_congr fun r _ => ?_)
    rw [Bool.eq_iff_iff]
    simp [hasPlace_succ_iff hf, not_or, and_comm]

theorem comeTo (h : Back es index later slots) (parent : Option Nat) (g : FunctionDef) :
    Back es index ((parent, g) :: later) (slots.comeTo (parent.filter (· < index)) g) := by
  by_cases hplace : HasPlace es index parent
  · -- It is the last to come, and the one that stands first among those behind `index`.
    obtain ⟨p, rfl, hp, hwaits⟩ := hplace
    obtain ⟨outer, houter⟩ := Option.isSome_iff_exists.1 hwaits
    have hfound := h.waiting p
    rw [if_pos hp, houter, Option.map_some] at hfound
    rw [Option.filter_some, if_pos (decide_eq_true hp), comeTo_some hfound]
    refine ⟨fun q => ?_, ?_⟩
    · rw [join_getElem?_set hfound, h.waiting, funext (received_cons (some p, g))]
      by_cases hpq : p = q
      · subst hpq
        rw [if_pos rfl, if_pos hp, houter, Option.map_some, if_pos rfl]
      · simp [hpq]
    · rw [h.roots, List.filter_cons_of_neg]
      simpa using ⟨p, rfl, hp, hwaits⟩
  · have hnone : ∀ p ∈ parent.filter (· < index), slots.waiting[p]?.join = none := by
      intro p hp
      obtain ⟨hparent, hp⟩ := Option.mem_filter_iff.1 hp
      have hp := of_decide_eq_true hp
      rw [h.waiting, if_pos hp, Option.map_eq_none_iff, ← Option.not_isSome_iff_eq_none]
      exact fun hwaits => hplace ⟨p, hparent, hp, hwaits⟩
    rw [comeTo_none hnone]
    refine ⟨fun q => ?_, ?_⟩
    · rw [h.waiting]
      by_cases hq : q < index
      · rw [if_pos hq, if_pos hq]
        refine Option.map_congr fun outer houter => ?_
        rw [received_cons, if_neg]
        exact fun hparent => hplace ⟨q, hparent, hq, Option.isSome_of_mem houter⟩
      · rw [if_neg hq, if_neg hq]
    · rw [List.reverse_append, h.roots, List.filter_cons_of_pos (by simpa using hplace)]
      rfl

theorem settle_some {entry : RunEntry} (h : Back es (index + 1) later slots)
    (hentry : es[index]? = some entry) (hf : functionAt es index = some f) : Back es index
      ((entry.parent, { f with nested :=
          (later.filter (·.1 == some index)).map (·.2) ++ f.nested.reverse }) ::
        later.filter (·.1 != some index)) (slots.settle (es.map (·.parent)) index) := by
  have hcome := fun g => (h.leave hf).comeTo entry.parent g
  rw [Slots.settle, h.waiting_own hf]
  dsimp only [received]
  rw [List.reverse_append, List.reverse_reverse, List.getElem?_map, hentry, Option.map_some,
    Option.join_some]
  exact hcome _

/-! ## The whole pass -/

theorem settle (h : Back es (index + 1) (nestFrom (index + 1) (es.drop (index + 1))) slots) :
    Back es index (nestFrom index (es.drop index)) (slots.settle (es.map (·.parent)) index) := by
  cases hf : functionAt es index with
  | none =>
    rw [nestFrom_of_none hf]
    exact h.settle_none hf
  | some f =>
    obtain ⟨entry, hentry, hnest⟩ := nestFrom_of_some hf
    rw [hnest]
    exact h.settle_some hentry hf

theorem settleBelow (h : Back es index (nestFrom index (es.drop index)) slots) :
    Back es 0 (nestFrom 0 es) (slots.settleBelow (es.map (·.parent)) index) := by
  induction index generalizing slots with
  | zero => exact h
  | succ index ih => exact ih h.settle

end Back

end Slots

/-- Going back through its places nests a run as reading it from the front does. -/
theorem nest_eq (run : FunctionRun) : run.nest = (nestFrom 0 run.entries).map (·.2) := by
  have hstart := Slots.back_start run.entries
  have hdrop : [] = nestFrom run.entries.length (run.entries.drop run.entries.length) := by
    rw [List.drop_length]
    rfl
  rw [hdrop] at hstart
  have hroots := hstart.settleBelow.roots
  rw [List.filter_eq_self.2 fun r _ => ?_] at hroots
  · exact hroots
  · exact decide_eq_true fun ⟨p, _, hp, _⟩ => Nat.not_lt_zero p hp

end MFile.Grammar.FunctionRun
