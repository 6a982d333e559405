import MFile.Proofs.Grammar.Placement.Files

/-!
Where a lone colon may stand. It is read inside of an argument list and looks at the token behind
it only, so it is an argument or a part of one: an operand, or an element of a matrix or a cell. No
lambda and no dynamic field comes in between.
-/

namespace MFile

/-- Steps to an operand, to a row or to an element of it. -/
def joins : Node × Relation → Bool
  | (.expr (.unary ..), _) | (.expr (.binary ..), _) | (.expr (.range ..), _) => true
  | (.expr (.matrix ..), _) | (.expr (.cell ..), _) | (.row _, _) => true
  | _ => false

namespace Node

variable {root node inner : Node} {way nearer farther : Way} {c : Child}

theorem reaches_append (h : root.Reaches way node) (hway : way = nearer ++ farther) :
    ∃ inner, root.Reaches farther inner ∧ inner.Reaches nearer node := by
  induction h generalizing nearer with
  | here =>
    obtain ⟨rfl, rfl⟩ := List.nil_eq_append_iff.1 hway
    exact ⟨root, .here, .here⟩
  | child h hc ih =>
    cases nearer with
    | nil =>
      obtain rfl := hway
      exact ⟨_, h.child hc, .here⟩
    | cons step nearer =>
      obtain ⟨rfl, hrest⟩ := List.cons.inj hway
      obtain ⟨inner, hfarther, hnearer⟩ := ih hrest
      exact ⟨inner, hfarther, hnearer.child hc⟩

theorem isValue_argument (node : Node) :
    ∀ c ∈ node.children, c.1.isArgument = true → c.2.isValue = true := by
  cases node with
  | unit u => cases u <;> simp [isValue, or_imp, forall_and]
  | stmt s => cases s <;> simp [isValue, or_imp, forall_and]
  | expr e =>
    cases e with
    | name n => cases n <;> simp [isValue, or_imp, forall_and]
    | _ => simp [isValue, or_imp, forall_and]
  | name n => cases n <;> simp [isValue, or_imp, forall_and]
  | block b =>
    intro c hc hargument
    rcases List.mem_append.1 hc with hc | hc
    · obtain ⟨a, -, rfl⟩ := List.mem_map.1 hc
      cases hargument
    · obtain ⟨item, -, rfl⟩ := List.mem_map.1 hc
      cases item <;> cases hargument
  | _ => simp [isValue, or_imp, forall_and]

/-- What an expression or a row is a part of, if that is neither an argument list nor the body of a
lambda nor a dynamic field. -/
def isPart : Node → Bool
  | expr _ | row _ => true
  | _ => false

theorem joins_of_part (hnode : node.isValue = true) : ∀ c ∈ node.children, c.2.isPart = true →
    c.1.isArgument = false → leavesArguments (node, c.1) = false →
      joins (node, c.1) = true ∧ node.isPart = true := by
  cases node with
  | name n => cases n <;> simp [isPart, joins, or_imp, forall_and]
  | row r => simp [isPart, joins]
  | signature s => simp [isPart, or_imp, forall_and]
  | expr e =>
    cases e with
    | name n => cases n <;> simp [isPart, joins, or_imp, forall_and]
    | _ => simp [isPart, joins, or_imp, forall_and]
  | _ => cases hnode

theorem joins_of_reaches (hroot : root.isValue = true) (h : root.Reaches way node)
    (hpart : node.isPart = true) (hway : ∀ step ∈ way,
      step.2.isArgument = false ∧ leavesArguments step = false) :
    ∀ step ∈ way, joins step = true := by
  induction h with
  | here => exact List.forall_mem_nil _
  | child h hc ih =>
    obtain ⟨⟨hargument, hleaves⟩, hway⟩ := List.forall_mem_cons.1 hway
    obtain ⟨hjoins, hpart⟩ := joins_of_part (h.isValue hroot) _ hc hpart hargument hleaves
    exact List.forall_mem_cons.2 ⟨hjoins, ih hpart hway⟩

theorem part_of_insideArguments (h : root.Reaches way node) (hpart : node.isPart = true)
    (hinside : insideArguments false way = true) : ∃ joined list outer,
      way = joined ++ list :: outer ∧ list.2.isArgument = true ∧
        ∀ step ∈ joined, joins step = true := by
  obtain ⟨joined, list, outer, hway, hargument, hjoined⟩ := exists_deciding hinside
  refine ⟨joined, list, outer, hway, hargument, ?_⟩
  obtain ⟨argument, hlist, hinner⟩ := reaches_append h hway
  cases hlist with
  | child _ hc =>
    exact joins_of_reaches (isValue_argument _ _ hc hargument) hinner hpart fun step hstep =>
      Bool.or_eq_false_iff.1 (hjoined step hstep)

end Node

namespace FileUnit

open Grammar.Parse

variable {source : SourceText} {settings : Settings} {unit : FileUnit} {way : Way} {site : Site}

/-- A lone colon is an argument, or a part of one: on the way up from it to the next argument list
there are only operations it is an operand of, and matrices and cells with their rows. -/
theorem ofSource_reshape (h : ofSource source settings = .ok unit)
    (hnode : (Node.unit unit).Reaches way (.expr (.reshape site))) : ∃ joined list outer,
      way = joined ++ list :: outer ∧ list.2.isArgument = true ∧
        ∀ step ∈ joined, joins step = true := by
  rw [ofSource] at h
  split at h
  · cases h
  · obtain ⟨st, hparse⟩ := outcome_ok h
    exact Node.part_of_insideArguments hnode rfl
      ((yields_fileUnit ⟨rfl, rfl⟩ hparse).2 way _ hnode)

/-- A colon that is an argument. -/
def column : SourceText := .ofString "t.m" "y = x(:, 1)\n" {}

def isColumn : FileUnit → Bool
  | .script _ [.assign _ _ (.name (.reference _ _ [.reshape _, _]))] [] => true
  | _ => false

theorem ofSource_reshape_column : ∃ unit way site, ofSource column {} = .ok unit ∧
    (Node.unit unit).Reaches way (.expr (.reshape site)) ∧ ∃ joined list outer,
      way = joined ++ list :: outer ∧ list.2.isArgument = true ∧
        ∀ step ∈ joined, joins step = true := by
  have hrun : (ofSource column {}).toOption.any isColumn = true := by decide +kernel
  cases hunit : ofSource column {} with
  | error e =>
    rw [hunit] at hrun
    cases hrun
  | ok unit =>
    rw [hunit] at hrun
    change isColumn unit = true at hrun
    unfold isColumn at hrun
    split at hrun
    · rename_i _ place assign y reference x colon one
      have hroot : (Node.unit (.script place [.assign assign y
          (.name (.reference reference x [.reshape colon, one]))] [])).Reaches [] _ := .here
      have hassign := hroot.child (c := (.statement, .stmt (.assign assign y
        (.name (.reference reference x [.reshape colon, one]))))) (by simp)
      have hcall := hassign.child (c := (.rhs, .expr
        (.name (.reference reference x [.reshape colon, one])))) (by simp)
      have hcolon := hcall.child (c := (.argument, .expr (.reshape colon))) (by simp)
      exact ⟨_, _, colon, rfl, hcolon, ofSource_reshape hunit hcolon⟩
    · cases hrun

/-- A colon behind a sign: the sign is not looked at. -/
def signedColon : SourceText := .ofString "t.m" "y = x(-:)\n" {}

def isSignedColon : FileUnit → Bool
  | .script _ [.assign _ _ (.name (.reference _ _ [.unary _ _ (.reshape _)]))] [] => true
  | _ => false

theorem ofSource_signedColon : ∃ unit way site, ofSource signedColon {} = .ok unit ∧
    (Node.unit unit).Reaches way (.expr (.reshape site)) ∧
      ¬ ∃ list outer, way = list :: outer ∧ list.2.isArgument = true := by
  have hrun : (ofSource signedColon {}).toOption.any isSignedColon = true := by decide +kernel
  cases hunit : ofSource signedColon {} with
  | error e =>
    rw [hunit] at hrun
    cases hrun
  | ok unit =>
    rw [hunit] at hrun
    change isSignedColon unit = true at hrun
    unfold isSignedColon at hrun
    split at hrun
    · rename_i _ place assign y reference x signed op colon
      have hroot : (Node.unit (.script place [.assign assign y
          (.name (.reference reference x [.unary signed op (.reshape colon)]))] [])).Reaches
            [] _ := .here
      have hassign := hroot.child (c := (.statement, .stmt (.assign assign y
        (.name (.reference reference x [.unary signed op (.reshape colon)]))))) (by simp)
      have hcall := hassign.child (c := (.rhs, .expr
        (.name (.reference reference x [.unary signed op (.reshape colon)])))) (by simp)
      have hargument := hcall.child (c := (.argument, .expr
        (.unary signed op (.reshape colon)))) (by simp)
      have hcolon := hargument.child (c := (.operand, .expr (.reshape colon))) (by simp)
      refine ⟨_, _, colon, rfl, hcolon, ?_⟩
      rintro ⟨list, outer, hway, hlist⟩
      cases hway
      cases hlist
    · cases hrun

end FileUnit

end MFile
