import Mathlib.Data.List.DropRight
import MFile.Report.Collector

/-!
Files that are worked on side by side. What is released when a file is closed depends on the calls
about that file alone: on the messages for it since it was opened or closed last. So the order in
which the calls about different files come decides only the order of the batches.
-/

namespace MFile

/-! ## Arranged messages -/

namespace Location

theorem order_eq (a b : Location) :
    a.order b = compareLex (compareOn Location.file) (compareOn Location.rank) a b := rfl

theorem order_total (a b : Location) : ((a.order b).isLE || (b.order a).isLE) = true := by
  have hswap : b.order a = (a.order b).swap := by
    rw [order_eq, order_eq]
    exact Std.OrientedCmp.eq_swap
  rw [hswap]
  cases a.order b <;> rfl

theorem order_trans {a b c : Location} (hab : (a.order b).isLE = true)
    (hbc : (b.order c).isLE = true) : (a.order c).isLE = true := by
  rw [order_eq] at *
  exact Std.TransCmp.isLE_trans hab hbc

theorem order_isLE_of_eq {a b l : Location} (ha : a.order l = .eq) (hb : b.order l = .eq) :
    (a.order b).isLE = true := by
  rw [order_eq] at *
  rw [Std.TransCmp.congr_left ha, Std.OrientedCmp.eq_symm hb]
  rfl

end Location

/-- The same messages by location, those at one location in the order they came in. -/
structure Message.StablySorted (messages sorted : List Message) : Prop where
  perm : sorted.Perm messages
  ordered : sorted.Pairwise fun a b => (a.location.order b.location).isLE = true
  stable : ∀ l : Location, sorted.filter (·.location.order l == .eq) =
    messages.filter (·.location.order l == .eq)

/-- Each run of equal messages gives way to its first, and no two neighbours are equal after. -/
def Message.Merged (messages merged : List Message) : Prop :=
  ∃ runs : List (Message × List Message),
    messages = runs.flatMap (fun run => run.1 :: run.2) ∧ merged = runs.map (·.1) ∧
      (∀ run ∈ runs, ∀ m ∈ run.2, run.1.agrees m = true) ∧
        merged.IsChain fun a b => a.agrees b = false

namespace Collector

open Message

theorem stablySorted_mergeSort (messages : List Message) :
    StablySorted messages (messages.mergeSort fun a b => (a.location.order b.location).isLE) := by
  have htrans : ∀ a b c : Message, (a.location.order b.location).isLE = true →
      (b.location.order c.location).isLE = true → (a.location.order c.location).isLE = true :=
    fun _ _ _ => Location.order_trans
  have htotal : ∀ a b : Message,
      ((a.location.order b.location).isLE || (b.location.order a.location).isLE) = true :=
    fun _ _ => Location.order_total _ _
  have hperm := List.mergeSort_perm messages fun a b => (a.location.order b.location).isLE
  refine ⟨hperm, List.pairwise_mergeSort htrans htotal messages, fun l => ?_⟩
  have hsame : (messages.filter (·.location.order l == .eq)).Pairwise
      fun a b => (a.location.order b.location).isLE = true := by
    refine List.pairwise_of_forall_mem_list fun a ha b hb => ?_
    exact Location.order_isLE_of_eq (beq_iff_eq.1 (List.mem_filter.1 ha).2)
      (beq_iff_eq.1 (List.mem_filter.1 hb).2)
  have hsub := (List.sublist_mergeSort htrans htotal hsame List.filter_sublist).filter
    (·.location.order l == .eq)
  rw [List.filter_filter, funext fun m => Bool.and_self _] at hsub
  exact (hsub.eq_of_length_le (hperm.filter _).length_eq.le).symm

theorem agrees_congr {a b c : Message} (h : a.agrees b = true) : b.agrees c = a.agrees c := by
  simp only [agrees, Location.agrees, Bool.and_eq_true, beq_iff_eq] at h
  obtain ⟨⟨⟨⟨⟨hfile, hrank⟩, hseverity⟩, htext⟩, hhint⟩, hfatal⟩ := h
  rw [agrees, agrees, Location.agrees, Location.agrees, hfile, hrank, hseverity, htext, hhint,
    hfatal]

theorem merged_mergeRuns (messages : List Message) : Merged messages (mergeRuns messages) := by
  induction messages with
  | nil => exact ⟨[], rfl, rfl, List.forall_mem_nil _, .nil⟩
  | cons m messages ih =>
    obtain ⟨runs, hruns, hmerged, hagree, hchain⟩ := ih
    rw [mergeRuns]
    split
    · rename_i hnone
      rw [hnone] at hmerged
      obtain rfl := List.map_eq_nil_iff.1 hmerged.symm
      exact ⟨[(m, [])], by rw [hruns]; rfl, rfl, by simp, .singleton _⟩
    · rename_i next others hnext
      rw [hnext] at hmerged hchain
      obtain ⟨run, later, rfl, rfl, rfl⟩ := List.map_eq_cons_iff.1 hmerged.symm
      obtain ⟨hrun, hlater⟩ := List.forall_mem_cons.1 hagree
      split
      · rename_i hm
        refine ⟨(m, run.1 :: run.2) :: later, by rw [hruns]; rfl, rfl,
          List.forall_mem_cons.2 ⟨List.forall_mem_cons.2 ⟨hm, fun x hx => ?_⟩, hlater⟩, ?_⟩
        · rw [← agrees_congr hm]
          exact hrun x hx
        · cases hothers : later.map (·.1) with
          | nil => exact .singleton _
          | cons x others =>
            rw [hothers] at hchain
            obtain ⟨hx, htail⟩ := List.isChain_cons_cons.1 hchain
            exact .cons_cons ((agrees_congr hm).symm.trans hx) htail
      · rename_i hm
        exact ⟨(m, []) :: run :: later, by rw [hruns]; rfl, rfl,
          List.forall_mem_cons.2 ⟨List.forall_mem_nil _, hagree⟩,
          .cons_cons (Bool.eq_false_iff.2 hm) hchain⟩

/-! ## Calls -/

inductive Call
  | register (file : String)
  | emit (message : Message)
  | unregister (file : String)

namespace Call

def file : Call → String
  | register file | unregister file => file
  | emit message => message.location.file

def message? : Call → Option Message
  | emit message => some message
  | _ => none

def closes : Call → Bool
  | unregister _ => true
  | _ => false

end Call

def after (c : Collector) : Call → Collector
  | .register file => c.register file
  | .emit message => c.emit message
  | .unregister file => c.unregister file

def run (calls : List Call) : Collector := calls.foldl after {}

def about (file : String) (calls : List Call) : List Call := calls.filter (·.file == file)

def isOpen (file : String) (calls : List Call) : Bool :=
  (about file calls).getLast?.any (!·.closes)

/-- The messages for a file since it was opened or closed last. There are none between a call that
closed it and another that found it closed already. -/
def since (file : String) (calls : List Call) : List Message :=
  ((about file calls).rtakeWhile (·.message?.isSome)).filterMap Call.message?

structure Batch where
  file : String
  messages : List Message
deriving DecidableEq

def Call.batch? (before : List Call) : Call → Option Batch
  | unregister file => if isOpen file before then some ⟨file, since file before⟩ else none
  | _ => none

def batches (calls : List Call) : List Batch :=
  calls.zipIdx.filterMap fun (call, i) => call.batch? (calls.take i)

section Concat

variable (file : String) (calls : List Call) (call : Call)

theorem run_concat : run (calls ++ [call]) = (run calls).after call :=
  List.foldl_concat after {} call calls

theorem about_concat : about file (calls ++ [call]) =
    about file calls ++ if call.file = file then [call] else [] := by
  simp [about, List.filter_singleton]

theorem isOpen_concat : isOpen file (calls ++ [call]) =
    if call.file = file then !call.closes else isOpen file calls := by
  rw [isOpen, isOpen, about_concat]
  split <;> simp

theorem since_concat : since file (calls ++ [call]) =
    if call.file = file then call.message?.elim [] (since file calls ++ [·])
    else since file calls := by
  rw [since, since, about_concat]
  split
  · cases hm : call.message? with
    | none => simp [List.rtakeWhile_concat_neg, hm]
    | some m => simp [List.rtakeWhile_concat_pos, hm]
  · rw [List.append_nil]

theorem batches_concat : batches (calls ++ [call]) =
    batches calls ++ (call.batch? calls).toList := by
  have hbefore : ∀ x ∈ calls.zipIdx,
      x.1.batch? ((calls ++ [call]).take x.2) = x.1.batch? (calls.take x.2) := by
    intro x hx
    rw [List.take_append_of_le_length (List.snd_lt_of_mem_zipIdx hx).le]
  rw [batches, List.zipIdx_append, List.filterMap_append, List.filterMap_congr hbefore]
  cases hcall : call.batch? calls <;> simp [batches, hcall]

end Concat

/-! ## One step -/

section Step

variable (c : Collector) (file other : String)

theorem lookup_without :
    (c.without file).lookup other = if other = file then none else c.gathered? other := by
  rw [without, gathered?]
  induction c.pending with
  | nil => simp
  | cons entry pending ih =>
    by_cases hentry : entry.1 = file
    · rw [List.filter_cons_of_neg (by simpa using hentry), ih]
      split
      · rfl
      · rename_i hother
        rw [List.lookup_cons, hentry, beq_false_of_ne hother]
    · rw [List.filter_cons_of_pos (by simpa using hentry), List.lookup_cons, List.lookup_cons, ih]
      split
      · rename_i heq
        rw [if_neg (beq_iff_eq.1 heq ▸ hentry)]
      · rfl

theorem gathered?_register : (c.register file).gathered? other =
    if other = file then some [] else c.gathered? other := by
  rw [gathered?, register, List.lookup_cons, lookup_without]
  by_cases h : other = file
  · simp [h]
  · simp [h, beq_false_of_ne h]

theorem gathered?_emit (m : Message) : (c.emit m).gathered? other =
    if other = m.location.file then some ((c.gathered? other).getD [] ++ [m])
    else c.gathered? other := by
  rw [gathered?, emit, List.lookup_cons, lookup_without]
  by_cases h : other = m.location.file
  · simp [h]
  · simp [h, beq_false_of_ne h]

theorem gathered?_unregister : (c.unregister file).gathered? other =
    if other = file then none else c.gathered? other := by
  rw [unregister]
  split
  · rename_i hnone
    split
    · rename_i h
      rw [h, hnone]
    · rfl
  · exact lookup_without c file other

end Step

/-! ## Runs -/

theorem since_of_closed {file : String} {calls : List Call} (h : isOpen file calls = false) :
    since file calls = [] := by
  rw [isOpen] at h
  rw [since]
  obtain hnil | ⟨front, call, hcalls⟩ := List.eq_nil_or_concat (about file calls)
  · rw [hnil]
    rfl
  · rw [List.concat_eq_append] at hcalls
    rw [hcalls, List.getLast?_concat, Option.any_some, Bool.not_eq_false'] at h
    have hmessage : call.message? = none := by
      cases call <;> first | rfl | cases h
    rw [hcalls, List.rtakeWhile_concat_neg _ _ _ (by rw [hmessage]; exact Bool.false_ne_true)]
    rfl

theorem gathered?_run (calls : List Call) (file : String) :
    (run calls).gathered? file = if isOpen file calls then some (since file calls) else none := by
  induction calls using List.reverseRecOn with
  | nil => rfl
  | append_singleton calls call ih =>
    rw [run_concat, isOpen_concat, since_concat]
    cases call with
    | register f =>
      rw [after, gathered?_register, ih]
      by_cases h : file = f
      · simp [h, Call.file, Call.closes, Call.message?]
      · simp [h, Ne.symm h, Call.file]
    | emit m =>
      rw [after, gathered?_emit, ih]
      by_cases h : file = m.location.file
      · cases hopen : isOpen file calls with
        | true => simp [← h, Call.file, Call.closes, Call.message?]
        | false => simp [← h, since_of_closed hopen, Call.file, Call.closes, Call.message?]
      · simp [h, Ne.symm h, Call.file]
    | unregister f =>
      rw [after, gathered?_unregister, ih]
      by_cases h : file = f
      · simp [h, Call.file, Call.closes]
      · simp [h, Ne.symm h, Call.file]

theorem released_files_run (calls : List Call) :
    (run calls).released = (batches calls).flatMap (fun batch => arrange batch.messages) ∧
      (run calls).files = (batches calls).length := by
  induction calls using List.reverseRecOn with
  | nil => exact ⟨rfl, rfl⟩
  | append_singleton calls call ih =>
    obtain ⟨hreleased, hfiles⟩ := ih
    rw [run_concat, batches_concat]
    cases call with
    | register f | emit m => simpa [after, register, emit, Call.batch?] using ⟨hreleased, hfiles⟩
    | unregister f =>
      have hgathered := gathered?_run calls f
      rw [after, unregister, Call.batch?]
      cases hopen : isOpen f calls with
      | true =>
        rw [hopen, if_pos rfl] at hgathered
        simp [hgathered, hreleased, hfiles]
      | false =>
        rw [hopen] at hgathered
        simpa [hgathered] using ⟨hreleased, hfiles⟩

/-- What is released for a file depends on the calls about it alone. -/
theorem batches_about (calls : List Call) (file : String) :
    (batches calls).filter (·.file == file) = batches (about file calls) := by
  have habout : ∀ calls, about file (about file calls) = about file calls := fun calls => by
    rw [about, about, List.filter_filter, funext fun call => Bool.and_self _]
  induction calls using List.reverseRecOn with
  | nil => rfl
  | append_singleton calls call ih =>
    rw [batches_concat, List.filter_append, ih, about_concat]
    by_cases h : call.file = file
    · rw [if_pos h, batches_concat]
      cases call with
      | register | emit => rfl
      | unregister f =>
        obtain rfl : f = file := h
        rw [Call.batch?, Call.batch?, isOpen, isOpen, since, since, habout]
        split <;> simp
    · rw [if_neg h, List.append_nil]
      cases call with
      | register | emit => simp [Call.batch?]
      | unregister f =>
        have hf : f ≠ file := h
        rw [Call.batch?]
        split <;> simp [hf]

/-- What a run has released are the batches of the files that were closed, arranged, in the order
in which they were closed. Runs that say the same about each file release the same batches, those
of one file in the same order. -/
theorem released_run (calls : List Call) :
    ((run calls).released = (batches calls).flatMap (fun batch => arrange batch.messages) ∧
      (run calls).files = (batches calls).length ∧
      ∀ batch ∈ batches calls, ∃ sorted,
        StablySorted batch.messages sorted ∧ Merged sorted (arrange batch.messages)) ∧
    ∀ calls', (∀ file, about file calls' = about file calls) →
      (∀ file, (batches calls').filter (·.file == file) =
        (batches calls).filter (·.file == file)) ∧ (batches calls').Perm (batches calls) := by
  obtain ⟨hreleased, hfiles⟩ := released_files_run calls
  refine ⟨⟨hreleased, hfiles, fun batch _ => ?_⟩, fun calls' hsame => ?_⟩
  · exact ⟨_, stablySorted_mergeSort batch.messages, merged_mergeRuns _⟩
  · have hfilter : ∀ file, (batches calls').filter (·.file == file) =
        (batches calls).filter (·.file == file) := by
      intro file
      rw [batches_about, batches_about, hsame]
    refine ⟨hfilter, List.perm_iff_count.2 fun batch => ?_⟩
    have hcount : ∀ calls, (batches calls).count batch =
        ((batches calls).filter (·.file == batch.file)).count batch := by
      intro calls
      exact (List.count_filter (by simp)).symm
    rw [hcount, hcount calls, hfilter]

def notice (file text : String) : Call :=
  .emit ⟨{ file := file, place := .line 1 }, .warning, text, none, false⟩

def inTurn : List Call :=
  [.register "a.m", notice "a.m" "x", notice "a.m" "x", .unregister "a.m",
    notice "b.m" "y", .unregister "b.m"]

def sideBySide : List Call :=
  [.register "a.m", notice "b.m" "y", notice "a.m" "x", .unregister "b.m",
    notice "a.m" "x", .unregister "a.m"]

theorem released_run_sideBySide : (∀ file, about file sideBySide = about file inTurn) ∧
    (∀ file, (batches sideBySide).filter (·.file == file) =
      (batches inTurn).filter (·.file == file)) ∧
    (batches sideBySide).Perm (batches inTurn) ∧ batches sideBySide ≠ batches inTurn ∧
    (run inTurn).files = 2 := by
  have hsame : ∀ file, about file sideBySide = about file inTurn := by
    intro file
    by_cases ha : "a.m" = file
    · subst ha
      rfl
    · simp [about, sideBySide, inTurn, notice, Call.file, beq_false_of_ne ha, List.filter_cons]
  obtain ⟨⟨-, hfiles, -⟩, hruns⟩ := released_run inTurn
  obtain ⟨hfilter, hperm⟩ := hruns sideBySide hsame
  exact ⟨hsame, hfilter, hperm, by decide, hfiles.trans (by decide)⟩

end Collector

end MFile
