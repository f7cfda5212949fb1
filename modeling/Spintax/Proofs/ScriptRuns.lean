import Spintax.Proofs.Availability
import Spintax.Script

/-!
# Spintax — what running a script does

Running a script is a fold over its steps, and its account is honest. Outside a
batch a step that is applied raises the version by one, and any other step leaves
the document as it was (`Step.perform_outside_batch`): a refused edit and a move
with nowhere to go do so anyway, and a step in the history that cannot be made only
closes the batch. So no later step, nor one in the history, can tell whether such a
step was there (`Document.afterSteps_appliedSteps`). A strict run goes on like any
other up to the first step that is rejected.

* `Document.afterSteps`, `Document.stepAnswers` — the document after a list of steps,
  and what they answer;
* `Document.appliedSteps` — the steps that change the document;
* `Document.runSteps_lenient`, `Document.runSteps_of_accepted`,
  `Document.runSteps_of_rejected` — the runs of either kind;
* `Document.runScript_accounts` — a script, its run and its strict run.
-/

namespace Spintax

/-! ## Answers -/

namespace Step

/-- Whether an answer says that the step changed the document. -/
def isApplied : Except EditError Bool → Bool
  | .ok changed => changed
  | .error _ => false

/-- Whether an answer says that the step had nothing to do. -/
def isUnchanged : Except EditError Bool → Bool
  | .ok changed => !changed
  | .error _ => false

/-- Whether an answer says that the step was refused. -/
def isRejected : Except EditError Bool → Bool
  | .ok _ => false
  | .error _ => true

end Step

/-- The account of a list of answers. -/
def Summary.ofAnswers (answers : List (Except EditError Bool)) : Summary where
  applied := answers.countP Step.isApplied
  unchanged := answers.countP Step.isUnchanged
  rejected := answers.countP Step.isRejected

/-- Every answer is accounted for once. -/
theorem Summary.total_ofAnswers (answers : List (Except EditError Bool)) :
    (ofAnswers answers).applied + (ofAnswers answers).unchanged + (ofAnswers answers).rejected =
      answers.length := by
  simp only [ofAnswers]
  induction answers with
  | nil => rfl
  | cons answer answers ih =>
    simp only [List.countP_cons, List.length_cons]
    obtain e | _ | _ := answer
    · simp [Step.isApplied, Step.isUnchanged, Step.isRejected]
      omega
    · simp [Step.isApplied, Step.isUnchanged, Step.isRejected]
      omega
    · simp [Step.isApplied, Step.isUnchanged, Step.isRejected]
      omega

namespace ScriptRun

variable {d : Document} {answers : List (Except EditError Bool)} {rejections : List Rejection}
  {stopped : Bool}

/-- A step that is accepted adds its answer to the account. -/
theorem accept_ofAnswers (changed : Bool) :
    accept changed ⟨d, .ofAnswers answers, rejections, stopped⟩ =
      ⟨d, .ofAnswers (.ok changed :: answers), rejections, stopped⟩ := by
  simp only [accept, Summary.ofAnswers, List.countP_cons]
  cases changed <;> rfl

/-- A step that is rejected adds its answer to the account, and is told of. -/
theorem reject_ofAnswers (r : Rejection) :
    reject r ⟨d, .ofAnswers answers, rejections, stopped⟩ =
      ⟨d, .ofAnswers (.error r.error :: answers), r :: rejections, stopped⟩ := by
  simp only [reject, Summary.ofAnswers, List.countP_cons]
  rfl

end ScriptRun

/-! ## Single steps -/

theorem History.batch_record {h : History} (hBatch : h.batch = none) (before : Node)
    (description : Option String) : (h.record before description).batch = none := by
  rw [record, hBatch]
  exact hBatch

/-- After a step back no batch is open. -/
theorem History.batch_undo (h : History) (current : Node) : (h.undo current).2.batch = none := by
  unfold undo
  simp only
  split <;> exact batch_endBatch h

/-- After a step forth no batch is open. -/
theorem History.batch_redo (h : History) (current : Node) : (h.redo current).2.batch = none := by
  unfold redo
  simp only
  split <;> exact batch_endBatch h

namespace Document

variable {d : Document}

/-- A step in the history that is made raises the version. One that is not made does
nothing, provided that it leaves the history alone. -/
theorem restore_outside_batch {step : Option Node × History} (hClosed : step.2.batch = none)
    (hNone : step.1 = none → step.2 = d.history) :
    (d.restore step).2.history.batch = none ∧
      if (d.restore step).1 = true then (d.restore step).2.version = d.version + 1
      else (d.restore step).2 = d := by
  obtain ⟨_ | root, history⟩ := step
  · obtain rfl : history = d.history := hNone rfl
    exact ⟨hClosed, rfl⟩
  · exact ⟨hClosed, rfl⟩

/-- An edit raises the version if it answers with a change, and does nothing if not. -/
theorem EditStep.outside_batch {answer : Answer} {d' : Document} (h : EditStep d answer d')
    (hBatch : d.history.batch = none) :
    d'.history.batch = none ∧
      if answer.isChanged then d'.version = d.version + 1 else d' = d := by
  cases h with
  | kept hAnswer =>
    rw [hAnswer]
    exact ⟨hBatch, rfl⟩
  | changed hAnswer root description diagnostics =>
    rw [hAnswer]
    exact ⟨History.batch_record hBatch .., rfl⟩

end Document

namespace Step

variable {d : Document}

/-- **What a step does outside a batch**: it raises the version if it is applied, and
else it leaves the document as it was. -/
theorem perform_outside_batch (hBatch : d.history.batch = none) (step : Step) :
    (step.perform d).2.history.batch = none ∧
      if isApplied (step.perform d).1 then (step.perform d).2.version = d.version + 1
      else (step.perform d).2 = d := by
  have hEnd : d.history.endBatch = d.history := History.endBatch_of_none hBatch
  cases step with
  | undo =>
    refine Document.restore_outside_batch (History.batch_undo ..) fun hNone => ?_
    exact (History.eq_endBatch_of_undo (Prod.ext hNone rfl)).trans hEnd
  | redo =>
    refine Document.restore_outside_batch (History.batch_redo ..) fun hNone => ?_
    exact (History.eq_endBatch_of_redo (Prod.ext hNone rfl)).trans hEnd
  | clearAll =>
    have hEdit : Operation.clearAll.isEdit = true := rfl
    exact (Document.editStep_perform d hEdit).outside_batch hBatch
  | edit m =>
    have hEdit : (Operation.apply m).isEdit = true := rfl
    have hStep := (Document.editStep_perform d hEdit).outside_batch hBatch
    have hAnswer : isApplied (perform d (.edit m)).1 = (d.perform (.apply m)).1.isChanged := by
      show isApplied ((d.apply m).1.map EditResult.changed) =
        (Answer.edited (d.apply m).1).isChanged
      cases (d.apply m).1 <;> rfl
    rw [hAnswer]
    exact hStep

/-- A step that is rejected has no effect, in a batch or not. -/
theorem perform_of_error {step : Step} {error : EditError}
    (h : (step.perform d).1 = .error error) : (step.perform d).2 = d := by
  cases step with
  | edit m =>
    have hApply : (d.apply m).1.map EditResult.changed = .error error := h
    show (d.apply m).2 = d
    unfold Document.apply at hApply ⊢
    cases hEdit : m.apply d.tree with
    | error e => rfl
    | ok outcome =>
      rw [hEdit] at hApply
      exact absurd hApply nofun
  | _ => exact absurd h nofun

end Step

/-! ## Lists of steps -/

namespace Document

/-- What the steps of a script answer, made one after the other. -/
def stepAnswers : Document → List Step → List (Except EditError Bool)
  | _, [] => []
  | d, step :: steps => (step.perform d).1 :: stepAnswers (step.perform d).2 steps

/-- The document after the steps of a script. -/
def afterSteps (d : Document) (steps : List Step) : Document :=
  steps.foldl (fun d step => (step.perform d).2) d

/-- The steps of a script without those that leave the document as it is. -/
def appliedSteps (d : Document) (steps : List Step) : List Step :=
  ((steps.zip (d.stepAnswers steps)).filter fun made => Step.isApplied made.2).map Prod.fst

/-- What is said of a step that was made, if it was rejected. -/
def rejection? (number : Nat) (step : Step) : Except EditError Bool → Option Rejection
  | .ok _ => none
  | .error error => some ⟨number, step, error⟩

/-- The steps of a script that are rejected, in order, where the first step is number
`number`. -/
def rejectedSteps (number : Nat) (d : Document) (steps : List Step) : List Rejection :=
  ((steps.zip (d.stepAnswers steps)).zipIdx number).filterMap fun made =>
    rejection? made.2 made.1.1 made.1.2

variable {d : Document} {step : Step} {before after steps : List Step} {error : EditError}

theorem stepAnswers_cons (d : Document) (step : Step) (steps : List Step) :
    d.stepAnswers (step :: steps) =
      (step.perform d).1 :: (step.perform d).2.stepAnswers steps := rfl

theorem afterSteps_cons (d : Document) (step : Step) (steps : List Step) :
    d.afterSteps (step :: steps) = (step.perform d).2.afterSteps steps := rfl

/-- Every step is answered. -/
theorem length_stepAnswers (d : Document) (steps : List Step) :
    (d.stepAnswers steps).length = steps.length := by
  induction steps generalizing d with
  | nil => rfl
  | cons step steps ih => rw [stepAnswers_cons, List.length_cons, ih, List.length_cons]

/-- The first step counts if it is applied, and the others go on from the document it
leaves. -/
theorem appliedSteps_cons (d : Document) (step : Step) (steps : List Step) :
    d.appliedSteps (step :: steps) =
      if Step.isApplied (step.perform d).1 then step :: (step.perform d).2.appliedSteps steps
      else (step.perform d).2.appliedSteps steps := by
  unfold appliedSteps
  rw [stepAnswers_cons, List.zip_cons_cons, List.filter_cons]
  cases Step.isApplied (step.perform d).1 <;> rfl

/-- A first step that is rejected is told of before the others. -/
theorem rejectedSteps_cons (number : Nat) (d : Document) (step : Step) (steps : List Step) :
    d.rejectedSteps number (step :: steps) =
      (rejection? number step (step.perform d).1).toList ++
        (step.perform d).2.rejectedSteps (number + 1) steps := by
  unfold rejectedSteps
  rw [stepAnswers_cons, List.zip_cons_cons, List.zipIdx_cons, List.filterMap_cons]
  cases (step.perform d).1 <;> rfl

/-- Outside a batch the steps that are applied are all that counts for the version. -/
theorem version_afterSteps (hBatch : d.history.batch = none) (steps : List Step) :
    (d.afterSteps steps).version =
      d.version + UInt64.ofNat ((d.stepAnswers steps).countP Step.isApplied) := by
  induction steps generalizing d with
  | nil => exact (UInt64.add_zero _).symm
  | cons step steps ih =>
    obtain ⟨hClosed, hStep⟩ := step.perform_outside_batch hBatch
    rw [afterSteps_cons, ih hClosed, stepAnswers_cons, List.countP_cons]
    split at hStep
    · next hApplied =>
      rw [if_pos hApplied, hStep, Nat.add_comm, UInt64.ofNat_add, ← UInt64.add_assoc]
      rfl
    · next hIdle => rw [if_neg hIdle, hStep, Nat.add_zero]

/-- **Without the steps that leave the document as it is, the others do the same**: they
are all applied, and lead to the same document. -/
theorem afterSteps_appliedSteps (hBatch : d.history.batch = none) (steps : List Step) :
    d.afterSteps (d.appliedSteps steps) = d.afterSteps steps ∧
      d.stepAnswers (d.appliedSteps steps) =
        List.replicate ((d.stepAnswers steps).countP Step.isApplied) (.ok true) := by
  induction steps generalizing d with
  | nil => exact ⟨rfl, rfl⟩
  | cons step steps ih =>
    obtain ⟨hClosed, hStep⟩ := step.perform_outside_batch hBatch
    obtain ⟨hAfter, hAnswers⟩ := ih hClosed
    rw [appliedSteps_cons, afterSteps_cons, stepAnswers_cons, List.countP_cons]
    split at hStep
    · next hApplied =>
      have hOk : (step.perform d).1 = .ok true := by
        generalize (step.perform d).1 = answer at hApplied
        obtain e | changed := answer
        · exact absurd hApplied Bool.false_ne_true
        · exact congrArg Except.ok hApplied
      rw [if_pos hApplied, if_pos hApplied, afterSteps_cons, stepAnswers_cons, hAfter, hAnswers,
        hOk, List.replicate_succ]
      exact ⟨rfl, rfl⟩
    · next hIdle =>
      -- the document is the same before the step and after it
      rw [hStep] at hAfter hAnswers ⊢
      rw [if_neg hIdle, if_neg hIdle, Nat.add_zero]
      exact ⟨hAfter, hAnswers⟩

/-! ## Runs -/

/-- A run that is not strict makes all the steps and accounts for each. -/
theorem runSteps_lenient (d : Document) (number : Nat) (steps : List Step) :
    d.runSteps false number steps =
      ⟨d.afterSteps steps, .ofAnswers (d.stepAnswers steps), d.rejectedSteps number steps,
        false⟩ := by
  induction steps generalizing d number with
  | nil => rfl
  | cons step steps ih =>
    rw [runSteps, afterSteps_cons, stepAnswers_cons, rejectedSteps_cons]
    generalize step.perform d = made
    obtain ⟨answer, d'⟩ := made
    cases answer with
    | error error =>
      show (runSteps false (number + 1) d' steps).reject ⟨number, step, error⟩ = _
      rw [ih, ScriptRun.reject_ofAnswers]
      rfl
    | ok changed =>
      show (runSteps false (number + 1) d' steps).accept changed = _
      rw [ih, ScriptRun.accept_ofAnswers]
      rfl

/-- As long as no step is rejected, a strict run is like any other. -/
theorem runSteps_of_accepted
    (h : ∀ answer ∈ d.stepAnswers steps, Step.isRejected answer = false) (strict : Bool)
    (number : Nat) :
    d.runSteps strict number steps =
      ⟨d.afterSteps steps, .ofAnswers (d.stepAnswers steps), [], false⟩ := by
  induction steps generalizing d number with
  | nil => rfl
  | cons step steps ih =>
    rw [stepAnswers_cons, List.forall_mem_cons] at h
    rw [runSteps, afterSteps_cons, stepAnswers_cons]
    generalize step.perform d = made at h ⊢
    obtain ⟨answer, d'⟩ := made
    cases answer with
    | error error => exact absurd h.1 (by simp [Step.isRejected])
    | ok changed =>
      show (runSteps strict (number + 1) d' steps).accept changed = _
      rw [ih h.2, ScriptRun.accept_ofAnswers]

/-- `step`, which comes after the steps `before`, is the first step of a script that is
rejected. -/
structure FirstRejected (d : Document) (steps before : List Step) (step : Step)
    (error : EditError) : Prop where
  split : ∃ after, steps = before ++ step :: after
  accepted : ∀ answer ∈ d.stepAnswers before, Step.isRejected answer = false
  rejected : (step.perform (d.afterSteps before)).1 = .error error

theorem firstRejected_head (h : (step.perform d).1 = .error error) (steps : List Step) :
    d.FirstRejected (step :: steps) [] step error :=
  ⟨⟨steps, rfl⟩, by simp [stepAnswers], h⟩

/-- The first rejected step stays the first with an accepted step in front of it. -/
theorem FirstRejected.cons {first : Step}
    (h : (first.perform d).2.FirstRejected steps before step error)
    (hFirst : Step.isRejected (first.perform d).1 = false) :
    d.FirstRejected (first :: steps) (first :: before) step error := by
  obtain ⟨⟨after, rfl⟩, hAccepted, hRejected⟩ := h
  refine ⟨⟨after, rfl⟩, ?_, hRejected⟩
  rw [stepAnswers_cons, List.forall_mem_cons]
  exact ⟨hFirst, hAccepted⟩

/-- A script has a first step that is rejected, if it has any. -/
theorem exists_firstRejected
    (h : ∃ answer ∈ d.stepAnswers steps, Step.isRejected answer = true) :
    ∃ before step error, d.FirstRejected steps before step error := by
  induction steps generalizing d with
  | nil => simp [stepAnswers] at h
  | cons first steps ih =>
    cases hFirst : (first.perform d).1 with
    | error error => exact ⟨[], first, error, firstRejected_head hFirst steps⟩
    | ok changed =>
      rw [stepAnswers_cons, hFirst] at h
      obtain ⟨before, step, error, hRest⟩ := ih (by simpa [Step.isRejected] using h)
      exact ⟨first :: before, step, error, hRest.cons (by rw [hFirst]; rfl)⟩

/-- **A strict run stops at the first step that is rejected**, with the document as it
was before that step. -/
theorem runSteps_of_rejected (h : d.FirstRejected steps before step error) (number : Nat) :
    (d.runSteps true number steps).stopped = true ∧
      (d.runSteps true number steps).document = d.afterSteps before ∧
      (d.runSteps true number steps).rejections = [⟨number + before.length, step, error⟩] := by
  obtain ⟨⟨after, rfl⟩, hAccepted, hRejected⟩ := h
  induction before generalizing d number with
  | nil =>
    -- the step is the first of all, and its answer says that it did nothing
    have hKept := Step.perform_of_error hRejected
    rw [List.nil_append, runSteps]
    rw [show d.afterSteps [] = d from rfl] at hRejected hKept ⊢
    generalize step.perform d = made at hRejected hKept
    obtain ⟨answer, d'⟩ := made
    obtain rfl : answer = .error error := hRejected
    exact ⟨rfl, hKept, rfl⟩
  | cons first before ih =>
    rw [stepAnswers_cons, List.forall_mem_cons] at hAccepted
    obtain ⟨hFirst, hBefore⟩ := hAccepted
    rw [List.cons_append, runSteps]
    rw [afterSteps_cons] at hRejected ⊢
    generalize first.perform d = made at hFirst hBefore hRejected ⊢
    obtain ⟨answer, d'⟩ := made
    cases answer with
    | error e => exact absurd hFirst (by simp [Step.isRejected])
    | ok changed =>
      obtain ⟨hStopped, hDocument, hRejections⟩ := ih (number + 1) hBefore hRejected
      refine ⟨hStopped, hDocument, hRejections.trans ?_⟩
      rw [List.length_cons, Nat.add_assoc, Nat.add_comm 1]

/-! ## Scripts -/

/-- The steps that are applied make a script of their own, in which nothing else happens. -/
theorem runScript_appliedSteps (hBatch : d.history.batch = none) (steps : List Step) :
    d.runScript false (d.appliedSteps steps) =
      ⟨d.afterSteps steps, ⟨(d.stepAnswers steps).countP Step.isApplied, 0, 0⟩, [], false⟩ := by
  obtain ⟨hAfter, hAnswers⟩ := afterSteps_appliedSteps hBatch steps
  have hAccepted : ∀ answer ∈ d.stepAnswers (d.appliedSteps steps),
      Step.isRejected answer = false := by
    rw [hAnswers]
    intro answer hMem
    rw [List.eq_of_mem_replicate hMem]
    rfl
  rw [runScript, runSteps_of_accepted hAccepted, hAfter, hAnswers]
  simp [Summary.ofAnswers, List.countP_replicate, Step.isApplied, Step.isUnchanged,
    Step.isRejected]

/-- A strict run of a script with a rejected step stops, at the first of these. -/
theorem runScript_strict_of_rejected
    (h : ∃ answer ∈ d.stepAnswers steps, Step.isRejected answer = true) :
    (d.runScript true steps).stopped = true ∧
      ∃ before step error, d.FirstRejected steps before step error ∧
        (d.runScript true steps).document = d.afterSteps before ∧
        (d.runScript true steps).rejections = [⟨before.length + 1, step, error⟩] := by
  obtain ⟨before, step, error, hFirst⟩ := exists_firstRejected h
  obtain ⟨hStopped, hDocument, hRejections⟩ := runSteps_of_rejected hFirst 1
  rw [Nat.add_comm] at hRejections
  exact ⟨hStopped, before, step, error, hFirst, hDocument, hRejections⟩

/-- A strict run of a script without a rejected step is like any other. -/
theorem runScript_strict_of_accepted
    (h : ¬∃ answer ∈ d.stepAnswers steps, Step.isRejected answer = true) :
    (d.runScript true steps).stopped = false ∧
      d.runScript true steps = d.runScript false steps := by
  have hNone : ∀ answer ∈ d.stepAnswers steps, Step.isRejected answer = false := by
    simpa using h
  have hStrict : d.runScript true steps = _ := runSteps_of_accepted hNone true 1
  have hLenient : d.runScript false steps = _ := runSteps_of_accepted hNone false 1
  exact ⟨by rw [hStrict], hStrict.trans hLenient.symm⟩

/-- **What running a script does to a document without an open batch.** The steps are
made one after the other. Each of them is counted once, the version grows by the number
of those that are applied, and these alone would have done the same. A strict run stops
exactly if a step is rejected, with the document as it was before the first such step;
otherwise it is the same run. -/
theorem runScript_accounts (hBatch : d.history.batch = none) (steps : List Step) :
    let run := d.runScript false steps
    let strict := d.runScript true steps
    (run.document = d.afterSteps steps ∧ run.stopped = false ∧
        run.summary = .ofAnswers (d.stepAnswers steps) ∧
        run.summary.applied + run.summary.unchanged + run.summary.rejected = steps.length ∧
        run.document.version = d.version + UInt64.ofNat run.summary.applied ∧
        d.runScript false (d.appliedSteps steps) =
          ⟨run.document, ⟨run.summary.applied, 0, 0⟩, [], false⟩) ∧
      (strict.stopped = true ↔
        ∃ answer ∈ d.stepAnswers steps, Step.isRejected answer = true) ∧
      (strict.stopped = true → ∃ before step error, d.FirstRejected steps before step error ∧
        strict.document = d.afterSteps before ∧
        strict.rejections = [⟨before.length + 1, step, error⟩]) ∧
      (strict.stopped = false → strict = run) := by
  intro run strict
  -- a run that is not strict is the answers to all steps, with their number
  have hRun : run = ⟨d.afterSteps steps, .ofAnswers (d.stepAnswers steps),
      d.rejectedSteps 1 steps, false⟩ := d.runSteps_lenient 1 steps
  have hStops : strict.stopped = true ↔
      ∃ answer ∈ d.stepAnswers steps, Step.isRejected answer = true := by
    constructor
    · intro hStopped
      by_contra hNone
      exact absurd (hStopped.symm.trans (runScript_strict_of_accepted hNone).1) (by simp)
    · intro hSome
      exact (runScript_strict_of_rejected hSome).1
  refine ⟨?_, hStops, ?_, ?_⟩
  · rw [runScript_appliedSteps hBatch steps, hRun]
    exact ⟨rfl, rfl, rfl, (Summary.total_ofAnswers _).trans (d.length_stepAnswers steps),
      version_afterSteps hBatch steps, rfl⟩
  · intro hStopped
    exact (runScript_strict_of_rejected (hStops.mp hStopped)).2
  · intro hGoesOn
    have hNone : ¬∃ answer ∈ d.stepAnswers steps, Step.isRejected answer = true := by
      rw [← hStops, hGoesOn]
      exact Bool.false_ne_true
    exact (runScript_strict_of_accepted hNone).2

/-- Of an insertion, a move with nowhere to go, a deletion of the root, a step back and a
step forth, three are applied. A strict run stops at the deletion. -/
theorem runScript_accounts_of_five_steps :
    let d := opened .default (some ['a'])
    let steps : List Step := [.edit (.insert (.ofIndices [1]) (.choice [])),
      .edit (.moveDown (.ofIndices [1])), .edit (.delete .root), .undo, .redo]
    d.history.batch = none ∧ (d.runScript false steps).summary = ⟨3, 1, 1⟩ ∧
      (d.runScript false steps).document.version = 3 ∧
      (d.runScript true steps).stopped = true ∧
      ∃ before step error, d.FirstRejected steps before step error ∧
        (d.runScript true steps).document = d.afterSteps before := by
  intro d steps
  have hBatch : d.history.batch = none := rfl
  obtain ⟨⟨-, -, hSummary, -, hVersion, -⟩, hStopped, hFirst, -⟩ :=
    runScript_accounts hBatch steps
  have hCounts : (d.runScript false steps).summary = ⟨3, 1, 1⟩ := by
    rw [hSummary]
    decide +kernel
  have hStop : (d.runScript true steps).stopped = true :=
    hStopped.mpr ⟨.error .cannotDeleteRoot, by decide +kernel, rfl⟩
  obtain ⟨before, step, error, hRejected, hBefore, -⟩ := hFirst hStop
  refine ⟨hBatch, hCounts, ?_, hStop, before, step, error, hRejected, hBefore⟩
  rw [hVersion, hCounts]
  rfl

end Document

end Spintax
