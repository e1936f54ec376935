import SequenceChart.Behaviour
import SequenceChart.Proofs.SharedMerge

/-!
# Traces of processes

The untimed reading of the processes that plain messages are turned into.
Events are whole texts.  Time is left aside: waiting in `Idle` for a process is
that process, and a lifeline that has come to `Finish` stays there, since
`Finish` only waits for time and for the common end.

A word of two processes in parallel is a merge of a word of each, and a
process that performs given events in order has exactly their initial segments
as words.  The words with time, in which the library is read, come to the same
once time is left out.
-/

namespace SequenceChart

/-- What is seen of one step of a process. -/
inductive Action where
  /-- A step that nobody sees. -/
  | silent
  | event (text : String)
  /-- The end of a process. -/
  | ending
  deriving DecidableEq, Repr

/-- Whether one side of a parallel composition may take a step alone. -/
def Action.IsAlone (shared : List String) : Action → Prop
  | .silent => True
  | .event text => text ∉ shared
  | .ending => False

/-- The steps of a process, given the processes that go by a name. -/
inductive Transition (defined : String → Option Behaviour) :
    Behaviour → Action → Behaviour → Prop
  | perform (event : Event) (next : Behaviour) :
      Transition defined (.perform event next) (.event event.text) next
  | skip : Transition defined .skip .ending .stop
  | first {first later : Behaviour} {action : Action} (second : Behaviour) :
      action ≠ .ending →
      Transition defined first action later →
      Transition defined (.andThen first second) action (.andThen later second)
  | second {first later : Behaviour} (second : Behaviour) :
      Transition defined first .ending later →
      Transition defined (.andThen first second) .silent second
  | grouped {body later : Behaviour} {action : Action} :
      Transition defined body action later →
      Transition defined (.grouped body) action (.grouped later)
  | named {name : String} {body : Behaviour} :
      defined name = some body →
      Transition defined (.named name) .silent body
  | idle {body later : Behaviour} {action : Action} :
      Transition defined body action later →
      Transition defined (.wrapped "Idle" [] body) action later
  | left {left later : Behaviour} {action : Action} {shared : List String}
      (right : Behaviour) :
      action.IsAlone shared →
      Transition defined left action later →
      Transition defined (.synchronised left (.productions shared) right) action
        (.synchronised later (.productions shared) right)
  | right {right later : Behaviour} {action : Action} {shared : List String}
      (left : Behaviour) :
      action.IsAlone shared →
      Transition defined right action later →
      Transition defined (.synchronised left (.productions shared) right) action
        (.synchronised left (.productions shared) later)
  | together {left leftLater right rightLater : Behaviour} {event : String}
      {shared : List String} :
      event ∈ shared →
      Transition defined left (.event event) leftLater →
      Transition defined right (.event event) rightLater →
      Transition defined (.synchronised left (.productions shared) right)
        (.event event) (.synchronised leftLater (.productions shared) rightLater)
  | ending {left leftLater right rightLater : Behaviour} {shared : List String} :
      Transition defined left .ending leftLater →
      Transition defined right .ending rightLater →
      Transition defined (.synchronised left (.productions shared) right) .ending .stop

/-- `Run defined process word final` means that `process` can become `final`
while it performs `word`. -/
inductive Run (defined : String → Option Behaviour) :
    Behaviour → List String → Behaviour → Prop
  | refl (process : Behaviour) : Run defined process [] process
  | silent {process next final : Behaviour} {word : List String} :
      Transition defined process .silent next →
      Run defined next word final →
      Run defined process word final
  | event {process next final : Behaviour} {event : String} {word : List String} :
      Transition defined process (.event event) next →
      Run defined next word final →
      Run defined process (event :: word) final

def IsTrace (defined : String → Option Behaviour) (process : Behaviour)
    (word : List String) : Prop :=
  ∃ final, Run defined process word final

variable {defined : String → Option Behaviour}

namespace Run

theorem trans {process middle final : Behaviour} {first second : List String}
    (run : Run defined process first middle)
    (next : Run defined middle second final) :
    Run defined process (first ++ second) final := by
  induction run with
  | refl =>
      exact next
  | silent step _ inductionHypothesis =>
      exact .silent step (inductionHypothesis next)
  | event step _ inductionHypothesis =>
      exact .event step (inductionHypothesis next)

/-- A run that performs an event takes silent steps up to it. -/
theorem exists_of_cons {process final : Behaviour} {event : String}
    {word : List String} (run : Run defined process (event :: word) final) :
    ∃ before after, Run defined process [] before ∧
      Transition defined before (.event event) after ∧
      Run defined after word final := by
  generalize whole : event :: word = full at run
  induction run with
  | refl =>
      cases whole
  | silent step _ inductionHypothesis =>
      obtain ⟨before, after, quiet, performed, rest⟩ := inductionHypothesis whole
      exact ⟨before, after, .silent step quiet, performed, rest⟩
  | event step rest _ =>
      cases whole
      exact ⟨_, _, .refl _, step, rest⟩

/-- A named process is replaced by its definition before it does anything. -/
theorem of_named {name : String} {body final : Behaviour} {word : List String}
    (isDefined : defined name = some body)
    (run : Run defined (.named name) word final) :
    (word = [] ∧ final = .named name) ∨ Run defined body word final := by
  cases run with
  | refl =>
      exact Or.inl ⟨rfl, rfl⟩
  | silent step rest =>
      cases step with
      | named chosen =>
          rw [isDefined] at chosen
          cases chosen
          exact Or.inr rest
  | event step _ =>
      cases step

theorem grouped {body later : Behaviour} {word : List String}
    (run : Run defined body word later) :
    Run defined (.grouped body) word (.grouped later) := by
  induction run with
  | refl =>
      exact .refl _
  | silent step _ inductionHypothesis =>
      exact .silent (.grouped step) inductionHypothesis
  | event step _ inductionHypothesis =>
      exact .event (.grouped step) inductionHypothesis

theorem exists_of_grouped {body final : Behaviour} {word : List String}
    (run : Run defined (.grouped body) word final) :
    ∃ later, final = .grouped later ∧ Run defined body word later := by
  generalize start : Behaviour.grouped body = process at run
  induction run generalizing body with
  | refl =>
      exact ⟨body, start.symm, .refl body⟩
  | silent step _ inductionHypothesis =>
      subst start
      cases step with
      | grouped inner =>
          obtain ⟨later, shape, rest⟩ := inductionHypothesis rfl
          exact ⟨later, shape, .silent inner rest⟩
  | event step _ inductionHypothesis =>
      subst start
      cases step with
      | grouped inner =>
          obtain ⟨later, shape, rest⟩ := inductionHypothesis rfl
          exact ⟨later, shape, .event inner rest⟩

/-! ## Parallel composition -/

variable {shared : List String}

private theorem left_quietly {left later : Behaviour} (right : Behaviour)
    (run : Run defined left [] later) :
    Run defined (.synchronised left (.productions shared) right) []
      (.synchronised later (.productions shared) right) := by
  generalize quiet : ([] : List String) = word at run
  induction run with
  | refl =>
      exact .refl _
  | silent step _ inductionHypothesis =>
      exact .silent (.left right trivial step) (inductionHypothesis quiet)
  | event =>
      cases quiet

private theorem right_quietly {right later : Behaviour} (left : Behaviour)
    (run : Run defined right [] later) :
    Run defined (.synchronised left (.productions shared) right) []
      (.synchronised left (.productions shared) later) := by
  generalize quiet : ([] : List String) = word at run
  induction run with
  | refl =>
      exact .refl _
  | silent step _ inductionHypothesis =>
      exact .silent (.right left trivial step) (inductionHypothesis quiet)
  | event =>
      cases quiet

/-- Runs of both sides whose words merge make a run of the composition. -/
theorem synchronised {left leftLater right rightLater : Behaviour}
    {leftWord rightWord whole : List String}
    (merge : Merge shared leftWord rightWord whole)
    (leftRun : Run defined left leftWord leftLater)
    (rightRun : Run defined right rightWord rightLater) :
    Run defined (.synchronised left (.productions shared) right) whole
      (.synchronised leftLater (.productions shared) rightLater) := by
  induction merge generalizing left right with
  | nil =>
      exact (left_quietly right leftRun).trans (right_quietly leftLater rightRun)
  | left absent _ inductionHypothesis =>
      obtain ⟨before, after, quiet, performed, rest⟩ := leftRun.exists_of_cons
      exact (left_quietly right quiet).trans
        (.event (.left right absent performed) (inductionHypothesis rest rightRun))
  | right absent _ inductionHypothesis =>
      obtain ⟨before, after, quiet, performed, rest⟩ := rightRun.exists_of_cons
      exact (right_quietly left quiet).trans
        (.event (.right left absent performed) (inductionHypothesis leftRun rest))
  | together member _ inductionHypothesis =>
      obtain ⟨leftBefore, _, leftQuiet, leftPerformed, leftRest⟩ :=
        leftRun.exists_of_cons
      obtain ⟨_, _, rightQuiet, rightPerformed, rightRest⟩ :=
        rightRun.exists_of_cons
      exact ((left_quietly right leftQuiet).trans
        (right_quietly leftBefore rightQuiet)).trans
        (.event (.together member leftPerformed rightPerformed)
          (inductionHypothesis leftRest rightRest))

/-- A run of a composition is made of runs of both sides whose words merge. -/
theorem exists_of_synchronised {left right final : Behaviour} {whole : List String}
    (run : Run defined (.synchronised left (.productions shared) right) whole final) :
    ∃ leftLater rightLater leftWord rightWord,
      final = .synchronised leftLater (.productions shared) rightLater ∧
      Run defined left leftWord leftLater ∧
      Run defined right rightWord rightLater ∧
      Merge shared leftWord rightWord whole := by
  generalize start :
    Behaviour.synchronised left (.productions shared) right = process at run
  induction run generalizing left right with
  | refl =>
      exact ⟨left, right, [], [], start.symm, .refl left, .refl right, .nil⟩
  | silent step _ inductionHypothesis =>
      subst start
      cases step with
      | left _ _ inner =>
          obtain ⟨_, _, _, _, shape, leftRun, rightRun, merge⟩ :=
            inductionHypothesis rfl
          exact ⟨_, _, _, _, shape, .silent inner leftRun, rightRun, merge⟩
      | right _ _ inner =>
          obtain ⟨_, _, _, _, shape, leftRun, rightRun, merge⟩ :=
            inductionHypothesis rfl
          exact ⟨_, _, _, _, shape, leftRun, .silent inner rightRun, merge⟩
  | event step _ inductionHypothesis =>
      subst start
      cases step with
      | left _ absent inner =>
          obtain ⟨_, _, _, _, shape, leftRun, rightRun, merge⟩ :=
            inductionHypothesis rfl
          exact ⟨_, _, _, _, shape, .event inner leftRun, rightRun,
            .left absent merge⟩
      | right _ absent inner =>
          obtain ⟨_, _, _, _, shape, leftRun, rightRun, merge⟩ :=
            inductionHypothesis rfl
          exact ⟨_, _, _, _, shape, leftRun, .event inner rightRun,
            .right absent merge⟩
      | together member leftStep rightStep =>
          obtain ⟨_, _, _, _, shape, leftRun, rightRun, merge⟩ :=
            inductionHypothesis rfl
          exact ⟨_, _, _, _, shape, .event leftStep leftRun,
            .event rightStep rightRun, .together member merge⟩

theorem andThen {first later : Behaviour} {word : List String} (second : Behaviour)
    (run : Run defined first word later) :
    Run defined (.andThen first second) word (.andThen later second) := by
  induction run with
  | refl =>
      exact .refl _
  | silent step _ inductionHypothesis =>
      exact .silent (.first second (by simp) step) inductionHypothesis
  | event step _ inductionHypothesis =>
      exact .event (.first second (by simp) step) inductionHypothesis

end Run

/-- A named process has the words of its definition. -/
theorem isTrace_named_iff {name : String} {body : Behaviour} {word : List String}
    (isDefined : defined name = some body) :
    IsTrace defined (.named name) word ↔ IsTrace defined body word := by
  constructor
  · rintro ⟨final, run⟩
    rcases run.of_named isDefined with ⟨rfl, _⟩ | later
    · exact ⟨body, .refl body⟩
    · exact ⟨final, later⟩
  · rintro ⟨final, run⟩
    exact ⟨final, .silent (.named isDefined) run⟩

/-- The process performs the events in order and then ends. -/
inductive Scripted : Behaviour → List String → Prop
  | skip : Scripted .skip []
  | perform (event : Event) {next : Behaviour} {events : List String} :
      Scripted next events →
      Scripted (.perform event next) (event.text :: events)
  | idle {body : Behaviour} {events : List String} :
      Scripted body events →
      Scripted (.wrapped "Idle" [] body) events
  | andThen {first second : Behaviour} {firstEvents secondEvents : List String} :
      Scripted first firstEvents →
      Scripted second secondEvents →
      Scripted (.andThen first second) (firstEvents ++ secondEvents)

/-- The process performs the events in order and then stays at `Finish`. -/
inductive Awaits (defined : String → Option Behaviour) :
    Behaviour → List String → Prop
  | finished : Awaits defined (.named "Finish") []
  | andThen {first second : Behaviour} {firstEvents secondEvents : List String} :
      Scripted first firstEvents →
      Awaits defined second secondEvents →
      Awaits defined (.andThen first second) (firstEvents ++ secondEvents)
  | named {name : String} {body : Behaviour} {events : List String} :
      defined name = some body →
      Awaits defined body events →
      Awaits defined (.named name) events

namespace Scripted

/-- A step of a scripted process is silent, performs its next event, or ends
it when there is no event left. -/
theorem step_cases {process next : Behaviour} {events : List String} {action : Action}
    (scripted : Scripted process events)
    (step : Transition defined process action next) :
    (action = .silent ∧ Scripted next events) ∨
      (∃ event rest, action = .event event ∧ events = event :: rest ∧
        Scripted next rest) ∨
      (action = .ending ∧ events = []) := by
  induction scripted generalizing action next with
  | skip =>
      cases step
      exact Or.inr (Or.inr ⟨rfl, rfl⟩)
  | perform event later =>
      cases step
      exact Or.inr (Or.inl ⟨event.text, _, rfl, rfl, later⟩)
  | idle _ inductionHypothesis =>
      cases step with
      | idle inner =>
          exact inductionHypothesis inner
  | andThen _ later inductionHypothesis _ =>
      cases step with
      | first _ notEnding inner =>
          rcases inductionHypothesis inner with
            ⟨quiet, rest⟩ | ⟨event, remaining, performed, shape, rest⟩ | ⟨ended, _⟩
          · exact Or.inl ⟨quiet, rest.andThen later⟩
          · refine Or.inr (Or.inl ⟨event, _, performed, ?_, rest.andThen later⟩)
            rw [shape, List.cons_append]
          · exact absurd ended notEnding
      | second _ inner =>
          rcases inductionHypothesis inner with
            ⟨quiet, _⟩ | ⟨_, _, performed, _⟩ | ⟨_, empty⟩
          · cases quiet
          · cases performed
          · refine Or.inl ⟨rfl, ?_⟩
            rw [empty]
            exact later

/-- A scripted process can end when there is no event left, and perform its
next event when there is one. -/
theorem progress (defined : String → Option Behaviour)
    {process : Behaviour} {events : List String}
    (scripted : Scripted process events) :
    (events = [] → ∃ before after, Run defined process [] before ∧
      Transition defined before .ending after) ∧
    (∀ event rest, events = event :: rest →
      ∃ next, Run defined process [event] next ∧ Scripted next rest) := by
  induction scripted with
  | skip =>
      exact ⟨fun _ => ⟨_, _, .refl _, .skip⟩, by simp⟩
  | perform event later =>
      refine ⟨by simp, ?_⟩
      intro first rest shape
      obtain ⟨rfl, rfl⟩ := List.cons.inj shape
      exact ⟨_, .event (.perform event _) (.refl _), later⟩
  | @idle body _ _ inductionHypothesis =>
      obtain ⟨ends, performs⟩ := inductionHypothesis
      constructor
      · intro empty
        obtain ⟨before, after, quiet, ended⟩ := ends empty
        cases quiet with
        | refl =>
            exact ⟨_, after, .refl _, .idle ended⟩
        | silent step rest =>
            exact ⟨before, after, .silent (.idle step) rest, ended⟩
      · intro event rest shape
        obtain ⟨next, run, scripted⟩ := performs event rest shape
        refine ⟨next, ?_, scripted⟩
        cases run with
        | silent step later =>
            exact .silent (.idle step) later
        | event step later =>
            exact .event (.idle step) later
  | @andThen first second firstEvents secondEvents _ later firstHolds secondHolds =>
      cases firstEvents with
      | nil =>
          obtain ⟨before, after, quiet, ended⟩ := firstHolds.1 rfl
          have reached : Run defined (.andThen first second) [] second :=
            (quiet.andThen second).trans (.silent (.second second ended) (.refl _))
          constructor
          · intro empty
            obtain ⟨final, last, rest, ending⟩ := secondHolds.1 empty
            exact ⟨final, last, reached.trans rest, ending⟩
          · intro event rest shape
            obtain ⟨next, run, scripted⟩ := secondHolds.2 event rest shape
            exact ⟨next, reached.trans run, scripted⟩
      | cons head tail =>
          refine ⟨by simp, ?_⟩
          intro event rest shape
          obtain ⟨rfl, rfl⟩ := List.cons.inj shape
          obtain ⟨next, run, scripted⟩ := firstHolds.2 head tail rfl
          exact ⟨.andThen next second, run.andThen second, scripted.andThen later⟩

end Scripted

namespace Awaits

/-- Whatever step a lifeline takes, it awaits the events that are left. -/
theorem step_cases {process next : Behaviour} {events : List String} {action : Action}
    (undefinedFinish : defined "Finish" = none)
    (awaits : Awaits defined process events)
    (step : Transition defined process action next) :
    (action = .silent ∧ Awaits defined next events) ∨
      (∃ event rest, action = .event event ∧ events = event :: rest ∧
        Awaits defined next rest) := by
  induction awaits generalizing action next with
  | finished =>
      cases step with
      | named isDefined =>
          rw [undefinedFinish] at isDefined
          cases isDefined
  | andThen scripted later _ =>
      cases step with
      | first _ notEnding inner =>
          rcases scripted.step_cases inner with
            ⟨quiet, rest⟩ | ⟨event, remaining, performed, shape, rest⟩ | ⟨ended, _⟩
          · exact Or.inl ⟨quiet, .andThen rest later⟩
          · refine Or.inr ⟨event, _, performed, ?_, .andThen rest later⟩
            rw [shape, List.cons_append]
          · exact absurd ended notEnding
      | second _ inner =>
          rcases scripted.step_cases inner with
            ⟨quiet, _⟩ | ⟨_, _, performed, _⟩ | ⟨_, empty⟩
          · cases quiet
          · cases performed
          · refine Or.inl ⟨rfl, ?_⟩
            rw [empty]
            exact later
  | named isDefined later _ =>
      cases step with
      | named chosen =>
          rw [isDefined] at chosen
          cases chosen
          exact Or.inl ⟨rfl, later⟩

/-- The words of a lifeline are initial segments of its events. -/
theorem of_run {process final : Behaviour} {events word : List String}
    (undefinedFinish : defined "Finish" = none)
    (awaits : Awaits defined process events)
    (run : Run defined process word final) :
    ∃ rest, events = word ++ rest ∧ Awaits defined final rest := by
  induction run generalizing events with
  | refl =>
      exact ⟨events, rfl, awaits⟩
  | silent step _ inductionHypothesis =>
      rcases awaits.step_cases undefinedFinish step with
        ⟨_, later⟩ | ⟨_, _, performed, _⟩
      · exact inductionHypothesis later
      · cases performed
  | event step _ inductionHypothesis =>
      rcases awaits.step_cases undefinedFinish step with
        ⟨quiet, _⟩ | ⟨_, remaining, performed, shape, later⟩
      · cases quiet
      · cases performed
        obtain ⟨rest, remainingShape, finalAwaits⟩ := inductionHypothesis later
        refine ⟨rest, ?_, finalAwaits⟩
        rw [shape, remainingShape, List.cons_append]

/-- A lifeline comes to `Finish` when there is no event left, and performs its
next event when there is one. -/
theorem progress {process : Behaviour} {events : List String}
    (awaits : Awaits defined process events) :
    (events = [] → Run defined process [] (.named "Finish")) ∧
    (∀ event rest, events = event :: rest →
      ∃ next, Run defined process [event] next ∧ Awaits defined next rest) := by
  induction awaits with
  | finished =>
      exact ⟨fun _ => .refl _, by simp⟩
  | @andThen first second firstEvents secondEvents scripted later inductionHypothesis =>
      cases firstEvents with
      | nil =>
          obtain ⟨before, after, quiet, ended⟩ := (scripted.progress defined).1 rfl
          have reached : Run defined (.andThen first second) [] second :=
            (quiet.andThen second).trans (.silent (.second second ended) (.refl _))
          constructor
          · intro empty
            exact reached.trans (inductionHypothesis.1 empty)
          · intro event rest shape
            obtain ⟨next, run, nextAwaits⟩ := inductionHypothesis.2 event rest shape
            exact ⟨next, reached.trans run, nextAwaits⟩
      | cons head tail =>
          refine ⟨by simp, ?_⟩
          intro event rest shape
          obtain ⟨rfl, rfl⟩ := List.cons.inj shape
          obtain ⟨next, run, nextScripted⟩ := (scripted.progress defined).2 head tail rfl
          exact ⟨.andThen next second, run.andThen second, .andThen nextScripted later⟩
  | named isDefined _ inductionHypothesis =>
      constructor
      · intro empty
        exact .silent (.named isDefined) (inductionHypothesis.1 empty)
      · intro event rest shape
        obtain ⟨next, run, nextAwaits⟩ := inductionHypothesis.2 event rest shape
        exact ⟨next, .silent (.named isDefined) run, nextAwaits⟩

/-- Every initial segment of its events is a word of a lifeline. -/
theorem exists_run {process : Behaviour} (word : List String) {rest : List String}
    (awaits : Awaits defined process (word ++ rest)) :
    ∃ final, Run defined process word final ∧ Awaits defined final rest := by
  induction word generalizing process with
  | nil =>
      exact ⟨process, .refl process, awaits⟩
  | cons event later inductionHypothesis =>
      obtain ⟨next, performed, nextAwaits⟩ := awaits.progress.2 event (later ++ rest) rfl
      obtain ⟨final, run, finalAwaits⟩ := inductionHypothesis nextAwaits
      exact ⟨final, performed.trans run, finalAwaits⟩

end Awaits

end SequenceChart
