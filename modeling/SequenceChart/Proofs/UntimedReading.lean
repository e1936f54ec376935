import Mathlib.Order.FixedPoints
import SequenceChart.Proofs.ExchangeTraces
import SequenceChart.Proofs.TimerLimits

/-!
# Words with time and without

What plain exchanges perform is told by the steps of processes, without time and up to the
common end.  What loops and timers perform is told by words in which time passes.  Both are
readings of the same processes.  Where both apply they agree: the words of the steps are
those of the timed reading in which nobody has agreed on the end, with the passing of time
left out.

Names stand for the same processes in both readings if the words of a name are those of its
definition.  Such a meaning always exists.
-/

namespace SequenceChart

namespace Meaning

def withWords (meaning : Meaning) (words : String → List String → Bool → Prop) : Meaning :=
  { meaning with words }

def Follows (meaning : Meaning) (defined : String → Option Behaviour) : Prop :=
  ∀ name body, defined name = some body → ∀ word ended,
    meaning.words name word ended ↔ Performs meaning body word ended

end Meaning

/-- A process has more words if names have. -/
theorem Performs.mono {meaning : Meaning} {words more : String → List String → Bool → Prop}
    (grows : words ≤ more) {process : Behaviour} {word : List String} {ended : Bool}
    (performs : Performs (meaning.withWords words) process word ended) :
    Performs (meaning.withWords more) process word ended := by
  induction performs with
  | start process =>
      exact .start process
  | skip =>
      exact .skip
  | perform event _ inductionHypothesis =>
      exact .perform event inductionHypothesis
  | first second _ inductionHypothesis =>
      exact .first second inductionHypothesis
  | second _ _ firstHypothesis secondHypothesis =>
      exact .second firstHypothesis secondHypothesis
  | left right _ inductionHypothesis =>
      exact .left right inductionHypothesis
  | right left _ inductionHypothesis =>
      exact .right left inductionHypothesis
  | guarded isTrue _ inductionHypothesis =>
      exact .guarded isTrue inductionHypothesis
  | grouped _ inductionHypothesis =>
      exact .grouped inductionHypothesis
  | positive negative isTrue _ inductionHypothesis =>
      exact .positive negative isTrue inductionHypothesis
  | negative positive isFalse _ inductionHypothesis =>
      exact .negative positive isFalse inductionHypothesis
  | synchronised listed _ _ merge leftHypothesis rightHypothesis =>
      exact .synchronised listed leftHypothesis rightHypothesis merge
  | concealed hidden _ inductionHypothesis =>
      exact .concealed hidden inductionHypothesis
  | named found takesNone noParameters _ inductionHypothesis =>
      exact .named found takesNone noParameters inductionHypothesis
  | given missing known =>
      exact .given missing (grows _ _ _ known)
  | applied found takesNone fits _ inductionHypothesis =>
      exact .applied found takesNone fits inductionHypothesis
  | wrapped found takesOne fits _ inductionHypothesis =>
      exact .wrapped found takesOne fits inductionHypothesis

namespace Meaning

variable (meaning : Meaning) (defined : String → Option Behaviour)

/-- Names have the words that their definitions have if names have the given words. -/
def unfolding : (String → List String → Bool → Prop) →o (String → List String → Bool → Prop) where
  toFun words name word ended :=
    ∃ body, defined name = some body ∧ Performs (meaning.withWords words) body word ended
  monotone' _ _ grows _ _ _ := by
    rintro ⟨body, isDefined, performs⟩
    exact ⟨body, isDefined, performs.mono grows⟩

/-- The least words for names that follow definitions. -/
def following : Meaning :=
  meaning.withWords (meaning.unfolding defined).lfp

theorem follows_following : (meaning.following defined).Follows defined := by
  intro name body isDefined word ended
  have unfolds : (meaning.unfolding defined).lfp name word ended ↔
      ∃ body, defined name = some body ∧
        Performs (meaning.withWords (meaning.unfolding defined).lfp) body word ended := by
    conv_lhs => rw [← (meaning.unfolding defined).map_lfp]
    rfl
  refine unfolds.trans ?_
  simp only [isDefined, Option.some.injEq, exists_eq_left']
  rfl

end Meaning

def Library.SparedBy (defined : String → Option Behaviour) : Prop :=
  ∀ name body, defined name = some body → Library.definitionOf name = none

/-- Processes that let time pass only in `Idle` and `Finish`, and end only there. -/
inductive Behaviour.Untimed (defined : String → Option Behaviour) : Behaviour → Prop
  | skip : Untimed defined .skip
  | perform {event : Event} {next : Behaviour} :
      event.text ≠ tock →
      event.text ≠ finish →
      Untimed defined next →
      Untimed defined (.perform event next)
  | andThen {first second : Behaviour} :
      Untimed defined first →
      Untimed defined second →
      Untimed defined (.andThen first second)
  | grouped {body : Behaviour} : Untimed defined body → Untimed defined (.grouped body)
  | idle {body : Behaviour} : Untimed defined body → Untimed defined (.wrapped "Idle" [] body)
  | finished : Untimed defined (.named "Finish")
  | named {name : String} {body : Behaviour} :
      defined name = some body → Untimed defined body → Untimed defined (.named name)
  | synchronised {left right : Behaviour} {shared : List String} :
      Untimed defined left →
      Untimed defined right →
      Untimed defined (.synchronised left (.productions shared) right)

def untimed (word : List String) : List String :=
  word.filter fun event => event ≠ tock

def Action.seen : Action → List String
  | .event text => [text]
  | _ => []

variable {meaning : Meaning} {defined : String → Option Behaviour}
variable {process next : Behaviour} {word : List String} {ended : Bool}

private theorem performs_idle {body : Behaviour} (performs : Performs meaning body word ended) :
    Performs meaning (.wrapped "Idle" [] body) word ended :=
  performs_idle_iff.mpr (.left _ performs)

theorem performs_given_iff (follows : meaning.Follows defined) (spared : Library.SparedBy defined)
    {name : String} {body : Behaviour} (isDefined : defined name = some body) :
    Performs meaning (.named name) word ended ↔ Performs meaning body word ended := by
  have missing := spared name body isDefined
  constructor
  · intro performs
    cases performs with
    | start =>
        exact .start body
    | named found =>
        cases missing.symm.trans found
    | given _ known =>
        exact (follows name body isDefined word ended).mp known
  · intro performs
    exact .given missing ((follows name body isDefined word ended).mpr performs)

/-! ## From steps to words -/

/-- The words of a process account for one of its steps: it may end then and there, or do
first what is seen of the step and then what the next process does. -/
structure Accounts (meaning : Meaning) (defined : String → Option Behaviour)
    (process : Behaviour) (action : Action) (next : Behaviour) : Prop where
  timeless : ∀ event ∈ action.seen, event ≠ tock ∧ event ≠ finish
  ends : action = .ending → Performs meaning process [] true
  untimed : action ≠ .ending → next.Untimed defined
  goesOn : action ≠ .ending → ∀ {word ended}, Performs meaning next word ended →
    Performs meaning process (action.seen ++ word) ended

/-- The sides of a composition may be exchanged. -/
theorem performs_synchronised_swap {left right : Behaviour} {events : EventSet}
    {shared : List String} (listed : events.listed = some shared)
    (performs : Performs meaning (.synchronised left events right) word ended) :
    Performs meaning (.synchronised right events left) word ended := by
  obtain ⟨_, _, _, _, inLeft, inRight, merge, rfl⟩ := (performs_synchronised_iff listed).mp performs
  rw [Bool.and_comm]
  exact .synchronised listed inRight inLeft merge.swap

namespace Accounts

variable {front back one other body later : Behaviour} {action : Action} {shared : List String}

private theorem first (accounts : Accounts meaning defined front action later)
    (goesOn : action ≠ .ending) (ofBack : back.Untimed defined) :
    Accounts meaning defined (.andThen front back) action (.andThen later back) where
  timeless := accounts.timeless
  ends isEnding := absurd isEnding goesOn
  untimed _ := (accounts.untimed goesOn).andThen ofBack
  goesOn _ {word ended} performs := by
    rcases performs_andThen_iff.mp performs with ⟨rfl, inFront⟩ | ⟨before, after, rfl, done, rest⟩
    · exact .first back (accounts.goesOn goesOn inFront)
    · rw [← List.append_assoc]
      exact .second (accounts.goesOn goesOn done) rest

private theorem second (accounts : Accounts meaning defined front .ending later)
    (ofBack : back.Untimed defined) :
    Accounts meaning defined (.andThen front back) .silent back where
  timeless := List.forall_mem_nil _
  ends isEnding := by cases isEnding
  untimed _ := ofBack
  goesOn _ := .second (accounts.ends rfl)

private theorem grouped (accounts : Accounts meaning defined body action later) :
    Accounts meaning defined body.grouped action later.grouped where
  timeless := accounts.timeless
  ends isEnding := .grouped (accounts.ends isEnding)
  untimed goesOn := (accounts.untimed goesOn).grouped
  goesOn goesOn _ _ performs :=
    .grouped (accounts.goesOn goesOn (performs_grouped_iff.mp performs))

private theorem idle (accounts : Accounts meaning defined body action later) :
    Accounts meaning defined (.wrapped "Idle" [] body) action later where
  timeless := accounts.timeless
  ends isEnding := performs_idle (accounts.ends isEnding)
  untimed := accounts.untimed
  goesOn goesOn _ _ performs := performs_idle (accounts.goesOn goesOn performs)

private theorem left (accounts : Accounts meaning defined one action later)
    (alone : action.IsAlone shared) (ofOther : other.Untimed defined) :
    Accounts meaning defined (.synchronised one (.productions shared) other) action
      (.synchronised later (.productions shared) other) := by
  have goesOn : action ≠ .ending := by
    rintro rfl
    exact alone
  refine ⟨accounts.timeless, fun isEnding => absurd isEnding goesOn, fun _ => ?_, fun _ => ?_⟩
  · exact (accounts.untimed goesOn).synchronised ofOther
  · intro word ended performs
    obtain ⟨_, _, _, _, inOne, inOther, merge, rfl⟩ := (performs_synchronised_iff rfl).mp performs
    refine .synchronised rfl (accounts.goesOn goesOn inOne) inOther ?_
    cases action with
    | silent =>
        exact merge
    | event text =>
        exact .left alone merge
    | ending =>
        exact absurd rfl goesOn

private theorem right (accounts : Accounts meaning defined other action later)
    (alone : action.IsAlone shared) (ofOne : one.Untimed defined) :
    Accounts meaning defined (.synchronised one (.productions shared) other) action
      (.synchronised one (.productions shared) later) where
  timeless := accounts.timeless
  ends isEnding := performs_synchronised_swap rfl ((accounts.left alone ofOne).ends isEnding)
  untimed goesOn := ofOne.synchronised (accounts.untimed goesOn)
  goesOn goesOn _ _ performs := performs_synchronised_swap rfl
    ((accounts.left alone ofOne).goesOn goesOn (performs_synchronised_swap rfl performs))

variable {oneLater otherLater : Behaviour}

private theorem together {event : String}
    (ofOne : Accounts meaning defined one (.event event) oneLater)
    (ofOther : Accounts meaning defined other (.event event) otherLater)
    (member : event ∈ shared) :
    Accounts meaning defined (.synchronised one (.productions shared) other) (.event event)
      (.synchronised oneLater (.productions shared) otherLater) where
  timeless := ofOne.timeless
  ends isEnding := by cases isEnding
  untimed goesOn := (ofOne.untimed goesOn).synchronised (ofOther.untimed goesOn)
  goesOn goesOn _ _ performs := by
    obtain ⟨_, _, _, _, inOne, inOther, merge, rfl⟩ := (performs_synchronised_iff rfl).mp performs
    exact .synchronised rfl (ofOne.goesOn goesOn inOne) (ofOther.goesOn goesOn inOther)
      (.together member merge)

private theorem bothEnd (ofOne : Accounts meaning defined one .ending oneLater)
    (ofOther : Accounts meaning defined other .ending otherLater) :
    Accounts meaning defined (.synchronised one (.productions shared) other) .ending .stop where
  timeless := List.forall_mem_nil _
  ends _ := .synchronised rfl (ofOne.ends rfl) (ofOther.ends rfl) .nil
  untimed goesOn := absurd rfl goesOn
  goesOn goesOn := absurd rfl goesOn

end Accounts

namespace Behaviour.Untimed

variable (follows : meaning.Follows defined) (spared : Library.SparedBy defined)
include follows spared

/-- The words account for every step. -/
theorem accounts {action : Action} (ofProcess : process.Untimed defined)
    (step : Transition defined process action next) :
    Accounts meaning defined process action next := by
  induction ofProcess generalizing action next with
  | skip =>
      cases step
      exact ⟨List.forall_mem_nil _, fun _ => .skip, absurd rfl, absurd rfl⟩
  | @perform event _ noTock noFinish ofNext =>
      cases step with
      | perform =>
          refine ⟨List.forall_mem_singleton.mpr ⟨noTock, noFinish⟩, ?_, fun _ => ofNext, ?_⟩
          · exact fun isEnding => by cases isEnding
          · exact fun _ => .perform event
  | andThen _ ofSecond firstHypothesis _ =>
      cases step with
      | first _ goesOn inner =>
          exact (firstHypothesis inner).first goesOn ofSecond
      | second _ inner =>
          exact (firstHypothesis inner).second ofSecond
  | grouped _ inductionHypothesis =>
      cases step with
      | grouped inner =>
          exact (inductionHypothesis inner).grouped
  | idle _ inductionHypothesis =>
      cases step with
      | idle inner =>
          exact (inductionHypothesis inner).idle
  | finished =>
      cases step with
      | named isDefined =>
          exact absurd (spared _ _ isDefined) (by decide)
  | named isDefined ofBody _ =>
      cases step with
      | named chosen =>
          cases isDefined.symm.trans chosen
          have unfolds := fun word ended =>
            @performs_given_iff _ _ word ended follows spared _ _ isDefined
          refine ⟨List.forall_mem_nil _, ?_, fun _ => ofBody, fun _ => (unfolds _ _).mpr⟩
          exact fun isEnding => by cases isEnding
  | synchronised ofLeft ofRight leftHypothesis rightHypothesis =>
      cases step with
      | left _ alone inner =>
          exact (leftHypothesis inner).left alone ofRight
      | right _ alone inner =>
          exact (rightHypothesis inner).right alone ofLeft
      | together member leftStep rightStep =>
          exact (leftHypothesis leftStep).together (rightHypothesis rightStep) member
      | ending leftStep rightStep =>
          exact (leftHypothesis leftStep).bothEnd (rightHypothesis rightStep)

/-- What a run performs, and whatever the final process performs behind it, is a word. -/
theorem performs_of_run {final : Behaviour} (ofProcess : process.Untimed defined)
    (run : Run defined process word final) :
    (∀ event ∈ word, event ≠ tock ∧ event ≠ finish) ∧
      ∀ {rest ended}, Performs meaning final rest ended →
        Performs meaning process (word ++ rest) ended := by
  induction run with
  | refl =>
      exact ⟨List.forall_mem_nil _, id⟩
  | silent step _ inductionHypothesis =>
      have accounts := ofProcess.accounts follows spared step
      obtain ⟨timeless, performs⟩ := inductionHypothesis (accounts.untimed (by simp))
      exact ⟨timeless, fun inFinal => accounts.goesOn (by simp) (performs inFinal)⟩
  | event step _ inductionHypothesis =>
      have accounts := ofProcess.accounts follows spared step
      obtain ⟨timeless, performs⟩ := inductionHypothesis (accounts.untimed (by simp))
      refine ⟨List.forall_mem_cons.mpr ⟨?_, timeless⟩, fun inFinal => ?_⟩
      · exact accounts.timeless _ List.mem_cons_self
      · exact accounts.goesOn (by simp) (performs inFinal)

end Behaviour.Untimed

/-! ## From words to steps -/

/-- The process can perform the word step by step, and can end then if asked to. -/
def Reaches (defined : String → Option Behaviour) (process : Behaviour) (word : List String)
    (ended : Bool) : Prop :=
  ∃ final, Run defined process word final ∧
    (ended = true → ∃ later, Transition defined final .ending later)

private theorem reaches_start (defined : String → Option Behaviour) (process : Behaviour) :
    Reaches defined process [] false :=
  ⟨process, .refl process, by simp⟩

namespace Reaches

private theorem perform (event : Event) (reaches : Reaches defined next word ended) :
    Reaches defined (.perform event next) (event.text :: word) ended := by
  obtain ⟨final, run, ends⟩ := reaches
  exact ⟨final, .event (.perform event next) run, ends⟩

private theorem first {first : Behaviour} (second : Behaviour)
    (reaches : Reaches defined first word false) :
    Reaches defined (.andThen first second) word false := by
  obtain ⟨final, run, _⟩ := reaches
  exact ⟨.andThen final second, run.andThen second, by simp⟩

private theorem second {first second : Behaviour} {before after : List String}
    (reaches : Reaches defined first before true) (later : Reaches defined second after ended) :
    Reaches defined (.andThen first second) (before ++ after) ended := by
  obtain ⟨middle, toMiddle, ends⟩ := reaches
  obtain ⟨last, step⟩ := ends rfl
  obtain ⟨final, run, finalEnds⟩ := later
  exact ⟨final, (toMiddle.andThen second).trans (.silent (.second second step) run), finalEnds⟩

private theorem grouped {body : Behaviour} (reaches : Reaches defined body word ended) :
    Reaches defined body.grouped word ended := by
  obtain ⟨final, run, ends⟩ := reaches
  refine ⟨final.grouped, run.grouped, fun isEnded => ?_⟩
  obtain ⟨later, step⟩ := ends isEnded
  exact ⟨later.grouped, .grouped step⟩

/-- A process leaves `Idle` with its first step. -/
theorem idle {body : Behaviour} (reaches : Reaches defined body word ended) :
    Reaches defined (.wrapped "Idle" [] body) word ended := by
  obtain ⟨final, run, ends⟩ := reaches
  cases run with
  | refl =>
      refine ⟨_, .refl _, fun isEnded => ?_⟩
      obtain ⟨later, step⟩ := ends isEnded
      exact ⟨later, .idle step⟩
  | silent step rest =>
      exact ⟨final, .silent (.idle step) rest, ends⟩
  | event step rest =>
      exact ⟨final, .event (.idle step) rest, ends⟩

private theorem named {name : String} {body : Behaviour} (isDefined : defined name = some body)
    (reaches : Reaches defined body word ended) : Reaches defined (.named name) word ended := by
  obtain ⟨final, run, ends⟩ := reaches
  exact ⟨final, .silent (.named isDefined) run, ends⟩

private theorem synchronised {left right : Behaviour} {shared leftWord rightWord : List String}
    {leftEnded rightEnded : Bool} (ofLeft : Reaches defined left leftWord leftEnded)
    (ofRight : Reaches defined right rightWord rightEnded)
    (merge : Merge shared leftWord rightWord word) :
    Reaches defined (.synchronised left (.productions shared) right) word
      (leftEnded && rightEnded) := by
  obtain ⟨leftFinal, leftRun, leftEnds⟩ := ofLeft
  obtain ⟨rightFinal, rightRun, rightEnds⟩ := ofRight
  refine ⟨_, Run.synchronised merge leftRun rightRun, fun bothEnded => ?_⟩
  rw [Bool.and_eq_true] at bothEnded
  obtain ⟨_, leftStep⟩ := leftEnds bothEnded.1
  obtain ⟨_, rightStep⟩ := rightEnds bothEnded.2
  exact ⟨.stop, .ending leftStep rightStep⟩

end Reaches

/-- Time passes in `Idle`, and then the process goes on. -/
theorem exists_suffix_of_idle {body : Behaviour}
    (performs : Performs meaning (.wrapped "Idle" [] body) word ended) :
    ∃ rest, rest <:+ word ∧ untimed rest = untimed word ∧ Performs meaning body rest ended := by
  induction word with
  | nil =>
      rcases performs_choice_iff.mp (performs_idle_iff.mp performs) with inBody | passed
      · exact ⟨[], List.suffix_refl _, rfl, inBody⟩
      · rcases performs_perform_iff.mp passed with ⟨_, rfl⟩ | ⟨rest, shape, _⟩
        · exact ⟨[], List.suffix_refl _, rfl, .start body⟩
        · cases shape
  | cons event later inductionHypothesis =>
      rcases performs_choice_iff.mp (performs_idle_iff.mp performs) with inBody | passed
      · exact ⟨_, List.suffix_refl _, rfl, inBody⟩
      · rcases performs_perform_iff.mp passed with ⟨shape, _⟩ | ⟨rest, shape, onward⟩
        · cases shape
        · obtain ⟨isTock, rfl⟩ := List.cons.inj shape
          obtain ⟨rest, isSuffix, same, inBody⟩ := inductionHypothesis onward
          refine ⟨rest, isSuffix.trans (List.suffix_cons event later), ?_, inBody⟩
          have passes : untimed (event :: later) = untimed later :=
            List.filter_cons_of_neg (by simpa [Event.text] using isTock)
          exact same.trans passes.symm

theorem Behaviour.Untimed.reaches (follows : meaning.Follows defined)
    (spared : Library.SparedBy defined) (ofProcess : process.Untimed defined)
    (performs : Performs meaning process word ended) (silent : finish ∉ word) :
    Reaches defined process (untimed word) ended := by
  induction ofProcess generalizing word ended with
  | skip =>
      cases performs_skip_iff.mp performs
      exact ⟨.skip, .refl _, fun _ => ⟨_, .skip⟩⟩
  | @perform event next noTock _ _ inductionHypothesis =>
      rcases performs_perform_iff.mp performs with ⟨rfl, rfl⟩ | ⟨rest, rfl, later⟩
      · exact reaches_start _ _
      · have shown : untimed (event.text :: rest) = event.text :: untimed rest :=
          List.filter_cons_of_pos (by simpa using noTock)
        have restSilent : finish ∉ rest := fun member => silent (List.mem_cons_of_mem _ member)
        rw [shown]
        exact (inductionHypothesis later restSilent).perform event
  | @andThen first second _ _ firstHypothesis secondHypothesis =>
      rcases performs_andThen_iff.mp performs with ⟨rfl, inFirst⟩ | ⟨before, after, rfl, done, rest⟩
      · exact (firstHypothesis inFirst silent).first second
      · rw [List.mem_append, not_or] at silent
        rw [untimed, List.filter_append]
        exact (firstHypothesis done silent.1).second (secondHypothesis rest silent.2)
  | grouped _ inductionHypothesis =>
      exact (inductionHypothesis (performs_grouped_iff.mp performs) silent).grouped
  | idle _ inductionHypothesis =>
      obtain ⟨rest, isSuffix, same, inBody⟩ := exists_suffix_of_idle performs
      rw [← same]
      exact (inductionHypothesis inBody fun member => silent (isSuffix.subset member)).idle
  | finished =>
      obtain ⟨rest, isSuffix, same, inBody⟩ :=
        exists_suffix_of_idle (performs_finished_iff.mp performs)
      rcases performs_perform_iff.mp inBody with ⟨rfl, rfl⟩ | ⟨_, rfl, _⟩
      · rw [← same]
        exact reaches_start _ _
      · exact absurd (isSuffix.subset List.mem_cons_self) silent
  | named isDefined _ inductionHypothesis =>
      have inBody := (performs_given_iff follows spared isDefined).mp performs
      exact (inductionHypothesis inBody silent).named isDefined
  | synchronised _ _ leftHypothesis rightHypothesis =>
      obtain ⟨left, right, _, _, inLeft, inRight, merge, rfl⟩ :=
        (performs_synchronised_iff rfl).mp performs
      have ofLeft := leftHypothesis inLeft fun member => silent (merge.mem_of_mem_left member)
      have ofRight := rightHypothesis inRight fun member =>
        silent (merge.swap.mem_of_mem_left member)
      exact ofLeft.synchronised ofRight (merge.filter _)

/-- The words of the steps are those of the timed reading up to the common end, with the
passing of time left out. -/
theorem Behaviour.Untimed.isTrace_iff (follows : meaning.Follows defined)
    (spared : Library.SparedBy defined) (ofProcess : process.Untimed defined) :
    IsTrace defined process word ↔
      ∃ timed ended, Performs meaning process timed ended ∧ finish ∉ timed ∧
        untimed timed = word := by
  constructor
  · rintro ⟨final, run⟩
    obtain ⟨timeless, performs⟩ := ofProcess.performs_of_run follows spared run
    have whole := performs (.start final)
    rw [List.append_nil] at whole
    refine ⟨word, false, whole, fun member => (timeless _ member).2 rfl, ?_⟩
    exact List.filter_eq_self.mpr fun event member => by simpa using (timeless event member).1
  · rintro ⟨timed, ended, performs, silent, rfl⟩
    obtain ⟨final, run, _⟩ := ofProcess.reaches follows spared performs silent
    exact ⟨final, run⟩

theorem Scripted.untimed {events : List String} (scripted : Scripted process events)
    (timeless : ∀ event ∈ events, event ≠ tock ∧ event ≠ finish) : process.Untimed defined := by
  induction scripted with
  | skip =>
      exact .skip
  | perform event _ inductionHypothesis =>
      obtain ⟨⟨noTock, noFinish⟩, later⟩ := List.forall_mem_cons.mp timeless
      exact .perform noTock noFinish (inductionHypothesis later)
  | idle _ inductionHypothesis =>
      exact (inductionHypothesis timeless).idle
  | andThen _ _ firstHypothesis secondHypothesis =>
      obtain ⟨ofFirst, ofSecond⟩ := List.forall_mem_append.mp timeless
      exact (firstHypothesis ofFirst).andThen (secondHypothesis ofSecond)

theorem Awaits.untimed {events : List String} (awaits : Awaits defined process events)
    (timeless : ∀ event ∈ events, event ≠ tock ∧ event ≠ finish) : process.Untimed defined := by
  induction awaits with
  | finished =>
      exact .finished
  | andThen scripted _ inductionHypothesis =>
      obtain ⟨ofFirst, ofSecond⟩ := List.forall_mem_append.mp timeless
      exact (scripted.untimed ofFirst).andThen (inductionHypothesis ofSecond)
  | named isDefined _ inductionHypothesis =>
      exact .named isDefined (inductionHypothesis timeless)

private theorem untimed_nested {label : List ActorId → ActorId → List String}
    {processOf : ActorId → Behaviour} {rest : List ActorId}
    (each : ∀ actor ∈ rest, (processOf actor).Untimed defined) {before : List ActorId}
    {left : Behaviour} (ofLeft : left.Untimed defined) :
    (nested label processOf before left rest).Untimed defined := by
  induction rest generalizing before left with
  | nil =>
      exact ofLeft
  | cons next others inductionHypothesis =>
      obtain ⟨ofNext, ofOthers⟩ := List.forall_mem_cons.mp each
      have ofSide : (leftSide before left).Untimed defined := by
        rw [leftSide]
        split
        · exact ofLeft
        · exact ofLeft.grouped
      exact inductionHypothesis ofOthers (ofSide.synchronised ofNext)

namespace Specification

variable {specification : Specification} {messages : List Message} {first : ActorId}
  {rest : List ActorId}

/-- The event of a message has a channel and a direction, so it is none of time. -/
theorem eventOf_timeless (message : Message) :
    specification.eventOf message ≠ tock ∧ specification.eventOf message ≠ finish := by
  have dotted : '.' ∈ (specification.eventOf message).toList := by
    simp [eventOf, Message.eventName]
  constructor
  · intro same
    rw [same] at dotted
    exact absurd dotted (by decide)
  · intro same
    rw [same] at dotted
    exact absurd dotted (by decide)

/-- Lifelines and their composition have names of their own. -/
theorem sparedBy_exchangeDefinitions :
    Library.SparedBy (processNamed (specification.exchangeDefinitions messages first rest)) := by
  intro name body isDefined
  cases found : Library.definitionOf name with
  | none =>
      rfl
  | some definition =>
      have isName : definition.name = name := by
        simpa using List.find?_some found
      have others : ∀ definition ∈ Library.timers ++ Library.loops ++ Library.wrappers,
          definition.name ≠ Setting.lifelinesName ∧
            ¬ "Lifeline_".toList <+: definition.name.toList := by decide
      obtain ⟨notComposed, noLifeline⟩ := others definition (List.mem_of_find?_eq_some found)
      rw [isName] at notComposed noLifeline
      rw [processNamed_eq_none _ notComposed.symm] at isDefined
      · cases isDefined
      · rintro actor rfl
        exact noLifeline (by simp [processName])

end Specification

/-- The words of the lifelines of a plain exchange are the same by either reading. -/
theorem Interaction.PlainExchange.isTrace_iff_untimed {interaction : Interaction}
    {specification : Specification} {messages : List Message} {id : InteractionId}
    (exchange : interaction.PlainExchange specification messages)
    (apart : specification.ActorsNamedApart)
    (found : specification.interaction id = .ok interaction) :
    ∃ setting declarations,
      specification.setting id = .ok setting ∧
      setting.lifelineDefinitions.result = .ok declarations ∧
      ∀ meaning : Meaning, meaning.Follows (processNamed declarations) → ∀ word,
        IsTrace (processNamed declarations) (.named Setting.lifelinesName) word ↔
          ∃ timed ended, Performs meaning (.named Setting.lifelinesName) timed ended ∧
            finish ∉ timed ∧ untimed timed = word := by
  obtain ⟨first, rest, shape⟩ : ∃ first rest, interaction.lifelines = first :: rest :=
    List.exists_cons_of_ne_nil (by
      intro empty
      simpa [empty] using exchange.several)
  have known : ∀ actor ∈ first :: rest, actor.index < specification.actors.size :=
    shape ▸ exchange.lifelinesKnown
  have ofLifeline : ∀ actor ∈ first :: rest,
      Behaviour.Untimed (processNamed (specification.exchangeDefinitions messages first rest))
        (.named (specification.processName actor)) := by
    intro actor member
    apply (Specification.awaits_lifeline messages apart known member).untimed
    refine List.forall_mem_map.mpr ?_
    exact fun message _ => Specification.eventOf_timeless message
  obtain ⟨ofFirst, ofRest⟩ := List.forall_mem_cons.mp ofLifeline
  refine ⟨_, _, exchange.setting_eq found, exchange.result_lifelineDefinitions shape, ?_⟩
  intro meaning follows word
  have composed : Behaviour.Untimed _ (.named Setting.lifelinesName) :=
    .named Specification.processNamed_lifelines (untimed_nested ofRest ofFirst)
  exact composed.isTrace_iff follows Specification.sparedBy_exchangeDefinitions

end SequenceChart
