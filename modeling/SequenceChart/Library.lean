import SequenceChart.Declaration

/-!
Every generated file includes one library.  It declares the channels that all
interactions share, and defines loops, timers and the other processes that
headers call.
-/

namespace SequenceChart

/-- What can be chosen about generated files. -/
structure Configuration where
  /-- The name of the library file. -/
  libraryFile : String
  /-- The file with the semantics of time that the library builds on. -/
  tickTockFile : String
  /-- The largest natural number of the models. -/
  natMax : Nat
  /-- Whether files start with a comment that says what they are. -/
  header : Bool
  deriving DecidableEq, Repr

def Configuration.standard : Configuration where
  libraryFile := "seqlib.csp"
  tickTockFile := "tick_tock.csp"
  natMax := 4
  header := true

def Term.positive (count : Term) : Term :=
  .binary .gt count (.natural 0)

def Term.lessOne (count : Term) : Term :=
  .binary .sub count (.natural 1)

namespace Library

def body : Behaviour :=
  .named "P"

def call (function : String) (arguments : List Term) : Behaviour :=
  .applied function (arguments.map Operand.value)

def around (function : String) (arguments : List Term) : Behaviour :=
  .wrapped function (arguments.map Operand.value) body

def afterTock (next : Behaviour) : Behaviour :=
  .perform (.signal tock) next

def ending : Behaviour :=
  .perform (.signal finish) .skip

def either (left right : Behaviour) : Behaviour :=
  .join .externalChoice left right

def timers : List Definition :=
  [⟨"Idle", [], true, either body (afterTock (around "Idle" []))⟩,
    ⟨"Finish", [], false, .idle ending⟩,
    ⟨"WAIT", ["n"], false,
      .conditional (.positive (.name "n"))
        (afterTock (call "WAIT" [.lessOne (.name "n")])) .skip⟩,
    ⟨"AtLeast", ["n"], false,
      .conditional (.positive (.name "n"))
        (afterTock (call "AtLeast" [.lessOne (.name "n")])) .finished⟩,
    ⟨"AtMost", ["n"], false,
      either ending
        (.grouped (.guarded (.positive (.name "n"))
          (afterTock (call "AtMost" [.lessOne (.name "n")]))))⟩,
    ⟨"Between", ["l", "u"], false,
      .conditional (.positive (.name "l"))
        (afterTock (call "Between" [.lessOne (.name "l"), .lessOne (.name "u")]))
        (call "AtMost" [.name "u"])⟩]

def loops : List Definition :=
  [⟨"Loop", [], true, .andThen body (around "Loop" [])⟩,
    ⟨"LoopStar", [], true,
      either .skip (.grouped (.andThen body (around "LoopStar" [])))⟩,
    ⟨"BoundedLoop", ["n"], true,
      .conditional (.positive (.name "n"))
        (.andThen body (around "BoundedLoop" [.lessOne (.name "n")])) .skip⟩,
    ⟨"BoundedLoopUpper", ["n"], true,
      .conditional (.positive (.name "n"))
        (either .skip (.grouped (.andThen body (around "BoundedLoopUpper" [.lessOne (.name "n")]))))
        .skip⟩,
    ⟨"BoundedLoopLower", ["n"], true,
      .andThen (around "BoundedLoop" [.name "n"]) (around "LoopStar" [])⟩,
    ⟨"BoundedLoopRange", ["l", "u"], true,
      .andThen (around "BoundedLoop" [.name "l"])
        (around "BoundedLoopUpper" [.binary .sub (.name "u") (.name "l")])⟩]

def timedBy (timer : String) (limits : List String) : Behaviour :=
  .wrapped "Timed" [.call timer (limits.map Term.name)] body

def wrappers : List Definition :=
  [⟨"Timed", ["T"], true,
      .hiding
        (.grouped
          (.synchronised (.grouped (.andThen body .finished)) (.members [tock, finish])
            (.named "T")))
        (.members [finish])⟩,
    ⟨"DurationLower", ["l"], true, timedBy "AtLeast" ["l"]⟩,
    ⟨"DurationUpper", ["u"], true, timedBy "AtMost" ["u"]⟩,
    ⟨"DurationRange", ["l", "u"], true, timedBy "Between" ["l", "u"]⟩,
    ⟨"Deadline", ["n"], true, timedBy "AtMost" ["n"]⟩,
    ⟨"AnyUntil", ["E"], true,
      .interrupted (.applied "RUN" [.events (.named "E")]) body⟩]

def shared (natMax : Nat) : List Declaration :=
  [.channels [tock] none,
    .channels [finish] none,
    .channels [terminate] none,
    .verbatim "datatype SyncDir = enter | leave",
    .value "NatMax" (.natural natMax),
    .verbatim "nametype Nat = \x7b0..NatMax\x7d"]

def emptyLift : Definition :=
  ⟨"TT", [], true, .applied "TTLift" [.events (.productions []), .call "P" []]⟩

end Library

structure GeneratedFile where
  name : String
  contents : String
  deriving DecidableEq, Repr

/-- Sections with an empty line between them, up to a last end of line. -/
def sectionsText (sections : List String) : String :=
  joinWith "\n\n" sections ++ "\n"

def declarationsText (declarations : List Declaration) : String :=
  joinWith "\n" (declarations.map Declaration.text)

def emptyContext : String :=
  "EmptyContext"

def libraryText (configuration : Configuration) : String :=
  sectionsText
    ((if configuration.header then
        [comment (configuration.libraryFile ++ ": processes shared by generated interactions")]
      else
        []) ++
      [inclusion configuration.tickTockFile,
        declarationsText (Library.shared configuration.natMax),
        declarationsText (Library.timers.map Declaration.definition),
        declarationsText (Library.loops.map Declaration.definition),
        declarationsText (Library.wrappers.map Declaration.definition),
        (Declaration.module emptyContext [] [.definition Library.emptyLift]).text])

end SequenceChart
