/-!
Until and par fragments start and end for all lifelines together.  Each such
fragment has a number, and the lifelines meet on an event that carries the
number and says whether the fragment is entered or left.
-/

namespace SequenceChart

/-- The two kinds of fragment that lifelines enter and leave together. -/
inductive HandshakeKind where
  | until
  | par
  deriving DecidableEq, Repr

namespace HandshakeKind

def channel : HandshakeKind → String
  | .until => "until"
  | .par => "par"

def label : HandshakeKind → String
  | .until => "Until"
  | .par => "Par"

end HandshakeKind

/-- The two halves of a handshake. -/
inductive Phase where
  | enter
  | leave
  deriving DecidableEq, Repr

def Phase.text : Phase → String
  | .enter => "enter"
  | .leave => "leave"

end SequenceChart
