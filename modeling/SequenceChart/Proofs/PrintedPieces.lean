import SequenceChart.Generation
import SequenceChart.Proofs.CharacterPairs
import SequenceChart.Proofs.Pieces

/-!
# Pairs in printed files

Files are put together out of declarations and assertions, and these out of pieces.
Whatever is written between two pieces is a border, so the pairs of reserved
characters in a file are those in its pieces, in the order of the pieces.
-/

namespace SequenceChart

namespace PairRule

variable {β : Type} (rule : PairRule β)

def inPieces (pieces : List Piece) : List β :=
  pieces.flatMap fun piece => rule.within piece.text

@[simp]
theorem inPieces_nil : rule.inPieces [] = [] :=
  rfl

@[simp]
theorem inPieces_cons (piece : Piece) (rest : List Piece) :
    rule.inPieces (piece :: rest) = rule.within piece.text ++ rule.inPieces rest :=
  List.flatMap_cons

@[simp]
theorem inPieces_append (first second : List Piece) :
    rule.inPieces (first ++ second) = rule.inPieces first ++ rule.inPieces second :=
  List.flatMap_append

@[simp]
theorem inPieces_flatMap {α : Type} (pieces : α → List Piece) (items : List α) :
    rule.inPieces (items.flatMap pieces) =
      items.flatMap fun item => rule.inPieces (pieces item) :=
  List.flatMap_assoc

private theorem inPieces_map_layout (texts : List String) :
    rule.inPieces (texts.map .layout) = texts.flatMap rule.within := by
  rw [inPieces, List.flatMap_map]
  rfl

/-- A piece of layout that is a border adds no pair. -/
theorem within_layout {border : String} (isBorder : isBorder border = true) :
    rule.within (Piece.text (.layout border)) = [] :=
  rule.within_border isBorder

private theorem isBorder_joinSymbol (operator : JoinOperator) :
    isBorder (" " ++ operator.symbol ++ " ") = true := by
  cases operator <;> decide

/-- The pairs in a printed process are those in its pieces. -/
@[simp]
theorem within_behaviour (behaviour : Behaviour) :
    rule.within behaviour.text = rule.inPieces behaviour.pieces := by
  induction behaviour with
  | skip | stop | named | verbatim | applied =>
      exact (List.append_nil _).symm
  | perform event next inductionHypothesis =>
      rw [Behaviour.text, rule.within_separated _ _ (by decide), inductionHypothesis,
        Behaviour.pieces, inPieces_cons, inPieces_cons, rule.within_layout (by decide)]
      rfl
  | andThen first second firstHypothesis secondHypothesis =>
      rw [Behaviour.text, rule.within_separated _ _ (by decide), firstHypothesis,
        secondHypothesis, Behaviour.pieces, inPieces_append, inPieces_cons,
        rule.within_layout (by decide), List.nil_append]
  | join operator left right leftHypothesis rightHypothesis =>
      have text : (Behaviour.join operator left right).text =
          left.text ++ (" " ++ operator.symbol ++ " ") ++ right.text := by
        simp [Behaviour.text, String.append_assoc]
      rw [text, rule.within_separated _ _ (isBorder_joinSymbol operator), leftHypothesis,
        rightHypothesis, Behaviour.pieces, inPieces_append, inPieces_cons,
        rule.within_layout (isBorder_joinSymbol operator), List.nil_append]
  | guarded condition body inductionHypothesis =>
      have condition_followed : rule.within (Piece.text (.layout (condition.text ++ " & "))) =
          rule.within condition.text := rule.within_followed _ (by decide)
      rw [Behaviour.text, rule.within_separated _ _ (by decide), inductionHypothesis,
        Behaviour.pieces, inPieces_cons, condition_followed]
  | grouped body inductionHypothesis =>
      rw [Behaviour.text, rule.within_followed _ (by decide), rule.within_behind _ (by decide),
        inductionHypothesis, Behaviour.pieces, inPieces_cons, inPieces_append, inPieces_cons,
        rule.within_layout (by decide), rule.within_layout (by decide)]
      simp
  | wrapped function arguments body inductionHypothesis =>
      rw [Behaviour.text, rule.within_followed _ (by decide),
        rule.within_separated _ _ (by decide), inductionHypothesis, Behaviour.pieces,
        inPieces_cons, inPieces_cons, inPieces_append, inPieces_cons,
        rule.within_layout (by decide), rule.within_layout (by decide)]
      simp [Piece.text]
  | remarked remark body inductionHypothesis =>
      rw [Behaviour.text, rule.within_separated _ _ (by decide), inductionHypothesis,
        Behaviour.pieces, inPieces_cons, inPieces_cons, rule.within_layout (by decide)]
      rfl
  | annotated body remark inductionHypothesis =>
      rw [Behaviour.text, rule.within_separated _ _ (by decide), inductionHypothesis,
        Behaviour.pieces, inPieces_append, inPieces_cons, inPieces_cons,
        rule.within_layout (by decide)]
      simp [Piece.text]
  | synchronised left events right leftHypothesis rightHypothesis =>
      have label : rule.within (Piece.text (.layout (" [| " ++ events.text ++ " |] "))) =
          rule.within events.text := by
        rw [Piece.text, rule.within_followed _ (by decide), rule.within_behind _ (by decide)]
      rw [Behaviour.text, rule.within_separated _ _ (by decide),
        rule.within_separated _ _ (by decide), leftHypothesis, rightHypothesis,
        Behaviour.pieces, inPieces_append, inPieces_cons, label, List.append_assoc]
  | «hiding» body events inductionHypothesis =>
      have hidden : rule.within (Piece.text (.layout (" \\ " ++ events.text))) =
          rule.within events.text := rule.within_behind _ (by decide)
      rw [Behaviour.text, rule.within_separated _ _ (by decide), inductionHypothesis,
        Behaviour.pieces, inPieces_append, inPieces_cons, hidden, inPieces_nil,
        List.append_nil]
  | interrupted left right leftHypothesis rightHypothesis =>
      rw [Behaviour.text, rule.within_separated _ _ (by decide), leftHypothesis,
        rightHypothesis, Behaviour.pieces, inPieces_append, inPieces_cons,
        rule.within_layout (by decide), List.nil_append]
  | conditional condition positive negative positiveHypothesis negativeHypothesis =>
      have tested : rule.within (Piece.text (.layout ("if " ++ condition.text ++ " then "))) =
          rule.within condition.text := by
        rw [Piece.text, rule.within_followed _ (by decide), rule.within_behind _ (by decide)]
      rw [Behaviour.text, rule.within_separated _ _ (by decide),
        rule.within_separated _ _ (by decide), rule.within_behind _ (by decide),
        positiveHypothesis, negativeHypothesis, Behaviour.pieces, inPieces_cons, tested,
        inPieces_append, inPieces_cons, rule.within_layout (by decide), List.nil_append,
        List.append_assoc]

end PairRule

def Definition.pieces (definition : Definition) : List Piece :=
  .layout definition.name :: (definition.parameters.map .layout ++ definition.body.pieces)

mutual

/-- The pieces of a declaration, without the words and line ends around them. -/
def Declaration.pieces : Declaration → List Piece
  | .verbatim text => [.layout text]
  | .channels names type => names.map .layout ++ type.toList.map .layout
  | .events name set => [.layout name, .layout set.text]
  | .value name term => [.layout name, .layout term.text]
  | .definition content => content.pieces
  | .store content => [.layout content.text]
  | .module name hidden exported =>
      .layout name :: (Declaration.listPieces hidden ++ Declaration.listPieces exported)

def Declaration.listPieces : List Declaration → List Piece
  | [] => []
  | declaration :: rest => declaration.pieces ++ Declaration.listPieces rest

end

@[simp]
theorem Declaration.listPieces_eq_flatMap (declarations : List Declaration) :
    listPieces declarations = declarations.flatMap pieces := by
  induction declarations with
  | nil =>
      rfl
  | cons declaration rest inductionHypothesis =>
      rw [listPieces, List.flatMap_cons, inductionHypothesis]

namespace PairRule

variable {β : Type} (rule : PairRule β)

private theorem within_definition (definition : Definition) :
    rule.within definition.text = rule.inPieces definition.pieces := by
  have head : rule.within definition.head =
      rule.within definition.name ++ definition.parameters.flatMap rule.within := by
    rw [Definition.head]
    split
    · rw [rule.within_followed _ (by decide), within_application]
    · rw [String.append_empty, within_application]
  rw [Definition.text, Behaviour.written_eq_text, rule.within_separated _ _ (by decide), head,
    within_behaviour, Definition.pieces, inPieces_cons, inPieces_append, inPieces_map_layout,
    List.append_assoc]
  rfl

mutual

/-- The pairs in a printed declaration are those in its pieces. -/
@[simp]
theorem within_declaration (declaration : Declaration) :
    rule.within declaration.text = rule.inPieces declaration.pieces := by
  cases declaration with
  | verbatim text =>
      exact (List.append_nil _).symm
  | channels names type =>
      cases type with
      | none =>
          have text : (Declaration.channels names none).text =
              "channel " ++ commaSeparated names := by
            simp [Declaration.text]
          rw [text, rule.within_behind _ (by decide), within_commaSeparated,
            Declaration.pieces, inPieces_append, inPieces_map_layout]
          exact (List.append_nil _).symm
      | some carried =>
          have text : (Declaration.channels names (some carried)).text =
              "channel " ++ commaSeparated names ++ " : " ++ carried := by
            simp [Declaration.text, String.append_assoc]
          rw [text, rule.within_separated _ _ (by decide), rule.within_behind _ (by decide),
            within_commaSeparated, Declaration.pieces, inPieces_append, inPieces_map_layout]
          simp [Piece.text]
  | events name set =>
      rw [Declaration.text, rule.within_separated _ _ (by decide), Declaration.pieces]
      simp [Piece.text]
  | value name term =>
      rw [Declaration.text, rule.within_separated _ _ (by decide), Declaration.pieces]
      simp [Piece.text]
  | definition content =>
      exact rule.within_definition content
  | store content =>
      exact (List.append_nil _).symm
  | module name hidden exported =>
      rw [Declaration.text, rule.within_followed _ (by decide),
        rule.within_separated _ _ (by decide), rule.within_separated _ _ (by decide),
        rule.within_behind _ (by decide), within_itemTexts hidden, within_itemTexts exported,
        Declaration.pieces, inPieces_cons, inPieces_append, List.append_assoc]
      rfl

theorem within_itemTexts (items : List Declaration) :
    rule.within (concatenate (Declaration.itemTexts items)) =
      rule.inPieces (Declaration.listPieces items) := by
  cases items with
  | nil =>
      rfl
  | cons item rest =>
      rw [Declaration.itemTexts, concatenate_cons, rule.within_separated _ _ (by decide),
        rule.within_indent, within_declaration item, within_itemTexts rest,
        Declaration.listPieces, inPieces_append]

end

end PairRule

def Reference.pieces : Reference → List Piece
  | .absent group => (Behaviour.annotated .stop (group ++ " has no target")).pieces
  | reference => [.layout reference.text]

def Side.pieces (side : Side) : List Piece :=
  (side.context.map fun space => .layout (qualified space "TT")).toList ++ side.process.pieces

/-- The pieces of an assertion, without what all assertions have. -/
def Assertion.pieces : Assertion → List Piece
  | .refinement _ _ abstract concrete => abstract.pieces ++ concrete.pieces
  | .core _ _ subject => subject.pieces

namespace PairRule

variable {β : Type} (rule : PairRule β)

private theorem within_reference (reference : Reference) :
    rule.within reference.text = rule.inPieces reference.pieces := by
  cases reference with
  | absent group =>
      exact rule.within_behaviour _
  | _ =>
      exact (List.append_nil _).symm

private theorem within_side (side : Side) : rule.within side.text = rule.inPieces side.pieces := by
  obtain ⟨context, process⟩ := side
  cases context with
  | none =>
      exact rule.within_reference process
  | some space =>
      have lifted := rule.within_application (qualified space "TT") [process.text]
      rw [List.flatMap_singleton, rule.within_reference process] at lifted
      exact lifted

/-- The pairs in a printed assertion are those in its sides. -/
@[simp]
theorem within_assertion (assertion : Assertion) :
    rule.within assertion.text = rule.inPieces assertion.pieces := by
  have negated : ∀ isNegated, isBorder ("assert " ++ negation isNegated) = true := by
    decide
  have clock : ∀ text, rule.within (text ++ " :[tau priority]: " ++
      (EventSet.members [tock]).text) = rule.within text := by
    intro text
    have noPair : rule.within (EventSet.members [tock]).text = [] :=
      rule.among_eq_nil_of_keepsApart (by decide)
    rw [rule.within_separated _ _ (by decide), noPair, List.append_nil]
  cases assertion with
  | refinement isNegated model abstract concrete =>
      have check : rule.within ("assert " ++ negation isNegated ++ abstract.text ++ " [T= " ++
          concrete.text) = rule.inPieces (abstract.pieces ++ concrete.pieces) := by
        rw [rule.within_separated _ _ (by decide), rule.within_behind _ (negated isNegated),
          within_side, within_side, inPieces_append]
      cases model with
      | trace =>
          exact (clock _).trans check
      | timed =>
          exact check
  | core isNegated kind subject =>
      have ended : ∀ ending, isBorder ending = true →
          rule.within ("assert " ++ negation isNegated ++ subject.text ++ ending) =
            rule.inPieces subject.pieces := by
        intro ending isBorder
        rw [rule.within_followed _ isBorder, rule.within_behind _ (negated isNegated),
          within_side]
      have compared : ∀ process, rule.within process = [] →
          rule.within ("assert " ++ negation isNegated ++ process ++ " [F= " ++
            subject.text) = rule.inPieces subject.pieces := by
        intro process noPair
        rw [rule.within_separated _ _ (by decide), rule.within_behind _ (negated isNegated),
          noPair, within_side, List.nil_append]
      cases kind with
      | deterministic | deadlockFree | divergenceFree =>
          exact ended _ (by decide)
      | timelockFree =>
          exact compared _ (rule.among_eq_nil_of_keepsApart (by decide))

/-- The pairs in sections are those of the sections one after the other. -/
@[simp]
theorem within_sectionsText (sections : List String) :
    rule.within (sectionsText sections) = sections.flatMap rule.within := by
  rw [sectionsText, rule.within_followed _ (by decide), rule.within_joinWith (by decide)]

@[simp]
theorem within_declarationsText (declarations : List Declaration) :
    rule.within (declarationsText declarations) =
      rule.inPieces (Declaration.listPieces declarations) := by
  rw [declarationsText, rule.within_joinWith (by decide), List.flatMap_map,
    Declaration.listPieces_eq_flatMap, inPieces_flatMap]
  simp only [within_declaration]

end PairRule

end SequenceChart
