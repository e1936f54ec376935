import SequenceChart.Proofs.ModuleTexts

/-!
# Pairs in modules

Let a rule tolerate the characters of all given texts.  Then to have no pairs is a law of
printed texts, and every piece of a model that is under it has the pairs of its comments
only.  The module of a memory has no comments; its only pairs are those in the types of
its variables, with which the channels of the memory are declared.
-/

namespace SequenceChart

variable {β : Type} {rule : PairRule β} {isAllowed : Char → Bool}

/-- The texts of the comments among pieces, in order. -/
def remarksIn (pieces : List Piece) : List String :=
  pieces.filterMap Piece.remark?

@[simp]
theorem remarksIn_append (first second : List Piece) :
    remarksIn (first ++ second) = remarksIn first ++ remarksIn second :=
  List.filterMap_append

@[simp]
theorem remarksIn_layout (text : String) (rest : List Piece) :
    remarksIn (.layout text :: rest) = remarksIn rest :=
  rfl

namespace PairRule

/-- The pieces have no pairs but those of comments. -/
abbrev SettlesAll (rule : PairRule β) (pieces : List Piece) : Prop :=
  SaysOnly (fun text => rule.within text = []) pieces

/-- The pairs in settled pieces are those of the comments, in order. -/
theorem SettlesAll.inPieces_eq {pieces : List Piece} (settled : rule.SettlesAll pieces) :
    rule.inPieces pieces =
      (remarksIn pieces).flatMap fun text => rule.within (comment text) := by
  induction pieces with
  | nil =>
      rfl
  | cons piece rest inductionHypothesis =>
      obtain ⟨ofPiece, restSettled⟩ := List.forall_mem_cons.mp settled
      have ofRest := inductionHypothesis restSettled
      have head : rule.within piece.text =
          piece.remark?.toList.flatMap fun text => rule.within (comment text) := by
        cases piece with
        | remark text =>
            exact (List.append_nil _).symm
        | layout | event | call =>
            exact ofPiece
      have split : remarksIn (piece :: rest) = piece.remark?.toList ++ remarksIn rest := by
        cases shape : piece.remark? <;> simp [remarksIn, shape]
      rw [inPieces_cons, head, ofRest, split, List.flatMap_append]

/-- The comments among settled pieces have no pairs in their texts. -/
theorem SettlesAll.within_remark {pieces : List Piece} (settled : rule.SettlesAll pieces) :
    ∀ text ∈ remarksIn pieces, rule.within text = [] := by
  intro text member
  obtain ⟨piece, isPiece, remark⟩ := List.mem_filterMap.mp member
  cases piece <;> cases remark
  exact settled _ isPiece

/-- A store shows the names of its variables and of their types, and has no pairs. -/
theorem Tolerates.within_storeText (tolerates : rule.Tolerates isAllowed) {store : Store}
    (ofNames : ∀ cell ∈ store.cells, ConsistsOf isAllowed cell.name)
    (ofTypes : ∀ cell ∈ store.cells, ∀ type, cell.type = .named type →
      ConsistsOf isAllowed type) :
    rule.within store.text = [] := by
  have law := tolerates.textLaw
  have ofParameters : ∀ parameter ∈ store.parameters, ConsistsOf isAllowed parameter :=
    List.forall_mem_map.mpr ofNames
  have definition : rule.within store.definition = [] := by
    have head := law.storeCall fun parameter member => law.given (ofParameters parameter member)
    have branches : (store.branches.map Store.branchText).flatMap rule.within = [] := by
      rw [List.flatMap_map]
      exact List.flatMap_eq_nil_iff.mpr (law.branchesFrom ofParameters ofParameters)
    rw [Store.definition, rule.within_separated _ _ (by decide), head, rule.within_indent,
      rule.within_joinWith (by decide), branches]
    rfl
  have start := law.storeStart ofNames ofTypes
  rw [Store.text, rule.within_behind _ (by decide), rule.within_indent, letWithin,
    rule.within_separated _ _ (by decide), rule.within_behind _ (by decide),
    rule.within_joinWith (by decide), List.flatMap_map, List.flatMap_singleton,
    rule.within_indent, rule.within_indent, definition, start]
  rfl

end PairRule

namespace Specification

variable (specification : Specification)

def keptBy (id : InteractionId) : Except Fault (List Variable) := do
  let interaction ← specification.interaction id
  interaction.locals.mapM specification.variableAt

def keptIn (id : GroupId) : Except Fault (List Variable) := do
  let group ← specification.group id
  let kept ← group.interactions.mapM specification.keptBy
  return kept.flatten

variable {specification} (tolerates : rule.Tolerates isAllowed)
  (gives : specification.GivesOnly (ConsistsOf isAllowed))
include tolerates gives

omit gives in
/-- The channels of variables are declared with the pairs in their types. -/
theorem inPieces_cells {kept : List Variable}
    (ofNames : ∀ found ∈ kept, ConsistsOf isAllowed found.name) :
    rule.inPieces (Declaration.listPieces
        (kept.map fun found => cellDeclaration ⟨found.name, found.type⟩)) =
      kept.flatMap (fun found => rule.within found.type.text) ∧
    remarksIn (Declaration.listPieces
        (kept.map fun found => cellDeclaration ⟨found.name, found.type⟩)) = [] := by
  induction kept with
  | nil =>
      exact ⟨rfl, rfl⟩
  | cons found rest inductionHypothesis =>
      obtain ⟨ofName, ofRest⟩ := List.forall_mem_cons.mp ofNames
      obtain ⟨pairs, remarks⟩ := inductionHypothesis ofRest
      have ofGet := tolerates.within_eq_nil (tolerates.allowsNames.consistsOf_getChannel ofName)
      have ofSet := tolerates.within_eq_nil (tolerates.allowsNames.consistsOf_setChannel ofName)
      have ofCell : rule.inPieces
          (cellDeclaration ⟨found.name, found.type⟩).pieces = rule.within found.type.text := by
        simp [cellDeclaration, Declaration.pieces, Piece.text, ofGet, ofSet]
      rw [List.map_cons, Declaration.listPieces, rule.inPieces_append, remarksIn_append, ofCell,
        pairs, remarks, List.flatMap_cons]
      exact ⟨rfl, rfl⟩

/-- A memory has the pairs in the types of its variables. -/
theorem inPieces_memoryModule {id : InteractionId} {declared : Option Declaration}
    (done : specification.memoryModule id = .ok declared) :
    ∃ kept, specification.keptBy id = .ok kept ∧
      rule.inPieces (Declaration.listPieces declared.toList) =
        kept.flatMap (fun found => rule.within found.type.text) ∧
      remarksIn (Declaration.listPieces declared.toList) = [] := by
  obtain ⟨interaction, kept, interactionDone, keptDone, cases⟩ := exists_of_memoryModule done
  refine ⟨kept, bind_eq_ok_iff.mpr ⟨interaction, interactionDone, keptDone⟩, ?_⟩
  have ofVariable := gives.kept keptDone
  have ofNames : ∀ found ∈ kept, ConsistsOf isAllowed found.name :=
    fun found isKept => ofVariable found isKept _ found.name_mem_givenTexts
  rcases cases with ⟨rfl, rfl⟩ | ⟨_, shape⟩
  · exact ⟨rfl, rfl⟩
  · have ofSpace := tolerates.within_eq_nil
      (tolerates.allowsNames.consistsOf_memoryName (gives.interaction_name interactionDone))
    have ofStore : rule.within
        (Store.text ⟨kept.map fun found => ⟨found.name, found.type⟩⟩) = [] := by
      apply tolerates.within_storeText
      · exact List.forall_mem_map.mpr ofNames
      · refine List.forall_mem_map.mpr ?_
        intro found isKept type named
        exact ofVariable found isKept type (Variable.type_mem_givenTexts named)
    obtain ⟨pairs, remarks⟩ := inPieces_cells tolerates ofNames
    have parts : Declaration.listPieces declared.toList =
        .layout (memoryName interaction.name) ::
          (Declaration.listPieces
            (kept.map fun found => cellDeclaration ⟨found.name, found.type⟩) ++
          [.layout (Store.text ⟨kept.map fun found => ⟨found.name, found.type⟩⟩)]) := by
      simp [shape, Declaration.pieces]
    rw [parts, rule.inPieces_cons, rule.inPieces_append, pairs, remarksIn_layout,
      remarksIn_append, remarks]
    constructor
    · simp [Piece.text, ofSpace, ofStore]
    · rfl

end Specification

end SequenceChart
