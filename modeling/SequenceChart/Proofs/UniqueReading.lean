import SequenceChart.Proofs.GivenTexts

/-!
Printed terms leave out parentheses at the root, around leaves and around unary
operators under binary ones.  If all names are identifiers, the text of a term still
determines the term.

What is shown by induction is more: in a text that begins with a printed term, one can
tell which term it is and where it ends.  A term that stands on its own is followed by a
closing parenthesis or nothing.  An operand may also be followed by a blank.
-/

namespace SequenceChart

/-- Letters.  Characters that are not ASCII count as such. -/
def isLetter (character : Char) : Bool :=
  character.isAlpha || decide (127 < character.toNat)

/-- The characters of identifiers behind the first. -/
def isWordCharacter (character : Char) : Bool :=
  isLetter character || character.isDigit || character = '_' || character = '\x27' ||
    character = ':'

/-- Words that have a meaning of their own in terms. -/
def keywords : List String :=
  ["true", "false", "not", "and", "or"]

/-- Whether a name begins with a letter, goes on with characters of words, and is no
keyword. -/
def isIdentifier (name : String) : Bool :=
  name.toList.head?.any isLetter && name.toList.all isWordCharacter && !keywords.contains name

def Term.HasIdentifiers (term : Term) : Prop :=
  ∀ name ∈ term.names, isIdentifier name = true

instance (term : Term) : Decidable term.HasIdentifiers :=
  List.decidableBAll (fun name => isIdentifier name = true) term.names

theorem isIdentifier_iff {name : String} :
    isIdentifier name = true ↔ (∃ first ∈ name.toList.head?, isLetter first = true) ∧
      ConsistsOf isWordCharacter name ∧ name ∉ keywords := by
  rw [isIdentifier, Bool.and_eq_true, Bool.and_eq_true, and_assoc]
  refine and_congr ?_ (and_congr ?_ ?_)
  · cases name.toList.head? <;> simp
  · exact List.all_eq_true
  · simp

private theorem isDigit_eq_false_of_isLetter {character : Char}
    (letter : isLetter character = true) :
    character.isDigit = false := by
  have codes : ∀ {least most : UInt32}, least ≤ character.val ∧ character.val ≤ most →
      least.toNat ≤ character.toNat ∧ character.toNat ≤ most.toNat :=
    fun inRange => inRange.imp UInt32.le_iff_toNat_le.mp UInt32.le_iff_toNat_le.mp
  have both : ∀ {first second : Prop} [Decidable first] [Decidable second],
      (decide first && decide second) = true → first ∧ second :=
    fun holds => (Bool.and_eq_true_iff.mp holds).imp of_decide_eq_true of_decide_eq_true
  rw [← Bool.not_eq_true]
  intro digit
  have ofDigit : 48 ≤ character.toNat ∧ character.toNat ≤ 57 := codes (both digit)
  rcases Bool.or_eq_true_iff.mp letter with alpha | beyond
  · rcases Bool.or_eq_true_iff.mp alpha with upper | lower
    · have ofUpper : 65 ≤ character.toNat ∧ character.toNat ≤ 90 :=
        codes (of_decide_eq_true upper)
      omega
    · have ofLower : 97 ≤ character.toNat ∧ character.toNat ≤ 122 := codes (both lower)
      omega
  · have far := of_decide_eq_true beyond
    omega

def EndsAt (delimiters : List Char) (rest : List Char) : Prop :=
  ∀ character ∈ rest.head?, character ∈ delimiters

theorem EndsAt.cons {delimiters : List Char} {character : Char} (rest : List Char)
    (member : character ∈ delimiters) : EndsAt delimiters (character :: rest) := by
  rintro found ⟨⟩
  exact member

theorem EndsAt.orBlank {rest : List Char} (ends : EndsAt [')'] rest) : EndsAt [' ', ')'] rest :=
  fun character isHead => List.mem_cons_of_mem _ (ends character isHead)

private theorem not_endsAt_blank {rest : List Char} : ¬ EndsAt [')'] (' ' :: rest) :=
  fun ends => absurd (ends ' ' rfl) (by decide)

/-- Two texts that begin with characters of a class, as far as it goes, begin alike if
they are equal. -/
theorem eq_and_eq_of_append_eq {isInside : Char → Bool} {first second rest others : List Char}
    (firstInside : ∀ character ∈ first, isInside character = true)
    (secondInside : ∀ character ∈ second, isInside character = true)
    (restOutside : ∀ character ∈ rest.head?, isInside character = false)
    (othersOutside : ∀ character ∈ others.head?, isInside character = false)
    (same : first ++ rest = second ++ others) : first = second ∧ rest = others := by
  have takes : ∀ {front behind : List Char}, (∀ character ∈ front, isInside character = true) →
      (∀ character ∈ behind.head?, isInside character = false) →
      (front ++ behind).takeWhile isInside = front := by
    intro front behind inside outside
    rw [List.takeWhile_append_of_pos inside]
    cases behind with
    | nil =>
        exact List.append_nil front
    | cons head tail =>
        rw [List.takeWhile_cons_of_neg (by simp [outside head rfl]), List.append_nil]
  have fronts : first = second := by
    rw [← takes firstInside restOutside, same, takes secondInside othersOutside]
  subst fronts
  exact ⟨rfl, List.append_cancel_left same⟩

private theorem isWordCharacter_of_endsAt {rest : List Char} (ends : EndsAt [' ', ')'] rest) :
    ∀ character ∈ rest.head?, isWordCharacter character = false := by
  intro character isHead
  have delimits := ends character isHead
  simp only [List.mem_cons, List.not_mem_nil, or_false] at delimits
  rcases delimits with rfl | rfl <;> decide

namespace Term

@[simp]
theorem render_truth (value nested : Bool) : (truth value).render nested = toString value := by
  cases value <;> rfl

/-- The text of a leaf is a word. -/
theorem isWord_of_leaf {leaf : Term} (isLeaf : leaf.isCompound = false)
    (identifiers : leaf.HasIdentifiers) (nested : Bool) :
    (leaf.render nested).toList ≠ [] ∧ ConsistsOf isWordCharacter (leaf.render nested) := by
  cases leaf with
  | natural value =>
      refine ⟨natural_ne_nil value, fun character member => ?_⟩
      simp [isWordCharacter, isDigit_of_mem_natural member]
  | truth value =>
      rw [render_truth]
      cases value <;> decide
  | name identifier =>
      obtain ⟨⟨first, isHead, _⟩, word, _⟩ :=
        isIdentifier_iff.mp (identifiers identifier List.mem_cons_self)
      refine ⟨fun empty => ?_, word⟩
      rw [render] at empty
      rw [empty] at isHead
      cases isHead
  | unary | binary =>
      cases isLeaf

private theorem natural_ne_of_letter {value : Nat} {word : String}
    (begins : ∃ first ∈ word.toList.head?, isLetter first = true) : toString value ≠ word := by
  rintro rfl
  obtain ⟨first, isHead, letter⟩ := begins
  have digit := isDigit_of_mem_natural (List.mem_of_mem_head? isHead)
  rw [isDigit_eq_false_of_isLetter letter] at digit
  cases digit

private theorem natural_ne_truth {value : Nat} {answer : Bool} :
    toString value ≠ toString answer := by
  apply natural_ne_of_letter
  cases answer with
  | true =>
      exact ⟨'t', by decide, by decide⟩
  | false =>
      exact ⟨'f', by decide, by decide⟩

private theorem render_leaf_ne_name {leaf : Term} {identifier : String} {nested : Bool}
    (isLeaf : leaf.isCompound = false) (isName : isIdentifier identifier = true)
    (differs : leaf ≠ .name identifier) : leaf.render nested ≠ identifier := by
  obtain ⟨begins, _, noKeyword⟩ := isIdentifier_iff.mp isName
  cases leaf with
  | natural value =>
      exact natural_ne_of_letter begins
  | truth value =>
      rintro rfl
      rw [render_truth] at noKeyword
      cases value <;> exact absurd noKeyword (by decide)
  | name other =>
      exact fun same => differs (congrArg name same)
  | unary | binary =>
      cases isLeaf

private theorem leaf_eq_of_render_eq {leaf other : Term} {nested : Bool}
    (isLeaf : leaf.isCompound = false) (otherIsLeaf : other.isCompound = false)
    (identifiers : leaf.HasIdentifiers) (otherIdentifiers : other.HasIdentifiers)
    (same : leaf.render nested = other.render nested) : leaf = other := by
  by_contra differs
  cases other with
  | name identifier =>
      exact render_leaf_ne_name isLeaf (otherIdentifiers identifier List.mem_cons_self) differs
        same
  | natural value =>
      cases leaf with
      | natural number =>
          exact differs (congrArg natural (toString_injective same))
      | truth answer =>
          exact natural_ne_truth (same.symm.trans (render_truth answer nested))
      | name identifier =>
          exact natural_ne_of_letter
            (isIdentifier_iff.mp (identifiers identifier List.mem_cons_self)).1 same.symm
      | unary | binary =>
          cases isLeaf
  | truth value =>
      cases leaf with
      | natural number =>
          exact natural_ne_truth (same.trans (render_truth value nested))
      | truth answer =>
          rw [render_truth, render_truth] at same
          revert differs same
          cases answer <;> cases value <;> decide
      | name identifier =>
          exact render_leaf_ne_name rfl (identifiers identifier List.mem_cons_self)
            (Ne.symm differs) same.symm
      | unary | binary =>
          cases isLeaf
  | unary | binary =>
      cases otherIsLeaf

private theorem render_leaf_ne_not {leaf : Term} {nested : Bool} (isLeaf : leaf.isCompound = false)
    (identifiers : leaf.HasIdentifiers) : leaf.render nested ≠ "not" := by
  cases leaf with
  | natural value =>
      exact natural_ne_of_letter ⟨'n', by decide, by decide⟩
  | truth value =>
      rw [render_truth]
      cases value <;> decide
  | name identifier =>
      rintro (rfl : identifier = "not")
      exact absurd (identifiers _ List.mem_cons_self) (by decide)
  | unary | binary =>
      cases isLeaf

/-- The term behind a mark: in parentheses if it is built by an operator. -/
def enclosed (term : Term) : String :=
  if term.isCompound then "(" ++ term.text ++ ")" else term.text

private theorem render_unary (operator : UnaryOperator) (operand : Term) (nested : Bool) :
    (unary operator operand).render nested = operator.symbol ++ operand.enclosed := by
  cases operand <;> simp [render, enclosed, isUnary, isCompound, text, String.append_assoc]

private theorem render_leaf {leaf : Term} (isLeaf : leaf.isCompound = false) :
    leaf.render true = leaf.text := by
  cases leaf with
  | natural | name =>
      rfl
  | truth value =>
      rw [text, render_truth, render_truth]
  | unary | binary =>
      cases isLeaf

private theorem leaf_or_operator (term : Term) :
    term.isCompound = false ∨ (∃ operator operand, term = .unary operator operand) ∨
      ∃ operator left right, term = .binary operator left right := by
  cases term with
  | natural | truth | name =>
      exact .inl rfl
  | unary operator operand =>
      exact .inr (.inl ⟨operator, operand, rfl⟩)
  | binary operator left right =>
      exact .inr (.inr ⟨operator, left, right, rfl⟩)

/-- In a text that begins with a printed term, one can tell the term and its end. -/
def IsReadBy (print : Term → String) (delimiters : List Char) (term : Term) : Prop :=
  ∀ other rest others, other.HasIdentifiers → EndsAt delimiters rest →
    EndsAt delimiters others →
    (print term).toList ++ rest = (print other).toList ++ others → term = other ∧ rest = others

/-- Leaves are read up to the first character that belongs to no word. -/
theorem leaf_eq_and_eq {leaf other : Term} {rest others : List Char}
    (isLeaf : leaf.isCompound = false) (otherIsLeaf : other.isCompound = false)
    (identifiers : leaf.HasIdentifiers) (otherIdentifiers : other.HasIdentifiers)
    (ends : EndsAt [' ', ')'] rest) (othersEnd : EndsAt [' ', ')'] others)
    (same : leaf.text.toList ++ rest = other.text.toList ++ others) :
    leaf = other ∧ rest = others := by
  obtain ⟨texts, rests⟩ := eq_and_eq_of_append_eq (isWord_of_leaf isLeaf identifiers false).2
    (isWord_of_leaf otherIsLeaf otherIdentifiers false).2 (isWordCharacter_of_endsAt ends)
    (isWordCharacter_of_endsAt othersEnd) same
  exact ⟨leaf_eq_of_render_eq isLeaf otherIsLeaf identifiers otherIdentifiers
    (String.toList_inj.mp texts), rests⟩

theorem leaf_ne_cons {leaf : Term} {mark : Char} {rest others : List Char}
    (isLeaf : leaf.isCompound = false) (identifiers : leaf.HasIdentifiers)
    (noWord : isWordCharacter mark = false) :
    leaf.text.toList ++ rest ≠ mark :: others := by
  intro same
  obtain ⟨notEmpty, word⟩ := isWord_of_leaf isLeaf identifiers false
  rw [← text] at notEmpty word
  cases characters : leaf.text.toList with
  | nil =>
      exact notEmpty characters
  | cons first behind =>
      rw [characters] at same
      cases same
      rw [word mark (characters ▸ List.mem_cons_self)] at noWord
      cases noWord

/-- A leaf is not read where a unary operator stands. -/
theorem leaf_ne_unary {leaf operand : Term} {operator : UnaryOperator}
    {rest others : List Char} (isLeaf : leaf.isCompound = false)
    (identifiers : leaf.HasIdentifiers) (ends : EndsAt [' ', ')'] rest) :
    leaf.text.toList ++ rest ≠ (operator.symbol ++ operand.enclosed).toList ++ others := by
  rw [String.toList_append, List.append_assoc]
  cases operator with
  | neg =>
      exact leaf_ne_cons isLeaf identifiers (by decide)
  | not =>
      intro same
      have cut : leaf.text.toList ++ rest =
          "not".toList ++ ' ' :: (operand.enclosed.toList ++ others) := same
      have isWord : ConsistsOf isWordCharacter "not" := by decide
      obtain ⟨texts, _⟩ := eq_and_eq_of_append_eq (isWord_of_leaf isLeaf identifiers false).2
        isWord (isWordCharacter_of_endsAt ends)
        (isWordCharacter_of_endsAt (EndsAt.cons _ (by decide))) cut
      exact render_leaf_ne_not isLeaf identifiers (String.toList_inj.mp texts)

/-- A term that can be read on its own can be read behind a mark. -/
theorem isReadBy_enclosed {term : Term} (identifiers : term.HasIdentifiers)
    (alone : term.IsReadBy text [')']) : term.IsReadBy enclosed [' ', ')'] := by
  intro other rest others otherIdentifiers ends othersEnd same
  rw [enclosed, enclosed] at same
  by_cases isCompound : term.isCompound = true
  · by_cases otherIsCompound : other.isCompound = true
    · rw [if_pos isCompound, if_pos otherIsCompound] at same
      obtain ⟨terms, rests⟩ := alone other (')' :: rest) (')' :: others) otherIdentifiers
        (EndsAt.cons _ (by decide)) (EndsAt.cons _ (by decide)) (by simpa using same)
      exact ⟨terms, List.tail_eq_of_cons_eq rests⟩
    · rw [if_pos isCompound, if_neg otherIsCompound] at same
      have isLeaf := Bool.eq_false_of_not_eq_true otherIsCompound
      refine absurd same.symm ?_
      rw [String.toList_append, String.toList_append, List.append_assoc, List.append_assoc]
      exact leaf_ne_cons isLeaf otherIdentifiers (by decide)
  · have isLeaf := Bool.eq_false_of_not_eq_true isCompound
    by_cases otherIsCompound : other.isCompound = true
    · rw [if_neg isCompound, if_pos otherIsCompound] at same
      refine absurd same ?_
      rw [String.toList_append, String.toList_append, List.append_assoc, List.append_assoc]
      exact leaf_ne_cons isLeaf identifiers (by decide)
    · rw [if_neg isCompound, if_neg otherIsCompound] at same
      exact leaf_eq_and_eq isLeaf (Bool.eq_false_of_not_eq_true otherIsCompound) identifiers
        otherIdentifiers ends othersEnd same

private theorem toList_text_binary (operator : BinaryOperator) (left right : Term)
    (rest : List Char) :
    (binary operator left right).text.toList ++ rest =
      (left.render true).toList ++
        ' ' :: (operator.symbol.toList ++ ' ' :: ((right.render true).toList ++ rest)) := by
  simp [text, render]

private theorem toList_render_binary (operator : BinaryOperator) (left right : Term)
    (rest : List Char) :
    ((binary operator left right).render true).toList ++ rest =
      '(' :: ((binary operator left right).text.toList ++ ')' :: rest) := by
  simp [text, render]

private theorem unary_ne_parenthesis {operator : UnaryOperator} {operand : Term}
    {rest others : List Char} :
    (operator.symbol ++ operand.enclosed).toList ++ rest ≠ '(' :: others := by
  rw [String.toList_append, List.append_assoc]
  intro same
  cases operator <;> exact absurd (List.head_eq_of_cons_eq same) (by decide)

private theorem symbol_eq_and_eq {operator other : UnaryOperator} {rest others : List Char}
    (same : operator.symbol.toList ++ rest = other.symbol.toList ++ others) :
    operator = other ∧ rest = others := by
  cases operator <;> cases other
  · exact ⟨rfl, List.append_cancel_left same⟩
  · exact absurd (List.head_eq_of_cons_eq same) (by decide)
  · exact absurd (List.head_eq_of_cons_eq same) (by decide)
  · exact ⟨rfl, List.append_cancel_left same⟩

private theorem binarySymbol_eq_and_eq {operator other : BinaryOperator} {rest others : List Char}
    (same : operator.symbol.toList ++ ' ' :: rest = other.symbol.toList ++ ' ' :: others) :
    operator = other ∧ rest = others := by
  have noBlank : ∀ operator : BinaryOperator, ConsistsOf (· != ' ') operator.symbol := by
    intro operator
    cases operator <;> decide
  have blank : ∀ characters : List Char, ∀ character ∈ (' ' :: characters).head?,
      (character != ' ') = false := by
    rintro characters character ⟨⟩
    rfl
  -- Signs and words alike end at the next blank.
  obtain ⟨symbols, rests⟩ := eq_and_eq_of_append_eq (noBlank operator) (noBlank other)
    (blank rest) (blank others) same
  refine ⟨?_, List.tail_eq_of_cons_eq rests⟩
  revert symbols
  cases operator <;> cases other <;> decide

private theorem isReadBy_leaf {leaf : Term} (isLeaf : leaf.isCompound = false)
    (identifiers : leaf.HasIdentifiers) : leaf.IsReadBy (render true) [' ', ')'] := by
  intro other rest others otherIdentifiers ends othersEnd same
  rw [render_leaf isLeaf] at same
  rcases other.leaf_or_operator with otherIsLeaf | ⟨operator, operand, rfl⟩ |
    ⟨operator, left, right, rfl⟩
  · rw [render_leaf otherIsLeaf] at same
    exact leaf_eq_and_eq isLeaf otherIsLeaf identifiers otherIdentifiers ends othersEnd same
  · rw [render_unary] at same
    exact absurd same (leaf_ne_unary isLeaf identifiers ends)
  · rw [toList_render_binary] at same
    exact absurd same (leaf_ne_cons isLeaf identifiers (by decide))

private theorem isReadBy_unary {operator : UnaryOperator} {operand : Term}
    (enclosedOperand : operand.IsReadBy enclosed [' ', ')']) :
    (unary operator operand).IsReadBy (render true) [' ', ')'] := by
  intro other rest others otherIdentifiers ends othersEnd same
  rw [render_unary] at same
  rcases other.leaf_or_operator with otherIsLeaf | ⟨otherOperator, otherOperand, rfl⟩ |
    ⟨otherOperator, left, right, rfl⟩
  · rw [render_leaf otherIsLeaf] at same
    exact absurd same.symm (leaf_ne_unary otherIsLeaf otherIdentifiers othersEnd)
  · rw [render_unary, String.toList_append, String.toList_append, List.append_assoc,
      List.append_assoc] at same
    obtain ⟨rfl, behind⟩ := symbol_eq_and_eq same
    obtain ⟨rfl, rests⟩ := enclosedOperand otherOperand rest others otherIdentifiers ends
      othersEnd behind
    exact ⟨rfl, rests⟩
  · rw [toList_render_binary] at same
    exact absurd same unary_ne_parenthesis

private theorem isReadBy_binary {operator : BinaryOperator} {left right : Term}
    (alone : (binary operator left right).IsReadBy text [')']) :
    (binary operator left right).IsReadBy (render true) [' ', ')'] := by
  intro other rest others otherIdentifiers ends othersEnd same
  rw [toList_render_binary] at same
  rcases other.leaf_or_operator with otherIsLeaf | ⟨otherOperator, otherOperand, rfl⟩ |
    ⟨otherOperator, otherLeft, otherRight, rfl⟩
  · rw [render_leaf otherIsLeaf] at same
    exact absurd same.symm (leaf_ne_cons otherIsLeaf otherIdentifiers (by decide))
  · rw [render_unary] at same
    exact absurd same.symm unary_ne_parenthesis
  · rw [toList_render_binary] at same
    obtain ⟨terms, rests⟩ := alone _ _ _ otherIdentifiers (EndsAt.cons rest (by decide))
      (EndsAt.cons others (by decide)) (List.tail_eq_of_cons_eq same)
    exact ⟨terms, List.tail_eq_of_cons_eq rests⟩

theorem HasIdentifiers.left {operator : BinaryOperator} {left right : Term}
    (identifiers : (binary operator left right).HasIdentifiers) : left.HasIdentifiers :=
  fun name member => identifiers name (List.mem_append_left _ member)

theorem HasIdentifiers.right {operator : BinaryOperator} {left right : Term}
    (identifiers : (binary operator left right).HasIdentifiers) : right.HasIdentifiers :=
  fun name member => identifiers name (List.mem_append_right _ member)

/-- On its own, a term that is no binary one is read as an operand is. -/
theorem isReadBy_text {term : Term} (sameText : term.render true = term.text)
    (asOperand : term.IsReadBy (render true) [' ', ')']) : term.IsReadBy text [')'] := by
  intro other rest others otherIdentifiers ends othersEnd same
  rw [← sameText] at same
  rcases other.leaf_or_operator with otherIsLeaf | ⟨operator, operand, rfl⟩ |
    ⟨operator, left, right, rfl⟩
  · rw [← render_leaf otherIsLeaf] at same
    exact asOperand other rest others otherIdentifiers ends.orBlank othersEnd.orBlank same
  · rw [text, render_unary, ← render_unary operator operand true] at same
    exact asOperand _ rest others otherIdentifiers ends.orBlank othersEnd.orBlank same
  · -- The term would be the left operand, but no blank follows it.
    rw [toList_text_binary] at same
    obtain ⟨_, rfl⟩ := asOperand left _ _ otherIdentifiers.left ends.orBlank
      (EndsAt.cons _ (by decide)) same
    exact absurd ends not_endsAt_blank

private theorem isReadBy_text_binary {operator : BinaryOperator} {left right : Term}
    (leftRead : left.IsReadBy (render true) [' ', ')'])
    (rightRead : right.IsReadBy (render true) [' ', ')']) :
    (binary operator left right).IsReadBy text [')'] := by
  intro other rest others otherIdentifiers ends othersEnd same
  rw [toList_text_binary] at same
  have blank : ∀ behind, EndsAt [' ', ')'] (' ' :: behind) :=
    fun behind => EndsAt.cons behind (by decide)
  rcases other.leaf_or_operator with otherIsLeaf | ⟨otherOperator, otherOperand, rfl⟩ |
    ⟨otherOperator, otherLeft, otherRight, rfl⟩
  · rw [← render_leaf otherIsLeaf] at same
    obtain ⟨_, rfl⟩ := leftRead other _ _ otherIdentifiers (blank _) othersEnd.orBlank same
    exact absurd othersEnd not_endsAt_blank
  · rw [text, render_unary, ← render_unary otherOperator otherOperand true] at same
    obtain ⟨_, rfl⟩ := leftRead _ _ _ otherIdentifiers (blank _) othersEnd.orBlank same
    exact absurd othersEnd not_endsAt_blank
  · rw [toList_text_binary] at same
    obtain ⟨rfl, behindLeft⟩ := leftRead otherLeft _ _ otherIdentifiers.left (blank _) (blank _)
      same
    obtain ⟨rfl, behindSymbol⟩ := binarySymbol_eq_and_eq (List.tail_eq_of_cons_eq behindLeft)
    obtain ⟨rfl, rests⟩ := rightRead otherRight rest others otherIdentifiers.right ends.orBlank
      othersEnd.orBlank behindSymbol
    exact ⟨rfl, rests⟩

/-- Terms over identifiers can be read, on their own and as operands. -/
theorem isReadBy {term : Term} (identifiers : term.HasIdentifiers) :
    term.IsReadBy text [')'] ∧ term.IsReadBy (render true) [' ', ')'] := by
  -- Parentheses are around a binary operand only.  So a binary term is read on its own first,
  -- from its operands, and all others are read as operands first.
  induction term with
  | natural | truth | name =>
      have asOperand := isReadBy_leaf rfl identifiers
      exact ⟨isReadBy_text (render_leaf rfl) asOperand, asOperand⟩
  | unary operator operand inductionHypothesis =>
      have ofOperand : operand.HasIdentifiers := identifiers
      have asOperand : (unary operator operand).IsReadBy (render true) [' ', ')'] :=
        isReadBy_unary (isReadBy_enclosed ofOperand (inductionHypothesis ofOperand).1)
      refine ⟨isReadBy_text ?_ asOperand, asOperand⟩
      rw [text, render_unary, render_unary]
  | binary operator left right leftHypothesis rightHypothesis =>
      have alone : (binary operator left right).IsReadBy text [')'] :=
        isReadBy_text_binary (leftHypothesis identifiers.left).2
          (rightHypothesis identifiers.right).2
      exact ⟨alone, isReadBy_binary alone⟩

/-- Terms over identifiers with the same text are equal. -/
theorem eq_of_text_eq {term other : Term} (identifiers : term.HasIdentifiers)
    (otherIdentifiers : other.HasIdentifiers) (same : term.text = other.text) : term = other := by
  have nothing : EndsAt [')'] [] := by simp [EndsAt]
  exact ((isReadBy identifiers).1 other [] [] otherIdentifiers nothing nothing
    (by rw [same])).1

end Term

/-! ## Expressions -/

namespace Specification

variable {specification : Specification} {diagram : Diagram}

/-- The tree that references in a diagram's table lead to, with the printed name at each
leaf that refers to a variable or a constant. -/
inductive ShowsTree (specification : Specification) (diagram : Diagram) :
    ExpressionId → Term → Prop
  | natural {id : ExpressionId} {value : Nat} :
      entryAt diagram.expressions id.index = .ok (.natural value) →
      ShowsTree specification diagram id (.natural value)
  | truth {id : ExpressionId} {value : Bool} :
      entryAt diagram.expressions id.index = .ok (.truth value) →
      ShowsTree specification diagram id (.truth value)
  | var {id : ExpressionId} {variableId : VariableId} {found : Variable} :
      entryAt diagram.expressions id.index = .ok (.var variableId) →
      specification.variableAt variableId = .ok found →
      ShowsTree specification diagram id (.name found.name)
  | const {id : ExpressionId} {constantId : ConstantId} {found : Constant} :
      entryAt diagram.expressions id.index = .ok (.const constantId) →
      specification.constantAt constantId = .ok found →
      ShowsTree specification diagram id (.name found.qualifiedName)
  | unary {id operand : ExpressionId} {operator : UnaryOperator} {tree : Term} :
      entryAt diagram.expressions id.index = .ok (.unary operator operand) →
      ShowsTree specification diagram operand tree →
      ShowsTree specification diagram id (.unary operator tree)
  | binary {id left right : ExpressionId} {operator : BinaryOperator}
      {leftTree rightTree : Term} :
      entryAt diagram.expressions id.index = .ok (.binary operator left right) →
      ShowsTree specification diagram left leftTree →
      ShowsTree specification diagram right rightTree →
      ShowsTree specification diagram id (.binary operator leftTree rightTree)

theorem ShowsTree.known {id : ExpressionId} {tree : Term}
    (shows : specification.ShowsTree diagram id tree) :
    id.index < diagram.expressions.size := by
  obtain ⟨entry, found⟩ : ∃ entry, entryAt diagram.expressions id.index = .ok entry := by
    cases shows <;> exact ⟨_, ‹_›⟩
  obtain ⟨inside, _⟩ := Array.getElem?_eq_some_iff.mp (entryAt_eq_ok_iff.mp found)
  exact inside

/-- An entry has one tree. -/
theorem ShowsTree.unique {id : ExpressionId} {tree other : Term}
    (shows : specification.ShowsTree diagram id tree)
    (otherShows : specification.ShowsTree diagram id other) : tree = other := by
  induction shows generalizing other with
  | natural found | truth found =>
      cases otherShows <;> simp_all
  | var found named | const found named =>
      cases otherShows <;> simp_all
  | unary found _ inductionHypothesis =>
      cases otherShows with
      | unary otherFound otherOperand =>
          obtain ⟨rfl, rfl⟩ : _ ∧ _ := by simpa using found.symm.trans otherFound
          rw [inductionHypothesis otherOperand]
      | _ => simp_all
  | binary found _ _ leftHypothesis rightHypothesis =>
      cases otherShows with
      | binary otherFound otherLeft otherRight =>
          obtain ⟨rfl, rfl, rfl⟩ : _ ∧ _ ∧ _ := by simpa using found.symm.trans otherFound
          rw [leftHypothesis otherLeft, rightHypothesis otherRight]
      | _ => simp_all

/-- The tree is part of the trees of all entries on the path that leads to it. -/
structure StandsBelow (specification : Specification) (diagram : Diagram)
    (path : List ExpressionId) (tree : Term) : Prop where
  distinct : path.Nodup
  above : ∀ place ∈ path, ∃ larger, specification.ShowsTree diagram place larger ∧
    sizeOf tree < sizeOf larger

namespace StandsBelow

variable {id : ExpressionId} {tree : Term} {path : List ExpressionId}

private theorem step (below : specification.StandsBelow diagram path tree)
    (shows : specification.ShowsTree diagram id tree) {part : Term}
    (smaller : sizeOf part < sizeOf tree) :
    specification.StandsBelow diagram (id :: path) part := by
  constructor
  · refine List.nodup_cons.mpr ⟨fun member => ?_, below.distinct⟩
    obtain ⟨larger, largerShows, less⟩ := below.above id member
    rw [shows.unique largerShows] at less
    exact Nat.lt_irrefl _ less
  · intro place member
    rcases List.mem_cons.mp member with rfl | isAbove
    · exact ⟨tree, shows, smaller⟩
    · obtain ⟨larger, largerShows, less⟩ := below.above place isAbove
      exact ⟨larger, largerShows, smaller.trans less⟩

/-- The entries on a path are distinct, so a path is no longer than the table. -/
theorem length_le (below : specification.StandsBelow diagram path tree) :
    path.length ≤ diagram.expressions.size := by
  have indices : (path.map TableId.index).Nodup := by
    refine below.distinct.map ?_
    rintro ⟨first⟩ ⟨second⟩ (rfl : first = second)
    rfl
  have inside : path.map TableId.index ⊆ List.range diagram.expressions.size := by
    intro index member
    obtain ⟨place, isOn, rfl⟩ := List.mem_map.mp member
    obtain ⟨larger, largerShows, _⟩ := below.above place isOn
    exact List.mem_range.mpr largerShows.known
  simpa using (indices.subperm inside).length_le

private theorem exists_limit (below : specification.StandsBelow diagram path tree) {depth : Nat}
    (enough : diagram.expressions.size < path.length + depth) (id : ExpressionId) :
    ∃ limit, depth = limit + 1 ∧ diagram.expressions.size < (id :: path).length + limit := by
  have bounded := below.length_le
  refine ⟨depth - 1, by omega, ?_⟩
  rw [List.length_cons]
  omega

end StandsBelow

/-- References are followed deep enough to reach the leaves of every tree. -/
theorem term_unfoldExpression {id : ExpressionId} {tree : Term}
    (shows : specification.ShowsTree diagram id tree) {path : List ExpressionId}
    (below : specification.StandsBelow diagram path tree) {depth : Nat}
    (enough : diagram.expressions.size < path.length + depth) :
    (diagram.unfoldExpression depth id).term specification = .ok tree := by
  induction shows generalizing path depth with
  | @natural id _ found | @truth id _ found =>
      obtain ⟨limit, rfl, _⟩ := below.exists_limit enough id
      rw [Diagram.unfoldExpression, found]
      rfl
  | @var id _ _ found named | @const id _ _ found named =>
      obtain ⟨limit, rfl, _⟩ := below.exists_limit enough id
      rw [Diagram.unfoldExpression, found]
      exact bind_eq_ok_iff.mpr ⟨_, named, rfl⟩
  | @unary id _ _ _ found operandShows inductionHypothesis =>
      obtain ⟨limit, rfl, stillEnough⟩ := below.exists_limit enough id
      have shows := ShowsTree.unary found operandShows
      have operandDone := inductionHypothesis (below.step shows (by simp)) stillEnough
      rw [Diagram.unfoldExpression, found]
      exact bind_eq_ok_iff.mpr ⟨_, operandDone, rfl⟩
  | @binary id _ _ _ leftTree rightTree found leftShows rightShows leftHypothesis
      rightHypothesis =>
      obtain ⟨limit, rfl, stillEnough⟩ := below.exists_limit enough id
      have shows := ShowsTree.binary found leftShows rightShows
      have leftDone := leftHypothesis (below.step shows (by simp; omega)) stillEnough
      have rightDone := rightHypothesis (below.step shows (by simp)) stillEnough
      rw [Diagram.unfoldExpression, found]
      exact bind_eq_ok_iff.mpr ⟨_, leftDone, bind_eq_ok_iff.mpr ⟨_, rightDone, rfl⟩⟩

private theorem termOf_of_showsTree {id : ExpressionId} {tree : Term}
    (shows : specification.ShowsTree diagram id tree) :
    specification.termOf diagram id = .ok tree := by
  have below : specification.StandsBelow diagram [] tree := ⟨List.nodup_nil, by simp⟩
  exact term_unfoldExpression shows below (by simp)

/-- Printed expressions are uniquely readable: two expressions over identifiers have texts,
and the texts are the same only if their trees are, with names in place of references. -/
theorem expression_texts_determine_trees {other : Diagram} {id otherId : ExpressionId}
    {tree otherTree : Term} (shows : specification.ShowsTree diagram id tree)
    (otherShows : specification.ShowsTree other otherId otherTree)
    (identifiers : tree.HasIdentifiers) (otherIdentifiers : otherTree.HasIdentifiers) :
    ∃ text otherText, (specification.termOf diagram id).map Term.text = .ok text ∧
      (specification.termOf other otherId).map Term.text = .ok otherText ∧
      (text = otherText ↔ tree = otherTree) := by
  refine ⟨tree.text, otherTree.text, ?_, ?_, ?_⟩
  · rw [termOf_of_showsTree shows]
    rfl
  · rw [termOf_of_showsTree otherShows]
    rfl
  · exact ⟨Term.eq_of_text_eq identifiers otherIdentifiers, congrArg Term.text⟩

end Specification

/-- Whether a price, less a negative rate, is below the negated price. -/
def bargain : Term :=
  .unary .not (.binary .lt (.binary .sub (.name "price") (.unary .neg (.name "Shop::rate")))
    (.unary .neg (.name "price")))

/-- A diagram that states the condition from the leaves on and shares the price. -/
def retail : Diagram where
  name := "Retail"
  body := []
  lifelines := []
  locals := [⟨0⟩]
  fragments := #[]
  expressions := #[.var ⟨0⟩, .const ⟨0⟩, .unary .neg ⟨1⟩, .binary .sub ⟨0⟩ ⟨2⟩,
    .unary .neg ⟨0⟩, .binary .lt ⟨3⟩ ⟨4⟩, .unary .not ⟨5⟩]
  locations := []

/-- A diagram that states it from the root on, with a price of its own. -/
def wholesale : Diagram where
  name := "Wholesale"
  body := []
  lifelines := []
  locals := [⟨1⟩]
  fragments := #[]
  expressions := #[.unary .not ⟨1⟩, .binary .lt ⟨2⟩ ⟨4⟩, .binary .sub ⟨5⟩ ⟨3⟩,
    .unary .neg ⟨6⟩, .unary .neg ⟨5⟩, .var ⟨1⟩, .const ⟨0⟩]
  locations := []

/-- A specification with both diagrams, whose variables have the same name. -/
def offers : Specification where
  name := "Offers"
  actors := #[]
  actorsByName := []
  vars := #[⟨"price", .nat, some ⟨0⟩⟩, ⟨"price", .nat, some ⟨1⟩⟩]
  constants := #[⟨"rate", "Shop::rate"⟩]
  groups := #[⟨some "Trade", none, [⟨0⟩, ⟨1⟩], [], []⟩]
  interactions := #[⟨retail, ⟨0⟩⟩, ⟨wholesale, ⟨0⟩⟩]
  scripts := #[]

private theorem showsTree_retail : offers.ShowsTree retail ⟨6⟩ bargain := by
  have price : offers.ShowsTree retail ⟨0⟩ (.name "price") :=
    @Specification.ShowsTree.var _ _ _ ⟨0⟩ ⟨"price", .nat, some ⟨0⟩⟩ rfl rfl
  have rate : offers.ShowsTree retail ⟨1⟩ (.name "Shop::rate") :=
    @Specification.ShowsTree.const _ _ _ ⟨0⟩ ⟨"rate", "Shop::rate"⟩ rfl rfl
  exact .unary rfl (.binary rfl (.binary rfl price (.unary rfl rate)) (.unary rfl price))

private theorem showsTree_wholesale : offers.ShowsTree wholesale ⟨0⟩ bargain := by
  have price : offers.ShowsTree wholesale ⟨5⟩ (.name "price") :=
    @Specification.ShowsTree.var _ _ _ ⟨1⟩ ⟨"price", .nat, some ⟨1⟩⟩ rfl rfl
  have rate : offers.ShowsTree wholesale ⟨6⟩ (.name "Shop::rate") :=
    @Specification.ShowsTree.const _ _ _ ⟨0⟩ ⟨"rate", "Shop::rate"⟩ rfl rfl
  exact .unary rfl (.binary rfl (.binary rfl price (.unary rfl rate)) (.unary rfl price))

/-- Both conditions have the same text, whichever way the tables are laid out. -/
theorem expression_texts_determine_trees_offers :
    offers.ShowsTree retail ⟨6⟩ bargain ∧ offers.ShowsTree wholesale ⟨0⟩ bargain ∧
      bargain.HasIdentifiers ∧ bargain.text = "not ((price - -Shop::rate) < -price)" ∧
      ∃ text, (offers.termOf retail ⟨6⟩).map Term.text = .ok text ∧
        (offers.termOf wholesale ⟨0⟩).map Term.text = .ok text := by
  have identifiers : bargain.HasIdentifiers := by decide
  refine ⟨showsTree_retail, showsTree_wholesale, identifiers, by decide, ?_⟩
  obtain ⟨text, otherText, done, otherDone, sameIff⟩ :=
    Specification.expression_texts_determine_trees showsTree_retail showsTree_wholesale
      identifiers identifiers
  exact ⟨text, done, sameIff.mpr rfl ▸ otherDone⟩

end SequenceChart
