import Downlevel.Proofs.Grammar.Defined

/-!
# The loops of the grammar

What one round of each loop does, and the productions as loops over these rounds (`Defined`). A
round answers whether another one follows. `Loop k` lists the rounds of all loops over the rules in
`k`.
-/

namespace Downlevel.Grammar

/-! ## Kinds of loops -/

section Kinds

variable (test : Parser Bool) (body item : Parser Unit) (close separator : Kind)

instance : Defined (repeatWhile test) (delta% repeatWhile test) := ⟨rfl⟩

/-- A round of `whileTrue`. -/
def whileRound (test : Parser Bool) (body : Parser Unit) : Parser Bool := do
  if ← test then
    body
    return true
  else return false

instance : Defined (whileRound test body) (delta% whileRound test body) := ⟨rfl⟩
instance : Defined (whileTrue test body) (repeatWhile (whileRound test body)) := ⟨rfl⟩

/-- A round of `untilClose`. -/
def closeRound (close : Kind) (body : Parser Unit) : Parser Bool :=
  whileRound (return !(← seeingAny [close, .eof])) body

instance : Defined (closeRound close body) (delta% closeRound close body) := ⟨rfl⟩
instance : Defined (untilClose close body)
    (repeatWhile (closeRound close body) >>= fun _ => expect close) := ⟨rfl⟩

/-- A part of a list between commas, with the comma after it. -/
def listed (close : Kind) (item : Parser Unit) : Parser Unit := do
  item
  if !(← seeing close) then expect .comma

instance : Defined (listed close item) (delta% listed close item) := ⟨rfl⟩
instance : Defined (commaList close item) (untilClose close (listed close item)) := ⟨rfl⟩

/-- A round of `separatedBy`. -/
def separatedRound (separator : Kind) (item : Parser Unit) : Parser Bool := do
  item
  eat separator

instance : Defined (separatedRound separator item) (delta% separatedRound separator item) := ⟨rfl⟩
instance : Defined (separatedBy separator item) (repeatWhile (separatedRound separator item)) :=
  ⟨rfl⟩

end Kinds

/-! ## What stands in the loops -/

section Bodies

variable (k : Knot) (binding : Binding) (noIn noCalls : Bool) (min : Int) (close : Kind)

def argument : Parser Unit := do
  skip .ellipsis
  k.value

instance : Defined (argument k) (delta% argument k) := ⟨rfl⟩
instance : Defined (callArguments k) (do
    expect .parenL
    commaList .parenR (argument k)) := ⟨rfl⟩

/-- Whether a modifier of a type parameter follows. -/
def seeingVariance : Parser Bool :=
  return (← seeingAny [.kwConst, .kwIn]) || ((← seeingWord .kwOut) && (← beforeAny [.name]))

def typeParameter : Parser Unit := do
  whileTrue seeingVariance next
  if (← flow) && (← seeing .plusMinus) then next
  identifier none
  if (← flow) && (← seeing .colon) then
    next
    k.type
  if ← eat .kwExtends then k.type
  if ← eat .eq then k.type

instance : Defined seeingVariance (delta% seeingVariance) := ⟨rfl⟩
instance : Defined (typeParameter k) (delta% typeParameter k) := ⟨rfl⟩
instance : Defined (typeParameters k) (typeContext (do
    next
    commaList .greaterThan (typeParameter k))) := ⟨rfl⟩

def patternProperty (binding : Binding) : Parser Unit := do
  if ← eat .ellipsis then k.bindingAtom binding
  else if (← seeing .name) && !(← beforeAny [.colon]) then
    identifier (some (← declarationRole binding true))
    defaultValue k
  else
    propertyName k
    expect .colon
    k.bindingAtom binding
    defaultValue k

instance : Defined (patternProperty k binding) (delta% patternProperty k binding) := ⟨rfl⟩
instance : Defined (objectPattern k binding) (do
    next
    commaList .braceR (patternProperty k binding)) := ⟨rfl⟩

/-- A part of a list in which parts may be left out. -/
def listedOrNone (item : Parser Unit) : Parser Unit := do
  if !(← eat .comma) then
    item
    if !(← seeing .bracketR) then expect .comma

instance (item : Parser Unit) : Defined (listedOrNone item) (delta% listedOrNone item) := ⟨rfl⟩
instance : Defined (arrayPattern k binding) (do
    next
    untilClose .bracketR (listedOrNone (bindingElement k binding))) := ⟨rfl⟩

/-- Whether a modifier of a parameter follows. -/
def seeingParameterModifier : Parser Bool :=
  return (← seeingAnyWord [.kwPublic, .kwPrivate, .kwProtected, .kwReadonly, .kwOverride]) &&
    (← beforeAny [.name, .braceL, .bracketL])

def parameter : Parser Unit := do
  let start ← position
  decorators k
  if (← typescript) && (← seeing .kwThis) && (← beforeAny [.colon]) then thisParameter k start
  else
    if ← typescript then whileTrue seeingParameterModifier nextAsType
    bindingElement k .functionScoped
    if !(← seeing .parenR) then expect .comma

instance : Defined seeingParameterModifier (delta% seeingParameterModifier) := ⟨rfl⟩
instance : Defined (parameter k) (delta% parameter k) := ⟨rfl⟩
instance : Defined (functionParameters k) (do
    expect .parenL
    untilClose .parenR (parameter k)) := ⟨rfl⟩

def property (close : Kind) : Parser Unit := do
  if ← eat .ellipsis then k.value else objectMember k close

instance : Defined (property k close) (delta% property k close) := ⟨rfl⟩
instance : Defined (objectLiteral k) (do
    let close := if ← seeing .braceBarL then .braceBarR else .braceR
    next
    commaList close (property k close)) := ⟨rfl⟩

instance : Defined (arrayLiteral k) (do
    next
    untilClose .bracketR (listedOrNone (argument k))) where
  eq := by
    unfold arrayLiteral listedOrNone argument
    simp only [bind_assoc]

/-- One member access or call; answers whether more may follow. -/
def subscript (noCalls : Bool) : Parser Bool := do
  match ← kind with
  | .dot =>
    next
    memberName
    return true
  | .questionDot => optionalMember k
  | .bracketL =>
    computedMember k
    return true
  | .parenL =>
    if noCalls then return false
    callArguments k
    return true
  | .backQuote =>
    template k.expression
    return true
  | .bang =>
    if (← typescript) && !(← lineBreakBefore) then
      nextAsType
      return true
    else return false
  | .lessThan | .shiftL =>
    if (← typescript) && !noCalls then tryTypeArguments k true else return false
  | _ => return false

theorem subscripts_eq : subscripts k noCalls = repeatWhile (subscript k noCalls) := rfl

instance : Defined (subscripts k noCalls) (repeatWhile (subscript k noCalls)) := ⟨rfl⟩

/-- One operator with its right operand; answers whether more may follow. -/
def operation (min : Int) (noIn : Bool) : Parser Bool := do
  if (← typescript) && (← seeingAnyWord [.kwAs, .kwSatisfies]) && !(← lineBreakBefore) &&
      min < 7 then
    typeContext do
      next
      if !(← eat .kwConst) then k.type
    return true
  let operator ← kind
  match operator.precedence? with
  | none => return false
  | some precedence =>
    if (noIn && operator == .kwIn) || precedence ≤ min then return false
    next
    if !(← k.unary) then
      k.operators (if operator == .exponent then precedence - 1 else precedence) noIn
    return true

theorem operators_eq : operators k min noIn = repeatWhile (operation k min noIn) := rfl

instance : Defined (operators k min noIn) (repeatWhile (operation k min noIn)) := ⟨rfl⟩

def memberOrSemicolon : Parser Unit := do
  if !(← eat .semi) then classMember k

instance : Defined (memberOrSemicolon k) (delta% memberOrSemicolon k) := ⟨rfl⟩
instance : Defined (classTail k) (do
    if (← typed) && (← seeing .lessThan) then typeParameters k
    classHeritage k
    expect .braceL
    untilClose .braceR (memberOrSemicolon k)) := ⟨rfl⟩

def tupleElement : Parser Unit := do
  skip .ellipsis
  k.type
  skip .question
  if ← eat .colon then k.type

instance : Defined (tupleElement k) (delta% tupleElement k) := ⟨rfl⟩
instance : Defined (tupleType k) (do
    next
    commaList .bracketR (tupleElement k)) := ⟨rfl⟩

/-- A member of an object type, with what separates it from the next one. -/
def separatedMember (close : Kind) : Parser Unit := do
  typeMember k
  if !(← eat .comma) then
    if !(← eat .semi) then
      if !(← seeing close) && !(← lineBreakBefore) then expecting ";"

instance : Defined (separatedMember k close) (delta% separatedMember k close) := ⟨rfl⟩
instance : Defined (objectType k) (do
    let close := if ← seeing .braceBarL then .braceBarR else .braceR
    if ← seeingAny [.braceL, .braceBarL] then
      next
      untilClose close (separatedMember k close)
    else expecting "\x7b") := ⟨rfl⟩

/-- Takes the bracket after a type, if it follows in the same line. -/
def eatBracket : Parser Bool := do
  if ← lineBreakBefore then return false else eat .bracketL

/-- What follows the bracket after a type. -/
def indexedType : Parser Unit := do
  if !(← seeing .bracketR) then k.type
  expect .bracketR

instance : Defined eatBracket (delta% eatBracket) := ⟨rfl⟩
instance : Defined (indexedType k) (delta% indexedType k) := ⟨rfl⟩

theorem arrayType_eq : arrayType k = (do
    primaryType k
    whileTrue eatBracket (indexedType k)) := rfl

instance : Defined (arrayType k) (delta% arrayType k) := ⟨rfl⟩

def declarator (binding : Binding) (noIn : Bool) : Parser Unit := do
  k.bindingAtom binding
  if (← typescript) && (← seeing .bang) then nextAsType
  optionalAnnotation k
  initializer k noIn

instance : Defined (declarator k binding noIn) (delta% declarator k binding noIn) := ⟨rfl⟩
instance : Defined (declarators k binding noIn)
    (separatedBy .comma (declarator k binding noIn)) := ⟨rfl⟩

def enumerationMember : Parser Unit := do
  if !(← eat .string) then identifierName
  initializer k false

instance : Defined (enumerationMember k) (delta% enumerationMember k) := ⟨rfl⟩
instance : Defined (enumeration k) (do
    next
    identifier (some (← declarationRole .blockScoped false))
    expect .braceL
    commaList .braceR (enumerationMember k)) := ⟨rfl⟩

def importAttribute : Parser Unit := do
  propertyName k
  expect .colon
  expect .string

instance : Defined (importAttribute k) (delta% importAttribute k) := ⟨rfl⟩
instance : Defined (importAttributes k) (do
    if (← seeing .kwWith) || ((← seeingWord .kwAssert) && !(← lineBreakBefore)) then
      next
      expect .braceL
      commaList .braceR (importAttribute k)) := ⟨rfl⟩

/-- `a` or `a as b` of an import. -/
def importName : Parser Unit := do
  let imported ← position
  moduleName
  let localRole ← declarationRole .imported false
  if ← eatWord .kwAs then
    setRole imported .importAccess
    identifier (some localRole)
  else setRole imported localRole

instance : Defined importName (delta% importName) := ⟨rfl⟩
instance : Defined importSpecifiers (do
    next
    untilClose .braceR (specifier importName)) := ⟨rfl⟩

/-- A label or a statement of a `switch`. -/
def switchPart : Parser Unit := do
  if ← eat .kwCase then
    k.expression
    expect .colon
  else if ← eat .kwDefault then expect .colon
  else discard k.statement

instance : Defined (switchPart k) (delta% switchPart k) := ⟨rfl⟩
instance : Defined (switchStatement k) (do
    next
    condition k
    inScope false do
      expect .braceL
      untilClose .braceR (switchPart k)) := ⟨rfl⟩

end Bodies

/-! ## Recursions

A round of a recursion answers what the next round begins with, or else what all of them come to. -/

def nameRound (name : String) : Parser (String ⊕ String) := do
  if ← seeing .dot then
    nextInTag
    let part ← currentText
    tagNamePart
    return .inl (name ++ "." ++ part)
  else return .inr name

instance (name : String) : Defined (nameRound name) (delta% nameRound name) := ⟨rfl⟩

theorem dottedTagName_succ (name : String) (n : Nat) :
    dottedTagName name (n + 1) = nameRound name >>= Sum.elim (dottedTagName · n) pure := by
  rw [dottedTagName, nameRound, bind_assoc]
  congr 1
  funext b
  split <;> simp only [bind_assoc, pure_bind, Sum.elim_inl, Sum.elim_inr]

def exportRound (locals : List Nat) : Parser (List Nat ⊕ List Nat) := do
  if ← seeingAny [.braceR, .eof] then return .inr locals
  else return .inl ((← specifier exportName) :: locals)

instance (locals : List Nat) : Defined (exportRound locals) (delta% exportRound locals) := ⟨rfl⟩

theorem exportSpecifiers_succ (locals : List Nat) (n : Nat) :
    exportSpecifiers locals (n + 1) =
      exportRound locals >>= Sum.elim (exportSpecifiers · n) pure := by
  rw [exportSpecifiers, exportRound, bind_assoc]
  congr 1
  funext b
  split <;> simp only [bind_assoc, pure_bind, Sum.elim_inl, Sum.elim_inr]

section Rounds

variable (k : Knot)

def attributeRound (seen : Attributes) : Parser (Attributes ⊕ Attributes) := do
  if (← seeingAny [.slash, .jsxTagEnd]) || (← failed) then return .inr seen
  else if ← seeing .braceL then
    if ← spreadAttribute k then return .inl { seen with spread := true }
    else return .inr { seen with complete := false }
  else
    let isKey := (← currentText) == "key"
    tagAttribute k
    return .inl { seen with keyAfterSpread := seen.keyAfterSpread || (seen.spread && isKey) }

instance (seen : Attributes) : Defined (attributeRound k seen) (delta% attributeRound k seen) :=
  ⟨rfl⟩

theorem tagAttributes_succ (seen : Attributes) (n : Nat) :
    tagAttributes k seen (n + 1) =
      attributeRound k seen >>= Sum.elim (tagAttributes k · n) pure := by
  rw [tagAttributes, attributeRound]
  simp only [bind_assoc]
  congr 1
  funext ended
  congr 1
  funext failed
  split
  · rfl
  · rw [bind_assoc]
    congr 1
    funext spread
    split
    · rw [bind_assoc]
      congr 1
      funext complete
      split <;> rfl
    · simp only [bind_assoc, pure_bind, Sum.elim_inl]

def childRound (name : Option String) (count : Nat) : Parser (Nat ⊕ Option Nat) := do
  match ← child k name with
  | .closing => return .inr (some count)
  | .broken => return .inr none
  | .counts m => if ← failed then return .inr none else return .inl (count + m)

theorem children_succ (name : Option String) (count n : Nat) :
    children k name count (n + 1) =
      childRound k name count >>= Sum.elim (children k name · n) pure := by
  rw [children, childRound, bind_assoc]
  congr 1
  funext found
  cases found with
  | closing => rfl
  | broken => rfl
  | counts m =>
    dsimp only
    rw [bind_assoc]
    congr 1
    funext failed
    split <;> rfl

def statementRound (seen : Array Statement) : Parser (Array Statement ⊕ Array Statement) := do
  if ← seeing .eof then return .inr seen
  match ← topLevelStatement k with
  | some c => return .inl (seen.push c)
  | none => return .inr seen

theorem topLevel_succ (seen : Array Statement) (n : Nat) :
    topLevel k seen (n + 1) = statementRound k seen >>= Sum.elim (topLevel k · n) pure := by
  rw [topLevel, statementRound, bind_assoc]
  congr 1
  funext ended
  split
  · rfl
  · rw [bind_assoc]
    congr 1
    funext found
    cases found <;> rfl

end Rounds

/-! ## All loops -/

/-- The rounds of the loops over the rules in `k`, each with the answers after which another one
follows. -/
inductive Loop (k : Knot) : {α : Type} → Parser α → (α → Prop) → Prop
  | expressionTemplate : Loop k (templateRound k.expression) (· = true)
  | typeTemplate : Loop k (templateRound k.type) (· = true)
  | arguments : Loop k (closeRound .parenR (listed .parenR (argument k))) (· = true)
  | decorators : Loop k (whileRound (seeing .atSign) (decorator k)) (· = true)
  | dottedNames : Loop k (whileRound (eat .dot) identifierName) (· = true)
  | expressions (noIn : Bool) : Loop k (separatedRound .comma (k.value noIn)) (· = true)
  | variance : Loop k (whileRound seeingVariance next) (· = true)
  | typeParameters :
    Loop k (closeRound .greaterThan (listed .greaterThan (typeParameter k))) (· = true)
  | typeArguments : Loop k (closeRound .greaterThan (listed .greaterThan k.type)) (· = true)
  | objectPattern (binding : Binding) :
    Loop k (closeRound .braceR (listed .braceR (patternProperty k binding))) (· = true)
  | arrayPattern (binding : Binding) :
    Loop k (closeRound .bracketR (listedOrNone (bindingElement k binding))) (· = true)
  | parameterModifiers : Loop k (whileRound seeingParameterModifier nextAsType) (· = true)
  | parameters : Loop k (closeRound .parenR (parameter k)) (· = true)
  | block : Loop k (closeRound .braceR (discard k.statement)) (· = true)
  | objectLiteral (close : Kind) :
    Loop k (closeRound close (listed close (property k close))) (· = true)
  | arrayLiteral : Loop k (closeRound .bracketR (listedOrNone (argument k))) (· = true)
  | subscripts (noCalls : Bool) : Loop k (subscript k noCalls) (· = true)
  | operators (min : Int) (noIn : Bool) : Loop k (operation k min noIn) (· = true)
  | classModifiers : Loop k classModifier (·.isSome)
  | types : Loop k (separatedRound .comma k.type) (· = true)
  | classMembers : Loop k (closeRound .braceR (memberOrSemicolon k)) (· = true)
  | tupleType : Loop k (closeRound .bracketR (listed .bracketR (tupleElement k))) (· = true)
  | objectType (close : Kind) : Loop k (closeRound close (separatedMember k close)) (· = true)
  | brackets : Loop k (whileRound eatBracket (indexedType k)) (· = true)
  | intersections : Loop k (separatedRound .bitAnd (typeOperator k)) (· = true)
  | unions : Loop k (separatedRound .bitOr (intersectionType k)) (· = true)
  | tagName (name : String) : Loop k (nameRound name) (·.isLeft)
  | attributes (seen : Attributes) : Loop k (attributeRound k seen) (·.isLeft)
  | children (name : Option String) (count : Nat) : Loop k (childRound k name count) (·.isLeft)
  | declarators (binding : Binding) (noIn : Bool) :
    Loop k (separatedRound .comma (declarator k binding noIn)) (· = true)
  | enumeration : Loop k (closeRound .braceR (listed .braceR (enumerationMember k))) (· = true)
  | importAttributes : Loop k (closeRound .braceR (listed .braceR (importAttribute k))) (· = true)
  | importSpecifiers : Loop k (closeRound .braceR (specifier importName)) (· = true)
  | exportSpecifiers (locals : List Nat) : Loop k (exportRound locals) (·.isLeft)
  | switchParts : Loop k (closeRound .braceR (switchPart k)) (· = true)
  | topLevel (seen : Array Statement) : Loop k (statementRound k seen) (·.isLeft)

end Downlevel.Grammar
