import Mathlib.Util.TermReduce
import Downlevel.Grammar.Program

/-!
# What productions are defined as

A logic for parsers has rules for the steps that parsers are made of, and comes to a production by
what it is defined as. The definitions are listed here once, for all logics: one that has the rule
`[Defined p q]` finds its way through the grammar.
-/

namespace Downlevel.Grammar

/-- The parser `p` is defined as `q`. -/
class Defined {α : Type} (p : Parser α) (q : outParam (Parser α)) : Prop where
  eq : p = q

section Steps

variable {α : Type} (p : Parser α) (k : Kind) (word : Contextual) (index : Nat)

theorem discard_eq : discard p = p >>= fun _ => pure () := by
  rw [Functor.discard, LawfulFunctor.map_const, Function.comp_apply, map_eq_pure_bind]

instance : Defined (discard p) (p >>= fun _ => pure ()) := ⟨discard_eq p⟩
instance : Defined canEnd (delta% canEnd) := ⟨rfl⟩
instance : Defined next (delta% next) := ⟨rfl⟩
instance : Defined (eat k) (delta% eat k) := ⟨rfl⟩
instance : Defined (eatWord word) (delta% eatWord word) := ⟨rfl⟩
instance : Defined (skip k) (delta% skip k) := ⟨rfl⟩
instance : Defined lookahead (delta% lookahead) := ⟨rfl⟩
instance : Defined nextKind (delta% nextKind) := ⟨rfl⟩
instance (ks : List Kind) : Defined (beforeAny ks) (delta% beforeAny ks) := ⟨rfl⟩
instance (cause : SyntaxError.Cause) : Defined (failHere cause) (delta% failHere cause) := ⟨rfl⟩
instance (label : String) : Defined (expecting label) (delta% expecting label) := ⟨rfl⟩
instance : Defined unexpected (delta% unexpected) := ⟨rfl⟩
instance (what : String) : Defined (unsupported what) (delta% unsupported what) := ⟨rfl⟩
instance : Defined (expect k) (delta% expect k) := ⟨rfl⟩
instance (label : String) : Defined (expectWord word label) (delta% expectWord word label) := ⟨rfl⟩
instance : Defined semicolon (delta% semicolon) := ⟨rfl⟩
instance (role : Role) : Defined (setRole index role) (delta% setRole index role) := ⟨rfl⟩
instance (shape : ElementShape) : Defined (setShape index shape) (delta% setShape index shape) :=
  ⟨rfl⟩
instance : Defined (setRhsEnd index) (delta% setRhsEnd index) := ⟨rfl⟩
instance (p : Parser Unit) : Defined (nextWithRhs p) (delta% nextWithRhs p) := ⟨rfl⟩
instance : Defined nextAsType (delta% nextAsType) := ⟨rfl⟩
instance : Defined dottedNames (delta% dottedNames) := ⟨rfl⟩
instance : Defined moduleName (delta% moduleName) := ⟨rfl⟩
instance : Defined (specifier p) (delta% specifier p) := ⟨rfl⟩

end Steps

section Productions

variable (k : Knot) (start : Nat) (binding : Binding) (noIn flag : Bool)

instance : Defined (k.value noIn) (delta% k.value noIn) := ⟨rfl⟩
instance : Defined (k.expression noIn) (delta% k.expression noIn) := ⟨rfl⟩
instance (inner : Parser Unit) : Defined (template inner) (delta% template inner) := ⟨rfl⟩
instance : Defined (decorator k) (delta% decorator k) := ⟨rfl⟩
instance : Defined (decorators k) (delta% decorators k) := ⟨rfl⟩
instance : Defined (initializer k noIn) (delta% initializer k noIn) := ⟨rfl⟩
instance : Defined (defaultValue k) (delta% defaultValue k) := ⟨rfl⟩

/-! ## Types around and parameters -/

instance : Defined ( typeAnnotation k) (delta% typeAnnotation k) := ⟨rfl⟩
instance : Defined (typeOrPredicate k) (delta% typeOrPredicate k) := ⟨rfl⟩
instance : Defined ( returnAnnotation k) (delta% returnAnnotation k) := ⟨rfl⟩
instance : Defined ( optionalAnnotation k) (delta% optionalAnnotation k) := ⟨rfl⟩
instance : Defined ( optionalReturnAnnotation k) (delta% optionalReturnAnnotation k) := ⟨rfl⟩
instance : Defined (typeArguments k) (delta% typeArguments k) := ⟨rfl⟩
instance : Defined splitShift (delta% splitShift) := ⟨rfl⟩
instance : Defined (tryTypeArguments k flag) (delta% tryTypeArguments k flag) := ⟨rfl⟩
instance : Defined (bindingElement k binding) (delta% bindingElement k binding) := ⟨rfl⟩
instance : Defined (thisParameter k start) (delta% thisParameter k start) := ⟨rfl⟩

/-! ## Functions and expressions -/

instance : Defined (block k flag) (delta% block k flag) := ⟨rfl⟩
instance : Defined (method k start flag) (delta% method k start flag) := ⟨rfl⟩
instance : Defined (functionStatement k start flag) (delta% functionStatement k start flag) := ⟨rfl⟩
instance : Defined (functionExpression k start) (delta% functionExpression k start) := ⟨rfl⟩
instance : Defined (arrowBody k) (delta% arrowBody k) := ⟨rfl⟩
instance : Defined (nameArrow k) (delta% nameArrow k) := ⟨rfl⟩
instance : Defined (tryArrow k) (delta% tryArrow k) := ⟨rfl⟩
instance : Defined (tryGenericArrow k) (delta% tryGenericArrow k) := ⟨rfl⟩
instance : Defined memberModifier (delta% memberModifier) := ⟨rfl⟩
instance (close : Kind) : Defined (objectMember k close) (delta% objectMember k close) := ⟨rfl⟩
instance : Defined memberName (delta% memberName) := ⟨rfl⟩
instance : Defined (computedMember k) (delta% computedMember k) := ⟨rfl⟩
instance : Defined (newExpression k) (delta% newExpression k) := ⟨rfl⟩
instance : Defined (unary k) (delta% unary k) := ⟨rfl⟩
instance : Defined (conditional k noIn) (delta% conditional k noIn) := ⟨rfl⟩
instance : Defined (yieldExpression k noIn) (delta% yieldExpression k noIn) := ⟨rfl⟩
instance : Defined (assignment k noIn) (delta% assignment k noIn) := ⟨rfl⟩
instance : Defined (group k) (delta% group k) := ⟨rfl⟩
instance : Defined (importExpression k) (delta% importExpression k) := ⟨rfl⟩
instance : Defined (decoratedClass k) (delta% decoratedClass k) := ⟨rfl⟩

/-! ## Classes -/

instance : Defined isModifier (delta% isModifier) := ⟨rfl⟩
instance : Defined classModifier (delta% classModifier) := ⟨rfl⟩
instance : Defined isIndexSignature (delta% isIndexSignature) := ⟨rfl⟩
instance : Defined (indexSignature k) (delta% indexSignature k) := ⟨rfl⟩
instance : Defined (fieldOrMethod k start) (delta% fieldOrMethod k start) := ⟨rfl⟩
instance : Defined (classMember k) (delta% classMember k) := ⟨rfl⟩
instance : Defined (classHeritage k) (delta% classHeritage k) := ⟨rfl⟩
instance : Defined seeingClassName (delta% seeingClassName) := ⟨rfl⟩
instance : Defined (classStatement k flag) (delta% classStatement k flag) := ⟨rfl⟩
instance : Defined (classExpression k) (delta% classExpression k) := ⟨rfl⟩

/-! ## Elements -/

instance : Defined nextInTag (delta% nextInTag) := ⟨rfl⟩
instance : Defined tagNamePart (delta% tagNamePart) := ⟨rfl⟩
instance : Defined (tagName flag) (delta% tagName flag) := ⟨rfl⟩
instance : Defined (tagName? flag) (delta% tagName? flag) := ⟨rfl⟩
instance : Defined (tagAttribute k) (delta% tagAttribute k) := ⟨rfl⟩
instance : Defined (spreadAttribute k) (delta% spreadAttribute k) := ⟨rfl⟩
instance (name : Option String) : Defined (closingTag name) (delta% closingTag name) := ⟨rfl⟩
instance : Defined (childExpression k) (delta% childExpression k) := ⟨rfl⟩

/-! ## Types -/

instance : Defined (typeReference k) (delta% typeReference k) := ⟨rfl⟩
instance : Defined (importType k) (delta% importType k) := ⟨rfl⟩
instance : Defined (signature k) (delta% signature k) := ⟨rfl⟩
instance : Defined (memberType k) (delta% memberType k) := ⟨rfl⟩
instance : Defined (typeMember k) (delta% typeMember k) := ⟨rfl⟩
instance : Defined (mappedType k) (delta% mappedType k) := ⟨rfl⟩
instance : Defined (tryMappedType k) (delta% tryMappedType k) := ⟨rfl⟩
instance : Defined (typeOperator k) (delta% typeOperator k) := ⟨rfl⟩
instance : Defined (intersectionType k) (delta% intersectionType k) := ⟨rfl⟩
instance : Defined (unionType k) (delta% unionType k) := ⟨rfl⟩
instance : Defined (functionType k) (delta% functionType k) := ⟨rfl⟩
instance : Defined (tryFunctionType k) (delta% tryFunctionType k) := ⟨rfl⟩
instance : Defined (plainType k) (delta% plainType k) := ⟨rfl⟩
instance : Defined (type k) (delta% type k) := ⟨rfl⟩

/-! ## Declarations and modules -/

instance : Defined (variableStatement k binding) (delta% variableStatement k binding) := ⟨rfl⟩
instance : Defined (typeAlias k) (delta% typeAlias k) := ⟨rfl⟩
instance : Defined (interfaceDeclaration k) (delta% interfaceDeclaration k) := ⟨rfl⟩
instance : Defined (ambientModule k) (delta% ambientModule k) := ⟨rfl⟩
instance : Defined (ambientDeclaration k) (delta% ambientDeclaration k) := ⟨rfl⟩
instance : Defined (importSource k) (delta% importSource k) := ⟨rfl⟩
instance : Defined typeModifier (delta% typeModifier) := ⟨rfl⟩
instance : Defined (endSpecifier flag start) (delta% endSpecifier flag start) := ⟨rfl⟩
instance : Defined (importClause k) (delta% importClause k) := ⟨rfl⟩
instance : Defined (importStatement k) (delta% importStatement k) := ⟨rfl⟩
instance : Defined exportName (delta% exportName) := ⟨rfl⟩
instance : Defined exportList (delta% exportList) := ⟨rfl⟩
instance : Defined (exportClause k) (delta% exportClause k) := ⟨rfl⟩

/-! ## Statements -/

instance : Defined (expressionStatement k) (delta% expressionStatement k) := ⟨rfl⟩
instance : Defined (condition k) (delta% condition k) := ⟨rfl⟩
instance : Defined (forStatement k) (delta% forStatement k) := ⟨rfl⟩
instance : Defined (catchClause k) (delta% catchClause k) := ⟨rfl⟩
instance : Defined (tryStatement k) (delta% tryStatement k) := ⟨rfl⟩
instance (kind : StatementKind) (index : Nat) :
    Defined (exportedKind kind start index) (delta% exportedKind kind start index) := ⟨rfl⟩
instance : Defined (exportDefault k start) (delta% exportDefault k start) := ⟨rfl⟩
instance : Defined (exportStatement k) (delta% exportStatement k) := ⟨rfl⟩
instance (kind : StatementKind) : Defined (endsInSemicolon kind) (delta% endsInSemicolon kind) :=
  ⟨rfl⟩
instance : Defined (topLevelStatement k) (delta% topLevelStatement k) := ⟨rfl⟩

end Productions

end Downlevel.Grammar
