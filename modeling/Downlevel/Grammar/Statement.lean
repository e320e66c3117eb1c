import Downlevel.Grammar.Declaration
import Downlevel.Grammar.Module

/-! # Statements -/

namespace Downlevel.Grammar

variable (k : Knot)

def expressionStatement : Parser StatementKind := do
  k.expression
  semicolon
  return .expression

def condition : Parser Unit := do
  expect .parenL
  k.expression
  expect .parenR

/-! ## Control -/

/-- What stands before the first `;`, `in` or `of` of a loop head. -/
def forInitializer : Parser Unit := do
  match ← kind with
  | .semi => return
  | .kwVar =>
    next
    declarators k .functionScoped true
  | .kwLet | .kwConst =>
    next
    declarators k .blockScoped true
  | _ => k.expression true

def forStatement : Parser Unit := do
  next
  inScope false do
    discard (eatWord .kwAwait)
    expect .parenL
    forInitializer k
    if (← seeing .kwIn) || (← seeingWord .kwOf) then
      next
      k.expression
    else
      expect .semi
      if !(← seeing .semi) then k.expression
      expect .semi
      if !(← seeing .parenR) then k.expression
    expect .parenR
    discard k.statement

def switchStatement : Parser Unit := do
  next
  condition k
  inScope false do
    expect .braceL
    untilClose .braceR do
      if ← eat .kwCase then
        k.expression
        expect .colon
      else if ← eat .kwDefault then expect .colon
      else discard k.statement

/-- `catch (e) { }` or `catch { }`, after the word. -/
def catchClause : Parser Unit := do
  if ← seeing .parenL then
    inScope false do
      next
      k.bindingAtom .blockScoped
      optionalAnnotation k
      expect .parenR
      block k false
  else block k false

def tryStatement : Parser Unit := do
  next
  block k false
  let caught ← eat .kwCatch
  if caught then catchClause k
  let finished ← eat .kwFinally
  if finished then block k false
  if !caught && !finished then expecting "catch or finally"

/-! ## Exports -/

/-- The kind of an export whose tokens after `index` are read: one that holds types only is left out
from token `start` on. -/
def exportedKind (kind : StatementKind) (start index : Nat) : Parser StatementKind := do
  if ← allTypeFrom (index + 1) then
    markTypeFrom start
    return .typeOnly
  else return kind

/-- `export default …`, with `export` at index `start` and the current token `default`. -/
def exportDefault (start : Nat) : Parser StatementKind := do
  let index ← position
  next
  let here ← position
  let ahead ← lookahead
  if ← seeing .kwFunction then functionStatement k here true
  else if (← seeingWord .kwAsync) && ahead.kind == .kwFunction && !ahead.lineBreakBefore then
    next
    functionStatement k here true
  else if ← seeingAny [.kwClass, .atSign] then
    decorators k
    classStatement k true
  else if (← typescript) && (← seeingWord .kwAbstract) && ahead.kind == .kwClass then
    nextAsType
    classStatement k true
  else if (← typed) && (← seeingWord .kwInterface) && ahead.kind == .name then
    interfaceDeclaration k
    markTypeFrom start
    return .typeOnly
  else
    k.value
    setRhsEnd index
    semicolon
    return .exportDefault
  setRhsEnd index
  exportedKind .exportDefault start index

def exportStatement : Parser StatementKind := do
  let start ← position
  next
  if ← seeing .kwDefault then exportDefault k start
  else if ← seeing .eq then
    if (← get).cursor.inType then
      next
      k.expression
      semicolon
    else unsupported "export ="
    return .exportStatement
  else if (← seeingWord .kwAs) && (← typescript) then
    typeContext do
      next
      expectWord .kwNamespace "namespace"
      identifierName
      semicolon
    markTypeFrom start
    return .typeOnly
  else if (← typed) && (← seeingWord .kwType) && (← beforeAny [.braceL, .star]) then
    typeContext do
      next
      exportClause k
    markTypeFrom start
    return .typeOnly
  else if ← seeingAny [.star, .braceL] then
    exportClause k
    return .exportStatement
  else
    discard k.statement
    setRhsEnd start
    exportedKind .exportStatement start start

/-! ## Statements that begin with a name -/

/-- A label, a declaration that begins with a contextual keyword, or an expression. -/
def nameStatement : Parser StatementKind := do
  let ahead ← lookahead
  if ahead.kind == .colon then
    next
    next
    discard k.statement
    return .other
  let sameLine := !ahead.lineBreakBefore
  let start ← position
  let d ← dialect
  match (← get).cursor.keyword with
  | some .kwAsync =>
    if sameLine && ahead.kind == .kwFunction then
      next
      functionStatement k start false
      return .declaration
  | some .kwType =>
    if d.typed && sameLine && ahead.kind == .name then
      typeAlias k
      return .typeOnly
  | some .kwOpaque =>
    if d.flow && sameLine && ahead.isWord .kwType then
      nextAsType
      typeAlias k
      markTypeFrom start
      return .typeOnly
  | some .kwInterface =>
    if d.typed && sameLine && ahead.kind == .name then
      interfaceDeclaration k
      return .typeOnly
  | some .kwDeclare =>
    if d.typed && sameLine && (ahead.kind == .name || ahead.kind.isReserved) then
      ambientDeclaration k
      return .typeOnly
  | some .kwEnum =>
    if d.typescript && sameLine && ahead.kind == .name then
      enumeration k
      return .declaration
  | some .kwAbstract =>
    if d.typescript && sameLine && ahead.kind == .kwClass then
      nextAsType
      classStatement k false
      return .declaration
  | some .kwNamespace | some .kwModule =>
    if d.typescript && sameLine && (ahead.kind == .name || ahead.kind == .string) then
      unsupported "Non-declare namespace"
      return .other
  | _ => pure ()
  expressionStatement k

/-! ## All statements -/

def statement : Parser StatementKind := do
  decorators k
  match ← kind with
  | .braceL =>
    block k false
    return .other
  | .semi =>
    next
    return .empty
  | .kwVar =>
    variableStatement k .functionScoped
    return .declaration
  | .kwLet =>
    variableStatement k .blockScoped
    return .declaration
  | .kwConst =>
    if (← typescript) && (← lookahead).isWord .kwEnum then
      next
      enumeration k
    else variableStatement k .blockScoped
    return .declaration
  | .kwFunction =>
    functionStatement k (← position) false
    return .declaration
  | .kwClass =>
    classStatement k false
    return .declaration
  | .kwImport =>
    if ← beforeAny [.parenL, .dot] then expressionStatement k
    else
      importStatement k
      return .importStatement
  | .kwExport => exportStatement k
  | .kwReturn =>
    next
    if !(← canEnd) then k.expression
    semicolon
    return .returnStatement
  | .kwIf =>
    next
    condition k
    discard k.statement
    if ← eat .kwElse then discard k.statement
    return .other
  | .kwFor =>
    forStatement k
    return .other
  | .kwWhile | .kwWith =>
    next
    condition k
    discard k.statement
    return .other
  | .kwDo =>
    next
    discard k.statement
    expect .kwWhile
    condition k
    skip .semi
    return .other
  | .kwSwitch =>
    switchStatement k
    return .other
  | .kwTry =>
    tryStatement k
    return .other
  | .kwThrow =>
    next
    k.expression
    semicolon
    return .other
  | .kwBreak | .kwContinue =>
    next
    if !(← canEnd) && (← seeing .name) then next
    semicolon
    return .other
  | .kwDebugger =>
    next
    semicolon
    return .other
  | .name => nameStatement k
  | _ => expressionStatement k

end Downlevel.Grammar
