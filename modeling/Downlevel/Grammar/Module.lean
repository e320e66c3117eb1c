import Downlevel.Grammar.Class

/-! # Imports and exports -/

namespace Downlevel.Grammar

variable (k : Knot)

/-- `with { type: 'json' }` or `assert { … }`, when it follows. -/
def importAttributes : Parser Unit := do
  if (← seeing .kwWith) || ((← seeingWord .kwAssert) && !(← lineBreakBefore)) then
    next
    expect .braceL
    commaList .braceR do
      propertyName k
      expect .colon
      expect .string

/-- `from 'x';` -/
def importSource : Parser Unit := do
  expectWord .kwFrom "from"
  expect .string
  importAttributes k
  semicolon

/-- Whether the current `type` is a modifier of the specifier and not a name in it: `type A` and
`type as as b`, but not `type as b`. -/
def isTypeSpecifier : Parser Bool := do
  if !((← typed) && (← seeingWord .kwType)) then return false
  let ahead ← lookahead
  match ahead.kind with
  | .comma | .braceR => return false
  | .name =>
    if ahead.isWord .kwAs then
      peek do
        next
        next
        seeingAny [.name, .string]
    else return true
  | .string => return true
  | other => return other.isReserved

def typeModifier : Parser Bool := do
  let isType ← isTypeSpecifier
  if isType then next
  return isType

/-- Ends a specifier that begins at index `start`. With a modifier `type`, its tokens belong to a
type. -/
def endSpecifier (isType : Bool) (start : Nat) : Parser Unit := do
  if !(← seeing .braceR) then expect .comma
  if isType then markTypeFrom start

def specifier (p : Parser α) : Parser α := do
  let start ← position
  let isType ← typeModifier
  let a ← p
  endSpecifier isType start
  return a

/-- `{ a, b as c, type D }` of an import. -/
def importSpecifiers : Parser Unit := do
  next
  untilClose .braceR <| specifier do
    let imported ← position
    moduleName
    let localRole ← declarationRole .imported false
    if ← eatWord .kwAs then
      setRole imported .importAccess
      identifier (some localRole)
    else setRole imported localRole

/-- What an import binds, and where it comes from. -/
def importClause : Parser Unit := do
  if ← seeing .string then
    next
    importAttributes k
    semicolon
    return
  let localRole ← declarationRole .imported false
  if ← seeing .name then
    identifier (some localRole)
    if !(← eat .comma) then
      importSource k
      return
  if ← eat .star then
    expectWord .kwAs "as"
    identifier (some localRole)
  else if ← seeing .braceL then importSpecifiers
  importSource k

/-- Whether the current `type` or `typeof` makes a type import of the whole statement. -/
def isTypeImport : Parser Bool := do
  if !((← seeingWord .kwType) || ((← flow) && (← seeing .kwTypeof))) then return false
  let ahead ← lookahead
  match ahead.kind with
  | .braceL | .star => return true
  | .name => return !ahead.isWord .kwFrom
  | _ => return false

def importStatement : Parser Unit := do
  let start ← position
  next
  if (← typed) && (← isTypeImport) then
    typeContext do
      next
      importClause k
    markTypeFrom start
  else if (← seeing .name) && (← beforeAny [.eq]) then unsupported "import = require()"
  else importClause k

def markExport (index : Nat) : Parser Unit := do
  let s ← get
  match s.tokens[index]? with
  | some t => if t.kind == .name then setRole index .exportAccess
  | none => throw (.missingLocal index s.tokens s.cursor.error)

/-- Marks the local names of an export clause that names no module. -/
def markExports (locals : List Nat) : Parser Unit := locals.forM markExport

/-- `a` or `a as b` of an export; answers where the local name is. -/
def exportName : Parser Nat := do
  let index ← position
  moduleName
  if ← eatWord .kwAs then moduleName
  return index

/-- The specifiers of an export clause, at most `n` of them; answers where their local names are,
the last one first, in front of `locals`. -/
def exportSpecifiers (locals : List Nat) : Nat → Parser (List Nat)
  | 0 => throw .outOfFuel
  | n + 1 => do
    if ← seeingAny [.braceR, .eof] then return locals
    else exportSpecifiers ((← specifier exportName) :: locals) n

/-- `{ a, b as c }` of an export; answers where the local names are. -/
def exportList : Parser (List Nat) := do
  expect .braceL
  let locals ← exportSpecifiers [] (← read).budget
  expect .braceR
  return locals.reverse

/-- `* as a from 'x'` or `{ a, b as c } from 'x'` -/
def exportClause : Parser Unit := do
  if ← eat .star then
    if ← eatWord .kwAs then moduleName
    importSource k
  else
    let locals ← exportList
    if ← seeingWord .kwFrom then importSource k
    else
      markExports locals
      semicolon

end Downlevel.Grammar
