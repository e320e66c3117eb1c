import Downlevel.Lowering.Basic

/-! # Enumerations

An enumeration becomes an object that maps names to values and back, which a function fills:
`var E; (function (E) { const A = 0; E[E["A"] = A] = "A"; })(E || (E = {}));` -/

namespace Downlevel.Lowering

def isEnumerationAt (s : Sheet) (index : Nat) : Bool :=
  let keyword := if s.hasKinds index [.kwConst] then index + 1 else index
  s.hasWord keyword .kwEnum &&
    ((s.token? (keyword + 1)).bind (·.role)).any (·.isDeclaration)

structure MemberName where
  code : String
  constant : Option String

def memberName : Lowering MemberName := do
  let text ← currentText
  if (← current).kind == .string then
    let inner := String.ofList (Text.unquoted text.toList)
    return { code := text, constant := if Name.isIdentifier inner then some inner else none }
  else return { code := "\"" ++ text ++ "\"", constant := some text }

def stringMember (enumeration : String) (m : MemberName) : Lowering Unit := do
  match m.constant with
  | some constant =>
    append ("const " ++ constant)
    copy
    copy
    append ("; " ++ enumeration ++ "[" ++ m.code ++ "] = " ++ constant ++ ";")
  | none =>
    append (enumeration ++ "[" ++ m.code ++ "]")
    copy
    copy
    append ";"

def initializedMember (k : Knot) (enumeration : String) (m : MemberName) : Lowering Unit := do
  match (← current).rhsEnd with
  | none => broken .expectedInitializerEnd
  | some stop =>
    match m.constant with
    | some constant =>
      append ("const " ++ constant)
      copy
      upTo stop k.token
      append ("; " ++ enumeration ++ "[" ++ enumeration ++ "[" ++ m.code ++ "] = " ++ constant ++
        "] = " ++ m.code ++ ";")
    | none =>
      append (enumeration ++ "[" ++ enumeration ++ "[" ++ m.code ++ "]")
      copy
      upTo stop k.token
      append ("] = " ++ m.code ++ ";")

/-- A member without an initializer: one more than the member before, or zero. -/
def countedMember (enumeration : String) (m : MemberName) (previous : Option String) :
    Lowering Unit := do
  let value :=
    match previous with
    | some previous => previous ++ " + 1"
    | none => "0"
  match m.constant with
  | some constant => append ("const " ++ constant ++ " = " ++ value ++ "; ")
  | none => pure ()
  append (enumeration ++ "[" ++ enumeration ++ "[" ++ m.code ++ "] = " ++
    m.constant.getD value ++ "] = " ++ m.code ++ ";")

/-- Assigns a member, from what follows its name on. -/
def memberValue (k : Knot) (enumeration : String) (m : MemberName) (previous : Option String) :
    Lowering Unit := do
  if (← seeing [.eq, .string, .comma]) || (← seeing [.eq, .string, .braceR]) then
    stringMember enumeration m
  else if ← seeing [.eq] then initializedMember k enumeration m
  else countedMember enumeration m previous

def enumerationMember (k : Knot) (enumeration : String) (previous : Option String) :
    Lowering String := do
  let m ← memberName
  blank
  memberValue k enumeration m previous
  if ← seeing [.comma] then remove
  return m.constant.getD (enumeration ++ "[" ++ m.code ++ "]")

def enumerationMembers (k : Knot) (enumeration : String) (previous : Option String) :
    Nat → Lowering Unit
  | 0 => throw (.fault .outOfFuel)
  | n + 1 => do
    if ← seeing [.braceR] then return
    if ← atEnd then broken .unterminatedEnum
    let value ← enumerationMember k enumeration previous
    enumerationMembers k enumeration (some value) n

/-- Lowers an enumeration from its name on. -/
def namedEnumeration (k : Knot) : Lowering Unit := do
  let name ← currentText
  remove
  append ("var " ++ name ++ "; (function (" ++ name ++ ")")
  copyExpected .braceL
  enumerationMembers k name none (← budget)
  copyExpected .braceR
  append (")(" ++ name ++ " || (" ++ name ++ " = \x7b\x7d));")

def enumeration (k : Knot) : Lowering Unit := do
  if ← seeing [.kwConst] then
    blank
    remove
  else blank
  namedEnumeration k

end Downlevel.Lowering
