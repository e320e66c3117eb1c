import Downlevel.Edit.Sheet
import Downlevel.Linkage.Basic
import Downlevel.Token.Stream

/-! # Surveying imports and exports

A first look at the top-level statements of a snippet: what it takes from which module, what it
exports, and what becomes of each import. -/

namespace Downlevel

structure SurveyOptions where
  elideUnused : Bool := false
  /-- whether an import all of whose names go stays as a bare one -/
  keepUnused : Bool := false
  /-- names that the compiled code uses although the snippet does not -/
  implicitReferences : List String := []

structure Survey where
  uses : Dict ModuleUse := []
  plans : List (Nat × StatementPlan) := []
  exported : List String := []
  hasExports : Bool := false
deriving Repr

namespace Survey

def tokensOf (s : Sheet) (statement : Statement) : List Token :=
  (s.tokens.toList.take statement.stop).drop statement.start

/-- The string that follows the word `from`, or `import` itself. -/
def path? (text : List Char) : List Token → Option String
  | a :: b :: rest =>
    if b.kind == .string && (a.isWord .kwFrom || a.kind == .kwImport) then
      some (Sheet.spelling text b)
    else path? text (b :: rest)
  | _ => none

/-- The pairs of names in `{ a, b as c }` after the brace: what stands before `as`, and what stands
after it, or twice the same. Specifiers of types are left out. -/
def specifiers (text : List Char) : List Token → List (String × String)
  | [] => []
  | t :: rest =>
    if t.kind == .braceR then []
    else if t.isType || t.kind == .comma then specifiers text rest
    else
      match rest with
      | a :: b :: after =>
        if a.isWord .kwAs then
          (Sheet.spelling text t, Sheet.spelling text b) :: specifiers text after
        else (Sheet.spelling text t, Sheet.spelling text t) :: specifiers text (a :: b :: after)
      | _ => [(Sheet.spelling text t, Sheet.spelling text t)]

def valueReferences (s : Sheet) : List String :=
  (s.tokens.toList.filter fun t =>
    !t.isType && (t.kind == .name || t.kind == .jsxName) &&
      (t.role == some .access || t.role == some .exportAccess ||
        t.role == some .objectShorthand)).map
    fun t => String.ofList (t.text s.text)

def declaredNames (text : List Char) (tokens : List Token) : List String :=
  (tokens.filter fun t => !t.isType && t.role.any (·.declaresAt .topLevel)).map
    fun t => String.ofList (t.text text)

def onUse (path : String) (f : ModuleUse → ModuleUse) (survey : Survey) : Survey :=
  { survey with uses := survey.uses.put path (f ((survey.uses.get? path).getD {})) }

def plan (start : Nat) (p : StatementPlan) (survey : Survey) : Survey :=
  { survey with plans := survey.plans ++ [(start, p)] }

/-- What an import binds: a default name, a name for the whole module, names in braces, and whether
there was anything to bind. -/
structure Clause where
  default : Option String := none
  wildcard : Option String := none
  named : List NamedImport := []
  binds : Bool := false

def bracedClause (text : List Char) (clause : Clause) : List Token → Clause
  | brace :: rest =>
    if brace.kind == .braceL then
      { clause with
        named := (specifiers text rest).map fun (imported, bound) => { bound, imported }
        binds := clause.binds || rest.head?.any (·.kind != .braceR) }
    else clause
  | [] => clause

/-- What an import binds after its default name: `* as name` or names in braces. -/
def clauseAfterDefault (text : List Char) (clause : Clause) : List Token → Clause
  | star :: conjunction :: name :: rest =>
    if star.kind == .star then
      bracedClause text
        { clause with wildcard := some (Sheet.spelling text name), binds := true } rest
    else bracedClause text clause (star :: conjunction :: name :: rest)
  | tokens => bracedClause text clause tokens

def clause (text : List Char) : List Token → Clause
  | name :: rest =>
    if name.kind == .name && !name.isWord .kwFrom then
      let found : Clause := { default := some (String.ofList (name.text text)), binds := true }
      clauseAfterDefault text found
        (if rest.head?.any (·.kind == .comma) then rest.drop 1 else rest)
    else clauseAfterDefault text {} (name :: rest)
  | [] => {}

def addImport (s : Sheet) (options : SurveyOptions) (references : List String)
    (survey : Survey) (statement : Statement) : Survey :=
  let tokens := tokensOf s statement
  match path? s.text tokens with
  | none => survey
  | some path =>
    if (tokens.drop 1).head?.any (·.kind == .string) then
      (survey.onUse path fun u => { u with bare := true }).plan statement.start (.load path)
    else
      let found := clause s.text (tokens.drop 1)
      let keep (name : String) : Bool := !options.elideUnused || references.contains name
      let defaults := found.default.toList.filter keep
      let wildcards := found.wildcard.toList.filter keep
      let named := found.named.filter fun n => keep n.bound
      let isEmpty := defaults.isEmpty && wildcards.isEmpty && named.isEmpty
      if isEmpty && found.binds && !options.keepUnused then survey.plan statement.start .elide
      else
        (survey.onUse path fun u =>
          { u with
            bare := u.bare || isEmpty
            defaults := u.defaults ++ defaults
            wildcards := u.wildcards ++ wildcards
            named := u.named ++ named }).plan statement.start (.load path)

def addStarExport (text : List Char) (survey : Survey) (start : Nat) (tokens : List Token) :
    Survey :=
  match path? text tokens with
  | none => survey
  | some path =>
    let survey :=
      match tokens.drop 2 with
      | conjunction :: name :: _ =>
        if conjunction.isWord .kwAs then
          let name := Sheet.spelling text name
          { survey with exported := survey.exported ++ [name] }.onUse path
            fun u => { u with starNames := u.starNames ++ [name] }
        else survey.onUse path fun u => { u with star := true }
      | _ => survey.onUse path fun u => { u with star := true }
    survey.plan start (.load path)

def addBracedExport (text : List Char) (survey : Survey) (start : Nat) (tokens : List Token) :
    Survey :=
  let pairs := specifiers text (tokens.drop 2)
  let survey := { survey with exported := survey.exported ++ pairs.map (·.2) }
  match path? text tokens with
  | none => survey
  | some path =>
    (survey.onUse path fun u =>
      { u with reexports := u.reexports ++ pairs.map fun (imported, exported) =>
          { exported, imported } }).plan start (.load path)

def addExport (s : Sheet) (survey : Survey) (statement : Statement) : Survey :=
  let tokens := tokensOf s statement
  match tokens with
  | first :: _ =>
    if first.kind != .kwExport then survey
    else
      let survey := { survey with hasExports := true }
      if statement.kind == .exportDefault then
        { survey with exported := survey.exported ++ ["default"] }
      else
        match s.kindAt (statement.start + 1) with
        | .star => addStarExport s.text survey statement.start tokens
        | .braceL => addBracedExport s.text survey statement.start tokens
        | _ =>
          let stop := first.rhsEnd.getD statement.stop
          let declared := (s.tokens.toList.take stop).drop (statement.start + 1)
          { survey with exported := survey.exported ++ declaredNames s.text declared }
  | [] => survey

def ofStream (text : List Char) (stream : TokenStream) (options : SurveyOptions) : Survey :=
  let s : Sheet := { text, tokens := stream.tokens }
  let references := valueReferences s ++ options.implicitReferences
  stream.statements.foldl (fun survey statement =>
    match statement.kind with
    | .importStatement => addImport s options references survey statement
    | .exportStatement | .exportDefault => addExport s survey statement
    | _ => survey) {}

def planAt? (survey : Survey) (start : Nat) : Option StatementPlan := survey.plans.lookup start

end Survey

end Downlevel
