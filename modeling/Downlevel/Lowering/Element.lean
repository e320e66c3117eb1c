import Downlevel.Grammar.Element
import Downlevel.Lowering.Tag
import Downlevel.Markup.Text

/-! # Elements

In the classic runtime an element becomes a call that takes the tag, an object of props or `null`,
and the children. In the automatic runtime it becomes a call of a runtime function: the children are
among the props, and the key is an argument of its own. -/

namespace Downlevel.Lowering

/-! ## Names and values -/

/-- Lowers the name of a tag: to a string, or to the expression that names a component. -/
def tagName : Lowering Unit := do
  if !(← seeing [.jsxName]) then broken .expectedTagName
  let s ← sheet
  let start ← position
  let stop := afterTagName s (start + 1) s.tokens.size
  let written := String.join ((List.range' start (stop - start)).map s.textAt)
  if Grammar.isComponentTag written then
    name
    whileHolds (return (← position) < stop) copy
  else
    replace (Text.quoted written)
    whileHolds (return (← position) < stop) remove

/-- Lowers tokens up to a brace or parenthesis that was not opened here, at most `n` constructs,
with `braces` and `parens` open before. -/
def balancedBounded (k : Knot) (braces parens : Nat) : Nat → Lowering Unit
  | 0 => throw (.fault .outOfFuel)
  | n + 1 => do
    if ← atEnd then return
    let t ← current
    if t.isType then
      k.token
      balancedBounded k braces parens n
    else
      match t.kind with
      | .braceL | .dollarBraceL =>
        k.token
        balancedBounded k (braces + 1) parens n
      | .parenL =>
        k.token
        balancedBounded k braces (parens + 1) n
      | .braceR =>
        if braces == 0 then return
        k.token
        balancedBounded k (braces - 1) parens n
      | .parenR =>
        if parens == 0 then return
        k.token
        balancedBounded k braces (parens - 1) n
      | _ =>
        k.token
        balancedBounded k braces parens n

def balanced (k : Knot) : Lowering Unit := do balancedBounded k 0 0 (← budget)

def attributeValue (k : Knot) : Lowering Unit := do
  match (← current).kind with
  | .string =>
    match Markup.attributeLiteral? (← currentText).toList with
    | some code => replace code
    | none => copy
  | .braceL =>
    remove
    balanced k
    removeExpected .braceR
  | .jsxTagStart => k.element
  | _ => broken .expectedAttributeValue

/-- Lowers `name="value"` to `name: "value"`; names that are not identifiers are put in quotes. -/
def namedAttribute (k : Knot) : Lowering Unit := do
  let s ← sheet
  let index ← position
  if ← seeing [.jsxName, .colon, .jsxName] then
    replace (Text.quoted (s.textAt index ++ ":" ++ s.textAt (index + 2)))
    remove
    remove
  else if Name.isIdentifier (← currentText) then copy
  else replace (Text.quoted (← currentText))
  if ← seeing [.eq] then
    replace ": "
    attributeValue k
  else append ": true"

/-- Lowers `{...props}` to an entry of an object, or to an argument. -/
def spreadAttribute (k : Knot) (asEntry : Bool) : Lowering Unit := do
  blank
  if asEntry then copyExpected .ellipsis else removeExpected .ellipsis
  balanced k
  removeExpected .braceR

/-! ## Children -/

/-- Lowers children up to the closing tag, at most `n` of them. Each has a comma before it, the
first only if `comma` says so. -/
def childrenBounded (k : Knot) (comma : Bool) : Nat → Lowering Unit
  | 0 => throw (.fault .outOfFuel)
  | n + 1 => do
    let separator := if comma then ", " else ""
    match (← current).kind with
    | .jsxTagStart =>
      if ← seeing [.jsxTagStart, .slash] then return
      append separator
      k.element
      childrenBounded k true n
    | .jsxText =>
      let text := (← currentText).toList
      let cleaned := Markup.clean text
      if cleaned.isEmpty then
        remove
        childrenBounded k comma n
      else
        replace (separator ++ Json.quote (String.ofList cleaned) ++
          String.ofList (Text.lineFeeds text))
        childrenBounded k true n
    | .jsxEmptyText =>
      remove
      childrenBounded k comma n
    | .braceL =>
      if ← seeing [.braceL, .braceR] then
        remove
        remove
        childrenBounded k comma n
      else
        replace separator
        balanced k
        removeExpected .braceR
        childrenBounded k true n
    | _ => broken .unexpectedChild

def children (k : Knot) (comma : Bool) : Lowering Unit := do
  childrenBounded k comma (← budget)

def closingTag (code : String) : Lowering Unit := do
  removeExpected .jsxTagStart
  removeExpected .slash
  whileHolds (return !(← seeing [.jsxTagEnd])) do
    if ← atEnd then broken .unterminatedClosingTag
    remove
  replace code

def expectTagEnd : Lowering Unit := do
  if !(← seeing [.jsxTagEnd]) then broken .expectedTagEnd

/-! ## The classic runtime -/

/-- Lowers attributes to arguments of the function that merges props; `grouped` says that an object
is open for named ones. -/
def mergedAttributes (k : Knot) (grouped : Bool) : List AttributeKind → Lowering Unit
  | [] => if grouped then append " \x7d" else pure ()
  | .spread :: rest => do
    if grouped then append " \x7d"
    append ","
    spreadAttribute k false
    mergedAttributes k false rest
  | _ :: rest => do
    append (if grouped then "," else ", \x7b")
    namedAttribute k
    mergedAttributes k true rest

def entryAttributes (k : Knot) (isFirst : Bool) : List AttributeKind → Lowering Unit
  | [] => pure ()
  | kind :: rest => do
    if !isFirst then append ","
    if kind == .spread then spreadAttribute k true else namedAttribute k
    entryAttributes k false rest

def classicProps (k : Knot) : Lowering Unit := do
  let attributes ← tagAttributes
  match attributes, (← options).objectAssign with
  | [], _ => append ", null"
  | [.spread], _ =>
    append ","
    spreadAttribute k false
  | _, some assign =>
    if attributes.contains .spread then
      append (", " ++ assign ++ "(\x7b\x7d")
      mergedAttributes k false attributes
      append ")"
    else
      append ", \x7b"
      entryAttributes k true attributes
      append " \x7d"
  | _, none =>
    append ", \x7b"
    entryAttributes k true attributes
    append " \x7d"

/-- Lowers an element to a call with the children as arguments. -/
def classicElement (k : Knot) (pragmas : Pragmas) : Lowering Unit := do
  replace (pragmas.element ++ "(")
  if ← seeing [.jsxTagEnd] then
    replace (pragmas.fragment ++ ", null")
    children k true
    closingTag ")"
  else
    tagName
    classicProps k
    if ← seeing [.slash, .jsxTagEnd] then
      remove
      replace ")"
    else
      expectTagEnd
      remove
      children k true
      closingTag ")"

/-! ## The automatic runtime -/

/-- The variable for a module that calls for elements need. If the snippet imports the module
itself, its variable is shared. -/
def runtimeImport (source base : String) : Lowering String := do
  match (← get).runtime.get? source with
  | some record => return record.base
  | none =>
    let scene ← read
    let shared :=
      if scene.options.removeImports then none else scene.linkage.bind (·.binding? source)
    match shared with
    | some name => return name
    | none =>
      let (name, names) := (← get).names.fresh base
      let code := "var " ++ name ++ " = require(" ++ Text.quoted source ++ ");"
      modify fun d =>
        { d with names, runtime := d.runtime.put source { source, base := name, keys := [], code } }
      return name

/-- Lowers `key="value"` and takes its code out of the draft. Of a key before it only the line feeds
stay. -/
def keyAttribute (k : Knot) (previous : Option String) : Lowering String := do
  append (String.ofList (Text.lineFeeds (previous.getD "").toList))
  remove
  if ← seeing [.eq] then
    remove
    let bookmark := (← editor).bookmark
    attributeValue k
    match (← editor).extract? (← sheet) bookmark with
    | some (code, e) =>
      modify fun d => { d with editor := e }
      return String.ofList (code.toList.dropWhile Text.isBlank)
    | none => throw (.fault (.missingEdits bookmark.logSize))
  else return "true"

/-- Lowers attributes to entries of an open object with `count` entries; answers how many entries it
has then, and the code of the last key. -/
def automaticAttributes (k : Knot) (count : Nat) (key : Option String) :
    List AttributeKind → Lowering (Nat × Option String)
  | [] => return (count, key)
  | .key :: rest => do
    let key ← keyAttribute k key
    automaticAttributes k count (some key) rest
  | .spread :: rest => do
    if count > 0 then append ","
    spreadAttribute k true
    automaticAttributes k (count + 1) key rest
  | .named :: rest => do
    if count > 0 then append ","
    namedAttribute k
    automaticAttributes k (count + 1) key rest

/-- The arguments after the props: the key and, in development, whether the children are static,
where the element stands, and `this`. -/
def Scene.callTail (c : Scene) (key : Option String) (isStatic : Bool) (start : Nat) : String :=
  if c.options.production then
    match key with
    | some key => ", " ++ key
    | none => ""
  else
    let position := (c.lines.position? c.sheet.text start).getD ⟨0, 0⟩
    let file :=
      match c.options.filePath with
      | some path => "fileName: " ++ Json.quote path ++ ", "
      | none => ""
    ", " ++ key.getD "void 0" ++ ", " ++ (if isStatic then "true" else "false") ++ ", \x7b " ++
      file ++ "lineNumber: " ++ toString (position.line + 1) ++ ", columnNumber: " ++
      toString (position.column + 1) ++ " \x7d, this"

def automaticFunction (production isStatic : Bool) : String :=
  if !production then "jsxDEV" else if isStatic then "jsxs" else "jsx"

/-- Lowers a tag up to its end, and gives the number of entries and the key. -/
def automaticTag (k : Knot) (runtime : String) : Lowering (Nat × Option String) := do
  if ← seeing [.jsxTagEnd] then
    append (runtime ++ ".Fragment, \x7b")
    pure (0, none)
  else
    tagName
    let attributes ← tagAttributes
    append ", \x7b"
    automaticAttributes k 0 none attributes

/-- Begins the entry for children behind a number of others. -/
def beginChildren (hasChildren isStatic : Bool) (count : Nat) : Lowering Unit := do
  if hasChildren then
    if count > 0 then append ","
    append (if isStatic then " children: [" else " children: ")

/-- Lowers an element to a call with the children among the props. Whether there is an entry for
them, and whether it is an array, is known before. -/
def automaticCall (k : Knot) (hasChildren isStatic : Bool) : Lowering Unit := do
  let scene ← read
  let start := (← current).span.start
  let runtime ← runtimeImport scene.options.runtimeModule "jsxRuntime"
  replace (runtime ++ "." ++ automaticFunction scene.options.production isStatic ++ "(")
  let (count, key) ← automaticTag k runtime
  let tail := scene.callTail key isStatic start
  if ← seeing [.slash, .jsxTagEnd] then
    append (if count > 0 then " \x7d" else "\x7d")
    append tail
    remove
    replace ")"
  else
    expectTagEnd
    beginChildren hasChildren isStatic count
    remove
    children k false
    closingTag ((if isStatic then "]" else "") ++
      (if hasChildren || count > 0 then " \x7d" else "\x7d") ++ tail ++ ")")

def automaticElement (k : Knot) (shape : ElementShape) : Lowering Unit :=
  automaticCall k (shape == .oneChild || shape == .staticChildren) (shape == .staticChildren)

/-! ## Elements of any runtime -/

def element (k : Knot) : Lowering Unit := do
  let scene ← read
  match (← current).shape with
  | none => broken .expectedShape
  | some shape =>
    if scene.options.jsxRuntime != .automatic then
      classicElement k (scene.pragmas.getD
        ⟨scene.options.jsxPragma, scene.options.jsxFragmentPragma⟩)
    else if shape == .keyAfterSpread then
      let source := scene.options.jsxImportSource
      let base ← runtimeImport source (Name.ofPath source)
      classicElement k ⟨base ++ ".createElement", base ++ ".Fragment"⟩
    else automaticElement k shape

end Downlevel.Lowering
