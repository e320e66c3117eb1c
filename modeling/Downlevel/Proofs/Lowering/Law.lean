import Downlevel.Lowering.Walk

/-!
# Laws of lowering

A law says what holds between the drafts before and after a step that gets through, and with what a
step may stop (`Law`). Whether a step obeys one (`Obeys`) follows from its text. The instances below
go through the constructs once for all laws, from what a law says about edits (`Law.Edits`), loops
(`Law.Lenient`) and what is nested in a construct. What they leave out depends on the law: tokens
that are copied, and steps that change more of the draft than its editor.
-/

namespace Downlevel.Lowering

variable {α β : Type} {c : Scene} {d : Draft} {p : Lowering α} {g : α → Lowering β}

theorem run_bind_ok {b : β} {d'' : Draft} (h : (p >>= g) c d = .ok (b, d'')) :
    ∃ a d', p c d = .ok (a, d') ∧ g a c d' = .ok (b, d'') := by
  change (p c d >>= fun q => g q.1 c q.2) = .ok (b, d'') at h
  cases hrun : p c d with
  | error e =>
    rw [hrun] at h
    cases h
  | ok q =>
    rw [hrun] at h
    exact ⟨q.1, q.2, rfl, h⟩

theorem run_bind_error {e : Halt} (h : (p >>= g) c d = .error e) :
    p c d = .error e ∨ ∃ a d', p c d = .ok (a, d') ∧ g a c d' = .error e := by
  change (p c d >>= fun q => g q.1 c q.2) = .error e at h
  cases hrun : p c d with
  | error e' =>
    rw [hrun] at h
    cases h
    exact .inl rfl
  | ok q =>
    rw [hrun] at h
    exact .inr ⟨q.1, q.2, rfl, h⟩

/-- The lowering of the scene stops with an error at a token, or at none. -/
def Scene.Blames (c : Scene) (e : Halt) : Prop :=
  ∃ invariant offset, e = .error (.broken invariant offset) ∧
    (offset = 0 ∨ ∃ t ∈ c.sheet.tokens, t.span.start = offset)

/-- The step stops with an error at a token, or at none. -/
def Breaks (c : Scene) (d : Draft) (p : Lowering α) : Prop := ∃ e, p c d = .error e ∧ c.Blames e

theorem Scene.blames_broken (c : Scene) (e : Editor) (invariant : Invariant) :
    c.Blames (.error (e.broken c.sheet invariant)) := by
  refine ⟨invariant, _, rfl, ?_⟩
  unfold Editor.current
  cases h : (c.sheet.token? e.index).or c.sheet.tokens.back? with
  | none => exact .inl rfl
  | some t =>
    refine .inr ⟨t, ?_, rfl⟩
    rcases Option.or_eq_some_iff.mp h with h | ⟨-, h⟩
    · exact Array.mem_of_getElem? h
    · exact Array.mem_of_back? h

theorem broken_breaks (invariant : Invariant) : Breaks c d (broken invariant : Lowering α) :=
  ⟨_, rfl, c.blames_broken _ _⟩

theorem brokenAt_breaks (index : Nat) (invariant : Invariant) :
    Breaks c d (brokenAt index invariant : Lowering α) := by
  refine ⟨_, rfl, invariant, _, rfl, ?_⟩
  cases h : c.sheet.token? index with
  | none => exact .inl rfl
  | some t => exact .inr ⟨t, Array.mem_of_getElem? h, rfl⟩

/-- What holds between the drafts before and after a step, and with what it may stop. -/
structure Law (c : Scene) where
  leads : Draft → Draft → Prop
  stops : Draft → Halt → Prop
  refl : ∀ d, leads d d
  trans : ∀ {d d' d''}, leads d d' → leads d' d'' → leads d d''
  stops_of_leads : ∀ {d d' e}, leads d d' → stops d' e → stops d e
  stops_blamed : ∀ {d e}, c.Blames e → stops d e

/-- A law that allows faults. -/
class Law.Lenient (L : Law c) : Prop where
  fault : ∀ d f, L.stops d (.fault f)

/-- From every draft, the step ends as the law says. -/
class Obeys (c : Scene) (L : Law c) (p : Lowering α) : Prop where
  leads : ∀ {d a d'}, p c d = .ok (a, d') → L.leads d d'
  stops : ∀ {d e}, p c d = .error e → L.stops d e

variable {L : Law c}

namespace Obeys

theorem bind (hp : Obeys c L p) (hg : ∀ a, Obeys c L (g a)) : Obeys c L (p >>= g) where
  leads h := by
    obtain ⟨a, d', hpa, hgb⟩ := run_bind_ok h
    exact L.trans (hp.leads hpa) ((hg a).leads hgb)
  stops h := by
    rcases run_bind_error h with hpe | ⟨a, d', hpa, hge⟩
    · exact hp.stops hpe
    · exact L.stops_of_leads (hp.leads hpa) ((hg a).stops hge)

theorem ite {b : Prop} [Decidable b] {p q : Lowering α} (hp : Obeys c L p) (hq : Obeys c L q) :
    Obeys c L (if b then p else q) := by
  split
  · exact hp
  · exact hq

theorem of_look (h : ∀ d, ∃ a, p c d = .ok (a, d)) : Obeys c L p := by
  constructor
  · intro d a d' hrun
    obtain ⟨a', ha'⟩ := h d
    rw [ha'] at hrun
    cases hrun
    exact L.refl d
  · intro d e hrun
    obtain ⟨a', ha'⟩ := h d
    rw [ha'] at hrun
    cases hrun

theorem of_breaks (h : ∀ d, Breaks c d p) : Obeys c L p := by
  constructor
  · intro d a d' hrun
    obtain ⟨e, he, -⟩ := h d
    rw [he] at hrun
    cases hrun
  · intro d e hrun
    obtain ⟨e', he, hblames⟩ := h d
    rw [he] at hrun
    cases hrun
    exact L.stops_blamed hblames

theorem scene {g : Scene → Lowering β} (hg : Obeys c L (g c)) : Obeys c L (read >>= g) :=
  ⟨hg.leads, hg.stops⟩

theorem of_edit {f : Sheet → Editor → Editor}
    (h : ∀ d : Draft, L.leads d { d with editor := f c.sheet d.editor }) : Obeys c L (edit f) := by
  constructor
  · rintro d _ _ ⟨⟩
    exact h d
  · nofun

theorem of_modify {f : Draft → Draft} (h : ∀ d, L.leads d (f d)) :
    Obeys c L (modify f : Lowering Unit) := by
  constructor
  · rintro d _ _ ⟨⟩
    exact h d
  · nofun

end Obeys

instance [hp : Obeys c L p] [hg : ∀ a, Obeys c L (g a)] : Obeys c L (p >>= g) := hp.bind hg

instance (a : α) : Obeys c L (pure a : Lowering α) := .of_look fun _ => ⟨a, rfl⟩

instance {b : Prop} [Decidable b] {p q : Lowering α} [hp : Obeys c L p] [hq : Obeys c L q] :
    Obeys c L (if b then p else q) := hp.ite hq

instance (priority := high) {b : Prop} [Decidable b] {p : Lowering Unit} {rest : Unit → Lowering β}
    [hp : Obeys c L p] [hrest : ∀ a, Obeys c L (rest a)] :
    Obeys c L (if b then p >>= rest else rest ()) := (hp.bind hrest).ite (hrest ())

/-! ## Looking -/

instance : Obeys c L (read : Lowering Scene) := .of_look fun _ => ⟨_, rfl⟩

instance : Obeys c L (get : Lowering Draft) := .of_look fun _ => ⟨_, rfl⟩

instance : Obeys c L sheet := .of_look fun _ => ⟨_, rfl⟩

instance : Obeys c L options := .of_look fun _ => ⟨_, rfl⟩

instance : Obeys c L position := .of_look fun _ => ⟨_, rfl⟩

instance : Obeys c L current := .of_look fun _ => ⟨_, rfl⟩

instance : Obeys c L currentText := .of_look fun _ => ⟨_, rfl⟩

instance : Obeys c L atEnd := .of_look fun _ => ⟨_, rfl⟩

instance (ks : List Kind) : Obeys c L (seeing ks) := .of_look fun _ => ⟨_, rfl⟩

instance (invariant : Invariant) : Obeys c L (broken invariant : Lowering α) :=
  .of_breaks fun _ => broken_breaks _

instance (index : Nat) (invariant : Invariant) :
    Obeys c L (brokenAt index invariant : Lowering α) :=
  .of_breaks fun _ => brokenAt_breaks ..

instance {g : Nat → Lowering β} [hg : Obeys c L (g (c.sheet.tokens.size + 1))] :
    Obeys c L (budget >>= g) := ⟨hg.leads, hg.stops⟩

/-! ## Editing -/

/-- Code may be written, and tokens may be left out. Those of a known kind may be copied, if it is
not that of the pieces of templates. -/
class Law.Edits (L : Law c) : Prop where
  edit : ∀ {action : Action} (trim : Bool), action ≠ .copy →
    Obeys c L (edit fun s e => e.edit s action trim)
  append : ∀ code, Obeys c L (append code)
  trimNextGap : Obeys c L trimNextGap
  copyExpected : ∀ {k : Kind}, k ≠ .template → Obeys c L (copyExpected k)

/-- The law is about the editor alone. -/
class Law.Local (L : Law c) : Prop where
  leads : ∀ {d d' : Draft}, d'.editor = d.editor → L.leads d d'

attribute [instance] Law.Edits.append Law.Edits.trimNextGap

instance [Obeys c L copy] (k : Kind) : Obeys c L (copyExpected k) := by
  unfold copyExpected
  infer_instance

section Edits

variable [L.Edits]

instance (code : String) : Obeys c L (replace code) := Law.Edits.edit false nofun

instance (code : String) : Obeys c L (replaceTrimmed code) := Law.Edits.edit true nofun

instance : Obeys c L remove := Law.Edits.edit true nofun

instance : Obeys c L blank := Law.Edits.edit false nofun

instance (k : Kind) : Obeys c L (removeExpected k) := by
  unfold removeExpected
  infer_instance

instance [Obeys c L copy] : Obeys c L name := by
  unfold name
  refine .bind inferInstance fun c' => .bind inferInstance fun index => ?_
  split <;> infer_instance

end Edits

/-! ## Loops -/

section Loops

variable [L.Lenient] {condition : Lowering Bool} {body : Lowering Unit} [Obeys c L condition]
  [Obeys c L body]

omit [Obeys c L condition] [Obeys c L body] in
instance (f : Fault) : Obeys c L (throw (.fault f) : Lowering α) := by
  constructor
  · nofun
  · rintro d _ ⟨⟩
    exact Law.Lenient.fault d f

instance (n : Nat) : Obeys c L (whileBounded condition body n) := by
  induction n with
  | zero =>
    unfold whileBounded
    infer_instance
  | succ n ih =>
    unfold whileBounded
    infer_instance

instance : Obeys c L (whileHolds condition body) := by
  unfold whileHolds
  infer_instance

omit [Obeys c L condition] in
instance (stop : Nat) : Obeys c L (upTo stop body) := by
  unfold upTo
  infer_instance

end Loops

/-! ## Types, modules and enumerations -/

section Constructs

set_option synthInstance.maxSize 10000

variable [L.Edits] {k : Knot}

instance [L.Lenient] : Obeys c L eraseTypes := by
  unfold eraseTypes
  infer_instance

instance [L.Lenient] (arrow : Nat) : Obeys c L (eraseReturnType arrow) := by
  unfold eraseReturnType
  infer_instance

instance [L.Lenient] (statement : Statement) (code : String) :
    Obeys c L (replaceStatement statement code) := by
  unfold replaceStatement
  infer_instance

omit [L.Edits] in
instance [L.Local] (statement : Statement) : Obeys c L (moduleCode statement) := by
  unfold moduleCode
  refine .bind inferInstance fun scene => .ite inferInstance ?_
  split
  · infer_instance
  · split
    · refine .bind inferInstance fun d => ?_
      dsimp only
      exact .bind (.of_modify fun _ => Law.Local.leads rfl) fun _ => inferInstance
    · infer_instance

omit [L.Edits] in
instance : Obeys c L memberName := by
  unfold memberName
  infer_instance

instance [Obeys c L copy] (enumeration : String) (m : MemberName) :
    Obeys c L (stringMember enumeration m) := by
  unfold stringMember
  split <;> infer_instance

instance [Obeys c L copy] [∀ stop, Obeys c L (upTo stop k.token)] (enumeration : String)
    (m : MemberName) : Obeys c L (initializedMember k enumeration m) := by
  unfold initializedMember
  refine .bind inferInstance fun t => ?_
  split
  · infer_instance
  · split <;> infer_instance

instance (enumeration : String) (m : MemberName) (previous : Option String) :
    Obeys c L (countedMember enumeration m previous) := by
  unfold countedMember
  dsimp only
  split <;> infer_instance

instance [Obeys c L copy] [∀ stop, Obeys c L (upTo stop k.token)] (enumeration : String)
    (m : MemberName) (previous : Option String) :
    Obeys c L (memberValue k enumeration m previous) := by
  unfold memberValue
  infer_instance

section Members

variable [∀ enumeration m previous, Obeys c L (memberValue k enumeration m previous)]

instance (enumeration : String) (previous : Option String) :
    Obeys c L (enumerationMember k enumeration previous) := by
  unfold enumerationMember
  infer_instance

instance [L.Lenient] (enumeration : String) (previous : Option String) (n : Nat) :
    Obeys c L (enumerationMembers k enumeration previous n) := by
  induction n generalizing previous with
  | zero =>
    unfold enumerationMembers
    infer_instance
  | succ n ih =>
    unfold enumerationMembers
    infer_instance

instance [L.Lenient] : Obeys c L (namedEnumeration k) := by
  have hopen := Law.Edits.copyExpected (L := L) (k := .braceL) (by decide)
  have hclose := Law.Edits.copyExpected (L := L) (k := .braceR) (by decide)
  unfold namedEnumeration
  infer_instance

instance [L.Lenient] : Obeys c L (enumeration k) := by
  unfold enumeration
  infer_instance

end Members

end Constructs

/-! ## Tags and elements -/

section Ahead

instance (index : Nat) : Obeys c L (afterBraces index) := by
  unfold afterBraces
  refine .bind inferInstance fun s => ?_
  split <;> infer_instance

instance (index : Nat) : Obeys c L (afterElement index) := by
  unfold afterElement
  refine .bind inferInstance fun s => ?_
  split <;> infer_instance

instance (index : Nat) : Obeys c L (afterValue index) := by
  unfold afterValue
  refine .bind inferInstance fun s => ?_
  split <;> infer_instance

instance (index : Nat) : Obeys c L (namedAttributeAt index) := by
  unfold namedAttributeAt
  infer_instance

instance [L.Lenient] (index n : Nat) : Obeys c L (attributesFrom index n) := by
  induction n generalizing index with
  | zero =>
    unfold attributesFrom
    infer_instance
  | succ n ih =>
    unfold attributesFrom
    refine .bind inferInstance fun s => ?_
    split <;> infer_instance

instance [L.Lenient] : Obeys c L tagAttributes := by
  unfold tagAttributes
  infer_instance

instance : Obeys c L expectTagEnd := by
  unfold expectTagEnd
  infer_instance

end Ahead

/-- Code in braces is lowered with the brace that closes it. -/
class Law.Braces (L : Law c) (k : Knot) : Prop where
  braced : Obeys c L (do balanced k; removeExpected .braceR)

section Elements

set_option synthInstance.maxSize 10000

variable {k : Knot}

instance [L.Lenient] [Obeys c L k.token] (braces parens n : Nat) :
    Obeys c L (balancedBounded k braces parens n) := by
  induction n generalizing braces parens with
  | zero =>
    unfold balancedBounded
    infer_instance
  | succ n ih =>
    unfold balancedBounded
    refine .bind inferInstance fun isEnd => .ite inferInstance (.bind inferInstance fun t => ?_)
    refine .ite inferInstance ?_
    split <;> infer_instance

instance [L.Lenient] [Obeys c L k.token] : Obeys c L (balanced k) := by
  unfold balanced
  infer_instance

instance (priority := high) [h : L.Braces k] :
    Obeys c L (balanced k >>= fun _ => removeExpected .braceR) := h.braced

instance (priority := high) [h : L.Braces k] {g : Unit → Lowering β}
    [hg : ∀ a, Obeys c L (g a)] :
    Obeys c L (balanced k >>= fun _ => removeExpected .braceR >>= g) := by
  rw [← bind_assoc]
  exact h.braced.bind hg

instance [L.Local] (source base : String) : Obeys c L (runtimeImport source base) := by
  unfold runtimeImport
  refine .bind inferInstance fun d => ?_
  split
  · infer_instance
  · refine .bind inferInstance fun scene => ?_
    dsimp only
    split
    · infer_instance
    · exact .bind inferInstance fun d =>
        .bind (.of_modify fun _ => Law.Local.leads rfl) fun _ => inferInstance

variable [L.Edits]

instance [L.Lenient] (code : String) : Obeys c L (closingTag code) := by
  unfold closingTag
  infer_instance

instance [Obeys c L copy] [Obeys c L (attributeValue k)] : Obeys c L (namedAttribute k) := by
  unfold namedAttribute
  infer_instance

instance [L.Braces k] (asEntry : Bool) : Obeys c L (spreadAttribute k asEntry) := by
  have hellipsis := Law.Edits.copyExpected (L := L) (k := .ellipsis) (by decide)
  unfold spreadAttribute
  infer_instance

section Children

variable [L.Lenient] [L.Braces k] [Obeys c L k.element]

instance (comma : Bool) (n : Nat) : Obeys c L (childrenBounded k comma n) := by
  induction n generalizing comma with
  | zero =>
    unfold childrenBounded
    infer_instance
  | succ n ih =>
    unfold childrenBounded
    refine .bind inferInstance fun t => ?_
    split <;> infer_instance

instance (comma : Bool) : Obeys c L (children k comma) := by
  unfold children
  infer_instance

end Children

variable [∀ asEntry, Obeys c L (spreadAttribute k asEntry)] [Obeys c L (namedAttribute k)]

instance (grouped : Bool) (attributes : List AttributeKind) :
    Obeys c L (mergedAttributes k grouped attributes) := by
  induction attributes generalizing grouped with
  | nil =>
    unfold mergedAttributes
    infer_instance
  | cons kind rest ih =>
    cases kind <;> unfold mergedAttributes <;> infer_instance

instance (isFirst : Bool) (attributes : List AttributeKind) :
    Obeys c L (entryAttributes k isFirst attributes) := by
  induction attributes generalizing isFirst with
  | nil =>
    unfold entryAttributes
    infer_instance
  | cons kind rest ih =>
    unfold entryAttributes
    infer_instance

instance [∀ previous, Obeys c L (keyAttribute k previous)] (count : Nat) (key : Option String)
    (attributes : List AttributeKind) :
    Obeys c L (automaticAttributes k count key attributes) := by
  induction attributes generalizing count key with
  | nil =>
    unfold automaticAttributes
    infer_instance
  | cons kind rest ih =>
    cases kind <;> unfold automaticAttributes <;> infer_instance

variable [Obeys c L tagAttributes]

instance : Obeys c L (classicProps k) := by
  unfold classicProps
  refine .bind inferInstance fun attributes => .bind inferInstance fun options => ?_
  split <;> infer_instance

variable [Obeys c L tagName] [∀ comma, Obeys c L (children k comma)]
  [∀ code, Obeys c L (closingTag code)]

instance (pragmas : Pragmas) : Obeys c L (classicElement k pragmas) := by
  unfold classicElement
  infer_instance

variable [∀ previous, Obeys c L (keyAttribute k previous)]

instance (runtime : String) : Obeys c L (automaticTag k runtime) := by
  unfold automaticTag
  infer_instance

omit [Obeys c L tagAttributes] [Obeys c L tagName] in
instance (hasChildren isStatic : Bool) (count : Nat) :
    Obeys c L (beginChildren hasChildren isStatic count) := by
  unfold beginChildren
  infer_instance

instance [∀ base, Obeys c L (runtimeImport c.options.runtimeModule base)]
    (hasChildren isStatic : Bool) : Obeys c L (automaticCall k hasChildren isStatic) := by
  refine .scene ?_
  infer_instance

instance [∀ base, Obeys c L (runtimeImport c.options.runtimeModule base)] (shape : ElementShape) :
    Obeys c L (automaticElement k shape) := by
  unfold automaticElement
  infer_instance

end Elements

/-! ## The walk -/

section Wraps

variable [L.Local]

instance (w : Wrapping) : Obeys c L (modify fun d : Draft => { d with wrapping := w }) :=
  .of_modify fun _ => Law.Local.leads rfl

instance [∀ code, Obeys c L (prepend code)] [∀ code, Obeys c L (prependMapped code)] :
    Obeys c L openWrap := by
  unfold openWrap
  refine .bind inferInstance fun d => ?_
  split <;> infer_instance

instance [∀ code, Obeys c L (append code)] : Obeys c L closeWrap := by
  unfold closeWrap
  refine .bind inferInstance fun d => ?_
  split <;> infer_instance

end Wraps

end Downlevel.Lowering
