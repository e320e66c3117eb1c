import Downlevel.Proofs.Grammar.Keeps

/-!
# What productions leave alone

Every production leaves the tokens alone that were there before it, though many of them note
something on a token that they have taken themselves: where a value ends, that a member belongs to a
type, which shape an element has. Those that are told the index of such a token are the exception:
they leave alone what comes before that index.

Where a production only puts others together, this is found from its parts. The steps are written
out where an index is passed on.
-/

namespace Downlevel.Grammar

open Keeps (keepsAt outOfFuel)

variable {start : Nat} {t : State} {index : Nat} {locals : List Nat}

/-- Where the rule may note something: for the rest of an element, from its `<` on. -/
def Rule.Within (low high : Nat) : Rule → Prop
  | .element start => low ≤ start ∧ start < high
  | _ => True

/-- All rules leave older tokens alone. -/
class Knot.Keeping (ctx : Context) (k : Knot) : Prop where
  rule : ∀ (low high : Nat) (r : Rule), r.Within low high → Keeps ctx low high (k r)

variable {ctx : Context} {low high : Nat}

section Rules

set_option synthInstance.maxSize 100000

variable (k : Knot) [hk : k.Keeping ctx]

/-! ## Rules -/

instance : Keeps ctx low high k.statement := hk.rule low high .statement trivial

instance (noIn : Bool) : Keeps ctx low high (k.assignment noIn) :=
  hk.rule low high (.assignment noIn) trivial

instance (noIn : Bool) : Keeps ctx low high (k.value noIn) := .of_defined

instance (min : Int) (noIn : Bool) : Keeps ctx low high (k.operators min noIn) :=
  hk.rule low high (.operators min noIn) trivial

instance : Keeps ctx low high k.unary := hk.rule low high .unary trivial

instance : Keeps ctx low high k.atom := hk.rule low high .atom trivial

instance : Keeps ctx low high k.type := hk.rule low high .type trivial

instance : Keeps ctx low high k.plainType := hk.rule low high .plainType trivial

instance : Keeps ctx low high k.typeOperator := hk.rule low high .typeOperator trivial

instance (binding : Binding) : Keeps ctx low high (k.bindingAtom binding) :=
  hk.rule low high (.bindingAtom binding) trivial

theorem element_rule_keeps (hlow : low ≤ start) (hhigh : start < high) :
    Keeps ctx low high (k.element start) := hk.rule low high (.element start) ⟨hlow, hhigh⟩

/-! ## Parts -/

instance (inner : Parser Unit) [Keeps ctx low high inner] :
    Keeps ctx low high (templateRound inner) := by
  unfold templateRound
  refine .bind inferInstance fun _ => .bind inferInstance fun kind => ?_
  split <;> infer_instance

instance : Keeps ctx low high (propertyName k) := by
  unfold propertyName
  refine .bind inferInstance fun kind => ?_
  split <;> infer_instance

instance (noIn : Bool) : Keeps ctx low high (k.expression noIn) := .of_defined

instance (noIn : Bool) : Keeps ctx low high (initializer k noIn) := .of_defined

instance : Keeps ctx low high (defaultValue k) := .of_defined

/-! ## Annotations and patterns -/

instance : Keeps ctx low high nextAsType := .of_defined

instance : Keeps ctx low high ( typeAnnotation k) := .of_defined

instance : Keeps ctx low high ( optionalAnnotation k) := .of_defined

instance : Keeps ctx low high (typeOrPredicate k) := .of_defined

instance : Keeps ctx low high ( optionalReturnAnnotation k) := .of_defined

instance : Keeps ctx low high (typeParameters k) := .of_defined

instance : Keeps ctx low high (typeArguments k) := .of_defined

instance : Keeps ctx low high splitShift where
  keepsAt _ s _ := by
    refine .look rfl ?_
    split
    · rename_i hkind
      rw [beq_iff_eq] at hkind
      refine reread_keepsAt (fun hc => Cursor.splitShift?_of_kind hc hkind)
        (fun _ => Cursor.splitShift?_placed) fun _ hread => Cursor.splitShift?_turned hread ?_
      rw [hkind]
      decide
    · exact .pure _

instance (binding : Binding) : Keeps ctx low high (bindingAtom k binding) := by
  unfold bindingAtom
  refine .bind inferInstance fun kind => ?_
  split <;> infer_instance

instance (binding : Binding) : Keeps ctx low high (bindingElement k binding) := .of_defined

instance : Keeps ctx low high (decorators k) := .of_defined

instance : Keeps ctx low high (functionParameters k) := .of_defined

/-! ## Functions and expressions -/

instance (isFunction : Bool) : Keeps ctx low high (block k isFunction) := .of_defined

instance (bodyless : Bool) [Fact (low ≤ start)] : Keeps ctx low high (method k start bodyless) :=
  .of_defined

instance : Keeps ctx low high (arrowBody k) := .of_defined

instance : Keeps ctx low high (tryArrow k) := .of_defined

instance (close : Kind) : Keeps ctx low high (objectMember k close) := .of_defined

instance : Keeps ctx low high (optionalMember k) := by
  unfold optionalMember
  refine .bind inferInstance fun _ => .bind inferInstance fun kind => ?_
  split <;> infer_instance

instance (noCalls : Bool) : Keeps ctx low high (subscript k noCalls) := by
  unfold subscript
  refine .bind inferInstance fun kind => ?_
  split <;> infer_instance

instance (min : Int) (noIn : Bool) : Keeps ctx low high (operation k min noIn) := by
  unfold operation
  refine .bind inferInstance fun _ => .bind inferInstance fun _ => .bind inferInstance fun _ =>
    .ite inferInstance (.bind inferInstance fun operator => ?_)
  split <;> infer_instance

instance : Keeps ctx low high (newExpression k) := .of_defined

instance : Keeps ctx low high (unary k) := .of_defined

instance (noIn : Bool) : Keeps ctx low high (conditional k noIn) := .of_defined

instance (noIn : Bool) : Keeps ctx low high (assignment k noIn) := .of_defined

/-! ## Classes -/

instance (n : Nat) : Keeps ctx low high (classModifiers n) := by
  induction n with
  | zero => exact outOfFuel
  | succ n ih =>
    unfold classModifiers
    refine .bind inferInstance fun found => ?_
    split <;> infer_instance

instance : Keeps ctx low high (indexSignature k) := .of_defined

instance [Fact (low ≤ start)] : Keeps ctx low high (fieldOrMethod k start) := .of_defined

instance : Keeps ctx low high (classMember k) := .of_defined

instance : Keeps ctx low high (classHeritage k) := .of_defined

instance (optionalName : Bool) : Keeps ctx low high (classStatement k optionalName) := .of_defined

instance : Keeps ctx low high (classExpression k) := .of_defined

/-! ## Elements -/

instance (name : String) (n : Nat) : Keeps ctx low high (dottedTagName name n) := by
  induction n generalizing name with
  | zero => exact outOfFuel
  | succ n ih =>
    unfold dottedTagName
    infer_instance

instance (opening : Bool) : Keeps ctx low high (tagName opening) := .of_defined

instance : Keeps ctx low high (attributeValue k) := by
  unfold attributeValue
  refine .bind inferInstance fun kind => ?_
  split
  · infer_instance
  · infer_instance
  · refine .position fun start hlow _ => .advance (.bind ?_ inferInstance)
    exact element_rule_keeps k hlow (Nat.lt_succ_self _)
  · infer_instance

instance (seen : Attributes) (n : Nat) : Keeps ctx low high (tagAttributes k seen n) := by
  induction n generalizing seen with
  | zero => exact outOfFuel
  | succ n ih =>
    unfold tagAttributes
    infer_instance

instance (name : Option String) : Keeps ctx low high (closingTag name) where
  keepsAt hle _ hs := .look rfl (.taking (Nat.le_trans hle hs) inferInstance)

instance : Keeps ctx low high (childExpression k) := .of_defined

instance (name : Option String) : Keeps ctx low high (child k name) := by
  unfold child
  refine .bind inferInstance fun _ => .bind inferInstance fun kind => ?_
  split
  · refine .position fun start hlow _ => .advance ?_
    have helement : Keeps ctx low (start + 1) (k.element start) :=
      element_rule_keeps k hlow (Nat.lt_succ_self _)
    infer_instance
  all_goals infer_instance

instance (name : Option String) (count n : Nat) : Keeps ctx low high (children k name count n) := by
  induction n generalizing count with
  | zero => exact outOfFuel
  | succ n ih =>
    unfold children
    refine .bind inferInstance fun found => ?_
    split <;> infer_instance

theorem element_keeps (hlow : low ≤ start) (hhigh : start < high) :
    Keeps ctx low high (element k start) := by
  have hshape : ∀ shape, Keeps ctx low high (setShape start shape) :=
    fun _ => setShape_keeps hlow hhigh
  unfold element
  refine .bind inferInstance fun name => .bind inferInstance fun _ =>
    .ite (.bind inferInstance fun found => ?_) (.bind inferInstance fun found => ?_)
  all_goals
    refine .ite inferInstance (.bind inferInstance fun _ => .ite inferInstance
      (.bind inferInstance fun _ => .ite (.bind inferInstance fun count => ?_) inferInstance))
    split <;> infer_instance

theorem elementExpression_keepsAt {s : State} (hle : low ≤ high) (hs : high ≤ s.tokens.size)
    (hsolid : s.cursor.kind.Solid) : KeepsAt ctx low s (elementExpression k) := by
  have hrest : Keeps ctx low high (position >>= fun start => nextInTag >>= fun _ =>
      k.element start) :=
    .position fun start hlow _ => .advance (element_rule_keeps k hlow (Nat.lt_succ_self _))
  refine (onCursor_kind_keepsAt hsolid (by decide) rfl).bind ?_
  rintro _ _ ⟨⟩
  exact hrest.keepsAt hle _ hs

/-! ## Atoms -/

instance : Keeps ctx low high (nameAtom k) := by
  unfold nameAtom
  refine .bind inferInstance fun ahead => .bind inferInstance fun _ => .ite ?_ inferInstance
  split <;> infer_instance

/-- What is read again as a regular expression begins with a slash. -/
theorem regex_keepsAt {s : State} (hlow : low ≤ s.tokens.size) (hsolid : s.cursor.kind.Solid)
    (hhead : s.cursor.Placed ctx.source.text → s.cursor.start.rest.head? = some '/') :
    KeepsAt ctx low s regex := by
  have hread : KeepsAt ctx low s (reread fun c => c.asRegex? ctx.source) :=
    reread_keepsAt (fun hc => Cursor.asRegex?_of_head (hhead hc))
      (fun _ => Cursor.asRegex?_placed) fun _ hread => Cursor.asRegex?_turned hread hsolid
  exact .look rfl (hread.bind fun _ t hrun => keepsAt (Nat.le_refl low) t
    (Nat.le_trans hlow (hread.above _ t hrun).size))

instance : Keeps ctx low high (atom k) where
  keepsAt hle s hs := by
    have hlow : low ≤ s.tokens.size := Nat.le_trans hle hs
    refine .look rfl ?_
    split
    · exact keepsAt hle s hs
    · exact keepsAt hle s hs
    · split
      · rename_i hkind
        refine .bind (regex_keepsAt hlow (solid_of_kind hkind (by decide)) fun hc =>
          hc.headed '/' ?_)
          fun _ _ _ => .pure _
        rw [hkind]
        rfl
      · rename_i hkind
        refine .look rfl ?_
        split
        · rename_i htext
          refine .bind (regex_keepsAt hlow (solid_of_kind hkind (by decide)) fun _ =>
            Cursor.head?_of_text ?_)
            fun _ _ _ => .pure _
          rw [← String.toList_ofList (l := s.cursor.text), beq_iff_eq.mp htext]
          rfl
        · exact keepsAt hle s hs
      · rename_i hkind
        refine .look rfl ?_
        split
        · have helement : KeepsAt ctx low s (elementExpression k) :=
            elementExpression_keepsAt k hle hs (solid_of_kind hkind (by decide))
          refine helement.bind fun _ t hrun => ?_
          exact keepsAt hle t (Nat.le_trans hs (helement.above _ t hrun).size)
        · exact keepsAt hle s hs
      all_goals exact keepsAt hle s hs

/-! ## Types -/

instance : Keeps ctx low high (signature k) := .of_defined

instance : Keeps ctx low high (memberType k) := .of_defined

instance : Keeps ctx low high (typeMember k) := .of_defined

instance : Keeps ctx low high (mappedType k) := by
  unfold mappedType
  refine .bind inferInstance fun _ => .bind inferInstance fun _ => .bind inferInstance fun _ =>
    .bind inferInstance fun _ => .ite inferInstance (.bind inferInstance fun _ => ?_)
  infer_instance

instance : Keeps ctx low high (importType k) := .of_defined

instance : Keeps ctx low high (primaryType k) := by
  unfold primaryType
  refine .bind inferInstance fun kind => ?_
  split <;> infer_instance

instance : Keeps ctx low high (typeOperator k) := .of_defined

instance : Keeps ctx low high (unionType k) := .of_defined

instance : Keeps ctx low high (plainType k) := .of_defined

/-! ## Declarations -/

instance (binding : Binding) : Keeps ctx low high (variableStatement k binding) := .of_defined

instance : Keeps ctx low high (typeAlias k) := .of_defined

instance : Keeps ctx low high (interfaceDeclaration k) := .of_defined

instance : Keeps ctx low high (ambientDeclaration k) := .of_defined

/-! ## Imports and exports -/

instance : Keeps ctx low high (importAttributes k) := .of_defined

instance : Keeps ctx low high isTypeSpecifier := by
  unfold isTypeSpecifier
  refine .bind inferInstance fun _ => .bind inferInstance fun _ => .ite inferInstance
    (.bind inferInstance fun ahead => ?_)
  split <;> infer_instance

instance : Keeps ctx low high importSpecifiers := .of_defined

instance : Keeps ctx low high isTypeImport := by
  unfold isTypeImport
  refine .bind inferInstance fun _ => .bind inferInstance fun _ => .bind inferInstance fun _ =>
    .ite inferInstance (.bind inferInstance fun ahead => ?_)
  split <;> infer_instance

instance : Keeps ctx low high (importClause k) := .of_defined

instance : Keeps ctx low high (importStatement k) := .of_defined

theorem markExport_above {s : State} (hlow : low ≤ s.tokens.size) (h : low ≤ index)
    (hrun : markExport index ctx s = .ok ((), t)) : Above ctx.source.text low s t := by
  obtain ⟨_, _, ⟨⟩, hrest⟩ := bind_ok hrun
  generalize s.tokens[index]? = found at hrest
  cases found with
  | none => cases hrest
  | some token =>
    dsimp only at hrest
    split at hrest
    · have := Fact.mk h
      exact (keepsAt (Nat.le_refl low) s hlow).above _ _ hrest
    · cases hrest
      exact .refl _ _

theorem markExports_above {s : State} (hlow : low ≤ s.tokens.size)
    (h : ∀ index ∈ locals, low ≤ index) (hrun : markExports locals ctx s = .ok ((), t)) :
    Above ctx.source.text low s t := by
  induction locals generalizing s with
  | nil =>
    cases hrun
    exact .refl _ _
  | cons index rest ih =>
    obtain ⟨_, u, hmark, hrest⟩ := bind_ok hrun
    have hfirst := markExport_above hlow (h index List.mem_cons_self) hmark
    have hothers := fun i hi => h i (List.mem_cons_of_mem index hi)
    exact hfirst.trans (ih (Nat.le_trans hlow hfirst.size) hothers hrest)

instance : Keeps ctx low high (specifier exportName) := .of_defined

instance (locals : List Nat) (n : Nat) : Keeps ctx low high (exportSpecifiers locals n) := by
  induction n generalizing locals with
  | zero => exact outOfFuel
  | succ n ih =>
    unfold exportSpecifiers
    infer_instance

theorem exportName_ok {s : State} (hrun : exportName ctx s = .ok (index, t)) :
    index = s.tokens.size := by
  obtain ⟨_, _, ⟨⟩, hrun⟩ := bind_ok hrun
  obtain ⟨_, u, -, hrun⟩ := bind_ok hrun
  obtain ⟨renamed, v, -, hrun⟩ := bind_ok hrun
  cases renamed with
  | false =>
    cases hrun
    rfl
  | true =>
    obtain ⟨_, _, -, ⟨⟩⟩ := bind_ok hrun
    rfl

theorem specifier_exportName_ok {s : State} (hrun : specifier exportName ctx s = .ok (index, t)) :
    s.tokens.size ≤ index ∧ s.tokens.size ≤ t.tokens.size := by
  refine ⟨?_, Keeps.size_le hrun⟩
  obtain ⟨_, _, ⟨⟩, hrun⟩ := bind_ok hrun
  obtain ⟨isType, u, hmodifier, hrun⟩ := bind_ok hrun
  obtain ⟨_, v, hname, hrun⟩ := bind_ok hrun
  obtain ⟨_, _, -, ⟨⟩⟩ := bind_ok hrun
  rw [exportName_ok hname]
  exact Keeps.size_le hmodifier

theorem exportSpecifiers_ok {found : List Nat} {n : Nat} {s : State} (hlow : low ≤ s.tokens.size)
    (h : ∀ index ∈ locals, low ≤ index) (hrun : exportSpecifiers locals n ctx s = .ok (found, t)) :
    ∀ index ∈ found, low ≤ index := by
  induction n generalizing locals s with
  | zero => cases hrun
  | succ n ih =>
    obtain ⟨done, _, ⟨⟩, hrun⟩ := bind_ok hrun
    split at hrun
    · cases hrun
      exact h
    · obtain ⟨index, u, hspecifier, hrun⟩ := bind_ok hrun
      obtain ⟨hindex, hsize⟩ := specifier_exportName_ok hspecifier
      refine ih (by omega) (fun i hi => ?_) hrun
      rcases List.mem_cons.mp hi with rfl | hi
      · omega
      · exact h i hi

theorem exportList_ok {s : State} (hlow : low ≤ s.tokens.size)
    (hrun : exportList ctx s = .ok (locals, t)) : ∀ index ∈ locals, low ≤ index := by
  obtain ⟨_, u, hbrace, hrun⟩ := bind_ok hrun
  obtain ⟨_, _, ⟨⟩, hrun⟩ := bind_ok hrun
  obtain ⟨found, v, hfound, hrun⟩ := bind_ok hrun
  obtain ⟨_, _, -, ⟨⟩⟩ := bind_ok hrun
  have hfrom := exportSpecifiers_ok (Nat.le_trans hlow (Keeps.size_le hbrace)) (by simp) hfound
  simpa using hfrom

variable {s : State}

theorem exportedNames_above (hlow : low ≤ s.tokens.size)
    (hrun : (do
      let locals ← exportList
      if ← seeingWord .kwFrom then importSource k
      else
        markExports locals
        semicolon : Parser Unit) ctx s = .ok ((), t)) : Above ctx.source.text low s t := by
  obtain ⟨locals, u, hread, hrest⟩ := bind_ok hrun
  obtain ⟨_, _, ⟨⟩, hrest⟩ := bind_ok hrest
  have hfirst := Keeps.above hlow hread
  have hu := Nat.le_trans hlow hfirst.size
  split at hrest
  · exact hfirst.trans (Keeps.above hu hrest)
  · obtain ⟨_, v, hmark, hrest⟩ := bind_ok hrest
    have hmarked := hfirst.trans (markExports_above hu (exportList_ok hlow hread) hmark)
    exact hmarked.trans (Keeps.above (Nat.le_trans hlow hmarked.size) hrest)

/-- The names of a list are marked right after it is read, so one that is missed belongs to it. -/
theorem exportedNames_keepsAt (hexporting : Exporting s.tokens) (hlow : low ≤ s.tokens.size) :
    KeepsAt ctx low s (do
      let locals ← exportList
      if ← seeingWord .kwFrom then importSource k
      else
        markExports locals
        semicolon) where
  above _ _ := exportedNames_above k hlow
  fault hplaced f hrun := by
    have hlist : KeepsAt ctx low s exportList := keepsAt (Nat.le_refl low) s hlow
    have hsource : Keeps ctx low low (importSource k) := inferInstance
    have hend : Keeps ctx low low semicolon := inferInstance
    rcases bind_error hrun with hread | ⟨locals, t, hread, hrest⟩
    · exact hlist.fault hplaced f hread
    have hfirst := hlist.above locals t hread
    have ht := Nat.le_trans hlow hfirst.size
    have hlook : seeingWord .kwFrom ctx t = .ok (t.cursor.isWord .kwFrom, t) := rfl
    rw [bind_of_ok hlook] at hrest
    split at hrest
    · exact ((hsource.keepsAt (Nat.le_refl low) t ht).on hfirst).fault hplaced f hrest
    · rcases bind_error hrest with hmark | ⟨_, u, hmark, hrest⟩
      · exact .inr ⟨s, locals, t, .refl s, hplaced, hexporting, hread, hmark⟩
      have hmarked := hfirst.trans (markExports_above ht (exportList_ok hlow hread) hmark)
      have hu := Nat.le_trans hlow hmarked.size
      exact ((hend.keepsAt (Nat.le_refl low) u hu).on hmarked).fault hplaced f hrest

theorem exportClause_above (hlow : low ≤ s.tokens.size)
    (hrun : exportClause k ctx s = .ok ((), t)) :
    Above ctx.source.text low s t := by
  obtain ⟨starred, u, heat, hrest⟩ := bind_ok hrun
  have hfirst := Keeps.above hlow heat
  have hu := Nat.le_trans hlow hfirst.size
  refine hfirst.trans ?_
  cases starred with
  | true =>
    rw [if_pos rfl] at hrest
    exact Keeps.above hu hrest
  | false => exact exportedNames_above k hu hrest

theorem exportClause_keepsAt (hexporting : Exporting s.tokens) (hlow : low ≤ s.tokens.size) :
    KeepsAt ctx low s (exportClause k) := by
  refine .bind (keepsAt (Nat.le_refl low) s hlow) fun starred t hrun => ?_
  cases starred with
  | true =>
    rw [if_pos rfl]
    exact keepsAt (Nat.le_refl low) t (Nat.le_trans hlow (Keeps.size_le hrun))
  | false =>
    obtain ⟨_, _, ⟨⟩, hrest⟩ := bind_ok hrun
    split at hrest
    · obtain ⟨_, _, -, ⟨⟩⟩ := bind_ok hrest
    · cases hrest
      exact exportedNames_keepsAt k hexporting hlow

/-! ## Statements -/

instance : Keeps ctx low high (forInitializer k) := by
  unfold forInitializer
  refine .bind inferInstance fun kind => ?_
  split <;> infer_instance

instance : Keeps ctx low high (forStatement k) := .of_defined

instance : Keeps ctx low high (tryStatement k) := .of_defined

theorem exportedKind_keeps (kind : StatementKind) (hlow : low ≤ start) (hhigh : index < high) :
    Keeps ctx low high (exportedKind kind start index) := by
  have hall : Keeps ctx low high (allTypeFrom (index + 1)) := allTypeFrom_keeps hhigh
  have := Fact.mk hlow
  exact .of_defined

theorem exportDefault_keeps (hlow : low ≤ start) : Keeps ctx low high (exportDefault k start) := by
  unfold exportDefault
  refine .ranging fun s _ => .position fun here hhere => ?_
  have := Fact.mk hlow
  have := Fact.mk (Nat.le_of_lt hhere)
  have hkind :
      Keeps ctx low (s.tokens.size + 1) (exportedKind .exportDefault start s.tokens.size) :=
    exportedKind_keeps _ hlow (Nat.lt_succ_self _)
  infer_instance

theorem beforeAny_ok {ks : List Kind} {b : Bool} (hrun : beforeAny ks ctx s = .ok (b, t)) :
    t = s := by
  obtain ⟨_, u, hkind, hrest⟩ := bind_ok hrun
  obtain ⟨_, v, hahead, hrest'⟩ := bind_ok hkind
  cases hrest
  cases hrest'
  exact (peek_ok (keepsAt_here s) hahead).1

theorem exportStatement_keepsAt (hkind : s.cursor.kind = .kwExport) (hlow : low ≤ s.tokens.size) :
    KeepsAt ctx low s (exportStatement k) := by
  have hdefault : Keeps ctx low (s.tokens.size + 1) (exportDefault k s.tokens.size) :=
    exportDefault_keeps k hlow
  have := Fact.mk hlow
  have hexported : Keeps ctx low (s.tokens.size + 1)
    (exportedKind .exportStatement s.tokens.size s.tokens.size) :=
      exportedKind_keeps _ hlow (Nat.lt_succ_self _)
  have htook := @above_took ctx s s.tokens.size .code (Nat.le_refl _)
  have hlt : s.tokens.size < (s.tokens.push s.cursor.token).size := by simp
  -- all but the clauses may follow any token
  have hother : ∀ (p : Parser StatementKind) [KeepsFrom ctx low s p],
      KeepsOn ctx low s _ p := fun p hp => hp.keeps hlow _ htook hlt
  unfold exportStatement
  refine .look rfl (.take (.step rfl ?_))
  split
  · exact hother _
  refine .step rfl ?_
  split
  · exact hother _
  refine .step rfl (.step rfl ?_)
  split
  · exact hother _
  refine .step rfl (.step rfl (.bind htook (keepsAt (Nat.le_refl _) _ (Nat.le_of_lt hlt))
    fun _ t hahead _ => ?_))
  obtain rfl := beforeAny_ok hahead
  split
  · rename_i hword
    simp only [Bool.and_eq_true] at hword
    refine .bind htook (typeContext_keepsAt (.bind
      (.of_ok rfl (above_took .code (Nat.le_of_lt hlt))) ?_)) fun _ t _ habove => ?_
    · rintro _ _ ⟨⟩
      exact exportClause_keepsAt k (.typed _ hkind hword.1.2) (by simp; omega)
    · have hmarked : KeepsFrom ctx low s (markTypeFrom s.tokens.size >>= fun _ =>
        pure StatementKind.typeOnly) := inferInstance
      exact hmarked.keeps hlow t (htook.trans habove) (Nat.lt_of_lt_of_le hlt habove.size)
  refine .step rfl ?_
  split
  · exact .bind htook (exportClause_keepsAt k (.plain _ hkind) (Nat.le_of_lt hlt))
      fun _ t _ habove => (KeepsAt.pure _).on ((htook.trans habove).mono hlow)
  · exact hother _

instance : Keeps ctx low high (nameStatement k) := by
  unfold nameStatement
  refine .bind inferInstance fun ahead => .ite inferInstance (.position fun start hlow _ =>
    .bind inferInstance fun d => .bind inferInstance fun s => ?_)
  have := Fact.mk hlow
  split <;> infer_instance

instance : Keeps ctx low high (statement k) where
  keepsAt hle s hs := by
    unfold statement
    refine .bind (keepsAt hle s hs) fun _ t hrun => .look rfl ?_
    have ht := Nat.le_trans hs (Keeps.size_le hrun)
    generalize hkind : t.cursor.kind = kind
    split
    case h_9 => exact exportStatement_keepsAt k hkind (Nat.le_trans hle ht)
    all_goals exact keepsAt hle t ht

/-! ## Snippets -/

theorem production_keeping : (production k).Keeping ctx where
  rule low high r hwithin := by
    cases r with
    | element start => exact element_keeps k hwithin.1 hwithin.2
    | _ =>
      rw [production]
      infer_instance

instance : Keeps ctx low high (topLevelStatement k) := by
  unfold topLevelStatement
  refine .position fun start hlow _ => .bind inferInstance fun kind => .position fun stop _ hle =>
    ?_
  split
  · infer_instance
  · rename_i hne
    have hlt : start < stop := Nat.lt_of_le_of_ne hle fun heq => hne (by simp [heq])
    have hall : Keeps ctx low stop (allTypeFrom start) := allTypeFrom_keeps hle
    have hlast : Keeps ctx low stop lastToken := lastToken_keeps (by omega)
    unfold endsInSemicolon
    infer_instance

instance (seen : Array Statement) (n : Nat) : Keeps ctx low high (topLevel k seen n) := by
  induction n generalizing seen with
  | zero => exact outOfFuel
  | succ n ih =>
    unfold topLevel
    refine .bind inferInstance fun _ => .ite inferInstance (.bind inferInstance fun found => ?_)
    split <;> infer_instance

end Rules

/-- All rules of the grammar leave older tokens alone, however deeply they nest. -/
instance grammar_keeping (n : Nat) : (grammar n).Keeping ctx := by
  induction n with
  | zero => exact ⟨fun _ _ _ _ => outOfFuel⟩
  | succ n ih => exact production_keeping (grammar n)

end Downlevel.Grammar
