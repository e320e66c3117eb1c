import Downlevel.Proofs.Compile.Identity
import Downlevel.Proofs.Compile.Yields

/-!
# Reading compiled code again

A snippet without imports and exports stays as it is when only imports and exports are lowered, and
is read again as it was (`parse_compile_of_inward`). With imports or exports the code that takes
their place meets the statements around it, and nothing is put between the two. After an exported
declaration that ends without a semicolon the assignment to `exports` is read as part of it, and the
code is rejected (`export_rejected`). A call of an imported name starts with a parenthesis, which
goes on with the statement on the line before (`call_merged`).
-/

namespace Downlevel

/-- Where the first token of a statement starts. -/
def TokenStream.startOf (stream : TokenStream) (c : Statement) : Nat :=
  ((stream.tokens[c.start]?).map (·.span.start)).getD 0

namespace Compile

/-- Each statement that is no import starts exactly one statement of the compiled code, which is
read as `after`. -/
def KeepsStatements (before after : TokenStream) (places : List (Nat × Nat)) : Prop :=
  ∀ c ∈ before.statements.toList, c.kind ≠ .importStatement →
    ∀ p ∈ places, p.2 = before.startOf c →
      (after.statements.toList.filter fun d => after.startOf d = p.1).length = 1

instance (before after : TokenStream) (places : List (Nat × Nat)) :
    Decidable (KeepsStatements before after places) :=
  inferInstanceAs (Decidable (∀ c ∈ _, _ → ∀ p ∈ _, _ → _ = _))

/-- Lowering imports and exports where there are none changes nothing that is read. -/
theorem parse_compile_of_inward {text : List Char} {options : CompileOptions} {stream : TokenStream}
    (hparse : parse text options.dialect = .ok (.ok stream))
    (hoptions : options.transforms = [.imports]) (hstatements : ∀ c ∈ stream.statements, Inward c) :
    ∃ out, compile text options = .ok out ∧
      parse out.code.toList options.dialect = .ok (.ok stream) ∧ ∀ p ∈ out.places, p.1 = p.2 := by
  have hpreserving : Preserving options := by constructor <;> simp [hoptions]
  refine ⟨_, compile_of_inward hparse hpreserving hstatements, ?_, fun p hp => ?_⟩
  · simpa [unchanged] using hparse
  · obtain ⟨t, -, rfl⟩ := List.mem_map.mp hp
    rfl

/-- Not all code that imports and exports are lowered to is accepted again: a declaration and the
assignment after it are not kept apart. -/
theorem export_rejected : ¬ ∀ (text : List Char) (options : CompileOptions) (stream : TokenStream)
    (out : Compiled), parse text options.dialect = .ok (.ok stream) →
    (∀ t ∈ stream.tokens.toList, t.kind ≠ .jsxTagStart) → options.transforms = [.imports] →
    options.removeImports = false → compile text options = .ok out →
    (accepted? out.code.toList options.dialect).isSome := by
  intro h
  obtain ⟨stream, d, out, hyields, hplain, hrejected⟩ : ∃ stream d out,
      Yields "export const a = 1".toList { transforms := [.imports] } stream d out ∧
      stream.tokens.toList.all (·.kind != .jsxTagStart) = true ∧
      ¬ (accepted? out.code.toList {}).isSome :=
    exists_yielded (by decide +kernel)
  exact hrejected (h _ { transforms := [.imports] } stream out hyields.parsed
    (fun t ht => by simpa using List.all_eq_true.mp hplain t ht) rfl rfl hyields.compile)

/-- Not all statements stay apart when imports are lowered: a call of an imported name becomes part
of the statement before it. -/
theorem call_merged : ¬ ∀ (text : List Char) (options : CompileOptions) (stream after : TokenStream)
    (out : Compiled), parse text options.dialect = .ok (.ok stream) →
    (∀ c ∈ stream.statements.toList, c.kind ≠ .exportStatement ∧ c.kind ≠ .exportDefault) →
    options.transforms = [.imports] → compile text options = .ok out →
    parse out.code.toList options.dialect = .ok (.ok after) →
    KeepsStatements stream after out.places := by
  intro h
  obtain ⟨stream, d, out, hyields, hinward, after, hafter, hmerged⟩ : ∃ stream d out,
      Yields "import \x7b f \x7d from 'x'\na\nf()\n".toList { transforms := [.imports] } stream d
        out ∧
      stream.statements.toList.all
        (fun c => c.kind != .exportStatement && c.kind != .exportDefault) = true ∧
      ∃ after ∈ accepted? out.code.toList {}, ¬ KeepsStatements stream after out.places :=
    exists_yielded (by decide +kernel)
  exact hmerged (h _ { transforms := [.imports] } stream after out hyields.parsed
    (fun c hc => by simpa using List.all_eq_true.mp hinward c hc) rfl hyields.compile
    (accepted?_eq_some_iff.mp hafter))

end Compile

end Downlevel
