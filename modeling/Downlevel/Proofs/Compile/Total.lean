import Downlevel.Proofs.Compile.Yields

/-!
# Snippets that compile

A snippet without TypeScript that is accepted is compiled, whatever the options
(`compile_succeeds`). The one exception is the default export with decorators, in which any token
may stand for `class`: a brace there that has no other leads lowering astray
(`decorated_export_broken`).
-/

namespace Downlevel

open Token (At)

/-! ## Compiled snippets -/

namespace Compile

variable {text : List Char} {options : CompileOptions} {stream : TokenStream}

/-- A snippet that is accepted is compiled if TypeScript is not taken out of it, unless elements are
lowered and a decorator follows `default`. -/
theorem compile_succeeds (hparse : parse text options.dialect = .ok (.ok stream))
    (htypescript : Transform.typescript ∉ options.transforms)
    (hplain : Transform.jsx ∈ options.transforms → options.jsxRuntime ≠ .preserve →
      Undecorated stream.tokens) : ∃ out, compile text options = .ok out := by
  obtain ⟨d, out, hyields⟩ := exists_yields hparse (.of_untyped htypescript hplain)
  exact ⟨out, hyields.compile⟩

/-- An import, an exported function and an element with a template in its children. -/
theorem compile_succeeds_fragment :
    ∃ out, compile ("import \x7b f \x7d from 'x'; export function g() \x7b " ++
      "return <>a\x7bf(\x60$\x7b0\x7d\x60)\x7d</> \x7d").toList {} = .ok out := by
  obtain ⟨stream, hparse, hplain⟩ : ∃ stream,
      parse ("import \x7b f \x7d from 'x'; export function g() \x7b " ++
        "return <>a\x7bf(\x60$\x7b0\x7d\x60)\x7d</> \x7d").toList {} = .ok (.ok stream) ∧
        Undecorated stream.tokens :=
    exists_accepted (by decide +kernel)
  exact compile_succeeds hparse (by decide) fun _ _ => hplain

/-- Not every snippet that is accepted is compiled: in a default export with decorators, a
parenthesis may stand for `class`, and the code in braces around it ends there. -/
theorem decorated_export_broken : ¬ ∀ (text : List Char) (options : CompileOptions)
    (stream : TokenStream), parse text options.dialect = .ok (.ok stream) →
    Transform.typescript ∉ options.transforms → Transform.flow ∉ options.transforms →
    ∃ out, compile text options = .ok out := by
  intro h
  obtain ⟨stream, hparse, hbroken⟩ : ∃ stream,
      parse "<>\x7b()=>\x7bexport default@y )\x7b\x7d\x7d\x7d</>".toList {} = .ok (.ok stream) ∧
        (compiled? "<>\x7b()=>\x7bexport default@y )\x7b\x7d\x7d\x7d</>".toList
          { transforms := [.jsx] }).isNone = true :=
    exists_accepted (by decide +kernel)
  obtain ⟨out, hout⟩ := h _ { transforms := [.jsx] } stream hparse (by decide) (by decide)
  rw [compiled?_eq_some_iff.mpr hout] at hbroken
  cases hbroken

end Compile

end Downlevel
