import Downlevel.Proofs.Compile.Linked
import Downlevel.Proofs.Compile.Steps
import Downlevel.Proofs.Grammar.Spelled

/-!
# Strings in other quotes

The path of a module, and a name that is written as a string, are taken out of their quotes as they
stand and put in other quotes. The code that requires a module has the path so (`Linkage.Loads`).
What is in the new quotes is what stood in the old ones, which is the value of the old literal just
if nothing is escaped in it (`strings_requoted`): `'a\x62'` becomes `'a\\x62'`
(`escaped_path_lost`).
-/

namespace Downlevel

open Token (At)
open Grammar (Coded)
open Text (utf16 unquoted)
open Text.Literal (value? isString)

variable {text : List Char} {stream : TokenStream} {t : Token} {i : Nat}

theorem Grammar.Coded.of_at {tokens : Array Token} {k : Kind} (h : At tokens i k)
    (hk : k ∉ State.tagKinds) : Coded tokens i := by
  obtain ⟨p, hp, rfl⟩ := h
  exact ⟨p, hp, hk⟩

/-- What is in the new quotes of a string stood in its old ones. -/
theorem Sheet.value?_spelling (hstring : t.kind = .string) (h : isString (t.text text) = true) :
    value? (Text.quoted (spelling text t)).toList = some (utf16 (unquoted (t.text text))) ∧
    (value? (Text.quoted (spelling text t)).toList = value? (t.text text) ↔
      '\\' ∉ unquoted (t.text text)) := by
  have hspelling : (spelling text t).toList = unquoted (t.text text) := by simp [spelling, hstring]
  rw [Text.Literal.value?_quoted, hspelling, ← Text.Literal.value?_eq_iff h]
  exact ⟨rfl, eq_comm⟩

/-- The path of a module is the string after a word. -/
theorem Survey.path?_eq_some {tokens : List Token} {path : String}
    (h : path? text tokens = some path) : ∃ i a t, tokens[i]? = some a ∧ tokens[i + 1]? = some t ∧
      a.kind ∉ Grammar.State.tagKinds ∧ t.kind = .string ∧ path = Sheet.spelling text t := by
  fun_induction path? text tokens with
  | case1 a b rest hfound =>
    obtain rfl := Option.some.inj h
    simp only [Bool.and_eq_true, Bool.or_eq_true, Token.isWord, beq_iff_eq] at hfound
    refine ⟨0, a, b, rfl, rfl, ?_, hfound.1, rfl⟩
    rcases hfound.2 with ⟨hword, -⟩ | hword
    · rw [hword]
      decide
    · rw [hword]
      decide
  | case2 a b rest _ ih =>
    obtain ⟨i, found⟩ := ih h
    exact ⟨i + 1, found⟩
  | case3 => cases h

theorem Survey.getElem?_of_tokensOf {s : Sheet} {st : Statement}
    (h : (tokensOf s st)[i]? = some t) : s.tokens[st.start + i]? = some t := by
  rw [tokensOf, List.getElem?_drop, List.getElem?_take] at h
  split at h
  · simpa using h
  · cases h

namespace Compile

variable {options : CompileOptions}

/-- A string in code is put in other quotes with what stands in its own, and keeps its value just if
there is no backslash. The paths of modules are such strings, and their records require them so. -/
theorem strings_requoted (hparse : parse text options.dialect = .ok (.ok stream)) :
    (∀ i t, Coded stream.tokens i → stream.tokens[i + 1]? = some t → t.kind = .string →
      isString (t.text text) = true ∧
      value? (Text.quoted (Sheet.spelling text t)).toList = some (utf16 (unquoted (t.text text))) ∧
      (value? (Text.quoted (Sheet.spelling text t)).toList = value? (t.text text) ↔
        '\\' ∉ unquoted (t.text text))) ∧
    ∀ st path, Survey.path? text (Survey.tokensOf ⟨text, stream.tokens⟩ st) = some path →
      (∃ i t, Coded stream.tokens i ∧ stream.tokens[i + 1]? = some t ∧ t.kind = .string ∧
        path = Sheet.spelling text t) ∧
      ∀ use, (path, use) ∈ (surveyOf text stream options).uses →
        ∃ record, (path, record) ∈ (linkageOf text stream options).records ∧
          Linkage.Loads path use (linkageOf text stream options).helpers record := by
  refine ⟨fun i t hcoded ht hstring => ?_, fun st path hpath => ⟨?_, fun use huse => ?_⟩⟩
  · have hliteral := parse_isString hparse hcoded ht hstring
    exact ⟨hliteral, Sheet.value?_spelling hstring hliteral⟩
  · obtain ⟨i, a, t, ha, ht, hkind, hstring, hspelling⟩ := Survey.path?_eq_some hpath
    exact ⟨st.start + i, t, ⟨a, Survey.getElem?_of_tokensOf ha, hkind⟩,
      Survey.getElem?_of_tokensOf ht, hstring, hspelling⟩
  · exact (link_built text stream options).loads huse

/-- A name that keeps its value, and a path that does not. -/
theorem strings_requoted_both :
    let text := "import \x7b 'a b' as c \x7d from 'd\\x65';".toList
    ∃ stream t u, parse text {} = .ok (.ok stream) ∧
      stream.tokens[2]? = some t ∧ stream.tokens[7]? = some u ∧
      value? (Text.quoted (Sheet.spelling text t)).toList = value? (t.text text) ∧
      value? (Text.quoted (Sheet.spelling text u)).toList ≠ value? (u.text text) := by
  intro text
  obtain ⟨stream, hparse, hbrace, hword, ⟨t, ht, hstring, htext⟩, u, hu, hstring', htext'⟩ :
      ∃ stream, parse text {} = .ok (.ok stream) ∧ At stream.tokens 1 .braceL ∧
      At stream.tokens 6 .name ∧
      (∃ t ∈ stream.tokens[2]?, t.kind = .string ∧ t.text text = "'a b'".toList) ∧
      ∃ u ∈ stream.tokens[7]?, u.kind = .string ∧ u.text text = "'d\\x65'".toList :=
    exists_accepted (by decide +kernel)
  have hall := (strings_requoted (show parse text ({} : CompileOptions).dialect = _ from hparse)).1
  refine ⟨stream, t, u, hparse, ht, hu, ?_, fun hvalue => ?_⟩
  · refine (hall 1 t (.of_at hbrace (by decide)) ht hstring).2.2.mpr ?_
    rw [htext]
    decide
  · refine (hall 6 u (.of_at hword (by decide)) hu hstring').2.2.mp hvalue ?_
    rw [htext']
    decide

/-- An escape in the path of a module stands for itself afterwards. -/
theorem escaped_path_lost : ¬ ∀ (text : List Char) (options : CompileOptions)
    (stream : TokenStream) (i : Nat) (t : Token), parse text options.dialect = .ok (.ok stream) →
    Transform.imports ∈ options.transforms → At stream.tokens i .kwImport →
    stream.tokens[i + 1]? = some t → t.kind = .string →
    value? (Text.quoted (Sheet.spelling text t)).toList = value? (t.text text) := by
  intro h
  let text := "import 'a\\x62';".toList
  obtain ⟨stream, hparse, hword, t, ht, hstring, htext⟩ : ∃ stream,
      parse text {} = .ok (.ok stream) ∧ At stream.tokens 0 .kwImport ∧
      ∃ t ∈ stream.tokens[1]?, t.kind = .string ∧ t.text text = "'a\\x62'".toList :=
    exists_accepted (by decide +kernel)
  have hliteral : isString (t.text text) = true := by
    rw [htext]
    decide
  have hkept := h text { transforms := [.imports] } stream 0 t hparse (by decide) hword ht hstring
  refine (Sheet.value?_spelling hstring hliteral).2.mp hkept ?_
  rw [htext]
  decide

end Compile

end Downlevel
