import Downlevel.Edit.Sheet
import Downlevel.Name.Basic

/-! # The names of a snippet -/

namespace Downlevel

def NameSupply.ofSheet (s : Sheet) : NameSupply :=
  ⟨(s.tokens.toList.filter fun t => t.kind == .name || t.kind == .jsxName).map fun t =>
    String.ofList (t.text s.text)⟩

end Downlevel
