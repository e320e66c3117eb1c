import Downlevel.Proofs.Compile.Yields
import Downlevel.Proofs.Grammar.Spelled
import Downlevel.Proofs.Lowering.Notes

/-!
# Children of elements

The parser notes on an element how many children it has, and the automatic runtime calls for
children by that note. Lowering writes the children later, after it has cleaned their text. The two
agree (`children_written_as_shaped`), unless a token stands for `class` in a decorated export:
brackets may then be out of step, and children get lost (`children_lost`), or line feeds between
attributes and children that are not scanned as they were read (`line_feed_lost`). What is written
for a child in braces may be more than one expression (`container_split`).
-/

namespace Downlevel

open Token (At Opens Sided)
open Phrase (Spans)

/-- The element that opens at `i` has children, or room for them, from one index up to another. -/
inductive Encloses (tokens : Array Token) (i : Nat) : Nat → Nat → Prop where
  | fragment {stop j : Nat} (hend : At tokens (i + 1) .jsxTagEnd)
      (hchildren : Spans tokens .children (i + 2) stop) (hclosing : ClosingTag tokens stop j) :
      Encloses tokens i (i + 2) stop
  | paired {n m stop j : Nat} (hname : TagName tokens (i + 1) n)
      (hprops : Props tokens false n m) (hend : At tokens m .jsxTagEnd)
      (hchildren : Spans tokens .children (m + 1) stop) (hclosing : ClosingTag tokens stop j) :
      Encloses tokens i (m + 1) stop

/-- The element that opens at `i` has no closing tag. -/
def SelfClosed (tokens : Array Token) (i : Nat) : Prop :=
  ∃ n m, TagName tokens (i + 1) n ∧ Spans tokens .properties n m ∧ At tokens m .slash ∧
    At tokens (m + 1) .jsxTagEnd

variable {tokens : Array Token} {i e : Nat} {shape : ElementShape}

/-- An element without a closing tag has no children; any other has what its shape says. -/
theorem Shaped.enclosed (h : Shaped tokens i shape e) (hlast : At tokens e .jsxTagEnd)
    (hside : Sided tokens false i) (hkey : shape ≠ .keyAfterSpread) :
    (SelfClosed tokens i ∧ shape = .noChildren) ∨
      ∃ first stop count, Encloses tokens i first stop ∧ Kids tokens false count first stop ∧
        Closing tokens stop e ∧ i < first ∧ shape = Grammar.elementShape false count := by
  have hunkeyed : ∀ {key : Bool} {count : Nat}, Grammar.elementShape key count ≠ .keyAfterSpread →
      key = false := by
    intro key count hne
    cases key with
    | false => rfl
    | true => exact absurd rfl hne
  cases h with
  | fragment hb hend hkids hclosing =>
    obtain rfl := hb.eq hside
    exact .inr ⟨_, _, _, .fragment hend hkids.spans (hclosing.closingTag hlast), hkids, hclosing,
      by omega, rfl⟩
  | empty hb hname hprops hslash =>
    obtain rfl := hunkeyed hkey
    exact .inl ⟨⟨_, _, hname, hprops.spans, hslash, hlast⟩, rfl⟩
  | paired hb hname hprops hend hkids hclosing =>
    obtain rfl := hb.eq hside
    obtain rfl := hunkeyed hkey
    have hlt := hname.lt
    have hle := hprops.spans.le
    exact .inr ⟨_, _, _, .paired hname hprops hend hkids.spans (hclosing.closingTag hlast),
      hkids, hclosing, by omega, rfl⟩

theorem Encloses.tagEnd {first stop : Nat} (h : Encloses tokens i first stop) :
    At tokens (first - 1) .jsxTagEnd := by
  cases h <;> assumption

/-! ## Calls of the automatic runtime -/

namespace Lowering

/-- How the entry for the children of an element begins behind a number of others. -/
def childrenEntry (count : Nat) : ElementShape → List Edit
  | .oneChild => inserted (if count > 0 then "," else "") ++ inserted " children: "
  | .staticChildren => inserted (if count > 0 then "," else "") ++ inserted " children: ["
  | _ => []

/-- The notes are those of a call for an element that opens at `i`. Its tag ends at `m`, where the
entry for its children begins. -/
def CallWritten (c : Scene) (shape : ElementShape) (i m : Nat) (notes : List Edit) : Prop :=
  ∃ runtime lead marks trim tag count lead' marks' rest,
    notes = .token i (.replace (runtime ++ "." ++ automaticFunction c.options.production
        (shape == .staticChildren) ++ "(")) lead marks trim ::
      (tag ++ (childrenEntry count shape ++ .token m .remove lead' marks' true :: rest)) ∧
    ∀ n ∈ tag, n.Between (i + 1) m

variable {c : Scene} {k : Knot} {d : Draft} {body : Array Token} {last : Token} {m : Nat}

theorem beginChildren_notes (shape : ElementShape) (count : Nat) :
    Notes c d (beginChildren (shape == .oneChild || shape == .staticChildren)
      (shape == .staticChildren) count) fun _ notes d' =>
      notes = childrenEntry count shape ∧ d'.editor.index = d.editor.index := by
  have hentry : ∀ code, Notes c d (do if count > 0 then append ","
                                      append code) fun _ notes d' =>
      notes = inserted (if count > 0 then "," else "") ++ inserted code ∧
        d'.editor.index = d.editor.index := by
    intro code
    split
    · refine (append_notes ",").bind ?_
      rintro _ _ d₁ ⟨rfl, hindex, -⟩
      exact (append_notes code).mono fun _ _ d₂ h => ⟨by rw [h.1], h.2.1.trans hindex⟩
    · exact (append_notes code).mono fun _ _ d₁ h => ⟨h.1, h.2.1⟩
  cases shape with
  | oneChild => exact hentry " children: "
  | staticChildren => exact hentry " children: ["
  | noChildren | keyAfterSpread => exact .pure ⟨rfl, rfl⟩

/-- The function that is called and the entry for children go by the shape. -/
theorem automaticElement_notes [k.Following c] [c.Lowers] (hwhole : c.sheet.Whole body last)
    (hlt : d.editor.index < body.size) (hend : At c.sheet.tokens m .jsxTagEnd)
    (htag : ∀ runtime, Passes c (d.editor.index + 1) (automaticTag k runtime) m) :
    Notes c d (automaticElement k shape) fun _ notes _ =>
      CallWritten c shape d.editor.index m notes := by
  have hm := hwhole.lt_of_at hend (by decide)
  refine .look c rfl (.look (d.editor.current c.sheet) rfl ?_)
  refine .still fun runtime d₁ heq => ?_
  rw [← heq] at hlt htag ⊢
  refine (edit_notes hwhole hlt (.replace _) false).bind ?_
  rintro _ _ d₂ ⟨rfl, hindex, -⟩
  have htag : Notes c d₂ (automaticTag k runtime) fun _ notes d₃ =>
      d₃.editor.index = m ∧ ∀ n ∈ notes, n.Between (d₁.editor.index + 1) m := by
    intro a d₃ hrun
    obtain ⟨notes, hnotes, hbetween, -⟩ := Notes.of_follows a d₃ hrun
    obtain ⟨_, _, hrun', -, hm⟩ := htag runtime d₂ hindex
    cases hrun.symm.trans hrun'
    exact ⟨notes, hnotes, hm, hindex ▸ hm ▸ hbetween⟩
  refine htag.bind ?_
  rintro ⟨count, key⟩ tag d₃ ⟨rfl, hbetween⟩
  refine .look (c.sheet.hasKinds d₃.editor.index [.slash, .jsxTagEnd]) rfl ?_
  rw [if_neg (not_slash_of_tagEnd hend)]
  refine .look () (expectTagEnd_eq hend) ((beginChildren_notes shape count).bind ?_)
  rintro _ _ d₄ ⟨rfl, hindex'⟩
  refine (edit_notes hwhole (by omega) .remove true).bind ?_
  rintro _ _ d₅ ⟨rfl, -⟩
  refine Notes.of_follows.mono fun _ rest _ _ => ?_
  exact ⟨runtime, _, _, _, tag, count, _, _, rest, by rw [← hindex']; rfl, hbetween⟩

theorem element_eq_automatic {t : Token} (ht : c.sheet.tokens[d.editor.index]? = some t)
    (hshape : t.shape = some shape) (hruntime : c.options.jsxRuntime = .automatic)
    (hkey : shape ≠ .keyAfterSpread) : element k c d = automaticElement k shape c d := by
  unfold element
  rw [run_look c rfl, run_look (d.editor.current c.sheet) rfl, Editor.current_of ht, hshape]
  simp [hruntime, hkey]

end Lowering

namespace Compile

open Lowering (Draft Written written children nested element automaticElement automaticCall
  CallWritten balanced)

variable {text : List Char} {options : CompileOptions} {stream : TokenStream} {i : Nat}

/-- The text between tags that the parser counts as a child is not cleaned away. -/
theorem prepare_worded (hparse : parse text options.dialect = .ok (.ok stream)) :
    (prepare text stream options).1.Worded := by
  obtain ⟨f, hf, hsheet⟩ := prepare_tokens text stream options
  rintro i ⟨t, ht, hkind⟩
  rw [hsheet] at ht ⊢
  obtain ⟨u, hu, rfl⟩ := Marking.getElem? ht
  rw [hf.kind] at hkind
  have htext := (parse_spells hparse (Array.mem_of_getElem? hu)).text hkind
  have hat : Sheet.textAt ⟨text, stream.tokens.mapIdx f⟩ i = String.ofList (u.text text) := by
    simp [Sheet.textAt, hu, Token.text, hf.span]
  rw [hat, String.toList_ofList]
  exact Markup.clean_ne_nil htext.1 htext.2

section Elements

variable (hparse : parse text options.dialect = .ok (.ok stream))
  (hregular : Regular text stream options) (hjsx : Transform.jsx ∈ options.transforms)
  (hruntime : options.jsxRuntime ≠ .preserve)
include hparse hregular hjsx hruntime

/-- Elements are lowered, and what is nested in one is lowered up to its end. -/
theorem prepare_through {x y lo hi n : Nat}
    (helement : Spans stream.tokens .element x (y + 1)) (hlo : x < lo) (hhi : hi ≤ y)
    (hn : 2 * (hi - lo) ≤ n) :
    ∃ body last, (prepare text stream options).1.sheet.Whole body last ∧
      (prepare text stream options).1.Noted ∧
      (nested n).Through (prepare text stream options).1 lo hi := by
  obtain ⟨f, hf, hmarked⟩ := prepare_marked text stream options
  obtain ⟨body, last, hwhole, hc⟩ := prepare_ordered hparse hregular
  have hpragmas : (prepare text stream options).1.pragmas.isSome = true := by
    simp [prepare, CompileOptions.has, hjsx, hruntime]
  have helement := helement.mono (hf.tokens_extend stream.tokens)
  rw [← hmarked] at helement
  have hquiet := hc.quiet_element hpragmas helement
    (hwhole.lt_of_at helement.element_tail (by decide))
  exact ⟨body, last, hwhole, ⟨hc.faithful hpragmas, hpragmas⟩,
    Lowering.nested_through hwhole hc (hi - lo) hn (by omega)
      fun z hle hlt => hquiet z (by omega) (by omega)⟩

/-- The automatic runtime lowers a tag up to its end. -/
theorem tag_passes {first stop e n : Nat} (helement : Spans stream.tokens .element i (e + 1))
    (h : Encloses stream.tokens i first stop) (hfirst : first ≤ e) (hn : 2 * first ≤ n)
    (runtime : String) : Lowering.Passes (prepare text stream options).1 (i + 1)
      (Lowering.automaticTag (nested n) runtime) (first - 1) := by
  obtain ⟨f, hf, hmarked⟩ := prepare_marked text stream options
  have hext := hf.tokens_extend stream.tokens
  rw [← hmarked] at hext
  cases h with
  | fragment hend => exact Lowering.fragmentTag_passes (hend.mono hext) runtime
  | @paired _ m _ _ hname hprops hend =>
    have hprops' := hprops.mono hext fun y _ _ hy => hmarked ▸ hf.sided_iff.mpr hy
    obtain ⟨_, _, hwhole, hnoted, hthrough⟩ := prepare_through (n := n) hparse hregular hjsx
      hruntime helement (Nat.lt_succ_self i) (by omega : m ≤ e) (by omega)
    exact Lowering.automaticTag_passes hwhole hnoted hthrough (hname.mono hext) hprops'
      (.inr (hend.mono hext)) (Nat.le_refl _) (Nat.le_refl _) runtime

end Elements

/-- What is written for the children of an element is what its shape says, and so is what the
automatic runtime calls for: it has an entry for children when there are any, and an array unless
there is just one. -/
theorem children_written_as_shaped (hparse : parse text options.dialect = .ok (.ok stream))
    (hregular : Regular text stream options) (hjsx : Transform.jsx ∈ options.transforms)
    (hruntime : options.jsxRuntime ≠ .preserve) {t : Token}
    (ht : stream.tokens[i]? = some t) (htype : t.isType = false) {shape : ElementShape}
    (hshape : t.shape = some shape) (hkey : shape ≠ .keyAfterSpread) :
    (SelfClosed stream.tokens i ∧ shape = .noChildren) ∨
      ∃ first stop, Encloses stream.tokens i first stop ∧
        ∀ (n : Nat) (comma : Bool) (d : Draft), 2 * (stop - first) ≤ n →
          d.editor.index = first → ∃ ws d',
            written (nested n) comma (prepare text stream options).1 d = .ok (ws, d') ∧
            children (nested n) comma (prepare text stream options).1 d = .ok ((), d') ∧
            d'.editor.index = stop ∧ shape = Written.shape ws ∧
            automaticElement (nested n) shape =
              automaticCall (nested n) (!ws.isEmpty) (ws != [] && ws != [.child]) ∧
            (options.jsxRuntime = .automatic → 2 * first ≤ n → ∀ d d' : Draft,
              d.editor.index = i →
              element (nested n) (prepare text stream options).1 d = .ok ((), d') → ∃ notes,
                d'.editor.log.toList = d.editor.log.toList ++ notes ∧
                CallWritten (prepare text stream options).1 shape i (first - 1) notes) := by
  obtain ⟨f, hf, hmarked⟩ := prepare_marked text stream options
  have hundecorated := hregular.plain (.inl ⟨hjsx, hruntime⟩)
  obtain ⟨hstart, e, hshaped, hlast⟩ := parse_formed hparse hundecorated ht hshape
  have hside : Sided stream.tokens false i := ⟨t, ht, htype⟩
  rcases hshaped.enclosed hlast hside hkey with hempty |
    ⟨first, stop, count, hencloses, hkids, hclosing, hlt, rfl⟩
  · exact .inl hempty
  · refine .inr ⟨first, stop, hencloses, fun n comma d hn hd => ?_⟩
    have hext := hf.tokens_extend stream.tokens
    have hopens : Token.Opens stream.tokens i :=
      ⟨t, ht, hstart.kind_eq ⟨t, ht, rfl⟩ |>.symm, by rw [hshape]; rfl⟩
    have hkids' := hkids.mono hext fun y _ _ hy => hf.sided_iff.mpr hy
    have hclosing' := hclosing.mono hext
    rw [← hmarked] at hkids' hclosing'
    have hstop := hclosing.lt
    have hle := hkids.spans.le
    obtain ⟨body, last, hwhole, hnoted, hthrough⟩ := prepare_through hparse hregular hjsx hruntime
      (hshaped.spans hopens hlast) (by omega : i < first) (by omega : stop ≤ e) hn
    obtain ⟨ws, d', hrun, -, hindex, hcounts⟩ := Lowering.written_lands hwhole hnoted hthrough
      hkids' (Nat.le_refl _) (Nat.le_refl _) hclosing'.start hclosing'.slash comma d hd
    refine ⟨ws, d', hrun, ?_, hindex, hcounts (prepare_worded hparse), ?_, ?_⟩
    · rw [Lowering.children_eq, Lowering.run_bind hrun]
      rfl
    · rw [hcounts (prepare_worded hparse)]
      exact Lowering.automaticElement_shape (nested n) ws
    · rintro hautomatic hn d d'' rfl hrun
      have : (prepare text stream options).1.Lowers := ⟨hnoted.lowers⟩
      have hmark : (prepare text stream options).1.sheet.tokens[d.editor.index]? =
          some (f d.editor.index t) := by
        rw [hmarked]; simp [ht]
      rw [Lowering.element_eq_automatic hmark ((hf.shape _ _).trans hshape) hautomatic hkey] at hrun
      exact Lowering.automaticElement_notes hwhole
        (hwhole.lt_of_at (hmarked ▸ hstart.mono hext) (by decide))
        (hmarked ▸ hencloses.tagEnd.mono hext) (tag_passes hparse hregular hjsx hruntime
          (hshaped.spans hopens hlast) hencloses (by omega) hn) _ _ hrun

/-- One child in braces that spreads, with a hole and line breaks around it. -/
theorem children_written_as_shaped_spread :
    let text := "<a b='1'>\n  \x7b\x7d\x7b...c\x7d\n</a>".toList
    let options : CompileOptions := { transforms := [.jsx], jsxRuntime := .automatic }
    ∃ stream first stop, parse text options.dialect = .ok (.ok stream) ∧
      Encloses stream.tokens 0 first stop ∧
      ∀ (n : Nat) (comma : Bool) (d : Draft), 2 * (stop - first) ≤ n →
        d.editor.index = first → ∃ ws d',
          written (nested n) comma (prepare text stream options).1 d = .ok (ws, d') ∧
          ElementShape.staticChildren = Written.shape ws := by
  intro text options
  obtain ⟨stream, hparse, hplain, t, ht, htype, hshape⟩ : ∃ stream,
      parse text options.dialect = .ok (.ok stream) ∧ Undecorated stream.tokens ∧
        ∃ t ∈ stream.tokens[0]?, t.isType = false ∧ t.shape = some .staticChildren :=
    exists_accepted (by decide +kernel)
  rcases children_written_as_shaped hparse (.of_untyped (by decide) fun _ _ => hplain) (by decide)
    (by decide) ht htype hshape (by decide) with ⟨-, hnone⟩ | ⟨first, stop, hencloses, hall⟩
  · cases hnone
  · refine ⟨stream, first, stop, hparse, hencloses, fun n comma d hn hd => ?_⟩
    obtain ⟨ws, d', hrun, -, -, hws, -⟩ := hall n comma d hn hd
    exact ⟨ws, d', hrun, hws⟩

/-- Children may get lost: where braces stand for `class` in decorated exports, all of the children
of a fragment are written as one. -/
theorem children_lost : ¬ ∀ (text : List Char) (options : CompileOptions) (stream : TokenStream),
    parse text options.dialect = .ok (.ok stream) → Transform.jsx ∈ options.transforms →
    options.jsxRuntime ≠ .preserve → ∀ (i : Nat) (t : Token) (shape : ElementShape),
    stream.tokens[i]? = some t → t.isType = false → t.shape = some shape →
    shape ≠ .keyAfterSpread → At stream.tokens (i + 1) .jsxTagEnd →
    ∀ (d d' : Draft) (ws : List Written), d.editor.index = i + 2 →
      written (nested (2 * stream.tokens.size)) true (prepare text stream options).1 d =
        .ok (ws, d') → shape = Written.shape ws := by
  intro h
  let text := ("<>\x7b()=>\x7bexport default@y \x7b\x7b\x7d\x7d\x7dtext" ++
    "\x7b()=>\x7bexport default@y \x7d\x7b\x7d\x7d\x7d</>").toList
  let options : CompileOptions := { transforms := [.jsx] }
  let start (stream : TokenStream) : Draft :=
    { (prepare text stream options).2 with editor := { index := 2 } }
  obtain ⟨stream, hparse, ⟨t, ht, htype, hshape⟩, hend, ⟨ws, d'⟩, hrun, rfl⟩ : ∃ stream,
      parse text options.dialect = .ok (.ok stream) ∧
      (∃ t ∈ stream.tokens[0]?, t.isType = false ∧ t.shape = some .staticChildren) ∧
      At stream.tokens 1 .jsxTagEnd ∧
      ∃ p ∈ (written (nested (2 * stream.tokens.size)) true (prepare text stream options).1
        (start stream)).toOption, p.1 = [.child] :=
    exists_accepted (by decide +kernel)
  have hshaped := h text options stream hparse (by decide) (by decide) 0 t _ ht htype hshape
    (by decide) hend (start stream) d' [.child] rfl (toOption_eq_some_iff.mp hrun)
  cases hshaped

/-- A line feed may be lost. -/
theorem line_feed_lost : ¬ ∀ (text : List Char) (options : CompileOptions) (out : Compiled),
    options.transforms = [.jsx] → options.jsxRuntime = .classic → '\n' ∉ options.jsxPragma.toList →
    '\n' ∉ options.jsxFragmentPragma.toList → options.objectAssign = none →
    compile text options = .ok out → out.code.toList.count '\n' = text.count '\n' := by
  intro h
  obtain ⟨out, hcompile, hlost⟩ : ∃ out, compile
      ("<><D v=<E a=\x7b()=>\x7bexport default@y \x7b\x7b\x7d\x7d\x7d /> x y " ++
        "b=\x7bfunction()\x7bexport default@y \x7d\x7b\x7d\x7d / 1\x7d />\n<G /></>").toList
      { transforms := [.jsx] } = .ok out ∧ ¬ out.code.toList.count '\n' = 1 :=
    exists_compiled (by decide +kernel)
  exact hlost (h _ _ out rfl rfl (by decide) (by decide) rfl hcompile)

/-! ## Children in braces -/

/-- How many commas stand in no brackets and no quotes, where so many brackets are open before and
one of the quotes may be. -/
def bareCommas : Option Char → Nat → List Char → Nat
  | _, _, [] => 0
  | some quote, depth, '\\' :: _ :: cs => bareCommas (some quote) depth cs
  | some quote, depth, c :: cs => bareCommas (if c == quote then none else some quote) depth cs
  | none, depth, c :: cs =>
    if c ∈ ['"', '\'', '\x60'] then bareCommas (some c) depth cs
    else if c ∈ ['(', '[', '\x7b'] then bareCommas none (depth + 1) cs
    else if c ∈ [')', ']', '\x7d'] then bareCommas none (depth - 1) cs
    else (if c == ',' && depth == 0 then 1 else 0) + bareCommas none depth cs

instance decidableOpens (tokens : Array Token) (i : Nat) : Decidable (Opens tokens i) :=
  decidable_of_iff (tokens[i]?.any fun t => t.kind == .jsxTagStart && t.shape.isSome)
    (by simp [Opens, Option.any_eq_true])

/-- Code in braces may become more than one argument: a comma in it may stand in no brackets. -/
theorem container_split : ¬ ∀ (text : List Char) (options : CompileOptions) (stream : TokenStream)
    (out : Compiled), Transform.jsx ∈ options.transforms → options.jsxRuntime ≠ .preserve →
    parse text options.dialect = .ok (.ok stream) → compile text options = .ok out →
    ∀ x first stop i m : Nat, Opens stream.tokens x → Encloses stream.tokens x first stop →
    first ≤ i → m < stop → Spans stream.tokens .child i (m + 1) → At stream.tokens i .braceL →
    ¬ At stream.tokens (i + 1) .ellipsis → ∀ (n : Nat) (d d' : Draft) (notes : List Edit),
    d.editor.index = i + 1 → balanced (nested n) (prepare text stream options).1 d = .ok ((), d') →
    d'.editor.log.toList = d.editor.log.toList ++ notes →
    bareCommas none 0
      (Edit.renderAll (prepare text stream options).1.sheet notes).code.toList = 0 := by
  intro h
  let text := "<a>\x7bb, c\x7d</a>".toList
  let options : CompileOptions := { transforms := [.jsx] }
  let start (stream : TokenStream) : Draft :=
    { (prepare text stream options).2 with editor := { index := 4 } }
  obtain ⟨stream, d, out, hyields, hopens, hkinds, ⟨⟨⟩, d'⟩, hrun, hcommas⟩ : ∃ stream d out,
      Yields text options stream d out ∧ Opens stream.tokens 0 ∧
      stream.tokens.map (·.kind) = #[.jsxTagStart, .jsxName, .jsxTagEnd, .braceL, .name, .comma,
        .name, .braceR, .jsxTagStart, .slash, .jsxName, .jsxTagEnd, .eof] ∧
      ∃ q ∈ (balanced (nested 9) (prepare text stream options).1 (start stream)).toOption,
        bareCommas none 0 (Edit.renderAll (prepare text stream options).1.sheet
          q.2.editor.log.toList).code.toList = 1 :=
    exists_yielded (by decide +kernel)
  have hat := @Token.at_of_kinds _ _ hkinds
  have hinner : Spans stream.tokens .code 4 7 :=
    .plain (hat rfl) (by decide) <| .plain (hat rfl) (by decide) <| .single (hat rfl) (by decide)
  have hchild : Spans stream.tokens .child 3 8 :=
    .bracedChild (hat rfl) hinner (hat rfl)
  have hencloses : Encloses stream.tokens 0 3 8 :=
    .paired ⟨hat rfl, .nil 2⟩ (.nil 2) (hat rfl)
      (.consChild hchild (.noChildren 8)) (.named (hat rfl) (hat rfl) ⟨hat rfl, .nil 11⟩ (hat rfl))
  have hspread : ¬ At stream.tokens 4 .ellipsis := fun hellipsis =>
    absurd (hellipsis.kind_eq (hat rfl)) (by decide)
  have hnone := h text options stream out (by decide) (by decide) hyields.parsed hyields.compile
    0 3 8 3 7 hopens hencloses (by decide) (by decide) hchild (hat rfl) hspread
    9 (start stream) d' d'.editor.log.toList rfl (toOption_eq_some_iff.mp hrun) rfl
  rw [hcommas] at hnone
  cases hnone

end Compile

end Downlevel
