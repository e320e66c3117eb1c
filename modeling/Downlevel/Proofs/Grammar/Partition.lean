import Downlevel.Proofs.Grammar.Heads

/-!
# How statements divide a snippet

The statements of a snippet stand side by side: they share out all tokens but the end of the input
(`Adjacent`). Where the value of one ends, and how the ranges lie that its tokens open, is said with
it (`statements_partition`).
-/

namespace Downlevel

open Grammar
open Token (At EndsAt Ruled)

/-- The statements follow one another from index `i` to index `j`, with one token each at least. -/
def Adjacent : List Statement → Nat → Nat → Prop
  | [], i, j => i = j
  | c :: cs, i, j => c.start = i ∧ i < c.stop ∧ Adjacent cs c.stop j

theorem Outline.adjacent {tokens : Array Token} {cs : List Statement} {i j : Nat}
    (h : Outline tokens cs i j) : Adjacent cs i j := by
  induction h with
  | nil => rfl
  | cons hlt _ _ _ ih => exact ⟨rfl, hlt, ih⟩

variable {text : List Char} {dialect : Dialect} {stream : TokenStream}

theorem parse_ruled (h : parse text dialect = .ok (.ok stream)) : Ruled stream.tokens := by
  obtain ⟨hread, -⟩ := parse_ok h
  obtain ⟨⟨statements, u⟩, hprogram, ⟨⟩⟩ := bind_eq_ok_iff.mp hread
  obtain ⟨⟨found, t⟩, htop, ⟨⟩⟩ := bind_eq_ok_iff.mp hprogram
  have := (grammar_sure (.of text dialect) (nestingBudget text.length)).keeping
  have hruled : Ruled t.tokens := Keeps.ruled htop .empty
  exact hruled.push rfl

theorem Grammar.Stated.expressionEnd_eq {ctx : Context} {p : Parser StatementKind}
    {tokens : Array Token} {c : Statement} {found : StatementKind} {s t : State}
    (h : Stated ctx p tokens c found s t) (hlt : c.start < c.stop) :
    c.expressionEnd =
      if c.kind = .expression ∧ At tokens (c.stop - 1) .semi then c.stop - 1 else c.stop := by
  have hlast : t.tokens.back?.any (·.kind == .semi) = true ↔ At tokens (c.stop - 1) .semi := by
    rw [Array.back?_eq_getElem?, ← h.stop, ← h.tokens _ (by omega), Option.any_eq_true]
    simp only [beq_iff_eq, At]
  rw [h.expressionEnd]
  congr 1
  rw [Bool.and_eq_true, beq_iff_eq, hlast]

/-- The statements of a snippet divide its tokens among them. The value of one ends before its last
token if it is an expression that a semicolon ends, and with it otherwise. The ranges that its
tokens open end with it or before, and any two ranges are nested or disjoint. -/
theorem statements_partition (h : parse text dialect = .ok (.ok stream)) :
    ∃ (body : Array Token) (last : Token), stream.tokens = body.push last ∧ last.kind = .eof ∧
      Adjacent stream.statements.toList 0 body.size ∧
      (∀ c ∈ stream.statements.toList,
        c.expressionEnd = (if c.kind = .expression ∧ At stream.tokens (c.stop - 1) .semi
          then c.stop - 1 else c.stop) ∧
        ∀ i r, c.start ≤ i → i < c.stop → EndsAt stream.tokens i r → i < r ∧ r ≤ c.stop) ∧
      ∀ i r j q, EndsAt stream.tokens i r → EndsAt stream.tokens j q → i < j → r ≤ j ∨ q ≤ r := by
  have houtline := parse_outlines h
  obtain ⟨body, last, htokens, hreads⟩ := parse_reads h
  refine ⟨body, last, htokens, hreads.ended, ?_, fun c hc => ⟨?_, fun i r _ => parse_ends h hc⟩,
    fun i r j q => (parse_ruled h).nested⟩
  · simpa [htokens] using houtline.adjacent
  · obtain ⟨n, found, s, t, hstated⟩ := parse_stated h c hc
    exact hstated.expressionEnd_eq (houtline.bounds.2 c hc).2.1

/-- One value inside another, before a semicolon that belongs to none. -/
theorem statements_partition_assigned :
    ∃ stream, parse "a = b = 1;\nexport default c".toList {} = .ok (.ok stream) ∧
      Adjacent stream.statements.toList 0 9 ∧
      ∃ c ∈ stream.statements.toList, c.stop = 6 ∧ c.expressionEnd = 5 ∧
        EndsAt stream.tokens 1 5 ∧ EndsAt stream.tokens 3 5 ∧ (5 ≤ 3 ∨ 5 ≤ 5) := by
  obtain ⟨stream, hparse, hsize, ⟨c, hc, hkind, hstop⟩, hsemi, ⟨t, ht, hr⟩, u, hu, hq⟩ :
      ∃ stream, parse "a = b = 1;\nexport default c".toList {} = .ok (.ok stream) ∧
      stream.tokens.size = 10 ∧
      (∃ c ∈ stream.statements[0]?, c.kind = .expression ∧ c.stop = 6) ∧
      At stream.tokens 5 .semi ∧ (∃ t ∈ stream.tokens[1]?, t.rhsEnd = some 5) ∧
      ∃ u ∈ stream.tokens[3]?, u.rhsEnd = some 5 :=
    exists_accepted (by decide +kernel)
  obtain ⟨body, last, htokens, -, hadjacent, hall, hnested⟩ := statements_partition hparse
  have hbody : body.size = 9 := by simpa [htokens] using hsize
  have hmem : c ∈ stream.statements.toList := Array.mem_toList_iff.mpr (Array.mem_of_getElem? hc)
  obtain ⟨hend, -⟩ := hall c hmem
  rw [if_pos ⟨hkind, by rwa [hstop]⟩, hstop] at hend
  exact ⟨stream, hparse, hbody ▸ hadjacent, c, hmem, hstop, hend, ⟨t, ht, hr⟩, ⟨u, hu, hq⟩,
    hnested 1 5 3 5 ⟨t, ht, hr⟩ ⟨u, hu, hq⟩ (by decide)⟩

end Downlevel
