import Downlevel.Proofs.Cursor.Advance

/-!
# Tokens that tile a text

The tokens of a snippet lie in it one after the other. Each starts and stops at a place of the text,
and only template pieces are empty. A template piece is never the last token: what ends it follows
directly and belongs to the same side, type or value, as the piece itself.
-/

namespace Downlevel

open Text (Place)

variable {i : Nat} {t u : Token}

/-- The token is a stretch of the text. -/
structure Token.Fits (text : List Char) (t : Token) : Prop where
  start : Place text t.span.start
  stop : Place text t.span.stop
  le : t.span.start ≤ t.span.stop
  notEnd : t.kind ≠ .eof
  wide : t.kind.Solid → t.span.start < t.span.stop
  spelled : ∀ word, t.kind.spelling = some word → t.text text = word

/-- The token `u` ends the template piece `t`. -/
structure Token.Ends (t u : Token) : Prop where
  start : u.span.start = t.span.stop
  isType : u.isType = t.isType
  kind : u.kind = .backQuote ∨ u.kind = .dollarBraceL

/-- The tokens lie in the text one after the other. -/
structure Tiled (text : List Char) (tokens : Array Token) : Prop where
  fits : ∀ {i : Nat} {t : Token}, tokens[i]? = some t → t.Fits text
  ordered : ∀ {i : Nat} {t u : Token}, tokens[i]? = some t → tokens[i + 1]? = some u →
    t.span.stop ≤ u.span.start
  pieces : ∀ {i : Nat} {t : Token}, tokens[i]? = some t → t.kind = .template →
    ∃ u, tokens[i + 1]? = some u ∧ t.Ends u

/-- Where the last token stops. -/
def endOf (tokens : Array Token) : Nat := (tokens.back?.map (·.span.stop)).getD 0

@[simp] theorem endOf_push (tokens : Array Token) (t : Token) :
    endOf (tokens.push t) = t.span.stop := by
  simp [endOf]

namespace Tiled

variable {text : List Char} {tokens : Array Token}

theorem empty (text : List Char) : Tiled text #[] := by
  constructor <;> intros <;> simp_all

theorem le_endOf (hi : tokens[i]? = some t) (hlast : i + 1 = tokens.size) :
    endOf tokens = t.span.stop := by
  have hback : tokens.back? = some t := by
    rw [Array.back?_eq_getElem?, ← hi]
    congr 1
    omega
  simp [endOf, hback]

/-- A token stops before every later one starts. -/
theorem stop_le_start (h : Tiled text tokens) {j : Nat} (ht : tokens[i]? = some t)
    (hu : tokens[j]? = some u) (hij : i < j) : t.span.stop ≤ u.span.start := by
  induction j generalizing u with
  | zero => omega
  | succ j ih =>
    rcases Nat.lt_succ_iff_lt_or_eq.mp hij with hlt | rfl
    · have hj : j < tokens.size := Nat.lt_of_succ_lt (Array.getElem?_eq_some_iff.mp hu).1
      have hv := Array.getElem?_eq_getElem hj
      exact Nat.le_trans (Nat.le_trans (ih hv hlt) (h.fits hv).le) (h.ordered hv hu)
    · exact h.ordered ht hu

theorem getElem?_push_cases (h : (tokens.push t)[i]? = some u) :
    tokens[i]? = some u ∧ i < tokens.size ∨ i = tokens.size ∧ u = t := by
  rw [Array.getElem?_push] at h
  split at h
  · rename_i hi
    exact .inr ⟨hi, (Option.some.inj h).symm⟩
  · obtain ⟨hlt, -⟩ := Array.getElem?_eq_some_iff.mp h
    exact .inl ⟨h, hlt⟩

theorem getElem?_push_of_some (h : tokens[i]? = some u) :
    (tokens.push t)[i]? = some u := by
  obtain ⟨hlt, -⟩ := Array.getElem?_eq_some_iff.mp h
  rw [Array.getElem?_push, if_neg (by omega), h]

section

variable (h : Tiled text tokens)
include h

theorem ordered_push (hend : endOf tokens ≤ t.span.start) {a b : Token}
    (ha : (tokens.push t)[i]? = some a) (hb : (tokens.push t)[i + 1]? = some b) :
    a.span.stop ≤ b.span.start := by
  rcases getElem?_push_cases hb with ⟨hb, hlt⟩ | ⟨hi, rfl⟩
  · rcases getElem?_push_cases ha with ⟨ha, -⟩ | ⟨hi, -⟩
    · exact h.ordered ha hb
    · omega
  · rcases getElem?_push_cases ha with ⟨ha, -⟩ | ⟨hi', -⟩
    · rw [← le_endOf ha hi]
      exact hend
    · omega

theorem push (hfits : t.Fits text) (hkind : t.kind ≠ .template)
    (hend : endOf tokens ≤ t.span.start) :
    Tiled text (tokens.push t) := by
  refine ⟨?_, h.ordered_push hend, ?_⟩
  · intro i u hu
    rcases getElem?_push_cases hu with ⟨hu, -⟩ | ⟨-, rfl⟩
    · exact h.fits hu
    · exact hfits
  · intro i u hu hpiece
    rcases getElem?_push_cases hu with ⟨hu, -⟩ | ⟨-, rfl⟩
    · obtain ⟨v, hv, hends⟩ := h.pieces hu hpiece
      exact ⟨v, getElem?_push_of_some hv, hends⟩
    · exact absurd hpiece hkind

theorem push_piece (ht : t.Fits text) (hu : u.Fits text) (hends : t.Ends u)
    (hend : endOf tokens ≤ t.span.start) :
    Tiled text ((tokens.push t).push u) := by
  have hsolid : u.kind ≠ .template := by
    rcases hends.kind with hkind | hkind <;> rw [hkind] <;> exact Kind.noConfusion
  refine ⟨?_, ?_, ?_⟩
  · intro i a ha
    rcases getElem?_push_cases ha with ⟨ha, -⟩ | ⟨-, rfl⟩
    · rcases getElem?_push_cases ha with ⟨ha, -⟩ | ⟨-, rfl⟩
      · exact h.fits ha
      · exact ht
    · exact hu
  · intro i a b ha hb
    rcases getElem?_push_cases hb with ⟨hb, hlt⟩ | ⟨hi, rfl⟩
    · rcases getElem?_push_cases ha with ⟨ha, -⟩ | ⟨hi, -⟩
      · exact h.ordered_push hend ha hb
      · omega
    · rcases getElem?_push_cases ha with ⟨ha, -⟩ | ⟨hi', -⟩
      · rw [← le_endOf ha hi, endOf_push]
        exact Nat.le_of_eq hends.start.symm
      · omega
  · intro i a ha hpiece
    rcases getElem?_push_cases ha with ⟨ha, -⟩ | ⟨-, rfl⟩
    · rcases getElem?_push_cases ha with ⟨ha, -⟩ | ⟨rfl, rfl⟩
      · obtain ⟨v, hv, hends'⟩ := h.pieces ha hpiece
        exact ⟨v, getElem?_push_of_some (getElem?_push_of_some hv), hends'⟩
      · exact ⟨u, by rw [Array.getElem?_push, if_pos (by simp)], hends⟩
    · exact absurd hpiece hsolid

/-- Tokens may change in what they mean, as long as their kinds and spans stay and template pieces
stay with what ends them. -/
theorem congr {tokens' : Array Token} (hget : ∀ {i : Nat} {t' : Token}, tokens'[i]? = some t' →
      ∃ t, tokens[i]? = some t ∧ t'.kind = t.kind ∧ t'.span = t.span)
    (hsize : tokens'.size = tokens.size)
    (htype : ∀ {i : Nat} {t' u' : Token}, tokens'[i]? = some t' → tokens'[i + 1]? = some u' →
      t'.kind = .template → u'.isType = t'.isType) :
    Tiled text tokens' := by
  refine ⟨?_, ?_, ?_⟩
  · intro i t' ht'
    obtain ⟨t, ht, hkind, hspan⟩ := hget ht'
    have hfits := h.fits ht
    constructor
    · rw [hspan]; exact hfits.start
    · rw [hspan]; exact hfits.stop
    · rw [hspan]; exact hfits.le
    · rw [hkind]; exact hfits.notEnd
    · rw [hkind, hspan]; exact hfits.wide
    · rw [hkind, Token.text, hspan]; exact hfits.spelled
  · intro i t' u' ht' hu'
    obtain ⟨t, ht, -, hspan⟩ := hget ht'
    obtain ⟨u, hu, -, hspan'⟩ := hget hu'
    rw [hspan, hspan']
    exact h.ordered ht hu
  · intro i t' ht' hpiece
    obtain ⟨t, ht, hkind, hspan⟩ := hget ht'
    obtain ⟨u, hu, hends⟩ := h.pieces ht (by rw [← hkind, hpiece])
    obtain ⟨hlt, -⟩ := Array.getElem?_eq_some_iff.mp hu
    have hu' : tokens'[i + 1]? = some (tokens'.getD (i + 1) u) := by
      simp [Array.getD, hsize, hlt]
    obtain ⟨v, hv, hkind', hspan'⟩ := hget hu'
    rw [hu] at hv
    obtain rfl := Option.some.inj hv
    refine ⟨_, hu', ⟨?_, htype ht' hu' hpiece, ?_⟩⟩
    · rw [hspan', hspan]; exact hends.start
    · rw [hkind']; exact hends.kind

end

end Tiled

end Downlevel
