import Downlevel.Proofs.Token.Tiled

/-!
# Ranges of tokens

The token before a value or a declaration may know the index at which that ends. The ranges from
such tokens to their ends are in order if each ends with the last token that there is or before, and
none ends inside another (`Ruled`). An end that is noted where the tokens end keeps them so, if no
range from before reaches past the token that it is noted on (`Ruled.ending`).
-/

namespace Downlevel.Token

variable {tokens tokens' : Array Token} {i r index : Nat}

/-- The token at `i` knows that what it begins ends before index `r`. -/
def EndsAt (tokens : Array Token) (i r : Nat) : Prop :=
  ∃ t, tokens[i]? = some t ∧ t.rhsEnd = some r

/-- Two ranges are nested or disjoint, and none is empty or has no end. -/
structure Ruled (tokens : Array Token) : Prop where
  bounds : ∀ {i r : Nat}, EndsAt tokens i r → i < r ∧ r ≤ tokens.size
  nested : ∀ {i r j q : Nat}, EndsAt tokens i r → EndsAt tokens j q → i < j → r ≤ j ∨ q ≤ r

namespace Ruled

theorem empty : Ruled #[] := ⟨fun ⟨_, h, _⟩ => (by simp at h), fun ⟨_, h, _⟩ => (by simp at h)⟩

theorem mono (h : Ruled tokens) (hsize : tokens.size ≤ tokens'.size)
    (hends : ∀ {i : Nat} {t' : Token}, tokens'[i]? = some t' →
      t'.rhsEnd = none ∨ ∃ t, tokens[i]? = some t ∧ t.rhsEnd = t'.rhsEnd) : Ruled tokens' := by
  have hold : ∀ {i r : Nat}, EndsAt tokens' i r → EndsAt tokens i r := by
    rintro i r ⟨t', ht', hr⟩
    rcases hends ht' with hnone | ⟨t, ht, hsame⟩
    · cases hnone.symm.trans hr
    · exact ⟨t, ht, hsame.trans hr⟩
  refine ⟨fun he => ?_, fun he hf => h.nested (hold he) (hold hf)⟩
  exact (h.bounds (hold he)).imp id (Nat.le_trans · hsize)

theorem push (h : Ruled tokens) {t : Token} (ht : t.rhsEnd = none) : Ruled (tokens.push t) := by
  refine h.mono (by simp) fun hu => ?_
  rcases Tiled.getElem?_push_cases hu with ⟨hu, -⟩ | ⟨-, rfl⟩
  · exact .inr ⟨_, hu, rfl⟩
  · exact .inl ht

theorem ending (h : Ruled tokens) (hlt : index < tokens.size)
    (hcut : ∀ {i r : Nat}, EndsAt tokens i r → i < index → r ≤ index) :
    Ruled (tokens.modify index fun t => { t with rhsEnd := some tokens.size }) := by
  have hold : ∀ {i r : Nat},
      EndsAt (tokens.modify index fun t => { t with rhsEnd := some tokens.size }) i r →
      i = index ∧ r = tokens.size ∨ i ≠ index ∧ EndsAt tokens i r := by
    rintro i r ⟨t, ht, hr⟩
    rw [Array.getElem?_modify] at ht
    split at ht
    · rename_i heq
      obtain ⟨u, -, rfl⟩ := Option.map_eq_some_iff.mp ht
      exact .inl ⟨heq.symm, (Option.some.inj hr).symm⟩
    · rename_i hne
      exact .inr ⟨Ne.symm hne, t, ht, hr⟩
  constructor
  · intro i r he
    rw [Array.size_modify]
    rcases hold he with ⟨rfl, rfl⟩ | ⟨-, hi⟩
    · exact ⟨hlt, Nat.le_refl _⟩
    · exact h.bounds hi
  · intro i r j q he hf hij
    rcases hold he with ⟨rfl, rfl⟩ | ⟨-, hi⟩ <;> rcases hold hf with ⟨rfl, rfl⟩ | ⟨-, hj⟩
    · exact absurd hij (Nat.lt_irrefl _)
    · exact .inr (h.bounds hj).2
    · exact .inl (hcut hi hij)
    · exact h.nested hi hj hij

end Ruled

end Downlevel.Token
