import Downlevel.Lowering.Enumeration
import Downlevel.Proofs.Lowering.Lands
import Downlevel.Proofs.Token.Trail

/-!
# Enumerations are lowered up to their end

Lowering takes any word `enum` before a declared name for the start of an enumeration. Where there
is one (`Enumeration`), it is passed as a whole if the walk gets through its initializers
(`enumeration_passes`).
-/

namespace Downlevel

open Token (At Sided)
open Phrase (Spans)

/-- After a member comes a comma, or the end of the enumeration. -/
def Separated (tokens : Array Token) (i j : Nat) : Prop :=
  (At tokens i .comma ∧ j = i + 1) ∨ (At tokens i .braceR ∧ j = i)

/-- What follows the name of a member at `i`, up to `r`: nothing, a string, or an initializer, the
end of which is noted on the `=`. -/
inductive Initialized (tokens : Array Token) (i : Nat) : Nat → Prop where
  | counted : Initialized tokens i (i + 1)
  | string (heq : At tokens (i + 1) .eq) (hvalue : At tokens (i + 2) .string) :
      Initialized tokens i (i + 3)
  | noted {r : Nat} {t : Token} (heq : tokens[i + 1]? = some t) (hkind : t.kind = .eq)
      (hstop : t.rhsEnd = some r) (hsite : Site tokens (i + 2) r)
      (hno : At tokens (i + 2) .string → ∀ j, ¬ Separated tokens (i + 3) j) : Initialized tokens i r

/-- The members of an enumeration up to the closing brace, and the indices of their names. -/
inductive Members (tokens : Array Token) : Nat → List Nat → Nat → Prop where
  | nil {i : Nat} (hc : At tokens i .braceR) : Members tokens i [] i
  | cons {i r j m : Nat} {members : List Nat} {k : Kind} (hname : At tokens i k) (hk : k.Plain)
      (hvalue : Initialized tokens i r) (hafter : Separated tokens r j)
      (hrest : Members tokens j members m) : Members tokens i (i :: members) m

/-- The word `enum` at `w`, a name, and members in braces that close at `m`. -/
structure Listing (tokens : Array Token) (w : Nat) (members : List Nat) (m : Nat) : Prop where
  word : At tokens w .name
  name : At tokens (w + 1) .name
  opened : At tokens (w + 2) .braceL
  side : Sided tokens false (w + 2)
  members : Members tokens (w + 3) members m

/-- The tokens from `i` up to `j` are an enumeration. -/
inductive Enumeration (tokens : Array Token) : Nat → Nat → Prop where
  | plain {i m : Nat} {members : List Nat} (h : Listing tokens i members m) :
      Enumeration tokens i (m + 1)
  | constant {i m : Nat} {members : List Nat} (hconst : At tokens i .kwConst)
      (h : Listing tokens (i + 1) members m) : Enumeration tokens i (m + 1)

variable {tokens : Array Token} {i j m r : Nat} {members : List Nat} {w : Nat}

/-! ## Enumerations as code -/

theorem Separated.code (h : Separated tokens i j) : Spans tokens .code i j := by
  rcases h with ⟨hcomma, rfl⟩ | ⟨-, rfl⟩
  · exact .single hcomma (by decide)
  · exact .nil _

theorem Separated.kind (h : Separated tokens i j) :
    ∃ k, At tokens i k ∧ k ∈ [Kind.comma, .braceR] :=
  h.elim (fun h => ⟨_, h.1, by decide⟩) fun h => ⟨_, h.1, by decide⟩

theorem Initialized.code (h : Initialized tokens i r) : Spans tokens .code (i + 1) r := by
  cases h with
  | counted => exact .nil _
  | string heq hvalue => exact .plain heq (by decide) (.single hvalue (by decide))
  | noted heq hkind _ hsite _ => exact .plain ⟨_, heq, hkind⟩ (by decide) hsite.code

section

variable (h : Members tokens i members m)
include h

theorem Members.close : At tokens m .braceR := by
  induction h with
  | nil hc => exact hc
  | cons _ _ _ _ _ ih => exact ih

theorem Members.code : Spans tokens .code i m := by
  induction h with
  | nil => exact .nil _
  | cons hname hk hvalue hafter _ ih =>
    exact .plain hname hk (hvalue.code.append (hafter.code.append ih))

theorem Members.ascending : members.Pairwise (· < ·) ∧ ∀ x ∈ members, i ≤ x := by
  induction h with
  | nil => exact ⟨.nil, nofun⟩
  | cons _ _ hvalue hafter _ ih =>
    have hle := hvalue.code.le
    have hle' := hafter.code.le
    refine ⟨List.pairwise_cons.mpr ⟨fun x hx => ?_, ih.1⟩,
      List.forall_mem_cons.mpr ⟨Nat.le_refl _, fun x hx => ?_⟩⟩
    all_goals
      have := ih.2 x hx
      omega

end

theorem Listing.code (h : Listing tokens w members m) : Spans tokens .code w (m + 1) :=
  .plain h.word (by decide) (.plain h.name (by decide)
    (.group .brace h.opened h.members.code h.members.close (.nil _)))

theorem Enumeration.code (h : Enumeration tokens i j) : Spans tokens .code i j := by
  cases h with
  | plain h => exact h.code
  | constant hconst h => exact .plain hconst (by decide) h.code

theorem Enumeration.lt (h : Enumeration tokens i j) : i < j := by
  cases h with
  | plain h => have := h.members.code.le; omega
  | constant _ h => have := h.members.code.le; omega

theorem Enumeration.head (h : Enumeration tokens i j) :
    At tokens i .name ∨ At tokens i .kwConst := by
  cases h with
  | plain h => exact .inl h.word
  | constant hconst => exact .inr hconst

section

variable {lo hi : Nat} (hplain : Undecorated tokens) (hsite : Site tokens lo hi)
include hplain hsite

theorem Listing.lt_of_site (h : Listing tokens w members m) (hle : lo ≤ w) (hlt : w < hi) :
    m < hi := by
  have hne : hi ≠ w + 1 := fun heq => hsite.not_at (by decide) (heq ▸ h.name)
  have hne' : hi ≠ w + 2 := fun heq => hsite.not_at (by decide) (heq ▸ h.opened)
  obtain ⟨m', hcode, hc, hlt'⟩ := hsite.code.brace_within hplain (by omega) (by omega) h.opened
  -- the braces close at one place only
  have hle := hcode.le_of_closed hplain hc (by decide) (Nat.le_refl _) hcode.le h.members.code
  omega

/-- An enumeration that begins in a stretch of code ends in it. -/
theorem Enumeration.le_of_site (h : Enumeration tokens i j) (hle : lo ≤ i) (hlt : i < hi) :
    j ≤ hi := by
  cases h with
  | plain h => exact h.lt_of_site hplain hsite hle hlt
  | constant hconst h =>
    have hne : hi ≠ i + 1 := fun heq => hsite.not_at (by decide) (heq ▸ h.word)
    exact h.lt_of_site hplain hsite (by omega) (by omega)

end

theorem Listing.eq {m' : Nat} {members' : List Nat} (hplain : Undecorated tokens)
    (h : Listing tokens w members m) (h' : Listing tokens w members' m') : m = m' := by
  have hcode := h.members.code
  have hcode' := h'.members.code
  have hle := hcode.le_of_closed hplain h.members.close (by decide) (Nat.le_refl _) hcode.le hcode'
  have hle' :=
    hcode'.le_of_closed hplain h'.members.close (by decide) (Nat.le_refl _) hcode'.le hcode
  omega

/-- An enumeration ends at one place. -/
theorem Enumeration.listing (h : Enumeration tokens i j) : ∃ w members m,
    (At tokens i .kwConst ∧ w = i + 1 ∨ ¬ At tokens i .kwConst ∧ w = i) ∧
      Listing tokens w members m ∧ j = m + 1 := by
  cases h with
  | plain h =>
    exact ⟨_, _, _, .inr ⟨fun hconst => Kind.noConfusion (h.word.kind_eq hconst), rfl⟩, h, rfl⟩
  | constant hconst h => exact ⟨_, _, _, .inl ⟨hconst, rfl⟩, h, rfl⟩

theorem Enumeration.eq {j' : Nat} (hplain : Undecorated tokens) (h : Enumeration tokens i j)
    (h' : Enumeration tokens i j') : j = j' := by
  cases h with
  | plain h =>
    cases h' with
    | plain h' => rw [h.eq hplain h']
    | constant hconst => cases h.word.kind_eq hconst
  | constant hconst h =>
    cases h' with
    | plain h' => cases h'.word.kind_eq hconst
    | constant _ h' => rw [h.eq hplain h']

/-! ## Lowering -/

namespace Lowering

variable {c : Scene} {body : Array Token} {last : Token}

/-- Of what follows a name, a separator is no `=`. -/
theorem hasKinds_separated {s : Sheet} (h : Separated s.tokens i j) (ks : List Kind) :
    s.hasKinds i (.eq :: ks) = false := by
  obtain ⟨kind, hkind, hmem⟩ := h.kind
  refine Bool.eq_false_iff.mpr fun hsees => ?_
  rw [hkind.kind_eq (Sheet.hasKinds_cons_iff.mp hsees).1] at hmem
  exact absurd hmem (by decide)

/-- A string is all that a member is initialized with if a separator follows it. -/
theorem hasKinds_string {s : Sheet} (heq : At s.tokens i .eq) :
    (s.hasKinds i [.eq, .string, .comma] || s.hasKinds i [.eq, .string, .braceR]) = true ↔
      At s.tokens (i + 1) .string ∧ ∃ j, Separated s.tokens (i + 2) j := by
  simp only [Bool.or_eq_true, Sheet.hasKinds_cons_iff, Sheet.hasKinds_nil, and_true, Separated, heq,
    true_and, exists_or, exists_and_left, exists_eq, ← and_or_left]

section

variable (hwhole : c.sheet.Whole body last)
include hwhole

theorem memberName_passes {β : Type} {g : MemberName → Lowering β} (hi : i < body.size)
    (hg : ∀ m, Passes c (i + 1) (g m) j) :
    Passes c i (memberName >>= fun m => blank >>= fun _ => g m) j := by
  have hname : Passes c i memberName i := by
    refine .currentText fun text => .current (hwhole.token?_of_lt hi) ?_
    split <;> exact .pure rfl
  exact hname.bind fun m => (blank_passes hwhole hi).bind fun _ => hg m

theorem stringMember_passes (heq : At c.sheet.tokens i .eq)
    (hvalue : At c.sheet.tokens (i + 1) .string) (enumeration : String) (m : MemberName) :
    Passes c i (stringMember enumeration m) (i + 2) := by
  have hcopies : ∀ {p : Lowering Unit}, Passes c (i + 2) p (i + 2) →
      Passes c i (do copy; copy; p) (i + 2) := fun hp =>
    (copy_passes hwhole (hwhole.lt_of_at heq (by decide))).bind fun _ =>
      (copy_passes hwhole (hwhole.lt_of_at hvalue (by decide))).bind fun _ => hp
  unfold stringMember
  split <;> exact (append_passes _).bind fun _ => hcopies (append_passes _)

omit hwhole in
theorem countedMember_passes (enumeration : String) (m : MemberName) (previous : Option String) :
    Passes c i (countedMember enumeration m previous) i := by
  unfold countedMember
  extract_lets value
  split
  · exact (append_passes _).bind fun _ => append_passes _
  · exact append_passes _

variable {k : Knot}

theorem initializedMember_passes {t : Token} (ht : c.sheet.tokens[i]? = some t)
    (hkind : t.kind = .eq) (hstop : t.rhsEnd = some r)
    (hinit : Passes c (i + 1) (upTo r k.token) r) (enumeration : String) (m : MemberName) :
    Passes c i (initializedMember k enumeration m) r := by
  have hi := hwhole.lt_of_at ⟨t, ht, hkind⟩ (by decide)
  refine .current ht ?_
  rw [hstop]
  dsimp only
  split <;> exact (append_passes _).bind fun _ => (copy_passes hwhole hi).bind fun _ =>
    hinit.bind fun _ => append_passes _

theorem separated_passes {β : Type} {b : β} (h : Separated c.sheet.tokens i j) :
    Passes c i (do if ← seeing [.comma] then remove
                   return b) j := by
  refine .seeing ?_
  rcases h with ⟨hcomma, rfl⟩ | ⟨hbrace, rfl⟩
  · rw [if_pos (Sheet.hasKinds_one_iff.mpr hcomma)]
    exact (remove_passes hwhole (hwhole.lt_of_at hcomma (by decide))).bind fun _ => .pure rfl
  · rw [if_neg]
    · exact .pure rfl
    · rw [Sheet.hasKinds_one_iff]
      exact fun hcomma => Kind.noConfusion (hcomma.kind_eq hbrace)

theorem memberValue_passes (enumeration : String) (m : MemberName) (previous : Option String)
    (hvalue : Initialized c.sheet.tokens i r) (hafter : Separated c.sheet.tokens r j)
    (hinit : Site c.sheet.tokens (i + 2) r → Passes c (i + 2) (upTo r k.token) r) :
    Passes c (i + 1) (memberValue k enumeration m previous) r := by
  refine .seeing (.seeing ?_)
  cases hvalue with
  | counted =>
    rw [if_neg (by simp [hasKinds_separated hafter])]
    refine .seeing ?_
    rw [if_neg (by simp [hasKinds_separated hafter])]
    exact countedMember_passes enumeration m previous
  | string heq hvalue =>
    rw [if_pos ((hasKinds_string heq).mpr ⟨hvalue, j, hafter⟩)]
    exact stringMember_passes hwhole heq hvalue enumeration m
  | noted heq hkind hstop hsite hno =>
    have hat : At c.sheet.tokens (i + 1) .eq := ⟨_, heq, hkind⟩
    rw [if_neg ((hasKinds_string hat).not.mpr fun h => h.2.elim (hno h.1))]
    refine .seeing ?_
    rw [if_pos (Sheet.hasKinds_one_iff.mpr hat)]
    exact initializedMember_passes hwhole heq hkind hstop (hinit hsite) enumeration m

/-- A member is passed with what separates it from the next. -/
theorem enumerationMember_passes (enumeration : String) (previous : Option String)
    (hi : i < body.size) (hvalue : Initialized c.sheet.tokens i r)
    (hafter : Separated c.sheet.tokens r j)
    (hinit : Site c.sheet.tokens (i + 2) r → Passes c (i + 2) (upTo r k.token) r) :
    Passes c i (enumerationMember k enumeration previous) j :=
  memberName_passes hwhole hi fun m =>
    (memberValue_passes hwhole enumeration m previous hvalue hafter hinit).bind fun _ =>
      separated_passes hwhole hafter

/-- The members are passed up to the closing brace, if the walk gets through the initializers. -/
theorem enumerationMembers_passes {n lo : Nat} (h : Members c.sheet.tokens i members m)
    (hinit : ∀ p r, lo ≤ p → r ≤ m → Site c.sheet.tokens p r → Passes c p (upTo r k.token) r)
    (hlo : lo ≤ i) (hn : m - i < n) (enumeration : String) (previous : Option String) :
    Passes c i (enumerationMembers k enumeration previous n) m := by
  induction h generalizing n previous with
  | nil hc =>
    obtain _ | n := n
    · omega
    refine .seeing ?_
    rw [if_pos (Sheet.hasKinds_one_iff.mpr hc)]
    exact .pure rfl
  | @cons i _ _ _ _ _ hk hplain hvalue hafter hrest ih =>
    obtain _ | n := n
    · omega
    have hle := hvalue.code.le
    have hle' := hafter.code.le
    have hle'' := hrest.code.le
    have hi := hwhole.lt_of_at hk hplain.ne_eof
    have hbrace : ¬ c.sheet.hasKinds i [.braceR] = true := by
      rw [Sheet.hasKinds_one_iff]
      intro hbrace
      rw [hk.kind_eq hbrace] at hplain
      exact absurd hplain (by decide)
    refine .seeing ?_
    rw [if_neg hbrace]
    refine .atEnd hwhole hi ?_
    rw [if_neg Bool.false_ne_true]
    refine (enumerationMember_passes hwhole enumeration previous hi hvalue hafter
      (hinit _ _ (by omega) (by omega))).bind fun value => ?_
    exact ih hinit (by omega) (by omega) (some value)

theorem namedEnumeration_passes (h : Listing c.sheet.tokens w members m)
    (hinit : ∀ p r, w < p → r ≤ m → Site c.sheet.tokens p r → Passes c p (upTo r k.token) r) :
    Passes c (w + 1) (namedEnumeration k) (m + 1) := by
  have hclose := h.members.close
  have hsize := hclose.lt_size
  refine .currentText fun name => ?_
  refine (remove_passes hwhole (hwhole.lt_of_at h.name (by decide))).bind fun _ => ?_
  refine (append_passes _).bind fun _ => ?_
  refine (copyExpected_passes hwhole h.opened (by decide)).bind fun _ => .budget ?_
  refine (enumerationMembers_passes hwhole h.members hinit (by omega) (by omega) _ _).bind
    fun _ => ?_
  exact (copyExpected_passes hwhole hclose (by decide)).bind fun _ => append_passes _

/-- An enumeration is passed as a whole, if the walk gets through the initializers. -/
theorem enumeration_passes (h : Enumeration c.sheet.tokens i j)
    (hinit : ∀ p r, i < p → r < j → Site c.sheet.tokens p r → Passes c p (upTo r k.token) r) :
    Passes c i (enumeration k) j := by
  refine .seeing ?_
  cases h with
  | plain h =>
    rw [if_neg]
    · exact (blank_passes hwhole (hwhole.lt_of_at h.word (by decide))).bind fun _ =>
        namedEnumeration_passes hwhole h fun p r hp hr => hinit p r hp (by omega)
    · rw [Sheet.hasKinds_one_iff]
      exact fun hconst => Kind.noConfusion (h.word.kind_eq hconst)
  | constant hconst h =>
    rw [if_pos (Sheet.hasKinds_one_iff.mpr hconst)]
    refine (blank_passes hwhole (hwhole.lt_of_at hconst (by decide))).bind fun _ => ?_
    exact (remove_passes hwhole (hwhole.lt_of_at h.word (by decide))).bind fun _ =>
      namedEnumeration_passes hwhole h fun p r hp hr => hinit p r (by omega) (by omega)

end

end Lowering

end Downlevel
