import Mathlib.Data.List.Nodup
import Mathlib.Data.List.Perm.Subperm
import Mathlib.Tactic.Common
import Downlevel.Name.Basic

/-!
# Names that are free

Names with different numbers differ (`candidate_injective`), so among one more numbers than there
are names taken, one makes a free name. The search finds the least (`fresh_least`). A supply
remembers what it gave (`Gave`), and over any calls a name that was taken once is never given
(`answers_claimed`).
-/

namespace Downlevel.NameSupply

variable {name : String} {names : List String} {before events : List Event} {calls : List Call}
  {names' : List String}

theorem candidate_injective (base : String) : Function.Injective (candidate base) := by
  intro m n h
  have hnumeral : toString m = toString n := (String.append_right_inj _).mp h
  rw [Nat.toString_eq_ofList_toDigits, Nat.toString_eq_ofList_toDigits] at hnumeral
  rw [← Nat.ofDigitChars_ten_toDigits (n := m), String.ofList_injective hnumeral,
    Nat.ofDigitChars_ten_toDigits]

/-! ## The search -/

section Search

variable {used : List String} {base : String}

/-- The number makes a free name, and no smaller one does. -/
structure Least (used : List String) (base : String) (n : Nat) : Prop where
  free : candidate base n ∉ used
  taken : ∀ m < n, candidate base m ∈ used

theorem firstFree_taken (used : List String) (base : String) (n tries : Nat) :
    ∀ m, n ≤ m → m < firstFree used base n tries → candidate base m ∈ used := by
  induction tries generalizing n with
  | zero =>
    intro m hle hlt
    exact absurd hlt (Nat.not_lt.mpr hle)
  | succ tries ih =>
    intro m hle hlt
    unfold firstFree at hlt
    split at hlt
    · rename_i htaken
      rcases Nat.eq_or_lt_of_le hle with rfl | hle
      · simpa using htaken
      · exact ih (n + 1) m hle hlt
    · exact absurd hlt (Nat.not_lt.mpr hle)

theorem firstFree_le (used : List String) (base : String) (n tries : Nat) :
    firstFree used base n tries ≤ n + tries := by
  induction tries generalizing n with
  | zero => exact Nat.le_refl n
  | succ tries ih =>
    unfold firstFree
    split
    · have := ih (n + 1)
      omega
    · exact Nat.le_add_right n _

/-- The search stops at a free name, unless it was given up. -/
theorem firstFree_free (n tries : Nat) (h : firstFree used base n tries ≠ n + tries) :
    candidate base (firstFree used base n tries) ∉ used := by
  induction tries generalizing n with
  | zero => exact absurd rfl h
  | succ tries ih =>
    unfold firstFree at h ⊢
    split
    · rename_i htaken
      rw [if_pos htaken] at h
      exact ih (n + 1) fun heq => h (by omega)
    · rename_i hfree
      simpa using hfree

/-- As many names as have smaller numbers can be taken at most. -/
theorem le_length_of_taken (base : String) {n : Nat} (h : ∀ m < n, candidate base m ∈ used) :
    n ≤ used.length := by
  have hnodup : ((List.range n).map (candidate base)).Nodup :=
    List.nodup_range.map (candidate_injective base)
  have hsubset : (List.range n).map (candidate base) ⊆ used := by
    intro name hname
    obtain ⟨m, hm, rfl⟩ := List.mem_map.mp hname
    exact h m (List.mem_range.mp hm)
  simpa using (hnodup.subperm hsubset).length_le

/-- The search is not given up before a free name is found. -/
theorem firstFree_least (used : List String) (base : String) :
    Least used base (firstFree used base 0 used.length) := by
  have htaken := firstFree_taken used base 0 used.length
  refine ⟨fun hmem => ?_, fun m hlt => htaken m (Nat.zero_le m) hlt⟩
  have hgivenUp : firstFree used base 0 used.length = used.length := by
    by_contra hne
    exact firstFree_free 0 used.length (by omega) hmem
  -- then one more name is taken than there are
  have hle : used.length + 1 ≤ used.length := le_length_of_taken base fun m hlt => by
    rcases Nat.eq_or_lt_of_le (Nat.le_of_lt_succ hlt) with rfl | hlt
    · rwa [hgivenUp] at hmem
    · exact htaken m (Nat.zero_le m) (by omega)
  omega

end Search

/-! ## Names that are given -/

variable {s s₁ s₂ : NameSupply} {base : String}

/-- The identifier that names are made from. -/
def stem (base : String) : String := String.ofList (Name.sanitize base.toList)

theorem fresh_least (s : NameSupply) (base : String) :
    ∃ n ≤ s.used.length, (s.fresh base).1 = candidate (stem base) n ∧
      Least s.used (stem base) n := by
  have hle := firstFree_le s.used (stem base) 0 s.used.length
  rw [Nat.zero_add] at hle
  exact ⟨_, hle, rfl, firstFree_least _ _⟩

theorem fresh_free (s : NameSupply) (base : String) : (s.fresh base).1 ∉ s.used := by
  obtain ⟨n, -, heq, hleast⟩ := s.fresh_least base
  rw [heq]
  exact hleast.free

theorem used_fresh (s : NameSupply) (base : String) :
    (s.fresh base).2.used = (s.fresh base).1 :: s.used := rfl

/-- After the names in the list were given out of `s`, the supply is `s'`. No name was given twice,
and none that was taken. -/
structure Gave (s : NameSupply) (names : List String) (s' : NameSupply) : Prop where
  used : s'.used.Perm (names ++ s.used)
  nodup : names.Nodup
  free : ∀ name ∈ names, name ∉ s.used

namespace Gave

theorem refl (s : NameSupply) : s.Gave [] s := ⟨.refl _, .nil, nofun⟩

section

variable (h : s.Gave names s₁)
include h

theorem mem_used_iff : name ∈ s₁.used ↔ name ∈ names ∨ name ∈ s.used := by
  rw [h.used.mem_iff, List.mem_append]

theorem perm (hperm : names'.Perm names) : s.Gave names' s₁ :=
  ⟨h.used.trans (hperm.symm.append_right _), hperm.nodup_iff.mpr h.nodup,
    fun name hname => h.free name (hperm.mem_iff.mp hname)⟩

theorem trans (h' : s₁.Gave names' s₂) : s.Gave (names ++ names') s₂ := by
  refine ⟨?_, List.nodup_append.mpr ⟨h.nodup, h'.nodup, ?_⟩, ?_⟩
  · refine h'.used.trans ((h.used.append_left names').trans ?_)
    rw [← List.append_assoc]
    exact List.perm_append_comm.append_right _
  · rintro name hname other hother rfl
    exact h'.free name hother (h.mem_used_iff.mpr (.inl hname))
  · intro name hname hused
    rcases List.mem_append.mp hname with hname | hname
    · exact h.free name hname hused
    · exact h'.free name hname (h.mem_used_iff.mpr (.inr hused))

theorem fresh (base : String) : s.Gave (names ++ [(s₁.fresh base).1]) (s₁.fresh base).2 :=
  h.trans ⟨.refl _, List.nodup_singleton _, fun name hname => by
    rw [List.mem_singleton.mp hname]
    exact s₁.fresh_free base⟩

end

end Gave

/-! ## Calls -/

/-- What a supply is called for. -/
inductive Call where
  /-- to give a name that is made from a base -/
  | claim (base : String)
  /-- to tell whether a name is used -/
  | ask (name : String)

/-- A call with the answer to it. -/
inductive Event where
  | claimed (base name : String)
  | asked (name : String) (used : Bool)
deriving DecidableEq

/-- What a supply answers to calls, one after the other. -/
def answers (s : NameSupply) : List Call → List Event
  | [] => []
  | .claim base :: calls =>
    .claimed base (s.fresh base).1 :: answers (s.fresh base).2 calls
  | .ask name :: calls => .asked name (s.isUsed name) :: answers s calls

/-- A name is taken if it was from the start, or if it has been given. -/
def Taken (s : NameSupply) (events : List Event) (name : String) : Prop :=
  name ∈ s.used ∨ ∃ base, Event.claimed base name ∈ events

theorem taken_claimed_iff :
    Taken (s.fresh base).2 events name ↔
      Taken s (.claimed base (s.fresh base).1 :: events) name := by
  simp only [Taken, used_fresh, List.mem_cons, Event.claimed.injEq]
  constructor
  · rintro ((heq | hused) | ⟨base', hgiven⟩)
    · exact .inr ⟨base, .inl ⟨rfl, heq⟩⟩
    · exact .inl hused
    · exact .inr ⟨base', .inr hgiven⟩
  · rintro (hused | ⟨base', ⟨-, heq⟩ | hgiven⟩)
    · exact .inl (.inr hused)
    · exact .inl (.inl heq)
    · exact .inr ⟨base', hgiven⟩

theorem taken_asked_iff {other : String} {used : Bool} :
    Taken s (.asked other used :: events) name ↔ Taken s events name := by
  simp [Taken]

/-- After the first call, a supply goes on with what is taken by then. -/
theorem answers_rest {call : Call} {event : Event}
    (h : s.answers (call :: calls) = event :: events) : ∃ s', s'.answers calls = events ∧
      s'.used.length ≤ s.used.length + 1 ∧
      ∀ before name, Taken s' before name ↔ Taken s (event :: before) name := by
  cases call with
  | claim base =>
    obtain ⟨rfl, hrest⟩ := List.cons.inj h
    exact ⟨_, hrest, Nat.le_refl _, fun _ _ => taken_claimed_iff⟩
  | ask other =>
    obtain ⟨rfl, hrest⟩ := List.cons.inj h
    exact ⟨s, hrest, Nat.le_succ _, fun _ _ => taken_asked_iff.symm⟩

/-- A supply tells that a name is used exactly when it is taken. -/
theorem answers_asked {after : List Event} {used : Bool}
    (h : s.answers calls = before ++ .asked name used :: after) :
    used = true ↔ Taken s before name := by
  induction calls generalizing s before with
  | nil => simp [answers] at h
  | cons call calls ih =>
    cases before with
    | nil =>
      cases call with
      | claim base => simp [answers] at h
      | ask other =>
        simp only [answers, List.nil_append, List.cons.injEq, Event.asked.injEq] at h
        obtain ⟨⟨rfl, rfl⟩, -⟩ := h
        simp [isUsed, Taken]
    | cons event before =>
      obtain ⟨s', h, -, htaken⟩ := answers_rest h
      rw [ih h, htaken]

/-- What a claim gives: the name with the least number that makes one not yet taken. The number is
bounded by how many names there were at the start and how many calls there have been. -/
structure Claims (s : NameSupply) (before : List Event) (base name : String) (n : Nat) : Prop where
  name_eq : name = candidate (stem base) n
  free : ¬ Taken s before name
  taken : ∀ m < n, Taken s before (candidate (stem base) m)
  le : n ≤ s.used.length + before.length

theorem answers_claimed {after : List Event}
    (h : s.answers calls = before ++ .claimed base name :: after) :
    ∃ n, Claims s before base name n := by
  induction calls generalizing s before with
  | nil => simp [answers] at h
  | cons call calls ih =>
    cases before with
    | nil =>
      cases call with
      | ask other => simp [answers] at h
      | claim base =>
        simp only [answers, List.nil_append, List.cons.injEq, Event.claimed.injEq] at h
        obtain ⟨⟨rfl, rfl⟩, -⟩ := h
        obtain ⟨n, hle, heq, hleast⟩ := s.fresh_least base
        refine ⟨n, heq, ?_, fun m hlt => .inl (hleast.taken m hlt), by simpa using hle⟩
        simpa [Taken] using s.fresh_free base
    | cons event before =>
      obtain ⟨s', h, hlength, htaken⟩ := answers_rest h
      obtain ⟨n, hclaims⟩ := ih h
      refine ⟨n, hclaims.name_eq, ?_, fun m hlt => ?_, ?_⟩
      · rw [← htaken]
        exact hclaims.free
      · exact (htaken _ _).mp (hclaims.taken m hlt)
      · have := hclaims.le
        simp only [List.length_cons]
        omega

end Downlevel.NameSupply
