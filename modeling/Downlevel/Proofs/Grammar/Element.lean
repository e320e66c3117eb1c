import Downlevel.Proofs.Grammar.Expression

/-!
# Elements and atoms go on without error

An element ends on its last `>`, and with it its tokens are an element. When it is given up on the
way, an error was found, so that this holds of every element that was read without one.

The tokens of an element are read in several modes. Each is read when the one before it is taken,
so that what is said of a part of an element is said of the tokens with the current one.
-/

namespace Downlevel.Grammar

open State
open Token (At Opens Extends Sided)
open Phrase (Spans)

variable {ctx : Context} {k : Knot} {s : State} {h : Prop} {name : Option String} {b : Bool}
  {start : Nat} {β : Type}

/-! ## Tag names -/

theorem tagNamePart_moves : Moves ctx s h tagNamePart fun _ t =>
    At t.tokens s.tokens.size .jsxName ∧ t.tokens.size = s.tokens.size + 1 := by
  refine .look rfl ?_
  split
  · rename_i hname
    have hkind : s.cursor.kind = .jsxName := beq_iff_eq.mp hname
    refine advance_moves (fun _ => .tag hkind (by decide)) fun _ => ?_
    rw [← hkind]
    exact ⟨at_took _ _ .tag, took_tokens_size .tag⟩
  · exact expecting_moves

theorem markedPart_moves {g : String → Parser β} {R : β → State → Prop} {mark : Kind}
    (hkind : s.cursor.kind = mark) (hmark : mark ∈ tagKinds)
    (hg : ∀ text t, Moves ctx t (h ∧ Run ctx s t ∧ At t.tokens s.tokens.size mark ∧
      At t.tokens (s.tokens.size + 1) .jsxName ∧ t.tokens.size = s.tokens.size + 2) (g text) R) :
    Moves ctx s h (nextInTag >>= fun _ => currentText >>= fun text =>
      tagNamePart >>= fun _ => g text) R := by
  refine Moves.advance (fun _ => .tag hkind hmark) (.look rfl ?_)
  refine tagNamePart_moves.bind fun _ t => (hg _ t).pre ?_
  rintro ⟨⟨hh, hrun⟩, hrun', hat, hsize⟩
  have hfirst := at_took ctx s .tag
  rw [hkind] at hfirst
  rw [took_tokens_size] at hat hsize
  exact ⟨hh, hrun.trans hrun', hfirst.mono hrun'.extends, hat, hsize⟩

theorem dottedTagName_moves (name : String) (n : Nat) : Moves ctx s h (dottedTagName name n)
    fun _ t => NameParts t.tokens s.tokens.size t.tokens.size := by
  induction n generalizing name s h with
  | zero => exact .throw _
  | succ n ih =>
    refine .look rfl ?_
    split
    · rename_i hdot
      refine markedPart_moves (beq_iff_eq.mp hdot) (by decide) fun text t => (ih _).mono id ?_
      rintro _ u ⟨-, -, hmark, hname, hsize⟩ hrun hparts
      rw [hsize] at hparts
      exact .cons (.inl (hmark.mono hrun.extends)) (hname.mono hrun.extends) hparts
    · exact .pure fun _ _ => .nil _

/-- A note on a token changes nothing about the kinds. -/
theorem setAccess_moves {index : Nat} : Moves ctx s h (setRole index .access)
    fun _ t => t.tokens.size = s.tokens.size :=
  note_moves (fun _ => .role .access fun _ => rfl) fun _ => Array.size_modify ..

theorem tagName_moves (opening : Bool) : Moves ctx s h (tagName opening)
    fun _ t => TagName t.tokens s.tokens.size t.tokens.size := by
  refine .look rfl (.look rfl ?_)
  split
  · rename_i hname
    have hkind : s.cursor.kind = .jsxName := beq_iff_eq.mp hname
    have hfirst := at_took ctx s .tag
    rw [hkind] at hfirst
    refine .look rfl (Moves.advance (fun _ => .tag hkind (by decide)) ?_)
    refine .look rfl ?_
    extract_lets rest
    have hrest : ∀ name t h, (h → TagName t.tokens s.tokens.size t.tokens.size) →
        Moves ctx t h (rest name) fun _ u => TagName u.tokens s.tokens.size u.tokens.size := by
      intro name t h ht
      unfold rest
      split
      · refine setAccess_moves.bind fun _ u => .pure ?_
        rintro - ⟨hh, hrun, hsize⟩
        rw [hsize]
        exact (ht hh).mono hrun.extends
      · exact .pure fun _ => ht
    split
    · rename_i hcolon
      refine markedPart_moves (beq_iff_eq.mp hcolon) (by decide) fun text t => ?_
      refine .look rfl (hrest _ t _ ?_)
      rintro ⟨-, hrun, hmark, hname, hsize⟩
      rw [took_tokens_size] at hmark hname hsize
      refine ⟨hfirst.mono hrun.extends, .cons (.inr hmark) hname ?_⟩
      rw [hsize]
      exact .nil _
    · refine .look rfl ((dottedTagName_moves _ _).bind fun name t => hrest _ t _ ?_)
      rintro ⟨-, hrun, hparts⟩
      rw [took_tokens_size] at hparts
      exact ⟨hfirst.mono hrun.extends, hparts⟩
  · exact .expecting fun _ => .pure fun _ => False.elim

/-- What the name of a tag leaves. A fragment has none. -/
def Named (s t : State) (name : Option String) : Prop :=
  if name.isSome then TagName t.tokens s.tokens.size t.tokens.size
  else t = s ∧ s.cursor.kind = .jsxTagEnd

theorem tagName?_moves (opening : Bool) :
    Moves ctx s h (tagName? opening) fun name t => Named s t name := by
  refine .look rfl ?_
  split
  · rename_i hend
    exact .pure fun _ _ => ⟨rfl, beq_iff_eq.mp hend⟩
  · exact (tagName_moves opening).bind fun _ _ => .pure fun _ hh => hh.2.2

/-! ## Attributes -/

theorem Moves.advanceHeld {g : Unit → Parser β} {Q : β → State → Prop} {mode : Mode}
    (hpass : h → s.Passable mode)
    [hkeeps : Keeps ctx (s.tokens.size + 1) (s.tokens.size + 1) (g ())]
    (hg : Moves ctx (s.took ctx mode) (h ∧ Run ctx s (s.took ctx mode)) (g ()) Q) :
    Moves ctx s h (Grammar.advance mode >>= g) fun a t =>
      Sided t.tokens s.cursor.inType s.tokens.size ∧ Q a t := by
  rw [← @took_tokens_size ctx _ mode] at hkeeps
  refine .advance hpass ((Moves.held (Nat.le_refl _) hg).mono id ?_)
  rintro a t - - ⟨hheld, hq⟩
  exact ⟨hheld.sided_all sided_taken, hq⟩

theorem Moves.eat {g : Bool → Parser β} {R : β → State → Prop} {k : Kind}
    (hk : k ∉ [Kind.eof, .jsxName, .eq])
    (hyes : s.cursor.kind = k →
      Moves ctx (s.took ctx .code) (h ∧ Run ctx s (s.took ctx .code)) (g true) R)
    (hno : s.cursor.kind ≠ k → Moves ctx s h (g false) R) :
    Moves ctx s h (Grammar.eat k >>= g) R := by
  unfold Grammar.eat
  rw [bind_assoc]
  refine .look rfl ?_
  split
  · rename_i hkind
    rw [beq_iff_eq] at hkind
    rw [bind_assoc]
    exact Moves.advance (fun _ => .of_kind hkind ⟨hk, by decide⟩) (hyes hkind)
  · rename_i hkind
    exact hno (by simpa using hkind)

theorem begun_took (hkind : s.cursor.kind = .jsxTagStart) (hrun : Run ctx s (s.took ctx .tag)) :
    Begun s.tokens.size (s.took ctx .tag) := by
  have hfirst := at_took ctx s .tag
  rw [hkind] at hfirst
  refine ⟨(took_tokens_size .tag).symm, hfirst, ?_⟩
  rw [hrun.inType]
  exact sided_taken

section Knot

variable (hk : k.Sure ctx)
include hk

/-- An element that begins at the current token, up to its last `>`. -/
theorem elementAt_moves {g : Unit → Parser β} {R : β → State → Prop}
    (hkind : s.cursor.kind = .jsxTagStart)
    (hg : ∀ t, Moves ctx t (h ∧ Run ctx s t ∧ Ended s.cursor.inType s.tokens.size t) (g ()) R) :
    Moves ctx s h (nextInTag >>= fun _ => k.element s.tokens.size >>= g) R := by
  refine Moves.advance (fun _ => .tag hkind (by decide)) ?_
  refine (hk.element _ _ _ fun hh => begun_took hkind hh.2).bind fun _ t => (hg t).pre ?_
  rintro ⟨⟨hh, hrun⟩, hrun', hended⟩
  rw [hrun.inType] at hended
  exact ⟨hh, hrun.trans hrun', hended⟩

theorem bracedValue_moves (hbrace : s.cursor.kind = .braceL) :
    Moves ctx s h (do
      next
      k.value
      if ← seeing .braceR then nextInTag else expecting "\x7d") fun _ t =>
        Given t.tokens s.cursor.inType s.tokens.size t.tokens.size := by
  have := hk.keeping
  have hfirst := at_took ctx s .code
  rw [hbrace] at hfirst
  refine Moves.mono (Moves.advanceHeld (Q := fun _ t => At t.tokens s.tokens.size .braceL ∧
    ∃ m, t.tokens.size = m + 1 ∧ Spans t.tokens .code (s.tokens.size + 1) m ∧ At t.tokens m .braceR)
    (fun _ => .of_kind hbrace (by decide)) (.clean ?_)) id ?_
  · have hpass : s.Passable .code := .of_kind hbrace (by decide)
    refine Moves.bind (Moves.pre (hk.value _ _ _) fun hh => ⟨hh, hpass.outside hh.2⟩) fun _ t =>
      .look rfl ?_
    split
    · rename_i hclose
      have hkind : t.cursor.kind = .braceR := beq_iff_eq.mp hclose
      have hlast := at_took ctx t .tag
      rw [hkind] at hlast
      refine advance_moves (fun _ => .tag hkind (by decide)) ?_
      rintro ⟨-, hrun, honward, -⟩
      have hcode := honward.adds
      rw [Adds, took_tokens_size] at hcode
      exact ⟨(hfirst.mono hrun.extends).mono (.push _ _), _, took_tokens_size .tag,
        hcode.mono (.push _ _), hlast⟩
    · exact expecting_moves
  · rintro _ t - - ⟨hsided, hopen, m, hsize, hcode, hlast⟩
    rw [hsize]
    exact .braced hopen hsided hcode hlast

theorem attributeValue_moves : Moves ctx s h (attributeValue k) fun _ t =>
    Given t.tokens s.cursor.inType s.tokens.size t.tokens.size := by
  refine .look rfl ?_
  split
  · rename_i hkind
    refine advance_moves (fun _ => .tag hkind (by decide)) fun _ => ?_
    have hstring := at_took ctx s .tag
    rw [hkind] at hstring
    rw [took_tokens_size]
    exact .string hstring
  · rename_i hkind
    exact bracedValue_moves hk hkind
  · rename_i hkind
    refine .look rfl (elementAt_moves hk hkind fun t => ?_)
    refine advance_moves (fun hh => .tag hh.2.2.kind (by decide)) fun hh => ?_
    rw [took_tokens_size]
    exact .element hh.2.2.element (hh.2.2.sided.push _)
  · exact expecting_moves

theorem tagAttribute_moves : Moves ctx s h (tagAttribute k) fun _ t =>
    Props t.tokens s.cursor.inType s.tokens.size t.tokens.size := by
  refine .look rfl ?_
  split
  · exact expecting_moves
  rename_i hname
  have hkind : s.cursor.kind = .jsxName := by simpa using hname
  have hfirst := at_took ctx s .tag
  rw [hkind] at hfirst
  refine Moves.advance (fun _ => .tag hkind (by decide)) (.look rfl ?_)
  extract_lets rest
  have hrest : ∀ r t h, (h → Run ctx s t ∧ AttributeName t.tokens s.tokens.size t.tokens.size) →
      Moves ctx t h (rest r) fun _ u =>
        Props u.tokens s.cursor.inType s.tokens.size u.tokens.size := by
    intro r t h ht
    refine .look rfl ?_
    split
    · rename_i heq
      have heq' := at_took ctx t .tag
      rw [beq_iff_eq.mp heq] at heq'
      refine Moves.advance (fun _ => .tag (beq_iff_eq.mp heq) (by decide))
        ((attributeValue_moves hk).mono id ?_)
      rintro _ u ⟨hh, hrun⟩ hrun' hvalue
      obtain ⟨hrun₀, hname⟩ := ht hh
      rw [took_tokens_size, (hrun₀.trans hrun).inType] at hvalue
      exact .valued (hname.mono (hrun.trans hrun').extends) (heq'.mono hrun'.extends) hvalue
        (.nil _)
    · exact .pure fun _ hh => .bare (ht hh).2 (.nil _)
  split
  · rename_i hcolon
    have hmark := at_took ctx (s.took ctx .tag) .tag
    rw [beq_iff_eq.mp hcolon, took_tokens_size] at hmark
    refine Moves.advance (fun _ => .tag (beq_iff_eq.mp hcolon) (by decide)) ?_
    refine tagNamePart_moves.bind fun r t => hrest r t _ ?_
    rintro ⟨⟨⟨-, hrun₀⟩, hrun⟩, hrun', hname, hsize⟩
    rw [took_tokens_size, took_tokens_size] at hname hsize
    rw [hsize]
    exact ⟨hrun₀.trans (hrun.trans hrun'), .spaced (hfirst.mono (hrun.trans hrun').extends)
      (hmark.mono hrun'.extends) hname⟩
  · exact hrest () _ _ fun hh => ⟨hh.2, by rw [took_tokens_size]; exact .single hfirst⟩

/-- An attribute that is not complete is an error. -/
theorem spreadAttribute_moves (hbrace : s.cursor.kind = .braceL) :
    Moves ctx s h (spreadAttribute k) fun complete t => complete = true ∧
      Props t.tokens s.cursor.inType s.tokens.size t.tokens.size := by
  have := hk.keeping
  have hfirst := at_took ctx s .code
  rw [hbrace] at hfirst
  refine Moves.mono (Moves.advanceHeld (Q := fun complete t => complete = true ∧
    At t.tokens s.tokens.size .braceL ∧ At t.tokens (s.tokens.size + 1) .ellipsis ∧
    ∃ m, t.tokens.size = m + 1 ∧ Spans t.tokens .code (s.tokens.size + 2) m ∧ At t.tokens m .braceR)
    (fun _ => .of_kind hbrace (by decide)) ?_) id ?_
  · refine (expect_moves fun hkind _ => .of_kind hkind (by decide)).bind fun _ t => Moves.bind
      (Moves.pre (hk.value _ t _) fun hh => ⟨hh, hh.2.2.2.2⟩) fun _ u => .look rfl ?_
    split
    · rename_i hclose
      have hkind : u.cursor.kind = .braceR := beq_iff_eq.mp hclose
      have hlast := at_took ctx u .tag
      rw [hkind] at hlast
      refine Moves.advance (fun _ => .tag hkind (by decide)) (.pure ?_)
      rintro - ⟨⟨⟨-, hrun₁, hat, hsize, -⟩, hrun₂, honward, -⟩, hrun₃⟩
      have hcode := honward.adds
      rw [took_tokens_size] at hat hsize
      rw [Adds, hsize] at hcode
      have hext := hrun₂.extends.trans hrun₃.extends
      exact ⟨rfl, hfirst.mono (hrun₁.extends.trans hext), hat.mono hext, _, took_tokens_size .tag,
        hcode.mono hrun₃.extends, hlast⟩
    · exact .expecting fun _ => .pure fun _ => False.elim
  · rintro _ t - - ⟨hsided, hcomplete, hopen, hellipsis, m, hsize, hcode, hlast⟩
    rw [hsize]
    exact ⟨hcomplete, .spread hopen hsided hellipsis hcode hlast (.nil _)⟩

theorem tagAttributes_moves {seen : Attributes} (hseen : seen.complete = true) (n : Nat) :
    Moves ctx s h (tagAttributes k seen n) fun found t => found.complete = true ∧
      Props t.tokens s.cursor.inType s.tokens.size t.tokens.size := by
  have := hk.keeping
  induction n generalizing seen s h with
  | zero => exact .throw _
  | succ n ih =>
    have hrest : ∀ {t : State} {seen : Attributes} {h' : Prop}, seen.complete = true →
        (h' → Run ctx s t ∧ Props t.tokens s.cursor.inType s.tokens.size t.tokens.size) →
        Moves ctx t h' (tagAttributes k seen n) fun found u => found.complete = true ∧
          Props u.tokens s.cursor.inType s.tokens.size u.tokens.size := by
      intro t seen h' hseen ht
      refine (Moves.held (Nat.le_refl _) (ih hseen)).mono id ?_
      rintro found u hh hrun ⟨hheld, hcomplete, hrest⟩
      obtain ⟨hrun₀, hfirst⟩ := ht hh
      rw [hrun₀.inType] at hrest
      exact ⟨hcomplete, (hfirst.mono hrun.extends fun _ _ _ => hheld.sided_all).append hrest⟩
    refine .look rfl (.look rfl ?_)
    split
    · exact .pure fun _ _ => ⟨hseen, .nil _⟩
    refine .look rfl ?_
    split
    · rename_i hbrace
      refine (spreadAttribute_moves hk (beq_iff_eq.mp hbrace)).bind fun complete t => ?_
      split
      · exact hrest hseen fun hh => ⟨hh.2.1, hh.2.2.2⟩
      · exact .pure fun _ hh => absurd hh.2.2.1 (by assumption)
    · exact .look rfl ((tagAttribute_moves hk).bind fun _ t => hrest hseen And.right)

/-! ## Children -/

omit hk in
theorem closingTag_moves {i : Nat} (hslash : s.cursor.kind = .slash)
    (hstart : h → i + 1 = s.tokens.size ∧ At s.tokens i .jsxTagStart) :
    Moves ctx s h (closingTag name) fun _ t =>
      t.cursor.kind = .jsxTagEnd ∧ Closing t.tokens i t.tokens.size := by
  have hsecond := at_took ctx s .tag
  rw [hslash] at hsecond
  refine .look rfl (Moves.advance (fun _ => .tag hslash (by decide)) ?_)
  refine (tagName?_moves false).bind fun closing t => .clean (.look rfl ?_)
  split
  · split
    · exact .look rfl failAt_moves
    · refine .look rfl ?_
      split
      · exact expecting_moves
      rename_i hend
      have hkind : t.cursor.kind = .jsxTagEnd := by simpa using hend
      refine .pure ?_
      rintro - ⟨⟨⟨hh, hrun⟩, hrun', hnamed⟩, -⟩
      obtain ⟨hsize, hat⟩ := hstart hh
      have hsecond' := hsecond.mono hrun'.extends
      rw [← hsize] at hsecond'
      refine ⟨hkind, hat.mono (hrun.trans hrun').extends, hsecond', ?_⟩
      unfold Named at hnamed
      split at hnamed
      · rw [took_tokens_size, ← hsize] at hnamed
        exact .inr hnamed
      · obtain ⟨rfl, -⟩ := hnamed
        rw [took_tokens_size, ← hsize]
        exact .inl rfl
  · exact .pure fun _ hh => by grind [State.Clean]

/-- Where a child that was read from `s` on leaves the cursor. -/
def Child.Left (s t : State) : Child → Prop
  | .counts n => t.Passable .child ∧
    Kid t.taken s.cursor.inType n s.tokens.size (t.tokens.size + 1)
  | .closing => t.cursor.kind = .jsxTagEnd ∧ Closing t.tokens s.tokens.size t.tokens.size
  | .broken => False

omit hk in
theorem childEnd_moves {t : State} {count : Nat}
    (ht : h → Sided t.tokens s.cursor.inType s.tokens.size → At t.taken t.tokens.size .braceR →
      Kid t.taken s.cursor.inType count s.tokens.size (t.tokens.size + 1)) :
    Moves ctx t h (do
      if ← seeing .braceR then return Child.counts count
      else
        expecting "\x7d"
        return .broken) fun found u =>
          Sided u.tokens s.cursor.inType s.tokens.size → found.Left s u := by
  refine .look rfl ?_
  split
  · rename_i hclose
    have hkind : t.cursor.kind = .braceR := beq_iff_eq.mp hclose
    have hlast := at_taken (s := t)
    rw [hkind] at hlast
    exact .pure fun _ hh hsided => ⟨.of_kind hkind (by decide), ht hh hsided hlast⟩
  · exact .expecting fun _ => .pure fun _ => False.elim

set_option synthInstance.maxSize 1000 in
theorem childExpression_moves (hbrace : s.cursor.kind = .braceL) :
    Moves ctx s h (childExpression k) fun found t => found.Left s t := by
  have := hk.keeping
  have hfirst := at_took ctx s .code
  rw [hbrace] at hfirst
  refine Moves.mono (Moves.advanceHeld (Q := fun found t =>
    Sided t.tokens s.cursor.inType s.tokens.size → found.Left s t)
    (fun _ => .of_kind hbrace (by decide)) (.clean ?_)) id
    fun _ _ _ _ hleft => hleft.2 hleft.1
  have hoff : (s.took ctx .code).Clean → (s.took ctx .code).Outside :=
    (State.Passable.of_kind hbrace (by decide)).outside
  have hsize : (s.took ctx .code).tokens.size = s.tokens.size + 1 := took_tokens_size .code
  generalize s.took ctx .code = s' at hfirst hsize hoff
  refine .eat (by decide) (fun hellipsis => .look rfl ?_) fun hellipsis => .look rfl ?_
  · extract_lets rest
    rw [if_pos rfl]
    have hsecond := at_took ctx s' .code
    rw [hellipsis, hsize] at hsecond
    have hpass : s'.Passable .code := .of_kind hellipsis (by decide)
    refine .clean (Moves.bind (Moves.pre (hk.expression _ _ _) fun hh => ⟨hh,
      hpass.outside hh.2⟩) fun _ t => .look rfl (childEnd_moves ?_))
    rintro ⟨⟨⟨-, hrun⟩, -⟩, hrun', honward, -⟩ hsided hlast
    have hcode := honward.adds
    rw [Adds, took_tokens_size, hsize] at hcode
    exact .spread ((hfirst.mono (hrun.trans hrun').extends).mono (.push _ _)) (hsided.push _)
      ((hsecond.mono hrun'.extends).mono (.push _ _)) (hcode.mono (.push _ _)) hlast
  · extract_lets rest
    rw [if_neg (by simp)]
    split
    · refine .look rfl (childEnd_moves fun _ hsided hlast => ?_)
      rw [hsize] at hlast ⊢
      exact .hollow (hfirst.mono (.push _ _)) (hsided.push _) hlast
    · refine Moves.bind (Moves.pre (hk.expression_grows _ _ _) fun hh => ⟨hh, hoff hh.2⟩) fun _ t =>
        .look rfl (childEnd_moves ?_)
      rintro ⟨-, hrun, honward, hlt⟩ hsided hlast
      have hcode := honward.adds
      rw [Adds] at hcode
      rcases hcode.code_head with heq | ⟨first, hat, hkind⟩
      · omega
      refine .filled ((hfirst.mono hrun.extends).mono (.push _ _)) (hsided.push _)
        (k := first) ?_ ?_ ?_ hlast
      · rw [← hsize]
        exact hat.mono (.push _ _)
      · intro hmem
        have hdots : first ≠ .ellipsis := by
          rintro rfl
          exact hellipsis ((hrun.first fun _ _ h => h.solid.2.2.2.1).1 hat)
        grind
      · rw [← hsize]
        exact hcode.mono (.push _ _)

theorem child_moves (hpass : h → s.Passable .child) :
    Moves ctx s h (child k name) fun found t => found.Left (s.took ctx .child) t ∧
      Held (s.tokens.size + 1) (s.took ctx .child) t := by
  have := hk.keeping
  refine Moves.advance hpass ?_
  have hchild : (s.took ctx .child).Clean → (s.took ctx .child).cursor.kind ∈
      [Kind.jsxTagStart, .braceL, .jsxText, .jsxEmptyText] := Cursor.kind_of_advance_child
  rw [← @took_tokens_size ctx _ .child]
  generalize s.took ctx .child = s' at hchild
  refine .clean (.look rfl ?_)
  split
  · rename_i hkind
    refine .look rfl (Moves.advance (fun _ => .tag hkind (by decide))
      (.look rfl ?_))
    have hle : s'.tokens.size ≤ (s'.took ctx .tag).tokens.size := by simp
    split
    · rename_i hslash
      refine (Moves.held hle (closingTag_moves (i := s'.tokens.size) (beq_iff_eq.mp hslash)
        fun hh => ?_)).bind fun _ t => .pure ?_
      · have hbegun := begun_took hkind hh.2
        exact ⟨hbegun.size, hbegun.opened⟩
      · rintro - ⟨⟨-, hrun⟩, -, hheld, hclosed⟩
        exact ⟨hclosed, (Held.took hrun).trans hheld⟩
    · have : Keeps ctx s'.tokens.size (s'.took ctx .tag).tokens.size (k.element s'.tokens.size) :=
        element_rule_keeps k (Nat.le_refl _) (by simp)
      refine (Moves.held hle (hk.element s'.tokens.size _ _ fun hh => begun_took hkind hh.2)).bind
        fun _ t => .pure ?_
      rintro - ⟨⟨-, hrun⟩, -, hheld, hended⟩
      rw [hrun.inType] at hended
      exact ⟨⟨.of_kind hended.kind (by decide), .element hended.element (hended.sided.push _)⟩,
        (Held.took hrun).trans hheld⟩
  · rename_i hkind
    refine .pure fun _ _ => ⟨⟨.of_kind hkind (by decide), .text ?_⟩, .refl _ _⟩
    rw [← hkind]
    exact at_taken
  · rename_i hkind
    refine .pure fun _ _ => ⟨⟨.of_kind hkind (by decide), .blank ?_⟩, .refl _ _⟩
    rw [← hkind]
    exact at_taken
  · rename_i hkind
    exact (Moves.held (Nat.le_refl _) (childExpression_moves hk hkind)).mono id
      fun _ _ _ _ hh => hh.symm
  · refine .pure fun _ hh => ?_
    have := hchild hh.2
    grind

/-- The children of an element, which count for `n`, and the closing tag after them, up to its last
`>`. -/
structure Filled (ctx : Context) (s t : State) (n : Nat) : Prop where
  ended : t.cursor.kind = .jsxTagEnd
  held : Held (s.tokens.size + 1) (s.took ctx .child) t
  closed : ∃ l, Kids t.tokens s.cursor.inType n (s.tokens.size + 1) l ∧
    Closing t.tokens l t.tokens.size

theorem children_moves {count : Nat} (n : Nat) (hpass : h → s.Passable .child) :
    Moves ctx s h (children k name count n) fun found t =>
      ∃ more, found = some (count + more) ∧ Filled ctx s t more := by
  have := hk.keeping
  induction n generalizing count s h with
  | zero => exact .throw _
  | succ n ih =>
    refine (child_moves hk hpass).bind fun found t => ?_
    split
    · refine .pure ?_
      rintro - ⟨-, hrun, ⟨hend, hclosing⟩, hheld⟩
      rw [took_tokens_size] at hclosing
      exact ⟨0, rfl, hend, hheld, _, .nil _, hclosing⟩
    · exact .pure fun _ hh => hh.2.2.1.elim
    · refine .clean (.look rfl ?_)
      split
      · exact .pure fun _ hh => by grind [State.Clean]
      · refine (Moves.held (Nat.le_refl _) (ih fun hh => hh.1.2.2.1.1)).mono id ?_
        rintro _ u ⟨⟨-, hrun, ⟨-, hfirst⟩, hheld⟩, -⟩ -
          ⟨hheldt, more, hfound, hend, hheld', l, hrest, hclosing⟩
        rw [← @took_tokens_size ctx _ .child] at hheld'
        have hside : (s.took ctx .child).cursor.inType = s.cursor.inType :=
          hheld.inType.symm.trans hrun.inType
        rw [took_tokens_size, hside] at hfirst
        rw [hrun.inType] at hrest
        refine ⟨_, by rw [hfound, Nat.add_assoc], hend, ?_, l, .cons (hfirst.mono
          hheld'.extends fun _ _ _ => hheld'.sided_all) hrest, hclosing⟩
        exact hheld.trans (hheldt.mono (by have := hfirst.spans.child_lt; omega))

/-! ## Elements -/

omit hk in
theorem setShape_moves {shape : ElementShape}
    (hs : h → s.cursor.kind = .jsxTagEnd ∧ At s.tokens start .jsxTagStart ∧
      Sided s.tokens b start ∧ Shaped s.tokens start shape s.tokens.size) :
    Moves ctx s h (setShape start shape) fun _ t => Ended b start t := by
  refine noteAt_moves (fun hh => .shape (hs hh).2.1 (hs hh).2.2.2 (hs hh).1) fun hh => ?_
  obtain ⟨hkind, ⟨p, hp, hstart⟩, hsided, hshaped⟩ := hs hh
  have hharmless := (Note.shape ⟨p, hp, hstart⟩ hshaped hkind).harmless
  have hext := extends_noting s start hharmless
  have hsize : (s.noting start fun t => { t with shape := some shape }).tokens.size =
    s.tokens.size := Array.size_modify ..
  have hopens : Opens (s.noting start fun t => { t with shape := some shape }).tokens start := by
    refine ⟨{ p with shape := some shape }, ?_, hstart, rfl⟩
    show (s.tokens.modify start _)[start]? = _
    rw [Array.getElem?_modify, if_pos rfl, hp]
    rfl
  have hlast := at_taken (s := s.noting start fun t => { t with shape := some shape })
  rw [hsize, show (s.noting start _).cursor.kind = .jsxTagEnd from hkind] at hlast
  refine ⟨hkind, ?_, sided_noting s start hharmless hsided⟩
  rw [hsize]
  refine ((hshaped.mono hext fun b => ⟨b, ?_⟩).mono (.push _ _) fun b => ⟨b, ?_⟩).spans
    (hopens.mono (.push _ _)) hlast
  · exact fun _ _ _ => sided_noting s start hharmless
  · exact fun _ _ _ hb => hb.push _

/-- The tag that opens an element, up to what ends it. Without a name it has no attributes. -/
structure Tagged (b : Bool) (start : Nat) (found : Attributes) (t : State) : Prop where
  side : t.cursor.inType = b
  opened : At t.tokens start .jsxTagStart
  sided : Sided t.tokens b start
  named : (t.tokens.size = start + 1 ∧ t.cursor.kind = .jsxTagEnd ∧ found.keyAfterSpread = false) ∨
    ∃ n, TagName t.tokens (start + 1) n ∧ Props t.tokens b n t.tokens.size

omit hk in
theorem emptyElement_moves {found : Attributes} (hslash : s.cursor.kind = .slash)
    (ht : h → Tagged b start found s) :
    Moves ctx s h (do
      nextInTag
      if ← seeing .jsxTagEnd then setShape start (elementShape found.keyAfterSpread 0)
      else expecting ">") fun _ t => Ended b start t := by
  have hat := at_took ctx s .tag
  rw [hslash] at hat
  refine Moves.advance (fun _ => .tag hslash (by decide)) (.look rfl ?_)
  split
  · rename_i hend
    refine setShape_moves fun hh => ?_
    obtain ⟨hside, hopened, hsided, ⟨-, hfragment, -⟩ | ⟨n, hname, hprops⟩⟩ := ht hh.1
    · cases hslash.symm.trans hfragment
    have hheld := (Held.took hh.2).sided_all hsided
    refine ⟨beq_iff_eq.mp hend, hopened.mono hh.2.extends, hheld, ?_⟩
    rw [took_tokens_size]
    exact .empty hheld (hname.mono hh.2.extends)
      (hprops.mono hh.2.extends fun _ _ _ => (Held.took hh.2).sided_all) hat
  · exact expecting_moves

theorem filledElement_moves {n : Nat} {found : Attributes} (hend : s.cursor.kind = .jsxTagEnd)
    (ht : h → Tagged b start found s) :
    Moves ctx s h (do
      if let some count ← children k name 0 n then
        setShape start (elementShape found.keyAfterSpread count)) fun _ t => Ended b start t := by
  have := hk.keeping
  have hfirst := at_took ctx s .child
  rw [hend] at hfirst
  refine (Moves.held (Nat.le_refl _) (children_moves hk n fun _ =>
    .of_kind hend (by decide))).bind fun count t => ?_
  split
  · rename_i count
    refine setShape_moves fun hh => ?_
    obtain ⟨hh, hrun, hheld, more, hcount, hend', hheld', l, hkids, hclosing⟩ := hh
    obtain rfl : more = count := by simpa using hcount.symm
    obtain ⟨hside, hopened, hsided, hnamed⟩ := ht hh
    have htag : At t.tokens s.tokens.size .jsxTagEnd := by
      rw [← @took_tokens_size ctx _ .child] at hheld'
      exact hfirst.mono hheld'.extends
    refine ⟨hend', hopened.mono hrun.extends, hheld.sided_all hsided, ?_⟩
    rw [hside] at hkids
    obtain ⟨hsize, -, hkey⟩ | ⟨n, hname, hprops⟩ := hnamed
    · rw [hsize] at htag hkids
      rw [hkey]
      exact .fragment (hheld.sided_all hsided) htag hkids hclosing
    · exact .paired (hheld.sided_all hsided) (hname.mono hrun.extends)
        (hprops.mono hrun.extends fun _ _ _ => hheld.sided_all) htag hkids hclosing
  · rename_i hnone
    refine .pure fun _ hh => ?_
    obtain ⟨-, -, -, more, hsome, -⟩ := hh
    exact absurd hsome (hnone _)

theorem element_moves (hstart : h → Begun start s) :
    Moves ctx s h (element k start) fun _ t => Ended s.cursor.inType start t := by
  have := hk.keeping
  refine (Moves.held (Nat.le_refl _) (tagName?_moves true)).bind fun name t => .look rfl ?_
  extract_lets budget rest
  have hrest : ∀ (found : Attributes) t h,
      (h → found.complete = true ∧ Tagged s.cursor.inType start found t) →
      Moves ctx t h (rest found) fun _ u => Ended s.cursor.inType start u := by
    intro found t h ht
    unfold rest
    split
    · exact .pure fun _ hh => by grind
    refine .look rfl ?_
    split
    · rename_i hslash
      exact emptyElement_moves (beq_iff_eq.mp hslash) fun hh => (ht hh).2
    refine .look rfl ?_
    split
    · rename_i hend
      exact filledElement_moves hk (beq_iff_eq.mp hend) fun hh => (ht hh).2
    · exact expecting_moves
  split
  · rename_i hsome
    refine (Moves.held (Nat.le_refl _) (tagAttributes_moves hk rfl budget)).bind fun found u =>
      hrest found u _ ?_
    rintro ⟨⟨hh, hrun, hheld, hnamed⟩, hrun', hheld', hcomplete, hprops⟩
    obtain ⟨hsize, hat, hsided⟩ := hstart hh
    rw [Named, if_pos hsome, ← hsize] at hnamed
    rw [hrun.inType] at hprops
    exact ⟨hcomplete, (hrun.trans hrun').inType, hat.mono (hrun.trans hrun').extends,
      hheld'.sided_all (hheld.sided_all hsided), .inr ⟨_, hnamed.mono hrun'.extends, hprops⟩⟩
  · rename_i hnone
    refine hrest {} t _ ?_
    rintro ⟨hh, hrun, -, hnamed⟩
    obtain ⟨hsize, hat, hsided⟩ := hstart hh
    rw [Named, if_neg hnone] at hnamed
    obtain ⟨rfl, hend⟩ := hnamed
    exact ⟨rfl, rfl, hat, hsided, .inl ⟨hsize.symm, hend, rfl⟩⟩

section

variable (hlive : s.cursor.kind ≠ .eof) (hline : ¬ s.cursor.kind.Spacious)
include hlive hline

theorem elementExpression_moves : Moves ctx s (h ∧ s.Outside) (elementExpression k) fun _ t =>
      Ended s.cursor.inType s.tokens.size t := by
  refine .onCursor id (fun hh => ⟨hlive, hh.2⟩)
    (fun hsound _ hclean => reread_kind (by decide) hsound hlive hclean
      fun hlexed => hlexed.recast hline (by decide)) ?_
  generalize hs' : ({ s with cursor := { s.cursor with kind := .jsxTagStart } } : State) = s'
  have hkind : s'.cursor.kind = .jsxTagStart := by rw [← hs']
  have hsize : s'.tokens.size = s.tokens.size := by rw [← hs']
  have hside : s'.cursor.inType = s.cursor.inType := by rw [← hs']
  rw [← hsize, ← hside]
  refine .look rfl (Moves.advance (fun _ => .tag hkind (by decide)) ?_)
  refine (hk.element _ _ _ fun hh => begun_took hkind hh.2).mono id ?_
  rintro _ t ⟨-, hrun⟩ - hended
  rwa [hrun.inType] at hended

/-! ## Atoms -/

theorem elementAtom_goes : Goes ctx s h (elementExpression k >>= fun _ => next)
      fun _ t => s.tokens.size < t.tokens.size := by
  refine Moves.bind (elementExpression_moves hk hlive hline) fun _ t => ?_
  have hnext : Moves ctx t ((h ∧ s.Outside) ∧ Run ctx s t ∧ Ended s.cursor.inType s.tokens.size t)
      (next >>= pure) fun _ u => Onward ctx s u ∧ s.tokens.size < u.tokens.size := by
    refine Moves.advance (fun hh => .of_kind hh.2.2.kind (by decide))
      (.clean (.pure ?_))
    rintro - ⟨⟨⟨-, hrun, hended⟩, hrun'⟩, hclean⟩
    have hpass : t.Passable .code := .of_kind hended.kind (by decide)
    refine ⟨⟨hrun.trans hrun', ?_, hpass.outside hclean⟩,
      Nat.lt_of_le_of_lt hrun.size_le (by simp)⟩
    unfold Adds
    rw [took_tokens_size]
    exact .nested hended.element (.nil _)
  rwa [bind_pure] at hnext

omit hk in
/-- A regular expression takes the place of its slash. -/
theorem regex_goes : Goes ctx s h regex fun _ t => s.tokens.size < t.tokens.size := by
  refine .read (Goes.bind (reread_goes (fun _ => hlive) ?_ ?_)
    fun _ t => (next_takes t _ fun hh => hh.2.2).mono id ?_)
  · intro c hc hclean
    obtain ⟨n, -, rfl⟩ := Cursor.asRegex_eq hc hclean
    exact hclean
  · intro c hc hclean hsound hh
    have hwide := hsound.standing.wide ⟨hlive, hsound.standing.notPiece⟩
    have hlexed := fun hlexed => Cursor.asRegex_lexed hc hclean hlexed hline hwide
    obtain ⟨n, hn, rfl⟩ := Cursor.asRegex_eq hc hclean
    exact ⟨⟨rfl, rfl, rfl, rfl, hclean,
      ⟨(by decide : Kind.regexp.Solid), rfl, nofun, nofun, nofun, nofun, nofun, nofun, nofun⟩,
      ⟨n, rfl⟩, Cursor.offset_lt_skip (hsound.rest_ne_nil hlive) hn, hlexed⟩,
      (by decide : Kind.regexp.Plain)⟩
  · rintro _ u ⟨-, honward, -⟩ - hlt
    exact Nat.lt_of_le_of_lt honward.size_le hlt

end

theorem nameAtom_grows (hname : s.cursor.kind = .name) :
    Goes ctx s h (nameAtom k) fun _ t => s.tokens.size < t.tokens.size := by
  have hplain := plain_of_kind hname (by decide)
  refine .lookahead fun ahead hkind _ => .seeingWord ?_
  extract_lets rest
  have hrest : ∀ r, Grows ctx (rest r) := by
    intro r s h
    unfold rest
    split
    · exact nameArrow_grows hk s h
    · exact identifier_grows.bind (fun _ => .pure _) s h
  split
  · split
    · rename_i hahead
      exact .position (.nextTaking (fun _ => hplain) (Goes.bind (functionExpression_goes hk
        (fun _ => plain_of_kind (hkind.symm.trans hahead) (by decide)) fun hh =>
        hh.2.anchored hh.1.2)
        fun _ _ => .done))
    · exact (next_takes.bind fun _ => (nameArrow_grows hk).steady) s h fun _ => hplain
    · have := hk.keeping
      refine Goes.bind (attempt_tried ((next_takes.bind fun _ => tryArrow_steady hk) s h
        fun _ => hplain)) fun b t => ?_
      split
      · exact .pure fun _ hh => hh.2.2.grows (by assumption)
      · refine (hrest () t _).mono id fun _ u hh _ hlt => ?_
        rwa [hh.2.2.eq (by assumption)] at hlt
    · exact hrest () s h
  · exact hrest () s h

theorem group_takes : TakesAt ctx .parenL (group k) := by
  refine Encloses.takesAt .paren ((hk.expression _).inside fun _ s h => .look rfl (.look rfl ?_))
  refine .optional (fun hcolon => ?_) (expect_encloses (by decide))
  exact .of_takes (typeAnnotation_takes hk (by grind [Dialect.typed])) fun _ => by grind

theorem importExpression_takes : Takes ctx (importExpression k) := by
  refine next_takes.bind fun _ s h => ?_
  refine .eat (by decide) (fun _ => identifierName_steady _ _) fun _ => ?_
  exact Steady.ifSeeingAt (callArguments_grows hk).takesAt (fun _ _ => expecting_goes) s h

theorem decoratedClass_grows : Grows ctx (decoratedClass k) := by
  refine (decorators_steady hk).grows_bind fun _ s h => .seeing ?_
  split
  · rename_i hclass
    exact classExpression_takes hk s h fun _ => plain_of_seeing hclass (by decide)
  · exact expecting_goes

theorem atom_grows : Grows ctx (atom k) := by
  intro s h
  refine .kind ?_
  split
  · rename_i hname
    exact nameAtom_grows hk hname
  · rename_i hkind
    refine (tryArrow_goes hk).bind fun b t => ?_
    split
    · exact .pure fun _ hh => hh.2.2.grows (by assumption)
    · refine (((group_takes hk).bind fun _ => .pure _) t _ fun hh => ?_).mono id
        fun _ u hh _ hlt => ?_
      · rw [hh.2.2.eq (by assumption)]
        exact hkind
      · rwa [hh.2.2.eq (by assumption)] at hlt
  · extract_lets rest
    have hrest : ∀ {t h} {p : Parser Unit},
        Goes ctx t h p (fun _ u => t.tokens.size < u.tokens.size) →
        Goes ctx t h (p >>= rest) fun _ u => t.tokens.size < u.tokens.size :=
      fun hp => hp.taking fun _ _ => .done
    split
    · rename_i hkind
      exact hrest (regex_goes (live_of_kind hkind (by decide)) (by rw [hkind]; decide))
    · rename_i hkind
      refine .currentText fun text => ?_
      split
      · exact hrest (regex_goes (live_of_kind hkind (by decide)) (by rw [hkind]; decide))
      · exact hrest unexpected_goes
    · rename_i hkind
      refine .dialect ?_
      split
      · rw [← bind_assoc]
        exact hrest (elementAtom_goes hk (live_of_kind hkind (by decide)) (by rw [hkind]; decide))
      · exact hrest unexpected_goes
    iterate 9
      · rename_i hkind
        exact hrest (next_takes.of_kind hkind (by decide))
    · rename_i hkind
      exact hrest ((arrayLiteral_takes hk).of_kind hkind (by decide))
    · rename_i hkind
      exact hrest (objectLiteral_goes hk (.inl hkind))
    · rename_i hkind
      exact hrest (objectLiteral_goes hk (.inr hkind))
    · rename_i hkind
      exact .position (hrest (functionExpression_goes hk
        (fun _ => plain_of_kind hkind (by decide)) And.right))
    · rename_i hkind
      exact hrest ((classExpression_takes hk).of_kind hkind (by decide))
    · exact hrest (decoratedClass_grows hk s h)
    · rename_i hkind
      exact hrest ((newExpression_takes hk).of_kind hkind (by decide))
    · rename_i hkind
      exact hrest ((template_takes (hk.expression _)).of_kind hkind (by decide))
    · rename_i hkind
      exact hrest ((importExpression_takes hk).of_kind hkind (by decide))
    · exact hrest unexpected_goes

end Knot

end Downlevel.Grammar
