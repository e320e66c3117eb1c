import Downlevel.Proofs.Lowering.Law
import Downlevel.Proofs.Lowering.SnippetEnd
import Downlevel.Proofs.Lowering.Walk

/-!
# Lowering without faults

Lowering may stop with an error about the snippet, but it meets no fault: its bounds are never
reached, and the notes that it takes out of its editor are there. Whatever is lowered inside a
construct begins behind the first token of it, so constructs nest no deeper than there are tokens,
and every round of a loop passes one (`snippet_proceeds`).

`Proceeds c lo p` says of a step that it meets no fault from the token at `lo` on. This is a law
(`Law.proceeding`), so that only loops and what is nested in a construct need an argument. What is
to pass a token is `Advancing`, and has to be told that there is one.
-/

namespace Downlevel

variable {e : Editor} {index n : Nat}

theorem Editor.edit_index_of_lt {s : Sheet} (h : e.index + 1 < s.tokens.size) (action : Action)
    (trim : Bool) : (e.edit s action trim).index = e.index + 1 := by
  rw [Editor.edit, if_neg (by omega)]

/-- The notes since a bookmark are there to be taken out, and those before it stay. -/
theorem Editor.extract?_of_reaches {e' : Editor} (h : e.Reaches e') (s : Sheet) :
    ∃ code found, e'.extract? s e.bookmark = some (code, found) ∧ e.Reaches found := by
  have hsize : e.log.size ≤ e'.log.size := by simpa using h.log.length_le
  have hlog : (e'.log.take e.log.size).toList = e.log.toList := by
    simpa using (List.prefix_iff_eq_take.mp h.log).symm
  refine ⟨_, _, if_pos hsize, ?_, h.index⟩
  exact hlog ▸ List.prefix_refl _

namespace Lowering

variable {α β : Type} {c : Scene} {d : Draft} {lo j j' : Nat}

/-- Only the last token of the scene is the end of the input. -/
class Scene.Ended (c : Scene) : Prop where
  room : ∀ e : Editor, (e.current c.sheet).kind ≠ .eof → e.index + 1 < c.sheet.tokens.size

theorem Scene.Ended.of_whole {body : Array Token} {last : Token} (h : c.sheet.Whole body last) :
    c.Ended where
  room e hkind := by
    have hsize := h.size_tokens
    by_contra hroom
    apply hkind
    rcases Nat.lt_or_eq_of_le (Nat.not_lt.mp hroom) with hlt | heq
    · have hnone : c.sheet.token? e.index = none :=
        Array.getElem?_eq_none_iff.mpr (Nat.lt_succ_iff.mp hlt)
      simp [Editor.current, hnone, h.tokens, h.ended]
    · have hlast : c.sheet.tokens[e.index]? = some last := by
        have hindex : e.index = body.size := by omega
        rw [h.tokens, hindex, Array.getElem?_push_size]
      rw [Editor.current_of hlast, h.ended]

/-! ## Promises -/

/-- The step `p` meets no fault, and if it gets through, the editor has only gone on, to the token
at `j` or beyond. -/
structure ProceedsAt (c : Scene) (d : Draft) (j : Nat) (p : Lowering α) : Prop where
  stops : ∀ {e}, p c d = .error e → c.Blames e
  writes : Writes c d p fun _ e => j ≤ e.index

/-- The step `p` meets no fault from the token at `lo` on. -/
class Proceeds (c : Scene) (lo : Nat) (p : Lowering α) : Prop where
  proceedsAt : ∀ d, lo ≤ d.editor.index → ProceedsAt c d d.editor.index p

/-- The step `p` meets no fault from the token at `lo` on and, before the end of the input, passes a
token. -/
def Advancing (c : Scene) (lo : Nat) (p : Lowering α) : Prop :=
  ∀ d, lo ≤ d.editor.index → d.editor.index + 1 < c.sheet.tokens.size →
    ProceedsAt c d (d.editor.index + 1) p

/-- What is nested in a construct can be lowered from the token at `lo` on. -/
class Knot.Proceeding (c : Scene) (lo : Nat) (k : Knot) : Prop where
  token : Advancing c lo k.token
  element : Advancing c lo k.element

theorem Knot.Proceeding.mono {k : Knot} (hk : k.Proceeding c lo) {lo' : Nat} (h : lo ≤ lo') :
    k.Proceeding c lo' :=
  ⟨fun d hlo => hk.token d (Nat.le_trans h hlo), fun d hlo => hk.element d (Nat.le_trans h hlo)⟩

namespace ProceedsAt

variable {p : Lowering α} {g : α → Lowering β}

theorem mono (hp : ProceedsAt c d j p) (h : j' ≤ j) : ProceedsAt c d j' p :=
  ⟨hp.stops, hp.writes.mono fun _ _ he => Nat.le_trans h he⟩

/-- The step after `p` may undo notes, as long as those before `p` stay. -/
theorem bind_within (hp : ProceedsAt c d j p)
    (hg : ∀ a d', p c d = .ok (a, d') → j ≤ d'.editor.index →
      (∀ {e}, g a c d' = .error e → c.Blames e) ∧ ∀ b d'', g a c d' = .ok (b, d'') →
        d.editor.Reaches d''.editor ∧ j' ≤ d''.editor.index) :
    ProceedsAt c d j' (p >>= g) := by
  constructor
  · intro e h
    rcases run_bind_error h with hpe | ⟨a, d', hpa, hge⟩
    · exact hp.stops hpe
    · exact (hg a d' hpa (hp.writes a d' hpa).2).1 hge
  · intro b d'' h
    cases hpa : p c d with
    | error e =>
      change (p c d >>= fun q => g q.1 c q.2) = .ok (b, d'') at h
      rw [hpa] at h
      cases h
    | ok q =>
      rw [run_bind hpa] at h
      exact (hg q.1 q.2 hpa (hp.writes q.1 q.2 hpa).2).2 b d'' h

theorem bind (hp : ProceedsAt c d j p)
    (hg : ∀ a d', p c d = .ok (a, d') → j ≤ d'.editor.index → ProceedsAt c d' j' (g a)) :
    ProceedsAt c d j' (p >>= g) :=
  hp.bind_within fun a d' hpa hj => ⟨(hg a d' hpa hj).stops, fun b d'' hgb =>
    ((hg a d' hpa hj).writes b d'' hgb).imp_left (hp.writes a d' hpa).1.trans⟩

theorem pure (a : α) (h : j ≤ d.editor.index) : ProceedsAt c d j (Pure.pure a : Lowering α) :=
  ⟨nofun, .pure h⟩

theorem look (a : α) (hp : p c d = .ok (a, d)) (hg : ProceedsAt c d j (g a)) :
    ProceedsAt c d j (p >>= g) :=
  ⟨fun h => hg.stops ((run_look a hp).symm.trans h), .look a hp hg.writes⟩

theorem of_breaks (h : Breaks c d p) : ProceedsAt c d j p := by
  obtain ⟨e, he, hblames⟩ := h
  refine ⟨fun hrun => ?_, fun a d' hrun => ?_⟩
  · rw [he] at hrun
    cases hrun
    exact hblames
  · rw [he] at hrun
    cases hrun

theorem broken (invariant : Invariant) :
    ProceedsAt c d j (Lowering.broken invariant : Lowering α) := of_breaks (broken_breaks _)

theorem bind_still (hp : Proceeds c 0 p) (hstill : Passes c d.editor.index p d.editor.index)
    (hg : ∀ a d', d'.editor.index = d.editor.index → ProceedsAt c d' j (g a)) :
    ProceedsAt c d j (p >>= g) := by
  refine (hp.proceedsAt d (Nat.zero_le _)).bind fun a d' hpa _ => hg a d' ?_
  obtain ⟨_, _, hrun, -, hindex⟩ := hstill d rfl
  rw [hpa] at hrun
  cases hrun
  exact hindex

end ProceedsAt

section Closure

variable {p : Lowering α} {g : α → Lowering β}

/-- Without faults, the editor goes on. -/
def Law.proceeding (lo : Nat) : Law c where
  leads d d' := lo ≤ d.editor.index → d.editor.Reaches d'.editor
  stops d e := lo ≤ d.editor.index → c.Blames e
  refl _ _ := .refl _
  trans h h' hlo := (h hlo).trans (h' (Nat.le_trans hlo (h hlo).index))
  stops_of_leads h h' hlo := h' (Nat.le_trans hlo (h hlo).index)
  stops_blamed h _ := h

theorem Obeys.proceeds (hp : Obeys c (.proceeding lo) p) : Proceeds c lo p where
  proceedsAt _ hlo := ⟨fun h => hp.stops h hlo, fun _ _ h =>
    ⟨hp.leads h hlo, (hp.leads h hlo).index⟩⟩

theorem Proceeds.obeys (hp : Proceeds c lo p) : Obeys c (.proceeding lo) p where
  leads h hlo := ((hp.proceedsAt _ hlo).writes _ _ h).1
  stops h hlo := (hp.proceedsAt _ hlo).stops h

instance [hp : Obeys c (.proceeding lo) p] : Proceeds c lo p := hp.proceeds

instance (priority := low) [hp : Proceeds c lo p] : Obeys c (.proceeding lo) p := hp.obeys

instance : (Law.proceeding (c := c) lo).Local := ⟨fun h _ => h ▸ .refl _⟩

instance : Obeys c (.proceeding lo) copy := .of_edit fun d _ => d.editor.reaches_edit ..

instance : (Law.proceeding (c := c) lo).Edits where
  edit _ _ := .of_edit fun d _ => d.editor.reaches_edit ..
  append _ := .of_edit fun d _ => d.editor.reaches_append _
  trimNextGap := .of_edit fun _ _ => ⟨List.prefix_refl _, Nat.le_refl _⟩
  copyExpected _ := inferInstance

instance (code : String) : Obeys c (.proceeding lo) (prepend code) :=
  .of_edit fun _ _ => ⟨List.prefix_refl _, Nat.le_refl _⟩

instance (code : String) : Obeys c (.proceeding lo) (prependMapped code) :=
  .of_edit fun d _ => d.editor.reaches_prependMapped _

theorem Advancing.seq (hp : Advancing c lo p) (hg : ∀ a, Proceeds c lo (g a)) :
    Advancing c lo (p >>= g) := fun d hlo hroom =>
  (hp d hlo hroom).bind fun a d' _ hle => ((hg a).proceedsAt d' (by omega)).mono hle

/-- After a step that passes a token, what follows begins behind that. -/
theorem Advancing.bind (hp : Advancing c lo p) (hlo : lo ≤ d.editor.index)
    (hroom : d.editor.index + 1 < c.sheet.tokens.size)
    (hg : ∀ a, Proceeds c (d.editor.index + 1) (g a)) :
    ProceedsAt c d (d.editor.index + 1) (p >>= g) :=
  (hp d hlo hroom).bind fun a d' _ hle => ((hg a).proceedsAt d' hle).mono hle

end Closure

/-! ## Passing a token -/

theorem edit_advancing (action : Action) (trim : Bool) :
    Advancing c lo (edit fun s e => e.edit s action trim) := by
  intro d _ hroom
  exact ⟨nofun, edit_writes (d.editor.reaches_edit ..)
    (Nat.le_of_eq (Editor.edit_index_of_lt hroom action trim).symm)⟩

theorem copy_advancing : Advancing c lo copy := edit_advancing _ _

theorem replace_advancing (code : String) : Advancing c lo (replace code) := edit_advancing _ _

theorem remove_advancing : Advancing c lo remove := edit_advancing _ _

theorem blank_advancing : Advancing c lo blank := edit_advancing _ _

theorem name_advancing : Advancing c lo name := by
  intro d hlo hroom
  refine .look c rfl (.look d.editor.index rfl ?_)
  split
  · exact replace_advancing _ d hlo hroom
  · exact copy_advancing d hlo hroom

/-! ## Loops -/

section Loops

variable {condition : Lowering Bool} {body : Lowering Unit} {test : Draft → Bool}

/-- A loop whose rounds pass a token each, or stop, has no more of them than there are tokens. -/
theorem whileBounded_proceedsAt (hlook : ∀ d, condition c d = .ok (test d, d))
    (hbody : ∀ d, lo ≤ d.editor.index → test d = true → d.editor.index < c.sheet.tokens.size ∧
      ProceedsAt c d (d.editor.index + 1) body ∨ Breaks c d body)
    (hlo : lo ≤ d.editor.index) (hn : c.sheet.tokens.size - d.editor.index < n) :
    ProceedsAt c d d.editor.index (whileBounded condition body n) := by
  induction n generalizing d with
  | zero => omega
  | succ n ih =>
    refine .look (test d) (hlook d) ?_
    cases hb : test d with
    | false => exact .pure _ (Nat.le_refl _)
    | true =>
      rcases hbody d hlo hb with ⟨hlt, hround⟩ | hbreaks
      · exact hround.bind fun _ d' _ hle => (ih (by omega) (by omega)).mono (by omega)
      · refine (ProceedsAt.of_breaks (j := 0) hbreaks).bind fun _ _ h => ?_
        rw [hbreaks.choose_spec.1] at h
        cases h

theorem whileHolds_proceeds (hlook : ∀ d, condition c d = .ok (test d, d))
    (hbody : ∀ d, lo ≤ d.editor.index → test d = true →
      d.editor.index < c.sheet.tokens.size ∧ ProceedsAt c d (d.editor.index + 1) body ∨
        Breaks c d body) :
    Proceeds c lo (whileHolds condition body) where
  proceedsAt d hlo := .look (c.sheet.tokens.size + 1) rfl
    (whileBounded_proceedsAt hlook hbody hlo (by omega))

/-- A loop up to an index that lies before the end of the input. -/
theorem whileBelow_proceeds {stop : Nat} (hbody : Advancing c lo body)
    (hstop : ∀ i, lo ≤ i → i < stop → i + 1 < c.sheet.tokens.size) :
    Proceeds c lo (whileHolds (return (← position) < stop) body) := by
  refine whileHolds_proceeds (fun _ => rfl) fun d hlo hb => ?_
  have hroom := hstop d.editor.index hlo (of_decide_eq_true hb)
  exact .inl ⟨by omega, hbody d hlo hroom⟩

theorem room_of_not_atEnd [c.Ended] (h : e.atEnd c.sheet = false) :
    e.index + 1 < c.sheet.tokens.size :=
  Scene.Ended.room e (by simpa [Editor.atEnd] using h)

theorem room_of_sees [c.Ended] {k : Kind} {ks : List Kind} (h : e.sees c.sheet (k :: ks) = true)
    (hk : k ≠ .eof) :
    e.index + 1 < c.sheet.tokens.size :=
  Scene.Ended.room e (by rwa [Editor.kind_of_sees h])

theorem upTo_proceeds [c.Ended] (stop : Nat) (hbody : Advancing c lo body) :
    Proceeds c lo (upTo stop body) := by
  refine whileHolds_proceeds (fun _ => rfl) fun d hlo hb => ?_
  change (decide (d.editor.index < stop) && !d.editor.atEnd c.sheet) = true at hb
  have hroom := room_of_not_atEnd (c := c) (e := d.editor) (by simp_all)
  exact .inl ⟨by omega, hbody d hlo hroom⟩

end Loops

/-! ## Types, modules and enumerations -/

section Constructs

set_option synthInstance.maxSize 1000

variable [c.Ended] {k : Knot}

theorem eraseTypes_advancing : Advancing c lo eraseTypes := by
  intro d hlo hroom
  refine blank_advancing.bind hlo hroom fun _ => ?_
  refine whileHolds_proceeds (fun _ => rfl) fun d' hlo' hb => ?_
  change ((d'.editor.current c.sheet).isType && !d'.editor.atEnd c.sheet) = true at hb
  have hroom' := room_of_not_atEnd (c := c) (e := d'.editor) (by simp_all)
  exact .inl ⟨by omega, remove_advancing d' hlo' hroom'⟩

theorem eraseReturnType_advancing {arrow : Nat} (harrow : c.sheet.hasKinds arrow [.arrow] = true) :
    Advancing c lo (eraseReturnType arrow) := by
  intro d hlo hroom
  have hstop : arrow + 1 < c.sheet.tokens.size :=
    room_of_sees (e := { index := arrow }) harrow (by decide)
  have hloop : Proceeds c (d.editor.index + 1) (whileHolds (return (← position) < arrow) remove) :=
    whileBelow_proceeds remove_advancing fun i _ hi => by omega
  exact blank_advancing.bind hlo hroom fun _ => inferInstance

theorem replaceStatement_advancing (statement : Statement) (code : String) :
    Advancing c lo (replaceStatement statement code) := by
  intro d hlo hroom
  exact (replace_advancing code).bind hlo hroom fun _ => upTo_proceeds _ remove_advancing

/-- Lowering goes over to what replaces a statement, once the code for its module is there. -/
theorem requiredModule_advancing (statement : Statement) :
    Advancing c lo (moduleCode statement >>= replaceStatement statement) := by
  intro d hlo hroom
  refine .bind_still inferInstance (moduleCode_passes statement) fun code d' hindex => ?_
  rw [← hindex] at hlo hroom ⊢
  exact replaceStatement_advancing statement code d' hlo hroom

instance [hk : k.Proceeding c lo] (stop : Nat) : Proceeds c lo (upTo stop k.token) :=
  upTo_proceeds stop hk.token

section Statements

variable (hroom : d.editor.index + 1 < c.sheet.tokens.size) [k.Proceeding c (d.editor.index + 1)]
include hroom

theorem exportedDeclaration_proceedsAt (statement : Statement) :
    ProceedsAt c d (d.editor.index + 1) (exportedDeclaration k statement) :=
  .look c.sheet rfl (.look (d.editor.current c.sheet) rfl
    (blank_advancing.bind (Nat.zero_le _) hroom fun _ => inferInstance))

theorem exported_proceedsAt (statement : Statement) :
    ProceedsAt c d (d.editor.index + 1) (exported k statement) := by
  refine .look c rfl ?_
  split
  · exact requiredModule_advancing statement d (Nat.zero_le _) hroom
  · dsimp only
    split
    · exact requiredModule_advancing statement d (Nat.zero_le _) hroom
    · exact replaceStatement_advancing statement _ d (Nat.zero_le _) hroom
  · exact exportedDeclaration_proceedsAt hroom statement

theorem exportedDefault_proceedsAt (statement : Statement) :
    ProceedsAt c d (d.editor.index + 1) (exportedDefault k statement) := by
  refine .look c.sheet rfl ?_
  split
  · exact blank_advancing.bind (Nat.zero_le _) hroom fun _ => inferInstance
  · exact (replace_advancing _).bind (Nat.zero_le _) hroom fun _ => inferInstance

theorem moduleStatement_proceedsAt (statement : Statement) :
    ProceedsAt c d (d.editor.index + 1) (moduleStatement k statement) := by
  unfold moduleStatement
  split
  · exact requiredModule_advancing statement d (Nat.zero_le _) hroom
  · exact exportedDefault_proceedsAt hroom statement
  · exact exported_proceedsAt hroom statement
  · exact copy_advancing d (Nat.zero_le _) hroom

end Statements

section Enumerations

variable [hk : k.Proceeding c lo]

theorem enumerationMember_advancing (enumeration : String) (previous : Option String) :
    Advancing c lo (enumerationMember k enumeration previous) := by
  intro d hlo hroom
  have hlook : ∃ m, memberName c d = .ok (m, d) := by
    unfold memberName
    rw [run_look (d.editor.currentText c.sheet) rfl, run_look (d.editor.current c.sheet) rfl]
    split
    · exact ⟨_, rfl⟩
    · exact ⟨_, rfl⟩
  obtain ⟨m, hm⟩ := hlook
  exact .look m hm (blank_advancing.seq (fun _ => inferInstance) d hlo hroom)

theorem enumerationMembers_proceedsAt (enumeration : String) (previous : Option String)
    (hlo : lo ≤ d.editor.index) (hn : c.sheet.tokens.size - d.editor.index < n) :
    ProceedsAt c d d.editor.index (enumerationMembers k enumeration previous n) := by
  induction n generalizing d previous with
  | zero => omega
  | succ n ih =>
    refine .look (d.editor.sees c.sheet [.braceR]) rfl ?_
    split
    · exact .pure _ (Nat.le_refl _)
    · refine .look (d.editor.atEnd c.sheet) rfl ?_
      cases hend : d.editor.atEnd c.sheet with
      | true => exact (ProceedsAt.broken (j := 0) _).bind fun _ _ h => nomatch h
      | false =>
        have hroom := room_of_not_atEnd hend
        refine (enumerationMember_advancing enumeration previous d hlo hroom).bind ?_
        exact fun value d' _ hle => (ih _ (by omega) (by omega)).mono (by omega)

instance (enumeration : String) (previous : Option String) :
    Proceeds c lo (enumerationMembers k enumeration previous (c.sheet.tokens.size + 1)) :=
  ⟨fun _ hlo => enumerationMembers_proceedsAt enumeration previous hlo (by omega)⟩

instance : Proceeds c lo (namedEnumeration k) := by
  unfold namedEnumeration
  infer_instance

end Enumerations

theorem enumeration_proceedsAt (hroom : d.editor.index + 1 < c.sheet.tokens.size)
    [k.Proceeding c (d.editor.index + 1)] :
    ProceedsAt c d (d.editor.index + 1) (enumeration k) := by
  refine .look (d.editor.sees c.sheet [.kwConst]) rfl ?_
  split <;> exact blank_advancing.bind (Nat.zero_le _) hroom fun _ => inferInstance

end Constructs

/-! ## Tags -/

theorem le_closingBrace? {depth close : Nat} {ts : List Token}
    (h : closingBrace? depth index ts = some close) : index ≤ close := by
  fun_induction closingBrace? depth index ts <;> grind

theorem lt_elementEnd? {depth stop : Nat} {closing : Bool} {ts : List Token}
    (h : elementEnd? depth index closing ts = some stop) : index < stop := by
  fun_induction elementEnd? depth index closing ts <;> grind

/-- The step `p` only looks. It stops with an error, or its answer is `good`. -/
def Finds (c : Scene) (p : Lowering α) (good : α → Prop) : Prop :=
  ∀ d, Breaks c d p ∨ ∃ a, p c d = .ok (a, d) ∧ good a

namespace Finds

variable {p : Lowering α} {g : α → Lowering β} {good : α → Prop} {better : β → Prop}

theorem bind (hp : Finds c p good) (hg : ∀ a, good a → Finds c (g a) better) :
    Finds c (p >>= g) better := by
  intro d
  rcases hp d with ⟨e, he, hblames⟩ | ⟨a, ha, hgood⟩
  · refine .inl ⟨e, ?_, hblames⟩
    show (p c d >>= fun q => g q.1 c q.2) = _
    rw [he]
    rfl
  · unfold Breaks
    rw [run_bind ha]
    exact hg a hgood d

theorem look (a : α) (hp : ∀ d, p c d = .ok (a, d)) (hg : Finds c (g a) better) :
    Finds c (p >>= g) better := by
  intro d
  unfold Breaks
  rw [run_look a (hp d)]
  exact hg d

theorem pure {a : α} (h : good a) : Finds c (Pure.pure a) good := fun _ => .inr ⟨a, rfl, h⟩

theorem broken (invariant : Invariant) : Finds c (Lowering.broken invariant) good :=
  fun _ => .inl (broken_breaks _)

theorem brokenAt (index : Nat) (invariant : Invariant) :
    Finds c (Lowering.brokenAt index invariant) good := fun _ => .inl (brokenAt_breaks ..)

theorem proceeds (hp : Finds c p good) : Proceeds c lo p where
  proceedsAt d _ := by
    rcases hp d with hbreaks | ⟨a, ha, -⟩
    · exact .of_breaks hbreaks
    · refine ⟨fun h => ?_, fun b d' hb => ?_⟩
      · rw [ha] at h
        cases h
      · rw [ha] at hb
        cases hb
        exact ⟨.refl _, Nat.le_refl _⟩

end Finds

theorem afterBraces_finds (index : Nat) : Finds c (afterBraces index) (index < ·) := by
  refine .look c.sheet (fun _ => rfl) ?_
  split
  · rename_i close hclose
    exact .pure (Nat.lt_succ_of_le (le_closingBrace? hclose))
  · exact .broken _

theorem afterElement_finds (index : Nat) : Finds c (afterElement index) (index < ·) := by
  refine .look c.sheet (fun _ => rfl) ?_
  split
  · rename_i stop hstop
    exact .pure (lt_elementEnd? hstop)
  · exact .broken _

theorem afterValue_finds (index : Nat) : Finds c (afterValue index) (index < ·) := by
  refine .look c.sheet (fun _ => rfl) ?_
  split
  · exact .pure (Nat.lt_succ_self _)
  · exact afterBraces_finds index
  · exact afterElement_finds index
  · exact .brokenAt _ _

theorem namedAttributeAt_finds (index : Nat) :
    Finds c (namedAttributeAt index) fun found => index < found.2 := by
  refine .look c.sheet (fun _ => rfl) ?_
  extract_lets isKey afterName
  have hname : index < afterName := by
    unfold afterName
    split <;> omega
  split
  · refine (afterValue_finds (afterName + 1)).bind fun stop hstop => ?_
    exact .pure (Nat.lt_trans hname (Nat.lt_of_succ_lt hstop))
  · exact .look afterName (fun _ => rfl) (.pure hname)

theorem attributesFrom_finds (hn : c.sheet.tokens.size - index < n) :
    Finds c (attributesFrom index n) fun _ => True := by
  induction n generalizing index with
  | zero => omega
  | succ n ih =>
    refine .look c.sheet (fun _ => rfl) ?_
    have hrest : ∀ next, index < next → c.sheet.kindAt index ≠ .eof →
        Finds c (attributesFrom next n) fun _ => True := by
      intro next hlt hkind
      have hindex : index < c.sheet.tokens.size := by
        by_contra hge
        apply hkind
        rw [Sheet.kindAt, Array.getElem?_eq_none (by omega)]
        rfl
      exact ih (by omega)
    split
    · exact .pure trivial
    · exact .pure trivial
    · rename_i hkind
      refine (afterBraces_finds index).bind fun next hnext => ?_
      exact (hrest next hnext (by simp [hkind])).bind fun _ _ => .pure trivial
    · rename_i hkind
      refine (namedAttributeAt_finds index).bind fun found hfound => ?_
      exact (hrest found.2 hfound (by simp [hkind])).bind fun _ _ => .pure trivial
    · exact .brokenAt _ _

instance : Proceeds c lo tagAttributes :=
  ⟨fun d hlo => .look d.editor.index rfl (.look (c.sheet.tokens.size + 1) rfl
    ((attributesFrom_finds (by omega)).proceeds.proceedsAt d hlo))⟩

/-! ## Elements -/

section Elements

set_option synthInstance.maxSize 10000

variable [c.Ended] {k : Knot}

theorem afterTagName_lt (h : index < c.sheet.tokens.size) :
    afterTagName c.sheet index n < c.sheet.tokens.size := by
  induction n generalizing index with
  | zero => exact h
  | succ n ih =>
    rw [afterTagName]
    split
    · rename_i hkinds
      have hname : c.sheet.hasKinds (index + 1) [.jsxName] = true := by
        simp only [Sheet.hasKinds, Bool.or_eq_true, Bool.and_eq_true] at hkinds ⊢
        rcases hkinds with ⟨-, hname⟩ | ⟨-, hname⟩
        · exact hname
        · exact hname
      exact ih (room_of_sees (e := { index := index + 1 }) hname (by decide))
    · exact h

instance : Proceeds c lo tagName where
  proceedsAt d hlo := by
    refine .look (d.editor.sees c.sheet [.jsxName]) rfl ?_
    cases hsees : d.editor.sees c.sheet [.jsxName] with
    | false => exact (ProceedsAt.broken (j := 0) _).bind fun _ _ h => nomatch h
    | true =>
      refine .look c.sheet rfl (.look d.editor.index rfl ?_)
      extract_lets stop written
      have hstop : stop < c.sheet.tokens.size :=
        afterTagName_lt (room_of_sees hsees (by decide))
      have hcopy : Proceeds c d.editor.index (whileHolds (return (← position) < stop) copy) :=
        whileBelow_proceeds copy_advancing fun i _ hi => by omega
      have hremove : Proceeds c d.editor.index (whileHolds (return (← position) < stop) remove) :=
        whileBelow_proceeds remove_advancing fun i _ hi => by omega
      exact (inferInstance : Proceeds c d.editor.index _).proceedsAt d (Nat.le_refl _)

variable [hk : k.Proceeding c lo]

theorem balancedBounded_proceedsAt {braces parens : Nat} (hlo : lo ≤ d.editor.index)
    (hn : c.sheet.tokens.size - d.editor.index < n) :
    ProceedsAt c d d.editor.index (balancedBounded k braces parens n) := by
  induction n generalizing d braces parens with
  | zero => omega
  | succ n ih =>
    refine .look (d.editor.atEnd c.sheet) rfl ?_
    cases hend : d.editor.atEnd c.sheet with
    | true => exact .pure _ (Nat.le_refl _)
    | false =>
      have hroom := room_of_not_atEnd hend
      have hround : ∀ braces parens, ProceedsAt c d d.editor.index
          (k.token >>= fun _ => balancedBounded k braces parens n) := fun braces parens =>
        (hk.token d hlo hroom).bind fun _ d' _ hle => (ih (by omega) (by omega)).mono (by omega)
      refine .look (d.editor.current c.sheet) rfl ?_
      repeat' split
      all_goals first | exact hround _ _ | exact .pure _ (Nat.le_refl _)

instance : Proceeds c lo (balanced k) :=
  ⟨fun _ hlo => .look _ rfl (balancedBounded_proceedsAt hlo (by omega))⟩

instance : (Law.proceeding (c := c) lo).Braces k := ⟨.bind inferInstance fun _ => inferInstance⟩

instance : Proceeds c lo (attributeValue k) where
  proceedsAt d hlo := by
    refine .look (d.editor.current c.sheet) rfl ?_
    split
    · refine .look (d.editor.currentText c.sheet) rfl ?_
      split
      · exact (inferInstance : Proceeds c lo (replace _)).proceedsAt d hlo
      · exact (inferInstance : Proceeds c lo copy).proceedsAt d hlo
    · exact (inferInstance : Proceeds c lo
        (remove >>= fun _ => balanced k >>= fun _ => removeExpected .braceR)).proceedsAt d hlo
    · rename_i hkind
      have hroom := Scene.Ended.room d.editor (by rw [hkind]; decide)
      exact (hk.element d hlo hroom).mono (Nat.le_succ _)
    · exact .broken _

theorem childrenBounded_proceedsAt {comma : Bool} (hlo : lo ≤ d.editor.index)
    (hn : c.sheet.tokens.size - d.editor.index < n) :
    ProceedsAt c d d.editor.index (childrenBounded k comma n) := by
  induction n generalizing d comma with
  | zero => omega
  | succ n ih =>
    refine .look (d.editor.current c.sheet) rfl ?_
    by_cases hend : (d.editor.current c.sheet).kind = .eof
    · simp only [hend]
      exact .broken _
    have hroom := Scene.Ended.room d.editor hend
    have hinner : k.Proceeding c (d.editor.index + 1) := hk.mono (by omega)
    have hrest : ∀ comma, Proceeds c (d.editor.index + 1) (childrenBounded k comma n) :=
      fun comma => ⟨fun d' hle => ih (by omega) (by omega)⟩
    split
    · refine .look (d.editor.sees c.sheet [.jsxTagStart, .slash]) rfl ?_
      split
      · exact .pure _ (Nat.le_refl _)
      · refine .bind_still inferInstance (append_passes _) fun _ d' hindex => ?_
        rw [← hindex] at hlo hroom hrest ⊢
        exact (hk.element.bind hlo hroom fun _ => inferInstance).mono (Nat.le_succ _)
    · refine .look (d.editor.currentText c.sheet) rfl ?_
      dsimp only
      split
      · exact (remove_advancing.bind hlo hroom fun _ => inferInstance).mono (Nat.le_succ _)
      · exact ((replace_advancing _).bind hlo hroom fun _ => inferInstance).mono (Nat.le_succ _)
    · exact (remove_advancing.bind hlo hroom fun _ => inferInstance).mono (Nat.le_succ _)
    · refine .look (d.editor.sees c.sheet [.braceL, .braceR]) rfl ?_
      split
      · exact (remove_advancing.bind hlo hroom fun _ => inferInstance).mono (Nat.le_succ _)
      · exact ((replace_advancing _).bind hlo hroom fun _ => inferInstance).mono (Nat.le_succ _)
    · exact .broken _

instance (comma : Bool) : Proceeds c lo (children k comma) :=
  ⟨fun _ hlo => .look _ rfl (childrenBounded_proceedsAt hlo (by omega))⟩

omit hk in
instance (code : String) : Proceeds c lo (closingTag code) := by
  have hloop : Proceeds c lo (whileHolds (return !(← seeing [.jsxTagEnd])) do
      if ← atEnd then broken .unterminatedClosingTag
      remove) := by
    refine whileHolds_proceeds (fun _ => rfl) fun d hlo _ => ?_
    unfold Breaks
    rw [run_look (d.editor.atEnd c.sheet) rfl]
    cases hend : d.editor.atEnd c.sheet with
    | true => exact .inr ⟨_, rfl, c.blames_broken ..⟩
    | false =>
      have hroom := room_of_not_atEnd hend
      refine .inl ⟨by omega, .look (d.editor.atEnd c.sheet) rfl ?_⟩
      rw [hend]
      exact remove_advancing d hlo hroom
  unfold closingTag
  infer_instance

/-- What is noted for a key is there to be taken out again. -/
theorem keyValue_proceeds : Proceeds c lo (do
    let bookmark := (← editor).bookmark
    attributeValue k
    match (← editor).extract? (← sheet) bookmark with
    | some (code, e) =>
      modify fun d => { d with editor := e }
      return String.ofList (code.toList.dropWhile Text.isBlank)
    | none => throw (.fault (.missingEdits bookmark.logSize))) where
  proceedsAt d hlo := by
    have hvalue : Proceeds c lo (attributeValue k) := inferInstance
    refine .look d.editor rfl ((hvalue.proceedsAt d hlo).bind_within fun _ d' hrun _ => ?_)
    have hreaches := ((hvalue.proceedsAt d hlo).writes _ _ hrun).1
    obtain ⟨code, found, hfound, hback⟩ := Editor.extract?_of_reaches hreaches c.sheet
    rw [run_look d'.editor rfl, run_look c.sheet rfl, hfound]
    refine ⟨nofun, ?_⟩
    rintro _ _ ⟨⟩
    exact ⟨hback, hback.index⟩

instance (previous : Option String) : Obeys c (.proceeding lo) (keyAttribute k previous) := by
  unfold keyAttribute
  refine .bind inferInstance fun _ => .bind inferInstance fun _ => .bind inferInstance fun isSet =>
    ?_
  exact .ite (.bind inferInstance fun _ => keyValue_proceeds.obeys) inferInstance

omit hk

variable (hroom : d.editor.index + 1 < c.sheet.tokens.size) [k.Proceeding c (d.editor.index + 1)]
include hroom

/-- An element begins with a token that is replaced, and what is in it comes behind that. -/
theorem classicElement_proceedsAt (pragmas : Pragmas) :
    ProceedsAt c d (d.editor.index + 1) (classicElement k pragmas) :=
  (replace_advancing _).bind (Nat.zero_le _) hroom fun _ => inferInstance

theorem automaticCall_proceedsAt (hasChildren isStatic : Bool) :
    ProceedsAt c d (d.editor.index + 1) (automaticCall k hasChildren isStatic) := by
  refine .look c rfl (.look (d.editor.current c.sheet) rfl ?_)
  refine .bind_still inferInstance (runtimeImport_passes _ _) fun runtime d' hindex => ?_
  rw [← hindex] at hroom ⊢
  have hinner : k.Proceeding c (d'.editor.index + 1) := hindex ▸ inferInstance
  exact (replace_advancing _).bind (Nat.zero_le _) hroom fun _ => inferInstance

theorem element_proceedsAt : ProceedsAt c d (d.editor.index + 1) (element k) := by
  refine .look c rfl (.look (d.editor.current c.sheet) rfl ?_)
  split
  · exact .broken _
  · split
    · exact classicElement_proceedsAt hroom _
    · split
      · refine .bind_still inferInstance (runtimeImport_passes _ _) fun base d' hindex => ?_
        rw [← hindex] at hroom ⊢
        have hinner : k.Proceeding c (d'.editor.index + 1) := hindex ▸ inferInstance
        exact classicElement_proceedsAt hroom _
      · exact automaticCall_proceedsAt hroom _ _

end Elements

/-! ## The walk -/

section Walk

variable [c.Ended] {k : Knot}

section Tokens

variable (hroom : d.editor.index + 1 < c.sheet.tokens.size) [k.Proceeding c (d.editor.index + 1)]
  (helement : ProceedsAt c d (d.editor.index + 1) k.element)
include hroom helement

theorem valueToken_proceedsAt (t : Token) :
    ProceedsAt c d (d.editor.index + 1) (valueToken k t) := by
  have hcopy : ProceedsAt c d (d.editor.index + 1) copy := copy_advancing d (Nat.zero_le _) hroom
  have hname : ProceedsAt c d (d.editor.index + 1) name := name_advancing d (Nat.zero_le _) hroom
  refine .look c rfl (.look d.editor.index rfl ?_)
  split
  · split
    · exact helement
    · exact hcopy
  iterate 2
    · split
      · exact moduleStatement_proceedsAt hroom _
      · exact hcopy
  iterate 2
    · split
      · exact enumeration_proceedsAt hroom
      · split
        · exact hname
        · exact hcopy
  · exact hname
  · exact hcopy

theorem token_proceedsAt : ProceedsAt c d (d.editor.index + 1) (token k) := by
  refine .look (d.editor.current c.sheet) rfl ?_
  split
  · exact eraseTypes_advancing d (Nat.zero_le _) hroom
  · refine .look c.sheet rfl (.look d.editor.index rfl ?_)
    split
    · rename_i arrow harrow
      have hkinds := Sheet.hasKinds_one_iff.mpr (arrowAfterType?_eq_some harrow).2.2.2
      exact eraseReturnType_advancing hkinds d (Nat.zero_le _) hroom
    · exact valueToken_proceedsAt hroom helement _

end Tokens

/-- Constructs at a token nest no deeper than twice the number of tokens from there on: an element
is met by way of its first token, and what is in it comes behind that. -/
theorem nested_proceedsAt (n : Nat) :
    (∀ d : Draft, d.editor.index + 1 < c.sheet.tokens.size →
      2 * (c.sheet.tokens.size - 1 - d.editor.index) ≤ n →
      ProceedsAt c d (d.editor.index + 1) (nested n).token) ∧
    ∀ d : Draft, d.editor.index + 1 < c.sheet.tokens.size →
      2 * (c.sheet.tokens.size - 1 - d.editor.index) ≤ n + 1 →
      ProceedsAt c d (d.editor.index + 1) (nested n).element := by
  induction n with
  | zero => exact ⟨fun d hroom hn => by omega, fun d hroom hn => by omega⟩
  | succ n ih =>
    have hinner : ∀ d : Draft, d.editor.index + 1 < c.sheet.tokens.size →
        2 * (c.sheet.tokens.size - 1 - d.editor.index) ≤ n + 2 →
        (nested n).Proceeding c (d.editor.index + 1) := fun d hroom hn =>
      ⟨fun d' hle hroom' => ih.1 d' hroom' (by omega), fun d' hle hroom' =>
        ih.2 d' hroom' (by omega)⟩
    refine ⟨fun d hroom hn => ?_, fun d hroom hn => ?_⟩
    · have hk := hinner d hroom (by omega)
      exact token_proceedsAt hroom (ih.2 d hroom hn)
    · have hk := hinner d hroom hn
      exact element_proceedsAt hroom

instance : (nested (2 * (c.sheet.tokens.size + 1))).Proceeding c 0 :=
  ⟨fun d _ hroom => (nested_proceedsAt _).1 d hroom (by omega),
    fun d _ hroom => (nested_proceedsAt _).2 d hroom (by omega)⟩

/-- Lowering a whole snippet meets no fault. -/
theorem snippet_proceeds : Proceeds c 0 snippet where
  proceedsAt d hlo := by
    refine .look (c.sheet.tokens.size + 1) rfl ?_
    dsimp only
    refine (whileHolds_proceeds (fun _ => rfl) fun d hlo hb => ?_).proceedsAt d hlo
    change (!d.editor.atEnd c.sheet) = true at hb
    have hroom := room_of_not_atEnd (by simpa using hb)
    refine .inl ⟨by omega, .bind_still inferInstance openWrap_passes fun _ d' hindex => ?_⟩
    rw [← hindex] at hroom ⊢
    exact Knot.Proceeding.token.bind (Nat.zero_le _) hroom fun _ => inferInstance

end Walk

end Lowering

end Downlevel
