import Downlevel.Report.Diagnostic
import Downlevel.Proofs.Compile.Places
import Downlevel.Proofs.Run.Frame

/-!
# From an error back to the snippet

An error that compiled code throws at a recorded place is found again in the snippet, whatever
stands before the code, and nothing else is found (`resolve_at_recorded`). The position goes through
the map and back: it is encoded and decoded as part of the map, looked up exactly, and turned into
an offset of the snippet.
-/

namespace Downlevel

open Text (LineIndex Place positionOf size)

variable {origin target : Position} {p : Nat × Nat} {prologue : String}

/-! ## Reported positions -/

/-- The error gives a line and a column: in fields of their own or, where one of these is missing,
in the leftmost frame of its stack. -/
inductive Thrown.Reports (e : Thrown) (line column : Nat) : Prop where
  | fields (hline : e.lineNumber = some line) (hcolumn : e.columnNumber = some column)
  | frame {stack : String} (hmissing : e.lineNumber = none ∨ e.columnNumber = none)
      (hstack : e.stack = some stack) (hleads : Frame.Leads stack line column)
      (hline : line ≤ Location.limit) (hcolumn : column ≤ Location.limit)

theorem Thrown.Reports.reported?_eq {e : Thrown} {line column : Nat} (h : e.Reports line column) :
    e.reported? = some (line, column) := by
  cases h with
  | fields hline hcolumn => rw [reported?, hline, hcolumn]
  | frame hmissing hstack hleads hline hcolumn =>
    have hframe := Frame.position?_of_leads hleads hline hcolumn
    unfold reported?
    split
    · rename_i hline hcolumn
      simp [hline, hcolumn] at hmissing
    · rw [hstack, Option.bind_some, hframe]

/-! ## Locators -/

namespace Locator

variable {e : Thrown}

theorem locate?_of_segment (l : Locator) {segment : SourceMap.Segment} {origin : SourceMap.Origin}
    (hreported : e.reported? = some (target.line + 1 + l.lineOffset, target.column + 1))
    (hsegment : l.mappings.segmentAt? target.line target.column = some segment)
    (horigin : segment.origin = some origin) :
    l.locate? e = some { line := lineNumber origin.line, column := origin.column } := by
  have hle : ¬ target.line + 1 + l.lineOffset < 1 + l.lineOffset := by omega
  simp [locate?, hreported, hle, hsegment, horigin]

/-- What is found starts a segment, at the line and column that the error gives. -/
theorem segment_of_locate? {l : Locator} {found : Location} (h : l.locate? e = some found) :
    ∃ line column segment origin, e.reported? = some (line, column) ∧ 1 + l.lineOffset ≤ line ∧
      l.mappings.segmentAt? (line - 1 - l.lineOffset) (column - 1) = some segment ∧
      segment.origin = some origin ∧
      found = { line := lineNumber origin.line, column := origin.column } := by
  simp only [locate?, Option.bind_eq_bind, Option.bind_eq_some_iff, Prod.exists] at h
  obtain ⟨line, column, hreported, h⟩ := h
  split at h
  · simp at h
  · rename_i hle
    simp only [Option.pure_def, Option.bind_eq_some_iff, Option.some.injEq] at h
    obtain ⟨segment, hsegment, origin, horigin, rfl⟩ := h
    exact ⟨line, column, segment, origin, hreported, Nat.not_lt.mp hle, hsegment, horigin, rfl⟩

end Locator

theorem Outcome.resolve_threw {map : SourceMap} {l : Locator}
    (h : Locator.ofMap map prologue = .ok l) (e : Thrown) :
    ∃ failure, (Outcome.threw e prologue).resolve map = .ok (.error failure) ∧
      failure.thrown = l.resolve e := by
  rw [Outcome.resolve, h]
  dsimp only [bind, Except.bind]
  split
  · exact ⟨_, rfl, rfl⟩
  · exact ⟨_, rfl, rfl⟩

/-! ## Diagnostics -/

/-- A word is found at the position of its first character. -/
theorem Diagnostic.wordAt?_positionOf (before rest : List Char)
    (h : size before < LineIndex.offsetCount) :
    ∃ stop, wordAt? (before ++ rest) (positionOf before) = some ⟨size before, stop⟩ := by
  simp only [wordAt?, LineIndex.offset?_positionOf h, Option.bind_eq_bind, Option.bind_some,
    Text.drop?_size_append, Option.pure_def]
  exact ⟨_, rfl⟩

/-! ## The round trip -/

/-- The locator for a compiled snippet behind a prologue. -/
def Compiled.locator (text : List Char) (out : Compiled) (prologue : String) : Locator :=
  ⟨(SourceMap.segments text out.code.toList out.places).prune, prologueLines prologue⟩

section RoundTrip

variable {text : List Char} {out : Compiled} (h : Compile.Traced text out)
  (htext : size text < 0x100000000) (hcode : size out.code.toList < 0x100000000)
include h htext hcode

omit htext hcode in
/-- The map of a compiled snippet is read back as it was made. -/
theorem Compile.Traced.ofMap_eq (prologue : String) :
    Locator.ofMap out.map prologue = .ok (out.locator text prologue) := by
  obtain ⟨name, hmap⟩ := h.map
  rw [Locator.ofMap, hmap, SourceMap.decode_build]
  rfl

omit hcode in
/-- The line of a recorded origin has a number, since text follows it. -/
theorem Compile.Traced.lineNumber_eq (hp : p ∈ out.places)
    (hland : SourceMap.landing? text out.code.toList p = some (target, origin)) :
    Locator.lineNumber origin.line = origin.line + 1 := by
  obtain ⟨x, before, hland', -, -, -, hsize⟩ :=
    SourceMap.landing?_of_place (h.paired p hp).1 (h.paired p hp).2
  rw [hland] at hland'
  simp only [Option.some.injEq, Prod.mk.injEq] at hland'
  have hle := Text.positionOf_line_le before
  have hlt := h.inside p hp
  rw [hland'.2]
  exact Nat.mod_eq_of_lt (show (positionOf before).line + 1 < 0x100000000 by omega)

/-- An error at the position of a recorded place is located where the place comes from. -/
theorem Compile.Traced.locate?_eq (hp : p ∈ out.places)
    (hland : SourceMap.landing? text out.code.toList p = some (target, origin)) {e : Thrown}
    (he : e.Reports (target.line + 1 + prologueLines prologue) (target.column + 1)) :
    (out.locator text prologue).locate? e =
      some { line := origin.line + 1, column := origin.column } := by
  have hsegment := SourceMap.segmentAt?_of_mem hcode htext h.paired h.unambiguous hp hland
  have hlocate :=
    Locator.locate?_of_segment (out.locator text prologue) he.reported?_eq hsegment rfl
  rw [hlocate]
  exact congrArg (fun n => some (Location.mk n origin.column)) (h.lineNumber_eq htext hp hland)

/-- What is located is the origin of a recorded place, at whose position the error is. -/
theorem Compile.Traced.recorded_of_locate? {e : Thrown} {found : Location}
    (hfound : (out.locator text prologue).locate? e = some found) :
    ∃ p ∈ out.places, ∃ target origin,
      SourceMap.landing? text out.code.toList p = some (target, origin) ∧
      found = { line := origin.line + 1, column := origin.column } ∧
      ∃ column, e.reported? = some (target.line + 1 + prologueLines prologue, column) ∧
        column - 1 = target.column := by
  obtain ⟨line, column, segment, origin, hreported, hle, hsegment, horigin, rfl⟩ :=
    Locator.segment_of_locate? hfound
  have hline : line = line - 1 - prologueLines prologue + 1 + prologueLines prologue := by
    dsimp only [Compiled.locator] at hle
    omega
  obtain ⟨p, hp, origin', hland, rfl⟩ := SourceMap.mem_of_segmentAt? hcode htext h.paired
    ⟨line - 1 - prologueLines prologue, column - 1⟩ hsegment
  cases horigin
  refine ⟨p, hp, _, origin', hland, ?_, column, ?_, rfl⟩
  · exact congrArg (Location.mk · origin'.column) (h.lineNumber_eq htext hp hland)
  · exact hreported.trans (congrArg (fun n => some (n, column)) hline)

end RoundTrip

theorem SourceMap.position?_of_landing? {source generated : List Char}
    (h : SourceMap.landing? source generated p = some (target, origin)) :
    (LineIndex.ofText generated).position? generated p.1 = some target ∧
      (LineIndex.ofText source).position? source p.2 = some origin := by
  simp only [SourceMap.landing?, Option.bind_eq_bind, Option.bind_eq_some_iff, Option.pure_def,
    Option.some.injEq, Prod.mk.injEq] at h
  obtain ⟨_, htarget, _, horigin, rfl, rfl⟩ := h
  exact ⟨htarget, horigin⟩

/-- Take any compiled snippet, and texts that are less than 4 GiB long. An error that is reported at
the position of a recorded place, shifted by the lines of the prologue, gets the position that the
place has in the snippet, and its diagnostic points there. A location is found only at the position
of a recorded place. -/
theorem resolve_at_recorded {text : List Char} {options : CompileOptions} {out : Compiled}
    (hcompile : compile text options = .ok out) (htext : size text < 0x100000000)
    (hcode : size out.code.toList < 0x100000000) :
    (∀ g o, (g, o) ∈ out.places → ∃ target origin,
      (LineIndex.ofText out.code.toList).position? out.code.toList g = some target ∧
      (LineIndex.ofText text).position? text o = some origin ∧
      ∀ (prologue : String) (e : Thrown),
        e.Reports (target.line + 1 + prologueLines prologue) (target.column + 1) →
        ∃ failure, (Outcome.threw e prologue).resolve out.map = .ok (.error failure) ∧
          failure.thrown =
            { e with location := some { line := origin.line + 1, column := origin.column } } ∧
          ∃ stop, (Diagnostic.ofThrown text failure.thrown).span = some ⟨o, stop⟩) ∧
    ∀ prologue : String, ∃ l, Locator.ofMap out.map prologue = .ok l ∧
      ∀ (e : Thrown) (found : Location), l.locate? e = some found → ∃ g o, (g, o) ∈ out.places ∧
        ∃ target origin,
          (LineIndex.ofText out.code.toList).position? out.code.toList g = some target ∧
          (LineIndex.ofText text).position? text o = some origin ∧
          found = { line := origin.line + 1, column := origin.column } ∧
          ∃ column, e.reported? = some (target.line + 1 + prologueLines prologue, column) ∧
            column - 1 = target.column := by
  have h := Compile.traced_of_compile hcompile
  refine ⟨fun g o hmem => ?_, fun prologue => ⟨_, h.ofMap_eq prologue, ?_⟩⟩
  · obtain ⟨x, before, hland, -, ⟨rest, hrest⟩, -, hsize⟩ :=
      SourceMap.landing?_of_place (h.paired _ hmem).1 (h.paired _ hmem).2
    obtain ⟨htarget, horigin⟩ := SourceMap.position?_of_landing? hland
    refine ⟨positionOf x, positionOf before, htarget, horigin, fun prologue e he => ?_⟩
    obtain ⟨failure, hresolve, hthrown⟩ := Outcome.resolve_threw (h.ofMap_eq prologue) e
    have hlocate := h.locate?_eq htext hcode hmem hland he
    rw [Locator.resolve, hlocate] at hthrown
    refine ⟨failure, hresolve, hthrown, ?_⟩
    have hlt : size before < LineIndex.offsetCount := by
      have hinside := h.inside _ hmem
      simp only [LineIndex.offsetCount] at *
      omega
    obtain ⟨stop, hword⟩ := Diagnostic.wordAt?_positionOf before rest hlt
    rw [← hrest, hsize] at hword
    rw [hthrown]
    exact ⟨stop, hword⟩
  · intro e found hfound
    obtain ⟨⟨g, o⟩, hmem, target, origin, hland, heq, hcolumn⟩ :=
      h.recorded_of_locate? htext hcode hfound
    obtain ⟨htarget, horigin⟩ := SourceMap.position?_of_landing? hland
    exact ⟨g, o, hmem, target, origin, htarget, horigin, heq, hcolumn⟩

/-- A call of an import, between empty pieces of a template. -/
def calledInTemplate : List Char :=
  "import \x7b f \x7d from 'x'\nexport const é = \x60$\x7bf()\x7d\x60;\n".toList

theorem resolve_at_recorded_call :
    ∃ out, compile calledInTemplate { transforms := [.imports] } = .ok out ∧
      ∃ failure, (Outcome.threw { stack := some "TypeError\n    at <anonymous>:4:14" }
          "function anonymous(React\n) \x7b\n").resolve out.map = .ok (.error failure) ∧
        failure.thrown.location = some { line := 2, column := 20 } ∧
        ∃ stop, (Diagnostic.ofThrown calledInTemplate failure.thrown).span = some ⟨43, stop⟩ := by
  obtain ⟨out, hcompile, hcode, hmem, htarget⟩ : ∃ out,
      compile calledInTemplate { transforms := [.imports] } = .ok out ∧
        size out.code.toList < 0x100000000 ∧ (101, 43) ∈ out.places ∧
        (LineIndex.ofText out.code.toList).position? out.code.toList 101 = some ⟨1, 13⟩ :=
    exists_compiled (by decide +kernel)
  have horigin : (LineIndex.ofText calledInTemplate).position? calledInTemplate 43 =
      some ⟨1, 20⟩ := by decide +kernel
  have hleads : Frame.Leads "TypeError\n    at <anonymous>:4:14" 4 14 :=
    ⟨"<anonymous>".toList, by simp [Frame.heads], "TypeError\n    at ".toList, [],
      by decide +kernel, by simp, fun i hi => Frame.not_starts (by revert i; decide +kernel)⟩
  obtain ⟨target, origin, htarget', horigin', hresolve⟩ :=
    (resolve_at_recorded hcompile (by decide +kernel) hcode).1 101 43 hmem
  obtain rfl := Option.some.inj (htarget.symm.trans htarget')
  obtain rfl := Option.some.inj (horigin.symm.trans horigin')
  obtain ⟨failure, hfailure, hthrown, hspan⟩ := hresolve "function anonymous(React\n) \x7b\n"
    { stack := some "TypeError\n    at <anonymous>:4:14" }
    (.frame (.inl rfl) rfl hleads (by decide) (by decide))
  exact ⟨out, hcompile, failure, hfailure, by rw [hthrown], hspan⟩

/-- A stack with a message in which there is what looks like the frame of a function. -/
def frameInMessage : String := "TypeError: a > Function:9:9\n    at <anonymous>:3:1"

/-- The leftmost `<anonymous>` frame of a stack does not always count: the frame of a function may
come before it, and be it in the message of the error. -/
theorem anonymous_frame_missed : ¬ ∀ (text : List Char) (options : CompileOptions) (out : Compiled),
    compile text options = .ok out → size text < 0x100000000 →
    size out.code.toList < 0x100000000 → ∀ g o, (g, o) ∈ out.places → ∀ target origin,
    (LineIndex.ofText out.code.toList).position? out.code.toList g = some target →
    (LineIndex.ofText text).position? text o = some origin →
    ∀ (prologue stack : String) (e : Thrown),
    e.lineNumber = none → e.columnNumber = none → e.stack = some stack →
    Frame.LeadsAnonymous stack (target.line + 1 + prologueLines prologue) (target.column + 1) →
    target.line + 1 + prologueLines prologue ≤ Location.limit → target.column + 1 ≤ Location.limit →
    ∃ failure, (Outcome.threw e prologue).resolve out.map = .ok (.error failure) ∧
      failure.thrown.location = some { line := origin.line + 1, column := origin.column } := by
  intro h
  obtain ⟨out, hcompile, hcode, hmem, htarget, hlines⟩ : ∃ out,
      compile "f()".toList { transforms := [] } = .ok out ∧ size out.code.toList < 0x100000000 ∧
        (0, 0) ∈ out.places ∧
        (LineIndex.ofText out.code.toList).position? out.code.toList 0 = some ⟨0, 0⟩ ∧
        ∀ p ∈ out.places, ∀ r ∈ SourceMap.landing? "f()".toList out.code.toList p, r.1.line = 0 :=
    exists_compiled (by decide +kernel)
  have htext : size "f()".toList < 0x100000000 := by decide +kernel
  have hleads : Frame.LeadsAnonymous frameInMessage 3 1 :=
    ⟨"TypeError: a > Function:9:9\n    at ".toList, [], by decide +kernel, by simp,
      by decide +kernel⟩
  obtain ⟨failure, hresolve, hlocation⟩ := h _ _ out hcompile htext hcode 0 0 hmem ⟨0, 0⟩ ⟨0, 0⟩
    htarget (by decide +kernel) "function anonymous(f\n) \x7b\n" _
    { stack := some frameInMessage } rfl rfl rfl hleads (by decide) (by decide)
  -- the frame that is found is on a line that the code does not have
  have htraced := Compile.traced_of_compile hcompile
  obtain ⟨failure', hresolve', hthrown⟩ := Outcome.resolve_threw (htraced.ofMap_eq _) _
  rw [hresolve'] at hresolve
  cases hresolve
  rw [hthrown, Locator.resolve] at hlocation
  obtain ⟨p, hp, target, origin, hland, -, column, hreported, -⟩ :=
    htraced.recorded_of_locate? htext hcode hlocation
  have hfound : Thrown.reported? { stack := some frameInMessage } = some (9, 9) := by decide +kernel
  have hprologue : prologueLines "function anonymous(f\n) \x7b\n" = 2 := by decide +kernel
  have hline : target.line = 0 := hlines p hp _ hland
  rw [hfound, hprologue] at hreported
  simp only [Option.some.injEq, Prod.mk.injEq] at hreported
  omega

end Downlevel
