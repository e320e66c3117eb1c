import Downlevel.Json.Comment
import Mathlib.Data.List.Infix

/-!
# Only comments are taken out

A text is read as segments: string literals, comments and single characters (`Segment`). Of a text
that falls into segments exactly the comments go, and a text without its comments has none to take
out (`withoutComments_only_comments`).
-/

namespace Downlevel.Json

/-- A part of a text that goes or stays as a whole. -/
inductive Segment where
  /-- what stands between two quotes -/
  | string (content : List Char)
  | line (body : List Char)
  | block (body : List Char)
  | other (c : Char)
deriving DecidableEq, Repr

namespace Segment

def text : Segment → List Char
  | string content => '"' :: content ++ ['"']
  | line body => '/' :: '/' :: body
  | block body => '/' :: '*' :: body ++ ['*', '/']
  | other c => [c]

def isComment : Segment → Bool
  | line _ | block _ => true
  | string _ | other _ => false

/-- No quote stands bare in the content of a string, and its last backslash is not left over. -/
def isContent : List Char → Bool
  | [] => true
  | '\\' :: _ :: cs => isContent cs
  | c :: cs => c != '"' && c != '\\' && isContent cs

/-- The segment ends where its text does, with regard to the text that follows. -/
def fits : Segment → List Char → Bool
  | string content, _ => isContent content
  | line body, after => !body.contains '\n' && after.head?.all (· == '\n')
  | block body, _ => decide (¬ ['*', '/'] <:+: body)
  | other c, after => c != '"' && (c != '/' || after.head?.all fun d => d != '/' && d != '*')

/-- The text of some segments. -/
def texts (segments : List Segment) : List Char := segments.flatMap text

/-- Each of the segments fits before the text of the others. -/
def allFit : List Segment → Bool
  | [] => true
  | segment :: rest => segment.fits (texts rest) && allFit rest

end Segment

open Segment (isContent texts allFit)

variable {c : Char} {cs after : List Char}

attribute [local simp] withoutCommentsFrom

theorem from_code_cons (h : c ≠ '/') : withoutCommentsFrom .code (c :: cs) =
    c :: withoutCommentsFrom (if c == '"' then .string else .code) cs := by
  rw [withoutCommentsFrom] <;> simp [h]

/-- A slash stays when it begins no comment. -/
theorem from_code_slash (h : (cs.head?.all fun d => d != '/' && d != '*') = true) :
    withoutCommentsFrom .code ('/' :: cs) = '/' :: withoutCommentsFrom .code cs := by
  rw [withoutCommentsFrom]
  · simp
  all_goals
    rintro ds - rfl
    simp at h

theorem from_string_cons (h : c ≠ '\\') : withoutCommentsFrom .string (c :: cs) =
    c :: withoutCommentsFrom (if c == '"' then .code else .string) cs := by
  rw [withoutCommentsFrom]
  simp [h]

/-! ## One segment -/

theorem from_string_content (h : isContent cs = true) :
    withoutCommentsFrom .string (cs ++ '"' :: after) =
      cs ++ '"' :: withoutCommentsFrom .code after := by
  fun_induction isContent cs with
  | case1 => exact from_string_cons (by decide)
  | case2 d ds ih => simp only [List.cons_append, withoutCommentsFrom, ih h]
  | case3 d ds _ ih =>
    simp only [Bool.and_eq_true, bne_iff_ne] at h
    simp [from_string_cons h.1.2, h.1.1, ih h.2]

theorem from_line_body (h : '\n' ∉ cs) (hafter : after.head?.all (· == '\n') = true) :
    withoutCommentsFrom .line (cs ++ after) = withoutCommentsFrom .code after := by
  induction cs with
  | nil =>
    cases after with
    | nil => rfl
    | cons d ds =>
      obtain rfl : d = '\n' := by simpa using hafter
      rw [List.nil_append, from_code_cons (by decide)]
      rfl
  | cons d ds ih =>
    obtain ⟨hd, hds⟩ : '\n' ≠ d ∧ '\n' ∉ ds := by simpa using h
    simp only [List.cons_append, withoutCommentsFrom, beq_iff_eq, hd.symm, if_false, ih hds]

theorem from_block_body (h : ¬ ['*', '/'] <:+: cs) :
    withoutCommentsFrom .block (cs ++ '*' :: '/' :: after) = withoutCommentsFrom .code after := by
  induction cs with
  | nil => rfl
  | cons d ds ih =>
    rw [List.cons_append, withoutCommentsFrom]
    · exact ih fun hds => h (List.infix_cons hds)
    · rintro es rfl hes
      cases ds with
      | nil => cases hes
      | cons e ds =>
        obtain ⟨rfl, -⟩ := List.cons.inj hes
        exact h ⟨[], ds, rfl⟩

/-- A segment goes if it is a comment, stays if it is none, and leaves what follows to be read as
if nothing stood before. -/
theorem from_code_segment {segment : Segment} (h : segment.fits after = true) :
    withoutCommentsFrom .code (segment.text ++ after) =
      (if segment.isComment then [] else segment.text) ++ withoutCommentsFrom .code after := by
  cases segment with
  | string content =>
    have hcontent : withoutCommentsFrom .string (content ++ '"' :: after) = _ :=
      from_string_content h
    simpa [Segment.text, Segment.isComment, from_code_cons] using hcontent
  | line body =>
    obtain ⟨hbody, hafter⟩ : '\n' ∉ body ∧ after.head?.all (· == '\n') = true := by
      simpa [Segment.fits] using h
    exact from_line_body hbody hafter
  | block body =>
    have hbody : ¬ ['*', '/'] <:+: body := by simpa [Segment.fits] using h
    have hblock : withoutCommentsFrom .block (body ++ '*' :: '/' :: after) = _ :=
      from_block_body hbody
    simpa [Segment.text, Segment.isComment, withoutCommentsFrom] using hblock
  | other c =>
    obtain ⟨hquote, hslash⟩ : c ≠ '"' ∧
        (c = '/' → (after.head?.all fun d => d != '/' && d != '*') = true) := by
      simpa [Segment.fits, imp_iff_not_or] using h
    by_cases hc : c = '/'
    · subst hc
      exact from_code_slash (hslash rfl)
    · simp [Segment.text, Segment.isComment, from_code_cons hc, hquote]

/-- By induction on the segments. -/
theorem withoutComments_texts {segments : List Segment} (h : allFit segments = true) :
    withoutComments (texts segments) = texts (segments.filter (!·.isComment)) := by
  induction segments with
  | nil => rfl
  | cons segment rest ih =>
    obtain ⟨hfits, hrest⟩ := Bool.and_eq_true_iff.mp h
    have hsegment := from_code_segment hfits
    rw [show withoutCommentsFrom .code (texts rest) = _ from ih hrest] at hsegment
    refine hsegment.trans ?_
    cases hcomment : segment.isComment <;> simp [texts, hcomment]

/-! ## A second time -/

/-- How the text goes on to be read where the mode is left behind. -/
def CommentMode.resumed : CommentMode → CommentMode
  | .string => .string
  | .code | .line | .block => .code

/-- What is left of a text is not changed when it is read again. The comments are gone from it, and
no new one begins: a slash that stays is followed by what followed it before. -/
theorem from_resumed (mode : CommentMode) (cs : List Char) :
    withoutCommentsFrom mode.resumed (withoutCommentsFrom mode cs) =
      withoutCommentsFrom mode cs := by
  fun_induction withoutCommentsFrom mode cs with
  | case1 mode => cases mode <;> rfl
  | case2 cs ih | case3 cs ih => exact ih
  | case4 c cs hline hblock ih =>
    by_cases hc : c = '/'
    · subst hc
      refine (from_code_slash ?_).trans (congrArg _ ih)
      cases cs with
      | nil => rfl
      | cons d ds =>
        have hd : d ≠ '/' := fun hd => hline ds rfl (hd ▸ rfl)
        have hd' : d ≠ '*' := fun hd => hblock ds rfl (hd ▸ rfl)
        simp [from_code_cons hd, hd, hd']
    · refine (from_code_cons hc).trans (congrArg _ ?_)
      by_cases hquote : c = '"' <;> simpa [hquote, CommentMode.resumed] using ih
  | case5 c cs ih => exact congrArg (fun ds => '\\' :: c :: ds) ih
  | case6 c cs hescape ih =>
    by_cases hc : c = '\\'
    · subst hc
      cases cs with
      | nil => rfl
      | cons d ds => exact absurd rfl (hescape d ds rfl)
    · refine (from_string_cons hc).trans (congrArg _ ?_)
      by_cases hquote : c = '"' <;> simpa [hquote, CommentMode.resumed] using ih
  | case7 c cs hc ih =>
    obtain rfl : c = '\n' := by simpa using hc
    exact (from_code_cons (by decide)).trans (congrArg _ ih)
  | case8 c cs hc ih | case9 cs ih | case10 c cs _ ih => exact ih

/-- Of a text in segments exactly the comments are taken out, and from what is left of any text
nothing more is taken. -/
theorem withoutComments_only_comments :
    (∀ segments : List Segment, allFit segments = true →
      withoutComments (texts segments) = texts (segments.filter (!·.isComment))) ∧
    ∀ text : List Char, withoutComments (withoutComments text) = withoutComments text :=
  ⟨fun _ h => withoutComments_texts h, from_resumed .code⟩

/-- `{"a\"//":1/2,/* * */}// b` and a line feed after it, without the comments. -/
theorem withoutComments_only_comments_mixed :
    let segments : List Segment :=
      [.other '{', .string ['a', '\\', '"', '/', '/'], .other ':', .other '1', .other '/',
        .other '2', .other ',', .block [' ', '*', ' '], .other '}', .line [' ', 'b'], .other '\n']
    allFit segments = true ∧ withoutComments (texts segments) =
      texts (segments.filter (!·.isComment)) :=
  ⟨by decide, withoutComments_only_comments.1 _ (by decide)⟩

end Downlevel.Json
