import Downlevel.Text.Utf8

/-! # Points

A point is a place in a text together with the text that follows it, so that reading on from it
takes no search. -/

namespace Downlevel.Text

/-- A place in a text: its byte offset, and the characters from there on. -/
structure Point where
  offset : Nat
  rest : List Char
deriving DecidableEq, Repr

namespace Point

def first (text : List Char) : Point := ⟨0, text⟩

def last (text : List Char) : Point := ⟨size text, []⟩

def skip (p : Point) (n : Nat) : Point := ⟨p.offset + size (p.rest.take n), p.rest.drop n⟩

/-- The text from `p` to `q`, empty when `q` is not after `p`. -/
def upTo (p q : Point) : List Char := upto (q.offset - p.offset) p.rest

/-- The text from `p` to `q`, when it holds whole characters only; empty when `q` is not after
`p`. -/
def between? (p q : Point) : Option (List Char) := take? (q.offset - p.offset) p.rest

/-- The point one byte further on, when that is the next character. -/
def afterByte? (p : Point) : Option Point :=
  match p.rest with
  | c :: _ => if c.utf8Size = 1 then some (p.skip 1) else none
  | [] => none

/-- The point `p` belongs to `text`: its rest is what follows its offset there. -/
def In (p : Point) (text : List Char) : Prop :=
  ∃ before, text = before ++ p.rest ∧ size before = p.offset

theorem first_in (text : List Char) : (first text).In text := ⟨[], rfl, rfl⟩

theorem last_in (text : List Char) : (last text).In text := ⟨text, by simp [last], rfl⟩

theorem skip_in {p : Point} {text : List Char} (h : p.In text) (n : Nat) : (p.skip n).In text := by
  obtain ⟨before, rfl, hsize⟩ := h
  exact ⟨before ++ p.rest.take n, by simp [skip], by simp [skip, hsize]⟩

theorem offset_le_skip (p : Point) (n : Nat) : p.offset ≤ (p.skip n).offset :=
  Nat.le_add_right _ _

end Point

end Downlevel.Text
