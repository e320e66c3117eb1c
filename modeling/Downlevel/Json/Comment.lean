/-! # Comments in JSON

Configurations may hold comments, which are taken out before the text is read. -/

namespace Downlevel.Json

inductive CommentMode where
  | code
  | string
  | line
  | block
deriving DecidableEq, Repr

/-- Takes the comments out of a text that starts in a given mode. A comment that is not closed goes
on to the end. -/
def withoutCommentsFrom : CommentMode → List Char → List Char
  | _, [] => []
  | .code, '/' :: '/' :: cs => withoutCommentsFrom .line cs
  | .code, '/' :: '*' :: cs => withoutCommentsFrom .block cs
  | .code, c :: cs => c :: withoutCommentsFrom (if c == '"' then .string else .code) cs
  | .string, '\\' :: c :: cs => '\\' :: c :: withoutCommentsFrom .string cs
  | .string, c :: cs => c :: withoutCommentsFrom (if c == '"' then .code else .string) cs
  | .line, c :: cs =>
    if c == '\n' then c :: withoutCommentsFrom .code cs else withoutCommentsFrom .line cs
  | .block, '*' :: '/' :: cs => withoutCommentsFrom .code cs
  | .block, _ :: cs => withoutCommentsFrom .block cs

def withoutComments (text : List Char) : List Char := withoutCommentsFrom .code text

end Downlevel.Json
