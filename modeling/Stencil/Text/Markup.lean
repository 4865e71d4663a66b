/-!
# Text inside markup

The five characters that markup gives a meaning to are written as references; every other character
stands for itself.
-/

namespace Stencil.Text.Markup

/-- The spelling of one character inside markup. -/
def spelling : Char → List Char
  | '&' => ['&', 'a', 'm', 'p', ';']
  | '<' => ['&', 'l', 't', ';']
  | '>' => ['&', 'g', 't', ';']
  | '"' => ['&', 'q', 'u', 'o', 't', ';']
  | '\'' => ['&', '#', '3', '9', ';']
  | c => [c]

def escapeChars (cs : List Char) : List Char := cs.flatMap spelling

/-- Writes `s` so that markup reads it back as plain text. -/
def escape (s : String) : String := String.ofList (escapeChars s.toList)

@[simp] theorem escapeChars_nil : escapeChars [] = [] := rfl

@[simp] theorem escapeChars_cons (c : Char) (cs : List Char) :
    escapeChars (c :: cs) = spelling c ++ escapeChars cs := rfl

theorem escapeChars_append (cs ds : List Char) :
    escapeChars (cs ++ ds) = escapeChars cs ++ escapeChars ds := by
  simp [escapeChars]

@[simp] theorem toList_escape (s : String) : (escape s).toList = escapeChars s.toList := by
  simp [escape]

end Stencil.Text.Markup
