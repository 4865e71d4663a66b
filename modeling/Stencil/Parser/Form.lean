import Stencil.Node
import Stencil.Parser.Lexeme
import Stencil.Text.Before

/-!
# The forms of a node

Each form reads one kind of node. `body` reads the content of a block, up to its closing tag.
-/

namespace Stencil.Parser

def openMark : List Char := ['{', '{']

def closeMark : List Char := ['}', '}']

def rawOpenMark : List Char := ['{', '{', '{']

def rawCloseMark : List Char := ['}', '}', '}']

/-- The beginning of a tag that ends a block. -/
def endMark : List Char := ['{', '{', '/']

/-- The type names of a variable tag, which has them if a colon comes before. -/
def typesIf (annotated : Bool) : Parser (List String) :=
  if annotated then alternatives else pure []

/-- The part of a variable tag between the braces: `[@] path [?] [: type (| type)*]`. -/
def variableBody : Parser (Path × Option ValueType × Scope) := do
  blanks
  let atRoot ← accept ['@']
  let name ← path
  blanks
  let optional ← accept ['?']
  blanks
  let annotated ← accept [':']
  let types ← typesIf annotated
  blanks
  pure (name, if optional || annotated then some ⟨types, optional⟩ else none,
    if atRoot then .root else .context)

/-- `{{ … }}`, or `{{{ … }}}` if `raw`. -/
def variableTag (raw : Bool) : Parser Node := do
  expect (if raw then rawOpenMark else openMark)
  let (name, type, scope) ← variableBody
  expect (if raw then rawCloseMark else closeMark)
  pure (.var name raw type scope)

/-- The braces that open a tag, and whether they are those of a raw one. -/
def opening : Parser Bool := do
  let raw ← accept rawOpenMark
  if raw then pure true
  else
    expect openMark
    pure false

/-- `{{ . }}` or `{{{ . }}}` -/
def dotTag : Parser Node := do
  let raw ← opening
  blanks
  expect ['.']
  blanks
  expect (if raw then rawCloseMark else closeMark)
  pure (.dot raw)

/-- `{{/ path [?] }}`. The path need not be that of the block. -/
def endTag : Parser Path := do
  expect endMark
  let name ← path
  blanks
  let _ ← accept ['?']
  blanks
  expect closeMark
  pure name

/-- A block. A line feed right behind either of its tags belongs to the tag. -/
def blockTag (body : Parser (List Node)) : Parser Node := do
  expect ['{', '{', '#']
  let name ← path
  blanks
  let optional ← accept ['?']
  blanks
  expect closeMark
  let _ ← accept ['\n']
  let content ← body
  let _ ← endTag
  let _ ← accept ['\n']
  pure (.block name content optional)

def invertedTag (body : Parser (List Node)) : Parser Node := do
  expect ['{', '{', '^']
  let name ← path
  blanks
  expect closeMark
  let content ← body
  let _ ← endTag
  pure (.inverted name content)

/-- A comment ends at the first place where a tag could end. -/
def commentTag : Parser Node := do
  expect ['{', '{', '!']
  let content ← read (Text.before closeMark)
  expect closeMark
  pure (.comment (String.ofList content))

def referenceTag : Parser Node := do
  expect ['{', '{', '>']
  let name ← path
  blanks
  expect closeMark
  pure (.reference name)

/-- Text up to the next place where a tag begins. -/
def plainText : Parser Node := do
  let content ← read (Text.before openMark)
  if content = [] then raise (.expected "text") else pure (.text (String.ofList content))

inductive Form where
  | rawVar | var | block | inverted | comment | reference | dot | text
deriving DecidableEq

namespace Form

def all : List Form := [rawVar, var, block, inverted, comment, reference, dot, text]

def parse (body : Parser (List Node)) : Form → Parser Node
  | rawVar => variableTag true
  | var => variableTag false
  | block => blockTag body
  | inverted => invertedTag body
  | comment => commentTag
  | reference => referenceTag
  | dot => dotTag
  | text => plainText

end Form

end Stencil.Parser
