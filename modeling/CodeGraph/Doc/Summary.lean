import CodeGraph.Xml.Document

namespace CodeGraph.Doc

open CodeGraph.Text

/-!
# One-line descriptions

A documentation comment is a fragment of XML. Its description is the text of its summary, or all its
text when it has none, with blanks collapsed; an empty element that refers to a name stands for the
last part of that name.
-/

/-- `T:System.String` is shortened to `String`. -/
def shortReference (cref : String) : String :=
  let name := match Chars.cut? (· == ':') cref.toList with
    | some (_, _, rest) => rest
    | none => cref.toList
  afterLast (· == '.') (.ofList (name.takeWhile (· != '(')))

def reference? (attributes : List (String × String)) : Option String :=
  (attributes.lookup "cref").or ((attributes.lookup "langword").or (attributes.lookup "name"))

mutual

def textOf : Xml.Node → String
  | .text value => value
  | .element _ attributes [] =>
    match reference? attributes with
    | some name => " " ++ shortReference name ++ " "
    | none => ""
  | .element _ _ children => textOfAll children
  | _ => ""

def textOfAll : List Xml.Node → String
  | [] => ""
  | node :: more => textOf node ++ textOfAll more

end

/-- A description that says nothing is none. -/
def nonEmpty (text : String) : Option String :=
  if text.isEmpty then none else some text

def summarizeElement (node : Xml.Node) : Option String :=
  let summary := (node.children.find? (·.isNamed "summary")).getD node
  nonEmpty (collapseBlanks (textOfAll summary.children))

/-- Description of a comment's text; text that is no XML is taken as it is. -/
def summarize (fragment : String) : Option String :=
  match Xml.parse? ("<doc>" ++ fragment ++ "</doc>") with
  | some root => summarizeElement root
  | none => nonEmpty (collapseBlanks fragment)

/-- Every leading run of three slashes is dropped. -/
def dropSlashes : Chars → Chars
  | '/' :: '/' :: '/' :: r => dropSlashes r
  | s => s

def stripMarkers (lines : List String) : String :=
  joinWith "\n" (lines.map fun l => .ofList (dropSlashes (Chars.trimStart l.toList)))

end CodeGraph.Doc
