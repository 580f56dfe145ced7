import CodeGraph.Toml.Value

namespace CodeGraph.Toml

/-!
# Writing entries

Each entry has a line of its own. An array of several texts takes a line for each of them.
-/

def entryLine (key value : String) : String :=
  key ++ " = " ++ value ++ "\n"

def booleanText (b : Bool) : String :=
  if b then "true" else "false"

def textsIn (texts : List String) : String :=
  match texts with
  | [] => "[]"
  | [text] => "[" ++ quote text ++ "]"
  | texts => "[\n" ++ String.join (texts.map fun text => "    " ++ quote text ++ ",\n") ++ "]"

/-- The text of a value. Of arrays only those of texts have one; tables, dates and fractions have none. -/
def valueText? : Value → Option String
  | .boolean b => some (booleanText b)
  | .plain (.integer n) => some (toString n)
  | .text s => some (quote s)
  | .array elements => (elements.mapM Value.text?).map textsIn
  | _ => none

def entryText? (entry : String × Value) : Option String :=
  (valueText? entry.2).map (entryLine entry.1)

def entriesText? (entries : Entries) : Option String :=
  (entries.mapM entryText?).map String.join

end CodeGraph.Toml
