import CodeGraph.Text.Basic

namespace CodeGraph

open CodeGraph.Text

/-!
# Modules that are never linked to
-/

/-- Patterns of module names. A trailing star stands for any ending, and the case of ASCII letters
does not count. -/
structure Ignored where
  patterns : List String
  deriving DecidableEq, Repr, Inhabited

namespace Ignored

def matchesName (pattern name : String) : Bool :=
  match pattern.toList.reverse with
  | '*' :: start =>
    (Chars.dropPrefix? (lowerAscii (.ofList start.reverse)).toList (lowerAscii name).toList).isSome
  | _ => eqIgnoreCase name pattern

def covers (i : Ignored) (name : String) : Bool :=
  i.patterns.any (matchesName · name)

def platform : Ignored :=
  ⟨["mscorlib", "netstandard", "System", "System.*", "Microsoft.*", "WindowsBase", "PresentationCore",
    "PresentationFramework"]⟩

end Ignored

end CodeGraph
