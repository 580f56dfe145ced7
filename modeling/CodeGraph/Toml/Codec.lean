import CodeGraph.Toml.Document
import CodeGraph.Toml.Lines

namespace CodeGraph.Toml

/-!
# Codecs

What writes tables as texts and reads documents from texts is a library of its own. Whatever saves or loads
is handed one.
-/

/-- A writer, which may refuse a table, and a reader, which may refuse a text. -/
structure Codec where
  write? : Entries → Option String
  read? : String → Option Document

/-- The codec that the program runs with. -/
def Codec.standard : Codec :=
  ⟨entriesText?, Document.parse?⟩

end CodeGraph.Toml
