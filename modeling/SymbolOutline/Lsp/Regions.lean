import SymbolOutline.Mark.Features
import SymbolOutline.Json.Basic

/-
What language clients are sent about marks: folds, the name to change, and the changes.
-/

namespace SymbolOutline

/-- A position, as it is sent. -/
def Position.lsp (p : Position) : Json := .obj [("line", .nat p.line), ("character", .nat p.column)]

/-- A span, as it is sent. -/
def Span.lsp (s : Span) : Json := .obj [("start", s.start.lsp), ("end", s.stop.lsp)]

/-- A fold, as it is sent. -/
def Fold.lsp (f : Fold) : Json :=
  .obj [("startLine", .nat f.first), ("endLine", .nat f.last), ("kind", .str "region")]

/-- An edit, as it is sent. -/
def TextEdit.lsp (e : TextEdit) : Json := .obj [("range", e.range.lsp), ("newText", .str e.newText)]

namespace Marks

/-- The folds of a document. -/
def lspFolds (s : Marks) : Json := .list Fold.lsp s.folds

/-- The name at a position, or nothing if it cannot be changed. -/
def lspRenameable (s : Marks) (p : Position) : Json := .option Span.lsp (s.renameable? p)

/-- The changes to a document that change the name at a position, or nothing if there are none. -/
def lspRename (s : Marks) (uri : String) (p : Position) (newName : String) : Json :=
  let edits := s.rename p newName
  if edits = [] then .null
  else .obj [("changes", .obj [(uri, .list TextEdit.lsp edits)])]

end Marks

end SymbolOutline
