/-
Documents, known by their addresses.
-/

namespace SymbolOutline

/-- A document. -/
structure Document where
  uri : String
deriving DecidableEq, Repr

namespace Document

/-- What comes before the first colon of the address; empty if there is no colon. -/
def scheme (d : Document) : String :=
  if ':' ∈ d.uri.toList then String.ofList (d.uri.toList.takeWhile (· ≠ ':')) else ""

/-- What comes behind the last slash of the address. -/
def fileName (d : Document) : String :=
  String.ofList (d.uri.toList.reverse.takeWhile (· ≠ '/')).reverse

/-- The beginnings of schemes whose documents have no outline. -/
def unsupportedSchemes : List String := ["output", "vscode-scm", "walkThroughSnippet"]

/-- The document may have an outline. -/
def isSupported (d : Document) : Bool :=
  d.scheme ≠ "" && !unsupportedSchemes.any fun s => s.toList.isPrefixOf d.scheme.toList

end Document

end SymbolOutline
