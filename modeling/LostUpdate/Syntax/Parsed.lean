import LostUpdate.Syntax.Tree

namespace LostUpdate

inductive ParseErrorKind
  | badSyntax | badIndentation | badTabs
  /-- The text holds a NUL character, so it is no program text at all. -/
  | nulCharacter
  deriving DecidableEq, Repr

structure ParseError where
  kind : ParseErrorKind
  message : String
  line : Option Int
  deriving DecidableEq, Repr

abbrev Parsed := Except ParseError Tree

end LostUpdate
