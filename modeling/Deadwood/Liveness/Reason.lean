/-!
# Reasons to start from a file

A file that something outside the project's own imports may start or load is an entry point.
`EntryReason` says why.
-/

namespace Deadwood

/-- Why a unit is an entry point. -/
inductive EntryReason where
  /-- It could not be read, so nothing can be said against it. -/
  | unread
  | configured
  | mainFunction
  | manifest
  | convention (what : String)
  | test
  | framework (what : String)
deriving Repr, DecidableEq

namespace EntryReason

def label : EntryReason → String
  | unread => "parse error"
  | configured => "configured entry"
  | mainFunction => "main function"
  | manifest => "manifest entry"
  | convention what => "convention: " ++ what
  | test => "test file"
  | framework what => "framework: " ++ what

end EntryReason

end Deadwood
