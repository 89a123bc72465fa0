/-
What can go wrong, as it is shown to a user.

An error has a kind, which callers act on, and a text that names the particulars.  Parts of
the library with causes of their own describe them in inductive types and turn them into an
`Error` with one function each.
-/

namespace MutationAnalysis

inductive ErrorKind where
  | io
  | serialization
  | compile
  | validation
  | wasm
  | unknownSymbol
  | symbolNotFound
  | link
  | mutation
  | sandbox
  | invalidState
  | notFound
  deriving Repr, DecidableEq

namespace ErrorKind

/-- What stands before the particulars. -/
def heading : ErrorKind → String
  | io => "IO error"
  | serialization => "Serialization error"
  | compile => "Compile error"
  | validation => "Validation error"
  | wasm => "WASM error"
  | unknownSymbol => "Unknown symbol"
  | symbolNotFound => "Symbol not found"
  | link => "Link error"
  | mutation => "Mutation error"
  | sandbox => "Sandbox error"
  | invalidState => "Invalid state"
  | notFound => "Not found"

/-- A failure to link: a symbol without a definition or one that cannot be bound. -/
def isLinkFailure : ErrorKind → Bool
  | symbolNotFound | link => true
  | _ => false

end ErrorKind

structure Error where
  kind : ErrorKind
  text : String
  deriving Repr, DecidableEq

/-- The whole text shown to a user. -/
def Error.message (e : Error) : String :=
  e.kind.heading ++ ": " ++ e.text

end MutationAnalysis
