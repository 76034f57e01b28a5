import Mathlib.Init

/-!
# Errors

The variants of `MapacheError` (`common/error.rs`) that the functions of this development return
with a message of their own.
-/

set_option autoImplicit false

namespace Mapache

/-- `MapacheError`. -/
inductive MapacheError where
  | io (message : String)
  | crypto (message : String)
  | compression (message : String)
  | integrity (message : String)
  | format (message : String)
  | internal (message : String)
  | config (message : String)
  deriving DecidableEq, Repr

end Mapache
