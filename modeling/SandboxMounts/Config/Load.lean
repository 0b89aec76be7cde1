import SandboxMounts.Config
import SandboxMounts.Host.Call

/-!
The configuration in effect: a file, if one is named, read over the defaults, and then a shared
directory given in its place.
-/

set_option autoImplicit false

namespace SandboxMounts.Config

def cannotRead (p : Path) (e : IoError) : Error := .config s!"cannot read {p.display}: {e.message}"

def ofBytes (p : Path) (content : Bytes) : Except Error Config :=
  match Utf8.text? content with
  | none => .error (cannotRead p .notUtf8)
  | some text =>
    match ofText? text with
    | none => .error .serialization
    | some c => .ok c

def ofFile (p : Path) : Action Config := do
  let content ← (Host.read p).orFail (cannotRead p)
  let c ← MonadExcept.ofExcept (ofBytes p content)
  MonadExcept.ofExcept c.check
  return c

/-- A file is checked before its shared directory is replaced, and the whole again after. -/
def inEffect (file sharedDir : Option Path) : Action Config := do
  let c ← match file with
    | some p => ofFile p
    | none => pure default
  let c := { c with sharedDir := sharedDir.getD c.sharedDir }
  MonadExcept.ofExcept c.check
  return c

end SandboxMounts.Config
