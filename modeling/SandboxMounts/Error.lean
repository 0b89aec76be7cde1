import SandboxMounts.Errno
import SandboxMounts.Path.Basic

/-!
The failures of this library. Each names the path or argument that it concerns, and its cause where
the operating system gave one.
-/

set_option autoImplicit false

namespace SandboxMounts

inductive BindStep where
  | bind
  | makePrivate
  | remountReadOnly
  deriving DecidableEq, Repr

def BindStep.text : BindStep → String
  | .bind => "bind"
  | .makePrivate => "make-private"
  | .remountReadOnly => "read-only remount"

inductive Error where
  | emptyArgument (name : String)
  | stat (path : Path) (cause : IoError)
  | sourceResolution (path : Path) (cause : IoError)
  | destinationCreation (path : Path) (cause : IoError)
  | mountPointNotFound (path : Path)
  | malformedMountTable (expected found : Nat) (line : String)
  | mountEntryNotFound (mountPoint : String)
  | mountTable (path : Path) (cause : IoError)
  | deviceMapperProbe (path : Path) (cause : IoError)
  | mount (step : BindStep) (source destination : Path) (cause : IoError)
  | unmount (path : Path) (cause : IoError)
  | config (message : String)
  | serialization
  deriving DecidableEq, Repr

namespace Error

def cause? : Error → Option IoError
  | .stat _ c | .sourceResolution _ c | .destinationCreation _ c | .mountTable _ c
  | .deviceMapperProbe _ c | .mount _ _ _ c | .unmount _ c => some c
  | .emptyArgument _ | .mountPointNotFound _ | .malformedMountTable _ _ _ | .mountEntryNotFound _
  | .config _ | .serialization => none

def message : Error → String
  | .emptyArgument name => s!"invalid argument: {name} must not be empty"
  | .stat p c => s!"stat failed for {p.display}: {c.message}"
  | .sourceResolution p c => s!"could not resolve bind source {p.display}: {c.message}"
  | .destinationCreation p c => s!"could not create mount destination {p.display}: {c.message}"
  | .mountPointNotFound p => s!"mount point not found for {p.display}"
  | .malformedMountTable expected found line =>
    s!"malformed mount table line (expected {expected} fields, got {found}): {line}"
  | .mountEntryNotFound mountPoint => s!"mount {mountPoint} not found"
  | .mountTable p c => s!"could not read mount table {p.display}: {c.message}"
  | .deviceMapperProbe p c => s!"device-mapper check failed at {p.display}: {c.message}"
  | .mount step source destination c =>
    s!"{step.text} of {source.display} onto {destination.display} failed: {c.message}"
  | .unmount p c => s!"could not unmount {p.display}: {c.message}"
  | .config message => s!"invalid configuration: {message}"
  | .serialization => "text is not the expected JSON"

end Error

end SandboxMounts
