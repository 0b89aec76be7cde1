import SandboxMounts.Host.Basic

/-!
Calls on a host, and those that only look. A call fails for a NUL in its path, then for a fault laid
in wait, and only then for what it finds; a failing call leaves tree and mounts as they are.
-/

set_option autoImplicit false

namespace SandboxMounts

abbrev Call (α : Type) := ExceptT IoError (StateM Host) α

abbrev Action (α : Type) := ExceptT Error (StateM Host) α

def Call.orFail {α : Type} (x : Call α) (f : IoError → Error) : Action α := fun h =>
  match x h with
  | (.ok a, h') => (.ok a, h')
  | (.error e, h') => (.error (f e), h')

def Call.outcome {α : Type} (x : Call α) : Call (Except IoError α) := fun h =>
  match x h with
  | (r, h') => (.ok r, h')

namespace Host

structure Stat where
  node : Node
  device : RawDevice
  special : RawDevice
  deriving Repr

def look {α : Type} (f : Host → Except Errno α) : Call α := fun h =>
  match f h with
  | .ok a => (.ok a, h)
  | .error e => (.error (.os e), h)

def meetFault (call : CallKind) (p : Path) : Call Unit := fun h =>
  match useFault? call p h.faults with
  | some (e, faults) => (.error (.os e), { h with faults })
  | none => (.ok (), h)

def refuseNul (p : Path) (e : IoError) : Call Unit := if p.hasNul then throw e else pure ()

def statOf (h : Host) (how : LastName) (p : Path) : Except Errno Stat := do
  match ← h.locate how p with
  | .vacant _ _ => .error .noEntry
  | .adrift l => .ok ⟨.dir 0o755, h.deviceAt l, 0⟩
  | .node l =>
    match h.tree.get? l with
    | some n => .ok ⟨n, h.deviceAt l, h.specialAt l⟩
    | none => .error .noEntry

def stat (p : Path) : Call Stat := do
  refuseNul p (.os .invalidArgument)
  meetFault .stat p
  look (·.statOf .followed p)

/-- A slash at the end asks for what a link leads to. -/
def lstat (p : Path) : Call Stat := do
  refuseNul p (.os .invalidArgument)
  meetFault .lstat p
  look (·.statOf (if p.endsInSlash then .followed else .kept) p)

def metadata (p : Path) : Call Node := do
  refuseNul p .nulInPath
  meetFault .metadata p
  return (← look (·.statOf .followed p)).node

def workingDirectory (h : Host) : Except Errno Location :=
  if h.cwdGone then .error .noEntry else .ok h.cwd

/-- The location that a path leads to through all links; a relative path needs a working directory. -/
def resolve (p : Path) : Call Location := do
  refuseNul p .nulInPath
  look fun h => do
    if !p.isAbsolute then
      discard h.workingDirectory
    match ← h.locate .followed p with
    | .node l => .ok l
    | .vacant _ _ | .adrift _ => .error .noEntry

/-- The whole content of a file; a directory can be opened but not read. -/
def read (p : Path) : Call Bytes := do
  refuseNul p .nulInPath
  meetFault .openFile p
  match (← look (·.statOf .followed p)).node with
  | .leaf _ _ content => return content
  | .dir _ => throw (.os .isDirectory)
  | .link _ => throw (.os .tooManyLinks)

def change (f : Host → Except Errno Host) : Call Unit := fun h =>
  match f h with
  | .ok h' => (.ok (), h')
  | .error e => (.error (.os e), h)

end Host

end SandboxMounts
