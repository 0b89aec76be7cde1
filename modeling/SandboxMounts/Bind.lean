import SandboxMounts.ContainerMount
import SandboxMounts.Host.Create
import SandboxMounts.Host.Mounting

/-!
Bind mounts. A bind is made private and, if asked, read-only by calls of their own; when one of these
fails, the bind is detached again.
-/

set_option autoImplicit false

namespace SandboxMounts.Bind

/-- Gives the destination the shape of the source: a directory, or else a file. -/
def prepare (source destination : Path) : Call Unit := do
  let isDir := (← Host.metadata source).isDir
  Host.mkdirs destination.parents
  if isDir then
    match ← (Host.mkdir destination).outcome with
    | .ok () | .error (.os .alreadyExists) => return ()
    | .error e => throw e
  else Host.create destination

/-- A step on a bind that is in place; where it fails the bind is detached, whether that succeeds or not. -/
def followUp (step : BindStep) (request : MountRequest) (source destination : Path) : Action Unit := do
  match ← ((Host.issue request destination).outcome).orFail (.mount step source destination) with
  | .ok () => return ()
  | .error e =>
    discard (((Host.issue .detach destination).outcome).orFail (.unmount destination))
    throw (.mount step source destination e)

def attach (source destination : Path) (readOnly : Bool) : Action Unit := do
  (Host.issue (.bind source) destination).orFail (.mount .bind source destination)
  followUp .makePrivate .makePrivate source destination
  if readOnly then
    followUp .remountReadOnly (.remountReadOnly source) source destination

def make (source destination : Path) (readOnly : Bool) : Action Unit := do
  if source.isEmpty then throw (.emptyArgument "source")
  if destination.isEmpty then throw (.emptyArgument "destination")
  let resolved ← (Host.resolve source).orFail (.sourceResolution source)
  (prepare resolved.path destination).orFail (.destinationCreation destination)
  attach resolved.path destination readOnly

/-- Of a container's mount only its two ends and its access count here. -/
def ofContainer (m : ContainerMount) : Action Unit :=
  make (.ofString m.source) (.ofString m.destination) m.readOnly

def detach (p : Path) : Action Unit := (Host.issue .detach p).orFail (.unmount p)

end SandboxMounts.Bind
