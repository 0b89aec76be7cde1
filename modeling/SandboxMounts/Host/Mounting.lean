import SandboxMounts.Host.Call

/-!
Mount calls. Mounts at one target are stacked, and all calls but a new bind act on the newest there.
-/

set_option autoImplicit false

namespace SandboxMounts.Host

def editNewest? (target : Path) (f : Mount → List Mount) : List Mount → Option (List Mount)
  | [] => none
  | m :: ms => if m.target = target then some (f m ++ ms) else (editNewest? target f ms).map (m :: ·)

/-- What a mount call does to the mounts. All but a new bind need a mount at their target. -/
def mountsAfter? (request : MountRequest) (target : Path) (ms : List Mount) : Option (List Mount) :=
  match request with
  | .bind source => some (⟨source, target, false, false⟩ :: ms)
  | .makePrivate => editNewest? target (fun m => [{ m with isPrivate := true }]) ms
  | .remountReadOnly _ => editNewest? target (fun m => [{ m with readOnly := true }]) ms
  | .detach => editNewest? target (fun _ => []) ms

/-- Only a detach looks its target up. -/
def performIn (request : MountRequest) (target : Path) (h : Host) : Except Errno Host := do
  if request = .detach then
    discard (h.statOf .followed target)
  match mountsAfter? request target h.mounts with
  | some mounts => .ok { h with mounts }
  | none => .error .invalidArgument

def record (h : Host) (c : MountCall) : Host := { h with calls := h.calls ++ [c] }

/-- Every mount call is on record, whether it failed or not. -/
def issue (request : MountRequest) (target : Path) : Call Unit := do
  refuseNul target (.os .invalidArgument)
  fun h =>
    match (do meetFault request.kind target; change (performIn request target) : Call Unit) h with
    | (.ok (), h') => (.ok (), h'.record ⟨request, target, none⟩)
    | (.error (.os e), h') => (.error (.os e), h'.record ⟨request, target, some e⟩)
    | (.error e, h') => (.error e, h')

end SandboxMounts.Host
