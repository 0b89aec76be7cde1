import SandboxMounts.Rootfs.Share

/-!
Tearing down a whole sandbox. Each container releases its own host mounts and then gives up its shared
root filesystem, if it has one; a failure is noted and stops nothing.
-/

set_option autoImplicit false

namespace SandboxMounts.Rootfs

/-- A container as a teardown sees it. A block device of its own, whose type is then not empty, takes the
place of a share. -/
structure Container (m : Type → Type) where
  id : String
  fsType : String
  releaseHostMounts : m (Except Error Unit)

inductive Part where
  | hostMounts
  | rootfs
  deriving DecidableEq, Repr

structure Failure where
  container : String
  part : Part
  error : Error
  deriving DecidableEq, Repr

structure Report where
  /-- The containers that gave up their share. -/
  detached : List String
  failures : List Failure
  deriving DecidableEq, Repr

namespace Report

def empty : Report := ⟨[], []⟩

def succeeded (r : Report) : Bool := r.failures.isEmpty

def append (r s : Report) : Report := ⟨r.detached ++ s.detached, r.failures ++ s.failures⟩

def ofRelease (id : String) : Except Error Unit → Report
  | .ok () => empty
  | .error e => ⟨[], [⟨id, .hostMounts, e⟩]⟩

def ofUnshare (id : String) : Except Error Unit → Report
  | .ok () => ⟨[id], []⟩
  | .error e => ⟨[], [⟨id, .rootfs, e⟩]⟩

end Report

section

variable {m : Type → Type} [Monad m] [MonadLiftT (StateM Host) m]

def tearDown (sharedDir : Path) (sandbox : String) (c : Container m) : m Report := do
  let released := Report.ofRelease c.id (← c.releaseHostMounts)
  if c.fsType = "" then
    let outcome ← ((unshare sharedDir sandbox c.id).run : StateM Host (Except Error Unit))
    return released.append (.ofUnshare c.id outcome)
  else
    return released

def tearDownAll (sharedDir : Path) (sandbox : String) : List (Container m) → m Report
  | [] => return .empty
  | c :: cs => do
    let first ← tearDown sharedDir sandbox c
    return first.append (← tearDownAll sharedDir sandbox cs)

end

end SandboxMounts.Rootfs
