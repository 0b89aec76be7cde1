import SandboxMounts.Device.Boundary

/-!
Device-mapper devices have an entry of their own below the block device directory of sysfs. Only a
missing entry means that a device is none; every other failure is one of the test.
-/

set_option autoImplicit false

namespace SandboxMounts

namespace Mapper

def defaultDir : Path := .ofString "/sys/dev/block"

def entryName : String := "dm"

def entry (dir : Path) (d : DeviceNumber) : Path :=
  (dir.join (.ofString d.text)).join (.ofString entryName)

def probe (dir : Path) (d : DeviceNumber) : Action Bool := do
  match ← ((Host.stat (entry dir d)).outcome).orFail (.deviceMapperProbe (entry dir d)) with
  | .ok _ => return true
  | .error (.os .noEntry) => return false
  | .error e => throw (.deviceMapperProbe (entry dir d) e)

end Mapper

structure BlockDevice where
  device : Device
  deviceMapper : Bool
  deriving DecidableEq, Repr

def BlockDevice.ofPath {m : Type → Type} [Monad m] [MonadLiftT Action m]
    (probe : DeviceNumber → m Bool) (p : Path) : m BlockDevice := do
  let device ← (Device.ofPath p : Action Device)
  return ⟨device, ← probe device.number⟩

end SandboxMounts
