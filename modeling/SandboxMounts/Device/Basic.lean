import SandboxMounts.Host.Call

/-!
The device behind a path, and the tests on the paths that the library treats apart.
-/

set_option autoImplicit false

namespace SandboxMounts

/-- The device of a path: of the device node that the path names, or of the mount that holds it. -/
structure Device where
  number : DeviceNumber
  mountPoint : Option Path
  deriving DecidableEq, Repr

def Device.isNode (d : Device) : Bool := d.mountPoint.isNone

def devDir : Path := .ofString "/dev"

/-- Whether a path is `/dev` itself, or is written below it and leads to no regular file. -/
def namesDevice (p : Path) : StateM Host Bool := fun h =>
  if p.sameComponents devDir then (true, h)
  else if (devDir.bytes ++ [slash]).isPrefixOf p.bytes then
    match Host.stat p h with
    | (.ok st, h') => (!st.node.isRegular, h')
    | (.error _, h') => (false, h')
  else (false, h)

def systemDirs : List Path := [.ofString "/proc", .ofString "/sys"]

def Path.isInSystemDir (p : Path) : Bool := systemDirs.any p.startsWith

end SandboxMounts
