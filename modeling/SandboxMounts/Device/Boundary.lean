import SandboxMounts.Device.Basic

/-!
The mount point of a path is found by going up until the device changes. The directories above are
looked at as they stand, links not followed, and the device is compared whole.
-/

set_option autoImplicit false

namespace SandboxMounts

/-- Goes up from `point`, which is on `device`, on behalf of `path`. -/
def climb (path : Path) (device : RawDevice) : Location → Action Location
  | [] => throw (.mountPointNotFound path)
  | n :: above => do
    let st ← (Host.lstat (Location.path above)).orFail (.stat (Location.path above))
    if st.device = device then climb path device above else return n :: above

def boundary (device : RawDevice) (l : Location) : Action Location := climb l.path device l

/-- The path against the working directory, without `.` and `..`, links not followed. -/
def absolute (p : Path) : Call Location := do
  if p.isAbsolute then return p.normalize []
  else return p.normalize (← Host.look Host.workingDirectory)

/-- The root is its own mount point; nothing is above it. -/
def Device.ofPath (p : Path) : Action Device := do
  if p.isEmpty then throw (.emptyArgument "path")
  let st ← (Host.stat p).orFail (.stat p)
  if ← (namesDevice p : StateM Host Bool) then
    return ⟨.decode st.special, none⟩
  let l ← (absolute p).orFail (.stat p)
  if l = [] then return ⟨.decode st.device, some (Location.path [])⟩
  let point ← boundary st.device l
  return ⟨.decode st.device, some point.path⟩

end SandboxMounts
