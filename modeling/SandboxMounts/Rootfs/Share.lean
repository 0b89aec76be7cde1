import SandboxMounts.Bind

/-!
Sharing the root filesystems of containers: each has a place of its own below the shared directory,
named by its sandbox and by itself.
-/

set_option autoImplicit false

namespace SandboxMounts.Rootfs

def dirName : String := "rootfs"

def target (sharedDir : Path) (sandbox container : String) : Path :=
  ((sharedDir.join (.ofString sandbox)).join (.ofString container)).join (.ofString dirName)

def isSingleName (id : String) : Bool := id != "" && id != "." && id != ".." && !id.toList.contains '/'

def requireNames (sandbox container : String) : Except Error Unit :=
  if !isSingleName sandbox then .error (.emptyArgument "sandbox id")
  else if !isSingleName container then .error (.emptyArgument "container id")
  else .ok ()

def share (sharedDir : Path) (sandbox container : String) (rootfs : Path) (readOnly : Bool) :
    Action Unit := do
  MonadExcept.ofExcept (requireNames sandbox container)
  Bind.make rootfs (target sharedDir sandbox container) readOnly

def unshare (sharedDir : Path) (sandbox container : String) : Action Unit := do
  MonadExcept.ofExcept (requireNames sandbox container)
  Bind.detach (target sharedDir sandbox container)

end SandboxMounts.Rootfs
