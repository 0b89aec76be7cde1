import SandboxMounts.Error
import SandboxMounts.Json.Fields

/-!
The configuration: three absolute paths, each with a default, and its JSON form.
-/

set_option autoImplicit false

namespace SandboxMounts

structure Config where
  sharedDir : Path
  mountTable : Path
  sysfsBlockDir : Path
  deriving DecidableEq, Repr

namespace Config

def default : Config where
  sharedDir := .ofString "/run/vmshare/shared/sandboxes"
  mountTable := .ofString "/proc/mounts"
  sysfsBlockDir := .ofString "/sys/dev/block"

def keys : List String := ["shared_dir", "mount_table", "sysfs_block_dir"]

def paths (c : Config) : List Path := [c.sharedDir, c.mountTable, c.sysfsBlockDir]

def firstRelative? (c : Config) : Option (String × Path) :=
  (keys.zip c.paths).find? (!·.2.isAbsolute)

def check (c : Config) : Except Error Unit :=
  match c.firstRelative? with
  | none => .ok ()
  | some (key, path) => .error (.config s!"{key} must be an absolute path, got {path.display}")

/-- Only paths that are text have a JSON form. -/
def toJson? (c : Config) : Option Json := do
  let values ← c.paths.mapM fun p => Utf8.decode? p.bytes
  return .object ((keys.map fun k => k.toList.map .char).zip (values.map .ofChars))

def field? (given : Option Json) (otherwise : Path) : Option Path :=
  match given with
  | none => some otherwise
  | some v => v.string?.map Path.ofString

def ofJson? (v : Json) : Option Config := do
  match ← v.fields? (keys.map String.toList) with
  | [sharedDir, mountTable, sysfsBlockDir] =>
    return {
      sharedDir := ← field? sharedDir default.sharedDir
      mountTable := ← field? mountTable default.mountTable
      sysfsBlockDir := ← field? sysfsBlockDir default.sysfsBlockDir }
  | _ => none

def text? (c : Config) : Option String := c.toJson?.map fun v => String.ofList v.compact

def ofText? (s : String) : Option Config := (Json.parse? s.toList).bind ofJson?

end Config

end SandboxMounts
