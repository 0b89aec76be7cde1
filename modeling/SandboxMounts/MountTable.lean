import SandboxMounts.Host.Call
import SandboxMounts.Text.Split

/-!
The mount table: one mount a line, six fields set apart by blanks. The first line whose second field
is the mount point answers; a line of another shape before it is an error.
-/

set_option autoImplicit false

namespace SandboxMounts

namespace MountTable

structure Entry where
  devicePath : String
  mountPath : Path
  fsType : String
  deriving DecidableEq, Repr

def lineFeed : UInt8 := 0x0A

def isBlank (b : UInt8) : Bool := b == 0x20 || b == 0x09 || b == lineFeed || b == 0x0C || b == 0x0D

/-- The lines with their line feeds; a rest without one is a line too. -/
def lines : Bytes → List Bytes
  | [] => []
  | b :: r =>
    if b = lineFeed then [b] :: lines r
    else
      match lines r with
      | [] => [[b]]
      | l :: ls => (b :: l) :: ls

def fields (line : Bytes) : List Bytes := (Bytes.splitWhen isBlank line).filter (· ≠ [])

def fieldCount : Nat := 6

def trimEnd (line : Bytes) : Bytes := (line.reverse.dropWhile isBlank).reverse

/-- What one line says: it is malformed, it is the entry sought, or it is another. -/
def judge (mountPoint : Path) (line : Bytes) : Except Error (Option Entry) :=
  match fields line with
  | [device, path, fsType, _, _, _] =>
    if path = mountPoint.bytes then .ok (some ⟨Utf8.lossy device, ⟨path⟩, Utf8.lossy fsType⟩)
    else .ok none
  | fs => .error (.malformedMountTable fieldCount fs.length (Utf8.lossy (trimEnd line)))

def search (mountPoint : Path) : List Bytes → Except Error Entry
  | [] => .error (.mountEntryNotFound mountPoint.display)
  | line :: rest =>
    match judge mountPoint line with
    | .error e => .error e
    | .ok (some entry) => .ok entry
    | .ok none => search mountPoint rest

def lookupIn (content : Bytes) (mountPoint : Path) : Except Error Entry :=
  search mountPoint (lines content)

def defaultPath : Path := .ofString "/proc/mounts"

def lookup (table mountPoint : Path) : Action Entry := do
  if mountPoint.isEmpty then throw (.emptyArgument "mount point")
  let content ← (Host.read table).orFail (.mountTable table)
  MonadExcept.ofExcept (lookupIn content mountPoint)

def deviceAndType (table mountPoint : Path) : Action (String × String) := do
  let entry ← lookup table mountPoint
  return (entry.devicePath, entry.fsType)

end MountTable

end SandboxMounts
