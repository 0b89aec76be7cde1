import SandboxMounts.Error
import SandboxMounts.Device.Number
import SandboxMounts.Host.Lookup

/-!
The host that the library works on: a file tree with the device of each node, the mounts, the mount
calls made so far, and failures laid in wait for particular calls.
-/

set_option autoImplicit false

namespace SandboxMounts

inductive CallKind where
  | stat
  | lstat
  | metadata
  | mkdir
  | openFile
  | bind
  | makePrivate
  | remount
  | unmount
  deriving DecidableEq, Repr

/-- A failure of the calls of one kind, on one path or on any, a number of times or always. -/
structure Fault where
  call : CallKind
  path : Option Path
  errno : Errno
  left : Option Nat
  deriving DecidableEq, Repr

def Fault.applies (f : Fault) (call : CallKind) (p : Path) : Bool :=
  f.call == call && f.path.all (· == p) && f.left != some 0

/-- The first fault that applies, and the faults with that one used once. -/
def useFault? (call : CallKind) (p : Path) : List Fault → Option (Errno × List Fault)
  | [] => none
  | f :: fs =>
    if f.applies call p then some (f.errno, { f with left := f.left.map (· - 1) } :: fs)
    else (useFault? call p fs).map fun (e, fs') => (e, f :: fs')

structure Mount where
  source : Path
  target : Path
  isPrivate : Bool
  readOnly : Bool
  deriving DecidableEq, Repr

inductive MountRequest where
  | bind (source : Path)
  | makePrivate
  | remountReadOnly (source : Path)
  | detach
  deriving DecidableEq, Repr

structure MountCall where
  request : MountRequest
  target : Path
  errno : Option Errno
  deriving DecidableEq, Repr

namespace MountRequest

def kind : MountRequest → CallKind
  | .bind _ => .bind
  | .makePrivate => .makePrivate
  | .remountReadOnly _ => .remount
  | .detach => .unmount

def flagReadOnly : Nat := 1

def flagRemount : Nat := 32

def flagBind : Nat := 4096

def flagPrivate : Nat := 262144

def flagDetach : Nat := 2

def flags : MountRequest → Nat
  | .bind _ => flagBind
  | .makePrivate => flagPrivate
  | .remountReadOnly _ => flagBind ||| flagRemount ||| flagReadOnly
  | .detach => flagDetach

def sourceArgument : MountRequest → Option Path
  | .bind source | .remountReadOnly source => some source
  | .makePrivate => some (.ofString "none")
  | .detach => none

def typeArgument : MountRequest → Option String
  | .bind _ | .remountReadOnly _ => some "bind"
  | .makePrivate | .detach => none

end MountRequest

structure Host where
  tree : Tree
  /-- Devices given to particular nodes. -/
  devices : List (Location × RawDevice)
  /-- Devices that particular nodes stand for. -/
  specials : List (Location × RawDevice)
  rootDevice : RawDevice
  cwd : Location
  /-- The working directory has been removed. -/
  cwdGone : Bool
  umask : Nat
  faults : List Fault
  /-- Newest first. -/
  mounts : List Mount
  /-- Oldest first. -/
  calls : List MountCall
  deriving Repr

namespace Host

def initial : Host where
  tree := .empty
  devices := []
  specials := []
  rootDevice := 2049
  cwd := []
  cwdGone := false
  umask := 0
  faults := []
  mounts := []
  calls := []

/-- A node without a device of its own is on that of the directory that holds it. -/
def deviceAt (h : Host) : Location → RawDevice
  | [] => (h.devices.lookup []).getD h.rootDevice
  | n :: above => (h.devices.lookup (n :: above)).getD (h.deviceAt above)

def specialAt (h : Host) (l : Location) : RawDevice := (h.specials.lookup l).getD 0

def locate (h : Host) (how : LastName) (p : Path) : Except Errno Place :=
  if maxPath ≤ p.bytes.length then .error .nameTooLong
  else if p.isEmpty then .error .noEntry
  else if p.isAbsolute then h.tree.locate how maxLinks [] p.steps p.endsInSlash
  else if h.cwdGone then h.tree.locateAdrift how p.endsInSlash h.cwd p.steps
  else h.tree.locate how maxLinks h.cwd p.steps p.endsInSlash

def give (devices : List (Location × RawDevice)) (l : Location) :
    Option RawDevice → List (Location × RawDevice)
  | none => devices
  | some d => (l, d) :: devices.filter (·.1 ≠ l)

/-- Puts a node in its place, with what leads there. A directory that is there already stays. -/
def place (h : Host) (l : Location) (n : Node) (device special : Option RawDevice) : Host :=
  let tree := if n.isDir then h.tree.insertDirs l else (h.tree.insertDirs l.tail).replace l n
  { h with
    tree
    devices := give h.devices l device
    specials := give h.specials l special }

def remove (h : Host) (l : Location) : Host :=
  { h with
    tree := h.tree.remove l
    devices := h.devices.filter fun e => !l.isSuffixOf e.1
    specials := h.specials.filter fun e => !l.isSuffixOf e.1
    cwdGone := h.cwdGone || l.isSuffixOf h.cwd }

def enter (h : Host) (p : Path) : Except Errno Host := do
  match ← h.locate .followed p with
  | .node l =>
    if (h.tree.get? l).any Node.isDir then .ok { h with cwd := l, cwdGone := false }
    else .error .notDirectory
  | .vacant _ _ => .error .noEntry
  | .adrift l => .ok { h with cwd := l, cwdGone := true }

end Host

end SandboxMounts
