import SandboxMounts.Errno
import SandboxMounts.Host.Tree

/-!
Path lookup. A walk goes down through directories until it meets a link; the link's text then takes
the place of its name, and the walk starts again with one link less to spend.
-/

set_option autoImplicit false

namespace SandboxMounts

/-- What becomes of the last name: a link there is kept, followed, or followed to where a file may be made. -/
inductive LastName where
  | kept
  | followed
  | created
  deriving DecidableEq, Repr

/-- Where a path leads: to a node, to a name that is free in a directory, or to a directory that has been
removed while it was in use. -/
inductive Place where
  | node (l : Location)
  | vacant (dir : Location) (name : Name)
  | adrift (l : Location)
  deriving DecidableEq, Repr

inductive Stop where
  | place (p : Place)
  | link (dir : Location) (target : Path) (rest : List Name) (slash : Bool)
  deriving DecidableEq, Repr

def maxName : Nat := 255

def maxPath : Nat := 4096

def maxLinks : Nat := 40

namespace Tree

/-- The last name of a walk. A slash after it asks for a directory; no file can be made under such a name. -/
def last (t : Tree) (how : LastName) (slash : Bool) (dir : Location) (n : Name) : Except Errno Stop :=
  if how = .created ∧ slash then .error .isDirectory
  else if maxName < n.length then .error .nameTooLong
  else
    match t.get? (n :: dir) with
    | none => .ok (.place (.vacant dir n))
    | some (.dir _) => .ok (.place (.node (n :: dir)))
    | some (.link target) =>
      if how = .kept then .ok (.place (.node (n :: dir)))
      else .ok (.link dir target [] (slash || target.endsInSlash))
    | some (.leaf _ _ _) =>
      if how = .followed ∧ slash then .error .notDirectory
      else .ok (.place (.node (n :: dir)))

def walk (t : Tree) (how : LastName) (slash : Bool) : Location → List Name → Except Errno Stop
  | dir, [] => .ok (.place (.node dir))
  | dir, n :: rest =>
    if n = Name.here then t.walk how slash dir rest
    else if n = Name.up then t.walk how slash dir.tail rest
    else if rest = [] then t.last how slash dir n
    else if maxName < n.length then .error .nameTooLong
    else
      match t.get? (n :: dir) with
      | none => .error .noEntry
      | some (.dir _) => t.walk how slash (n :: dir) rest
      | some (.link target) => .ok (.link dir target rest slash)
      | some (.leaf _ _ _) => .error .notDirectory

def locate (t : Tree) (how : LastName) : Nat → Location → List Name → Bool → Except Errno Place
  | links, dir, names, slash =>
    match t.walk how slash dir names with
    | .error e => .error e
    | .ok (.place p) => .ok p
    | .ok (.link dir target rest slash) =>
      match links with
      | 0 => .error .tooManyLinks
      | k + 1 =>
        if target.isEmpty then .error .noEntry
        else t.locate how k (if target.isAbsolute then [] else dir) (target.steps ++ rest) slash

/-- From a removed directory only what is above can be reached, be it removed as well or not. -/
def locateAdrift (t : Tree) (how : LastName) (slash : Bool) : Location → List Name → Except Errno Place
  | l, [] => .ok (.adrift l)
  | l, n :: rest =>
    if n = Name.here then t.locateAdrift how slash l rest
    else if n = Name.up then
      if (t.get? l.tail).any Node.isDir then t.locate how maxLinks l.tail rest slash
      else t.locateAdrift how slash l.tail rest
    else .error .noEntry

end Tree

end SandboxMounts
