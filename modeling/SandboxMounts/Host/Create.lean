import SandboxMounts.Host.Call

/-!
Making directories and files. Nothing that is there already is replaced or emptied.
-/

set_option autoImplicit false

namespace SandboxMounts.Host

def creationMode : Nat := 0o755

def modeOf (h : Host) : Nat := creationMode ^^^ (creationMode &&& h.umask)

def add (h : Host) (l : Location) (n : Node) : Host := { h with tree := h.tree.insert l n }

/-- Any name that is there already is in the way, a dangling link too. -/
def mkdirIn (p : Path) (h : Host) : Except Errno Host := do
  match ← h.locate .kept p with
  | .node _ | .adrift _ => .error .alreadyExists
  | .vacant dir n => .ok (h.add (n :: dir) (.dir h.modeOf))

/-- An existing file stays as it is; through a dangling link the file is made where the link points. -/
def createIn (p : Path) (h : Host) : Except Errno Host := do
  match ← h.locate .created p with
  | .adrift _ => .error .isDirectory
  | .node l =>
    match h.tree.get? l with
    | some (.leaf _ _ _) => .ok h
    | _ => .error .isDirectory
  | .vacant dir n => .ok (h.add (n :: dir) (.leaf .regular h.modeOf []))

def mkdir (p : Path) : Call Unit := do
  refuseNul p .nulInPath
  meetFault .mkdir p
  change (mkdirIn p)

def create (p : Path) : Call Unit := do
  refuseNul p .nulInPath
  meetFault .openFile p
  change (createIn p)

def leadsToDir (h : Host) (p : Path) : Bool :=
  match h.statOf .followed p with
  | .ok st => st.node.isDir
  | .error _ => false

def mkdirOrFind (p : Path) : Call Unit := do
  match ← (mkdir p).outcome with
  | .error (.os .alreadyExists) =>
    look fun h => if h.leadsToDir p then .ok () else .error .alreadyExists
  | .error e => throw e
  | .ok () => return ()

/-- Makes the first of the directories; where its parent is missing, the rest of them first. -/
def mkdirs : List Path → Call Unit
  | [] => return ()
  | p :: above =>
    if p.isEmpty then return ()
    else do
      match ← (mkdirOrFind p).outcome with
      | .error (.os .noEntry) =>
        mkdirs above
        mkdirOrFind p
      | .error e => throw e
      | .ok () => return ()

end SandboxMounts.Host
