import SandboxMounts.Text.Split

/-!
Paths are byte strings. A path is cut at its slashes into segments; the components are what the
segments mean: empty ones and `.` stand for nothing, except a leading `.` of a relative path.
-/

set_option autoImplicit false

namespace SandboxMounts

abbrev Name := Bytes

structure Path where
  bytes : Bytes
  deriving DecidableEq, Repr

def slash : UInt8 := 0x2F

def dot : UInt8 := 0x2E

def Name.here : Name := [dot]

def Name.up : Name := [dot, dot]

/-- A segment that names nothing: empty, or `.`. -/
def Name.isSilent (n : Name) : Bool := n == [] || n == Name.here

namespace Path

def ofString (s : String) : Path := ⟨Utf8.ofString s⟩

def display (p : Path) : String := Utf8.lossy p.bytes

def isEmpty (p : Path) : Bool := p.bytes.isEmpty

def isAbsolute (p : Path) : Bool := p.bytes.head? == some slash

def hasNul (p : Path) : Bool := p.bytes.contains 0

def endsInSlash (p : Path) : Bool := p.bytes.getLast? == some slash

/-- An absolute `q` stands alone; otherwise it follows `p` after one slash, also when `q` is empty. -/
def join (p q : Path) : Path :=
  if q.isAbsolute then q
  else if p.isEmpty || p.endsInSlash then ⟨p.bytes ++ q.bytes⟩
  else ⟨p.bytes ++ slash :: q.bytes⟩

end Path

inductive Component where
  | root
  | here
  | up
  | name (n : Name)
  deriving DecidableEq, Repr

/-- How a path begins: at the root, at a written `.`, or neither. -/
inductive Anchor where
  | root
  | here
  | bare
  deriving DecidableEq, Repr

namespace Path

def segments (p : Path) : List Name := Bytes.splitWhen (· == slash) p.bytes

def anchored (p : Path) : Anchor × List Name :=
  match p.segments with
  | [] => (.bare, [])
  | s :: ss =>
    if s = [] ∧ ss ≠ [] then (.root, ss)
    else if s = Name.here then (.here, ss)
    else (.bare, s :: ss)

def ofAnchored : Anchor → List Name → Path
  | .root, ss => ⟨slash :: Bytes.joinWith slash ss⟩
  | .here, [] => ⟨[dot]⟩
  | .here, ss => ⟨dot :: slash :: Bytes.joinWith slash ss⟩
  | .bare, ss => ⟨Bytes.joinWith slash ss⟩

end Path

def Name.component (n : Name) : Component := if n = Name.up then .up else .name n

namespace Path

def components (p : Path) : List Component :=
  let body := (p.anchored.2.filter (!·.isSilent)).map Name.component
  match p.anchored.1 with
  | .root => .root :: body
  | .here => .here :: body
  | .bare => body

/-- The segments that a lookup walks through: `.` counts, since it needs a directory. -/
def steps (p : Path) : List Name := p.segments.filter (· ≠ [])

/-- The order of the bytes, a path before all that go on from it. -/
def le (p q : Path) : Bool := go p.bytes q.bytes
where
  go : Bytes → Bytes → Bool
    | [], _ => true
    | _ :: _, [] => false
    | a :: r, b :: s => a < b || a == b && go r s

def startsWith (p q : Path) : Bool := q.components.isPrefixOf p.components

def sameComponents (p q : Path) : Bool := p.components == q.components

end Path

/-- The paths above a spelling, nearest first, from its segments innermost first. -/
def Path.above (a : Anchor) : List Name → List Path
  | [] =>
    match a with
    | .root => [⟨[slash]⟩]
    | .here => [⟨[dot]⟩, ⟨[]⟩]
    | .bare => [⟨[]⟩]
  | s :: r => if s.isSilent then Path.above a r else Path.ofAnchored a (s :: r).reverse :: Path.above a r

/-- What is left of the spelling when its last component is cut off, again and again. -/
def Path.parents (p : Path) : List Path :=
  match p.anchored.2.reverse.dropWhile Name.isSilent with
  | [] => if p.anchored.1 = .here then [⟨[]⟩] else []
  | _ :: r => Path.above p.anchored.1 r

end SandboxMounts
