import SandboxMounts.Command.Basic

/-!
Reading the arguments of an invocation. There are two levels, the program's own and that of its
command. The argument read last at a level stays pending until the next one begins there, so what is
wrong with its value comes out after what is wrong with the next name.
-/

set_option autoImplicit false

namespace SandboxMounts

namespace Arguments

inductive CommandName where
  | device
  | mountEntry
  | bind
  | unbind
  deriving DecidableEq, Repr

inductive Verb where
  | command (c : CommandName)
  | help
  deriving DecidableEq, Repr

def verbs : List (String × Verb) :=
  [("device", .command .device), ("mount-entry", .command .mountEntry), ("bind", .command .bind),
    ("unbind", .command .unbind), ("help", .help)]

def verb? (arg : Bytes) : Option Verb := (verbs.find? fun c => Utf8.ofString c.1 == arg).map (·.2)

/-- What takes a value: an option, or the subject of a command, which has no name. -/
inductive Key where
  | config
  | sharedDir
  | sandbox
  | container
  | rootfs
  | subject
  deriving DecidableEq, Repr

inductive Switch where
  | jsonLogs
  | mountInfo
  | readOnly
  deriving DecidableEq, Repr

inductive LongName where
  | key (k : Key)
  | switch (s : Switch)
  | help
  | version
  deriving DecidableEq, Repr

structure Level where
  names : List (String × LongName)
  required : List Key
  hasSubject : Bool
  hasCommands : Bool
  deriving Repr

def sharedNames : List (String × LongName) :=
  [("config", .key .config), ("shared-dir", .key .sharedDir), ("json-logs", .switch .jsonLogs),
    ("help", .help)]

def Level.program : Level := ⟨("version", .version) :: sharedNames, [], false, true⟩

def Level.ofCommand : CommandName → Level
  | .device => ⟨("mount-info", .switch .mountInfo) :: sharedNames, [.subject], true, false⟩
  | .mountEntry => ⟨sharedNames, [.subject], true, false⟩
  | .bind =>
    ⟨[("sandbox", .key .sandbox), ("container", .key .container), ("rootfs", .key .rootfs),
      ("readonly", .switch .readOnly)] ++ sharedNames, [.sandbox, .container, .rootfs], false, false⟩
  | .unbind =>
    ⟨[("sandbox", .key .sandbox), ("container", .key .container)] ++ sharedNames,
      [.sandbox, .container], false, false⟩

def Level.longName? (lv : Level) (name : Bytes) : Option LongName :=
  (lv.names.find? fun n => Utf8.ofString n.1 == name).map (·.2)

/-- What has been read at one level. A pending key without a value waits for one. -/
structure Progress where
  values : List (Key × Bytes)
  switches : List Switch
  pending : Option (Key × Option Bytes)
  onlySubjects : Bool
  deriving DecidableEq, Repr

def Progress.start : Progress := ⟨[], [], none, false⟩

/-- Ids are text and may be empty here; all else is a path and may not. -/
def checkValue (k : Key) (v : Bytes) : Except Refusal Unit :=
  match k with
  | .sandbox | .container => if (Utf8.decode? v).isSome then .ok () else .error .notUtf8
  | .config | .sharedDir | .rootfs | .subject => if v = [] then .error .invalidValue else .ok ()

namespace Progress

def get? (s : Progress) (k : Key) : Option Bytes := s.values.lookup k

def waiting? (s : Progress) : Option Key :=
  match s.pending with
  | some (k, none) => some k
  | _ => none

def settle (s : Progress) : Except Refusal Progress :=
  match s.pending with
  | none => .ok s
  | some (_, none) => .error .invalidValue
  | some (k, some v) =>
    if (s.get? k).isSome then .error .givenTwice
    else do
      checkValue k v
      return { s with values := s.values ++ [(k, v)], pending := none }

def hasSubject (s : Progress) : Bool :=
  (s.get? .subject).isSome || s.pending.any (·.1 = .subject)

/-- An argument that is no option: the subject, if the level has one to give still. -/
def plain (lv : Level) (s : Progress) (arg : Bytes) : Except Refusal Progress :=
  if lv.hasSubject && !s.hasSubject then do
    return { ← s.settle with pending := some (.subject, some arg) }
  else if lv.hasCommands && !(s.onlySubjects && (verb? arg).isSome) then .error .unknownCommand
  else .error .unknownArgument

def dash : UInt8 := 0x2D

def equalsSign : UInt8 := 0x3D

def splitAttached (arg : Bytes) : Bytes × Option Bytes :=
  match arg.dropWhile (· ≠ equalsSign) with
  | [] => (arg, none)
  | _ :: v => (arg.takeWhile (· ≠ equalsSign), some v)

def long (lv : Level) (s : Progress) (arg : Bytes) : Except Refusal Progress :=
  let (name, attached) := splitAttached arg
  match lv.longName? name, attached with
  | none, _ => .error .unknownArgument
  | some (.key k), none => do
    return { ← s.settle with pending := some (k, none) }
  | some (.key k), some v => do
    let s ← s.settle
    settle { s with pending := some (k, some v) }
  | some _, some _ => .error .valueForSwitch
  | some (.switch w), none => do
    let s ← s.settle
    if w ∈ s.switches then .error .givenTwice else return { s with switches := s.switches ++ [w] }
  | some .help, none => do
    discard s.settle
    .error .help
  | some .version, none => do
    discard s.settle
    .error .version

def letterH : UInt8 := 0x68

def letterV : UInt8 := 0x56

/-- The short options all ask for something to be shown, so the first letter decides. -/
def short (lv : Level) (s : Progress) (letter : UInt8) : Except Refusal Progress := do
  if letter = letterH then
    discard s.settle
    .error .help
  else if letter = letterV ∧ lv.names.any (·.2 = .version) then
    discard s.settle
    .error .version
  else .error .unknownArgument

/-- An argument that cannot be an option, a lone dash among them: the value waited for, or else plain. -/
def value (lv : Level) (s : Progress) (arg : Bytes) : Except Refusal Progress :=
  match s.waiting? with
  | some k => .ok { s with pending := some (k, some arg) }
  | none => s.plain lv arg

/-- After a double dash nothing is an option any more. -/
def accept (lv : Level) (s : Progress) (arg : Bytes) : Except Refusal Progress :=
  if s.onlySubjects then s.plain lv arg
  else
    match arg with
    | d :: e :: r =>
      if d = dash ∧ e = dash then
        if r = [] then .ok { s with onlySubjects := true } else s.long lv r
      else if d = dash then s.short lv e
      else s.value lv arg
    | [_] | [] => s.value lv arg

def read (lv : Level) : Progress → List Bytes → Except Refusal (Progress × Option (Verb × List Bytes))
  | s, [] => .ok (s, none)
  | s, arg :: rest =>
    match if lv.hasCommands && !s.onlySubjects && s.waiting?.isNone then verb? arg else none with
    | some c => .ok (s, some (c, rest))
    | none => do
      let s ← s.accept lv arg
      read lv s rest

end Progress

/-- The values of one level, the environment's configuration standing in for one not given there. -/
def finish (environment : Option Bytes) (s : Progress) : Except Refusal Progress := do
  let s ← s.settle
  if (s.get? .config).isNone then
    match environment with
    | some v => checkValue .config v
    | none => pure ()
  return s

def helpOn : List Bytes → Refusal
  | [] => .help
  | [arg] => if (verb? arg).isSome then .help else .unknownCommand
  | _ :: _ :: _ => .unknownCommand

def textValue (s : Progress) (k : Key) : String := Utf8.lossy ((s.get? k).getD [])

def pathValue (s : Progress) (k : Key) : Path := ⟨(s.get? k).getD []⟩

def commandOf (s : Progress) : CommandName → Command
  | .device => .device (pathValue s .subject) (s.switches.contains .mountInfo)
  | .mountEntry => .mountEntry (pathValue s .subject)
  | .bind =>
    .bind (textValue s .sandbox) (textValue s .container) (pathValue s .rootfs)
      (s.switches.contains .readOnly)
  | .unbind => .unbind (textValue s .sandbox) (textValue s .container)

def readCommand (environment : Option Bytes) (c : CommandName) (args : List Bytes) :
    Except Refusal Progress := do
  let (s, _) ← Progress.start.read (.ofCommand c) args
  let s ← finish environment s
  if (Level.ofCommand c).required.all fun k => (s.get? k).isSome then return s
  else .error .missingArgument

/-- The value given nearest to the command counts; the environment's only where none is given. -/
def nearest (outer inner : Progress) (k : Key) : Option Path :=
  ((inner.get? k).or (outer.get? k)).map Path.mk

def invocation (environment : Option Bytes) (args : List Bytes) : Except Refusal Invocation := do
  let (s, next) ← Progress.start.read .program args
  match next with
  | none =>
    let s ← finish environment s
    if s.values = [] ∧ s.switches = [] ∧ environment = none then .error .nothingGiven
    else .error .missingCommand
  | some (.help, rest) => .error (helpOn rest)
  | some (.command c, rest) =>
    let inner ← readCommand environment c rest
    let outer ← finish environment s
    return {
      config := (nearest outer inner .config).or (environment.map Path.mk)
      sharedDir := nearest outer inner .sharedDir
      jsonLogs := (outer.switches ++ inner.switches).contains .jsonLogs
      command := commandOf inner c }

end Arguments

end SandboxMounts
