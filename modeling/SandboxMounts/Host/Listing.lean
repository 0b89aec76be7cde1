import SandboxMounts.Host.Basic

/-!
Hosts described by lines of text, for rehearsals: a line is the path of a directory if it ends in a
slash, and of an empty file if not. The mount calls that a run would make are shown one a line.
-/

set_option autoImplicit false

namespace SandboxMounts

namespace Host

def placeLine (h : Host) (line : String) : Host :=
  let p := Path.ofString line
  if p.isEmpty then h
  else h.place (p.normalize []) (if p.endsInSlash then .dir 0o755 else .leaf .regular 0o644 []) none none

def ofLines (lines : List String) : Host := lines.foldl placeLine initial

end Host

def MountRequest.text : MountRequest → String
  | .bind source => "bind " ++ source.display
  | .makePrivate => "make-private"
  | .remountReadOnly source => "read-only remount " ++ source.display
  | .detach => "detach"

def MountCall.text (c : MountCall) : String :=
  let outcome := match c.errno with
    | none => ""
    | some e => ": " ++ e.text
  c.request.text ++ " " ++ c.target.display ++ outcome

end SandboxMounts
