import SandboxMounts.Path.Basic

/-!
What an invocation of the program asks for, and why it may be refused.
-/

set_option autoImplicit false

namespace SandboxMounts

inductive Command where
  | device (path : Path) (mountInfo : Bool)
  | mountEntry (mountPoint : Path)
  | bind (sandbox container : String) (rootfs : Path) (readOnly : Bool)
  | unbind (sandbox container : String)
  deriving DecidableEq, Repr

structure Invocation where
  config : Option Path
  sharedDir : Option Path
  jsonLogs : Bool
  command : Command
  deriving DecidableEq, Repr

def Invocation.program : String := "vmshare"

def Invocation.configVariable : String := "VMSHARE_CONFIG"

inductive Refusal where
  | help
  | version
  | nothingGiven
  | missingCommand
  | unknownCommand
  | missingArgument
  | unknownArgument
  | invalidValue
  | valueForSwitch
  | givenTwice
  | notUtf8
  deriving DecidableEq, Repr

def Refusal.text : Refusal → String
  | .help => "commands: device, mount-entry, bind, unbind, help"
  | .version => Invocation.program
  | .nothingGiven => "nothing to do; try help"
  | .missingCommand => "a command is missing"
  | .unknownCommand => "no such command"
  | .missingArgument => "an argument of the command is missing"
  | .unknownArgument => "no such argument"
  | .invalidValue => "an option has no value, or an empty path"
  | .valueForSwitch => "a value is given where none is taken"
  | .givenTwice => "an option is given twice"
  | .notUtf8 => "an id is not UTF-8"

/-- Asking for help is no failure. -/
def Refusal.isAnswer : Refusal → Bool
  | .help | .version => true
  | _ => false

end SandboxMounts
