/-!
Why a call to the operating system fails: an error number with its text, or one of two causes that
have no number.
-/

set_option autoImplicit false

namespace SandboxMounts

inductive Errno where
  | notPermitted
  | noEntry
  | inputOutput
  | permissionDenied
  | busy
  | alreadyExists
  | notDirectory
  | isDirectory
  | invalidArgument
  | tooManyOpenFiles
  | noSpace
  | readOnly
  | nameTooLong
  | tooManyLinks
  deriving DecidableEq, Repr

namespace Errno

def all : List Errno :=
  [.notPermitted, .noEntry, .inputOutput, .permissionDenied, .busy, .alreadyExists, .notDirectory,
    .isDirectory, .invalidArgument, .tooManyOpenFiles, .noSpace, .readOnly, .nameTooLong, .tooManyLinks]

def code : Errno → Nat
  | .notPermitted => 1
  | .noEntry => 2
  | .inputOutput => 5
  | .permissionDenied => 13
  | .busy => 16
  | .alreadyExists => 17
  | .notDirectory => 20
  | .isDirectory => 21
  | .invalidArgument => 22
  | .tooManyOpenFiles => 24
  | .noSpace => 28
  | .readOnly => 30
  | .nameTooLong => 36
  | .tooManyLinks => 40

def ofCode? (n : Nat) : Option Errno := all.find? (·.code == n)

theorem ofCode?_code (e : Errno) : ofCode? e.code = some e := by cases e <;> rfl

def text : Errno → String
  | .notPermitted => "Operation not permitted"
  | .noEntry => "No such file or directory"
  | .inputOutput => "Input/output error"
  | .permissionDenied => "Permission denied"
  | .busy => "Device or resource busy"
  | .alreadyExists => "File exists"
  | .notDirectory => "Not a directory"
  | .isDirectory => "Is a directory"
  | .invalidArgument => "Invalid argument"
  | .tooManyOpenFiles => "Too many open files"
  | .noSpace => "No space left on device"
  | .readOnly => "Read-only file system"
  | .nameTooLong => "File name too long"
  | .tooManyLinks => "Too many levels of symbolic links"

end Errno

inductive IoError where
  | os (e : Errno)
  | nulInPath
  | notUtf8
  deriving DecidableEq, Repr

def IoError.message : IoError → String
  | .os e => e.text ++ " (os error " ++ toString e.code ++ ")"
  | .nulInPath => "file name contained an unexpected NUL byte"
  | .notUtf8 => "stream did not contain valid UTF-8"

end SandboxMounts
