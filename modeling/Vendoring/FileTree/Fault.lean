/-!
# Faults of the file system

Why an operation on files fails, and the words that the system has for it.
-/

namespace Vendoring

inductive FileFault
  | notFound
  | busy
  | exists
  | notDirectory
  | isDirectory
  | nameTooLong
  | tooManyLinks
  | nulInPath
  | notText
  | notRegular
  deriving DecidableEq, Repr

namespace FileFault

/-- A text of the operating system, with its number. -/
def systemText (text : String) (number : Nat) : String :=
  text ++ " (os error " ++ toString number ++ ")"

def message : FileFault → String
  | .notFound => systemText "No such file or directory" 2
  | .busy => systemText "Device or resource busy" 16
  | .exists => systemText "File exists" 17
  | .notDirectory => systemText "Not a directory" 20
  | .isDirectory => systemText "Is a directory" 21
  | .nameTooLong => systemText "File name too long" 36
  | .tooManyLinks => systemText "Too many levels of symbolic links" 40
  | .nulInPath => "file name contained an unexpected NUL byte"
  | .notText => "stream did not contain valid UTF-8"
  | .notRegular => "the source path is neither a regular file nor a symlink to a regular file"

end FileFault

end Vendoring
