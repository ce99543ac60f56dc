/-!
# Errors of the file system

`SystemError` is what the file system answers when it cannot do what it is asked to, and
`SystemError.message` its words.
-/

namespace Reckon

/-- Why the file system refuses. -/
inductive SystemError where
  /-- A name on the way, or the last one, does not exist. -/
  | notFound
  /-- Permission is missing. -/
  | denied
  /-- Something has the name already. -/
  | alreadyExists
  /-- A name on the way is not a directory. -/
  | notDirectory
  /-- A directory stands where a file is wanted. -/
  | isDirectory
  /-- A name or the whole path is too long. -/
  | nameTooLong
  /-- Too many symbolic links were followed. -/
  | tooManyLinks
  /-- The path holds a character with code zero. -/
  | zeroInPath
  /-- Anything else, in the words of the system. -/
  | other (description : String)
  deriving DecidableEq, Repr

/-- The error in the words of the system. -/
def SystemError.message : SystemError → String
  | .notFound => "No such file or directory (os error 2)"
  | .denied => "Permission denied (os error 13)"
  | .alreadyExists => "File exists (os error 17)"
  | .notDirectory => "Not a directory (os error 20)"
  | .isDirectory => "Is a directory (os error 21)"
  | .nameTooLong => "File name too long (os error 36)"
  | .tooManyLinks => "Too many levels of symbolic links (os error 40)"
  | .zeroInPath => "file name contained an unexpected NUL byte"
  | .other description => description

end Reckon
