/-!
# File faults

Why an operation on files cannot be done, in the words of the operating system.
-/

namespace BlockMarkup

inductive Fault where
  | notFound
  /-- What lies at the path cannot be opened. -/
  | noDevice
  | busy
  | alreadyExists
  | notADirectory
  | isADirectory
  | invalidArgument
  | nameTooLong
  | notEmpty
  /-- No interface of the machine has the address. -/
  | addressNotAvailable
  /-- The path holds the character with code zero. -/
  | nulInPath
  /-- The contents of a file are no text. -/
  | invalidText
  /-- A source that was asked for is not there. -/
  | inputNotFound (path : String)
  /-- Anything else the system may answer. -/
  | other (message : String)
  deriving DecidableEq, Repr

namespace Fault

def message : Fault → String
  | notFound => "No such file or directory (os error 2)"
  | noDevice => "No such device or address (os error 6)"
  | busy => "Device or resource busy (os error 16)"
  | alreadyExists => "File exists (os error 17)"
  | notADirectory => "Not a directory (os error 20)"
  | isADirectory => "Is a directory (os error 21)"
  | invalidArgument => "Invalid argument (os error 22)"
  | nameTooLong => "File name too long (os error 36)"
  | notEmpty => "Directory not empty (os error 39)"
  | addressNotAvailable => "Cannot assign requested address (os error 99)"
  | nulInPath => "file name contained an unexpected NUL byte"
  | invalidText => "stream did not contain valid UTF-8"
  | inputNotFound path => "input not found: " ++ path
  | other message => message

end Fault

end BlockMarkup
