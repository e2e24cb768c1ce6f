/-!
# Unreadable Files

Why a file gives no text: the system refuses to read it, which it reports by a number, or its bytes are
no text.  The sentences for the numbers are those of the system's own messages.  What reading a file
does is not covered here.
-/

namespace RadioAccess

/-- Why a file gives no text. -/
inductive ReadError where
  /-- The system refuses, with the number of a system error. -/
  | refused (code : Nat)
  /-- The bytes are not the encoding of a text. -/
  | notText
deriving DecidableEq

namespace ReadError

def notFound : ReadError := refused 2

/-- A part of the path that has to be a directory is none. -/
def notDirectory : ReadError := refused 20

def isDirectory : ReadError := refused 21

def nameTooLong : ReadError := refused 36

/-- The sentences of the system that are about files. -/
def systemMessages : List (ReadError × String) :=
  [(refused 1, "Operation not permitted"), (notFound, "No such file or directory"),
    (refused 5, "Input/output error"), (refused 6, "No such device or address"),
    (refused 11, "Resource temporarily unavailable"), (refused 12, "Cannot allocate memory"),
    (refused 13, "Permission denied"), (refused 16, "Device or resource busy"),
    (refused 19, "No such device"), (notDirectory, "Not a directory"), (isDirectory, "Is a directory"),
    (refused 22, "Invalid argument"), (refused 23, "Too many open files in system"),
    (refused 24, "Too many open files"), (refused 26, "Text file busy"), (refused 27, "File too large"),
    (nameTooLong, "File name too long"), (refused 40, "Too many levels of symbolic links"),
    (refused 75, "Value too large for defined data type"), (refused 116, "Stale file handle")]

def message : ReadError → String
  | refused code =>
    (systemMessages.lookup (refused code)).getD ("Unknown error " ++ toString code) ++
      " (os error " ++ toString code ++ ")"
  | notText => "stream did not contain valid UTF-8"

end ReadError

end RadioAccess
