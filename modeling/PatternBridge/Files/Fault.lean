import PatternBridge.Text.Blank

/-!
Why the file system refuses something.
-/

namespace PatternBridge

inductive Fault where
  | notFound
  | alreadyThere
  | notDirectory
  | isDirectory
  | nameTooLong
  | tooManyLinks
  | notText
  | nullInName
  | noSpace
  | overQuota
  | fileTooLarge
  deriving DecidableEq

def Fault.message : Fault → Text
  | notFound => "No such file or directory (os error 2)"
  | alreadyThere => "File exists (os error 17)"
  | notDirectory => "Not a directory (os error 20)"
  | isDirectory => "Is a directory (os error 21)"
  | nameTooLong => "File name too long (os error 36)"
  | tooManyLinks => "Too many levels of symbolic links (os error 40)"
  | notText => "stream did not contain valid UTF-8"
  | nullInName => "file name contained an unexpected NUL byte"
  | noSpace => "No space left on device (os error 28)"
  | overQuota => "Disk quota exceeded (os error 122)"
  | fileTooLarge => "File too large (os error 27)"

end PatternBridge
