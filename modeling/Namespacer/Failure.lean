import Namespacer.Disk
import Namespacer.Ignore
import Namespacer.Json.Reader
import Namespacer.Settings
import Namespacer.Text.Template

/-!
# Failures

Why a step of a migration stops. A failure names its cause; the words for it
are those of the cause.
-/

namespace Namespacer

/-- Why a step stops. -/
inductive Failure where
  /-- The disk refuses an operation on a path, or on two paths. -/
  | disk (fault : DiskFault) (path : Path) (target : Option Path)
  /-- The bytes of a file cannot be read as text. -/
  | decoding (fault : Encoding.DecodeFault)
  /-- A text cannot be written as bytes. -/
  | encoding (fault : Encoding.EncodeFault)
  /-- There is no encoding with a name. -/
  | unknownEncoding (name : Text)
  /-- A pattern of paths cannot be read. -/
  | ignoreRule (fault : IgnoreFault)
  /-- The manifest is not written in JSON. -/
  | manifestText (text : Text) (fault : Json.FaultAt)
  /-- The manifest is no object. -/
  | manifestShape
  /-- A section of the manifest is no object. -/
  | manifestSection
  /-- A file has a path without parts. -/
  | emptyPath
  /-- A new name cannot be written into a text. -/
  | template (fault : TemplateFault)
  /-- The symbol index is older than the last rename. -/
  | staleIndex
  /-- There is nobody to do the work. -/
  | noWorkers
  /-- The root namespace is empty. -/
  | emptyNamespace
  /-- There is no program to install packages. -/
  | installerMissing
  /-- The program that installs packages has failed. -/
  | installerFailed (code : Int)
  /-- The program that installs packages does not come to an end. -/
  | installerTimeout
deriving Repr

/-- The words for the paths of a disk fault. -/
def diskPathsText (path : Path) (target : Option Path) : Text :=
  Text.quoted path.toText ++
    match target with
    | some target => " -> ".toList ++ Text.quoted target.toText
    | none => []

/-- The message for a failure. -/
def Failure.message : Failure → Text
  | disk fault path target => fault.message ++ ": " ++ diskPathsText path target
  | decoding fault => fault.message
  | encoding fault => fault.message
  | unknownEncoding name => "unknown encoding: ".toList ++ name
  | ignoreRule fault => fault.message
  | manifestText text fault => fault.message text
  | manifestShape => "the manifest is not an object"
  | manifestSection => "a section of the manifest is not an object"
  | emptyPath => "a path has no parts"
  | template _ => "a new name cannot be written"
  | staleIndex => "symbol index was built before the latest rename; rebuild it"
  | noWorkers => "max_workers must be greater than 0"
  | emptyNamespace => emptyNamespaceMessage
  | installerMissing => "composer executable not found"
  | installerFailed code => "composer install exited with ".toList ++ Text.ofInt code
  | installerTimeout => "composer install timed out"

end Namespacer
