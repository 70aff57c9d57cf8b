import StackLisp.Build
import StackLisp.Command.Flag
import StackLisp.Host
import StackLisp.Listing
import StackLisp.Project

/-! Why a command fails. -/
namespace StackLisp

open Text (lit)

inductive Failure where
  | usage (fault : UsageFault)
  | severalInputs
  | noInput
  | unknownFormat (format : Bytes)
  | unknownFunction (name : Bytes)
  | file (fault : FileFault)
  | projectUnreadable (path : Bytes) (fault : FileFault)
  | badProject (path : Bytes) (fault : Project.Fault)
  | badUnit (fault : CodeUnit.BytesFault)
  | unwritable (fault : CodeUnit.WriteFault)
  | unlistable (fault : Listing.Fault)
  | foreignHome
  | cacheDirectory (fault : FileFault)
  | cacheClosed
  | notCache
  /-- Faults that stopped the compilation of a file. -/
  | program (faults : List Diagnostic)
  /-- Faults found by checking all files. -/
  | checked (faults : List Diagnostic)
deriving DecidableEq, Repr

namespace Failure

def ofBuild : Build.Fault → Failure
  | .program faults => program faults
  | .unwritable fault => unwritable fault

def message : Failure → Bytes
  | usage fault => fault.message
  | severalInputs => lit "multiple input sources specified"
  | noInput => lit "no input provided"
  | unknownFormat format => lit "unknown output format: " ++ format
  | unknownFunction name => lit "function " ++ Text.quote name ++ lit " not found"
  | file fault => fault.message
  | projectUnreadable path fault => lit "cannot read " ++ path ++ lit ": " ++ fault.message
  | badProject path fault => lit "parse error in " ++ path ++ lit ": " ++ fault.message
  | badUnit fault => fault.message
  | unwritable fault => fault.message
  | unlistable fault => fault.message
  | foreignHome => lit "expanding cache path: cannot expand user-specific home dir"
  | cacheDirectory fault => lit "creating cache directory: " ++ fault.message
  | cacheClosed =>
    lit "setting busy timeout: unable to open database file: out of memory (14)"
  | notCache => lit "creating table: file is not a database (26)"
  | program faults => Diagnostic.textAll faults
  | checked faults => Diagnostic.textAll faults

/-- Faults of programs are shown with the source; other messages are shown as they are. -/
def render (colored : Bool) : Failure → Bytes
  | program faults | checked faults => Report.renderAll colored (faults.map Diagnostic.report)
  | other => Style.red.paint colored other.message

/-- The code of a failure. Of the faults of a check, the first one counts. -/
def code : Failure → Bytes
  | program faults => Diagnostic.codeOfAll faults
  | checked faults => Diagnostic.codeOfAll (faults.take 1)
  | _ => []

end Failure
end StackLisp
