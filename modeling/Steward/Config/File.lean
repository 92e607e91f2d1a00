/-
Configuration files: what a host finds on its disk, read as a configuration.

The file itself is a value here (`Found`), so what is done with it is a plain
function; fetching it is left to the host.
-/
import Steward.Config

namespace Steward

namespace Config

/-- The name of the configuration file in a directory. -/
def fileName : String := "dblang.toml"

/-- What stands at a path. -/
inductive Found where
  | nothing
  | directory
  | file (content : ByteArray)

/-- Reads the configuration file at a path. -/
def ofFile (path : String) (found : Found) : Except Error Config :=
  let text? := match found with
    | .file content => String.fromUTF8? content
    | _ => none
  match text? with
  | none => .error (.config s!"failed to read config file '{path}'")
  | some text =>
    match parse text with
    | .error (.config reason) =>
      .error (.config s!"failed to parse config file '{path}': {reason}")
    | result => result

/-- Reads the configuration of a directory, where `found` says what stands at
each path.  A directory without the file has the default configuration. -/
def ofDirectory (directory : String) (found : String → Found) : Except Error Config :=
  let path := directory ++ "/" ++ fileName
  match found path with
  | .nothing => .ok {}
  | entry => ofFile path entry

end Config

end Steward
