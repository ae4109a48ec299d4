import QubePolicy.CommandLine

/-!
# The program

Reads the files that a command line needs, carries it out, and prints what it has to say.
-/

namespace QubePolicy

/-- The settings of the environment that the program heeds. -/
def settings : List String :=
  ["RPC_POLICY_DIR", "RPC_POLICY_INCLUDE_DIR", "RPC_POLICY_AUDIT_LOG", "RPC_POLICY_AUDIT"]

def readEnvironment : IO Environment :=
  settings.filterMapM fun name => do
    return (← IO.getEnv name).map fun value => (name, value)

/-- The disk with one file of the machine; one that cannot be read is left out. -/
def addFile (d : Disk) (text : String) : IO Disk := do
  try
    let bytes ← IO.FS.readBinFile ((← IO.currentDir) / text)
    let p := Path.root.resolve text
    return ((d.makeDirectories p.parent).bind (·.write p bytes.toList)).toOption.getD d
  catch _ => return d

def addPath (d : Disk) (text : String) : IO Disk := do
  let place := (← IO.currentDir) / text
  if ← place.isDir then
    let made := (d.makeDirectories (Path.root.resolve text)).toOption.getD d
    (← place.readDir).foldlM (fun d e => addFile d (text ++ "/" ++ e.fileName)) made
  else addFile d text

def printEntry (e : Console.Entry) : IO Unit :=
  match e.channel with
  | .out => IO.println e.text
  | .err => IO.eprintln e.text

def runProgram (arguments : List String) : IO UInt32 := do
  let env ← readEnvironment
  let home := (← IO.getEnv "HOME").getD "/"
  let disk ← (CommandLine.needs home env arguments).foldlM addPath .blank
  let (code, host) := CommandLine.run home env arguments ⟨disk, ⟨0⟩, []⟩
  host.console.forM printEntry
  return code.toUInt32

end QubePolicy

def main (arguments : List String) : IO UInt32 := QubePolicy.runProgram arguments
