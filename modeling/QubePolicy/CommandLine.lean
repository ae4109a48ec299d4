import QubePolicy.Config
import QubePolicy.Number.Literal

/-!
# The command line

* `CommandLine.check`      the problems of some files;
* `CommandLine.evaluate`   the decision on a request;
* `CommandLine.list`       the names of the stored files;
* `CommandLine.log`        the entries of the audit log;
* `CommandLine.run`        a command line carried out on a host, with its exit code;
* `CommandLine.needs`      the paths that a command line reads from.
-/

namespace QubePolicy.CommandLine

/-! ## faults -/

inductive UsageFault where
  | unknownFlag (argument : String)
  | unknownArgument (argument : String)
  | missingValue (flag : String)
  | badAssignment (flag value : String)
  | sourceNotName (text : String)
  | unsupportedDestination (text : String)
  | badLimit
  deriving DecidableEq, Repr

def UsageFault.message : UsageFault → String
  | .unknownFlag argument => s!"Unknown flag: {argument}"
  | .unknownArgument argument => s!"Unknown argument: {argument}"
  | .missingValue flag => s!"{flag} requires a value"
  | .badAssignment flag value => s!"{flag} expects <qube>=<value>, got {value}"
  | .sourceNotName text => s!"Source must be a qube name, got {text}"
  | .unsupportedDestination text => s!"Unsupported destination: {text}"
  | .badLimit => "--limit requires a positive integer"

def fail (h : Host) (message : String) : Nat × Host :=
  (1, h.print [Console.err s!"Error: {message}"])

def isFlag (argument : String) : Bool := (Text.after? "--" argument).isSome

/-! ## check -/

def checkArguments : List String → Except UsageFault (Bool × List String)
  | [] => .ok (true, [])
  | argument :: rest =>
    if argument = "--no-includes" then (checkArguments rest).map fun (_, files) => (false, files)
    else if isFlag argument then .error (.unknownFlag argument)
    else (checkArguments rest).map fun (allowed, files) => (allowed, argument :: files)

def checkFile (d : Disk) (allowIncludes : Bool) (file : String) : List Console.Entry × Bool :=
  match d.locate file >>= d.readText with
  | .error e => ([Console.error s!"Cannot read {file}: {e.message}"], false)
  | .ok text =>
    let ds := (PolicyFile.ofText file allowIncludes text).diagnostics
    (Console.diagnostics file ds, !ds.any Diagnostic.isError)

def check (arguments : List String) (h : Host) : Nat × Host :=
  match checkArguments arguments with
  | .error e => fail h e.message
  | .ok (_, []) =>
    (1, h.print [Console.err "Error: check command requires at least one file",
      Console.err "Usage: rpc-policy check [--no-includes] <file...>"])
  | .ok (allowIncludes, files) =>
    let results := files.map (checkFile h.disk allowIncludes)
    (if results.all Prod.snd then 0 else 1, h.print (results.flatMap Prod.fst))

/-! ## evaluate -/

structure EvaluateOptions where
  directory : Option String
  /-- tags with the qubes they are given to, in the order of the arguments -/
  tags : List (String × String)
  /-- types with the qubes they are given to, in the order of the arguments -/
  types : List (String × String)
  positional : List String
  deriving DecidableEq, Repr

/-- The two sides of the first `=` of an argument, neither of them empty. -/
def assignment (flag value : String) : Except UsageFault (String × String) :=
  let cs := value.toList
  match cs.takeWhile (· != '='), cs.dropWhile (· != '=') with
  | c :: left, _ :: d :: right => .ok (String.ofList (c :: left), String.ofList (d :: right))
  | _, _ => .error (.badAssignment flag value)

/-- The options of the arguments, behind the options of the arguments before them. -/
def evaluateArguments (before : EvaluateOptions) : List String → Except UsageFault EvaluateOptions
  | [] => .ok before
  | [argument] =>
    if argument = "--policy-dir" || argument = "--tag" || argument = "--type" then
      .error (.missingValue argument)
    else if isFlag argument then .error (.unknownFlag argument)
    else .ok { before with positional := before.positional ++ [argument] }
  | argument :: value :: rest =>
    if argument = "--policy-dir" then
      evaluateArguments { before with directory := some value } rest
    else if argument = "--tag" then
      match assignment argument value with
      | .ok tag => evaluateArguments { before with tags := before.tags ++ [tag] } rest
      | .error e => .error e
    else if argument = "--type" then
      match assignment argument value with
      | .ok type => evaluateArguments { before with types := before.types ++ [type] } rest
      | .error e => .error e
    else if isFlag argument then .error (.unknownFlag argument)
    else
      evaluateArguments { before with positional := before.positional ++ [argument] }
        (value :: rest)

namespace EvaluateOptions

/-- What the arguments say about a qube: the last type given to it, and all of its tags. -/
def qube (o : EvaluateOptions) (name : String) : Qube :=
  ⟨name, o.types.reverse.lookup name,
    (o.tags.filter (·.1 == name)).map Prod.snd⟩

def source (o : EvaluateOptions) (text : String) : Except UsageFault Qube :=
  if (Text.after? "@" text).isSome then .error (.sourceNotName text) else .ok (o.qube text)

def destination (o : EvaluateOptions) (text : String) : Except UsageFault Destination :=
  if text = "@default" then .ok .unspecified
  else if text = "@dispvm" then .ok (.disposable none)
  else match Text.after? "@dispvm:" text with
    | some template => .ok (.disposable (some (o.qube template)))
    | none =>
      if (Text.after? "@" text).isSome then .error (.unsupportedDestination text)
      else .ok (.qube (o.qube text))

/-- The request of four positional arguments; the argument of the call may have a plus sign in
front. -/
def request (o : EvaluateOptions) (service argument source destination : String) :
    Except UsageFault Request := do
  return ⟨service, (Text.after? "+" argument).getD argument, ← o.source source,
    ← o.destination destination⟩

end EvaluateOptions

def configFor (home : String) (env : Environment) (directory : Option String) : Config :=
  let c := Config.ofEnvironment home env
  match directory with
  | some d => c.withDirectory env d
  | none => c

def loadFiles (s : Store) (d : Disk) : List String → Except Fault (List PolicyFile)
  | [] => .ok []
  | name :: names => do
    let (text, _) ← s.get d name
    return .ofText name true text :: (← loadFiles s d names)

def mainFiles (s : Store) (d : Disk) : Except Fault (List PolicyFile) := do
  loadFiles s d ((← s.list d).filter fun n => !PolicyName.isInclude n)

def evaluateRequest (s : Store) (request : Request) (h : Host) : Nat × Host :=
  match mainFiles s h.disk with
  | .error e => fail h e.message
  | .ok files =>
    let h := h.print ((files.filter fun f => !f.canSave).map fun f =>
      Console.warning s!"{f.name} has errors; its malformed lines are skipped")
    match explain (s.includes h.disk [] true) request files with
    | .error e => fail h e.message
    | .ok found => (0, h.print [Console.out ("\n".intercalate (request.decision found))])

def evaluate (home : String) (env : Environment) (arguments : List String) (h : Host) :
    Nat × Host :=
  match evaluateArguments ⟨none, [], [], []⟩ arguments with
  | .error e => fail h e.message
  | .ok o =>
    match o.positional with
    | [service, argument, source, destination] =>
      match o.request service argument source destination with
      | .error e => fail h e.message
      | .ok request => evaluateRequest (configFor home env o.directory).store request h
    | _ => fail h "evaluate command requires <service> <argument> <source> <destination>"

/-! ## list -/

def listArguments (directory : Option String) : List String → Except UsageFault (Option String)
  | [] => .ok directory
  | [argument] =>
    if argument = "--policy-dir" then .error (.missingValue argument)
    else .error (.unknownArgument argument)
  | argument :: value :: rest =>
    if argument = "--policy-dir" then listArguments (some value) rest
    else .error (.unknownArgument argument)

def list (home : String) (env : Environment) (arguments : List String) (h : Host) : Nat × Host :=
  match listArguments none arguments with
  | .error e => fail h e.message
  | .ok directory =>
    let c := configFor home env directory
    match c.store.list h.disk with
    | .error e => fail h e.message
    | .ok [] => (0, h.print [Console.info s!"No policy files in {c.directory}"])
    | .ok names => (0, h.print (names.map Console.out))

/-! ## log -/

def limit? (text : String) : Option Int :=
  match (Number.ofLiteral? text).bind Number.toInt? with
  | some n => if 0 < n then some n else none
  | none => none

def logArguments (limit : Int) : List String → Except UsageFault Int
  | [] => .ok limit
  | [argument] =>
    if argument = "--limit" then .error (.missingValue argument)
    else .error (.unknownArgument argument)
  | argument :: value :: rest =>
    if argument = "--limit" then
      match limit? value with
      | some n => logArguments n rest
      | none => .error .badLimit
    else .error (.unknownArgument argument)

def log (home : String) (env : Environment) (arguments : List String) (h : Host) : Nat × Host :=
  match logArguments 50 arguments with
  | .error e => fail h e.message
  | .ok limit =>
    match (Config.ofEnvironment home env).auditLog.read ⟨none, none, limit⟩ h with
    | ([], h) => (0, h.print [Console.info "No saves recorded"])
    | (entries, h) => (0, h.print (entries.map fun e => Console.out e.render))

/-! ## commands -/

def usage : String :=
"rpc-policy - Validate and preview qrexec RPC policy files

Usage:
  rpc-policy check [--no-includes] <file...>     Validate policy files
  rpc-policy evaluate [flags] <service> <argument> <source> <destination>
                                                 Show the decision for a request
  rpc-policy list [--policy-dir <dir>]           List policy files
  rpc-policy log [--limit <n>]                   View the save audit log

Evaluate Flags:
  --policy-dir <dir>                             Policy directory (default: $RPC_POLICY_DIR or /etc/qubes/policy.d)
  --tag <qube>=<tag>                             Give a qube a tag (repeatable)
  --type <qube>=<type>                           Give a qube a type

Destinations:
  <name>                                         A named qube
  @default                                       No destination given by the caller
  @dispvm                                        A new disposable from the default template
  @dispvm:<template>                             A new disposable from <template>

Examples:
  rpc-policy check /etc/qubes/policy.d/30-user.policy
  rpc-policy evaluate qubes.Filecopy + work @default
  rpc-policy evaluate --tag work=trusted qubes.Gpg + work vault"

def run (home : String) (env : Environment) (arguments : List String) (h : Host) : Nat × Host :=
  match arguments with
  | [] => (1, h.print [Console.out usage])
  | command :: rest =>
    if command = "--help" || command = "-h" then (0, h.print [Console.out usage])
    else if command = "--version" || command = "-v" || command = "version" then
      (0, h.print [Console.out "rpc-policy v1.0.0"])
    else if command = "check" then check rest h
    else if command = "evaluate" then evaluate home env rest h
    else if command = "list" then list home env rest h
    else if command = "log" then log home env rest h
    else
      (1, h.print [Console.err s!"Error: Unknown command: {command}",
        Console.err "Run rpc-policy --help for usage"])

/-- The paths that a command line reads from: the files to check, the two policy directories, or
the audit log. -/
def needs (home : String) (env : Environment) (arguments : List String) : List String :=
  match arguments with
  | [] => []
  | command :: rest =>
    if command = "check" then
      match checkArguments rest with
      | .ok (_, files) => files
      | .error _ => []
    else if command = "evaluate" then
      match evaluateArguments ⟨none, [], [], []⟩ rest with
      | .ok o => directories (configFor home env o.directory)
      | .error _ => []
    else if command = "list" then
      match listArguments none rest with
      | .ok directory => directories (configFor home env directory)
      | .error _ => []
    else if command = "log" then [(Config.ofEnvironment home env).auditPath]
    else []
where
  directories (c : Config) : List String := [c.directory, c.includeDirectory]

end QubePolicy.CommandLine
