import QubePolicy.Session

/-!
# Configuration

* `Environment`      the variables of the environment;
* `Config`           where policies and the audit log are;
* `Config.ofEnvironment`, `Config.withDirectory`   the configuration that the environment gives,
                     and the same for another policy directory;
* `Session.ofConfig` a session with nothing open.
-/

namespace QubePolicy

abbrev Environment := List (String × String)

/-- The value of a variable that is not blank. -/
def Environment.value? (env : Environment) (name : String) : Option String :=
  (env.lookup name).filter fun v => !(Text.trim v.toList).isEmpty

structure Config where
  directory : String
  includeDirectory : String
  auditEnabled : Bool
  auditPath : String
  auditMaxSize : Int
  deriving DecidableEq, Repr

namespace Config

/-- The include directory, inside the policy directory unless the environment says otherwise. -/
def includeDirectoryFor (env : Environment) (directory : String) : String :=
  (env.value? "RPC_POLICY_INCLUDE_DIR").getD (Path.joined directory "include")

def ofEnvironment (home : String) (env : Environment) : Config :=
  let directory := (env.value? "RPC_POLICY_DIR").getD "/etc/qubes/policy.d"
  { directory
    includeDirectory := includeDirectoryFor env directory
    auditEnabled := env.lookup "RPC_POLICY_AUDIT" != some "0"
    auditPath := (env.value? "RPC_POLICY_AUDIT_LOG").getD
      (Path.joined home ".rpc-policy/audit.log")
    auditMaxSize := AuditLog.defaultMaxSize }

/-- The configuration with another policy directory; the include directory goes with it unless the
environment sets one. -/
def withDirectory (c : Config) (env : Environment) (directory : String) : Config :=
  { c with
    directory
    includeDirectory := includeDirectoryFor env directory }

def store (c : Config) : Store := .ofTexts c.directory (some c.includeDirectory)

def auditLog (c : Config) : AuditLog := ⟨c.auditPath, c.auditMaxSize⟩

end Config

def Session.ofConfig (c : Config) : Session :=
  ⟨c.store, if c.auditEnabled then some c.auditLog else none, true, []⟩

end QubePolicy
