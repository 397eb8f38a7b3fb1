import SignalGraph.Hook
import SignalGraph.Json.Reader
import SignalGraph.Json.Writer
import SignalGraph.LoadError

/-!
# The registry of native modules

Modules by id, in ascending order of their ids, and a second index by name. No two modules share
an id or a name. Modules are registered one by one or loaded from a manifest, which also gives
each module a fixed latency; a module that is refused changes nothing.
-/

namespace SignalGraph

inductive RegistryError where
  | duplicate (name first second : String)
  | invalid (origin name : String) (error : SignatureError)
deriving DecidableEq, Repr

def RegistryError.message : RegistryError → String
  | .duplicate name first second =>
    s!"duplicate module '{name}': first defined in {first}, redefined in {second}"
  | .invalid origin name error =>
    s!"{origin}: invalid signature for module '{name}': " ++ error.message

/-- A registered module. -/
structure Module where
  signature : Signature
  hook : Hook
  origin : String

/-- A module that the host of the compiler supplies. -/
def Module.hosted (signature : Signature) (hook : Hook) : Module where
  signature := signature
  hook := hook
  origin := "<host>"

structure Registry where
  modules : List (ModuleId × Module) := []
  names : List (String × ModuleId) := []

namespace Registry

def size (r : Registry) : Nat :=
  r.modules.length

def module? (r : Registry) (id : ModuleId) : Option Module :=
  r.modules.lookup id

def lookup (r : Registry) (id : ModuleId) : Option Signature :=
  (r.module? id).map Module.signature

def lookupName (r : Registry) (name : String) : Option Signature :=
  (r.names.lookup name).bind r.lookup

def hook? (r : Registry) (id : ModuleId) : Option Hook :=
  (r.module? id).map Module.hook

/-- All signatures in ascending order of their ids. -/
def signatures (r : Registry) : List Signature :=
  r.modules.map fun m => m.2.signature

/-- Puts a module in its place among modules in ascending order. -/
def place (id : ModuleId) (m : Module) : List (ModuleId × Module) → List (ModuleId × Module)
  | [] => [(id, m)]
  | (other, n) :: rest =>
    if id.toNat < other.toNat then (id, m) :: (other, n) :: rest
    else (other, n) :: place id m rest

/-- The module that already has the id, or else the name, of a signature. -/
def clash? (r : Registry) (s : Signature) : Option Module :=
  (r.module? s.id).or ((r.names.lookup s.name).bind r.module?)

def insert (r : Registry) (m : Module) : Except RegistryError Registry :=
  match m.signature.validate with
  | .error e => .error (.invalid m.origin m.signature.name e)
  | .ok () =>
    match r.clash? m.signature with
    | some first => .error (.duplicate m.signature.name first.origin m.origin)
    | none =>
      .ok { modules := place m.signature.id m r.modules
            names := (m.signature.name, m.signature.id) :: r.names }

/-- Registers a module that the host of the compiler supplies. If it is refused, the registry
stays as it is. -/
def register (r : Registry) (signature : Signature) (hook : Hook) :
    Registry × Except RegistryError Unit :=
  match r.insert (.hosted signature hook) with
  | .ok r => (r, .ok ())
  | .error e => (r, .error e)

/-- Inserts modules up to the first that is refused, and says why it was. -/
def insertAll (r : Registry) : List Module → Registry × Option RegistryError
  | [] => (r, none)
  | m :: rest =>
    match r.insert m with
    | .ok r => r.insertAll rest
    | .error e => (r, some e)

/-- All signatures as one line of JSON. It does not depend on the order of registration. -/
def canonical (r : Registry) : String :=
  (Json.array (r.signatures.map Signature.toJson)).compact

/-! ## Manifests -/

/-- A module of a manifest. The members of its signature stand among its own, so it is held. -/
def listedModule? (origin : String) (value : Json) : Option Module := do
  guard (value.holdable 2)
  let r ← value.members? false ("latency" :: Signature.fieldNames)
  let signature ← Signature.ofRecord? (Parameter.ofJson? .held) r
  let latency ← r.withDefault "latency" 0 (Json.nat? 32)
  return { signature, hook := Hook.fixed latency, origin }

/-- The modules of a manifest. -/
def manifest? (text origin : String) : Option (List Module) := do
  let value ← Json.parse? text
  let r ← value.record? true ["modules"]
  r.required "modules" (Json.list? (listedModule? origin))

/-- Loads a manifest and says how many modules it has. Modules before one that is refused stay. -/
def load (r : Registry) (text origin : String) :
    Registry × Except (LoadError RegistryError) Nat :=
  match manifest? text origin with
  | none => (r, .error (.malformed origin))
  | some modules =>
    match r.insertAll modules with
    | (r, none) => (r, .ok modules.length)
    | (r, some e) => (r, .error (.invalid e))

end Registry

end SignalGraph
