import Tauri.Acl.Tables
import Tauri.State

/-!
# The runtime authority

`RuntimeAuthority` holds the resolved tables at run time. `resolveAccess` decides a request,
`addCapability` merges the tables of a further resolution into those it has, and the scope
manager deserialises scope values on demand and caches them by type.

The definitions keep the loops, the panics and the order of the source. Deserialising a scope
value is a function of the value: what an application's `deserialize` reads besides it is not
modelled.
-/

namespace Tauri.Ipc

open Rust Acl

/-- The origin trying to access the IPC. -/
inductive Origin where
  | local_
  | remote (url : Url)
  deriving DecidableEq, Repr

/-- `Origin::matches`. -/
def Origin.matches {G P : Type} (E : Patterns G P) : Origin → ExecutionContext P → Bool
  | .local_, .local_ => true
  | .remote url, .remote pattern => E.testUrl pattern url
  | _, _ => false

/-- The scope object types `T : ScopeObject`, each with its `deserialize`. -/
structure ScopeTypes where
  Id : Type
  decEq : DecidableEq Id
  Obj : Id → Type
  deserialize : (t : Id) → Value → Except String (Obj t)

instance (S : ScopeTypes) : DecidableEq S.Id := S.decEq

/-- `ScopeValue<T>`. -/
structure ScopeValue (T : Type) where
  allow : List T
  deny : List T
  deriving DecidableEq, Repr

/-- The cache of deserialised scopes: a state manager that stores `ScopeValue<T>`. -/
abbrev ScopeCache (S : ScopeTypes) := StateManager fun t : S.Id => ScopeValue (S.Obj t)

/-- `ScopeManager`. -/
structure ScopeManager (S : ScopeTypes) where
  commandScope : BTreeMap ScopeKey ResolvedScope
  globalScope : BTreeMap String ResolvedScope
  commandCache : BTreeMap ScopeKey (ScopeCache S)
  globalScopeCache : ScopeCache S

/-- `RuntimeAuthority`. -/
structure RuntimeAuthority (G P : Type) (S : ScopeTypes) where
  acl : Manifests
  allowedCommands : CommandTable G P
  deniedCommands : CommandTable G P
  scopeManager : ScopeManager S

/-- The errors of typed scope lookups. -/
inductive ScopeError where
  | cannotDeserializeScope (msg : String)
  deriving DecidableEq, Repr

/-- Deserialise every value of a scope; the first failure is returned. -/
def deserializeScope (S : ScopeTypes) (t : S.Id) (scope : ResolvedScope) :
    Except String (ScopeValue (S.Obj t)) := do
  let allow ← scope.allow.mapM (S.deserialize t)
  let deny ← scope.deny.mapM (S.deserialize t)
  return ⟨allow, deny⟩

namespace ScopeManager

variable {S : ScopeTypes}

/-- `get_global_scope_typed`: the answer and the scope manager after the call. -/
def getGlobalScopeTyped (sm : ScopeManager S) (t : S.Id) (key : String) :
    Outcome ScopeError (ScopeValue (S.Obj t)) × ScopeManager S :=
  match sm.globalScopeCache.tryGet t with
  | some cached => (.ok cached, sm)
  | none =>
    let scope :=
      match sm.globalScope[key]? with
      | some globalScope => deserializeScope S t globalScope
      | none => .ok ⟨[], []⟩
    match scope with
    | .error e => (.err (.cannotDeserializeScope e), sm)
    | .ok scope => (.ok scope, { sm with globalScopeCache := (sm.globalScopeCache.set t scope).2 })

/-- `get_command_scope_typed`: the answer and the scope manager after the call. -/
def getCommandScopeTyped (sm : ScopeManager S) (t : S.Id) (key : ScopeKey) :
    Outcome ScopeError (ScopeValue (S.Obj t)) × ScopeManager S :=
  match sm.commandCache[key]? with
  | none => (.panic "called `Option::unwrap()` on a `None` value", sm)
  | some cache =>
    match cache.tryGet t with
    | some cached => (.ok cached, sm)
    | none =>
      match sm.commandScope[key]? with
      | none => (.panic s!"missing command scope for key {key}", sm)
      | some resolvedScope =>
        match deserializeScope S t resolvedScope with
        | .error e => (.err (.cannotDeserializeScope e), sm)
        | .ok value =>
          (.ok value,
            { sm with commandCache := sm.commandCache.insert key (cache.set t value).2 })

end ScopeManager

/-- The capability map `add_capability` resolves: a later capability replaces an earlier one of
the same identifier. -/
def capabilitiesOf : CapabilityFile → Capabilities
  | .capability c => (∅ : Capabilities).insert c.identifier c
  | .list cs => BTreeMap.insertAll ∅ (cs.map fun c => (c.identifier, c))
  | .namedList cs => BTreeMap.insertAll ∅ (cs.map fun c => (c.identifier, c))

/-- Appending the values of a resolved scope. -/
def extendScope (scope more : ResolvedScope) : ResolvedScope where
  allow := scope.allow ++ more.allow
  deny := scope.deny ++ more.deny

namespace RuntimeAuthority

variable {G P : Type} {S : ScopeTypes} (E : Patterns G P)

/-- `RuntimeAuthority::new`. -/
def new (acl : Manifests) (resolvedAcl : Resolved G P) : RuntimeAuthority G P S where
  acl := acl
  allowedCommands := resolvedAcl.allowedCommands
  deniedCommands := resolvedAcl.deniedCommands
  scopeManager :=
    { commandScope := resolvedAcl.commandScope
      globalScope := resolvedAcl.globalScope
      commandCache := resolvedAcl.commandScope.map fun _ _ => StateManager.new
      globalScopeCache := StateManager.new }

/-- `RuntimeAuthority::has_app_manifest`. -/
def hasAppManifest (a : RuntimeAuthority G P S) : Bool := a.acl.contains appAclKey

/-- `RuntimeAuthority::__allow_command`. -/
def allowCommand (a : RuntimeAuthority G P S) (command : String) (context : ExecutionContext P) :
    Outcome Error (RuntimeAuthority G P S) :=
  match E.newGlob "*" with
  | .error _ => .panic "called `Result::unwrap()` on an `Err` value"
  | .ok star =>
    .ok { a with
      allowedCommands := a.allowedCommands.insert command [{ context, windows := [star] }] }

/-- The loop of `add_capability` over the global scopes. Each entry empties the cache. -/
def fillGlobalScope (sm : ScopeManager S) (globalScope : BTreeMap String ResolvedScope) :
    ScopeManager S :=
  globalScope.toList.foldl (fun sm ks =>
    { sm with
      globalScope := sm.globalScope.upsert ks.1 {} fun scope => extendScope scope ks.2
      globalScopeCache := StateManager.new }) sm

/-- The loop body of `add_capability` that fills the command scope of one resolved command. -/
def fillCommandScope (commandScope : BTreeMap ScopeKey ResolvedScope) (sm : ScopeManager S)
    (resolvedCmd : ResolvedCommand G P) : Outcome Error (ScopeManager S) :=
  match resolvedCmd.scopeId with
  | none => .ok sm
  | some scopeId =>
    match commandScope[scopeId]? with
    | none => .panic "called `Option::unwrap()` on a `None` value"
    | some scope =>
      .ok { sm with
        commandScope := sm.commandScope.upsert scopeId {} fun old => extendScope old scope
        commandCache := sm.commandCache.insert scopeId StateManager.new }

/-- `RuntimeAuthority::add_capability`, on the capability file that the argument builds. -/
def addCapability (fuel : Nat) (target : Target) (a : RuntimeAuthority G P S)
    (file : CapabilityFile) : Outcome Error (RuntimeAuthority G P S) :=
  (Resolved.resolve E fuel a.acl (capabilitiesOf file) target).unwrap
    "called `Result::unwrap()` on an `Err` value" >>= fun resolved =>
  let a := { a with
    scopeManager := fillGlobalScope a.scopeManager resolved.globalScope
    deniedCommands := a.deniedCommands.upsertAll [] (fun entry cmds => entry ++ cmds)
      resolved.deniedCommands.toList }
  resolved.allowedCommands.toList.foldlM (fun a kc =>
    kc.2.foldlM (fillCommandScope resolved.commandScope) a.scopeManager >>= fun scopeManager =>
    .ok { a with
      scopeManager
      allowedCommands := a.allowedCommands.upsert kc.1 [] fun entry => entry ++ kc.2 }) a

/-- Whether a table entry applies to the origin and to the labels. -/
def applies (window webview : String) (origin : Origin) (cmd : ResolvedCommand G P) : Bool :=
  origin.matches E cmd.context &&
    (cmd.webviews.any (fun w => E.globMatches w webview) ||
      cmd.windows.any fun w => E.globMatches w window)

/-- `RuntimeAuthority::resolve_access`. The first test keeps the source's `is_some`: it asks
whether the command has denied entries, not whether one of them matches. -/
def resolveAccess (a : RuntimeAuthority G P S) (command window webview : String)
    (origin : Origin) : Option (List (ResolvedCommand G P)) :=
  if (a.deniedCommands[command]?.map fun resolved =>
      resolved.any fun cmd => origin.matches E cmd.context).isSome then none
  else
    a.allowedCommands[command]?.bind fun resolved =>
      let resolvedCmds := resolved.filter (applies E window webview origin)
      if resolvedCmds.isEmpty then none else some resolvedCmds

end RuntimeAuthority

end Tauri.Ipc
