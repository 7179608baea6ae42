import Tauri.Rust.Outcome
import Tauri.Acl.Types

/-!
# Resolving capabilities

`Resolved.resolve` turns manifests and capabilities into the tables the runtime looks commands
up in: for each command string the entries that allow it and those that deny it, the scope
values behind each scope id, and the global scope of each manifest.

The traversal of permission sets is the one unbounded recursion. It is cut in two: `setMember`
and `entryReference` say **what one reference stands for** — nothing, a permission or another
set, an error, or a panic — and `getPermissionSetPermissions` follows the references of a set in
order, with a fuel argument that bounds the nesting.
-/

namespace Tauri.Acl

open Rust

/-- `ScopeKey`. -/
abbrev ScopeKey := Nat

/-- What referenced a resolved command (kept in debug builds). -/
structure ResolvedCommandReference where
  capability : String := ""
  permission : String := ""
  deriving DecidableEq, Repr

/-- A resolved command permission. -/
structure ResolvedCommand (G P : Type) where
  context : ExecutionContext P := .local_
  referencedBy : ResolvedCommandReference := {}
  windows : List G := []
  webviews : List G := []
  scopeId : Option ScopeKey := none
  deriving DecidableEq, Repr

/-- The scope values of one command entry, or of one manifest. -/
structure ResolvedScope where
  allow : List Value := []
  deny : List Value := []
  deriving Repr

/-- Allowed or denied commands: the entries of each command string. -/
abbrev CommandTable (G P : Type) := BTreeMap String (List (ResolvedCommand G P))

/-- The resolved access control list. -/
structure Resolved (G P : Type) where
  allowedCommands : CommandTable G P
  deniedCommands : CommandTable G P
  commandScope : BTreeMap ScopeKey ResolvedScope
  globalScope : BTreeMap String ResolvedScope

/-! ### Following permission references -/

/-- A permission found from a capability, with the manifest key it was found under. -/
structure TraversedPermission where
  key : String
  permissionName : String
  permission : Permission

/-- A permission set about to be traversed: `permissionId` carries the manifest key that the
members without a known prefix are looked up under. -/
structure SetNode where
  permissionId : Identifier
  manifest : Manifest
  set : PermissionSet

/-- What a reference stands for. `nothing` is a `default` that its manifest does not declare. -/
inductive Reference where
  | nothing
  | permission (t : TraversedPermission)
  | set (node : SetNode)

/-- The manifest key an identifier refers to. -/
def manifestKey (permissionId : Identifier) : String := permissionId.getPrefix.getD appAclKey

/-- `display_perm_key`. -/
def displayPermKey (key : String) : String := if key = appAclKey then "app manifest" else key

/-- What the member `perm` of the set at `node` stands for: the loop body of
`get_permission_set_permissions`. The order of the tests is that of the source: `default`, then
the permissions, then the sets. -/
def setMember (acl : Manifests) (node : SetNode) (perm : String) : Outcome Error Reference :=
  match Identifier.tryFrom perm with
  | .error _ => .panic "invalid identifier in permission set?"
  | .ok id =>
    let (manifest, permissionId, key, permissionName) :=
      match id.getPrefix.bind fun k => acl[k]?.map fun m => (k, m) with
      | some (newKey, manifest) => (manifest, id, newKey, id.getBase)
      | none => (node.manifest, node.permissionId, manifestKey node.permissionId, perm)
    if permissionName = "default" then
      match manifest.defaultPermission with
      | none => .ok .nothing
      | some default => .ok (.set ⟨permissionId, manifest, default⟩)
    else
      match manifest.permissions[permissionName]? with
      | some permission => .ok (.permission ⟨key, permissionName, permission⟩)
      | none =>
        match manifest.permissionSets[permissionName]? with
        | some set => .ok (.set ⟨permissionId, manifest, set⟩)
        | none => .err (.setPermissionNotFound permissionName node.set.identifier)

/-- What a permission entry of a capability stands for: the body of `get_permissions`. Here the
sets come before the permissions. -/
def entryReference (permissionId : Identifier) (acl : Manifests) : Outcome Error Reference :=
  let key := manifestKey permissionId
  let permissionName := permissionId.getBase
  match acl[key]? with
  | none => .err (.unknownManifest (displayPermKey key) (", ".intercalate acl.keys))
  | some manifest =>
    if permissionName = "default" then
      match manifest.defaultPermission with
      | none => .ok .nothing
      | some default => .ok (.set ⟨permissionId, manifest, default⟩)
    else
      match manifest.permissionSets[permissionName]? with
      | some set => .ok (.set ⟨permissionId, manifest, set⟩)
      | none =>
        match manifest.permissions[permissionName]? with
        | some permission => .ok (.permission ⟨key, permissionName, permission⟩)
        | none => .err (.unknownPermission (displayPermKey key) permissionName)

/-- The permissions behind a reference, given how sets are traversed. -/
def follow (traverse : SetNode → Outcome Error (List TraversedPermission)) :
    Reference → Outcome Error (List TraversedPermission)
  | .nothing => .ok []
  | .permission t => .ok [t]
  | .set node => traverse node

/-- `get_permission_set_permissions`, with at most `fuel` nested sets. -/
def getPermissionSetPermissions (acl : Manifests) :
    Nat → SetNode → Outcome Error (List TraversedPermission)
  | 0, _ => .outOfFuel
  | fuel + 1, node =>
    node.set.permissions.foldlM (fun permissions perm =>
      (setMember acl node perm >>= follow (getPermissionSetPermissions acl fuel)) >>=
        fun found => .ok (permissions ++ found)) []

/-- `get_permissions`. -/
def getPermissions (fuel : Nat) (permissionId : Identifier) (acl : Manifests) :
    Outcome Error (List TraversedPermission) :=
  entryReference permissionId acl >>= follow (getPermissionSetPermissions acl fuel)

/-! ### From a permission to table entries -/

/-- A permission with the scope of the capability entry that reached it. -/
structure ResolvedPermission where
  key : String
  permissionName : String
  commands : Commands
  scope : Scopes

/-- `acc.get_or_insert_with(Default::default).extend(values)`, for present `values`. -/
def extendValues (acc values : Option (List Value)) : Option (List Value) :=
  match values with
  | none => acc
  | some vs => some (acc.getD [] ++ vs)

/-- The scope a capability entry adds. -/
def PermissionEntry.scope : PermissionEntry → Scopes
  | .permissionRef _ => {}
  | .extendedPermission _ scope => scope

/-- The argument of the callback of `with_resolved_permissions`: the scope of the entry comes
before that of the permission. -/
def resolvedPermission (entry : PermissionEntry) (t : TraversedPermission) :
    ResolvedPermission where
  key := t.key
  permissionName := t.permissionName
  commands := t.permission.commands
  scope :=
    { allow := extendValues (extendValues none entry.scope.allow) t.permission.scope.allow
      deny := extendValues (extendValues none entry.scope.deny) t.permission.scope.deny }

/-- `with_resolved_permissions`: run the callback, in order, on the active permissions that the
entries of the capability reach. -/
def withResolvedPermissions {σ : Type} (fuel : Nat) (capability : Capability) (acl : Manifests)
    (target : Target) (f : σ → ResolvedPermission → Outcome Error σ) (s : σ) : Outcome Error σ :=
  capability.permissions.foldlM (fun s entry =>
    getPermissions fuel entry.identifier acl >>= fun permissions =>
      (permissions.filter fun t => t.permission.isActive target).foldlM
        (fun s t => f s (resolvedPermission entry t)) s) s

/-- The command string of a command of the manifest `key`. -/
def commandName (key command : String) : String :=
  if key = appAclKey then command
  else
    match stripPrefix "core:" key with
    | some corePluginName => "plugin:" ++ corePluginName ++ "|" ++ command
    | none => "plugin:" ++ key ++ "|" ++ command

section Resolve

variable {G P : Type} (E : Patterns G P)

/-- `glob::Pattern::new`, with its error as an ACL error. -/
def newGlobPattern (pattern : String) : Outcome Error G :=
  match E.newGlob pattern with
  | .ok g => .ok g
  | .error e => .err (.glob e)

/-- `parse_glob_patterns`. -/
def parseGlobPatterns (raw : List String) : Outcome Error (List G) :=
  (raw.insertionSort (· ≤ ·)).foldlM (fun patterns pattern =>
    newGlobPattern E pattern >>= fun g => .ok (patterns ++ [g])) []

/-- The execution context of a remote URL; a pattern that does not parse panics. -/
def remoteContext (url : String) : Outcome Error (ExecutionContext P) :=
  match E.parseUrl url with
  | .ok pattern => .ok (.remote pattern)
  | .error e => .panic s!"invalid URL pattern for remote URL {url}: {e}"

/-- The execution contexts of a capability. -/
def executionContexts (capability : Capability) : Outcome Error (List (ExecutionContext P)) :=
  let contexts := if capability.local_ then [ExecutionContext.local_] else []
  match capability.remote with
  | none => .ok contexts
  | some remote =>
    remote.urls.foldlM (fun contexts url =>
      remoteContext E url >>= fun context => .ok (contexts ++ [context])) contexts

/-- `resolve_command`: one entry for each execution context of the capability. -/
def resolveCommand (commands : CommandTable G P) (command : String) (capability : Capability)
    (scopeId : Option ScopeKey) (permissionIdentifier : String) :
    Outcome Error (CommandTable G P) :=
  executionContexts E capability >>= fun contexts =>
    contexts.foldlM (fun commands context =>
      parseGlobPatterns E capability.windows >>= fun windows =>
      parseGlobPatterns E capability.webviews >>= fun webviews =>
      .ok (commands.upsert command [] fun entries => entries ++
        [{ context, referencedBy := ⟨capability.identifier, permissionIdentifier⟩,
           windows, webviews, scopeId }])) commands

/-- The variables that `Resolved::resolve` updates. -/
structure ResolveState (G P : Type) where
  allowedCommands : CommandTable G P := ∅
  deniedCommands : CommandTable G P := ∅
  currentScopeId : ScopeKey := 0
  commandScope : BTreeMap ScopeKey ResolvedScope := ∅
  globalScope : BTreeMap String (List Scopes) := ∅

/-- Whether a permission names no command, so that its scope is a global one. -/
def ResolvedPermission.isGlobal (rp : ResolvedPermission) : Bool :=
  rp.commands.allow.isEmpty && rp.commands.deny.isEmpty

/-- Whether a permission has scope values of its own. -/
def ResolvedPermission.isScoped (rp : ResolvedPermission) : Bool :=
  rp.scope.allow.isSome || rp.scope.deny.isSome

/-- The scope stored for a permission that names commands. -/
def ResolvedPermission.resolvedScope (rp : ResolvedPermission) : ResolvedScope where
  allow := rp.scope.allow.getD []
  deny := rp.scope.deny.getD []

/-- The scope id of the entries of a permission: a fresh one when it has scope values. -/
def allocScope (st : ResolveState G P) (rp : ResolvedPermission) :
    Option ScopeKey × ResolveState G P :=
  if rp.isScoped then
    (some (st.currentScopeId + 1),
      { st with
        currentScopeId := st.currentScopeId + 1
        commandScope := st.commandScope.insert (st.currentScopeId + 1) rp.resolvedScope })
  else (none, st)

/-- The callback of `Resolved::resolve`. -/
def resolvePermission (capability : Capability) (st : ResolveState G P)
    (rp : ResolvedPermission) : Outcome Error (ResolveState G P) :=
  if rp.isGlobal then
    .ok { st with
      globalScope := st.globalScope.upsert rp.key [] fun scopes => scopes ++ [rp.scope] }
  else
    let (scopeId, st) := allocScope st rp
    rp.commands.allow.foldlM (fun commands command =>
      resolveCommand E commands (commandName rp.key command) capability scopeId
        rp.permissionName) st.allowedCommands >>= fun allowedCommands =>
    rp.commands.deny.foldlM (fun commands command =>
      resolveCommand E commands (commandName rp.key command) capability scopeId
        rp.permissionName) st.deniedCommands >>= fun deniedCommands =>
    .ok { st with allowedCommands, deniedCommands }

/-- Appending the values of one scope to a global scope. -/
def ResolvedScope.extendScopes (acc : ResolvedScope) (scope : Scopes) : ResolvedScope where
  allow := acc.allow ++ scope.allow.getD []
  deny := acc.deny ++ scope.deny.getD []

/-- The capabilities that apply to the target, in the order of their keys. -/
def activeCapabilities (capabilities : Capabilities) (target : Target) : List Capability :=
  capabilities.vals.filter fun c => c.isActive target

/-- `Resolved::resolve`. -/
def Resolved.resolve (fuel : Nat) (acl : Manifests) (capabilities : Capabilities)
    (target : Target) : Outcome Error (Resolved G P) :=
  (activeCapabilities capabilities target).foldlM (fun st capability =>
    withResolvedPermissions fuel capability acl target (resolvePermission E capability) st) {} >>=
  fun st => .ok
    { allowedCommands := st.allowedCommands
      deniedCommands := st.deniedCommands
      commandScope := st.commandScope
      globalScope := st.globalScope.map fun _ scopes => scopes.foldl ResolvedScope.extendScopes {} }

end Resolve

end Tauri.Acl
